import GrammarLinker.Proofs.Copy.Isomorphism

/-!
# Two copies that are made in lockstep

A grammar that was resolved on its own is copied as it was before, object by object in the same order. What is done with lists and
repositories does not look at nodes (`Copier.Blind`). A node differs at most in that an include stands for a list of its grammar by now;
but this list has been recorded at the time when the include is copied, since the repository in which the include was declared and
the ones around it have, and the root and the repository of the grammar (`Copier.Sound.recorded_own`). So the two copies stay twins
(`Copier.Twin`), and end with the same lists and repositories (`Grammar.copy_lockstep`).
-/

namespace GrammarLinker

open Arena

namespace Copier

variable {α β : Type} {x : CopyM α} {c d c' : Copier} {value : α}

/-! ## Parts that do not look at nodes -/

/-- A state with other nodes and other registered includes. -/
def withNodes (c : Copier) (nodes : Array Node) (includes : List NodeId) : Copier :=
  { c with arena := { c.arena with nodes }, includes }

/-- A part of copying neither looks at nodes nor changes them. -/
def Blind (x : CopyM α) : Prop :=
  ∀ c nodes includes, x.run (c.withNodes nodes includes) = (x.run c).map fun p => (p.1, p.2.withNodes nodes includes)

/-- A value may be given back. -/
theorem blind_pure (value : α) : Blind (pure value) := fun _ _ _ => rfl

/-- Parts that do not look at nodes may follow each other. -/
theorem Blind.bind {f : α → CopyM β} (hx : Blind x) (hf : ∀ value, Blind (f value)) : Blind (x >>= f) := by
  intro c nodes includes
  rw [StateT.run_bind, StateT.run_bind, hx]
  cases x.run c with
  | error fault => rfl
  | ok p => exact hf p.1 p.2 nodes includes

/-- The state may be read, if what is done with it does not depend on nodes. -/
theorem blind_get {f : Copier → CopyM α} (hf : ∀ c nodes includes, (f (c.withNodes nodes includes)).run (c.withNodes nodes includes) =
    ((f c).run c).map fun p => (p.1, p.2.withNodes nodes includes)) : Blind (get >>= f) := hf

/-- What is read, but for nodes, may be used. -/
theorem blind_lift {e e' : Except Fault β} {f : β → CopyM α} (he : e' = e) (hf : ∀ value, Blind (f value)) (c : Copier)
    (nodes : Array Node) (includes : List NodeId) : (liftM e' >>= f).run (c.withNodes nodes includes) =
      ((liftM e >>= f).run c).map fun p => (p.1, p.2.withNodes nodes includes) := by
  subst he
  cases e' with
  | error fault => rfl
  | ok value => exact hf value c nodes includes

/-- A repository may be read. -/
theorem blind_repository (source : RepositoryId) {f : Repository → CopyM α} (hf : ∀ r, Blind (f r)) :
    Blind (do f (← (← get).arena.repository source)) :=
  fun c nodes includes => blind_lift rfl hf c nodes includes

/-- To ask for the copy of a list is not to look at nodes. -/
theorem blind_mapList (source : ListId) : Blind (mapList source) := by
  intro c nodes includes
  simp only [mapList, StateT.run, withNodes]
  cases c.lists.lookup source <;> rfl

/-- An entry is put in the same way whatever the nodes are. -/
theorem insertEntry_withNodes (c : Copier) (nodes : Array Node) (includes : List NodeId) (id : RepositoryId) (key : String)
    (list : ListId) : (c.withNodes nodes includes).arena.insertEntry id key list =
      (c.arena.insertEntry id key list).map fun b => { b with nodes } := by
  unfold Arena.insertEntry withNodes
  split <;> rfl

/-- Copying entries does not look at nodes. -/
theorem blind_mapEntries (copy : RepositoryId) (entries : List (String × ListId)) : Blind (mapEntries copy entries) := by
  induction entries with
  | nil => exact blind_pure ()
  | cons entry rest ih =>
    obtain ⟨key, l⟩ := entry
    unfold mapEntries
    refine (blind_mapList l).bind fun mapped c nodes includes => ?_
    show (liftM ((c.withNodes nodes includes).arena.insertEntry copy key mapped) >>= fun arena =>
        set { c.withNodes nodes includes with arena } >>= fun _ => mapEntries copy rest : CopyM Unit).run _ =
      Except.map _ ((liftM (c.arena.insertEntry copy key mapped) >>= fun arena =>
        set { c with arena } >>= fun _ => mapEntries copy rest : CopyM Unit).run c)
    rw [insertEntry_withNodes]
    cases c.arena.insertEntry copy key mapped with
    | error fault => rfl
    | ok b => exact ih { c with arena := b } nodes includes

/-- Copying a repository does not look at nodes. -/
theorem blind_copyRepository (source : RepositoryId) (parent : Option RepositoryId) : Blind (copyRepository source parent) := by
  refine blind_get fun c nodes includes => ?_
  have hentries : ∀ r : Repository, Blind (do mapEntries (c.arena.allocRepository parent).1 r.entries; return (c.arena.allocRepository parent).1) :=
    fun r => (blind_mapEntries _ r.entries).bind fun _ => blind_pure _
  exact blind_lift rfl hentries
    { c with
      arena := (c.arena.allocRepository parent).2
      repositories := (source, (c.arena.allocRepository parent).1) :: c.repositories } nodes includes

/-- Neither does copying those around it. -/
theorem blind_mapRepositoryWithin (levels : Nat) (source : RepositoryId) : Blind (mapRepositoryWithin levels source) := by
  induction levels generalizing source with
  | zero => exact fun _ _ _ => rfl
  | succ levels ih =>
    unfold mapRepositoryWithin
    refine blind_get fun c nodes includes => ?_
    rw [show (c.withNodes nodes includes).repositories = c.repositories from rfl]
    cases c.repositories.lookup source with
    | some copy => rfl
    | none =>
      refine blind_repository source (fun r => ?_) c nodes includes
      cases r.parent with
      | none => exact blind_copyRepository source none
      | some outer => exact (ih outer).bind fun parent => blind_copyRepository source (some parent)

/-- To ask for the copy of a repository is not to look at nodes. -/
theorem blind_mapRepository (source : RepositoryId) : Blind (mapRepository source) :=
  fun c nodes includes => blind_mapRepositoryWithin (c.arena.repositories.size + 1) source c nodes includes

/-- Neither is it where there may be no repository. -/
theorem blind_mapRepository? (source : Option RepositoryId) : Blind (mapRepository? source) := by
  cases source with
  | none => exact blind_pure none
  | some source =>
    rw [mapRepository?, map_eq_pure_bind]
    exact (blind_mapRepository source).bind fun copy => blind_pure (some copy)

/-- Copying what a node is looks at nothing but what is given. -/
theorem blind_mapBody (body : NodeBody) : Blind (mapBody body) := by
  cases body with
  | rule children =>
    rw [mapBody, map_eq_pure_bind]
    exact (blind_mapList children).bind fun copy => blind_pure (NodeBody.rule copy)
  | inclusion i =>
    unfold mapBody
    refine (blind_mapRepository? i.repository).bind fun repository => ?_
    cases i.state with
    | pending reference => exact blind_pure _
    | resolved target => exact (blind_mapList target).bind fun copy => blind_pure _

/-! ## Twins -/

/-- Two copies that are being made have come equally far: they differ in nodes and in what is registered alone. In the second one stand
the nodes of an arena. -/
structure Twin (n : Arena) (c d : Copier) : Prop where
  nodes : d.nodes = c.nodes
  lists : d.lists = c.lists
  repositories : d.repositories = c.repositories
  queue : d.queue = c.queue
  contents : d.arena.lists = c.arena.lists
  entries : d.arena.repositories = c.arena.repositories
  size : d.arena.nodes.size = c.arena.nodes.size
  node : ∀ id node, n.node id = .ok node → d.arena.node id = .ok node

/-- A twin is the copy with other nodes. -/
theorem Twin.eq_withNodes {n : Arena} (h : Twin n c d) : d = c.withNodes d.arena.nodes d.includes := by
  obtain ⟨hnodes, hlists, hrepositories, hqueue, hcontents, hentries, -, -⟩ := h
  simp only [withNodes, ← hnodes, ← hlists, ← hrepositories, ← hqueue, ← hcontents, ← hentries]

/-- What a part does to a copy it does to its twin. -/
def Follows (n : Arena) (x : CopyM α) (c d : Copier) : Prop :=
  ∀ value c', x.run c = .ok (value, c') → ∃ d', x.run d = .ok (value, d') ∧ Twin n c' d'

variable {m n : Arena} {Q : α → Copier → Prop}

/-- What does not look at nodes does the same to a twin. -/
theorem Blind.follows (hx : Blind x) (h : Twin n c d) : Follows n x c d := by
  intro value c' hrun
  have hself := hx c c.arena.nodes c.includes
  have hd := hx c d.arena.nodes d.includes
  rw [show c.withNodes c.arena.nodes c.includes = c from rfl, hrun] at hself
  rw [← h.eq_withNodes, hrun] at hd
  have hnodes : c'.arena.nodes = c.arena.nodes := by
    have hc' : c' = c'.withNodes c.arena.nodes c.includes := congrArg Prod.snd (Except.ok.inj hself)
    rw [hc']
    rfl
  refine ⟨c'.withNodes d.arena.nodes d.includes, hd, rfl, rfl, rfl, rfl, rfl, rfl, ?_, h.node⟩
  rw [hnodes]
  exact h.size

/-- A value is given back to both twins. -/
theorem follows_pure (value : α) (h : Twin n c d) : Follows n (pure value) c d := (blind_pure value).follows h

/-- What is known of the first copy may be used. -/
theorem Follows.bind {f : α → CopyM β} (hx : Follows n x c d) (ha : Answers x c Q)
    (hf : ∀ value c' d', Q value c' → Twin n c' d' → Follows n (f value) c' d') : Follows n (x >>= f) c d := by
  obtain ⟨value, c', hrun, hq⟩ := ha
  obtain ⟨d', hrun', h⟩ := hx value c' hrun
  intro value' e he
  rw [run_bind_of_ok hrun] at he
  rw [run_bind_of_ok hrun']
  exact hf value c' d' hq h value' e he

/-! ## Nodes -/

variable {g : Grammar} {ρ : Region} {list : Option ListId}

/-- The root and the repository of a grammar are recorded. -/
structure Opened (g : Grammar) (c : Copier) : Prop where
  root : g.root ∈ c.lists.map Prod.fst
  repository : g.repository ∈ c.repositories.map Prod.fst

/-- What is recorded stays recorded. -/
theorem Opened.grows (h : Opened g c) (hg : c.Grows d) : Opened g d :=
  ⟨List.map_subset _ hg.lists h.root, List.map_subset _ hg.repositories h.repository⟩

/-- A list of its own grammar that an include refers to is recorded when the repository is in which the include was declared. -/
theorem Sound.recorded_own (h : Sound m ρ list none c) (ho : Opened g c) {id : NodeId} {text : String}
    {declared : Option RepositoryId} {state : IncludeState} (hi : m.inclusion id = .ok (some ⟨text, declared, state⟩))
    (hd : ∀ r, declared = some r → r ∈ c.repositories.map Prod.fst) {t : ListId} (hown : g.Own m id t) :
    t ∈ c.lists.map Prod.fst := by
  rcases hown.2 with ⟨text', declared', name, hi', ht⟩ | ⟨-, rfl⟩
  · rw [hi] at hi'
    cases hi'
    exact Registry.lists_entryTarget (ρ := c.recorded) h.refersInto_recorded ho.repository hd ht
  · exact ho.root

/-- A node that has a copy is not copied again. -/
theorem mapNode_of_lookup {source copy : NodeId} (hl : c.nodes.lookup source = some copy) :
    (mapNode source).run c = .ok (copy, c) := by
  have hget : (get : CopyM Copier).run c = .ok (c, c) := rfl
  unfold mapNode
  rw [run_bind_of_ok hget, hl]
  rfl

/-- The copy of a node that has none yet is made of the copy of what it is. -/
theorem mapNode_of_mapBody {source : NodeId} {node : Node} {body : NodeBody} (hl : c.nodes.lookup source = none)
    (hn : c.arena.node source = .ok node) (hb : (mapBody node.body).run c = .ok (body, d)) :
    (mapNode source).run c = .ok ((d.arena.allocNode { node with parent := none, body }).1, { d with
      arena := (d.arena.allocNode { node with parent := none, body }).2
      includes := if isPending node then d.includes ++ [(d.arena.allocNode { node with parent := none, body }).1] else d.includes
      nodes := (source, (d.arena.allocNode { node with parent := none, body }).1) :: d.nodes }) := by
  have hget : ∀ c : Copier, (get : CopyM Copier).run c = .ok (c, c) := fun _ => rfl
  have hlift : (liftM (c.arena.node source) : CopyM Node).run c = .ok (node, c) := by
    rw [hn]
    rfl
  unfold mapNode
  rw [run_bind_of_ok (hget c), hl]
  simp only
  rw [run_bind_of_ok (hget c), run_bind_of_ok hlift, run_bind_of_ok hb, run_bind_of_ok (hget d)]
  rfl

/-- A list that has a copy is not copied again. -/
theorem mapList_of_lookup {source copy : ListId} (hl : c.lists.lookup source = some copy) :
    (mapList source).run c = .ok (copy, c) := by
  simp only [mapList, StateT.run, hl]

section

variable (hr : ResolvesBy (g.Own m) m n) (hstays : m.StaysIn ρ) (hf : m.FiniteIn ρ)
include hr hstays hf

/-- What a node is has a copy whether or not the node has been resolved, and nothing is copied more or less for it. -/
theorem twin_mapBody (h : Sound m ρ list none c) (ho : Opened g c) (ht : Twin n c d) {source : NodeId} {node node' : Node}
    {body : NodeBody} (hρ : ρ.nodes source) (hn : m.node source = .ok node) (hn' : n.node source = .ok node')
    (hrun : (mapBody node.body).run c = .ok (body, c')) :
    ∃ body' d', (mapBody node'.body).run d = .ok (body', d') ∧ Twin n c' d' := by
  rcases hr.node source node hn with hsame | ⟨target, hown, ⟨reference, hp⟩, hresolved⟩
  · obtain rfl : node = node' := Except.ok.inj (hsame.symm.trans hn')
    exact ⟨body, (blind_mapBody node.body).follows ht body c' hrun⟩
  · obtain rfl : node.resolvedTo target = node' := Except.ok.inj (hresolved.symm.trans hn')
    obtain ⟨name, rule, parent, old⟩ := node
    obtain ⟨text, declared, rfl⟩ := Node.pending?_eq_some.1 hp
    obtain ⟨repository, c₁, hrun₁, hrel, h₁, hg₁, -⟩ :=
      answers_mapRepository? hstays hf h (hstays.node source _ hn hρ).1
    obtain ⟨d₁, hrun₁', ht₁⟩ := (blind_mapRepository? declared).follows ht repository c₁ hrun₁
    obtain rfl : c₁ = c' := congrArg Prod.snd (Except.ok.inj ((run_bind_of_ok hrun₁).symm.trans hrun))
    -- the list has been copied with the repositories, or as the root
    have hmem := h₁.recorded_own (ho.grows hg₁) (inclusion_of_node hn) (mem_of_rel hrel) hown
    rw [← ht₁.lists] at hmem
    obtain ⟨copy, hlookup⟩ : ∃ copy, d₁.lists.lookup target = some copy :=
      Option.ne_none_iff_exists'.1 fun hnone => not_mem_of_lookup hnone hmem
    exact ⟨_, d₁, (run_bind_of_ok hrun₁').trans (run_bind_of_ok (mapList_of_lookup hlookup)), ht₁⟩

variable (hρa : ρ.Within m.region)
include hρa

/-- A node has a copy of the same id. -/
theorem follows_mapNode (h : Sound m ρ list none c) (ho : Opened g c) (ht : Twin n c d) {source : NodeId} (hρ : ρ.nodes source) :
    Follows n (mapNode source) c d := by
  intro value c' hrun
  cases hl : c.nodes.lookup source with
  | some copy =>
    obtain ⟨rfl, rfl⟩ := Prod.mk.inj (Except.ok.inj ((mapNode_of_lookup hl).symm.trans hrun))
    exact ⟨d, mapNode_of_lookup (ht.nodes ▸ hl), ht⟩
  | none =>
    obtain ⟨node, hn⟩ := (hρa.nodes source hρ).node_ok
    obtain ⟨node', hn'⟩ := (hr.hasNode.2 (hρa.nodes source hρ)).node_ok
    obtain ⟨body, c₁, hbody, -⟩ := answers_mapBody hstays hf h (hstays.node source node hn hρ)
    obtain ⟨body', d₁, hbody', ht₁⟩ := twin_mapBody hr hstays hf h ho ht hρ hn hn' hbody
    obtain ⟨rfl, rfl⟩ :=
      Prod.mk.inj (Except.ok.inj ((mapNode_of_mapBody hl (h.grown.node _ _ hn) hbody).symm.trans hrun))
    have hid : (d₁.arena.allocNode { node' with parent := none, body := body' }).1 =
        (c₁.arena.allocNode { node with parent := none, body }).1 := congrArg NodeId.mk ht₁.size
    have hrun' := mapNode_of_mapBody (ht.nodes ▸ hl) (ht.node _ _ hn') hbody'
    rw [hid] at hrun'
    refine ⟨_, hrun', ?_, ht₁.lists, ht₁.repositories, ht₁.queue, ht₁.contents, ht₁.entries, ?_, ?_⟩
    · exact congrArg (List.cons _) ht₁.nodes
    · simp only [allocNode, Array.size_push, ht₁.size]
    · exact fun id k hk => (extends_allocNode _ _).node _ _ (ht₁.node id k hk)

/-- Nodes have copies of the same ids. -/
theorem follows_mapNodes {sources : List NodeId} (h : Sound m ρ list none c) (ho : Opened g c) (ht : Twin n c d)
    (hρ : ∀ source ∈ sources, ρ.nodes source) : Follows n (mapNodes sources) c d := by
  induction sources generalizing c d with
  | nil => exact follows_pure [] ht
  | cons source rest ih =>
    have hrest : ∀ s ∈ rest, ρ.nodes s := fun s hs => hρ s (List.mem_cons_of_mem _ hs)
    refine (follows_mapNode hr hstays hf hρa h ho ht (hρ source List.mem_cons_self)).bind
      (answers_mapNode hstays hρa hf h (hρ source List.mem_cons_self)) ?_
    rintro copy c₁ d₁ ⟨-, h₁, hg₁, -⟩ ht₁
    refine (ih h₁ (ho.grows hg₁) ht₁ hrest).bind (answers_mapNodes hstays hρa hf h₁ hrest) ?_
    rintro copies c₂ d₂ - ht₂
    exact follows_pure (copy :: copies) ht₂

end

/-! ## The queue -/

/-- Gives the copy of a list its items. -/
def putItems (source : ListId) (copies : List NodeId) : CopyM Unit := do
  let c ← get
  match c.lists.lookup source with
  | some copy => set { c with arena := ← c.arena.setList copy copies }
  | none => throw .dangling

/-- To fill a list is to copy its items and to write the copies. -/
theorem fillList_of_list {source : ListId} {items : List NodeId} (hl : c.arena.list source = .ok items) :
    (fillList source).run c = (mapNodes items >>= putItems source).run c := by
  have hget : (get : CopyM Copier).run c = .ok (c, c) := rfl
  have hlift : (liftM (c.arena.list source) : CopyM (List NodeId)).run c = .ok (items, c) := by
    rw [hl]
    rfl
  unfold fillList
  rw [run_bind_of_ok hget, run_bind_of_ok hlift]
  rfl

/-- The items of a list are written in the same way whatever the nodes are. -/
theorem setList_withNodes (c : Copier) (nodes : Array Node) (includes : List NodeId) (id : ListId) (items : List NodeId) :
    (c.withNodes nodes includes).arena.setList id items = (c.arena.setList id items).map fun b => { b with nodes } := by
  unfold Arena.setList withNodes
  split <;> rfl

/-- Writing items does not look at nodes. -/
theorem blind_putItems (source : ListId) (copies : List NodeId) : Blind (putItems source copies) := by
  refine blind_get fun c nodes includes => ?_
  rw [show (c.withNodes nodes includes).lists = c.lists from rfl]
  cases c.lists.lookup source with
  | none => rfl
  | some copy =>
    show (liftM ((c.withNodes nodes includes).arena.setList copy copies) >>= fun arena =>
        set { c.withNodes nodes includes with arena } : CopyM Unit).run _ =
      Except.map _ ((liftM (c.arena.setList copy copies) >>= fun arena => set { c with arena } : CopyM Unit).run c)
    rw [setList_withNodes]
    cases c.arena.setList copy copies <;> rfl

/-- Nothing is done when the queue is empty. -/
theorem drain_of_nil {fuel : Nat} (hq : c.queue = []) : (drain (fuel + 1)).run c = .ok (⟨⟩, c) := by
  have hget : (get : CopyM Copier).run c = .ok (c, c) := rfl
  rw [drain, run_bind_of_ok hget, hq]
  rfl

/-- Twins stay twins when both queues are set alike. -/
theorem Twin.pop (h : Twin n c d) (queue : List ListId) : Twin n { c with queue } { d with queue } :=
  ⟨h.nodes, h.lists, h.repositories, rfl, h.contents, h.entries, h.size, h.node⟩

section

variable (hr : ResolvesBy (g.Own m) m n) (hstays : m.StaysIn ρ) (hf : m.FiniteIn ρ) (hρa : ρ.Within m.region)
include hr hstays hf hρa

/-- A list is filled with the same copies. -/
theorem follows_fillList {source : ListId} (h : Sound m ρ (some source) none c) (ho : Opened g c) (ht : Twin n c d)
    (hs : source ∈ c.lists.map Prod.fst) : Follows n (fillList source) c d := by
  obtain ⟨p, hp, rfl⟩ := List.mem_map.1 hs
  have hρ := h.lists.reached p hp
  obtain ⟨items, hitems⟩ := (hρa.lists p.1 hρ).list_ok
  have hall : ∀ source ∈ items, ρ.nodes source := hstays.list _ _ hitems hρ
  have hfollows : Follows n (mapNodes items >>= putItems p.1) c d :=
    (follows_mapNodes hr hstays hf hρa h ho ht hall).bind (answers_mapNodes hstays hρa hf h hall)
      fun copies _ _ _ ht' => (blind_putItems p.1 copies).follows ht'
  have hc : c.arena.list p.1 = .ok items := h.grown.list _ _ hitems
  intro value c' hrun
  rw [fillList_of_list hc] at hrun
  rw [fillList_of_list ((list_congr ht.contents p.1).trans hc)]
  exact hfollows value c' hrun

/-- The queue is emptied in the same order. -/
theorem follows_drain {fuel : Nat} (h : Sound m ρ none none c) (ho : Opened g c) (ht : Twin n c d) :
    Follows n (drain fuel) c d := by
  induction fuel generalizing c d with
  | zero => exact fun value c' hrun => nomatch hrun
  | succ fuel ih =>
    intro value c' hrun
    cases hq : c.queue with
    | nil =>
      obtain ⟨rfl, rfl⟩ := Prod.mk.inj (Except.ok.inj ((drain_of_nil hq).symm.trans hrun))
      exact ⟨d, drain_of_nil (ht.queue.trans hq), ht⟩
    | cons source queue =>
      have hmem := h.queued source (hq ▸ List.mem_cons_self)
      have hpop : Opened g { c with queue } := ⟨ho.root, ho.repository⟩
      obtain ⟨u, c₁, hfill, h₁, hg₁⟩ := answers_fillList hstays hρa hf (h.pop hq) hmem
      obtain ⟨d₁, hfill', ht₁⟩ :=
        follows_fillList hr hstays hf hρa (h.pop hq) hpop (ht.pop queue) hmem u c₁ hfill
      rw [drain_of_fillList hq hfill] at hrun
      rw [drain_of_fillList (ht.queue.trans hq) hfill']
      exact ih h₁ (hpop.grows hg₁) ht₁ value c' hrun

/-- Everything up to the parents is copied in lockstep. -/
theorem follows_gather (hroot : ρ.lists g.root) (hrep : ρ.repositories g.repository) :
    Follows n (gather g.root g.repository) { arena := m } { arena := n } := by
  have hstart : Twin n { arena := m } { arena := n } :=
    ⟨rfl, rfl, rfl, rfl, hr.lists, hr.repositories, hr.size, fun _ _ h => h⟩
  refine ((blind_mapList g.root).follows hstart).bind (answers_mapList (sound_start m ρ) hroot) ?_
  rintro root c₁ d₁ ⟨hmem₁, h₁, -⟩ ht₁
  refine ((blind_mapRepository g.repository).follows ht₁).bind (answers_mapRepository hstays hf h₁ hrep) ?_
  rintro repository c₂ d₂ ⟨hmem₂, h₂, hg₂, -⟩ ht₂
  have ho : Opened g c₂ := ⟨List.mem_map_of_mem (hg₂.lists hmem₁), List.mem_map_of_mem hmem₂⟩
  intro value c' hrun
  obtain ⟨u, c₃, hdrain, hrun⟩ := exists_of_run_bind hrun
  obtain ⟨d₃, hdrain', ht₃⟩ := follows_drain hr hstays hf hρa h₂ ho ht₂ u c₃ hdrain
  rw [run_bind_of_ok hdrain']
  exact follows_pure (root, repository) ht₃ value c' hrun

end

/-- When nothing waits any more, what the grammar reaches is what has been recorded. -/
theorem Sound.mem_nodes_iff {a : Arena} (h : Sound a (g.reach a) none none c) (hq : c.queue = []) (ho : Opened g c) {id : NodeId} :
    id ∈ c.nodes.map Prod.fst ↔ g.Reaches a (.node id) := by
  constructor
  · intro hid
    obtain ⟨p, hp, rfl⟩ := List.mem_map.1 hid
    exact h.nodes.reached p hp
  · exact (Grammar.reach_within (h.staysIn hq) ho.root ho.repository).nodes id

end Copier

namespace Grammar

open Copier

variable {g : Grammar} {m n : Arena} {ρ : Region}

/-- A copy is made once its objects are gathered and its parents linked. -/
theorem copy_of_gather {a b : Arena} {ids : ListId × RepositoryId} {c : Copier}
    (hrun : (gather g.root g.repository).run { arena := a } = .ok (ids, c)) (hb : linkParents c.nodes c.nodes c.arena = .ok b) :
    g.copy a = .ok ({ g with
      root := ids.1, repository := ids.2, registry := { owner := g.scopeName, includes := c.includes } }, b) := by
  unfold Grammar.copy
  rw [copyFrom_of_gather hrun hb]
  rfl

/-- A grammar is copied before it is resolved on its own and after it under the same renaming, and the lists and repositories of the two
arenas are the same ones. -/
theorem copy_lockstep (hc : m.ClosedIn ρ) (hf : m.FiniteIn ρ) (hρ : ρ.Within m.region) (hg : g.LiesIn ρ)
    (hr : ResolvesBy (g.Own m) m n) (hroom : m.lists.size < Arena.capacity) :
    ∃ copy copy' c b φ, g.copy m = .ok (copy, c) ∧ g.copy n = .ok (copy', b) ∧ m.Extends c ∧ n.Extends b ∧
      g.CopiedBy copy m c φ ∧ g.CopiedBy copy' n b φ ∧ b.lists = c.lists ∧ b.repositories = c.repositories ∧
      b.nodes.size = c.nodes.size ∧ ∀ id, g.Reaches n (.node id) ↔ g.Reaches m (.node id) := by
  have hcn : n.ClosedIn ρ := hr.closedIn hc fun id target _ h => h.lists hc hg
  have hreach : (g.reach m).Within ρ := reach_within hc.staysIn hg.root hg.repository
  have hreach' : (g.reach n).Within ρ := reach_within hcn.staysIn hg.root hg.repository
  have hm : (g.reach m).Within m.region := hreach.trans hρ
  have hn : (g.reach n).Within n.region := by
    rw [hr.region_eq]
    exact hreach'.trans hρ
  have hfm : m.FiniteIn (g.reach m) := fun id hid => hf id (hreach.repositories id hid)
  have hfn : n.FiniteIn (g.reach n) := fun id hid => hr.finiteIn hf id (hreach'.repositories id hid)
  rcases gather_cases (g.reach_staysIn m) hm hfm .root .repository with ⟨-, hle⟩ | ⟨⟨root, repository⟩, c, hrun, h, hq, hroot, hrep⟩
  · exact absurd hroom (Nat.not_lt.2 hle)
  obtain ⟨d, hrun', ht⟩ := follows_gather hr (g.reach_staysIn m) hfm hm .root .repository _ c hrun
  obtain ⟨h', hq', hroot', hrep'⟩ : Copier.Sound n (g.reach n) none none d ∧ d.queue = [] ∧ (g.root, root) ∈ d.lists ∧
      (g.repository, repository) ∈ d.repositories := by
    rcases gather_cases (g.reach_staysIn n) hn hfn .root .repository with ⟨hfault, -⟩ | ⟨ids, d', hrun'', hd⟩
    · cases hrun'.symm.trans hfault
    · obtain ⟨rfl, rfl⟩ := Prod.mk.inj (Except.ok.inj (hrun'.symm.trans hrun''))
      exact hd
  obtain ⟨b₁, hb₁, -, hlists, hrepositories, hsize, -⟩ := linkParents_ok h.grown
    (fun p hp => hm.nodes _ (h.nodes.reached p hp)) (fun p hp => h.hasNode hp) h.nodes.copies
  obtain ⟨b₂, hb₂, -, hlists', hrepositories', hsize', -⟩ := linkParents_ok h'.grown
    (fun p hp => hn.nodes _ (h'.nodes.reached p hp)) (fun p hp => h'.hasNode hp) h'.nodes.copies
  obtain ⟨hx, -, hcopied⟩ := copiedBy_of_sound h hq hm hroot hrep hb₁
  obtain ⟨hx', -, hcopied'⟩ := copiedBy_of_sound h' hq' hn hroot' hrep' hb₂
  have hφ : d.toRenaming = c.toRenaming := by
    simp only [toRenaming, ht.nodes, ht.lists, ht.repositories]
  rw [hφ] at hcopied'
  refine ⟨_, _, b₁, b₂, c.toRenaming, copy_of_gather hrun hb₁, copy_of_gather hrun' hb₂, hx, hx', hcopied, hcopied', ?_, ?_, ?_,
    fun id => ?_⟩
  · rw [hlists', ht.contents, hlists]
  · rw [hrepositories', ht.entries, hrepositories]
  · rw [hsize', ht.size, hsize]
  · rw [← h'.mem_nodes_iff hq' ⟨List.mem_map_of_mem hroot', List.mem_map_of_mem hrep'⟩, ht.nodes,
      h.mem_nodes_iff hq ⟨List.mem_map_of_mem hroot, List.mem_map_of_mem hrep⟩]

end Grammar

end GrammarLinker
