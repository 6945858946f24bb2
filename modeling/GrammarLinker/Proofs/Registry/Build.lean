import GrammarLinker.Proofs.Registry.Layout

/-!
# What a build makes of records

`Draft.Runs` says of a part of a build that it answers, by which steps it goes, and what holds of its value. Building a record goes by
steps that leave alone everything that was there before (`Draft.builds_all`), and the node that comes out shows the record
(`Arena.Shows`): an include with its text and the repository around it, or a rule with its name and what it matches. A repository is
filled with a list for every entry, which shows what the entry stands for. What is inside a record is laid out in what is added while
the record is built (`Draft.Laid`).

A rule is built in three parts (`Record.build_rule`): it is added with an empty list (`Draft.runs_newRule`), the repository is opened
in which its patterns are built (`Draft.runs_openScope`), and the list is filled with these (`Draft.runs_children`).
-/

namespace GrammarLinker

open Arena

namespace Draft

variable {α β : Type} {lo : Arena} {ω ω' : Region} {d d' : Draft} {x : LinkM Draft α} {Q : α → Draft → Prop}

/-- A part of a build answers, and goes by steps; what is said of its value holds if it has one, and an error is a malformed reference
of the grammar that is built. -/
def Runs (lo : Arena) (ω : Region) (x : LinkM Draft α) (d : Draft) (Q : α → Draft → Prop) : Prop :=
  ∃ answer d', x.start d = .ok (answer, d') ∧ Steps lo ω d d' ∧ (∀ value, answer = .ok value → Q value d') ∧
    ∀ e, answer = .error e → ∃ malformed, e = .malformedReference d.registry.owner malformed

/-- A value is given back without a step. -/
theorem runs_pure {value : α} (h : Q value d) : Runs lo ω (pure value) d Q :=
  ⟨.ok value, d, rfl, .refl, fun _ hv => Except.ok.inj hv ▸ h, nofun⟩

/-- A part that answers with one step goes by that step. -/
theorem runs_step {value : α} (hx : x.start d = .ok (.ok value, d')) (hs : Step lo ω d d') (h : Q value d') :
    Runs lo ω x d Q :=
  ⟨.ok value, d', hx, .single hs, fun _ hv => Except.ok.inj hv ▸ h, nofun⟩

/-- Parts of a build may follow each other. -/
theorem Runs.bind {f : α → LinkM Draft β} {R : β → Draft → Prop} (hx : Runs lo ω x d Q)
    (hf : ∀ value d', Steps lo ω d d' → Q value d' → Runs lo ω (f value) d' R) : Runs lo ω (x >>= f) d R := by
  obtain ⟨answer, d₁, hrun, hsteps, hq, he⟩ := hx
  cases answer with
  | error e => exact ⟨.error e, d₁, by rw [LinkM.start_bind, hrun], hsteps, nofun, fun e' h => Except.error.inj h ▸ he e rfl⟩
  | ok value =>
    obtain ⟨answer', d₂, hrun', hsteps', hr, he'⟩ := hf value d₁ hsteps (hq value rfl)
    rw [hsteps.owner] at he'
    exact ⟨answer', d₂, by rw [LinkM.start_bind, hrun]; exact hrun', hsteps.trans hsteps', hr, he'⟩

/-- What leaves a region alone leaves every part of it alone. -/
theorem Runs.weaken (h : Runs lo ω x d Q) (hω : ω'.Within ω) : Runs lo ω' x d Q := by
  obtain ⟨answer, d', hrun, hsteps, hq, he⟩ := h
  exact ⟨answer, d', hrun, hsteps.weaken hω, hq, he⟩

/-- Less may be said of the value. -/
theorem Runs.imp {R : α → Draft → Prop} (h : Runs lo ω x d Q) (hq : ∀ value d', Steps lo ω d d' → Q value d' → R value d') :
    Runs lo ω x d R := by
  obtain ⟨answer, d', hrun, hsteps, hv, he⟩ := h
  exact ⟨answer, d', hrun, hsteps, fun value ha => hq value d' hsteps (hv value ha), he⟩

/-- What is left alone can be relied on afterwards, also when less is asked to be left alone. -/
theorem Runs.steps (h : Runs lo ω x d Q) : Runs lo ω x d fun value d' => Q value d' ∧ Steps lo ω d d' :=
  h.imp fun _ _ hs hq => ⟨hq, hs⟩

/-! ### The steps -/

/-- A rule with a blank list of children may be added. -/
theorem runs_allocNode {node : Node} {children : ListId} (hb : node.body = .rule children) (hn : node.RefersInto (d.added lo))
    (hc : d.arena.Blank (d.added lo) children) :
    Runs lo ω (allocNode node) d fun id d' =>
      id = (d.arena.allocNode node).1 ∧ d' = { d with arena := (d.arena.allocNode node).2 } :=
  runs_step rfl (.rule hb hn hc) ⟨rfl, rfl⟩

/-- A list of loose nodes may be added. -/
theorem runs_allocList {items : List NodeId} (hi : d.arena.Loose (d.added lo) none items) (hω : ∀ item ∈ items, ¬ω.nodes item) :
    Runs lo ω (allocList items) d fun list d' =>
      list = (d.arena.allocList items).1 ∧ d' = { d with arena := (d.arena.allocList items).2 } :=
  runs_step rfl (.list hi hω) ⟨rfl, rfl⟩

/-- A repository may be added. -/
theorem runs_allocRepository {parent : Option RepositoryId} (hp : ∀ p, parent = some p → (d.added lo).repositories p) :
    Runs lo ω (allocRepository parent) d fun id d' => ¬d.arena.HasRepository id ∧ d'.arena.repository id = .ok { parent } :=
  runs_step rfl (.repository hp) ⟨d.arena.not_hasRepository_allocRepository parent, d.arena.repository_allocRepository_self parent⟩

/-- The list of a rule may be filled with loose nodes that are its children. -/
theorem runs_setList {owner : NodeId} {list : ListId} {items : List NodeId} (hl : (d.added lo).lists list) (hω : ¬ω.lists list)
    (ho : (d.added lo).nodes owner) (howns : d.arena.Owns owner list) (hi : d.arena.Loose (d.added lo) (some owner) items)
    (hlater : ∀ item ∈ items, owner.index < item.index) (hωi : ∀ item ∈ items, ¬ω.nodes item) :
    Runs lo ω (setList list items) d fun _ d' => ∃ b, d.arena.setList list items = .ok b ∧ d' = { d with arena := b } := by
  obtain ⟨b, hb⟩ := setList_ok hl.2 items
  have hx : (setList list items).start d = .ok (.ok (), { d with arena := b }) :=
    LinkM.start_ofChange_ok (by rw [hb]; rfl)
  exact runs_step hx (.fill hl hω ho howns hi hlater hωi hb) ⟨b, hb, rfl⟩

/-- A repository may be given an entry whose list no rule owns. -/
theorem runs_insertEntry {id : RepositoryId} {key : String} {list : ListId} (hr : (d.added lo).repositories id)
    (hω : ¬ω.repositories id) (hl : (d.added lo).lists list) (hf : d.arena.FreeIn (d.added lo) list) :
    Runs lo ω (insertEntry id key list) d fun _ d' =>
      ∃ b, d.arena.insertEntry id key list = .ok b ∧ d' = { d with arena := b } := by
  obtain ⟨b, hb⟩ := insertEntry_ok hr.2 key list
  have hx : (insertEntry id key list).start d = .ok (.ok (), { d with arena := b }) :=
    LinkM.start_ofChange_ok (by rw [hb]; rfl)
  exact runs_step hx (.entry hr hω hl hf hb) ⟨b, hb, rfl⟩

end Draft

open Draft

open Enclosure (innermost)

/-- A region without one repository. -/
def Region.except (ρ : Region) (repository : RepositoryId) : Region :=
  { ρ with repositories := fun id => ρ.repositories id ∧ id ≠ repository }

/-- A region without one list. -/
def Region.exceptList (ρ : Region) (list : ListId) : Region :=
  { ρ with lists := fun id => ρ.lists id ∧ id ≠ list }

namespace Region

variable {ρ σ : Region} {repository : RepositoryId} {list : ListId}

/-- A region without one repository is part of it. -/
theorem except_within : (ρ.except repository).Within ρ := ⟨fun _ h => h, fun _ h => h, fun _ h => h.1⟩

/-- A region without one list is part of it. -/
theorem exceptList_within : (ρ.exceptList list).Within ρ := ⟨fun _ h => h, fun _ h => h.1, fun _ h => h⟩

/-- The repository that is left out is not in the region. -/
theorem not_except : ¬(ρ.except repository).repositories repository := fun h => h.2 rfl

/-- The list that is left out is not in the region. -/
theorem not_exceptList : ¬(ρ.exceptList list).lists list := fun h => h.2 rfl

/-- What lies in a region and does not have a repository lies in the region without the repository. -/
theorem Within.except (h : ρ.Within σ) (hr : ¬ρ.repositories repository) : ρ.Within (σ.except repository) :=
  ⟨h.nodes, h.lists, fun id hid => ⟨h.repositories id hid, fun heq => hr (heq ▸ hid)⟩⟩

/-- A region that does not have a list stays within one from which it is taken out. -/
theorem Within.exceptList (h : ρ.Within σ) (hl : ¬ρ.lists list) : ρ.Within (σ.exceptList list) :=
  ⟨h.nodes, fun id hid => ⟨h.lists id hid, fun heq => hl (heq ▸ hid)⟩, h.repositories⟩

end Region

/-- The repository for the patterns of a rule: one that is opened for its entries or, if it has none, the one around the rule. -/
def Record.openScope (nested : List (String × Record)) (repository : Option RepositoryId) : LinkM Draft (Option RepositoryId) :=
  if nested.isEmpty then pure repository
  else do
    let opened ← Registry.buildRepository nested repository
    return some opened

/-- A rule is added, and then the repository that it opens, before its patterns are built. -/
theorem Record.build_rule (name : Option String) (rule : MatchRule) (patterns : List Record) (nested : List (String × Record))
    (repository : Option RepositoryId) (parent : Option NodeId) :
    Record.build ⟨none, name, rule, patterns, nested⟩ repository parent = (do
      let children ← allocList []
      let id ← allocNode { name, rule, parent, body := .rule children }
      let scope ← Record.openScope nested repository
      let items ← Record.buildItems patterns scope (some id)
      setList children items
      return id) := by
  unfold Record.build Record.openScope
  split
  · simp only [pure_bind]
  · simp only [Registry.buildRepository, bind_assoc, pure_bind]

namespace Arena

/-- A rule was added to an arena, with an empty list of its own. -/
structure GainsRule (a : Arena) (node : Node) (id : NodeId) (children : ListId) (b : Arena) : Prop where
  extend : a.Extends b
  fresh : ¬a.HasNode id
  read : b.node id = .ok node
  freshList : ¬a.HasList children
  empty : b.list children = .ok []

/-- The list is added before the rule. -/
theorem gainsRule_alloc {a b c : Arena} {node : Node} {id : NodeId} {children : ListId} (hb : b = (a.allocList []).2)
    (hchildren : children = (a.allocList []).1) (hc : c = (b.allocNode node).2) (hid : id = (b.allocNode node).1) :
    a.GainsRule node id children c := by
  subst hb hc hid
  refine ⟨(extends_allocList _ _).trans (extends_allocNode _ _), not_hasNode_allocNode a node, node_allocNode_self _ _, ?_, ?_⟩
  · exact hchildren ▸ not_hasList_allocList a []
  · exact hchildren ▸ list_allocList_self a []

/-- A node shows a record that was built with a repository around it. -/
def Shows (a : Arena) (repository : Option RepositoryId) (r : Record) (id : NodeId) : Prop :=
  ∃ node, a.node id = .ok node ∧ node.name = r.name ∧
    match r.reference with
    | some text => ∃ reference, Reference.parse text = .ok reference ∧
        node.body = .inclusion ⟨text, repository, .pending reference⟩
    | none => node.isRule = true ∧ node.rule = r.rule

/-- A list shows records in order. -/
def ShowsAll (a : Arena) (repository : Option RepositoryId) (records : List Record) (list : ListId) : Prop :=
  ∃ items, a.list list = .ok items ∧ List.Forall₂ (a.Shows repository) records items

variable {a b : Arena} {repository : Option RepositoryId}

/-- What a node shows it shows as long as nodes are not changed. -/
theorem Shows.mono {r : Record} {id : NodeId} (h : a.Shows repository r id)
    (hn : ∀ id node, a.node id = .ok node → b.node id = .ok node) : b.Shows repository r id := by
  obtain ⟨node, hnode, hrest⟩ := h
  exact ⟨node, hn id node hnode, hrest⟩

/-- A list shows what it did as long as it and the nodes are not changed. -/
theorem ShowsAll.mono {records : List Record} {list : ListId} (h : a.ShowsAll repository records list)
    (hn : ∀ id node, a.node id = .ok node → b.node id = .ok node)
    (hl : ∀ items, a.list list = .ok items → b.list list = .ok items) : b.ShowsAll repository records list := by
  obtain ⟨items, hitems, hall⟩ := h
  exact ⟨items, hl items hitems, hall.imp fun _ _ h => h.mono hn⟩

/-- Lists show what entries of a repository stand for, under the keys of the entries. -/
def ShowsEntries (a : Arena) (repository : RepositoryId) (entries : List (String × Record)) (pairs : List (String × ListId)) :
    Prop :=
  List.Forall₂ (fun e p => p.1 = e.1 ∧ a.ShowsAll (some repository) e.2.members p.2) entries pairs

/-- Every list that shows an entry is there. -/
theorem ShowsEntries.hasList {repository : RepositoryId} {entries : List (String × Record)} {pairs : List (String × ListId)}
    (h : a.ShowsEntries repository entries pairs) : ∀ p ∈ pairs, a.HasList p.2 := by
  induction h with
  | nil => exact fun p hp => absurd hp List.not_mem_nil
  | cons hshow _ ih =>
    intro p hp
    rcases List.mem_cons.1 hp with rfl | hp
    · obtain ⟨-, items, hitems, -⟩ := hshow
      exact hasList_of_list hitems
    · exact ih p hp

/-- What entries stand for is shown in every extension. -/
theorem ShowsEntries.extends {repository : RepositoryId} {entries : List (String × Record)} {pairs : List (String × ListId)}
    (h : a.ShowsEntries repository entries pairs) (hx : a.Extends b) : b.ShowsEntries repository entries pairs :=
  h.imp fun _ p ⟨hkey, hall⟩ => ⟨hkey, hall.mono hx.node (hx.list p.2)⟩

/-- A repository was given lists for entries: they show what the entries stand for, which is laid out, and none of them was there
before. -/
structure Enters (a b : Arena) (repository : RepositoryId) (entries : List (String × Record))
    (pairs : List (String × ListId)) : Prop where
  showing : b.ShowsEntries repository entries pairs
  layout : ∀ Γ, innermost Γ = some repository → Record.LaysEntries b (b.since a) b.Waits entries Γ pairs
  distinct : (pairs.map Prod.snd).Nodup
  fresh : ∀ p ∈ pairs, ¬a.HasList p.2
  filled : ∀ old, a.repository repository = .ok old →
    b.repository repository = .ok { old with entries := pairs.foldl (fun es p => Keyed.put p.1 p.2 es) old.entries }

/-- A list is put for one entry before the others have theirs. -/
theorem Enters.cons {m : Arena} {repository : RepositoryId} {key : String} {r : Record} {entries : List (String × Record)}
    {list : ListId} {items : List NodeId} {pairs : List (String × ListId)} (h : Enters m b repository entries pairs)
    (hw : a.region.Within m.region) (hm : m.HasList list) (hshow : b.ShowsAll (some repository) r.members list)
    (hlist : b.Lists (b.since a) list items)
    (hlays : ∀ Γ, innermost Γ = some repository → Record.LaysItems b (b.since a) b.Waits r.members Γ items)
    (hput : ∀ old, a.repository repository = .ok old →
      m.repository repository = .ok { old with entries := Keyed.put key list old.entries }) :
    Enters a b repository ((key, r) :: entries) ((key, list) :: pairs) := by
  refine ⟨.cons ⟨rfl, hshow⟩ h.showing, fun Γ hΓ => ?_, List.nodup_cons.2 ⟨fun hmem => ?_, h.distinct⟩,
    List.forall_mem_cons.2 ⟨hlist.1.1, fun p hp hhas => h.fresh p hp (hw.lists _ hhas)⟩, fun old hold => h.filled _ (hput old hold)⟩
  · exact Record.laysEntries_cons.2 ⟨list, items, pairs, rfl, hlist, hlays Γ hΓ,
      (h.layout Γ hΓ).imp (relays_of_keeps (.refl _ _) (since_within hw)) trivial⟩
  · obtain ⟨p, hp, rfl⟩ := List.mem_map.1 hmem
    exact h.fresh p hp hm

end Arena

/-! ## The steps of a build -/

namespace Draft

variable {lo : Arena} {ω : Region} {d d' : Draft} {repository : Option RepositoryId} {parent : Option NodeId}

/-- Nodes were built for records between two drafts. They may be put into a list of their parent, they show the records, and what is
in these is laid out in what was added. -/
structure Laid (lo : Arena) (d : Draft) (records : List Record) (repository : Option RepositoryId) (parent : Option NodeId)
    (items : List NodeId) (d' : Draft) : Prop where
  loose : d'.arena.Loose (d'.added lo) parent items
  fresh : ∀ item ∈ items, ¬d.arena.HasNode item
  showing : List.Forall₂ (d'.arena.Shows repository) records items
  layout : ∀ Γ, innermost Γ = repository → Record.LaysItems d'.arena (d'.added d.arena) d'.arena.Waits records Γ items

/-- Nothing is laid out for no records. -/
theorem laid_nil (lo : Arena) (d : Draft) (repository : Option RepositoryId) (parent : Option NodeId) :
    Laid lo d [] repository parent [] d :=
  ⟨loose_nil _ _ _, nofun, .nil, fun _ _ => rfl⟩

/-- A record is built before the others. -/
theorem Laid.cons {r : Record} {records : List Record} {id : NodeId} {ids : List NodeId} {m : Draft} (hx : d.arena.Extends m.arena)
    (h : Laid lo d [r] repository parent [id] m) (hs : Steps lo m.arena.region m d') (h' : Laid lo m records repository parent ids d') :
    Laid lo d (r :: records) repository parent (id :: ids) d' := by
  have hid : ∀ item ∈ [id], m.arena.HasNode item := fun item hm => (h.loose.nodes item hm).2
  have hloose := hs.loose h.loose hid
  have hw := since_within_region m.arena d.arena
  refine ⟨⟨?_, List.nodup_cons.2 ⟨fun hm => ?_, h'.loose.nodup⟩, ?_, ?_⟩, ?_, ?_, fun Γ hΓ => ?_⟩
  · exact List.forall_mem_cons.2 ⟨hloose.nodes id List.mem_cons_self, h'.loose.nodes⟩
  · exact h'.fresh id hm (hid id List.mem_cons_self)
  · exact List.forall_mem_cons.2 ⟨hloose.parent id List.mem_cons_self, h'.loose.parent⟩
  · exact List.forall_mem_cons.2 ⟨hloose.unheld id List.mem_cons_self, h'.loose.unheld⟩
  · exact List.forall_mem_cons.2 ⟨h.fresh id List.mem_cons_self, fun item hm hhas => h'.fresh item hm (hx.hasNode hhas)⟩
  · obtain ⟨hshow, -⟩ := List.forall₂_cons.1 h.showing
    exact .cons (hshow.mono hs.keeps.node) h'.showing
  · obtain ⟨_, heq, hr⟩ := Record.laysItems_singleton.1 (h.layout Γ hΓ)
    cases heq
    rw [Record.LaysItems]
    refine ⟨id, ids, rfl, hr.imp (relays_of_keeps (hs.keeps.weaken hw) (hs.keeps.within _)) trivial, ?_⟩
    exact (h'.layout Γ hΓ).imp (relays_of_keeps (.refl _ _) (since_within hx.within)) trivial

/-- What was built for records is in a list that was not there before and that no rule owns. -/
structure Listed (lo : Arena) (d : Draft) (records : List Record) (repository : Option RepositoryId) (list : ListId)
    (items : List NodeId) (d' : Draft) : Prop where
  added : (d'.added d.arena).lists list
  free : d'.arena.FreeIn (d'.added lo) list
  read : d'.arena.list list = .ok items
  showing : List.Forall₂ (d'.arena.Shows repository) records items
  layout : ∀ Γ, innermost Γ = repository → Record.LaysItems d'.arena (d'.added d.arena) d'.arena.Waits records Γ items

/-- What is built is put into a list of its own. -/
theorem runs_listed {build : LinkM Draft (List NodeId)} {records : List Record} (hd : Sound lo d)
    (hbuild : Runs lo d.arena.region build d fun items d' => Laid lo d records repository none items d') :
    Runs lo d.arena.region (build >>= allocList) d fun list d' => ∃ items, Listed lo d records repository list items d' := by
  refine hbuild.bind fun items d₁ hs₁ hitems => ?_
  refine (runs_allocList hitems.loose hitems.fresh).imp fun list d₂ hs₂ ⟨hlist, hd₂⟩ => ?_
  have hx₁ : d.arena.Extends d₁.arena := hs₁.keeps.extends (.refl _)
  have hx₂ : d₁.arena.Extends d₂.arena := by
    rw [hd₂]
    exact extends_allocList _ _
  have hnew : ¬d₁.arena.HasList list := by
    rw [hlist]
    exact not_hasList_allocList _ _
  have hread : d₂.arena.list list = .ok items := by
    rw [hd₂, hlist]
    exact list_allocList_self _ _
  have hfree : d₂.arena.FreeIn (d₂.added lo) list := by
    rw [hd₂]
    exact (hs₁.sound hd).closed.freeIn fun hl => hnew hl.2
  have hk := keeps_of_extends (ω := d₁.added d.arena) hx₂
  exact ⟨items, ⟨fun h => hnew (hx₁.hasList h), hasList_of_list hread⟩, hfree, hread,
    hitems.showing.imp fun _ _ h => h.mono hx₂.node,
    fun Γ hΓ => (hitems.layout Γ hΓ).imp (relays_of_keeps hk (hk.within _)) trivial⟩

/-- One entry is built, put into a list of its own, and the list into the repository. -/
theorem runs_entry {build : LinkM Draft (List NodeId)} {rest : LinkM Draft Unit} {repository : RepositoryId} {key : String}
    {r : Record} {entries : List (String × Record)} (hd : Sound lo d) (hω : ω.Within d.arena.region)
    (hfree : ¬ω.repositories repository) (hrep : (d.added lo).repositories repository)
    (hbuild : Runs lo d.arena.region build d fun items d' => Laid lo d r.members (some repository) none items d')
    (hrest : ∀ d', Sound lo d' → (d'.added lo).repositories repository →
      Runs lo (d'.arena.region.except repository) rest d' fun _ d'' =>
        ∃ pairs, Enters d'.arena d''.arena repository entries pairs) :
    Runs lo ω (do
      let items ← build
      let list ← allocList items
      insertEntry repository key list
      rest) d fun _ d' => ∃ pairs, Enters d.arena d'.arena repository ((key, r) :: entries) pairs := by
  rw [← bind_assoc]
  refine ((runs_listed hd hbuild).steps.weaken hω).bind fun list d₁ _ ⟨⟨items, hl⟩, hs₁⟩ => ?_
  have hd₁ := hs₁.sound hd
  have hx₁ : d.arena.Extends d₁.arena := hs₁.keeps.extends (.refl _)
  have hrep₁ : (d₁.added lo).repositories repository := ⟨hrep.1, hx₁.hasRepository hrep.2⟩
  have hlist : (d₁.added lo).lists list := ⟨fun h => hl.added.1 (hd.grows.hasList h), hl.added.2⟩
  refine (runs_insertEntry hrep₁ hfree hlist hl.free).bind fun _ d₂ hs₂ ⟨b, hb, hd₂⟩ => ?_
  have hb₂ : d₁.arena.insertEntry repository key list = .ok d₂.arena := by
    rw [hd₂]
    exact hb
  have hk₂ : Keeps (d₁.arena.region.except repository) d₁.arena d₂.arena := keeps_insertEntry hb₂ Region.not_except
  have hw₂ : d.arena.region.Within d₂.arena.region := hs₁.keeps.region.trans hk₂.region
  have hrep₂ : (d₂.added lo).repositories repository := ⟨hrep.1, hk₂.hasRepository _ hrep₁.2⟩
  refine ((hrest d₂ (hs₂.sound hd₁) hrep₂).steps.weaken ((hω.trans hw₂).except hfree)).imp fun _ d₃ _ ⟨⟨pairs, hent⟩, hs₃⟩ => ?_
  -- the open repository is not among what was laid out for the entry
  have hout : ¬(d₁.added d.arena).repositories repository := fun h => h.1 hrep.2
  have hin : (d₁.added d.arena).Within d₁.arena.region := since_within_region _ _
  have hk : Keeps (d₁.added d.arena) d₁.arena d₃.arena :=
    (hk₂.weaken (hin.except hout)).trans (hs₃.keeps.weaken ((hin.trans hk₂.region).except hout))
  have hread := hk.list list items hl.added hl.read
  refine ⟨(key, list) :: pairs, hent.cons hw₂ (hk₂.hasList list hlist.2) ⟨items, hread, hl.showing.imp fun _ _ h => h.mono hk.node⟩
    ⟨⟨hl.added.1, hasList_of_list hread⟩, hread⟩
    (fun Γ hΓ => (hl.layout Γ hΓ).imp (relays_of_keeps hk (hk.within _)) trivial) fun old hold => ?_⟩
  obtain ⟨-, -, -, old', hold', hput⟩ := insertEntry_eq_ok hb₂
  rw [hx₁.repository _ _ hold, Except.ok.injEq] at hold'
  subst hold'
  exact (hput repository).trans (if_pos rfl)

/-- The arguments with which a record is built are objects that were added. -/
structure Within (lo : Arena) (ω : Region) (d : Draft) (repository : Option RepositoryId) (parent : Option NodeId) : Prop where
  sound : Sound lo d
  within : ω.Within d.arena.region
  repository : ∀ r, repository = some r → (d.added lo).repositories r
  parent : ∀ p, parent = some p → (d.added lo).nodes p

/-- What may be left alone is everything that is there. -/
theorem Within.all (h : Within lo ω d repository parent) : Within lo d.arena.region d repository parent :=
  ⟨h.sound, .refl _, h.repository, h.parent⟩

/-- What was allowed as an argument is allowed later. -/
theorem Within.steps (h : Within lo ω d repository parent) (hs : Steps lo ω d d') : Within lo ω d' repository parent := by
  have hk := hs.keeps
  exact ⟨hs.sound h.sound, h.within.trans hk.region, fun r hr => (hk.within lo).repositories r (h.repository r hr),
    fun p hp => (hk.within lo).nodes p (h.parent p hp)⟩

/-- A record is built into a node. -/
def Builds (r : Record) (repository : Option RepositoryId) (parent : Option NodeId) : Prop :=
  ∀ lo ω d, Within lo ω d repository parent → Runs lo ω (r.build repository parent) d fun id d' =>
    Laid lo d [r] repository parent [id] d'

/-- Records are built into nodes in order. -/
def BuildsItems (records : List Record) (repository : Option RepositoryId) (parent : Option NodeId) : Prop :=
  ∀ lo ω d, Within lo ω d repository parent → Runs lo ω (Record.buildItems records repository parent) d fun items d' =>
    Laid lo d records repository parent items d'

/-- Entries are built into the repository that is theirs. -/
def BuildsEntries (entries : List (String × Record)) (repository : RepositoryId) : Prop :=
  ∀ lo ω d, Within lo ω d (some repository) none → ¬ω.repositories repository →
    Runs lo ω (Record.buildEntries entries repository) d fun _ d' => ∃ pairs, Enters d.arena d'.arena repository entries pairs

/-! ### Repositories -/

/-- Entries were built into a repository of their own, each into a list of its own. The lists show what the entries stand for, which is
laid out in what was added. -/
structure Opened (d : Draft) (entries : List (String × Record)) (parent : Option RepositoryId) (repository : RepositoryId)
    (pairs : List (String × ListId)) (d' : Draft) : Prop where
  added : (d'.added d.arena).repositories repository
  read : d'.arena.repository repository = .ok { entries := Keyed.ofPairs pairs, parent }
  showing : d'.arena.ShowsEntries repository entries pairs
  layout : ∀ Γ, innermost Γ = some repository → Record.LaysEntries d'.arena (d'.added d.arena) d'.arena.Waits entries Γ pairs
  distinct : (pairs.map Prod.snd).Nodup

/-- Entries are built into a repository of their own. -/
theorem runs_buildRepository {entries : List (String × Record)} {parent : Option RepositoryId}
    (hentries : ∀ repository, BuildsEntries entries repository) (hd : Sound lo d)
    (hp : ∀ p, parent = some p → (d.added lo).repositories p) :
    Runs lo d.arena.region (Registry.buildRepository entries parent) d fun repository d' =>
      ∃ pairs, Opened d entries parent repository pairs d' := by
  refine (runs_allocRepository hp).bind fun repository d₁ hs₁ ⟨hfresh, hread⟩ => ?_
  have hx : d.arena.Extends d₁.arena := hs₁.keeps.extends (.refl _)
  have hadd : (d₁.added lo).repositories repository :=
    ⟨fun hlo => hfresh (hd.grows.hasRepository hlo), hasRepository_of_repository hread⟩
  have harg : Within lo d.arena.region d₁ (some repository) none :=
    ⟨hs₁.sound hd, hx.within, fun r hr => Option.some.inj hr ▸ hadd, nofun⟩
  refine (hentries repository lo _ d₁ harg hfresh).bind fun _ d₂ hs₂ ⟨pairs, hent⟩ => ?_
  exact runs_pure ⟨pairs, ⟨hfresh, hs₂.keeps.hasRepository repository hadd.2⟩, hent.filled _ hread, hent.showing,
    fun Γ hΓ => (hent.layout Γ hΓ).imp (relays_of_keeps (.refl _ _) (since_within hx.within)) trivial, hent.distinct⟩

/-- The patterns of a rule are built in the repository around the rule, or in one that was opened for its entries. -/
inductive Scopes (d : Draft) (nested : List (String × Record)) (repository : Option RepositoryId) :
    Option RepositoryId → Draft → Prop where
  | around (hn : nested.isEmpty = true) : Scopes d nested repository repository d
  | opened {id : RepositoryId} {pairs : List (String × ListId)} {d' : Draft} (hn : ¬nested.isEmpty = true)
      (ho : Opened d nested repository id pairs d') : Scopes d nested repository (some id) d'

/-- A repository is opened for the patterns of a rule. -/
theorem runs_openScope {nested : List (String × Record)} (hentries : ∀ opened, BuildsEntries nested opened)
    (h : Within lo ω d repository parent) :
    Runs lo d.arena.region (Record.openScope nested repository) d fun scope d' => Scopes d nested repository scope d' := by
  unfold Record.openScope
  split
  · rename_i hn
    exact runs_pure (.around hn)
  · rename_i hn
    exact (runs_buildRepository hentries h.sound h.repository).bind fun opened d' _ ⟨_, ho⟩ => runs_pure (.opened hn ho)

namespace Scopes

variable {m : Draft} {nested : List (String × Record)} {scope : Option RepositoryId} (h : Scopes d nested repository scope m)
include h

/-- The repository of the patterns was added, as the one around the rule was. -/
theorem scope_added (hk : Keeps d.arena.region d.arena m.arena) (hlo : lo.Extends d.arena)
    (hr : ∀ r, repository = some r → (d.added lo).repositories r) : ∀ r, scope = some r → (m.added lo).repositories r := by
  cases h with
  | around => exact hr
  | opened _ ho =>
    rintro r ⟨⟩
    exact ⟨fun h => ho.added.1 (hlo.hasRepository h), ho.added.2⟩

/-- With the patterns, all of the rule's body is laid out. -/
theorem laysBody {a : Arena} {patterns : List Record} {items : List NodeId} (ha : a.region.Within d.arena.region)
    (hm : d.arena.region.Within m.arena.region) (hk : Keeps (m.added d.arena) m.arena d'.arena)
    (hlays : ∀ Γ, innermost Γ = scope → Record.LaysItems d'.arena (d'.added m.arena) d'.arena.Waits patterns Γ items)
    {Γ : List Enclosure} (hΓ : innermost Γ = repository) :
    Record.LaysBody d'.arena (d'.added a) d'.arena.Waits patterns nested Γ items := by
  have hitems : ∀ Γ, innermost Γ = scope → Record.LaysItems d'.arena (d'.added a) d'.arena.Waits patterns Γ items :=
    fun Γ hΓ => (hlays Γ hΓ).imp (relays_of_keeps (.refl _ _) (since_within (ha.trans hm))) trivial
  unfold Record.LaysBody
  cases h with
  | around hn =>
    rw [if_pos hn]
    exact hitems Γ hΓ
  | @opened id pairs _ hn ho =>
    rw [if_neg hn]
    have hwide : (m.added d.arena).Within (d'.added a) := (hk.within d.arena).trans (since_within ha)
    refine ⟨⟨id, pairs⟩, ⟨hwide.repositories id ho.added, ?_⟩, ?_, hitems _ rfl⟩
    · rw [hΓ]
      exact hk.repository id _ ho.added ho.read
    · exact (ho.layout _ rfl).imp (relays_of_keeps hk hwide) trivial

end Scopes

/-! ### Records -/

/-- A node that has just been added to a region that refers to itself alone is in no list. -/
theorem Sound.loose_allocNode (hd : Sound lo d) (node : Node) :
    (d.arena.allocNode node).2.Loose ((d.arena.allocNode node).2.since lo) node.parent [(d.arena.allocNode node).1] := by
  have hnew := d.arena.node_allocNode_self node
  have hfresh := d.arena.not_hasNode_allocNode node
  refine ⟨?_, by simp, ?_, ?_⟩ <;> intro item hm <;> rw [List.mem_singleton.1 hm]
  · exact ⟨fun hlo => hfresh (hd.grows.hasNode hlo), hasNode_of_node hnew⟩
  · exact parent?_of_node hnew
  · exact fun list hl hh => hfresh (hd.closed.nodes_holds hl hh).2

/-- A malformed reference is reported in the name of the grammar that is built. -/
theorem start_readInclude_error {text : String} {e : Malformed} (hp : Reference.parse text = .error e)
    (repository : Option RepositoryId) (d : Draft) :
    (readInclude text repository).start d = .ok (.error (.malformedReference d.registry.owner e), d) := by
  simp only [readInclude, LinkM.start_ofRun, Include.ofReference, hp]
  rfl

/-- A well-formed reference is read into a pending include. -/
theorem start_readInclude_ok {text : String} {reference : Reference} (hp : Reference.parse text = .ok reference)
    (repository : Option RepositoryId) (d : Draft) :
    (readInclude text repository).start d = .ok (.ok ⟨text, repository, .pending reference⟩, d) := by
  simp only [readInclude, LinkM.start_ofRun, Include.ofReference, hp]
  rfl

/-- The node that an include record becomes. -/
def includeNode (name : Option String) (parent : Option NodeId) (text : String) (repository : Option RepositoryId)
    (reference : Reference) : Node :=
  { name, parent, body := .inclusion ⟨text, repository, .pending reference⟩ }

/-- The draft with a node that is added and registered. -/
def adding (d : Draft) (node : Node) : Draft := ⟨(d.arena.allocNode node).2, d.registry.register (d.arena.allocNode node).1⟩

/-- An include record becomes a pending include, if its reference is well formed. -/
theorem builds_include (text : String) (name : Option String) (rule : MatchRule) (patterns : List Record)
    (nested : List (String × Record)) (repository : Option RepositoryId) (parent : Option NodeId) :
    Builds ⟨some text, name, rule, patterns, nested⟩ repository parent := by
  intro lo ω d h
  unfold Record.build
  cases hp : Reference.parse text with
  | error e =>
    have hread := start_readInclude_error hp repository d
    exact ⟨.error _, d, by rw [LinkM.start_bind, hread], .refl, nofun, fun e' h => ⟨e, (Except.error.inj h).symm⟩⟩
  | ok reference =>
    have hread := start_readInclude_ok hp repository d
    have hnode := d.arena.node_allocNode_self (includeNode name parent text repository reference)
    have hstep : Step lo ω d (d.adding (includeNode name parent text repository reference)) :=
      .inclusion ⟨text, repository, reference, rfl, hp⟩ ⟨h.parent, h.repository, fun t ht => nomatch (ht : none = some t)⟩
    have hfresh := d.arena.not_hasNode_allocNode (includeNode name parent text repository reference)
    refine runs_step ?_ hstep ⟨h.sound.loose_allocNode _, fun item hm => List.mem_singleton.1 hm ▸ hfresh,
      .cons ⟨_, hnode, rfl, reference, hp, rfl⟩ .nil, fun Γ hΓ => Record.laysItems_singleton.2 ⟨_, rfl, ?_⟩⟩
    · rw [LinkM.start_bind, hread]
      rfl
    · rw [Record.Lays]
      exact ⟨⟨⟨hfresh, hasNode_of_node hnode⟩, _, .pending reference, hnode, rfl, hΓ ▸ rfl⟩, reference, hp, pending?_of_node hnode⟩

/-- The patterns of a rule are built, and its list of children filled with them. -/
theorem runs_children {patterns : List Record} {scope : Option RepositoryId} {id : NodeId} {children : ListId}
    (hb : BuildsItems patterns scope (some id)) (h : Within lo ω d scope (some id)) (hc : (d.added lo).lists children)
    (hω : ¬ω.lists children) (howns : d.arena.Owns id children) :
    Runs lo ω (do
      let items ← Record.buildItems patterns scope (some id)
      setList children items
      return id) d fun value d' => value = id ∧ ∃ items, d'.arena.list children = .ok items ∧
        ∀ Γ, innermost Γ = scope → Record.LaysItems d'.arena (d'.added d.arena) d'.arena.Waits patterns Γ items := by
  refine ((hb lo _ d h.all).steps.weaken h.within).bind fun items d₁ _ ⟨hitems, hs₁⟩ => ?_
  have hk₁ := hs₁.keeps
  have howns₁ : d₁.arena.Owns id children := by
    obtain ⟨node, hn, hbody⟩ := howns
    exact ⟨node, hk₁.node id node hn, hbody⟩
  have hid := h.parent id rfl
  refine (runs_setList ((hk₁.within lo).lists children hc) hω ((hk₁.within lo).nodes id hid) howns₁ hitems.loose
    (fun item hm => Nat.lt_of_lt_of_le hid.2 (Nat.le_of_not_lt (hitems.fresh item hm)))
    fun item hm hωi => hitems.fresh item hm (h.within.nodes item hωi)).bind fun _ d₂ _ ⟨b, hset, hd₂⟩ => ?_
  subst hd₂
  have hk₂ : Keeps (d₁.added d.arena) d₁.arena b := keeps_setList hset fun hl => hl.1 hc.2
  obtain ⟨-, -, -, -, hput⟩ := setList_eq_ok hset
  exact runs_pure ⟨rfl, items, (hput children).trans (if_pos rfl),
    fun Γ hΓ => (hitems.layout Γ hΓ).imp (relays_of_keeps hk₂ (hk₂.within _)) trivial⟩

/-- A rule is added with a list of its own, and something else is done with the two. -/
theorem runs_newRule {α : Type} {Q : α → Draft → Prop} {rest : ListId → NodeId → LinkM Draft α} (name : Option String)
    (rule : MatchRule) (h : Within lo ω d repository parent)
    (hrest : ∀ children id d', Steps lo ω d d' →
      d.arena.GainsRule { name, rule, parent, body := .rule children } id children d'.arena →
      d'.arena.Loose (d'.added lo) parent [id] → Runs lo ω (rest children id) d' Q) :
    Runs lo ω (do
      let children ← allocList []
      let id ← allocNode { name, rule, parent, body := .rule children }
      rest children id) d Q := by
  refine (runs_allocList (loose_nil _ _ _) nofun).bind fun children d₁ hs₁ ⟨hchildren, hd₁⟩ => ?_
  have h₁ := h.steps hs₁
  have hblank : d₁.arena.Blank (d₁.added lo) children := by
    rw [hd₁, hchildren]
    exact blank_allocList h.sound.closed
  have hadd : (d₁.added lo).lists children := by
    rw [hd₁, hchildren]
    exact ⟨fun hlo => not_hasList_allocList _ _ (h.sound.grows.hasList hlo), hasList_of_list (list_allocList_self _ _)⟩
  have hrefers : Node.RefersInto (d₁.added lo) { name, rule, parent, body := .rule children } := ⟨h₁.parent, hadd⟩
  refine (runs_allocNode rfl hrefers hblank).bind fun id d₂ hs₂ ⟨hid, hd₂⟩ => ?_
  refine hrest children id d₂ (hs₁.trans hs₂)
    (gainsRule_alloc (congrArg Draft.arena hd₁) hchildren (congrArg Draft.arena hd₂) hid) ?_
  rw [hd₂, hid]
  exact h₁.sound.loose_allocNode _

/-- A rule record becomes a rule, whose patterns are built in the repository that it opens, if it opens one. -/
theorem builds_rule {name : Option String} {rule : MatchRule} {patterns : List Record} {nested : List (String × Record)}
    (hitems : ∀ id scope, BuildsItems patterns scope (some id)) (hentries : ∀ opened, BuildsEntries nested opened)
    (repository : Option RepositoryId) (parent : Option NodeId) :
    Builds ⟨none, name, rule, patterns, nested⟩ repository parent := by
  intro lo ω d h
  rw [Record.build_rule]
  refine runs_newRule name rule h fun children id d₁ hs₁ hrule hloose => ?_
  have h₁ := h.steps hs₁
  have hid : (d₁.added lo).nodes id := hloose.nodes id List.mem_cons_self
  have hchildren : (d₁.added lo).lists children :=
    ⟨fun hlo => hrule.freshList (h.sound.grows.hasList hlo), hasList_of_list hrule.empty⟩
  refine ((runs_openScope hentries h₁).steps.weaken h₁.within).bind fun scope d₂ _ ⟨hscope, hs₂⟩ => ?_
  have hk₂ := hs₂.keeps
  -- of what is there now, only the list of the children is changed later
  have hw : ω.Within (d₂.arena.region.exceptList children) :=
    (h₁.within.trans hk₂.region).exceptList fun hl => hrule.freshList (h.within.lists children hl)
  have harg : Within lo (d₂.arena.region.exceptList children) d₂ scope (some id) :=
    ⟨hs₂.sound h₁.sound, Region.exceptList_within, hscope.scope_added hk₂ h₁.sound.grows h₁.repository,
      fun p hp => Option.some.inj hp ▸ (hk₂.within lo).nodes id hid⟩
  have howns : d₂.arena.Owns id children := ⟨_, hk₂.node id _ hrule.read, rfl⟩
  refine ((runs_children (hitems id scope) harg ((hk₂.within lo).lists children hchildren) Region.not_exceptList howns).steps.weaken
    hw).imp ?_
  rintro value d' - ⟨⟨rfl, items, hlist, hlays⟩, hs₃⟩
  have hread : d'.arena.node value = .ok _ := hs₃.keeps.node value _ (hk₂.node value _ hrule.read)
  have hloose₂ := hs₂.loose hloose fun item hm => (hloose.nodes item hm).2
  have hkept : Keeps (d₂.added d₁.arena) d₂.arena d'.arena :=
    hs₃.keeps.weaken ((since_within_region _ _).exceptList fun hl => hl.1 hchildren.2)
  refine ⟨hs₃.loose hloose₂ fun item hm => (hloose₂.nodes item hm).2, fun item hm => List.mem_singleton.1 hm ▸ hrule.fresh,
    .cons ⟨_, hread, rfl, rfl, rfl⟩ .nil, fun Γ hΓ => Record.laysItems_singleton.2 ⟨value, rfl, ?_⟩⟩
  exact Record.lays_rule.2 ⟨items, ⟨⟨hrule.fresh, hasNode_of_node hread⟩, _, children, hread, rfl, rfl, rfl,
    ⟨hrule.freshList, hasList_of_list hlist⟩, hlist⟩,
    hscope.laysBody hrule.extend.within hk₂.region hkept hlays hΓ⟩

/-- No records are built into no nodes. -/
theorem builds_items_nil (repository : Option RepositoryId) (parent : Option NodeId) : BuildsItems [] repository parent := by
  intro lo ω d h
  unfold Record.buildItems
  exact runs_pure (laid_nil lo d repository parent)

/-- A record is built before those that follow it. -/
theorem builds_items_cons {r : Record} {rest : List Record} {repository : Option RepositoryId} {parent : Option NodeId}
    (hr : Builds r repository parent) (hrest : BuildsItems rest repository parent) :
    BuildsItems (r :: rest) repository parent := by
  intro lo ω d h
  unfold Record.buildItems
  refine ((hr lo _ d h.all).steps.weaken h.within).bind fun id d₁ hs₁ ⟨hid, hs₁'⟩ => ?_
  have h₁ := h.steps hs₁
  refine ((hrest lo _ d₁ h₁.all).steps.weaken h₁.within).bind fun ids d₂ _ ⟨hids, hs₂⟩ => ?_
  exact runs_pure (hid.cons (hs₁'.keeps.extends (.refl _)) hs₂ hids)

/-- No entries give a repository nothing. -/
theorem builds_entries_nil (repository : RepositoryId) : BuildsEntries [] repository := by
  intro lo ω d h hω
  unfold Record.buildEntries
  exact runs_pure ⟨[], .nil, fun _ _ => rfl, List.nodup_nil, fun _ hm => absurd hm List.not_mem_nil, fun _ hold => hold⟩

/-- An entry gets its list before those that follow it. -/
theorem builds_entries_cons {key : String} {r : Record} {rest : List (String × Record)} {repository : RepositoryId}
    (hpatterns : r.isBareGroup = true → BuildsItems r.patterns (some repository) none)
    (hrecord : ¬r.isBareGroup = true → Builds r (some repository) none) (hrest : BuildsEntries rest repository) :
    BuildsEntries ((key, r) :: rest) repository := by
  intro lo ω d h hω
  obtain ⟨reference, name, rule, patterns, nested⟩ := r
  have htail : ∀ d', Sound lo d' → (d'.added lo).repositories repository →
      Runs lo (d'.arena.region.except repository) (Record.buildEntries rest repository) d' fun _ d'' =>
        ∃ pairs, Enters d'.arena d''.arena repository rest pairs := by
    intro d' hd' hr'
    exact hrest lo _ d' ⟨hd', Region.except_within, fun r hr => Option.some.inj hr ▸ hr', nofun⟩ Region.not_except
  unfold Record.buildEntries
  split
  · rename_i hbare
    refine runs_entry h.sound h.within hω (h.repository _ rfl) ?_ htail
    unfold Record.members
    rw [if_pos hbare]
    exact hpatterns hbare lo _ d h.all
  · rename_i hbare
    rw [← bind_assoc]
    refine runs_entry h.sound h.within hω (h.repository _ rfl) ?_ htail
    unfold Record.members
    rw [if_neg hbare]
    exact (hrecord hbare lo _ d h.all).bind fun id d' _ hid => runs_pure hid

/-- Records, and entries of repositories, are built as they should be. -/
theorem builds_all :
    (∀ r repository parent, Builds r repository parent) ∧ (∀ entries repository, BuildsEntries entries repository) ∧
      ∀ records repository parent, BuildsItems records repository parent := by
  refine Record.build.mutual_induct Builds BuildsEntries BuildsItems ?_ ?_ ?_ ?_ ?_ ?_ ?_
  · exact fun text name rule patterns nested => builds_include text name rule patterns nested
  · exact fun name rule patterns nested repository parent hitems hentries =>
      builds_rule hitems hentries repository parent
  · exact builds_items_nil
  · exact fun r rest repository parent hr hrest => builds_items_cons hr hrest
  · exact builds_entries_nil
  · exact fun key reference name rule patterns nested rest repository hbare hrest hpatterns =>
      builds_entries_cons (fun _ => hpatterns) (fun h => absurd hbare h) hrest
  · exact fun key reference name rule patterns nested rest repository hbare hrest hrecord =>
      builds_entries_cons (fun h => absurd h hbare) (fun _ => hrecord) hrest

end Draft

end GrammarLinker
