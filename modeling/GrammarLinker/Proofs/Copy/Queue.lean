import Mathlib.Data.List.Nodup
import GrammarLinker.Proofs.Copy.Order

/-!
# The order in which a copy is made

The lists that a grammar reaches are copied breadth first: the root, the entries of the repository, and then, list by list and node by
node, what the nodes mention (`Grammar.BreadthFirst`). No node is in two lists of a forest, so that the nodes are copied list by list as
well, and the registry of the copy has the pending ones in this order (`Grammar.copy_breadthFirst`).

Every part of copying asks for lists in an order that is read off the arena (`Copier.Asking`). A list that was asked for before is not
asked for again, so that the lists are recorded without repetitions in the order in which they were first asked for. How far a copy has
come is said by the lists that were filled and the nodes that were copied (`Copier.Explores`), which every part of copying takes further.
-/

namespace GrammarLinker

open Arena

/-! ## What is mentioned -/

/-- Items that were there do not count again. -/
theorem eraseDups_append_of_subset {α : Type} [BEq α] [LawfulBEq α] {xs ys : List α} (h : ys ⊆ xs) :
    (xs ++ ys).eraseDups = xs.eraseDups := by
  have hnil : ys.removeAll xs = [] := List.filter_eq_nil_iff.2 fun y hy => by simpa using h hy
  rw [List.eraseDups_append, hnil, List.eraseDups_nil, List.append_nil]

/-- A new item comes last. -/
theorem eraseDups_concat {α : Type} [BEq α] [LawfulBEq α] {xs : List α} {x : α} (h : x ∉ xs) :
    (xs ++ [x]).eraseDups = xs.eraseDups ++ [x] := by
  have hone : [x].removeAll xs = [x] := by
    simpa [List.removeAll] using h
  rw [List.eraseDups_append, hone, List.eraseDups_cons]
  rfl

/-- No item is left twice. -/
theorem nodup_eraseDups {α : Type} [BEq α] [LawfulBEq α] (xs : List α) : xs.eraseDups.Nodup := by
  induction xs using List.reverseRecOn with
  | nil => exact List.nodup_nil
  | append_singleton xs x ih =>
    by_cases hx : x ∈ xs
    · rwa [eraseDups_append_of_subset fun y hy => List.mem_singleton.1 hy ▸ hx]
    · rw [eraseDups_concat hx]
      refine List.nodup_append.2 ⟨ih, List.nodup_singleton x, ?_⟩
      rintro y hy _ hx' rfl
      exact hx (List.mem_singleton.1 hx' ▸ List.mem_eraseDups.1 hy)

namespace Arena

variable {a : Arena} {ρ : Region} {start : Option RepositoryId} {ids : List RepositoryId}

/-- The items of a list. -/
def items (a : Arena) (list : ListId) : List NodeId := (a.list list).toOption.getD []

/-- The items of a list that is read are those read. -/
theorem items_of_list {list : ListId} {ids : List NodeId} (h : a.list list = .ok ids) : a.items list = ids := by
  rw [items, h]
  rfl

/-- The lists of the entries of at most `levels` repositories along a chain, those of the outermost one first. -/
def entriesWithin (a : Arena) : (levels : Nat) → (start : Option RepositoryId) → List ListId
  | 0, _ => []
  | _ + 1, none => []
  | levels + 1, some id =>
    match a.repository id with
    | .error _ => []
    | .ok r => a.entriesWithin levels r.parent ++ r.entries.map Prod.snd

/-- The lists of the entries of a repository and of those around it, those of the outermost one first. -/
def entriesAround (a : Arena) (start : Option RepositoryId) : List ListId := a.entriesWithin a.repositories.size start

/-- Around no repository there are no entries. -/
theorem entriesAround_none (a : Arena) : a.entriesAround none = [] := by
  unfold entriesAround
  cases a.repositories.size <;> rfl

/-- More levels than the chain is long make no difference. -/
theorem Chain.entriesWithin_eq (h : a.Chain start ids) {m n : Nat} (hm : ids.length ≤ m) (hn : ids.length ≤ n) :
    a.entriesWithin m start = a.entriesWithin n start := by
  induction h generalizing m n with
  | outermost => cases m <;> cases n <;> rfl
  | @enclosed id r outer hr _ ih =>
    rw [List.length_cons] at hm hn
    obtain ⟨m, rfl⟩ : ∃ k, m = k + 1 := ⟨m - 1, by omega⟩
    obtain ⟨n, rfl⟩ : ∃ k, n = k + 1 := ⟨n - 1, by omega⟩
    simp only [entriesWithin, hr, ih (Nat.le_of_succ_le_succ hm) (Nat.le_of_succ_le_succ hn)]

/-- The entries of a repository come after those of the repositories around it. -/
theorem Chain.entriesAround_eq {id : RepositoryId} {r : Repository} (hr : a.repository id = .ok r) (h : a.Chain r.parent ids) :
    a.entriesAround (some id) = a.entriesAround r.parent ++ r.entries.map Prod.snd := by
  have hle : ids.length + 1 ≤ a.repositories.size := (Chain.enclosed hr h).length_le
  obtain ⟨n, hn⟩ : ∃ n, a.repositories.size = n + 1 := ⟨a.repositories.size - 1, by omega⟩
  rw [entriesAround, entriesAround, h.entriesWithin_eq (Nat.le_of_succ_le hle) (by omega : ids.length ≤ n), hn, entriesWithin]
  simp only [hr]

/-- The lists that are asked for when a node is copied: the children of a rule, and for an include the entries around it and the list
that it stands for. -/
def mentionedBy (a : Arena) : NodeBody → List ListId
  | .rule children => [children]
  | .inclusion i => a.entriesAround i.repository ++ i.target?.toList

/-- The lists that are asked for when the node of an id is copied. -/
def mentioned (a : Arena) (id : NodeId) : List ListId :=
  match a.node id with
  | .error _ => []
  | .ok node => a.mentionedBy node.body

/-- What a node mentions is said by what it is. -/
theorem mentioned_of_node {id : NodeId} {node : Node} (h : a.node id = .ok node) : a.mentioned id = a.mentionedBy node.body := by
  simp only [mentioned, h]

/-- The pending includes of lists, list by list. -/
def pendingIn (a : Arena) (lists : List ListId) : List NodeId := (lists.flatMap a.items).filter fun id => (a.pending? id).isSome

/-- Different lists of a forest have different items. -/
theorem ForestIn.nodup_items (hf : a.ForestIn ρ) (hρa : ρ.Within a.region) {lists : List ListId} (hnd : lists.Nodup)
    (hl : ∀ list ∈ lists, ρ.lists list) : (lists.flatMap a.items).Nodup := by
  have hread : ∀ list ∈ lists, a.list list = .ok (a.items list) := fun list hlist => by
    obtain ⟨ids, hids⟩ := (hρa.lists list (hl list hlist)).list_ok
    rw [items_of_list hids, hids]
  refine List.nodup_flatMap.2 ⟨fun list hlist => hf.once list _ (hl list hlist) (hread list hlist), ?_⟩
  refine hnd.imp_of_mem fun {list other} hlist hother hne id hid hid' => hne ?_
  exact hf.apart list other id (hl list hlist) (hl other hother) ⟨_, hread list hlist, hid⟩ ⟨_, hread other hother, hid'⟩

end Arena

namespace Copier

variable {α β : Type} {a : Arena} {ρ : Region} {c d e : Copier} {x : CopyM α} {asked more : List ListId} {list : Option ListId}

/-! ## Asking for lists -/

/-- The lists that have copies, in the order in which they got them. -/
def sources (c : Copier) : List ListId := (c.lists.map Prod.fst).reverse

/-- The lists that have copies are those that are recorded. -/
theorem mem_sources {source : ListId} : source ∈ c.sources ↔ source ∈ c.lists.map Prod.fst := List.mem_reverse

/-- Lists were asked for, one after the other. Those that had no copy were given one and queued, and no node was copied. -/
structure Asks (asked : List ListId) (c d : Copier) : Prop where
  sources : ∀ before, c.sources = before.eraseDups → d.sources = (before ++ asked).eraseDups
  queue : ∀ filled, c.sources = filled ++ c.queue → d.sources = filled ++ d.queue
  nodes : d.nodes = c.nodes
  includes : d.includes = c.includes

/-- Nothing changes when lists are asked for that have copies. -/
theorem asks_of_subset (h : asked ⊆ c.sources) : Asks asked c c := by
  refine ⟨fun before hb => ?_, fun _ hq => hq, rfl, rfl⟩
  rw [eraseDups_append_of_subset, hb]
  intro l hl
  exact List.mem_eraseDups.1 (hb ▸ h hl)

/-- Lists may be asked for in two goes. -/
theorem Asks.trans (h : Asks asked c d) (h' : Asks more d e) : Asks (asked ++ more) c e where
  sources before hb := by
    rw [← List.append_assoc]
    exact h'.sources _ (h.sources before hb)
  queue filled hq := h'.queue filled (h.queue filled hq)
  nodes := h'.nodes.trans h.nodes
  includes := h'.includes.trans h.includes

/-- A part of copying, if it comes to an end, asks for lists. -/
def Asking (asked : List ListId) (x : CopyM α) (c : Copier) : Prop := ∀ value d, x.run c = .ok (value, d) → Asks asked c d

/-- To give a value back is to ask for nothing. -/
theorem asking_pure (value : α) : Asking [] (pure value) c := by
  intro _ _ hrun
  obtain ⟨-, rfl⟩ := Prod.mk.inj (Except.ok.inj hrun)
  exact asks_of_subset (List.nil_subset _)

/-- Two parts ask for the lists of the first one, and then for those of the second one. -/
theorem Asking.bind {f : α → CopyM β} (hx : Asking asked x c)
    (hf : ∀ value d, x.run c = .ok (value, d) → Asking more (f value) d) : Asking (asked ++ more) (x >>= f) c := by
  intro value e hrun
  obtain ⟨first, d, hfirst, hrun⟩ := exists_of_run_bind hrun
  exact (hx first d hfirst).trans (hf first d hfirst value e hrun)

/-- To read the state is to ask for nothing. -/
theorem asking_get {f : Copier → CopyM α} (h : Asking asked (f c) c) : Asking asked (get >>= f) c := h

/-- The arena and the repositories may be changed. -/
theorem asking_set {f : PUnit → CopyM α} (b : Arena) (repositories : List (RepositoryId × RepositoryId))
    (h : Asking asked (f ⟨⟩) { c with arena := b, repositories }) :
    Asking asked (set { c with arena := b, repositories } >>= f) c := by
  intro value d hrun
  have hasks := h value d hrun
  exact ⟨hasks.sources, hasks.queue, hasks.nodes, hasks.includes⟩

/-- To read something from the arena is to ask for nothing. -/
theorem asking_lift {value : Except Fault β} {f : β → CopyM α} (h : ∀ v, value = .ok v → Asking asked (f v) c) :
    Asking asked (liftM value >>= f) c := by
  intro _ _ hrun
  cases value with
  | error fault => cases hrun
  | ok v => exact h v rfl _ _ hrun

/-- To want the copy of a list is to ask for the list. -/
theorem asking_mapList (source : ListId) : Asking [source] (mapList source) c := by
  intro copy d hrun
  cases hl : c.lists.lookup source with
  | some copied =>
    obtain ⟨-, rfl⟩ := Prod.mk.inj (Except.ok.inj ((mapList_of_lookup hl).symm.trans hrun))
    refine asks_of_subset fun l hsource => ?_
    rw [List.mem_singleton.1 hsource, mem_sources]
    exact List.mem_map_of_mem (mem_of_lookup hl)
  | none =>
    simp only [mapList, StateT.run, hl] at hrun
    obtain ⟨-, rfl⟩ := Prod.mk.inj (Except.ok.inj hrun)
    refine ⟨fun before hb => ?_, fun filled hq => ?_, rfl, rfl⟩
    · have hnew : source ∉ before := fun hmem =>
        not_mem_of_lookup hl (mem_sources.1 (hb ▸ List.mem_eraseDups.2 hmem))
      rw [eraseDups_concat hnew, ← hb, sources, List.map_cons, List.reverse_cons]
      rfl
    · rw [sources, List.map_cons, List.reverse_cons, ← List.append_assoc, ← hq]
      rfl

/-! ## Repositories and nodes -/

/-- The entries of a repository ask for their lists, in order. -/
theorem asking_mapEntries (copy : RepositoryId) (entries : List (String × ListId)) :
    Asking (entries.map Prod.snd) (mapEntries copy entries) c := by
  induction entries generalizing c with
  | nil => exact asking_pure ()
  | cons entry rest ih =>
    obtain ⟨key, l⟩ := entry
    unfold mapEntries
    exact (asking_mapList l).bind fun mapped d _ => asking_get (asking_lift fun b _ => asking_set b d.repositories ih)

/-- Copying a repository asks for the lists of its entries. -/
theorem asking_copyRepository {source : RepositoryId} {parent : Option RepositoryId} {r : Repository}
    (hr : c.arena.repository source = .ok r) : Asking (r.entries.map Prod.snd) (copyRepository source parent) c := by
  unfold copyRepository
  refine asking_get (asking_set _ _ (asking_lift fun r' hr' => ?_))
  obtain rfl : r = r' := Except.ok.inj (((extends_allocRepository _ _).repository _ _ hr).symm.trans hr')
  rw [← List.append_nil (List.map Prod.snd r.entries)]
  exact (asking_mapEntries _ r.entries).bind fun _ _ _ => asking_pure _

/-- The entries of a repository that has a copy, and of those around it, have copies. -/
theorem Sound.entriesAround_subset (h : Sound a ρ list none c) {start : Option RepositoryId} {ids : List RepositoryId}
    (hchain : a.Chain start ids) (hmem : ∀ source, start = some source → source ∈ c.repositories.map Prod.fst) :
    a.entriesAround start ⊆ c.sources := by
  induction hchain with
  | outermost =>
    rw [entriesAround_none]
    exact List.nil_subset _
  | @enclosed id r outer hr hchain ih =>
    obtain ⟨hparent, hentries⟩ := h.refersInto_recorded id r hr (hmem id rfl)
    rw [hchain.entriesAround_eq hr]
    refine List.append_subset.2 ⟨ih hparent, fun l hl => ?_⟩
    obtain ⟨entry, hentry, rfl⟩ := List.mem_map.1 hl
    exact mem_sources.2 (hentries entry hentry)

section

variable (hstays : a.StaysIn ρ) (hf : a.FiniteIn ρ)
include hstays

/-- Copying a repository and those around it asks for the lists of all their entries, the outermost first. -/
theorem asking_mapRepositoryWithin {start : Option RepositoryId} {ids : List RepositoryId} (hchain : a.Chain start ids)
    {source : RepositoryId} (hstart : start = some source) {levels : Nat} (hlevels : ids.length ≤ levels)
    (h : Sound a ρ list none c) (hρ : ρ.repositories source) :
    Asking (a.entriesAround (some source)) (mapRepositoryWithin levels source) c := by
  induction hchain generalizing source levels c with
  | outermost => cases hstart
  | @enclosed inner r outer hr hchain ih =>
    obtain rfl : source = inner := (Option.some.inj hstart).symm
    obtain ⟨levels, rfl⟩ : ∃ n, levels = n + 1 := ⟨levels - 1, by simp only [List.length_cons] at hlevels; omega⟩
    have houter : outer.length ≤ levels := Nat.le_of_succ_le_succ hlevels
    have hrefers := hstays.repository _ _ hr hρ
    unfold mapRepositoryWithin
    refine asking_get ?_
    split
    · rename_i copy hl
      intro value d hrun
      obtain ⟨-, rfl⟩ := Prod.mk.inj (Except.ok.inj hrun)
      refine asks_of_subset (h.entriesAround_subset (.enclosed hr hchain) fun s hs => ?_)
      exact Option.some.inj hs ▸ List.mem_map_of_mem (mem_of_lookup hl)
    · refine asking_get (asking_lift fun r' hr' => ?_)
      obtain rfl : r = r' := Except.ok.inj ((h.grown.repository _ _ hr).symm.trans hr')
      rw [hchain.entriesAround_eq hr]
      cases hparent : r.parent with
      | none =>
        rw [entriesAround_none]
        exact asking_copyRepository hr'
      | some p =>
        have hp := hrefers.1 p hparent
        refine (ih hparent houter h hp).bind fun parent d hrun => ?_
        obtain ⟨parent', d', hrun', -, hd, -⟩ := answers_mapRepositoryWithin hchain hstays hparent houter h hp
        obtain ⟨-, rfl⟩ := Prod.mk.inj (Except.ok.inj (hrun.symm.trans hrun'))
        exact asking_copyRepository (hd.grown.repository _ _ hr)

include hf

/-- To want the copy of a repository is to ask for the entries around it. -/
theorem asking_mapRepository (h : Sound a ρ list none c) {source : RepositoryId} (hρ : ρ.repositories source) :
    Asking (a.entriesAround (some source)) (mapRepository source) c := by
  obtain ⟨ids, hchain⟩ := hf source hρ
  have hlevels : ids.length ≤ c.arena.repositories.size + 1 :=
    Nat.le_succ_of_le (Nat.le_trans hchain.length_le h.grown.repositories_size_le)
  exact asking_get (asking_mapRepositoryWithin hstays hchain rfl hlevels h hρ)

/-- So it is where there may be no repository. -/
theorem asking_mapRepository? (h : Sound a ρ list none c) {source : Option RepositoryId}
    (hρ : ∀ r, source = some r → ρ.repositories r) : Asking (a.entriesAround source) (mapRepository? source) c := by
  cases source with
  | none =>
    rw [entriesAround_none]
    exact asking_pure none
  | some source =>
    rw [mapRepository?, map_eq_pure_bind, ← List.append_nil (a.entriesAround (some source))]
    exact (asking_mapRepository hstays hf h (hρ source rfl)).bind fun copy _ _ => asking_pure (some copy)

/-- Copying what a node is asks for the lists that the node mentions. -/
theorem asking_mapBody (h : Sound a ρ list none c) {body : NodeBody} (hρ : body.RefersInto ρ) :
    Asking (a.mentionedBy body) (mapBody body) c := by
  cases body with
  | rule children =>
    rw [mapBody, map_eq_pure_bind]
    exact (asking_mapList children).bind fun copy _ _ => asking_pure (NodeBody.rule copy)
  | inclusion i =>
    obtain ⟨text, declared, state⟩ := i
    unfold mapBody
    refine (asking_mapRepository? hstays hf h hρ.1).bind fun repository d _ => ?_
    cases state with
    | pending reference => exact asking_pure _
    | resolved target => exact (asking_mapList target).bind fun copy _ _ => asking_pure _

end

/-! ## The queue -/

/-- How far a copy has come: these lists were filled, and these nodes copied, both in this order. What was asked for are the lists at
the start and what the nodes mention. -/
structure Explores (a : Arena) (seeds filled : List ListId) (visited : List NodeId) (c : Copier) : Prop where
  sources : c.sources = (seeds ++ visited.flatMap a.mentioned).eraseDups
  queue : c.sources = filled ++ c.queue
  visited : (c.nodes.map Prod.fst).reverse = visited
  includes : c.includes = (c.nodes.reverse.filter fun p => (a.pending? p.1).isSome).map Prod.snd

variable {seeds filled : List ListId} {visited : List NodeId}

/-- The next list is taken from the queue. -/
theorem Explores.pop (hx : Explores a seeds filled visited c) {source : ListId} {queue : List ListId} (hq : c.queue = source :: queue) :
    Explores a seeds (filled ++ [source]) visited { c with queue } := by
  refine ⟨hx.sources, ?_, hx.visited, hx.includes⟩
  have hqueue := hx.queue
  rw [hq] at hqueue
  rw [List.append_assoc]
  exact hqueue

section

variable (hstays : a.StaysIn ρ) (hρa : ρ.Within a.region) (hfin : a.FiniteIn ρ)
include hstays hρa hfin

/-- A node that has no copy yet is the next one. -/
theorem Explores.mapNode (hx : Explores a seeds filled visited c) (h : Sound a ρ list none c) {source : NodeId} (hρ : ρ.nodes source)
    (hnew : source ∉ visited) {copy : NodeId} (hrun : (mapNode source).run c = .ok (copy, d)) :
    Explores a seeds filled (visited ++ [source]) d := by
  have hlookup : c.nodes.lookup source = none := by
    refine Option.eq_none_iff_forall_ne_some.2 fun copied hl => hnew ?_
    rw [← hx.visited, List.mem_reverse]
    exact List.mem_map_of_mem (mem_of_lookup hl)
  obtain ⟨node, hn⟩ := (hρa.nodes source hρ).node_ok
  have hinto := hstays.node source node hn hρ
  obtain ⟨body, c₁, hbody, -⟩ := answers_mapBody hstays hfin h hinto
  have hasks := asking_mapBody hstays hfin h hinto body c₁ hbody
  obtain ⟨-, rfl⟩ := Prod.mk.inj (Except.ok.inj ((mapNode_of_mapBody hlookup (h.grown.node _ _ hn) hbody).symm.trans hrun))
  constructor
  · rw [List.flatMap_append, List.flatMap_singleton, mentioned_of_node hn, ← List.append_assoc]
    exact hasks.sources _ hx.sources
  · exact hasks.queue _ hx.queue
  · rw [List.map_cons, List.reverse_cons, hasks.nodes, hx.visited]
  · rw [List.reverse_cons, List.filter_append, List.map_append, hasks.nodes, ← hx.includes, hasks.includes, isPending_eq,
      ← pending?_of_node hn]
    simp only [List.filter_cons, List.filter_nil]
    cases (a.pending? source).isSome with
    | false => exact (List.append_nil _).symm
    | true => rfl

/-- Copying nodes that were not copied takes them up, one after the other. -/
theorem Explores.mapNodes {sources : List NodeId} (hx : Explores a seeds filled visited c) (h : Sound a ρ list none c)
    (hρ : ∀ source ∈ sources, ρ.nodes source) (hnd : (visited ++ sources).Nodup) {copies : List NodeId}
    (hrun : (mapNodes sources).run c = .ok (copies, d)) : Explores a seeds filled (visited ++ sources) d := by
  induction sources generalizing c visited copies with
  | nil =>
    obtain ⟨-, rfl⟩ := Prod.mk.inj (Except.ok.inj hrun)
    rwa [List.append_nil]
  | cons source rest ih =>
    have hrest : ∀ s ∈ rest, ρ.nodes s := fun s hs => hρ s (List.mem_cons_of_mem _ hs)
    obtain ⟨copy, c₁, hrun₁, -, h₁, -⟩ := answers_mapNode hstays hρa hfin h (hρ source List.mem_cons_self)
    obtain ⟨copies', c₂, hrun₂, -⟩ := answers_mapNodes hstays hρa hfin h₁ hrest
    have hnew : source ∉ visited := fun hmem =>
      (List.disjoint_of_nodup_append hnd) hmem List.mem_cons_self
    have hx₁ := hx.mapNode hstays hρa hfin h (hρ source List.mem_cons_self) hnew hrun₁
    unfold Copier.mapNodes at hrun
    rw [run_bind_of_ok hrun₁, run_bind_of_ok hrun₂] at hrun
    obtain ⟨-, rfl⟩ := Prod.mk.inj (Except.ok.inj hrun)
    rw [List.append_cons] at hnd ⊢
    exact ih hx₁ h₁ hrest hnd hrun₂

/-- When a list is filled, its items are the next nodes. -/
theorem Explores.fillList {source : ListId} (hx : Explores a seeds filled visited c) (h : Sound a ρ (some source) none c)
    (hs : source ∈ c.lists.map Prod.fst) (hnd : (visited ++ a.items source).Nodup) {u : Unit}
    (hrun : (fillList source).run c = .ok (u, d)) : Explores a seeds filled (visited ++ a.items source) d := by
  obtain ⟨p, hp, rfl⟩ := List.mem_map.1 hs
  have hρ := h.lists.reached p hp
  obtain ⟨items, hitems⟩ := (hρa.lists p.1 hρ).list_ok
  rw [items_of_list hitems] at hnd ⊢
  have hall : ∀ source ∈ items, ρ.nodes source := hstays.list _ _ hitems hρ
  obtain ⟨copies, c₁, hrun₁, -⟩ := answers_mapNodes hstays hρa hfin h hall
  have hx₁ := hx.mapNodes hstays hρa hfin h hall hnd hrun₁
  rw [fillList_of_list (h.grown.list _ _ hitems), run_bind_of_ok hrun₁] at hrun
  obtain ⟨b, rfl⟩ := exists_of_putItems hrun
  exact ⟨hx₁.sources, hx₁.queue, hx₁.visited, hx₁.includes⟩

/-- When the queue is empty, all lists that have copies were filled, in the order in which they got them. -/
theorem Explores.drain (hfor : a.ForestIn ρ) {fuel : Nat} (hx : Explores a seeds filled (filled.flatMap a.items) c)
    (h : Sound a ρ none none c) {u : Unit} (hrun : (drain fuel).run c = .ok (u, d)) :
    ∃ order, Explores a seeds order (order.flatMap a.items) d ∧ d.sources = order := by
  induction fuel generalizing c filled with
  | zero => cases hrun
  | succ fuel ih =>
    cases hq : c.queue with
    | nil =>
      obtain ⟨-, rfl⟩ := Prod.mk.inj (Except.ok.inj ((drain_of_nil hq).symm.trans hrun))
      refine ⟨filled, hx, ?_⟩
      rw [hx.queue, hq, List.append_nil]
    | cons source queue =>
      have hmem := h.queued source (hq ▸ List.mem_cons_self)
      obtain ⟨u, c₁, hfill, h₁, -⟩ := answers_fillList hstays hρa hfin (h.pop hq) hmem
      -- the lists that were filled are different ones, and so are their items
      have hpopped := hx.pop hq
      have hsources : (c.sources).Nodup := List.nodup_reverse.2 h.lists.sources
      have hwithin : filled ++ [source] ⊆ c.sources := by
        rw [hx.queue, hq, List.append_cons filled source queue]
        exact List.subset_append_left _ _
      have hfilled : (filled ++ [source]).Nodup := by
        rw [hx.queue, hq, List.append_cons filled source queue] at hsources
        exact (List.nodup_append.1 hsources).1
      have hnd := hfor.nodup_items hρa hfilled fun l hl => by
        obtain ⟨p, hp, rfl⟩ := List.mem_map.1 (mem_sources.1 (hwithin hl))
        exact h.lists.reached p hp
      rw [List.flatMap_append, List.flatMap_singleton] at hnd
      have hx₁ := hpopped.fillList hstays hρa hfin (h.pop hq) hmem hnd hfill
      rw [drain_of_fillList hq hfill] at hrun
      rw [← List.flatMap_singleton a.items source, ← List.flatMap_append] at hx₁
      exact ih hx₁ h₁ hrun

/-- When all is gathered, all that was asked for was filled, and the nodes were copied list by list. -/
theorem explores_gather (hfor : a.ForestIn ρ) {root : ListId} {repository : RepositoryId} (hroot : ρ.lists root)
    (hrep : ρ.repositories repository) {ids : ListId × RepositoryId}
    (hrun : (gather root repository).run { arena := a } = .ok (ids, d)) :
    ∃ order, Explores a (root :: a.entriesAround (some repository)) order (order.flatMap a.items) d ∧ d.sources = order := by
  obtain ⟨root', c₁, hrun₁, -, h₁, -⟩ := answers_mapList (sound_start a ρ) hroot
  obtain ⟨repository', c₂, hrun₂, -, h₂, -⟩ := answers_mapRepository hstays hfin h₁ hrep
  have hasks := (asking_mapList root root' c₁ hrun₁).trans (asking_mapRepository hstays hfin h₁ hrep repository' c₂ hrun₂)
  have hx : Explores a (root :: a.entriesAround (some repository)) [] [] c₂ := by
    refine ⟨?_, hasks.queue [] rfl, ?_, ?_⟩
    · rw [List.flatMap_nil, List.append_nil]
      exact hasks.sources [] rfl
    · rw [hasks.nodes]
      rfl
    · rw [hasks.includes, hasks.nodes]
      rfl
  unfold gather at hrun
  rw [run_bind_of_ok hrun₁, run_bind_of_ok hrun₂] at hrun
  obtain ⟨u, c₃, hdrain, hrun⟩ := exists_of_run_bind hrun
  obtain ⟨-, rfl⟩ := Prod.mk.inj (Except.ok.inj hrun)
  exact hx.drain hstays hρa hfin hfor h₂ hdrain

end

/-- When nothing waits any more, the lists that the grammar reaches are those that have copies. -/
theorem Sound.mem_sources_iff {g : Grammar} (h : Sound a (g.reach a) none none c) (hq : c.queue = []) (ho : Opened g c) {l : ListId} :
    l ∈ c.sources ↔ g.Reaches a (.list l) := by
  rw [mem_sources]
  constructor
  · intro hl
    obtain ⟨p, hp, rfl⟩ := List.mem_map.1 hl
    exact h.lists.reached p hp
  · exact (Grammar.reach_within (h.staysIn hq) ho.root ho.repository).lists l

end Copier

/-! ## Breadth first -/

namespace Grammar

open Copier

variable {g : Grammar} {a : Arena} {order other : List ListId}

/-- The lists that a grammar reaches, breadth first: the root, the entries of the repository, and then, list by list and node by node,
what the nodes mention, each list where it is mentioned first. -/
structure BreadthFirst (g : Grammar) (a : Arena) (order : List ListId) : Prop where
  explored : order = (g.root :: a.entriesAround (some g.repository) ++ (order.flatMap a.items).flatMap a.mentioned).eraseDups
  reached : ∀ list, list ∈ order ↔ g.Reaches a (.list list)

/-- What a grammar reaches of some lists: their items, and the repositories around which all entries are among them. -/
def covered (g : Grammar) (a : Arena) (lists : List ListId) : Region where
  nodes := fun id => g.Reaches a (.node id) ∧ id ∈ lists.flatMap a.items
  lists := fun list => g.Reaches a (.list list) ∧ list ∈ lists
  repositories := fun id => g.Reaches a (.repository id) ∧ a.entriesAround (some id) ⊆ lists

/-- Lists are all that the grammar reaches if they have the root, the entries of the repository, and what their items mention. -/
theorem mem_of_mentioned (hfin : a.FiniteIn (g.reach a)) {lists : List ListId}
    (hseeds : g.root :: a.entriesAround (some g.repository) ⊆ lists)
    (hmentioned : (lists.flatMap a.items).flatMap a.mentioned ⊆ lists) {list : ListId} (h : g.Reaches a (.list list)) : list ∈ lists := by
  have hreach := g.reach_staysIn a
  have hstays : a.StaysIn (g.covered a lists) := by
    refine ⟨fun id node hn hid => ?_, fun id items hl hid item hi => ?_, fun id r hr hid => ?_⟩
    · have hbody : a.mentionedBy node.body ⊆ lists := fun l hl =>
        hmentioned (List.mem_flatMap.2 ⟨id, hid.2, by rwa [mentioned_of_node hn]⟩)
      have hinto := hreach.node id node hn hid.1
      cases hb : node.body with
      | rule children =>
        rw [hb] at hbody hinto
        exact ⟨hinto, hbody List.mem_cons_self⟩
      | inclusion i =>
        rw [hb] at hbody hinto
        refine ⟨fun r hr => ⟨hinto.1 r hr, fun l hl => ?_⟩, fun t ht => ⟨hinto.2 t ht, ?_⟩⟩
        · exact hbody (List.mem_append_left _ (hr ▸ hl))
        · exact hbody (List.mem_append_right _ (Option.mem_toList.2 ht))
    · exact ⟨hreach.list id items hl hid.1 item hi, List.mem_flatMap.2 ⟨id, hid.2, by rwa [items_of_list hl]⟩⟩
    · obtain ⟨ids, hchain⟩ := hfin id hid.1
      cases hchain with
      | @enclosed _ r' outer hr' hchain =>
        obtain rfl : r = r' := Except.ok.inj (hr.symm.trans hr')
        have hsub := hid.2
        rw [hchain.entriesAround_eq hr, List.append_subset] at hsub
        obtain ⟨hparent, hentries⟩ := hreach.repository id r hr hid.1
        exact ⟨fun p hp => ⟨hparent p hp, hp ▸ hsub.1⟩, fun entry he => ⟨hentries entry he, hsub.2 (List.mem_map_of_mem he)⟩⟩
  have hwithin := g.reach_within hstays ⟨.root, hseeds List.mem_cons_self⟩
    ⟨.repository, fun l hl => hseeds (List.mem_cons_of_mem _ hl)⟩
  exact (hwithin.lists list h).2

/-- What the items of the first lists mention is come to first. -/
theorem BreadthFirst.begins (h : g.BreadthFirst a order) {first : List ListId} (hfirst : first <+: order) :
    (g.root :: a.entriesAround (some g.repository) ++ (first.flatMap a.items).flatMap a.mentioned).eraseDups <+: order := by
  obtain ⟨rest, rfl⟩ := hfirst
  have hexplored := h.explored
  rw [List.flatMap_append, List.flatMap_append, ← List.append_assoc, List.eraseDups_append] at hexplored
  exact ⟨_, hexplored.symm⟩

/-- Two orders agree as far as the first one goes. -/
theorem BreadthFirst.agree (hfin : a.FiniteIn (g.reach a)) (h : g.BreadthFirst a order) (h' : g.BreadthFirst a other)
    {first : List ListId} (hfirst : first <+: order) : first <+: other := by
  induction first using List.reverseRecOn with
  | nil => exact ⟨other, rfl⟩
  | append_singleton first list ih =>
    have hold : first <+: order := (List.prefix_append first [list]).trans hfirst
    have hnext := h'.begins (ih hold)
    generalize hcome :
      (g.root :: a.entriesAround (some g.repository) ++ (first.flatMap a.items).flatMap a.mentioned).eraseDups = come at hnext
    have hcome' : come <+: order := hcome ▸ h.begins hold
    rcases Nat.le_total (first ++ [list]).length come.length with hle | hle
    · exact (List.prefix_of_prefix_length_le hfirst hcome' hle).trans hnext
    · rcases List.prefix_concat_iff.1 (List.prefix_of_prefix_length_le hcome' hfirst hle) with heq | hclosed
      · exact heq ▸ hnext
      · -- the items of these lists mention no other list, so that they are all lists
        have hsub : g.root :: a.entriesAround (some g.repository) ++ (first.flatMap a.items).flatMap a.mentioned ⊆ first :=
          fun l hl => hclosed.subset (hcome ▸ List.mem_eraseDups.2 hl)
        obtain ⟨hseeds, hmentioned⟩ := List.append_subset.1 hsub
        have hlast : list ∈ order := hfirst.subset (List.mem_append_right _ (List.mem_singleton.2 rfl))
        have hmem := mem_of_mentioned hfin hseeds hmentioned ((h.reached list).1 hlast)
        have hnd : (first ++ [list]).Nodup := by
          rw [h.explored] at hfirst
          exact hfirst.sublist.nodup (nodup_eraseDups _)
        exact absurd (List.mem_singleton.2 rfl) (List.disjoint_of_nodup_append hnd hmem)

/-- There is one such order. -/
theorem BreadthFirst.unique (hfin : a.FiniteIn (g.reach a)) (h : g.BreadthFirst a order) (h' : g.BreadthFirst a other) :
    order = other := by
  have hle : order <+: other := h.agree hfin h' (List.prefix_refl order)
  have hge : other <+: order := h'.agree hfin h (List.prefix_refl other)
  exact hle.eq_of_length_le hge.length_le

/-- The pending includes of these lists are reached. -/
theorem BreadthFirst.reaches (h : g.BreadthFirst a order) (hreach : (g.reach a).Within a.region) {id : NodeId}
    (hid : id ∈ a.pendingIn order) : g.Reaches a (.node id) ∧ (a.pending? id).isSome = true := by
  obtain ⟨hitem, hp⟩ := List.mem_filter.1 hid
  obtain ⟨list, hlist, hitem⟩ := List.mem_flatMap.1 hitem
  have hl := (h.reached list).1 hlist
  obtain ⟨items, hitems⟩ := (hreach.lists list hl).list_ok
  rw [items_of_list hitems] at hitem
  exact ⟨(g.reach_staysIn a).list list items hitems hl id hitem, hp⟩

/-- In a forest each of them is there once. -/
theorem BreadthFirst.nodup_pendingIn (h : g.BreadthFirst a order) (hreach : (g.reach a).Within a.region)
    (hfor : a.ForestIn (g.reach a)) : (a.pendingIn order).Nodup := by
  have hnd : order.Nodup := by
    rw [h.explored]
    exact nodup_eraseDups _
  exact (hfor.nodup_items hreach hnd fun list hl => (h.reached list).1 hl).filter _

/-- A grammar whose lists are a forest is copied breadth first, and the copies of its pending includes are registered list by list. -/
theorem copy_breadthFirst (hreach : (g.reach a).Within a.region) (hfin : a.FiniteIn (g.reach a)) (hfor : a.ForestIn (g.reach a))
    (hroom : a.lists.size < Arena.capacity) : ∃ copy b φ order, g.copy a = .ok (copy, b) ∧ a.Extends b ∧ g.CopiedBy copy a b φ ∧
      g.BreadthFirst a order ∧ copy.registry.includes = (a.pendingIn order).map φ.node := by
  rcases gather_cases (g.reach_staysIn a) hreach hfin .root .repository with ⟨-, hle⟩ | ⟨⟨root, repository⟩, c, hgather, h, hq, hmem, hrep⟩
  · exact absurd hroom (Nat.not_lt.2 hle)
  obtain ⟨b, hb, -⟩ := linkParents_ok h.grown (fun p hp => hreach.nodes _ (h.nodes.reached p hp)) (fun p hp => h.hasNode hp)
    h.nodes.copies
  obtain ⟨hx, -, hcopied⟩ := copiedBy_of_sound h hq hreach hmem hrep hb
  obtain ⟨order, hexplores, rfl⟩ := explores_gather (g.reach_staysIn a) hreach hfin hfor .root .repository hgather
  have hopened : Opened g c := ⟨List.mem_map_of_mem hmem, List.mem_map_of_mem hrep⟩
  refine ⟨_, b, c.toRenaming, c.sources, copy_of_gather hgather hb, hx, hcopied,
    ⟨hexplores.sources, fun l => h.mem_sources_iff hq hopened⟩, ?_⟩
  have hcopies : ∀ p ∈ c.nodes.reverse.filter fun p => (a.pending? p.1).isSome, c.toRenaming.node p.1 = p.2 := fun p hp =>
    h.nodes.getD_lookup (List.mem_reverse.1 (List.mem_filter.1 hp).1)
  rw [pendingIn, ← hexplores.visited, ← List.map_reverse, List.filter_map, List.map_map]
  exact hexplores.includes.trans (List.map_congr_left fun p hp => (hcopies p hp).symm)

end Grammar

end GrammarLinker
