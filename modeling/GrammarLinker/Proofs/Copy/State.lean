import Mathlib.Data.List.Nodup
import GrammarLinker.Copy
import GrammarLinker.Proofs.Arena.Chain
import GrammarLinker.Proofs.Arena.Reach
import GrammarLinker.Proofs.Keyed
import GrammarLinker.Proofs.Registry.Build

/-!
# The state of a copy that is being made

While a grammar is copied, three lists of pairs record which object has which copy (`Copier.Records`): no source and no copy is in two
pairs, and the copies are exactly the objects that were added. What stands in a copy is said with these pairs (`Copier.NodeDone` and its
siblings), so that it stays true when more is recorded (`Copier.Grows`). `Copier.Sound` is the invariant: everything recorded is reached
and has its contents, except for the lists that wait in the queue and the one list or repository that is being filled.
-/

namespace GrammarLinker

open Arena

namespace Copier

/-! ## Pairs of sources and copies -/

section

variable {ι : Type} {pairs : List (ι × ι)} {source copy : ι} {reached added added' : ι → Prop}

/-- Reached objects are paired with their copies, which are the objects that were added. -/
structure Records (pairs : List (ι × ι)) (reached added : ι → Prop) : Prop where
  sources : (pairs.map Prod.fst).Nodup
  copies : (pairs.map Prod.snd).Nodup
  reached : ∀ p ∈ pairs, reached p.1
  added : ∀ id, added id ↔ id ∈ pairs.map Prod.snd

/-- A copy was added. -/
theorem Records.added_of_mem (h : Records pairs reached added) (hp : (source, copy) ∈ pairs) : added copy :=
  (h.added copy).2 (List.mem_map_of_mem hp)

/-- An object has one copy. -/
theorem Records.copy_unique (h : Records pairs reached added) {copy' : ι} (hp : (source, copy) ∈ pairs)
    (hp' : (source, copy') ∈ pairs) : copy = copy' :=
  congrArg Prod.snd (List.inj_on_of_nodup_map h.sources hp hp' rfl)

/-- A copy has one source. -/
theorem Records.source_unique (h : Records pairs reached added) {source' : ι} (hp : (source, copy) ∈ pairs)
    (hp' : (source', copy) ∈ pairs) : source = source' :=
  congrArg Prod.fst (List.inj_on_of_nodup_map h.copies hp hp' rfl)

/-- Another object is paired with a copy that is added. -/
theorem Records.cons (h : Records pairs reached added) (hs : source ∉ pairs.map Prod.fst) (hreached : reached source)
    (hc : ¬added copy) (hadded : ∀ id, added' id ↔ id = copy ∨ added id) : Records ((source, copy) :: pairs) reached added' where
  sources := List.nodup_cons.2 ⟨hs, h.sources⟩
  copies := List.nodup_cons.2 ⟨fun hm => hc ((h.added copy).2 hm), h.copies⟩
  reached := by
    intro p hp
    rcases List.mem_cons.1 hp with rfl | hp
    · exact hreached
    · exact h.reached p hp
  added := by
    intro id
    rw [hadded, h.added, List.map_cons, List.mem_cons]

variable [BEq ι] [LawfulBEq ι]

/-- A copy that is found is recorded. -/
theorem mem_of_lookup (h : pairs.lookup source = some copy) : (source, copy) ∈ pairs := by
  obtain ⟨before, after, rfl, -⟩ := List.lookup_eq_some_iff.1 h
  simp

/-- An object of which no copy is found has none. -/
theorem not_mem_of_lookup (h : pairs.lookup source = none) : source ∉ pairs.map Prod.fst := by
  intro hm
  obtain ⟨p, hp, rfl⟩ := List.mem_map.1 hm
  simpa using List.lookup_eq_none_iff.1 h p hp

/-- A copy that is recorded is found. -/
theorem lookup_of_mem (h : Records pairs reached added) (hp : (source, copy) ∈ pairs) : pairs.lookup source = some copy := by
  cases hl : pairs.lookup source with
  | none => exact absurd (List.mem_map_of_mem hp) (not_mem_of_lookup hl)
  | some copy' => rw [h.copy_unique hp (mem_of_lookup hl)]

end

variable {a b : Arena} {ρ : Region} {c d e : Copier} {list : Option ListId} {repository : Option RepositoryId}

/-! ## What stands in copies -/

/-- What a copied node is: the same as its source, with the copies of what it refers to. -/
inductive MapsBody (c : Copier) : NodeBody → NodeBody → Prop where
  | rule {children copy : ListId} (h : (children, copy) ∈ c.lists) : MapsBody c (.rule children) (.rule copy)
  | resolved {text : String} {declared declared' : Option RepositoryId} {target copy : ListId}
      (hr : Option.Rel (fun r r' => (r, r') ∈ c.repositories) declared declared') (ht : (target, copy) ∈ c.lists) :
      MapsBody c (.inclusion ⟨text, declared, .resolved target⟩) (.inclusion ⟨text, declared', .resolved copy⟩)
  | pending {text : String} {declared declared' : Option RepositoryId} {reference : Reference}
      (hr : Option.Rel (fun r r' => (r, r') ∈ c.repositories) declared declared') :
      MapsBody c (.inclusion ⟨text, declared, .pending reference⟩) (.inclusion ⟨text, declared', .pending reference⟩)

/-- Entries of a repository with the copies of their lists. -/
def MapsEntries (c : Copier) : List (String × ListId) → List (String × ListId) → Prop :=
  Keyed.Related fun l l' => (l, l') ∈ c.lists

/-- A copy has the contents of a node, but for its parent. -/
def NodeDone (a : Arena) (c : Copier) (p : NodeId × NodeId) : Prop :=
  ∀ node, a.node p.1 = .ok node → ∃ body, c.arena.node p.2 = .ok { node with parent := none, body } ∧ c.MapsBody node.body body

/-- A copy has the contents of a list. -/
def ListDone (a : Arena) (c : Copier) (p : ListId × ListId) : Prop :=
  ∀ items, a.list p.1 = .ok items → ∃ copies, c.arena.list p.2 = .ok copies ∧
    List.Forall₂ (fun item copy => (item, copy) ∈ c.nodes) items copies

/-- A copy has the contents of a repository. -/
def RepositoryDone (a : Arena) (c : Copier) (p : RepositoryId × RepositoryId) : Prop :=
  ∀ r, a.repository p.1 = .ok r → ∃ entries parent, c.arena.repository p.2 = .ok { entries := Keyed.ofPairs entries, parent } ∧
    c.MapsEntries r.entries entries ∧ Option.Rel (fun r r' => (r, r') ∈ c.repositories) r.parent parent

/-- More is recorded, and every list that is recorded is queued. -/
structure Grows (c d : Copier) : Prop where
  nodes : c.nodes ⊆ d.nodes
  lists : c.lists ⊆ d.lists
  repositories : c.repositories ⊆ d.repositories
  queue : c.queue ⊆ d.queue
  balance : d.lists.length + c.queue.length = c.lists.length + d.queue.length

/-- To record nothing is to grow by nothing. -/
theorem Grows.refl (c : Copier) : c.Grows c := ⟨fun _ h => h, fun _ h => h, fun _ h => h, fun _ h => h, rfl⟩

/-- Growing goes on. -/
theorem Grows.trans (h : c.Grows d) (h' : d.Grows e) : c.Grows e :=
  ⟨fun _ hp => h'.nodes (h.nodes hp), fun _ hp => h'.lists (h.lists hp), fun _ hp => h'.repositories (h.repositories hp),
    fun _ hs => h'.queue (h.queue hs), by have := h.balance; have := h'.balance; omega⟩

/-- What is recorded may be more. -/
theorem rel_mono {ι : Type} {pairs pairs' : List (ι × ι)} (hs : pairs ⊆ pairs') {x y : Option ι}
    (h : Option.Rel (fun r r' => (r, r') ∈ pairs) x y) : Option.Rel (fun r r' => (r, r') ∈ pairs') x y := by
  cases h with
  | some h => exact .some (hs h)
  | none => exact .none

/-- A body that is the copy of another one stays so when more is recorded. -/
theorem MapsBody.mono (hl : c.lists ⊆ d.lists) (hr : c.repositories ⊆ d.repositories) {body copy : NodeBody}
    (h : c.MapsBody body copy) : d.MapsBody body copy := by
  cases h with
  | rule h => exact .rule (hl h)
  | resolved hd ht => exact .resolved (rel_mono hr hd) (hl ht)
  | pending hd => exact .pending (rel_mono hr hd)

/-- Entries that are copies of others stay so when more is recorded. -/
theorem MapsEntries.mono (hl : c.lists ⊆ d.lists) {entries copies : List (String × ListId)} (h : c.MapsEntries entries copies) :
    d.MapsEntries entries copies :=
  List.Forall₂.imp (fun _ _ he => ⟨he.1, hl he.2⟩) h

/-- A node that is done stays done when more is recorded. -/
theorem NodeDone.mono {p : NodeId × NodeId} (h : c.NodeDone a p) (hl : c.lists ⊆ d.lists) (hr : c.repositories ⊆ d.repositories)
    (hn : ∀ node, c.arena.node p.2 = .ok node → d.arena.node p.2 = .ok node) : d.NodeDone a p := by
  intro node hnode
  obtain ⟨body, hcopy, hbody⟩ := h node hnode
  exact ⟨body, hn _ hcopy, hbody.mono hl hr⟩

/-- A list that is done stays done when more is recorded. -/
theorem ListDone.mono {p : ListId × ListId} (h : c.ListDone a p) (hn : c.nodes ⊆ d.nodes)
    (hl : ∀ items, c.arena.list p.2 = .ok items → d.arena.list p.2 = .ok items) : d.ListDone a p := by
  intro items hitems
  obtain ⟨copies, hcopies, hall⟩ := h items hitems
  exact ⟨copies, hl _ hcopies, hall.imp fun _ _ hp => hn hp⟩

/-- A repository that is done stays done when more is recorded. -/
theorem RepositoryDone.mono {p : RepositoryId × RepositoryId} (h : c.RepositoryDone a p) (hl : c.lists ⊆ d.lists)
    (hr : c.repositories ⊆ d.repositories)
    (hx : ∀ r, c.arena.repository p.2 = .ok r → d.arena.repository p.2 = .ok r) : d.RepositoryDone a p := by
  intro r hr'
  obtain ⟨entries, parent, hcopy, hentries, hparent⟩ := h r hr'
  exact ⟨entries, parent, hx _ hcopy, hentries.mono hl, rel_mono hr hparent⟩

/-! ## The invariant -/

/-- What holds while the region `ρ` of an arena `a` is copied. The contents of one list and of one repository may be missing. -/
structure Sound (a : Arena) (ρ : Region) (list : Option ListId) (repository : Option RepositoryId) (c : Copier) : Prop where
  grown : a.Extends c.arena
  nested : a.Nested → c.arena.Nested
  nodes : Records c.nodes ρ.nodes (c.arena.since a).nodes
  lists : Records c.lists ρ.lists (c.arena.since a).lists
  repositories : Records c.repositories ρ.repositories (c.arena.since a).repositories
  node : ∀ p ∈ c.nodes, c.NodeDone a p
  queued : ∀ source ∈ c.queue, source ∈ c.lists.map Prod.fst
  list : ∀ p ∈ c.lists, p.1 ∈ c.queue ∨ list = some p.1 ∨ c.ListDone a p
  repository : ∀ p ∈ c.repositories, repository = some p.1 ∨ c.RepositoryDone a p
  registered : ∀ id, id ∈ c.includes ↔ ∃ p ∈ c.nodes, p.2 = id ∧ ∃ node, a.node p.1 = .ok node ∧ isPending node = true
  once : c.includes.Nodup

/-- At the start nothing is recorded, and the invariant holds. -/
theorem sound_start (a : Arena) (ρ : Region) : Sound a ρ none none { arena := a } where
  grown := .refl a
  nested := fun h => h
  nodes := ⟨List.nodup_nil, List.nodup_nil, nofun, fun _ => ⟨fun h => absurd h.2 h.1, nofun⟩⟩
  lists := ⟨List.nodup_nil, List.nodup_nil, nofun, fun _ => ⟨fun h => absurd h.2 h.1, nofun⟩⟩
  repositories := ⟨List.nodup_nil, List.nodup_nil, nofun, fun _ => ⟨fun h => absurd h.2 h.1, nofun⟩⟩
  node := nofun
  queued := nofun
  list := nofun
  repository := nofun
  registered := fun _ => ⟨nofun, fun ⟨_, hp, _⟩ => absurd hp List.not_mem_nil⟩
  once := List.nodup_nil

section

variable (h : Sound a ρ list repository c)
include h

/-- A recorded copy is there and was not there before. -/
theorem Sound.hasRepository {p : RepositoryId × RepositoryId} (hp : p ∈ c.repositories) :
    ¬a.HasRepository p.2 ∧ c.arena.HasRepository p.2 :=
  h.repositories.added_of_mem hp

/-- The copy of a list is there and was not there before. -/
theorem Sound.hasList {p : ListId × ListId} (hp : p ∈ c.lists) : ¬a.HasList p.2 ∧ c.arena.HasList p.2 :=
  h.lists.added_of_mem hp

/-- The copy of a node is there and was not there before. -/
theorem Sound.hasNode {p : NodeId × NodeId} (hp : p ∈ c.nodes) : ¬a.HasNode p.2 ∧ c.arena.HasNode p.2 :=
  h.nodes.added_of_mem hp

/-- An empty copy of a list is added and queued. -/
theorem Sound.addList {source : ListId} (hs : source ∉ c.lists.map Prod.fst) (hρ : ρ.lists source) :
    Sound a ρ list repository { c with
      arena := (c.arena.allocList []).2
      lists := (source, (c.arena.allocList []).1) :: c.lists
      queue := c.queue ++ [source] } where
  grown := h.grown.trans (extends_allocList _ _)
  nested := fun ha => (h.nested ha).congr rfl
  nodes := h.nodes
  lists := by
    refine h.lists.cons hs hρ (fun hadded => not_hasList_allocList _ _ hadded.2) fun id => ?_
    refine ⟨fun hid => (Draft.since_allocList hid).symm, ?_⟩
    rintro (rfl | hid)
    · exact ⟨fun hold => not_hasList_allocList _ _ (h.grown.hasList hold), hasList_allocList.2 (.inr rfl)⟩
    · exact ⟨hid.1, hasList_allocList.2 (.inl hid.2)⟩
  repositories := h.repositories
  node := fun p hp => (h.node p hp).mono (List.subset_cons_self _ _) (fun _ h => h) fun _ h => h
  queued := by
    intro s hs'
    rcases List.mem_append.1 hs' with hs' | hs'
    · exact List.mem_cons_of_mem _ (h.queued s hs')
    · exact List.mem_singleton.1 hs' ▸ List.mem_cons_self
  list := by
    intro p hp
    rcases List.mem_cons.1 hp with rfl | hp
    · exact .inl (List.mem_append_right _ (List.mem_singleton.2 rfl))
    · refine (h.list p hp).imp (List.mem_append_left _) (.imp_right fun hdone => ?_)
      exact hdone.mono (fun _ h => h) fun _ => (extends_allocList _ _).list _ _
  repository := fun p hp =>
    (h.repository p hp).imp_right fun hdone => hdone.mono (List.subset_cons_self _ _) (fun _ h => h) fun _ h => h
  registered := h.registered
  once := h.once

/-- The copy of a node is added, and registered if the node is pending. -/
theorem Sound.addNode {source : NodeId} {node : Node} {body : NodeBody} (hs : source ∉ c.nodes.map Prod.fst) (hρ : ρ.nodes source)
    (hnode : a.node source = .ok node) (hbody : c.MapsBody node.body body) :
    Sound a ρ list repository { c with
      arena := (c.arena.allocNode { node with parent := none, body }).2
      includes := if isPending node then c.includes ++ [(c.arena.allocNode { node with parent := none, body }).1] else c.includes
      nodes := (source, (c.arena.allocNode { node with parent := none, body }).1) :: c.nodes } where
  grown := h.grown.trans (extends_allocNode _ _)
  nested := fun ha => (h.nested ha).congr rfl
  nodes := by
    refine h.nodes.cons hs hρ (fun hadded => not_hasNode_allocNode _ _ hadded.2) fun id => ?_
    refine ⟨fun hid => (Draft.since_allocNode hid).symm, ?_⟩
    rintro (rfl | hid)
    · exact ⟨fun hold => not_hasNode_allocNode _ _ (h.grown.hasNode hold), hasNode_allocNode.2 (.inr rfl)⟩
    · exact ⟨hid.1, hasNode_allocNode.2 (.inl hid.2)⟩
  lists := h.lists
  repositories := h.repositories
  node := by
    intro p hp
    rcases List.mem_cons.1 hp with rfl | hp
    · intro n hn
      rw [hnode, Except.ok.injEq] at hn
      subst hn
      refine ⟨body, node_allocNode_self _ _, ?_⟩
      refine MapsBody.mono ?_ ?_ hbody
      · exact fun _ h => h
      · exact fun _ h => h
    · exact (h.node p hp).mono (fun _ h => h) (fun _ h => h) fun _ => (extends_allocNode _ _).node _ _
  queued := h.queued
  list := fun p hp => (h.list p hp).imp_right (.imp_right fun hdone => hdone.mono (List.subset_cons_self _ _) fun _ h => h)
  repository := fun p hp => (h.repository p hp).imp_right fun hdone => hdone.mono (fun _ h => h) (fun _ h => h) fun _ h => h
  registered := by
    intro id
    simp only [List.exists_mem_cons_iff, hnode, Except.ok.injEq, exists_eq_left', ← h.registered]
    split
    · rename_i hpending
      simp [hpending, or_comm, eq_comm]
    · rename_i hpending
      simp [hpending]
  once := by
    split
    · refine List.nodup_append.2 ⟨h.once, List.nodup_singleton _, ?_⟩
      rintro id hid id' hid' rfl
      obtain ⟨p, hp, rfl, -⟩ := (h.registered id).1 hid
      have hold := (h.hasNode hp).2
      rw [List.mem_singleton.1 hid'] at hold
      exact not_hasNode_allocNode _ _ hold
    · exact h.once

end

/-- A copy of a repository is added without entries. -/
theorem Sound.addRepository (h : Sound a ρ list none c) {source : RepositoryId} {parent : Option RepositoryId}
    (hs : source ∉ c.repositories.map Prod.fst) (hρ : ρ.repositories source)
    (hp : ∀ p, parent = some p → c.arena.HasRepository p) :
    Sound a ρ list (some source) { c with
      arena := (c.arena.allocRepository parent).2
      repositories := (source, (c.arena.allocRepository parent).1) :: c.repositories } where
  grown := h.grown.trans (extends_allocRepository _ _)
  nested := fun ha => (h.nested ha).allocRepository hp
  nodes := h.nodes
  lists := h.lists
  repositories := by
    refine h.repositories.cons hs hρ (fun hadded => not_hasRepository_allocRepository _ _ hadded.2) fun id => ?_
    refine ⟨fun hid => (Draft.since_allocRepository hid).symm, ?_⟩
    rintro (rfl | hid)
    · exact ⟨fun hold => not_hasRepository_allocRepository _ _ (h.grown.hasRepository hold), hasRepository_allocRepository.2 (.inr rfl)⟩
    · exact ⟨hid.1, hasRepository_allocRepository.2 (.inl hid.2)⟩
  node := fun p hp => (h.node p hp).mono (fun _ h => h) (List.subset_cons_self _ _) fun _ h => h
  queued := h.queued
  list := fun p hp => (h.list p hp).imp_right (.imp_right fun hdone => hdone.mono (fun _ h => h) fun _ h => h)
  repository := by
    intro p hp
    rcases List.mem_cons.1 hp with rfl | hp
    · exact .inl rfl
    · rcases h.repository p hp with hno | hdone
      · cases hno
      · exact .inr (hdone.mono (fun _ h => h) (List.subset_cons_self _ _) fun _ => (extends_allocRepository _ _).repository _ _)
  registered := h.registered
  once := h.once

/-- The copy of a repository that is being filled is given an entry. -/
theorem Sound.insertEntry {source copy : RepositoryId} (h : Sound a ρ list (some source) c) (hs : (source, copy) ∈ c.repositories)
    {key : String} {l : ListId} (hb : c.arena.insertEntry copy key l = .ok b) :
    Sound a ρ list (some source) { c with arena := b } := by
  obtain ⟨hn, hl, hsize, old, hold, hput⟩ := insertEntry_eq_ok hb
  have hgrown : a.Extends b := by
    have hkeeps : Draft.Keeps a.region a b :=
      (Draft.keeps_of_extends h.grown).trans (Draft.keeps_insertEntry hb (h.hasRepository hs).1)
    exact hkeeps.extends (.refl _)
  have hsince : b.since a = c.arena.since a := since_congr (congrArg Array.size hn) (congrArg Array.size hl) hsize a
  refine ⟨hgrown, fun ha => (h.nested ha).insertEntry hb, ?_, ?_, ?_, ?_, h.queued, ?_, ?_, h.registered, h.once⟩
  · rw [hsince]
    exact h.nodes
  · rw [hsince]
    exact h.lists
  · rw [hsince]
    exact h.repositories
  · exact fun p hp => (h.node p hp).mono (fun _ h => h) (fun _ h => h) fun _ => (node_congr hn _).trans
  · exact fun p hp => (h.list p hp).imp_right (.imp_right fun hdone => hdone.mono (fun _ h => h) fun _ => (list_congr hl _).trans)
  · intro p hp
    refine (h.repository p hp).elim .inl fun hdone => ?_
    by_cases heq : p.2 = copy
    · have hp' : (p.1, copy) ∈ c.repositories := heq ▸ hp
      exact .inl (congrArg some (h.repositories.source_unique hs hp'))
    · refine .inr (hdone.mono (fun _ h => h) (fun _ h => h) fun r hr => ?_)
      rw [hput, if_neg heq]
      exact hr

/-- The copy of a repository has been filled. -/
theorem Sound.finishRepository {p : RepositoryId × RepositoryId} (h : Sound a ρ list (some p.1) c) (hp : p ∈ c.repositories)
    (hdone : c.RepositoryDone a p) : Sound a ρ list none c := by
  refine { h with repository := fun q hq => ?_ }
  rcases h.repository q hq with heq | hq'
  · obtain ⟨source, copy⟩ := q
    obtain rfl : p.1 = source := Option.some.inj heq
    obtain rfl := h.repositories.copy_unique hp hq
    exact .inr hdone
  · exact .inr hq'

/-- A list is taken from the queue. -/
theorem Sound.pop {source : ListId} {queue : List ListId} (h : Sound a ρ none repository c) (hq : c.queue = source :: queue) :
    Sound a ρ (some source) repository { c with queue } where
  grown := h.grown
  nested := h.nested
  nodes := h.nodes
  lists := h.lists
  repositories := h.repositories
  node := fun p hp => (h.node p hp).mono (fun _ h => h) (fun _ h => h) fun _ h => h
  queued := fun s hs => h.queued s (hq ▸ List.mem_cons_of_mem _ hs)
  list := by
    intro p hp
    rcases h.list p hp with hmem | hno | hdone
    · rw [hq, List.mem_cons] at hmem
      exact hmem.symm.imp_right fun heq => .inl (congrArg some heq.symm)
    · cases hno
    · exact .inr (.inr (hdone.mono (fun _ h => h) fun _ h => h))
  repository := fun p hp => (h.repository p hp).imp_right fun hdone => hdone.mono (fun _ h => h) (fun _ h => h) fun _ h => h
  registered := h.registered
  once := h.once

/-- The copy of a list is filled. -/
theorem Sound.fill {source copy : ListId} {items copies : List NodeId} (h : Sound a ρ (some source) repository c)
    (hs : (source, copy) ∈ c.lists) (hitems : a.list source = .ok items)
    (hall : List.Forall₂ (fun item copy => (item, copy) ∈ c.nodes) items copies) (hb : c.arena.setList copy copies = .ok b) :
    Sound a ρ none repository { c with arena := b } := by
  obtain ⟨-, hn, hr, hsize, hput⟩ := setList_eq_ok hb
  have hgrown : a.Extends b := by
    have hkeeps : Draft.Keeps a.region a b :=
      (Draft.keeps_of_extends h.grown).trans (Draft.keeps_setList hb (h.hasList hs).1)
    exact hkeeps.extends (.refl _)
  have hsince : b.since a = c.arena.since a := since_congr (congrArg Array.size hn) hsize (congrArg Array.size hr) a
  refine ⟨hgrown, fun ha => (h.nested ha).congr hr, ?_, ?_, ?_, ?_, h.queued, ?_, ?_, h.registered, h.once⟩
  · rw [hsince]
    exact h.nodes
  · rw [hsince]
    exact h.lists
  · rw [hsince]
    exact h.repositories
  · exact fun p hp => (h.node p hp).mono (fun _ h => h) (fun _ h => h) fun _ => (node_congr hn _).trans
  · intro p hp
    by_cases heq : p.2 = copy
    · have hp' : (p.1, copy) ∈ c.lists := heq ▸ hp
      refine .inr (.inr fun xs hxs => ?_)
      rw [h.lists.source_unique hp' hs, hitems, Except.ok.injEq] at hxs
      exact ⟨copies, by rw [hput, if_pos heq], hxs ▸ hall⟩
    · rcases h.list p hp with hmem | hopen | hdone
      · exact .inl hmem
      · have hp' : (source, p.2) ∈ c.lists := (Option.some.inj hopen).symm ▸ hp
        exact absurd (h.lists.copy_unique hp' hs) heq
      · refine .inr (.inr (hdone.mono (fun _ h => h) fun xs hxs => ?_))
        rw [hput, if_neg heq]
        exact hxs
  · exact fun p hp => (h.repository p hp).imp_right fun hdone => hdone.mono (fun _ h => h) (fun _ h => h) fun _ => (repository_congr hr _).trans

end Copier

end GrammarLinker
