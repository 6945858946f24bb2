import Mathlib
import GrammarLinker.Proofs.Copy.Steps
import GrammarLinker.Proofs.Registry.Embedding

/-!
# Copies are isomorphic to what they are made from

When the queue is empty, everything that the grammar reaches is recorded, because what is recorded is not left by following
(`Copier.Sound.staysIn`). The pairs that were recorded then are the graph of a renaming under which the copy is the grammar
(`Grammar.CopiedBy`). A copy comes to an end in every arena whose ids are in range and whose chains are finite, as long as there are
fewer lists than ids (`Grammar.copy_cases`).
-/

namespace GrammarLinker

open Arena

/-- A grammar was copied into an arena that became `b` by it. The copies of what the grammar reaches are exactly the objects that were
added, no two objects have one copy, and copies refer to copies as their sources refer to each other. -/
structure Grammar.CopiedBy (g copy : Grammar) (a b : Arena) (φ : Renaming) : Prop where
  nodes : Set.BijOn φ.node {id | g.Reaches a (.node id)} {id | (b.since a).nodes id}
  lists : Set.BijOn φ.list {id | g.Reaches a (.list id)} {id | (b.since a).lists id}
  repositories : Set.BijOn φ.repository {id | g.Reaches a (.repository id)} {id | (b.since a).repositories id}
  scopeName : copy.scopeName = g.scopeName
  name : copy.name = g.name
  root : copy.root = φ.list g.root
  repository : copy.repository = φ.repository g.repository
  /-- The items of a list, in order. -/
  items : ∀ id items, g.Reaches a (.list id) → a.list id = .ok items → b.list (φ.list id) = .ok (items.map φ.node)
  /-- A node keeps its parent if that is copied too. -/
  contents : ∀ id node, g.Reaches a (.node id) → a.node id = .ok node → ∃ parent,
    b.node (φ.node id) = .ok { name := node.name, rule := node.rule, parent, body := node.body.rename φ } ∧
      ∀ q, parent = some q ↔ ∃ p, node.parent = some p ∧ g.Reaches a (.node p) ∧ φ.node p = q
  /-- The entries of a repository, in order, as long as no key is repeated. -/
  entries : ∀ id r, g.Reaches a (.repository id) → a.repository id = .ok r → ∃ entries,
    b.repository (φ.repository id) = .ok { entries, parent := r.parent.map φ.repository } ∧
      (∀ entry ∈ entries, ∃ old ∈ r.entries, entry = (old.1, φ.list old.2)) ∧
      ((Keyed.keys r.entries).Nodup → entries = r.entries.map fun entry => (entry.1, φ.list entry.2))
  owner : copy.registry.owner = g.scopeName
  /-- The registry has the copies of the pending includes, each once. -/
  registered : ∀ id, id ∈ copy.registry.includes ↔
    ∃ source, g.Reaches a (.node source) ∧ (a.pending? source).isSome = true ∧ φ.node source = id
  once : copy.registry.includes.Nodup

/-- What is the same of items that go together is the same of the lists. -/
theorem map_eq_map_of_forall₂ {α β γ : Type} {R : α → β → Prop} {f : α → γ} {g : β → γ} {xs : List α} {ys : List β}
    (h : List.Forall₂ R xs ys) (hfg : ∀ x y, R x y → f x = g y) : xs.map f = ys.map g := by
  rw [← List.forall₂_eq_eq_eq, List.forall₂_map_left_iff, List.forall₂_map_right_iff]
  exact h.imp hfg

namespace Copier

variable {a b : Arena} {ρ : Region} {c : Copier}

/-! ## What was recorded -/

/-- The objects that have copies. -/
def recorded (c : Copier) : Region where
  nodes id := id ∈ c.nodes.map Prod.fst
  lists id := id ∈ c.lists.map Prod.fst
  repositories id := id ∈ c.repositories.map Prod.fst

/-- An object that is paired with a copy has one. -/
theorem mem_of_rel {ι : Type} {pairs : List (ι × ι)} {x y : Option ι} (h : Option.Rel (fun r r' => (r, r') ∈ pairs) x y) :
    ∀ r, x = some r → r ∈ pairs.map Prod.fst := by
  rintro r rfl
  cases h with
  | some h => exact List.mem_map_of_mem h

/-- What a node that was copied refers to has copies. -/
theorem MapsBody.refersInto {body copy : NodeBody} (h : c.MapsBody body copy) : body.RefersInto c.recorded := by
  cases h with
  | rule h => exact List.mem_map_of_mem h
  | resolved hr ht => exact ⟨mem_of_rel hr, fun t h => Option.some.inj h ▸ List.mem_map_of_mem ht⟩
  | pending hr => exact ⟨mem_of_rel hr, nofun⟩

section

variable {list : Option ListId} (h : Sound a ρ list none c)
include h

/-- At the end every repository is done. -/
theorem Sound.repositoryDone {p : RepositoryId × RepositoryId} (hp : p ∈ c.repositories) : c.RepositoryDone a p :=
  (h.repository p hp).resolve_left nofun

/-- What a recorded repository refers to is recorded. -/
theorem Sound.refersInto_recorded (id : RepositoryId) (r : Repository) (hr : a.repository id = .ok r)
    (hid : c.recorded.repositories id) : r.RefersInto c.recorded := by
  obtain ⟨p, hp, rfl⟩ := List.mem_map.1 hid
  obtain ⟨entries, parent, -, hentries, hparent⟩ := h.repositoryDone hp r hr
  refine ⟨mem_of_rel hparent, ?_⟩
  intro entry he
  obtain ⟨i, hlt, rfl⟩ := List.mem_iff_getElem.1 he
  exact List.mem_map_of_mem (hentries.get hlt (hentries.length_eq ▸ hlt)).2

end

section

variable (h : Sound a ρ none none c) (hq : c.queue = [])
include h hq

/-- A recorded list has its contents when nothing waits in the queue. -/
theorem Sound.listDone {p : ListId × ListId} (hp : p ∈ c.lists) : c.ListDone a p := by
  rcases h.list p hp with hmem | hno | hdone
  · exact absurd (hq ▸ hmem) List.not_mem_nil
  · cases hno
  · exact hdone

/-- Following what is recorded leads to what is recorded. -/
theorem Sound.staysIn : a.StaysIn c.recorded := by
  refine ⟨?_, ?_, h.refersInto_recorded⟩
  · intro id node hn hid
    obtain ⟨p, hp, rfl⟩ := List.mem_map.1 hid
    obtain ⟨body, -, hbody⟩ := h.node p hp node hn
    exact hbody.refersInto
  · intro id items hl hid item hi
    obtain ⟨p, hp, rfl⟩ := List.mem_map.1 hid
    obtain ⟨copies, -, hall⟩ := h.listDone hq hp items hl
    obtain ⟨i, hlt, rfl⟩ := List.mem_iff_getElem.1 hi
    exact List.mem_map_of_mem (hall.get hlt (hall.length_eq ▸ hlt))

end

/-! ## The renaming -/

/-- The renaming of the objects that have copies. -/
def toRenaming (c : Copier) : Renaming where
  node id := (c.nodes.lookup id).getD id
  list id := (c.lists.lookup id).getD id
  repository id := (c.repositories.lookup id).getD id

section

variable {ι : Type} [BEq ι] [LawfulBEq ι] {pairs : List (ι × ι)} {reached added : ι → Prop}
  (h : Records pairs reached added)
include h

/-- The copy of an object is what it is renamed to. -/
theorem Records.getD_lookup {source copy : ι} (hp : (source, copy) ∈ pairs) : (pairs.lookup source).getD source = copy := by
  rw [lookup_of_mem h hp]
  rfl

/-- Pairs for everything that is reached are a bijection onto what was added. -/
theorem Records.bijOn (hall : ∀ id, reached id → id ∈ pairs.map Prod.fst) :
    Set.BijOn (fun id => (pairs.lookup id).getD id) {id | reached id} {id | added id} := by
  have hpair : ∀ id, reached id → ∃ copy, (id, copy) ∈ pairs ∧ (pairs.lookup id).getD id = copy := by
    intro id hid
    obtain ⟨p, hp, rfl⟩ := List.mem_map.1 (hall id hid)
    exact ⟨p.2, hp, h.getD_lookup hp⟩
  refine ⟨?_, ?_, ?_⟩
  · intro id hid
    obtain ⟨copy, hp, heq⟩ := hpair id hid
    show added ((pairs.lookup id).getD id)
    rw [heq]
    exact h.added_of_mem hp
  · intro id hid id' hid' heq
    obtain ⟨copy, hp, hcopy⟩ := hpair id hid
    obtain ⟨copy', hp', hcopy'⟩ := hpair id' hid'
    obtain rfl : copy = copy' := hcopy.symm.trans (heq.trans hcopy')
    exact h.source_unique hp hp'
  · intro copy hcopy
    obtain ⟨p, hp, rfl⟩ := List.mem_map.1 ((h.added copy).1 hcopy)
    exact ⟨p.1, h.reached p hp, h.getD_lookup hp⟩

/-- So it is where there may be no object. -/
theorem Records.map_eq {x y : Option ι} (hr : Option.Rel (fun r r' => (r, r') ∈ pairs) x y) :
    y = x.map fun id => (pairs.lookup id).getD id := by
  cases hr with
  | some hp => exact congrArg some (h.getD_lookup hp).symm
  | none => rfl

end

/-- What the copy of a node is, is what the node is, renamed. -/
theorem MapsBody.eq_rename (h : Sound a ρ none none c) {body copy : NodeBody} (hb : c.MapsBody body copy) :
    copy = body.rename c.toRenaming := by
  cases hb with
  | rule hl => exact congrArg NodeBody.rule (h.lists.getD_lookup hl).symm
  | resolved hr ht =>
    rw [h.repositories.map_eq hr, ← h.lists.getD_lookup ht]
    rfl
  | pending hr =>
    rw [h.repositories.map_eq hr]
    rfl

/-- A node is pending exactly when it has a pending reference. -/
theorem isPending_eq (node : Node) : isPending node = node.pending?.isSome := by
  obtain ⟨name, rule, parent, body⟩ := node
  cases body with
  | rule children => rfl
  | inclusion i =>
    obtain ⟨text, declared, state⟩ := i
    cases state <;> rfl

/-! ## What has been copied at the end -/

section

variable (h : Sound a ρ none none c)
include h

/-- A list is copied item by item when nothing waits in the queue. -/
theorem Sound.list_copied (hq : c.queue = []) {p : ListId × ListId} (hp : p ∈ c.lists) {items : List NodeId}
    (hl : a.list p.1 = .ok items) : c.arena.list p.2 = .ok (items.map c.toRenaming.node) := by
  obtain ⟨copies, hcopies, hall⟩ := h.listDone hq hp items hl
  have hmap : items.map c.toRenaming.node = copies.map id := map_eq_map_of_forall₂ hall fun _ _ hmem => h.nodes.getD_lookup hmem
  rw [hcopies, hmap, List.map_id]

/-- The entries of a repository are copied in order, and a key that is repeated is put once. -/
theorem Sound.repository_copied {p : RepositoryId × RepositoryId} (hp : p ∈ c.repositories) {r : Repository}
    (hr : a.repository p.1 = .ok r) : ∃ entries,
    c.arena.repository p.2 = .ok { entries, parent := r.parent.map c.toRenaming.repository } ∧
      (∀ entry ∈ entries, ∃ old ∈ r.entries, entry = (old.1, c.toRenaming.list old.2)) ∧
      ((Keyed.keys r.entries).Nodup → entries = r.entries.map fun entry => (entry.1, c.toRenaming.list entry.2)) := by
  obtain ⟨copied, parent, hcopy, hcopied, hparent⟩ := h.repositoryDone hp r hr
  have hmap : r.entries.map (fun entry => (entry.1, c.toRenaming.list entry.2)) = copied.map id :=
    map_eq_map_of_forall₂ hcopied fun entry copy he => Prod.ext he.1.symm (h.lists.getD_lookup he.2)
  rw [List.map_id] at hmap
  refine ⟨Keyed.ofPairs copied, ?_, fun entry he => ?_, fun hnd => ?_⟩
  · rw [hcopy, h.repositories.map_eq hparent]
    rfl
  · have he' := Keyed.mem_of_mem_ofPairs he
    rw [← hmap, List.mem_map] at he'
    obtain ⟨old, hold, rfl⟩ := he'
    exact ⟨old, hold, rfl⟩
  · rw [Keyed.ofPairs_of_nodup, hmap]
    rw [← hmap, Keyed.keys, List.map_map]
    exact hnd

variable (hall : ∀ id, ρ.nodes id → id ∈ c.nodes.map Prod.fst)
include hall

/-- A parent is copied if it is reached. -/
theorem Sound.parent_copied (parent : Option NodeId) (q : NodeId) : (parent.bind fun p => c.nodes.lookup p) = some q ↔
    ∃ p, parent = some p ∧ ρ.nodes p ∧ c.toRenaming.node p = q := by
  rw [Option.bind_eq_some_iff]
  refine exists_congr fun p => and_congr_right fun _ => ?_
  constructor
  · intro hlookup
    have hmem := mem_of_lookup hlookup
    exact ⟨h.nodes.reached _ hmem, h.nodes.getD_lookup hmem⟩
  · rintro ⟨hreached, rfl⟩
    obtain ⟨pair, hpair, rfl⟩ := List.mem_map.1 (hall p hreached)
    show c.nodes.lookup pair.1 = some ((c.nodes.lookup pair.1).getD pair.1)
    rw [lookup_of_mem h.nodes hpair]
    rfl

/-- The copies of the pending includes are registered. -/
theorem Sound.registered_copied (hρa : ρ.Within a.region) (id : NodeId) : id ∈ c.includes ↔
    ∃ source, ρ.nodes source ∧ (a.pending? source).isSome = true ∧ c.toRenaming.node source = id := by
  refine (h.registered id).trans ?_
  constructor
  · rintro ⟨p, hp, rfl, node, hnode, hpending⟩
    refine ⟨p.1, h.nodes.reached p hp, ?_, h.nodes.getD_lookup hp⟩
    rw [pending?_of_node hnode, ← isPending_eq, hpending]
  · rintro ⟨source, hreached, hpending, rfl⟩
    obtain ⟨p, hp, rfl⟩ := List.mem_map.1 (hall source hreached)
    obtain ⟨node, hnode⟩ := (hρa.nodes _ hreached).node_ok
    rw [pending?_of_node hnode, ← isPending_eq] at hpending
    exact ⟨p, hp, (h.nodes.getD_lookup hp).symm, node, hnode, hpending⟩

end

end Copier

namespace Grammar

open Copier

variable {g copy : Grammar} {a b : Arena} {φ : Renaming}

/-- The copies of a state in which everything is filled are the copies of what the grammar reaches. -/
theorem copiedBy_of_sound {c : Copier} {root : ListId} {repository : RepositoryId} (h : Copier.Sound a (g.reach a) none none c)
    (hq : c.queue = []) (hreach : (g.reach a).Within a.region) (hroot : (g.root, root) ∈ c.lists)
    (hrep : (g.repository, repository) ∈ c.repositories) (hb : linkParents c.nodes c.nodes c.arena = .ok b) :
    a.Extends b ∧ (a.Nested → b.Nested) ∧
      g.CopiedBy { g with root, repository, registry := { owner := g.scopeName, includes := c.includes } } a b c.toRenaming := by
  obtain ⟨m, hm, hx, hlists, hrepositories, hsize, -, hlinked⟩ :=
    linkParents_ok h.grown (fun p hp => hreach.nodes _ (h.nodes.reached p hp)) (fun p hp => h.hasNode hp) h.nodes.copies
  obtain rfl : b = m := Except.ok.inj (hb.symm.trans hm)
  have hsince : b.since a = c.arena.since a :=
    since_congr hsize (congrArg Array.size hlists) (congrArg Array.size hrepositories) a
  have hall : (g.reach a).Within c.recorded :=
    reach_within (h.staysIn hq) (List.mem_map_of_mem hroot) (List.mem_map_of_mem hrep)
  have hnodes : ∀ {id copy}, (id, copy) ∈ c.nodes → c.toRenaming.node id = copy := h.nodes.getD_lookup
  have hl : ∀ {id copy}, (id, copy) ∈ c.lists → c.toRenaming.list id = copy := h.lists.getD_lookup
  have hr : ∀ {id copy}, (id, copy) ∈ c.repositories → c.toRenaming.repository id = copy := h.repositories.getD_lookup
  refine ⟨hx, fun hn => (h.nested hn).congr hrepositories, ?_⟩
  constructor
  case nodes =>
    rw [hsince]
    exact h.nodes.bijOn hall.nodes
  case lists =>
    rw [hsince]
    exact h.lists.bijOn hall.lists
  case repositories =>
    rw [hsince]
    exact h.repositories.bijOn hall.repositories
  case scopeName => rfl
  case name => rfl
  case root => exact (hl hroot).symm
  case repository => exact (hr hrep).symm
  case owner => rfl
  case once => exact h.once
  case items =>
    intro id items hid hitems
    obtain ⟨p, hp, rfl⟩ := List.mem_map.1 (hall.lists id hid)
    rw [hl hp, list_congr hlists, h.list_copied hq hp hitems]
  case contents =>
    intro id node hid hnode
    obtain ⟨p, hp, rfl⟩ := List.mem_map.1 (hall.nodes id hid)
    obtain ⟨body, hcopy, hbody⟩ := h.node p hp node hnode
    refine ⟨node.parent.bind fun p => c.nodes.lookup p, ?_, h.parent_copied hall.nodes node.parent⟩
    rw [hnodes hp, hlinked p hp node _ hnode hcopy, hbody.eq_rename h]
  case entries =>
    intro id r hid hread
    obtain ⟨p, hp, rfl⟩ := List.mem_map.1 (hall.repositories id hid)
    obtain ⟨entries, hcopy, hspec⟩ := h.repository_copied hp hread
    exact ⟨entries, by rw [hr hp, repository_congr hrepositories, hcopy], hspec⟩
  case registered => exact h.registered_copied hall.nodes hreach

/-- What a grammar reaches in a closed arena is there. -/
theorem HeldBy.reach_within (hg : g.HeldBy a) (hc : a.Closed) : (g.reach a).Within a.region :=
  Grammar.reach_within (ClosedIn.staysIn hc) hg.root hg.repository

/-- A copy comes to an end with the copies of what the grammar reaches, unless there are at least as many lists as ids. -/
theorem copy_cases (hc : a.Closed) (hf : a.FiniteChains) (hg : g.HeldBy a) :
    (g.copy a = .error .endless ∧ Arena.capacity ≤ a.lists.size) ∨
      ∃ copy b φ, g.copy a = .ok (copy, b) ∧ a.Extends b ∧ (a.Nested → b.Nested) ∧ g.CopiedBy copy a b φ := by
  have hreach := hg.reach_within hc
  unfold Grammar.copy
  rcases copyFrom_cases (g.reach_staysIn a) hreach (hf.finiteIn hreach) .root .repository with ⟨hfault, hle⟩ |
    ⟨root, repository, c, b, hrun, h, hq, hroot, hrep, hb⟩
  · refine .inl ⟨?_, hle⟩
    rw [hfault]
    rfl
  · refine .inr ⟨_, b, c.toRenaming, ?_, copiedBy_of_sound h hq hreach hroot hrep hb⟩
    rw [hrun]
    rfl

/-- When copying answers, what was there is left alone, and a copy is added. -/
theorem copiedBy_of_copy (hc : a.Closed) (hf : a.FiniteChains) (hg : g.HeldBy a) (hrun : g.copy a = .ok (copy, b)) :
    ∃ φ, a.Extends b ∧ (a.Nested → b.Nested) ∧ g.CopiedBy copy a b φ := by
  rcases copy_cases hc hf hg with ⟨hfault, -⟩ | ⟨copy', b', φ, hrun', hcopied⟩
  · cases hfault.symm.trans hrun
  · obtain ⟨rfl, rfl⟩ := Prod.mk.inj (Except.ok.inj (hrun'.symm.trans hrun))
    exact ⟨φ, hcopied⟩

/-- What refers into the source refers, renamed, into the copy. -/
theorem CopiedBy.refersInto (h : g.CopiedBy copy a b φ) {body : NodeBody} (hb : body.RefersInto (g.reach a)) :
    (body.rename φ).RefersInto (b.since a) := by
  cases body with
  | rule children => exact h.lists.mapsTo hb
  | inclusion i =>
    obtain ⟨text, declared, state⟩ := i
    have hdeclared : ∀ r, declared.map φ.repository = some r → (b.since a).repositories r := by
      intro r hr
      obtain ⟨old, hold, rfl⟩ := Option.map_eq_some_iff.1 hr
      exact h.repositories.mapsTo (hb.1 old hold)
    cases state with
    | pending reference => exact ⟨hdeclared, nofun⟩
    | resolved target => exact ⟨hdeclared, fun t ht => Option.some.inj ht ▸ h.lists.mapsTo (hb.2 target rfl)⟩

/-- The objects of a copy refer to each other alone. -/
theorem CopiedBy.closedIn (h : g.CopiedBy copy a b φ) (hreach : (g.reach a).Within a.region) : b.ClosedIn (b.since a) := by
  have hstays := g.reach_staysIn a
  refine ⟨?_, ?_, ?_⟩
  · intro id node hn hid
    obtain ⟨source, hsource, rfl⟩ := h.nodes.surjOn hid
    obtain ⟨old, hold⟩ := (hreach.nodes _ hsource).node_ok
    obtain ⟨parent, hcopy, hparent⟩ := h.contents source old hsource hold
    obtain rfl := Except.ok.inj (hcopy.symm.trans hn)
    refine ⟨fun q hq => ?_, h.refersInto (hstays.node _ _ hold hsource)⟩
    obtain ⟨p, -, hp, rfl⟩ := (hparent q).1 hq
    exact h.nodes.mapsTo hp
  · intro id items hl hid item hi
    obtain ⟨source, hsource, rfl⟩ := h.lists.surjOn hid
    obtain ⟨olds, holds⟩ := (hreach.lists _ hsource).list_ok
    obtain rfl := Except.ok.inj ((h.items source olds hsource holds).symm.trans hl)
    obtain ⟨old, hold, rfl⟩ := List.mem_map.1 hi
    exact h.nodes.mapsTo (hstays.list _ _ holds hsource old hold)
  · intro id r hr hid
    obtain ⟨source, hsource, rfl⟩ := h.repositories.surjOn hid
    obtain ⟨old, hold⟩ := (hreach.repositories _ hsource).repository_ok
    obtain ⟨entries, hcopy, hentries, -⟩ := h.entries source old hsource hold
    obtain rfl := Except.ok.inj (hcopy.symm.trans hr)
    have hrefers := hstays.repository _ _ hold hsource
    refine ⟨fun p hp => ?_, fun entry he => ?_⟩
    · obtain ⟨q, hq, rfl⟩ := Option.map_eq_some_iff.1 hp
      exact h.repositories.mapsTo (hrefers.1 q hq)
    · obtain ⟨e, he', rfl⟩ := hentries entry he
      exact h.lists.mapsTo (hrefers.2 e he')

/-- A copy lies in what was added. -/
theorem CopiedBy.liesIn (h : g.CopiedBy copy a b φ) : copy.LiesIn (b.since a) := by
  refine ⟨?_, ?_, fun id hid => ?_⟩
  · rw [h.root]
    exact h.lists.mapsTo Reaches.root
  · rw [h.repository]
    exact h.repositories.mapsTo Reaches.repository
  · obtain ⟨source, hsource, -, rfl⟩ := (h.registered id).1 hid
    exact h.nodes.mapsTo hsource

/-- The registry of a copy has exactly the includes among what was added that wait. -/
theorem CopiedBy.mem_includes (h : g.CopiedBy copy a b φ) (hreach : (g.reach a).Within a.region) {id : NodeId} :
    id ∈ copy.registry.includes ↔ (b.since a).nodes id ∧ (b.pending? id).isSome = true := by
  have hwaits : ∀ source, g.Reaches a (.node source) → b.pending? (φ.node source) = a.pending? source := by
    intro source hsource
    obtain ⟨node, hn⟩ := (hreach.nodes source hsource).node_ok
    obtain ⟨parent, hcopy, -⟩ := h.contents source node hsource hn
    rw [pending?_of_node hcopy, pending?_of_node hn, NodeBody.pending?_rename]
  rw [h.registered]
  constructor
  · rintro ⟨source, hsource, hp, rfl⟩
    exact ⟨h.nodes.mapsTo hsource, by rw [hwaits source hsource, hp]⟩
  · rintro ⟨hid, hp⟩
    obtain ⟨source, hsource, rfl⟩ := h.nodes.surjOn hid
    exact ⟨source, hsource, by rw [← hwaits source hsource, hp], rfl⟩

/-- What a grammar reaches stands in its copy, when no repository has a key twice. -/
theorem CopiedBy.embeds (h : g.CopiedBy copy a b φ) (hk : a.KeyedIn (g.reach a)) : Embeds φ (g.reach a) a b := by
  refine ⟨fun id node hn hid => ?_, fun id items hl hid => h.items id items hid hl, fun id r hr hid => ?_⟩
  · obtain ⟨parent, hcopy, -⟩ := h.contents id node hid hn
    exact ⟨parent, hcopy⟩
  · obtain ⟨entries, hcopy, -, hentries⟩ := h.entries id r hid hr
    rw [hcopy, hentries (hk id r hr hid)]
    rfl

/-- A copy of a repository has a key once if its source does. -/
theorem CopiedBy.keyedIn (h : g.CopiedBy copy a b φ) (hreach : (g.reach a).Within a.region) (hk : a.KeyedIn (g.reach a)) :
    b.KeyedIn (b.since a) := by
  intro id r hr hid
  obtain ⟨source, hsource, rfl⟩ := h.repositories.surjOn hid
  obtain ⟨old, hold⟩ := (hreach.repositories _ hsource).repository_ok
  rw [(h.embeds hk).repository source old hold hsource, Except.ok.injEq] at hr
  rw [← hr, Repository.rename, Keyed.keys, List.map_map]
  exact hk source old hold hsource

/-- The chains of a copy are finite like those of its source. -/
theorem CopiedBy.finiteIn (h : g.CopiedBy copy a b φ) (hk : a.KeyedIn (g.reach a)) (hf : a.FiniteIn (g.reach a)) :
    b.FiniteIn (b.since a) := by
  intro id hid
  obtain ⟨source, hsource, rfl⟩ := h.repositories.surjOn hid
  obtain ⟨ids, hids⟩ := hf source hsource
  exact ⟨_, ((h.embeds hk).chain (g.reach_staysIn a) hids fun r hr => Option.some.inj hr ▸ hsource).1⟩

/-- A copy of a grammar is one of its own in a sound arena. -/
theorem copy_sound (hc : a.Closed) (hn : a.Nested) (hg : g.HeldBy a) (hrun : g.copy a = .ok (copy, b)) :
    b.Closed ∧ b.Nested ∧ a.region.Within b.region ∧ copy.HeldBy b ∧ copy.registry.includes.Nodup ∧
      (∀ id ∈ copy.registry.includes, ¬a.HasNode id) ∧ (a.KeyedIn a.region → b.KeyedIn b.region) := by
  obtain ⟨φ, hx, hnested, h⟩ := copiedBy_of_copy hc (hn.finiteChains hc) hg hrun
  have hreach := hg.reach_within hc
  have hl := h.liesIn
  refine ⟨hc.of_since hx (h.closedIn hreach), hnested hn, hx.within,
    ⟨hl.root.2, hl.repository.2, fun id hid => (hl.includes id hid).2⟩, h.once, fun id hid => (hl.includes id hid).1, fun hk => ?_⟩
  exact hk.of_since hx (h.keyedIn hreach fun id r hr hid => hk id r hr (hreach.repositories id hid))

/-- In every arena whose ids are in range and whose chains are finite, copying comes to an end, leaves alone what was there, and adds
a copy of exactly what the grammar reaches. -/
theorem copy_isomorphic (hc : a.Closed) (hf : a.FiniteChains) (hg : g.HeldBy a) (hroom : a.lists.size < Arena.capacity) :
    ∃ copy b φ, g.copy a = .ok (copy, b) ∧ a.Extends b ∧ g.CopiedBy copy a b φ := by
  rcases copy_cases hc hf hg with ⟨-, hle⟩ | ⟨copy, b, φ, hrun, hx, -, hcopied⟩
  · exact absurd hroom (Nat.not_lt.2 hle)
  · exact ⟨copy, b, φ, hrun, hx, hcopied⟩

/-- An arena with a rule one of whose children is an include of the list that the rule stands in. Next to the rule there stands an
include that is pending. -/
def knot : Arena where
  nodes := #[{ name := some "r", body := .rule ⟨0⟩ },
    { parent := some ⟨0⟩, body := .inclusion ⟨"$self", some ⟨0⟩, .resolved ⟨1⟩⟩ },
    { body := .inclusion ⟨"b", some ⟨0⟩, .pending (.foreign "b")⟩ }]
  lists := #[[⟨1⟩], [⟨0⟩, ⟨2⟩]]
  repositories := #[{ entries := [("key", ⟨1⟩)] }]

/-- The grammar of this arena. -/
def knotted : Grammar := { scopeName := "a", name := none, root := ⟨1⟩, repository := ⟨0⟩, registry := ⟨"a", [⟨1⟩, ⟨2⟩]⟩ }

/-- The rule, the include in it and the pending one are copied, each once. -/
theorem copy_isomorphic_knot : knot.Closed ∧ knot.FiniteChains ∧ knotted.HeldBy knot ∧ knot.lists.size < Arena.capacity ∧
    ∃ copy b φ, knotted.copy knot = .ok (copy, b) ∧ copy.root = ⟨2⟩ ∧ b.list ⟨2⟩ = .ok [⟨3⟩, ⟨4⟩] ∧
      copy.registry.includes = [⟨4⟩] ∧ knot.Extends b ∧ knotted.CopiedBy copy knot b φ := by
  have hc : knot.Closed := by
    simp [closed_iff, knot, Node.RefersInto, NodeBody.RefersInto, Repository.RefersInto, region, HasNode, HasList,
      HasRepository, Include.target?, IncludeState.target?]
  have hf : knot.FiniteChains := by
    rintro ⟨i⟩ hi
    obtain rfl : i = 0 := Nat.lt_one_iff.1 hi
    exact ⟨[⟨0⟩], .enclosed rfl .outermost⟩
  have hg : knotted.HeldBy knot := ⟨by decide, by decide, by decide⟩
  have hroom : knot.lists.size < Arena.capacity := by decide
  obtain ⟨copy, b, φ, hrun, hx, hcopied⟩ := copy_isomorphic hc hf hg hroom
  have hread : (knotted.copy knot).map (fun p => (p.1.root, p.2.list ⟨2⟩, p.1.registry.includes)) =
      .ok (⟨2⟩, .ok [⟨3⟩, ⟨4⟩], [⟨4⟩]) := by cbv
  have heq : (copy.root, b.list ⟨2⟩, copy.registry.includes) = (⟨2⟩, .ok [⟨3⟩, ⟨4⟩], [⟨4⟩]) :=
    Except.ok.inj ((congrArg (Except.map _) hrun).symm.trans hread)
  obtain ⟨hroot, heq⟩ := Prod.mk.inj heq
  obtain ⟨hlist, hincludes⟩ := Prod.mk.inj heq
  exact ⟨hc, hf, hg, hroom, copy, b, φ, hrun, hroot, hlist, hincludes, hx, hcopied⟩

end Grammar

end GrammarLinker
