import GrammarLinker.Proofs.Arena.Forest
import GrammarLinker.Proofs.Copy.Lockstep

/-!
# Copies are forests

What a grammar reaches contains each other in its copy as it does in the source (`Grammar.CopiedBy.forestIn`), and only the ids are
others: nodes are copied in the order in which the queue comes to them, and not in the order in which they were built. A rule is older
than its children all the same. The list of its children is recorded when the rule is copied, and nothing else refers to that list, so
that it is filled when the rule has its copy (`Copier.Ordered`).
-/

namespace GrammarLinker

open Arena

namespace Copier

variable {a : Arena} {ρ : Region} {c d : Copier} {list : Option ListId}

/-- A list that a rule owns is recorded when the rule has a copy or is about to get one, and a node that it holds is copied later. -/
structure Ordered (a : Arena) (c : Copier) : Prop where
  owner : ∀ p ∈ c.lists, ∀ q, a.Owns q p.1 → q ∈ c.nodes.map Prod.fst
  later : ∀ p ∈ c.nodes, ∀ l q, a.Holds l p.1 → a.Owns q l → ∃ copy, (q, copy) ∈ c.nodes ∧ copy.index < p.2.index

theorem Ordered.congr (h : c.Ordered a) (hn : d.nodes = c.nodes) (hl : d.lists = c.lists) : d.Ordered a :=
  ⟨by rw [hl, hn]; exact h.owner, by rw [hn]; exact h.later⟩

/-- What is recorded apart from the children of rules is owned by no rule. -/
theorem Ordered.adds (h : c.Ordered a) {E : ListId → Prop} (hn : d.nodes = c.nodes) (ha : c.Adds d E)
    (hE : ∀ l, E l → a.FreeIn a.region l) : d.Ordered a := by
  refine ⟨fun p hp q hq => ?_, by rw [hn]; exact h.later⟩
  rcases ha p hp with hold | hnew
  · rw [hn]
    exact h.owner p hold q hq
  · exact absurd hq (hE p.1 hnew q hq.hasNode)

/-- Giving a list its items changes the arena alone. -/
theorem exists_of_putItems {source : ListId} {copies : List NodeId} {u : Unit} (h : (putItems source copies).run c = .ok (u, d)) :
    ∃ b, d = { c with arena := b } := by
  have hget : (get : CopyM Copier).run c = .ok (c, c) := rfl
  unfold putItems at h
  rw [run_bind_of_ok hget] at h
  cases hl : c.lists.lookup source with
  | none =>
    rw [hl] at h
    cases h
  | some copy =>
    rw [hl] at h
    cases hb : c.arena.setList copy copies with
    | error fault =>
      simp only [hb] at h
      cases h
    | ok b =>
      simp only [hb] at h
      cases h
      exact ⟨b, rfl⟩

variable (hf : a.Forest)
include hf

theorem freeIn_of_isEntry {l : ListId} (h : IsEntry a l) : a.FreeIn a.region l := by
  obtain ⟨id, r, hr, entry, he, rfl⟩ := h
  exact hf.entries id r (hasRepository_of_repository hr) hr entry he

/-- The list that a node mentions is owned by no other rule. -/
theorem eq_of_mentions {id q : NodeId} {node : Node} {l : ListId} (hn : a.node id = .ok node) (h : Mentions node.body l)
    (hq : a.Owns q l) : q = id := by
  rcases h with hb | ⟨i, hb, ht⟩
  · exact hf.owner l q id hq.hasNode (hasNode_of_node hn) hq ⟨node, hn, hb⟩
  · have hs : a.StandsFor id l := ⟨i, inclusion_eq_some.2 ⟨node, hn, hb⟩, ht⟩
    exact absurd hq (hf.targets id l (hasNode_of_node hn) hs q hq.hasNode)

variable (hstays : a.StaysIn ρ) (hρa : ρ.Within a.region) (hfin : a.FiniteIn ρ)
include hstays hρa hfin

/-- A node of a recorded list is copied later than the rule that owns the list. -/
theorem Ordered.mapNode (ho : c.Ordered a) (h : Sound a ρ list none c) {source : NodeId} (hρ : ρ.nodes source) {l : ListId}
    (hheld : a.Holds l source) (hl : l ∈ c.lists.map Prod.fst) {copy : NodeId}
    (hrun : (mapNode source).run c = .ok (copy, d)) : d.Ordered a := by
  cases hlookup : c.nodes.lookup source with
  | some copied =>
    obtain ⟨-, rfl⟩ := Prod.mk.inj (Except.ok.inj ((mapNode_of_lookup hlookup).symm.trans hrun))
    exact ho
  | none =>
    obtain ⟨node, hn⟩ := (hρa.nodes source hρ).node_ok
    obtain ⟨body, c₁, hbody, -, h₁, -, -, hnodes, hadds⟩ := answers_mapBody hstays hfin h (hstays.node source node hn hρ)
    obtain ⟨-, rfl⟩ := Prod.mk.inj (Except.ok.inj ((mapNode_of_mapBody hlookup (h.grown.node _ _ hn) hbody).symm.trans hrun))
    constructor
    · intro p hp q hq
      rcases hadds p hp with hold | hentry | hmentions
      · rw [hnodes]
        exact List.mem_cons_of_mem _ (ho.owner p hold q hq)
      · exact absurd hq (freeIn_of_isEntry hf hentry q hq.hasNode)
      · exact eq_of_mentions hf hn hmentions hq ▸ List.mem_cons_self
    · intro p hp l' q hheld' hq
      rcases List.mem_cons.1 hp with rfl | hp
      · obtain rfl : l = l' := hf.apart l l' source hheld.hasList hheld'.hasList hheld hheld'
        obtain ⟨pair, hpair, rfl⟩ := List.mem_map.1 hl
        obtain ⟨owner, howner, rfl⟩ := List.mem_map.1 (ho.owner pair hpair q hq)
        have hmem : owner ∈ c₁.nodes := hnodes ▸ howner
        exact ⟨owner.2, List.mem_cons_of_mem _ hmem, (h₁.hasNode hmem).2⟩
      · obtain ⟨copied, hmem, hlt⟩ := ho.later p (hnodes ▸ hp) l' q hheld' hq
        exact ⟨copied, List.mem_cons_of_mem _ (hnodes ▸ hmem), hlt⟩

/-- The order is kept when the nodes of a list are copied. -/
theorem Ordered.mapNodes {sources : List NodeId} (ho : c.Ordered a) (h : Sound a ρ list none c)
    (hρ : ∀ source ∈ sources, ρ.nodes source) {l : ListId} (hheld : ∀ source ∈ sources, a.Holds l source)
    (hl : l ∈ c.lists.map Prod.fst) {copies : List NodeId} (hrun : (mapNodes sources).run c = .ok (copies, d)) : d.Ordered a := by
  induction sources generalizing c copies with
  | nil =>
    obtain ⟨-, rfl⟩ := Prod.mk.inj (Except.ok.inj hrun)
    exact ho
  | cons source rest ih =>
    obtain ⟨copy, c₁, hrun₁, -, h₁, hg₁, -⟩ := answers_mapNode hstays hρa hfin h (hρ source List.mem_cons_self)
    have hrest : ∀ s ∈ rest, ρ.nodes s := fun s hs => hρ s (List.mem_cons_of_mem _ hs)
    have ho₁ := ho.mapNode hf hstays hρa hfin h (hρ source List.mem_cons_self) (hheld source List.mem_cons_self) hl hrun₁
    obtain ⟨copies', c₂, hrun₂, -⟩ := answers_mapNodes hstays hρa hfin h₁ hrest
    unfold Copier.mapNodes at hrun
    rw [run_bind_of_ok hrun₁, run_bind_of_ok hrun₂] at hrun
    obtain ⟨-, rfl⟩ := Prod.mk.inj (Except.ok.inj hrun)
    exact ih ho₁ h₁ hrest (fun s hs => hheld s (List.mem_cons_of_mem _ hs)) (List.map_subset _ hg₁.lists hl) hrun₂

/-- The order is kept when the copy of a list is filled. -/
theorem Ordered.fillList {source : ListId} (ho : c.Ordered a) (h : Sound a ρ (some source) none c)
    (hs : source ∈ c.lists.map Prod.fst) {u : Unit} (hrun : (fillList source).run c = .ok (u, d)) : d.Ordered a := by
  obtain ⟨p, hp, rfl⟩ := List.mem_map.1 hs
  have hρ := h.lists.reached p hp
  obtain ⟨items, hitems⟩ := (hρa.lists p.1 hρ).list_ok
  have hall : ∀ source ∈ items, ρ.nodes source := hstays.list _ _ hitems hρ
  obtain ⟨copies, c₁, hrun₁, -⟩ := answers_mapNodes hstays hρa hfin h hall
  have ho₁ := ho.mapNodes hf hstays hρa hfin h hall (fun source hsource => ⟨items, hitems, hsource⟩) hs hrun₁
  rw [fillList_of_list (h.grown.list _ _ hitems), run_bind_of_ok hrun₁] at hrun
  obtain ⟨b, rfl⟩ := exists_of_putItems hrun
  exact ho₁.congr rfl rfl

/-- The order is kept until the queue is empty. -/
theorem Ordered.drain {fuel : Nat} (ho : c.Ordered a) (h : Sound a ρ none none c) {u : Unit}
    (hrun : (drain fuel).run c = .ok (u, d)) : d.Ordered a := by
  induction fuel generalizing c with
  | zero => cases hrun
  | succ fuel ih =>
    cases hq : c.queue with
    | nil =>
      obtain ⟨-, rfl⟩ := Prod.mk.inj (Except.ok.inj ((drain_of_nil hq).symm.trans hrun))
      exact ho
    | cons source queue =>
      have hmem := h.queued source (hq ▸ List.mem_cons_self)
      obtain ⟨u, c₁, hfill, h₁, -⟩ := answers_fillList hstays hρa hfin (h.pop hq) hmem
      have ho₁ := (ho.congr rfl rfl : Copier.Ordered a { c with queue }).fillList hf hstays hρa hfin (h.pop hq) hmem hfill
      rw [drain_of_fillList hq hfill] at hrun
      exact ih ho₁ h₁ hrun

/-- The copies that are gathered from a root that no rule owns are in order. -/
theorem ordered_gather {root : ListId} {repository : RepositoryId} (hroot : ρ.lists root) (hrep : ρ.repositories repository)
    (hfree : a.FreeIn a.region root) {ids : ListId × RepositoryId}
    (hrun : (gather root repository).run { arena := a } = .ok (ids, d)) : d.Ordered a := by
  have hstart : Copier.Ordered a { arena := a } := ⟨nofun, nofun⟩
  obtain ⟨root', c₁, hrun₁, -, h₁, -, -, hn₁, -, hadds₁⟩ := answers_mapList (sound_start a ρ) hroot
  have ho₁ : c₁.Ordered a := hstart.adds hn₁ hadds₁ fun l hl => hl ▸ hfree
  obtain ⟨repository', c₂, hrun₂, -, h₂, -, -, hn₂, hadds₂⟩ := answers_mapRepository hstays hfin h₁ hrep
  have ho₂ : c₂.Ordered a := ho₁.adds hn₂ hadds₂ fun l => freeIn_of_isEntry hf
  unfold gather at hrun
  rw [run_bind_of_ok hrun₁, run_bind_of_ok hrun₂] at hrun
  obtain ⟨u, c₃, hdrain, hrun⟩ := exists_of_run_bind hrun
  obtain ⟨-, rfl⟩ := Prod.mk.inj (Except.ok.inj hrun)
  exact ho₂.drain hf hstays hρa hfin h₂ hdrain

end Copier

namespace Arena

variable {φ : Renaming} {ρ : Region} {a b : Arena} (h : Embeds φ ρ a b)
include h

/-- A rule owns the list with the new id. -/
theorem Embeds.owns {id : NodeId} (hid : ρ.nodes id) (ha : a.HasNode id) {list : ListId} :
    b.Owns (φ.node id) list ↔ ∃ source, a.Owns id source ∧ φ.list source = list := by
  obtain ⟨⟨name, rule, old, body⟩, hn⟩ := ha.node_ok
  obtain ⟨parent, hcopy⟩ := h.node id _ hn hid
  simp only [Owns, hcopy, hn, Except.ok.injEq, exists_eq_left']
  cases body with
  | rule children => simp [NodeBody.rename]
  | inclusion i =>
    obtain ⟨text, declared, state⟩ := i
    cases state <;> simp [NodeBody.rename]

end Arena

namespace Grammar

open Copier

variable {g copy : Grammar} {a b : Arena} {φ : Renaming}

/-! ## Containment in a copy -/

section

variable (h : g.CopiedBy copy a b φ) (hreach : (g.reach a).Within a.region) (hk : a.KeyedIn (g.reach a))
include h hreach

/-- The parent of a copy is the copy of the parent. -/
theorem CopiedBy.parent? {id : NodeId} (hid : g.Reaches a (.node id)) {q : NodeId} :
    b.parent? (φ.node id) = some q ↔ ∃ p, a.parent? id = some p ∧ g.Reaches a (.node p) ∧ φ.node p = q := by
  obtain ⟨node, hn⟩ := (hreach.nodes id hid).node_ok
  obtain ⟨parent, hcopy, hparent⟩ := h.contents id node hid hn
  rw [parent?_of_node hcopy, parent?_of_node hn]
  exact hparent q

/-- What a copy of a list holds is the copy of what the list holds. -/
theorem CopiedBy.exists_holds {list : ListId} {id : NodeId} (hl : (b.since a).lists list) (hh : b.Holds list id) :
    ∃ l source, g.Reaches a (.list l) ∧ g.Reaches a (.node source) ∧ φ.list l = list ∧ φ.node source = id ∧ a.Holds l source := by
  obtain ⟨l, hl', rfl⟩ := h.lists.surjOn hl
  obtain ⟨olds, holds⟩ := (hreach.lists l hl').list_ok
  obtain ⟨items, hitems, hid⟩ := hh
  obtain rfl := Except.ok.inj ((h.items l olds hl' holds).symm.trans hitems)
  obtain ⟨source, hsource, rfl⟩ := List.mem_map.1 hid
  exact ⟨l, source, hl', (g.reach_staysIn a).list l olds holds hl' source hsource, rfl, rfl, olds, holds, hsource⟩

/-- The copies of lists hold a copy once, if the lists hold a node once. -/
theorem CopiedBy.holdsOnceIn (ho : a.HoldsOnce) : b.HoldsOnceIn (b.since a) := by
  constructor
  · intro list items hl hitems
    obtain ⟨source, hsource, rfl⟩ := h.lists.surjOn hl
    obtain ⟨olds, holds⟩ := (hreach.lists source hsource).list_ok
    obtain rfl := Except.ok.inj ((h.items source olds hsource holds).symm.trans hitems)
    have hreached := (g.reach_staysIn a).list source olds holds hsource
    refine List.Nodup.map_on ?_ (ho.once source olds (hreach.lists source hsource) holds)
    exact fun x hx y hy => h.nodes.injOn (hreached x hx) (hreached y hy)
  · intro list list' id hl hl' hh hh'
    obtain ⟨l, source, -, hs, rfl, rfl, hheld⟩ := h.exists_holds hreach hl hh
    obtain ⟨l', source', -, hs', rfl, heq, hheld'⟩ := h.exists_holds hreach hl' hh'
    obtain rfl := h.nodes.injOn hs' hs heq
    exact congrArg φ.list (ho.apart l l' source' hheld.hasList hheld'.hasList hheld hheld')

include hk

/-- What a copy of a rule owns is the copy of what the rule owns. -/
theorem CopiedBy.exists_owns {id : NodeId} {list : ListId} (hid : (b.since a).nodes id) (ho : b.Owns id list) :
    ∃ p l, g.Reaches a (.node p) ∧ g.Reaches a (.list l) ∧ φ.node p = id ∧ φ.list l = list ∧ a.Owns p l := by
  obtain ⟨p, hp, rfl⟩ := h.nodes.surjOn hid
  obtain ⟨l, howns, rfl⟩ := ((h.embeds hk).owns hp (hreach.nodes p hp)).1 ho
  exact ⟨p, l, hp, (g.reach_staysIn a).lists_owns hp howns, rfl, rfl, howns⟩

/-- A list that no rule owns has a copy that no rule owns. -/
theorem CopiedBy.freeIn {list : ListId} (hl : g.Reaches a (.list list)) (hfree : a.FreeIn a.region list) :
    b.FreeIn (b.since a) (φ.list list) := by
  intro q hq ho
  obtain ⟨p, l, -, hl', -, heq, howns⟩ := h.exists_owns hreach hk hq ho
  obtain rfl := h.lists.injOn hl' hl heq
  exact hfree p howns.hasNode howns

/-- What is copied contains each other as in a forest if its source does, and rules are copied before their children. -/
theorem CopiedBy.forestIn (hf : a.Forest) (hlater : ∀ list id p, g.Reaches a (.node id) → g.Reaches a (.node p) →
      a.Holds list id → a.Owns p list → (φ.node p).index < (φ.node id).index) : b.ForestIn (b.since a) := by
  have hstays := g.reach_staysIn a
  have hheld := h.holdsOnceIn hreach hf.holdsOnceIn
  refine ⟨hheld.once, hheld.apart, ?_, ?_, ?_, ?_, ?_⟩
  · intro list p q hp hq hop hoq
    obtain ⟨p, l, -, hl, rfl, rfl, ho⟩ := h.exists_owns hreach hk hp hop
    obtain ⟨q, l', -, hl', rfl, heq, ho'⟩ := h.exists_owns hreach hk hq hoq
    obtain rfl := h.lists.injOn hl' hl heq
    exact congrArg φ.node (hf.owner l' p q ho.hasNode ho'.hasNode ho ho')
  · intro list id p hl hp hh
    obtain ⟨l, source, hl', hs, rfl, rfl, hheld⟩ := h.exists_holds hreach hl hh
    obtain ⟨p, hp', rfl⟩ := h.nodes.surjOn hp
    have hparent := hf.parent l source p hheld.hasList (hreach.nodes p hp') hheld
    rw [h.parent? hreach hs, (h.embeds hk).owns hp' (hreach.nodes p hp')]
    constructor
    · rintro ⟨p', hpar, hreached, heq⟩
      obtain rfl := h.nodes.injOn hreached hp' heq
      exact ⟨l, hparent.1 hpar, rfl⟩
    · rintro ⟨l', howns, heq⟩
      obtain rfl := h.lists.injOn (hstays.lists_owns hp' howns) hl' heq
      exact ⟨p, hparent.2 howns, hp', rfl⟩
  · intro list id p hl hp hh ho
    obtain ⟨l, source, hreached, hs, rfl, rfl, hheld⟩ := h.exists_holds hreach hl hh
    obtain ⟨p, l', hp', hreached', rfl, heq, howns⟩ := h.exists_owns hreach hk hp ho
    obtain rfl := h.lists.injOn hreached' hreached heq
    exact hlater l' source p hs hp' hheld howns
  · intro id r hid hr entry he
    obtain ⟨source, hs, rfl⟩ := h.repositories.surjOn hid
    obtain ⟨old, hold⟩ := (hreach.repositories source hs).repository_ok
    obtain ⟨entries, hcopy, hentries, -⟩ := h.entries source old hs hold
    obtain rfl := Except.ok.inj (hcopy.symm.trans hr)
    obtain ⟨entry, hentry, rfl⟩ := hentries entry he
    exact h.freeIn hreach hk ((hstays.repository _ _ hold hs).2 entry hentry)
      (hf.entries source old (hreach.repositories source hs) hold entry hentry)
  · intro id target hid hstands
    obtain ⟨source, hs, rfl⟩ := h.nodes.surjOn hid
    obtain ⟨l, hl, rfl⟩ := ((h.embeds hk).standsFor hs (hreach.nodes source hs)).1 hstands
    exact h.freeIn hreach hk (hstays.lists_standsFor hs hl) (hf.targets source l (hreach.nodes source hs) hl)

end

/-- A copy of a grammar in a forest leaves a forest, and its root is again the list of no rule. -/
theorem copy_forest (hc : a.Closed) (hn : a.Nested) (hk : a.KeyedIn a.region) (hg : g.HeldBy a) (hf : a.Forest)
    (hroot : a.FreeIn a.region g.root) (hrun : g.copy a = .ok (copy, b)) :
    b.Forest ∧ b.FreeIn b.region copy.root ∧ ∀ list, a.HasList list → a.FreeIn a.region list → b.FreeIn b.region list := by
  have hreach := hg.reach_within hc
  have hfin : a.FiniteIn (g.reach a) := (hn.finiteChains hc).finiteIn hreach
  have hk' : a.KeyedIn (g.reach a) := fun id r hr hid => hk id r hr (hreach.repositories id hid)
  rcases gather_cases (g.reach_staysIn a) hreach hfin .root .repository with ⟨hfault, -⟩ |
    ⟨⟨root, repository⟩, c, hgather, h, hq, hmem, hrep⟩
  · have hcopy : g.copy a = .error .endless := by
      unfold Grammar.copy
      rw [copyFrom_eq_gather, run_bind_of_error hfault]
      rfl
    cases hcopy.symm.trans hrun
  obtain ⟨m, hm, -⟩ := linkParents_ok h.grown (fun p hp => hreach.nodes _ (h.nodes.reached p hp)) (fun p hp => h.hasNode hp)
    h.nodes.copies
  obtain ⟨hx, -, hcopied⟩ := copiedBy_of_sound h hq hreach hmem hrep hm
  obtain ⟨rfl, rfl⟩ := Prod.mk.inj (Except.ok.inj ((copy_of_gather hgather hm).symm.trans hrun))
  have ho : c.Ordered a := ordered_gather hf (g.reach_staysIn a) hreach hfin .root .repository hroot hgather
  have hopened : Opened g c := ⟨List.mem_map_of_mem hmem, List.mem_map_of_mem hrep⟩
  have hadd : m.ForestIn (m.since a) := by
    refine hcopied.forestIn hreach hk' hf fun l id p hid _ hheld howns => ?_
    obtain ⟨pair, hpair, rfl⟩ := List.mem_map.1 ((h.mem_nodes_iff hq hopened).2 hid)
    obtain ⟨copied, howner, hlt⟩ := ho.later pair hpair l p hheld howns
    have hid' : c.toRenaming.node pair.1 = pair.2 := h.nodes.getD_lookup hpair
    have hp' : c.toRenaming.node p = copied := h.nodes.getD_lookup howner
    rw [hid', hp']
    exact hlt
  have hsince := hcopied.closedIn hreach
  refine ⟨hf.of_since hx hc hsince hadd, ?_, fun list hl hfree => hx.freeIn hsince hl hfree⟩
  rw [hcopied.root]
  exact hx.freeIn_since hc (hcopied.lists.mapsTo Reaches.root) (hcopied.freeIn hreach hk' .root hroot)

end Grammar

end GrammarLinker
