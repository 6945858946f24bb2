import Mathlib.Data.Set.Function
import GrammarLinker.Proofs.Arena.Embedding
import GrammarLinker.Proofs.Arena.Inlining
import GrammarLinker.Proofs.Arena.Nesting

/-!
# Readers under other ids

There are four ways to read an arena from a list or a repository: to walk through the concrete patterns, to write a text, to ask whether
a list is grounded, and to look up a name. Each of them finds in a part that stands somewhere else under other ids what it finds in the
part itself (`Arena.Embeds.readsAlike`), although the two arenas have other lists too: the walk and the search keep track of the lists
that were not entered yet, and a text has only so many levels. So each reader is replaced by what it means for the list, which stays
under other ids: what the list is inlined to, whether it is grounded, and its text through enough levels.
-/

namespace GrammarLinker

open Arena

/-- What is read from items that were renamed is read from each item. -/
theorem mapM_map_eq {ι κ α ε : Type} {f : ι → Except ε α} {f' : κ → Except ε α} {r : ι → κ} {items : List ι}
    (h : ∀ item ∈ items, f' (r item) = f item) : (items.map r).mapM f' = items.mapM f := by
  induction items with
  | nil => rfl
  | cons item rest ih =>
    rw [List.map_cons, List.mapM_cons, List.mapM_cons, h item List.mem_cons_self, ih fun i hi => h i (List.mem_cons_of_mem _ hi)]

namespace Arena

variable {φ : Renaming} {ρ : Region} {a b : Arena} {list : ListId}

/-- Every reader finds in one arena, under other ids, what it finds in a part of another one. -/
structure ReadsAlike (φ : Renaming) (ρ : Region) (a b : Arena) : Prop where
  concretePatterns : ∀ list, ρ.lists list → b.concretePatterns (φ.list list) = (a.concretePatterns list).map (List.map φ.node)
  render : ∀ list, ρ.lists list → b.render (φ.list list) = a.render list
  isGrounded : ∀ list, ρ.lists list → b.isGrounded (φ.list list) = a.isGrounded list
  lookup : ∀ id name, ρ.repositories id → b.lookup (φ.repository id) name = (a.lookup id name).map (Option.map φ.list)

section

variable (h : Embeds φ ρ a b) (hstays : a.StaysIn ρ) (hρa : ρ.Within a.region)
include h hstays hρa

/-! ## The walk -/

/-- Items are inlined under their new ids to what they are inlined to, if no two lists have the same new id. -/
theorem Embeds.inlines (hinj : Set.InjOn φ.list {l | ρ.lists l}) {entered entered' : List ListId} {items out : List NodeId}
    (hin : a.Inlines entered items out entered') :
    (∀ l ∈ entered, ρ.lists l) → (∀ item ∈ items, ρ.nodes item) →
      b.Inlines (entered.map φ.list) (items.map φ.node) (out.map φ.node) (entered'.map φ.list) ∧ ∀ l ∈ entered', ρ.lists l := by
  induction hin with
  | done entered => exact fun hentered _ => ⟨.done _, hentered⟩
  | rule hr _ ih =>
    intro hentered hitems
    obtain ⟨hid, hrest⟩ := List.forall_mem_cons.1 hitems
    obtain ⟨hinlines, hall⟩ := ih hentered hrest
    exact ⟨.rule ((h.isRule hid (hρa.nodes _ hid)).2 hr) hinlines, hall⟩
  | pending hp _ ih =>
    intro hentered hitems
    obtain ⟨hid, hrest⟩ := List.forall_mem_cons.1 hitems
    obtain ⟨hinlines, hall⟩ := ih hentered hrest
    exact ⟨.pending ((h.pending? hid (hρa.nodes _ hid)).trans hp) hinlines, hall⟩
  | @again _ _ _ _ _ target hs hold _ ih =>
    intro hentered hitems
    obtain ⟨hid, hrest⟩ := List.forall_mem_cons.1 hitems
    obtain ⟨hinlines, hall⟩ := ih hentered hrest
    exact ⟨.again ((h.standsFor hid (hρa.nodes _ hid)).2 ⟨target, hs, rfl⟩) (List.mem_map_of_mem hold) hinlines, hall⟩
  | @enter entered _ _ _ _ _ _ _ target hs hnew hl _ _ ihin ih =>
    intro hentered hitems
    obtain ⟨hid, hrest⟩ := List.forall_mem_cons.1 hitems
    have htarget := hstays.lists_standsFor hid hs
    obtain ⟨hinside, hbetween⟩ := ihin (List.forall_mem_cons.2 ⟨htarget, hentered⟩) (hstays.list _ _ hl htarget)
    obtain ⟨hout, hall⟩ := ih hbetween hrest
    have hnew' : φ.list target ∉ entered.map φ.list := by
      intro hmem
      obtain ⟨l, hold, heq⟩ := List.mem_map.1 hmem
      exact hnew (hinj (hentered l hold) htarget heq ▸ hold)
    rw [List.map_append]
    exact ⟨.enter ((h.standsFor hid (hρa.nodes _ hid)).2 ⟨target, hs, rfl⟩) hnew' (h.list _ _ hl htarget) hinside hout, hall⟩

/-- The concrete patterns of a list are those of the list with the new id, under their new ids. -/
theorem Embeds.concretePatterns (hinj : Set.InjOn φ.list {l | ρ.lists l}) (hca : a.Closed) (hcb : b.Closed) (hl : ρ.lists list) :
    b.concretePatterns (φ.list list) = (a.concretePatterns list).map (List.map φ.node) := by
  obtain ⟨out, hout⟩ := hca.exists_inlined (hρa.lists list hl)
  obtain ⟨items, entered, hitems, hinlines⟩ := hout
  obtain ⟨hcopy, -⟩ := h.inlines hstays hρa hinj hinlines (fun l hm => List.mem_singleton.1 hm ▸ hl)
    (hstays.list list items hitems hl)
  have hinlined : b.Inlined (φ.list list) (out.map φ.node) := ⟨_, _, h.list list items hitems hl, hcopy⟩
  rw [hinlined.concretePatterns hcb, Inlined.concretePatterns hca ⟨items, entered, hitems, hinlines⟩]
  rfl

/-! ## The text -/

/-- The text of a list is that of the list with the new id, through as many levels. -/
theorem Embeds.renderWithin (levels depth : Nat) (hl : ρ.lists list) :
    b.renderWithin levels depth (φ.list list) = a.renderWithin levels depth list := by
  induction levels generalizing depth list with
  | zero => rfl
  | succ levels ih =>
    obtain ⟨items, hitems⟩ := (hρa.lists list hl).list_ok
    have hnode : ∀ id ∈ items, b.nodeText levels depth (φ.node id) = a.nodeText levels depth id := by
      intro id hid
      have hin := hstays.list list items hitems hl id hid
      obtain ⟨node, hn⟩ := (hρa.nodes id hin).node_ok
      obtain ⟨parent, hcopied⟩ := h.node id node hn hin
      cases hb : node.body with
      | rule children =>
        have hchildren := hstays.lists_owns hin ⟨node, hn, hb⟩
        rw [hb] at hcopied
        simp only [nodeText, hn, hb, hcopied, bind, Except.bind, NodeBody.rename, ih (depth + 1) hchildren]
        rfl
      | inclusion i =>
        have hline : ∀ count, inclusionLine (i.rename φ) count depth = inclusionLine i count depth := fun count => by
          simp only [inclusionLine, Include.reference_rename, Include.kind_rename]
        rw [hb, NodeBody.rename_inclusion] at hcopied
        cases ht : i.target? with
        | none => simp only [nodeText, hn, hb, hcopied, bind, Except.bind, Include.target?_rename, ht, hline, Option.map_none]
        | some target =>
          have htarget := hstays.lists_standsFor hin (standsFor_of_target hn hb ht)
          obtain ⟨targets, htargets⟩ := (hρa.lists target htarget).list_ok
          simp only [nodeText, hn, hb, hcopied, bind, Except.bind, Include.target?_rename, ht, hline, Option.map_some, htargets,
            h.list target targets htargets htarget, List.length_map]
    simp only [renderWithin_succ, hitems, h.list list items hitems hl, bind, Except.bind, mapM_map_eq hnode]

/-! ## The search -/

theorem Embeds.leads {target : ListId} (hl : ρ.lists list) :
    b.Leads (φ.list list) target ↔ ∃ t, a.Leads list t ∧ φ.list t = target := by
  obtain ⟨items, hitems⟩ := (hρa.lists list hl).list_ok
  have hall := hstays.list list items hitems hl
  simp only [Leads, h.list list items hitems hl, hitems, Except.ok.injEq, exists_eq_left', List.mem_map, exists_exists_and_eq_and]
  constructor
  · rintro ⟨id, hid, hs⟩
    obtain ⟨t, ht, heq⟩ := (h.standsFor (hall id hid) (hρa.nodes id (hall id hid))).1 hs
    exact ⟨t, ⟨id, hid, ht⟩, heq⟩
  · rintro ⟨t, ⟨id, hid, ht⟩, heq⟩
    exact ⟨id, hid, (h.standsFor (hall id hid) (hρa.nodes id (hall id hid))).2 ⟨t, ht, heq⟩⟩

/-- A list is grounded under its new id when it was so. -/
theorem Embeds.grounded (hl : ρ.lists list) : b.Grounded (φ.list list) ↔ a.Grounded list := by
  have hleads : ∀ {l t}, ρ.lists l → a.Leads l t → ρ.lists t := by
    rintro l t hl ⟨items, hitems, id, hid, hs⟩
    exact hstays.lists_standsFor (hstays.list l items hitems hl id hid) hs
  constructor
  · intro hg
    generalize hcopy : φ.list list = copy at hg
    induction hg generalizing list with
    | solid hs =>
      subst hcopy
      exact .solid ((h.solid hstays hρa hl).1 hs)
    | through hto _ ih =>
      subst hcopy
      obtain ⟨t, ht, heq⟩ := (h.leads hstays hρa hl).1 hto
      exact .through ht (ih (hleads hl ht) heq)
  · intro hg
    induction hg with
    | solid hs => exact .solid ((h.solid hstays hρa hl).2 hs)
    | through hto _ ih => exact .through ((h.leads hstays hρa hl).2 ⟨_, hto, rfl⟩) (ih (hleads hl hto))

/-! ## All readers -/

/-- What stands in an arena under other ids, no two lists under the same one, is read there like the part itself. -/
theorem Embeds.readsAlike (hinj : Set.InjOn φ.list {l | ρ.lists l}) (hf : a.FiniteIn ρ) (hca : a.Closed) (hcb : b.Closed)
    (hle : a.lists.size ≤ b.lists.size) : ReadsAlike φ ρ a b where
  concretePatterns _ hl := h.concretePatterns hstays hρa hinj hca hcb hl
  render list hl := by
    have hlevels : b.render (φ.list list) = a.renderWithin (b.lists.size + 1) 0 list := h.renderWithin hstays hρa _ 0 hl
    rw [hlevels, hca.renderWithin_eq_render (hρa.lists list hl) (Nat.lt_succ_of_le hle)]
  isGrounded list hl := by
    obtain ⟨items, hitems⟩ := (hρa.lists list hl).list_ok
    obtain ⟨answer, hrun, hanswer⟩ := hca.isGrounded_ok (hρa.lists list hl)
    obtain ⟨answer', hrun', hanswer'⟩ := hcb.isGrounded_ok (hasList_of_list (h.list list items hitems hl))
    rw [hrun, hrun', Bool.eq_iff_iff.2 (hanswer'.trans ((h.grounded hstays hρa hl).trans hanswer.symm))]
  lookup id name hid := by
    obtain ⟨ids, hids⟩ := hf id hid
    rw [hids.lookup_eq]
    exact h.lookup hstays hf hid (hids.lookup_eq name)

end

end Arena

end GrammarLinker
