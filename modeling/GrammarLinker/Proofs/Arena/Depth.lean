import GrammarLinker.Arena.Render
import GrammarLinker.Proofs.Arena.Forest

/-!
# Texts of lists

The text of a list is made of the texts of the nodes that it holds (`Arena.nodeText`). An id that is out of range is not come by on the
way, whether or not containment is a forest (`Arena.Closed.render_ne_dangling`).
-/

namespace GrammarLinker

open Arena

/-- Where every item has an answer, all have answers together. -/
theorem exists_mapM_eq_ok {ι α ε : Type} {f : ι → Except ε α} {items : List ι} (h : ∀ item ∈ items, ∃ value, f item = .ok value) :
    ∃ values, items.mapM f = .ok values := by
  induction items with
  | nil => exact ⟨[], rfl⟩
  | cons item rest ih =>
    obtain ⟨value, hvalue⟩ := h item List.mem_cons_self
    obtain ⟨values, hvalues⟩ := ih fun i hi => h i (List.mem_cons_of_mem _ hi)
    exact ⟨value :: values, by rw [List.mapM_cons, hvalue, hvalues]; rfl⟩

/-- Where all items together have a fault, one of them has it. -/
theorem exists_of_mapM_eq_error {ι α ε : Type} {f : ι → Except ε α} {items : List ι} {e : ε} (h : items.mapM f = .error e) :
    ∃ item ∈ items, f item = .error e := by
  induction items with
  | nil => cases h
  | cons item rest ih =>
    rw [List.mapM_cons] at h
    cases hitem : f item with
    | error e' =>
      rw [hitem] at h
      cases h
      exact ⟨item, List.mem_cons_self, hitem⟩
    | ok value =>
      rw [hitem] at h
      cases hrest : rest.mapM f with
      | error e' =>
        rw [hrest] at h
        cases h
        obtain ⟨i, hi, hfault⟩ := ih hrest
        exact ⟨i, List.mem_cons_of_mem _ hi, hfault⟩
      | ok values =>
        rw [hrest] at h
        cases h

namespace Arena

variable {a : Arena}

/-- No rule of the arena owns a list. -/
theorem FreeIn.not_owns {list : ListId} (h : a.FreeIn a.region list) (id : NodeId) : ¬a.Owns id list :=
  fun ho => h id ho.hasNode ho

/-- What a list holds that no rule owns has no parent. -/
theorem Forest.parent?_eq_none (hf : a.Forest) (hc : a.Closed) {list : ListId} (hfree : a.FreeIn a.region list) {id : NodeId}
    (hh : a.Holds list id) : a.parent? id = none := by
  refine Option.eq_none_iff_forall_ne_some.2 fun p hp => ?_
  have hid : a.HasNode id := ClosedIn.nodes_holds hc hh.hasList hh
  have hp' : a.HasNode p := ClosedIn.nodes_parent? hc hid hp
  exact hfree.not_owns p ((hf.parent list id p hh.hasList hp' hh).1 hp)

/-! ## The text of a list -/

/-- The text of a node at a depth, with at most `levels` lists one inside the other below it. -/
def nodeText (a : Arena) (levels depth : Nat) (id : NodeId) : Except Fault String := do
  let node ← a.node id
  match node.body with
  | .rule children => return ruleLine node depth ++ (← a.renderWithin levels (depth + 1) children)
  | .inclusion i =>
    match i.target? with
    | none => return inclusionLine i none depth
    | some target => return inclusionLine i (some (← a.list target).length) depth

/-- The text of a list is put together from the texts of its items. -/
theorem renderWithin_succ (a : Arena) (levels depth : Nat) (list : ListId) : a.renderWithin (levels + 1) depth list = (do
    let items ← a.list list
    let texts ← items.mapM (a.nodeText levels depth)
    return String.join texts) := rfl

/-- What an include stands for is only counted. -/
theorem Closed.nodeText_inclusion (hc : a.Closed) {id : NodeId} {node : Node} (hn : a.node id = .ok node) {i : Include}
    (hb : node.body = .inclusion i) (levels depth : Nat) : ∃ text, a.nodeText levels depth id = .ok text := by
  simp only [nodeText, hn, bind, Except.bind, hb]
  cases ht : i.target? with
  | none => exact ⟨_, rfl⟩
  | some target =>
    obtain ⟨targets, htargets⟩ := (hc.hasList_target (inclusion_eq_some.2 ⟨node, hn, hb⟩) ht).list_ok
    exact ⟨_, by simp only [htargets]; rfl⟩

/-- In a closed arena no dangling id is met while a text is made. -/
theorem Closed.renderWithin_ne_dangling (hc : a.Closed) (levels depth : Nat) {list : ListId} (hl : a.HasList list) :
    a.renderWithin levels depth list ≠ .error .dangling := by
  induction levels generalizing depth list with
  | zero => exact fun h => nomatch h
  | succ levels ih =>
    intro h
    obtain ⟨items, hitems⟩ := hl.list_ok
    simp only [renderWithin_succ, hitems, bind, Except.bind] at h
    cases htexts : items.mapM (a.nodeText levels depth) with
    | ok texts =>
      rw [htexts] at h
      cases h
    | error fault =>
      rw [htexts] at h
      cases h
      obtain ⟨id, hid, hfault⟩ := exists_of_mapM_eq_error htexts
      obtain ⟨node, hn⟩ := (hc.hasNode_item hitems hid).node_ok
      cases hb : node.body with
      | inclusion i =>
        obtain ⟨text, htext⟩ := hc.nodeText_inclusion hn hb levels depth
        cases hfault.symm.trans htext
      | rule children =>
        have ho : a.Owns id children := ⟨node, hn, hb⟩
        have hne := ih (depth + 1) (ClosedIn.lists_owns hc ho.hasNode ho)
        simp only [nodeText, hn, bind, Except.bind, hb] at hfault
        cases hrest : a.renderWithin levels (depth + 1) children with
        | ok text =>
          rw [hrest] at hfault
          cases hfault
        | error fault =>
          rw [hrest] at hfault
          cases hfault
          exact hne hrest

/-- The text of a list that is there meets no id that is out of range. -/
theorem Closed.render_ne_dangling (hc : a.Closed) {list : ListId} (hl : a.HasList list) : a.render list ≠ .error .dangling :=
  hc.renderWithin_ne_dangling _ 0 hl

end Arena

end GrammarLinker
