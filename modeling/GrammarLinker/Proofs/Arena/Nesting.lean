import Mathlib.Data.Finset.Card
import GrammarLinker.Proofs.Arena.Depth

/-!
# Lists in lists

A list encloses the lists of children of the rules that it holds (`Arena.Encloses`). A text comes to an end unless lists enclose each
other through all of its levels (`Arena.Closed.renderWithin_cases`). If they do so through more levels than there are lists, then
through any number of them, so that more levels make no other text (`Arena.Closed.renderWithin_eq_render`).

Where no list encloses itself, however far inside, every list has a text (`Arena.Founded.render_ok`). This needs less than that
containment is a forest (`Arena.Forest.founded`).
-/

namespace GrammarLinker

open Arena

section

variable {ι α ε : Type} {f f' : ι → Except ε α} {items : List ι} {values : List α}

/-- Where all items together have values, each of them has one. -/
theorem exists_of_mapM_eq_ok (h : items.mapM f = .ok values) : ∀ item ∈ items, ∃ value, f item = .ok value := by
  induction items generalizing values with
  | nil => exact nofun
  | cons item rest ih =>
    rw [List.mapM_cons] at h
    cases hitem : f item with
    | error e => rw [hitem] at h; cases h
    | ok value =>
      rw [hitem] at h
      cases hrest : rest.mapM f with
      | error e => rw [hrest] at h; cases h
      | ok others => exact List.forall_mem_cons.2 ⟨⟨value, hitem⟩, ih hrest⟩

/-- Items that have the same values one by one have them together. -/
theorem mapM_eq_ok_mono (h : items.mapM f = .ok values) (hf : ∀ item ∈ items, ∀ value, f item = .ok value → f' item = .ok value) :
    items.mapM f' = .ok values := by
  induction items generalizing values with
  | nil => exact h
  | cons item rest ih =>
    rw [List.mapM_cons] at h ⊢
    cases hitem : f item with
    | error e => rw [hitem] at h; cases h
    | ok value =>
      rw [hitem] at h
      cases hrest : rest.mapM f with
      | error e => rw [hrest] at h; cases h
      | ok others =>
        rw [hrest] at h
        rw [hf item List.mem_cons_self value hitem, ih hrest fun i hi => hf i (List.mem_cons_of_mem _ hi)]
        exact h

end

namespace Arena

variable {a b lo : Arena} {list inner : ListId} {id : NodeId}

/-- A list encloses the list of the children of a rule that it holds. -/
def Encloses (a : Arena) (outer inner : ListId) : Prop := ∃ id, a.Holds outer id ∧ a.Owns id inner

/-- Lists enclose each other through a number of levels. -/
def Deep (a : Arena) : Nat → ListId → Prop
  | 0, _ => True
  | levels + 1, list => ∃ inner, a.Encloses list inner ∧ a.Deep levels inner

/-- A list that is enclosed by another is in the arena. -/
theorem Closed.hasList_encloses (hc : a.Closed) (h : a.Encloses list inner) : a.HasList inner := by
  obtain ⟨id, -, ho⟩ := h
  exact ClosedIn.lists_owns hc ho.hasNode ho

theorem Deep.pred {levels : Nat} (h : a.Deep (levels + 1) list) : a.Deep levels list := by
  induction levels generalizing list with
  | zero => trivial
  | succ levels ih =>
    obtain ⟨inner, henc, hdeep⟩ := h
    exact ⟨inner, henc, ih hdeep⟩

/-! ## Texts -/

/-- The text of a node has no end when it is a rule whose children have none. -/
theorem nodeText_of_owns (levels depth : Nat) (ho : a.Owns id inner) : ∃ line,
    a.nodeText levels depth id = (a.renderWithin levels (depth + 1) inner).map (line ++ ·) := by
  obtain ⟨node, hn, hb⟩ := ho
  refine ⟨ruleLine node depth, ?_⟩
  simp only [nodeText, hn, hb, bind, Except.bind]
  cases a.renderWithin levels (depth + 1) inner <;> rfl

/-- A text has no end when lists enclose each other through all its levels, and has one otherwise. -/
theorem Closed.renderWithin_cases (hc : a.Closed) (levels depth : Nat) (hl : a.HasList list) :
    (a.Deep levels list ∧ a.renderWithin levels depth list = .error .endless) ∨
      (¬a.Deep levels list ∧ ∃ text, a.renderWithin levels depth list = .ok text) := by
  induction levels generalizing depth list with
  | zero => exact .inl ⟨trivial, rfl⟩
  | succ levels ih =>
    obtain ⟨items, hitems⟩ := hl.list_ok
    by_cases hdeep : a.Deep (levels + 1) list
    · refine .inl ⟨hdeep, ?_⟩
      obtain ⟨inner, ⟨id, ⟨items', hitems', hid⟩, ho⟩, hinner⟩ := hdeep
      obtain rfl : items' = items := Except.ok.inj (hitems'.symm.trans hitems)
      have hdangling := hc.renderWithin_ne_dangling (levels + 1) depth hl
      cases hrun : a.renderWithin (levels + 1) depth list with
      | error fault =>
        cases fault with
        | dangling => exact absurd hrun hdangling
        | endless => rfl
      | ok text =>
        rw [renderWithin_succ] at hrun
        obtain ⟨read, hread, hrun⟩ := exists_of_bind_eq_ok hrun
        obtain rfl : read = items' := Except.ok.inj (hread.symm.trans hitems)
        obtain ⟨texts, htexts, -⟩ := exists_of_bind_eq_ok hrun
        obtain ⟨value, hvalue⟩ := exists_of_mapM_eq_ok htexts id hid
        obtain ⟨line, hline⟩ := nodeText_of_owns levels depth ho
        rcases ih (depth + 1) (ClosedIn.lists_owns hc ho.hasNode ho) with ⟨-, hendless⟩ | ⟨hnot, -⟩
        · rw [hline, hendless] at hvalue
          cases hvalue
        · exact absurd hinner hnot
    · refine .inr ⟨hdeep, ?_⟩
      have htexts : ∀ id ∈ items, ∃ text, a.nodeText levels depth id = .ok text := by
        intro id hid
        obtain ⟨node, hn⟩ := (hc.hasNode_item hitems hid).node_ok
        cases hb : node.body with
        | inclusion i => exact hc.nodeText_inclusion hn hb levels depth
        | rule children =>
          have ho : a.Owns id children := ⟨node, hn, hb⟩
          obtain ⟨line, hline⟩ := nodeText_of_owns levels depth ho
          rcases ih (depth + 1) (ClosedIn.lists_owns hc ho.hasNode ho) with ⟨hinner, -⟩ | ⟨-, text, htext⟩
          · exact absurd ⟨children, ⟨id, ⟨items, hitems, hid⟩, ho⟩, hinner⟩ hdeep
          · exact ⟨line ++ text, by rw [hline, htext]; rfl⟩
      obtain ⟨texts, hjoined⟩ := exists_mapM_eq_ok htexts
      exact ⟨String.join texts, by simp only [renderWithin_succ, hitems, bind, Except.bind, hjoined]; rfl⟩

/-- The text of a node is the same through more levels when the texts of its lists are. -/
theorem nodeText_mono {levels levels' depth : Nat} {value : String}
    (hmono : ∀ inner text, a.renderWithin levels (depth + 1) inner = .ok text → a.renderWithin levels' (depth + 1) inner = .ok text)
    (h : a.nodeText levels depth id = .ok value) : a.nodeText levels' depth id = .ok value := by
  obtain ⟨node, hn, hbody⟩ := exists_of_bind_eq_ok h
  cases hb : node.body with
  | inclusion i =>
    simp only [nodeText, hn, hb, bind, Except.bind] at h ⊢
    exact h
  | rule children =>
    rw [hb] at hbody
    obtain ⟨text, htext, hvalue⟩ := exists_of_bind_eq_ok hbody
    simp only [nodeText, hn, hb, hmono children text htext, bind, Except.bind]
    exact hvalue

/-- A text that has an end is the same through more levels. -/
theorem renderWithin_succ_eq_ok {levels depth : Nat} {text : String} (h : a.renderWithin levels depth list = .ok text) :
    a.renderWithin (levels + 1) depth list = .ok text := by
  induction levels generalizing depth list text with
  | zero => cases h
  | succ levels ih =>
    rw [renderWithin_succ] at h ⊢
    obtain ⟨items, hitems, h⟩ := exists_of_bind_eq_ok h
    obtain ⟨texts, htexts, h⟩ := exists_of_bind_eq_ok h
    have hmore : items.mapM (a.nodeText (levels + 1) depth) = .ok texts :=
      mapM_eq_ok_mono htexts fun id _ value hvalue => nodeText_mono (fun inner text => ih) hvalue
    rw [hitems]
    simp only [bind, Except.bind, hmore]
    exact h

/-! ## More levels than lists -/

/-- A decreasing sequence of sets, each of which determines the next one, stays the same after as many steps as its first set has
elements. -/
theorem eq_of_decreasing {s : Nat → Finset Nat} {bound : Nat} (hsub : ∀ n, s (n + 1) ⊆ s n)
    (hstep : ∀ n, s (n + 1) = s n → s (n + 2) = s (n + 1)) (hcard : (s 0).card ≤ bound) (k : Nat) : s (bound + k) = s bound := by
  obtain ⟨n, hn, heq⟩ : ∃ n ≤ bound, s (n + 1) = s n := by
    by_contra hno
    have hless : ∀ n ≤ bound + 1, (s n).card + n ≤ bound := by
      intro n
      induction n with
      | zero => exact fun _ => hcard
      | succ n ih =>
        intro hle
        have hlt : (s (n + 1)).card < (s n).card :=
          Finset.card_lt_card ((hsub n).ssubset_of_ne fun heq => hno ⟨n, Nat.le_of_succ_le_succ hle, heq⟩)
        have := ih (Nat.le_of_succ_le hle)
        omega
    have := hless (bound + 1) le_rfl
    omega
  have hsucc : ∀ k, s (n + k + 1) = s (n + k) := by
    intro k
    induction k with
    | zero => exact heq
    | succ k ih => exact hstep (n + k) ih
  have hconst : ∀ k, s (n + k) = s n := by
    intro k
    induction k with
    | zero => rfl
    | succ k ih => exact (hsucc k).trans ih
  obtain ⟨m, rfl⟩ := Nat.exists_eq_add_of_le hn
  rw [Nat.add_assoc, hconst, hconst]

theorem Deep.of_add {levels k : Nat} (h : a.Deep (levels + k) list) : a.Deep levels list := by
  induction k with
  | zero => exact h
  | succ k ih => exact ih h.pred

open scoped Classical in
/-- The indices of the lists from which some number of levels of lists lie inside each other. -/
noncomputable def deepLists (a : Arena) (levels : Nat) : Finset Nat :=
  (Finset.range a.lists.size).filter fun i => a.Deep levels ⟨i⟩

/-- These are the lists that are there and from which that many levels lie inside each other. -/
theorem mem_deepLists {levels i : Nat} : i ∈ a.deepLists levels ↔ i < a.lists.size ∧ a.Deep levels ⟨i⟩ := by
  simp [deepLists]

/-- They are at most as many as there are lists. -/
theorem card_deepLists_le (a : Arena) (levels : Nat) : (a.deepLists levels).card ≤ a.lists.size :=
  (Finset.card_le_card fun _ hi => Finset.mem_range.2 (mem_deepLists.1 hi).1).trans (Finset.card_range _).le

/-- Lists that enclose each other through more levels than there are lists do so through any number of levels. -/
theorem Closed.deep_of_deep (hc : a.Closed) (hl : a.HasList list) (h : a.Deep (a.lists.size + 1) list) (levels : Nat) :
    a.Deep levels list := by
  have hmem : ∀ n l, a.HasList l → (l.index ∈ a.deepLists n ↔ a.Deep n l) := fun n l hl =>
    mem_deepLists.trans (and_iff_right hl)
  have hsub : ∀ n, a.deepLists (n + 1) ⊆ a.deepLists n := fun n i hi => mem_deepLists.2 ((mem_deepLists.1 hi).imp_right Deep.pred)
  have hstep : ∀ n, a.deepLists (n + 1) = a.deepLists n → a.deepLists (n + 2) = a.deepLists (n + 1) := by
    intro n heq
    refine Finset.Subset.antisymm (hsub (n + 1)) fun i hi => ?_
    obtain ⟨hi', inner, henc, hinner⟩ := mem_deepLists.1 hi
    refine mem_deepLists.2 ⟨hi', inner, henc, ?_⟩
    have hin := hc.hasList_encloses henc
    rwa [← hmem _ _ hin, heq, hmem _ _ hin]
  have hconst := eq_of_decreasing hsub hstep (a.card_deepLists_le 0)
  have hmany : a.Deep (levels + a.lists.size) list := by
    rw [Nat.add_comm, ← hmem _ _ hl, hconst levels, ← hconst 1, hmem _ _ hl]
    exact h
  exact hmany.of_add

/-- More levels than there are lists make no other text. -/
theorem Closed.renderWithin_eq_render (hc : a.Closed) (hl : a.HasList list) {levels : Nat} (hle : a.lists.size < levels) :
    a.renderWithin levels 0 list = a.render list := by
  obtain ⟨k, rfl⟩ := Nat.exists_eq_add_of_lt hle
  unfold render
  rcases hc.renderWithin_cases (a.lists.size + 1) 0 hl with ⟨hdeep, hendless⟩ | ⟨-, text, htext⟩
  · rcases hc.renderWithin_cases (a.lists.size + k + 1) 0 hl with ⟨-, hendless'⟩ | ⟨hnot, -⟩
    · rw [hendless, hendless']
    · exact absurd (hc.deep_of_deep hl hdeep _) hnot
  · have hmore : ∀ k, a.renderWithin (a.lists.size + 1 + k) 0 list = .ok text := by
      intro k
      induction k with
      | zero => exact htext
      | succ k ih => exact renderWithin_succ_eq_ok ih
    rw [htext, ← hmore k, Nat.add_right_comm]

/-! ## Where no list encloses itself -/

/-- One comes to an end when one goes from lists to lists that they enclose. -/
def Founded (a : Arena) : Prop := ∀ list, Acc (fun inner outer => a.Encloses outer inner) list

/-- Then every list has a text. -/
theorem Founded.render_ok (h : a.Founded) (hc : a.Closed) (hl : a.HasList list) : ∃ text, a.render list = .ok text := by
  have hnot : ¬a.Deep (a.lists.size + 1) list := by
    have hacc := h list
    induction hacc with
    | intro list _ ih =>
      intro hdeep
      obtain ⟨inner, henc, hinner⟩ := hc.deep_of_deep hl hdeep (a.lists.size + 2)
      exact ih inner henc (hc.hasList_encloses henc) hinner
  rcases hc.renderWithin_cases (a.lists.size + 1) 0 hl with ⟨hdeep, -⟩ | ⟨-, htext⟩
  · exact absurd hdeep hnot
  · exact htext

/-- In the empty arena no list encloses another. -/
theorem founded_empty : Founded {} := fun list => ⟨list, fun inner h => by
  obtain ⟨id, -, ho⟩ := h
  exact absurd ho.hasNode (not_hasNode_empty id)⟩

/-- A list encloses what it enclosed when objects are added. -/
theorem Extends.acc_encloses (hx : a.Extends b) (hc : a.Closed) (h : Acc (fun inner outer => a.Encloses outer inner) list)
    (hl : a.HasList list) : Acc (fun inner outer => b.Encloses outer inner) list := by
  induction h with
  | intro list _ ih =>
    refine ⟨list, fun inner ⟨id, ⟨items, hitems, hid⟩, node, hn, hb⟩ => ?_⟩
    obtain ⟨items', hitems'⟩ := hl.list_ok
    obtain rfl : items = items' := Except.ok.inj (hitems.symm.trans (hx.list list items' hitems'))
    obtain ⟨node', hn'⟩ := (hc.hasNode_item hitems' hid).node_ok
    obtain rfl : node = node' := Except.ok.inj (hn.symm.trans (hx.node id node' hn'))
    have henc : a.Encloses list inner := ⟨id, ⟨items, hitems', hid⟩, node, hn', hb⟩
    exact ih inner henc (hc.hasList_encloses henc)

theorem acc_encloses_of_not_hasList (h : ¬a.HasList list) : Acc (fun inner outer => a.Encloses outer inner) list :=
  ⟨list, fun _ ⟨_, hh, _⟩ => absurd hh.hasList h⟩

/-- Where what belongs together contains itself as in a forest, the owners of the lists come later and later. -/
theorem ForestIn.acc_encloses {ρ : Region} (hf : a.ForestIn ρ) (hc : a.ClosedIn ρ) (hl : ρ.lists list) :
    Acc (fun inner outer => a.Encloses outer inner) list := by
  have hlater : ∀ k list, ρ.lists list → (∀ id, a.Holds list id → a.nodes.size ≤ id.index + k) →
      Acc (fun inner outer => a.Encloses outer inner) list := by
    intro k
    induction k with
    | zero =>
      refine fun list hl hle => ⟨list, fun inner ⟨id, hh, ho⟩ => absurd ho.hasNode (Nat.not_lt.2 (hle id hh))⟩
    | succ k ih =>
      refine fun list hl hle => ⟨list, fun inner ⟨id, hh, ho⟩ => ?_⟩
      have hid := hc.nodes_holds hl hh
      have hinner := hc.lists_owns hid ho
      refine ih inner hinner fun m hm => ?_
      have hlater := hf.later inner m id hinner hid hm ho
      have := hle id hh
      omega
  exact hlater a.nodes.size list hl fun id _ => Nat.le_add_left _ _

/-- Where containment is a forest, no list encloses itself. -/
theorem Forest.founded (hf : a.Forest) (hc : a.Closed) : a.Founded := by
  intro list
  by_cases hl : a.HasList list
  · exact ForestIn.acc_encloses hf hc hl
  · exact acc_encloses_of_not_hasList hl

/-- Every list of a forest has a text. -/
theorem Forest.render_ok (hf : a.Forest) (hc : a.Closed) (hl : a.HasList list) : ∃ text, a.render list = .ok text :=
  (Forest.founded hf hc).render_ok hc hl

/-- What is added may refer to itself alone and contain itself as in a forest. -/
theorem Founded.of_since (h : a.Founded) (hc : a.Closed) (hx : a.Extends b) (hs : b.ClosedIn (b.since a))
    (hf : b.ForestIn (b.since a)) : b.Founded := by
  intro list
  by_cases hl : a.HasList list
  · exact hx.acc_encloses hc (h list) hl
  · by_cases hb : b.HasList list
    · exact hf.acc_encloses hs ⟨hl, hb⟩
    · exact acc_encloses_of_not_hasList hb

end Arena

end GrammarLinker
