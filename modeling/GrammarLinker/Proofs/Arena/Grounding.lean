import GrammarLinker.Proofs.Arena.Closed

/-!
# What it means that a list is grounded

`Arena.Grounded` says it without a search: resolved includes lead from the list to one that is solid, which is to say empty or with
a rule in it. On a closed arena the search `Arena.isGrounded` decides it (`Arena.Closed.isGrounded_ok`).

The proof of the search has one invariant, `Arena.Explored`: a list that was entered is not solid, and whatever it leads to was
entered too or waits on the stack. When the stack is empty, the lists that were entered lead to nothing solid.
-/

namespace GrammarLinker.Arena

variable {a : Arena}

/-- The node of an id is a rule. -/
def IsRule (a : Arena) (id : NodeId) : Prop := ∃ node, a.node id = .ok node ∧ node.isRule = true

/-- The node of an id is an include. -/
def IsInclude (a : Arena) (id : NodeId) : Prop := ∃ i, a.inclusion id = .ok (some i)

/-- An include is a node that is no rule. -/
theorem isInclude_iff {id : NodeId} : a.IsInclude id ↔ ∃ node, a.node id = .ok node ∧ node.isRule = false := by
  have hbody : ∀ node : Node, (∃ i, node.inclusion? = some i) ↔ node.isRule = false := by
    rintro ⟨name, rule, parent, children | i⟩ <;> simp [Node.inclusion?, Node.isRule]
  constructor
  · rintro ⟨i, hi⟩
    obtain ⟨node, hn, hinc⟩ := inclusion_eq_ok.1 hi
    exact ⟨node, hn, (hbody node).1 ⟨i, hinc⟩⟩
  · rintro ⟨node, hn, hr⟩
    obtain ⟨i, hinc⟩ := (hbody node).2 hr
    exact ⟨i, inclusion_eq_ok.2 ⟨node, hn, hinc⟩⟩

/-- The node of an id is an include that is resolved to a list. -/
def StandsFor (a : Arena) (id : NodeId) (target : ListId) : Prop :=
  ∃ i, a.inclusion id = .ok (some i) ∧ i.target? = some target

/-- An include is no rule. -/
theorem StandsFor.not_isRule {id : NodeId} {target : ListId} (h : a.StandsFor id target) : ¬a.IsRule id := by
  rintro ⟨node, hn, hr⟩
  obtain ⟨i, hi, -⟩ := h
  rw [inclusion_of_node hn] at hi
  obtain ⟨name, rule, parent, body⟩ := node
  cases body with
  | rule children => cases hi
  | inclusion i => cases hr

/-- A list that is empty or holds a rule. -/
def Solid (a : Arena) (list : ListId) : Prop :=
  ∃ items, a.list list = .ok items ∧ (items = [] ∨ ∃ id ∈ items, a.IsRule id)

/-- A resolved include among the items of one list stands for the other. -/
def Leads (a : Arena) (list target : ListId) : Prop :=
  ∃ items, a.list list = .ok items ∧ ∃ id ∈ items, a.StandsFor id target

/-- Resolved includes lead from the list to a solid one. -/
inductive Grounded (a : Arena) : ListId → Prop where
  | solid {list : ListId} (h : a.Solid list) : Grounded a list
  | through {list target : ListId} (hl : a.Leads list target) (h : Grounded a target) : Grounded a list

/-- A list that one of a closed arena leads to is there. -/
theorem Closed.hasList_leads (hc : a.Closed) {list target : ListId} (h : a.Leads list target) : a.HasList target := by
  obtain ⟨items, -, id, -, i, hi, ht⟩ := h
  exact hc.hasList_target hi ht

/-! ## The items of a list -/

/-- The items of a list are searched for a rule, and without one the targets are those of its includes. -/
theorem targetsBeforeRule_ok (items : List NodeId) (h : ∀ id ∈ items, a.HasNode id) :
    (a.targetsBeforeRule items = .ok none ∧ ∃ id ∈ items, a.IsRule id) ∨
      ∃ targets, a.targetsBeforeRule items = .ok (some targets) ∧ (∀ id ∈ items, ¬a.IsRule id) ∧
        ∀ t, t ∈ targets ↔ ∃ id ∈ items, a.StandsFor id t := by
  induction items with
  | nil => exact Or.inr ⟨[], rfl, by simp, by simp⟩
  | cons id rest ih =>
    obtain ⟨node, hn⟩ := (h id List.mem_cons_self).node_ok
    cases hb : node.body with
    | rule children =>
      refine Or.inl ⟨?_, id, List.mem_cons_self, node, hn, by simp [Node.isRule, hb]⟩
      simp only [targetsBeforeRule, hn, bind, Except.bind, hb]
      rfl
    | inclusion i =>
      have hnot : ¬a.IsRule id := by
        rintro ⟨m, hm, hr⟩
        rw [hn, Except.ok.injEq] at hm
        subst hm
        simp [Node.isRule, hb] at hr
      have hstands : ∀ t, a.StandsFor id t ↔ i.target? = some t := by
        intro t
        simp [StandsFor, inclusion_of_node hn, Node.inclusion?, hb]
      rcases ih fun m hm => h m (List.mem_cons_of_mem _ hm) with ⟨hrest, m, hm, hr⟩ | ⟨targets, hrest, hno, hmem⟩
      · refine Or.inl ⟨?_, m, List.mem_cons_of_mem _ hm, hr⟩
        simp only [targetsBeforeRule, hn, bind, Except.bind, hb, hrest]
        rfl
      · refine Or.inr ⟨i.target?.toList ++ targets, ?_, ?_, ?_⟩
        · simp only [targetsBeforeRule, hn, bind, Except.bind, hb, hrest]
          rfl
        · intro m hm
          rcases List.mem_cons.1 hm with rfl | hm
          · exact hnot
          · exact hno m hm
        · intro t
          simp [hmem, hstands]

/-! ## The search -/

/-- A list that the search has entered, or is going to enter. -/
def Seen (fresh stack : List ListId) (list : ListId) : Prop := list ∉ fresh ∨ list ∈ stack

/-- What holds of the lists that the search has entered: they are not solid, and what they lead to is seen. -/
def Explored (a : Arena) (fresh stack : List ListId) : Prop :=
  ∀ list, a.HasList list → list ∉ fresh → ¬a.Solid list ∧ ∀ target, a.Leads list target → Seen fresh stack target

section

variable {fresh rest targets : List ListId} {current list : ListId}

/-- A list that is not entered again stays seen. -/
theorem Seen.skip (h : Seen fresh (current :: rest) list) (hcur : current ∉ fresh) : Seen fresh rest list := by
  rcases h with h | h
  · exact Or.inl h
  · rcases List.mem_cons.1 h with rfl | h
    · exact Or.inl hcur
    · exact Or.inr h

/-- A list that is entered stays seen. -/
theorem Seen.enter (h : Seen fresh (current :: rest) list) (hnd : fresh.Nodup) :
    Seen (fresh.erase current) (targets ++ rest) list := by
  rcases h with h | h
  · exact Or.inl fun hm => h (List.mem_of_mem_erase hm)
  · rcases List.mem_cons.1 h with rfl | h
    · exact Or.inl fun hm => (hnd.mem_erase_iff.1 hm).1 rfl
    · exact Or.inr (List.mem_append_right _ h)

/-- When nothing is left on the stack, no list that was entered is grounded. -/
theorem Explored.not_grounded (h : a.Explored fresh []) (hc : a.Closed) (hg : a.Grounded list) :
    a.HasList list → list ∉ fresh → False := by
  induction hg with
  | solid hs => exact fun hl hf => (h _ hl hf).1 hs
  | through hleads _ ih =>
    intro hl hf
    rcases (h _ hl hf).2 _ hleads with ht | ht
    · exact ih (hc.hasList_leads hleads) ht
    · exact absurd ht List.not_mem_nil

/-- What was explored stays so when a list is not entered again. -/
theorem Explored.skip (h : a.Explored fresh (current :: rest)) (hcur : current ∉ fresh) : a.Explored fresh rest :=
  fun l hl hf => ⟨(h l hl hf).1, fun t ht => ((h l hl hf).2 t ht).skip hcur⟩

/-- Entering a list that is not solid puts what it leads to on the stack. -/
theorem Explored.enter (h : a.Explored fresh (current :: rest)) (hnd : fresh.Nodup) (hs : ¬a.Solid current)
    (ht : ∀ t, a.Leads current t → t ∈ targets) : a.Explored (fresh.erase current) (targets ++ rest) := by
  intro l hl hf
  by_cases hlc : l = current
  · subst hlc
    exact ⟨hs, fun t hlead => Or.inr (List.mem_append_left _ (ht t hlead))⟩
  · obtain ⟨hns, hto⟩ := h l hl fun hm => hf ((List.mem_erase_of_ne hlc).2 hm)
    exact ⟨hns, fun t hlead => (hto t hlead).enter hnd⟩

end

/-- What an answer of the search says of the lists that it has seen. -/
def Answers (a : Arena) (fresh stack : List ListId) (answer : Bool) : Prop :=
  (answer = true → ∃ l ∈ stack, a.Grounded l) ∧
    (answer = false → a.Explored fresh stack → ∀ l, a.HasList l → Seen fresh stack l → ¬a.Grounded l)

/-- A list that is not solid is entered by putting what it leads to on the stack. -/
theorem Answers.enter {fresh rest targets : List ListId} {current : ListId} {answer : Bool}
    (h : a.Answers (fresh.erase current) (targets ++ rest) answer) (hnd : fresh.Nodup) (hs : ¬a.Solid current)
    (ht : ∀ t, a.Leads current t ↔ t ∈ targets) : a.Answers fresh (current :: rest) answer := by
  refine ⟨?_, ?_⟩
  · intro hyes
    obtain ⟨l, hl, hg⟩ := h.1 hyes
    rcases List.mem_append.1 hl with hl | hl
    · exact ⟨current, List.mem_cons_self, .through ((ht l).2 hl) hg⟩
    · exact ⟨l, List.mem_cons_of_mem _ hl, hg⟩
  · intro hno hex l hl hseen
    exact h.2 hno (hex.enter hnd hs fun t hlead => (ht t).1 hlead) l hl (hseen.enter hnd)

/-- The answer is that of the other lists if a list was entered before. -/
theorem Answers.skip {fresh rest : List ListId} {current : ListId} {answer : Bool} (h : a.Answers fresh rest answer)
    (hcur : current ∉ fresh) : a.Answers fresh (current :: rest) answer := by
  refine ⟨?_, fun hno hex l hl hseen => h.2 hno (hex.skip hcur) l hl (hseen.skip hcur)⟩
  intro hyes
  obtain ⟨l, hl, hg⟩ := h.1 hyes
  exact ⟨l, List.mem_cons_of_mem _ hl, hg⟩

/-- At a solid list the answer is that there is one. -/
theorem Answers.solid {fresh rest : List ListId} {current : ListId} (hs : a.Solid current) :
    a.Answers fresh (current :: rest) true :=
  ⟨fun _ => ⟨current, List.mem_cons_self, .solid hs⟩, nofun⟩

/-- On a closed arena the search answers. -/
theorem Closed.groundedFrom_ok (hc : a.Closed) (fresh stack : List ListId) : fresh.Nodup → (∀ l ∈ stack, a.HasList l) →
    ∃ answer, a.groundedFrom fresh stack = .ok answer ∧ a.Answers fresh stack answer := by
  induction fresh, stack using groundedFrom.induct with
  | case1 fresh =>
    intro _ _
    refine ⟨false, by rw [groundedFrom], nofun, ?_⟩
    intro _ hex l hl hseen hg
    rcases hseen with hseen | hseen
    · exact hex.not_grounded hc hg hl hseen
    · exact absurd hseen List.not_mem_nil
  | case2 fresh current rest ihEnter ihSkip =>
    intro hnd hstack
    have hrest : ∀ l ∈ rest, a.HasList l := fun l hl => hstack l (List.mem_cons_of_mem _ hl)
    obtain ⟨items, hitems⟩ := (hstack current List.mem_cons_self).list_ok
    unfold groundedFrom
    rw [hitems]
    simp only [bind, Except.bind]
    by_cases hcur : current ∈ fresh
    · rw [dif_pos hcur]
      by_cases hempty : items = []
      · exact ⟨true, by rw [hempty]; rfl, .solid ⟨items, hitems, Or.inl hempty⟩⟩
      · rw [if_neg (by simpa using hempty)]
        rcases targetsBeforeRule_ok items fun id hid => hc.hasNode_item hitems hid with
          ⟨hnone, id, hid, hr⟩ | ⟨targets, hsome, hno, hmem⟩
        · exact ⟨true, by rw [hnone]; rfl, .solid ⟨items, hitems, Or.inr ⟨id, hid, hr⟩⟩⟩
        · have hsolid : ¬a.Solid current := by
            rintro ⟨xs, hxs, hx⟩
            rw [hitems, Except.ok.injEq] at hxs
            subst hxs
            rcases hx with hx | ⟨id, hid, hr⟩
            · exact hempty hx
            · exact hno id hid hr
          have hleads : ∀ t, a.Leads current t ↔ t ∈ targets.reverse := by
            intro t
            rw [List.mem_reverse, hmem]
            simp [Leads, hitems]
          have hstack' : ∀ l ∈ targets.reverse ++ rest, a.HasList l := by
            intro l hl
            rcases List.mem_append.1 hl with hl | hl
            · exact hc.hasList_leads ((hleads l).2 hl)
            · exact hrest l hl
          obtain ⟨answer, hans, h⟩ := ihEnter hcur targets (hnd.erase _) hstack'
          exact ⟨answer, by rw [hsome]; exact hans, h.enter hnd hsolid hleads⟩
    · rw [dif_neg hcur]
      obtain ⟨answer, hans, h⟩ := ihSkip hnd hrest
      exact ⟨answer, hans, h.skip hcur⟩

/-- The lists of an arena are those that are there. -/
theorem mem_listIds {list : ListId} : list ∈ a.listIds ↔ a.HasList list := by
  constructor
  · intro h
    obtain ⟨i, hi, rfl⟩ := List.mem_map.1 h
    exact List.mem_range.1 hi
  · intro h
    exact List.mem_map.2 ⟨list.index, List.mem_range.2 h, rfl⟩

/-- No list is among them twice. -/
theorem nodup_listIds (a : Arena) : a.listIds.Nodup :=
  List.pairwise_map.2 (List.nodup_range.imp fun hne heq => hne (congrArg ListId.index heq))

/-- On a closed arena the search answers for every list that is there, and it answers whether the list is grounded. -/
theorem Closed.isGrounded_ok (hc : a.Closed) {list : ListId} (h : a.HasList list) :
    ∃ answer, a.isGrounded list = .ok answer ∧ (answer = true ↔ a.Grounded list) := by
  obtain ⟨answer, hans, htrue, hfalse⟩ :=
    hc.groundedFrom_ok a.listIds [list] (nodup_listIds a) fun l hl => List.mem_singleton.1 hl ▸ h
  refine ⟨answer, hans, ?_, ?_⟩
  · intro hyes
    obtain ⟨l, hl, hg⟩ := htrue hyes
    exact List.mem_singleton.1 hl ▸ hg
  · intro hg
    have hstart : a.Explored a.listIds [list] := fun l hl hf => absurd (mem_listIds.2 hl) hf
    cases hans' : answer with
    | true => rfl
    | false => exact absurd hg (hfalse hans' hstart list h (Or.inr List.mem_cons_self))

end GrammarLinker.Arena
