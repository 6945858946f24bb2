import GrammarLinker.Proofs.Arena.Inlining

/-!
# The lists that a walk enters

A walk is traced when the lists that it enters are written down beside what it yields (`Arena.trace`); apart from these the trace is the
walk (`Arena.trace_walk`). A walk through a list enters the lists to which resolved includes lead from it
(`Arena.Inlined.mem_trace`).

The search for a list that is empty or holds a rule goes another way: it enters the list that was added last, marks a list when it comes
to it, and breaks off in the middle of one. Still the two agree (`Arena.isGrounded_agrees`): a list is grounded exactly when the walk
through it yields something or enters a list that is empty.
-/

namespace GrammarLinker

/-- A walk, with the lists that it enters, in order. -/
structure Trace where
  walk : Walk
  entered : List ListId
  deriving DecidableEq, Inhabited

namespace Trace

/-- The trace of a walk that enters nothing more. -/
def ofWalk (w : Walk) : Trace := ⟨w, []⟩

/-- The trace that yields a rule first. -/
def yielding (id : NodeId) (t : Trace) : Trace := { t with walk := t.walk.yielding id }

/-- The trace that enters a list first. -/
def entering (list : ListId) (t : Trace) : Trace := { t with entered := list :: t.entered }

end Trace

namespace Arena

variable {a : Arena} {fresh entered entered' : List ListId} {items rest out : List NodeId} {id : NodeId} {list target : ListId}

/-! ## Traces -/

/-- The walk through items, traced. -/
def traceFrom (a : Arena) (fresh : List ListId) : (items : List NodeId) → Trace
  | [] => .ofWalk .finished
  | id :: rest =>
    match a.node id with
    | .error fault => .ofWalk (.broken fault)
    | .ok node =>
      match node.body with
      | .rule _ => (a.traceFrom fresh rest).yielding id
      | .inclusion i =>
        match i.target? with
        | none => a.traceFrom fresh rest
        | some target =>
          match a.list target with
          | .error fault => .ofWalk (.broken fault)
          | .ok items =>
            if _ht : target ∈ fresh then (a.traceFrom (fresh.erase target) (items ++ rest)).entering target
            else a.traceFrom fresh rest
termination_by items => (fresh.length, items.length)
decreasing_by
  · exact Prod.Lex.right _ (by simp)
  · exact Prod.Lex.right _ (by simp)
  · have := List.length_pos_of_mem _ht
    rw [List.length_erase_of_mem _ht]
    exact Prod.Lex.left _ _ (by omega)
  · exact Prod.Lex.right _ (by simp)

/-- The walk through a list, which it enters first, traced. -/
def trace (a : Arena) (list : ListId) : Except Fault Trace :=
  (a.list list).map fun items => (a.traceFrom (a.listIds.erase list) items).entering list

/-- What is traced is the walk. -/
theorem traceFrom_walk (fresh : List ListId) (items : List NodeId) : (a.traceFrom fresh items).walk = a.walkFrom fresh items := by
  induction fresh, items using Arena.walkFrom.induct a with
  | case1 fresh => rw [traceFrom, walkFrom]; rfl
  | case2 fresh id rest fault hn => rw [traceFrom, walkFrom]; simp only [hn]; rfl
  | case3 fresh id rest node hn children hb ih =>
    rw [traceFrom, walkFrom]
    simp only [hn, hb, ← ih]
    rfl
  | case4 fresh id rest node hn i hb ht ih =>
    rw [traceFrom, walkFrom]
    simp only [hn, hb, ht, ih]
  | case5 fresh id rest node hn i hb target ht fault hl =>
    rw [traceFrom, walkFrom]
    simp only [hn, hb, ht, hl]
    rfl
  | case6 fresh id rest node hn i hb target ht items hl hmem ih =>
    rw [traceFrom, walkFrom]
    simp only [hn, hb, ht, hl, dif_pos hmem, ← ih]
    rfl
  | case7 fresh id rest node hn i hb target ht items hl hmem ih =>
    rw [traceFrom, walkFrom]
    simp only [hn, hb, ht, hl, dif_neg hmem, ih]

/-- Without the lists that are entered, a trace is the walk. -/
theorem trace_walk (a : Arena) (list : ListId) : (a.trace list).map Trace.walk = a.walk list := by
  unfold trace walk
  cases a.list list with
  | error fault => rfl
  | ok items => exact congrArg Except.ok (traceFrom_walk _ items)

/-! ## What is entered -/

theorem traceFrom_entered_rule {node : Node} {children : ListId} (hn : a.node id = .ok node) (hb : node.body = .rule children) :
    (a.traceFrom fresh (id :: rest)).entered = (a.traceFrom fresh rest).entered := by
  rw [traceFrom]
  simp only [hn, hb]
  rfl

theorem traceFrom_pending {node : Node} {i : Include} (hn : a.node id = .ok node) (hb : node.body = .inclusion i)
    (ht : i.target? = none) : a.traceFrom fresh (id :: rest) = a.traceFrom fresh rest := by
  rw [traceFrom]
  simp only [hn, hb, ht]

theorem traceFrom_target {node : Node} {i : Include} (hn : a.node id = .ok node) (hb : node.body = .inclusion i)
    (ht : i.target? = some target) (hl : a.list target = .ok items) : a.traceFrom fresh (id :: rest) =
      if target ∈ fresh then (a.traceFrom (fresh.erase target) (items ++ rest)).entering target else a.traceFrom fresh rest := by
  rw [traceFrom]
  simp only [hn, hb, ht, hl]
  split <;> rfl

/-- The walk enters what is entered when the items at the front are inlined, and then what it enters as it goes on. -/
theorem Inlines.mem_traceFrom (hc : a.Closed) (h : a.Inlines entered items out entered') (rest : List NodeId) :
    list ∈ (a.traceFrom (a.unentered entered) (items ++ rest)).entered ↔
      (list ∈ entered' ∧ list ∉ entered) ∨ list ∈ (a.traceFrom (a.unentered entered') rest).entered := by
  induction h generalizing rest with
  | done entered => simp
  | rule h _ ih =>
    obtain ⟨node, children, hn, hb⟩ := h.body
    rw [List.cons_append, traceFrom_entered_rule hn hb, ih rest]
  | pending h _ ih =>
    obtain ⟨node, i, hn, hb, ht⟩ := body_of_pending h
    rw [List.cons_append, traceFrom_pending hn hb ht, ih rest]
  | again h hold _ ih =>
    obtain ⟨node, i, hn, hb, ht⟩ := h.body
    obtain ⟨items, hl⟩ := (hc.lists_standsFor h.hasNode h).list_ok
    rw [List.cons_append, traceFrom_target hn hb ht hl, if_neg fun hmem => (mem_unentered.1 hmem).2 hold, ih rest]
  | @enter entered between entered' id items others inside out target h hnew hl hin hr ihin ih =>
    obtain ⟨node, i, hn, hb, ht⟩ := h.body
    rw [List.cons_append, traceFrom_target hn hb ht hl, if_pos (mem_unentered.2 ⟨hasList_of_list hl, hnew⟩), ← unentered_cons,
      Trace.entering, List.mem_cons, ihin (others ++ rest), ih rest, List.mem_cons]
    -- the target is new, and what was entered before it or inside it stays entered
    have hsub := hr.subset
    have htarget : target ∈ between := hin.subset List.mem_cons_self
    have hold : list ∈ entered → list ∈ between := fun hm => hin.subset (List.mem_cons_of_mem _ hm)
    by_cases heq : list = target
    · subst heq
      simp [hsub htarget, hnew]
    · have hbetween : list ∈ between → list ∈ entered' := fun hm => hsub hm
      tauto

/-- The walk through a list enters exactly the lists to which resolved includes lead from it. -/
theorem Inlined.mem_trace (hc : a.Closed) (h : a.Inlined list out) :
    ∃ entered, a.trace list = .ok ⟨⟨out, none⟩, entered⟩ ∧ ∀ l, l ∈ entered ↔ Relation.ReflTransGen a.Leads list l := by
  obtain ⟨items, entered, hl, hin⟩ := h
  have htrace : a.trace list = .ok ((a.traceFrom (a.unentered [list]) items).entering list) := by rw [trace, hl, listIds_erase]; rfl
  have hwalk : (a.traceFrom (a.unentered [list]) items).walk = ⟨out, none⟩ := by
    have hrun := trace_walk a list
    rw [htrace, Inlined.walk hc ⟨items, entered, hl, hin⟩] at hrun
    exact Except.ok.inj hrun
  refine ⟨_, htrace.trans (congrArg (fun w => Except.ok (Trace.mk w _)) hwalk), fun l => ?_⟩
  have hmem : l ∈ (a.traceFrom (a.unentered [list]) (items ++ [])).entered ↔ _ := hin.mem_traceFrom hc []
  rw [List.append_nil, traceFrom, Trace.ofWalk, List.mem_singleton] at hmem
  rw [List.mem_cons, hmem, ← hin.mem_entered hl]
  by_cases heq : l = list
  · subst heq
    simp [hin.subset List.mem_cons_self]
  · simp [heq]

/-! ## Grounded lists -/

/-- A list is grounded when resolved includes lead from it to one that is empty or holds a rule. -/
theorem grounded_iff_reaches : a.Grounded list ↔ ∃ l, Relation.ReflTransGen a.Leads list l ∧ a.Solid l := by
  constructor
  · intro h
    induction h with
    | solid h => exact ⟨_, .refl, h⟩
    | through hl _ ih =>
      obtain ⟨l, hreach, hsolid⟩ := ih
      exact ⟨l, .head hl hreach, hsolid⟩
  · rintro ⟨l, hreach, hsolid⟩
    induction hreach using Relation.ReflTransGen.head_induction_on with
    | refl => exact .solid hsolid
    | head hl _ ih => exact .through hl ih

/-- In a closed arena the search for a solid list comes to an end and answers whether one is reached by resolved includes, and this is
so exactly when the walk through the list yields something or enters a list that is empty. -/
theorem isGrounded_agrees (hc : a.Closed) (hl : a.HasList list) :
    ∃ answer ids entered, a.isGrounded list = .ok answer ∧ a.concretePatterns list = .ok ids ∧
      a.trace list = .ok ⟨⟨ids, none⟩, entered⟩ ∧
      (answer = true ↔ ∃ l, Relation.ReflTransGen a.Leads list l ∧
        ∃ items, a.list l = .ok items ∧ (items = [] ∨ ∃ id ∈ items, a.IsRule id)) ∧
      (answer = true ↔ ids ≠ [] ∨ ∃ l ∈ entered, a.list l = .ok []) := by
  obtain ⟨answer, hanswer, hgrounded⟩ := hc.isGrounded_ok hl
  obtain ⟨ids, hinlined⟩ := hc.exists_inlined hl
  obtain ⟨entered, htrace, hentered⟩ := hinlined.mem_trace hc
  have hreaches := hgrounded.trans grounded_iff_reaches
  refine ⟨answer, ids, entered, hanswer, hinlined.concretePatterns hc, htrace, hreaches, hreaches.trans ⟨?_, ?_⟩⟩
  · rintro ⟨l, hreach, items, hitems, rfl | ⟨id, hid, hrule⟩⟩
    · exact .inr ⟨l, (hentered l).2 hreach, hitems⟩
    · exact .inl (List.ne_nil_of_mem (hinlined.mem_iff.2 ⟨hrule, l, hreach, items, hitems, hid⟩))
  · rintro (hne | ⟨l, hmem, hempty⟩)
    · obtain ⟨id, hid⟩ := List.exists_mem_of_ne_nil ids hne
      obtain ⟨hrule, l, hreach, items, hitems, hheld⟩ := hinlined.mem_iff.1 hid
      exact ⟨l, hreach, items, hitems, .inr ⟨id, hheld, hrule⟩⟩
    · exact ⟨l, (hentered l).1 hmem, [], hempty, .inl rfl⟩

/-- Two lists that include each other, and a way from the second one to a list that is empty. -/
def hollow : Arena where
  nodes := #[{ body := .inclusion ⟨"#b", none, .resolved ⟨1⟩⟩ }, { body := .inclusion ⟨"#a", none, .resolved ⟨0⟩⟩ },
    { body := .inclusion ⟨"#c", none, .resolved ⟨2⟩⟩ }, { body := .inclusion ⟨"d", none, .pending (.foreign "d")⟩ }]
  lists := #[[⟨0⟩], [⟨2⟩, ⟨1⟩], [], [⟨3⟩]]

/-- The ids that are stored in it are in range. -/
theorem closed_hollow : hollow.Closed := by
  simp [closed_iff, hollow, Node.RefersInto, NodeBody.RefersInto, Repository.RefersInto, region, HasNode, HasList, Include.target?,
    IncludeState.target?]

/-- The walk through the first of these lists yields nothing, but it enters the empty list. -/
theorem isGrounded_agrees_hollow : hollow.Closed ∧ hollow.HasList ⟨0⟩ ∧ hollow.isGrounded ⟨0⟩ = .ok true ∧
    hollow.trace ⟨0⟩ = .ok ⟨⟨[], none⟩, [⟨0⟩, ⟨1⟩, ⟨2⟩]⟩ ∧
    (∃ l, Relation.ReflTransGen hollow.Leads ⟨0⟩ l ∧
      ∃ items, hollow.list l = .ok items ∧ (items = [] ∨ ∃ id ∈ items, hollow.IsRule id)) ∧
    ∃ l ∈ [ListId.mk 0, ⟨1⟩, ⟨2⟩], hollow.list l = .ok [] := by
  have hl : hollow.HasList ⟨0⟩ := by decide
  obtain ⟨answer, ids, entered, hanswer, -, htrace, hreaches, hwalk⟩ := isGrounded_agrees closed_hollow hl
  have hgrounded : hollow.isGrounded ⟨0⟩ = .ok true := by cbv
  have htraced : hollow.trace ⟨0⟩ = .ok ⟨⟨[], none⟩, [⟨0⟩, ⟨1⟩, ⟨2⟩]⟩ := by cbv
  obtain rfl : answer = true := Except.ok.inj (hanswer.symm.trans hgrounded)
  obtain ⟨hw, rfl⟩ := Trace.mk.inj (Except.ok.inj (htrace.symm.trans htraced))
  obtain ⟨rfl, -⟩ := Walk.mk.inj hw
  exact ⟨closed_hollow, hl, hgrounded, htraced, hreaches.1 rfl, (hwalk.1 rfl).resolve_left fun h => h rfl⟩

end Arena

end GrammarLinker
