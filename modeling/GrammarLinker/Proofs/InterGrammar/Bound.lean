import GrammarLinker.Proofs.InterGrammar.OneShot

/-!
# How many passes a run makes

The passes of a run are bounded by what they resolve (`InterGrammar.resolve_economical`). Every pass but the last one pays for itself with
an include that it resolves. When the run succeeds, the last one is paid for as well, unless it is the only one: it resolves an include
itself, or it finds nothing left to do after a pass that reported an include. Then the pass before it resolved two
(`InterGrammar.Answerable.two_le`). It reported an include as waiting and then attached it at another place where the include is
registered, and it could do so only because it had attached another one in between.
-/

namespace GrammarLinker

open Arena

/-! ## Counting includes -/

namespace Arena

variable {a b : Arena}

/-- The ids of all nodes. -/
def nodeIds (a : Arena) : List NodeId := (List.range a.nodes.size).map NodeId.mk

theorem mem_nodeIds {id : NodeId} : id ∈ a.nodeIds ↔ a.HasNode id := by
  simp only [nodeIds, List.mem_map, List.mem_range, HasNode]
  constructor
  · rintro ⟨i, hi, rfl⟩
    exact hi
  · exact fun h => ⟨id.index, h, rfl⟩

theorem nodup_nodeIds (a : Arena) : a.nodeIds.Nodup :=
  List.nodup_range.map fun _ _ h => congrArg NodeId.index h

/-- The number of includes that wait in one state of an arena and not in another. -/
def resolvedCount (a b : Arena) : Nat :=
  a.nodeIds.countP fun id => (a.pending? id).isSome && (b.pending? id).isNone

end Arena

namespace InterGrammar

variable {gs : List Grammar} {base : Option String} {a₀ a b : Arena} {site other : Grammar × NodeId} {tally : Tally}
  {tallies : List Tally} {outcome : Except LinkError Unit}

/-- When includes were resolved to what they denote, those that wait no more for another grammar are those that wait no more. -/
theorem awaited_iff_of_designates (hr : ResolvesBy (Designates gs base a) a b) {id : NodeId} :
    (a.awaits Reference.isCrossGrammar id = true ∧ b.awaits Reference.isCrossGrammar id = false) ↔
      (a.pending? id).isSome = true ∧ (b.pending? id).isNone = true := by
  rw [Option.isSome_iff_exists, Option.isNone_iff_eq_none]
  constructor
  · rintro ⟨hw, hno⟩
    obtain ⟨reference, hp, hk⟩ := awaits_eq_true.1 hw
    refine ⟨⟨reference, hp⟩, Option.eq_none_iff_forall_ne_some.2 fun later hb => ?_⟩
    obtain rfl : reference = later := Option.some.inj (hp.symm.trans (hr.node_of_pending hb).2)
    cases hno.symm.trans (awaits_eq_true.2 ⟨reference, hb, hk⟩)
  · rintro ⟨⟨reference, hp⟩, hb⟩
    refine ⟨?_, by simp [awaits, hb]⟩
    rcases hr.pending_or hp with hpb | ⟨target, g, -, -, other, hother, hk, -⟩
    · cases hb.symm.trans hpb
    · exact awaits_eq_true.2 ⟨other, hother, hk⟩

/-- What a course resolves are the includes that wait before it and not after it. -/
theorem Course.resolved_eq (h : Answerable gs a) (hc : Course gs base a tallies outcome b) :
    (summary tallies).resolved = a.resolvedCount b := by
  have hl := h.lawful base
  have hr := hc.resolvesBy hl (.refl _ a)
  have hcount := hc.count_ids hl (.refl _ a) (nodup_nodeIds a) fun site hsite =>
    mem_nodeIds.2 ((h.held site.1 (mem_sites.1 hsite).1).includes site.2 (mem_sites.1 hsite).2)
  have hsplit := List.countP_eq_countP_filter_add a.nodeIds (a.awaits Reference.isCrossGrammar) (b.awaits Reference.isCrossGrammar)
  have hstill : (a.nodeIds.filter (b.awaits Reference.isCrossGrammar)).countP (a.awaits Reference.isCrossGrammar) =
      a.nodeIds.countP (b.awaits Reference.isCrossGrammar) := by
    rw [List.countP_filter]
    refine List.countP_congr fun id _ => ?_
    rw [Bool.and_eq_true_iff]
    exact ⟨And.right, fun hw => ⟨hr.awaits hw, hw⟩⟩
  have hdone : (a.nodeIds.filter fun id => !b.awaits Reference.isCrossGrammar id).countP (a.awaits Reference.isCrossGrammar) =
      a.resolvedCount b := by
    rw [List.countP_filter, resolvedCount]
    refine List.countP_congr fun id _ => ?_
    rw [Bool.and_eq_true_iff, Bool.and_eq_true_iff, Bool.not_eq_true']
    exact awaited_iff_of_designates hr
  omega

/-! ## One include of several grammars -/

/-- Unless it is the own root, a reference denotes the same for every grammar. -/
theorem target_eq_of_not_isOwnRoot (g k : Grammar) {reference : Reference} (ho : isOwnRoot base reference = false) :
    target gs base a g reference = target gs base a k reference := by
  cases reference with
  | base =>
    cases base with
    | none => cases ho
    | some scope => rfl
  | _ => rfl

/-- So does an include that two grammars have registered. -/
theorem designation_eq_of_not_ownRootAt (hid : other.2 = site.2) (ho : ¬OwnRootAt base a site.2) :
    designation gs base a other = designation gs base a site := by
  unfold designation
  rw [hid]
  cases hp : a.pending? site.2 with
  | none => rfl
  | some reference =>
    have hno : isOwnRoot base reference = false := Bool.eq_false_iff.2 fun hown => ho ⟨reference, hp, hown⟩
    simp only [target_eq_of_not_isOwnRoot other.1 site.1 hno]

/-- An include of the own root denotes it. -/
theorem designation_of_ownRootAt (ho : OwnRootAt base a site.2) : designation gs base a site = some site.1.root := by
  obtain ⟨reference, hp, hown⟩ := ho
  obtain ⟨hbase, href⟩ := Bool.and_eq_true_iff.1 hown
  obtain rfl : base = none := Option.isNone_iff_eq_none.1 hbase
  obtain rfl : reference = .base := eq_of_beq href
  exact designation_eq_some.2 ⟨.base, hp, rfl, rfl⟩

/-- An include that is attached for one grammar is attached for every grammar that has registered it. -/
theorem Answerable.attached_of_same (h : Answerable gs a) (hsite : site ∈ sites gs) (hother : other ∈ sites gs)
    (hid : other.2 = site.2) (hv : ∃ target, verdict gs base a other = .ok (.attached target)) :
    ∃ target, verdict gs base a site = .ok (.attached target) := by
  obtain ⟨target, hv⟩ := hv
  obtain ⟨v, hv', hj⟩ := verdict_ok h.closed h.chains h.held base hsite
  obtain ⟨w, hw', hk⟩ := verdict_ok h.closed h.chains h.held base hother
  obtain rfl : w = .attached target := Except.ok.inj (hw'.symm.trans hv)
  cases hk with
  | attached hw hd hg =>
    rw [hid] at hw hg
    cases hj with
    | skipped hno => rw [hno] at hw; cases hw
    | @attached list => exact ⟨list, hv'⟩
    | waiting _ hd' ho hno =>
      rw [designation_eq_of_not_ownRootAt hid ho, hd', Option.some.injEq] at hd
      exact absurd (hd ▸ hg.resolve_left ho) hno
    | missing _ hd' =>
      have ho : ¬OwnRootAt base a site.2 := fun ho => by
        rw [designation_of_ownRootAt ho] at hd'
        cases hd'
      rw [designation_eq_of_not_ownRootAt hid ho, hd'] at hd
      cases hd

/-- A pass that reports an include, and after which none waits, resolves two. -/
theorem Answerable.two_le (h : Answerable gs a₀) (ha : ResolvesBy (Designates gs base a₀) a₀ a)
    (hp : Passes gs base (Designates gs base a₀) a tally b) (hleft : tally.waiting ≠ [] ∨ tally.missing ≠ [])
    (hnone : ∀ site ∈ sites gs, b.awaits Reference.isCrossGrammar site.2 = false) : 2 ≤ tally.resolved :=
  hp.two_le hleft hnone fun _ hm _ hsite _ hother hid hv =>
    (h.of_resolvesBy (ha.trans hm)).attached_of_same hsite hother hid hv

/-! ## The bound -/

/-- What the passes of a run resolve pays for them. -/
structure Economical (tallies : List Tally) (outcome : Except LinkError Unit) : Prop where
  /-- Every pass but the last one resolves an include. -/
  progress : ∀ tally ∈ tallies.dropLast, 0 < tally.resolved
  settled : outcome = .ok () → (summary tallies).passes ≤ max 1 (summary tallies).resolved
  stuck : ∀ e, outcome = .error e → (summary tallies).passes ≤ (summary tallies).resolved + 1

/-- A course has a pass. -/
theorem Course.ne_nil (hc : Course gs base a tallies outcome b) : tallies ≠ [] := by
  cases hc <;> exact List.cons_ne_nil _ _

/-- A summary counts the first pass and sums up the others. -/
theorem summary_cons (tally : Tally) (tallies : List Tally) :
    summary (tally :: tallies) =
      { passes := (summary tallies).passes + 1, resolved := tally.resolved + (summary tallies).resolved } := rfl

/-- A course that resolves nothing is one pass and changes nothing. -/
theorem Course.idle (hc : Course gs base a tallies outcome b) {P : NodeId → ListId → Prop} (hl : Lawful gs base P a₀)
    (ha : ResolvesBy P a₀ a) (h0 : (summary tallies).resolved = 0) : b = a ∧ (summary tallies).passes = 1 := by
  cases hc with
  | settled hp => exact ⟨((passes_of_ok hl ha hp).idle h0).1, rfl⟩
  | stuck hp _ h0 => exact ⟨((passes_of_ok hl ha hp).idle h0).1, rfl⟩
  | again _ _ hpos =>
    rw [summary_cons] at h0
    exact absurd (Nat.eq_zero_of_add_eq_zero_right h0) (Nat.ne_of_gt hpos)

/-- What the passes of a course resolve pays for them. -/
theorem Course.economical (h : Answerable gs a₀) (ha : ResolvesBy (Designates gs base a₀) a₀ a)
    (hc : Course gs base a tallies outcome b) : Economical tallies outcome := by
  have hl := h.lawful base
  induction hc with
  | settled => exact ⟨nofun, fun _ => Nat.le_max_left _ _, nofun⟩
  | stuck => exact ⟨nofun, nofun, fun _ _ => Nat.le_add_left _ _⟩
  | @again a m b tally tallies outcome hp hleft hpos hc ih =>
    have hsteps := passes_of_ok hl ha hp
    have hm := ha.trans hsteps.resolvesBy
    obtain ⟨hprogress, hsettled, hstuck⟩ := ih hm
    refine ⟨?_, ?_, ?_⟩
    · rw [List.dropLast_cons_of_ne_nil hc.ne_nil]
      exact List.forall_mem_cons.2 ⟨hpos, hprogress⟩
    · rintro rfl
      rw [summary_cons]
      rcases Nat.eq_zero_or_pos (summary tallies).resolved with h0 | hmore
      · -- the last pass found the set settled, so that the pass before it resolved two
        obtain ⟨rfl, hone⟩ := hc.idle hl hm h0
        have htwo := h.two_le ha hsteps hleft (hc.awaits_eq_false hl hm)
        simp only
        omega
      · have hle := hsettled rfl
        simp only
        omega
    · intro e he
      have hle := hstuck e he
      rw [summary_cons]
      simp only
      omega

/-- Where the ids that are stored are in range and lookups come to an end, so does the run over grammars that are there, and what its
passes resolve pays for them. On the way every search for what is grounded comes to an end. -/
theorem resolve_economical (hc : a.Closed) (hf : a.FiniteChains) (hgs : ∀ g ∈ gs, g.HeldBy a) (base : Option String) :
    ∃ tallies outcome b, Course gs base a tallies outcome b ∧
      (resolve gs base).start a = .ok (outcome.map fun _ => summary tallies, b) ∧
      (summary tallies).resolved = a.resolvedCount b ∧ Economical tallies outcome ∧
      ∀ m, ResolvesBy (Designates gs base a) a m → ∀ list, a.HasList list → ∃ answer, m.isGrounded list = .ok answer := by
  have h : Answerable gs a := ⟨hc, hf, hgs⟩
  have hl := h.lawful base
  obtain ⟨tallies, outcome, b, hcourse⟩ := exists_course hl (.refl _ a)
  refine ⟨tallies, outcome, b, hcourse, hcourse.start_resolve hl (.refl _ a), hcourse.resolved_eq h,
    hcourse.economical h (.refl _ a), fun m hm list hlist => ?_⟩
  obtain ⟨answer, hanswer, -⟩ := (h.of_resolvesBy hm).closed.isGrounded_ok (hm.hasList.2 hlist)
  exact ⟨answer, hanswer⟩

/-- In the circle two includes are resolved, and three passes are enough to find that the rest is not. -/
theorem resolve_economical_circle : circle.Closed ∧ circle.FiniteChains ∧ (∀ g ∈ circleSet, g.HeldBy circle) ∧
    ∃ tallies b, Course circleSet none circle tallies (.error (.unresolvedReference "b" "c")) b ∧
      (summary tallies).resolved = 2 ∧ (summary tallies).passes ≤ 3 := by
  obtain ⟨hc, hf, hgs, -⟩ := ready_circle
  obtain ⟨tallies, outcome, b, hcourse, hrun, hcount, heconomical, -⟩ := resolve_economical hc hf hgs none
  have hread : ((resolve circleSet none).start circle).map (fun r => (r.1, circle.resolvedCount r.2)) =
      .ok (.error (.unresolvedReference "b" "c"), 2) := by cbv
  rw [hrun] at hread
  obtain ⟨hanswer, hresolved⟩ := Prod.mk.inj (Except.ok.inj hread)
  have htwo : (summary tallies).resolved = 2 := hcount.trans hresolved
  cases outcome with
  | ok => cases hanswer
  | error e =>
    obtain rfl := Except.error.inj hanswer
    have hle := heconomical.stuck _ rfl
    exact ⟨hc, hf, hgs, tallies, b, hcourse, htwo, by omega⟩

end InterGrammar

end GrammarLinker
