import Mathlib.Data.List.Forall2
import GrammarLinker.Proofs.Session

/-!
# What a run between grammars reports

The answer of a run says how it left the set (`InterGrammar.Reports`). It is a report exactly when no registered include waits for
another grammar any more. Else it blames the first include that refers to nothing, and where there is none, the includes that still
wait.

An error is worded from what the last pass found, which resolved nothing. So what it found is what the state in which the run ends
says (`Resolution.Passes.idle`). An include that refers to nothing did so from the start and is never resolved, so the first one of
the last pass is the first one of the start (`InterGrammar.Ends.reports`).
-/

namespace GrammarLinker

open Arena Resolution

/-! ## Lists -/

/-- Erasing the repetitions of a sorted list leaves the same items, each once. -/
theorem eraseReps_loop {a : String} {rest acc : List String} (hacc : (a :: acc).Pairwise (· > ·))
    (hrest : (a :: rest).Pairwise (· ≤ ·)) :
    (List.eraseRepsBy.loop (· == ·) a rest acc).Pairwise (· < ·) ∧
      ∀ s, s ∈ List.eraseRepsBy.loop (· == ·) a rest acc ↔ s ∈ acc ∨ s ∈ a :: rest := by
  induction rest generalizing a acc with
  | nil =>
    rw [List.eraseRepsBy.loop]
    exact ⟨List.pairwise_reverse.2 hacc, fun s => by simp [or_comm]⟩
  | cons b rest ih =>
    obtain ⟨hle, htail⟩ := List.pairwise_cons.1 hrest
    rw [List.eraseRepsBy.loop]
    by_cases hab : a = b
    · subst hab
      obtain ⟨hlt, hmem⟩ := ih hacc htail
      simp only [beq_self_eq_true]
      exact ⟨hlt, fun s => by simp [hmem]⟩
    · have hlt : a < b := by
        by_contra hno
        exact hab (String.le_antisymm (hle b List.mem_cons_self) (String.not_lt.1 hno))
      have hacc' : (b :: a :: acc).Pairwise (· > ·) := by
        refine List.pairwise_cons.2 ⟨?_, hacc⟩
        intro s hs
        rcases List.mem_cons.1 hs with rfl | hs
        · exact hlt
        · exact String.lt_trans ((List.pairwise_cons.1 hacc).1 s hs) hlt
      obtain ⟨hlt', hmem⟩ := ih hacc' htail
      simp only [beq_eq_false_iff_ne.2 hab]
      refine ⟨hlt', fun s => ?_⟩
      rw [hmem]
      simp only [List.mem_cons]
      tauto

/-- Where a test keeps the items that a function has a value for, what is kept and the values go together. -/
theorem forall₂_filter_filterMap {α β : Type} {R : α → β → Prop} {p : α → Bool} {f : α → Option β} {xs : List α}
    (h : ∀ x ∈ xs, (p x = false ∧ f x = none) ∨ (p x = true ∧ ∃ y, f x = some y ∧ R x y)) :
    List.Forall₂ R (xs.filter p) (xs.filterMap f) := by
  induction xs with
  | nil => exact .nil
  | cons x rest ih =>
    have hrest := ih fun y hy => h y (List.mem_cons_of_mem _ hy)
    rcases h x List.mem_cons_self with ⟨hp, hf⟩ | ⟨hp, y, hf, hR⟩
    · simpa [hp, hf] using hrest
    · simpa [hp, hf] using ⟨hR, hrest⟩

namespace InterGrammar

variable {gs : List Grammar} {base : Option String} {a b : Arena} {site : Grammar × NodeId} {text : String}

/-- The scopes of includes are sorted, each stands there once, and there are no others. -/
theorem scopesOf_sorted (us : List Unsettled) :
    (scopesOf us).Pairwise (· < ·) ∧ ∀ scope, scope ∈ scopesOf us ↔ ∃ u ∈ us, u.scope = scope := by
  have hmem : ∀ scope, scope ∈ (us.map (·.scope)).mergeSort (fun s t => decide (s ≤ t)) ↔ ∃ u ∈ us, u.scope = scope := by
    intro scope
    rw [List.mem_mergeSort, List.mem_map]
  have hsorted := pairwise_mergeSort_le (us.map (·.scope))
  unfold scopesOf
  generalize (us.map (·.scope)).mergeSort (fun s t => decide (s ≤ t)) = xs at hmem hsorted
  cases xs with
  | nil => exact ⟨.nil, hmem⟩
  | cons first rest =>
    obtain ⟨hlt, hloop⟩ := eraseReps_loop (List.pairwise_singleton _ first) hsorted
    refine ⟨hlt, fun scope => ?_⟩
    rw [← hmem]
    exact (hloop scope).trans (by simp)

/-! ## What is left -/

/-- The registered includes of a set that wait for another grammar, in the order of the grammars and of their registries. -/
def unsettled (gs : List Grammar) (a : Arena) : List (Grammar × NodeId) :=
  (sites gs).filter fun site => a.awaits Reference.isCrossGrammar site.2

/-- What the answer of a run says of the state in which it began and the one in which it ended. -/
inductive Reports (gs : List Grammar) (base : Option String) (a b : Arena) : Except LinkError Report → Prop where
  /-- Nothing is left, and what was there was resolved. -/
  | settled {report : Report} (hnone : unsettled gs b = []) (hcount : report.resolved = (unsettled gs a).length) :
      Reports gs base a b (.ok report)
  /-- Something is left, and of what was there the first include that refers to nothing is blamed. -/
  | missing {site : Grammar × NodeId} {text : String} (hleft : unsettled gs b ≠ [])
      (hfirst : (unsettled gs a).find? (fun s => (designation gs base a s).isNone) = some site) (htext : Reads a site.2 text) :
      Reports gs base a b (.error (.unresolvedReference site.1.scopeName text))
  /-- Something is left, and everything that was there refers to a list; what is left is blamed. -/
  | cycle {scopes references : List String} (hleft : unsettled gs b ≠ [])
      (hall : (unsettled gs a).find? (fun s => (designation gs base a s).isNone) = none)
      (hreferences : List.Forall₂ (fun site reference => ∃ text, Reads b site.2 text ∧
        reference = site.1.scopeName ++ ": " ++ text) (unsettled gs b) references)
      (hne : scopes ≠ []) (hsorted : scopes.Pairwise (· < ·))
      (hscopes : ∀ scope, scope ∈ scopes ↔ ∃ site ∈ unsettled gs b, site.1.scopeName = scope) :
      Reports gs base a b (.error (.unsatisfiableCycle scopes references))

theorem mem_unsettled : site ∈ unsettled gs a ↔ site ∈ sites gs ∧ a.awaits Reference.isCrossGrammar site.2 = true :=
  List.mem_filter

/-- An include is a case of a last pass that misses its target exactly when it waits and refers to nothing. -/
theorem missingAt_cases (h : Ready gs a) (base : Option String) (hsite : site ∈ sites gs) :
    (missingAt (·.1.scopeName) (verdict gs base) a site = none ∧
      ¬(a.awaits Reference.isCrossGrammar site.2 = true ∧ designation gs base a site = none)) ∨
    ∃ text, Reads a site.2 text ∧ missingAt (·.1.scopeName) (verdict gs base) a site = some ⟨site.1.scopeName, text⟩ ∧
      a.awaits Reference.isCrossGrammar site.2 = true ∧ designation gs base a site = none := by
  obtain ⟨v, hv, hj⟩ := verdict_ok h.closed h.chains h.held base hsite
  unfold missingAt
  rw [hv]
  cases hj with
  | skipped hw => exact .inl ⟨rfl, by simp [hw]⟩
  | attached hw hd => exact .inl ⟨rfl, by simp [hd]⟩
  | waiting hw hd => exact .inl ⟨rfl, by simp [hd]⟩
  | missing hw hd ht => exact .inr ⟨_, ht, rfl, hw, hd⟩

/-- Where nothing can be attached and everything refers to a list, the includes that wait are the ones with a verdict to wait. -/
theorem waitingAt_cases (h : Ready gs a) (base : Option String) (hsite : site ∈ sites gs)
    (hno : ∀ target, verdict gs base a site ≠ .ok (.attached target))
    (hall : a.awaits Reference.isCrossGrammar site.2 = true → designation gs base a site ≠ none) :
    (a.awaits Reference.isCrossGrammar site.2 = false ∧ waitingAt (·.1.scopeName) (verdict gs base) a site = none) ∨
    (a.awaits Reference.isCrossGrammar site.2 = true ∧ ∃ u, waitingAt (·.1.scopeName) (verdict gs base) a site = some u ∧
      u.scope = site.1.scopeName ∧ Reads a site.2 u.reference) := by
  obtain ⟨v, hv, hj⟩ := verdict_ok h.closed h.chains h.held base hsite
  unfold waitingAt
  rw [hv]
  cases hj with
  | skipped hw => exact .inl ⟨hw, rfl⟩
  | attached => exact absurd hv (hno _)
  | waiting hw _ _ _ ht => exact .inr ⟨hw, _, rfl, rfl, ht⟩
  | missing hw hd => exact absurd hd (hall hw)

/-- An include that waits and refers to nothing at the end of a run did so from the start. -/
theorem unsettled_missing_iff (h : Ready gs a) (hr : ResolvesBy (Earns gs base a) a b) (hsite : site ∈ sites gs) :
    (b.awaits Reference.isCrossGrammar site.2 = true ∧ designation gs base b site = none) ↔
      (a.awaits Reference.isCrossGrammar site.2 = true ∧ designation gs base a site = none) := by
  obtain ⟨hg, hid⟩ := mem_sites.1 hsite
  constructor
  · rintro ⟨hw, hd⟩
    exact ⟨hr.awaits hw, (designation_of_resolvesBy hr hw).symm.trans hd⟩
  · rintro ⟨hw, hd⟩
    obtain ⟨reference, hp, hk⟩ := awaits_eq_true.1 hw
    rcases hr.pending_or hp with hpb | ⟨target, ⟨g, hg', hid', hdes⟩, -⟩
    · have hwb : b.awaits Reference.isCrossGrammar site.2 = true := awaits_eq_true.2 ⟨reference, hpb, hk⟩
      exact ⟨hwb, (designation_of_resolvesBy hr hwb).trans hd⟩
    · obtain rfl := h.disjoint.unique hg hg' hid hid'
      rw [designation_eq_some.2 hdes] at hd
      cases hd

section

variable (h : Ready gs a) (hr : ResolvesBy (Earns gs base a) a b)
include h hr

/-- The first include that misses its target in the last pass is the first one that did so at the start. -/
theorem find?_of_missing {first : Unsettled} {rest : List Unsettled}
    (hm : (sites gs).filterMap (missingAt (·.1.scopeName) (verdict gs base) b) = first :: rest) :
    ∃ site text, (unsettled gs a).find? (fun s => (designation gs base a s).isNone) = some site ∧ Reads a site.2 text ∧
      first = ⟨site.1.scopeName, text⟩ := by
  have hb : Ready gs b := h.of_resolvesBy (fun _ _ he => h.hasList_of_designates he.1) hr
  obtain ⟨before, site, after, hsites, hbefore, hfirst, -⟩ := List.filterMap_eq_cons_iff.1 hm
  have hin : ∀ s ∈ before ++ [site], s ∈ sites gs := by
    intro s hs
    rw [hsites, List.append_cons]
    exact List.mem_append_left _ hs
  have hsite : site ∈ sites gs := hin site (List.mem_append_right _ List.mem_cons_self)
  rcases missingAt_cases hb base hsite with ⟨hnone, -⟩ | ⟨text, ⟨declared, state, hi⟩, hsome, hw, hd⟩
  · rw [hnone] at hfirst
    cases hfirst
  obtain ⟨hwa, hda⟩ := (unsettled_missing_iff h hr hsite).1 ⟨hw, hd⟩
  obtain ⟨reference, hp, -⟩ := awaits_eq_true.1 hw
  refine ⟨site, text, ?_, ⟨declared, state, (hr.inclusion_of_pending hp).symm.trans hi⟩, ?_⟩
  · rw [unsettled, List.find?_filter]
    refine List.find?_eq_some_iff_append.2 ⟨by simp [hwa, hda], before, after, hsites, ?_⟩
    intro s hs
    rcases missingAt_cases hb base (hin s (List.mem_append_left _ hs)) with ⟨-, hnot⟩ | ⟨_, -, hsome', -⟩
    · rw [unsettled_missing_iff h hr (hin s (List.mem_append_left _ hs))] at hnot
      rw [not_and_or] at hnot
      simpa using hnot
    · rw [hbefore s hs] at hsome'
      cases hsome'
  · rw [hsome] at hfirst
    exact (Option.some.inj hfirst).symm

/-- Where the last pass finds no include without a target, there was none at the start. -/
theorem find?_eq_none_of_missing (hm : (sites gs).filterMap (missingAt (·.1.scopeName) (verdict gs base) b) = []) :
    (unsettled gs a).find? (fun s => (designation gs base a s).isNone) = none := by
  have hb : Ready gs b := h.of_resolvesBy (fun _ _ he => h.hasList_of_designates he.1) hr
  refine List.find?_eq_none.2 fun site hsite hd => ?_
  obtain ⟨hmem, hw⟩ := mem_unsettled.1 hsite
  rcases missingAt_cases hb base hmem with ⟨-, hnot⟩ | ⟨_, -, hsome, -⟩
  · exact hnot ((unsettled_missing_iff h hr hmem).2 ⟨hw, Option.isNone_iff_eq_none.1 hd⟩)
  · rw [List.filterMap_eq_nil_iff.1 hm site hmem] at hsome
    cases hsome

/-- When the last pass attaches nothing and every include refers to a list, it finds what is left to wait. -/
theorem forall₂_of_waiting (hno : ∀ site ∈ sites gs, ∀ target, verdict gs base b site ≠ .ok (.attached target))
    (hm : (sites gs).filterMap (missingAt (·.1.scopeName) (verdict gs base) b) = []) :
    List.Forall₂ (fun site u => u.scope = site.1.scopeName ∧ Reads b site.2 u.reference) (unsettled gs b)
      ((sites gs).filterMap (waitingAt (·.1.scopeName) (verdict gs base) b)) := by
  have hb : Ready gs b := h.of_resolvesBy (fun _ _ he => h.hasList_of_designates he.1) hr
  refine forall₂_filter_filterMap fun site hsite => waitingAt_cases hb base hsite (hno site hsite) fun hw hd => ?_
  rcases missingAt_cases hb base hsite with ⟨-, hnot⟩ | ⟨_, -, hsome, -⟩
  · exact hnot ⟨hw, hd⟩
  · rw [List.filterMap_eq_nil_iff.1 hm site hsite] at hsome
    cases hsome

end

/-- The error of includes that wait blames the scopes that hold them, and words each of them with its scope. -/
theorem reports_cycleError {us : List Unsettled} (hleft : unsettled gs b ≠ [])
    (hall : (unsettled gs a).find? (fun s => (designation gs base a s).isNone) = none)
    (hus : List.Forall₂ (fun site u => u.scope = site.1.scopeName ∧ Reads b site.2 u.reference) (unsettled gs b) us) :
    Reports gs base a b (.error (cycleError us)) := by
  obtain ⟨hsorted, hmem⟩ := scopesOf_sorted us
  have hscopes : (unsettled gs b).map (·.1.scopeName) = us.map (·.scope) :=
    map_eq_map_of_forall₂ hus fun _ _ hu => hu.1.symm
  have hscope : ∀ scope, scope ∈ scopesOf us ↔ ∃ site ∈ unsettled gs b, site.1.scopeName = scope := by
    intro scope
    rw [hmem, ← List.mem_map, ← hscopes, List.mem_map]
  refine .cycle hleft hall ?_ ?_ hsorted hscope
  · refine List.forall₂_map_right_iff.2 (hus.imp ?_)
    rintro site ⟨scope, text⟩ ⟨rfl, htext⟩
    exact ⟨text, htext, by simp [Unsettled.text, String.join]⟩
  · obtain ⟨site, hsite⟩ := List.exists_mem_of_ne_nil _ hleft
    exact List.ne_nil_of_mem ((hscope _).2 ⟨site, hsite, rfl⟩)

/-- A run ends with the answer that reports how it left the set. -/
theorem Ends.reports (h : Ready gs a) (hnd : ((sites gs).map Prod.snd).Nodup) {answer : Except LinkError Report}
    (he : Ends gs base (Earns gs base a) a {} answer b) : Reports gs base a b answer := by
  cases he with
  | @settled report b hr hs hcount =>
    have hnone : unsettled gs b = [] := List.filter_eq_nil_iff.2 fun site hsite => by simp [hs site hsite]
    have hcounted : report.resolved + (unsettled gs b).length = 0 + (unsettled gs a).length := by
      simpa only [waiting, waitingCount, List.countP_eq_length_filter, unsettled] using hcount hnd
    rw [hnone, List.length_nil] at hcounted
    exact .settled hnone (by omega)
  | @stuck tally b hr hsteps h0 hleft =>
    obtain ⟨-, hwait, hmiss, hno⟩ := hsteps.idle h0
    have hunsettled : unsettled gs b ≠ [] := by
      obtain ⟨site, hsite, hw⟩ := hsteps.exists_awaits hleft
      exact List.ne_nil_of_mem (mem_unsettled.2 ⟨hsite, hw⟩)
    unfold stuckError
    cases hm : tally.missing with
    | cons first rest =>
      obtain ⟨site, text, hfirst, htext, rfl⟩ := find?_of_missing h hr (hmiss.symm.trans hm)
      exact .missing hunsettled hfirst htext
    | nil =>
      have hnil := hmiss.symm.trans hm
      simp only [hwait]
      exact reports_cycleError hunsettled (find?_eq_none_of_missing h hr hnil) (forall₂_of_waiting h hr hno hnil)

end InterGrammar

namespace Session

open InterGrammar

/-- In every session that is reached, a run over grammars, each taken once, answers with the report of how it left them. -/
theorem resolve_reports {s : Session} (h : s.Reachable) {gs : List Grammar} (hnd : gs.Nodup)
    (hgs : ∀ g ∈ gs, g ∈ s.grammars) (base : Option String) :
    ∃ answer b, (resolve gs base).start s.arena = .ok (answer, b) ∧ Reports gs base s.arena b answer := by
  have hready := h.sound.ready hnd hgs
  obtain ⟨answer, b, hrun, hends⟩ := resolve_ends hready base
  exact ⟨answer, b, hrun, hends.reports hready (h.sound.nodup_sites hnd hgs)⟩

/-- In the circle the grammar that includes one which is not there is blamed. -/
theorem resolve_reports_circle : Reachable ⟨circle, circleSet.reverse⟩ ∧ circleSet.Nodup ∧
    ∃ b, (resolve circleSet none).start circle = .ok (.error (.unresolvedReference "b" "c"), b) ∧
      Reports circleSet none circle b (.error (.unresolvedReference "b" "c")) := by
  have hnd : circleSet.Nodup := by decide
  obtain ⟨answer, b, hrun, hreports⟩ := resolve_reports reachable_circle hnd (fun g hg => List.mem_reverse.2 hg) none
  have hcircle : (resolve circleSet none).start circle = .ok (.error (.unresolvedReference "b" "c"), circleLeft) := by cbv
  obtain ⟨rfl, rfl⟩ := Prod.mk.inj (Except.ok.inj (hrun.symm.trans hcircle))
  exact ⟨reachable_circle, hnd, _, hrun, hreports⟩

end Session

end GrammarLinker
