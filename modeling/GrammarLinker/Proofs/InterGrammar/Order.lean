import GrammarLinker.Proofs.InterGrammar.OneShot

/-!
# The order of the grammars of a set

A run goes over the includes in the order in which the grammars are listed, and within a pass one include that is resolved may be
what another one waits for. When the scope names are distinct, the order decides how many passes are made and how an error words
what is left, and nothing else (`InterGrammar.resolve_perm`).
-/

namespace GrammarLinker.InterGrammar

open Arena

variable {gs hs : List Grammar} {base : Option String} {a b : Arena} {g : Grammar} {id : NodeId} {list : ListId}
  {site : Grammar × NodeId}

section

variable (hp : gs.Perm hs) (hnd : (gs.map Grammar.scopeName).Nodup)
include hp

/-- The includes of a set are the same in another order. -/
theorem sites_perm : (sites gs).Perm (sites hs) := hp.flatMap_right _

/-- A set that can be resolved can be resolved in another order. -/
theorem Ready.perm (h : Ready gs a) : Ready hs a :=
  ⟨h.closed, h.chains, fun g hg => h.held g (hp.mem_iff.2 hg), (hp.pairwise_iff fun h => Std.Symm.symm _ _ h).1 h.disjoint⟩

include hnd

/-- A scope is found as the same grammar. -/
theorem named_perm (scope : String) : named hs scope = named gs scope := by
  refine Option.ext ?_
  intro g
  rw [named_eq_some hnd, named_eq_some ((hp.map Grammar.scopeName).nodup_iff.1 hnd), hp.mem_iff]

/-- A reference has the same target. -/
theorem target_perm (base : Option String) (a : Arena) (g : Grammar) (reference : Reference) :
    target hs base a g reference = target gs base a g reference := by
  cases reference <;> simp only [target, named_perm hp hnd]

/-- An include is judged in the same way. -/
theorem verdict_perm (base : Option String) : verdict hs base = verdict gs base := by
  funext a site
  simp only [verdict, target_perm hp hnd]

/-- An include denotes the same list. -/
theorem designates_perm : Designates hs base a id list ↔ Designates gs base a id list := by
  simp only [Designates, target_perm hp hnd, hp.mem_iff]

/-- Resolving all at once comes to the same. -/
theorem Ready.oneShot_perm (h : Ready gs a) (base : Option String) : oneShot hs base a = oneShot gs base a := by
  have hfun : designated? hs base a = designated? gs base a := by
    funext id
    refine Option.ext ?_
    intro list
    rw [designated?_eq_some h.disjoint, designated?_eq_some (h.perm hp).disjoint, designates_perm hp hnd]
  unfold oneShot
  rw [hfun]

/-- The same includes may be resolved, and to the same lists. -/
theorem Ready.earns_perm (h : Ready gs a) : Earns hs base a = Earns gs base a := by
  funext id list
  unfold Earns
  rw [h.oneShot_perm hp hnd, designates_perm hp hnd]

end

/-! ## What two runs have in common -/

/-- Texts are sorted by their code points. -/
theorem pairwise_mergeSort_le (xs : List String) : (xs.mergeSort fun s t => decide (s ≤ t)).Pairwise (· ≤ ·) := by
  refine (List.pairwise_mergeSort ?_ ?_ xs).imp of_decide_eq_true
  · intro s t u hst htu
    exact decide_eq_true (String.le_trans (of_decide_eq_true hst) (of_decide_eq_true htu))
  · intro s t
    simpa using String.le_total s t

/-- The scopes of an error do not depend on the order of its includes. -/
theorem scopesOf_perm {us vs : List Unsettled} (h : us.Perm vs) : scopesOf us = scopesOf vs := by
  have hperm : (us.map (·.scope)).mergeSort (fun s t => decide (s ≤ t)) |>.Perm
      ((vs.map (·.scope)).mergeSort fun s t => decide (s ≤ t)) :=
    (List.mergeSort_perm _ _).trans ((h.map _).trans (List.mergeSort_perm _ _).symm)
  unfold scopesOf
  rw [List.Perm.eq_of_pairwise (fun s t _ _ => String.le_antisymm) (pairwise_mergeSort_le _) (pairwise_mergeSort_le _) hperm]

/-- Two answers agree up to the order in which the grammars are listed. -/
inductive Agree : Except LinkError Report → Except LinkError Report → Prop where
  | settled {r s : Report} (h : r.resolved = s.resolved) : Agree (.ok r) (.ok s)
  | unresolved (scope reference scope' reference' : String) :
      Agree (.error (.unresolvedReference scope reference)) (.error (.unresolvedReference scope' reference'))
  | cycle {scopes references references' : List String} (h : references.Perm references') :
      Agree (.error (.unsatisfiableCycle scopes references)) (.error (.unsatisfiableCycle scopes references'))

/-- What is said of the includes that are left agrees when they are the same ones. -/
theorem agree_stuckError {t u : Tally} (hw : t.waiting.Perm u.waiting) (hm : t.missing.Perm u.missing) :
    Agree (.error (stuckError t)) (.error (stuckError u)) := by
  cases ht : t.missing with
  | nil =>
    have hu : u.missing = [] := List.perm_nil.1 (ht ▸ hm.symm)
    simp only [stuckError, ht, hu, cycleError, scopesOf_perm hw]
    exact .cycle (hw.map _)
  | cons first rest =>
    cases hu : u.missing with
    | nil =>
      rw [ht, hu] at hm
      exact absurd (List.perm_nil.1 hm) (List.cons_ne_nil _ _)
    | cons first' rest' =>
      simp only [stuckError, ht, hu]
      exact .unresolved _ _ _ _

/-- Two runs that end in the same state agree. -/
theorem Ends.agree {P : NodeId → ListId → Prop} {answer answer' : Except LinkError Report} (hp : gs.Perm hs)
    (hnd : (gs.map Grammar.scopeName).Nodup) (hone : ((sites gs).map Prod.snd).Nodup)
    (he : Ends gs base P a {} answer b) (he' : Ends hs base P a {} answer' b) : Agree answer answer' := by
  have hsites := sites_perm hp
  have hone' : ((sites hs).map Prod.snd).Nodup := (hsites.map Prod.snd).nodup_iff.1 hone
  cases he with
  | @settled report b _ hnone hcount =>
    cases he' with
    | @settled report' b _ hnone' hcount' =>
      have ha : waiting hs a = waiting gs a := (hsites.countP_eq _).symm
      have hb : waiting hs b = waiting gs b := (hsites.countP_eq _).symm
      have hgs := hcount hone
      have hhs := hcount' hone'
      exact .settled (by omega)
    | stuck _ hsteps _ hleft =>
      obtain ⟨site, hsite, hw⟩ := hsteps.exists_awaits hleft
      rw [hnone site (hsites.mem_iff.2 hsite)] at hw
      cases hw
  | stuck _ hsteps h0 hleft =>
    cases he' with
    | settled _ hnone' =>
      obtain ⟨site, hsite, hw⟩ := hsteps.exists_awaits hleft
      rw [hnone' site (hsites.mem_iff.1 hsite)] at hw
      cases hw
    | stuck _ hsteps' h0' =>
      obtain ⟨-, hwait, hmiss, -⟩ := hsteps.idle h0
      obtain ⟨-, hwait', hmiss', -⟩ := hsteps'.idle h0'
      rw [verdict_perm hp hnd] at hwait' hmiss'
      refine agree_stuckError ?_ ?_
      · rw [hwait, hwait']
        exact hsites.filterMap _
      · rw [hmiss, hmiss']
        exact hsites.filterMap _

/-- The order in which grammars of distinct scope names are listed changes neither the state in which a run ends nor, but for the
wording, the answer. -/
theorem resolve_perm (h : Ready gs a) (hp : gs.Perm hs) (hnd : (gs.map Grammar.scopeName).Nodup)
    (hone : ((sites gs).map Prod.snd).Nodup) (base : Option String) :
    ∃ answer answer' b, (resolve gs base).start a = .ok (answer, b) ∧ (resolve hs base).start a = .ok (answer', b) ∧
      Agree answer answer' := by
  obtain ⟨answer, b, hrun, hends⟩ := resolve_ends h base
  obtain ⟨answer', c, hrun', hends'⟩ := resolve_ends (h.perm hp) base
  have hends'' := hends'
  rw [h.earns_perm hp hnd] at hends''
  have hc : ∀ id list, Earns gs base a id list → c.pending? id = none := by
    intro id list hl
    rw [← h.earns_perm hp hnd] at hl
    exact hends'.not_pending (h.perm hp) hl
  obtain rfl : b = c := hends.resolvesBy.eq_of_exhausted hends''.resolvesBy
    (fun _ _ _ hl ht => hl.1.unique h.disjoint ht.1) (fun _ _ hl => hends.not_pending h hl) hc
  exact ⟨answer, answer', b, hrun, hrun', hends.agree hp hnd hone hends''⟩

end GrammarLinker.InterGrammar
