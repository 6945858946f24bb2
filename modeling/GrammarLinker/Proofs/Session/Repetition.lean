import GrammarLinker.Proofs.Registry.Names
import GrammarLinker.Proofs.Session.Calls

/-!
# Resolving again

Resolution leaves a state in which it has nothing to do, also when it fails. A second call with the same arguments changes nothing. It
reports that it resolved no include when the first call succeeded, and it has the error of the first call when that failed: between
grammars (`Session.resolve_again`), and for names (`Session.resolveEntries_resolvesNames`), where more is said of the first call.

A run between grammars stops after any number of passes, but an error is worded from a pass that resolved nothing. So it is the error of
the state in which the run ends, and a second run finds it in its first pass (`InterGrammar.Course.repeated`).
-/

namespace GrammarLinker

open Arena InterGrammar

namespace InterGrammar

variable {gs : List Grammar} {base : Option String} {a₀ a b : Arena} {P : NodeId → ListId → Prop} {tallies : List Tally}
  {outcome : Except LinkError Unit}

/-- From the state in which a course ends there is one of a single pass, which resolves nothing and ends there in the same way. -/
theorem Course.repeated (hl : Lawful gs base P a₀) (ha : ResolvesBy P a₀ a) (hc : Course gs base a tallies outcome b) :
    ∃ tally, tally.resolved = 0 ∧ Course gs base b [tally] outcome b := by
  have hb := ha.trans (hc.resolvesBy hl ha)
  cases outcome with
  | error e =>
    obtain ⟨tally, hp, hleft, h0, rfl⟩ := hc.pass_of_error hl ha
    exact ⟨tally, h0, .stuck hp hleft h0⟩
  | ok =>
    have hnone := hc.awaits_eq_false hl ha
    obtain ⟨tally, c, hp, hsteps⟩ := hl.pass_ok (fun site => site.1.scopeName) hb
    have hcount : tally.resolved + waiting gs c ≤ waiting gs b := hsteps.count_le
    have hzero : waiting gs b = 0 := List.countP_eq_zero.2 fun site hsite => by rw [hnone site hsite]; exact Bool.false_ne_true
    have h0 : tally.resolved = 0 := by omega
    obtain ⟨rfl, -⟩ := hsteps.idle h0
    have hempty : tally.waiting = [] ∧ tally.missing = [] := by
      by_contra hleft
      obtain ⟨site, hsite, hw⟩ := hsteps.exists_awaits (not_and_or.1 hleft)
      cases (hnone site hsite).symm.trans hw
    exact ⟨tally, h0, .settled hp hempty.1 hempty.2⟩

end InterGrammar

namespace Session

variable {s : Session}

/-- In every session that is reached, the references between grammars that are there are resolved as far as they can be: a second run
changes nothing. It makes one pass, resolves no include, and ends as the first one did. -/
theorem resolve_again (h : s.Reachable) {gs : List Grammar} (hgs : ∀ g ∈ gs, g.HeldBy s.arena) (base : Option String) :
    ∃ answer b, (resolve gs base).start s.arena = .ok (answer, b) ∧
      (resolve gs base).start b = .ok (answer.map fun _ => { passes := 1, resolved := 0 }, b) := by
  have hs := h.sound
  have hl := Answerable.lawful ⟨hs.closed, hs.nested.finiteChains hs.closed, hgs⟩ base
  obtain ⟨tallies, outcome, b, hc⟩ := exists_course hl (.refl _ s.arena)
  obtain ⟨tally, h0, hagain⟩ := hc.repeated hl (.refl _ s.arena)
  refine ⟨_, b, hc.start_resolve hl (.refl _ s.arena), ?_⟩
  rw [hagain.start_resolve hl (hc.resolvesBy hl (.refl _ s.arena))]
  have hsummary : summary [tally] = { passes := 1, resolved := 0 } := by simp [summary, h0]
  cases outcome with
  | ok => simp only [Except.map, hsummary]
  | error e => rfl

/-- In the circle the second run fails as the first one did. -/
theorem resolve_again_circle : Reachable ⟨circle, circleSet.reverse⟩ ∧ (∀ g ∈ circleSet, g.HeldBy circle) ∧
    ∃ b, (resolve circleSet none).start circle = .ok (.error (.unresolvedReference "b" "c"), b) ∧
      (resolve circleSet none).start b = .ok (.error (.unresolvedReference "b" "c"), b) := by
  have hreachable : Reachable ⟨circle, circleSet.reverse⟩ := reachable_circle
  obtain ⟨answer, b, hrun, hagain⟩ := resolve_again hreachable ready_circle.held none
  have hread : ((resolve circleSet none).start circle).map Prod.fst = .ok (.error (.unresolvedReference "b" "c")) := by cbv
  rw [hrun] at hread
  obtain rfl : answer = .error (.unresolvedReference "b" "c") := Except.ok.inj hread
  exact ⟨hreachable, ready_circle.held, b, hrun, hagain⟩

/-- In every session that is reached, resolving the names of a registry against a repository does all that it should. A second call
changes nothing, and resolving `$self` before the names or after them makes no difference. -/
theorem resolveEntries_resolvesNames (h : s.Reachable) {r : Registry} (hids : ∀ id ∈ r.includes, s.arena.HasNode id)
    {repository : RepositoryId} (hr : s.arena.HasRepository repository) {root : ListId} (hroot : s.arena.HasList root) :
    ∃ answer b, (r.resolveEntries repository).start s.arena = .ok (answer, b) ∧ r.ResolvesNames repository s.arena b answer ∧
      (r.resolveEntries repository).start b = .ok (answer.map fun _ => 0, b) ∧
      ∃ k m c, (r.resolveSelf root).start b = .ok (.ok k, c) ∧ (r.resolveSelf root).start s.arena = .ok (.ok k, m) ∧
        (r.resolveEntries repository).start m = .ok (answer, c) := by
  have hs := h.sound
  have hf := hs.nested.finiteChains hs.closed
  obtain ⟨b, hrun, hb, hiff⟩ := Registry.resolveEntries_exhausts hs.closed hf hr hids
  exact ⟨_, b, hrun, Registry.resolvesNames hs.closed hf hr hids hb hiff,
    Registry.resolveEntries_again hs.closed hf hr hids hb hiff,
    Registry.resolveEntries_resolveSelf hs.closed hf hr hids hb hroot⟩

/-- A grammar with a name that is found, a name that is not, and `$self`. -/
def namesFile : GrammarFile where
  scopeName := "a"
  patterns := [.including "#x", .including "#y", .including "$self"]
  repository := [("x", .matching "m" "1")]

/-- The grammar when it is built. -/
def namesGrammar : Grammar where
  scopeName := "a"
  name := none
  root := ⟨2⟩
  repository := ⟨0⟩
  registry := ⟨"a", [⟨1⟩, ⟨2⟩, ⟨3⟩]⟩

/-- The arena in which it is built. -/
def namesArena : Arena where
  nodes := #[{ name := some "m", rule := { matchExpr := some "1" }, body := .rule ⟨0⟩ },
    { body := .inclusion ⟨"#x", some ⟨0⟩, .pending (.entry "x")⟩ },
    { body := .inclusion ⟨"#y", some ⟨0⟩, .pending (.entry "y")⟩ },
    { body := .inclusion ⟨"$self", some ⟨0⟩, .pending .self⟩ }]
  lists := #[[], [⟨0⟩], [⟨1⟩, ⟨2⟩, ⟨3⟩]]
  repositories := #[{ entries := [("x", ⟨1⟩)] }]

theorem reachable_names : Reachable ⟨namesArena, [namesGrammar]⟩ := by
  have hbuilt : (Grammar.build namesFile).start {} = .ok (.ok namesGrammar, namesArena) := by cbv
  exact Reachable.empty.step (.call (.move (.built hbuilt)))

/-- The name that is not found is reported each time, and `$self` is resolved all the same. -/
theorem resolveEntries_resolvesNames_unknown : Reachable ⟨namesArena, [namesGrammar]⟩ ∧
    (∀ id ∈ namesGrammar.registry.includes, namesArena.HasNode id) ∧ namesArena.HasRepository namesGrammar.repository ∧
    namesArena.HasList namesGrammar.root ∧
    ∃ b, namesGrammar.resolveEntries.start namesArena = .ok (.error (.unresolvedReference "a" "#y"), b) ∧
      namesGrammar.registry.ResolvesNames namesGrammar.repository namesArena b (.error (.unresolvedReference "a" "#y")) ∧
      namesGrammar.resolveEntries.start b = .ok (.error (.unresolvedReference "a" "#y"), b) ∧
      ∃ m c, namesGrammar.resolveSelf.start b = .ok (.ok 1, c) ∧ namesGrammar.resolveSelf.start namesArena = .ok (.ok 1, m) ∧
        namesGrammar.resolveEntries.start m = .ok (.error (.unresolvedReference "a" "#y"), c) := by
  have hids : ∀ id ∈ namesGrammar.registry.includes, namesArena.HasNode id := by decide
  have hr : namesArena.HasRepository namesGrammar.repository := by decide
  have hroot : namesArena.HasList namesGrammar.root := by decide
  obtain ⟨answer, b, hrun, hall, hagain, k, m, c, hafter, hbefore, hlast⟩ := resolveEntries_resolvesNames reachable_names hids hr hroot
  have hread : (namesGrammar.resolveEntries.start namesArena).map Prod.fst = .ok (.error (.unresolvedReference "a" "#y")) := by cbv
  have hreadSelf : (namesGrammar.resolveSelf.start namesArena).map Prod.fst = .ok (.ok 1) := by cbv
  unfold Grammar.resolveEntries Grammar.resolveSelf at *
  rw [hrun] at hread
  rw [hbefore] at hreadSelf
  obtain rfl : answer = .error (.unresolvedReference "a" "#y") := Except.ok.inj hread
  obtain rfl : k = 1 := Except.ok.inj (Except.ok.inj hreadSelf)
  exact ⟨reachable_names, hids, hr, hroot, b, hrun, hall, hagain, m, c, hafter, hbefore, hlast⟩

end Session

end GrammarLinker
