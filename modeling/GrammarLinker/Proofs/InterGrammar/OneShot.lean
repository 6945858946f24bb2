import Mathlib
import GrammarLinker.Proofs.InterGrammar.Run

/-!
# What the resolution between grammars resolves

The passes go over states that change under them. What they reach in the end can be said without them
(`InterGrammar.resolve_one_shot`): take the arena in which every include is resolved at once to what it denotes, and keep those
includes whose list is grounded there, along with every `$base` that is the own root of its grammar.

Nothing else is ever resolved, because what is grounded on the way is grounded in that arena. All of it is resolved in the end,
because of the last include on a path to a rule (`InterGrammar.Ends.grounded`): when the list behind it is grounded and it still
waits, the last pass would have attached it.
-/

namespace GrammarLinker.InterGrammar

open Arena

variable {gs : List Grammar} {base : Option String} {a b c : Arena} {id : NodeId} {list t : ListId} {earlier : Report}
  {answer : Except LinkError Report}

/-- An include that still waits at the end of a run denotes no list that it could be attached to. -/
theorem Ends.stable (h : Ready gs a) (he : Ends gs base (Earns gs base a) a earlier answer b)
    (hl : Designates gs base b id list) : ¬OwnRootAt base b id ∧ ¬b.Grounded list := by
  obtain ⟨g, hg, hid, reference, hp, hk, ht⟩ := hl
  have hsite : (g, id) ∈ sites gs := mem_sites.2 ⟨hg, hid⟩
  have hw : b.awaits Reference.isCrossGrammar id = true := awaits_eq_true.2 ⟨reference, hp, hk⟩
  have hd : designation gs base b (g, id) = some list := designation_eq_some.2 ⟨reference, hp, hk, ht⟩
  cases he with
  | settled hr hs =>
    rw [hs (g, id) hsite] at hw
    cases hw
  | stuck hr hsteps h0 =>
    have hb : Ready gs b := h.of_resolvesBy (fun _ _ he => h.hasList_of_designates he.1) hr
    obtain ⟨-, -, -, hno⟩ := hsteps.idle h0
    obtain ⟨v, hv, hj⟩ := verdict_ok hb.closed hb.chains hb.held base hsite
    cases hj with
    | skipped hw' => rw [hw'] at hw; cases hw
    | attached => exact absurd hv (hno (g, id) hsite _)
    | waiting _ hd' ho hg =>
      rw [hd, Option.some.injEq] at hd'
      subst hd'
      exact ⟨ho, hg⟩
    | missing _ hd' => rw [hd] at hd'; cases hd'

theorem Ends.resolvesBy {P : NodeId → ListId → Prop} (he : Ends gs base P a earlier answer b) : ResolvesBy P a b := by
  cases he with
  | settled hr => exact hr
  | stuck hr => exact hr

/-- What was designated, and is not attached at the end of a run, is designated still. -/
theorem Designates.of_pending {P : NodeId → ListId → Prop} (hr : ResolvesBy P a b) {reference : Reference}
    (hp : b.pending? id = some reference) (hl : Designates gs base a id list) : Designates gs base b id list := by
  obtain ⟨g, hg, hid, r, hr', hk, ht⟩ := hl
  rw [(hr.node_of_pending hp).2, Option.some.injEq] at hr'
  subst hr'
  exact ⟨g, hg, hid, reference, hp, hk, by rw [target_congr hr.repositories]; exact ht⟩

/-- A list that is grounded when every include is resolved at once is grounded at the end of a run. -/
theorem Ends.grounded (h : Ready gs a) (he : Ends gs base (Earns gs base a) a earlier answer b)
    (hg : (oneShot gs base a).Grounded list) : b.Grounded list := by
  have hr := he.resolvesBy
  have hall := resolvesBy_resolveAll a (designated? gs base a)
  induction hg with
  | solid hs => exact .solid (hr.solid.2 (hall.solid.1 hs))
  | @through list target hl _ ih =>
    obtain ⟨items, hitems, id, hid, hs⟩ := hl
    have hitems' : b.list list = .ok items := by rw [hr.list, ← hall.list]; exact hitems
    refine .through ⟨items, hitems', id, hid, ?_⟩ ih
    rcases hall.standsFor_before hs with hs | ⟨hd, reference, hp⟩
    · exact hr.standsFor hs
    · have hdes := designates_of_designated? hd
      cases hpb : b.pending? id with
      | some reference' => exact absurd ih (he.stable h (hdes.of_pending hr hpb)).2
      | none => exact hr.standsFor_resolved (fun _ hearn => hearn.1.unique h.disjoint hdes) hpb hp

/-- At the end of a run no include waits that may be resolved. -/
theorem Ends.not_pending (h : Ready gs a) (he : Ends gs base (Earns gs base a) a earlier answer b)
    (hl : Earns gs base a id list) : b.pending? id = none := by
  have hr := he.resolvesBy
  cases hp : b.pending? id with
  | none => rfl
  | some reference =>
    obtain ⟨ho, hg⟩ := he.stable h (hl.1.of_pending hr hp)
    rcases hl.2 with ⟨r, hr', hown⟩ | hgr
    · rw [(hr.node_of_pending hp).2, Option.some.injEq] at hr'
      subst hr'
      exact absurd ⟨reference, hp, hown⟩ ho
    · exact absurd (he.grounded h hgr) hg

/-- An include is resolved by the run: it denotes the list, and the include is the own root of its grammar or the list is found to
be grounded when every include is resolved at once. -/
def Settles (gs : List Grammar) (base : Option String) (a : Arena) (id : NodeId) (list : ListId) : Prop :=
  Designates gs base a id list ∧ (OwnRootAt base a id ∨ (oneShot gs base a).isGrounded list = .ok true)

/-- The search for a solid list comes to an end in the arena with every include resolved, and answers whether there is one. -/
theorem Ready.isGrounded_oneShot (h : Ready gs a) (hl : Designates gs base a id list) :
    ∃ answer, (oneShot gs base a).isGrounded list = .ok answer ∧ (answer = true ↔ (oneShot gs base a).Grounded list) := by
  have hall := resolvesBy_resolveAll a (designated? gs base a)
  have hc : (oneShot gs base a).Closed :=
    hall.closed h.closed fun _ _ hd => h.hasList_of_designates (designates_of_designated? hd)
  exact hc.isGrounded_ok (hall.hasList.2 (h.hasList_of_designates hl))

/-- Settling an include is the same as earning its target. -/
theorem Ready.settles_iff (h : Ready gs a) : Settles gs base a id list ↔ Earns gs base a id list := by
  refine and_congr_right fun hl => or_congr_right ?_
  obtain ⟨answer, hans, hiff⟩ := h.isGrounded_oneShot hl
  rw [hans, Except.ok.injEq, hiff]

/-- The resolution between grammars resolves exactly the includes that settle when every include is resolved at once, whether it
succeeds or not, and changes nothing else. -/
theorem resolve_one_shot (h : Ready gs a) (base : Option String) :
    ∃ answer b, (resolve gs base).start a = .ok (answer, b) ∧
      b.lists = a.lists ∧ b.repositories = a.repositories ∧ b.nodes.size = a.nodes.size ∧
      (∀ id list, Designates gs base a id list → ∃ yes, (oneShot gs base a).isGrounded list = .ok yes) ∧
      ∀ id node, a.node id = .ok node →
        (∀ list, Settles gs base a id list → b.node id = .ok (node.resolvedTo list)) ∧
          ((∀ list, ¬Settles gs base a id list) → b.node id = .ok node) := by
  obtain ⟨answer, b, hrun, hends⟩ := resolve_ends h base
  have hr := hends.resolvesBy
  refine ⟨answer, b, hrun, hr.lists, hr.repositories, hr.size, ?_, fun id node hn => ⟨?_, ?_⟩⟩
  · intro id list hl
    obtain ⟨yes, hyes, -⟩ := h.isGrounded_oneShot hl
    exact ⟨yes, hyes⟩
  · intro list hl
    have hearn := h.settles_iff.1 hl
    rcases hr.node id node hn with hb | ⟨t, ht, -, hb⟩
    · have hnone : node.pending? = none := (pending?_of_node hb).symm.trans (hends.not_pending h hearn)
      rw [hb, Node.resolvedTo_of_not_pending hnone]
    · rw [hb, ht.1.unique h.disjoint hl.1]
  · intro hno
    rcases hr.node id node hn with hb | ⟨t, ht, -, -⟩
    · exact hb
    · exact absurd (h.settles_iff.2 ht) (hno t)

/-- Two grammars that include each other. The first has a rule, and the second also includes a grammar that is not there. -/
def circle : Arena where
  nodes := #[{ body := .inclusion ⟨"b", some ⟨0⟩, .pending (.foreign "b")⟩ }, { body := .rule ⟨0⟩ },
    { body := .inclusion ⟨"a", some ⟨1⟩, .pending (.foreign "a")⟩ },
    { body := .inclusion ⟨"c", some ⟨1⟩, .pending (.foreign "c")⟩ }]
  lists := #[[], [⟨0⟩, ⟨1⟩], [⟨2⟩, ⟨3⟩]]
  repositories := #[{}, {}]

/-- The grammars of the circle. -/
def circleSet : List Grammar :=
  [{ scopeName := "a", name := none, root := ⟨1⟩, repository := ⟨0⟩, registry := ⟨"a", [⟨0⟩]⟩ },
    { scopeName := "b", name := none, root := ⟨2⟩, repository := ⟨1⟩, registry := ⟨"b", [⟨2⟩, ⟨3⟩]⟩ }]

/-- The circle when what can be resolved in it is resolved. -/
def circleLeft : Arena :=
  { circle with
    nodes := #[{ body := .inclusion ⟨"b", some ⟨0⟩, .resolved ⟨2⟩⟩ }, { body := .rule ⟨0⟩ },
      { body := .inclusion ⟨"a", some ⟨1⟩, .resolved ⟨1⟩⟩ }, { body := .inclusion ⟨"c", some ⟨1⟩, .pending (.foreign "c")⟩ }] }

/-- The grammars of the circle can be resolved. -/
theorem ready_circle : Ready circleSet circle where
  closed := by
    simp [closed_iff, circle, Node.RefersInto, NodeBody.RefersInto, Repository.RefersInto, region, HasNode, HasList,
      HasRepository, Include.target?, IncludeState.target?]
  chains := by
    rintro ⟨i⟩ hi
    have hr : circle.repository ⟨i⟩ = .ok {} := by
      have hlt : i < 2 := hi
      obtain rfl | rfl : i = 0 ∨ i = 1 := by omega
      · rfl
      · rfl
    exact ⟨[⟨i⟩], .enclosed hr .outermost⟩
  held := by
    simp only [circleSet, List.forall_mem_cons]
    exact ⟨⟨by decide, by decide, by decide⟩, ⟨by decide, by decide, by decide⟩, List.forall_mem_nil _⟩
  disjoint := by simp [DisjointRegistries, circleSet, Apart]

/-- In the circle the include that leads to the rule is resolved, and the one of the grammar that is not there is left. -/
theorem resolve_one_shot_circle : Ready circleSet circle ∧
    ∃ answer b, (resolve circleSet none).start circle = .ok (answer, b) ∧
      b.node ⟨0⟩ = .ok { body := .inclusion ⟨"b", some ⟨0⟩, .resolved ⟨2⟩⟩ } ∧ b.node ⟨3⟩ = circle.node ⟨3⟩ := by
  obtain ⟨answer, b, hrun, -, -, -, -, hnodes⟩ := resolve_one_shot ready_circle none
  refine ⟨ready_circle, answer, b, hrun, ?_, ?_⟩
  · exact (hnodes ⟨0⟩ _ rfl).1 ⟨2⟩ ⟨⟨_, List.mem_cons_self, by decide, _, rfl, rfl, rfl⟩, .inr (by cbv)⟩
  · refine (hnodes ⟨3⟩ _ rfl).2 ?_
    intro list hl
    have hnone : designated? circleSet none circle ⟨3⟩ = none := by decide
    have hsome := (designated?_eq_some ready_circle.disjoint).2 hl.1
    rw [hnone] at hsome
    cases hsome

end GrammarLinker.InterGrammar
