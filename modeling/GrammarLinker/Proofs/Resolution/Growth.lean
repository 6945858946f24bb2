import GrammarLinker.Proofs.Arena.Entering

/-!
# What resolving an include adds

An include that is resolved to a list opens one way more, from the lists that hold it to that list. The way may close circles, and
after it the search for a solid list and the walk may enter lists in another order. So their runs before and after are not compared.
What they answer is said by where resolved includes lead, and of this the change is known (`Arena.Attached.reaches_iff`): they lead
where they led before, and from a list that comes to the include also wherever they led from its target.

A list is grounded then if it was, or if it comes to the include and the target was grounded (`Arena.Attached.isGrounded_ok`). The walk
through it yields what it yielded and, if it comes to the include, what the walk through the target yielded
(`Arena.Attached.concretePatterns_ok`). Nothing is lost (`Arena.resolution_onlyAdds`).
-/

namespace GrammarLinker.Arena

variable {a b : Arena} {id x : NodeId} {list target l m : ListId}

/-- Resolved includes lead from the list to one that holds the node. -/
def ComesTo (a : Arena) (list : ListId) (id : NodeId) : Prop := ∃ l, Relation.ReflTransGen a.Leads list l ∧ a.Holds l id

/-- One include was resolved to a list, and nothing else was changed. -/
structure Attached (id : NodeId) (target : ListId) (a b : Arena) : Prop where
  resolvesBy : ResolvesBy (fun n t => n = id ∧ t = target) a b
  standsFor : b.StandsFor id target

/-- Resolving a pending include succeeds and changes nothing else. -/
theorem resolveInclude?_attached {reference : Reference} (hp : a.pending? id = some reference) (target : ListId) :
    ∃ b, a.resolveInclude? id target = .ok (some b) ∧ Attached id target a b := by
  obtain ⟨b, hb, hres, hdone, -⟩ := resolveInclude?_resolvesBy (P := fun n t => n = id ∧ t = target) hp ⟨rfl, rfl⟩
  exact ⟨b, hb, hres, hres.standsFor_resolved (fun _ ht => ht.2) hdone hp⟩

namespace Attached

variable (h : Attached id target a b)
include h

/-- An arena stays closed when the target is a list of it. -/
theorem closed (hc : a.Closed) (ht : a.HasList target) : b.Closed :=
  h.resolvesBy.closed hc fun _ _ hto => hto.2 ▸ ht

/-! ## Where includes lead -/

/-- There is one way more: from the lists that hold the include to its target. -/
theorem leads_iff : b.Leads l m ↔ a.Leads l m ∨ a.Holds l id ∧ m = target := by
  constructor
  · rintro ⟨items, hl, n, hn, hs⟩
    rw [h.resolvesBy.list] at hl
    rcases h.resolvesBy.standsFor_before hs with hold | ⟨⟨rfl, rfl⟩, -⟩
    · exact .inl ⟨items, hl, n, hn, hold⟩
    · exact .inr ⟨⟨items, hl, hn⟩, rfl⟩
  · rintro (hold | ⟨⟨items, hl, hid⟩, rfl⟩)
    · exact h.resolvesBy.leads hold
    · exact ⟨items, (h.resolvesBy.list l).trans hl, id, hid, h.standsFor⟩

/-- Includes lead from a list where they led before, and wherever they led from the target if the list comes to the include. -/
theorem reaches_iff : Relation.ReflTransGen b.Leads l m ↔
    Relation.ReflTransGen a.Leads l m ∨ a.ComesTo l id ∧ Relation.ReflTransGen a.Leads target m := by
  have hold : ∀ {l m}, Relation.ReflTransGen a.Leads l m → Relation.ReflTransGen b.Leads l m :=
    fun hreach => Relation.ReflTransGen.mono (fun _ _ => h.resolvesBy.leads) _ _ hreach
  constructor
  · intro hreach
    induction hreach with
    | refl => exact .inl .refl
    | tail _ hstep ih =>
      rcases h.leads_iff.1 hstep with hleads | ⟨hholds, rfl⟩
      · exact ih.imp (·.tail hleads) fun ⟨hcomes, hfrom⟩ => ⟨hcomes, hfrom.tail hleads⟩
      · -- the last step goes through the include: the way starts anew at the target, also if it came through the include before
        rcases ih with hto | ⟨hcomes, -⟩
        · exact .inr ⟨⟨_, hto, hholds⟩, .refl⟩
        · exact .inr ⟨hcomes, .refl⟩
  · rintro (hreach | ⟨⟨holder, hto, hholds⟩, hfrom⟩)
    · exact hold hreach
    · exact ((hold hto).tail (h.leads_iff.2 (.inr ⟨hholds, rfl⟩))).trans (hold hfrom)

/-- What is looked for among the lists to which includes lead is found there if it was, or if it was from the target. -/
theorem exists_reaches_iff (p : ListId → Prop) : (∃ m, Relation.ReflTransGen b.Leads l m ∧ p m) ↔
    (∃ m, Relation.ReflTransGen a.Leads l m ∧ p m) ∨ a.ComesTo l id ∧ ∃ m, Relation.ReflTransGen a.Leads target m ∧ p m := by
  simp only [h.reaches_iff, or_and_right, exists_or, and_assoc, exists_and_left]

/-- A list comes to a node as before, or through the include and its target. -/
theorem comesTo_iff : b.ComesTo list x ↔ a.ComesTo list x ∨ a.ComesTo list id ∧ a.ComesTo target x := by
  unfold ComesTo
  simp only [h.resolvesBy.holds]
  exact h.exists_reaches_iff fun m => a.Holds m x

/-- A list is grounded if it was, or if it comes to the include and the target was. -/
theorem grounded_iff : b.Grounded list ↔ a.Grounded list ∨ a.ComesTo list id ∧ a.Grounded target := by
  simp only [grounded_iff_reaches, h.resolvesBy.solid]
  exact h.exists_reaches_iff a.Solid

/-! ## What the searches answer -/

/-- The search for a solid list answers yes if it did, or if the list comes to the include and it did for the target. -/
theorem isGrounded_ok (hc : a.Closed) (ht : a.HasList target) (hl : a.HasList list) :
    ∃ before gained after, a.isGrounded list = .ok before ∧ a.isGrounded target = .ok gained ∧ b.isGrounded list = .ok after ∧
      (after = true ↔ before = true ∨ a.ComesTo list id ∧ gained = true) := by
  obtain ⟨before, hbefore, hlist⟩ := hc.isGrounded_ok hl
  obtain ⟨gained, hgained, htarget⟩ := hc.isGrounded_ok ht
  obtain ⟨after, hafter, hnow⟩ := (h.closed hc ht).isGrounded_ok (h.resolvesBy.hasList.2 hl)
  refine ⟨before, gained, after, hbefore, hgained, hafter, ?_⟩
  rw [hnow, h.grounded_iff, hlist, htarget]

/-- The walk yields what it yielded and, if the list comes to the include, what the walk through the target yielded. -/
theorem concretePatterns_ok (hc : a.Closed) (ht : a.HasList target) (hl : a.HasList list) :
    ∃ before gained after, a.concretePatterns list = .ok before ∧ a.concretePatterns target = .ok gained ∧
      b.concretePatterns list = .ok after ∧ ∀ x, x ∈ after ↔ x ∈ before ∨ a.ComesTo list id ∧ x ∈ gained := by
  have hcb := h.closed hc ht
  obtain ⟨before, hbefore⟩ := hc.exists_inlined hl
  obtain ⟨gained, hgained⟩ := hc.exists_inlined ht
  obtain ⟨after, hafter⟩ := hcb.exists_inlined (h.resolvesBy.hasList.2 hl)
  refine ⟨before, gained, after, hbefore.concretePatterns hc, hgained.concretePatterns hc, hafter.concretePatterns hcb, fun x => ?_⟩
  have hyields : x ∈ after ↔ a.IsRule x ∧ (a.ComesTo list x ∨ a.ComesTo list id ∧ a.ComesTo target x) := by
    rw [← h.resolvesBy.isRule, ← h.comesTo_iff]
    exact hafter.mem_iff
  rw [hyields, hbefore.mem_iff, hgained.mem_iff, and_or_left, and_left_comm]
  rfl

end Attached

/-! ## Nothing is lost -/

/-- In a closed arena a pending include can be resolved to any list that is there. After that a list that was grounded still is, and
the walk through a list yields at least the rules that it yielded. -/
theorem resolution_onlyAdds (hc : a.Closed) {reference : Reference} (hp : a.pending? id = some reference) (ht : a.HasList target) :
    ∃ b, a.resolveInclude? id target = .ok (some b) ∧ b.StandsFor id target ∧ ∀ list, a.HasList list →
      (a.isGrounded list = .ok true → b.isGrounded list = .ok true) ∧
      ∃ before after, a.concretePatterns list = .ok before ∧ b.concretePatterns list = .ok after ∧ before ⊆ after := by
  obtain ⟨b, hb, h⟩ := resolveInclude?_attached hp target
  refine ⟨b, hb, h.standsFor, fun list hl => ⟨fun hyes => ?_, ?_⟩⟩
  · obtain ⟨before, gained, after, hbefore, -, hafter, hiff⟩ := h.isGrounded_ok hc ht hl
    obtain rfl : before = true := Except.ok.inj (hbefore.symm.trans hyes)
    rw [hafter, hiff.2 (.inl rfl)]
  · obtain ⟨before, gained, after, hbefore, -, hafter, hiff⟩ := h.concretePatterns_ok hc ht hl
    exact ⟨before, after, hbefore, hafter, fun x hx => (hiff x).2 (.inl hx)⟩

/-- A list of three includes. The last two stand for two lists with a rule each, of which the second one includes the first list again. A
fourth list has a rule and includes the third. -/
def detourIn (state : IncludeState) : Arena where
  nodes := #[{ body := .inclusion ⟨"#late", none, state⟩ }, { body := .inclusion ⟨"#plain", none, .resolved ⟨1⟩⟩ },
    { body := .inclusion ⟨"#round", none, .resolved ⟨2⟩⟩ }, { name := some "plain", body := .rule ⟨4⟩ },
    { name := some "round", body := .rule ⟨4⟩ }, { body := .inclusion ⟨"$self", none, .resolved ⟨0⟩⟩ },
    { name := some "late", body := .rule ⟨4⟩ }, { body := .inclusion ⟨"#round", none, .resolved ⟨2⟩⟩ }]
  lists := #[[⟨0⟩, ⟨1⟩, ⟨2⟩], [⟨3⟩], [⟨4⟩, ⟨5⟩], [⟨6⟩, ⟨7⟩], []]

/-- The first include waits. -/
def detour : Arena := detourIn (.pending (.entry "late"))

/-- It stands for the fourth list. -/
def detourTaken : Arena := detourIn (.resolved ⟨3⟩)

/-- Before that, the ids that are stored are in range. -/
theorem closed_detour : detour.Closed := by
  simp [closed_iff, detour, detourIn, Node.RefersInto, NodeBody.RefersInto, Repository.RefersInto, region, HasNode, HasList,
    Include.target?, IncludeState.target?]

/-- The new way leads past the rule of the third list and back to the first, so that the two rules that were yielded change places
behind the one that is added. -/
theorem resolution_onlyAdds_detour : detour.Closed ∧ detour.pending? ⟨0⟩ = some (.entry "late") ∧ detour.HasList ⟨3⟩ ∧
    detour.HasList ⟨0⟩ ∧ detour.resolveInclude? ⟨0⟩ ⟨3⟩ = .ok (some detourTaken) ∧ detourTaken.StandsFor ⟨0⟩ ⟨3⟩ ∧
    detour.isGrounded ⟨0⟩ = .ok true ∧ detourTaken.isGrounded ⟨0⟩ = .ok true ∧
    detour.concretePatterns ⟨0⟩ = .ok [⟨3⟩, ⟨4⟩] ∧ detourTaken.concretePatterns ⟨0⟩ = .ok [⟨6⟩, ⟨4⟩, ⟨3⟩] ∧
    [NodeId.mk 3, ⟨4⟩] ⊆ [⟨6⟩, ⟨4⟩, ⟨3⟩] := by
  have hp : detour.pending? ⟨0⟩ = some (.entry "late") := by decide
  have ht : detour.HasList ⟨3⟩ := by decide
  have hl : detour.HasList ⟨0⟩ := by decide
  obtain ⟨b, hb, hs, hadds⟩ := resolution_onlyAdds closed_detour hp ht
  have hresolved : detour.resolveInclude? ⟨0⟩ ⟨3⟩ = .ok (some detourTaken) := by cbv
  obtain rfl : b = detourTaken := Option.some.inj (Except.ok.inj (hb.symm.trans hresolved))
  obtain ⟨hgrounded, before, after, hbefore, hafter, hsub⟩ := hadds ⟨0⟩ hl
  have hyes : detour.isGrounded ⟨0⟩ = .ok true := by cbv
  have hfirst : detour.concretePatterns ⟨0⟩ = .ok [⟨3⟩, ⟨4⟩] := by cbv
  have hthen : detourTaken.concretePatterns ⟨0⟩ = .ok [⟨6⟩, ⟨4⟩, ⟨3⟩] := by cbv
  obtain rfl : before = [⟨3⟩, ⟨4⟩] := Except.ok.inj (hbefore.symm.trans hfirst)
  obtain rfl : after = [⟨6⟩, ⟨4⟩, ⟨3⟩] := Except.ok.inj (hafter.symm.trans hthen)
  exact ⟨closed_detour, hp, ht, hl, hresolved, hs, hyes, hgrounded hyes, hfirst, hthen, hsub⟩

end GrammarLinker.Arena
