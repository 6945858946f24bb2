import GrammarLinker.Proofs.Arena.Inlining
import GrammarLinker.Proofs.Copy.Order
import GrammarLinker.Proofs.Session.Calls

/-!
# Walks inline lists

A walk through a list of a closed arena comes to an end and yields what the list is inlined to, whatever circles its includes form
(`Session.concretePatterns_inlining`). In a session a walk yields no rule twice. A list does not hold a node twice, and no two lists hold
the same node (`Session.Called.holdsOnce`): building and copying put every node that they make into one list, and resolution leaves lists
as they are.
-/

namespace GrammarLinker

open Arena InterGrammar

namespace Session

variable {roots : Session → ListId → Prop} {s t : Session}

/-- After a move a node stands in one list at most, if it did before. -/
theorem Move.holdsOnce (hm : Move roots s t) (hs : Sound s) (h : s.arena.HoldsOnce) : t.arena.HoldsOnce := by
  cases hm.effect hs with
  | built hrun =>
    obtain ⟨registry, hd⟩ := Grammar.build_sound hrun
    exact HoldsOnce.of_since hd.grows h hs.closed hd.closed hd.forest.holdsOnceIn
  | resolved hb => exact hb.holdsOnce h
  | @copied g copy b hg hrun =>
    obtain ⟨φ, hx, -, hcopied⟩ := hs.copiedBy hg hrun
    have hreach := (hs.held g hg).reach_within hs.closed
    exact HoldsOnce.of_since hx h hs.closed (hcopied.closedIn hreach) (hcopied.holdsOnceIn hreach h)

/-- After any calls a node stands in one list at most. -/
theorem Called.holdsOnce (hadm : Admits roots) (h : Called roots s) : s.arena.HoldsOnce := by
  refine Called.induction (I := fun s => s.arena.HoldsOnce) hadm (fun s t hs ho hm => hm.holdsOnce hs ho) (fun _ _ _ _ ho => ho) ?_ h
  exact forest_empty.holdsOnceIn

/-- In a closed arena a walk through a list comes to an end, and yields what the list is inlined to: the rules of all lists to which
resolved includes lead. In a session it yields none of them twice. -/
theorem concretePatterns_inlining {a : Arena} (hc : a.Closed) {list : ListId} (hl : a.HasList list) :
    ∃ ids, a.walk list = .ok ⟨ids, none⟩ ∧ a.concretePatterns list = .ok ids ∧ (∀ out, a.Inlined list out ↔ out = ids) ∧
      (∀ id, id ∈ ids ↔ a.IsRule id ∧ ∃ l, Relation.ReflTransGen a.Leads list l ∧ a.Holds l id) ∧
      ∀ s, Called AnyList s → s.arena = a → ids.Nodup := by
  obtain ⟨ids, h⟩ := hc.exists_inlined hl
  refine ⟨ids, h.walk hc, h.concretePatterns hc, fun out => ⟨fun hout => ?_, ?_⟩, fun id => h.mem_iff, ?_⟩
  · exact Except.ok.inj ((hout.concretePatterns hc).symm.trans (h.concretePatterns hc))
  · rintro rfl
    exact h
  · rintro s hs rfl
    exact h.nodup (hs.holdsOnce admits_anyList)

/-- The children of the first rule of the ring lead to both roots, and from these to themselves and to each other. -/
theorem concretePatterns_inlining_ring : Called AnyList ⟨ring, ringSet.grammars⟩ ∧ ring.Closed ∧ ring.HasList ⟨2⟩ ∧
    ring.walk ⟨2⟩ = .ok ⟨[⟨2⟩, ⟨5⟩, ⟨7⟩], none⟩ ∧ (∀ out, ring.Inlined ⟨2⟩ out ↔ out = [⟨2⟩, ⟨5⟩, ⟨7⟩]) ∧
    (∀ id, id ∈ [⟨2⟩, ⟨5⟩, ⟨7⟩] ↔ ring.IsRule id ∧ ∃ l, Relation.ReflTransGen ring.Leads ⟨2⟩ l ∧ ring.Holds l id) ∧
    [NodeId.mk 2, ⟨5⟩, ⟨7⟩].Nodup := by
  have hcalled : Called AnyList ⟨ring, ringSet.grammars⟩ := called_ring_linked AnyList
  have hc : ring.Closed := (hcalled.sound admits_anyList).closed
  have hl : ring.HasList ⟨2⟩ := by decide
  obtain ⟨ids, hwalk, hids, hinlined, hmem, hnd⟩ := concretePatterns_inlining hc hl
  have hread : ring.concretePatterns ⟨2⟩ = .ok [⟨2⟩, ⟨5⟩, ⟨7⟩] := by cbv
  obtain rfl : ids = [⟨2⟩, ⟨5⟩, ⟨7⟩] := Except.ok.inj (hids.symm.trans hread)
  exact ⟨hcalled, hc, hl, hwalk, hinlined, hmem, hnd _ hcalled rfl⟩

end Session

end GrammarLinker
