import GrammarLinker.Proofs.Registry.Relocation

/-!
# What a file is built into

A file is built in an arena as it is built in an empty one, with ids that come after those of the arena. So what is built from it can be
looked at once and for all (`Blueprint`), and a grammar that was built somewhere is the one of the blueprint with other ids
(`Blueprint.of_start`).
-/

namespace GrammarLinker

open Arena

/-- A file with the grammar that is built from it in an empty arena. -/
structure Blueprint where
  file : GrammarFile
  grammar : Grammar
  arena : Arena
  built : (Grammar.build file).start {} = .ok (.ok grammar, arena)

namespace Blueprint

/-- The blueprint of a file, if it can be built. -/
def of? (file : GrammarFile) : Option Blueprint :=
  match h : (Grammar.build file).start {} with
  | .ok (.ok g, a) => some ⟨file, g, a, h⟩
  | _ => none

variable {file : GrammarFile} {g : Grammar} {a m : Arena} {p : Blueprint}

/-- A blueprint is the one of its file. -/
theorem of?_file (p : Blueprint) : of? p.file = some p := by
  obtain ⟨file, g, a, h⟩ := p
  unfold of?
  split
  · rename_i g' a' h'
    obtain ⟨hg, ha⟩ := Prod.mk.inj (Except.ok.inj (h.symm.trans h'))
    cases hg
    cases ha
    rfl
  · rename_i hno
    exact absurd h (hno g a)

/-- A file has a blueprint exactly if it is that of the blueprint. -/
theorem of?_eq_some : of? file = some p ↔ p.file = file := by
  refine ⟨fun h => ?_, fun h => h ▸ of?_file p⟩
  unfold of? at h
  split at h
  · cases h
    rfl
  · cases h

/-- A grammar that was built in an arena is the one of the blueprint, with ids that come after those of the arena. -/
theorem of_start (h : (Grammar.build file).start a = .ok (.ok g, m)) :
    ∃ p : Blueprint, p.file = file ∧ p.grammar.rename a.shift = g ∧ a.append p.arena = m := by
  rw [Grammar.build_relocates] at h
  cases hbuilt : (Grammar.build file).start {} with
  | error fault => rw [hbuilt] at h; cases h
  | ok q =>
    obtain ⟨answer, c⟩ := q
    rw [hbuilt] at h
    cases answer with
    | error e => cases h
    | ok g' =>
      obtain ⟨hg, hm⟩ := Prod.mk.inj (Except.ok.inj h)
      exact ⟨⟨file, g', c, hbuilt⟩, rfl, Except.ok.inj hg, hm⟩

/-- A file that cannot be built in an arena cannot be built in an empty one. -/
theorem of?_eq_none {e : LinkError} (h : (Grammar.build file).start a = .ok (.error e, m)) : of? file = none := by
  refine Option.eq_none_iff_forall_ne_some.2 fun p hp => ?_
  rw [Grammar.build_relocates, ← of?_eq_some.1 hp, p.built] at h
  cases h

/-! ## What holds of a blueprint -/

section

variable (p)

/-- The arena of a blueprint is closed and nested, and its grammar is built from its file in it. -/
theorem spec : p.arena.Closed ∧ p.arena.Nested ∧ p.grammar.BuiltFrom p.file {} p.arena := by
  obtain ⟨-, hc, hn, hg, -⟩ := LinkM.outcome (Grammar.build_ok p.file {}) p.built
  exact ⟨hc closed_empty, hn fun id _ _ hr => absurd (hasRepository_of_repository hr) (not_hasRepository_empty id), hg _ rfl⟩

/-- The arena of a blueprint is closed. -/
theorem closed : p.arena.Closed := p.spec.1

/-- Following does not lead out of it. -/
theorem staysIn : p.arena.StaysIn p.arena.region := ClosedIn.staysIn p.closed

/-- Chains of repositories end in it. -/
theorem finiteChains : p.arena.FiniteChains := p.spec.2.1.finiteChains p.closed

/-- So do those of the region of all its objects. -/
theorem finiteIn : p.arena.FiniteIn p.arena.region := p.finiteChains.finiteIn (.refl _)

/-- The grammar of a blueprint is built from its file. -/
theorem builtFrom : p.grammar.BuiltFrom p.file {} p.arena := p.spec.2.2

/-- The grammar of a blueprint is in its arena. -/
theorem heldBy : p.grammar.HeldBy p.arena := p.builtFrom.heldBy

/-- Nothing is resolved in a blueprint. -/
theorem not_standsFor (id : NodeId) (list : ListId) : ¬p.arena.StandsFor id list := by
  intro h
  have hsound := p.builtFrom.sound
  by_cases hid : id ∈ p.grammar.registry.includes
  · obtain ⟨⟨name, rule, parent, body⟩, hn, text, declared, reference, rfl, -⟩ := (hsound.registered id hid).2
    obtain ⟨i, hi, ht⟩ := h
    rw [inclusion_of_node hn] at hi
    cases hi
    cases ht
  · have hstands := h
    obtain ⟨i, hi, -⟩ := hstands
    obtain ⟨node, hn, -⟩ := inclusion_eq_ok.1 hi
    exact h.not_isRule (hsound.complete id ⟨not_hasNode_empty id, hasNode_of_node hn⟩ hid)

end

end Blueprint

/-- The chains of what is built are finite, whatever was there before. -/
theorem Grammar.finiteIn_of_start {file : GrammarFile} {g : Grammar} {a m : Arena}
    (h : (build file).start a = .ok (.ok g, m)) : m.FiniteIn (m.since a) := by
  obtain ⟨p, -, -, rfl⟩ := Blueprint.of_start h
  rintro ⟨i⟩ ⟨hnew, hhas⟩
  obtain ⟨k, rfl⟩ := Nat.exists_eq_add_of_le (Nat.le_of_not_lt hnew)
  have hk : p.arena.HasRepository ⟨k⟩ := by
    simpa [HasRepository, append] using hhas
  obtain ⟨ids, hids⟩ := p.finiteChains ⟨k⟩ hk
  exact ⟨_, ((embeds_append a p.arena).chain p.staysIn hids fun r hr => Option.some.inj hr ▸ hk).1⟩

end GrammarLinker
