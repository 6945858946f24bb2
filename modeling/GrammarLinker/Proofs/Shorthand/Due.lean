import GrammarLinker.Proofs.LinkedSet.Targets
import GrammarLinker.Proofs.Shorthand.Steps

/-!
# What resolution resolves when files are spelled out

The references of two sets that were linked in parallel up to this point are resolved on different ways: `$self` in the local step, and
`$base` between the grammars, where it is exempt from grounding only in a set without a base grammar. But what is due in the end can be said
of the arenas that were built (`Linker.Due`), and there it is the same in both (`Linker.Parallel.due_iff`): in a set without a base grammar
what `$base` denotes between the grammars is what `$self` refers to in its own.

Only the includes of grammars that found their own references are compared, because the `$base` of another is resolved when it is spelled
out as `$self`. What is supported is supported through lists of such grammars alone, so nothing hangs on the others.
-/

namespace GrammarLinker

open Arena InterGrammar Reference

variable {gs ls : List Grammar} {g : Grammar} {base : Option String} {a : Arena} {id : NodeId} {list : ListId} {reference : Reference}

/-! ## One reference -/

/-- Spelling out does not change what a reference denotes, unless it makes `$base` a `$self`. -/
theorem InterGrammar.target_spellOut (h : reference = .base → base ≠ none) :
    target gs base (a.spellOut base) g (reference.spellOut base) = target gs base a g reference := by
  rw [target_congr (a := a) (b := a.spellOut base) rfl]
  cases reference with
  | base =>
    cases base with
    | none => exact absurd rfl (h rfl)
    | some scope => rfl
  | _ => rfl

theorem Reference.isCrossGrammar_spellOut (h : reference = .base → base ≠ none) :
    (reference.spellOut base).isCrossGrammar = reference.isCrossGrammar := by
  cases reference with
  | base =>
    cases base with
    | none => exact absurd rfl (h rfl)
    | some scope => rfl
  | _ => rfl

/-- What an include refers to in its own grammar it refers to when it is spelled out. -/
theorem Grammar.Own.spellOut (h : g.Own a id list) (base : Option String) : g.Own (a.spellOut base) id list := by
  refine ⟨h.1, h.2.imp ?_ fun hs => ⟨?_, hs.2⟩⟩
  · rintro ⟨text, declared, name, hi, ht⟩
    refine ⟨longForm base text, declared, name, ?_, ?_⟩
    · rw [inclusion_spellOut, hi]
      rfl
    · rw [Registry.entryTarget_congr (a := a) (b := a.spellOut base) rfl]
      exact ht
  · rw [pending?_spellOut, hs.1]
    rfl

/-- An include that is spelled out refers to a list of its own grammar when it did so before, or was `$base`. -/
theorem Grammar.own_of_spellOut (h : g.Own (a.spellOut base) id list) :
    g.Own a id list ∨ base = none ∧ id ∈ g.registry.includes ∧ a.pending? id = some .base ∧ list = g.root := by
  obtain ⟨hid, ⟨text, declared, name, hi, ht⟩ | ⟨hp, rfl⟩⟩ := h
  · left
    rw [inclusion_spellOut] at hi
    cases hia : a.inclusion id with
    | error fault => rw [hia] at hi; cases hi
    | ok i? =>
      rw [hia] at hi
      rcases i? with _ | ⟨text', declared', ⟨r⟩ | t⟩
      · cases hi
      · cases r with
        | entry name' =>
          cases hi
          rw [Registry.entryTarget_congr (a := a) (b := a.spellOut base) rfl] at ht
          exact ⟨hid, .inl ⟨_, _, _, hia, ht⟩⟩
        | base => cases base <;> cases hi
        | _ => cases hi
      · cases hi
  · rw [pending?_spellOut, Option.map_eq_some_iff] at hp
    obtain ⟨r, hr, hself⟩ := hp
    cases r with
    | self => exact .inl ⟨hid, .inr ⟨hr, rfl⟩⟩
    | base =>
      cases base with
      | none => exact .inr ⟨rfl, hid, hr, rfl⟩
      | some scope => cases hself
    | _ => cases hself

/-- What an include denotes in a set it denotes when it is spelled out, or refers to in its own grammar. -/
theorem InterGrammar.Designates.spellOut (h : Designates gs base a id list) :
    Linker.OwnOf gs (a.spellOut base) id list ∨ Designates gs base (a.spellOut base) id list := by
  obtain ⟨g, hg, hid, reference, hp, hk, ht⟩ := h
  have hp' : (a.spellOut base).pending? id = some (reference.spellOut base) := by
    rw [pending?_spellOut, hp]
    rfl
  by_cases hown : reference = .base ∧ base = none
  · obtain ⟨rfl, rfl⟩ := hown
    exact .inl ⟨g, hg, hid, .inr ⟨hp', (Option.some.inj (Except.ok.inj ht)).symm⟩⟩
  · have hne : reference = .base → base ≠ none := fun hr hb => hown ⟨hr, hb⟩
    exact .inr ⟨g, hg, hid, _, hp', (isCrossGrammar_spellOut hne).trans hk, (target_spellOut hne).trans ht⟩

theorem InterGrammar.designates_of_spellOut (h : Designates gs base (a.spellOut base) id list) : Designates gs base a id list := by
  obtain ⟨g, hg, hid, r, hp', hk, ht⟩ := h
  rw [pending?_spellOut, Option.map_eq_some_iff] at hp'
  obtain ⟨reference, hp, rfl⟩ := hp'
  have hne : reference = .base → base ≠ none := by
    rintro rfl rfl
    cases hk
  exact ⟨g, hg, hid, reference, hp, (isCrossGrammar_spellOut hne).symm.trans hk, (target_spellOut hne).symm.trans ht⟩

/-- A `$base` that is spelled out is no exemption from grounding any more. -/
theorem InterGrammar.not_ownRootAt_spellOut : ¬OwnRootAt base (a.spellOut base) id := by
  rintro ⟨r, hp', hown⟩
  rw [pending?_spellOut, Option.map_eq_some_iff] at hp'
  obtain ⟨reference, -, rfl⟩ := hp'
  simp only [isOwnRoot, Bool.and_eq_true, beq_iff_eq] at hown
  exact spellOut_ne_base hown.2

namespace Linker

/-! ## From an arena to the one that is spelled out -/

theorem OwnOf.spellOut (h : OwnOf ls a id list) (base : Option String) : OwnOf ls (a.spellOut base) id list := by
  obtain ⟨g, hg, ho⟩ := h
  exact ⟨g, hg, ho.spellOut base⟩

/-- An include that stands for a list, or is there to do so, is so too when references are spelled out. -/
theorem Edge.spellOut (hsub : gs ⊆ ls) (h : Edge ls gs base a id list) : Edge ls gs base (a.spellOut base) id list := by
  rcases h with hs | ho | hd
  · exact .inl (standsFor_spellOut.2 hs)
  · exact .inr (.inl (ho.spellOut base))
  · exact .inr (hd.spellOut.imp_left fun ⟨g, hg, ho⟩ => ⟨g, hsub hg, ho⟩)

/-- A list is supported as before when references are spelled out. -/
theorem supported_spellOut {E : NodeId → ListId → Prop} (h : a.Supported E list) : (a.spellOut base).Supported E list := by
  induction h with
  | solid hs => exact .solid (solid_spellOut.2 hs)
  | through hl hid he _ ih => exact .through hl hid he ih

/-- What is due is due when it is spelled out. -/
theorem Due.spellOut (hsub : gs ⊆ ls) (h : Due ls gs base a id list) : Due ls gs base (a.spellOut base) id list := by
  rcases h with ho | ⟨hd, hwhy⟩
  · exact .inl (ho.spellOut base)
  · rcases hd.spellOut with ⟨g, hg, ho⟩ | hd'
    · exact .inl ⟨g, hsub hg, ho⟩
    · refine .inr ⟨hd', .inr ?_⟩
      rcases hwhy with ⟨reference, hp, hown⟩ | hs
      · -- the own root is denoted between grammars only where it is not spelled out
        simp only [isOwnRoot, Bool.and_eq_true, Option.isNone_iff_eq_none, beq_iff_eq] at hown
        obtain ⟨rfl, rfl⟩ := hown
        obtain ⟨g, -, -, r, hp', hk, -⟩ := hd'
        rw [pending?_spellOut, hp, Option.map_some, Option.some.injEq] at hp'
        subst hp'
        cases hk
      · exact (supported_spellOut hs).mono fun _ _ he => he.spellOut hsub

/-! ## And back -/

section

variable {policy : FailurePolicy} {files : List GrammarFile} {spans : List Span} {m n n' : Arena} {unique passed : List Grammar}
  {s : Span} (h : Parallel policy base files spans m unique passed n n')
include h

theorem Parallel.passed_spans : passed.Sublist (spans.map Span.grammar) := h.localized.sublist.trans h.unique_sublist

/-- What was built stands for nothing yet. -/
theorem Parallel.not_standsFor (hs : s ∈ spans) (hid : s.region.nodes id) : ¬m.StandsFor id list := by
  intro hstands
  obtain ⟨file, -, hsound⟩ := h.built.sound s hs
  by_cases hreg : id ∈ s.grammar.registry.includes
  · obtain ⟨text, declared, reference, hi, -⟩ := h.built.asWritten s.grammar (List.mem_map_of_mem hs) id hreg
    obtain ⟨i, hi', ht⟩ := hstands
    rw [hi] at hi'
    cases hi'
    cases ht
  · obtain ⟨node, hn, hrule⟩ := hsound.built.sound.complete id hid hreg
    exact hstands.not_isRule ⟨node, hsound.after.node id node hn, hrule⟩

/-- A registered include of what was built in a span is registered by the grammar that was built in it. -/
theorem Parallel.grammar_eq (hs : s ∈ spans) (hid : s.region.nodes id) (hg : g ∈ spans.map Span.grammar)
    (hreg : id ∈ g.registry.includes) : g = s.grammar := by
  obtain ⟨file, -, hsound⟩ := h.built.sound s hs
  obtain ⟨text, declared, reference, hi, -⟩ := h.built.asWritten g hg id hreg
  obtain ⟨node, hn⟩ := hid.2.node_ok
  have hp := pending?_of_inclusion hi
  rw [pending?_of_node (hsound.after.node id node hn), ← pending?_of_node hn] at hp
  exact h.ready.disjoint.unique hg (List.mem_map_of_mem hs) hreg (hsound.built.registered_of_pending hid (hp ▸ rfl))

/-- An include of a grammar that found its own references denotes or refers to a list of such a grammar. What it denotes or refers to
when it is spelled out it does so before. -/
theorem Parallel.edge_back (hs : s ∈ spans) (hpassed : s.grammar ∈ passed) (hid : s.region.nodes id)
    (he : Edge unique passed base (m.spellOut base) id list) :
    Edge unique passed base m id list ∧ ∃ t ∈ spans, t.grammar ∈ passed ∧ t.region.lists list := by
  obtain ⟨file, -, hsound⟩ := h.built.sound s hs
  have hlies : s.grammar.LiesIn s.region := hsound.built.liesIn
  rcases he with hstands | ⟨g, hg, ho⟩ | hd
  · exact absurd (standsFor_spellOut.1 hstands) (h.not_standsFor hs hid)
  · obtain rfl := h.grammar_eq hs hid (h.unique_sublist.subset hg) ho.1
    rcases Grammar.own_of_spellOut ho with ho | ⟨rfl, hreg, hp, rfl⟩
    · exact ⟨.inr (.inl ⟨_, hg, ho⟩), s, hs, hpassed, ho.lists hsound.closedIn hlies⟩
    · exact ⟨.inr (.inr ⟨_, hpassed, hreg, .base, hp, rfl, rfl⟩), s, hs, hpassed, hlies.root⟩
  · have hd := designates_of_spellOut hd
    refine ⟨.inr (.inr hd), ?_⟩
    obtain ⟨g, hg, hreg, reference, hp, hk, ht⟩ := hd
    obtain rfl := h.grammar_eq hs hid (h.passed_spans.subset hg) hreg
    have hrefers : Refers passed base m s.grammar none reference list := .between hk ht
    rcases hrefers.lists_region h.built h.passed_spans hs nofun with ⟨-, hl⟩ | ⟨t, ht, hpassed', -, hl⟩
    · exact ⟨s, hs, hpassed, hl⟩
    · exact ⟨t, ht, hpassed', hl⟩

/-- A list of a grammar that found its own references is supported before it is spelled out. -/
theorem Parallel.supported_back (hsup : (m.spellOut base).Supported (Edge unique passed base (m.spellOut base)) list) :
    ∀ s ∈ spans, s.grammar ∈ passed → s.region.lists list → m.Supported (Edge unique passed base m) list := by
  induction hsup with
  | solid hs => exact fun _ _ _ _ => .solid (solid_spellOut.1 hs)
  | @through list target items id hl hmem he _ ih =>
    intro s hs hpassed hlist
    obtain ⟨file, -, hsound⟩ := h.built.sound s hs
    have hid := hsound.closedIn.list list items hl hlist id hmem
    obtain ⟨he, t, ht, hpassed', htarget⟩ := h.edge_back hs hpassed hid he
    exact .through hl hmem he (ih t ht hpassed' htarget)

/-- For the includes of a grammar that found its own references the same is due, spelled out or not. -/
theorem Parallel.due_iff (hg : g ∈ passed) (hid : id ∈ g.registry.includes) :
    Due unique passed base (m.spellOut base) id list ↔ Due unique passed base m id list := by
  refine ⟨fun hdue => ?_, Due.spellOut h.localized.sublist.subset⟩
  obtain ⟨s, hs, rfl⟩ := List.mem_map.1 (h.passed_spans.subset hg)
  obtain ⟨file, -, hsound⟩ := h.built.sound s hs
  have hnode : s.region.nodes id := hsound.built.liesIn.includes id hid
  obtain ⟨-, t, ht, hpassed, hlist⟩ := h.edge_back hs hg hnode hdue.edge
  rcases hdue with ⟨k, hk, ho⟩ | ⟨hd, hown | hsup⟩
  · obtain rfl := h.grammar_eq hs hnode (h.unique_sublist.subset hk) ho.1
    rcases Grammar.own_of_spellOut ho with ho | ⟨rfl, hreg, hp, rfl⟩
    · exact .inl ⟨_, hk, ho⟩
    · exact .inr ⟨⟨_, hg, hreg, .base, hp, rfl, rfl⟩, .inl ⟨.base, hp, rfl⟩⟩
  · exact absurd hown not_ownRootAt_spellOut
  · exact .inr ⟨designates_of_spellOut hd, .inr (h.supported_back hsup t ht hpassed hlist)⟩

end

end Linker

end GrammarLinker
