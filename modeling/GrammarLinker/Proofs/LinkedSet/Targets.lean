import GrammarLinker.Proofs.LinkedSet.Link

/-!
# What the includes of a linked set stand for

Every file is built in a region of its own (`Span.region`), in which an include waits until resolution gives it a list. An include
that stands for a list in the end was given it for its reference (`Linked.refers`): the list of a name in the repositories around it,
the own root, or a list of another grammar that the reference names by its scope. So the list is in the own region, or else in the
region of the grammar that is named (`Refers.lists_region`).
-/

namespace GrammarLinker

/-- The scope that a reference names; for `$base` it is the one of the base grammar, if there is one. -/
def Reference.scope? (base : Option String) : Reference → Option String
  | .foreign scope => some scope
  | .foreignEntry scope _ => some scope
  | .base => base
  | .entry _ | .self => none

namespace Linker

open Arena InterGrammar

variable {config : LinkConfig} {files : List GrammarFile} {a m b : Arena} {spans : List Span} {s t : Span} {list : ListId}

/-! ## Regions -/

/-- The objects that were added during a span. -/
abbrev Span.region (s : Span) : Region := s.after.since s.before

/-- What was added during a span refers to itself alone. -/
theorem Span.Sound.closedIn {file : GrammarFile} (h : s.Sound file a m) : m.ClosedIn s.region :=
  h.built.sound.closed.extends h.after ⟨fun _ hid => hid.2, fun _ hid => hid.2, fun _ hid => hid.2⟩

/-- A list was added during one span at most. -/
theorem Spans.eq_of_lists {policy : FailurePolicy} (h : Spans policy files a spans m) (hs : s ∈ spans) (ht : t ∈ spans)
    (hl : s.region.lists list) (hl' : t.region.lists list) : s = t := by
  have hapart : spans.Pairwise fun s t => ¬(s.region.lists list ∧ t.region.lists list) :=
    h.pairwise.imp fun hx hboth => hboth.2.1 (hx.hasList hboth.1.2)
  have hsymm : Std.Symm fun s t : Span => ¬(s.region.lists list ∧ t.region.lists list) :=
    ⟨fun _ _ hno hboth => hno hboth.symm⟩
  by_contra hne
  exact hapart.forall hs ht hne ⟨hl, hl'⟩

/-! ## References -/

/-- What a reference refers to for an include of a grammar: a name refers to the list that it has where the include was declared, or
else in the repository of the grammar, `$self` to the root, and a reference between grammars to the list that it denotes in a set. -/
inductive Refers (gs : List Grammar) (base : Option String) (a : Arena) (g : Grammar) (declared : Option RepositoryId) :
    Reference → ListId → Prop where
  | entry {name : String} {list : ListId} (h : Registry.entryTarget a g.repository declared name = .ok (some list)) :
      Refers gs base a g declared (.entry name) list
  | self : Refers gs base a g declared .self g.root
  | between {reference : Reference} {list : ListId} (hc : reference.isCrossGrammar = true)
      (ht : target gs base a g reference = .ok (some list)) : Refers gs base a g declared reference list

/-- What a grammar refers to is in its own region, or in the region of the grammar that the reference names. -/
theorem Refers.lists_region {policy : FailurePolicy} {gs : List Grammar} {base : Option String} {declared : Option RepositoryId}
    {reference : Reference} (h : Refers gs base m s.grammar declared reference list) (hspans : Spans policy files a spans m)
    (hgs : gs.Sublist (spans.map Span.grammar)) (hs : s ∈ spans) (hd : ∀ r, declared = some r → s.region.repositories r) :
    (reference.scope? base = none ∧ s.region.lists list) ∨
      ∃ t ∈ spans, t.grammar ∈ gs ∧ reference.scope? base = some t.grammar.scopeName ∧ t.region.lists list := by
  obtain ⟨file, -, hsound⟩ := hspans.sound s hs
  have hnamed : ∀ scope g, named gs scope = some g → ∃ t ∈ spans, t.grammar = g ∧ t.grammar ∈ gs ∧
      scope = t.grammar.scopeName := by
    intro scope g hg
    obtain ⟨t, ht, rfl⟩ := List.mem_map.1 (hgs.subset (mem_of_named hg))
    exact ⟨t, ht, rfl, mem_of_named hg, (scopeName_of_named hg).symm⟩
  have hroot : ∀ scope, (named gs scope).map Grammar.root = some list →
      ∃ t ∈ spans, t.grammar ∈ gs ∧ some scope = some t.grammar.scopeName ∧ t.region.lists list := by
    intro scope hl
    obtain ⟨g, hg, rfl⟩ := Option.map_eq_some_iff.1 hl
    obtain ⟨t, ht, rfl, hmem, rfl⟩ := hnamed scope g hg
    obtain ⟨f, -, hsound'⟩ := hspans.sound t ht
    exact ⟨t, ht, hmem, rfl, hsound'.built.root⟩
  cases h with
  | entry he => exact .inl ⟨rfl, Registry.lists_entryTarget hsound.closedIn.repository hsound.built.repository hd he⟩
  | self => exact .inl ⟨rfl, hsound.built.root⟩
  | between hc ht =>
    cases reference with
    | entry name => cases hc
    | self => cases hc
    | base =>
      cases base with
      | none =>
        cases ht
        exact .inl ⟨rfl, hsound.built.root⟩
      | some scope => exact .inr (hroot scope (Except.ok.inj ht))
    | foreign scope => exact .inr (hroot scope (Except.ok.inj ht))
    | foreignEntry scope name =>
      cases hn : named gs scope with
      | none => simp [target, hn] at ht
      | some g =>
        simp only [target, hn] at ht
        obtain ⟨t, htm, rfl, hmem, rfl⟩ := hnamed scope g hn
        obtain ⟨f, -, hsound'⟩ := hspans.sound t htm
        exact .inr ⟨t, htm, hmem, rfl, hsound'.closedIn.lists_lookup hsound'.built.repository ht⟩

/-! ## Linked sets -/

section

variable {unique resolved : List Grammar} {set : LinkedSet} (h : Linked config files a spans m unique resolved set b)
include h

/-- The grammars that were resolved were built in spans. -/
theorem Linked.resolved_spans : resolved.Sublist (spans.map Span.grammar) := h.resolved_sublist.trans h.unique_sublist

/-- What was added in a span is a registered include or a rule. -/
theorem Linked.registered_or_rule (hs : s ∈ spans) {id : NodeId} (hid : s.region.nodes id) :
    id ∈ s.grammar.registry.includes ∨ b.IsRule id := by
  obtain ⟨file, -, hsound⟩ := h.built.sound s hs
  by_cases hmem : id ∈ s.grammar.registry.includes
  · exact .inl hmem
  · obtain ⟨node, hn, hrule⟩ := hsound.built.sound.complete id hid hmem
    exact .inr (h.resolves.isRule.2 ⟨node, hsound.after.node id node hn, hrule⟩)

/-- A registered include that stands for a list in the end refers to it. -/
theorem Linked.refers (hs : s ∈ spans) {id : NodeId} (hid : id ∈ s.grammar.registry.includes) (ht : b.StandsFor id list) :
    ∃ text declared reference, b.inclusion id = .ok (some ⟨text, declared, .resolved list⟩) ∧
      Reference.parse text = .ok reference ∧ (∀ r, declared = some r → s.region.repositories r) ∧
        ∃ gs : List Grammar, gs.Sublist resolved ∧ (config.onFailure = .abort → gs = resolved) ∧
          Refers gs config.baseScope m s.grammar declared reference list := by
  obtain ⟨file, -, hsound⟩ := h.built.sound s hs
  obtain ⟨hadd, ⟨name, rule, parent, body⟩, hn, text, declared, reference, rfl, hparse⟩ := hsound.built.sound.registered id hid
  have hrefers := hsound.built.sound.closed.node id _ hn hadd
  have hm := hsound.after.node id _ hn
  have hinclusion : m.inclusion id = .ok (some ⟨text, declared, .pending reference⟩) := inclusion_of_node hm
  have hpending := pending?_of_inclusion hinclusion
  obtain ⟨i, hi, hit⟩ := ht
  have hmem := List.mem_map_of_mem (f := Span.grammar) hs
  rcases h.resolves.node id _ hm with hb | ⟨found, hwhy, -, hb⟩
  · have hbi := inclusion_of_node hb
    rw [hi] at hbi
    cases hbi
    cases hit
  · have hbi : b.inclusion id = .ok (some ⟨text, declared, .resolved found⟩) := inclusion_of_node hb
    have heq : found = list := by
      rw [hi] at hbi
      cases hbi
      exact Option.some.inj hit
    subst heq
    refine ⟨text, declared, reference, hbi, hparse, hrefers.2.1, ?_⟩
    rcases hwhy with ⟨g, hg, hgid, hown⟩ | ⟨gs, hgs, hall, g, hg, hgid, reference', hp, hc, hl⟩
    · obtain rfl := h.ready.disjoint.unique (h.unique_sublist.subset hg) hmem hgid hid
      refine ⟨resolved, .refl _, fun _ => rfl, ?_⟩
      rcases hown with ⟨text', declared', name', hi', hl⟩ | ⟨hself, rfl⟩
      · rw [hinclusion] at hi'
        cases hi'
        exact .entry hl
      · rw [hpending] at hself
        cases hself
        exact .self
    · obtain rfl := h.ready.disjoint.unique (h.resolved_spans.subset (hgs.subset hg)) hmem hgid hid
      rw [hpending] at hp
      cases hp
      exact ⟨gs, hgs, hall, .between hc hl⟩

end

end Linker

end GrammarLinker
