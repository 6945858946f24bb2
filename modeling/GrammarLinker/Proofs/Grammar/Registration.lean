import GrammarLinker.Proofs.Grammar.Build
import GrammarLinker.Proofs.Registry.Registration

/-!
# The registry of a grammar is complete

The registry is where every resolver starts, so an include that it misses would wait for ever. It has exactly the includes that were
added for the grammar, in the order of their ids, all of them pending, and each of them is in one list alone: in the root, in an entry of
a repository, or among the children of a rule (`Grammar.build_registers`).
-/

namespace GrammarLinker

open Arena Draft

namespace Grammar

variable {file : GrammarFile} {g : Grammar} {a m : Arena}

/-- Every node that is added for a grammar is in its root, or in a list that belongs to what was added. -/
theorem build_accounts (hrun : (build file).start a = .ok (.ok g, m)) :
    AppendsAdded ⟨a, { owner := file.scopeName }⟩ ⟨m, g.registry⟩ ∧
      (file.Distinct → ∀ id, (m.since a).nodes id → m.Holds g.root id ∨ m.SettledSince a id) := by
  have hlo : a.region.Within a.region := .refl _
  have hruns : Registers a.region (do
      let repository ← Registry.buildRepository file.repository none
      let root ← Registry.build file.patterns (some repository) none
      return (repository, root)) ⟨a, { owner := file.scopeName }⟩ fun value d' => file.Distinct →
        ∃ items, d'.arena.list value.2 = .ok items ∧ Accounts a ⟨a, { owner := file.scopeName }⟩ items d' := by
    refine (registers_buildRepository hlo file.repository none).bind fun repository d₁ hl₁ hacc₁ => ?_
    refine ((registers_build (hlo.trans hl₁.keeps.region) file.patterns (some repository) none).weaken hl₁.keeps.region).bind ?_
    rintro root d₂ - hacc₂
    refine registers_pure fun hdistinct => ?_
    obtain ⟨items, hitems, hacc₂⟩ := hacc₂ hdistinct.1
    exact ⟨items, hitems, (hacc₁ hdistinct.2).trans hacc₂⟩
  obtain ⟨answer, d', hstart, hlogs, hq⟩ := hruns
  rw [start_build, hstart] at hrun
  cases answer with
  | error e => cases hrun
  | ok value =>
    cases hrun
    refine ⟨hlogs.appends, fun hdistinct id hid => ?_⟩
    obtain ⟨items, hitems, hacc⟩ := hq value rfl hdistinct
    exact (hacc.settles id hid).imp_left fun hm => ⟨items, hitems, hm⟩

/-- A node that was added is in one list at most. -/
theorem BuiltFrom.holds_unique (h : g.BuiltFrom file a m) (hc : a.Closed) {id : NodeId} (hid : (m.since a).nodes id) {list other : ListId}
    (hh : m.Holds list id) (hother : m.Holds other id) : other = list := by
  have hnew : ∀ l, m.Holds l id → (m.since a).lists l := by
    rintro l hl
    refine ⟨fun hold => ?_, hl.hasList⟩
    obtain ⟨items, hitems⟩ := hold.list_ok
    obtain ⟨items', hitems', hm⟩ := hl
    obtain rfl : items' = items := Except.ok.inj (hitems'.symm.trans (h.sound.grows.list l items hitems))
    exact hid.1 (hc.hasNode_item hitems hm)
  exact h.sound.forest.apart other list id (hnew other hother) (hnew list hh) hother hh

/-- Building into a list or into a repository appends to a registry exactly the includes that are added, in the order of their ids, with
an error or without. The registry of a grammar that is built has exactly the includes that were added for it, each of them is pending,
and each is in one list alone, which is the root, an entry of a repository that was added, or the children of a rule that was added. -/
theorem build_registers :
    (∀ d records repository parent, ∃ answer d',
      (Registry.build records repository parent).start d = .ok (answer, d') ∧ d.AppendsAdded d') ∧
    (∀ d entries parent, ∃ answer d',
      (Registry.buildRepository entries parent).start d = .ok (answer, d') ∧ d.AppendsAdded d') ∧
    ∀ file a g m, a.Closed → (build file).start a = .ok (.ok g, m) →
      g.registry.includes.Pairwise (fun p q => p.index < q.index) ∧
      (∀ id, id ∈ g.registry.includes ↔ (m.since a).nodes id ∧ m.IsInclude id) ∧
      ∀ id ∈ g.registry.includes, (m.pending? id).isSome = true ∧
        (file.Distinct → ∃ list, (list = g.root ∨ m.BelongsSince a list) ∧ ∀ other, m.Holds other id ↔ other = list) := by
  refine ⟨fun d records repository parent => ?_, fun d entries parent => ?_, fun file a g m hc hrun => ?_⟩
  · obtain ⟨answer, d', hstart, hlogs, -⟩ := registers_build (.refl d.arena.region) records repository parent
    exact ⟨answer, d', hstart, hlogs.appends⟩
  · obtain ⟨answer, d', hstart, hlogs, -⟩ := registers_buildRepository (.refl d.arena.region) entries parent
    exact ⟨answer, d', hstart, hlogs.appends⟩
  · obtain ⟨⟨ids, happ, hord, hmem⟩, hplaced⟩ := build_accounts hrun
    obtain rfl : g.registry.includes = ids := happ
    obtain ⟨-, -, -, hbuilt, -⟩ := LinkM.outcome (build_ok file a) hrun
    have hg := hbuilt g rfl
    refine ⟨hord, hmem, fun id hid => ⟨(hg.mem_includes.1 hid).2, fun hdistinct => ?_⟩⟩
    have hnew := ((hmem id).1 hid).1
    obtain ⟨list, hlist, hh⟩ : ∃ list, (list = g.root ∨ m.BelongsSince a list) ∧ m.Holds list id := by
      rcases hplaced hdistinct id hnew with hroot | ⟨list, hbelongs, hh⟩
      · exact ⟨g.root, .inl rfl, hroot⟩
      · exact ⟨list, .inr hbelongs, hh⟩
    exact ⟨list, hlist, fun other => ⟨hg.holds_unique hc hnew hh, fun heq => heq ▸ hh⟩⟩

/-- A file with an include in an entry of its repository, one in an entry of a rule's own repository, and one in the rule itself. -/
def tiered : GrammarFile where
  scopeName := "s"
  patterns := [{ name := some "rule", patterns := [.including "#inner"], repository := [("inner", .group [.including "$self"])] }]
  repository := [("outer", .group [.including "t#far"])]

/-- No map in this file has a key twice. -/
theorem tiered_distinct : tiered.Distinct := by
  simp [tiered, GrammarFile.Distinct, Record.DistinctItems, Record.DistinctEntries, Record.Distinct, Record.group, Record.including,
    Keyed.keys]

/-- Three includes of this file are registered, each of them in one list. -/
theorem build_registers_tiered : ∃ g m, ({} : Arena).Closed ∧ (build tiered).start {} = .ok (.ok g, m) ∧
    g.registry.includes = [⟨0⟩, ⟨2⟩, ⟨3⟩] ∧ ∀ id ∈ g.registry.includes, (m.pending? id).isSome = true ∧
      ∃ list, (list = g.root ∨ m.BelongsSince {} list) ∧ ∀ other, m.Holds other id ↔ other = list := by
  have hread : ((build tiered).start {}).map (fun p => p.1.map fun g => g.registry.includes) =
      .ok (.ok [⟨0⟩, ⟨2⟩, ⟨3⟩]) := by cbv
  cases h : (build tiered).start {} with
  | error fault => rw [h] at hread; cases hread
  | ok p =>
    obtain ⟨answer, m⟩ := p
    rw [h] at hread
    cases answer with
    | error e => cases hread
    | ok g =>
      obtain ⟨-, -, hplaced⟩ := build_registers.2.2 tiered {} g m closed_empty h
      exact ⟨g, m, closed_empty, rfl, Except.ok.inj (Except.ok.inj hread), fun id hid =>
        ⟨(hplaced id hid).1, (hplaced id hid).2 tiered_distinct⟩⟩

end Grammar

end GrammarLinker
