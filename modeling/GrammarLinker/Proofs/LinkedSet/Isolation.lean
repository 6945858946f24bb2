import GrammarLinker.Proofs.LinkedSet.Targets
import GrammarLinker.Proofs.Session

/-!
# How far dropped grammars are isolated

Under `dropGrammar` the last step of linking is taken again without the grammars that an error blames. The includes that were resolved
before the error stay resolved, also those that stand for lists of a grammar that is dropped. A grammar that depends on a dropped one
is therefore dropped too only if its includes were still waiting.

A set is isolated when its grammars lead to nothing but resolved lists of their own (`Linker.Isolated`). It is so exactly when every
scope that is named on the way is the scope of a linked grammar (`Linker.Linked.isolated_iff`), and not for every set.
-/

namespace GrammarLinker.Linker

open Arena InterGrammar

/-- The lists that grammars lead to: their roots and the entries of their repositories, and from a list on the children of its rules
and the lists that its includes stand for. -/
inductive Reached (gs : List Grammar) (b : Arena) : ListId → Prop where
  | root {g : Grammar} (hg : g ∈ gs) : Reached gs b g.root
  | entry {g : Grammar} {r : Repository} {key : String} {list : ListId} (hg : g ∈ gs) (hr : b.repository g.repository = .ok r)
      (he : (key, list) ∈ r.entries) : Reached gs b list
  | children {list children : ListId} {items : List NodeId} {id : NodeId} {node : Node} (h : Reached gs b list)
      (hl : b.list list = .ok items) (hid : id ∈ items) (hn : b.node id = .ok node) (hb : node.body = .rule children) :
      Reached gs b children
  | target {list target : ListId} {items : List NodeId} {id : NodeId} (h : Reached gs b list) (hl : b.list list = .ok items)
      (hid : id ∈ items) (ht : b.StandsFor id target) : Reached gs b target

/-- A list was added while a grammar was built, as one of these files. -/
def BuiltFor (policy : FailurePolicy) (files : List GrammarFile) (a : Arena) (g : Grammar) (list : ListId) : Prop :=
  ∃ spans m, Spans policy files a spans m ∧ ∃ s ∈ spans, s.grammar = g ∧ s.region.lists list

/-- Whatever grammars lead to was built for one of them, and no include there is pending. -/
def Isolated (policy : FailurePolicy) (files : List GrammarFile) (a : Arena) (gs : List Grammar) (b : Arena) : Prop :=
  ∀ list, Reached gs b list → (∃ g ∈ gs, BuiltFor policy files a g list) ∧
    ∀ items, b.list list = .ok items → ∀ id ∈ items, b.pending? id = none

/-- An include of a list names a scope. -/
def NamesScope (base : Option String) (b : Arena) (list : ListId) (scope : String) : Prop :=
  ∃ items, b.list list = .ok items ∧ ∃ id ∈ items, ∃ i reference, b.inclusion id = .ok (some i) ∧
    Reference.parse i.reference = .ok reference ∧ reference.scope? base = some scope

/-- Files are built in one way. -/
theorem Spans.unique {policy : FailurePolicy} {files : List GrammarFile} {a m m' : Arena} {spans spans' : List Span}
    (h : Spans policy files a spans m) (h' : Spans policy files a spans' m') : spans = spans' := by
  induction h generalizing spans' with
  | done a =>
    cases h'
    rfl
  | built hrun _ ih =>
    cases h' with
    | built hrun' hr =>
      rw [hrun, Except.ok.injEq, Prod.mk.injEq, Except.ok.injEq] at hrun'
      obtain ⟨rfl, rfl⟩ := hrun'
      rw [ih hr]
    | failed _ hrun' _ =>
      rw [hrun] at hrun'
      cases hrun'
  | failed _ hrun _ ih =>
    cases h' with
    | built hrun' _ =>
      rw [hrun] at hrun'
      cases hrun'
    | failed _ hrun' hr =>
      rw [hrun, Except.ok.injEq, Prod.mk.injEq] at hrun'
      obtain ⟨-, rfl⟩ := hrun'
      exact ih hr

section

variable {config : LinkConfig} {files : List GrammarFile} {a m b : Arena} {spans : List Span} {s t : Span} {list : ListId}
  {unique resolved : List Grammar} {set : LinkedSet} (h : Linked config files a spans m unique resolved set b)
include h

/-- A list was built for a grammar when it was added in the span of the grammar. -/
theorem Linked.builtFor_iff {g : Grammar} :
    BuiltFor config.onFailure files a g list ↔ ∃ s ∈ spans, s.grammar = g ∧ s.region.lists list := by
  constructor
  · rintro ⟨spans', m', hspans', hs⟩
    rw [h.built.unique hspans']
    exact hs
  · exact fun hs => ⟨spans, m, h.built, hs⟩

/-- What stands in a list of a span was added in that span. -/
theorem Linked.nodes_item (hs : s ∈ spans) (hl : s.region.lists list) {items : List NodeId} (hitems : b.list list = .ok items)
    {id : NodeId} (hid : id ∈ items) : s.region.nodes id := by
  obtain ⟨file, -, hsound⟩ := h.built.sound s hs
  rw [h.resolves.list] at hitems
  exact hsound.closedIn.list list items hitems hl id hid

/-- The children of a rule of a span were added in that span. -/
theorem Linked.lists_children (hs : s ∈ spans) {id : NodeId} (hid : s.region.nodes id) {node : Node} (hn : b.node id = .ok node)
    {children : ListId} (hb : node.body = .rule children) : s.region.lists children := by
  obtain ⟨file, -, hsound⟩ := h.built.sound s hs
  obtain ⟨old, ho, rfl | ⟨target, -, ⟨reference, hr⟩, rfl⟩⟩ := h.resolves.node_before hn
  · have hrefers := (hsound.closedIn.node id _ ho hid).2
    rw [hb] at hrefers
    exact hrefers
  · have hrule : (old.resolvedTo target).isRule = true := by simp [Node.isRule, hb]
    rw [Node.isRule_resolvedTo, Node.isRule_of_pending hr] at hrule
    cases hrule

/-- What an include stands for was added in its own span, or in the span of the grammar whose scope it names. -/
theorem Linked.lists_target (hs : s ∈ spans) {id : NodeId} (hid : s.region.nodes id) {target : ListId}
    (ht : b.StandsFor id target) :
    ∃ i reference, b.inclusion id = .ok (some i) ∧ Reference.parse i.reference = .ok reference ∧
      ((reference.scope? config.baseScope = none ∧ s.region.lists target) ∨ ∃ t ∈ spans, t.grammar ∈ unique ∧
        reference.scope? config.baseScope = some t.grammar.scopeName ∧ t.region.lists target) := by
  rcases h.registered_or_rule hs hid with hreg | hrule
  · obtain ⟨text, declared, reference, hi, hparse, hd, gs, hgs, -, hrefers⟩ := h.refers hs hreg ht
    refine ⟨_, reference, hi, hparse, ?_⟩
    refine (hrefers.lists_region h.built (hgs.trans h.resolved_spans) hs hd).imp_right ?_
    rintro ⟨t, htm, hg, hscope, hl⟩
    exact ⟨t, htm, h.resolved_sublist.subset (hgs.subset hg), hscope, hl⟩
  · exact absurd hrule ht.not_isRule

/-- A linked grammar of the scope of a span is the grammar of the span. -/
theorem Linked.grammar_eq (ht : t.grammar ∈ unique) {g : Grammar} (hg : g ∈ set.grammars)
    (hscope : g.scopeName = t.grammar.scopeName) : t.grammar = g :=
  List.inj_on_of_nodup_map h.scopeNames ht (h.resolved_sublist.subset (h.grammars_sublist.subset hg)) hscope.symm

/-- As long as only the scopes of linked grammars are named, the linked grammars lead to lists of their own. -/
theorem Linked.own_of_reached
    (hscopes : ∀ list, Reached set.grammars b list → ∀ scope, NamesScope config.baseScope b list scope →
      ∃ g ∈ set.grammars, g.scopeName = scope)
    (hr : Reached set.grammars b list) : ∃ s ∈ spans, s.grammar ∈ set.grammars ∧ s.region.lists list := by
  induction hr with
  | root hg =>
    obtain ⟨s, hs, rfl⟩ := h.exists_span hg
    obtain ⟨file, -, hsound⟩ := h.built.sound s hs
    exact ⟨s, hs, hg, hsound.built.root⟩
  | @entry g r key list hg hr he =>
    obtain ⟨s, hs, rfl⟩ := h.exists_span hg
    obtain ⟨file, -, hsound⟩ := h.built.sound s hs
    rw [h.resolves.repository] at hr
    exact ⟨s, hs, hg, (hsound.closedIn.repository _ r hr hsound.built.repository).2 (key, list) he⟩
  | children _ hl hid hn hb ih =>
    obtain ⟨s, hs, hg, hown⟩ := ih
    exact ⟨s, hs, hg, h.lists_children hs (h.nodes_item hs hown hl hid) hn hb⟩
  | target hreach hl hid ht ih =>
    obtain ⟨s, hs, hg, hown⟩ := ih
    obtain ⟨i, reference, hi, hparse, ⟨-, htarget⟩ | ⟨t, htm, hunique, hscope, htarget⟩⟩ :=
      h.lists_target hs (h.nodes_item hs hown hl hid) ht
    · exact ⟨s, hs, hg, htarget⟩
    · obtain ⟨g, hgm, hname⟩ := hscopes _ hreach _ ⟨_, hl, _, hid, i, reference, hi, hparse, hscope⟩
      exact ⟨t, htm, h.grammar_eq hunique hgm hname ▸ hgm, htarget⟩

/-- In a list of a linked grammar nothing is pending. -/
theorem Linked.not_pending (hs : s ∈ spans) (hg : s.grammar ∈ set.grammars) {id : NodeId} (hid : s.region.nodes id) :
    b.pending? id = none := by
  rcases h.registered_or_rule hs hid with hreg | ⟨node, hn, hrule⟩
  · exact h.settled _ hg id hreg
  · cases hp : node.pending? with
    | none => exact (pending?_of_node hn).trans hp
    | some reference =>
      rw [Node.isRule_of_pending hp] at hrule
      cases hrule

/-- A linked set is isolated exactly when every scope that is named in a list that its grammars lead to is the scope of one of them. -/
theorem Linked.isolated_iff : Isolated config.onFailure files a set.grammars b ↔
    ∀ list, Reached set.grammars b list → ∀ scope, NamesScope config.baseScope b list scope →
      ∃ g ∈ set.grammars, g.scopeName = scope := by
  constructor
  · intro hiso list hr scope hnames
    obtain ⟨items, hl, id, hid, i, reference, hi, hparse, hscope⟩ := hnames
    obtain ⟨⟨g, hg, hbuilt⟩, hnone⟩ := hiso list hr
    obtain ⟨s, hs, rfl, hown⟩ := h.builtFor_iff.1 hbuilt
    -- The include is not pending, so it stands for a list, which is reached in turn.
    obtain ⟨text, declared, state⟩ := i
    cases state with
    | pending waits =>
      have hsome := hnone items hl id hid
      rw [pending?_of_inclusion hi] at hsome
      cases hsome
    | resolved target =>
      have ht : b.StandsFor id target := ⟨_, hi, rfl⟩
      obtain ⟨i', reference', hi', hparse', hwhere⟩ := h.lists_target hs (h.nodes_item hs hown hl hid) ht
      rw [hi] at hi'
      cases hi'
      rw [hparse] at hparse'
      cases hparse'
      rw [hscope] at hwhere
      obtain ⟨hno, -⟩ | ⟨t, htm, -, hname, htarget⟩ := hwhere
      · cases hno
      · obtain ⟨⟨g, hg, hbuilt⟩, -⟩ := hiso target (.target hr hl hid ht)
        obtain ⟨u, hu, rfl, hown'⟩ := h.builtFor_iff.1 hbuilt
        rw [h.built.eq_of_lists hu htm hown' htarget] at hg
        exact ⟨t.grammar, hg, (Option.some.inj hname).symm⟩
  · intro hscopes list hr
    obtain ⟨s, hs, hg, hown⟩ := h.own_of_reached hscopes hr
    exact ⟨⟨s.grammar, hg, h.builtFor_iff.2 ⟨s, hs, rfl, hown⟩⟩,
      fun items hl id hid => h.not_pending hs hg (h.nodes_item hs hown hl hid)⟩

end

/-- In every session that is reached, the grammars that linking files leaves over are isolated exactly when every scope that is named
in a list that they lead to is the scope of one of them. -/
theorem link_isolated_iff {session : Session} (h : session.Reachable) {config : LinkConfig} {files : List GrammarFile}
    {set : LinkedSet} {b : Arena} (hrun : (link config files).start session.arena = .ok (.ok set, b)) :
    Isolated config.onFailure files session.arena set.grammars b ↔
      ∀ list, Reached set.grammars b list → ∀ scope, NamesScope config.baseScope b list scope →
        ∃ g ∈ set.grammars, g.scopeName = scope := by
  obtain ⟨-, -, -, hset, -⟩ := LinkM.outcome (link_ok config files h.sound.closed h.sound.nested) hrun
  obtain ⟨spans, m, unique, resolved, hl⟩ := hset set rfl
  exact hl.isolated_iff

/-- A grammar that includes another one, which has a rule and also includes a grammar that is not there. -/
def leakFiles : List GrammarFile :=
  [{ scopeName := "a", patterns := [.including "b"] },
    { scopeName := "b", patterns := [.matching "r" "x", .including "missing"] }]

/-- What is left when the second grammar is dropped. -/
def leakSet : LinkedSet where
  grammars := [{ scopeName := "a", name := none, root := ⟨0⟩, repository := ⟨0⟩, registry := ⟨"a", [⟨0⟩]⟩ }]
  dropped := [⟨"b", .unresolvedReference "b" "missing"⟩]
  report := { passes := 1 }

/-- The arena in which linking these files ends: the first grammar stands for the root of the second one. -/
def leakArena : Arena where
  nodes := #[{ body := .inclusion ⟨"b", some ⟨0⟩, .resolved ⟨2⟩⟩ },
    { name := some "r", rule := { matchExpr := some "x" }, body := .rule ⟨1⟩ },
    { body := .inclusion ⟨"missing", some ⟨1⟩, .pending (.foreign "missing")⟩ }]
  lists := #[[⟨0⟩], [], [⟨1⟩, ⟨2⟩]]
  repositories := #[{}, {}]

/-- Linking the two files drops the second and leaves the first. -/
theorem start_link_leakFiles : (link { onFailure := .dropGrammar } leakFiles).start {} = .ok (.ok leakSet, leakArena) := by cbv

/-- So the first one is isolated exactly when every scope that is named where it leads is its own. -/
theorem link_isolated_iff_leakFiles : Session.Reachable {} ∧
    (link { onFailure := .dropGrammar } leakFiles).start {} = .ok (.ok leakSet, leakArena) ∧
      (Isolated .dropGrammar leakFiles {} leakSet.grammars leakArena ↔
        ∀ list, Reached leakSet.grammars leakArena list → ∀ scope, NamesScope none leakArena list scope →
          ∃ g ∈ leakSet.grammars, g.scopeName = scope) :=
  ⟨.empty, start_link_leakFiles, link_isolated_iff .empty start_link_leakFiles⟩

/-- The second grammar, which is dropped. -/
def leakDropped : Grammar := { scopeName := "b", name := none, root := ⟨2⟩, repository := ⟨1⟩, registry := ⟨"b", [⟨2⟩]⟩ }

/-- The arena in which the first grammar was built. -/
def leakFirst : Arena where
  nodes := #[{ body := .inclusion ⟨"b", some ⟨0⟩, .pending (.foreign "b")⟩ }]
  lists := #[[⟨0⟩]]
  repositories := #[{}]

/-- The arena in which both were built. -/
def leakBuilt : Arena :=
  { leakArena with
    nodes := leakArena.nodes.set 0 { body := .inclusion ⟨"b", some ⟨0⟩, .pending (.foreign "b")⟩ } (by decide) }

/-- The root of the second grammar was built for it. -/
theorem builtFor_leakFiles : ∃ g : Grammar, g.scopeName = "b" ∧ BuiltFor .dropGrammar leakFiles {} g ⟨2⟩ := by
  have hfirst : (Grammar.build leakFiles[0]).start {} = .ok (.ok leakSet.grammars[0], leakFirst) := by cbv
  have hsecond : (Grammar.build leakFiles[1]).start leakFirst = .ok (.ok leakDropped, leakBuilt) := by cbv
  exact ⟨leakDropped, rfl, _, leakBuilt, .built hfirst (.built hsecond (.done leakBuilt)), ⟨leakDropped, leakFirst, leakBuilt⟩,
    List.mem_cons_of_mem _ List.mem_cons_self, rfl, by decide, by decide⟩

/-- The second grammar is dropped, and the first one is left with an include that stands for the root of the dropped one, in which an
include is pending. -/
theorem link_leak : (link { onFailure := .dropGrammar } leakFiles).start {} = .ok (.ok leakSet, leakArena) ∧
    leakSet.dropped.map DroppedGrammar.scope = ["b"] ∧
      (∃ list g, Reached leakSet.grammars leakArena list ∧ g.scopeName = "b" ∧ BuiltFor .dropGrammar leakFiles {} g list) ∧
        ¬Isolated .dropGrammar leakFiles {} leakSet.grammars leakArena := by
  have hroot : Reached leakSet.grammars leakArena ⟨0⟩ := .root (g := leakSet.grammars[0]) List.mem_cons_self
  have hreached : Reached leakSet.grammars leakArena ⟨2⟩ := .target hroot rfl List.mem_cons_self ⟨_, rfl, rfl⟩
  obtain ⟨g, hg, hbuilt⟩ := builtFor_leakFiles
  refine ⟨start_link_leakFiles, rfl, ⟨⟨2⟩, g, hreached, hg, hbuilt⟩, ?_⟩
  intro hiso
  have hpending := (hiso ⟨2⟩ hreached).2 _ rfl ⟨2⟩ (List.mem_cons_of_mem _ List.mem_cons_self)
  cases hpending

end GrammarLinker.Linker
