import GrammarLinker.Proofs.Grammar.Groups
import GrammarLinker.Proofs.LinkedSet.Targets
import GrammarLinker.Proofs.Rendering
import GrammarLinker.Proofs.Session

/-!
# What a linked set means

Under `abort` every file is built and linked, or none. In a set that comes out the arena renders the files (`Linked.renders`): what was
built for a file shows its records, and every include stands for the list of the group that its record denotes. So a walk through the
root of a grammar yields the rules of the records to which the root of its file expands (`Linker.link_expands`).
-/

namespace GrammarLinker

open Arena InterGrammar

/-- With distinct scope names, the file of a scope is the one that has it. -/
theorem fileOf?_eq_some {files : List GrammarFile} (hnd : (files.map GrammarFile.scopeName).Nodup) {scope : String}
    {file : GrammarFile} : fileOf? files scope = some file ↔ file ∈ files ∧ file.scopeName = scope :=
  find?_name_eq_some hnd

namespace Linker

variable {config : LinkConfig} {files : List GrammarFile} {a m b : Arena} {spans : List Span} {s t : Span} {file : GrammarFile}
  {list : ListId}

/-- A file was built during a span, between two arenas. -/
structure Site (files : List GrammarFile) (spans : List Span) (a m : Arena) (file : GrammarFile) (s : Span) : Prop where
  file_mem : file ∈ files
  span_mem : s ∈ spans
  sound : s.Sound file a m

/-- A node was built for a record of a file. -/
def ShowsRecord (files : List GrammarFile) (spans : List Span) (a m : Arena) (p : Placed) (id : NodeId) : Prop :=
  ∃ file s, Site files spans a m file s ∧ s.grammar.ShowsAt file m p id ∧ s.region.nodes id

/-- A list was built for a group of a file. -/
def HostsGroup (files : List GrammarFile) (spans : List Span) (a m : Arena) (group : Group) (list : ListId) : Prop :=
  ∃ file s, Site files spans a m file s ∧ s.grammar.Hosts file m group list

theorem Site.showing (h : Site files spans a m file s) : s.grammar.Shows file m := h.sound.built.showing.extends h.sound.after

/-- The list of a group of a file was added when the file was built. -/
theorem Site.lists_hosts (h : Site files spans a m file s) {group : Group} (hh : s.grammar.Hosts file m group list) :
    s.region.lists list := by
  cases hh with
  | root => exact h.sound.built.root
  | entry hr hc hl =>
    exact (h.sound.closedIn.repository _ _ hr h.sound.built.repository).2 (_, list) (Keyed.mem_of_find? hl)

/-- The groups of a file name the file. -/
theorem file_of_hosts {g g' : Grammar} {file' : GrammarFile} {group : Group} {list' : ListId} (hh : g.Hosts file m group list)
    (hh' : g'.Hosts file' m group list') : file = file' := by
  cases hh <;> cases hh' <;> rfl

section

variable {unique resolved : List Grammar} {set : LinkedSet} (h : Linked config files a spans m unique resolved set b)
  (hp : config.onFailure = .abort)
include h hp

/-- Under `abort` every file was built during a span, in order. -/
theorem Linked.sites : List.Forall₂ (Site files spans a m) files spans := by
  have hbuilt := h.built
  rw [hp] at hbuilt
  obtain ⟨hlen, hsound⟩ := List.forall₂_iff_zip.1 hbuilt.forall₂
  exact List.forall₂_iff_zip.2 ⟨hlen, fun hz => ⟨(List.of_mem_zip hz).1, (List.of_mem_zip hz).2, hsound hz⟩⟩

/-- Under `abort` the files have distinct scope names. -/
theorem Linked.nodup_files : (files.map GrammarFile.scopeName).Nodup := by
  have hnames : List.Forall₂ (fun file s => file.scopeName = s.grammar.scopeName) files spans :=
    (h.sites hp).imp fun _ _ hs => hs.showing.scopeName.symm
  have heq : files.map GrammarFile.scopeName = (spans.map Span.grammar).map Grammar.scopeName := by
    rw [List.map_map, ← List.forall₂_eq_eq_eq, List.forall₂_map_left_iff, List.forall₂_map_right_iff]
    exact hnames
  rw [heq, ← (h.all hp).1]
  exact h.scopeNames

/-- Spans of files of one scope name have one grammar. -/
theorem Linked.grammar_eq_of_scopeName (hs : s ∈ spans) (ht : t ∈ spans) (hname : s.grammar.scopeName = t.grammar.scopeName) :
    s.grammar = t.grammar := by
  have hnd := h.scopeNames
  rw [(h.all hp).1] at hnd
  exact List.inj_on_of_nodup_map hnd (List.mem_map_of_mem hs) (List.mem_map_of_mem ht) hname

/-- Different groups have different lists, and a group has one list. -/
theorem Linked.hosts_eq_iff {group group' : Group} {list' : ListId} (hh : HostsGroup files spans a m group list)
    (hh' : HostsGroup files spans a m group' list') : group = group' ↔ list = list' := by
  obtain ⟨file, s, hs, hhost⟩ := hh
  obtain ⟨file', t, ht, hhost'⟩ := hh'
  by_cases hg : s.grammar = t.grammar
  · have hname : file.scopeName = file'.scopeName := by
      rw [← hs.showing.scopeName, ← ht.showing.scopeName, hg]
    obtain rfl := List.inj_on_of_nodup_map (h.nodup_files hp) hs.file_mem ht.file_mem hname
    rw [← hg] at hhost'
    exact hhost.eq_iff hhost' hs.showing
  · refine iff_of_false (fun heq => hg ?_) (fun heq => hg ?_)
    · subst heq
      obtain rfl := file_of_hosts hhost hhost'
      exact h.grammar_eq_of_scopeName hp hs.span_mem ht.span_mem (hs.showing.scopeName.trans ht.showing.scopeName.symm)
    · subst heq
      rw [h.built.eq_of_lists hs.span_mem ht.span_mem (hs.lists_hosts hhost) (ht.lists_hosts hhost')]

/-- What a grammar is named in the set, its file is named among the files. -/
theorem Linked.site_of_named {scope : String} {g : Grammar} (hn : named (spans.map Span.grammar) scope = some g) :
    ∃ file s, Site files spans a m file s ∧ s.grammar = g ∧ fileOf? files scope = some file := by
  obtain ⟨s, hs, rfl⟩ := List.mem_map.1 (mem_of_named hn)
  obtain ⟨file, hfile, hsound⟩ := h.built.sound s hs
  have hsite : Site files spans a m file s := ⟨hfile, hs, hsound⟩
  refine ⟨file, s, hsite, rfl, (fileOf?_eq_some (h.nodup_files hp)).2 ⟨hfile, ?_⟩⟩
  rw [← hsite.showing.scopeName]
  exact scopeName_of_named hn

/-- What an include refers to is the list of the group that its record denotes. -/
theorem Linked.denoted_of_refers (hs : Site files spans a m file s) {p : Placed} {id : NodeId}
    (hshow : s.grammar.ShowsAt file m p id) {reference : Reference}
    (hr : Refers (spans.map Span.grammar) config.baseScope m s.grammar (some s.grammar.repository) reference list) :
    ∃ group, p.denoted? files config.baseScope reference = some group ∧ HostsGroup files spans a m group list := by
  have hroot : ∀ scope, (named (spans.map Span.grammar) scope).map Grammar.root = some list →
      ∃ group, (fileOf? files scope).map .root = some group ∧ HostsGroup files spans a m group list := by
    intro scope hl
    obtain ⟨g, hg, rfl⟩ := Option.map_eq_some_iff.1 hl
    obtain ⟨file', t, ht, rfl, hfile⟩ := h.site_of_named hp hg
    exact ⟨.root file', by rw [hfile, Option.map_some], file', t, ht, .root⟩
  have hown : ∃ group, some (Group.root p.file) = some group ∧ HostsGroup files spans a m group s.grammar.root :=
    ⟨.root file, by rw [hshow.file_eq], file, s, hs, .root⟩
  cases hr with
  | @entry name list hl =>
    rw [Registry.entryTarget_self] at hl
    obtain ⟨group, hgroup, hhost⟩ := hs.showing.hosts_lookup hl
    refine ⟨group, ?_, file, s, hs, hhost⟩
    unfold Placed.denoted?
    rw [hshow.file_eq, hshow.repositories_eq]
    exact hgroup
  | self => exact hown
  | between hc ht =>
    cases reference with
    | entry name => cases hc
    | self => cases hc
    | base =>
      simp only [Placed.denoted?]
      cases hbase : config.baseScope with
      | none =>
        simp only [hbase, target, Except.ok.injEq, Option.some.injEq] at ht
        exact ht ▸ hown
      | some scope =>
        simp only [hbase, target, Except.ok.injEq] at ht
        exact hroot scope ht
    | foreign scope =>
      simp only [target, Except.ok.injEq] at ht
      exact hroot scope ht
    | foreignEntry scope name =>
      cases hn : named (spans.map Span.grammar) scope with
      | none => simp [target, hn] at ht
      | some g =>
        simp only [target, hn] at ht
        obtain ⟨file', t, hsite, rfl, hfile⟩ := h.site_of_named hp hn
        obtain ⟨group, hgroup, hhost⟩ := hsite.showing.hosts_lookup ht
        exact ⟨group, by simp only [Placed.denoted?, hfile, hgroup], file', t, hsite, hhost⟩

/-- A node that was built for a record renders it when the set is linked. -/
theorem Linked.rendersRecord (hs : Site files spans a m file s) {p : Placed} {id : NodeId}
    (hshow : s.grammar.ShowsAt file m p id) (hid : s.region.nodes id) :
    RendersRecord files config.baseScope b (HostsGroup files spans a m) p id := by
  obtain ⟨node, hn, hname, hrest⟩ := hshow.node
  cases href : p.record.reference with
  | none =>
    rw [href] at hrest
    refine .rule href ?_
    rcases h.resolves.node id node hn with hb | ⟨target, -, -, hb⟩
    · exact ⟨node, hb, hrest.1, hname, hrest.2⟩
    · exact ⟨_, hb, by simpa using hrest.1, by simpa using hname, by simpa using hrest.2⟩
  | some text =>
    rw [href] at hrest
    obtain ⟨reference, hparse, hbody⟩ := hrest
    obtain ⟨name, rule, parent, body⟩ := node
    cases hbody
    have hpending : m.pending? id = some reference := pending?_of_inclusion (inclusion_of_node hn)
    have hreg : id ∈ s.grammar.registry.includes := by
      refine (h.registered_or_rule hs.span_mem hid).resolve_right ?_
      intro hrule
      obtain ⟨node, hn', hr⟩ := h.resolves.isRule.1 hrule
      rw [hn, Except.ok.injEq] at hn'
      subst hn'
      cases hr
    have hlinked : s.grammar ∈ set.grammars := by
      rw [(h.all hp).2.2]
      exact List.mem_map_of_mem hs.span_mem
    rcases h.resolves.node id _ hn with hb | ⟨target, -, -, hb⟩
    · have hnone := h.settled _ hlinked id hreg
      rw [pending?_of_inclusion (inclusion_of_node hb)] at hnone
      cases hnone
    · have ht : b.StandsFor id target := ⟨_, inclusion_of_node hb, rfl⟩
      obtain ⟨text', declared, reference', hi, hparse', -, gs, -, hall, hrefers⟩ := h.refers hs.span_mem hreg ht
      rw [inclusion_of_node hb] at hi
      cases hi
      cases hparse.symm.trans hparse'
      rw [hall hp, (h.all hp).2.1] at hrefers
      obtain ⟨group, hgroup, hhost⟩ := h.denoted_of_refers hp hs hshow hrefers
      exact .inclusion href hparse hgroup hhost ht

/-- The arena of a set that was linked under `abort` renders the files. -/
theorem Linked.renders :
    Renders files config.baseScope b (ShowsRecord files spans a m) (HostsGroup files spans a m) where
  record := by
    rintro p id ⟨file, s, hs, hshow, hid⟩
    exact h.rendersRecord hp hs hshow hid
  items := by
    rintro group list ⟨file, s, hs, hhost⟩
    obtain ⟨ids, hids, hshow⟩ := hhost.items hs.showing
    have hin := hs.sound.closedIn.list list ids hids (hs.lists_hosts hhost)
    obtain ⟨hlen, hzip⟩ := List.forall₂_iff_zip.1 hshow
    exact ⟨ids, (h.resolves.list list).trans hids, List.forall₂_iff_zip.2 ⟨hlen, fun hz =>
      ⟨file, s, hs, hzip hz, hin _ (List.of_mem_zip hz).2⟩⟩⟩
  eq_iff := fun _ _ _ _ hh hh' => h.hosts_eq_iff hp hh hh'

end

/-- A walk through the root of a grammar yields the rules of just the records to which the root of a file expands. -/
def WalksAs (files : List GrammarFile) (base : Option String) (b : Arena) (file : GrammarFile) (g : Grammar) : Prop :=
  ∃ ids records, b.concretePatterns g.root = .ok ids ∧ List.Forall₂ b.ShowsRule records ids ∧
    ∀ out, Expands files base [.root file] (Group.root file).items out ↔ out = records

/-- When linking under `abort` gives a set, in whatever session, there is a grammar for each file, in order, which has the scope name
of the file and is walked as the file expands. -/
theorem link_expands {session : Session} (h : session.Reachable) {config : LinkConfig} (hp : config.onFailure = .abort)
    {files : List GrammarFile} {set : LinkedSet} {b : Arena}
    (hrun : (link config files).start session.arena = .ok (.ok set, b)) :
    List.Forall₂ (fun file g => g.scopeName = file.scopeName ∧ WalksAs files config.baseScope b file g) files set.grammars := by
  obtain ⟨-, -, -, hset, -⟩ := LinkM.outcome (link_ok config files h.sound.closed h.sound.nested) hrun
  obtain ⟨spans, m, unique, resolved, hl⟩ := hset set rfl
  rw [(hl.all hp).2.2, List.forall₂_map_right_iff]
  refine (hl.sites hp).imp fun file s hs => ⟨hs.showing.scopeName, ?_⟩
  obtain ⟨ids, records, hwalk, hexpands, hrules⟩ := (hl.renders hp).concretePatterns ⟨file, s, hs, .root⟩
  exact ⟨ids, records, hwalk, hrules, fun out => ⟨fun hout => hout.unique hexpands, fun heq => heq ▸ hexpands⟩⟩

/-- Two grammars that include each other, the second one by the base of the set. -/
def embedding : List GrammarFile :=
  [{ scopeName := "a", patterns := [.including "#x", .including "b"],
      repository := [("x", .group [.matching "r" "1", .including "$self"])] },
    { scopeName := "b", patterns := [.including "$base", .matching "s" "2"] }]

/-- The arena in which these files are linked. -/
def embedded : Arena where
  nodes := #[{ name := some "r", rule := { matchExpr := some "1" }, body := .rule ⟨0⟩ },
    { body := .inclusion ⟨"$self", some ⟨0⟩, .resolved ⟨2⟩⟩ }, { body := .inclusion ⟨"#x", some ⟨0⟩, .resolved ⟨1⟩⟩ },
    { body := .inclusion ⟨"b", some ⟨0⟩, .resolved ⟨4⟩⟩ }, { body := .inclusion ⟨"$base", some ⟨1⟩, .resolved ⟨2⟩⟩ },
    { name := some "s", rule := { matchExpr := some "2" }, body := .rule ⟨3⟩ }]
  lists := #[[], [⟨0⟩, ⟨1⟩], [⟨2⟩, ⟨3⟩], [], [⟨4⟩, ⟨5⟩]]
  repositories := #[{ entries := [("x", ⟨1⟩)] }, {}]

/-- The grammars of these files. -/
def embeddedSet : LinkedSet where
  grammars := [{ scopeName := "a", name := none, root := ⟨2⟩, repository := ⟨0⟩, registry := ⟨"a", [⟨1⟩, ⟨2⟩, ⟨3⟩]⟩ },
    { scopeName := "b", name := none, root := ⟨4⟩, repository := ⟨1⟩, registry := ⟨"b", [⟨4⟩]⟩ }]
  report := { passes := 1, resolved := 2 }

/-- The two grammars that include each other expand to what their files say. -/
theorem link_expands_embedding : Session.Reachable {} ∧
    (link { baseScope := some "a" } embedding).start {} = .ok (.ok embeddedSet, embedded) ∧
      List.Forall₂ (fun file g => g.scopeName = file.scopeName ∧ WalksAs embedding (some "a") embedded file g) embedding
        embeddedSet.grammars := by
  have hrun : (link { baseScope := some "a" } embedding).start {} = .ok (.ok embeddedSet, embedded) := by cbv
  exact ⟨.empty, hrun, link_expands .empty rfl hrun⟩

end Linker

end GrammarLinker
