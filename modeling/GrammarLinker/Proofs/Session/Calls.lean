import GrammarLinker.Proofs.Session

/-!
# Sequences of calls

What a caller can do with an arena is to build, resolve, copy and link, in any order and with errors or without (`Session.Action`). The
arena that linking leaves behind, as the one that local resolution does, is reached by the moves from which they are put together
(`Session.Action.moves`): files are built, and references of the grammars that were built are resolved. So what all moves keep all calls
keep.
-/

namespace GrammarLinker

open Arena InterGrammar

namespace Session

/-- What a move does: objects are added, with grammars that register includes that wait among them, or registered includes are
resolved. -/
inductive Change (s : Session) : Session → Prop where
  | grown (gs : List Grammar) {b : Arena} (hx : s.arena.Extends b)
      (hnew : ∀ g ∈ gs, ∀ id ∈ g.registry.includes, (b.since s.arena).nodes id ∧ (b.pending? id).isSome = true) :
      Change s ⟨b, gs ++ s.grammars⟩
  | resolved {P : NodeId → ListId → Prop} {b : Arena} (hr : ResolvesBy P s.arena b)
      (hP : ∀ id list, P id list → ∃ g ∈ s.grammars, id ∈ g.registry.includes) : Change s { s with arena := b }

variable {roots : Session → ListId → Prop} {s t : Session}

/-- A move adds to a sound session or resolves includes of its grammars, and does nothing else. -/
theorem Move.change (hm : Move roots s t) (h : Sound s) : Change s t := by
  cases hm with
  | @built file g b hrun =>
    obtain ⟨hx, -, -, hg, -⟩ := LinkM.outcome (Grammar.build_ok file s.arena) hrun
    exact .grown [g] hx fun k hk id hid => (hg g rfl).mem_includes.1 (List.mem_singleton.1 hk ▸ hid)
  | @unbuilt file e b hrun =>
    obtain ⟨hx, -⟩ := LinkM.outcome (Grammar.build_ok file s.arena) hrun
    exact .grown [] hx nofun
  | @entries g repository answer b hg hr hrun =>
    obtain ⟨hb, -⟩ := LinkM.outcome (h.entries hg hr) hrun
    exact .resolved hb fun id _ hid => ⟨g, hg, hid.1⟩
  | @self g root answer b hg hroot hrun =>
    obtain ⟨hb, -⟩ := LinkM.outcome (h.self hg root) hrun
    exact .resolved hb fun id _ hid => ⟨g, hg, hid.1⟩
  | @between gs base answer b hnd hgs hrun =>
    obtain ⟨hb, -⟩ := LinkM.outcome (h.between hnd hgs base) hrun
    refine .resolved hb fun id list he => ?_
    obtain ⟨⟨g, hg, hid, -⟩, -⟩ := he
    exact ⟨g, hgs g hg, hid⟩
  | @copied g copy b hg hrun =>
    obtain ⟨φ, hx, -, hcopied⟩ := h.copiedBy hg hrun
    have hreach := (h.held g hg).reach_within h.closed
    exact .grown [copy] hx fun k hk id hid => (hcopied.mem_includes hreach).1 (List.mem_singleton.1 hk ▸ hid)

/-! ## What calls are put together from -/

/-- Local resolution resolves names and then `$self`. -/
theorem resolveLocal_eq_ok {g : Grammar} {a b : Arena} {answer : Except LinkError Unit}
    (h : g.resolveLocal.start a = .ok (answer, b)) : ∃ entries m self, g.resolveEntries.start a = .ok (entries, m) ∧
      g.resolveSelf.start m = .ok (self, b) := by
  obtain ⟨entries, m, hentries, h⟩ := LinkM.start_attempt_bind_eq_ok h
  rcases LinkM.start_bind_eq_ok h with ⟨e, hself, -⟩ | ⟨n, b', hself, hrest⟩
  · exact ⟨entries, m, _, hentries, hself⟩
  · refine ⟨entries, m, .ok n, hentries, ?_⟩
    cases entries <;> cases hrest <;> exact hself

/-- Moves lead from a session to an arena, and grammars are there that a caller may go on with. -/
def Leads (roots : Session → ListId → Prop) (s : Session) (b : Arena) (gs : List Grammar) : Prop :=
  ∃ all, Moves roots s ⟨b, all⟩ ∧ s.grammars ⊆ all ∧ gs ⊆ all

/-- A session leads to itself. -/
theorem Leads.refl {gs : List Grammar} (h : gs ⊆ s.grammars) : Leads roots s s.arena gs :=
  ⟨s.grammars, .refl, fun _ h => h, h⟩

section

variable (hadm : Admits roots)
include hadm

/-- Local resolution is made of two moves. -/
theorem leads_own (h : Sound s) {g : Grammar} {answer : Except LinkError Unit} {b : Arena} (hg : g ∈ s.grammars)
    (hrun : g.resolveLocal.start s.arena = .ok (answer, b)) : Leads roots s b [] := by
  obtain ⟨entries, m, self, hentries, hself⟩ := resolveLocal_eq_ok hrun
  have hm : Move roots s { s with arena := m } := .entries hg (h.held g hg).repository hentries
  have hself' : Move roots { s with arena := m } { s with arena := b } := .self hg (hadm.own _ (hm.sound hadm h) g hg) hself
  exact ⟨s.grammars, (Relation.ReflTransGen.single hm).tail hself', fun _ h => h, List.nil_subset _⟩

/-- Items that are examined one after the other lead on together, if each of them does by itself. -/
theorem leads_sift {ι : Type} {policy : FailurePolicy} {scope : ι → String} {examine : ι → LinkM Arena Grammar}
    (needs : ι → List Grammar)
    (hexamine : ∀ item (s : Session) (found : Except LinkError Grammar) (m : Arena), Sound s → needs item ⊆ s.grammars →
      (examine item).start s.arena = .ok (found, m) → ∃ gs, Leads roots s m gs ∧ ∀ g, found = .ok g → g ∈ gs)
    (items : List ι) (h : Sound s) (hitems : ∀ item ∈ items, needs item ⊆ s.grammars)
    {answer : Except LinkError (List Grammar × List DroppedGrammar)} {b : Arena}
    (hrun : (Linker.sift policy scope examine items).start s.arena = .ok (answer, b)) :
    ∃ gs, Leads roots s b gs ∧ ∀ kept dropped, answer = .ok (kept, dropped) → kept ⊆ gs := by
  induction items generalizing s answer with
  | nil =>
    cases hrun
    refine ⟨[], .refl (List.nil_subset _), fun kept dropped hkept => ?_⟩
    cases hkept
    exact List.nil_subset _
  | cons item rest ih =>
    obtain ⟨found, m, hfound, hcases⟩ := Linker.sift_cons_eq_ok hrun
    obtain ⟨gs, hlead, hgs⟩ := hexamine item s found m h (hitems item List.mem_cons_self) hfound
    rcases hcases with ⟨rfl, e, rfl⟩ | ⟨answer', hrest, hkept⟩
    · exact ⟨gs, hlead, fun _ _ h => by cases h⟩
    · obtain ⟨all, hm, hold, hall⟩ := hlead
      obtain ⟨gs', ⟨all', hm', hold', hall'⟩, hgs'⟩ := ih (Moves.sound hadm hm h)
        (fun i hi g hg => hold (hitems i (List.mem_cons_of_mem _ hi) hg)) hrest
      refine ⟨gs' ++ gs, ⟨all', hm.trans hm', fun g hg => hold' (hold hg),
        List.append_subset.2 ⟨hall', fun g hg => hold' (hall hg)⟩⟩, fun kept dropped hanswer => ?_⟩
      obtain ⟨kept', dropped', hanswer', hvalues⟩ := hkept kept dropped hanswer
      intro g hg
      rcases hvalues g hg with hfirst | hlater
      · exact List.mem_append_right _ (hgs g hfirst)
      · exact List.mem_append_left _ (hgs' kept' dropped' hanswer' hlater)

/-- The rounds in which references between grammars are resolved. -/
theorem leads_resolveRemaining (config : LinkConfig) (gs : List Grammar) (dropped : List DroppedGrammar) (h : Sound s)
    (hnd : gs.Nodup) (hgs : gs ⊆ s.grammars) {answer : Except LinkError LinkedSet} {b : Arena}
    (hrun : (Linker.resolveRemaining config gs dropped).start s.arena = .ok (answer, b)) :
    Leads roots s b [] ∧ ∀ set, answer = .ok set → set.grammars ⊆ gs := by
  obtain ⟨a, all⟩ := s
  have hr : Linker.Rounds config gs dropped a answer b := Linker.rounds_of_start hrun
  clear hrun
  induction hr with
  | @linked gs dropped report a b hresolve =>
    refine ⟨⟨all, .single (.between hnd (fun g hg => hgs hg) hresolve), fun _ h => h, List.nil_subset _⟩, fun set hset => ?_⟩
    cases hset
    exact fun _ h => h
  | failed hresolve hend =>
    exact ⟨⟨all, .single (.between hnd (fun g hg => hgs hg) hresolve), fun _ h => h, List.nil_subset _⟩, fun _ h => by cases h⟩
  | @again gs dropped e answer a m b hresolve hpolicy hblamed hr ih =>
    have hm : Move roots ⟨a, all⟩ ⟨m, all⟩ := .between hnd (fun g hg => hgs hg) hresolve
    have hsub := Linker.spared_sublist e gs
    obtain ⟨⟨all', hm', hold, -⟩, hset⟩ := ih (hnd.sublist hsub) (hm.sound hadm h) fun g hg => hgs (hsub.subset hg)
    exact ⟨⟨all', hm'.head hm, hold, List.nil_subset _⟩, fun set hanswer g hg => hsub.subset (hset set hanswer hg)⟩

/-- Building files one after the other is made of moves. -/
theorem leads_sift_build {policy : FailurePolicy} {files : List GrammarFile} (h : Sound s)
    {built : Except LinkError (List Grammar × List DroppedGrammar)} {b : Arena}
    (hrun : (Linker.sift policy GrammarFile.scopeName Grammar.build files).start s.arena = .ok (built, b)) :
    ∃ gs, Leads roots s b gs ∧ ∀ kept dropped, built = .ok (kept, dropped) → kept ⊆ gs := by
  refine leads_sift hadm (fun _ => []) (fun file s found m _ _ hfound => ?_) files h (fun _ _ => List.nil_subset _) hrun
  cases found with
  | error e => exact ⟨[], ⟨s.grammars, .single (.unbuilt hfound), fun _ h => h, List.nil_subset _⟩, fun _ h => by cases h⟩
  | ok g =>
    refine ⟨[g], ⟨g :: s.grammars, .single (.built hfound), List.subset_cons_self _ _, ?_⟩, fun k hk => ?_⟩
    · exact fun k hk => List.mem_singleton.1 hk ▸ List.mem_cons_self
    · exact List.mem_singleton.2 (Except.ok.inj hk).symm

/-- So is resolving grammars locally one after the other. -/
theorem leads_sift_localized {policy : FailurePolicy} {gs : List Grammar} (h : Sound s) (hgs : gs ⊆ s.grammars)
    {own : Except LinkError (List Grammar × List DroppedGrammar)} {b : Arena}
    (hrun : (Linker.sift policy Grammar.scopeName Linker.localized gs).start s.arena = .ok (own, b)) : Leads roots s b [] := by
  have hlead := leads_sift hadm (fun g => [g]) (fun g s found m hs hg hfound => ?_) gs h
    (fun g hg k hk => hgs (List.mem_singleton.1 hk ▸ hg)) hrun
  · obtain ⟨gs', ⟨all, hm, hold, -⟩, -⟩ := hlead
    exact ⟨all, hm, hold, List.nil_subset _⟩
  · have hmem : g ∈ s.grammars := hg List.mem_cons_self
    rcases LinkM.start_bind_eq_ok hfound with ⟨e, hlocal, rfl⟩ | ⟨u, n, hlocal, hrest⟩
    · exact ⟨[], leads_own hadm hs hmem hlocal, fun _ h => by cases h⟩
    · cases hrest
      obtain ⟨all, hm, hold, -⟩ := leads_own hadm hs hmem hlocal
      exact ⟨[g], ⟨all, hm, hold, fun k hk => List.mem_singleton.1 hk ▸ hold hmem⟩,
        fun k hk => List.mem_singleton.2 (Except.ok.inj hk).symm⟩

/-- Linking is building files and resolving references of the grammars that were built. -/
theorem leads_link {config : LinkConfig} {files : List GrammarFile} (h : Sound s) {answer : Except LinkError LinkedSet} {b : Arena}
    (hrun : (Linker.link config files).start s.arena = .ok (answer, b)) :
    ∃ gs, Leads roots s b gs ∧ ∀ set, answer = .ok set → set.grammars ⊆ gs := by
  unfold Linker.link at hrun
  rcases LinkM.start_bind_eq_ok hrun with ⟨e, hbuilt, rfl⟩ | ⟨⟨built, unbuilt⟩, m, hbuilt, hrun⟩
  · obtain ⟨gs, hlead, -⟩ := leads_sift_build hadm h hbuilt
    exact ⟨gs, hlead, fun _ h => by cases h⟩
  obtain ⟨gs, ⟨all, hm, hold, hall⟩, hkept⟩ := leads_sift_build hadm h hbuilt
  have hsound := Moves.sound hadm hm h
  obtain ⟨checked, hcheck, hunique⟩ := Linker.sift_checkScope_ok config.onFailure built [] m
  rcases LinkM.start_bind_eq_ok hrun with ⟨e, hchecked, rfl⟩ | ⟨⟨unique, repeated⟩, m', hchecked, hrun⟩
  · obtain ⟨-, rfl⟩ := Prod.mk.inj (Except.ok.inj (hcheck.symm.trans hchecked))
    exact ⟨gs, ⟨all, hm, hold, hall⟩, fun _ h => by cases h⟩
  obtain ⟨rfl, rfl⟩ := Prod.mk.inj (Except.ok.inj (hcheck.symm.trans hchecked))
  obtain ⟨hsub, hnames, -⟩ := hunique unique repeated rfl
  have hunique : unique ⊆ all := fun g hg => hall (hkept built unbuilt rfl (hsub.subset hg))
  rcases LinkM.start_bind_eq_ok hrun with ⟨e, hown, rfl⟩ | ⟨⟨resolved, unresolved⟩, n, hown, hrun⟩
  · obtain ⟨all', hm', hold', -⟩ := leads_sift_localized hadm hsound hunique hown
    exact ⟨[], ⟨all', hm.trans hm', fun g hg => hold' (hold hg), List.nil_subset _⟩, fun _ h => by cases h⟩
  obtain ⟨all', hm', hold', -⟩ := leads_sift_localized hadm hsound hunique hown
  obtain ⟨-, hlocal⟩ := LinkM.outcome (Linker.sift_localized_ok config.onFailure unique hsound.closed
    (hsound.nested.finiteChains hsound.closed) fun g hg => hsound.held g (hunique hg)) hown
  obtain ⟨hsub', -⟩ := hlocal resolved unresolved rfl
  have hresolved : resolved ⊆ all' := fun g hg => hold' (hunique (hsub'.subset hg))
  obtain ⟨⟨all'', hm'', hold'', -⟩, hset⟩ := leads_resolveRemaining hadm config resolved (unbuilt ++ repeated ++ unresolved)
    (Moves.sound hadm hm' hsound) (hnames.of_map.sublist hsub') hresolved hrun
  exact ⟨resolved, ⟨all'', (hm.trans hm').trans hm'', fun g hg => hold'' (hold' (hold hg)), fun g hg => hold'' (hresolved hg)⟩,
    hset⟩

/-- A call leads to an arena that moves lead to, and to grammars that are there then. -/
theorem Action.moves (hc : Action roots s t) (h : Sound s) : ∃ all, Moves roots s ⟨t.arena, all⟩ ∧ t.grammars ⊆ all := by
  cases hc with
  | move hm => exact ⟨t.grammars, .single hm, fun _ h => h⟩
  | own hg hrun =>
    obtain ⟨all, hm, hold, -⟩ := leads_own hadm h hg hrun
    exact ⟨all, hm, hold⟩
  | @linked config files set b hrun =>
    obtain ⟨gs, ⟨all, hm, hold, hall⟩, hset⟩ := leads_link hadm h hrun
    exact ⟨all, hm, List.append_subset.2 ⟨fun g hg => hall (hset set rfl hg), hold⟩⟩
  | unlinked hrun =>
    obtain ⟨gs, ⟨all, hm, hold, -⟩, -⟩ := leads_link hadm h hrun
    exact ⟨all, hm, hold⟩

/-- Calls one after the other lead from a sound session to a sound one. -/
theorem Actions.sound (hc : Actions roots s t) (h : Sound s) : Sound t := by
  induction hc with
  | refl => exact h
  | tail _ hc ih => exact hc.sound hadm ih

/-- Every session that calls lead to is sound. -/
theorem Called.sound (h : Called roots s) : Sound s := by
  induction h with
  | empty => exact sound_empty
  | call _ hc ih => exact hc.sound hadm ih

section

variable {I : Session → Prop} (hmove : ∀ s t, Sound s → I s → Move roots s t → I t)
  (hfewer : ∀ (b : Arena) (gs all : List Grammar), gs ⊆ all → I ⟨b, all⟩ → I ⟨b, gs⟩)
include hmove hfewer

/-- What every move keeps a call keeps, if fewer grammars do not spoil it. -/
theorem Action.keeps (hc : Action roots s t) (h : Sound s) (hI : I s) : I t := by
  have hmoves : ∀ u, Moves roots s u → Sound u ∧ I u := by
    intro u hm
    induction hm with
    | refl => exact ⟨h, hI⟩
    | tail _ hm ih => exact ⟨hm.sound hadm ih.1, hmove _ _ ih.1 ih.2 hm⟩
  obtain ⟨all, hm, hsub⟩ := hc.moves hadm h
  exact hfewer t.arena t.grammars all hsub (hmoves _ hm).2

/-- So do all calls one after the other. -/
theorem Actions.keeps (hc : Actions roots s t) (h : Sound s) (hI : I s) : I t := by
  induction hc with
  | refl => exact hI
  | tail hcs hc ih => exact hc.keeps hadm hmove hfewer (Actions.sound hadm hcs h) ih

/-- What every move keeps holds after all calls if it holds at the start. -/
theorem Called.induction (hempty : I {}) (h : Called roots s) : I s := by
  induction h with
  | empty => exact hempty
  | call h hc ih => exact hc.keeps hadm hmove hfewer (h.sound hadm) ih

end

end

/-- Grammars that include themselves and each other. -/
def ringFiles : List GrammarFile :=
  [{ scopeName := "a", patterns := [.group [.including "$self", .including "b"], .matching "m" "1"] },
    { scopeName := "b", patterns := [.including "a", .group [.including "$self"]] }]

/-- A file that is not built to its end. -/
def brokenFile : GrammarFile := { scopeName := "c", patterns := [.group [.matching "n" "2", .including "#"]] }

/-- What the build leaves behind. -/
def leftover : Arena where
  nodes := #[{ body := .rule ⟨0⟩ }, { name := some "n", rule := { matchExpr := some "2" }, parent := some ⟨0⟩, body := .rule ⟨1⟩ }]
  lists := #[[], []]
  repositories := #[{}]

/-- The grammars, linked into that. -/
def ringSet : LinkedSet where
  grammars := [{ scopeName := "a", name := none, root := ⟨4⟩, repository := ⟨1⟩, registry := ⟨"a", [⟨3⟩, ⟨4⟩]⟩ },
    { scopeName := "b", name := none, root := ⟨6⟩, repository := ⟨2⟩, registry := ⟨"b", [⟨6⟩, ⟨8⟩]⟩ }]
  report := { passes := 1, resolved := 2 }

/-- The arena in which they are linked. -/
def ring : Arena where
  nodes := #[{ body := .rule ⟨0⟩ },
    { name := some "n", rule := { matchExpr := some "2" }, parent := some ⟨0⟩, body := .rule ⟨1⟩ },
    { body := .rule ⟨2⟩ },
    { parent := some ⟨2⟩, body := .inclusion ⟨"$self", some ⟨1⟩, .resolved ⟨4⟩⟩ },
    { parent := some ⟨2⟩, body := .inclusion ⟨"b", some ⟨1⟩, .resolved ⟨6⟩⟩ },
    { name := some "m", rule := { matchExpr := some "1" }, body := .rule ⟨3⟩ },
    { body := .inclusion ⟨"a", some ⟨2⟩, .resolved ⟨4⟩⟩ },
    { body := .rule ⟨5⟩ },
    { parent := some ⟨7⟩, body := .inclusion ⟨"$self", some ⟨2⟩, .resolved ⟨6⟩⟩ }]
  lists := #[[], [], [⟨3⟩, ⟨4⟩], [], [⟨2⟩, ⟨5⟩], [⟨8⟩], [⟨6⟩, ⟨7⟩]]
  repositories := #[{}, {}, {}]

/-- The ring is linked after a build that fails. -/
theorem called_ring_linked (roots : Session → ListId → Prop) : Called roots ⟨ring, ringSet.grammars⟩ := by
  have hbroken : (Grammar.build brokenFile).start {} = .ok (.error (.malformedReference "c" ⟨"#", .missingKey⟩), leftover) := by cbv
  have hlink : (Linker.link {} ringFiles).start leftover = .ok (.ok ringSet, ring) := by cbv
  have hfirst : Called roots ⟨leftover, []⟩ := Called.empty.call (.move (.unbuilt hbroken))
  have hsecond : Action roots ⟨leftover, []⟩ ⟨ring, ringSet.grammars ++ []⟩ := .linked hlink
  exact hfirst.call (List.append_nil ringSet.grammars ▸ hsecond)

/-- A build fails, the grammars are linked, and the first one is copied. -/
theorem called_ring (roots : Session → ListId → Prop) : ∃ s, Called roots s ∧ s.grammars.map Grammar.scopeName = ["a", "a", "b"] ∧
    s.arena.nodes.toList.filterMap (fun node => node.inclusion?.map Include.target?) =
      [some ⟨4⟩, some ⟨6⟩, some ⟨4⟩, some ⟨6⟩, some ⟨7⟩, some ⟨10⟩, some ⟨7⟩, some ⟨10⟩] := by
  have hread : (ringSet.grammars[0].copy ring).map (fun r =>
      (r.1.scopeName, r.2.nodes.toList.filterMap fun node => node.inclusion?.map Include.target?)) =
      .ok ("a", [some ⟨4⟩, some ⟨6⟩, some ⟨4⟩, some ⟨6⟩, some ⟨7⟩, some ⟨10⟩, some ⟨7⟩, some ⟨10⟩]) := by decide +kernel
  cases hcopy : ringSet.grammars[0].copy ring with
  | error fault =>
    rw [hcopy] at hread
    cases hread
  | ok r =>
    rw [hcopy] at hread
    obtain ⟨hname, htargets⟩ := Prod.mk.inj (Except.ok.inj hread)
    refine ⟨⟨r.2, r.1 :: ringSet.grammars⟩, (called_ring_linked roots).call (.move (.copied List.mem_cons_self hcopy)), ?_, htargets⟩
    rw [List.map_cons, hname]
    rfl

end Session

end GrammarLinker
