import GrammarLinker.Proofs.LinkedSet.Accounting
import GrammarLinker.Proofs.LinkedSet.Due

/-!
# Which grammars survive

Under `dropGrammar` the last step of linking is taken again as long as it fails, each time without the grammars that the error blames.
Which of them that are depends on the order in which they are listed. But the first run resolves whatever can be resolved, so the later
ones resolve nothing (`Linker.resolve_stuck`), and a grammar is blamed only while an include of it waits (`InterGrammar.Ends.blamed`).
So the grammars that come out are those that were resolved after the first run (`Linker.link_sieved`), whichever were blamed on the way.

What was resolved by then can be said of the arena in which the grammars were built (`Linker.Sieved.not_pending_iff`).
-/

namespace GrammarLinker

open Arena InterGrammar

/-! ## Grammars that find what they name -/

/-- Every pending include of a grammar that is not for another grammar refers to a list. -/
def Grammar.FindsOwn (g : Grammar) (a : Arena) : Prop :=
  ∀ id ∈ g.registry.includes, ∀ reference, a.pending? id = some reference → reference.isCrossGrammar = false →
    ∃ list, g.Own a id list

/-- What a grammar finds does not change while others are resolved. -/
theorem Grammar.findsOwn_of_resolvesBy {g : Grammar} {P : NodeId → ListId → Prop} {a b : Arena} (hr : ResolvesBy P a b)
    (hP : ∀ id ∈ g.registry.includes, ∀ list, ¬P id list) : g.FindsOwn b ↔ g.FindsOwn a := by
  have hp : ∀ id ∈ g.registry.includes, ∀ reference, a.pending? id = some reference → b.pending? id = some reference :=
    fun id hid reference hpa => (hr.pending_or hpa).resolve_right fun ⟨t, ht⟩ => hP id hid t ht
  constructor
  · intro h id hid reference hpa hcross
    obtain ⟨list, ho⟩ := h id hid reference (hp id hid reference hpa) hcross
    exact ⟨list, Linker.own_of_resolvesBy hr ho⟩
  · intro h id hid reference hpb hcross
    obtain ⟨list, ho⟩ := h id hid reference (hr.node_of_pending hpb).2 hcross
    exact ⟨list, Linker.own_of_pending hr hpb ho⟩

/-- Local resolution has no error exactly when the grammar finds what it names. -/
theorem Grammar.localized_iff_findsOwn {g : Grammar} {a b : Arena} (hr : ResolvesBy (g.Own a) a b)
    (hall : ∀ id list, g.Own a id list → b.pending? id = none) : Linker.Localized g b ↔ g.FindsOwn a := by
  constructor
  · intro h id hid reference hp hcross
    refine (hr.pending_or hp).resolve_left fun hpb => ?_
    rw [h id hid reference hpb] at hcross
    cases hcross
  · intro h id hid reference hpb
    refine Bool.eq_true_of_not_eq_false fun hcross => ?_
    obtain ⟨list, ho⟩ := h id hid reference (hr.node_of_pending hpb).2 hcross
    rw [hall id list ho] at hpb
    cases hpb

/-- A grammar is resolved when none of its registered includes is pending. -/
theorem Registry.isResolved_iff {r : Registry} {a : Arena} (h : ∀ id ∈ r.includes, a.HasNode id) :
    r.isResolved a = .ok true ↔ ∀ id ∈ r.includes, a.pending? id = none := by
  refine ⟨fun hres => ?_, isResolved_ok h⟩
  unfold isResolved at hres
  generalize r.includes = ids at h hres
  induction ids with
  | nil => exact nofun
  | cons id rest ih =>
    have hrest := ih fun i hi => h i (List.mem_cons_of_mem _ hi)
    unfold nonePending inclusionKind at hres
    rcases (h id List.mem_cons_self).inclusion_cases with ⟨hi, hp⟩ | ⟨text, declared, target, hi, hp⟩ |
      ⟨text, declared, reference, hi, -⟩
    · rw [hi] at hres
      exact List.forall_mem_cons.2 ⟨hp, hrest hres⟩
    · rw [hi] at hres
      exact List.forall_mem_cons.2 ⟨hp, hrest hres⟩
    · rw [hi] at hres
      cases reference <;> cases hres

namespace Linker

variable {files : List GrammarFile} {gs hs ls passed : List Grammar} {base : Option String} {a m n b c : Arena}
  {answer : Except LinkError Report} {spans : List Span}

/-! ## The first three steps -/

/-- Where no two grammars have one scope name, all are kept. -/
theorem sift_checkScope_of_nodup {earlier : List String} (hnd : (gs.map Grammar.scopeName).Nodup)
    (hnew : ∀ g ∈ gs, g.scopeName ∉ earlier) (a : Arena) :
    (sift .dropGrammar (·.1.scopeName) checkScope (withEarlier earlier gs)).start a = .ok (.ok (gs, []), a) := by
  induction gs generalizing earlier with
  | nil => rfl
  | cons g rest ih =>
    obtain ⟨hg, hnd⟩ := List.nodup_cons.1 hnd
    have hrun : (checkScope (g, earlier)).start a = .ok (.ok g, a) := by
      unfold checkScope
      rw [if_neg (hnew g List.mem_cons_self)]
      rfl
    refine sift_cons_ok hrun (ih hnd fun k hk hmem => ?_)
    rcases List.mem_cons.1 hmem with heq | hmem
    · exact hg (heq ▸ List.mem_map_of_mem hk)
    · exact hnew k (List.mem_cons_of_mem _ hk) hmem

/-- The scope names of built grammars are those of their files. -/
theorem Spans.scopeNames {policy : FailurePolicy} (h : Spans policy files a spans b) :
    ((spans.map Span.grammar).map Grammar.scopeName).Sublist (files.map GrammarFile.scopeName) := by
  induction h with
  | done a => exact .slnil
  | built h _ ih =>
    rw [List.map_cons, List.map_cons, List.map_cons, (built_of_start h).2.showing.scopeName]
    exact ih.cons_cons _
  | failed _ _ _ ih => exact ih.cons _

theorem Spans.closed {policy : FailurePolicy} (h : Spans policy files a spans b) (hc : a.Closed) (hn : a.Nested) :
    b.Closed ∧ b.Nested := by
  induction h with
  | done a => exact ⟨hc, hn⟩
  | @built file rest g a m b spans h _ ih =>
    obtain ⟨-, hmc, hmn, -⟩ := LinkM.outcome (Grammar.build_ok file a) h
    exact ih (hmc hc) (hmn hn)
  | @failed file rest e a m b spans _ h _ ih =>
    obtain ⟨-, hmc, hmn, -⟩ := LinkM.outcome (Grammar.build_ok file a) h
    exact ih (hmc hc) (hmn hn)

/-- Grammars resolve their own references one after the other. Those without an error pass. -/
inductive Localizes : List Grammar → Arena → List Grammar → Arena → Prop where
  | done (a : Arena) : Localizes [] a [] a
  | passed {g : Grammar} {rest passed : List Grammar} {a m b : Arena} (h : g.resolveLocal.start a = .ok (.ok (), m))
      (hr : Localizes rest m passed b) : Localizes (g :: rest) a (g :: passed) b
  | failed {g : Grammar} {rest passed : List Grammar} {e : LinkError} {a m b : Arena}
      (h : g.resolveLocal.start a = .ok (.error e, m)) (hr : Localizes rest m passed b) : Localizes (g :: rest) a passed b

/-- The grammars that pass stand in the order of those that were tried. -/
theorem Localizes.sublist (h : Localizes gs a passed b) : passed.Sublist gs := by
  induction h with
  | done a => exact .slnil
  | passed _ _ ih => exact ih.cons_cons _
  | failed _ _ ih => exact ih.cons _

/-- The grammars that are kept are those that pass. -/
theorem localizes_of_sift {policy : FailurePolicy} {dropped : List DroppedGrammar}
    (hrun : (sift policy Grammar.scopeName localized gs).start a = .ok (.ok (passed, dropped), b)) : Localizes gs a passed b := by
  induction gs generalizing a b passed dropped with
  | nil =>
    cases hrun
    exact .done a
  | cons g rest ih =>
    unfold sift at hrun
    obtain ⟨value, m, hitem, hrun⟩ := LinkM.start_attempt_bind_eq_ok hrun
    rcases LinkM.start_bind_eq_ok hitem with ⟨e, he, rfl⟩ | ⟨u, m', hu, h⟩
    · cases policy with
      | abort => cases hrun
      | dropGrammar =>
        rcases LinkM.start_bind_eq_ok hrun with ⟨e', -, h⟩ | ⟨p, n, hrest, hrun⟩
        · cases h
        · cases hrun
          exact .failed he (ih hrest)
    · cases h
      rcases LinkM.start_bind_eq_ok hrun with ⟨e', -, h⟩ | ⟨p, n, hrest, hrun⟩
      · cases h
      · cases hrun
        exact .passed hu (ih hrest)

/-- What local resolution of one of some grammars does. -/
theorem resolveLocal_spec {g : Grammar} {found : Except LinkError Unit} (hready : Ready gs a) (hg : g ∈ gs)
    (hrun : g.resolveLocal.start a = .ok (found, b)) :
    ResolvesBy (g.Own a) a b ∧ (∀ id list, g.Own a id list → b.pending? id = none) ∧
      ((∃ u, found = .ok u) ↔ g.FindsOwn a) := by
  obtain ⟨hr, hall, hiff⟩ := LinkM.outcome
    (g.resolveLocal_ok hready.closed (hready.chains.finiteIn (.refl _)) (.refl _) (hready.held g hg).liesIn) hrun
  exact ⟨hr, hall, hiff.trans (Grammar.localized_iff_findsOwn hr hall)⟩

/-- What holds of the other grammars when one has resolved its own references holds of all. -/
theorem localizes_cons {g : Grammar} {found : Except LinkError Unit} (hready : Ready (g :: gs) a)
    (hrun : g.resolveLocal.start a = .ok (found, m))
    (hrest : Ready gs m → ResolvesBy (OwnOf gs m) m b ∧ OwnSettled gs b ∧ ∀ k ∈ gs, (k ∈ passed ↔ k.FindsOwn m)) :
    ResolvesBy (OwnOf (g :: gs) a) a b ∧ OwnSettled (g :: gs) b ∧ (∀ k ∈ gs, (k ∈ passed ↔ k.FindsOwn a)) ∧
      ((∃ u, found = .ok u) ↔ g.FindsOwn a) := by
  obtain ⟨hm, hall, hiff⟩ := resolveLocal_spec hready List.mem_cons_self hrun
  obtain ⟨hb, hown, hpass⟩ := hrest ((hready.of_resolvesBy (fun _ _ ho =>
    ho.hasList hready.closed (hready.held g List.mem_cons_self)) hm).sublist (List.sublist_cons_self g gs))
  refine ⟨(hm.mono fun id list ho => ⟨g, List.mem_cons_self, ho⟩).trans (hb.mono fun id list ⟨k, hk, ho⟩ =>
    ⟨k, List.mem_cons_of_mem _ hk, own_of_resolvesBy hm ho⟩), ownSettled_cons hm hall hb hown, fun k hk => ?_, hiff⟩
  -- what `g` resolves is registered by none of the others
  refine (hpass k hk).trans (Grammar.findsOwn_of_resolvesBy hm fun id hid list ho => ?_)
  exact (List.pairwise_cons.1 hready.disjoint).1 k hk ho.1 hid

/-- When grammars have resolved their own references, none of these is left, and those pass that find what they name. -/
theorem Localizes.spec (h : Localizes gs a passed b) (hready : Ready gs a) (hnd : gs.Nodup) :
    ResolvesBy (OwnOf gs a) a b ∧ OwnSettled gs b ∧ ∀ g ∈ gs, (g ∈ passed ↔ g.FindsOwn a) := by
  induction h with
  | done a => exact ⟨.refl _ a, ownSettled_nil a, nofun⟩
  | @passed g rest passed a m b h hr ih =>
    obtain ⟨hg, hnd⟩ := List.nodup_cons.1 hnd
    obtain ⟨hres, hown, hrest, hpass⟩ := localizes_cons hready h fun hm => ih hm hnd
    refine ⟨hres, hown, List.forall_mem_cons.2 ⟨⟨fun _ => hpass.1 ⟨(), rfl⟩, fun _ => List.mem_cons_self⟩, ?_⟩⟩
    intro k hk
    rw [List.mem_cons, ← hrest k hk]
    exact ⟨fun h => h.resolve_left fun heq => hg (heq ▸ hk), .inr⟩
  | @failed g rest passed e a m b h hr ih =>
    obtain ⟨hg, hnd⟩ := List.nodup_cons.1 hnd
    obtain ⟨hres, hown, hrest, hpass⟩ := localizes_cons hready h fun hm => ih hm hnd
    refine ⟨hres, hown, List.forall_mem_cons.2 ⟨⟨fun h => absurd (hr.sublist.subset h) hg, fun h => ?_⟩, hrest⟩⟩
    obtain ⟨u, hu⟩ := hpass.2 h
    cases hu

/-! ## Rounds of resolution -/

/-- Whether no include of a grammar waits for another one. -/
def settled (a : Arena) (g : Grammar) : Bool := g.registry.includes.all fun id => !a.awaits Reference.isCrossGrammar id

/-- A grammar is settled when none of its includes waits for another grammar. -/
theorem settled_eq_true {g : Grammar} :
    settled a g = true ↔ ∀ id ∈ g.registry.includes, a.awaits Reference.isCrossGrammar id = false := by
  simp [settled]

end Linker

namespace InterGrammar

variable {gs : List Grammar} {base : Option String} {a b : Arena} {e : LinkError}

/-- An include of a grammar that an error blames waits for another grammar. -/
theorem Ends.blamed (h : Ready gs a) (hnd : ((sites gs).map Prod.snd).Nodup) (hnames : (gs.map Grammar.scopeName).Nodup)
    (he : Ends gs base (Earns gs base a) a {} (.error e) b) {g : Grammar} (hg : g ∈ gs) (hblamed : g.scopeName ∈ e.scopes) :
    Linker.settled b g = false := by
  have hone : ∀ site ∈ sites gs, site.1.scopeName = g.scopeName → b.awaits Reference.isCrossGrammar site.2 = true →
      Linker.settled b g = false := by
    intro site hsite hscope hw
    obtain ⟨hsg, hid⟩ := mem_sites.1 hsite
    obtain rfl := List.inj_on_of_nodup_map hnames hsg hg hscope
    refine Bool.eq_false_iff.2 fun hs => ?_
    rw [Linker.settled_eq_true.1 hs site.2 hid] at hw
    cases hw
  have hreports := he.reports h hnd
  cases hreports with
  | @missing site text hleft hfirst htext =>
    obtain ⟨hsite, hw⟩ := mem_unsettled.1 (List.mem_of_find?_eq_some hfirst)
    have hd := List.find?_some hfirst
    have hwb := (unsettled_missing_iff h he.resolvesBy hsite).2 ⟨hw, Option.isNone_iff_eq_none.1 hd⟩
    exact hone site hsite (List.mem_singleton.1 hblamed).symm hwb.1
  | @cycle scopes references _ _ _ _ _ hscopes =>
    obtain ⟨site, hsite, hscope⟩ := (hscopes g.scopeName).1 hblamed
    obtain ⟨hmem, hw⟩ := mem_unsettled.1 hsite
    exact hone site hmem hscope hw

end InterGrammar

namespace Linker

variable {files : List GrammarFile} {gs hs ls passed : List Grammar} {base : Option String} {a m n b c : Arena}
  {answer : Except LinkError Report} {spans : List Span}

/-- A run without an error leaves no grammar that waits. -/
theorem filter_settled_of_ok {report : Report} {P : NodeId → ListId → Prop} (he : Ends gs base P a {} (.ok report) b) :
    gs.filter (settled b) = gs := by
  cases he with
  | settled _ hs => exact List.filter_eq_self.2 fun g hg => settled_eq_true.2 fun id hid => hs (g, id) (mem_sites.2 ⟨hg, hid⟩)

/-- The grammars that the error of a run blames are among those that wait. -/
theorem filter_settled_spared (h : Ready gs a) (hnd : ∀ g ∈ gs, g.registry.includes.Nodup)
    (hnames : (gs.map Grammar.scopeName).Nodup) {e : LinkError} (he : Ends gs base (Earns gs base a) a {} (.error e) b) :
    (spared e gs).filter (settled b) = gs.filter (settled b) := by
  rw [spared, List.filter_filter]
  refine List.filter_congr fun g hg => ?_
  by_cases hmem : g.scopeName ∈ e.scopes
  · rw [he.blamed h (nodup_sites h.disjoint hnd) hnames hg hmem, Bool.false_and]
  · simp [hmem]

section

variable (h : Ready gs c) (hnd : ∀ g ∈ gs, g.registry.includes.Nodup) (hnames : (gs.map Grammar.scopeName).Nodup)
  (hstuck : Stuck gs base c) (hsub : hs.Sublist gs)
include h hnames hstuck hsub

/-- In a state that is stuck a run between some of the grammars changes nothing. -/
theorem resolve_stuck_ends :
    ∃ answer, (resolve hs base).start c = .ok (answer, c) ∧ Ends hs base (Earns hs base c) c {} answer c := by
  obtain ⟨answer, b, hrun, he⟩ := resolve_ends (h.sublist hsub) base
  obtain rfl : b = c := he.resolvesBy.eq_of_forall_not fun id list => hstuck.not_earns hnames hsub.subset
  exact ⟨answer, hrun, he⟩

include hnd

/-- It resolves no include, if it comes to a report. -/
theorem resolve_stuck : ∃ answer, (resolve hs base).start c = .ok (answer, c) ∧
    ∀ report, answer = .ok report → report.resolved = 0 := by
  obtain ⟨answer, hrun, he⟩ := resolve_stuck_ends h hnames hstuck hsub
  refine ⟨answer, hrun, ?_⟩
  rintro report rfl
  cases he with
  | settled _ _ hcount =>
    have hcounted := hcount (nodup_sites (h.sublist hsub).disjoint fun g hg => hnd g (hsub.subset hg))
    simpa using hcounted

/-- In a state that is stuck those grammars come out that do not wait, and the report is of no include. -/
theorem resolveRemaining_stuck (dropped : List DroppedGrammar) :
    ∃ set, Rounds { baseScope := base, onFailure := .dropGrammar } hs dropped c (.ok set) c ∧
      set.grammars = hs.filter (settled c) ∧ set.report.resolved = 0 := by
  induction hs, dropped using resolveRemaining.induct with
  | case1 hs dropped ih =>
    obtain ⟨answer, hrun, he⟩ := resolve_stuck_ends h hnames hstuck hsub
    cases answer with
    | ok report =>
      obtain ⟨answer', hrun', hzero⟩ := resolve_stuck h hnd hnames hstuck hsub
      obtain ⟨rfl, -⟩ := Prod.mk.inj (Except.ok.inj (hrun'.symm.trans hrun))
      exact ⟨_, .linked hrun, (filter_settled_of_ok he).symm, hzero report rfl⟩
    | error e =>
      have hspared := filter_settled_spared (h.sublist hsub) (fun g hg => hnd g (hsub.subset hg)) (hnames.sublist (hsub.map _)) he
      obtain ⟨set, hset, hgrammars, hzero⟩ := ih e (blamed_ne_nil hrun) ((spared_sublist e hs).trans hsub)
      exact ⟨set, .again hrun rfl (blamed_ne_nil hrun) hset, hgrammars.trans hspared, hzero⟩

end

/-- The grammars come out that do not wait after the first run. -/
theorem resolveRemaining_first (h : Ready gs a) (hnd : ∀ g ∈ gs, g.registry.includes.Nodup)
    (hnames : (gs.map Grammar.scopeName).Nodup) (dropped : List DroppedGrammar)
    (hrun : (resolve gs base).start a = .ok (answer, b)) (he : Ends gs base (Earns gs base a) a {} answer b) :
    ∃ set, Rounds { baseScope := base, onFailure := .dropGrammar } gs dropped a (.ok set) b ∧
      set.grammars = gs.filter (settled b) := by
  cases answer with
  | ok report => exact ⟨_, .linked hrun, (filter_settled_of_ok he).symm⟩
  | error e =>
    have hb : Ready gs b := h.of_resolvesBy (fun _ _ he => h.hasList_of_designates he.1) he.resolvesBy
    obtain ⟨set, hset, hgrammars, -⟩ := resolveRemaining_stuck hb hnd hnames (stuck_of_ends h he) (spared_sublist e gs) _
    exact ⟨set, .again hrun rfl (blamed_ne_nil hrun) hset, hgrammars.trans (filter_settled_spared h hnd hnames he)⟩

/-! ## Linking -/

/-- How files are linked under `dropGrammar`. Those that can be built are, in spans. Of their grammars those pass that find what they
name. The first run between these ends in the arena `b`, and so does linking: those come out that are resolved in it. Every run between
grammars that passed, with whichever of them, leaves it as it is and resolves nothing. -/
structure Sieved (base : Option String) (files : List GrammarFile) (a : Arena) (spans : List Span) (m : Arena)
    (passed : List Grammar) (n : Arena) (set : LinkedSet) (b : Arena) : Prop where
  built : Spans .dropGrammar files a spans m
  localized : Localizes (spans.map Span.grammar) m passed n
  first : ∃ answer, (resolve passed base).start n = .ok (answer, b)
  linked : (link { baseScope := base, onFailure := .dropGrammar } files).start a = .ok (.ok set, b)
  grammars : set.grammars = passed.filter fun g => decide (g.isResolved b = .ok true)
  retries : ∀ hs, hs.Sublist passed → ∃ answer, (resolve hs base).start b = .ok (answer, b) ∧
    ∀ report, answer = .ok report → report.resolved = 0

/-- A grammar that found what it names is resolved when none of its includes waits for another grammar. -/
theorem isResolved_iff_settled {g : Grammar} (hown : OwnSettled gs b) (hg : g ∈ gs) (hheld : g.HeldBy b) (hfinds : g.FindsOwn a)
    {P : NodeId → ListId → Prop} (hr : ResolvesBy P a b) : g.isResolved b = .ok true ↔ settled b g = true := by
  rw [Grammar.isResolved, Registry.isResolved_iff hheld.includes, settled_eq_true]
  refine forall₂_congr fun id hid => ?_
  cases hp : b.pending? id with
  | none => simp [awaits, hp]
  | some reference =>
    have hcross : reference.isCrossGrammar = true := by
      refine Bool.eq_true_of_not_eq_false fun hno => ?_
      obtain ⟨list, ho⟩ := hfinds id hid reference (hr.node_of_pending hp).2 hno
      exact hown id list ⟨g, hg, own_of_pending hr hp ho⟩
    simp [awaits, hp, hcross]

/-- Files of distinct scope names are linked so. -/
theorem link_sieved (base : Option String) (hnd : (files.map GrammarFile.scopeName).Nodup) (hc : a.Closed) (hn : a.Nested) :
    ∃ spans m passed n set b, Sieved base files a spans m passed n set b := by
  obtain ⟨prepared, n, hprepare, -, -, -, -, hspec⟩ := prepare_ok .dropGrammar files hc hn
  obtain ⟨⟨passed, dropped⟩, rfl, -⟩ := prepare_accounts hprepare
  obtain ⟨spans, m, unique, hp⟩ := hspec passed dropped rfl
  have hs := hp.built
  have hready := hp.ready
  have hnames := hnd.sublist hs.scopeNames
  obtain ⟨unbuilt, repeated, unresolved, -, -, hcheck, hlocal⟩ := hp.runs
  -- no scope name is there twice, so all that are built are kept
  have hkept := hcheck.symm.trans (sift_checkScope_of_nodup hnames (fun _ _ => List.not_mem_nil) m)
  obtain rfl : unique = spans.map Span.grammar := congrArg Prod.fst (Except.ok.inj (congrArg Prod.fst (Except.ok.inj hkept)))
  have hl := localizes_of_sift hlocal
  obtain ⟨hown, hsettled, hpass⟩ := hl.spec hready hnames.of_map
  have hrn : Ready (spans.map Span.grammar) n :=
    hready.of_resolvesBy (fun id list ho => ho.hasList hready) hown
  have hrp : Ready passed n := hrn.sublist hl.sublist
  have hincludes : ∀ g ∈ passed, g.registry.includes.Nodup := by
    intro g hg
    obtain ⟨s, hs', rfl⟩ := List.mem_map.1 (hl.sublist.subset hg)
    exact hs.nodup s hs'
  have hnames' := hnames.sublist (hl.sublist.map _)
  obtain ⟨answer, b, hrun, he⟩ := resolve_ends hrp base
  have hrb : Ready passed b := hrp.of_resolvesBy (fun _ _ he => hrp.hasList_of_designates he.1) he.resolvesBy
  obtain ⟨set, hset, hgrammars⟩ := resolveRemaining_first hrp hincludes hnames' dropped hrun he
  refine ⟨spans, m, passed, n, set, b, hs, hl, ⟨answer, hrun⟩, ?_, ?_, fun hs hsub => ?_⟩
  · rw [link_eq, LinkM.start_bind, hprepare]
    exact hset.start
  · rw [hgrammars]
    refine List.filter_congr fun g hg => ?_
    have hg' := hl.sublist.subset hg
    have hmb := (hown.mono fun _ _ _ => trivial).trans (he.resolvesBy.mono fun _ _ _ => trivial)
    have hiff := isResolved_iff_settled (hsettled.of_resolvesBy he.resolvesBy) hg' (hrb.held g hg) ((hpass g hg').1 hg) hmb
    exact Bool.eq_iff_iff.2 (hiff.symm.trans decide_eq_true_iff.symm)
  · exact resolve_stuck hrb hincludes hnames' (stuck_of_ends hrp he) hsub

section

variable {set : LinkedSet} (h : Sieved base files a spans m passed n set b) (hc : a.Closed) (hn : a.Nested)
  (hnd : (files.map GrammarFile.scopeName).Nodup)
include h hc hn

/-- What was built can be resolved. -/
theorem Sieved.ready : Ready (spans.map Span.grammar) m :=
  h.built.ready (h.built.closed hc hn).1 (h.built.closed hc hn).2

include hnd

/-- A grammar passes exactly when it was built and finds what it names. -/
theorem Sieved.mem_passed {g : Grammar} : g ∈ passed ↔ g ∈ spans.map Span.grammar ∧ g.FindsOwn m := by
  obtain ⟨-, -, hpass⟩ := h.localized.spec (h.ready hc hn) (hnd.sublist h.built.scopeNames).of_map
  exact ⟨fun hg => ⟨h.localized.sublist.subset hg, (hpass g (h.localized.sublist.subset hg)).1 hg⟩,
    fun hg => (hpass g hg.1).2 hg.2⟩

/-- Linking resolves what is due, and ends when nothing is left that could be resolved. -/
theorem Sieved.resolvesBy_due : ResolvesBy (Due (spans.map Span.grammar) passed base m) m b ∧
    OwnSettled (spans.map Span.grammar) b ∧ Stuck passed base b := by
  have hready := h.ready hc hn
  have hnames := hnd.sublist h.built.scopeNames
  obtain ⟨hown, hsettled, -⟩ := h.localized.spec hready hnames.of_map
  have hrp : Ready passed n := (hready.of_resolvesBy (fun id list ho => ho.hasList hready) hown).sublist h.localized.sublist
  obtain ⟨answer, hrun⟩ := h.first
  exact resolvesBy_due_of_ends hready hnames h.localized.sublist hown hsettled (LinkM.outcome (resolve_ends hrp base) hrun)

/-- In the end an include is not pending that was not pending when the grammars were built, or that was due. -/
theorem Sieved.not_pending_iff {id : NodeId} :
    b.pending? id = none ↔ m.pending? id = none ∨ ∃ list, Due (spans.map Span.grammar) passed base m id list := by
  obtain ⟨hmb, hown, hstuck⟩ := h.resolvesBy_due hc hn hnd
  have hdis := (h.ready hc hn).disjoint
  constructor
  · intro hb
    cases hp : m.pending? id with
    | none => exact .inl rfl
    | some reference =>
      rcases hmb.pending_or hp with hpb | hd
      · cases hpb.symm.trans hb
      · exact .inr hd
  · rintro (hm | ⟨list, hd⟩)
    · cases hp : b.pending? id with
      | none => rfl
      | some reference => exact hm.symm.trans (hmb.node_of_pending hp).2 |>.symm
    · exact not_pending_of_due hdis (hdis.sublist h.localized.sublist) hmb hown hstuck hd

/-- The grammars that come out are those that find what they name and none of whose includes is left. -/
theorem Sieved.mem_grammars {g : Grammar} : g ∈ set.grammars ↔ g ∈ spans.map Span.grammar ∧ g.FindsOwn m ∧
    ∀ id ∈ g.registry.includes, m.pending? id = none ∨ ∃ list, Due (spans.map Span.grammar) passed base m id list := by
  obtain ⟨hmb, -⟩ := h.resolvesBy_due hc hn hnd
  rw [h.grammars, List.mem_filter, h.mem_passed hc hn hnd, decide_eq_true_iff, and_assoc]
  refine and_congr_right fun hg => and_congr_right fun _ => ?_
  have hheld : g.HeldBy b := ((h.ready hc hn).held g hg).of_resolvesBy hmb
  rw [Grammar.isResolved, Registry.isResolved_iff hheld.includes]
  exact forall₂_congr fun id _ => h.not_pending_iff hc hn hnd

end

end Linker

end GrammarLinker
