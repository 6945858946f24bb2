import GrammarLinker.Proofs.LinkedSet.Sift

/-!
# What linking does

Linking always answers in an arena whose stored ids are in range and whose repositories are enclosed by earlier ones
(`Linker.link_ok`). A set that comes out was linked in the steps that `Linker.Linked` names: from files to built grammars, to those of
them that are kept, to the lists that their includes stand for. All steps but the last one are also known by themselves, as
`Linker.prepare` (`Linker.prepare_ok`).

References between grammars are resolved in rounds, as long as there is an error that takes grammars out (`Linker.Rounds`). What holds of
every round is shown by induction on them.
-/

namespace GrammarLinker.Linker

open Arena InterGrammar

variable {config : LinkConfig} {files : List GrammarFile} {gs : List Grammar} {a b : Arena}

/-! ## References between grammars -/

/-- A pending include denotes a list in one of the rounds of resolution, each of which is about some of the grammars, and under
`abort` about all of them. -/
def RoundOf (config : LinkConfig) (gs : List Grammar) (a : Arena) (id : NodeId) (list : ListId) : Prop :=
  ∃ hs : List Grammar, hs.Sublist gs ∧ (config.onFailure = .abort → hs = gs) ∧ Designates hs config.baseScope a id list

/-- What a round resolves an include to is there. -/
theorem RoundOf.hasList (h : Ready gs a) {id : NodeId} {list : ListId} (hl : RoundOf config gs a id list) : a.HasList list := by
  obtain ⟨hs, hsub, -, hd⟩ := hl
  exact (h.sublist hsub).hasList_of_designates hd

/-- The grammars that are spared keep their order. -/
theorem spared_sublist (e : LinkError) (gs : List Grammar) : (spared e gs).Sublist gs := List.filter_sublist

/-- There are two policies. -/
theorem eq_dropGrammar_of_ne {policy : FailurePolicy} (h : policy ≠ .abort) : policy = .dropGrammar := by
  cases policy with
  | abort => exact absurd rfl h
  | dropGrammar => rfl

/-- How references between grammars are resolved in rounds. A run without an error is the last one, and so is one with an error under
`abort` or with an error that blames none of the grammars. Else the blamed ones are taken out, and the others go on. -/
inductive Rounds (config : LinkConfig) : List Grammar → List DroppedGrammar → Arena → Except LinkError LinkedSet → Arena → Prop where
  | linked {gs : List Grammar} {dropped : List DroppedGrammar} {report : Report} {a b : Arena}
      (h : (resolve gs config.baseScope).start a = .ok (.ok report, b)) : Rounds config gs dropped a (.ok ⟨gs, dropped, report⟩) b
  | failed {gs : List Grammar} {dropped : List DroppedGrammar} {e : LinkError} {a b : Arena}
      (h : (resolve gs config.baseScope).start a = .ok (.error e, b)) (hend : config.onFailure = .abort ∨ blamed e gs = []) :
      Rounds config gs dropped a (.error e) b
  | again {gs : List Grammar} {dropped : List DroppedGrammar} {e : LinkError} {answer : Except LinkError LinkedSet} {a m b : Arena}
      (h : (resolve gs config.baseScope).start a = .ok (.error e, m)) (hpolicy : config.onFailure = .dropGrammar)
      (hblamed : blamed e gs ≠ [])
      (hr : Rounds config (spared e gs) (dropped ++ (blamed e gs).map fun g => ⟨g.scopeName, e⟩) m answer b) :
      Rounds config gs dropped a answer b

/-- The rounds are what resolving the remaining references does. -/
theorem Rounds.start {dropped : List DroppedGrammar} {answer : Except LinkError LinkedSet} (h : Rounds config gs dropped a answer b) :
    (resolveRemaining config gs dropped).start a = .ok (answer, b) := by
  induction h with
  | linked h =>
    unfold resolveRemaining
    rw [LinkM.start_bind, LinkM.start_attempt, h]
    rfl
  | @failed gs dropped e a b h hend =>
    unfold resolveRemaining
    rw [LinkM.start_bind, LinkM.start_attempt, h]
    cases hpolicy : config.onFailure with
    | abort => rfl
    | dropGrammar =>
      have hblamed : blamed e gs = [] := hend.resolve_left fun habort => by cases habort.symm.trans hpolicy
      simp only [dif_pos hblamed, LinkM.start_throw]
  | again h hpolicy hblamed _ ih =>
    unfold resolveRemaining
    rw [LinkM.start_bind, LinkM.start_attempt, h]
    simp only [hpolicy, dif_neg hblamed]
    exact ih

/-- Whatever resolution between grammars answers, it has come to in rounds. -/
theorem rounds_of_start {dropped : List DroppedGrammar} {answer : Except LinkError LinkedSet}
    (hrun : (resolveRemaining config gs dropped).start a = .ok (answer, b)) : Rounds config gs dropped a answer b := by
  induction gs, dropped using resolveRemaining.induct generalizing a with
  | case1 gs dropped ih =>
    unfold resolveRemaining at hrun
    obtain ⟨found, m, hresolve, hrun⟩ := LinkM.start_attempt_bind_eq_ok hrun
    cases found with
    | ok report =>
      cases hrun
      exact .linked hresolve
    | error e =>
      cases hpolicy : config.onFailure with
      | abort =>
        simp only [hpolicy] at hrun
        cases hrun
        exact .failed hresolve (.inl hpolicy)
      | dropGrammar =>
        simp only [hpolicy] at hrun
        by_cases hblamed : blamed e gs = []
        · simp only [dif_pos hblamed] at hrun
          cases hrun
          exact .failed hresolve (.inr hblamed)
        · simp only [dif_neg hblamed] at hrun
          exact .again hresolve hpolicy hblamed (ih e hblamed hrun)

/-- The rounds of resolution answer. Nothing waits for another grammar in the grammars of a set that comes out. -/
theorem resolveRemaining_ok (config : LinkConfig) (gs : List Grammar) (dropped : List DroppedGrammar) {a : Arena}
    (h : Ready gs a) :
    ∃ answer b, (resolveRemaining config gs dropped).start a = .ok (answer, b) ∧ ResolvesBy (RoundOf config gs a) a b ∧
      ∀ set, answer = .ok set → set.grammars.Sublist gs ∧ (config.onFailure = .abort → set.grammars = gs) ∧
        ∀ g ∈ set.grammars, ∀ id ∈ g.registry.includes, b.awaits Reference.isCrossGrammar id = false := by
  induction gs, dropped using resolveRemaining.induct generalizing a with
  | case1 gs dropped ih =>
    obtain ⟨answer, m, hrun, hends⟩ := resolve_ends h config.baseScope
    have hm : ResolvesBy (RoundOf config gs a) a m :=
      hends.resolvesBy.mono fun id list he => ⟨gs, .refl gs, fun _ => rfl, he.1⟩
    cases answer with
    | ok report =>
      refine ⟨_, m, (Rounds.linked hrun).start, hm, ?_⟩
      intro set hset
      cases hset
      refine ⟨.refl gs, fun _ => rfl, ?_⟩
      intro g hg id hid
      cases hends with
      | settled _ hs => exact hs (g, id) (mem_sites.2 ⟨hg, hid⟩)
    | error e =>
      by_cases hend : config.onFailure = .abort ∨ blamed e gs = []
      · exact ⟨_, m, (Rounds.failed hrun hend).start, hm, nofun⟩
      · obtain ⟨hpolicy, hblamed⟩ := not_or.1 hend
        have hsub := spared_sublist e gs
        have hready : Ready (spared e gs) m :=
          (h.of_resolvesBy (fun _ _ hl => hl.hasList h) hm).sublist hsub
        obtain ⟨answer', b, hrest, hb, hset⟩ := ih e hblamed hready
        have hrounds : Rounds config gs dropped a answer' b :=
          .again hrun (eq_dropGrammar_of_ne hpolicy) hblamed (rounds_of_start hrest)
        refine ⟨answer', b, hrounds.start, hm.trans (hb.mono fun id list ⟨hs, hhs, hall, hd⟩ => ?_), ?_⟩
        · exact ⟨hs, hhs.trans hsub, fun habort => absurd habort hpolicy, hd.of_resolvesBy hm⟩
        · intro set hset'
          obtain ⟨hgrammars, -, hnone⟩ := hset set hset'
          exact ⟨hgrammars.trans hsub, fun habort => absurd habort hpolicy, hnone⟩

/-! ## The steps of linking -/

/-- The steps that are taken before references between grammars are resolved. -/
def prepare (policy : FailurePolicy) (files : List GrammarFile) : LinkM Arena (List Grammar × List DroppedGrammar) := do
  let (built, unbuilt) ← sift policy GrammarFile.scopeName Grammar.build files
  let (unique, repeated) ← sift policy (·.1.scopeName) checkScope (withEarlier [] built)
  let (resolved, unresolved) ← sift policy Grammar.scopeName localized unique
  return (resolved, unbuilt ++ repeated ++ unresolved)

/-- To link is to prepare grammars and to resolve the remaining references between them. -/
theorem link_eq (config : LinkConfig) (files : List GrammarFile) : link config files = (do
    let (resolved, dropped) ← prepare config.onFailure files
    resolveRemaining config resolved dropped) := by
  unfold link prepare
  simp only [bind_assoc, pure_bind]

/-- How grammars were prepared. They were built in spans, up to the arena `m`. Those of a scope name that was not there yet are
`unique`, and those of them whose own references could be resolved are `resolved`. -/
structure Prelinked (policy : FailurePolicy) (files : List GrammarFile) (a : Arena) (spans : List Span) (m : Arena)
    (unique resolved : List Grammar) (dropped : List DroppedGrammar) (n : Arena) : Prop where
  built : Spans policy files a spans m
  ready : Ready (spans.map Span.grammar) m
  unique_sublist : unique.Sublist (spans.map Span.grammar)
  scopeNames : (unique.map Grammar.scopeName).Nodup
  resolved_sublist : resolved.Sublist unique
  own : ResolvesBy (OwnOf unique m) m n
  localized : ∀ g ∈ resolved, Localized g n
  all : policy = .abort → unique = spans.map Span.grammar ∧ resolved = spans.map Span.grammar
  runs : ∃ unbuilt repeated unresolved, dropped = unbuilt ++ repeated ++ unresolved ∧
    (sift policy GrammarFile.scopeName Grammar.build files).start a = .ok (.ok (spans.map Span.grammar, unbuilt), m) ∧
    (sift policy (·.1.scopeName) checkScope (withEarlier [] (spans.map Span.grammar))).start m = .ok (.ok (unique, repeated), m) ∧
    (sift policy Grammar.scopeName Linker.localized unique).start m = .ok (.ok (resolved, unresolved), n)

/-- The grammars whose scopes were not taken can be resolved. -/
theorem Prelinked.ready_unique {spans : List Span} {m n : Arena} {unique resolved : List Grammar} {dropped : List DroppedGrammar}
    {policy : FailurePolicy} (h : Prelinked policy files a spans m unique resolved dropped n) : Ready unique m :=
  h.ready.sublist h.unique_sublist

/-- The grammars whose own references were resolved are in the arena and share no registered include. -/
theorem Prelinked.ready_resolved {spans : List Span} {m n : Arena} {unique resolved : List Grammar} {dropped : List DroppedGrammar}
    {policy : FailurePolicy} (h : Prelinked policy files a spans m unique resolved dropped n) : Ready resolved n :=
  (h.ready_unique.of_resolvesBy (fun _ _ ho => ho.hasList h.ready_unique) h.own).sublist h.resolved_sublist

/-- Preparing answers. Ids stay in range and repositories enclosed by earlier ones, and what was held stays held. -/
theorem prepare_ok (policy : FailurePolicy) (files : List GrammarFile) (hc : a.Closed) (hn : a.Nested) :
    ∃ answer n, (prepare policy files).start a = .ok (answer, n) ∧ n.Closed ∧ n.Nested ∧ (∀ g : Grammar, g.HeldBy a → g.HeldBy n) ∧
      (a.KeyedIn a.region → n.KeyedIn n.region) ∧
      ∀ resolved dropped, answer = .ok (resolved, dropped) → ∃ spans m unique, Prelinked policy files a spans m unique resolved dropped n := by
  obtain ⟨built, m, hbuild, hx, hmc, hmn, hmk, hspans⟩ := sift_build_ok policy files a
  have hm := hmc hc
  have hheld : ∀ g : Grammar, g.HeldBy a → g.HeldBy m := fun g hg => hg.of_within hx.within
  unfold prepare
  rw [LinkM.start_bind, hbuild]
  cases built with
  | error e => exact ⟨.error e, m, rfl, hm, hmn hn, hheld, hmk, nofun⟩
  | ok p =>
    obtain ⟨kept, unbuilt⟩ := p
    obtain ⟨spans, hs, rfl⟩ := hspans kept unbuilt rfl
    have hready := hs.ready hm (hmn hn)
    obtain ⟨checked, hcheck, hunique⟩ := sift_checkScope_ok policy (spans.map Span.grammar) [] m
    simp only [LinkM.start_bind, hcheck]
    cases checked with
    | error e => exact ⟨.error e, m, rfl, hm, hmn hn, hheld, hmk, nofun⟩
    | ok p =>
      obtain ⟨unique, repeated⟩ := p
      obtain ⟨hsub, hnames, -, hall⟩ := hunique unique repeated rfl
      have hru := hready.sublist hsub
      obtain ⟨own, n, hown, hmn', hlocal⟩ := sift_localized_ok policy unique hru.closed hru.chains hru.held
      have hclosed := hmn'.closed hm fun _ _ ho => ho.hasList hru
      have hheld' : ∀ g : Grammar, g.HeldBy a → g.HeldBy n := fun g hg => (hheld g hg).of_resolvesBy hmn'
      simp only [hown]
      cases own with
      | error e => exact ⟨.error e, n, rfl, hclosed, hmn'.nested (hmn hn), hheld', fun h => hmn'.keyedIn (hmk h), nofun⟩
      | ok p =>
        obtain ⟨resolved, unresolved⟩ := p
        obtain ⟨hsub', hloc, hall'⟩ := hlocal resolved unresolved rfl
        refine ⟨_, n, rfl, hclosed, hmn'.nested (hmn hn), hheld', fun h => hmn'.keyedIn (hmk h), ?_⟩
        rintro _ _ ⟨⟩
        exact ⟨spans, m, unique, hs, hready, hsub, hnames, hsub', hmn', hloc, fun hp => ⟨hall hp, (hall' hp).trans (hall hp)⟩,
          unbuilt, repeated, unresolved, rfl, hbuild, hcheck, hown⟩

/-- How a set was linked from files. Grammars were built in spans, up to the arena `m`. Those of a scope name that was not there yet
are `unique`, and those of them whose own references could be resolved are `resolved`. -/
structure Linked (config : LinkConfig) (files : List GrammarFile) (a : Arena) (spans : List Span) (m : Arena)
    (unique resolved : List Grammar) (set : LinkedSet) (b : Arena) : Prop where
  built : Spans config.onFailure files a spans m
  ready : Ready (spans.map Span.grammar) m
  unique_sublist : unique.Sublist (spans.map Span.grammar)
  scopeNames : (unique.map Grammar.scopeName).Nodup
  resolved_sublist : resolved.Sublist unique
  grammars_sublist : set.grammars.Sublist resolved
  resolves : ResolvesBy (fun id list => OwnOf unique m id list ∨ RoundOf config resolved m id list) m b
  settled : ∀ g ∈ set.grammars, ∀ id ∈ g.registry.includes, b.pending? id = none
  all : config.onFailure = .abort →
    unique = spans.map Span.grammar ∧ resolved = spans.map Span.grammar ∧ set.grammars = spans.map Span.grammar

/-- Linking answers. Ids stay in range and repositories enclosed by earlier ones, what was held stays held, and a set that comes out
was linked from the files. -/
theorem link_ok (config : LinkConfig) (files : List GrammarFile) (hc : a.Closed) (hn : a.Nested) :
    ∃ answer b, (link config files).start a = .ok (answer, b) ∧ b.Closed ∧ b.Nested ∧ (∀ g : Grammar, g.HeldBy a → g.HeldBy b) ∧
      (∀ set, answer = .ok set → ∃ spans m unique resolved, Linked config files a spans m unique resolved set b) ∧
      (a.KeyedIn a.region → b.KeyedIn b.region) := by
  obtain ⟨prepared, n, hprepare, hnc, hnn, hheld, hkeyed, hspec⟩ := prepare_ok config.onFailure files hc hn
  rw [link_eq, LinkM.start_bind, hprepare]
  cases prepared with
  | error e => exact ⟨.error e, n, rfl, hnc, hnn, hheld, nofun, hkeyed⟩
  | ok p =>
    obtain ⟨resolved, dropped⟩ := p
    obtain ⟨spans, m, unique, hp⟩ := hspec resolved dropped rfl
    have hready := hp.ready_resolved
    obtain ⟨answer, b, hrun, hnb, hset⟩ := resolveRemaining_ok config resolved dropped hready
    refine ⟨answer, b, hrun, hnb.closed hnc fun _ _ hl => hl.hasList hready, hnb.nested hnn,
      fun g hg => (hheld g hg).of_resolvesBy hnb, fun set hanswer => ?_, fun h => hnb.keyedIn (hkeyed h)⟩
    obtain ⟨hgrammars, hall, hnone⟩ := hset set hanswer
    refine ⟨spans, m, unique, resolved, hp.built, hp.ready, hp.unique_sublist, hp.scopeNames, hp.resolved_sublist, hgrammars, ?_, ?_, ?_⟩
    · exact (hp.own.mono fun _ _ h => .inl h).trans
        (hnb.mono fun id list ⟨hs, hhs, hall, hd⟩ => .inr ⟨hs, hhs, hall, hd.of_resolvesBy hp.own⟩)
    · intro g hg id hid
      have hlocal : Localized g b := (hp.localized g (hgrammars.subset hg)).of_resolvesBy hnb
      cases hpending : b.pending? id with
      | none => rfl
      | some reference =>
        have hno := hnone g hg id hid
        rw [awaits, hpending, Option.any_some, hlocal id hid reference hpending] at hno
        cases hno
    · intro habort
      obtain ⟨hunique, hresolved⟩ := hp.all habort
      exact ⟨hunique, hresolved, (hall habort).trans hresolved⟩

/-- The grammars of a linked set are in the arena and share no registered include. -/
theorem Linked.ready_set {spans : List Span} {m : Arena} {unique resolved : List Grammar} {set : LinkedSet}
    (h : Linked config files a spans m unique resolved set b) : Ready set.grammars b := by
  have hsub := h.grammars_sublist.trans (h.resolved_sublist.trans h.unique_sublist)
  refine (h.ready.of_resolvesBy ?_ h.resolves).sublist hsub
  rintro id list (⟨g, hg, ho⟩ | hl)
  · exact ho.hasList h.ready.closed (h.ready.held g (h.unique_sublist.subset hg))
  · exact hl.hasList (h.ready.sublist (h.resolved_sublist.trans h.unique_sublist))

section

variable {spans : List Span} {m : Arena} {unique resolved : List Grammar} {set : LinkedSet}
  (h : Linked config files a spans m unique resolved set b)
include h

/-- Every grammar of a linked set was built from a file. -/
theorem Linked.exists_span {g : Grammar} (hg : g ∈ set.grammars) : ∃ s ∈ spans, s.grammar = g :=
  List.mem_map.1 ((h.grammars_sublist.trans (h.resolved_sublist.trans h.unique_sublist)).subset hg)

/-- The includes of a linked grammar are registered once. -/
theorem Linked.nodup : ∀ g ∈ set.grammars, g.registry.includes.Nodup := by
  intro g hg
  obtain ⟨s, hs, rfl⟩ := h.exists_span hg
  exact h.built.nodup s hs

/-- The includes of a linked grammar were not there before. -/
theorem Linked.fresh : ∀ g ∈ set.grammars, ∀ id ∈ g.registry.includes, ¬a.HasNode id := by
  intro g hg id hid ha
  obtain ⟨s, hs, rfl⟩ := h.exists_span hg
  obtain ⟨file, -, hsound⟩ := h.built.sound s hs
  exact (hsound.includes id hid).1 (hsound.before.hasNode ha)

end

end GrammarLinker.Linker
