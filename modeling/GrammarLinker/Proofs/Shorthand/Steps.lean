import GrammarLinker.Proofs.LinkedSet.Survivors
import GrammarLinker.Proofs.Shorthand.Build

/-!
# Linking files that are spelled out, up to the references between grammars

The first three steps of linking do the same with files as with the files that are spelled out (`Linker.link_parallel`): they keep the
same grammars and have the same errors. A malformed text is no shorthand, scope names have none, and local resolution reports names
alone. The arenas are the same but for the spelling, up to local resolution, which resolves a `$base` that was spelled out as `$self`.
-/

namespace GrammarLinker

open Arena InterGrammar Reference

/-! ## Errors -/

/-- An include that a pass left pending, spelled out. -/
def Unsettled.spellOut (base : Option String) (u : Unsettled) : Unsettled :=
  { u with reference := longForm base u.reference }

namespace LinkError

/-- An error says of includes that are spelled out what another says of the includes. -/
inductive Restates (base : Option String) : LinkError → LinkError → Prop where
  | malformed (scope : String) (malformed : Malformed) :
      Restates base (.malformedReference scope malformed) (.malformedReference scope malformed)
  | duplicate (scope : String) : Restates base (.duplicateScope scope) (.duplicateScope scope)
  | unresolved (u : Unsettled) : Restates base u.error (u.spellOut base).error
  | cycle (scopes : List String) (us : List Unsettled) :
      Restates base (.unsatisfiableCycle scopes (us.map Unsettled.text))
        (.unsatisfiableCycle scopes (us.map fun u => (u.spellOut base).text))

/-- One error is another with the includes spelled out. Without a base grammar they are the same. -/
structure SpelledAs (base : Option String) (e e' : LinkError) : Prop where
  restates : Restates base e e'
  same : base = none → e' = e

variable {base : Option String} {e e' : LinkError}

theorem SpelledAs.scopes_eq (h : SpelledAs base e e') : e'.scopes = e.scopes := by
  cases h.restates <;> rfl

/-- The error of an include that no shorthand is. -/
theorem spelledAs_error {u : Unsettled} (h : u.spellOut base = u) : SpelledAs base u.error u.error := by
  refine ⟨?_, fun _ => rfl⟩
  have hr : Restates base u.error (u.spellOut base).error := .unresolved u
  rwa [h] at hr

end LinkError

open LinkError (SpelledAs)

/-! ## Registered includes as they were built -/

section

variable {g : Grammar} {a : Arena} {base : Option String}

/-- A name is no shorthand, and the repositories are the same, so the same names are found. -/
theorem Grammar.AsWritten.unnamed_spellOut (h : g.AsWritten a) (base : Option String) (repository : RepositoryId) :
    g.registry.unnamed repository (a.spellOut base) = g.registry.unnamed repository a := by
  refine List.filterMap_congr fun id hid => ?_
  obtain ⟨text, declared, reference, hi, hparse⟩ := h id hid
  have hi' : (a.spellOut base).inclusion id = .ok (some ⟨longForm base text, declared, .pending (reference.spellOut base)⟩) := by
    rw [inclusion_spellOut, hi]
    rfl
  have hverdict : Registry.entryVerdict repository (a.spellOut base) id = Registry.entryVerdict repository a id := by
    have htarget (name : String) : Registry.entryTarget (a.spellOut base) repository declared name =
        Registry.entryTarget a repository declared name := Registry.entryTarget_congr (a := a) (b := a.spellOut base) rfl repository declared name
    unfold Registry.entryVerdict
    rw [hi, hi']
    cases reference with
    | entry name =>
      rw [longForm_of_parse hparse fun h => by cases h]
      simp only [Reference.spellOut, bind, Except.bind, htarget]
    | base => cases base <;> rfl
    | _ => rfl
  simp only [Resolution.missingAt, hverdict]

theorem Grammar.AsWritten.localAnswer_spellOut (h : g.AsWritten a) (base : Option String) :
    g.localAnswer (a.spellOut base) = g.localAnswer a := by
  simp only [Grammar.localAnswer, h.unnamed_spellOut]

theorem Grammar.AsWritten.localAnswer_error (h : g.AsWritten a) {e : LinkError} (he : g.localAnswer a = .error e) :
    SpelledAs base e e := by
  obtain ⟨u, rfl, name, hparse⟩ := h.parse_localAnswer he
  have hlong : longForm base u.reference = u.reference := longForm_of_parse hparse fun h => by cases h
  exact LinkError.spelledAs_error (congrArg (Unsettled.mk u.scope) hlong)

end

namespace Linker

/-! ## Sifting twice -/

section

variable {ι κ θ : Type} {policy : FailurePolicy} {scope : ι → String} {examine examine' : ι → LinkM Arena κ}

theorem sift_map (f : θ → ι) (items : List θ) :
    sift policy scope examine (items.map f) = sift policy (fun item => scope (f item)) (fun item => examine (f item)) items := by
  induction items with
  | nil => rfl
  | cons item rest ih =>
    rw [List.map_cons, sift, sift, ih]

/-- Two examinations answer the same when they do so item by item, in arenas that are related in a way that the rest of the items can
rely on. -/
theorem sift_alike {R : List ι → Arena → Arena → Prop} {E : LinkError → Prop}
    (hstep : ∀ item rest a a', R (item :: rest) a a' → ∃ found m m', (examine item).start a = .ok (found, m) ∧
      (examine' item).start a' = .ok (found, m') ∧ R rest m m' ∧ ∀ e, found = .error e → E e)
    {items : List ι} {a a' : Arena} (h : R items a a') :
    ∃ answer b b', (sift policy scope examine items).start a = .ok (answer, b) ∧
      (sift policy scope examine' items).start a' = .ok (answer, b') ∧ (∀ e, answer = .error e → E e) ∧
        ∀ kept dropped, answer = .ok (kept, dropped) → R [] b b' ∧ ∀ d ∈ dropped, E d.error := by
  induction items generalizing a a' with
  | nil => exact ⟨.ok ([], []), a, a', rfl, rfl, nofun, fun kept dropped hp => by cases hp; exact ⟨h, nofun⟩⟩
  | cons item rest ih =>
    obtain ⟨found, m, m', hrun, hrun', hrest, hfound⟩ := hstep item rest a a' h
    obtain ⟨answer, b, b', hsift, hsift', herror, hok⟩ := ih hrest
    cases found with
    | ok value =>
      refine ⟨_, b, b', sift_cons_ok hrun hsift, sift_cons_ok hrun' hsift', ?_⟩
      cases answer with
      | error e => exact ⟨herror, nofun⟩
      | ok p => exact ⟨nofun, fun kept dropped hp => by cases hp; exact hok p.1 p.2 rfl⟩
    | error e =>
      cases policy with
      | abort =>
        exact ⟨_, m, m', sift_cons_abort hrun, sift_cons_abort hrun', fun e' he => Except.error.inj he ▸ hfound e rfl, nofun⟩
      | dropGrammar =>
        refine ⟨_, b, b', sift_cons_drop hrun hsift, sift_cons_drop hrun' hsift', ?_⟩
        cases answer with
        | error e' => exact ⟨herror, nofun⟩
        | ok p =>
          refine ⟨nofun, fun kept dropped hp => ?_⟩
          cases hp
          obtain ⟨hend, hdropped⟩ := hok p.1 p.2 rfl
          exact ⟨hend, List.forall_mem_cons.2 ⟨hfound e rfl, hdropped⟩⟩

end

variable {policy : FailurePolicy} {base : Option String} {files : List GrammarFile} {gs rest : List Grammar} {g : Grammar}
  {a a' m b : Arena} {spans : List Span}

/-! ## The three steps -/

/-- Files that are spelled out are built as the files, and the arena is spelled out. -/
theorem sift_build_alike (hbase : ∀ scope, base = some scope → parse scope = .ok (.foreign scope)) (policy : FailurePolicy)
    (files : List GrammarFile) (a : Arena) :
    ∃ answer m m', (sift policy GrammarFile.scopeName Grammar.build files).start a = .ok (answer, m) ∧
      (sift policy GrammarFile.scopeName Grammar.build (files.map (GrammarFile.spellOut base))).start (a.spellOut base) =
        .ok (answer, m') ∧
      (∀ e, answer = .error e → SpelledAs base e e) ∧
      ∀ kept dropped, answer = .ok (kept, dropped) → m' = m.spellOut base ∧ ∀ d ∈ dropped, SpelledAs base d.error d.error := by
  rw [sift_map]
  refine sift_alike (R := fun _ a a' => a' = a.spellOut base) (E := fun e => SpelledAs base e e) ?_ rfl
  rintro file rest a _ rfl
  obtain ⟨found, m, hrun, -⟩ := Grammar.build_ok file a
  refine ⟨found, m, m.spellOut base, hrun, ?_, rfl, ?_⟩
  · rw [Grammar.build_spellOut hbase, hrun]
    rfl
  · rintro e rfl
    obtain ⟨malformed, rfl⟩ := Grammar.build_malformed hrun
    exact ⟨.malformed _ _, fun _ => rfl⟩

/-- Whether a scope name was there already does not depend on the arena. -/
theorem sift_checkScope_alike (base : Option String) (policy : FailurePolicy) (sites : List (Grammar × List String)) (a a' : Arena) :
    ∃ answer b b', (sift policy (·.1.scopeName) checkScope sites).start a = .ok (answer, b) ∧
      (sift policy (·.1.scopeName) checkScope sites).start a' = .ok (answer, b') ∧
      (∀ e, answer = .error e → SpelledAs base e e) ∧
      ∀ kept dropped, answer = .ok (kept, dropped) → (b = a ∧ b' = a') ∧ ∀ d ∈ dropped, SpelledAs base d.error d.error := by
  refine sift_alike (R := fun _ m m' => m = a ∧ m' = a') (E := fun e => SpelledAs base e e) ?_ ⟨rfl, rfl⟩
  rintro site rest _ _ ⟨rfl, rfl⟩
  unfold checkScope
  split
  · exact ⟨_, _, _, rfl, rfl, ⟨rfl, rfl⟩, fun e he => Except.error.inj he ▸ ⟨.duplicate _, fun _ => rfl⟩⟩
  · exact ⟨_, _, _, rfl, rfl, ⟨rfl, rfl⟩, nofun⟩

/-- Grammars resolve their own references in an arena that is spelled out as in the arena. -/
theorem sift_localized_alike (base : Option String) (policy : FailurePolicy) (hwritten : ∀ g ∈ gs, g.AsWritten m)
    (hm : Ready gs m) (hm' : Ready gs (m.spellOut base)) :
    ∃ answer n n', (sift policy Grammar.scopeName localized gs).start m = .ok (answer, n) ∧
      (sift policy Grammar.scopeName localized gs).start (m.spellOut base) = .ok (answer, n') ∧
      (∀ e, answer = .error e → SpelledAs base e e) ∧
      ∀ kept dropped, answer = .ok (kept, dropped) → ∀ d ∈ dropped, SpelledAs base d.error d.error := by
  refine (sift_alike (R := fun rest a a' => (∀ g ∈ rest, g.AsWritten m) ∧ Untouched m rest a ∧ Untouched (m.spellOut base) rest a')
    (E := fun e => SpelledAs base e e) ?_ ⟨hwritten, ⟨hm, rfl, fun _ _ _ _ => rfl⟩, hm', rfl, fun _ _ _ _ => rfl⟩).imp
    fun answer ⟨n, n', hrun, hrun', herror, hok⟩ => ⟨n, n', hrun, hrun', herror, fun kept dropped h => (hok kept dropped h).2⟩
  rintro g rest a a' ⟨hwritten, ha, ha'⟩
  have hg := hwritten g List.mem_cons_self
  obtain ⟨b, hrun, hb⟩ := ha.localized
  obtain ⟨b', hrun', hb'⟩ := ha'.localized
  rw [hg.localAnswer_spellOut] at hrun'
  refine ⟨_, b, b', hrun, hrun', ⟨fun k hk => hwritten k (List.mem_cons_of_mem _ hk), hb, hb'⟩, fun e he => ?_⟩
  cases hans : g.localAnswer m with
  | ok u =>
    rw [hans] at he
    cases he
  | error e' =>
    rw [hans] at he
    cases he
    exact hg.localAnswer_error hans

/-- Files, and the files spelled out, were linked up to the references between grammars. The same grammars were built, have a scope name
of their own, and found their own references. -/
structure Parallel (policy : FailurePolicy) (base : Option String) (files : List GrammarFile) (spans : List Span) (m : Arena)
    (unique passed : List Grammar) (n n' : Arena) : Prop where
  built : Spans policy files {} spans m
  ready : Ready (spans.map Span.grammar) m
  ready' : Ready (spans.map Span.grammar) (m.spellOut base)
  unique_sublist : unique.Sublist (spans.map Span.grammar)
  scopeNames : (unique.map Grammar.scopeName).Nodup
  localized : Localizes unique m passed n
  localized' : Localizes unique (m.spellOut base) passed n'

/-- Linking files that are spelled out goes as linking the files, up to the references between grammars. -/
theorem link_parallel (config : LinkConfig)
    (hbase : ∀ scope, config.baseScope = some scope → parse scope = .ok (.foreign scope)) (files : List GrammarFile) :
    (∃ e b b', (link config files).start {} = .ok (.error e, b) ∧
      (link config (files.map (GrammarFile.spellOut config.baseScope))).start {} = .ok (.error e, b') ∧
        SpelledAs config.baseScope e e) ∨
    ∃ spans m unique passed dropped n n', Parallel config.onFailure config.baseScope files spans m unique passed n n' ∧
      (link config files).start {} = (resolveRemaining config passed dropped).start n ∧
      (link config (files.map (GrammarFile.spellOut config.baseScope))).start {} =
        (resolveRemaining config passed dropped).start n' ∧
      ∀ d ∈ dropped, SpelledAs config.baseScope d.error d.error := by
  obtain ⟨built, m, m', hbuild, hbuild', herror, hbuilt⟩ := sift_build_alike hbase config.onFailure files {}
  rw [spellOut_empty] at hbuild'
  unfold link
  simp only [LinkM.start_bind, hbuild, hbuild']
  cases built with
  | error e => exact .inl ⟨e, m, m', rfl, rfl, herror e rfl⟩
  | ok p =>
    obtain ⟨kept, unbuilt⟩ := p
    obtain ⟨rfl, hunbuilt⟩ := hbuilt kept unbuilt rfl
    obtain ⟨-, hmc, hmn, -, hspans⟩ := LinkM.outcome (sift_build_ok config.onFailure files {}) hbuild
    obtain ⟨-, hmc', hmn', -, hspans'⟩ := LinkM.outcome (sift_build_ok config.onFailure _ {}) hbuild'
    obtain ⟨spans, hs, rfl⟩ := hspans kept unbuilt rfl
    obtain ⟨spans', hs', hsame⟩ := hspans' _ unbuilt rfl
    have hempty := Session.Reachable.empty.sound
    have hm := hs.ready (hmc hempty.closed) (hmn hempty.nested)
    have hm' := hs'.ready (hmc' hempty.closed) (hmn' hempty.nested)
    rw [← hsame] at hm'
    obtain ⟨checked, n, n', hcheck, hcheck', herror, hchecked⟩ :=
      sift_checkScope_alike config.baseScope config.onFailure (withEarlier [] (spans.map Span.grammar)) m (m.spellOut config.baseScope)
    obtain ⟨checked', hcheck'', hunique⟩ := sift_checkScope_ok config.onFailure (spans.map Span.grammar) [] m
    obtain ⟨rfl, rfl⟩ := Prod.mk.inj (Except.ok.inj (hcheck.symm.trans hcheck''))
    simp only [hcheck, hcheck']
    cases checked with
    | error e => exact .inl ⟨e, n, n', rfl, rfl, herror e rfl⟩
    | ok p =>
      obtain ⟨unique, repeated⟩ := p
      obtain ⟨⟨-, rfl⟩, hrepeated⟩ := hchecked unique repeated rfl
      obtain ⟨hsub, hnames, -⟩ := hunique unique repeated rfl
      obtain ⟨found, k, k', hlocal, hlocal', herror, hlocalized⟩ := sift_localized_alike config.baseScope config.onFailure
        (fun g hg => hs.asWritten g (hsub.subset hg)) (hm.sublist hsub) (hm'.sublist hsub)
      simp only [hlocal, hlocal']
      cases found with
      | error e => exact .inl ⟨e, k, k', rfl, rfl, herror e rfl⟩
      | ok p =>
        obtain ⟨passed, unresolved⟩ := p
        have hunresolved := hlocalized passed unresolved rfl
        refine .inr ⟨spans, n, unique, passed, unbuilt ++ repeated ++ unresolved, k, k', ⟨hs, hm, hm', hsub, hnames,
          localizes_of_sift hlocal, localizes_of_sift hlocal'⟩, rfl, rfl, fun d hd => ?_⟩
        rcases List.mem_append.1 hd with hd | hd
        · exact (List.mem_append.1 hd).elim (hunbuilt d) (hrepeated d)
        · exact hunresolved d hd

end Linker

end GrammarLinker
