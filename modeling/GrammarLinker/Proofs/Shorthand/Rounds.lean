import GrammarLinker.Proofs.Shorthand.Due

/-!
# Rounds of resolution, when files are spelled out

The first run between the grammars resolves whatever is due, and that is the same whether the files are spelled out or not. So the two
sessions are tied from then on (`Linker.Parallel.tied`): what an include of one of these grammars stands for, and whether it still waits, is
the same in both. A run that finds nothing to resolve reports what waits, so both report the same, but for the spelling
(`Linker.Tied.answers`). So the same grammars are dropped, round after round, and the same ones are left (`Linker.Tied.rounds`).
-/

namespace GrammarLinker

open Arena InterGrammar Reference Resolution

open LinkError (SpelledAs)

/-! ## Errors of a run -/

/-- When what a pass found is spelled out, the error is spelled out. -/
theorem InterGrammar.spelledAs_stuckError {base : Option String} {t t' : Tally}
    (hmissing : t'.missing = t.missing.map (Unsettled.spellOut base) ∧ (base = none → ∀ u ∈ t.missing, u.spellOut base = u))
    (hwaiting : t.missing = [] →
      t'.waiting = t.waiting.map (Unsettled.spellOut base) ∧ (base = none → ∀ u ∈ t.waiting, u.spellOut base = u)) :
    SpelledAs base (stuckError t) (stuckError t') := by
  obtain ⟨hmissing, hsame⟩ := hmissing
  unfold stuckError
  cases hm : t.missing with
  | cons first rest =>
    rw [hm] at hmissing hsame
    simp only [hmissing, List.map_cons]
    exact ⟨.unresolved first, fun hb => congrArg Unsettled.error (hsame hb first List.mem_cons_self)⟩
  | nil =>
    obtain ⟨hwaiting, hsame⟩ := hwaiting hm
    rw [hm] at hmissing
    simp only [hmissing, hwaiting, List.map_nil]
    have hscopes : scopesOf (t.waiting.map (Unsettled.spellOut base)) = scopesOf t.waiting := by
      simp [scopesOf, Unsettled.spellOut, Function.comp_def]
    unfold cycleError
    rw [hscopes, List.map_map]
    refine ⟨.cycle _ t.waiting, fun hb => ?_⟩
    exact congrArg (LinkError.unsatisfiableCycle _) (List.map_congr_left fun u hu => congrArg Unsettled.text (hsame hb u hu))

/-- An include has one text. -/
theorem InterGrammar.Reads.unique {a : Arena} {id : NodeId} {text text' : String} (h : Reads a id text) (h' : Reads a id text') :
    text = text' := by
  obtain ⟨declared, state, hi⟩ := h
  obtain ⟨declared', state', hi'⟩ := h'
  rw [hi] at hi'
  cases hi'
  rfl

/-- Two answers of a run are the same, but for the spelling of an error and the count of what was done. -/
inductive InterGrammar.SameAnswer (base : Option String) : Except LinkError Report → Except LinkError Report → Prop where
  | settled (report report' : Report) : SameAnswer base (.ok report) (.ok report')
  | stuck {e e' : LinkError} (h : SpelledAs base e e') : SameAnswer base (.error e) (.error e')

namespace Linker

variable {gs hs : List Grammar} {g : Grammar} {base : Option String} {a a' b b' : Arena} {id : NodeId} {site : Grammar × NodeId}
  {reference : Reference} {text : String}

/-! ## Tied states -/

/-- Two states in which nothing is left that could be resolved between grammars, and which are the same for the includes that these
register, but for the spelling. An include waits for what its text says, if it waits. -/
structure Tied (base : Option String) (gs : List Grammar) (b b' : Arena) : Prop where
  ready : Ready gs b
  ready' : Ready gs b'
  stuck : Stuck gs base b
  stuck' : Stuck gs base b'
  lists : b'.lists = b.lists
  repositories : b'.repositories = b.repositories
  node : ∀ g ∈ gs, ∀ id ∈ g.registry.includes, b'.node id = (b.node id).map (Node.spellOut base)
  written : ∀ g ∈ gs, ∀ id ∈ g.registry.includes, ∃ text declared state, b.inclusion id = .ok (some ⟨text, declared, state⟩) ∧
    ∀ reference, state = .pending reference → parse text = .ok reference

/-- After the first run between the grammars the two sessions are tied. -/
theorem Parallel.tied {policy : FailurePolicy} {files : List GrammarFile} {spans : List Span} {m n n' : Arena}
    {unique passed : List Grammar} {answer answer' : Except LinkError Report}
    (h : Parallel policy base files spans m unique passed n n')
    (he : Ends passed base (Earns passed base n) n {} answer b) (he' : Ends passed base (Earns passed base n') n' {} answer' b') :
    Tied base passed b b' := by
  have hm := h.ready.sublist h.unique_sublist
  have hm' := h.ready'.sublist h.unique_sublist
  have hsub := h.localized.sublist
  obtain ⟨hown, hsettled, -⟩ := h.localized.spec hm h.scopeNames.of_map
  obtain ⟨hown', hsettled', -⟩ := h.localized'.spec hm' h.scopeNames.of_map
  obtain ⟨hdue, hend, hstuck⟩ := resolvesBy_due_of_ends hm h.scopeNames hsub hown hsettled he
  obtain ⟨hdue', hend', hstuck'⟩ := resolvesBy_due_of_ends hm' h.scopeNames hsub hown' hsettled' he'
  have hdis := hm.disjoint
  have hdis' := hdis.sublist hsub
  refine ⟨(hm.of_resolvesBy (fun _ _ hd => hd.hasList hm (hm.sublist hsub)) hdue).sublist hsub,
    (hm'.of_resolvesBy (fun _ _ hd => hd.hasList hm' (hm'.sublist hsub)) hdue').sublist hsub, hstuck, hstuck',
    hdue'.lists.trans hdue.lists.symm, hdue'.repositories.trans hdue.repositories.symm, fun g hg id hid => ?_,
    fun g hg id hid => ?_⟩
  · obtain ⟨node, hn⟩ := ((hm.held g (hsub.subset hg)).includes id hid).node_ok
    have hn' : (m.spellOut base).node id = .ok (node.spellOut base) := by
      rw [node_spellOut, hn]
      rfl
    by_cases hsome : ∃ list, Due unique passed base m id list
    · obtain ⟨list, hd⟩ := hsome
      rw [node_of_due hdis hdis' hdue hend hstuck hn hd,
        node_of_due hdis hdis' hdue' hend' hstuck' hn' ((h.due_iff hg hid).2 hd), Node.spellOut_resolvedTo]
      rfl
    · have hno : ∀ list, ¬Due unique passed base m id list := fun list hd => hsome ⟨list, hd⟩
      rw [hdue.node_kept hno hn, hdue'.node_kept (fun list hd => hno list ((h.due_iff hg hid).1 hd)) hn']
      rfl
  · obtain ⟨text, declared, reference, hi, hparse⟩ := h.built.asWritten g (h.passed_spans.subset hg) id hid
    obtain ⟨⟨name, rule, parent, _⟩, hn, rfl⟩ := inclusion_eq_some.1 hi
    rcases hdue.node id _ hn with hb | ⟨target, -, -, hb⟩
    · exact ⟨text, declared, _, inclusion_of_node hb, fun r hr => IncludeState.pending.inj hr ▸ hparse⟩
    · exact ⟨text, declared, .resolved target, inclusion_of_node hb, nofun⟩

section

variable (h : Tied base gs b b')
include h

/-! ### Includes -/

theorem Tied.inclusion (hg : g ∈ gs) (hid : id ∈ g.registry.includes) :
    b'.inclusion id = (b.inclusion id).map fun i? => i?.map (Include.spellOut base) := by
  unfold Arena.inclusion
  rw [h.node g hg id hid]
  cases b.node id with
  | error fault => rfl
  | ok node => exact congrArg Except.ok node.inclusion?_spellOut

theorem Tied.pending? (hg : g ∈ gs) (hid : id ∈ g.registry.includes) :
    b'.pending? id = (b.pending? id).map (Reference.spellOut base) := by
  obtain ⟨node, hn⟩ := ((h.ready.held g hg).includes id hid).node_ok
  have hn' := h.node g hg id hid
  rw [hn] at hn'
  rw [pending?_of_node hn', pending?_of_node hn]
  exact node.pending?_spellOut

/-- In a set without a base grammar no `$base` waits any more. -/
theorem Tied.base_ne_none (hg : g ∈ gs) (hid : id ∈ g.registry.includes) (hp : b.pending? id = some reference) :
    reference = .base → base ≠ none := by
  rintro rfl rfl
  exact (h.stuck id g.root ⟨g, hg, hid, .base, hp, rfl, rfl⟩).1 ⟨.base, hp, rfl⟩

theorem Tied.awaits (hg : g ∈ gs) (hid : id ∈ g.registry.includes) :
    b'.awaits Reference.isCrossGrammar id = b.awaits Reference.isCrossGrammar id := by
  unfold Arena.awaits
  rw [h.pending? hg hid]
  cases hp : b.pending? id with
  | none => rfl
  | some reference => exact isCrossGrammar_spellOut (h.base_ne_none hg hid hp)

theorem Tied.designation (hg : site.1 ∈ gs) (hid : site.2 ∈ site.1.registry.includes) :
    designation hs base b' site = designation hs base b site := by
  unfold InterGrammar.designation
  rw [h.pending? hg hid]
  cases hp : b.pending? site.2 with
  | none => rfl
  | some reference =>
    have hne := h.base_ne_none hg hid hp
    have hcross : (reference.spellOut base).kind.isCrossGrammar = reference.kind.isCrossGrammar := isCrossGrammar_spellOut hne
    have htarget : target hs base b' site.1 (reference.spellOut base) = target hs base b site.1 reference := by
      rw [target_congr (a := b.spellOut base) h.repositories]
      exact target_spellOut hne
    simp only [Option.map_some, hcross, htarget]

theorem Tied.reads (hg : g ∈ gs) (hid : id ∈ g.registry.includes) (ht : Reads b id text) : Reads b' id (longForm base text) := by
  obtain ⟨declared, state, hi⟩ := ht
  refine ⟨declared, state.spellOut base, ?_⟩
  rw [h.inclusion hg hid, hi]
  rfl

/-- The text of an include that still waits is the same, where there is no base grammar. -/
theorem Tied.longForm_eq (hg : g ∈ gs) (hid : id ∈ g.registry.includes) (hw : b.awaits Reference.isCrossGrammar id = true)
    (ht : Reads b id text) (hb : base = none) : longForm base text = text := by
  obtain ⟨reference, hp, -⟩ := awaits_eq_true.1 hw
  obtain ⟨declared, state, hi⟩ := ht
  obtain ⟨text', declared', state', hi', hparse⟩ := h.written g hg id hid
  rw [hi] at hi'
  cases hi'
  cases state with
  | resolved target =>
    obtain ⟨node, hn, hn?⟩ := inclusion_eq_ok.1 hi
    rw [pending?_of_node hn, Node.pending?, hn?] at hp
    cases hp
  | pending r =>
    cases (pending?_of_inclusion hi).symm.trans hp
    exact longForm_of_parse (hparse reference rfl) fun hr => h.base_ne_none hg hid hp hr hb

/-! ### Verdicts -/

section

variable (hsub : hs.Sublist gs) (hsite : site ∈ sites hs)
include hsub hsite

omit h in
theorem registered_of_sites : site.1 ∈ gs ∧ site.2 ∈ site.1.registry.includes := by
  obtain ⟨hg, hid⟩ := mem_sites.1 hsite
  exact ⟨hsub.subset hg, hid⟩

/-- The same includes miss their targets. -/
theorem Tied.missingAt_eq : missingAt (·.1.scopeName) (verdict hs base) b' site =
    (missingAt (·.1.scopeName) (verdict hs base) b site).map (Unsettled.spellOut base) := by
  obtain ⟨hg, hid⟩ := registered_of_sites hsub hsite
  have hboth : b'.awaits Reference.isCrossGrammar site.2 = true ∧ InterGrammar.designation hs base b' site = none ↔
      b.awaits Reference.isCrossGrammar site.2 = true ∧ InterGrammar.designation hs base b site = none := by
    rw [h.awaits hg hid, h.designation hg hid]
  rcases missingAt_cases (h.ready.sublist hsub) base hsite with ⟨hnone, hnot⟩ | ⟨text, ht, hsome, hw⟩ <;>
    rcases missingAt_cases (h.ready'.sublist hsub) base hsite with ⟨hnone', hnot'⟩ | ⟨text', ht', hsome', hw'⟩
  · rw [hnone, hnone']
    rfl
  · exact absurd (hboth.1 hw') hnot
  · exact absurd (hboth.2 hw) hnot'
  · rw [hsome, hsome', ht'.unique (h.reads hg hid ht)]
    rfl

/-- Where no include misses its target, and none can be attached, the same includes wait. -/
theorem Tied.waitingAt_eq (hno : ∀ target, verdict hs base b site ≠ .ok (.attached target))
    (hno' : ∀ target, verdict hs base b' site ≠ .ok (.attached target))
    (hall : b.awaits Reference.isCrossGrammar site.2 = true → InterGrammar.designation hs base b site ≠ none) :
    waitingAt (·.1.scopeName) (verdict hs base) b' site =
      (waitingAt (·.1.scopeName) (verdict hs base) b site).map (Unsettled.spellOut base) := by
  obtain ⟨hg, hid⟩ := registered_of_sites hsub hsite
  have hall' : b'.awaits Reference.isCrossGrammar site.2 = true → InterGrammar.designation hs base b' site ≠ none := by
    rw [h.awaits hg hid, h.designation hg hid]
    exact hall
  have hawaits := h.awaits hg hid
  rcases waitingAt_cases (h.ready.sublist hsub) base hsite hno hall with ⟨hw, hnone⟩ | ⟨hw, u, hsome, hscope, ht⟩ <;>
    rcases waitingAt_cases (h.ready'.sublist hsub) base hsite hno' hall' with ⟨hw', hnone'⟩ | ⟨hw', u', hsome', hscope', ht'⟩
  · rw [hnone, hnone']
    rfl
  · cases (hw'.symm.trans hawaits).trans hw
  · cases (hw'.symm.trans hawaits).trans hw
  · obtain ⟨scope, text⟩ := u
    obtain ⟨scope', text'⟩ := u'
    rw [hsome, hsome']
    refine congrArg some ?_
    simp only [Unsettled.spellOut, Unsettled.mk.injEq]
    exact ⟨hscope'.trans hscope.symm, ht'.unique (h.reads hg hid ht)⟩

end

/-! ### Answers -/

/-- Two runs that end in tied states have the same answer. -/
theorem Tied.answers {P P' : NodeId → ListId → Prop} {earlier earlier' : Report} {answer answer' : Except LinkError Report}
    (hsub : hs.Sublist gs) (he : Ends hs base P a earlier answer b) (he' : Ends hs base P' a' earlier' answer' b') :
    SameAnswer base answer answer' := by
  have hawaits : ∀ site ∈ sites hs, b'.awaits Reference.isCrossGrammar site.2 = b.awaits Reference.isCrossGrammar site.2 :=
    fun site hsite => h.awaits (registered_of_sites hsub hsite).1 (registered_of_sites hsub hsite).2
  cases he with
  | settled _ hdone =>
    cases he' with
    | settled => exact .settled _ _
    | stuck _ hsteps' _ hleft' =>
      obtain ⟨site, hsite, hw⟩ := hsteps'.exists_awaits hleft'
      cases (hw.symm.trans (hawaits site hsite)).trans (hdone site hsite)
  | @stuck tally _ _ hsteps h0 hleft =>
    cases he' with
    | settled _ hdone' =>
      obtain ⟨site, hsite, hw⟩ := hsteps.exists_awaits hleft
      cases (hw.symm.trans (hawaits site hsite).symm).trans (hdone' site hsite)
    | @stuck tally' _ _ hsteps' h0' _ =>
      obtain ⟨-, hwait, hmiss, hno⟩ := hsteps.idle h0
      obtain ⟨-, hwait', hmiss', hno'⟩ := hsteps'.idle h0'
      refine .stuck (spelledAs_stuckError ⟨?_, fun hb u hu => ?_⟩ fun hnil => ?_)
      · rw [hmiss, hmiss', List.map_filterMap]
        exact List.filterMap_congr fun site hsite => h.missingAt_eq hsub hsite
      · rw [hmiss] at hu
        obtain ⟨site, hsite, hu⟩ := List.mem_filterMap.1 hu
        obtain ⟨hg, hid⟩ := registered_of_sites hsub hsite
        rcases missingAt_cases (h.ready.sublist hsub) base hsite with ⟨hnone, -⟩ | ⟨text, ht, hsome, hw, -⟩
        · cases hnone.symm.trans hu
        · cases hsome.symm.trans hu
          simp only [Unsettled.spellOut, h.longForm_eq hg hid hw ht hb]
      · have hall : ∀ site ∈ sites hs, b.awaits Reference.isCrossGrammar site.2 = true →
            InterGrammar.designation hs base b site ≠ none := by
          intro site hsite hw hd
          rcases missingAt_cases (h.ready.sublist hsub) base hsite with ⟨-, hnot⟩ | ⟨_, -, hsome, -⟩
          · exact hnot ⟨hw, hd⟩
          · cases hsome.symm.trans (List.filterMap_eq_nil_iff.1 (hmiss.symm.trans hnil) site hsite)
        refine ⟨?_, fun hb u hu => ?_⟩
        · rw [hwait, hwait', List.map_filterMap]
          exact List.filterMap_congr fun site hsite =>
            h.waitingAt_eq hsub hsite (hno site hsite) (hno' site hsite) (hall site hsite)
        · rw [hwait] at hu
          obtain ⟨site, hsite, hu⟩ := List.mem_filterMap.1 hu
          obtain ⟨hg, hid⟩ := registered_of_sites hsub hsite
          rcases waitingAt_cases (h.ready.sublist hsub) base hsite (hno site hsite) (hall site hsite) with
            ⟨-, hnone⟩ | ⟨hw, u', hsome, -, ht⟩
          · cases hnone.symm.trans hu
          · cases hsome.symm.trans hu
            simp only [Unsettled.spellOut, h.longForm_eq hg hid hw ht hb]

end

/-! ## Rounds -/

/-- A grammar was dropped in both sessions, for the same error. -/
def SameDrop (base : Option String) (d d' : DroppedGrammar) : Prop := d'.scope = d.scope ∧ SpelledAs base d.error d'.error

/-- Linking fails with the same error, or links the same grammars and drops the same ones. -/
inductive SameSet (base : Option String) : Except LinkError LinkedSet → Except LinkError LinkedSet → Prop where
  | failed {e e' : LinkError} (h : SpelledAs base e e') : SameSet base (.error e) (.error e')
  | linked {set set' : LinkedSet} (hgrammars : set'.grammars = set.grammars)
      (hdropped : List.Forall₂ (SameDrop base) set.dropped set'.dropped) : SameSet base (.ok set) (.ok set')

/-- In tied states the same grammars are blamed, round after round. -/
theorem Tied.rounds {config : LinkConfig} (h : Tied config.baseScope gs b b') (hnames : (gs.map Grammar.scopeName).Nodup)
    (dropped dropped' : List DroppedGrammar) {P P' : NodeId → ListId → Prop} {answer answer' : Except LinkError Report}
    (hsub : hs.Sublist gs) (hdropped : List.Forall₂ (SameDrop config.baseScope) dropped dropped')
    (hrun : (resolve hs config.baseScope).start a = .ok (answer, b)) (he : Ends hs config.baseScope P a {} answer b)
    (hrun' : (resolve hs config.baseScope).start a' = .ok (answer', b')) (he' : Ends hs config.baseScope P' a' {} answer' b') :
    ∃ found found', (resolveRemaining config hs dropped).start a = .ok (found, b) ∧
      (resolveRemaining config hs dropped').start a' = .ok (found', b') ∧ SameSet config.baseScope found found' ∧
        ∀ set, found = .ok set → set.grammars.Sublist gs := by
  induction hs, dropped using resolveRemaining.induct generalizing a a' dropped' P P' answer answer' with
  | case1 hs dropped ih =>
    have hanswers := h.answers hsub he he'
    cases hanswers with
    | settled report report' =>
      exact ⟨_, _, (Rounds.linked hrun).start, (Rounds.linked hrun').start, .linked rfl hdropped, fun set hset => by cases hset; exact hsub⟩
    | @stuck e e' hspelled =>
      have hblames : blamed e' hs = blamed e hs := by
        unfold blamed
        rw [hspelled.scopes_eq]
      have hspares : spared e' hs = spared e hs := by
        unfold spared
        rw [hspelled.scopes_eq]
      by_cases hend : config.onFailure = .abort ∨ blamed e hs = []
      · have hend' : config.onFailure = .abort ∨ blamed e' hs = [] := hblames ▸ hend
        exact ⟨_, _, (Rounds.failed hrun hend).start, (Rounds.failed hrun' hend').start, .failed hspelled, fun _ h => by cases h⟩
      · obtain ⟨hpolicy, hblamed⟩ := not_or.1 hend
        have hsub' := (spared_sublist e hs).trans hsub
        obtain ⟨again, hagain, hends⟩ := resolve_stuck_ends h.ready hnames h.stuck hsub'
        obtain ⟨again', hagain', hends'⟩ := resolve_stuck_ends h.ready' hnames h.stuck' hsub'
        have hmore : List.Forall₂ (SameDrop config.baseScope) (dropped ++ (blamed e hs).map fun g => ⟨g.scopeName, e⟩)
            (dropped' ++ (blamed e' hs).map fun g => ⟨g.scopeName, e'⟩) := by
          refine List.rel_append hdropped ?_
          rw [hblames, List.forall₂_map_left_iff, List.forall₂_map_right_iff]
          exact List.forall₂_same.2 fun _ _ => ⟨rfl, hspelled⟩
        obtain ⟨found, found', hfound, hfound', hsame⟩ := ih e hblamed _ hsub' hmore hagain hends hagain' hends'
        rw [← hspares] at hfound'
        have hdrop := eq_dropGrammar_of_ne hpolicy
        exact ⟨found, found', (Rounds.again hrun hdrop hblamed (rounds_of_start hfound)).start,
          (Rounds.again hrun' hdrop (hblames ▸ hblamed) (rounds_of_start hfound')).start, hsame⟩

end Linker

end GrammarLinker
