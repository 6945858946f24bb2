import GrammarLinker.Proofs.LinkedSet.Meaning
import GrammarLinker.Proofs.Shorthand.Rounds

/-!
# `$base` is shorthand

Files that are spelled out are linked as the files (`Linker.link_spellOut`). The same grammars are built, dropped and left, and every
include of a grammar that is left stands for the same list. The error of a set without a base grammar is the same, and the error of one
with a base grammar names the scope where it named `$base`.
-/

namespace GrammarLinker.Linker

open Arena InterGrammar

variable {base : Option String} {config : LinkConfig} {files : List GrammarFile} {gs : List Grammar} {g : Grammar} {b b' : Arena}
  {id : NodeId}

/-- In a set without a base grammar nothing but the report can differ. -/
theorem SameSet.eq_of_none {found found' : Except LinkError LinkedSet} (h : SameSet base found found') (hb : base = none) :
    found'.map (fun set => (set.grammars, set.dropped)) = found.map fun set => (set.grammars, set.dropped) := by
  cases h with
  | failed hspelled => exact congrArg Except.error (hspelled.same hb)
  | @linked set set' hgrammars hdropped =>
    have hsame : List.Forall₂ (· = ·) set.dropped set'.dropped := by
      refine hdropped.imp ?_
      rintro ⟨scope, e⟩ ⟨scope', e'⟩ ⟨rfl, hspelled⟩
      exact congrArg (DroppedGrammar.mk scope') (hspelled.same hb).symm
    rw [List.forall₂_eq_eq_eq] at hsame
    exact congrArg Except.ok (Prod.ext hgrammars hsame.symm)

/-- An include stands for the same list in two arenas, and in the second one it is spelled out. -/
def StandsAlike (base : Option String) (b b' : Arena) (id : NodeId) : Prop :=
  ∃ i target, b.inclusion id = .ok (some i) ∧ b'.inclusion id = .ok (some (i.spellOut base)) ∧
    b.StandsFor id target ∧ b'.StandsFor id target

/-- An include of a grammar that does not wait any more stands for the same list in a tied state. -/
theorem Tied.standsAlike (h : Tied base gs b b') (hg : g ∈ gs) (hid : id ∈ g.registry.includes) (hp : b.pending? id = none) :
    StandsAlike base b b' id := by
  obtain ⟨text, declared, state, hi, -⟩ := h.written g hg id hid
  have hi' := h.inclusion hg hid
  rw [hi] at hi'
  cases state with
  | pending reference => cases (pending?_of_inclusion hi).symm.trans hp
  | resolved target => exact ⟨_, target, hi, hi', ⟨_, hi, rfl⟩, ⟨_, hi', rfl⟩⟩

/-- The registered includes of a set that was linked wait for nothing. -/
theorem pending?_of_link {set : LinkedSet} (hrun : (link config files).start {} = .ok (.ok set, b)) (hg : g ∈ set.grammars)
    (hid : id ∈ g.registry.includes) : b.pending? id = none := by
  have hempty := Session.Reachable.empty.sound
  obtain ⟨-, -, -, hset, -⟩ := LinkM.outcome (link_ok config files hempty.closed hempty.nested) hrun
  obtain ⟨spans, m, unique, resolved, hl⟩ := hset set rfl
  exact hl.settled g hg id hid

/-- Where files and the files spelled out come to the references between grammars, linking ends in tied states. -/
theorem Parallel.ends {spans : List Span} {m n n' : Arena} {unique passed : List Grammar}
    (h : Parallel config.onFailure config.baseScope files spans m unique passed n n') {dropped : List DroppedGrammar}
    (hdropped : ∀ d ∈ dropped, LinkError.SpelledAs config.baseScope d.error d.error) :
    ∃ found b found' b', (resolveRemaining config passed dropped).start n = .ok (found, b) ∧
      (resolveRemaining config passed dropped).start n' = .ok (found', b') ∧ SameSet config.baseScope found found' ∧
        Tied config.baseScope passed b b' ∧ ∀ set, found = .ok set → set.grammars.Sublist passed := by
  have hm := h.ready.sublist h.unique_sublist
  have hm' := h.ready'.sublist h.unique_sublist
  have hsub := h.localized.sublist
  have hn : Ready passed n :=
    (hm.of_resolvesBy (fun _ _ ho => ho.hasList hm) (h.localized.spec hm h.scopeNames.of_map).1).sublist hsub
  have hn' : Ready passed n' :=
    (hm'.of_resolvesBy (fun _ _ ho => ho.hasList hm') (h.localized'.spec hm' h.scopeNames.of_map).1).sublist hsub
  obtain ⟨answer, b, hrun, he⟩ := resolve_ends hn config.baseScope
  obtain ⟨answer', b', hrun', he'⟩ := resolve_ends hn' config.baseScope
  have htied := h.tied he he'
  obtain ⟨found, found', hall, hall', hsame, hset⟩ := htied.rounds (h.scopeNames.sublist (hsub.map _)) dropped dropped (.refl _)
    (List.forall₂_same.2 fun d hd => ⟨rfl, hdropped d hd⟩) hrun he hrun' he'
  exact ⟨found, b, found', b', hall, hall', hsame, htied, hset⟩

/-- Files, and the files with every `$base` spelled out, are linked alike in a new session. Both fail with the same error, or the same
grammars are linked, the same ones are dropped, and every include of a linked grammar stands for the same list. -/
theorem link_spellOut (config : LinkConfig)
    (hbase : ∀ scope, config.baseScope = some scope → Reference.parse scope = .ok (.foreign scope)) (files : List GrammarFile) :
    ∃ found b found' b', (link config files).start {} = .ok (found, b) ∧
      (link config (files.map (GrammarFile.spellOut config.baseScope))).start {} = .ok (found', b') ∧
      SameSet config.baseScope found found' ∧
      (config.baseScope = none →
        found'.map (fun set => (set.grammars, set.dropped)) = found.map fun set => (set.grammars, set.dropped)) ∧
      ∀ set, found = .ok set → b'.lists = b.lists ∧ b'.repositories = b.repositories ∧
        ∀ g ∈ set.grammars, ∀ id ∈ g.registry.includes, StandsAlike config.baseScope b b' id := by
  rcases link_parallel config hbase files with ⟨e, b, b', hrun, hrun', hspelled⟩ |
    ⟨spans, m, unique, passed, dropped, n, n', hparallel, hrun, hrun', hdropped⟩
  · have hsame : SameSet config.baseScope (.error e) (.error e) := .failed hspelled
    exact ⟨_, b, _, b', hrun, hrun', hsame, hsame.eq_of_none, nofun⟩
  · obtain ⟨found, b, found', b', hends, hends', hsame, htied, hset⟩ := hparallel.ends hdropped
    rw [hends] at hrun
    rw [hends'] at hrun'
    refine ⟨found, b, found', b', hrun, hrun', hsame, hsame.eq_of_none, ?_⟩
    rintro set rfl
    exact ⟨htied.lists, htied.repositories, fun g hg id hid =>
      htied.standsAlike ((hset set rfl).subset hg) hid (pending?_of_link hrun hg hid)⟩

/-- The two grammars of which one means the other by `$base` are linked as when it says so by scope. -/
theorem link_spellOut_embedding : Reference.parse "a" = .ok (.foreign "a") ∧
    (link { baseScope := some "a" } embedding).start {} = .ok (.ok embeddedSet, embedded) ∧
      ∃ found' b', (link { baseScope := some "a" } (embedding.map (GrammarFile.spellOut (some "a")))).start {} = .ok (found', b') ∧
        SameSet (some "a") (.ok embeddedSet) found' ∧ StandsAlike (some "a") embedded b' ⟨4⟩ := by
  have hparse : Reference.parse "a" = .ok (.foreign "a") := by decide +kernel
  have hlink : (link { baseScope := some "a" } embedding).start {} = .ok (.ok embeddedSet, embedded) := by cbv
  obtain ⟨found, b, found', b', hrun, hrun', hsame, -, hset⟩ := link_spellOut { baseScope := some "a" }
    (fun scope h => by cases h; exact hparse) embedding
  cases hlink.symm.trans hrun
  obtain ⟨-, -, halike⟩ := hset _ rfl
  exact ⟨hparse, hlink, found', b', hrun', hsame, halike _ (List.mem_cons_of_mem _ List.mem_cons_self) ⟨4⟩ List.mem_cons_self⟩

end GrammarLinker.Linker
