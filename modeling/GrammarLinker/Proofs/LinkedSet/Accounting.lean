import Mathlib.Data.List.Forall2
import GrammarLinker.Proofs.InterGrammar.Report

/-!
# What becomes of every file

Under `dropGrammar` linking has a linked set as its answer, and every file is accounted for in it (`Linker.Accounts`): it was built and
its grammar is linked, or it was dropped, under its scope name and for an error that blames this scope. Each of the four steps takes
grammars out of a list and records them (`Linker.Sifted`), so that what is left keeps its order and nothing is lost or counted twice.

The last step is taken again as long as it fails. It comes to an end because its error always blames a grammar of the set
(`InterGrammar.resolve_blames`).
-/

namespace GrammarLinker

open Arena InterGrammar

/-! ## Whom an error blames -/

/-- What a pass reports has the scope of an include that it was given. -/
theorem Resolution.scope_of_pass {ι : Type} {node : ι → NodeId} {scope : ι → String}
    {verdict : Arena → ι → Except Fault Verdict} {sites : List ι} {a b : Arena} {tally : Tally}
    (h : pass node scope verdict sites a = .ok (tally, b)) :
    ∀ u ∈ tally.missing ++ tally.waiting, ∃ site ∈ sites, u.scope = scope site := by
  induction sites generalizing a tally with
  | nil =>
    cases h
    exact fun u hu => absurd hu List.not_mem_nil
  | cons site rest ih =>
    have hrest : ∀ {m : Arena} {t : Tally}, pass node scope verdict rest m = .ok (t, b) →
        ∀ u ∈ t.missing ++ t.waiting, ∃ s ∈ site :: rest, u.scope = scope s := by
      intro m t hp u hu
      obtain ⟨s, hs, hscope⟩ := ih hp u hu
      exact ⟨s, List.mem_cons_of_mem _ hs, hscope⟩
    unfold pass at h
    obtain ⟨v, -, h⟩ := exists_of_bind_eq_ok h
    cases v with
    | skipped => exact hrest h
    | attached target =>
      obtain ⟨m, -, h⟩ := exists_of_bind_eq_ok h
      obtain ⟨⟨t, m'⟩, hp, h⟩ := exists_of_bind_eq_ok h
      cases h
      exact fun u hu => hrest hp u hu
    | waiting reference =>
      obtain ⟨⟨t, m⟩, hp, h⟩ := exists_of_bind_eq_ok h
      cases h
      intro u hu
      rcases List.mem_cons.1 (List.perm_middle.mem_iff.1 hu) with rfl | hu
      · exact ⟨site, List.mem_cons_self, rfl⟩
      · exact hrest hp u hu
    | missing reference =>
      obtain ⟨⟨t, m⟩, hp, h⟩ := exists_of_bind_eq_ok h
      cases h
      intro u hu
      rcases List.mem_cons.1 hu with rfl | hu
      · exact ⟨site, List.mem_cons_self, rfl⟩
      · exact hrest hp u hu

namespace InterGrammar

variable {gs : List Grammar} {base : Option String} {a b : Arena} {e : LinkError}

/-- The error of a pass that reports something blames the scope of something that it reports. -/
theorem stuckError_blames {tally : Tally} (h : ¬(tally.waiting.isEmpty && tally.missing.isEmpty) = true) :
    ∃ u ∈ tally.missing ++ tally.waiting, u.scope ∈ (stuckError tally).scopes := by
  unfold stuckError
  cases hm : tally.missing with
  | cons first rest => exact ⟨first, List.mem_cons_self, List.mem_singleton.2 rfl⟩
  | nil =>
    cases hw : tally.waiting with
    | nil => simp [hm, hw] at h
    | cons first rest => exact ⟨first, List.mem_cons_self, ((scopesOf_sorted _).2 _).2 ⟨first, List.mem_cons_self, rfl⟩⟩

/-- The error of a run between grammars names the scope of one of them. -/
theorem passes_blames {fuel : Nat} {report : Report} (h : (passes gs base fuel report).start a = .ok (.error e, b)) :
    ∃ g ∈ gs, g.scopeName ∈ e.scopes := by
  induction fuel generalizing report a with
  | zero => cases h
  | succ fuel ih =>
    unfold passes at h
    obtain ⟨tally, m, hrun, h⟩ := LinkM.start_ofChange_bind_eq_ok h
    simp only at h
    split at h
    · cases h
    · rename_i hleft
      split at h
      · obtain ⟨u, hu, hblamed⟩ := stuckError_blames hleft
        obtain ⟨site, hsite, hscope⟩ := Resolution.scope_of_pass hrun u hu
        cases h
        exact ⟨site.1, (mem_sites.1 hsite).1, hscope ▸ hblamed⟩
      · exact ih h

/-- The error of a run blames a grammar of the set. -/
theorem resolve_blames (h : (resolve gs base).start a = .ok (.error e, b)) : ∃ g ∈ gs, g.scopeName ∈ e.scopes :=
  passes_blames h

end InterGrammar

namespace Registry

variable {r : Registry} {a b : Arena} {e : LinkError}

/-- The error of resolving names blames the owner of the registry. -/
theorem resolveEntries_blames {repository : RepositoryId} (h : (r.resolveEntries repository).start a = .ok (.error e, b)) :
    e.scopes = [r.owner] := by
  unfold resolveEntries at h
  obtain ⟨tally, m, hrun, h⟩ := LinkM.start_ofChange_bind_eq_ok h
  split at h
  · cases h
  · rename_i first rest hm
    obtain ⟨_, _, hscope⟩ := Resolution.scope_of_pass hrun first (hm ▸ List.mem_cons_self)
    cases h
    exact congrArg (fun scope => [scope]) hscope

/-- Resolving `$self` has no error. -/
theorem resolveSelf_ne_error (root : ListId) : (r.resolveSelf root).start a ≠ .ok (.error e, b) := by
  intro h
  unfold resolveSelf at h
  obtain ⟨tally, m, -, h⟩ := LinkM.start_ofChange_bind_eq_ok h
  cases h

end Registry

/-- The error of local resolution blames the owner of the registry. -/
theorem Grammar.resolveLocal_blames {g : Grammar} {a b : Arena} {e : LinkError}
    (h : g.resolveLocal.start a = .ok (.error e, b)) : e.scopes = [g.registry.owner] := by
  unfold resolveLocal at h
  obtain ⟨entries, m, hentries, h⟩ := LinkM.start_attempt_bind_eq_ok h
  rcases LinkM.start_bind_eq_ok h with ⟨e', hself, he⟩ | ⟨n, m', hself, h⟩
  · cases he
    exact absurd hself (Registry.resolveSelf_ne_error _)
  · cases entries with
    | ok n => cases h
    | error e' =>
      cases h
      exact Registry.resolveEntries_blames hentries

namespace Linker

/-! ## Taking items out of a list -/

section

variable {ι κ : Type}

/-- An item was dropped: the record has its scope name, and the error blames this scope. -/
def DroppedFor (scope : ι → String) (item : ι) (d : DroppedGrammar) : Prop :=
  d.scope = scope item ∧ d.scope ∈ d.error.scopes

/-- Items were examined in order. Each has a value in a relation to it, or was dropped. -/
inductive Sifted (scope : ι → String) (R : ι → κ → Prop) : List ι → List κ → List DroppedGrammar → Prop where
  | nil : Sifted scope R [] [] []
  | kept {item : ι} {rest : List ι} {value : κ} {values : List κ} {dropped : List DroppedGrammar} (h : R item value)
      (hr : Sifted scope R rest values dropped) : Sifted scope R (item :: rest) (value :: values) dropped
  | dropped {item : ι} {rest : List ι} {d : DroppedGrammar} {values : List κ} {dropped : List DroppedGrammar}
      (h : DroppedFor scope item d) (hr : Sifted scope R rest values dropped) :
      Sifted scope R (item :: rest) values (d :: dropped)

variable {scope : ι → String} {R : ι → κ → Prop} {items : List ι} {values : List κ} {dropped : List DroppedGrammar}

/-- The items that have values and the ones that were dropped are all items, each as often as it was there. -/
theorem Sifted.partition (h : Sifted scope R items values dropped) :
    ∃ kept lost, kept.Sublist items ∧ (kept ++ lost).Perm items ∧ List.Forall₂ R kept values ∧
      List.Forall₂ (DroppedFor scope) lost dropped := by
  induction h with
  | nil => exact ⟨[], [], .slnil, .nil, .nil, .nil⟩
  | @kept item rest value values dropped h _ ih =>
    obtain ⟨kept, lost, hsub, hperm, hkept, hlost⟩ := ih
    exact ⟨item :: kept, lost, hsub.cons_cons item, hperm.cons item, .cons h hkept, hlost⟩
  | @dropped item rest d values dropped h _ ih =>
    obtain ⟨kept, lost, hsub, hperm, hkept, hlost⟩ := ih
    exact ⟨kept, item :: lost, hsub.cons item, List.perm_middle.trans (hperm.cons item), hkept, .cons h hlost⟩

/-- Items may be exchanged for others of the same scopes. -/
theorem Sifted.of_forall₂ {θ : Type} {scope' : θ → String} {S : θ → ι → Prop} {T : θ → κ → Prop} {others : List θ}
    (h : Sifted scope R items values dropped) (ho : List.Forall₂ S others items)
    (hscope : ∀ other item, S other item → scope item = scope' other)
    (hT : ∀ other item value, S other item → R item value → T other value) : Sifted scope' T others values dropped := by
  induction h generalizing others with
  | nil =>
    cases ho
    exact .nil
  | kept h _ ih =>
    cases ho with
    | cons hs ho => exact .kept (hT _ _ _ hs h) (ih ho)
  | dropped h _ ih =>
    cases ho with
    | cons hs ho => exact .dropped ⟨h.1.trans (hscope _ _ hs), h.2⟩ (ih ho)

/-- Examining items under `dropGrammar` does not fail, when every error blames the item that it is about. What holds of the arena and is
kept by each examination may be relied on. -/
theorem sift_sifted {examine : ι → LinkM Arena κ} {I : Arena → Prop} {a b : Arena}
    {answer : Except LinkError (List κ × List DroppedGrammar)}
    (h : ∀ item ∈ items, ∀ m answer n, I m → (examine item).start m = .ok (answer, n) →
      I n ∧ (∀ value, answer = .ok value → R item value) ∧ ∀ e, answer = .error e → scope item ∈ e.scopes)
    (ha : I a) (hrun : (sift .dropGrammar scope examine items).start a = .ok (answer, b)) :
    ∃ p, answer = .ok p ∧ Sifted scope R items p.1 p.2 := by
  induction items generalizing a b answer with
  | nil =>
    cases hrun
    exact ⟨_, rfl, .nil⟩
  | cons item rest ih =>
    have hrest : ∀ i ∈ rest, _ := fun i hi => h i (List.mem_cons_of_mem _ hi)
    unfold sift at hrun
    obtain ⟨value, m, hitem, hrun⟩ := LinkM.start_attempt_bind_eq_ok hrun
    obtain ⟨hm, hvalue, herror⟩ := h item List.mem_cons_self a value m ha hitem
    cases value with
    | ok value =>
      obtain ⟨⟨kept, dropped⟩, n, -, hsifted, hrun⟩ := LinkM.start_bind_eq_ok_of_value hrun fun _ _ => ih hrest hm
      cases hrun
      exact ⟨_, rfl, .kept (hvalue value rfl) hsifted⟩
    | error e =>
      obtain ⟨⟨kept, dropped⟩, n, -, hsifted, hrun⟩ := LinkM.start_bind_eq_ok_of_value hrun fun _ _ => ih hrest hm
      cases hrun
      exact ⟨_, rfl, .dropped ⟨rfl, herror e rfl⟩ hsifted⟩

end

variable {files : List GrammarFile} {gs : List Grammar} {dropped : List DroppedGrammar} {a b : Arena} {base : Option String}

/-- A grammar was built from a file, in an arena with everything that `a` has. -/
def BuiltAfter (a : Arena) (file : GrammarFile) (g : Grammar) : Prop :=
  ∃ before after, a.Extends before ∧ (Grammar.build file).start before = .ok (.ok g, after)

/-- Files are accounted for: each of them, as often as it is listed, is the file of a grammar or of a dropped one. The grammars stand
in the order of their files and were built from them; a dropped one has the scope name of its file, and its error blames this scope. -/
def Accounts (a : Arena) (files : List GrammarFile) (gs : List Grammar) (dropped : List DroppedGrammar) : Prop :=
  ∃ kept lost, kept.Sublist files ∧ (kept ++ lost).Perm files ∧ List.Forall₂ (BuiltAfter a) kept gs ∧
    List.Forall₂ (DroppedFor GrammarFile.scopeName) lost dropped

theorem BuiltAfter.names {file : GrammarFile} {g : Grammar} (h : BuiltAfter a file g) :
    g.scopeName = file.scopeName ∧ g.registry.owner = g.scopeName := by
  obtain ⟨before, after, -, hrun⟩ := h
  obtain ⟨-, hbuilt⟩ := built_of_start hrun
  exact ⟨hbuilt.showing.scopeName, hbuilt.owner⟩

/-- Every grammar that is accounted for was built. -/
theorem Accounts.owner (h : Accounts a files gs dropped) : ∀ g ∈ gs, g.registry.owner = g.scopeName := by
  obtain ⟨kept, -, -, -, hkept, -⟩ := h
  intro g hg
  obtain ⟨i, hi, rfl⟩ := List.mem_iff_getElem.1 hg
  exact (hkept.get (hkept.length_eq ▸ hi) hi).names.2

/-- Grammars may be taken out of those that are accounted for, when they are recorded. -/
theorem Accounts.sifted {gs' : List Grammar} {dropped' : List DroppedGrammar} (h : Accounts a files gs dropped)
    (hs : Sifted Grammar.scopeName (· = ·) gs gs' dropped') : Accounts a files gs' (dropped ++ dropped') := by
  obtain ⟨kept, lost, hsub, hperm, hkept, hlost⟩ := h
  have hfiles : Sifted GrammarFile.scopeName (BuiltAfter a) kept gs' dropped' :=
    hs.of_forall₂ hkept (fun _ _ hb => hb.names.1) fun _ _ _ hb heq => heq ▸ hb
  obtain ⟨kept', lost', hsub', hperm', hkept', hlost'⟩ := hfiles.partition
  refine ⟨kept', lost ++ lost', hsub'.trans hsub, ?_, hkept', List.rel_append hlost hlost'⟩
  calc kept' ++ (lost ++ lost')
    _ |>.Perm (kept' ++ (lost' ++ lost)) := List.perm_append_comm.append_left kept'
    _ = kept' ++ lost' ++ lost := (List.append_assoc ..).symm
    _ |>.Perm (kept ++ lost) := hperm'.append_right lost
    _ |>.Perm files := hperm

/-! ## The steps of linking -/

/-- Building files accounts for them. -/
theorem sift_build_accounts {answer : Except LinkError (List Grammar × List DroppedGrammar)}
    (hrun : (sift .dropGrammar GrammarFile.scopeName Grammar.build files).start a = .ok (answer, b)) :
    ∃ p, answer = .ok p ∧ Accounts a files p.1 p.2 := by
  refine (sift_sifted (R := BuiltAfter a) (I := a.Extends) ?_ (.refl a) hrun).imp fun _ h => ⟨h.1, h.2.partition⟩
  intro file _ m answer n hm hbuild
  obtain ⟨hx, -, -, -, he, -⟩ := LinkM.outcome (Grammar.build_ok file m) hbuild
  refine ⟨hm.trans hx, ?_, fun e h => he e h ▸ List.mem_singleton.2 rfl⟩
  rintro g rfl
  exact ⟨m, n, hm, hbuild⟩

theorem forall₂_withEarlier (earlier : List String) (gs : List Grammar) :
    List.Forall₂ (fun g site => site.1 = g) gs (withEarlier earlier gs) := by
  induction gs generalizing earlier with
  | nil => exact .nil
  | cons g rest ih => exact .cons rfl (ih _)

/-- The grammars whose scope name was there already are taken out. -/
theorem sift_checkScope_sifted {answer : Except LinkError (List Grammar × List DroppedGrammar)}
    (hrun : (sift .dropGrammar (·.1.scopeName) checkScope (withEarlier [] gs)).start a = .ok (answer, b)) :
    ∃ p, answer = .ok p ∧ Sifted Grammar.scopeName (· = ·) gs p.1 p.2 := by
  refine (sift_sifted (R := fun site g => site.1 = g) (I := fun _ => True) ?_ trivial hrun).imp fun _ h => ⟨h.1,
    h.2.of_forall₂ (forall₂_withEarlier [] gs) (fun _ _ heq => congrArg _ heq) fun _ _ _ heq heq' => heq.symm.trans heq'⟩
  intro site _ m answer n _ hcheck
  unfold checkScope at hcheck
  split at hcheck
  · cases hcheck
    exact ⟨trivial, nofun, fun e h => Except.error.inj h ▸ List.mem_singleton.2 rfl⟩
  · cases hcheck
    exact ⟨trivial, fun g h => Except.ok.inj h, nofun⟩

/-- The grammars with a name of their own that is not found are taken out. -/
theorem sift_localized_sifted {answer : Except LinkError (List Grammar × List DroppedGrammar)}
    (howner : ∀ g ∈ gs, g.registry.owner = g.scopeName)
    (hrun : (sift .dropGrammar Grammar.scopeName localized gs).start a = .ok (answer, b)) :
    ∃ p, answer = .ok p ∧ Sifted Grammar.scopeName (· = ·) gs p.1 p.2 := by
  refine sift_sifted (I := fun _ => True) ?_ trivial hrun
  intro g hg m answer n _ hlocal
  rcases LinkM.start_bind_eq_ok hlocal with ⟨e, he, rfl⟩ | ⟨u, m', -, h⟩
  · refine ⟨trivial, nofun, ?_⟩
    rintro _ ⟨⟩
    rw [Grammar.resolveLocal_blames he, howner g hg]
    exact List.mem_singleton.2 rfl
  · cases h
    exact ⟨trivial, fun h heq => Except.ok.inj heq, nofun⟩

/-- The error of a run always blames some of the grammars. -/
theorem blamed_ne_nil {e : LinkError} (h : (resolve gs base).start a = .ok (.error e, b)) : blamed e gs ≠ [] := by
  obtain ⟨g, hg, hblames⟩ := resolve_blames h
  exact List.ne_nil_of_mem (List.mem_filter.2 ⟨hg, decide_eq_true hblames⟩)

/-- Taking out the grammars that an error blames. -/
theorem sifted_spared (e : LinkError) (gs : List Grammar) :
    Sifted Grammar.scopeName (· = ·) gs (spared e gs) ((blamed e gs).map fun g => ⟨g.scopeName, e⟩) := by
  induction gs with
  | nil => exact .nil
  | cons g rest ih =>
    by_cases hg : g.scopeName ∈ e.scopes
    · have hs : Sifted Grammar.scopeName (· = ·) (g :: rest) (spared e rest) (⟨g.scopeName, e⟩ :: _) := .dropped ⟨rfl, hg⟩ ih
      simpa [spared, blamed, hg] using hs
    · have hs : Sifted Grammar.scopeName (· = ·) (g :: rest) (g :: spared e rest) _ := .kept rfl ih
      simpa [spared, blamed, hg] using hs

/-- The rounds of resolution between grammars do not fail, and account for the grammars that they take out. -/
theorem resolveRemaining_accounts {gs : List Grammar} {dropped : List DroppedGrammar} {m : Arena}
    {answer : Except LinkError LinkedSet} (h : Accounts a files gs dropped)
    (hrun : (resolveRemaining { baseScope := base, onFailure := .dropGrammar } gs dropped).start m = .ok (answer, b)) :
    ∃ set, answer = .ok set ∧ Accounts a files set.grammars set.dropped := by
  induction rounds_of_start hrun with
  | linked _ => exact ⟨_, rfl, h⟩
  | failed hresolve hend => exact absurd (hend.resolve_left nofun) (blamed_ne_nil hresolve)
  | @again gs dropped e answer m n b _ _ _ hr ih => exact ih (h.sifted (sifted_spared e gs)) hr.start

/-- Preparing under `dropGrammar` does not fail, and accounts for the files. -/
theorem prepare_accounts {answer : Except LinkError (List Grammar × List DroppedGrammar)}
    (hrun : (prepare .dropGrammar files).start a = .ok (answer, b)) : ∃ p, answer = .ok p ∧ Accounts a files p.1 p.2 := by
  unfold prepare at hrun
  obtain ⟨⟨built, unbuilt⟩, m, -, hbuilt, hrun⟩ := LinkM.start_bind_eq_ok_of_value hrun fun _ _ => sift_build_accounts
  obtain ⟨⟨unique, repeated⟩, n, -, hs, hrun⟩ := LinkM.start_bind_eq_ok_of_value hrun fun _ _ => sift_checkScope_sifted
  have hunique : Accounts a files unique (unbuilt ++ repeated) := hbuilt.sifted hs
  obtain ⟨⟨resolved, unresolved⟩, n', -, hs', hrun⟩ :=
    LinkM.start_bind_eq_ok_of_value hrun fun _ _ => sift_localized_sifted hunique.owner
  cases hrun
  exact ⟨_, rfl, hunique.sifted hs'⟩

/-- So does linking. -/
theorem link_accounts {answer : Except LinkError LinkedSet}
    (hrun : (link { baseScope := base, onFailure := .dropGrammar } files).start a = .ok (answer, b)) :
    ∃ set, answer = .ok set ∧ Accounts a files set.grammars set.dropped := by
  rw [link_eq] at hrun
  obtain ⟨⟨resolved, dropped⟩, n, -, hacc, hrun⟩ := LinkM.start_bind_eq_ok_of_value hrun fun _ _ => prepare_accounts
  exact resolveRemaining_accounts hacc hrun

end Linker

/-- A grammar none of whose registered includes is pending is resolved. -/
theorem Registry.isResolved_ok {r : Registry} {a : Arena} (h : ∀ id ∈ r.includes, a.HasNode id)
    (hp : ∀ id ∈ r.includes, a.pending? id = none) : r.isResolved a = .ok true := by
  unfold isResolved
  generalize r.includes = ids at h hp
  induction ids with
  | nil => rfl
  | cons id rest ih =>
    have hrest := ih (fun i hi => h i (List.mem_cons_of_mem _ hi)) fun i hi => hp i (List.mem_cons_of_mem _ hi)
    unfold nonePending inclusionKind
    rcases (h id List.mem_cons_self).inclusion_cases with ⟨hi, -⟩ | ⟨text, declared, target, hi, -⟩ |
      ⟨text, declared, reference, -, hpending⟩
    · rw [hi]
      exact hrest
    · rw [hi]
      exact hrest
    · rw [hp id List.mem_cons_self] at hpending
      cases hpending

namespace Session

open Linker

/-- In every session that is reached, linking under `dropGrammar` has a linked set as its answer. Every file is accounted for in it, and
the linked grammars have distinct scope names and are resolved. -/
theorem link_dropGrammar {s : Session} (h : s.Reachable) (base : Option String) (files : List GrammarFile) :
    ∃ set b, (link { baseScope := base, onFailure := .dropGrammar } files).start s.arena = .ok (.ok set, b) ∧
      Accounts s.arena files set.grammars set.dropped ∧ (set.grammars.map Grammar.scopeName).Nodup ∧
      ∀ g ∈ set.grammars, g.isResolved b = .ok true := by
  obtain ⟨answer, b, hrun, -, -, -, hlinked, -⟩ := link_ok { baseScope := base, onFailure := .dropGrammar } files
    h.sound.closed h.sound.nested
  obtain ⟨set, rfl, haccounts⟩ := link_accounts hrun
  obtain ⟨spans, m, unique, resolved, hl⟩ := hlinked set rfl
  refine ⟨set, b, hrun, haccounts, ?_, ?_⟩
  · exact hl.scopeNames.sublist ((hl.grammars_sublist.trans hl.resolved_sublist).map _)
  · exact fun g hg => Registry.isResolved_ok (hl.ready_set.held g hg).includes (hl.settled g hg)

/-- Files one of which can be linked. Of the others, the first has an include that cannot be read, the third the scope name of the
second, the fourth an include of an entry that is not there, and the last two wait for each other. -/
def mixedFiles : List GrammarFile :=
  [{ scopeName := "a", patterns := [.including "#"] }, { scopeName := "b", patterns := [.matching "r" "x"] },
    { scopeName := "b" }, { scopeName := "c", patterns := [.including "#missing"] },
    { scopeName := "d", patterns := [.including "e"] }, { scopeName := "e", patterns := [.including "d"] }]

/-- Of the mixed files one is kept, and the errors of the others blame their scopes. -/
theorem link_dropGrammar_mixedFiles : Reachable {} ∧
    ∃ set b, (link { onFailure := .dropGrammar } mixedFiles).start {} = .ok (.ok set, b) ∧
      set.grammars.map Grammar.scopeName = ["b"] ∧ set.dropped.map DroppedGrammar.scope = ["a", "b", "c", "d", "e"] ∧
      Accounts {} mixedFiles set.grammars set.dropped ∧ (set.grammars.map Grammar.scopeName).Nodup ∧
      ∀ g ∈ set.grammars, g.isResolved b = .ok true := by
  obtain ⟨set, b, hrun, hspec⟩ := link_dropGrammar .empty none mixedFiles
  have hscopes : ((link { onFailure := .dropGrammar } mixedFiles).start {}).map (fun p =>
      p.1.map fun set => (set.grammars.map Grammar.scopeName, set.dropped.map DroppedGrammar.scope)) =
        .ok (.ok (["b"], ["a", "b", "c", "d", "e"])) := by cbv
  have hset : (set.grammars.map Grammar.scopeName, set.dropped.map DroppedGrammar.scope) = _ :=
    Except.ok.inj (Except.ok.inj ((congrArg (Except.map _) hrun).symm.trans hscopes))
  obtain ⟨hkept, hdropped⟩ := Prod.mk.inj hset
  exact ⟨.empty, set, b, hrun, hkept, hdropped, hspec⟩

end Session

end GrammarLinker
