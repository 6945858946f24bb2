import GrammarLinker.Proofs.LinkedSet.Accounting
import GrammarLinker.Proofs.Session.Calls

/-!
# The two policies agree

A run under `abort` is a run under `dropGrammar` that ends where the first grammar would be dropped (`Linker.Stops`). As long as nothing
is dropped both do the same, and then one of them goes on where the other has an error. This is so of each of the four steps, and of the
steps one after the other (`Linker.Stops.bind`). So linking under `abort` has a set if and only if nothing is dropped under
`dropGrammar`, and then the same one; and its error is the one that is recorded first (`Session.link_policies`).
-/

namespace GrammarLinker

open Arena InterGrammar

namespace Linker

variable {α β ι κ : Type} {a m b : Arena} {base : Option String} {files : List GrammarFile}

/-- What a computation makes of a run that had a value, but had to drop grammars for it: it has the same value if there were none, and
else the error of the first one. -/
inductive Stops (x : LinkM Arena α) (a : Arena) (dropped : List DroppedGrammar) (value : α) (b : Arena) : Prop where
  | through (hd : dropped = []) (h : x.start a = .ok (.ok value, b)) : Stops x a dropped value b
  | stopped {d : DroppedGrammar} {rest : List DroppedGrammar} {m : Arena} (hd : dropped = d :: rest)
      (h : x.start a = .ok (.error d.error, m)) : Stops x a dropped value b

/-- What has stopped in the first part has stopped, and what has not goes on. -/
theorem Stops.bind {x : LinkM Arena α} {f : α → LinkM Arena β} {dropped later : List DroppedGrammar} {value : α} {result : β}
    (hx : Stops x a dropped value m) (hf : Stops (f value) m later result b) : Stops (x >>= f) a (dropped ++ later) result b := by
  cases hx with
  | @stopped d rest n hd h =>
    have hfirst : dropped ++ later = d :: (rest ++ later) := by rw [hd, List.cons_append]
    refine .stopped hfirst (m := n) ?_
    rw [LinkM.start_bind, h]
  | through hd h =>
    have hbind : (x >>= f).start a = (f value).start m := by rw [LinkM.start_bind, h]
    rw [hd, List.nil_append]
    cases hf with
    | through hd' h' => exact .through hd' (hbind.trans h')
    | stopped hd' h' => exact .stopped hd' (hbind.trans h')

/-- Items are examined alike up to the first one that fails. -/
theorem sift_stops {scope : ι → String} {examine : ι → LinkM Arena κ} {items : List ι} {kept : List κ}
    {dropped : List DroppedGrammar} (hrun : (sift .dropGrammar scope examine items).start a = .ok (.ok (kept, dropped), b)) :
    Stops (sift .abort scope examine items) a dropped (kept, dropped) b := by
  induction items generalizing a kept dropped with
  | nil =>
    cases hrun
    exact .through rfl rfl
  | cons item rest ih =>
    unfold sift at hrun
    obtain ⟨found, m, hitem, hrun⟩ := LinkM.start_attempt_bind_eq_ok hrun
    cases found with
    | ok value =>
      rcases LinkM.start_bind_eq_ok hrun with ⟨e, -, ⟨⟩⟩ | ⟨⟨kept', dropped'⟩, n, hrest, hrun⟩
      cases hrun
      cases ih hrest with
      | through hd h => exact .through hd (sift_cons_ok hitem h)
      | stopped hd h => exact .stopped hd (sift_cons_ok hitem h)
    | error e =>
      rcases LinkM.start_bind_eq_ok hrun with ⟨e', -, ⟨⟩⟩ | ⟨⟨kept', dropped'⟩, n, hrest, hrun⟩
      cases hrun
      exact .stopped rfl (sift_cons_abort hitem)

/-- The references between grammars are resolved alike up to the first round that fails. What was dropped before is kept, and in each of
the later rounds more is added to it. -/
theorem Rounds.stops {gs : List Grammar} {dropped : List DroppedGrammar} {answer : Except LinkError LinkedSet}
    (h : Rounds { baseScope := base, onFailure := .dropGrammar } gs dropped a answer b) :
    ∀ set, answer = .ok set → ∃ later, set.dropped = dropped ++ later ∧
      Stops (resolveRemaining { baseScope := base, onFailure := .abort } gs dropped) a later set b := by
  induction h with
  | @linked gs dropped report a b hresolve =>
    rintro set ⟨⟩
    have hlinked : Rounds { baseScope := base, onFailure := .abort } gs dropped a (.ok ⟨gs, dropped, report⟩) b := .linked hresolve
    exact ⟨[], (List.append_nil _).symm, .through rfl hlinked.start⟩
  | failed => exact nofun
  | @again gs dropped e answer a m b hresolve _ hblamed _ ih =>
    intro set hset
    obtain ⟨later, hlater, -⟩ := ih set hset
    obtain ⟨g, rest, hg⟩ := List.exists_cons_of_ne_nil hblamed
    refine ⟨(blamed e gs).map (fun g => ⟨g.scopeName, e⟩) ++ later, by rw [hlater, List.append_assoc], ?_⟩
    have hfirst : (blamed e gs).map (fun g => (⟨g.scopeName, e⟩ : DroppedGrammar)) ++ later =
        ⟨g.scopeName, e⟩ :: (rest.map (fun g => ⟨g.scopeName, e⟩) ++ later) := by
      rw [hg, List.map_cons, List.cons_append]
    have hfailed : Rounds { baseScope := base, onFailure := .abort } gs dropped a (.error e) m := .failed hresolve (.inl rfl)
    exact .stopped hfirst hfailed.start

/-- Files are linked alike up to the first error. -/
theorem link_stops {set : LinkedSet}
    (hrun : (link { baseScope := base, onFailure := .dropGrammar } files).start a = .ok (.ok set, b)) :
    Stops (link { baseScope := base, onFailure := .abort } files) a set.dropped set b := by
  unfold link at hrun
  rcases LinkM.start_bind_eq_ok hrun with ⟨e, -, ⟨⟩⟩ | ⟨⟨built, unbuilt⟩, m, hbuilt, hrun⟩
  rcases LinkM.start_bind_eq_ok hrun with ⟨e, -, ⟨⟩⟩ | ⟨⟨unique, repeated⟩, m', hunique, hrun⟩
  rcases LinkM.start_bind_eq_ok hrun with ⟨e, -, ⟨⟩⟩ | ⟨⟨resolved, unresolved⟩, n, hresolved, hrun⟩
  obtain ⟨later, hlater, hstops⟩ := (rounds_of_start hrun).stops set rfl
  rw [hlater, List.append_assoc, List.append_assoc]
  unfold link
  refine (sift_stops hbuilt).bind ?_
  refine (sift_stops hunique).bind ?_
  exact (sift_stops hresolved).bind hstops

end Linker

namespace Session

open Linker

/-- In every session that is reached, linking under `abort` has a set if and only if nothing is dropped under `dropGrammar`, and then both
have the same set and leave the same arena. An error under `abort` is the one for which the first grammar is dropped. -/
theorem link_policies {s : Session} (h : Reachable s) (base : Option String) (files : List GrammarFile) :
    ∃ set b answer a', (link { baseScope := base, onFailure := .dropGrammar } files).start s.arena = .ok (.ok set, b) ∧
      (link { baseScope := base, onFailure := .abort } files).start s.arena = .ok (answer, a') ∧
      ((∃ linked, answer = .ok linked) ↔ set.dropped = []) ∧ (∀ linked, answer = .ok linked → linked = set ∧ a' = b) ∧
      ∀ e, answer = .error e → ∃ first rest, set.dropped = first :: rest ∧ first.error = e := by
  obtain ⟨answer, b, hrun, -⟩ := link_ok { baseScope := base, onFailure := .dropGrammar } files h.sound.closed h.sound.nested
  obtain ⟨set, rfl, -⟩ := link_accounts hrun
  refine ⟨set, b, ?_⟩
  cases link_stops hrun with
  | through hd h' =>
    refine ⟨_, b, hrun, h', ⟨fun _ => hd, fun _ => ⟨set, rfl⟩⟩, fun linked hl => ⟨(Except.ok.inj hl).symm, rfl⟩, nofun⟩
  | @stopped d rest m hd h' =>
    refine ⟨_, m, hrun, h', ⟨nofun, fun hnil => ?_⟩, nofun, fun e he => ⟨d, rest, hd, Except.error.inj he⟩⟩
    rw [hd] at hnil
    cases hnil

/-- In the arena of the ring the mixed files are linked under both policies. Under `abort` the error is that of the file that is dropped
first. -/
theorem link_policies_mixedFiles : Reachable ⟨ring, ringSet.grammars⟩ ∧
    ∃ set b a', (link { onFailure := .dropGrammar } mixedFiles).start ring = .ok (.ok set, b) ∧
      (link { onFailure := .abort } mixedFiles).start ring = .ok (.error (.malformedReference "a" ⟨"#", .missingKey⟩), a') ∧
      set.dropped.map DroppedGrammar.scope = ["a", "b", "c", "d", "e"] ∧
      ∃ first rest, set.dropped = first :: rest ∧ first.error = .malformedReference "a" ⟨"#", .missingKey⟩ := by
  have hreachable : Reachable ⟨ring, ringSet.grammars⟩ := (called_ring_linked AnyList).reachable
  obtain ⟨set, b, answer, a', hdrop, habort, -, -, herror⟩ := link_policies hreachable none mixedFiles
  have hscopes : ((link { onFailure := .dropGrammar } mixedFiles).start ring).map (fun p =>
      p.1.map fun set => set.dropped.map DroppedGrammar.scope) = .ok (.ok ["a", "b", "c", "d", "e"]) := by cbv
  have hanswer : ((link { onFailure := .abort } mixedFiles).start ring).map (fun p => p.1.map LinkedSet.report) =
      .ok (.error (.malformedReference "a" ⟨"#", .missingKey⟩)) := by cbv
  have hset : set.dropped.map DroppedGrammar.scope = _ :=
    Except.ok.inj (Except.ok.inj ((congrArg (Except.map _) hdrop).symm.trans hscopes))
  have he := (congrArg (Except.map _) habort).symm.trans hanswer
  cases answer with
  | ok linked => cases he
  | error e =>
    obtain rfl := Except.error.inj (Except.ok.inj he)
    exact ⟨hreachable, set, b, a', hdrop, habort, hset, herror _ rfl⟩

end Session

end GrammarLinker
