import GrammarLinker.Proofs.Copy.Commutation
import GrammarLinker.Proofs.Copy.Queue

/-!
# What a copy reports

A copy of a grammar that was just built registers its includes breadth first, and only those that the grammar reaches. The grammar
registers them as they stand in the file, its repository before its patterns, also in repositories in which nothing is declared. So the
two need not report the same name when several are not found (`Grammar.copy_reports_alike_false`). Each reports the first one in its own
order; what the copy reports is not found by the grammar either, and nothing is reported by the copy when the grammar reports nothing
(`Grammar.copy_reports`).
-/

namespace GrammarLinker

open Arena

namespace Grammar

variable {g copy : Grammar} {a m c : Arena} {φ : Renaming} {ids : List NodeId} {answer : Except LinkError Unit}

/-- There is no error exactly when every name is found. -/
theorem ReportsFirst.eq_ok_iff (h : g.ReportsFirst a ids answer) :
    answer = .ok () ↔ ∀ id ∈ ids, ∀ text, ¬Registry.Misses a g.repository id text := by
  classical
  constructor
  · rintro rfl id hid text hmisses
    -- the first of them would be reported
    obtain ⟨first, hfirst⟩ : ∃ first, ids.find? (fun id => ∃ text, Registry.Misses a g.repository id text) = some first := by
      rw [← Option.isSome_iff_exists, List.find?_isSome]
      exact ⟨id, hid, decide_eq_true ⟨text, hmisses⟩⟩
    obtain ⟨hmissed, before, after, hids, hbefore⟩ := List.find?_eq_some_iff_append.1 hfirst
    obtain ⟨text', hmissed⟩ := of_decide_eq_true hmissed
    have hfound : ∀ other ∈ before, ∀ t, ¬Registry.Misses a g.repository other t := fun other hother t ht => by
      have hno := hbefore other hother
      rw [decide_eq_true ⟨t, ht⟩] at hno
      cases hno
    cases (h (.unresolvedReference g.scopeName text')).2 ⟨before, first, after, text', hids, hfound, hmissed, rfl⟩
  · intro hfound
    cases answer with
    | ok u => rfl
    | error e =>
      obtain ⟨before, id, after, text, rfl, -, hmisses, -⟩ := (h e).1 rfl
      exact absurd hmisses (hfound id (List.mem_append_right _ List.mem_cons_self) text)

/-- What is reported of copies is what is reported of their sources. -/
theorem CopiedBy.reportsFirst_iff (h : g.CopiedBy copy m c φ) (hk : m.KeyedIn (g.reach m)) (hf : m.FiniteIn (g.reach m))
    (hreach : (g.reach m).Within m.region) (hids : ∀ id ∈ ids, g.Reaches m (.node id)) :
    copy.ReportsFirst c (ids.map φ.node) answer ↔ g.ReportsFirst m ids answer := by
  have hmisses : ∀ {id text}, id ∈ ids →
      (Registry.Misses c copy.repository (φ.node id) text ↔ Registry.Misses m g.repository id text) := fun {id text} hid => by
    rw [h.repository]
    exact Registry.misses_of_embeds (h.embeds hk) (g.reach_staysIn m) hf (hids id hid) (hreach.nodes id (hids id hid)) .repository
  unfold ReportsFirst
  refine forall_congr' fun e => iff_congr .rfl ?_
  rw [h.scopeName]
  constructor
  · rintro ⟨before, id, after, text, heq, hbefore, hmissed, he⟩
    obtain ⟨before, rest, rfl, rfl, hrest⟩ := List.map_eq_append_iff.1 heq
    obtain ⟨id, after, rfl, rfl, rfl⟩ := List.map_eq_cons_iff.1 hrest
    refine ⟨before, id, after, text, rfl, fun other hother t ht => ?_, ?_, he⟩
    · exact hbefore (φ.node other) (List.mem_map_of_mem hother) t ((hmisses (List.mem_append_left _ hother)).2 ht)
    · exact (hmisses (List.mem_append_right _ List.mem_cons_self)).1 hmissed
  · rintro ⟨before, id, after, text, rfl, hbefore, hmissed, he⟩
    refine ⟨before.map φ.node, φ.node id, after.map φ.node, text, by rw [List.map_append, List.map_cons], ?_, ?_, he⟩
    · intro other hother t ht
      obtain ⟨source, hsource, rfl⟩ := List.mem_map.1 hother
      exact hbefore source hsource t ((hmisses (List.mem_append_left _ hsource)).1 ht)
    · exact (hmisses (List.mem_append_right _ List.mem_cons_self)).2 hmissed

/-- Of a grammar that was just built, the copy registers the pending includes that the grammar reaches, breadth first. Resolving the copy on
its own reports the first of these with a name that is not found, and resolving the grammar the first one of its own registry. When all
names are found in the grammar, they are found in the copy. -/
theorem copy_reports {file : GrammarFile} (h : (build file).start a = .ok (.ok g, m)) (hroom : m.lists.size < Arena.capacity) :
    ∃ copy c φ order answer e answer' n, g.copy m = .ok (copy, c) ∧ g.CopiedBy copy m c φ ∧ g.BreadthFirst m order ∧
      copy.registry.includes = (m.pendingIn order).map φ.node ∧ (m.pendingIn order).Nodup ∧
      (∀ id, id ∈ m.pendingIn order ↔ id ∈ g.registry.includes ∧ g.Reaches m (.node id)) ∧
      copy.resolveLocal.start c = .ok (answer, e) ∧ g.resolveLocal.start m = .ok (answer', n) ∧
      g.ReportsFirst m (m.pendingIn order) answer ∧ g.ReportsFirst m g.registry.includes answer' ∧
      (answer' = .ok () → answer = .ok ()) := by
  obtain ⟨hg, hin, hk, hf⟩ := reach_of_start h
  have hsince := since_within_region m a
  have hreach : (g.reach m).Within m.region := hin.trans hsince
  have hforest : m.ForestIn (g.reach m) := hg.sound.forest.mono hin
  obtain ⟨copy, c, φ, order, hcopy, -, hc, horder, hincludes⟩ := copy_breadthFirst hreach hf hforest hroom
  have hmem : ∀ id, id ∈ m.pendingIn order ↔ id ∈ g.registry.includes ∧ g.Reaches m (.node id) := by
    refine fun id => ⟨fun hid => ?_, fun ⟨hid, hreached⟩ => ?_⟩
    · obtain ⟨hreached, hp⟩ := horder.reaches hreach hid
      exact ⟨hg.registered_of_pending (hin.nodes id hreached) hp, hreached⟩
    · have hcopied := (hc.registered (φ.node id)).2 ⟨id, hreached, (hg.mem_includes.1 hid).2, rfl⟩
      rw [hincludes] at hcopied
      obtain ⟨other, hother, heq⟩ := List.mem_map.1 hcopied
      obtain rfl := hc.nodes.injOn (horder.reaches hreach hother).1 hreached heq
      exact hother
  obtain ⟨n, hrun⟩ := resolveLocal_answer hg.sound.closed (finiteIn_of_start h) hsince hg.liesIn
  obtain ⟨e, hrun'⟩ := resolveLocal_answer (hc.closedIn hreach) (hc.finiteIn hk hf) (since_within_region c m) hc.liesIn
  have hsource := localAnswer_reportsFirst (a := m) hg.owner
  have hcopied : g.ReportsFirst m (m.pendingIn order) (copy.localAnswer c) := by
    rw [← hc.reportsFirst_iff hk hf hreach fun id hid => ((hmem id).1 hid).2, ← hincludes]
    exact localAnswer_reportsFirst (hc.owner.trans hc.scopeName.symm)
  refine ⟨copy, c, φ, order, _, e, _, n, hcopy, hc, horder, hincludes, horder.nodup_pendingIn hreach hforest, hmem, hrun', hrun,
    hcopied, hsource, fun hok => ?_⟩
  exact hcopied.eq_ok_iff.2 fun id hid => hsource.eq_ok_iff.1 hok id ((hmem id).1 hid).1

/-! ### Grammars beside their copies -/

/-- The texts of what a grammar has registered. -/
def registeredTexts (g : Grammar) (a : Arena) : List String :=
  g.registry.includes.filterMap fun id => ((a.inclusion id).toOption.getD none).map Include.reference

/-- A grammar that is built from a file, and after it its copy: what each has registered, and what it answers when it is resolved on its
own. There is none when the file cannot be built. -/
def besideCopy (file : GrammarFile) : Except Fault (List (List String × Except LinkError Unit)) := do
  let (built, m) ← (build file).start {}
  match built with
  | .error _ => return []
  | .ok g =>
    let (copy, c) ← g.copy m
    let (answer', _) ← g.resolveLocal.start m
    let (answer, _) ← copy.resolveLocal.start c
    return [(g.registeredTexts m, answer'), (copy.registeredTexts c, answer)]

/-- What was computed of a grammar and its copy was answered by their calls. -/
theorem exists_of_besideCopy {file : GrammarFile} {names names' : List String} {answer answer' : Except LinkError Unit}
    (h : besideCopy file = .ok [(names', answer'), (names, answer)]) : ∃ g m copy c e n, (build file).start {} = .ok (.ok g, m) ∧
      g.copy m = .ok (copy, c) ∧ g.registeredTexts m = names' ∧ copy.registeredTexts c = names ∧
      g.resolveLocal.start m = .ok (answer', n) ∧ copy.resolveLocal.start c = .ok (answer, e) := by
  unfold besideCopy at h
  obtain ⟨⟨error | g, m⟩, hbuild, h⟩ := exists_of_bind_eq_ok h
  · cases h
  obtain ⟨⟨copy, c⟩, hcopy, h⟩ := exists_of_bind_eq_ok h
  obtain ⟨⟨_, n⟩, hsource, h⟩ := exists_of_bind_eq_ok h
  obtain ⟨⟨_, e⟩, hcopied, h⟩ := exists_of_bind_eq_ok h
  cases h
  exact ⟨g, m, copy, c, e, n, hbuild, hcopy, rfl, rfl, hsource, hcopied⟩

/-- A file with a name that is missing in an entry of its repository, and one that is missing in its patterns. -/
def swapped : GrammarFile where
  scopeName := "s"
  patterns := [.including "#b"]
  repository := [("k", .group [.including "#a"])]

/-- A file with a name that is missing in the repository of a rule, in which nothing else was declared. -/
def sheltered : GrammarFile where
  scopeName := "s"
  patterns := [{ name := some "r", repository := [("x", .group [.including "#z"])] }]

/-- In `swapped` two names are missing, and the copy meets them in the other order, so it reports the other one. -/
theorem copy_reports_swapped : ∃ g m, (build swapped).start {} = .ok (.ok g, m) ∧ m.lists.size < Arena.capacity ∧
    ∃ copy c, ∃ φ : Renaming, ∃ order e n, g.copy m = .ok (copy, c) ∧ g.CopiedBy copy m c φ ∧ g.BreadthFirst m order ∧
      copy.registry.includes = (m.pendingIn order).map φ.node ∧ (m.pendingIn order).Nodup ∧
      (∀ id, id ∈ m.pendingIn order ↔ id ∈ g.registry.includes ∧ g.Reaches m (.node id)) ∧
      copy.resolveLocal.start c = .ok (.error (.unresolvedReference "s" "#b"), e) ∧
      g.resolveLocal.start m = .ok (.error (.unresolvedReference "s" "#a"), n) ∧
      g.ReportsFirst m (m.pendingIn order) (.error (.unresolvedReference "s" "#b")) ∧
      g.ReportsFirst m g.registry.includes (.error (.unresolvedReference "s" "#a")) := by
  have hread : besideCopy swapped = .ok [(["#a", "#b"], .error (.unresolvedReference "s" "#a")),
      (["#b", "#a"], .error (.unresolvedReference "s" "#b"))] := by cbv
  have hsize : ((build swapped).start {}).map (fun p => p.2.lists.size) = .ok 2 := by cbv
  obtain ⟨g, m, copy, c, e, n, hbuild, hcopy, -, -, hsource, hcopied⟩ := exists_of_besideCopy hread
  rw [hbuild] at hsize
  have hroom : m.lists.size < Arena.capacity := by
    rw [show m.lists.size = 2 from Except.ok.inj hsize]
    decide
  obtain ⟨copy', c', φ, order, answer, e', answer', n', hcopy', hc, horder, hincludes, hnodup, hmem, hcopied', hsource', hfirst,
    hfirst', -⟩ := copy_reports hbuild hroom
  obtain ⟨rfl, rfl⟩ := Prod.mk.inj (Except.ok.inj (hcopy.symm.trans hcopy'))
  obtain ⟨rfl, rfl⟩ := Prod.mk.inj (Except.ok.inj (hcopied.symm.trans hcopied'))
  obtain ⟨rfl, rfl⟩ := Prod.mk.inj (Except.ok.inj (hsource.symm.trans hsource'))
  exact ⟨g, m, hbuild, hroom, copy, c, φ, order, e, n, hcopy, hc, horder, hincludes, hnodup, hmem, hcopied, hsource, hfirst, hfirst'⟩

/-- A copy need not register its includes in the order of the grammar, and the two may report different names. A name may be missing in the
grammar alone. -/
theorem copy_reports_alike_false :
    (∃ g m copy c e n, (build swapped).start {} = .ok (.ok g, m) ∧ g.copy m = .ok (copy, c) ∧
      g.registeredTexts m = ["#a", "#b"] ∧ copy.registeredTexts c = ["#b", "#a"] ∧
      g.resolveLocal.start m = .ok (.error (.unresolvedReference "s" "#a"), n) ∧
      copy.resolveLocal.start c = .ok (.error (.unresolvedReference "s" "#b"), e)) ∧
    ∃ g m copy c e n, (build sheltered).start {} = .ok (.ok g, m) ∧ g.copy m = .ok (copy, c) ∧
      g.registeredTexts m = ["#z"] ∧ copy.registeredTexts c = [] ∧
      g.resolveLocal.start m = .ok (.error (.unresolvedReference "s" "#z"), n) ∧ copy.resolveLocal.start c = .ok (.ok (), e) :=
  ⟨exists_of_besideCopy (by cbv), exists_of_besideCopy (by cbv)⟩

end Grammar

end GrammarLinker
