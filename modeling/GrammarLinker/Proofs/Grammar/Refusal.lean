import GrammarLinker.Proofs.Grammar.Build
import GrammarLinker.Proofs.InterGrammar.OneShot

/-!
# Which reference a build refuses

A build looks at the references of a file in a fixed order (`GrammarFile.references`) and ends with the first one that is malformed. Every
part of a build looks at some texts in this way (`Draft.Scans`), a part that is made of two at the texts of the first one and then at
those of the second one (`Draft.Scans.bind`). What is built before the end stays in the arena, but nothing that was there refers to it
(`Grammar.build_refuses`).
-/

namespace GrammarLinker

open Arena

/-! ## The references of a file -/

namespace Record

mutual

/-- The references that are looked at when a record is built: the one of an include, and for a rule those in its repository before those
in its patterns. What else an include has is not looked at. -/
def references : Record → List String
  | ⟨some text, _, _, _, _⟩ => [text]
  | ⟨none, _, _, patterns, repository⟩ => referencesOfEntries repository ++ referencesOfItems patterns

/-- The references in records, in order. -/
def referencesOfItems : List Record → List String
  | [] => []
  | r :: rest => r.references ++ referencesOfItems rest

/-- The references in the entries of a repository, in order. -/
def referencesOfEntries : List (String × Record) → List String
  | [] => []
  | (_, r) :: rest => r.references ++ referencesOfEntries rest

end

/-- A bare group has the references of its patterns. -/
theorem references_of_isBareGroup {r : Record} (h : r.isBareGroup = true) : r.references = referencesOfItems r.patterns := by
  obtain ⟨reference, name, rule, patterns, repository⟩ := r
  simp only [isBareGroup, Bool.and_eq_true, Option.isNone_iff_eq_none, List.isEmpty_iff] at h
  obtain ⟨⟨⟨rfl, -⟩, -⟩, rfl⟩ := h
  rw [references, referencesOfEntries, List.nil_append]

end Record

/-- The references of a file, in the order in which they are looked at: those in its repository, and then those in its patterns. -/
def GrammarFile.references (file : GrammarFile) : List String :=
  Record.referencesOfEntries file.repository ++ Record.referencesOfItems file.patterns

namespace Reference

/-- Why a text is no reference, if it is none. -/
def malformed? (text : String) : Option Malformed :=
  match parse text with
  | .ok _ => none
  | .error e => some e

/-- A text is not malformed exactly when it is a reference. -/
theorem malformed?_eq_none {text : String} : malformed? text = none ↔ ∃ reference, parse text = .ok reference := by
  unfold malformed?
  cases parse text <;> simp

/-- Why a text is malformed is the error of reading it. -/
theorem malformed?_eq_some {text : String} {e : Malformed} : malformed? text = some e ↔ parse text = .error e := by
  unfold malformed?
  cases parse text <;> simp

/-- A text that is malformed is named by the error. -/
theorem exists_reason {text : String} {e : Malformed} (h : parse text = .error e) : ∃ reason, e = ⟨text, reason⟩ := by
  unfold parse at h
  cases hread : read text.toList with
  | ok reference => rw [hread] at h; cases h
  | error reason =>
    rw [hread] at h
    cases h
    exact ⟨reason, rfl⟩

end Reference

/-! ## Parts of a build -/

namespace Draft

variable {α β : Type} {x : LinkM Draft α} {texts texts' : List String}

/-- A part of a build looks at texts, in order, until one of them is malformed: it has an error exactly when one of them is, and the error
tells the first one. -/
def Scans (x : LinkM Draft α) (texts : List String) : Prop :=
  ∀ d answer d', x.start d = .ok (answer, d') → d'.registry.owner = d.registry.owner ∧
    ∀ e, answer = .error e ↔ ∃ malformed, texts.findSome? Reference.malformed? = some malformed ∧
      e = .malformedReference d.registry.owner malformed

/-- To give a value back is to look at no text. -/
theorem scans_pure (value : α) : Scans (pure value) [] := by
  rintro d answer d' ⟨⟩
  exact ⟨rfl, fun e => iff_of_false nofun nofun⟩

/-- A change of the draft looks at nothing. -/
theorem scans_ofChange {change : Draft → Except Fault (α × Draft)}
    (h : ∀ d value d', change d = .ok (value, d') → d'.registry.owner = d.registry.owner) : Scans (.ofChange change) [] := by
  intro d answer d' hrun
  rw [← bind_pure (LinkM.ofChange change)] at hrun
  obtain ⟨value, m, hc, hrun⟩ := LinkM.start_ofChange_bind_eq_ok hrun
  cases hrun
  exact ⟨h d value _ hc, fun e => iff_of_false nofun nofun⟩

/-- Two parts look at the texts of the first one, and then at those of the second one. -/
theorem Scans.bind {f : α → LinkM Draft β} (hx : Scans x texts) (hf : ∀ value, Scans (f value) texts') :
    Scans (x >>= f) (texts ++ texts') := by
  intro d answer d'' hrun
  rw [List.findSome?_append]
  rcases LinkM.start_bind_eq_ok hrun with ⟨e', hstart, rfl⟩ | ⟨value, d', hstart, hrun'⟩
  · obtain ⟨howner, herror⟩ := hx d _ d'' hstart
    obtain ⟨malformed, hfirst, rfl⟩ := (herror e').1 rfl
    refine ⟨howner, fun e => ?_⟩
    rw [hfirst, Option.some_or]
    simp [eq_comm]
  · obtain ⟨howner, herror⟩ := hx d _ d' hstart
    obtain ⟨howner', herror'⟩ := hf value d' _ d'' hrun'
    -- the first part has a value, so that none of its texts is malformed
    have hnone : texts.findSome? Reference.malformed? = none := by
      refine Option.eq_none_iff_forall_ne_some.2 fun malformed hfirst => ?_
      cases (herror _).2 ⟨malformed, hfirst, rfl⟩
    rw [howner] at howner' herror'
    rw [hnone, Option.none_or]
    exact ⟨howner', herror'⟩

/-- A part of a build that looks at nothing may come before another one. -/
theorem Scans.seq {f : α → LinkM Draft β} (hx : Scans x []) (hf : ∀ value, Scans (f value) texts) : Scans (x >>= f) texts :=
  hx.bind hf

/-- What is done with the value looks at no further text. -/
theorem Scans.map (hx : Scans x texts) (f : α → β) : Scans (x >>= fun value => pure (f value)) texts := by
  have h := hx.bind fun value => scans_pure (f value)
  rwa [List.append_nil] at h

/-- To add a node is to look at no text. -/
theorem scans_allocNode (node : Node) : Scans (allocNode node) [] :=
  scans_ofChange fun d value d' h => by cases h; rfl

/-- To add a list is to look at no text. -/
theorem scans_allocList (items : List NodeId) : Scans (allocList items) [] :=
  scans_ofChange fun d value d' h => by cases h; rfl

/-- To add a repository is to look at no text. -/
theorem scans_allocRepository (parent : Option RepositoryId) : Scans (allocRepository parent) [] :=
  scans_ofChange fun d value d' h => by cases h; rfl

/-- To register an include is to look at no text. -/
theorem scans_register (id : NodeId) : Scans (register id) [] :=
  scans_ofChange fun d value d' h => by cases h; rfl

/-- To fill a list is to look at no text. -/
theorem scans_setList (id : ListId) (items : List NodeId) : Scans (setList id items) [] :=
  scans_ofChange fun d value d' h => by
    obtain ⟨b, -, h⟩ := exists_of_bind_eq_ok h
    cases h
    rfl

/-- To give a repository an entry is to look at no text. -/
theorem scans_insertEntry (id : RepositoryId) (key : String) (list : ListId) : Scans (insertEntry id key list) [] :=
  scans_ofChange fun d value d' h => by
    obtain ⟨b, -, h⟩ := exists_of_bind_eq_ok h
    cases h
    rfl

/-- Items are put into a list, and the list into a repository, before something else is built. -/
theorem Scans.put {rest : LinkM Draft Unit} (hrest : Scans rest texts) (repository : RepositoryId) (key : String) (items : List NodeId) :
    Scans (do
      let list ← allocList items
      insertEntry repository key list
      rest) texts :=
  (scans_allocList items).seq fun list => (scans_insertEntry repository key list).seq fun _ => hrest

/-- To read a reference is to look at its text. -/
theorem scans_readInclude (text : String) (repository : Option RepositoryId) : Scans (readInclude text repository) [text] := by
  rintro d answer d' ⟨⟩
  refine ⟨rfl, fun e => ?_⟩
  simp only [List.findSome?_cons, List.findSome?_nil, Reference.malformed?, Include.ofReference]
  cases Reference.parse text with
  | ok reference =>
    constructor
    · intro h
      cases h
    · rintro ⟨_, h, -⟩
      cases h
  | error malformed => simp [Except.map, Except.mapError, eq_comm]

/-! ## Records -/

/-- Building records looks at the references in them, and nothing else is refused. -/
theorem scans_all :
    (∀ r repository parent, Scans (Record.build r repository parent) r.references) ∧
      (∀ entries repository, Scans (Record.buildEntries entries repository) (Record.referencesOfEntries entries)) ∧
      ∀ records repository parent, Scans (Record.buildItems records repository parent) (Record.referencesOfItems records) := by
  refine Record.build.mutual_induct (fun r repository parent => Scans (Record.build r repository parent) r.references)
    (fun entries repository => Scans (Record.buildEntries entries repository) (Record.referencesOfEntries entries))
    (fun records repository parent => Scans (Record.buildItems records repository parent) (Record.referencesOfItems records))
    ?_ ?_ ?_ ?_ ?_ ?_ ?_
  · intro text name rule patterns nested repository parent
    rw [Record.build, Record.references]
    exact (scans_readInclude text repository).bind fun content => (scans_allocNode _).seq fun id => (scans_register id).map _
  · intro name rule patterns nested repository parent hitems hentries
    rw [Record.build, Record.references]
    refine (scans_allocList []).seq fun children => (scans_allocNode _).seq fun id => ?_
    have hchildren : ∀ scope, Scans (do
        let items ← Record.buildItems patterns scope (some id)
        setList children items
        return id) (Record.referencesOfItems patterns) := by
      intro scope
      have h := (hitems id scope).bind fun items => (scans_setList children items).map fun _ => id
      rwa [List.append_nil] at h
    split
    · rename_i hnested
      rw [List.isEmpty_iff.1 hnested, Record.referencesOfEntries, List.nil_append]
      exact (scans_pure repository).seq hchildren
    · exact (scans_allocRepository repository).seq fun opened => (hentries opened).bind fun _ =>
        (scans_pure (some opened)).seq hchildren
  · intro repository parent
    rw [Record.buildItems, Record.referencesOfItems]
    exact scans_pure []
  · intro r rest repository parent hr hrest
    rw [Record.buildItems, Record.referencesOfItems]
    exact hr.bind fun id => hrest.map _
  · intro repository
    rw [Record.buildEntries, Record.referencesOfEntries]
    exact scans_pure ()
  · intro key reference name rule patterns nested rest repository hbare hrest hpatterns
    rw [Record.buildEntries, Record.referencesOfEntries, Record.references_of_isBareGroup hbare, if_pos hbare]
    exact hpatterns.bind (hrest.put repository key)
  · intro key reference name rule patterns nested rest repository hbare hrest hrecord
    rw [Record.buildEntries, Record.referencesOfEntries, if_neg hbare]
    exact hrecord.bind fun id => (scans_pure [id]).seq (hrest.put repository key)

end Draft

/-! ## Files -/

namespace Grammar

open Draft

open InterGrammar (circle ready_circle)

variable {a : Arena}

/-- A file is built by looking at its references. -/
theorem scans_file (file : GrammarFile) : Scans (do
    let repository ← Registry.buildRepository file.repository none
    let root ← Registry.build file.patterns (some repository) none
    return (repository, root)) file.references := by
  refine Scans.bind ?_ fun repository => Scans.map ?_ _
  · exact (scans_allocRepository none).seq fun repository => (scans_all.2.1 file.repository repository).map _
  · have h := (scans_all.2.2 file.patterns (some repository) none).bind scans_allocList
    rwa [List.append_nil] at h

/-- A file is not built exactly when one of its references is malformed, and the error tells the grammar and the first of these. -/
theorem build_eq_error_iff {file : GrammarFile} {answer : Except LinkError Grammar} {b : Arena}
    (hrun : (build file).start a = .ok (answer, b)) (e : LinkError) : answer = .error e ↔
      ∃ malformed, file.references.findSome? Reference.malformed? = some malformed ∧ e = .malformedReference file.scopeName malformed := by
  rw [start_build] at hrun
  cases hdraft : LinkM.start (do
    let repository ← Registry.buildRepository file.repository none
    let root ← Registry.build file.patterns (some repository) none
    return (repository, root)) { arena := a, registry := { owner := file.scopeName } } with
  | error fault => rw [hdraft] at hrun; cases hrun
  | ok p =>
    obtain ⟨value, d⟩ := p
    rw [hdraft] at hrun
    cases hrun
    rw [← (scans_file file _ value d hdraft).2 e]
    cases value <;> simp [Except.map]

/-- Building a file answers, and has an error exactly when one of its references is malformed: the error tells the grammar, and the first
of these references with the reason. Whether it has an error or not, nothing is changed of what was there before, and nothing of it refers
to what was added. -/
theorem build_refuses (hc : a.Closed) (file : GrammarFile) : ∃ answer b, (build file).start a = .ok (answer, b) ∧
    ((∃ e, answer = .error e) ↔ ∃ text ∈ file.references, ∃ malformed, Reference.parse text = .error malformed) ∧
    (∀ e, answer = .error e ↔ ∃ before text after reason, file.references = before ++ text :: after ∧
      (∀ earlier ∈ before, ∃ reference, Reference.parse earlier = .ok reference) ∧
      Reference.parse text = .error ⟨text, reason⟩ ∧ e = .malformedReference file.scopeName ⟨text, reason⟩) ∧
    a.Extends b ∧ b.ClosedIn a.region := by
  obtain ⟨answer, b, hrun, hx, -⟩ := build_ok file a
  have herror := build_eq_error_iff hrun
  refine ⟨answer, b, hrun, ⟨?_, ?_⟩, fun e => ⟨?_, ?_⟩, hx, ClosedIn.extends hc hx (.refl _)⟩
  · rintro ⟨e, he⟩
    obtain ⟨malformed, hfirst, -⟩ := (herror e).1 he
    obtain ⟨text, hmem, htext⟩ := List.exists_of_findSome?_eq_some hfirst
    exact ⟨text, hmem, malformed, Reference.malformed?_eq_some.1 htext⟩
  · rintro ⟨text, hmem, malformed, hparse⟩
    obtain ⟨first, hfirst⟩ := Option.isSome_iff_exists.1 <|
      List.findSome?_isSome_iff.2 ⟨text, hmem, Option.isSome_iff_exists.2 ⟨malformed, Reference.malformed?_eq_some.2 hparse⟩⟩
    exact ⟨_, (herror _).2 ⟨first, hfirst, rfl⟩⟩
  · intro he
    obtain ⟨malformed, hfirst, rfl⟩ := (herror e).1 he
    obtain ⟨before, text, after, hrefs, htext, hbefore⟩ := List.findSome?_eq_some_iff.1 hfirst
    have hparse := Reference.malformed?_eq_some.1 htext
    obtain ⟨reason, rfl⟩ := Reference.exists_reason hparse
    exact ⟨before, text, after, reason, hrefs, fun earlier hm => Reference.malformed?_eq_none.1 (hbefore earlier hm), hparse, rfl⟩
  · rintro ⟨before, text, after, reason, hrefs, hbefore, hparse, rfl⟩
    refine (herror _).2 ⟨⟨text, reason⟩, List.findSome?_eq_some_iff.2 ⟨before, text, after, hrefs, ?_, ?_⟩, rfl⟩
    · exact Reference.malformed?_eq_some.2 hparse
    · exact fun earlier hm => Reference.malformed?_eq_none.2 (hbefore earlier hm)

/-- A file with three malformed references in its patterns. The first one is in an include and not looked at, and the second one is in the
repository of the rule that has the third one in its patterns. -/
def misspelled : GrammarFile where
  scopeName := "s"
  patterns := [{ reference := some "#fine", patterns := [.including "$nobody"] },
    { name := some "rule", patterns := [.including "a b"], repository := [("inner", .group [.including "t#"])] }]
  repository := [("fine", .matching "r" "x")]

/-- Of the three malformed references the one in the repository is reported. -/
theorem build_refuses_misspelled : circle.Closed ∧ ∃ b, (build misspelled).start circle =
      .ok (.error (.malformedReference "s" ⟨"t#", .missingKey⟩), b) ∧
    misspelled.references = ["#fine", "t#", "a b"] ∧ circle.Extends b ∧ b.ClosedIn circle.region := by
  obtain ⟨answer, b, hrun, -, herror, hx, hclosed⟩ := build_refuses ready_circle.closed misspelled
  have hrefs : misspelled.references = ["#fine", "t#", "a b"] := by decide
  obtain rfl : answer = .error (.malformedReference "s" ⟨"t#", .missingKey⟩) := by
    refine (herror _).2 ⟨["#fine"], "t#", ["a b"], .missingKey, hrefs, ?_, by decide +kernel, rfl⟩
    exact List.forall_mem_singleton.2 ⟨.entry "fine", by decide +kernel⟩
  exact ⟨ready_circle.closed, b, hrun, hrefs, hx, hclosed⟩

end Grammar

end GrammarLinker
