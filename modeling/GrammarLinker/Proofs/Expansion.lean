import GrammarLinker.Record
import GrammarLinker.Reference

/-!
# Expanding grammar files

What a set of grammar files means before anything is built: which group of patterns an include record refers to (`denoted?`), and
which rule records come up when the includes of a group are expanded in place (`Expands`). A name is looked up in the repositories
around the include, innermost first. The records in a rule are not looked at, and a group is entered once, so an expansion is one
list at most (`Expands.unique`).
-/

namespace GrammarLinker

/-- What an entry of a repository stands for: a bare group for its patterns, any other record for itself. -/
def Record.members (r : Record) : List Record := if r.isBareGroup then r.patterns else [r]

/-- The repositories around a record, innermost first. -/
abbrev Enclosing := List (List (String × Record))

/-- A group of patterns in a set of files: the root of a file, or the entry of a key in the innermost of some repositories of it. -/
inductive Group where
  | root (file : GrammarFile)
  | entry (file : GrammarFile) (repositories : Enclosing) (key : String) (content : Record)

/-- A record in a file, with the repositories around it. -/
structure Placed where
  file : GrammarFile
  repositories : Enclosing
  record : Record

/-- The records of a group in their places. -/
def Group.items : Group → List Placed
  | root file => file.patterns.map fun record => ⟨file, [file.repository], record⟩
  | entry file repositories _ content => content.members.map fun record => ⟨file, repositories, record⟩

/-- The group that a key has in the innermost repository with that key. Of a key that is repeated the last record counts. -/
def GrammarFile.entry? (file : GrammarFile) (key : String) : Enclosing → Option Group
  | [] => none
  | repository :: outer =>
    match Keyed.find? key (Keyed.ofPairs repository) with
    | some content => some (.entry file (repository :: outer) key content)
    | none => file.entry? key outer

/-- The file of a scope. -/
def fileOf? (files : List GrammarFile) (scope : String) : Option GrammarFile :=
  files.find? fun file => file.scopeName == scope

/-- The group that a reference in a record denotes. Without a base grammar, `$base` is the root of the file that holds the record. -/
def Placed.denoted? (files : List GrammarFile) (base : Option String) (p : Placed) : Reference → Option Group
  | .entry key => p.file.entry? key p.repositories
  | .self => some (.root p.file)
  | .base =>
    match base with
    | some scope => (fileOf? files scope).map .root
    | none => some (.root p.file)
  | .foreign scope => (fileOf? files scope).map .root
  | .foreignEntry scope key =>
    match fileOf? files scope with
    | some file => file.entry? key [file.repository]
    | none => none

/-- Records expand to rule records, after some groups were entered: a rule record to itself, and an include record to what the group
expands to that it denotes, or to nothing when that group was entered before. -/
inductive Expands (files : List GrammarFile) (base : Option String) : List Group → List Placed → List Record → Prop where
  | done (entered : List Group) : Expands files base entered [] []
  | rule {entered : List Group} {p : Placed} {rest : List Placed} {out : List Record} (h : p.record.reference = none)
      (hr : Expands files base entered rest out) : Expands files base entered (p :: rest) (p.record :: out)
  | enter {entered : List Group} {p : Placed} {rest : List Placed} {out : List Record} {text : String} {reference : Reference}
      {group : Group} (h : p.record.reference = some text) (hp : Reference.parse text = .ok reference)
      (hd : p.denoted? files base reference = some group) (hnew : group ∉ entered)
      (hr : Expands files base (group :: entered) (group.items ++ rest) out) : Expands files base entered (p :: rest) out
  | again {entered : List Group} {p : Placed} {rest : List Placed} {out : List Record} {text : String} {reference : Reference}
      {group : Group} (h : p.record.reference = some text) (hp : Reference.parse text = .ok reference)
      (hd : p.denoted? files base reference = some group) (hold : group ∈ entered)
      (hr : Expands files base entered rest out) : Expands files base entered (p :: rest) out

/-- Records expand in one way. -/
theorem Expands.unique {files : List GrammarFile} {base : Option String} {entered : List Group} {items : List Placed}
    {out out' : List Record} (h : Expands files base entered items out) (h' : Expands files base entered items out') :
    out = out' := by
  induction h generalizing out' with
  | done entered =>
    cases h'
    rfl
  | rule h _ ih =>
    cases h' with
    | rule _ hr => rw [ih hr]
    | enter h' => rw [h] at h'; cases h'
    | again h' => rw [h] at h'; cases h'
  | enter h hp hd hnew _ ih =>
    cases h' with
    | rule h' => rw [h] at h'; cases h'
    | enter h' hp' hd' _ hr =>
      cases h.symm.trans h'
      cases hp.symm.trans hp'
      cases hd.symm.trans hd'
      exact ih hr
    | again h' hp' hd' hold _ =>
      cases h.symm.trans h'
      cases hp.symm.trans hp'
      cases hd.symm.trans hd'
      exact absurd hold hnew
  | again h hp hd hold _ ih =>
    cases h' with
    | rule h' => rw [h] at h'; cases h'
    | enter h' hp' hd' hnew _ =>
      cases h.symm.trans h'
      cases hp.symm.trans hp'
      cases hd.symm.trans hd'
      exact absurd hold hnew
    | again _ _ _ _ hr => exact ih hr

end GrammarLinker
