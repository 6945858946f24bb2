import GrammarLinker.Keyed

/-!
# TOML documents

A TOML document is a table. Its values are texts, arrays and tables; a number, a truth value or a date has to be well-formed, but
its value is not kept, for no setting is read from one.

A table can come to be in four ways, and what may still be added to it depends on the way (`Toml.Origin`): a header defines a
table once, a dotted key extends only what dotted keys made, and nothing extends an inline table. `Toml.descend` goes down a path
of keys under these rules.
-/

namespace GrammarLinker

/-- How a table came to be. -/
inductive Toml.Origin where
  /-- Its own header defines it. -/
  | header
  /-- The header of a table inside it mentions it. -/
  | implied
  /-- A dotted key mentions it. -/
  | dotted
  /-- It is written in braces. -/
  | inline
  deriving DecidableEq, Inhabited

/-- A TOML value. -/
inductive Toml where
  | string (s : String)
  /-- A number, a truth value or a date. -/
  | plain
  | array (items : List Toml)
  | table (origin : Toml.Origin) (entries : List (String × Toml))
  /-- The tables of an array of tables, each with a header of its own. -/
  | tables (elements : List (List (String × Toml)))
  deriving Inhabited

namespace Toml

/-- Whether a path of keys may go on into a table: a path of a header into all but inline tables, the path of a dotted key only
into tables that have no definition of their own. -/
def Origin.isOpen (viaDots : Bool) : Origin → Bool
  | header => !viaDots
  | implied => true
  | dotted => true
  | inline => false

/-- Changes the table at the end of a path, which gets the tables that it lacks; of an array of tables the last one is meant.
None when the path is blocked or the change is refused. -/
def descend (viaDots : Bool) (change : Origin → List (String × Toml) → Option (List (String × Toml))) :
    (path : List String) → Origin → List (String × Toml) → Option (List (String × Toml))
  | [], origin, entries => change origin entries
  | key :: path, _, entries =>
    match Keyed.find? key entries with
    | none => do
      let origin : Origin := if viaDots then .dotted else .implied
      let inner ← descend viaDots change path origin []
      return Keyed.put key (.table origin inner) entries
    | some (.table origin inner) => do
      if !origin.isOpen viaDots then none
      else return Keyed.put key (.table origin (← descend viaDots change path origin inner)) entries
    | some (.tables elements) =>
      match elements.getLast? with
      | none => none
      | some last => do
        let inner ← descend viaDots change path .header last
        return Keyed.put key (.tables (elements.dropLast ++ [inner])) entries
    | some _ => none

/-- Gives a table an entry of a new key. -/
def addEntry (key : String) (value : Toml) (entries : List (String × Toml)) : Option (List (String × Toml)) :=
  if key ∈ Keyed.keys entries then none else some (entries ++ [(key, value)])

/-- Gives a table the value of a dotted key: the table at the end of the path must be one that dotted keys made. -/
def addDotted (path : List String) (key : String) (value : Toml) (entries : List (String × Toml)) :
    Option (List (String × Toml)) :=
  match path with
  | [] => addEntry key value entries
  | path =>
    descend true (fun origin inner => if origin = .dotted then addEntry key value inner else none) path .header entries

/-! ## Sections -/

/-- A document that is being read: the tables that are complete, and the section that is open, which is the table of the document
itself until the first header. -/
structure Document where
  complete : List (String × Toml) := []
  /-- The path of the open section and its last key, and whether it belongs to an array of tables. -/
  opened : Option (List String × String × Bool) := none
  entries : List (String × Toml) := []

namespace Document

/-- Completes the open section. -/
def close (d : Document) : Option (List (String × Toml)) :=
  match d.opened with
  | none => some d.entries
  | some (path, key, false) =>
    descend false (fun _ inner => addEntry key (.table .header d.entries) inner) path .header d.complete
  | some (path, key, true) =>
    descend false
      (fun _ inner =>
        match Keyed.find? key inner with
        | some (.tables elements) => some (Keyed.put key (.tables (elements ++ [d.entries])) inner)
        | some _ => none
        | none => some (Keyed.put key (.tables [d.entries]) inner))
      path .header d.complete

/-- The entries that a header finds for its table: those that were implied by headers before. -/
def impliedEntries (key : String) (inner : List (String × Toml)) : Option (List (String × Toml)) :=
  match Keyed.find? key inner with
  | none => some []
  | some (.table .implied entries) => some entries
  | some _ => none

/-- The entries of the table at the end of a path, as a header finds it. -/
def entriesAt (path : List String) (complete : List (String × Toml)) : Option (List (String × Toml)) :=
  match path with
  | [] => some complete
  | key :: path =>
    match Keyed.find? key complete with
    | none => some []
    | some (.table _ inner) => entriesAt path inner
    | some (.tables elements) => elements.getLast?.bind (entriesAt path)
    | some _ => none

/-- Opens the section of a table. -/
def openTable (d : Document) (path : List String) (key : String) : Option Document := do
  let complete ← d.close
  let entries ← (← entriesAt path complete) |> impliedEntries key
  let complete ← descend false (fun _ inner => some (inner.filter fun (k, _) => k ≠ key)) path .header complete
  return { complete, opened := some (path, key, false), entries }

/-- Opens the section of a new element of an array of tables. -/
def openElement (d : Document) (path : List String) (key : String) : Option Document := do
  let complete ← d.close
  let complete ← descend false
    (fun _ inner =>
      match Keyed.find? key inner with
      | some (.tables _) => some inner
      | some _ => none
      | none => some inner)
    path .header complete
  return { complete, opened := some (path, key, true) }

/-- Adds the value of a key to the open section. -/
def add (d : Document) (path : List String) (key : String) (value : Toml) : Option Document :=
  (addDotted path key value d.entries).map fun entries => { d with entries }

end Document

end Toml

end GrammarLinker
