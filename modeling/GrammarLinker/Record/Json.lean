import GrammarLinker.Json.Fields
import GrammarLinker.Json.Reader
import GrammarLinker.Record

/-!
# Grammar files as JSON

The written form of a grammar file has every field, with `null` for a text that is missing and `[]` or `{}` where nothing is
listed. The reader also takes a file whose fields are missing, in another order or among unknown ones.

A text may nest lists and objects only so deep. Each reader here takes the number of containers it may still open, and refuses a
container when none is left; a field that is ignored is not counted.
-/

namespace GrammarLinker

/-- How many containers a grammar text may nest on the way to what is read. -/
def jsonNesting : Nat := 127

/-- Reads the inside of a container, for which one of the containers that may still be opened is used. -/
def Json.nested {α : Type} (limit : Nat) (inside : Nat → Option α) : Option α :=
  match limit with
  | 0 => none
  | limit + 1 => inside limit

/-- Reads a list, which is a container. -/
def Json.listWithin {α : Type} (limit : Nat) (item : Nat → Json → Option α) : Option Json → Option (List α)
  | none => some []
  | some value => Json.nested limit fun limit => Json.list? (item limit) (some value)

/-- Reads a map, which is a container. -/
def Json.mapWithin {α : Type} (limit : Nat) (value : Nat → Json → Option α) : Option Json → Option (List (String × α))
  | none => some []
  | some v => Json.nested limit fun limit => Json.map? (value limit) (some v)

/-! ## Captures -/

namespace Capture

/-- The fields of a capture. -/
def fieldNames : List String := ["name"]

/-- The written form of a capture. -/
def toJson (c : Capture) : Json := .ofFields [("name", .ofString? c.name)]

/-- Reads a capture. -/
def ofJson (limit : Nat) (value : Json) : Option Capture :=
  Json.nested limit fun _ => do
    let fields ← Json.fields? fieldNames value
    return { name := ← Json.optionalString? (Keyed.find? "name" fields) }

/-- The written form of the captures of a rule. -/
def mapToJson (captures : List (String × Capture)) : Json :=
  .ofFields (captures.map fun (key, c) => (key, c.toJson))

end Capture

/-! ## Records -/

namespace Record

/-- The fields of a record, in the order in which they are written. -/
def fieldNames : List String :=
  ["include", "name", "contentName", "match", "begin", "end", "while", "captures", "beginCaptures", "endCaptures",
    "whileCaptures", "patterns", "repository"]

mutual

/-- The written form of a record. -/
def toJson : Record → Json
  | ⟨reference, name, rule, patterns, repository⟩ =>
    .ofFields
      [("include", .ofString? reference),
        ("name", .ofString? name),
        ("contentName", .ofString? rule.contentName),
        ("match", .ofString? rule.matchExpr),
        ("begin", .ofString? rule.beginExpr),
        ("end", .ofString? rule.endExpr),
        ("while", .ofString? rule.whileExpr),
        ("captures", Capture.mapToJson rule.captures),
        ("beginCaptures", Capture.mapToJson rule.beginCaptures),
        ("endCaptures", Capture.mapToJson rule.endCaptures),
        ("whileCaptures", Capture.mapToJson rule.whileCaptures),
        ("patterns", .array (listToJson patterns)),
        ("repository", .object (entriesToJson repository))]

/-- The written forms of records. -/
def listToJson : List Record → List Json
  | [] => []
  | r :: rest => r.toJson :: listToJson rest

/-- The written form of a repository's entries. -/
def entriesToJson : List (String × Record) → List (Option String × Json)
  | [] => []
  | (key, r) :: rest => (some key, r.toJson) :: entriesToJson rest

end

/-- Reads the match rule of a record from the record's fields. -/
def ruleOfFields (limit : Nat) (fields : List (String × Json)) : Option MatchRule := do
  return {
    contentName := ← Json.optionalString? (Keyed.find? "contentName" fields)
    matchExpr := ← Json.optionalString? (Keyed.find? "match" fields)
    beginExpr := ← Json.optionalString? (Keyed.find? "begin" fields)
    endExpr := ← Json.optionalString? (Keyed.find? "end" fields)
    whileExpr := ← Json.optionalString? (Keyed.find? "while" fields)
    captures := ← Json.mapWithin limit Capture.ofJson (Keyed.find? "captures" fields)
    beginCaptures := ← Json.mapWithin limit Capture.ofJson (Keyed.find? "beginCaptures" fields)
    endCaptures := ← Json.mapWithin limit Capture.ofJson (Keyed.find? "endCaptures" fields)
    whileCaptures := ← Json.mapWithin limit Capture.ofJson (Keyed.find? "whileCaptures" fields) }

/-- Reads a record that opens at most `limit` containers one inside the other, itself included. -/
def ofJson : (limit : Nat) → Json → Option Record
  | 0, _ => none
  | limit + 1, value => do
    let fields ← Json.fields? fieldNames value
    return {
      reference := ← Json.optionalString? (Keyed.find? "include" fields)
      name := ← Json.optionalString? (Keyed.find? "name" fields)
      rule := ← ruleOfFields limit fields
      patterns := ← match limit with
        | 0 => Json.listWithin 0 (fun _ _ => none) (Keyed.find? "patterns" fields)
        | limit + 1 => Json.list? (ofJson limit) (Keyed.find? "patterns" fields)
      repository := ← match limit with
        | 0 => Json.mapWithin 0 (fun _ _ => none) (Keyed.find? "repository" fields)
        | limit + 1 => Json.map? (ofJson limit) (Keyed.find? "repository" fields) }

end Record

/-! ## Files -/

namespace GrammarFile

/-- The fields of a grammar file, in the order in which they are written. -/
def fieldNames : List String := ["scopeName", "name", "fileTypes", "patterns", "repository"]

/-- The written form of a grammar file. -/
def toJson (file : GrammarFile) : Json :=
  .ofFields
    [("scopeName", .ofString file.scopeName),
      ("name", .ofString? file.name),
      ("fileTypes", .array (file.fileTypes.map .ofString)),
      ("patterns", .array (Record.listToJson file.patterns)),
      ("repository", .object (Record.entriesToJson file.repository))]

/-- Reads a grammar file that nests at most `limit` containers. -/
def ofJson (limit : Nat) (value : Json) : Option GrammarFile :=
  Json.nested limit fun limit => do
    let fields ← Json.fields? fieldNames value
    return {
      scopeName := ← Json.requiredString? (Keyed.find? "scopeName" fields)
      name := ← Json.optionalString? (Keyed.find? "name" fields)
      fileTypes := ← Json.listWithin limit (fun _ => Json.text?) (Keyed.find? "fileTypes" fields)
      patterns := ← Json.listWithin limit Record.ofJson (Keyed.find? "patterns" fields)
      repository := ← Json.mapWithin limit Record.ofJson (Keyed.find? "repository" fields) }

/-- Reads a grammar file from its text. -/
def ofText? (text : String) : Option GrammarFile := do
  ofJson jsonNesting (← Json.read? text)

end GrammarFile

/-- Reads a record from its text. -/
def Record.ofText? (text : String) : Option Record := do
  Record.ofJson jsonNesting (← Json.read? text)

end GrammarLinker
