import GrammarLinker.Json.Basic
import GrammarLinker.Keyed

/-!
# Reading the fields of JSON values

A record is read from an object whose members are its fields, in any order, or from an array of its fields in their order. A
field may be missing. A member that is no field is ignored, even when it is repeated; a field given twice is refused, and so is
an array with more items than there are fields. What a missing field means is for the reader of the field to say: each takes an
optional value.
-/

namespace GrammarLinker.Json

/-- The members of an object that are fields of a record; none when a member's name has no text or a field is given twice. -/
def knownMembers (names : List String) : List (Option String × Json) → Option (List (String × Json))
  | [] => some []
  | (none, _) :: _ => none
  | (some key, value) :: rest => do
    let fields ← knownMembers names rest
    if key ∈ names then
      if key ∈ Keyed.keys fields then none else some ((key, value) :: fields)
    else some fields

/-- The fields of a record: the members of an object, or the items of an array in the order of the names. -/
def fields? (names : List String) : Json → Option (List (String × Json))
  | .object members => knownMembers names members
  | .array items => if items.length ≤ names.length then some (names.zip items) else none
  | _ => none

/-- A text that must be there. -/
def requiredString? : Option Json → Option String
  | some (.text s) => s
  | _ => none

/-- A text that may be missing or `null`. -/
def optionalString? : Option Json → Option (Option String)
  | none => some none
  | some .null => some none
  | some (.text (some s)) => some (some s)
  | some _ => none

/-- A list, which may be missing; `null` is no list. -/
def list? {α : Type} (item : Json → Option α) : Option Json → Option (List α)
  | none => some []
  | some (.array items) => items.mapM item
  | some _ => none

/-- The entries of a map in the order of the text; none when a key has no text or a value cannot be read. -/
def entries? {α : Type} (value : Json → Option α) : List (Option String × Json) → Option (List (String × α))
  | [] => some []
  | (none, _) :: _ => none
  | (some key, v) :: rest => do return (key, ← value v) :: (← entries? value rest)

/-- A map, which may be missing; a repeated key keeps its first place and its last value. -/
def map? {α : Type} (value : Json → Option α) : Option Json → Option (List (String × α))
  | none => some []
  | some (.object members) => (entries? value members).map Keyed.ofPairs
  | some _ => none

end GrammarLinker.Json
