/-!
# JSON values

A JSON value as a text denotes it. Objects keep their members in the order of the text, repeated names included, because the
order of the entries of a repository has meaning and a known field given twice is an error. A number keeps its literal. A string
may hold an escape of a lone surrogate, which denotes no character: such a string has no text (`none`), which matters only to a
reader that wants the text.
-/

namespace GrammarLinker

/-- A JSON value. -/
inductive Json where
  | null
  | bool (value : Bool)
  | number (literal : String)
  | text (value : Option String)
  | array (items : List Json)
  | object (members : List (Option String × Json))
  deriving Inhabited

namespace Json

/-- The JSON string of a text. -/
def ofString (s : String) : Json := .text (some s)

/-- The JSON string of a text that may be missing, which is written `null`. -/
def ofString? : Option String → Json
  | none => .null
  | some s => .ofString s

/-- The object whose members are named by texts. -/
def ofFields (fields : List (String × Json)) : Json :=
  .object (fields.map fun (name, value) => (some name, value))

/-- The text of a string. -/
def text? : Json → Option String
  | .text s => s
  | _ => none

/-- The value of a member, the first one of that name. -/
def member? (name : String) : Json → Option Json
  | .object members => (members.find? fun (key, _) => key == some name).map (·.2)
  | _ => none

end Json

end GrammarLinker
