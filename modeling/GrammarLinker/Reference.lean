import GrammarLinker.Text.Blank

/-!
# References

The text of an include refers to a pattern group in one of five forms:

| form         | refers to                                              |
|--------------|--------------------------------------------------------|
| `#name`      | an entry of the repository the include was declared in |
| `$self`      | the root of the grammar that holds the include         |
| `$base`      | the root of the base grammar of the set                |
| `scope`      | the root of the grammar of that scope                  |
| `scope#name` | an entry of the repository of that grammar             |

`Reference.parse` reads a text and `Reference.text` writes it. The checks of the reader come in a fixed order, and the first one
that fails gives the reason.
-/

namespace GrammarLinker

/-- What an include refers to, as its text says it. -/
inductive Reference where
  /-- An entry of the repository the include was declared in. -/
  | entry (name : String)
  /-- The root of the grammar that holds the include. -/
  | self
  /-- The root of the base grammar. -/
  | base
  /-- The root of the grammar of a scope. -/
  | foreign (scope : String)
  /-- A repository entry of the grammar of a scope. -/
  | foreignEntry (scope name : String)
  deriving DecidableEq, Inhabited

/-- Why a text is no reference. -/
inductive Malformation where
  /-- The text is empty. -/
  | empty
  /-- The text holds a blank. -/
  | blank
  /-- Nothing follows the `#`. -/
  | missingKey
  /-- A second `#` follows. -/
  | secondHash
  /-- The text starts with `$` and is neither `$self` nor `$base`. -/
  | unknownDollar
  deriving DecidableEq

/-- The words for a reason. -/
def Malformation.text : Malformation → String
  | .empty => "empty reference"
  | .blank => "contains whitespace"
  | .missingKey => "missing repository key after `#`"
  | .secondHash => "more than one `#`"
  | .unknownDollar => "unknown `$` reference"

/-- A text that is no reference, with the reason. -/
structure Malformed where
  reference : String
  reason : Malformation
  deriving DecidableEq

namespace Malformed

/-- The message of the error. -/
def message (e : Malformed) : String :=
  String.join ["Malformed reference `", e.reference, "`: ", e.reason.text]

/-- The code of the diagnostic. -/
def code : String := "syntaxlink_grammar::malformed_reference"

/-- The help of the diagnostic. -/
def help : String := "expected one of `#name`, `$self`, `$base`, `scope` or `scope#name`"

end Malformed

namespace Reference

/-- The text of a reference. -/
def text : Reference → String
  | entry name => "#" ++ name
  | self => "$self"
  | base => "$base"
  | foreign scope => scope
  | foreignEntry scope name => scope ++ "#" ++ name

/-- A key of a repository as a reference may name it: it is not empty and holds no second `#`. -/
def readKey : List Char → Except Malformation String
  | [] => .error .missingKey
  | key => if '#' ∈ key then .error .secondHash else .ok (String.ofList key)

/-- The reference that characters denote. -/
def read (cs : List Char) : Except Malformation Reference :=
  if cs.any isBlank then .error .blank
  else
    match cs with
    | [] => .error .empty
    | '#' :: key => (readKey key).map entry
    | '$' :: rest =>
      if rest = ['s', 'e', 'l', 'f'] then .ok self
      else if rest = ['b', 'a', 's', 'e'] then .ok base
      else .error .unknownDollar
    | cs =>
      let scope := String.ofList (cs.takeWhile (· ≠ '#'))
      match cs.dropWhile (· ≠ '#') with
      | [] => .ok (foreign scope)
      | _ :: key => (readKey key).map (foreignEntry scope)

/-- Reads the text of an include. -/
def parse (reference : String) : Except Malformed Reference :=
  (read reference.toList).mapError fun reason => ⟨reference, reason⟩

end Reference

end GrammarLinker
