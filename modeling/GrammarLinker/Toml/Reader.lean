import GrammarLinker.Toml.Basic
import GrammarLinker.Toml.Numbers
import GrammarLinker.Toml.Strings

/-!
# Reading TOML

`Toml.read?` reads the entries of a TOML document: lines with a key and its value, headers of tables and of elements of arrays of
tables, and comments. A line ends with a comment or without one. Keys may be dotted. Arrays may be broken over lines, inline
tables may not.
-/

namespace GrammarLinker.Toml

/-- How many keys a dotted key must not reach. -/
def keyLimit : Nat := 80

/-- How many arrays and inline tables may stand one inside the other. -/
def nestingLimit : Nat := 79

/-! ## Keys and blanks -/

/-- A character of a key without quotes. -/
def isKeyChar (c : Char) : Bool :=
  c.isAlphanum || c == '-' || c == '_'

/-- A key without dots, bare or in quotes, and the rest. -/
def readSimpleKey (cs : List Char) : Option (String × List Char) :=
  match cs with
  | '"' :: rest => readBasic cs.length [] rest
  | '\'' :: rest => readLiteral [] rest
  | cs =>
    match cs.span isKeyChar with
    | ([], _) => none
    | (key, rest) => some (String.ofList key, rest)

/-- The parts of a dotted key, with blanks around each, and the rest. Every part takes a character, so that `fuel` beyond the
number of characters is never used up. -/
def readKeyParts : (fuel : Nat) → List Char → Option (List String × List Char)
  | 0, _ => none
  | fuel + 1, cs => do
    let (part, rest) ← readSimpleKey (skipSpaces cs)
    match skipSpaces rest with
    | '.' :: rest => do
      let (parts, rest) ← readKeyParts fuel rest
      return (part :: parts, rest)
    | rest => return ([part], rest)

/-- A dotted key as the path to its last part and that part, and the rest. -/
def readKey (cs : List Char) : Option (List String × String × List Char) := do
  let (parts, rest) ← readKeyParts (cs.length + 1) cs
  let key ← parts.getLast?
  if keyLimit ≤ parts.length then none else return (parts.dropLast, key, rest)

/-- The characters after a comment, which goes to the end of its line. -/
def skipComment (cs : List Char) : List Char :=
  cs.dropWhile isPrintable

/-- The characters after what may follow on a line: blanks, a comment, and the end of the line or of the document. -/
def readLineRest (cs : List Char) : Option (List Char) :=
  let cs := skipSpaces cs
  let rest := if cs.head? = some '#' then skipComment cs else cs
  if rest.isEmpty then some [] else lineEnd? rest

/-- The characters after blanks, line ends and comments, as they may stand between the items of an array. -/
def skipBetween : (fuel : Nat) → List Char → Option (List Char)
  | 0, _ => none
  | fuel + 1, cs =>
    match skipSpaces cs with
    | '#' :: rest => do skipBetween fuel (← lineEnd? (skipComment rest))
    | '\n' :: rest => skipBetween fuel rest
    | '\r' :: rest => do skipBetween fuel (← lineEnd? ('\r' :: rest))
    | rest => some rest

/-! ## Values -/

mutual

/-- A value, and the rest. It may open `levels` arrays and inline tables one inside the other. -/
def readValue : (fuel levels : Nat) → List Char → Option (Toml × List Char)
  | 0, _, _ => none
  | fuel + 1, levels, cs =>
    match cs with
    | [] => none
    | c :: rest =>
      if c == '"' || c == '\'' then do
        let (s, rest) ← readString (c :: rest)
        return (.string s, rest)
      else if c == '[' then
        match levels with
        | 0 => none
        | levels + 1 => do
          let (items, rest) ← readItems fuel levels [] rest
          return (.array items, rest)
      else if c == '{' then
        match levels with
        | 0 => none
        | levels + 1 =>
          match skipSpaces rest with
          | '}' :: rest => some (.table .inline [], rest)
          | rest => do
            let (entries, rest) ← readEntries fuel levels [] rest
            return (.table .inline entries, rest)
      else
        match c :: rest with
        | 't' :: 'r' :: 'u' :: 'e' :: rest => some (.plain, rest)
        | 'f' :: 'a' :: 'l' :: 's' :: 'e' :: rest => some (.plain, rest)
        | cs => (readPlain cs).map fun rest => (.plain, rest)

/-- The items of an array up to its closing bracket, after the items `seen` (last one first). A comma may follow the last
item. -/
def readItems : (fuel levels : Nat) → (seen : List Toml) → List Char → Option (List Toml × List Char)
  | 0, _, _, _ => none
  | fuel + 1, levels, seen, cs => do
    match ← skipBetween (cs.length + 1) cs with
    | ']' :: rest => return (seen.reverse, rest)
    | rest =>
      let (item, rest) ← readValue fuel levels rest
      match ← skipBetween (rest.length + 1) rest with
      | ',' :: rest => readItems fuel levels (item :: seen) rest
      | ']' :: rest => return ((item :: seen).reverse, rest)
      | _ => none

/-- The entries of an inline table up to its closing brace, added to the entries read before. -/
def readEntries : (fuel levels : Nat) → (entries : List (String × Toml)) → List Char →
    Option (List (String × Toml) × List Char)
  | 0, _, _, _ => none
  | fuel + 1, levels, entries, cs => do
    let (path, key, rest) ← readKey cs
    let (value, rest) ← readValue fuel levels (skipSpaces (← expect '=' rest))
    let entries ← addDotted path key value entries
    match skipSpaces rest with
    | ',' :: rest => readEntries fuel levels entries rest
    | '}' :: rest => return (entries, rest)
    | _ => none

end

/-! ## Documents -/

/-- A header, and the rest of the document: of an element of an array of tables in two brackets, of a table in one. -/
def readHeader (d : Document) : List Char → Option (Document × List Char)
  | '[' :: '[' :: rest => do
    let (path, key, rest) ← readKey rest
    let rest ← readLineRest (← expect ']' (← expect ']' rest))
    return (← d.openElement path key, rest)
  | '[' :: rest => do
    let (path, key, rest) ← readKey rest
    let rest ← readLineRest (← expect ']' rest)
    return (← d.openTable path key, rest)
  | _ => none

/-- A line with a key and its value, and the rest of the document. -/
def readAssignment (d : Document) (cs : List Char) : Option (Document × List Char) := do
  let (path, key, rest) ← readKey cs
  let rest := skipSpaces (← expect '=' rest)
  let (value, rest) ← readValue (rest.length + 1) nestingLimit rest
  let rest ← readLineRest rest
  return (← d.add path key value, rest)

/-- Reads the lines of a document. Every line but the last takes a character, so that `fuel` beyond the number of characters is
never used up. -/
def readLines : (fuel : Nat) → Document → List Char → Option Document
  | 0, _, _ => none
  | fuel + 1, d, cs =>
    match skipSpaces cs with
    | [] => some d
    | '#' :: rest => do readLines fuel d (← readLineRest ('#' :: rest))
    | '\n' :: rest => readLines fuel d rest
    | '\r' :: rest => do readLines fuel d (← lineEnd? ('\r' :: rest))
    | '[' :: rest => do
      let (d, rest) ← readHeader d ('[' :: rest)
      readLines fuel d rest
    | rest => do
      let (d, rest) ← readAssignment d rest
      readLines fuel d rest

/-- The entries of a TOML document, which may begin with a byte order mark; none when the text is not TOML. -/
def read? (text : String) : Option (List (String × Toml)) :=
  let cs := text.toList
  let cs := if cs.head? = some '\ufeff' then cs.tail else cs
  (readLines (cs.length + 1) {} cs).bind Document.close

end GrammarLinker.Toml
