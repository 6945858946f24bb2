import GrammarLinker.Json.Basic
import GrammarLinker.Text.Digits

/-!
# Reading JSON

`Json.read?` reads the value of a JSON text. A value stands alone, with spaces, tabs and line ends around its parts. A string
holds no control character and only the escapes of the format. A reader of a part takes the characters that are left and gives
the part with the characters after it.
-/

namespace GrammarLinker.Json

/-- The blanks between the parts of a JSON text: space, tab, line feed and carriage return. -/
def isSpace (c : Char) : Bool :=
  c == ' ' || c == '\t' || c == '\n' || c == '\r'

/-- The characters after the blanks in front. -/
def skipSpaces (cs : List Char) : List Char :=
  cs.dropWhile isSpace

/-! ## Strings -/

/-- A part of a string: a character, or a unit of sixteen bits that an escape gives. -/
inductive Piece where
  | char (c : Char)
  | unit (value : Nat)

/-- A unit that opens a pair of surrogates. -/
def isHighSurrogate (unit : Nat) : Bool := 0xd800 ≤ unit && unit < 0xdc00

/-- A unit that closes a pair of surrogates. -/
def isLowSurrogate (unit : Nat) : Bool := 0xdc00 ≤ unit && unit < 0xe000

/-- The character that an escape of one letter denotes. -/
def escaped? : Char → Option Char
  | '"' => some '"'
  | '\\' => some '\\'
  | '/' => some '/'
  | 'b' => some '\x08'
  | 'f' => some '\x0c'
  | 'n' => some '\n'
  | 'r' => some '\r'
  | 't' => some '\t'
  | _ => none

/-- The pieces up to the closing quote, last piece first on top of `seen`, and the characters after the quote. -/
def readPieces (seen : List Piece) : List Char → Option (List Piece × List Char)
  | '"' :: rest => some (seen, rest)
  | '\\' :: 'u' :: a :: b :: c :: d :: rest =>
    match numberOf? 16 [a, b, c, d] with
    | some unit => readPieces (.unit unit :: seen) rest
    | none => none
  | '\\' :: c :: rest =>
    match escaped? c with
    | some c => readPieces (.char c :: seen) rest
    | none => none
  | c :: rest => if c.toNat < 0x20 || c == '\\' then none else readPieces (.char c :: seen) rest
  | [] => none

/-- The characters that pieces denote, given last piece first, in front of `after`: two surrogate units that make a pair are
one character, and one without its partner denotes none. -/
def charsOfPieces (after : List Char) : List Piece → Option (List Char)
  | [] => some after
  | .char c :: rest => charsOfPieces (c :: after) rest
  | .unit low :: .unit high :: rest =>
    if isLowSurrogate low then
      if isHighSurrogate high then
        charsOfPieces (Char.ofNat (0x10000 + (high - 0xd800) * 0x400 + (low - 0xdc00)) :: after) rest
      else none
    else if isHighSurrogate low then none
    else charsOfPieces (Char.ofNat low :: after) (.unit high :: rest)
  | .unit unit :: rest =>
    if isLowSurrogate unit || isHighSurrogate unit then none else charsOfPieces (Char.ofNat unit :: after) rest

/-- The text of a string whose opening quote has been read, and the characters after its closing quote. -/
def readString (cs : List Char) : Option (Option String × List Char) :=
  (readPieces [] cs).map fun (pieces, rest) => ((charsOfPieces [] pieces).map String.ofList, rest)

/-! ## Numbers -/

/-- The digits in front, of which there is at least one, and the rest. -/
def readDigits (cs : List Char) : Option (List Char × List Char) :=
  match cs.span Char.isDigit with
  | ([], _) => none
  | parts => some parts

/-- The whole part of a number: no zero stands in front of another digit. -/
def readWhole (cs : List Char) : Option (List Char × List Char) := do
  let (digits, rest) ← readDigits cs
  if digits.head? = some '0' ∧ digits ≠ ['0'] then none else return (digits, rest)

/-- The fraction of a number, which may be missing. -/
def readFraction : List Char → Option (List Char × List Char)
  | '.' :: cs => (readDigits cs).map fun (digits, rest) => ('.' :: digits, rest)
  | cs => some ([], cs)

/-- The exponent of a number, which may be missing. -/
def readExponent : List Char → Option (List Char × List Char)
  | e :: cs =>
    if e = 'e' ∨ e = 'E' then
      match cs with
      | '+' :: cs => (readDigits cs).map fun (digits, rest) => (e :: '+' :: digits, rest)
      | '-' :: cs => (readDigits cs).map fun (digits, rest) => (e :: '-' :: digits, rest)
      | cs => (readDigits cs).map fun (digits, rest) => (e :: digits, rest)
    else some ([], e :: cs)
  | [] => some ([], [])

/-- The literal of a number that has no sign, and the rest. -/
def readUnsigned (cs : List Char) : Option (List Char × List Char) := do
  let (whole, rest) ← readWhole cs
  let (fraction, rest) ← readFraction rest
  let (exponent, rest) ← readExponent rest
  return (whole ++ fraction ++ exponent, rest)

/-- The literal of a number, and the rest. -/
def readNumber : List Char → Option (String × List Char)
  | '-' :: cs => (readUnsigned cs).map fun (literal, rest) => (String.ofList ('-' :: literal), rest)
  | cs => (readUnsigned cs).map fun (literal, rest) => (String.ofList literal, rest)

/-! ## Values -/

mutual

/-- A value, after blanks, and the rest. Every part of a value takes a character, so that `fuel` beyond the number of
characters is never used up. -/
def readValue : (fuel : Nat) → List Char → Option (Json × List Char)
  | 0, _ => none
  | fuel + 1, cs =>
    match skipSpaces cs with
    | '{' :: rest =>
      match skipSpaces rest with
      | '}' :: rest => some (.object [], rest)
      | rest => (readMembers fuel [] rest).map fun (members, rest) => (.object members, rest)
    | '[' :: rest =>
      match skipSpaces rest with
      | ']' :: rest => some (.array [], rest)
      | rest => (readItems fuel [] rest).map fun (items, rest) => (.array items, rest)
    | '"' :: rest => (readString rest).map fun (content, rest) => (.text content, rest)
    | 'n' :: 'u' :: 'l' :: 'l' :: rest => some (.null, rest)
    | 't' :: 'r' :: 'u' :: 'e' :: rest => some (.bool true, rest)
    | 'f' :: 'a' :: 'l' :: 's' :: 'e' :: rest => some (.bool false, rest)
    | rest => (readNumber rest).map fun (literal, rest) => (.number literal, rest)

/-- The items of an array up to its closing bracket, after the items `seen` (last one first). -/
def readItems : (fuel : Nat) → (seen : List Json) → List Char → Option (List Json × List Char)
  | 0, _, _ => none
  | fuel + 1, seen, cs =>
    match readValue fuel cs with
    | none => none
    | some (item, rest) =>
      match skipSpaces rest with
      | ',' :: rest => readItems fuel (item :: seen) rest
      | ']' :: rest => some ((item :: seen).reverse, rest)
      | _ => none

/-- The members of an object up to its closing brace, after the members `seen` (last one first). -/
def readMembers : (fuel : Nat) → (seen : List (Option String × Json)) → List Char →
    Option (List (Option String × Json) × List Char)
  | 0, _, _ => none
  | fuel + 1, seen, cs =>
    match skipSpaces cs with
    | '"' :: rest =>
      match readString rest with
      | none => none
      | some (key, rest) =>
        match skipSpaces rest with
        | ':' :: rest =>
          match readValue fuel rest with
          | none => none
          | some (value, rest) =>
            match skipSpaces rest with
            | ',' :: rest => readMembers fuel ((key, value) :: seen) rest
            | '}' :: rest => some (((key, value) :: seen).reverse, rest)
            | _ => none
        | _ => none
    | _ => none

end

/-- The value of a JSON text; none when the text is not JSON. -/
def read? (text : String) : Option Json :=
  let cs := text.toList
  match readValue (cs.length + 1) cs with
  | some (value, rest) => if skipSpaces rest = [] then some value else none
  | none => none

end GrammarLinker.Json
