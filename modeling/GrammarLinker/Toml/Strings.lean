import GrammarLinker.Text.Digits

/-!
# TOML strings

A string stands between one or three quotes. Between double quotes a backslash escapes a character; between single quotes every
character stands for itself. A string between three quotes may have line ends, of which one right after the opening quotes is
dropped, and one or two quotes in a row are part of it. Control characters other than the tab are not allowed.
-/

namespace GrammarLinker.Toml

/-- A character that may stand in a string or a comment: no control character but the tab. -/
def isPrintable (c : Char) : Bool :=
  c == '\t' || (0x20 ≤ c.toNat && c.toNat ≤ 0x7e) || 0x80 ≤ c.toNat

/-- The blanks inside a line. -/
def isSpace (c : Char) : Bool :=
  c == ' ' || c == '\t'

/-- The characters after the blanks in front. -/
def skipSpaces (cs : List Char) : List Char :=
  cs.dropWhile isSpace

/-- The characters after a line end, which is a line feed with or without a carriage return before it. -/
def lineEnd? : List Char → Option (List Char)
  | '\n' :: rest => some rest
  | '\r' :: '\n' :: rest => some rest
  | _ => none

/-- The characters after a line end, if there is one. -/
def dropLineEnd (cs : List Char) : List Char :=
  (lineEnd? cs).getD cs

/-- The characters after the blanks and line ends in front. -/
def skipBlankLines : List Char → List Char
  | '\r' :: '\n' :: rest => skipBlankLines rest
  | c :: rest => if c == '\n' || isSpace c then skipBlankLines rest else c :: rest
  | [] => []

/-- The character that a number denotes; surrogates and numbers beyond the last character denote none. -/
def charOf? (code : Nat) : Option Char :=
  if code.isValidChar then some (Char.ofNat code) else none

/-- The character of an escape, given the characters after its backslash, and the rest. -/
def readEscape : List Char → Option (Char × List Char)
  | 'b' :: rest => some ('\x08', rest)
  | 'f' :: rest => some ('\x0c', rest)
  | 'n' :: rest => some ('\n', rest)
  | 'r' :: rest => some ('\r', rest)
  | 't' :: rest => some ('\t', rest)
  | '\\' :: rest => some ('\\', rest)
  | '"' :: rest => some ('"', rest)
  | 'u' :: a :: b :: c :: d :: rest => do
    return (← charOf? (← numberOf? 16 [a, b, c, d]), rest)
  | 'U' :: a :: b :: c :: d :: e :: f :: g :: h :: rest => do
    return (← charOf? (← numberOf? 16 [a, b, c, d, e, f, g, h]), rest)
  | _ => none

/-- The characters after an escaped line end, given those after its backslash: blanks, the line end, and all blanks and line ends
after it. -/
def escapedLineEnd? (cs : List Char) : Option (List Char) :=
  (lineEnd? (skipSpaces cs)).map skipBlankLines

/-- The text of a string between single double quotes, after the characters `seen` (last one first), and what follows it. Every
step takes a character, so that `fuel` beyond the number of characters is never used up. -/
def readBasic : (fuel : Nat) → (seen : List Char) → List Char → Option (String × List Char)
  | 0, _, _ => none
  | _ + 1, seen, '"' :: rest => some (String.ofList seen.reverse, rest)
  | fuel + 1, seen, '\\' :: rest => do
    let (c, rest) ← readEscape rest
    readBasic fuel (c :: seen) rest
  | fuel + 1, seen, c :: rest => if isPrintable c then readBasic fuel (c :: seen) rest else none
  | _ + 1, _, [] => none

/-- The text of a string between single quotes, and what follows it. -/
def readLiteral : (seen : List Char) → List Char → Option (String × List Char)
  | seen, '\'' :: rest => some (String.ofList seen.reverse, rest)
  | seen, c :: rest => if isPrintable c then readLiteral (c :: seen) rest else none
  | _, [] => none

/-- What a row of `count` quotes does to a string between three quotes: one or two belong to the string, three to five close it
and leave up to two to it, and more are too many. -/
def quotesInside (count : Nat) : Option (Bool × Nat) :=
  if count ≤ 2 then some (false, count) else if count ≤ 5 then some (true, count - 3) else none

/-- The text of a string between three quotes, and what follows it; with escapes when the quotes are double. -/
def readMultiline (quote : Char) (escapes : Bool) : (fuel : Nat) → (seen : List Char) → List Char →
    Option (String × List Char)
  | 0, _, _ => none
  | fuel + 1, seen, cs =>
    match cs.span (· == quote) with
    | ([], []) => none
    | ([], c :: rest) =>
      if c == '\\' && escapes then
        match escapedLineEnd? rest with
        | some rest => readMultiline quote escapes fuel seen rest
        | none => do
          let (c, rest) ← readEscape rest
          readMultiline quote escapes fuel (c :: seen) rest
      else
        match lineEnd? (c :: rest) with
        | some rest => readMultiline quote escapes fuel ('\n' :: seen) rest
        | none => if isPrintable c then readMultiline quote escapes fuel (c :: seen) rest else none
    | (quotes, rest) => do
      let (closed, count) ← quotesInside quotes.length
      let seen := List.replicate count quote ++ seen
      if closed then some (String.ofList seen.reverse, rest) else readMultiline quote escapes fuel seen rest

/-- A string of any form, and what follows it. -/
def readString (cs : List Char) : Option (String × List Char) :=
  match cs with
  | '"' :: '"' :: '"' :: rest => readMultiline '"' true cs.length [] (dropLineEnd rest)
  | '"' :: rest => readBasic cs.length [] rest
  | '\'' :: '\'' :: '\'' :: rest => readMultiline '\'' false cs.length [] (dropLineEnd rest)
  | '\'' :: rest => readLiteral [] rest
  | _ => none

end GrammarLinker.Toml
