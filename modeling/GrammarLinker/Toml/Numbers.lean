import GrammarLinker.Text.Digits

/-!
# TOML numbers and dates

Which texts are numbers or dates. Digits may be parted by single underscores; a decimal number has no zero in front of another
digit; an integer has 64 bits; a positive float must not be so large that it rounds to infinity; and the parts of a date and a
time are within the calendar. No value is kept, so each reader gives the characters that follow.
-/

namespace GrammarLinker.Toml

/-! ## Rows of digits -/

/-- Digits of a base, parted by single underscores, and the rest; given the digits `seen` (last one first), the last of which is
the character before. -/
def readMoreDigits (base : Nat) : (seen : List Char) → List Char → Option (List Char × List Char)
  | seen, '_' :: c :: rest => if isDigitOf base c then readMoreDigits base (c :: seen) rest else none
  | seen, c :: rest =>
    if isDigitOf base c then readMoreDigits base (c :: seen) rest
    else if c == '_' then none
    else some (seen.reverse, c :: rest)
  | seen, [] => some (seen.reverse, [])

/-- A row of digits of a base, of which there is at least one, and the rest. -/
def readDigits (base : Nat) : List Char → Option (List Char × List Char)
  | c :: rest => if isDigitOf base c then readMoreDigits base [c] rest else none
  | [] => none

/-- The whole part of a decimal number: a zero that comes first stands alone. -/
def readWhole : List Char → Option (List Char × List Char)
  | '0' :: rest => some (['0'], rest)
  | cs => readDigits 10 cs

/-! ## Integers and floats -/

/-- Whether an integer has 64 bits, given its digits and whether a minus comes first. -/
def fitsInteger (base : Nat) (negative : Bool) (digits : List Char) : Bool :=
  match numberOf? base digits with
  | some n => if negative then n ≤ Nat.pow 2 63 else n < Nat.pow 2 63
  | none => false

/-- The least number that rounds to infinity as a float of 64 bits. -/
def floatBound : Nat := Nat.pow 2 1024 - Nat.pow 2 970

/-- Whether the number `digits · 10 ^ exponent` rounds to infinity. The number of digits decides far from the bound. -/
def roundsToInfinity (digits : List Char) (exponent : Int) : Bool :=
  match digits.dropWhile (· == '0') with
  | [] => false
  | digits =>
    let magnitude := exponent + digits.length
    if 310 < magnitude then true
    else if magnitude < 308 then false
    else
      let n := (numberOf? 10 digits).getD 0
      if 0 ≤ exponent then floatBound ≤ n * Nat.pow 10 exponent.toNat
      else floatBound * Nat.pow 10 (-exponent).toNat ≤ n

/-- The fraction of a float after its point, which must have a digit. -/
def readFraction : List Char → Option (List Char × List Char)
  | '.' :: rest => readDigits 10 rest
  | cs => some ([], cs)

/-- The exponent of a float, which may be missing. -/
def readExponent : List Char → Option (Int × List Char)
  | e :: rest =>
    if e == 'e' || e == 'E' then do
      let (negative, rest) := match rest with
        | '+' :: rest => (false, rest)
        | '-' :: rest => (true, rest)
        | rest => (false, rest)
      let (digits, rest) ← readDigits 10 rest
      let n : Int := (← numberOf? 10 digits : Nat)
      return (if negative then -n else n, rest)
    else some (0, e :: rest)
  | [] => some (0, [])

/-- An integer with the mark of its base, which has no sign. -/
def readMarked (base : Nat) (cs : List Char) : Option (List Char) := do
  let (digits, rest) ← readDigits base cs
  if fitsInteger base false digits then some rest else none

/-- A decimal integer or a float after its sign. -/
def readDecimal (negative : Bool) (cs : List Char) : Option (List Char) := do
  let (whole, rest) ← readWhole cs
  match rest with
  | c :: _ =>
    if c == '.' || c == 'e' || c == 'E' then
      let (fraction, rest) ← readFraction rest
      let (exponent, rest) ← readExponent rest
      if !negative && roundsToInfinity (whole ++ fraction) (exponent - fraction.length) then none else some rest
    else if fitsInteger 10 negative whole then some rest
    else none
  | [] => if fitsInteger 10 negative whole then some [] else none

/-- The float infinity or the float that is no number, or a decimal number, after its sign. -/
def readSigned (negative : Bool) : List Char → Option (List Char)
  | 'i' :: 'n' :: 'f' :: rest => some rest
  | 'n' :: 'a' :: 'n' :: rest => some rest
  | cs => readDecimal negative cs

/-- A number. -/
def readNumber : List Char → Option (List Char)
  | '+' :: rest => readSigned false rest
  | '-' :: rest => readSigned true rest
  | '0' :: 'x' :: rest => readMarked 16 rest
  | '0' :: 'o' :: rest => readMarked 8 rest
  | '0' :: 'b' :: rest => readMarked 2 rest
  | cs => readSigned false cs

/-! ## Dates and times -/

/-- Two decimal digits whose number lies between two bounds. -/
def readPair (low high : Nat) : List Char → Option (Nat × List Char)
  | a :: b :: rest => do
    let n ← numberOf? 10 [a, b]
    if low ≤ n ∧ n ≤ high then some (n, rest) else none
  | _ => none

/-- The characters after an expected one. -/
def expect (expected : Char) : List Char → Option (List Char)
  | c :: rest => if c == expected then some rest else none
  | [] => none

/-- How many days a month has. -/
def daysIn (year month : Nat) : Nat :=
  if month = 2 then
    if year % 4 = 0 ∧ (year % 100 ≠ 0 ∨ year % 400 = 0) then 29 else 28
  else if month ∈ [4, 6, 9, 11] then 30
  else 31

/-- Hours and minutes. -/
def readHourMinute (cs : List Char) : Option (List Char) := do
  let (_, rest) ← readPair 0 23 cs
  let (_, rest) ← readPair 0 59 (← expect ':' rest)
  return rest

/-- The fraction of a second, which may be missing. -/
def skipSecondFraction : List Char → List Char
  | '.' :: c :: rest => if c.isDigit then rest.dropWhile Char.isDigit else '.' :: c :: rest
  | cs => cs

/-- A time of the day; sixty seconds allow for a leap second. -/
def readTime (cs : List Char) : Option (List Char) := do
  let rest ← readHourMinute cs
  let (_, rest) ← readPair 0 60 (← expect ':' rest)
  return skipSecondFraction rest

/-- The offset of a time from universal time, which may be missing. -/
def readOffset : List Char → Option (List Char)
  | c :: rest =>
    if c == 'Z' || c == 'z' then some rest
    else if c == '+' || c == '-' then readHourMinute rest
    else some (c :: rest)
  | [] => some []

/-- Whether a time of the day begins here, as two digits and a colon show. -/
def startsTime : List Char → Bool
  | a :: b :: ':' :: _ => a.isDigit && b.isDigit && ((numberOf? 10 [a, b]).any (· ≤ 23))
  | _ => false

/-- Whether a date begins here, as four digits and a hyphen show. -/
def startsDate : List Char → Bool
  | a :: b :: c :: d :: '-' :: _ => a.isDigit && b.isDigit && c.isDigit && d.isDigit
  | _ => false

/-- The time that may follow a date, with its offset. -/
def readTimeAfterDate : List Char → Option (List Char)
  | c :: rest =>
    if (c == 'T' || c == 't' || c == ' ') && startsTime rest then do readOffset (← readTime rest)
    else some (c :: rest)
  | [] => some []

/-- A date, with or without a time. -/
def readDate : List Char → Option (List Char)
  | a :: b :: c :: d :: rest => do
    let year ← numberOf? 10 [a, b, c, d]
    let (month, rest) ← readPair 1 12 (← expect '-' rest)
    let (day, rest) ← readPair 1 31 (← expect '-' rest)
    if day ≤ daysIn year month then readTimeAfterDate rest else none
  | _ => none

/-- A number, a date or a time of the day. -/
def readPlain (cs : List Char) : Option (List Char) :=
  if startsDate cs then readDate cs
  else if startsTime cs then readTime cs
  else readNumber cs

end GrammarLinker.Toml
