/-!
# Digits

The digits of base sixteen and below, and the number that a row of digits denotes. Both text formats write characters and
numbers with them.
-/

namespace GrammarLinker

/-- The value of a hexadecimal digit, in either case. -/
def hexValue? (c : Char) : Option Nat :=
  if '0' ≤ c ∧ c ≤ '9' then some (c.toNat - '0'.toNat)
  else if 'a' ≤ c ∧ c ≤ 'f' then some (c.toNat - 'a'.toNat + 10)
  else if 'A' ≤ c ∧ c ≤ 'F' then some (c.toNat - 'A'.toNat + 10)
  else none

/-- The value of a digit of a base up to sixteen. -/
def digitValue? (base : Nat) (c : Char) : Option Nat :=
  (hexValue? c).filter (· < base)

/-- A digit of the base. -/
def isDigitOf (base : Nat) (c : Char) : Bool :=
  (digitValue? base c).isSome

/-- The number that a row of digits denotes, most significant digit first; none when a character is no digit of the base. -/
def numberOf? (base : Nat) (digits : List Char) : Option Nat :=
  digits.foldlM (fun total c => (digitValue? base c).map (base * total + ·)) 0

example : numberOf? 16 ['f', 'F'] = some 255 := by decide
example : numberOf? 10 ['1', 'a'] = none := by decide

end GrammarLinker
