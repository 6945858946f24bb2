/-!
# Blank characters

The characters with the Unicode property `White_Space`. No reference to a grammar or to an entry may hold one of them, so the
table decides which include texts are well-formed.
-/

namespace GrammarLinker

/-- The code points with the property `White_Space`, as ranges whose ends belong to them, in increasing order. -/
def blankRanges : List (Nat × Nat) :=
  [(0x0009, 0x000d), (0x0020, 0x0020), (0x0085, 0x0085), (0x00a0, 0x00a0), (0x1680, 0x1680), (0x2000, 0x200a),
    (0x2028, 0x2029), (0x202f, 0x202f), (0x205f, 0x205f), (0x3000, 0x3000)]

/-- A character is blank when its code point lies in one of the ranges. -/
def isBlank (c : Char) : Bool :=
  blankRanges.any fun (first, last) => first ≤ c.toNat && c.toNat ≤ last

-- The property holds of twenty-five code points.
example : (blankRanges.map fun (first, last) => last + 1 - first).sum = 25 := rfl

end GrammarLinker
