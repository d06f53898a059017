/-!
# Blank characters

The characters that may surround a number when text is converted to an integer: the code points
with the White_Space property.
-/

namespace PairScript.Text

/-- Closed ranges of the code points with the White_Space property. -/
def blankRanges : List (Nat × Nat) := [
  (0x9, 0xd), (0x20, 0x20), (0x85, 0x85), (0xa0, 0xa0), (0x1680, 0x1680), (0x2000, 0x200a),
  (0x2028, 0x2029), (0x202f, 0x202f), (0x205f, 0x205f), (0x3000, 0x3000)]

/-- Whether a character is blank. -/
def isBlank (c : Char) : Bool :=
  let n := c.toNat
  blankRanges.any fun r => r.1 ≤ n && n ≤ r.2

/-- Drops the blank characters at both ends. -/
def trimBlank (cs : List Char) : List Char :=
  ((cs.dropWhile isBlank).reverse.dropWhile isBlank).reverse

end PairScript.Text
