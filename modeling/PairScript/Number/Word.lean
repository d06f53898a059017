/-!
# Words: the integers of the language

An integer of the language is a 64-bit signed word.  Arithmetic never wraps silently: every
operation here names its exact result in `Int` and answers `none` when that result is not a
word.

* `Word.ofInt?` is the gate that every checked operation passes.
* `Word.floorDiv?` and `Word.floorMod?` correct the truncating division of words by a sign
  test, so that the quotient rounds towards negative infinity and the remainder takes the
  sign of the divisor.
* `Word.pow?` is the exact power, for exponents up to `Word.maxExponent`.

Nothing here knows about lines, values or faults; which fault a `none` becomes is decided
where the primitives of the language are defined.
-/

namespace PairScript

/-- An integer of the language. -/
abbrev Word := Int64

namespace Word

/-! ### Checked results -/

/-- Whether an integer is the value of some word. -/
def inRange (x : Int) : Bool :=
  decide (-9223372036854775808 ≤ x) && decide (x ≤ 9223372036854775807)

/-- The word whose value is `x`, if there is one. -/
def ofInt? (x : Int) : Option Word :=
  if inRange x then some (Int64.ofInt x) else none

/-- Sum, unless it leaves the range. -/
def add? (a b : Word) : Option Word := ofInt? (a.toInt + b.toInt)

/-- Difference, unless it leaves the range. -/
def sub? (a b : Word) : Option Word := ofInt? (a.toInt - b.toInt)

/-- Product, unless it leaves the range. -/
def mul? (a b : Word) : Option Word := ofInt? (a.toInt * b.toInt)

/-- Negation; only the smallest word has none. -/
def neg? (a : Word) : Option Word := ofInt? (-a.toInt)

/-! ### Division -/

/-- Whether the division `a / b` has no word as its quotient: a zero divisor, or the one
quotient that is too large. -/
def undividable (a b : Word) : Bool :=
  b == 0 || (a == Int64.minValue && b == -1)

/-- Whether the exact quotient of `a` and `b` is negative and not an integer, the case in which
truncation and rounding down differ. -/
def roundsUp (a b : Word) : Bool :=
  a % b != 0 && (decide (a < 0) != decide (b < 0))

/-- Quotient rounded towards negative infinity. -/
def floorDiv? (a b : Word) : Option Word :=
  if undividable a b then none
  else if roundsUp a b then sub? (a / b) 1
  else some (a / b)

/-- Remainder that goes with `floorDiv?`: zero, or of the sign of the divisor. -/
def floorMod? (a b : Word) : Option Word :=
  if undividable a b then none
  else
    let r := a % b
    if r != 0 && (decide (r < 0) != decide (b < 0)) then some (r + b) else some r

/-! ### Powers -/

/-- The largest exponent that an integer power takes. -/
def maxExponent : Nat := 4294967295

/-- The exact power of an integer, unless it leaves the range or the exponent is too large.

A base other than `-1`, `0` and `1` leaves the range at exponent 64 at the latest, so no large
power is ever computed. -/
def pow? (base : Word) (exponent : Nat) : Option Word :=
  let b := base.toInt
  if maxExponent < exponent then none
  else if b.natAbs ≤ 1 then ofInt? (Int.pow b (if exponent = 0 then 0 else 2 - exponent % 2))
  else if 64 ≤ exponent then none
  else ofInt? (Int.pow b exponent)

/-! ### Reading and writing -/

/-- Decimal digits of a word, with a leading `-` when it is negative. -/
def text (a : Word) : String := toString a.toInt

/-- Value of a list of decimal digits, most significant first. -/
def digitsValue (ds : List Char) : Nat :=
  ds.foldl (fun n c => 10 * n + (c.toNat - '0'.toNat)) 0

/-- Reads an optional sign followed by one or more ASCII digits, and nothing else. -/
def read? (cs : List Char) : Option Word :=
  let (negative, ds) :=
    match cs with
    | '-' :: r => (true, r)
    | '+' :: r => (false, r)
    | r => (false, r)
  if ds.isEmpty || !ds.all Char.isDigit then none
  else
    let n : Int := digitsValue ds
    ofInt? (if negative then -n else n)

/-- The nearest float, ties to even. -/
def toFloat (a : Word) : Float := Float.ofInt a.toInt

end Word

end PairScript
