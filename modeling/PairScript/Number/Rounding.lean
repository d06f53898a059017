import PairScript.Number.Word

/-!
# Rounding floats

Floats of the language are IEEE doubles.  This module holds the roundings that the arithmetic
and the conversions of the language need beyond `+`, `-`, `*` and `/`:

* `floorMod` — the remainder that goes with the floored quotient;
* `halfEven` — the nearest integer, an exact half going to the even neighbour;
* `toPlaces` — the same at a number of decimal places, negative places meaning tens, hundreds
  and so on;
* `truncate?` — the integer part as a word.

`powerOfTen` is computed by repeated squaring in floats.  The order of the multiplications is
part of its meaning, because each of them rounds.
-/

namespace PairScript.Rounding

/-- Remainder of the floored quotient. -/
def floorMod (a b : Float) : Float := a - b * (a / b).floor

/-- Whether the sign bit is set, which tells `-0.0` from `0.0`. -/
def isNegative (x : Float) : Bool := (x.toBits >>> 63) == 1

/-- `-|x|` when `sign` is negative and `|x|` otherwise. -/
def withSignOf (sign x : Float) : Float :=
  if isNegative sign then -x.abs else x.abs

/-- The nearest integer to a non-negative float, an exact half going to the even one. -/
def halfEvenMagnitude (x : Float) : Float :=
  let below := x.floor
  let excess := x - below
  if excess < 0.5 then below
  else if 0.5 < excess then below + 1.0
  else if (below / 2.0).floor * 2.0 == below then below
  else below + 1.0

/-- The nearest integer, an exact half going to the even one.  The sign is kept, also that of a
zero; infinities and NaN are returned unchanged. -/
def halfEven (x : Float) : Float :=
  if x.isFinite then withSignOf x (halfEvenMagnitude x.abs) else x

/-- `r * a ^ n` by repeated squaring: `a` is squared after each binary digit of `n` but the
last, and multiplied into `r` where the digit is one. -/
def powerBySquaring (r a : Float) (n : Nat) : Float :=
  let r := if n % 2 = 1 then r * a else r
  if _h : n / 2 = 0 then r else powerBySquaring r (a * a) (n / 2)
termination_by n
decreasing_by omega

/-- `10 ^ places` in floats; a negative power is the reciprocal of the positive one. -/
def powerOfTen (places : Int) : Float :=
  let r := powerBySquaring 1.0 10.0 places.natAbs
  if places < 0 then 1.0 / r else r

/-- Rounds to a number of decimal places, ties to even.  A value that the scaling would push
out of the finite floats is returned as it is, and a scale that vanishes gives zero. -/
def toPlaces (value : Float) (places : Int) : Float :=
  let scale := powerOfTen places
  let scaled := value * scale
  if !scaled.isFinite then value
  else if scale == 0.0 then 0.0
  else halfEven scaled / scale

/-- The integer part of a finite float as a word, unless it leaves the range. -/
def truncate? (x : Float) : Option Word :=
  if x < -9223372036854775808.0 || 9223372036854775808.0 ≤ x then none
  else some x.toInt64

end PairScript.Rounding
