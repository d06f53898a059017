import PairScript.Decimal.Shortest

/-!
# The text of a float

How a float is written: the shortest digits that read back, either with a point in place
(`0.0001`, `1.5`, `9999999999999998.0`) or as digits and a power of ten (`1e16`, `1.5e-7`).
The decisions are the fields of one record, `standardStyle`.
-/

namespace PairScript.Decimal

/-- The choices that fix the text of a float. -/
structure FloatStyle where
  /-- Smallest exponent of the leading digit that is written with the point in place. -/
  minPositional : Int
  /-- Largest exponent of the leading digit that is written with the point in place. -/
  maxPositional : Int
  /-- Written after an integer in positional notation. -/
  integerTail : String
  /-- Stands between the digits and the power of ten. -/
  powerMark : String
  nan : String
  infinity : String

/-- Floats are positional from `1e-4` up to but not including `1e16`, an integer keeps `.0`, and
the power of ten has no plus sign. -/
def standardStyle : FloatStyle where
  minPositional := -4
  maxPositional := 15
  integerTail := ".0"
  powerMark := "e"
  nan := "NaN"
  infinity := "inf"

/-- Drops the zeros at the end of a list of digits, keeping one digit. -/
def dropTrailingZeros (ds : List Char) : List Char :=
  match (ds.reverse.dropWhile (· = '0')).reverse with
  | [] => ['0']
  | kept => kept

/-- Digits with the point in place, where `leading` is the exponent of the first digit. -/
def positional (style : FloatStyle) (ds : List Char) (leading : Int) : String :=
  if leading < 0 then
    "0." ++ String.ofList (List.replicate ((-leading).toNat - 1) '0' ++ ds)
  else
    let whole := leading.toNat + 1
    if ds.length ≤ whole then
      String.ofList (ds ++ List.replicate (whole - ds.length) '0') ++ style.integerTail
    else
      String.ofList (ds.take whole) ++ "." ++ String.ofList (ds.drop whole)

/-- One digit, the others after a point, and a power of ten. -/
def scientific (style : FloatStyle) (ds : List Char) (leading : Int) : String :=
  let head := String.ofList (ds.take 1)
  let tail := ds.drop 1
  head ++ (if tail.isEmpty then "" else "." ++ String.ofList tail)
    ++ style.powerMark ++ toString leading

/-- The text of a positive finite float. -/
def magnitudeText (style : FloatStyle) (x : Float) : String :=
  let d := (Binary.ofFloat x).shortest
  let written := Nat.toDigits 10 d.digits
  let leading := d.exponent + (written.length : Int) - 1
  let ds := dropTrailingZeros written
  if style.minPositional ≤ leading && leading ≤ style.maxPositional then
    positional style ds leading
  else
    scientific style ds leading

/-- The text of a float. -/
def floatText (x : Float) : String :=
  let style := standardStyle
  if x.isNaN then style.nan
  else
    let sign := if (x.toBits >>> 63) == 1 then "-" else ""
    if x.isInf then sign ++ style.infinity
    else if x == 0.0 then sign ++ "0" ++ style.integerTail
    else sign ++ magnitudeText style x

end PairScript.Decimal
