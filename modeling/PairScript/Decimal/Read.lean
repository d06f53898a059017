import PairScript.Number.Word

/-!
# Reading decimals

The texts that denote a float: an optional sign, then `inf`, `infinity` or `nan` in any case, or
digits with at most one point among, before or after them, and an optional power of ten.  The
result is the float nearest to the written number; too large a number reads as an infinity.
-/

namespace PairScript.Decimal

/-- The float nearest to `mantissa * 10 ^ exponent`. -/
def nearest (mantissa : Nat) (exponent : Int) : Float :=
  Float.ofScientific mantissa (exponent < 0) exponent.natAbs

/-- Reads an optional sign. -/
def readSign : List Char → Bool × List Char
  | '-' :: r => (true, r)
  | '+' :: r => (false, r)
  | r => (false, r)

/-- Reads `e` or `E`, an optional sign and one or more digits, up to the end; nothing at all
stands for a power of zero. -/
def readExponent? : List Char → Option Int
  | [] => some 0
  | c :: r =>
    if c = 'e' || c = 'E' then
      let (negative, ds) := readSign r
      if ds.isEmpty || !ds.all Char.isDigit then none
      else
        let n : Int := Word.digitsValue ds
        some (if negative then -n else n)
    else none

/-- Reads digits with an optional point and an optional power of ten, up to the end. -/
def readMagnitude? (cs : List Char) : Option Float :=
  let whole := cs.takeWhile Char.isDigit
  let rest := cs.dropWhile Char.isDigit
  let (fraction, rest) :=
    match rest with
    | '.' :: r => (r.takeWhile Char.isDigit, r.dropWhile Char.isDigit)
    | r => ([], r)
  if whole.isEmpty && fraction.isEmpty then none
  else do
    let exponent ← readExponent? rest
    return nearest (Word.digitsValue (whole ++ fraction)) (exponent - fraction.length)

/-- The names of the values that are no numbers. -/
def readSpecial? (cs : List Char) : Option Float :=
  let name := String.ofList (cs.map Char.toLower)
  if name = "inf" || name = "infinity" then some (1.0 / 0.0)
  else if name = "nan" then some (0.0 / 0.0)
  else none

/-- Reads a float from a whole text. -/
def readFloat? (cs : List Char) : Option Float :=
  let (negative, rest) := readSign cs
  ((readSpecial? rest).or (readMagnitude? rest)).map fun x => if negative then -x else x

end PairScript.Decimal
