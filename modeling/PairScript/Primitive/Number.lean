import PairScript.Decimal.Read
import PairScript.Eval.Cause
import PairScript.Number.Rounding
import PairScript.Text.Blank
import PairScript.Value.Text

/-!
# Numbers

The primitives on numbers.  Two integers stay integers and fail where the exact result is not a
word; with a float on either side both sides become floats.
-/

namespace PairScript.Primitive

/-! ### Operands -/

/-- A number as a float. -/
def asFloat : Value → Except EvalCause Float
  | .float x => .ok x
  | .int n => .ok n.toFloat
  | v => .error (.mismatch (.expectedNumber v.kind))

/-- An integer. -/
def asInteger : Value → Except EvalCause Word
  | .int n => .ok n
  | v => .error (.mismatch (.expectedInteger v.kind))

/-- A string. -/
def asString : Value → Except EvalCause String
  | .str s => .ok s
  | v => .error (.mismatch (.expectedString v.kind))

/-- Two numbers as floats. -/
def asFloats (operator : String) (a b : Value) : Except EvalCause (Float × Float) :=
  match a, b with
  | .int x, .int y => .ok (x.toFloat, y.toFloat)
  | .int x, .float y => .ok (x.toFloat, y)
  | .float x, .int y => .ok (x, y.toFloat)
  | .float x, .float y => .ok (x, y)
  | a, b => .error (.mismatch (.cannotApply operator a.kind b.kind))

/-- The result of a checked integer operation. -/
def checked : Option Word → Except EvalCause Value
  | some n => .ok (.int n)
  | none => .error .overflow

/-! ### Arithmetic -/

/-- Applies an operation on words to two integers, and one on floats to other numbers. -/
def arithmetic (operator : String) (onWords : Word → Word → Option Word)
    (onFloats : Float → Float → Float) (a b : Value) : Except EvalCause Value :=
  match a, b with
  | .int x, .int y => checked (onWords x y)
  | a, b => do
    let (x, y) ← asFloats operator a b
    return .float (onFloats x y)

/-- Whether a value is a string. -/
def isString : Value → Bool
  | .str _ => true
  | _ => false

/-- `+`: the texts of both sides one after the other if either is a string, else the sum. -/
def plus (a b : Value) : Except EvalCause Value :=
  if isString a || isString b then .ok (.str (a.text ++ b.text))
  else arithmetic "+" Word.add? (· + ·) a b

/-- `-` between two numbers. -/
def minus : Value → Value → Except EvalCause Value := arithmetic "-" Word.sub? (· - ·)

/-- `*`. -/
def times : Value → Value → Except EvalCause Value := arithmetic "*" Word.mul? (· * ·)

/-- Divides floats, unless the divisor is zero. -/
def divideFloats (operator : String) (f : Float → Float → Float) (a b : Value) :
    Except EvalCause Value := do
  let (x, y) ← asFloats operator a b
  if y == 0.0 then .error .divisionByZero else return .float (f x y)

/-- Divides integers as words and other numbers as floats, unless the divisor is zero. -/
def division (operator : String) (onWords : Word → Word → Option Word)
    (onFloats : Float → Float → Float) (a b : Value) : Except EvalCause Value :=
  match a, b with
  | .int x, .int y => if y == 0 then .error .divisionByZero else checked (onWords x y)
  | a, b => divideFloats operator onFloats a b

/-- `/`: the quotient rounded towards negative infinity. -/
def quotient : Value → Value → Except EvalCause Value :=
  division "/" Word.floorDiv? fun x y => (x / y).floor

/-- `%`: the remainder of `/`, of the sign of the divisor. -/
def remainder : Value → Value → Except EvalCause Value :=
  division "%" Word.floorMod? Rounding.floorMod

/-- `/.`: the quotient as a float. -/
def ratio : Value → Value → Except EvalCause Value := divideFloats "/." (· / ·)

/-- The power of two floats. -/
def floatPower (a b : Value) : Except EvalCause Value := do
  let (x, y) ← asFloats "**" a b
  if x == 0.0 && y < 0.0 then .error .divisionByZero else return .float (x.pow y)

/-- `**`: exact on integers unless the exponent is negative. -/
def raise (a b : Value) : Except EvalCause Value :=
  match a, b with
  | .int x, .int n => if n < 0 then floatPower a b else checked (Word.pow? x n.toInt.toNat)
  | a, b => floatPower a b

/-- Unary `-`. -/
def opposite : Value → Except EvalCause Value
  | .int n => checked n.neg?
  | .float x => .ok (.float (-x))
  | v => .error (.mismatch (.cannotNegate v.kind))

/-! ### Order -/

/-- The order of two floats, unless one is NaN. -/
def compareFloats (x y : Float) : Option Ordering :=
  if x < y then some .lt
  else if y < x then some .gt
  else if x == y then some .eq
  else none

/-- The order of two numbers or of two strings; `none` if a NaN is involved. -/
def compareValues (a b : Value) : Except EvalCause (Option Ordering) :=
  match a, b with
  | .int x, .int y => .ok (some (compare x.toInt y.toInt))
  | .int x, .float y => .ok (compareFloats x.toFloat y)
  | .float x, .int y => .ok (compareFloats x y.toFloat)
  | .float x, .float y => .ok (compareFloats x y)
  | .str x, .str y => .ok (some (compare x y))
  | a, b => .error (.mismatch (.cannotCompare a.kind b.kind))

/-- Tests the order of two values; no test holds of a NaN. -/
def ordered (accept : Ordering → Bool) (a b : Value) : Except EvalCause Value := do
  return .bool (((← compareValues a b).map accept).getD false)

/-- The order of two numbers that have one. -/
def compareNumbers (a b : Value) : Except EvalCause Ordering := do
  if !a.isNumber || !b.isNumber then
    .error (.mismatch (.expectedNumbers a.kind b.kind))
  else
    match ← compareValues a b with
    | some o => return o
    | none => .error (.mismatch .cannotOrderNaN)

/-! ### Bits -/

/-- Applies an operation on words to two integers. -/
def bitwise (f : Word → Word → Word) (a b : Value) : Except EvalCause Value := do
  return .int (f (← asInteger a) (← asInteger b))

/-- The bits of a word moved right, zeros coming in. -/
def logicalShiftRight (a n : Word) : Word := (a.toUInt64 >>> n.toUInt64).toInt64

/-- Shifts an integer by an amount from 0 to 63. -/
def shift (f : Word → Word → Word) (a b : Value) : Except EvalCause Value := do
  let x ← asInteger a
  let n ← asInteger b
  if n < 0 || 64 ≤ n then .error (.mismatch (.shiftOutOfRange n)) else return .int (f x n)

/-- Unary `~`. -/
def invert (a : Value) : Except EvalCause Value := do
  return .int (~~~(← asInteger a))

/-! ### Conversions -/

/-- The integer part of a float. -/
def truncate (x : Float) : Except EvalCause Word :=
  if !x.isFinite then .error (.mismatch (.nonFinite x))
  else
    match Rounding.truncate? x with
    | some n => .ok n
    | none => .error .overflow

/-- The integer that a text denotes, or the integer part of the float that it denotes.  Blanks
around it are ignored. -/
def readInteger (s : String) : Except EvalCause Word :=
  let cs := Text.trimBlank s.toList
  match Word.read? cs with
  | some n => .ok n
  | none =>
    match Decimal.readFloat? cs with
    | some x => truncate x
    | none => .error (.mismatch (.textNotInteger s))

/-- `int`. -/
def toInteger : Value → Except EvalCause Word
  | .int n => .ok n
  | .float x => truncate x
  | .bool b => .ok (if b then 1 else 0)
  | .str s => readInteger s
  | v => .error (.mismatch (.kindNotInteger v.kind))

/-- `round` with one argument: the nearest integer, ties to even. -/
def roundToInteger : Value → Except EvalCause Word
  | .int n => .ok n
  | v => do truncate (Rounding.halfEven (← asFloat v))

/-- Whether a number of decimal places is a 32-bit one. -/
def validPlaces (n : Word) : Bool := -2147483648 ≤ n && n ≤ 2147483647

/-- `round` with two arguments: the nearest float with so many decimal places. -/
def roundToPlaces (value places : Value) : Except EvalCause Value := do
  let n ← asInteger places
  if validPlaces n then return .float (Rounding.toPlaces (← asFloat value) n.toInt)
  else .error .overflow

/-- `$char_code`: the code point of a single character. -/
def codePoint (v : Value) : Except EvalCause Value := do
  let s ← asString v
  match s.toList with
  | [c] => return .int (Int64.ofNat c.toNat)
  | _ => .error (.mismatch (.expectedCharacter s))

end PairScript.Primitive
