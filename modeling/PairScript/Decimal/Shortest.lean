/-!
# Shortest decimals

The decimal text of a float is the shortest one that reads back as the same float.  This module
finds its digits in exact natural arithmetic.

A positive finite float is `m * 2 ^ q`.  The reals that round to it form an interval around it,
which contains its ends exactly when `m` is even.  For one digit, two digits and so on, the two
neighbours of the float on the grid of decimals with that many digits are tested against the
interval.  The first grid with a hit wins; of two hits the nearer is taken, and the larger one if
both are equally near.  Seventeen digits always suffice.

* `Binary` — a positive float taken apart;
* `Scaled` — digits and the power of ten they are multiplied by;
* `Binary.shortest` — the search.
-/

namespace PairScript.Decimal

/-- A positive number `mantissa * 2 ^ exponent`.  `tightBelow` marks the floats whose lower
neighbour is only half as far away as the upper one. -/
structure Binary where
  mantissa : Nat
  exponent : Int
  tightBelow : Bool
deriving Repr, DecidableEq

/-- The value of the mantissa bit that normal floats do not store. -/
def hiddenBit : Nat := 4503599627370496

/-- Takes the magnitude of a finite float apart. -/
def Binary.ofFloat (x : Float) : Binary :=
  let bits := x.toBits.toNat
  let fraction := bits % hiddenBit
  let biased : Nat := bits / hiddenBit % 2048
  if biased = 0 then ⟨fraction, -1074, false⟩
  else ⟨fraction + hiddenBit, (biased : Int) - 1075, fraction = 0 && 1 < biased⟩

/-- The number `digits * 10 ^ exponent`. -/
structure Scaled where
  digits : Nat
  exponent : Int
deriving Repr, DecidableEq

/-- Number of decimal digits of `n`; `0` has one. -/
def digitCount (n : Nat) : Nat := (Nat.toDigits 10 n).length

/-- The exponent of the leading decimal digit of a positive binary number. -/
def Binary.leadingExponent (b : Binary) : Int :=
  if 0 ≤ b.exponent then (digitCount (b.mantissa * Nat.pow 2 b.exponent.toNat) : Int) - 1
  else (digitCount (b.mantissa * Nat.pow 10 400 / Nat.pow 2 (-b.exponent).toNat) : Int) - 401

/-- The factors `(p, q)` for which a number of quarter units of `b` is compared with a multiple
of `10 ^ t`: `n` quarter units are below `d * 10 ^ t` exactly when `n * p < d * q`. -/
def Binary.scale (b : Binary) (t : Int) : Nat × Nat :=
  let quarter := b.exponent - 2
  (Nat.pow 2 quarter.toNat * Nat.pow 10 (-t).toNat,
    Nat.pow 2 (-quarter).toNat * Nat.pow 10 t.toNat)

/-- Whether `d * q` lies in the interval of reals that round to `b`, in the scale `(p, q)`. -/
def Binary.admits (b : Binary) (p q d : Nat) : Bool :=
  let low := (4 * b.mantissa - if b.tightBelow then 1 else 2) * p
  let high := (4 * b.mantissa + 2) * p
  if b.mantissa % 2 = 0 then low ≤ d * q && d * q ≤ high
  else low < d * q && d * q < high

/-- The decimal with `count` digits that reads back as `b` and is nearest to it, if there is
one. -/
def Binary.nearestOnGrid (b : Binary) (leading : Int) (count : Nat) : Option Scaled :=
  let t := leading - (count : Int) + 1
  let (p, q) := b.scale t
  let target := 4 * b.mantissa * p
  let below := target / q
  let above := below + 1
  match b.admits p q below, b.admits p q above with
  | true, true =>
    if target - below * q < above * q - target then some ⟨below, t⟩ else some ⟨above, t⟩
  | true, false => some ⟨below, t⟩
  | false, true => some ⟨above, t⟩
  | false, false => none

/-- Tries `remaining` grids, starting at `count` digits. -/
def Binary.searchFrom (b : Binary) (leading : Int) (count : Nat) : Nat → Scaled
  | 0 => ⟨b.mantissa, b.exponent⟩
  | remaining + 1 =>
    match b.nearestOnGrid leading count with
    | some d => d
    | none => b.searchFrom leading (count + 1) remaining

/-- The shortest decimal that reads back as `b`, and of those the nearest. -/
def Binary.shortest (b : Binary) : Scaled :=
  b.searchFrom b.leadingExponent 1 17

end PairScript.Decimal
