import PairScript.Eval.Machine
import PairScript.Primitive.Lists
import PairScript.Value.Equality

/-!
# Applying primitives

`Primitive.apply` checks the number of arguments and performs the primitive.
-/

namespace PairScript.Primitive

open Eval

/-- `&&` on two values: the left one unless it is true. -/
def conjunction (a b : Value) : Value := if a.isTruthy then b else a

/-- `||` on two values: the left one if it is true. -/
def disjunction (a b : Value) : Value := if a.isTruthy then a else b

/-- `print`: the texts of the arguments one after the other, and a line break. -/
def printLine (args : List Value) (line : Nat) : Eval Value := do
  onHost line (Host.writeLine (String.join (args.map Value.text)))
  return .null

/-- `input`: a line of input, or `null` at its end. -/
def readLine (line : Nat) : Eval Value := do
  match ← onHost line Host.readLine with
  | some text => return .str text
  | none => return .null

/-- Performs a primitive on a list of arguments. -/
def perform (line : Nat) : Primitive → List Value → Eval Value
  | .add, [a, b] => settle line (plus a b)
  | .subtract, [a, b] => settle line (minus a b)
  | .multiply, [a, b] => settle line (times a b)
  | .floorDivide, [a, b] => settle line (quotient a b)
  | .trueDivide, [a, b] => settle line (ratio a b)
  | .modulo, [a, b] => settle line (remainder a b)
  | .power, [a, b] => settle line (raise a b)
  | .negate, [a] => settle line (opposite a)
  | .equal, [a, b] => return .bool (a.equal b)
  | .unequal, [a, b] => return .bool (!a.equal b)
  | .less, [a, b] => settle line (ordered (·.isLT) a b)
  | .lessEqual, [a, b] => settle line (ordered (·.isLE) a b)
  | .greater, [a, b] => settle line (ordered (·.isGT) a b)
  | .greaterEqual, [a, b] => settle line (ordered (·.isGE) a b)
  | .not, [a] => return .bool (!a.isTruthy)
  | .and, [a, b] => return conjunction a b
  | .or, [a, b] => return disjunction a b
  | .bitAnd, [a, b] => settle line (bitwise (· &&& ·) a b)
  | .bitOr, [a, b] => settle line (bitwise (· ||| ·) a b)
  | .bitXor, [a, b] => settle line (bitwise (· ^^^ ·) a b)
  | .shiftLeft, [a, b] => settle line (shift (· <<< ·) a b)
  | .shiftRight, [a, b] => settle line (shift (· >>> ·) a b)
  | .shiftRightLogical, [a, b] => settle line (shift logicalShiftRight a b)
  | .complement, [a] => settle line (invert a)
  | .comma, [a, b] => onHeap (Heap.cons a b)
  | .pair, [a, b] => onHeap (Heap.cons a b)
  | .index, [a, b] => settle line (elementAt a b)
  | .list, items => onHeap (Heap.list items)
  | .charList, [a] => do
    let s ← settle line (asString a)
    onHeap (Heap.list (characters s))
  | .isList, [a] => return .bool a.isProper
  | .isPair, [a] => return .bool (isPairValue a)
  | .charCode, [a] => settle line (codePoint a)
  | .int, [a] => settle line (Value.int <$> toInteger a)
  | .round, [a] => settle line (Value.int <$> roundToInteger a)
  | .round, [a, b] => settle line (roundToPlaces a b)
  | .print, args => printLine args line
  | .input, [] => readLine line
  | .input, [prompt] => do
    onHost line (Host.write prompt.text)
    readLine line
  | .throw, [a] => fail (.thrown a.text) line
  | .assert, [a] => if a.isTruthy then return .null else fail .assertionFailed line
  | p, args => fail (.argumentCount p.name args.length) line

/-- Applies a primitive, unless it does not take the number of arguments. -/
def apply (p : Primitive) (args : List Value) (line : Nat) : Eval Value :=
  if p.arity.accepts args.length then p.perform line args
  else fail (.argumentCount p.name args.length) line

end PairScript.Primitive
