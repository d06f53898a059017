import PairScript.Eval.Sequence
import PairScript.Primitive.Apply

/-!
# Calls and operators

A call evaluates the function, then the arguments from left to right, and applies the one to the
others.  An operator is looked up by its symbol; `&&` and `||` evaluate their right side only if
the left one does not decide, and are applied with `null` in its place otherwise.
-/

namespace PairScript.Eval

/-- The value that a function gives back when its body ends with `outcome`. -/
def returned (outcome : Outcome) (line : Nat) : Eval Value :=
  match outcome with
  | .value _ => return .null
  | .signal (.giveBack v) => return v
  | .signal s => escaped s line

/-- Calls a closure: its body runs in a new frame inside the one the closure was made in. -/
def callClosure (self : Evaluator) (c : Closure) (args : List Value) (line : Nat) :
    Eval Value := do
  let frame ← boundFrame c.frame c.params args line
  let outcome ← asCall line (sequence self frame c.body)
  returned outcome line

/-- Applies a value to arguments. -/
def apply (self : Evaluator) (callee : Value) (args : List Value) (line : Nat) : Eval Value :=
  match callee with
  | .primitive p => p.apply args line
  | .closure c => callClosure self c args line
  | v => fail (.notCallable v.kind) line

/-- Evaluates the arguments and applies a value to them. -/
def applyTo (self : Evaluator) (callee : Value) (arguments : List Node) (frame : FrameId)
    (line : Nat) : Eval Value := do
  let args ← valuesOf self arguments frame
  apply self callee args line

/-- Whether the operator `symbol` needs its right side after a left side of this truth. -/
def needsRight (symbol : String) (leftIsTrue : Bool) : Bool :=
  if symbol == "&&" then leftIsTrue else !leftIsTrue

/-- Evaluates `&&` or `||`. -/
def logical (self : Evaluator) (symbol : String) (operands : List Node) (frame : FrameId)
    (line : Nat) : Eval Value := do
  match operands with
  | [left, right] =>
    let a ← valueOf self left frame
    let b ← if needsRight symbol a.isTruthy then valueOf self right frame else pure .null
    let f ← lookup frame symbol line
    apply self f [a, b] line
  | _ => fail (.argumentCount symbol operands.length) line

/-- Evaluates an operator other than `&&`, `||` and `.`. -/
def strict (self : Evaluator) (symbol : String) (operands : List Node) (frame : FrameId)
    (line : Nat) : Eval Value := do
  let f ← lookup frame symbol line
  applyTo self f operands frame line

/-- Evaluates a call. -/
def call (self : Evaluator) (callee : Node) (arguments : List Node) (frame : FrameId)
    (line : Nat) : Eval Value := do
  let f ← valueOf self callee frame
  applyTo self f arguments frame line

end PairScript.Eval
