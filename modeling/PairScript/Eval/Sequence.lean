import PairScript.Eval.Machine

/-!
# Values and sequences

Evaluation is recursive: a node asks for its parts, a call for the body of its function.  The
procedures of this folder are written open.  What they need from the level below they ask of a
parameter `self`, which evaluates a node in a frame, and `PairScript.Eval.Node` closes the
recursion.  A property of evaluation can so be shown one construct at a time.

Here are the steps that all constructs share.
-/

namespace PairScript

/-- Evaluates a node in a frame. -/
abbrev Evaluator := Node → FrameId → Eval Outcome

namespace Eval

/-- Evaluates a node that has to give a value. -/
def valueOf (self : Evaluator) (node : Node) (frame : FrameId) : Eval Value := do
  match ← self node frame with
  | .value v => return v
  | .signal s => escaped s node.line

/-- Evaluates nodes from left to right, in front of the values `acc` in reverse. -/
def valuesOnto (self : Evaluator) (frame : FrameId) : List Node → (acc : List Value) →
    Eval (List Value)
  | [], acc => return acc.reverse
  | node :: rest, acc => do
    let v ← valueOf self node frame
    valuesOnto self frame rest (v :: acc)

/-- Evaluates nodes that have to give values, from left to right. -/
def valuesOf (self : Evaluator) (nodes : List Node) (frame : FrameId) : Eval (List Value) :=
  valuesOnto self frame nodes []

/-- Evaluates statements in order, up to the first signal.  Without one the result is `null`. -/
def sequence (self : Evaluator) (frame : FrameId) : List Node → Eval Outcome
  | [] => return .value .null
  | node :: rest => do
    match ← self node frame with
    | .value _ => sequence self frame rest
    | .signal s => return .signal s

/-- Evaluates a block in a new frame inside `frame`. -/
def inScope (self : Evaluator) (body : List Node) (frame : FrameId) : Eval Outcome := do
  let inner ← childFrame frame
  sequence self inner body

/-- Evaluates the statements of a program, `last` being the value of the one before.  The result
is the value of the last statement or of a `return`; other signals are faults. -/
def program (self : Evaluator) (frame : FrameId) (last : Value) : List Node → Eval Value
  | [] => return last
  | node :: rest => do
    match ← self node frame with
    | .value v => program self frame v rest
    | .signal (.giveBack v) => return v
    | .signal s => escaped s node.line

end Eval

end PairScript
