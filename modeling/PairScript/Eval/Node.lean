import PairScript.Eval.Assignment
import PairScript.Eval.Branch
import PairScript.Eval.Loop

/-!
# Evaluating nodes

`Eval.step` evaluates a node with the help of the level below, and `Eval.evaluate` closes the
recursion: it nests at most as deeply as its fuel.  A run that halts for another reason than its
fuel halts the same way with more of it, so the amount given to `Eval.run` only has to be large.
-/

namespace PairScript.Eval

/-- Makes a closure of the current frame. -/
def makeClosure (name : Option String) (params : List String) (body : List Node)
    (frame : FrameId) : Eval Value := do
  let id ← onHeap Heap.newClosure
  return .closure ⟨id, name, params, body, frame⟩

/-- Evaluates an operator. -/
def operation (self : Evaluator) (symbol : String) (operands : List Node) (frame : FrameId)
    (line : Nat) : Eval Value :=
  if symbol == "&&" || symbol == "||" then logical self symbol operands frame line
  else if symbol == "." then access self operands frame line
  else strict self symbol operands frame line

/-- Evaluates the value of a `return`, which is `null` by default. -/
def giveBack (self : Evaluator) (value : Option Node) (frame : FrameId) : Eval Outcome := do
  match value with
  | some node => return .signal (.giveBack (← valueOf self node frame))
  | none => return .signal (.giveBack .null)

/-- Evaluates a node, its parts being evaluated by `self`.  Loops make at most `bound` passes. -/
def step (bound : Nat) (self : Evaluator) (node : Node) (frame : FrameId) : Eval Outcome := do
  match node with
  | .constant value _ => return .value (.ofConstant value)
  | .reference name line => return .value (← lookup frame name line)
  | .definition name value _ =>
    let v ← valueOf self value frame
    define frame name v
    return .value v
  | .function name params body _ => return .value (← makeClosure name params body frame)
  | .assignment target value yieldsOld line =>
    return .value (← assignment self target value yieldsOld frame line)
  | .operation symbol operands line =>
    return .value (← operation self symbol operands frame line)
  | .call callee arguments line => return .value (← call self callee arguments frame line)
  | .conditional condition body other _ => conditional self condition body other frame
  | .whileLoop condition body _ => whileLoop self condition body frame bound
  | .switch subject arms fallback _ => switch self subject arms fallback frame
  | .rangeLoop name start limit closed by_ body line =>
    rangeLoop self bound name start limit closed by_ body frame line
  | .eachLoop name collection body line => eachLoop self name collection body frame line
  | .breakOut _ => return .signal .breakOut
  | .continueOn _ => return .signal .continueOn
  | .fallThrough _ => return .signal .fallThrough
  | .giveBack value _ => giveBack self value frame

/-- Evaluates a node in a frame, nesting at most `fuel` levels. -/
def evaluate : (fuel : Nat) → Evaluator
  | 0, _, _ => exhausted
  | fuel + 1, node, frame => step fuel (evaluate fuel) node frame

/-! ### Entry points -/

/-- The fuel that entry points give, more than any run uses up. -/
def ampleFuel : Nat := 4611686018427387904

/-- Runs a program in a frame. -/
def run (nodes : List Node) (frame : FrameId) : Eval Value :=
  program (evaluate ampleFuel) frame .null nodes

end PairScript.Eval
