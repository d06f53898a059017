import PairScript.Eval.Member

/-!
# Assignments

The right side is evaluated first.  If the old value is asked for, the left side is read next, and
only then is the new value stored.  An assignment never creates a binding.
-/

namespace PairScript.Eval

/-- Stores a value in the place that a node denotes. -/
def store (self : Evaluator) (target : Node) (value : Value) (frame : FrameId) (line : Nat) :
    Eval Unit := do
  match target with
  | .reference name _ => assign frame name value line
  | .operation symbol operands _ =>
    if symbol == "." then
      match operands with
      | [left, .reference name _] =>
        let owner ← valueOf self left frame
        assignMember self owner name value line
      | _ => fail (.unknownReference ".") line
    else fail (.mismatch .invalidTarget) line
  | _ => fail (.mismatch .invalidTarget) line

/-- Evaluates an assignment. -/
def assignment (self : Evaluator) (target value : Node) (yieldsOld : Bool) (frame : FrameId)
    (line : Nat) : Eval Value := do
  let new ← valueOf self value frame
  let result ← if yieldsOld then valueOf self target frame else pure new
  store self target new frame line
  return result

end PairScript.Eval
