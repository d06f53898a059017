import PairScript.Eval.Sequence
import PairScript.Value.Equality

/-!
# Branches

`if` runs one of two blocks.  `switch` compares its subject with the values of its arms in order,
enters the first arm with an equal value, and goes on to the next arm, without a test, as long as
an arm ends in `fallthrough`.  The default arm comes after all others.  Every block runs in a
frame of its own.
-/

namespace PairScript.Eval

/-- Runs an optional block. -/
def inScope? (self : Evaluator) (body : Option (List Node)) (frame : FrameId) : Eval Outcome :=
  match body with
  | some body => inScope self body frame
  | none => return .value .null

/-- Evaluates `if`. -/
def conditional (self : Evaluator) (condition : Node) (body : List Node)
    (other : Option (List Node)) (frame : FrameId) : Eval Outcome := do
  if (← valueOf self condition frame).isTruthy then inScope self body frame
  else inScope? self other frame

/-- Whether a subject equals one of some values, which are evaluated up to the first equal one. -/
def matchesAny (self : Evaluator) (subject : Value) (frame : FrameId) : List Node → Eval Bool
  | [] => return false
  | node :: rest => do
    let v ← valueOf self node frame
    if v.equal subject then return true else matchesAny self subject frame rest

/-- The outcome of a switch whose last arm ended with `outcome`. -/
def switchOutcome : Outcome → Outcome
  | .signal (.giveBack v) => .signal (.giveBack v)
  | .signal .continueOn => .signal .continueOn
  | _ => .value .null

/-- Runs the default arm of a switch. -/
def runFallback (self : Evaluator) (fallback : Option (List Node)) (frame : FrameId) :
    Eval Outcome := do
  return switchOutcome (← inScope? self fallback frame)

/-- Runs the arms of a switch, the first one without a test. -/
def runArms (self : Evaluator) (fallback : Option (List Node)) (frame : FrameId) :
    List (Arm Node) → Eval Outcome
  | [] => runFallback self fallback frame
  | arm :: rest => do
    match ← inScope self arm.body frame with
    | .signal .fallThrough => runArms self fallback frame rest
    | outcome => return switchOutcome outcome

/-- Looks for the arm of a switch that matches its subject, and runs from there. -/
def chooseArm (self : Evaluator) (subject : Value) (fallback : Option (List Node))
    (frame : FrameId) : List (Arm Node) → Eval Outcome
  | [] => runFallback self fallback frame
  | arm :: rest => do
    if ← matchesAny self subject frame arm.values then
      runArms self fallback frame (arm :: rest)
    else chooseArm self subject fallback frame rest

/-- Evaluates `switch`. -/
def switch (self : Evaluator) (subject : Node) (arms : List (Arm Node))
    (fallback : Option (List Node)) (frame : FrameId) : Eval Outcome := do
  let v ← valueOf self subject frame
  chooseArm self v fallback frame arms

end PairScript.Eval
