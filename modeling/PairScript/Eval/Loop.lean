import PairScript.Eval.Sequence
import PairScript.Primitive.Number

/-!
# Loops

All loops take the signals of their body the same way: `break` ends the loop, `continue` ends the
pass, and `return` and `fallthrough` leave the loop unchanged.

A loop that may go on forever takes a bound on its number of passes.
-/

namespace PairScript.Eval

/-- What a loop does after a pass. -/
inductive Pass where
  | next
  | stop
  /-- Leave the loop with a signal. -/
  | leave (s : Signal)

/-- What a loop does after a pass that ended with `outcome`. -/
def passOf : Outcome → Pass
  | .value _ => .next
  | .signal .continueOn => .next
  | .signal .breakOut => .stop
  | .signal s => .leave s

/-! ### While -/

/-- Evaluates `while`, with at most `bound` passes. -/
def whileLoop (self : Evaluator) (condition : Node) (body : List Node) (frame : FrameId) :
    (bound : Nat) → Eval Outcome
  | 0 => exhausted
  | bound + 1 => do
    if (← valueOf self condition frame).isTruthy then
      match passOf (← inScope self body frame) with
      | .next => whileLoop self condition body frame bound
      | .stop => return .value .null
      | .leave s => return .signal s
    else return .value .null

/-! ### Ranges of numbers -/

/-- Whether a loop upwards or downwards goes on at a value that relates to the bound by `o`. -/
def goesOn (upwards closed : Bool) (o : Ordering) : Bool :=
  match upwards, closed with
  | true, false => o.isLT
  | true, true => o.isLE
  | false, false => o.isGT
  | false, true => o.isGE

/-- Whether a loop with this step goes upwards; a step of zero is a fault. -/
def directionOf (step : Value) : Except EvalCause Bool := do
  match ← Primitive.compareNumbers step (.int 0) with
  | .gt => return true
  | .lt => return false
  | .eq => .error (.mismatch .zeroStep)

/-- Fails unless a bound of a range is a number. -/
def requireNumber (v : Value) : Except EvalCause Unit :=
  if v.isNumber then .ok () else .error (.mismatch (.boundNotNumber v.kind))

/-- What stays the same during a loop over a range. -/
structure Range where
  name : String
  limit : Value
  step : Value
  upwards : Bool
  closed : Bool
  body : List Node
  line : Nat

/-- The value of the loop variable after a pass.  The body may have assigned it. -/
def advance (r : Range) (frame : FrameId) (current : Value) : Eval Unit := do
  let now := (← lookup? frame r.name).getD current
  define frame r.name (← settle r.line (Primitive.plus now r.step))

/-- Goes through a range, with at most `bound` passes.  The loop variable lives in `frame`, and
each pass of the body in a frame inside it. -/
def rangePasses (self : Evaluator) (r : Range) (frame : FrameId) : (bound : Nat) → Eval Outcome
  | 0 => exhausted
  | bound + 1 => do
    let current ← lookup frame r.name r.line
    let o ← settle r.line (Primitive.compareNumbers current r.limit)
    if goesOn r.upwards r.closed o then
      match passOf (← inScope self r.body frame) with
      | .next =>
        advance r frame current
        rangePasses self r frame bound
      | .stop => return .value .null
      | .leave s => return .signal s
    else return .value .null

/-- The value of an optional step, which is 1 by default. -/
def stepValue (self : Evaluator) (step : Option Node) (frame : FrameId) : Eval Value :=
  match step with
  | some node => valueOf self node frame
  | none => return .int 1

/-- Evaluates a loop over a range. -/
def rangeLoop (self : Evaluator) (bound : Nat) (name : String) (start limit : Node)
    (closed : Bool) (step : Option Node) (body : List Node) (frame : FrameId) (line : Nat) :
    Eval Outcome := do
  let first ← valueOf self start frame
  let last ← valueOf self limit frame
  let by_ ← stepValue self step frame
  let upwards ← settle line (directionOf by_)
  settle line (requireNumber first)
  settle line (requireNumber last)
  let inner ← childFrame frame
  define inner name first
  rangePasses self ⟨name, last, by_, upwards, closed, body, line⟩ inner bound

/-! ### Lists -/

/-- Goes through values, each bound in a frame of its own. -/
def eachPass (self : Evaluator) (name : String) (body : List Node) (frame : FrameId) :
    List Value → Eval Outcome
  | [] => return .value .null
  | v :: rest => do
    let inner ← childFrame frame
    define inner name v
    match passOf (← sequence self inner body) with
    | .next => eachPass self name body frame rest
    | .stop => return .value .null
    | .leave s => return .signal s

/-- The elements of a value that a loop can go through. -/
def rangeElements (v : Value) : Except EvalCause (List Value) :=
  if v.isList then
    match v.elements? with
    | some items => .ok items
    | none => .error .improperRange
  else .error (.unsupportedRange v.kind)

/-- Evaluates a loop over a list. -/
def eachLoop (self : Evaluator) (name : String) (collection : Node) (body : List Node)
    (frame : FrameId) (line : Nat) : Eval Outcome := do
  let v ← valueOf self collection frame
  let items ← settle line (rangeElements v)
  eachPass self name body frame items

end PairScript.Eval
