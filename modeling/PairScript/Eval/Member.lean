import PairScript.Eval.Call

/-!
# Members

A closure without parameters is a namespace.  The first access to one of its members runs its body
once, in a new frame inside the one the closure was made in, and that frame is kept: later reads,
calls and assignments of members all go through it.  If the body fails nothing is kept.

A list has the members `head`, `tail` and `isEmpty`.
-/

namespace PairScript.Eval

/-- Runs the body of a closure for its members, and keeps the frame. -/
def instantiate (self : Evaluator) (c : Closure) (line : Nat) : Eval FrameId := do
  let frame ← boundFrame c.frame c.params [] line
  let outcome ← asCall line (sequence self frame c.body)
  let _ ← returned outcome line
  onHeap fun h => (frame, h.setMemberFrame c.id frame)

/-- The frame of the members of a closure. -/
def memberFrame (self : Evaluator) (c : Closure) (line : Nat) : Eval FrameId := do
  match (← get).heap.memberFrame? c.id with
  | some frame => return frame
  | none => instantiate self c line

/-- The head or tail of a list that has one. -/
def slot (part : Option Value) (name : String) (line : Nat) : Eval Value :=
  match part with
  | some v => return v
  | none => fail (.emptyList name) line

/-- A member of a list. -/
def listMember (list : Value) (name : String) (line : Nat) : Eval Value :=
  match name with
  | "head" => slot list.head? name line
  | "tail" => slot list.tail? name line
  | "isEmpty" => return .bool (!list.isTruthy)
  | _ => fail (.unknownListMethod name) line

/-- A member of a value. -/
def member (self : Evaluator) (target : Value) (name : String) (line : Nat) : Eval Value := do
  match target with
  | .closure c =>
    let frame ← memberFrame self c line
    lookup frame name line
  | v => if v.isList then listMember v name line else fail (.unknownReference name) line

/-- Calls a member of a value.  The member is found before the arguments are evaluated.  A member
of a list is not a function, and its call takes no arguments. -/
def callMember (self : Evaluator) (target : Value) (name : String) (arguments : List Node)
    (frame : FrameId) (line : Nat) : Eval Value := do
  let f ← member self target name line
  let args ← valuesOf self arguments frame
  if target.isList then
    if args.isEmpty then return f else fail (.argumentCount name args.length) line
  else apply self f args line

/-- Overwrites a member of a closure. -/
def assignMember (self : Evaluator) (target : Value) (name : String) (value : Value)
    (line : Nat) : Eval Unit := do
  match target with
  | .closure c =>
    let frame ← memberFrame self c line
    assign frame name value line
  | _ => fail (.unknownReference name) line

/-- Evaluates the operator `.`. -/
def access (self : Evaluator) (operands : List Node) (frame : FrameId) (line : Nat) :
    Eval Value := do
  match operands with
  | [left, right] =>
    let target ← valueOf self left frame
    match right with
    | .reference name _ => member self target name line
    | .call (.reference name _) arguments _ => callMember self target name arguments frame line
    | _ => fail (.unknownReference ".") line
  | _ => fail (.unknownReference ".") line

end PairScript.Eval
