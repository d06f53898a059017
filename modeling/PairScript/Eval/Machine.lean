import PairScript.Eval.Heap
import PairScript.Eval.Host

/-!
# The state of a run

A run works on a `Machine`: the heap of frames, the host, and the number of calls of closures in
progress with its limit.  `Eval` is a procedure on machines.  It ends with a result or it halts,
and in both cases leaves a machine behind, so that what happened before a fault can be seen.

Evaluating a node ends in an `Outcome`: a value, or a signal on its way to the construct that
takes it.
-/

namespace PairScript

/-- A control signal. -/
inductive Signal where
  | giveBack (value : Value)
  | breakOut
  | continueOn
  | fallThrough

/-- The keyword that raises a signal. -/
def Signal.keyword : Signal → String
  | .giveBack _ => "return"
  | .breakOut => "break"
  | .continueOn => "continue"
  | .fallThrough => "fallthrough"

/-- How the evaluation of a node ends. -/
inductive Outcome where
  | value (v : Value)
  | signal (s : Signal)

/-- The state of a run. -/
structure Machine where
  heap : Heap
  host : Host
  /-- Number of calls of closures in progress. -/
  depth : Nat
  /-- The largest number of calls of closures that may be in progress. -/
  limit : Nat

/-- A procedure on machines. -/
abbrev Eval := EStateM (Halt EvalCause) Machine

namespace Eval

/-- Stops with a fault. -/
def fail {α : Type} (cause : EvalCause) (line : Nat) : Eval α :=
  throw (.fault ⟨cause, line⟩)

/-- Stops because the bound was too small. -/
def exhausted {α : Type} : Eval α := throw .outOfFuel

/-- Continues with the result of a pure computation, a failure being blamed on `line`. -/
def settle {α : Type} (line : Nat) : Except EvalCause α → Eval α
  | .ok a => pure a
  | .error cause => fail cause line

/-! ### Heap -/

/-- Changes the heap. -/
@[inline] def onHeap {α : Type} (f : Heap → α × Heap) : Eval α :=
  modifyGet fun m =>
    let (a, heap) := f m.heap
    (a, { m with heap := heap })

/-- Makes an empty frame inside another. -/
def childFrame (parent : FrameId) : Eval FrameId := onHeap (Heap.child parent)

/-- Makes a frame inside another that binds names to values one to one. -/
def boundFrame (parent : FrameId) (names : List String) (values : List Value) (line : Nat) :
    Eval FrameId :=
  if names.length == values.length then onHeap (Heap.bind parent names values)
  else fail (.frameArity names.length values.length) line

/-- The value of a name, from a frame outward. -/
def lookup? (frame : FrameId) (name : String) : Eval (Option Value) := do
  return (← get).heap.lookup frame name

/-- The value of a name that has to be bound. -/
def lookup (frame : FrameId) (name : String) (line : Nat) : Eval Value := do
  match ← lookup? frame name with
  | some value => return value
  | none => fail (.unknownVariable name) line

/-- Binds a name in a frame. -/
def define (frame : FrameId) (name : String) (value : Value) : Eval Unit :=
  onHeap fun h => ((), h.define frame name value)

/-- Overwrites the nearest binding of a name, which has to be bound. -/
def assign (frame : FrameId) (name : String) (value : Value) (line : Nat) : Eval Unit := do
  if ← onHeap (Heap.assign frame name value) then return ()
  else fail (.unknownVariable name) line

/-! ### Host -/

/-- Asks something of the host, a failure being blamed on `line`. -/
@[inline] def onHost {α : Type} (line : Nat) (f : Host → Except HostFailure α × Host) : Eval α := do
  let r ← modifyGet fun m =>
    let (r, host) := f m.host
    (r, { m with host := host })
  match r with
  | .ok a => return a
  | .error failure => fail (.host failure) line

/-! ### Calls -/

/-- Counts a call, unless the limit is reached. -/
def enterCall (line : Nat) : Eval Unit := do
  let m ← get
  if m.limit ≤ m.depth then fail (.callDepthExceeded m.limit) line
  else set { m with depth := m.depth + 1 }

/-- Ends a call. -/
def leaveCall (m : Machine) : Machine := { m with depth := m.depth - 1 }

/-- Ends a call after a procedure, however that ends. -/
@[inline] def leavingAfter {α : Type} (body : Eval α) : Eval α := fun m =>
  match body m with
  | .ok a m => .ok a (leaveCall m)
  | .error halt m => .error halt (leaveCall m)

/-- Runs a procedure as one call. -/
@[inline] def asCall {α : Type} (line : Nat) (body : Eval α) : Eval α := do
  enterCall line
  leavingAfter body

/-- The fault of a signal that nothing takes. -/
def escaped {α : Type} (s : Signal) (line : Nat) : Eval α :=
  fail (.signalEscaped s.keyword) line

end Eval

end PairScript
