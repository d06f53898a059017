import PairScript.Eval.Node
import PairScript.Parse.Program
import PairScript.Token.Tokenize

/-!
# Programs

From a text to its result: `compile` reads a program, `runSource` runs a text in a root frame of
its own, and `runSourceIn` runs one in a root frame that other texts were run in before.
-/

namespace PairScript

/-- Why a text gave no value. -/
inductive Failure where
  /-- The text is not a program. -/
  | rejected (halt : Halt SyntaxCause)
  /-- The program did not run to its end. -/
  | aborted (halt : Halt EvalCause)

/-- The message of what stopped a computation. -/
def haltMessage {κ : Type} (describe : κ → String) : Halt κ → String
  | .fault f => f.message describe
  | .outOfFuel => "The bound on the computation was reached."

/-- The message of a failure. -/
def Failure.message : Failure → String
  | .rejected halt => haltMessage SyntaxCause.describe halt
  | .aborted halt => haltMessage EvalCause.describe halt

/-- The program that a text stands for. -/
def compile (source : String) : Except (Halt SyntaxCause) (List Node) :=
  match tokenize source with
  | .error f => .error (.fault f)
  | .ok tokens => parse tokens

/-! ### Machines -/

/-- The limit on the number of calls in progress, unless another is set. -/
def defaultLimit : Nat := 10000

/-- A machine before its first run. -/
def Machine.start (host : Host) (limit : Nat) : Machine := ⟨Heap.empty, host, 0, limit⟩

/-- Makes a frame with the standard bindings. -/
def Eval.standardRoot : Eval FrameId := Eval.onHeap Heap.standardRoot

/-- Runs a program in a new root frame. -/
def Eval.runFresh (nodes : List Node) : Eval Value := do
  let root ← Eval.standardRoot
  Eval.run nodes root

/-- The result of a procedure on a machine. -/
def resultOf {α : Type} (r : EStateM.Result (Halt EvalCause) Machine α) :
    Except Failure α × Machine :=
  match r with
  | .ok a m => (.ok a, m)
  | .error halt m => (.error (.aborted halt), m)

/-- Runs a text in a root frame of a machine. -/
def runSourceIn (root : FrameId) (source : String) (m : Machine) :
    Except Failure Value × Machine :=
  match compile source with
  | .error halt => (.error (.rejected halt), m)
  | .ok nodes => resultOf (Eval.run nodes root m)

/-- Runs a text in a new root frame of a machine. -/
def runSource (source : String) (m : Machine) : Except Failure Value × Machine :=
  match compile source with
  | .error halt => (.error (.rejected halt), m)
  | .ok nodes => resultOf (Eval.runFresh nodes m)

end PairScript
