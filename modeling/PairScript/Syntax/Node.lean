import PairScript.Number.Word

/-!
# Syntax trees

The tree of a program.  Blocks are lists of nodes, and every node carries the source line it was
read from.  Operators keep their symbol (`operation`), ordinary calls have an expression in front
of their arguments (`call`).
-/

namespace PairScript

/-- A value that is written down in a program. -/
inductive Constant where
  | int (value : Word)
  | float (value : Float)
  | str (value : String)
  /-- The empty list. -/
  | empty
deriving DecidableEq

/-- One `case` of a switch over trees of type `ν`. -/
structure Arm (ν : Type) where
  /-- The values that the subject is compared with. -/
  values : List ν
  body : List ν
  line : Nat

/-- A node of a syntax tree. -/
inductive Node where
  | constant (value : Constant) (line : Nat)
  /-- The value of a variable. -/
  | reference (name : String) (line : Nat)
  /-- Binds a name in the innermost frame. -/
  | definition (name : String) (value : Node) (line : Nat)
  /-- A function literal. -/
  | function (name : Option String) (params : List String) (body : List Node) (line : Nat)
  /-- Overwrites a variable or a member; `yieldsOld` makes the old value the result. -/
  | assignment (target value : Node) (yieldsOld : Bool) (line : Nat)
  /-- An operator applied to its operands. -/
  | operation (symbol : String) (operands : List Node) (line : Nat)
  /-- A function applied to its arguments. -/
  | call (callee : Node) (arguments : List Node) (line : Nat)
  | conditional (condition : Node) (body : List Node) (otherwise : Option (List Node)) (line : Nat)
  | whileLoop (condition : Node) (body : List Node) (line : Nat)
  | switch (subject : Node) (arms : List (Arm Node)) (fallback : Option (List Node)) (line : Nat)
  /-- Counts from `start` to `bound`, which is included when `closed`. -/
  | rangeLoop (name : String) (start bound : Node) (closed : Bool) (step : Option Node)
      (body : List Node) (line : Nat)
  /-- Goes through the elements of a list. -/
  | eachLoop (name : String) (collection : Node) (body : List Node) (line : Nat)
  | breakOut (line : Nat)
  | continueOn (line : Nat)
  | fallThrough (line : Nat)
  | giveBack (value : Option Node) (line : Nat)

namespace Node

/-- The source line of a node. -/
def line : Node → Nat
  | .constant _ line => line
  | .reference _ line => line
  | .definition _ _ line => line
  | .function _ _ _ line => line
  | .assignment _ _ _ line => line
  | .operation _ _ line => line
  | .call _ _ line => line
  | .conditional _ _ _ line => line
  | .whileLoop _ _ line => line
  | .switch _ _ _ line => line
  | .rangeLoop _ _ _ _ _ _ line => line
  | .eachLoop _ _ _ line => line
  | .breakOut line => line
  | .continueOn line => line
  | .fallThrough line => line
  | .giveBack _ line => line

/-- Whether a node may stand on the left of an assignment: a variable, or a member of a value. -/
def isAssignable : Node → Bool
  | .reference _ _ => true
  | .operation symbol [_, .reference _ _] _ => symbol == "."
  | _ => false

end Node

end PairScript
