/-!
# The primitives of the language

The functions that every program finds in its root frame: their names, the numbers of arguments
they take, and the order in which they are listed.  What they do is defined under
`PairScript.Primitive`.
-/

namespace PairScript

/-- The numbers of arguments that a function takes. -/
inductive Arity where
  | exactly (count : Nat)
  | oneOf (counts : List Nat)
  | any
deriving Repr, DecidableEq

/-- Whether a number of arguments is taken. -/
def Arity.accepts : Arity → Nat → Bool
  | .exactly count, n => n == count
  | .oneOf counts, n => counts.contains n
  | .any, _ => true

/-- A function that is built in. -/
inductive Primitive where
  | add | subtract | multiply | floorDivide | trueDivide | modulo | power | negate
  | equal | unequal | less | lessEqual | greater | greaterEqual
  | not | and | or
  | bitAnd | bitOr | bitXor | shiftLeft | shiftRight | shiftRightLogical | complement
  | comma | pair | index | list | charList | isList | isPair
  | charCode | int | round
  | print | input | throw | assert
deriving Repr, DecidableEq

namespace Primitive

/-- The name that a primitive is bound to. -/
def name : Primitive → String
  | .add => "+"
  | .subtract => "-"
  | .multiply => "*"
  | .floorDivide => "/"
  | .trueDivide => "/."
  | .modulo => "%"
  | .power => "**"
  | .negate => "_-"
  | .equal => "=="
  | .unequal => "!="
  | .less => "<"
  | .lessEqual => "<="
  | .greater => ">"
  | .greaterEqual => ">="
  | .not => "_!"
  | .and => "&&"
  | .or => "||"
  | .bitAnd => "&"
  | .bitOr => "|"
  | .bitXor => "^"
  | .shiftLeft => "<<"
  | .shiftRight => ">>"
  | .shiftRightLogical => ">>>"
  | .complement => "_~"
  | .comma => ","
  | .pair => "pair"
  | .index => "["
  | .list => "$list"
  | .charList => "$string_to_char_list"
  | .isList => "is_list"
  | .isPair => "is_pair"
  | .charCode => "$char_code"
  | .int => "int"
  | .round => "round"
  | .print => "print"
  | .input => "input"
  | .throw => "throw"
  | .assert => "assert"

/-- The numbers of arguments that a primitive takes. -/
def arity : Primitive → Arity
  | .negate | .not | .complement => .exactly 1
  | .charList | .isList | .isPair | .charCode | .int | .throw | .assert => .exactly 1
  | .round => .oneOf [1, 2]
  | .input => .oneOf [0, 1]
  | .list | .print => .any
  | _ => .exactly 2

/-- All primitives, in the order of their listing. -/
def all : List Primitive :=
  [.add, .subtract, .multiply, .floorDivide, .trueDivide, .modulo, .power, .negate,
    .equal, .unequal, .less, .lessEqual, .greater, .greaterEqual, .not, .and, .or,
    .bitAnd, .bitOr, .bitXor, .shiftLeft, .shiftRight, .shiftRightLogical, .complement,
    .comma, .pair, .index, .list, .charList, .isList, .isPair, .charCode, .int, .round,
    .print, .input, .throw, .assert]

/-- No primitive is missing from the listing. -/
theorem mem_all (p : Primitive) : p ∈ all := by
  cases p <;> decide

/-- The primitive of a given name. -/
def ofName? (name : String) : Option Primitive := all.find? (·.name == name)

end Primitive

end PairScript
