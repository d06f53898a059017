import PairScript.Proofs.Syntax.Built

/-!
# Writing trees down

`unparse` writes the statements of a program down as tokens, in a form that leaves nothing to the
rules of precedence: every operand stands in parentheses, every statement on a line of its own and
every block in braces.  A postfix `++` or `--` is written as such; whatever else the text had before
it was desugared is gone.

A tree can look different as a statement and as a value.  A definition is `var x = (e)` as a
statement and `x := (e)` inside an expression, and a function with a name of its own needs
parentheses as a statement, where it would define its name otherwise.

Tokens are on the lines of the nodes that they come from.
-/

namespace PairScript

namespace Unparse

/-! ### Tokens -/

/-- A word. -/
def word (text : String) (line : Nat) : Token := ⟨.name text, line⟩

/-- An operator or a punctuation mark. -/
def mark (text : String) (line : Nat) : Token := ⟨.symbol text, line⟩

/-- A line break. -/
def lineBreak (line : Nat) : Token := ⟨.newline, line⟩

/-- Tokens in parentheses. -/
def parens (line : Nat) (ts : List Token) : List Token := mark "(" line :: (ts ++ [mark ")" line])

/-- Statements in braces. -/
def braces (line : Nat) (statements : List Token) : List Token :=
  mark "\x7b" line :: lineBreak line :: (statements ++ [mark "\x7d" line])

/-- Items with commas between them. -/
def separated (line : Nat) : List (List Token) → List Token
  | [] => []
  | [item] => item
  | item :: rest => item ++ mark "," line :: separated line rest

/-- A constant. -/
def constant (line : Nat) : Constant → List Token
  | .int value => [⟨.int value, line⟩]
  | .float value => [⟨.float value, line⟩]
  | .str value => [⟨.str value, line⟩]
  | .empty => [mark "[" line, mark "]" line]

/-- The mark of an operator before its operand. -/
def prefixMark : String → String
  | "_-" => "-"
  | "_!" => "!"
  | "_~" => "~"
  | symbol => symbol

/-- An operator with its operands. -/
def applied (symbol : String) (line : Nat) : List (List Token) → List Token
  | [operand] => mark (prefixMark symbol) line :: operand
  | [left, right] =>
    if symbol == "[" then left ++ mark "[" line :: (right ++ [mark "]" line])
    else left ++ mark symbol line :: right
  | operands => separated line operands

/-- The mark of an increment that assigns `value`. -/
def incrementMark : Node → String
  | .operation symbol _ _ => if symbol == "-" then "--" else "++"
  | _ => "++"

/-- The name, the parameters and the body of a function. -/
def function (name : Option String) (params : List String) (body : List Token) (line : Nat) :
    List Token :=
  word "func" line :: (name.toList.map (word · line)
    ++ parens line (separated line (params.map fun param => [word param line])) ++ braces line body)

end Unparse

open Unparse

/-! ### Trees -/

mutual

/-- Writes a tree at its place. -/
def Node.write (place : Place) : Node → List Token
  | .constant value line => Unparse.constant line value
  | .reference name line => [word name line]
  | .definition name value line =>
    match place with
    | .statement =>
      word "var" line :: word name line :: mark "=" line :: parens line (value.write .value)
    | .value => word name line :: mark ":=" line :: parens line (value.write .value)
  | .function name params body line =>
    match place, name with
    | .statement, some name =>
      parens line (function (some name) params (writeStatements body) line)
    | _, name => function name params (writeStatements body) line
  | .assignment target value yieldsOld line =>
    if yieldsOld then parens line (target.write .value) ++ [mark (incrementMark value) line]
    else parens line (target.write .value) ++ mark "=" line :: parens line (value.write .value)
  | .operation symbol operands line =>
    if symbol == "$list" then
      mark "[" line :: (separated line (writeOperands line operands) ++ [mark "]" line])
    else applied symbol line (writeOperands line operands)
  | .call callee arguments line =>
    callee.write .value ++ parens line (separated line (writeOperands line arguments))
  | .conditional condition body other line =>
    word "if" line :: (parens line (condition.write .value) ++ braces line (writeStatements body)
      ++ writeOtherwise line other)
  | .whileLoop condition body line =>
    word "while" line :: (parens line (condition.write .value)
      ++ braces line (writeStatements body))
  | .switch subject arms fallback line =>
    word "switch" line :: (parens line (subject.write .value)
      ++ braces line (writeArms arms ++ writeFallback line fallback))
  | .rangeLoop name start bound closed step body line =>
    word "for" line :: word name line :: word "in" line :: (parens line (start.write .value)
      ++ mark (if closed then "..=" else "..") line :: (parens line (bound.write .value)
      ++ writeStep line step ++ braces line (writeStatements body)))
  | .eachLoop name collection body line =>
    word "for" line :: word name line :: word "in" line :: (parens line (collection.write .value)
      ++ braces line (writeStatements body))
  | .breakOut line => [word "break" line]
  | .continueOn line => [word "continue" line]
  | .fallThrough line => [word "fallthrough" line]
  | .giveBack value line => word "return" line :: writeResult line value

/-- Writes trees in parentheses. -/
def writeOperands (line : Nat) : List Node → List (List Token)
  | [] => []
  | node :: rest => parens line (node.write .value) :: writeOperands line rest

/-- Writes statements, each on a line of its own. -/
def writeStatements : List Node → List Token
  | [] => []
  | node :: rest => node.write .statement ++ lineBreak node.line :: writeStatements rest

/-- Writes the other branch of an `if`. -/
def writeOtherwise (line : Nat) : Option (List Node) → List Token
  | some body => word "else" line :: braces line (writeStatements body)
  | none => []

/-- Writes the default arm of a switch. -/
def writeFallback (line : Nat) : Option (List Node) → List Token
  | some body => word "default" line :: mark ":" line :: lineBreak line :: writeStatements body
  | none => []

/-- Writes the step of a range. -/
def writeStep (line : Nat) : Option Node → List Token
  | some step => word "step" line :: parens line (step.write .value)
  | none => []

/-- Writes the value of a `return`. -/
def writeResult (line : Nat) : Option Node → List Token
  | some value => parens line (value.write .value)
  | none => []

/-- Writes an arm of a switch. -/
def writeArm : Arm Node → List Token
  | ⟨values, body, line⟩ =>
    word "case" line :: (separated line (writeOperands line values)
      ++ mark ":" line :: lineBreak line :: writeStatements body)

/-- Writes the arms of a switch. -/
def writeArms : List (Arm Node) → List Token
  | [] => []
  | arm :: rest => writeArm arm ++ writeArms rest

end

/-! ### How trees are written -/

section

variable {place : Place} {node left right : Node} {nodes body : List Node} {symbol name : String}
  {line : Nat}

@[simp] theorem write_reference : (Node.reference name line).write place = [word name line] := rfl

@[simp] theorem write_assignment : (Node.assignment left right false line).write place
    = parens line (left.write .value) ++ mark "=" line :: parens line (right.write .value) := rfl

@[simp] theorem write_increment : (Node.assignment left right true line).write place
    = parens line (left.write .value) ++ [mark (incrementMark right) line] := rfl

@[simp] theorem write_list : (Node.operation "$list" nodes line).write place
    = mark "[" line :: (separated line (writeOperands line nodes) ++ [mark "]" line]) := rfl

@[simp] theorem write_index : (Node.operation "[" [left, right] line).write place
    = parens line (left.write .value) ++ mark "[" line :: (parens line (right.write .value)
      ++ [mark "]" line]) := rfl

theorem write_between (h : isInfix symbol = true) (hindex : symbol ≠ "[") :
    (Node.operation symbol [left, right] line).write place
      = parens line (left.write .value)
        ++ mark symbol line :: parens line (right.write .value) := by
  have hlist : symbol ≠ "$list" := by
    rintro rfl
    cases h
  show (if symbol == "$list" then _ else if symbol == "[" then _ else _) = _
  rw [if_neg (by simpa using hlist), if_neg (by simpa using hindex)]

@[simp] theorem write_call : (Node.call node nodes line).write place
    = node.write .value ++ parens line (separated line (writeOperands line nodes)) := rfl

@[simp] theorem write_conditional {other : Option (List Node)} :
    (Node.conditional node body other line).write place
      = word "if" line :: (parens line (node.write .value) ++ braces line (writeStatements body)
        ++ writeOtherwise line other) := rfl

@[simp] theorem write_whileLoop : (Node.whileLoop node body line).write place
    = word "while" line :: (parens line (node.write .value)
      ++ braces line (writeStatements body)) := rfl

@[simp] theorem write_switch {arms : List (Arm Node)} {fallback : Option (List Node)} :
    (Node.switch node arms fallback line).write place
      = word "switch" line :: (parens line (node.write .value)
        ++ braces line (writeArms arms ++ writeFallback line fallback)) := rfl

@[simp] theorem write_rangeLoop {closed : Bool} {step : Option Node} :
    (Node.rangeLoop name left right closed step body line).write place
      = word "for" line :: word name line :: word "in" line :: (parens line (left.write .value)
        ++ mark (if closed then "..=" else "..") line :: (parens line (right.write .value)
        ++ writeStep line step ++ braces line (writeStatements body))) := rfl

@[simp] theorem write_eachLoop : (Node.eachLoop name node body line).write place
    = word "for" line :: word name line :: word "in" line :: (parens line (node.write .value)
      ++ braces line (writeStatements body)) := rfl

@[simp] theorem write_giveBack : (Node.giveBack (some node) line).write place
    = word "return" line :: parens line (node.write .value) := rfl

theorem writeOperands_eq_map (line : Nat) (nodes : List Node) :
    writeOperands line nodes = nodes.map fun node => parens line (node.write .value) := by
  induction nodes with
  | nil => rfl
  | cons node nodes ih => exact congrArg (parens line (node.write .value) :: ·) ih

@[simp] theorem writeStatements_cons : writeStatements (node :: nodes)
    = node.write .statement ++ lineBreak node.line :: writeStatements nodes := rfl

@[simp] theorem writeFallback_some : writeFallback line (some body)
    = word "default" line :: mark ":" line :: lineBreak line :: writeStatements body := rfl

@[simp] theorem writeArms_nil : writeArms [] = [] := rfl

@[simp] theorem writeArms_cons {arms : List (Arm Node)} {values : List Node} :
    writeArms (⟨values, body, line⟩ :: arms)
      = word "case" line :: (separated line (writeOperands line values)
        ++ mark ":" line :: lineBreak line :: writeStatements body) ++ writeArms arms := rfl

end

/-- The tokens of a program. -/
def unparse (nodes : List Node) : List Token := writeStatements nodes ++ [⟨.finish, 1⟩]

end PairScript
