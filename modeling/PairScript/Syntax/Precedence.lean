import PairScript.Syntax.Cause
import PairScript.Syntax.Node

/-!
# Precedence

An expression is first read as a flat run of operands and operators.  `Item.postOrder` sorts a run
into post-order, every operator after its operands, and `Item.buildTree` folds the result into one
tree.

* Infix operators have a level from 0 to 14; a higher level binds tighter.  Level 0, the
  assignments, and `**` group to the right, all other levels to the left.
* A prefix operator stands at level 12 and waits for its operand.
* A postfix operator takes the member and index accesses to its left with it, and nothing else.

Both functions are total on arbitrary runs, also on those that no expression gives rise to.
-/

namespace PairScript

/-- Where an operator stands relative to its operands. -/
inductive Fixity where
  /-- Before its only operand. -/
  | before
  /-- After its only operand. -/
  | after
  /-- Between its two operands. -/
  | between
deriving Repr, DecidableEq

/-- A part of a flat run. -/
inductive Item where
  /-- A finished subtree. -/
  | operand (node : Node)
  | operator (symbol : String) (fixity : Fixity) (line : Nat)

/-! ### Levels -/

/-- Level of the prefix operators. -/
def unaryLevel : Nat := 12

/-- Level of member and index access. -/
def accessLevel : Nat := 14

/-- Level of an infix operator; `none` for text that is not one. -/
def binaryLevel? : String → Option Nat
  | "=" | ":=" | "+=" | "-=" | "*=" | "/=" | "%=" => some 0
  | "," => some 1
  | "||" => some 2
  | "&&" => some 3
  | "|" => some 4
  | "^" => some 5
  | "&" => some 6
  | "==" | "!=" => some 7
  | "<" | "<=" | ">" | ">=" => some 8
  | "<<" | ">>" | ">>>" => some 9
  | "+" | "-" => some 10
  | "*" | "/" | "/." | "%" => some 11
  | "**" => some 13
  | "[" | "." => some accessLevel
  | _ => none

/-- Whether operators of this symbol group to the right. -/
def groupsRight (symbol : String) : Bool :=
  symbol == "**" || binaryLevel? symbol == some 0

namespace Item

/-- Level of a waiting operator. -/
def waitingLevel : Item → Nat
  | .operator _ .before _ => unaryLevel
  | .operator symbol _ _ => (binaryLevel? symbol).getD unaryLevel
  | .operand _ => 0

/-- Whether a waiting item goes out before the infix operator `symbol` comes in. -/
def yieldsToBinary (symbol : String) (waiting : Item) : Bool :=
  let level := (binaryLevel? symbol).getD 0
  level < waiting.waitingLevel || (level == waiting.waitingLevel && !groupsRight symbol)

/-- Whether a waiting item goes out before a postfix operator: only member and index accesses. -/
def yieldsToAfter : Item → Bool
  | .operator symbol .between line =>
    accessLevel ≤ (Item.operator symbol .between line).waitingLevel
  | _ => false

/-! ### Post-order -/

/-- A run that is being sorted: what has gone out, last first, and the waiting operators, the one
that came in last first. -/
structure Sorting where
  out : List Item
  waiting : List Item

namespace Sorting

/-- Lets the waiting operators go out as long as they yield. -/
def release (yields : Item → Bool) (s : Sorting) : Sorting :=
  ⟨(s.waiting.takeWhile yields).reverse ++ s.out, s.waiting.dropWhile yields⟩

/-- Sends an item out at once. -/
def emit (item : Item) (s : Sorting) : Sorting := ⟨item :: s.out, s.waiting⟩

/-- Makes an operator wait. -/
def hold (item : Item) (s : Sorting) : Sorting := ⟨s.out, item :: s.waiting⟩

/-- Takes the next item of the run in. -/
def step (s : Sorting) : Item → Sorting
  | .operand node => s.emit (.operand node)
  | .operator symbol .before line => s.hold (.operator symbol .before line)
  | .operator symbol .after line =>
    (s.release yieldsToAfter).emit (.operator symbol .after line)
  | .operator symbol .between line =>
    (s.release (yieldsToBinary symbol)).hold (.operator symbol .between line)

/-- Everything in the order in which it goes out. -/
def finish (s : Sorting) : List Item := s.out.reverse ++ s.waiting

end Sorting

/-- Sorts a run into post-order. -/
def postOrder (items : List Item) : List Item :=
  (items.foldl Sorting.step ⟨[], []⟩).finish

/-! ### Trees -/

/-- The operator that a compound assignment applies before it assigns. -/
def compoundBase? : String → Option String
  | "+=" => some "+"
  | "-=" => some "-"
  | "*=" => some "*"
  | "/=" => some "/"
  | "%=" => some "%"
  | _ => none

/-- `++` and `--`: assigns the target plus or minus one. -/
def increment (symbol : String) (yieldsOld : Bool) (target : Node) (line : Nat) :
    Except SyntaxFault Node :=
  if target.isAssignable then
    let base := if symbol == "++" then "+" else "-"
    let stepped := .operation base [target, .constant (.int 1) line] line
    .ok (.assignment target stepped yieldsOld line)
  else .error ⟨.invalidTarget, line⟩

/-- The tree of a prefix or postfix operator. -/
def reduceUnary (symbol : String) (fixity : Fixity) (operand : Node) (line : Nat) :
    Except SyntaxFault Node :=
  if symbol == "++" || symbol == "--" then increment symbol (fixity == .after) operand line
  else .ok (.operation symbol [operand] line)

/-- Whether a node may stand on the right of `.`: a name, or a call of a name. -/
def isMember : Node → Bool
  | .reference _ _ => true
  | .call (.reference _ _) _ _ => true
  | _ => false

/-- The tree of an infix operator. -/
def reduceBinary (symbol : String) (left right : Node) (line : Nat) : Except SyntaxFault Node :=
  if symbol == "=" then
    if left.isAssignable then .ok (.assignment left right false line)
    else .error ⟨.invalidTarget, line⟩
  else if symbol == ":=" then
    match left with
    | .reference name _ => .ok (.definition name right line)
    | _ => .error ⟨.invalidTarget, line⟩
  else if symbol == "." then
    if isMember right then .ok (.operation "." [left, right] line)
    else .error ⟨.invalidMember, line⟩
  else
    match compoundBase? symbol with
    | some base =>
      if left.isAssignable then
        .ok (.assignment left (.operation base [left, right] line) false line)
      else .error ⟨.invalidTarget, line⟩
    | none => .ok (.operation symbol [left, right] line)

/-- Takes the next item of a post-order into a stack of finished trees. -/
def reduce (stack : List Node) : Item → Except SyntaxFault (List Node)
  | .operand node => .ok (node :: stack)
  | .operator symbol .between line =>
    match stack with
    | right :: left :: rest => do
      let node ← reduceBinary symbol left right line
      return node :: rest
    | _ => .error ⟨.malformedExpression, line⟩
  | .operator symbol fixity line =>
    match stack with
    | tree :: rest => do
      let node ← reduceUnary symbol fixity tree line
      return node :: rest
    | [] => .error ⟨.malformedExpression, line⟩

/-- Folds a post-order into one tree; `line` is the line of the whole run. -/
def buildTree (items : List Item) (line : Nat) : Except SyntaxFault Node := do
  match ← items.foldlM reduce [] with
  | [] => .error ⟨.expectedExpression, line⟩
  | [tree] => .ok tree
  | _ => .error ⟨.malformedExpression, line⟩

end Item

end PairScript
