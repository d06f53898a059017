import PairScript.Parse.Block
import PairScript.Syntax.Precedence

/-!
# Reading expressions

An expression is collected as a flat run of operands and operators, which `Item.postOrder` and
`Item.buildTree` turn into a tree.  Where a run ends depends on where it stands (`Mode`).

Nested runs are asked of the level below (`PairScript.Parse.Basic` explains how).
-/

namespace PairScript

namespace Parser

/-! ### Operators -/

/-- The symbols that end a run where an operator could stand. -/
def stoppers : List String := [")", "]", "\x7d", "\x7b", ":", ";", "..", "..="]

/-- The name of a symbol that stands before its operand. -/
def prefixName? : String → Option String
  | "-" => some "_-"
  | "!" => some "_!"
  | "~" => some "_~"
  | "+" => some "+"
  | "++" => some "++"
  | "--" => some "--"
  | _ => none

/-- The name of a token as an operator before its operand. -/
def prefixOperator? (token : Token) : Option String :=
  match token.kind with
  | .symbol text => prefixName? text
  | _ => none

/-! ### Operands -/

/-- Reads the arguments of a call, the opening parenthesis being read. -/
def callArguments (bound : Nat) (self : Self) : Parser (List Node) :=
  commaSeparated bound (self (.run .element)) ")"

/-- Reads one operand: a literal, a name, a call, an expression in parentheses, a list or a
function.  `first` tells whether the run starts with it. -/
def operand (bound : Nat) (self : Self) (first : Bool) : Parser Node := do
  match ← get with
  | [] => fail .unexpectedEnd 0
  | token :: rest =>
    set rest
    let line := token.line
    match token.kind with
    | .int value => return .constant (.int value) line
    | .float value => return .constant (.float value) line
    | .str value => return .constant (.str value) line
    | .name text =>
      if text == "func" then functionLiteral bound self line
      else if isKeyword text then fail (.unsupportedToken token.kind) line
      else if ← atSymbol "(" then
        skip
        return .call (.reference text line) (← callArguments bound self) line
      else return .reference text line
    | .symbol text =>
      if text == "(" then
        let inner ← self (.run .nested)
        skipNewlines
        expectSymbol ")"
        return inner
      else if text == "[" then
        let elements ← commaSeparated bound (self (.run .element)) "]"
        if elements.isEmpty then return .constant .empty line
        else return .operation "$list" elements line
      else fail (.unsupportedToken token.kind) line
    | .finish => fail .unexpectedEnd line
    | .newline =>
      if first then fail .expectedExpression line else fail (.unsupportedToken token.kind) line

/-! ### Runs -/

/-- A run as far as it has been collected. -/
structure Collected where
  /-- Whether an operand is due. -/
  operandDue : Bool
  /-- The items, last first. -/
  items : List Item

/-- What a token does where an operator could stand. -/
inductive Continuation where
  /-- It ends the run and is left unread. -/
  | stop
  /-- It means nothing. -/
  | ignore
  /-- It is an operator after its operand. -/
  | after
  /-- It opens an index. -/
  | index
  /-- It is an operator between operands. -/
  | between
  /-- It cannot stand here. -/
  | reject
deriving Repr, DecidableEq

/-- How a symbol continues a run. -/
def symbolContinuation (mode : Mode) (text : String) : Continuation :=
  if stoppers.contains text then .stop
  else if text == "," && mode == .element then .stop
  else if text == "++" || text == "--" then .after
  else if text == "[" then .index
  else if (binaryLevel? text).isSome then .between
  else .reject

/-- How a token continues a run. -/
def continuation (mode : Mode) : Token.Kind → Continuation
  | .newline => if mode == .statement then .stop else .ignore
  | .symbol text => symbolContinuation mode text
  | _ => .stop

/-- The text of a symbol. -/
def symbolText : Token.Kind → String
  | .symbol text => text
  | _ => ""

/-- Collects the items of a run, up to the token that ends it. -/
def collect (self : Self) (mode : Mode) : (bound : Nat) → Collected → Parser Collected
  | 0, _ => exhausted
  | bound + 1, c => do
    match ← get with
    | [] => return c
    | token :: rest =>
      if c.operandDue then
        if token.isNewline && (mode != .statement || !c.items.isEmpty) then
          set rest
          collect self mode bound c
        else
          match prefixOperator? token with
          | some name =>
            set rest
            if name == "+" then collect self mode bound c
            else collect self mode bound ⟨true, .operator name .before token.line :: c.items⟩
          | none =>
            let node ← operand bound self c.items.isEmpty
            collect self mode bound ⟨false, .operand node :: c.items⟩
      else
        let text := symbolText token.kind
        match continuation mode token.kind with
        | .stop => return c
        | .ignore =>
          set rest
          collect self mode bound c
        | .after =>
          set rest
          collect self mode bound ⟨false, .operator text .after token.line :: c.items⟩
        | .index =>
          set rest
          let index ← self (.run .nested)
          expectSymbol "]"
          collect self mode bound
            ⟨false, .operand index :: .operator text .between token.line :: c.items⟩
        | .between =>
          set rest
          collect self mode bound ⟨true, .operator text .between token.line :: c.items⟩
        | .reject => fail (.unsupportedToken token.kind) token.line

/-- The fault of a run that ends while an operand is due.  `started` tells whether the run has
items, and `token?` is the token in the place of the operand. -/
def missingOperand {α : Type} (line : Nat) (started : Bool) (token? : Option Token) : Parser α :=
  match token? with
  | some token =>
    if !started && !token.isFinish then fail .expectedExpression token.line
    else unexpected token .operand
  | none => fail .unexpectedEnd line

/-- Reads a run and builds its tree. -/
def run (bound : Nat) (self : Self) (mode : Mode) : Parser Node := do
  let line ← currentLine
  let c ← collect self mode bound ⟨true, []⟩
  if c.operandDue then missingOperand line (!c.items.isEmpty) (← peek)
  else ofExcept (Item.buildTree (Item.postOrder c.items.reverse) line)

end Parser

end PairScript
