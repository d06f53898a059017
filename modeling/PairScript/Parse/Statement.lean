import PairScript.Parse.Expression

/-!
# Reading statements

A statement is a construct with a keyword of its own or an expression.  One that ends in a block
needs nothing after it; all others are followed by a line break, a semicolon or the end of their
list.
-/

namespace PairScript.Parser

/-! ### Definitions -/

/-- Reads the rest of `var`; a missing value stands for `null`. -/
def variableDefinition (self : Self) (line : Nat) : Parser Node := do
  let name ← identifier
  if ← skipIf (·.isSymbol "=") then
    return .definition name (← self (.run .statement)) line
  else return .definition name (.reference "null" line) line

/-- Reads the rest of a named function, which defines its name. -/
def functionDefinition (bound : Nat) (self : Self) (line : Nat) : Parser Node := do
  let f ← functionParts bound self
  match f.name with
  | some name => return .definition name (.function f.name f.params f.body line) line
  | none => fail .malformedExpression line

/-! ### Branches -/

/-- Reads what follows the body of an `if`.  An `else` may stand on a later line; without one,
the line breaks stay unread. -/
def otherwise (bound : Nat) (self : Self) : Parser (Option (List Node)) := do
  let tokens ← get
  match tokens.dropWhile Token.isNewline with
  | token :: rest =>
    if token.isName "else" then
      set rest
      match rest with
      | next :: rest' =>
        if next.isName "if" then
          set rest'
          let inner ← self (.conditional next.line)
          return some [inner]
        else some <$> block bound self
      | [] => some <$> block bound self
    else return none
  | [] => return none

/-- Reads the rest of `if`. -/
def conditional (bound : Nat) (self : Self) (line : Nat) : Parser Node := do
  let condition ← self (.run .statement)
  let body ← block bound self
  let other ← otherwise bound self
  return .conditional condition body other line

/-- Reads the values of a `case`; `acc` holds those read before, last first. -/
def caseValuesFrom (self : Self) : (bound : Nat) → (acc : List Node) → Parser (List Node)
  | 0, _ => exhausted
  | bound + 1, acc => do
    let value ← self (.run .element)
    if ← skipIf (·.isSymbol ",") then caseValuesFrom self bound (value :: acc)
    else return (value :: acc).reverse

/-- The arms of a switch as far as they have been read, last first. -/
structure Arms where
  cases : List (Arm Node)
  fallback : Option (List Node)

/-- Reads the arms of a switch on the given line, up to and including its closing brace.  Of
several `default` arms the last counts. -/
def arms (self : Self) (line : Nat) : (bound : Nat) → Arms → Parser Arms
  | 0, _ => exhausted
  | bound + 1, a => do
    skipWhile isSeparator
    match ← get with
    | [] => fail .unexpectedEnd line
    | token :: rest =>
      if token.isSymbol "\x7d" then
        set rest
        return a
      else if token.isName "case" then
        set rest
        let values ← caseValuesFrom self bound []
        expectSymbol ":"
        let body ← statements bound self
        arms self line bound ⟨⟨values, body, token.line⟩ :: a.cases, a.fallback⟩
      else if token.isName "default" then
        set rest
        expectSymbol ":"
        let body ← statements bound self
        arms self line bound ⟨a.cases, some body⟩
      else unexpected token .arm

/-- Reads the rest of `switch`. -/
def switch (bound : Nat) (self : Self) (line : Nat) : Parser Node := do
  let subject ← self (.run .statement)
  skipNewlines
  expectSymbol "\x7b"
  let a ← arms self line bound ⟨[], none⟩
  return .switch subject a.cases.reverse a.fallback line

/-! ### Loops -/

/-- Reads the rest of `while`. -/
def whileLoop (bound : Nat) (self : Self) (line : Nat) : Parser Node := do
  let condition ← self (.run .statement)
  let body ← block bound self
  return .whileLoop condition body line

/-- Reads what follows the two dots of a range. -/
def rangeLoop (bound : Nat) (self : Self) (name : String) (start : Node) (closed : Bool)
    (line : Nat) : Parser Node := do
  let limit ← self (.run .statement)
  let step ← if ← skipIf (·.isName "step") then some <$> self (.run .statement) else pure none
  let body ← block bound self
  return .rangeLoop name start limit closed step body line

/-- Reads the rest of `for`. -/
def forLoop (bound : Nat) (self : Self) (line : Nat) : Parser Node := do
  let name ← identifier
  expectWord "in"
  let start ← self (.run .statement)
  if ← skipIf (·.isSymbol "..=") then rangeLoop bound self name start true line
  else if ← skipIf (·.isSymbol "..") then rangeLoop bound self name start false line
  else
    let body ← block bound self
    return .eachLoop name start body line

/-! ### Statements -/

/-- Whether nothing more of the statement follows. -/
def atStatementEnd : Parser Bool := do
  return match (← get) with
    | [] => true
    | token :: _ => isSeparator token || endsList token

/-- Reads the rest of `return`. -/
def giveBack (self : Self) (line : Nat) : Parser Node := do
  if ← atStatementEnd then return .giveBack none line
  else return .giveBack (some (← self (.run .statement))) line

/-- Takes off one separator; anything else has to end the list of statements. -/
def statementEnd : Parser Unit := do
  match ← get with
  | [] => return ()
  | token :: rest =>
    if isSeparator token then set rest
    else if endsList token then return ()
    else unexpected token .endOfStatement

/-- Takes off a separator after a statement that ends in a block. -/
def blockEnd : Parser Unit := do
  let _ ← skipIf isSeparator

/-- Reads a statement that needs a separator or the end of its list after it. -/
def closed (statement : Parser Node) : Parser Node := do
  let node ← statement
  statementEnd
  return node

/-- Reads a statement that ends in a block. -/
def blockClosed (statement : Parser Node) : Parser Node := do
  let node ← statement
  blockEnd
  return node

/-- Whether `rest` follows the keyword of a function without a name. -/
def startsParameters : List Token → Bool
  | token :: _ => token.isSymbol "("
  | [] => false

/-- The construct that a keyword starts, to be read after the keyword; `none` if the statement is
an expression. -/
def construct? (bound : Nat) (self : Self) (word : String) (line : Nat) (rest : List Token) :
    Option (Parser Node) :=
  match word with
  | "var" => some (closed (variableDefinition self line))
  | "func" =>
    if startsParameters rest then none
    else some (blockClosed (functionDefinition bound self line))
  | "if" => some (blockClosed (conditional bound self line))
  | "while" => some (blockClosed (whileLoop bound self line))
  | "for" => some (blockClosed (forLoop bound self line))
  | "switch" => some (blockClosed (switch bound self line))
  | "break" => some (closed (pure (.breakOut line)))
  | "continue" => some (closed (pure (.continueOn line)))
  | "fallthrough" => some (closed (pure (.fallThrough line)))
  | "return" => some (closed (giveBack self line))
  | _ => none

/-- The word that a token starts a statement with. -/
def leadingWord : Token.Kind → String
  | .name text => text
  | _ => ""

/-- Reads a statement. -/
def statement (bound : Nat) (self : Self) : Parser Node := do
  match ← get with
  | [] => fail .unexpectedEnd 0
  | token :: rest =>
    match construct? bound self (leadingWord token.kind) token.line rest with
    | some construct =>
      set rest
      construct
    | none => closed (self (.run .statement))

end PairScript.Parser
