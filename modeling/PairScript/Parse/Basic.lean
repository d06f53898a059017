import PairScript.Syntax.Cause
import PairScript.Syntax.Node

/-!
# Parsers

A parser works on the list of tokens that are still unread.  It ends with a result and the rest,
or it halts, and then the rest is what was unread at that moment: a token that was taken off the
list to be looked at is gone.

This module has the parsers for single tokens and for lists with separators.  Loops take a bound
on their number of passes; every pass reads a token, so the number of tokens is always enough.

The grammar is recursive, and its procedures are written open: what they need from the level
below, a nested expression or a statement of a block, they ask of a parameter `self` that answers
a `Goal`.  `PairScript.Parse.Program` closes the recursion.
-/

namespace PairScript

/-- Where a run stands, which decides where it ends. -/
inductive Mode where
  /-- In a statement: a line break ends the run unless an operand is due. -/
  | statement
  /-- Between brackets: line breaks mean nothing. -/
  | nested
  /-- An item of a list: as between brackets, and a comma ends the run. -/
  | element
deriving Repr, DecidableEq

/-- What a parser asks of the level below. -/
inductive Goal where
  | run (mode : Mode)
  | statement
  /-- The rest of an `if` on the given line, after the keyword. -/
  | conditional (line : Nat)
deriving Repr, DecidableEq

/-- A procedure on the unread tokens. -/
abbrev Parser := EStateM (Halt SyntaxCause) (List Token)

namespace Parser

/-- The level below: answers every goal with a node. -/
abbrev Self := Goal → Parser Node

/-- Stops with a fault. -/
def fail {α : Type} (cause : SyntaxCause) (line : Nat) : Parser α :=
  throw (.fault ⟨cause, line⟩)

/-- Stops because the bound was too small. -/
def exhausted {α : Type} : Parser α := throw .outOfFuel

/-- Continues with the result of a pure computation. -/
def ofExcept {α : Type} : Except SyntaxFault α → Parser α
  | .ok a => pure a
  | .error f => throw (.fault f)

/-! ### Single tokens -/

/-- The first unread token. -/
def peek : Parser (Option Token) := do return (← get).head?

/-- The fault of finding `token` where something else was expected. -/
def unexpected {α : Type} (token : Token) (expected : Expectation) : Parser α :=
  if token.isFinish then fail .unexpectedEnd token.line
  else fail (.unexpectedToken token.kind expected) token.line

/-- Takes the first token off, whatever it is. -/
def skip : Parser Unit := modify List.tail

/-- Takes the first token off if it satisfies `p`, and says whether it did. -/
def skipIf (p : Token → Bool) : Parser Bool := do
  match ← get with
  | token :: rest => if p token then set rest; return true else return false
  | [] => return false

/-- Takes off all tokens at the front that satisfy `p`. -/
def skipWhile (p : Token → Bool) : Parser Unit := modify (List.dropWhile p)

/-- Takes off the line breaks at the front. -/
def skipNewlines : Parser Unit := skipWhile Token.isNewline

/-- Line of the first unread token, or 0 if there is none. -/
def currentLine : Parser Nat := do
  return match (← get) with
    | token :: _ => token.line
    | [] => 0

/-- Whether the first unread token is the symbol `s`. -/
def atSymbol (s : String) : Parser Bool := do
  return match (← get) with
    | token :: _ => token.isSymbol s
    | [] => false

/-- Takes off the first token, which has to satisfy `p`. -/
def expect (p : Token → Bool) (expected : Expectation) : Parser Unit := do
  match ← get with
  | [] => fail .unexpectedEnd 0
  | token :: rest =>
    set rest
    if p token then return () else unexpected token expected

/-- Takes off the symbol `s`. -/
def expectSymbol (s : String) : Parser Unit := expect (·.isSymbol s) (.exactly s)

/-- Takes off the keyword `w`. -/
def expectWord (w : String) : Parser Unit := expect (·.isName w) (.exactly w)

/-- Takes off a name that is not a keyword. -/
def identifier : Parser String := do
  match ← get with
  | [] => fail .unexpectedEnd 0
  | token :: rest =>
    set rest
    match token.kind with
    | .name text => if isKeyword text then unexpected token .identifier else return text
    | _ => unexpected token .identifier

/-! ### Lists with separators -/

/-- Reads items and the commas between them, up to and including `closing`; `acc` holds the items
read before, last first. -/
def commaSeparatedFrom {α : Type} (item : Parser α) (closing : String) :
    (bound : Nat) → (acc : List α) → Parser (List α)
  | 0, _ => exhausted
  | bound + 1, acc => do
    let a ← item
    skipNewlines
    match ← get with
    | [] => fail .unexpectedEnd 0
    | token :: rest =>
      set rest
      if token.isSymbol "," then
        skipNewlines
        commaSeparatedFrom item closing bound (a :: acc)
      else if token.isSymbol closing then return (a :: acc).reverse
      else unexpected token (.commaOr closing)

/-- Reads a possibly empty list up to and including `closing`.  Line breaks may stand around the
items and the commas. -/
def commaSeparated {α : Type} (bound : Nat) (item : Parser α) (closing : String) :
    Parser (List α) := do
  skipNewlines
  if ← skipIf (·.isSymbol closing) then return []
  else commaSeparatedFrom item closing bound []

end Parser

end PairScript
