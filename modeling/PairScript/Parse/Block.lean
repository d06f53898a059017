import PairScript.Parse.Basic

/-!
# Reading blocks and function literals

A block is a list of statements between braces.  Between statements any number of line breaks and
semicolons may stand, and a list of statements ends before a closing brace, the next `case` or
`default`, or the end of the text.
-/

namespace PairScript.Parser

/-- Whether a token separates statements. -/
def isSeparator (token : Token) : Bool := token.isNewline || token.isSymbol ";"

/-- Whether a token ends the list of statements it stands in. -/
def endsList (token : Token) : Bool :=
  token.isFinish || token.isSymbol "\x7d" || token.isName "case" || token.isName "default"

/-- Reads statements up to the end of their list; `acc` holds those read before, last first. -/
def statementsFrom (self : Self) : (bound : Nat) → (acc : List Node) → Parser (List Node)
  | 0, _ => exhausted
  | bound + 1, acc => do
    skipWhile isSeparator
    match ← get with
    | [] => return acc.reverse
    | token :: _ =>
      if endsList token then return acc.reverse
      else
        let node ← self .statement
        statementsFrom self bound (node :: acc)

/-- Reads statements up to the end of their list, which is left unread. -/
def statements (bound : Nat) (self : Self) : Parser (List Node) := statementsFrom self bound []

/-- Reads a block.  Line breaks may stand before it. -/
def block (bound : Nat) (self : Self) : Parser (List Node) := do
  skipNewlines
  expectSymbol "\x7b"
  let body ← statements bound self
  expectSymbol "\x7d"
  return body

/-- The parts of a function literal. -/
structure FunctionParts where
  name : Option String
  params : List String
  body : List Node

/-- Reads the optional name, the parameters and the body of a function. -/
def functionParts (bound : Nat) (self : Self) : Parser FunctionParts := do
  let name ← if ← atSymbol "(" then pure none else some <$> identifier
  expectSymbol "("
  let params ← commaSeparated bound identifier ")"
  let body ← block bound self
  return ⟨name, params, body⟩

/-- Reads a function literal on the given line, its keyword being read. -/
def functionLiteral (bound : Nat) (self : Self) (line : Nat) : Parser Node := do
  let f ← functionParts bound self
  return .function f.name f.params f.body line

end PairScript.Parser
