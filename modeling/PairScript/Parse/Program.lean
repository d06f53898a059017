import PairScript.Parse.Statement

/-!
# Reading programs

`Parser.level` closes the recursion of the grammar: at a level it answers a goal with the help of
the level below.  Every token read allows at most two more levels, one for a statement and one for
the expression it starts with, so `Parser.fuel` levels are enough for a list of tokens.

`parse` reads a whole program, and `Entry.parse` any other part of the grammar.
-/

namespace PairScript

namespace Parser

/-- Answers a goal, with at most `n` levels of the grammar. -/
def level : (n : Nat) → Goal → Parser Node
  | 0, _ => exhausted
  | n + 1, .run mode => run n (level n) mode
  | n + 1, .statement => statement n (level n)
  | n + 1, .conditional line => conditional n (level n) line

/-- A number of levels that is enough for a list of tokens. -/
def fuel (tokens : List Token) : Nat := 2 * tokens.length + 4

/-- Reads a whole program.  The list of statements has to end at the end of the text. -/
def program (bound : Nat) (self : Self) : Parser (List Node) := do
  let nodes ← statements bound self
  match ← get with
  | [] => return nodes
  | token :: _ => if token.isFinish then return nodes else unexpected token .statement

end Parser

/-- A part of the grammar that can be read on its own. -/
inductive Entry where
  | program
  | expression
  | nested
  | element
  | statement
  | statements
  | block
deriving Repr, DecidableEq

namespace Entry

/-- The parser of a part of the grammar. -/
def parser (bound : Nat) : Entry → Parser (List Node)
  | .program => Parser.program bound (Parser.level bound)
  | .expression => List.singleton <$> Parser.level bound (.run .statement)
  | .nested => List.singleton <$> Parser.level bound (.run .nested)
  | .element => List.singleton <$> Parser.level bound (.run .element)
  | .statement => List.singleton <$> Parser.level bound .statement
  | .statements => Parser.statements bound (Parser.level bound)
  | .block => Parser.block bound (Parser.level bound)

/-- Reads a part of the grammar from the front of a list of tokens.  The state of the result is
the list of the tokens that are left. -/
def parse (entry : Entry) (tokens : List Token) :
    EStateM.Result (Halt SyntaxCause) (List Token) (List Node) :=
  entry.parser (Parser.fuel tokens) tokens

end Entry

/-- The program that a list of tokens stands for. -/
def parse (tokens : List Token) : Except (Halt SyntaxCause) (List Node) :=
  match Entry.program.parse tokens with
  | .ok nodes _ => .ok nodes
  | .error halt _ => .error halt

end PairScript
