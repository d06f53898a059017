import PairScript.Decimal.FloatText
import PairScript.Number.Word
import PairScript.Text.Quoted

/-!
# Tokens

A program text is read as a list of tokens, each with the line it starts on.  Runs of line breaks
are one `newline` token, and the list of a whole text ends in one `finish` token.
-/

namespace PairScript

/-- What a token is. -/
inductive Token.Kind where
  /-- One or more line breaks. -/
  | newline
  /-- The end of the text. -/
  | finish
  /-- An identifier or a keyword. -/
  | name (text : String)
  /-- A literal without a fraction. -/
  | int (value : Word)
  /-- A literal with a fraction. -/
  | float (value : Float)
  /-- A string literal, its escapes resolved. -/
  | str (value : String)
  /-- An operator or a punctuation mark. -/
  | symbol (text : String)
deriving DecidableEq

/-- A token and the line it starts on, counted from 1. -/
structure Token where
  kind : Token.Kind
  line : Nat
deriving DecidableEq

namespace Token

/-- How a token is named in messages and listings. -/
def Kind.describe : Kind → String
  | .newline => "newline"
  | .finish => "end of input"
  | .name text => "'" ++ text ++ "'"
  | .int value => value.text
  | .float value => Decimal.floatText value
  | .str value => Text.quoted value
  | .symbol text => "'" ++ text ++ "'"

/-- Whether the token is a line break. -/
def isNewline (t : Token) : Bool :=
  match t.kind with
  | .newline => true
  | _ => false

/-- Whether the token marks the end of the text. -/
def isFinish (t : Token) : Bool :=
  match t.kind with
  | .finish => true
  | _ => false

/-- Whether the token is the symbol `s`. -/
def isSymbol (t : Token) (s : String) : Bool :=
  match t.kind with
  | .symbol text => text == s
  | _ => false

/-- Whether the token is the word `w`. -/
def isName (t : Token) (w : String) : Bool :=
  match t.kind with
  | .name text => text == w
  | _ => false

end Token

/-! ### Keywords -/

/-- The words that cannot name a variable. -/
def keywords : List String :=
  ["var", "func", "if", "else", "while", "for", "in", "step", "switch", "case", "default",
    "break", "continue", "fallthrough", "return"]

/-- Whether a word is reserved. -/
def isKeyword (w : String) : Bool := keywords.contains w

end PairScript
