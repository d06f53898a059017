import PairScript.Fault
import PairScript.Token.Basic

/-!
# Causes of a rejected program

Everything that can be wrong with a program before it runs, and the wording of each cause.
-/

namespace PairScript

/-- What stood in the place of an unexpected token in the grammar. -/
inductive Expectation where
  /-- A fixed symbol or keyword. -/
  | exactly (text : String)
  /-- A comma or the symbol that closes the list. -/
  | commaOr (closing : String)
  | identifier
  | statement
  | endOfStatement
  | operand
  /-- A `case` or `default` arm, or the end of the switch. -/
  | arm
deriving Repr, DecidableEq

/-- How an expectation is named in messages. -/
def Expectation.describe : Expectation → String
  | .exactly text => "'" ++ text ++ "'"
  | .commaOr closing => "',' or '" ++ closing ++ "'"
  | .identifier => "identifier"
  | .statement => "a statement"
  | .endOfStatement => "end of statement"
  | .operand => "an operand"
  | .arm => "'case', 'default' or '\x7d'"

/-- Why a text is not a program. -/
inductive SyntaxCause where
  /-- A string literal has no end, or a control character stands in it. -/
  | unterminatedString
  /-- A number is too large for its type. -/
  | invalidNumber (literal : String)
  | unexpectedToken (found : Token.Kind) (expected : Expectation)
  | unexpectedEnd
  /-- A token that can neither start nor continue an expression. -/
  | unsupportedToken (found : Token.Kind)
  /-- Operators and operands do not add up to one tree. -/
  | malformedExpression
  | expectedExpression
  /-- The left side of an assignment is neither a variable nor a member. -/
  | invalidTarget
  /-- The right side of `.` is neither a name nor a call of a name. -/
  | invalidMember
deriving DecidableEq

/-- The wording of a cause. -/
def SyntaxCause.describe : SyntaxCause → String
  | .unterminatedString => "Unterminated string."
  | .invalidNumber literal => "Invalid number literal '" ++ literal ++ "'."
  | .unexpectedToken found expected =>
    "Unexpected token " ++ found.describe ++ ", expected " ++ expected.describe ++ "."
  | .unexpectedEnd => "Unexpected end of input."
  | .unsupportedToken found => "Unsupported expression token " ++ found.describe ++ "."
  | .malformedExpression => "Malformed expression."
  | .expectedExpression => "Expected an expression."
  | .invalidTarget => "Invalid assignment target."
  | .invalidMember => "Invalid member access."

/-- A reason to reject a program, with its line. -/
abbrev SyntaxFault := Fault SyntaxCause

end PairScript
