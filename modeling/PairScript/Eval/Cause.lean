import PairScript.Fault
import PairScript.Text.Quoted
import PairScript.Value.Basic

/-!
# Causes of a failed run

Everything that can go wrong while a program runs, and the wording of each cause.
-/

namespace PairScript

/-- Why a value does not fit where it stands. -/
inductive Mismatch where
  /-- An infinity or NaN has no integer part. -/
  | nonFinite (x : Float)
  | cannotApply (operator : String) (left right : Kind)
  | cannotNegate (found : Kind)
  | cannotCompare (left right : Kind)
  | expectedNumbers (left right : Kind)
  | cannotOrderNaN
  | expectedNumber (found : Kind)
  | expectedInteger (found : Kind)
  | expectedString (found : Kind)
  | expectedCharacter (found : String)
  | textNotInteger (text : String)
  | kindNotInteger (found : Kind)
  | shiftOutOfRange (amount : Word)
  | improperIndex
  | cannotIndex (found : Kind)
  | boundNotNumber (found : Kind)
  | zeroStep
  | invalidTarget
deriving DecidableEq

/-- The wording of a mismatch. -/
def Mismatch.describe : Mismatch → String
  | .nonFinite x =>
    "cannot convert non-finite value " ++ Decimal.floatText x ++ " to an integer"
  | .cannotApply operator left right =>
    "cannot apply '" ++ operator ++ "' to " ++ left.describe ++ " and " ++ right.describe
  | .cannotNegate found => "cannot negate " ++ found.describe
  | .cannotCompare left right =>
    "cannot compare " ++ left.describe ++ " with " ++ right.describe
  | .expectedNumbers left right =>
    "expected numbers, found " ++ left.describe ++ " and " ++ right.describe
  | .cannotOrderNaN => "cannot order NaN"
  | .expectedNumber found => "expected a number, found " ++ found.describe
  | .expectedInteger found => "expected an integer, found " ++ found.describe
  | .expectedString found => "expected a string, found " ++ found.describe
  | .expectedCharacter found => "expected a single character, found " ++ Text.quoted found
  | .textNotInteger text => "cannot convert " ++ Text.quoted text ++ " to an integer"
  | .kindNotInteger found => "cannot convert " ++ found.describe ++ " to an integer"
  | .shiftOutOfRange amount => "shift amount " ++ amount.text ++ " out of range"
  | .improperIndex => "cannot index an improper list"
  | .cannotIndex found => "cannot index " ++ found.describe
  | .boundNotNumber found => "for range bounds must be numbers, found " ++ found.describe
  | .zeroStep => "for step must not be zero"
  | .invalidTarget => "invalid assignment target"

/-- Why the host did not do what it was asked. -/
inductive HostFailure where
  | writeRefused
  | flushRefused
  /-- A line of input is not UTF-8. -/
  | invalidText
deriving Repr, DecidableEq

/-- The wording of a host failure. -/
def HostFailure.describe : HostFailure → String
  | .writeRefused => "write refused"
  | .flushRefused => "flush refused"
  | .invalidText => "stream did not contain valid UTF-8"

/-- Why a run failed. -/
inductive EvalCause where
  /-- No frame in reach binds the name. -/
  | unknownVariable (name : String)
  /-- A closure was called with the wrong number of arguments. -/
  | frameArity (expected found : Nat)
  /-- A primitive was called with a number of arguments it does not take. -/
  | argumentCount (name : String) (found : Nat)
  /-- A value without members was asked for one. -/
  | unknownReference (member : String)
  | unknownListMethod (method : String)
  /-- The empty list has neither head nor tail. -/
  | emptyList (method : String)
  | notCallable (found : Kind)
  /-- A loop over something that is not a list. -/
  | unsupportedRange (found : Kind)
  /-- A loop over an improper list. -/
  | improperRange
  | mismatch (m : Mismatch)
  | divisionByZero
  | overflow
  | indexOutOfBounds (index : Word) (length : Nat)
  | assertionFailed
  /-- Raised by the program itself. -/
  | thrown (message : String)
  /-- A control signal left every construct that could take it. -/
  | signalEscaped (keyword : String)
  | callDepthExceeded (limit : Nat)
  | host (failure : HostFailure)
deriving DecidableEq

/-- The wording of a cause. -/
def EvalCause.describe : EvalCause → String
  | .unknownVariable name => "Cannot find variable '" ++ name ++ "'."
  | .frameArity expected found =>
    "error, make frames: expected " ++ toString expected ++ " arguments, found "
      ++ toString found ++ "."
  | .argumentCount name found =>
    "Primitive '" ++ name ++ "' does not accept " ++ toString found ++ " arguments."
  | .unknownReference member => "Unknown reference '" ++ member ++ "'."
  | .unknownListMethod method => "Unknown list method '" ++ method ++ "'."
  | .emptyList method => "Cannot take '" ++ method ++ "' of the empty list."
  | .notCallable found => "Unknown application of " ++ found.describe ++ "."
  | .unsupportedRange found => "Unsupported for range: " ++ found.describe ++ "."
  | .improperRange => "Unsupported for range: improper list."
  | .mismatch m => "Type error: " ++ m.describe ++ "."
  | .divisionByZero => "Division by zero."
  | .overflow => "Integer overflow while trying to compute result."
  | .indexOutOfBounds index length =>
    "Index " ++ index.text ++ " out of bounds for list of length " ++ toString length ++ "."
  | .assertionFailed => "Assertion failed."
  | .thrown message => message
  | .signalEscaped keyword => "'" ++ keyword ++ "' signal escaped its construct."
  | .callDepthExceeded limit => "Maximum call depth of " ++ toString limit ++ " exceeded."
  | .host failure => "Host I/O failed: " ++ failure.describe ++ "."

/-- A failure of a run, with its line. -/
abbrev EvalFault := Fault EvalCause

end PairScript
