import PairScript.Text.Quoted
import PairScript.Value.Basic

/-!
# The text of a value

`Value.text` is what a program prints.  A proper list stands in brackets, an improper one shows
its end after a dot, and a lone improper pair stands in parentheses.

`Value.inspect` shows the structure of a value, with strings in quotes.
-/

namespace PairScript.Value

/-! ### Printed text -/

/-- The text of a truth value. -/
def boolText (b : Bool) : String := if b then "true" else "false"

/-- The text of a value that is not a pair. -/
def atomText : Value → String
  | .null => "null"
  | .bool b => boolText b
  | .int n => n.text
  | .float x => Decimal.floatText x
  | .str s => s
  | .empty => "[]"
  | .pair _ _ _ => ""
  | .primitive p => "<primitive " ++ p.name ++ ">"
  | .closure c =>
    match c.name with
    | some name => "<function " ++ name ++ ">"
    | none => "<function>"

mutual

/-- Writes the text of a value after `acc`. -/
def writeTo (acc : String) : Value → String
  | .pair _ head tail =>
    if tail.isList then writeRest (writeTo (acc ++ "[") head) tail
    else writeTo (acc ++ "(") head ++ " . " ++ tail.atomText ++ ")"
  | v => acc ++ v.atomText

/-- Writes the rest of a list in brackets, after its first element. -/
def writeRest (acc : String) : Value → String
  | .empty => acc ++ "]"
  | .pair _ head tail => writeRest (writeTo (acc ++ ", ") head) tail
  | v => acc ++ " . " ++ v.atomText ++ "]"

end

/-- The text that a program prints for a value. -/
def text (v : Value) : String := writeTo "" v

/-! ### Structure -/

/-- Texts with a comma and a space between them. -/
def commaList (texts : List String) : String := String.intercalate ", " texts

/-- The structure of an arity. -/
def inspectArity : Arity → String
  | .exactly count => "Exact(" ++ toString count ++ ")"
  | .oneOf counts => "OneOf([" ++ commaList (counts.map toString) ++ "])"
  | .any => "Variadic"

/-- The structure of a value that is not a pair. -/
def inspectAtom : Value → String
  | .null => "Null"
  | .bool b => "Bool(" ++ boolText b ++ ")"
  | .int n => "Integer(" ++ n.text ++ ")"
  | .float x => "Float(" ++ Decimal.floatText x ++ ")"
  | .str s => "Str(" ++ Text.quoted s ++ ")"
  | .empty => "List(Empty)"
  | .pair _ _ _ => ""
  | .primitive p =>
    "Function(Primitive(PrimitiveDef \x7b name: " ++ Text.quoted p.name ++ ", arity: "
      ++ inspectArity p.arity ++ ", .. \x7d))"
  | .closure c =>
    let name := match c.name with
      | some name => "Some(" ++ Text.quoted name ++ ")"
      | none => "None"
    "Function(User(UserFunction \x7b name: " ++ name ++ ", parameters: ["
      ++ commaList (c.params.map Text.quoted) ++ "], .. \x7d))"

/-- Writes the structure of a value after `acc`. -/
def inspectTo (acc : String) : Value → String
  | .pair _ head tail =>
    inspectTo (inspectTo (acc ++ "List(Pair(Pair \x7b head: ") head ++ ", tail: ") tail
      ++ " \x7d))"
  | v => acc ++ v.inspectAtom

/-- The structure of a value. -/
def inspect (v : Value) : String := inspectTo "" v

end PairScript.Value
