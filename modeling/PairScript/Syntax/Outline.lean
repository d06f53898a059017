import PairScript.Decimal.FloatText
import PairScript.Syntax.Node
import PairScript.Text.Quoted

/-!
# Outlines

An outline is a tree of records, tuples and lists, written with one part per line and four spaces
per level.  `Node.outline` shows a syntax tree that way.
-/

namespace PairScript

/-- A tree to be written over several lines. -/
inductive Outline where
  /-- Text on one line. -/
  | leaf (text : String)
  /-- A name with named parts in braces. -/
  | record (name : String) (fields : List (String × Outline))
  /-- A name with one part in parentheses. -/
  | wrapped (name : String) (inner : Outline)
  /-- Parts in brackets. -/
  | list (items : List Outline)

namespace Outline

/-- The blanks at the start of a line. -/
def pad (indent : Nat) : String := String.ofList (List.replicate indent ' ')

mutual

/-- Writes an outline after `acc`, in a line that starts with `indent` blanks. -/
def writeTo (acc : String) (indent : Nat) : Outline → String
  | .leaf text => acc ++ text
  | .record name fields =>
    writeFields (acc ++ name ++ " \x7b\n") (indent + 4) fields ++ pad indent ++ "\x7d"
  | .wrapped name inner =>
    writeTo (acc ++ name ++ "(\n" ++ pad (indent + 4)) (indent + 4) inner ++ ",\n"
      ++ pad indent ++ ")"
  | .list [] => acc ++ "[]"
  | .list (item :: items) =>
    writeItems (acc ++ "[\n") (indent + 4) (item :: items) ++ pad indent ++ "]"

/-- Writes named parts, one per line. -/
def writeFields (acc : String) (indent : Nat) : List (String × Outline) → String
  | [] => acc
  | (name, part) :: rest =>
    writeFields (writeTo (acc ++ pad indent ++ name ++ ": ") indent part ++ ",\n") indent rest

/-- Writes parts, one per line. -/
def writeItems (acc : String) (indent : Nat) : List Outline → String
  | [] => acc
  | item :: rest => writeItems (writeTo (acc ++ pad indent) indent item ++ ",\n") indent rest

end

/-- The text of an outline. -/
def render (o : Outline) : String := writeTo "" 0 o

/-- A number on one line. -/
def number (n : Nat) : Outline := .leaf (toString n)

/-- A truth value on one line. -/
def bool (b : Bool) : Outline := .leaf (if b then "true" else "false")

/-- A string on one line. -/
def string (s : String) : Outline := .leaf (Text.quoted s)

/-- The absent part. -/
def absent : Outline := .leaf "None"

/-- A part that could be absent and is not. -/
def present (o : Outline) : Outline := .wrapped "Some" o

end Outline

open Outline

/-- A constant on one line, as it could be written in a program. -/
def Constant.text : Constant → String
  | .int n => n.text
  | .float x => Decimal.floatText x
  | .str s => Text.quoted s
  | .empty => "[]"

/-- The outline of a constant. -/
def Constant.outline : Constant → Outline
  | .int n => .wrapped "Integer" (.leaf n.text)
  | .float x => .wrapped "Float" (.leaf (Decimal.floatText x))
  | .str s => .wrapped "Str" (string s)
  | .empty => .leaf "Empty"

/-- The outline of an optional name. -/
def nameOutline : Option String → Outline
  | some name => present (string name)
  | none => absent

mutual

/-- The outline of a syntax tree. -/
def Node.outline : Node → Outline
  | .constant value line =>
    .record "Constant" [("value", value.outline), ("line", number line)]
  | .reference name line =>
    .record "Variable" [("name", string name), ("line", number line)]
  | .definition name value line =>
    .record "VarDefinition"
      [("left", string name), ("right", value.outline), ("line", number line)]
  | .function name params body line =>
    .record "FunctionDefinition"
      [("name", nameOutline name), ("parameters", .list (params.map string)),
        ("body", .list (nodesOutline body)), ("line", number line)]
  | .assignment target value yieldsOld line =>
    .record "Assignment"
      [("left", target.outline), ("right", value.outline), ("return_left", bool yieldsOld),
        ("line", number line)]
  | .operation symbol operands line =>
    .record "Application"
      [("operator", .wrapped "Operator" (string symbol)),
        ("operands", .list (nodesOutline operands)), ("line", number line)]
  | .call callee arguments line =>
    .record "Application"
      [("operator", .wrapped "Expression" callee.outline),
        ("operands", .list (nodesOutline arguments)), ("line", number line)]
  | .conditional condition body other line =>
    .record "If"
      [("predicate", condition.outline), ("consequent", .list (nodesOutline body)),
        ("alternative", optionalBlockOutline other), ("line", number line)]
  | .whileLoop condition body line =>
    .record "While"
      [("predicate", condition.outline), ("consequent", .list (nodesOutline body)),
        ("line", number line)]
  | .switch subject arms fallback line =>
    .record "Switch"
      [("variable", subject.outline), ("cases", .list (armsOutline arms)),
        ("default", optionalBlockOutline fallback), ("line", number line)]
  | .rangeLoop name start bound closed step body line =>
    .record "For"
      [("variable", string name),
        ("range", .record "Numeric"
          [("from", start.outline), ("to", bound.outline), ("closed", bool closed),
            ("increment", optionalOutline step)]),
        ("consequent", .list (nodesOutline body)), ("line", number line)]
  | .eachLoop name collection body line =>
    .record "For"
      [("variable", string name), ("range", .wrapped "Collection" collection.outline),
        ("consequent", .list (nodesOutline body)), ("line", number line)]
  | .breakOut line => .record "Break" [("line", number line)]
  | .continueOn line => .record "Continue" [("line", number line)]
  | .fallThrough line => .record "Fallthrough" [("line", number line)]
  | .giveBack value line =>
    .record "Return" [("expression", optionalOutline value), ("line", number line)]

/-- The outlines of a block. -/
def nodesOutline : List Node → List Outline
  | [] => []
  | node :: rest => node.outline :: nodesOutline rest

/-- The outline of an optional tree. -/
def optionalOutline : Option Node → Outline
  | some node => present node.outline
  | none => absent

/-- The outline of an optional block. -/
def optionalBlockOutline : Option (List Node) → Outline
  | some body => present (.list (nodesOutline body))
  | none => absent

/-- The outline of an arm. -/
def armOutline : Arm Node → Outline
  | ⟨values, body, line⟩ =>
    .record "SwitchCase"
      [("values", .list (nodesOutline values)), ("body", .list (nodesOutline body)),
        ("line", number line)]

/-- The outlines of the arms of a switch. -/
def armsOutline : List (Arm Node) → List Outline
  | [] => []
  | arm :: rest => armOutline arm :: armsOutline rest

end

/-- The outline of a program. -/
def programOutline (nodes : List Node) : Outline := .list (nodesOutline nodes)

end PairScript
