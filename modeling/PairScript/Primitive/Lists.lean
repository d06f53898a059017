import PairScript.Primitive.Number

/-!
# Lists and strings

The pure part of the primitives on lists.  The ones that make pairs are in
`PairScript.Primitive.Apply`, since they need the heap.
-/

namespace PairScript.Primitive

/-- The element of a list at a position counted from 0. -/
def element (items : List Value) (position : Word) : Except EvalCause Value :=
  if position < 0 then .error (.indexOutOfBounds position items.length)
  else
    match items[position.toInt.toNat]? with
    | some v => .ok v
    | none => .error (.indexOutOfBounds position items.length)

/-- The characters of a string as strings. -/
def characters (s : String) : List Value := s.toList.map fun c => .str c.toString

/-- The character of a string at a position counted from 0. -/
def character (s : String) (position : Word) : Except EvalCause Value :=
  if position < 0 then .error (.indexOutOfBounds position s.length)
  else
    match s.toList[position.toInt.toNat]? with
    | some c => .ok (.str c.toString)
    | none => .error (.indexOutOfBounds position s.length)

/-- `a[b]` on lists and strings. -/
def elementAt (a b : Value) : Except EvalCause Value := do
  let position ← asInteger b
  match a with
  | .str s => character s position
  | a =>
    if a.isList then
      match a.elements? with
      | some items => element items position
      | none => .error (.mismatch .improperIndex)
    else .error (.mismatch (.cannotIndex a.kind))

/-- Whether a value is a pair. -/
def isPairValue : Value → Bool
  | .pair _ _ _ => true
  | _ => false

end PairScript.Primitive
