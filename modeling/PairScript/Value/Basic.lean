import PairScript.Decimal.FloatText
import PairScript.Syntax.Node
import PairScript.Value.Primitive

/-!
# Values

What a variable can hold.  Lists are chains of pairs that end in the empty list; a chain with any
other end is an improper list.

A pair carries the number of the cell it was made as, and a closure a number of its own.  Two
pairs with the same number are the same pair, which equality takes into account
(`PairScript.Value.Equality`); everything else about a value is in its structure.
-/

namespace PairScript

/-- Number of a frame of variables. -/
abbrev FrameId := Nat

/-- Number of a pair. -/
abbrev CellId := Nat

/-- Number of a closure. -/
abbrev ClosureId := Nat

/-- A function of the program together with the frame it was made in. -/
structure Closure where
  id : ClosureId
  name : Option String
  params : List String
  body : List Node
  frame : FrameId

/-- What a variable can hold. -/
inductive Value where
  | null
  | bool (b : Bool)
  | int (n : Word)
  | float (x : Float)
  | str (s : String)
  /-- The empty list. -/
  | empty
  | pair (cell : CellId) (head tail : Value)
  | primitive (p : Primitive)
  | closure (c : Closure)

/-- The kinds of values that messages distinguish. -/
inductive Kind where
  | null
  | boolean
  | integer
  | float
  | string
  | emptyList
  | pair
  | function
deriving Repr, DecidableEq

/-- How a kind is named in messages. -/
def Kind.describe : Kind → String
  | .null => "null"
  | .boolean => "boolean"
  | .integer => "integer"
  | .float => "float"
  | .string => "string"
  | .emptyList => "empty list"
  | .pair => "pair"
  | .function => "function"

namespace Value

/-- The kind of a value. -/
def kind : Value → Kind
  | .null => .null
  | .bool _ => .boolean
  | .int _ => .integer
  | .float _ => .float
  | .str _ => .string
  | .empty => .emptyList
  | .pair _ _ _ => .pair
  | .primitive _ => .function
  | .closure _ => .function

/-- Whether a value counts as true: all do but `null`, `false`, zeros, the empty string and the
empty list. -/
def isTruthy : Value → Bool
  | .null => false
  | .bool b => b
  | .int n => n != 0
  | .float x => x != 0.0
  | .str s => s != ""
  | .empty => false
  | .pair _ _ _ => true
  | .primitive _ => true
  | .closure _ => true

/-- Whether a value is an integer or a float. -/
def isNumber : Value → Bool
  | .int _ => true
  | .float _ => true
  | _ => false

/-- Whether a value is the empty list or a pair. -/
def isList : Value → Bool
  | .empty => true
  | .pair _ _ _ => true
  | _ => false

/-- The value of a constant. -/
def ofConstant : Constant → Value
  | .int n => .int n
  | .float x => .float x
  | .str s => .str s
  | .empty => .empty

/-! ### Lists -/

/-- Whether a value is a chain of pairs that ends in the empty list. -/
def isProper : Value → Bool
  | .empty => true
  | .pair _ _ tail => tail.isProper
  | _ => false

/-- The heads of a chain of pairs, in front of the elements `acc` in reverse. -/
def headsOnto (acc : List Value) : Value → List Value
  | .pair _ head tail => tail.headsOnto (head :: acc)
  | _ => acc.reverse

/-- The heads of a chain of pairs, whatever it ends in. -/
def heads (v : Value) : List Value := v.headsOnto []

/-- The elements of a proper list. -/
def elements? (v : Value) : Option (List Value) :=
  if v.isProper then some v.heads else none

/-- The end of a chain of pairs. -/
def lastTail : Value → Value
  | .pair _ _ tail => tail.lastTail
  | v => v

/-- The first slot of a pair. -/
def head? : Value → Option Value
  | .pair _ head _ => some head
  | _ => none

/-- The second slot of a pair. -/
def tail? : Value → Option Value
  | .pair _ _ tail => some tail
  | _ => none

/-- Chains values in front of `tail`, the first one being last in `reversed`.  The pairs are
numbered from `cell` on. -/
def chainOnto (cell : CellId) (tail : Value) : (reversed : List Value) → Value
  | [] => tail
  | v :: vs => chainOnto (cell + 1) (.pair cell v tail) vs

/-- The list of `vs`, its pairs numbered from `cell` on. -/
def ofList (cell : CellId) (vs : List Value) : Value := chainOnto cell .empty vs.reverse

end Value

end PairScript
