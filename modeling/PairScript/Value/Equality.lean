import PairScript.Value.Basic

/-!
# Equality of values

Integers and floats compare by number, lists element by element, functions by identity.  Two
occurrences of one pair are equal without a look inside, which makes a difference only for pairs
that hold a NaN.
-/

namespace PairScript.Value

/-- The relation that the operator `==` decides. -/
def equal : Value → Value → Bool
  | .null, .null => true
  | .bool a, .bool b => a == b
  | .int a, .int b => a == b
  | .float a, .float b => a == b
  | .int a, .float b => a.toFloat == b
  | .float a, .int b => b.toFloat == a
  | .str a, .str b => a == b
  | .empty, .empty => true
  | .pair c h t, .pair c' h' t' =>
    if c == c' then true else if equal h h' then equal t t' else false
  | .primitive p, .primitive q => p == q
  | .closure f, .closure g => f.id == g.id
  | _, _ => false

end PairScript.Value
