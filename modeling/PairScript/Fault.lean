/-!
# Faults

A fault is a cause and the source line it is blamed on.  The two stages of the language, reading
a program and running it, have causes of their own; both word their messages in the same frame.

Recursive procedures of the library carry an explicit bound.  Running into the bound is not a
fault of the program, so `Halt` keeps the two apart.
-/

namespace PairScript

/-- What went wrong, and the line it is blamed on. -/
structure Fault (κ : Type) where
  cause : κ
  line : Nat
deriving Repr, DecidableEq

/-- The message of a fault whose cause is described by `describe`. -/
def Fault.message {κ : Type} (describe : κ → String) (f : Fault κ) : String :=
  "Error on line " ++ toString f.line ++ ": " ++ describe f.cause

/-- Why a computation stopped without a result. -/
inductive Halt (κ : Type) where
  /-- The program is at fault. -/
  | fault (f : Fault κ)
  /-- The bound on the computation was too small to tell. -/
  | outOfFuel
deriving Repr, DecidableEq

end PairScript
