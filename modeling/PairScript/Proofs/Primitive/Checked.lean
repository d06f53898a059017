import PairScript.Program
import PairScript.Proofs.Number.Words

/-!
# Checked arithmetic

On two words `+`, `-` and `*` ask for the word of the exact result, and fail with an overflow if
there is none.  The same step ends every other operation on words.
-/

namespace PairScript

theorem settle_checked_eq_ok {x : Option Word} {w : Word} {line : Nat} {m : Machine} :
    Eval.settle line (Primitive.checked x) m = .ok (.int w) m ↔ x = some w := by
  cases x with
  | none => exact ⟨nofun, nofun⟩
  | some v =>
    show EStateM.Result.ok (Value.int v) m = .ok (.int w) m ↔ _
    rw [EStateM.Result.ok.injEq, Value.int.injEq, Option.some.injEq]
    exact ⟨fun h => h.1, fun h => ⟨h, rfl⟩⟩

theorem settle_checked_eq_overflow {x : Option Word} {line : Nat} {m : Machine} :
    Eval.settle line (Primitive.checked x) m = .error (.fault ⟨.overflow, line⟩) m ↔ x = none := by
  cases x with
  | none => exact ⟨fun _ => rfl, fun _ => rfl⟩
  | some v => exact ⟨nofun, nofun⟩

theorem settle_checked_ne_divisionByZero {x : Option Word} {line : Nat} {m : Machine} :
    Eval.settle line (Primitive.checked x) m ≠ .error (.fault ⟨.divisionByZero, line⟩) m := by
  cases x with
  | none => exact nofun
  | some v => exact nofun

namespace Primitive

variable {a b w : Word} {line : Nat} {m : Machine}

theorem add_apply_eq_ok :
    add.apply [.int a, .int b] line m = .ok (.int w) m ↔ w.toInt = a.toInt + b.toInt := by
  show Eval.settle line (checked (Word.add? a b)) m = _ ↔ _
  rw [settle_checked_eq_ok, Word.add?, Word.ofInt?_eq_some_iff]

theorem multiply_apply :
    multiply.apply [.int a, .int b] line m =
      Eval.settle line (checked (Word.ofInt? (a.toInt * b.toInt))) m := rfl

end Primitive

end PairScript
