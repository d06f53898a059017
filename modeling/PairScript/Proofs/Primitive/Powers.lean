import Mathlib.Algebra.Order.Ring.Int
import Mathlib.Algebra.Ring.Parity
import PairScript.Proofs.Primitive.Checked

/-!
# Powers of integers

`Word.pow?` never computes a large power.  For a base other than `-1`, `0` and `1` it answers `none`
from the exponent 64 on, since `2 ^ 64` is past every word; the powers of the three others only
depend on the parity of the exponent.  So it is the exact power, checked, for every exponent up to
`Word.maxExponent` (`pow?_eq`).

An exponent beyond that is refused whatever the base is.  The power of one of the three small bases
would have been a word, and this is the one place where `**` overflows on a result that does not
(`power_exact_or_overflow`).
-/

namespace PairScript

namespace Word

/-! ### Exponents that are cut short -/

/-- The powers of `-1`, `0` and `1` repeat with period two, from the first one on. -/
theorem pow_of_small {b : Int} (hb : b.natAbs ≤ 1) (e : Nat) :
    b ^ (if e = 0 then 0 else 2 - e % 2) = b ^ e := by
  by_cases he : e = 0
  · rw [if_pos he, he]
  · rw [if_neg he]
    have hsmall : b = -1 ∨ b = 0 ∨ b = 1 := by omega
    rcases hsmall with rfl | rfl | rfl
    · apply neg_one_pow_congr
      rw [Nat.even_iff, Nat.even_iff]
      omega
    · rw [zero_pow he, zero_pow (by omega)]
    · rw [one_pow, one_pow]

/-- From the exponent 64 on the power of any other base is past every word. -/
theorem ofInt?_pow_of_large {b : Int} {e : Nat} (hb : 2 ≤ b.natAbs) (he : 64 ≤ e) :
    ofInt? (b ^ e) = none := by
  rw [ofInt?_eq_none_iff]
  intro w hw
  have hword := w.natAbs_toInt_le
  have hpower : 2 ^ 64 ≤ (b ^ e).natAbs :=
    calc 2 ^ 64 ≤ 2 ^ e := Nat.pow_le_pow_right (by decide) he
      _ ≤ b.natAbs ^ e := Nat.pow_le_pow_left hb e
      _ = (b ^ e).natAbs := (Int.natAbs_pow b e).symm
  rw [hw] at hword
  exact absurd (hpower.trans hword) (by decide)

/-- **The checked power is the exact one**, for exponents that are taken at all. -/
theorem pow?_eq (a : Word) (e : Nat) :
    pow? a e = if maxExponent < e then none else ofInt? (a.toInt ^ e) := by
  unfold pow?
  simp only
  split
  · rfl
  · split
    next hsmall => exact congrArg ofInt? (pow_of_small hsmall e)
    next hsmall =>
      split
      next hlarge => exact (ofInt?_pow_of_large (by omega) hlarge).symm
      next => rfl

theorem pow?_eq_some_iff {a w : Word} {e : Nat} :
    pow? a e = some w ↔ w.toInt = a.toInt ^ e ∧ e ≤ maxExponent := by
  rw [pow?_eq]
  split
  next hlarge => simp [Nat.not_le_of_lt hlarge]
  next htaken => simp [ofInt?_eq_some_iff, Nat.le_of_not_lt htaken]

end Word

/-! ### The primitive -/

/-- On two words with an exponent that is not negative, `**` is the checked power. -/
theorem Primitive.power_apply {a n : Word} (hn : 0 ≤ n) (line : Nat) (m : Machine) :
    Primitive.power.apply [.int a, .int n] line m =
      Eval.settle line (Primitive.checked (Word.pow? a n.toInt.toNat)) m := by
  have hexponent : ¬ n < 0 := Int64.not_lt.2 hn
  show Eval.settle line (Primitive.raise (.int a) (.int n)) m = _
  rw [Primitive.raise]
  simp only [if_neg hexponent]

/-- **A power of words is exact or overflows.**  For every base and every exponent that is not
negative, `**` gives the word whose value is the exact power, if there is one, and fails with an
overflow if there is none; nothing else changes.  The exceptions are exponents past
`Word.maxExponent`: they overflow too where the base is `-1`, `0` or `1`, whose powers are words. -/
theorem power_exact_or_overflow {a n : Word} (hn : 0 ≤ n) (line : Nat) (m : Machine) :
    (∀ w : Word, Primitive.power.apply [.int a, .int n] line m = .ok (.int w) m ↔
        w.toInt = a.toInt ^ n.toInt.toNat ∧
          (n.toInt.toNat ≤ Word.maxExponent ∨ 2 ≤ a.toInt.natAbs)) ∧
      (Primitive.power.apply [.int a, .int n] line m = .error (.fault ⟨.overflow, line⟩) m ↔
        (∀ w : Word, w.toInt ≠ a.toInt ^ n.toInt.toNat) ∨
          (Word.maxExponent < n.toInt.toNat ∧ a.toInt.natAbs ≤ 1)) := by
  rw [Primitive.power_apply hn]
  generalize n.toInt.toNat = e
  -- past the exponents that are taken, only a small base has a power that is a word
  have hword : ∀ w : Word, w.toInt = a.toInt ^ e → Word.maxExponent < e → a.toInt.natAbs ≤ 1 := by
    intro w hw hlarge
    by_contra hbase
    have hnone := Word.ofInt?_pow_of_large (b := a.toInt) (e := e) (by omega)
      (by unfold Word.maxExponent at hlarge; omega)
    exact Word.ofInt?_eq_none_iff.1 hnone w hw
  constructor
  · intro w
    rw [settle_checked_eq_ok, Word.pow?_eq_some_iff]
    constructor
    · rintro ⟨hw, htaken⟩
      exact ⟨hw, .inl htaken⟩
    · rintro ⟨hw, htaken | hbase⟩
      · exact ⟨hw, htaken⟩
      · refine ⟨hw, Nat.le_of_not_lt fun hlarge => ?_⟩
        have hsmall := hword w hw hlarge
        omega
  · rw [settle_checked_eq_overflow, Word.pow?_eq]
    by_cases hlarge : Word.maxExponent < e
    · rw [if_pos hlarge]
      refine ⟨fun _ => ?_, fun _ => rfl⟩
      by_cases hbase : a.toInt.natAbs ≤ 1
      · exact .inr ⟨hlarge, hbase⟩
      · exact .inl fun w hw => hbase (hword w hw hlarge)
    · rw [if_neg hlarge, Word.ofInt?_eq_none_iff]
      exact ⟨.inl, fun h => h.resolve_right fun hpast => hlarge hpast.1⟩

/-- The least word is a power of `-2`, and the power after it is past the words. -/
theorem power_reaches_least_word :
    Primitive.power.apply [.int (-2), .int 63] 1 (Machine.start (.ofInput []) 0) =
        .ok (.int Int64.minValue) (Machine.start (.ofInput []) 0) ∧
      Primitive.power.apply [.int (-2), .int 64] 1 (Machine.start (.ofInput []) 0) =
        .error (.fault ⟨.overflow, 1⟩) (Machine.start (.ofInput []) 0) := by
  constructor
  · exact ((power_exact_or_overflow (by decide) 1 _).1 _).2 ⟨by decide, .inl (by decide)⟩
  · refine ((power_exact_or_overflow (by decide) 1 _).2).2 (.inl fun w hw => ?_)
    have hpower : w.toInt = 18446744073709551616 := hw
    have hgreatest := w.toInt_lt
    omega

/-- **One to the power of `2 ^ 32` overflows**, although it is one. -/
theorem large_power_of_one_overflows :
    (1 : Word).toInt = (1 : Word).toInt ^ (4294967296 : Word).toInt.toNat ∧
      Primitive.power.apply [.int 1, .int 4294967296] 1 (Machine.start (.ofInput []) defaultLimit) =
        .error (.fault ⟨.overflow, 1⟩) (Machine.start (.ofInput []) defaultLimit) := by
  constructor
  · have hone : (1 : Word).toInt = 1 := rfl
    rw [hone, one_pow]
  · rfl

end PairScript
