import Mathlib.Data.Rat.Floor
import PairScript.Proofs.Eval.Regime
import PairScript.Proofs.Primitive.Checked

/-!
# Division of integers

Words are divided by truncation, and then the quotient and the remainder are corrected, each after a
sign test of its own.  The two tests agree, since a remainder that is not zero has the sign of the
dividend (`Word.roundsUp_eq`).  So the quotient is the exact one rounded down, and the remainder is
what it leaves, of the sign of the divisor; and no step on the way leaves the range of words.

The product of the quotient and the divisor is another matter.  It may lie past the dividend, by
less than the divisor, and then past all words: so `(a / b) * b + a % b == a` holds unless its
multiplication overflows (`division_rounds_down`).
-/

namespace PairScript

namespace Word

variable {a b q r : Word}

/-! ### What a division is -/

/-- The quotient of two words rounded towards negative infinity, and the remainder that goes with
it. -/
structure FloorDivision (a b q r : Word) : Prop where
  floor : q.toInt = ⌊(a.toInt : ℚ) / b.toInt⌋
  exact : a.toInt = b.toInt * q.toInt + r.toInt
  sign : r = 0 ∨ r.toInt.sign = b.toInt.sign
  small : r.toInt.natAbs < b.toInt.natAbs

/-- The steps of a division are exact: none of them leaves the range of words. -/
structure ExactSteps (a b : Word) : Prop where
  truncated : (a / b).toInt = a.toInt.tdiv b.toInt
  remainder : (a % b).toInt = a.toInt.tmod b.toInt
  lowered : roundsUp a b = true → ∃ w, sub? (a / b) 1 = some w ∧ w.toInt = (a / b).toInt - 1
  raised : a % b ≠ 0 → decide (a % b < 0) ≠ decide (b < 0) →
    (a % b + b).toInt = (a % b).toInt + b.toInt

/-- A quotient that leaves a remainder of the sign of the divisor is rounded down. -/
theorem floor_of_exact {x y q r : Int} (hexact : x = y * q + r) (hsign : r = 0 ∨ r.sign = y.sign)
    (hsmall : r.natAbs < y.natAbs) : q = ⌊(x : ℚ) / y⌋ := by
  have hproduct : q * y = x - r := by
    rw [hexact, Int.mul_comm]
    omega
  symm
  rw [Int.floor_eq_iff]
  by_cases hy : 0 < y
  · have hr : 0 ≤ r := by
      rcases hsign with rfl | hsign
      · exact Int.le_refl 0
      · rw [Int.sign_eq_one_of_pos hy] at hsign
        exact Int.le_of_lt (Int.sign_eq_one_iff_pos.1 hsign)
    have hpos : (0 : ℚ) < y := Int.cast_pos.2 hy
    constructor
    · rw [le_div_iff₀ hpos]
      exact_mod_cast (by omega : q * y ≤ x)
    · rw [div_lt_iff₀ hpos]
      exact_mod_cast (by rw [Int.add_mul, Int.one_mul]; omega : x < (q + 1) * y)
  · have hy : y < 0 := by omega
    have hr : r ≤ 0 := by
      rcases hsign with rfl | hsign
      · exact Int.le_refl 0
      · rw [Int.sign_eq_neg_one_of_neg hy] at hsign
        exact Int.le_of_lt (Int.sign_eq_neg_one_iff_neg.1 hsign)
    have hneg : (y : ℚ) < 0 := Int.cast_lt_zero.2 hy
    constructor
    · rw [le_div_iff_of_neg hneg]
      exact_mod_cast (by omega : x ≤ q * y)
    · rw [div_lt_iff_of_neg hneg]
      exact_mod_cast (by rw [Int.add_mul, Int.one_mul]; omega : (q + 1) * y < x)

/-! ### Truncation -/

theorem undividable_iff : undividable a b = true ↔ b = 0 ∨ (a = Int64.minValue ∧ b = -1) := by
  unfold undividable
  rw [Bool.or_eq_true, Bool.and_eq_true, beq_iff_eq, beq_iff_eq, beq_iff_eq]

theorem toInt_ne_zero (hb : b ≠ 0) : b.toInt ≠ 0 := fun h => hb (Int64.toInt_inj.1 h)

/-- Words are divided by truncation unless the quotient is past all words. -/
theorem toInt_div (hrange : ¬ (a = Int64.minValue ∧ b = -1)) :
    (a / b).toInt = a.toInt.tdiv b.toInt := by
  by_cases ha : a = Int64.minValue
  · exact Int64.toInt_div_of_ne_right a b fun hb => hrange ⟨ha, hb⟩
  · exact Int64.toInt_div_of_ne_left a b ha

/-- A truncated remainder has the sign of the dividend. -/
theorem tmod_signs (x y : Int) : (0 ≤ x → 0 ≤ x.tmod y) ∧ (x ≤ 0 → x.tmod y ≤ 0) := by
  refine ⟨Int.tmod_nonneg y, fun hx => ?_⟩
  have hneg := Int.tmod_nonneg y (Int.neg_nonneg_of_nonpos hx)
  rw [Int.neg_tmod] at hneg
  omega

theorem natAbs_tmod_lt (x : Int) {y : Int} (hy : y ≠ 0) : (x.tmod y).natAbs < y.natAbs := by
  rw [Int.natAbs_tmod]
  exact Nat.mod_lt _ (by omega)

/-- A quotient by anything but `-1`, `0` and `1` is at most half as large. -/
theorem two_mul_natAbs_tdiv_le (x : Int) {y : Int} (hy : 2 ≤ y.natAbs) :
    2 * (x.tdiv y).natAbs ≤ x.natAbs := by
  rw [Int.natAbs_tdiv]
  calc 2 * (x.natAbs / y.natAbs)
      ≤ y.natAbs * (x.natAbs / y.natAbs) := Nat.mul_le_mul_right _ hy
    _ ≤ x.natAbs := Nat.mul_div_le _ _

/-! ### The sign tests -/

/-- **The two sign tests agree.** -/
theorem roundsUp_eq (a b : Word) :
    roundsUp a b = (a % b != 0 && (decide (a % b < 0) != decide (b < 0))) := by
  unfold roundsUp
  by_cases hr : a % b = 0
  · rw [hr]
    rfl
  · have hsign : decide (a % b < 0) = decide (a < 0) := by
      have hne := toInt_ne_zero hr
      have hsigns := tmod_signs a.toInt b.toInt
      rw [decide_eq_decide, Int64.lt_iff_toInt_lt, Int64.lt_iff_toInt_lt]
      rw [Int64.toInt_mod] at hne ⊢
      have hzero : (0 : Word).toInt = 0 := rfl
      omega
    rw [hsign]

/-- Where the remainder is corrected, it and the divisor have opposite signs. -/
theorem opposite_of_roundsUp (h : roundsUp a b = true) :
    ((a % b).toInt < 0 ∧ 0 ≤ b.toInt) ∨ (0 < (a % b).toInt ∧ b.toInt < 0) := by
  rw [roundsUp_eq, Bool.and_eq_true, bne_iff_ne, bne_iff_ne] at h
  obtain ⟨hr, hsigns⟩ := h
  have hne := toInt_ne_zero hr
  have hzero : (0 : Word).toInt = 0 := rfl
  rw [ne_eq, decide_eq_decide, Int64.lt_iff_toInt_lt, Int64.lt_iff_toInt_lt] at hsigns
  omega

/-- Where it is not, it is zero or has the sign of the divisor. -/
theorem agree_of_not_roundsUp (hb : b ≠ 0) (h : roundsUp a b = false) :
    a % b = 0 ∨ (a % b).toInt.sign = b.toInt.sign := by
  by_cases hr : a % b = 0
  · exact .inl hr
  · have hne := toInt_ne_zero hr
    have hbne := toInt_ne_zero hb
    have hzero : (0 : Word).toInt = 0 := rfl
    rw [roundsUp_eq, bne_iff_ne.2 hr, Bool.true_and, bne_eq_false_iff_eq, decide_eq_decide,
      Int64.lt_iff_toInt_lt, Int64.lt_iff_toInt_lt] at h
    right
    by_cases hneg : b.toInt < 0
    · rw [Int.sign_eq_neg_one_of_neg hneg, Int.sign_eq_neg_one_of_neg (by omega)]
    · rw [Int.sign_eq_one_of_pos (by omega), Int.sign_eq_one_of_pos (by omega)]

/-! ### Corrections -/

/-- A corrected remainder is between the divisor and zero. -/
theorem toInt_raised (hb : b ≠ 0) (h : roundsUp a b = true) :
    (a % b + b).toInt = (a % b).toInt + b.toInt := by
  have hopposite := opposite_of_roundsUp h
  have hsmall := natAbs_tmod_lt a.toInt (toInt_ne_zero hb)
  have hlow := b.le_toInt
  have hhigh := b.toInt_lt
  rw [← Int64.toInt_mod] at hsmall
  rw [Int64.toInt_add]
  exact Int.bmod_eq_of_le (by omega) (by omega)

/-- A corrected quotient is a word: the divisor is at least two. -/
theorem exists_lowered (hb : b ≠ 0) (h : roundsUp a b = true) :
    ∃ w, sub? (a / b) 1 = some w ∧ w.toInt = (a / b).toInt - 1 := by
  have hopposite := opposite_of_roundsUp h
  have hsmall := natAbs_tmod_lt a.toInt (toInt_ne_zero hb)
  rw [← Int64.toInt_mod] at hsmall
  have hquotient : (a / b).toInt = a.toInt.tdiv b.toInt := by
    apply toInt_div
    rintro ⟨-, rfl⟩
    have hone : (-1 : Word).toInt = -1 := rfl
    omega
  have hhalf := two_mul_natAbs_tdiv_le a.toInt (y := b.toInt) (by omega)
  have hword := a.natAbs_toInt_le
  have hrange : -9223372036854775808 ≤ (a / b).toInt - 1 ∧
      (a / b).toInt - 1 ≤ 9223372036854775807 := by
    rw [hquotient]
    omega
  have hvalue := Int64.toInt_ofInt_of_le hrange.1 (by omega)
  exact ⟨Int64.ofInt ((a / b).toInt - 1), ofInt?_eq_some_iff.2 hvalue, hvalue⟩

theorem exactSteps (h : undividable a b = false) : ExactSteps a b := by
  rw [← Bool.not_eq_true, undividable_iff, not_or] at h
  obtain ⟨hb, hrange⟩ := h
  refine ⟨toInt_div hrange, Int64.toInt_mod a b, exists_lowered hb, fun hr hsigns => ?_⟩
  apply toInt_raised hb
  rw [roundsUp_eq, bne_iff_ne.2 hr, bne_iff_ne.2 hsigns]
  rfl

/-! ### Quotient and remainder -/

theorem floorMod?_eq (h : undividable a b = false) :
    floorMod? a b = some (if roundsUp a b then a % b + b else a % b) := by
  rw [floorMod?, h, roundsUp_eq]
  simp only [Bool.false_eq_true, ↓reduceIte]
  split
  · rfl
  · rfl

/-- **A division of words rounds down**, unless there is none. -/
theorem exists_floorDivision (h : undividable a b = false) :
    ∃ q r, floorDiv? a b = some q ∧ floorMod? a b = some r ∧ FloorDivision a b q r := by
  have hsteps := exactSteps h
  have hdivided := h
  rw [← Bool.not_eq_true, undividable_iff, not_or] at h
  obtain ⟨hb, -⟩ := h
  have htruncated := Int.mul_tdiv_add_tmod a.toInt b.toInt
  rw [← hsteps.truncated, ← hsteps.remainder] at htruncated
  have hsmall := natAbs_tmod_lt a.toInt (toInt_ne_zero hb)
  rw [← hsteps.remainder] at hsmall
  have hresult : ∃ q r, floorDiv? a b = some q ∧ floorMod? a b = some r ∧
      a.toInt = b.toInt * q.toInt + r.toInt ∧ (r = 0 ∨ r.toInt.sign = b.toInt.sign) ∧
      r.toInt.natAbs < b.toInt.natAbs := by
    rw [floorMod?_eq hdivided, floorDiv?, hdivided]
    cases hup : roundsUp a b with
    | false =>
      exact ⟨a / b, a % b, rfl, rfl, htruncated.symm, agree_of_not_roundsUp hb hup, hsmall⟩
    | true =>
      obtain ⟨w, hlowered, hw⟩ := hsteps.lowered hup
      have hraised := toInt_raised hb hup
      have hopposite := opposite_of_roundsUp hup
      refine ⟨w, a % b + b, hlowered, rfl, ?_, ?_, ?_⟩
      · rw [hw, hraised, Int.mul_sub, Int.mul_one]
        omega
      · right
        rw [hraised]
        rcases hopposite with ⟨hneg, hnonneg⟩ | ⟨hpos, hneg⟩
        · rw [Int.sign_eq_one_of_pos (by omega), Int.sign_eq_one_of_pos (by omega)]
        · rw [Int.sign_eq_neg_one_of_neg (by omega), Int.sign_eq_neg_one_of_neg hneg]
      · rw [hraised]
        omega
  obtain ⟨q, r, hq, hr, hexact, hsign, hless⟩ := hresult
  have hsign' : r.toInt = 0 ∨ r.toInt.sign = b.toInt.sign := by
    rcases hsign with rfl | hsign
    · exact .inl rfl
    · exact .inr hsign
  exact ⟨q, r, hq, hr, floor_of_exact hexact hsign' hless, hexact, hsign, hless⟩

theorem floorDiv?_eq_none_iff : floorDiv? a b = none ↔ undividable a b = true := by
  cases h : undividable a b with
  | true => simp [floorDiv?, h]
  | false =>
    obtain ⟨q, r, hq, -⟩ := exists_floorDivision h
    simp [hq]

theorem floorMod?_eq_none_iff : floorMod? a b = none ↔ undividable a b = true := by
  cases h : undividable a b with
  | true => simp [floorMod?, h]
  | false => simp [floorMod?_eq h]

end Word

/-! ### The primitives -/

namespace Primitive

/-- What `(a / b) * b + a % b == a` comes to, operator by operator. -/
def restores (a b : Value) (line : Nat) : Eval Value := do
  let quotient ← floorDivide.apply [a, b] line
  let product ← multiply.apply [quotient, b] line
  let remainder ← modulo.apply [a, b] line
  let sum ← add.apply [product, remainder] line
  equal.apply [sum, a] line

section

variable {a b q r w : Word} {line : Nat} {m : Machine} {operator : String}
  {onWords : Word → Word → Option Word} {onFloats : Float → Float → Float}

/-- On words a division fails for a divisor of zero, and settles what is checked otherwise. -/
theorem settle_division :
    Eval.settle line (division operator onWords onFloats (.int a) (.int b)) m =
      if b = 0 then .error (.fault ⟨.divisionByZero, line⟩) m
      else Eval.settle line (checked (onWords a b)) m := by
  rw [division]
  by_cases hb : b = 0
  · rw [if_pos hb, if_pos (beq_iff_eq.2 hb)]
    rfl
  · rw [if_neg hb, if_neg fun h => hb (beq_iff_eq.1 h)]

theorem settle_division_eq_divisionByZero :
    Eval.settle line (division operator onWords onFloats (.int a) (.int b)) m =
      .error (.fault ⟨.divisionByZero, line⟩) m ↔ b = 0 := by
  rw [settle_division]
  by_cases hb : b = 0
  · rw [if_pos hb]
    exact ⟨fun _ => hb, fun _ => rfl⟩
  · rw [if_neg hb]
    exact ⟨fun h => absurd h settle_checked_ne_divisionByZero, fun h => absurd h hb⟩

theorem settle_division_eq_overflow (hnone : onWords a b = none ↔ Word.undividable a b = true) :
    Eval.settle line (division operator onWords onFloats (.int a) (.int b)) m =
      .error (.fault ⟨.overflow, line⟩) m ↔ a = Int64.minValue ∧ b = -1 := by
  rw [settle_division]
  by_cases hb : b = 0
  · rw [if_pos hb]
    refine ⟨nofun, ?_⟩
    rintro ⟨-, hone⟩
    cases hb.symm.trans hone
  · rw [if_neg hb, settle_checked_eq_overflow, hnone, Word.undividable_iff]
    exact ⟨fun h => h.resolve_left hb, .inr⟩

theorem settle_division_eq_ok (hb : b ≠ 0) (hw : onWords a b = some w) :
    Eval.settle line (division operator onWords onFloats (.int a) (.int b)) m =
      .ok (.int w) m := by
  rw [settle_division, if_neg hb]
  exact settle_checked_eq_ok.2 hw

/-- The dividend is restored, unless the product of the quotient and the divisor overflows. -/
theorem restores_eq (hq : floorDivide.apply [.int a, .int b] line m = .ok (.int q) m)
    (hr : modulo.apply [.int a, .int b] line m = .ok (.int r) m)
    (hexact : a.toInt = b.toInt * q.toInt + r.toInt) :
    restores (.int a) (.int b) line m =
      if Word.inRange (q.toInt * b.toInt) then .ok (.bool true) m
      else .error (.fault ⟨.overflow, line⟩) m := by
  unfold restores
  rw [Eval.bind_of_ok hq]
  by_cases hrange : Word.inRange (q.toInt * b.toInt) = true
  · rw [if_pos hrange]
    have hword : Word.ofInt? (q.toInt * b.toInt) = some (Int64.ofInt (q.toInt * b.toInt)) := by
      rw [Word.ofInt?, if_pos hrange]
    have hproduct : multiply.apply [.int q, .int b] line m =
        .ok (.int (Int64.ofInt (q.toInt * b.toInt))) m := by
      rw [multiply_apply, hword]
      rfl
    have hsum : add.apply [.int (Int64.ofInt (q.toInt * b.toInt)), .int r] line m =
        .ok (.int a) m := by
      rw [add_apply_eq_ok, Word.ofInt?_eq_some_iff.1 hword, hexact, Int.mul_comm b.toInt]
    rw [Eval.bind_of_ok hproduct, Eval.bind_of_ok hr, Eval.bind_of_ok hsum]
    show EStateM.Result.ok (Value.bool (a == a)) m = _
    rw [beq_self_eq_true]
  · rw [if_neg hrange]
    have hproduct : multiply.apply [.int q, .int b] line m =
        .error (.fault ⟨.overflow, line⟩) m := by
      rw [multiply_apply, Word.ofInt?, if_neg hrange]
      rfl
    exact Eval.bind_of_error hproduct

end

end Primitive

/-- **Integers are divided rounding down**, exactly and within the range of words.  For all words
`a` and `b`:

* there is no quotient and no remainder exactly if `b` is zero, which `/` and `%` report as such, or
  if `a` is the least word and `b` is `-1`, which they report as an overflow;
* otherwise `/` and `%` give the quotient rounded towards negative infinity and the remainder that
  goes with it, and no step of theirs leaves the range;
* and then `(a / b) * b + a % b == a` gives `true`, unless the product is past all words: it
  overflows there. -/
theorem division_rounds_down (a b : Word) (line : Nat) (m : Machine) :
    (Word.floorDiv? a b = none ↔ b = 0 ∨ (a = Int64.minValue ∧ b = -1)) ∧
      (Word.floorMod? a b = none ↔ b = 0 ∨ (a = Int64.minValue ∧ b = -1)) ∧
      (∀ p ∈ [Primitive.floorDivide, Primitive.modulo],
        (p.apply [.int a, .int b] line m = .error (.fault ⟨.divisionByZero, line⟩) m ↔ b = 0) ∧
          (p.apply [.int a, .int b] line m = .error (.fault ⟨.overflow, line⟩) m ↔
            a = Int64.minValue ∧ b = -1)) ∧
      (¬ (b = 0 ∨ (a = Int64.minValue ∧ b = -1)) → ∃ q r : Word,
        Word.floorDiv? a b = some q ∧ Word.floorMod? a b = some r ∧
          Word.FloorDivision a b q r ∧ Word.ExactSteps a b ∧
          Primitive.floorDivide.apply [.int a, .int b] line m = .ok (.int q) m ∧
          Primitive.modulo.apply [.int a, .int b] line m = .ok (.int r) m ∧
          Primitive.restores (.int a) (.int b) line m =
            if Word.inRange (q.toInt * b.toInt) then .ok (.bool true) m
            else .error (.fault ⟨.overflow, line⟩) m) := by
  rw [Word.floorDiv?_eq_none_iff, Word.floorMod?_eq_none_iff, Word.undividable_iff]
  refine ⟨Iff.rfl, Iff.rfl, ?_, fun h => ?_⟩
  · rw [List.forall_mem_cons, List.forall_mem_singleton]
    constructor
    · exact ⟨Primitive.settle_division_eq_divisionByZero,
        Primitive.settle_division_eq_overflow Word.floorDiv?_eq_none_iff⟩
    · exact ⟨Primitive.settle_division_eq_divisionByZero,
        Primitive.settle_division_eq_overflow Word.floorMod?_eq_none_iff⟩
  · have hb : b ≠ 0 := fun hb => h (.inl hb)
    rw [← Word.undividable_iff, Bool.not_eq_true] at h
    obtain ⟨q, r, hq, hr, hfloor⟩ := Word.exists_floorDivision h
    have hquotient : Primitive.floorDivide.apply [.int a, .int b] line m = .ok (.int q) m :=
      Primitive.settle_division_eq_ok hb hq
    have hremainder : Primitive.modulo.apply [.int a, .int b] line m = .ok (.int r) m :=
      Primitive.settle_division_eq_ok hb hr
    exact ⟨q, r, hq, hr, hfloor, Word.exactSteps h, hquotient, hremainder,
      Primitive.restores_eq hquotient hremainder hfloor.exact⟩

/-- The least word is divided by three: its remainder is one, and the product of its quotient with
the divisor is past all words. -/
theorem division_rounds_down_least : ∃ q r : Word,
    Word.FloorDivision Int64.minValue 3 q r ∧ q.toInt * 3 = -9223372036854775809 ∧ r = 1 ∧
      Primitive.restores (.int Int64.minValue) (.int 3) 1 (Machine.start (.ofInput []) 0) =
        .error (.fault ⟨.overflow, 1⟩) (Machine.start (.ofInput []) 0) := by
  obtain ⟨-, -, -, hdivides⟩ :=
    division_rounds_down Int64.minValue 3 1 (Machine.start (.ofInput []) 0)
  obtain ⟨q, r, hq, hr, hfloor, -, -, -, hrestores⟩ := hdivides (by decide)
  obtain rfl : q = -3074457345618258603 := Option.some.inj (hq.symm.trans (by decide))
  obtain rfl : r = 1 := Option.some.inj (hr.symm.trans (by decide))
  exact ⟨_, _, hfloor, by decide, rfl, hrestores⟩

/-- The program that divides the greatest word by `-2` and restores it. -/
def restoringSource : String :=
  "9223372036854775807 / -2 * -2 + 9223372036854775807 % -2 == 9223372036854775807"

/-- The program of `restoringSource`. -/
def restoringProgram : Node :=
  let greatest := .constant (.int 9223372036854775807) 1
  let divisor := .operation "_-" [.constant (.int 2) 1] 1
  .operation "==" [.operation "+" [.operation "*" [.operation "/" [greatest, divisor] 1, divisor] 1,
    .operation "%" [greatest, divisor] 1] 1, greatest] 1

theorem compile_restoring : compile restoringSource = .ok [restoringProgram] := by
  have htokens : tokenize restoringSource = .ok [⟨.int 9223372036854775807, 1⟩, ⟨.symbol "/", 1⟩,
      ⟨.symbol "-", 1⟩, ⟨.int 2, 1⟩, ⟨.symbol "*", 1⟩, ⟨.symbol "-", 1⟩, ⟨.int 2, 1⟩,
      ⟨.symbol "+", 1⟩, ⟨.int 9223372036854775807, 1⟩, ⟨.symbol "%", 1⟩, ⟨.symbol "-", 1⟩,
      ⟨.int 2, 1⟩, ⟨.symbol "==", 1⟩, ⟨.int 9223372036854775807, 1⟩, ⟨.finish, 1⟩] := by rfl
  rw [compile, htokens]
  rfl

/-- **The greatest word is not restored** after it was divided by `-2`: `/` and `%` both give a
result, and the product of the quotient and the divisor overflows. -/
theorem greatest_word_not_restored :
    let m := Machine.start (.ofInput []) defaultLimit
    Primitive.floorDivide.apply [.int 9223372036854775807, .int (-2)] 1 m =
        .ok (.int (-4611686018427387904)) m ∧
      Primitive.modulo.apply [.int 9223372036854775807, .int (-2)] 1 m = .ok (.int (-1)) m ∧
      Primitive.restores (.int 9223372036854775807) (.int (-2)) 1 m =
        .error (.fault ⟨.overflow, 1⟩) m ∧
      (runSource restoringSource m).1 = .error (.aborted (.fault ⟨.overflow, 1⟩)) := by
  intro m
  refine ⟨rfl, rfl, rfl, ?_⟩
  rw [runSource, compile_restoring]
  rfl

end PairScript
