import Mathlib
import PairScript.Number.Word

/-!
# Words as floats

A float has 53 binary digits, so the integers from `-2 ^ 53` to `2 ^ 53` are floats exactly, and
different ones are different floats (`Word.eq_of_toFloat_beq`).  The next integer is not a float any
more: it rounds to `2 ^ 53`.

The proof follows the conversion.  An integer is shifted up until it fills the digits
(`ofUInt64_normal`), and is multiplied by the tenth power of its decimal exponent, which is one
here.  Nothing is rounded off on the way (`roundWithAccuracy_exact`), and packing the result loses
nothing either (`unpack_pack_normal`).
-/

namespace PairScript

open Float.Model Float.Model.UnpackedFloat

/-! ### Floats that use all their digits -/

/-- A number of exactly 53 binary digits. -/
def FillsDigits (m : Nat) : Prop := 2 ^ 52 ≤ m ∧ m < 2 ^ 53

theorem FillsDigits.pos {m : Nat} (hm : FillsDigits m) : 0 < m :=
  Nat.lt_of_lt_of_le (by decide) hm.1

theorem FillsDigits.log2 {m : Nat} (hm : FillsDigits m) : m.log2 = 52 :=
  (Nat.log2_eq_iff (Nat.pos_iff_ne_zero.1 hm.pos)).2 hm

theorem FillsDigits.log2_mul {m : Nat} (hm : FillsDigits m) (k : Nat) :
    (m * 2 ^ k).log2 = 52 + k := by
  have hpow : 0 < 2 ^ k := Nat.two_pow_pos k
  rw [Nat.log2_eq_iff (Nat.mul_pos hm.pos hpow).ne']
  constructor
  · rw [pow_add]
    exact Nat.mul_le_mul_right _ hm.1
  · rw [show 52 + k + 1 = 53 + k by omega, pow_add]
    exact Nat.mul_lt_mul_of_pos_right hm.2 hpow

/-- Packing a float of middling exponent and unpacking it gives it back. -/
theorem unpack_pack_normal {s : Sign} {m : Nat} {e : Int} (h : 0 < m) (hm : FillsDigits m)
    (he : -52 ≤ e) (he' : e ≤ 1) :
    (Float.Model.pack (.finite s m e h)).unpack = .finite s m e h := by
  have hbias : (Format.binary64.exponentBias : Int) = 1023 := rfl
  obtain ⟨biased, hbiased⟩ : ∃ biased : Nat, e + 1023 + 52 = biased :=
    ⟨(e + 1023 + 52).toNat, by omega⟩
  have hpack : UnpackedFloat.pack .binary64 (.finite s m e h) =
      packComponents .binary64 s (BitVec.ofNat 11 biased) (BitVec.ofNat 52 m) := by
    have hexponent : (e + Format.binary64.exponentBias +
        Format.binary64.mantissaBitsWithoutImplicit).toNat = biased := by
      rw [hbias]
      show (e + 1023 + 52).toNat = biased
      omega
    have hfinite : ¬ 2 ^ Format.binary64.exponentBits ≤ biased + 1 := by
      show ¬ 2 ^ 11 ≤ biased + 1
      omega
    simp only [UnpackedFloat.pack, hm.log2, hexponent, hfinite, if_false]
    rfl
  have hnot_last : BitVec.ofNat 11 biased ≠ -1#11 := by
    rw [ne_eq, ← BitVec.toNat_inj]
    simp
    omega
  have hnot_first : BitVec.ofNat 11 biased ≠ 0#11 := by
    rw [ne_eq, ← BitVec.toNat_inj]
    simp
    omega
  have hmantissa : (1#1 ++ BitVec.ofNat 52 m).toNat = m := by
    have hlow := hm.1
    have hhigh := hm.2
    rw [BitVec.toNat_append, ← Nat.shiftLeft_add_eq_or_of_lt (BitVec.isLt _)]
    simp only [BitVec.toNat_ofNat, Nat.shiftLeft_eq]
    omega
  have hexponent : ((BitVec.ofNat 11 biased).toNat : Int) - (Format.binary64.exponentBias +
      Format.binary64.mantissaBitsWithoutImplicit : Int) = e := by
    simp only [hbias, BitVec.toNat_ofNat]
    omega
  show UnpackedFloat.unpack .binary64 (UnpackedFloat.pack .binary64 (.finite s m e h)) = _
  rw [hpack]
  simp only [UnpackedFloat.unpack, unpackMantissa_packComponents, unpackExponent_packComponents,
    unpackSign_packComponents, hnot_last, hnot_first, if_false, Sign.ofBitVec_toBitVec]
  congr 1

/-! ### Rounding what needs no rounding -/

theorem repeat_shiftRightOne (m k : Nat) :
    k.repeat ExtendedMantissa.shiftRightOne ⟨m * 2 ^ k, false, false⟩ = ⟨m, false, false⟩ := by
  induction k generalizing m with
  | zero => simp [Nat.repeat]
  | succ k ih =>
    rw [Nat.repeat, show m * 2 ^ (k + 1) = m * 2 * 2 ^ k by ring, ih]
    simp [ExtendedMantissa.shiftRightOne]

/-- A mantissa with `k` digits too many is shifted down by `k`. -/
theorem shiftToTargetExponent_eq {m k : Nat} {e : Int} (hm : m.log2 = 52 + k) (he : -52 ≤ e + k) :
    shiftToTargetExponent .binary64 m e .exact =
      (k.repeat ExtendedMantissa.shiftRightOne ⟨m, false, false⟩, e + k) := by
  have hdigits : (Format.binary64.mantissaBits : Int) = 53 := rfl
  have hleast : Format.binary64.minExponent = -1074 := rfl
  have hamount : (Format.binary64.targetExponent (totalExponent m e) - e).toNat = k := by
    unfold Format.targetExponent totalExponent
    omega
  simp only [shiftToTargetExponent, shiftToExponent, hamount]
  rfl

/-- Digits that are zero are dropped without loss. -/
theorem roundWithAccuracy_exact (s : Sign) {m : Nat} (k : Nat) {e : Int} (hm : FillsDigits m)
    (he : -52 ≤ e + k) :
    roundWithAccuracy .binary64 s (m * 2 ^ k) e .exact = .finite s m (e + k) hm.pos := by
  have hagain := shiftToTargetExponent_eq (k := 0) (e := e + k) hm.log2 (by omega)
  have hkept : (⟨m, false, false⟩ : ExtendedMantissa).roundedMantissa = m := rfl
  unfold roundWithAccuracy
  rw [shiftToTargetExponent_eq (hm.log2_mul k) he, repeat_shiftRightOne]
  simp only [hkept, hagain, Nat.repeat]
  rw [dif_neg hm.pos.ne']
  simp

/-! ### Integers -/

/-- The float is `n` with a sign: a mantissa of 53 digits, and the exponent that makes up for
them. -/
def IsExactly (x : Float) (s : Sign) (n : Nat) : Prop :=
  ∃ (m : Nat) (e : Int) (h : 0 < m), x.toModel.unpack = .finite s m e h ∧ FillsDigits m ∧
    -52 ≤ e ∧ e ≤ 1 ∧ m * 2 ^ (e + 52).toNat = n * 2 ^ 52

/-- An integer that is shifted up by `j` fills the digits. -/
theorem exists_shift {n : Nat} (hn : 0 < n) (hn' : n < 2 ^ 53) :
    ∃ j, n.log2 + j = 52 ∧ FillsDigits (n * 2 ^ j) := by
  have hlog : n.log2 < 53 := (Nat.log2_lt hn.ne').2 hn'
  have hself := Nat.log2_self_le hn.ne'
  obtain ⟨j, hj⟩ : ∃ j, n.log2 + j = 52 := ⟨52 - n.log2, by omega⟩
  refine ⟨j, hj, ?_, ?_⟩
  · rw [← hj, pow_add]
    exact Nat.mul_le_mul_right _ hself
  · rw [show 53 = n.log2 + 1 + j by omega, pow_add]
    exact Nat.mul_lt_mul_of_pos_right Nat.lt_log2_self (Nat.two_pow_pos j)

theorem ofUInt64_normal {n j : Nat} (hn : 0 < n) (hj : n.log2 + j = 52)
    (hfills : FillsDigits (n * 2 ^ j)) :
    UnpackedFloat.ofUInt64 .binary64 n.toUInt64 =
      .finite .positive (n * 2 ^ j) (-j) hfills.pos := by
  have hdigits : (Format.binary64.mantissaBits : Int) = 53 := rfl
  have hleast : Format.binary64.minExponent = -1074 := rfl
  have hword : n.toUInt64.toNat = n := by
    have hone : 1 ≤ 2 ^ j := Nat.two_pow_pos j
    have hle := Nat.le_mul_of_pos_right n hone
    have hlt := hfills.2
    simp
    omega
  have hpositive : compare (n : Int) 0 = .gt := by
    rw [Int.compare_eq_gt]
    omega
  have htarget : Format.binary64.targetExponent (totalExponent n 0) = -j := by
    unfold Format.targetExponent totalExponent
    omega
  have hamount : (0 - (-j : Int)).toNat = j := by omega
  have hround := roundWithAccuracy_exact .positive 0 (e := 0 - j) hfills (by omega)
  simp only [UnpackedFloat.ofUInt64, UnpackedFloat.ofNat, UnpackedFloat.ofInt, hword,
    UnpackedFloat.normalize, hpositive, UnpackedFloat.round, htarget, decreaseExponent,
    Int.toNat_natCast, hamount, Nat.shiftLeft_eq]
  simpa using hround

theorem ofNat_isExactly {n : Nat} (hn : 0 < n) (hn' : n ≤ 2 ^ 53) :
    IsExactly (Float.ofNat n) .positive n := by
  rcases Nat.lt_or_eq_of_le hn' with hlt | rfl
  · obtain ⟨j, hj, hfills⟩ := exists_shift hn hlt
    have hone : Float.exactlyRepresentablePowersOfTen[0].toModel.unpack =
        .finite .positive (2 ^ 52) (-52) (by decide) := rfl
    have hint : n.toUInt64.toFloat.toModel.unpack =
        .finite .positive (n * 2 ^ j) (-j) hfills.pos := by
      show (Float.Model.pack (UnpackedFloat.ofUInt64 .binary64 n.toUInt64)).unpack = _
      rw [ofUInt64_normal hn hj hfills]
      exact unpack_pack_normal _ hfills (by omega) (by omega)
    have hofNat :
        Float.ofNat n = n.toUInt64.toFloat * Float.exactlyRepresentablePowersOfTen[0] := by
      show Float.ofScientific n false 0 = _
      unfold Float.ofScientific
      rw [dif_pos ⟨hlt, by omega⟩]
      rfl
    have hmul := roundWithAccuracy_exact .positive 52 (e := -j + -52) hfills (by omega)
    have hexponent : (-j + -52 + (52 : Nat) : Int) = -j := by omega
    simp only [hexponent] at hmul
    refine ⟨n * 2 ^ j, -j, hfills.pos, ?_, hfills, by omega, by omega, ?_⟩
    · rw [hofNat]
      show (Float.Model.pack (UnpackedFloat.mul .binary64 n.toUInt64.toFloat.toModel.unpack
        Float.exactlyRepresentablePowersOfTen[0].toModel.unpack)).unpack = _
      rw [hint, hone]
      show (Float.Model.pack
        (roundWithAccuracy .binary64 .positive (n * 2 ^ j * 2 ^ 52) (-j + -52) .exact)).unpack = _
      rw [hmul]
      exact unpack_pack_normal _ hfills (by omega) (by omega)
    · rw [show (-(j : Int) + 52).toNat = 52 - j by omega, mul_assoc, ← pow_add,
        show j + (52 - j) = 52 by omega]
  · exact ⟨2 ^ 52, 1, by decide, rfl, ⟨by decide, by decide⟩, by decide, by decide, by decide⟩

theorem IsExactly.neg {x : Float} {n : Nat} (h : IsExactly x .positive n) :
    IsExactly x.neg .negative n := by
  obtain ⟨m, e, hpos, hunpack, hm, he, he', hn⟩ := h
  refine ⟨m, e, hpos, ?_, hm, he, he', hn⟩
  show (Float.Model.pack x.toModel.unpack.neg).unpack = _
  rw [hunpack]
  exact unpack_pack_normal hpos hm he he'

/-- Equal floats are one integer. -/
theorem IsExactly.unique {x y : Float} {s s' : Sign} {n n' : Nat} (hx : IsExactly x s n)
    (hy : IsExactly y s' n') (hxy : (x == y) = true) : s = s' ∧ n = n' := by
  obtain ⟨m, e, hpos, hunpack, -, -, -, hn⟩ := hx
  obtain ⟨m', e', hpos', hunpack', -, -, -, hn'⟩ := hy
  have hcompare :
      UnpackedFloat.compare (.finite s m e hpos) (.finite s' m' e' hpos') = some .eq := by
    rw [← hunpack, ← hunpack']
    exact beq_iff_eq.1 hxy
  obtain ⟨rfl, rfl, rfl⟩ : s = s' ∧ m = m' ∧ e = e' := by
    cases s <;> cases s' <;> simp [UnpackedFloat.compare] at hcompare
    all_goals exact ⟨rfl, hcompare.2, hcompare.1⟩
  exact ⟨rfl, by omega⟩

/-- The sign of an integer that is not zero. -/
def signOf (z : Int) : Sign := if z < 0 then .negative else .positive

theorem ofInt_isExactly {z : Int} (hz : z ≠ 0) (hz' : z.natAbs ≤ 2 ^ 53) :
    IsExactly (Float.ofInt z) (signOf z) z.natAbs := by
  cases z with
  | ofNat n =>
    have hn : 0 < n := by
      rw [Int.ofNat_eq_natCast] at hz
      omega
    exact ofNat_isExactly hn hz'
  | negSucc n =>
    rw [signOf, if_pos (Int.negSucc_lt_zero n)]
    exact (ofNat_isExactly n.succ_pos hz').neg

/-- No other integer is zero as a float. -/
theorem IsExactly.not_zero {x : Float} {s : Sign} {n : Nat} (hx : IsExactly x s n) :
    (x == Float.ofInt 0) = false := by
  obtain ⟨m, e, hpos, hunpack, -⟩ := hx
  have hzero : (Float.ofInt 0).toModel.unpack = .zero .positive := rfl
  show (UnpackedFloat.compare x.toModel.unpack (Float.ofInt 0).toModel.unpack == some .eq) = false
  rw [hunpack, hzero]
  cases s <;> rfl

/-- **Words of up to 53 binary digits are told apart by their floats.** -/
theorem Word.eq_of_toFloat_beq {a b : Word} (ha : a.toInt.natAbs ≤ 2 ^ 53)
    (hb : b.toInt.natAbs ≤ 2 ^ 53) (hab : (a.toFloat == b.toFloat) = true) : a = b := by
  rw [← Int64.toInt_inj]
  change (Float.ofInt a.toInt == Float.ofInt b.toInt) = true at hab
  by_cases ha₀ : a.toInt = 0
  · by_cases hb₀ : b.toInt = 0
    · rw [ha₀, hb₀]
    · rw [ha₀, BEq.comm, (ofInt_isExactly hb₀ hb).not_zero] at hab
      cases hab
  · by_cases hb₀ : b.toInt = 0
    · rw [hb₀, (ofInt_isExactly ha₀ ha).not_zero] at hab
      cases hab
    · obtain ⟨hsign, habs⟩ := (ofInt_isExactly ha₀ ha).unique (ofInt_isExactly hb₀ hb) hab
      unfold signOf at hsign
      split at hsign <;> split at hsign <;> first | omega | cases hsign

/-- The bound cannot be raised: the next word rounds to the last one. -/
example : (Word.toFloat 9007199254740992 == Word.toFloat 9007199254740993) = true := by
  decide +kernel

end PairScript
