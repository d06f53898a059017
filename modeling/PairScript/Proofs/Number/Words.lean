import PairScript.Number.Word

/-!
# Words and exact results

A checked operation names its exact result and asks `Word.ofInt?` for the word of that value.  There
is at most one, and there is one exactly if the result lies in the range of words.
-/

namespace PairScript.Word

variable {x : Int} {w : Word}

theorem ofInt?_eq_some_iff : ofInt? x = some w ↔ w.toInt = x := by
  unfold ofInt? inRange
  constructor
  · intro h
    split at h
    next hrange =>
      cases h
      rw [Bool.and_eq_true, decide_eq_true_iff, decide_eq_true_iff] at hrange
      exact Int64.toInt_ofInt_of_le (by omega) (by omega)
    next => cases h
  · rintro rfl
    have hlow := w.le_toInt
    have hhigh := w.toInt_lt
    rw [if_pos (by simp; omega), Int64.ofInt_toInt]

theorem ofInt?_eq_none_iff : ofInt? x = none ↔ ∀ w : Word, w.toInt ≠ x := by
  rw [Option.eq_none_iff_forall_ne_some]
  exact forall_congr' fun w => not_congr ofInt?_eq_some_iff

/-- An integer between two words is a word. -/
theorem exists_of_between {v : Word} (hlow : v.toInt ≤ x) (hhigh : x ≤ w.toInt) :
    ∃ u : Word, u.toInt = x := by
  have hleast := v.le_toInt
  have hgreatest := w.toInt_lt
  exact ⟨Int64.ofInt x, Int64.toInt_ofInt_of_le (by omega) (by omega)⟩

/-- The absolute value of a word is at most that of the least one. -/
theorem natAbs_toInt_le (w : Word) : w.toInt.natAbs ≤ 9223372036854775808 := by
  have hlow := w.le_toInt
  have hhigh := w.toInt_lt
  omega

end PairScript.Word
