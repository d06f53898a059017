import PairScript.Program
import PairScript.Proofs.Number.Exact
import PairScript.Proofs.Value.Places
import PairScript.Value.Equality

/-!
# The laws of equality

Equality takes two occurrences of one pair for equal without a look inside, and an integer for
equal to the float that it rounds to.  `Value.alike` is the plain comparison, element by element,
for which it makes no difference which pairs values share.  The values that a program comes across
have their pairs from one heap (`Coherent`), which `PairScript.Proofs.Eval.Pairs` shows.

* Equality is symmetric, and reflexive on values without NaN (`equal_symmetric_reflexive`).
* Two values are alike if they are equal and no pair that they share holds a NaN
  (`sharing_matters_only_to_nan`).
* Equality is transitive but at places where two different integers round to a float between them,
  which takes an integer beyond `2 ^ 53` (`equal_trans_unless_straddled`).
-/

namespace PairScript.Value

/-- Whether two values are alike, compared element by element whatever pairs they are made of. -/
def alike : Value → Value → Bool
  | .null, .null => true
  | .bool a, .bool b => a == b
  | .int a, .int b => a == b
  | .float a, .float b => a == b
  | .int a, .float b => a.toFloat == b
  | .float a, .int b => b.toFloat == a
  | .str a, .str b => a == b
  | .empty, .empty => true
  | .pair _ h t, .pair _ h' t' => alike h h' && alike t t'
  | .primitive p, .primitive q => p == q
  | .closure f, .closure g => f.id == g.id
  | _, _ => false

variable {a b c v w : Value} {place : List Slot} {cell cell' cell'' : CellId}
  {h h' h'' t t' t'' : Value}

theorem equal_pair : (pair cell h t).equal (pair cell' h' t') = true ↔
    cell = cell' ∨ h.equal h' = true ∧ t.equal t' = true := by
  simp only [equal]
  grind

theorem alike_pair : (pair cell h t).alike (pair cell' h' t') = true ↔
    h.alike h' = true ∧ t.alike t' = true := by
  simp only [alike, Bool.and_eq_true]

/-- Values that are no pairs have no pairs to share. -/
theorem equal_eq_alike_of_not_pair (ha : a.head? = none) : a.equal b = a.alike b := by
  cases a with
  | pair cell h t => cases ha
  | _ => cases b <;> rfl

/-! ### Symmetry and reflexivity -/

theorem equal_comm (a b : Value) : a.equal b = b.equal a := by
  induction a generalizing b with
  | pair cell h t ihh iht =>
    cases b with
    | pair cell' h' t' =>
      rw [Bool.eq_iff_iff, equal_pair, equal_pair, ihh, iht, eq_comm]
    | _ => rfl
  | bool | int | float | str | primitive | closure => cases b <;> first | rfl | exact BEq.comm
  | null | empty => cases b <;> rfl

theorem float_beq_self (x : Float) : (x == x) = !x.isNaN := by
  rw [Bool.eq_iff_iff, Float.beq_self_iff, Float.isNaN_eq_decide_eq_nan]
  simp

theorem alike_self : v.alike v = !v.hasNaN := by
  induction v with
  | pair cell h t ihh iht => simp only [alike, hasNaN, ihh, iht, Bool.not_or]
  | float x => exact float_beq_self x
  | _ => simp [alike, hasNaN]

/-! ### Alike and equal -/

theorem equal_of_alike (hab : a.alike b = true) : a.equal b = true := by
  induction a generalizing b with
  | pair cell h t ihh iht =>
    cases b with
    | pair cell' h' t' =>
      obtain ⟨hh, ht⟩ := alike_pair.1 hab
      exact equal_pair.2 (.inr ⟨ihh hh, iht ht⟩)
    | _ => cases hab
  | _ => exact (equal_eq_alike_of_not_pair rfl).trans hab

theorem alike_renumber (f g : CellId → CellId) (a b : Value) :
    (a.renumber f).alike (b.renumber g) = a.alike b := by
  induction a generalizing b with
  | pair cell h t ihh iht =>
    cases b with
    | pair cell' h' t' => simp only [renumber, alike, ihh, iht]
    | _ => rfl
  | _ => cases b <;> rfl

/-- Copies are alike where the values are. -/
theorem IsCopy.alike {a' b' : Value} (ha : IsCopy a' a) (hb : IsCopy b' b) :
    a'.alike b' = a.alike b := by
  rw [← alike_renumber (fun _ => 0) (fun _ => 0) a', ha, hb, alike_renumber]

/-- **Equality is symmetric, and reflexive on values without NaN**, also where such a value is
compared with a copy of itself. -/
theorem equal_symmetric_reflexive :
    (∀ a b : Value, a.equal b = b.equal a) ∧
      ∀ a : Value, a.hasNaN = false →
        a.equal a = true ∧ ∀ a', IsCopy a' a → a'.equal a = true := by
  refine ⟨equal_comm, fun a hnan => ?_⟩
  have hself : a.alike a = true := by rw [alike_self, hnan, Bool.not_false]
  refine ⟨equal_of_alike hself, fun a' hcopy => equal_of_alike ?_⟩
  rw [hcopy.alike (IsCopy.refl a), hself]

/-- An improper list with a list in it: `1`, `true` before `2.5`, and a function at the end. -/
def mixedChain (first second third : CellId) : Value :=
  .pair first (.int 1) (.pair second (.pair third (.bool true) (.float 2.5)) (.primitive .print))

theorem mixedChain_equal :
    (mixedChain 0 1 2).equal (mixedChain 0 1 2) = true ∧
      (mixedChain 3 4 5).equal (mixedChain 0 1 2) = true := by
  have hnan : (mixedChain 0 1 2).hasNaN = false := by decide +kernel
  obtain ⟨hself, hcopies⟩ := equal_symmetric_reflexive.2 (mixedChain 0 1 2) hnan
  exact ⟨hself, hcopies (mixedChain 3 4 5) rfl⟩

theorem equal_eq_alike_of_apart (hab : Apart a b) : a.equal b = a.alike b := by
  induction a generalizing b with
  | pair cell h t ihh iht =>
    cases b with
    | pair cell' h' t' =>
      rw [Bool.eq_iff_iff, equal_pair, alike_pair, ihh hab.head, iht hab.tail]
      exact or_iff_right hab.ne
    | _ => rfl
  | _ => exact equal_eq_alike_of_not_pair rfl

/-- What stands at one place of two values that are alike is alike. -/
theorem alike_at (hab : a.alike b = true) (hv : a.at? place = some v)
    (hw : b.at? place = some w) : v.alike w = true := by
  induction place generalizing a b with
  | nil =>
    cases hv
    cases hw
    exact hab
  | cons slot place ih =>
    cases a with
    | pair cell h t =>
      cases b with
      | pair cell' h' t' =>
        obtain ⟨hh, ht⟩ := alike_pair.1 hab
        cases slot with
        | head => exact ih hh hv hw
        | tail => exact ih ht hv hw
      | _ => cases hab
    | _ => cases slot <;> cases hv

/-! ### Sharing -/

/-- At some place two values share a pair in which a NaN stands. -/
def SharesNaN (a b : Value) : Prop :=
  ∃ place cell h t, a.at? place = some (pair cell h t) ∧ b.at? place = some (pair cell h t) ∧
    (pair cell h t).hasNaN = true

theorem SharesNaN.head (hh : SharesNaN h h') : SharesNaN (pair cell h t) (pair cell' h' t') := by
  obtain ⟨place, rest⟩ := hh
  exact ⟨.head :: place, rest⟩

theorem SharesNaN.tail (ht : SharesNaN t t') : SharesNaN (pair cell h t) (pair cell' h' t') := by
  obtain ⟨place, rest⟩ := ht
  exact ⟨.tail :: place, rest⟩

theorem SharesNaN.hasNaN (hab : SharesNaN a b) : a.hasNaN = true ∧ b.hasNaN = true := by
  obtain ⟨place, cell, h, t, ha, hb, hp⟩ := hab
  exact ⟨hasNaN_of_at? ha hp, hasNaN_of_at? hb hp⟩

/-- Being alike is being equal without a shared NaN. -/
theorem alike_iff (hab : Coherent a b) :
    a.alike b = true ↔ a.equal b = true ∧ ¬ SharesNaN a b := by
  constructor
  · intro h
    refine ⟨equal_of_alike h, ?_⟩
    rintro ⟨place, cell, head, tail, ha, hb, hnan⟩
    have hself := alike_at h ha hb
    rw [alike_self, hnan] at hself
    cases hself
  · rintro ⟨h, hshares⟩
    induction a generalizing b with
    | pair cell head tail ihh iht =>
      cases b with
      | pair cell' head' tail' =>
        rcases equal_pair.1 h with rfl | ⟨hh, ht⟩
        · obtain ⟨rfl, rfl⟩ := hab.eq
          rw [alike_self, Bool.not_eq_true', ← Bool.not_eq_true]
          exact fun hnan => hshares ⟨[], cell, head, tail, at?_nil, at?_nil, hnan⟩
        · refine alike_pair.2 ⟨ihh hab.head hh ?_, iht hab.tail ht ?_⟩
          · exact fun hn => hshares hn.head
          · exact fun hn => hshares hn.tail
      | _ => cases h
    | _ => exact (equal_eq_alike_of_not_pair rfl).symm.trans h

/-- **Sharing makes a difference only to NaN.**  Any two values have copies that share no pair, and
all such copies compare element by element; so do the values themselves, unless they share a pair
in which a NaN stands. -/
theorem sharing_matters_only_to_nan (hab : Coherent a b) :
    (∃ a' b', IsCopy a' a ∧ IsCopy b' b ∧ Apart a' b') ∧
      (∀ a' b', IsCopy a' a → IsCopy b' b → Apart a' b' → a'.equal b' = a.alike b) ∧
      (a.alike b = true ↔ a.equal b = true ∧ ¬ SharesNaN a b) ∧
      (a.hasNaN = false ∨ b.hasNaN = false → a.equal b = a.alike b) := by
  refine ⟨exists_apart_copies a b, fun a' b' ha hb hapart => ?_, alike_iff hab, fun hnan => ?_⟩
  · rw [equal_eq_alike_of_apart hapart, ha.alike hb]
  · have hshares : ¬ SharesNaN a b := by
      intro hshares
      simp [hshares.hasNaN] at hnan
    rw [Bool.eq_iff_iff, alike_iff hab, and_iff_left hshares]

/-- The list of one value. -/
def single (cell : CellId) (v : Value) : Value := .pair cell v .empty

/-- The list of one NaN. -/
def nanList (cell : CellId) : Value := single cell (.float (0.0 / 0.0))

/-- A list of a NaN, and lists that end in it. -/
def nanCells : List (Value × Value) :=
  [(.float (0.0 / 0.0), .empty), (.int 1, nanList 0), (.float 1.0, nanList 0)]

theorem nanTail_equal_by_sharing :
    (Value.pair 1 (.int 1) (nanList 0)).equal (.pair 2 (.float 1.0) (nanList 0)) = true ∧
      (Value.pair 1 (.int 1) (nanList 0)).alike (.pair 2 (.float 1.0) (nanList 0)) = false ∧
      SharesNaN (.pair 1 (.int 1) (nanList 0)) (.pair 2 (.float 1.0) (nanList 0)) := by
  have hrest : (nanList 0).Recorded nanCells := ⟨rfl, trivial, trivial⟩
  have hleft : (Value.pair 1 (.int 1) (nanList 0)).Recorded nanCells := ⟨rfl, trivial, hrest⟩
  have hright : (Value.pair 2 (.float 1.0) (nanList 0)).Recorded nanCells := ⟨rfl, trivial, hrest⟩
  have hequal : (Value.pair 1 (.int 1) (nanList 0)).equal (.pair 2 (.float 1.0) (nanList 0)) =
      true := by decide +kernel
  have halike : (Value.pair 1 (.int 1) (nanList 0)).alike (.pair 2 (.float 1.0) (nanList 0)) =
      false := by decide +kernel
  obtain ⟨-, -, hiff, -⟩ := sharing_matters_only_to_nan (hleft.coherent hright)
  refine ⟨hequal, halike, ?_⟩
  by_contra hshares
  rw [hiff.2 ⟨hequal, hshares⟩] at halike
  cases halike

/-- **A list of a NaN equals itself and no copy of itself.** -/
theorem nanList_equals_only_itself :
    Coherent (nanList 0) (nanList 0) ∧ IsCopy (nanList 1) (nanList 0) ∧
      Apart (nanList 1) (nanList 0) ∧ (nanList 0).equal (nanList 0) = true ∧
      (nanList 1).equal (nanList 0) = false ∧ (nanList 0).alike (nanList 0) = false ∧
      (runSource ("var i = 99999999999999999999.0\nvar j = i * i * i * i\n" ++
        "var k = j * j * j * j\nvar p = [k - k]\np == p")
        (Machine.start (.ofInput []) defaultLimit)).1.toOption.map Value.text = some "true" := by
  have hrecorded : (nanList 0).Recorded nanCells := ⟨rfl, trivial, trivial⟩
  refine ⟨hrecorded.coherent hrecorded, rfl, ?_, ?_⟩
  · simp [Apart, nanList, single, cells]
  · decide +kernel

/-! ### Transitivity -/

/-- At some place two values have different integers, and a third one a float. -/
def Straddles (a b c : Value) : Prop :=
  ∃ place m x n, a.at? place = some (int m) ∧ b.at? place = some (float x) ∧
    c.at? place = some (int n) ∧ m ≠ n

theorem straddles_pair :
    Straddles (pair cell h t) (pair cell' h' t') (pair cell'' h'' t'') ↔
      Straddles h h' h'' ∨ Straddles t t' t'' := by
  constructor
  · rintro ⟨place, m, x, n, ha, hb, hc, hne⟩
    cases place with
    | nil => cases ha
    | cons slot place =>
      cases slot with
      | head => exact .inl ⟨place, m, x, n, ha, hb, hc, hne⟩
      | tail => exact .inr ⟨place, m, x, n, ha, hb, hc, hne⟩
  · rintro (⟨place, rest⟩ | ⟨place, rest⟩)
    · exact ⟨.head :: place, rest⟩
    · exact ⟨.tail :: place, rest⟩

/-- Values do not straddle a value that has the same integers as one of them. -/
theorem not_straddles_left : ¬ Straddles a a c := by
  rintro ⟨place, m, x, n, ha, hb, -, -⟩
  cases ha.symm.trans hb

theorem not_straddles_right : ¬ Straddles a c c := by
  rintro ⟨place, m, x, n, -, hb, hc, -⟩
  cases hb.symm.trans hc

theorem not_straddles_self : ¬ Straddles a b a := by
  rintro ⟨place, m, x, n, ha, -, hc, hne⟩
  cases ha.symm.trans hc
  exact hne rfl

theorem straddles_of_not_pair (ha : a.head? = none) :
    Straddles a b c ↔ ∃ m x n, a = int m ∧ b = float x ∧ c = int n ∧ m ≠ n := by
  constructor
  · rintro ⟨place, m, x, n, hm, hx, hn, hne⟩
    obtain ⟨rfl, rfl⟩ := (at?_eq_some_of_not_pair ha).1 hm
    cases hx
    cases hn
    exact ⟨m, x, n, rfl, rfl, rfl, hne⟩
  · rintro ⟨m, x, n, rfl, rfl, rfl, hne⟩
    exact ⟨[], m, x, n, at?_nil, at?_nil, at?_nil, hne⟩

/-- Of three values that are no pairs, a float in the middle is what two integers may straddle. -/
theorem equal_trans_iff_of_not_pair (ha : a.head? = none) (h₁ : a.equal b = true)
    (h₂ : b.equal c = true) : a.equal c = true ↔ ¬ Straddles a b c := by
  rw [straddles_of_not_pair ha]
  cases b with
  | int k =>
    refine iff_of_true ?_ (by simp)
    cases a with
    | int m =>
      obtain rfl : m = k := beq_iff_eq.1 h₁
      exact h₂
    | float y =>
      cases c with
      | int n =>
        obtain rfl : k = n := beq_iff_eq.1 h₂
        exact h₁
      | float z => exact BEq.trans (BEq.symm h₁) h₂
      | _ => cases h₂
    | _ => cases h₁
  | float x =>
    cases a with
    | int m =>
      cases c with
      | int n => simp [equal]
      | float z => exact iff_of_true (BEq.trans h₁ h₂) (by simp)
      | _ => cases h₂
    | float y =>
      refine iff_of_true ?_ (by simp)
      cases c with
      | int n => exact BEq.trans h₂ (BEq.symm h₁)
      | float z => exact BEq.trans h₁ h₂
      | _ => cases h₂
    | _ => cases h₁
  | bool | str | primitive =>
    refine iff_of_true ?_ (by simp)
    cases a <;> first | cases h₁ | (simp only [equal, beq_iff_eq] at h₁; rwa [h₁])
  | closure g =>
    refine iff_of_true ?_ (by simp)
    cases a with
    | closure f =>
      cases c with
      | closure e => exact beq_iff_eq.2 ((beq_iff_eq.1 h₁).trans (beq_iff_eq.1 h₂))
      | _ => cases h₂
    | _ => cases h₁
  | null | empty =>
    refine iff_of_true ?_ (by simp)
    cases a <;> first | exact h₂ | cases h₁
  | pair => cases a <;> first | cases h₁ | cases ha

theorem equal_trans_iff (hab : Coherent a b) (hbc : Coherent b c) (hac : Coherent a c)
    (h₁ : a.equal b = true) (h₂ : b.equal c = true) :
    a.equal c = true ↔ ¬ Straddles a b c := by
  induction a generalizing b c with
  | pair cell h t ihh iht =>
    cases b with
    | pair cell' h' t' =>
      cases c with
      | pair cell'' h'' t'' =>
        rw [equal_pair] at h₁ h₂ ⊢
        by_cases hcell : cell = cell''
        · subst hcell
          obtain ⟨rfl, rfl⟩ := hac.eq
          exact iff_of_true (.inl rfl) not_straddles_self
        rcases h₁ with rfl | ⟨hh₁, ht₁⟩
        · obtain ⟨rfl, rfl⟩ := hab.eq
          exact iff_of_true h₂ not_straddles_left
        rcases h₂ with rfl | ⟨hh₂, ht₂⟩
        · obtain ⟨rfl, rfl⟩ := hbc.eq
          exact iff_of_true (.inr ⟨hh₁, ht₁⟩) not_straddles_right
        · rw [or_iff_right hcell, straddles_pair, not_or,
            ihh hab.head hbc.head hac.head hh₁ hh₂, iht hab.tail hbc.tail hac.tail ht₁ ht₂]
      | _ => cases h₂
    | _ => cases h₁
  | _ => exact equal_trans_iff_of_not_pair rfl h₁ h₂

/-- What stands at one place of two equal values is equal, or stands in a pair that they share. -/
theorem equal_at (hab : Coherent a b) (h : a.equal b = true) (hv : a.at? place = some v)
    (hw : b.at? place = some w) : v = w ∨ v.equal w = true := by
  induction place generalizing a b with
  | nil =>
    cases hv
    cases hw
    exact .inr h
  | cons slot place ih =>
    cases a with
    | pair cell head tail =>
      cases b with
      | pair cell' head' tail' =>
        rcases equal_pair.1 h with rfl | ⟨hh, ht⟩
        · obtain ⟨rfl, rfl⟩ := hab.eq
          exact .inl (Option.some_inj.1 (hv.symm.trans hw))
        · cases slot with
          | head => exact ih hab.head hh hv hw
          | tail => exact ih hab.tail ht hv hw
      | _ => cases h
    | _ => cases slot <;> cases hv

/-- **Equality is transitive but for integers that round to one float.**  Where `a` equals `b` and
`b` equals `c`, `a` differs from `c` just if they have different integers at some place where `b`
has a float.  Both integers round to that float, and one of them is too long for a float. -/
theorem equal_trans_unless_straddled (hab : Coherent a b) (hbc : Coherent b c)
    (hac : Coherent a c) (h₁ : a.equal b = true) (h₂ : b.equal c = true) :
    (a.equal c = true ↔ ¬ Straddles a b c) ∧
      ∀ place m x n, a.at? place = some (int m) → b.at? place = some (float x) →
        c.at? place = some (int n) → m ≠ n →
        (m.toFloat == x) = true ∧ (n.toFloat == x) = true ∧
          (2 ^ 53 < m.toInt.natAbs ∨ 2 ^ 53 < n.toInt.natAbs) := by
  refine ⟨equal_trans_iff hab hbc hac h₁ h₂, fun place m x n hm hx hn hne => ?_⟩
  have hleft : (m.toFloat == x) = true :=
    (equal_at hab h₁ hm hx).resolve_left (by simp)
  have hright : (n.toFloat == x) = true :=
    (equal_at hbc h₂ hx hn).resolve_left (by simp)
  refine ⟨hleft, hright, ?_⟩
  by_contra hsmall
  rw [not_or, Nat.not_lt, Nat.not_lt] at hsmall
  exact hne (Word.eq_of_toFloat_beq hsmall.1 hsmall.2 (BEq.trans hleft (BEq.symm hright)))

/-- Lists of `2 ^ 53`, of the same as a float, and of the next integer. -/
def roundedCells : List (Value × Value) :=
  [(.int 9007199254740992, .empty), (.float 9007199254740992.0, .empty),
    (.int 9007199254740993, .empty)]

theorem roundedLists_straddle :
    (single 0 (.int 9007199254740992)).equal (single 1 (.float 9007199254740992.0)) = true ∧
      (single 1 (.float 9007199254740992.0)).equal (single 2 (.int 9007199254740993)) = true ∧
      (single 0 (.int 9007199254740992)).equal (single 2 (.int 9007199254740993)) = false := by
  have hfirst : (single 0 (.int 9007199254740992)).Recorded roundedCells :=
    ⟨rfl, trivial, trivial⟩
  have hsecond : (single 1 (.float 9007199254740992.0)).Recorded roundedCells :=
    ⟨rfl, trivial, trivial⟩
  have hthird : (single 2 (.int 9007199254740993)).Recorded roundedCells :=
    ⟨rfl, trivial, trivial⟩
  have h₁ : (single 0 (.int 9007199254740992)).equal (single 1 (.float 9007199254740992.0)) =
      true := by decide +kernel
  have h₂ : (single 1 (.float 9007199254740992.0)).equal (single 2 (.int 9007199254740993)) =
      true := by decide +kernel
  have hstraddles : Straddles (single 0 (.int 9007199254740992))
      (single 1 (.float 9007199254740992.0)) (single 2 (.int 9007199254740993)) :=
    ⟨[.head], _, _, _, rfl, rfl, rfl, by decide⟩
  obtain ⟨htrans, -⟩ := equal_trans_unless_straddled (hfirst.coherent hsecond)
    (hsecond.coherent hthird) (hfirst.coherent hthird) h₁ h₂
  exact ⟨h₁, h₂, Bool.eq_false_iff.2 fun h => htrans.1 h hstraddles⟩

/-- **Equality is not transitive on all integers.**  `2 ^ 53 + 1` rounds to `2 ^ 53`. -/
theorem roundedInteger_not_trans :
    (int 9007199254740992).hasNaN = false ∧ (float 9007199254740992.0).hasNaN = false ∧
      (int 9007199254740993).hasNaN = false ∧
      (int 9007199254740992).equal (float 9007199254740992.0) = true ∧
      (float 9007199254740992.0).equal (int 9007199254740993) = true ∧
      (int 9007199254740992).equal (int 9007199254740993) = false ∧
      (runSource ("[9007199254740992 == 9007199254740992.0, " ++
        "9007199254740992.0 == 9007199254740993, 9007199254740992 == 9007199254740993]")
        (Machine.start (.ofInput []) defaultLimit)).1.toOption.map Value.text =
        some "[true, true, false]" := by
  decide +kernel

end PairScript.Value
