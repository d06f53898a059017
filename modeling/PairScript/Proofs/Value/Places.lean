import PairScript.Value.Basic

/-!
# Places in values

A place in a value is given by the slots that lead to it.  With it one can say where two values
differ, and which of their pairs they share:

* `Value.hasNaN` says whether a NaN stands anywhere in a value;
* `Value.Coherent` says that two values have their pairs from one heap, so that pairs of one number
  are one pair;
* `Value.IsCopy` and `Value.Apart` are about copies: the same value made of other pairs.
-/

namespace PairScript.Value

/-- One of the two slots of a pair. -/
inductive Slot where
  | head
  | tail
deriving Repr, DecidableEq

/-- What a slot of a value holds; only pairs have slots. -/
def slot? : Slot → Value → Option Value
  | .head => head?
  | .tail => tail?

/-- What stands at a place of a value. -/
def at? : List Slot → Value → Option Value
  | [], v => some v
  | slot :: place, v => (v.slot? slot).bind (at? place)

variable {a b v w : Value} {place : List Slot} {cell cell' : CellId} {h h' t t' : Value}

@[simp] theorem at?_nil : v.at? [] = some v := rfl

@[simp] theorem at?_head : (pair cell h t).at? (.head :: place) = h.at? place := rfl

@[simp] theorem at?_tail : (pair cell h t).at? (.tail :: place) = t.at? place := rfl

/-- Nothing stands inside a value that is not a pair. -/
theorem at?_eq_some_of_not_pair (hv : v.head? = none) :
    v.at? place = some w ↔ place = [] ∧ w = v := by
  cases place with
  | nil => simp [eq_comm]
  | cons slot place =>
    cases v with
    | pair cell h t => cases hv
    | _ => cases slot <;> simp [at?, slot?, head?, tail?]

/-! ### NaN -/

/-- Whether a NaN stands in a value. -/
def hasNaN : Value → Bool
  | .float x => x.isNaN
  | .pair _ head tail => head.hasNaN || tail.hasNaN
  | _ => false

/-- A value has the NaN that its parts have. -/
theorem hasNaN_of_at? (hw : v.at? place = some w) (hnan : w.hasNaN = true) : v.hasNaN = true := by
  induction place generalizing v with
  | nil =>
    cases hw
    exact hnan
  | cons slot place ih =>
    cases v with
    | pair cell h t =>
      cases slot with
      | head => exact Bool.or_eq_true_iff.2 (.inl (ih hw))
      | tail => exact Bool.or_eq_true_iff.2 (.inr (ih hw))
    | _ => cases slot <;> cases hw

/-! ### Pairs of one heap -/

/-- Two values have their pairs from one heap: wherever they have pairs of one number, these have
the same slots. -/
def Coherent (a b : Value) : Prop :=
  ∀ place place' cell h t h' t', a.at? place = some (pair cell h t) →
    b.at? place' = some (pair cell h' t') → h = h' ∧ t = t'

theorem Coherent.head (hab : Coherent (pair cell h t) (pair cell' h' t')) : Coherent h h' :=
  fun place place' => hab (.head :: place) (.head :: place')

theorem Coherent.tail (hab : Coherent (pair cell h t) (pair cell' h' t')) : Coherent t t' :=
  fun place place' => hab (.tail :: place) (.tail :: place')

/-- Two pairs of one number are one pair. -/
theorem Coherent.eq (hab : Coherent (pair cell h t) (pair cell h' t')) : h = h' ∧ t = t' :=
  hab [] [] cell h t h' t' at?_nil at?_nil

/-- Every pair in a value is the one that `made` lists under its number. -/
def Recorded (made : List (Value × Value)) : Value → Prop
  | .pair cell head tail =>
    made[cell]? = some (head, tail) ∧ head.Recorded made ∧ tail.Recorded made
  | _ => True

theorem Recorded.at? {made : List (Value × Value)} (hv : v.Recorded made)
    (hw : v.at? place = some w) : w.Recorded made := by
  induction place generalizing v with
  | nil =>
    cases hw
    exact hv
  | cons slot place ih =>
    cases v with
    | pair cell h t =>
      cases slot with
      | head => exact ih hv.2.1 hw
      | tail => exact ih hv.2.2 hw
    | _ => cases slot <;> cases hw

/-- Listing more pairs takes none off the list. -/
theorem Recorded.later {made made' : List (Value × Value)} (h : v.Recorded made)
    (hmade : made <+: made') : v.Recorded made' := by
  obtain ⟨new, rfl⟩ := hmade
  induction v with
  | pair cell head tail ihh iht =>
    obtain ⟨hcell, hhead, htail⟩ := h
    have hlt := (List.getElem?_eq_some_iff.1 hcell).1
    exact ⟨(List.getElem?_append_left hlt).trans hcell, ihh hhead, iht htail⟩
  | _ => trivial

/-- A pair that is listed next. -/
theorem recorded_pair {made : List (Value × Value)} (hh : h.Recorded made) (ht : t.Recorded made) :
    (pair made.length h t).Recorded (made ++ [(h, t)]) := by
  have hmade := List.prefix_append made [(h, t)]
  exact ⟨List.getElem?_concat_length, hh.later hmade, ht.later hmade⟩

/-- The pairs of a chain are listed one after the other. -/
theorem recorded_chainOnto {made : List (Value × Value)} {tail : Value} {reversed : List Value}
    (htail : tail.Recorded made) (hitems : ∀ v ∈ reversed, v.Recorded made) :
    ∃ new, new.length = reversed.length ∧
      (chainOnto made.length tail reversed).Recorded (made ++ new) := by
  induction reversed generalizing made tail with
  | nil => exact ⟨[], rfl, by simpa [chainOnto] using htail⟩
  | cons v vs ih =>
    obtain ⟨hv, hvs⟩ := List.forall_mem_cons.1 hitems
    have hmade := List.prefix_append made [(v, tail)]
    obtain ⟨new, hnew, hchain⟩ := ih (recorded_pair hv htail) fun w hw => (hvs w hw).later hmade
    refine ⟨(v, tail) :: new, by simp [hnew], ?_⟩
    rw [List.length_append, List.length_singleton] at hchain
    simpa [chainOnto] using hchain

/-- Values whose pairs are on one list have them from one heap. -/
theorem Recorded.coherent {made : List (Value × Value)} (ha : a.Recorded made)
    (hb : b.Recorded made) : Coherent a b := by
  intro place place' cell h t h' t' hat hat'
  have hfirst := (ha.at? hat).1
  have hsecond := (hb.at? hat').1
  rw [hfirst] at hsecond
  cases hsecond
  exact ⟨rfl, rfl⟩

/-! ### Copies -/

/-- The numbers of the pairs that a value is made of. -/
def cells : Value → List CellId
  | .pair cell head tail => cell :: (head.cells ++ tail.cells)
  | _ => []

/-- The value made of pairs of other numbers. -/
def renumber (number : CellId → CellId) : Value → Value
  | .pair cell head tail => .pair (number cell) (head.renumber number) (tail.renumber number)
  | v => v

/-- Two values are the same but for the pairs that they are made of. -/
def IsCopy (a b : Value) : Prop := a.renumber (fun _ => 0) = b.renumber fun _ => 0

/-- Two values share no pair. -/
def Apart (a b : Value) : Prop := ∀ cell ∈ a.cells, cell ∉ b.cells

theorem IsCopy.refl (a : Value) : IsCopy a a := rfl

theorem isCopy_renumber (number : CellId → CellId) (v : Value) : IsCopy (v.renumber number) v := by
  unfold IsCopy
  induction v with
  | pair cell h t ihh iht => simp only [renumber, ihh, iht]
  | _ => rfl

theorem cells_renumber (number : CellId → CellId) (v : Value) :
    (v.renumber number).cells = v.cells.map number := by
  induction v with
  | pair cell h t ihh iht => simp only [renumber, cells, ihh, iht, List.map_cons, List.map_append]
  | _ => rfl

/-- Any two values have copies that share no pair. -/
theorem exists_apart_copies (a b : Value) :
    ∃ a' b', IsCopy a' a ∧ IsCopy b' b ∧ Apart a' b' := by
  refine ⟨a.renumber (2 * ·), b.renumber (2 * · + 1), isCopy_renumber _ a, isCopy_renumber _ b, ?_⟩
  intro cell ha hb
  rw [cells_renumber, List.mem_map] at ha hb
  obtain ⟨(m : Nat), -, rfl⟩ := ha
  obtain ⟨(n : Nat), -, (hn : (2 * n + 1 : Nat) = 2 * m)⟩ := hb
  omega

theorem Apart.head (hab : Apart (pair cell h t) (pair cell' h' t')) : Apart h h' :=
  fun c hc hc' => hab c (List.mem_cons_of_mem _ (List.mem_append_left _ hc))
    (List.mem_cons_of_mem _ (List.mem_append_left _ hc'))

theorem Apart.tail (hab : Apart (pair cell h t) (pair cell' h' t')) : Apart t t' :=
  fun c hc hc' => hab c (List.mem_cons_of_mem _ (List.mem_append_right _ hc))
    (List.mem_cons_of_mem _ (List.mem_append_right _ hc'))

theorem Apart.ne (hab : Apart (pair cell h t) (pair cell' h' t')) : cell ≠ cell' := by
  rintro rfl
  exact hab cell List.mem_cons_self List.mem_cons_self

end PairScript.Value
