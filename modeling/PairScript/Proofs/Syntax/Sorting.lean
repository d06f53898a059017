import Mathlib.Logic.Equiv.Basic
import PairScript.Syntax.Precedence

/-!
# Sorting moves operators back

`Item.postOrder` takes any list of items, also those that no expression gives rise to: operators
may stand at the front, follow one another, or have symbols that are in no table.  Whatever the
levels are, all that sorting does is to move operators back past items that follow them
(`Delays`).  So every item goes out once, and an operand is never overtaken by what follows it.

A list may have an item more than once.  What becomes of its items is therefore told by positions:
a permutation of positions says where each item goes.
-/

namespace PairScript.Item

/-- Whether an item is a finished subtree. -/
def isOperand : Item → Bool
  | .operand _ => true
  | .operator _ _ _ => false

/-! ### Moving operators back -/

/-- The second list is the first one with operators moved back, each step past one item. -/
inductive Delays : List Item → List Item → Prop
  | refl (items : List Item) : Delays items items
  | step (front back : List Item) {sorted : List Item} {operator item : Item}
      (moved : operator.isOperand = false)
      (others : Delays (front ++ item :: operator :: back) sorted) :
      Delays (front ++ operator :: item :: back) sorted

namespace Delays

variable {items items' sorted : List Item}

theorem trans (h : Delays items items') (h' : Delays items' sorted) : Delays items sorted := by
  induction h with
  | refl => exact h'
  | step front back moved _ ih => exact .step front back moved (ih h')

/-- What stands around the items does not matter. -/
theorem within (h : Delays items items') (front back : List Item) :
    Delays (front ++ items ++ back) (front ++ items' ++ back) := by
  induction h with
  | refl items => exact .refl _
  | @step front' back' sorted operator item moved _ ih =>
    have hothers : Delays ((front ++ front') ++ item :: operator :: (back' ++ back))
        (front ++ sorted ++ back) := by simpa using ih
    simpa using Delays.step _ _ moved hothers

/-- An item goes past any number of operators. -/
theorem past {operators : List Item} (h : ∀ i ∈ operators, i.isOperand = false) (item : Item) :
    Delays (operators ++ [item]) (item :: operators) := by
  induction operators with
  | nil => exact .refl _
  | cons operator operators ih =>
    obtain ⟨hoperator, hothers⟩ := List.forall_mem_cons.1 h
    have hpast := (ih hothers).within [operator] []
    simp only [List.append_nil] at hpast
    exact hpast.trans (.step [] operators hoperator (.refl _))

theorem perm (h : Delays items sorted) : sorted.Perm items := by
  induction h with
  | refl => exact .refl _
  | step front back _ _ ih => exact ih.trans ((List.Perm.swap _ _ _).append_left _)

end Delays

/-! ### Positions -/

/-- The items of the first list stand in the second one where `place` says, and an operand still
stands before all that it stood before. -/
structure Places (items sorted : List Item) (place : Equiv.Perm ℕ) : Prop where
  kept : ∀ i, sorted[place i]? = items[i]?
  ordered : ∀ {i j : ℕ} {node : Node}, i < j → items[i]? = some (.operand node) → place i < place j

namespace Places

variable {items items' sorted : List Item}

theorem refl (items : List Item) : Places items items (Equiv.refl ℕ) :=
  ⟨fun _ => rfl, fun h _ => h⟩

theorem trans {p q : Equiv.Perm ℕ} (h : Places items items' p) (h' : Places items' sorted q) :
    Places items sorted (p.trans q) := by
  refine ⟨fun i => (h'.kept (p i)).trans (h.kept i), fun hij hoperand => ?_⟩
  exact h'.ordered (h.ordered hij hoperand) ((h.kept _).trans hoperand)

/-- One operator goes past one item. -/
theorem step {front back : List Item} {operator item : Item} (h : operator.isOperand = false) :
    Places (front ++ operator :: item :: back) (front ++ item :: operator :: back)
      (Equiv.swap front.length (front.length + 1)) := by
  constructor
  · intro i
    rw [Equiv.swap_apply_def]
    split
    next hi => simp [hi]
    next =>
      split
      next hi => simp [hi]
      next =>
        rcases Nat.lt_or_ge i front.length with hi | hi
        · rw [List.getElem?_append_left hi, List.getElem?_append_left hi]
        · obtain ⟨k, rfl⟩ : ∃ k, i = front.length + (k + 2) := ⟨i - front.length - 2, by omega⟩
          simp [List.getElem?_append_right]
  · intro i j node hij hoperand
    have hi : i ≠ front.length := by
      rintro rfl
      rw [List.getElem?_append_right (Nat.le_refl _), Nat.sub_self, List.getElem?_cons_zero,
        Option.some.injEq] at hoperand
      rw [hoperand] at h
      cases h
    rw [Equiv.swap_apply_def, Equiv.swap_apply_def, if_neg hi]
    repeat' split
    all_goals omega

end Places

theorem Delays.places {items sorted : List Item} (h : Delays items sorted) :
    ∃ place, Places items sorted place := by
  induction h with
  | refl items => exact ⟨_, .refl items⟩
  | step front back moved _ ih =>
    obtain ⟨place, hplace⟩ := ih
    exact ⟨_, (Places.step moved).trans hplace⟩

/-! ### Sorting -/

namespace Sorting

variable {s : Sorting} {i : Item}

/-- Operators that go out stay where they are. -/
theorem finish_release (yields : Item → Bool) : (s.release yields).finish = s.finish := by
  simp [release, finish, List.takeWhile_append_dropWhile]

/-- An item that is sent out goes past the waiting operators, and so does one that is made to
wait. -/
theorem delays_emit (h : ∀ w ∈ s.waiting, w.isOperand = false) :
    Delays (s.finish ++ [i]) (s.emit i).finish := by
  have hpast := (Delays.past h i).within s.out.reverse []
  simpa [finish, emit] using hpast

theorem delays_hold (h : ∀ w ∈ s.waiting, w.isOperand = false) :
    Delays (s.finish ++ [i]) (s.hold i).finish := by
  have hpast := (Delays.past h i).within s.out.reverse []
  simpa [finish, hold] using hpast

theorem waiting_release {yields : Item → Bool} (h : ∀ w ∈ s.waiting, w.isOperand = false) :
    ∀ w ∈ (s.release yields).waiting, w.isOperand = false :=
  fun w hw => h w ((List.dropWhile_suffix yields).subset hw)

/-- Only operators wait. -/
theorem waiting_step (h : ∀ w ∈ s.waiting, w.isOperand = false) :
    ∀ w ∈ (s.step i).waiting, w.isOperand = false := by
  match i with
  | .operand node => exact h
  | .operator symbol .before line => exact List.forall_mem_cons.2 ⟨rfl, h⟩
  | .operator symbol .after line => exact waiting_release h
  | .operator symbol .between line => exact List.forall_mem_cons.2 ⟨rfl, waiting_release h⟩

/-- Taking an item in moves only operators back. -/
theorem delays_step (h : ∀ w ∈ s.waiting, w.isOperand = false) :
    Delays (s.finish ++ [i]) (s.step i).finish := by
  match i with
  | .operand node => exact delays_emit h
  | .operator symbol .before line => exact delays_hold h
  | .operator symbol .after line =>
    rw [← finish_release (s := s) yieldsToAfter]
    exact delays_emit (waiting_release h)
  | .operator symbol .between line =>
    rw [← finish_release (s := s) (yieldsToBinary symbol)]
    exact delays_hold (waiting_release h)

theorem delays_foldl {items : List Item} (h : ∀ w ∈ s.waiting, w.isOperand = false) :
    Delays (s.finish ++ items) (items.foldl step s).finish := by
  induction items generalizing s with
  | nil =>
    rw [List.append_nil]
    exact .refl _
  | cons i items ih =>
    have hfirst : Delays (s.finish ++ i :: items) ((s.step i).finish ++ items) := by
      simpa using (delays_step h).within [] items
    exact hfirst.trans (ih (waiting_step h))

end Sorting

/-- Sorting moves operators back, and nothing else. -/
theorem delays_postOrder (items : List Item) : Delays items (postOrder items) :=
  Sorting.delays_foldl (s := ⟨[], []⟩) nofun

/-- **Sorting permutes the items of any list**, and an operand is never overtaken: it stays before
the operands that follow it, and before the operators that follow it. -/
theorem postOrder_keeps_operands_before (items : List Item) :
    (postOrder items).Perm items ∧
      ∃ place : Equiv.Perm ℕ, (∀ i, (postOrder items)[place i]? = items[i]?) ∧
        (∀ i j node node', i < j → items[i]? = some (.operand node) →
          items[j]? = some (.operand node') → place i < place j) ∧
        ∀ i j node symbol fixity line, i < j → items[i]? = some (.operand node) →
          items[j]? = some (.operator symbol fixity line) → place i < place j := by
  obtain ⟨place, hplace⟩ := (delays_postOrder items).places
  refine ⟨(delays_postOrder items).perm, place, hplace.kept, ?_, ?_⟩
  · intro i j node node' hij hoperand _
    exact hplace.ordered hij hoperand
  · intro i j node symbol fixity line hij hoperand _
    exact hplace.ordered hij hoperand

/-- Items that no expression gives rise to: an operator at the front, one whose symbol is in no
table, and two operands side by side. -/
def straySymbols : List Item :=
  [.operator "*" .between 1, .operand (.reference "a" 1), .operator "??" .between 1,
    .operator "." .after 1, .operand (.reference "b" 1), .operand (.reference "a" 1)]

theorem straySymbols_keep_operands_before :
    ∃ place : Equiv.Perm ℕ,
      (postOrder straySymbols)[place 1]? = some (.operand (.reference "a" 1)) ∧
      place 1 < place 4 ∧ place 4 < place 5 ∧ place 1 < place 2 ∧ place 1 < place 3 := by
  obtain ⟨-, place, hkept, hoperands, hoperators⟩ := postOrder_keeps_operands_before straySymbols
  exact ⟨place, hkept 1, hoperands 1 4 _ _ (by decide) rfl rfl,
    hoperands 4 5 _ _ (by decide) rfl rfl, hoperators 1 2 _ _ _ _ (by decide) rfl rfl,
    hoperators 1 3 _ _ _ _ (by decide) rfl rfl⟩

end PairScript.Item
