import PairScript.Eval.Heap
import PairScript.Proofs.Value.Places

/-!
# Proper lists

Three functions go along a chain of pairs: `Value.isProper` decides whether it ends in the empty
list, `Value.heads` collects what it holds, whatever it ends in, and `Value.ofList` makes a chain
from its last element to its first.

`ofList_cons` says what making a list adds for one more element in front.  With it `isProper` and
`heads` take a list apart the way it was made, and a proper list is the one made of its heads, but
for the numbers of its pairs.
-/

namespace PairScript

namespace Value

variable {v w h h' t t' : Value} {vs : List Value} {cell cell' : CellId}

/-! ### Taking a list apart -/

theorem headsOnto_eq {acc : List Value} : v.headsOnto acc = acc.reverse ++ v.heads := by
  induction v generalizing acc with
  | pair cell head tail _ ih =>
    rw [heads, headsOnto, headsOnto, ih, @ih [head]]
    simp
  | _ => simp [heads, headsOnto]

theorem heads_pair : (pair cell h t).heads = h :: t.heads :=
  headsOnto_eq (v := t)

theorem elements?_eq_some_iff : v.elements? = some vs ↔ v.isProper = true ∧ v.heads = vs := by
  by_cases hproper : v.isProper = true
  · simp [elements?, hproper]
  · simp [elements?, hproper]

theorem isSome_elements? : v.elements?.isSome = v.isProper := by
  by_cases hproper : v.isProper = true
  · simp [elements?, hproper]
  · simp [elements?, hproper]

theorem isList_of_isProper (hproper : v.isProper = true) : v.isList = true := by
  cases v with
  | empty | pair => rfl
  | _ => cases hproper

/-! ### Making a list -/

theorem chainOnto_concat : chainOnto cell t (vs ++ [v]) =
    pair (cell + vs.length) v (chainOnto cell t vs) := by
  induction vs generalizing cell t with
  | nil => rfl
  | cons w vs ih =>
    show chainOnto (cell + 1) (pair cell w t) (vs ++ [v]) = _
    rw [ih, Nat.add_right_comm]
    rfl

theorem ofList_cons : ofList cell (v :: vs) = pair (cell + vs.length) v (ofList cell vs) := by
  rw [ofList, List.reverse_cons, chainOnto_concat, List.length_reverse]
  rfl

theorem isProper_ofList : (ofList cell vs).isProper = true := by
  induction vs with
  | nil => rfl
  | cons v vs ih =>
    rw [ofList_cons]
    exact ih

theorem heads_ofList : (ofList cell vs).heads = vs := by
  induction vs with
  | nil => rfl
  | cons v vs ih => rw [ofList_cons, heads_pair, ih]

theorem elements?_ofList : (ofList cell vs).elements? = some vs :=
  elements?_eq_some_iff.2 ⟨isProper_ofList, heads_ofList⟩

/-! ### Making a list again -/

theorem isCopy_pair : IsCopy (pair cell h t) (pair cell' h' t') ↔ IsCopy h h' ∧ IsCopy t t' := by
  simp [IsCopy, renumber]

/-- Copies are alike in their chains. -/
theorem IsCopy.isProper_eq (hcopy : IsCopy v w) : v.isProper = w.isProper := by
  have hrenumber : ∀ u : Value, (u.renumber fun _ => 0).isProper = u.isProper := by
    intro u
    induction u with
    | pair cell head tail _ ih => exact ih
    | _ => rfl
  rw [← hrenumber v, hcopy, hrenumber]

/-- A list made of the heads of a chain is a copy of it if the chain is proper, and only then. -/
theorem isCopy_ofList_heads_iff : IsCopy (ofList cell v.heads) v ↔ v.isProper = true := by
  constructor
  · intro hcopy
    rw [← hcopy.isProper_eq]
    exact isProper_ofList
  · intro hproper
    induction v with
    | empty => rfl
    | pair cell' head tail _ ih =>
      rw [heads_pair, ofList_cons, isCopy_pair]
      exact ⟨.refl head, ih hproper⟩
    | _ => cases hproper

end Value

/-- **A list has the elements that it was made of.** -/
theorem Heap.elements?_list (vs : List Value) (h : Heap) : (h.list vs).1.elements? = some vs :=
  Value.elements?_ofList

end PairScript
