import PairScript.Primitive.Apply
import PairScript.Proofs.Value.Lists

/-!
# Indexing of lists and strings

Indexing goes through the elements of a list, and through the characters of a string.  In both
cases it is `Primitive.element` that decides: indexing of a string is the same function as indexing
of the list of its characters, its errors included (`string_indexes_as_its_characters`).  What comes
out is told by `Primitive.Indexes`, without a word about how it is found.
-/

namespace PairScript

namespace Primitive

variable {l v : Value} {items : List Value} {s : String} {line : Nat} {m : Machine}

/-! ### Lists -/

theorem elementAt_of_elements? (hitems : l.elements? = some items) :
    elementAt l v = asInteger v >>= element items := by
  have hlist : l.isList = true :=
    Value.isList_of_isProper (Value.elements?_eq_some_iff.1 hitems).1
  cases l with
  | empty | pair => simp only [elementAt, hlist, hitems, ↓reduceIte]
  | _ => cases hlist

theorem elementAt_of_not_isProper (hlist : l.isList = true) (hproper : l.isProper = false)
    (i : Word) : elementAt l (.int i) = .error (.mismatch .improperIndex) := by
  have hitems : l.elements? = none := by
    rw [Value.elements?, if_neg (Bool.eq_false_iff.1 hproper)]
  cases l with
  | empty | pair => simp only [elementAt, hlist, hitems, ↓reduceIte]; rfl
  | _ => cases hlist

/-- A position is in a list or out of its bounds. -/
theorem element_eq_or (items : List Value) (position : Word) :
    (∃ v ∈ items, element items position = .ok v) ∨
      element items position = .error (.indexOutOfBounds position items.length) := by
  unfold element
  by_cases hneg : position < 0
  · rw [if_pos hneg]
    exact .inr rfl
  · rw [if_neg hneg]
    cases hitem : items[position.toInt.toNat]? with
    | some v => exact .inl ⟨v, List.mem_of_getElem? hitem, rfl⟩
    | none => exact .inr rfl

theorem index_apply (a b : Value) : index.apply [a, b] line = Eval.settle line (elementAt a b) :=
  rfl

/-- Indexing by an integer refuses the lists that are not proper, and no others. -/
theorem index_ne_improper_iff (hlist : l.isList = true) (i : Word) (line : Nat) (m : Machine) :
    l.isProper = true ↔ index.apply [l, .int i] line m
      ≠ .error (.fault ⟨.mismatch .improperIndex, line⟩) m := by
  rw [index_apply]
  cases hproper : l.isProper with
  | true =>
    have hitems : l.elements? = some l.heads := Value.elements?_eq_some_iff.2 ⟨hproper, rfl⟩
    have helement : elementAt l (.int i) = element l.heads i := elementAt_of_elements? hitems
    rw [helement]
    rcases element_eq_or l.heads i with ⟨v, -, hv⟩ | hout
    · rw [hv]
      exact iff_of_true rfl nofun
    · rw [hout]
      exact iff_of_true rfl nofun
  | false =>
    rw [elementAt_of_not_isProper hlist hproper]
    exact iff_of_false nofun fun hne => hne rfl

/-! ### Strings -/

theorem length_characters : (characters s).length = s.length := by
  rw [characters, List.length_map, String.length_toList]

theorem character_eq (position : Word) :
    character s position = element (characters s) position := by
  unfold character element
  rw [length_characters, characters, List.getElem?_map]
  cases s.toList[position.toInt.toNat]? with
  | some c => rfl
  | none => rfl

theorem elementAt_str : elementAt (.str s) v = asInteger v >>= element (characters s) := by
  have hcharacter : character s = element (characters s) := funext character_eq
  rw [← hcharacter]
  rfl

/-- What a string gives at an index: the character that stands there, or the fault that the index is
not in the string, or that it is not an integer. -/
inductive Indexes (s : String) : Value → Except EvalCause Value → Prop
  | character {i : Word} {n : Nat} {c : Char} (position : i.toInt = n)
      (stands : s.toList[n]? = some c) : Indexes s (.int i) (.ok (.str c.toString))
  | outside {i : Word} (out : i.toInt < 0 ∨ s.length ≤ i.toInt) :
      Indexes s (.int i) (.error (.indexOutOfBounds i s.length))
  | mismatch {v : Value} (other : ∀ i, v ≠ .int i) :
      Indexes s v (.error (.mismatch (.expectedInteger v.kind)))

theorem indexes_character (s : String) (i : Word) : Indexes s (.int i) (character s i) := by
  unfold character
  by_cases hneg : i < 0
  · rw [if_pos hneg]
    exact .outside (.inl (Int64.lt_iff_toInt_lt.1 hneg))
  · rw [if_neg hneg]
    have hposition : i.toInt = i.toInt.toNat :=
      (Int.toNat_of_nonneg (Int.not_lt.1 fun h => hneg (Int64.lt_iff_toInt_lt.2 h))).symm
    cases hc : s.toList[i.toInt.toNat]? with
    | some c => exact .character hposition hc
    | none =>
      have hlength := List.getElem?_eq_none_iff.1 hc
      rw [String.length_toList] at hlength
      exact .outside (.inr (by omega))

theorem indexes_elementAt (s : String) (v : Value) : Indexes s v (elementAt (.str s) v) := by
  cases v with
  | int i => exact indexes_character s i
  | _ => exact .mismatch nofun

theorem plus_str (s t : String) : plus (.str s) (.str t) = .ok (.str (s ++ t)) := by
  simp [plus, isString, Value.text, Value.writeTo, Value.atomText]

theorem foldlM_plus_chars (cs : List Char) (acc : String) :
    (cs.map fun c => Value.str c.toString).foldlM plus (.str acc)
      = .ok (.str (acc ++ String.ofList cs)) := by
  induction cs generalizing acc with
  | nil =>
    rw [String.ofList_nil, String.append_empty]
    rfl
  | cons c cs ih =>
    rw [List.map_cons, List.foldlM_cons, plus_str, String.ofList_cons, ← String.append_assoc]
    exact ih (acc ++ c.toString)

theorem foldlM_plus_characters : (characters s).foldlM plus (.str "") = .ok (.str s) := by
  rw [characters, foldlM_plus_chars, String.empty_append, String.ofList_toList]

/-- What the list of the characters of a string is made of. -/
theorem charList_apply (s : String) (line : Nat) (m : Machine) :
    charList.apply [.str s] line m
      = .ok (m.heap.list (characters s)).1 { m with heap := (m.heap.list (characters s)).2 } :=
  rfl

end Primitive

/-- **Indexing of a string is indexing of the list of its characters.**  Whatever the index is, the
two end the same way: with the character that stands there, or with the fault that the index is
negative or not below the length, which tells the index and the length, or with the fault that it is
not an integer, which tells its kind.  Faults are on the line of the call, and nothing else changes.
Joined in order, the elements of the list give the string back. -/
theorem string_indexes_as_its_characters (s : String) (line : Nat) (m : Machine) :
    ∃ l m', Primitive.charList.apply [.str s] line m = .ok l m' ∧
      (∀ v line m, Primitive.index.apply [.str s, v] line m
        = Primitive.index.apply [l, v] line m) ∧
      (∀ v, ∃ r, Primitive.Indexes s v r ∧ ∀ line m,
        Primitive.index.apply [.str s, v] line m = Eval.settle line r m ∧
          Primitive.index.apply [l, v] line m = Eval.settle line r m) ∧
      ∃ items, l.elements? = some items ∧ (∀ item ∈ items, ∃ c : Char, item = .str c.toString) ∧
        items.foldlM Primitive.plus (.str "") = .ok (.str s) := by
  have hitems := Heap.elements?_list (Primitive.characters s) m.heap
  have hsame : ∀ v, Primitive.elementAt (m.heap.list (Primitive.characters s)).1 v
      = Primitive.elementAt (.str s) v := by
    intro v
    rw [Primitive.elementAt_str, Primitive.elementAt_of_elements? hitems]
  refine ⟨_, _, Primitive.charList_apply s line m, fun v line m => ?_, fun v => ?_, _, hitems, ?_,
    Primitive.foldlM_plus_characters⟩
  · rw [Primitive.index_apply, Primitive.index_apply, hsame]
  · refine ⟨_, Primitive.indexes_elementAt s v, fun line m => ⟨rfl, ?_⟩⟩
    rw [Primitive.index_apply, hsame]
  · simp [Primitive.characters]

end PairScript
