import PairScript.Eval.Heap

/-!
# Properties of all bindings of a heap

`Heap.Binds P h` says that every binding of every frame of `h` satisfies `P`.  Making frames,
binding names and assigning to them keep such a property as long as the new bindings have it, and
what a name is looked up to has it.
-/

namespace PairScript

/-! ### One frame -/

namespace Bindings

variable {P : String → Value → Prop} {b : Bindings} {name : String} {value : Value}

/-- Every binding of a frame satisfies `P`. -/
def All (P : String → Value → Prop) (b : Bindings) : Prop := ∀ entry ∈ b, P entry.1 entry.2

theorem All.get? (h : All P b) (hget : b.get? name = some value) : P name value := by
  obtain ⟨before, after, rfl, -⟩ := List.lookup_eq_some_iff.1 hget
  exact h (name, value) (by simp)

theorem All.replace (h : All P b) (hnew : P name value) : All P (b.replace name value) := by
  induction b with
  | nil => exact h
  | cons entry b ih =>
    obtain ⟨hentry, hb⟩ := List.forall_mem_cons.1 h
    unfold Bindings.replace
    split
    · exact List.forall_mem_cons.2 ⟨hnew, hb⟩
    · exact List.forall_mem_cons.2 ⟨hentry, ih hb⟩

theorem All.insert (h : All P b) (hnew : P name value) : All P (b.insert name value) := by
  unfold Bindings.insert
  split
  · exact h.replace hnew
  · exact List.forall_mem_cons.2 ⟨hnew, h⟩

theorem All.insertAll (h : All P b) {names : List String} {values : List Value}
    (hnew : ∀ name ∈ names, ∀ value ∈ values, P name value) : All P (b.insertAll names values) := by
  induction names generalizing b values with
  | nil => exact h
  | cons name names ih =>
    cases values with
    | nil => exact h
    | cons value values =>
      refine ih (h.insert (hnew name (by simp) value (by simp))) ?_
      exact fun n hn v hv => hnew n (by simp [hn]) v (by simp [hv])

end Bindings

/-! ### All frames -/

namespace Heap

variable {P : String → Value → Prop} {h : Heap} {id : FrameId} {name : String} {value : Value}

/-- Every binding of every frame satisfies `P`. -/
def Binds (P : String → Value → Prop) (h : Heap) : Prop :=
  ∀ (id : FrameId) (frame : Frame), h.frames[id]? = some frame → frame.bindings.All P

theorem binds_empty : Heap.empty.Binds P := by
  intro id frame hframe
  simp [Heap.empty] at hframe

theorem Binds.push (hh : h.Binds P) {frame : Frame} (hnew : frame.bindings.All P) :
    (h.push frame).2.Binds P := by
  intro id frame' hframe
  simp only [Heap.push, Array.getElem?_push] at hframe
  split at hframe
  · cases hframe
    exact hnew
  · exact hh id frame' hframe

theorem Binds.child (hh : h.Binds P) (parent : FrameId) : (h.child parent).2.Binds P :=
  hh.push (by simp [Bindings.All])

theorem Binds.bind (hh : h.Binds P) {parent : FrameId} {names : List String} {values : List Value}
    (hnew : ∀ name ∈ names, ∀ value ∈ values, P name value) :
    (h.bind parent names values).2.Binds P :=
  hh.push (.insertAll (by simp [Bindings.All]) hnew)

theorem Binds.define (hh : h.Binds P) (hnew : P name value) : (h.define id name value).Binds P := by
  intro id' frame hframe
  simp only [Heap.define, Array.getElem?_modify] at hframe
  split at hframe
  · obtain ⟨old, hold, rfl⟩ := Option.map_eq_some_iff.1 hframe
    exact (hh id' old hold).insert hnew
  · exact hh id' frame hframe

theorem Binds.assign (hh : h.Binds P) (hnew : P name value) :
    (h.assign id name value).2.Binds P := by
  unfold Heap.assign
  split
  · exact hh.define hnew
  · exact hh

theorem Binds.resolveWithin (hh : h.Binds P) {n : Nat} {owner : FrameId}
    (hfound : h.resolveWithin name n id = some (owner, value)) : P name value := by
  induction n generalizing id with
  | zero => simp [Heap.resolveWithin] at hfound
  | succ n ih =>
    unfold Heap.resolveWithin at hfound
    split at hfound
    next => cases hfound
    next frame hframe =>
      split at hfound
      next found hget =>
        cases hfound
        exact (hh _ frame hframe).get? hget
      next =>
        split at hfound
        · exact ih hfound
        · cases hfound

/-- What a name is looked up to is bound to it somewhere. -/
theorem Binds.lookup (hh : h.Binds P) (hfound : h.lookup id name = some value) : P name value := by
  obtain ⟨⟨owner, found⟩, hresolve, rfl⟩ := Option.map_eq_some_iff.1 hfound
  exact hh.resolveWithin hresolve

end Heap

end PairScript
