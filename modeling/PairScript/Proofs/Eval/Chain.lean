import PairScript.Proofs.Eval.Growth

/-!
# The way outward

A name is looked up along a chain of frames, from a frame to its parent and so on, up to the first
frame that binds the name itself.  `Heap.own?` is what a frame itself binds a name to, and
`Heap.resolveWithin_succ` says one step of the way in its terms.  Then

* an assignment overwrites the binding that a look-up finds, and the look-up finds it again with the
  new value (`Heap.resolve_assign`);
* while a heap grows, a look-up keeps finding the same binding, unless a frame on the way has gained
  a binding of the name (`Heap.Grows.resolve`).
-/

namespace PairScript

/-! ### One frame -/

namespace Bindings

variable {b : Bindings} {name n : String} {value : Value}

theorem get?_cons {entry : String × Value} :
    get? n (entry :: b) = if n = entry.1 then some entry.2 else get? n b := by
  obtain ⟨name, value⟩ := entry
  unfold get?
  rw [List.lookup_cons]
  by_cases h : n = name
  · simp [h]
  · rw [beq_false_of_ne h, if_neg h]

theorem get?_replace (hname : b.contains name = true) :
    (b.replace name value).get? n = if n = name then some value else b.get? n := by
  induction b with
  | nil => simp [contains] at hname
  | cons entry b ih =>
    unfold replace
    split
    next heq =>
      obtain rfl := beq_iff_eq.1 heq
      rw [get?_cons, get?_cons]
      split <;> rfl
    next hne =>
      have hne : entry.1 ≠ name := by simpa using hne
      have hrest : contains name b = true := by simpa [contains, hne] using hname
      rw [get?_cons, get?_cons, ih hrest]
      by_cases hn : n = name
      · simp [hn, Ne.symm hne]
      · simp [hn]

theorem get?_insert : (b.insert name value).get? n = if n = name then some value else b.get? n := by
  unfold Bindings.insert
  split
  next hname => exact get?_replace hname
  next => exact get?_cons

theorem contains_iff_get? : b.contains name = true ↔ ∃ v, b.get? name = some v := by
  refine ⟨fun h => ?_, fun ⟨v, hv⟩ => contains_of_get? hv⟩
  induction b with
  | nil => simp [contains] at h
  | cons entry b ih =>
    rw [get?_cons]
    split
    next => exact ⟨_, rfl⟩
    next hne => exact ih (by simpa [contains, Ne.symm hne] using h)

end Bindings

/-! ### Frames of a heap -/

namespace Heap

/-- What a frame itself binds a name to. -/
def own? (h : Heap) (id : FrameId) (name : String) : Option Value :=
  (h.frames[id]?).bind (·.bindings.get? name)

variable {h h' : Heap} {id id' owner : FrameId} {name n : String} {value v : Value} {bound : Nat}

theorem owns_iff_own? : h.owns id name = true ↔ ∃ v, h.own? id name = some v := by
  unfold owns own?
  cases h.frames[id]? with
  | none => simp
  | some frame => exact Bindings.contains_iff_get?

theorem lt_size_of_own? (hown : h.own? id name = some v) : id < h.frames.size :=
  lt_size_of_owns (owns_iff_own?.2 ⟨v, hown⟩)

theorem lt_size_of_parent? {parent : FrameId} (hparent : h.parent? id = some parent) :
    id < h.frames.size := by
  cases hframe : h.frames[id]? with
  | none => simp [parent?, hframe] at hparent
  | some frame => exact (Array.getElem?_eq_some_iff.1 hframe).1

theorem own?_push (frame : Frame) (hid : id < h.frames.size) :
    (h.push frame).2.own? id name = h.own? id name := by
  simp [own?, push, Array.getElem?_push, Nat.ne_of_lt hid]

theorem own?_push_new (frame : Frame) :
    (h.push frame).2.own? h.frames.size name = frame.bindings.get? name := by
  simp [own?, push]

theorem parent?_push_new (frame : Frame) :
    (h.push frame).2.parent? h.frames.size = frame.parent := by
  simp [parent?, push]

theorem own?_define (hid : id < h.frames.size) :
    (h.define id name value).own? id' n =
      if id' = id ∧ n = name then some value else h.own? id' n := by
  unfold own? define
  simp only [Array.getElem?_modify]
  by_cases heq : id = id'
  · subst heq
    rw [if_pos rfl, Array.getElem?_eq_getElem hid]
    simp [Bindings.get?_insert]
  · simp [heq, Ne.symm heq]

/-! ### Looking outward -/

/-- One step outward. -/
theorem resolveWithin_succ :
    h.resolveWithin name (bound + 1) id =
      match h.own? id name with
      | some value => some (id, value)
      | none => (h.parent? id).bind (h.resolveWithin name bound) := by
  rw [resolveWithin, own?, parent?]
  cases h.frames[id]? with
  | none => rfl
  | some frame =>
    simp only [Option.bind_some]
    cases frame.bindings.get? name with
    | some value => rfl
    | none => cases frame.parent <;> rfl

/-- What is found is a binding of the frame where it is found. -/
theorem own?_of_resolveWithin (hfound : h.resolveWithin name bound id = some (owner, value)) :
    h.own? owner name = some value := by
  induction bound generalizing id with
  | zero => cases hfound
  | succ bound ih =>
    rw [resolveWithin_succ] at hfound
    cases hown : h.own? id name with
    | some found =>
      rw [hown] at hfound
      cases hfound
      exact hown
    | none =>
      rw [hown] at hfound
      obtain ⟨parent, -, hparent⟩ := Option.bind_eq_some_iff.1 hfound
      exact ih hparent

theorem resolveWithin_define (hfound : h.resolveWithin name bound id = some (owner, value)) :
    (h.define owner name v).resolveWithin name bound id = some (owner, v) := by
  have howner := own?_of_resolveWithin hfound
  have hlt := lt_size_of_own? howner
  induction bound generalizing id with
  | zero => cases hfound
  | succ bound ih =>
    rw [resolveWithin_succ] at hfound ⊢
    rw [own?_define hlt, parent?_define]
    cases hown : h.own? id name with
    | some found =>
      rw [hown] at hfound
      cases hfound
      simp
    | none =>
      rw [hown] at hfound
      have hne : id ≠ owner := by
        rintro rfl
        cases hown.symm.trans howner
      obtain ⟨parent, hparent, hrest⟩ := Option.bind_eq_some_iff.1 hfound
      simpa [hne, hparent] using ih hrest

/-- An assignment that finds a binding is seen where it looked from. -/
theorem resolve_assign (hfound : (h.assign id name v).1 = true) :
    ∃ owner, (h.assign id name v).2.resolve id name = some (owner, v) := by
  unfold assign at hfound ⊢
  cases hresolve : h.resolve id name with
  | none =>
    rw [hresolve] at hfound
    cases hfound
  | some found => exact ⟨found.1, resolveWithin_define hresolve⟩

/-- While a heap grows, what is found is what was found before, or a binding that was made since on
the way. -/
theorem Grows.resolve {may : FrameId → String → Prop} (hgrows : h.Grows may h')
    (hfound : h.resolve id name = some (owner, value)) :
    ∃ owner' value', h'.resolve id name = some (owner', value') ∧
      (owner' = owner ∨ h.owns owner' name = false) := by
  unfold Heap.resolve at *
  generalize hbound : id + 1 = bound at *
  clear hbound
  induction bound generalizing id with
  | zero => cases hfound
  | succ bound ih =>
    rw [resolveWithin_succ] at hfound
    rw [resolveWithin_succ]
    cases hown' : h'.own? id name with
    | some value' =>
      refine ⟨id, value', rfl, ?_⟩
      cases hown : h.own? id name with
      | some found =>
        rw [hown] at hfound
        cases hfound
        exact .inl rfl
      | none =>
        refine .inr (Bool.eq_false_iff.2 fun howns => ?_)
        obtain ⟨found, hfound⟩ := owns_iff_own?.1 howns
        cases hown.symm.trans hfound
    | none =>
      cases hown : h.own? id name with
      | some found =>
        have hkept := hgrows.keeps id name (owns_iff_own?.2 ⟨found, hown⟩)
        obtain ⟨kept, hkept⟩ := owns_iff_own?.1 hkept
        cases hown'.symm.trans hkept
      | none =>
        rw [hown] at hfound
        obtain ⟨parent, hparent, hrest⟩ := Option.bind_eq_some_iff.1 hfound
        rw [hgrows.parent id (lt_size_of_parent? hparent), hparent]
        exact ih hrest

end Heap

end PairScript
