import PairScript.Proofs.Eval.Contract

/-!
# What evaluation does to frames

Evaluation makes frames and binds names, and it is careful about both.  Frames that are there keep
their parents and their names; and apart from the frame that a node is evaluated in, no frame that
is there gains a name.  Blocks and the bodies of functions run in frames of their own, assignments
only overwrite, and member accesses only read.  Calls leave the number of calls in progress as they
found it.

* `Heap.Grows` and `Machine.Grows` say how heaps and machines may change;
* `Lasting.contract` is the contract to keep a property that lasts while machines grow;
* `evaluate_grows` shows that every evaluation meets it, whatever it ends with.
-/

namespace PairScript

/-! ### Names of a frame -/

namespace Bindings

variable {b : Bindings} {name n : String} {value : Value}

theorem contains_replace : (b.replace name value).contains n = b.contains n := by
  induction b with
  | nil => rfl
  | cons entry b ih =>
    unfold Bindings.replace
    split
    next heq => simp [Bindings.contains, beq_iff_eq.1 heq]
    next => simpa [Bindings.contains] using congrArg (entry.1 == n || ·) ih

theorem contains_insert : (b.insert name value).contains n = (b.contains n || name == n) := by
  unfold Bindings.insert
  split
  next hname =>
    rw [contains_replace]
    by_cases heq : name = n
    · subst heq
      simp [hname]
    · simp [heq]
  next => simp [Bindings.contains, Bool.or_comm]

theorem contains_of_get? (h : b.get? name = some value) : b.contains name = true := by
  obtain ⟨before, after, rfl, -⟩ := List.lookup_eq_some_iff.1 h
  simp [Bindings.contains]

end Bindings

namespace Heap

/-- Whether a frame itself binds a name. -/
def owns (h : Heap) (id : FrameId) (name : String) : Bool :=
  (h.frames[id]?).any (·.bindings.contains name)

/-- The parent of a frame. -/
def parent? (h : Heap) (id : FrameId) : Option FrameId := (h.frames[id]?).bind Frame.parent

variable {h h' h'' : Heap} {id id' : FrameId} {name n : String} {value : Value}

theorem lt_size_of_owns (hname : h.owns id name = true) : id < h.frames.size := by
  unfold owns at hname
  cases hframe : h.frames[id]? with
  | none => simp [hframe] at hname
  | some frame => exact (Array.getElem?_eq_some_iff.1 hframe).1

theorem owns_push (frame : Frame) (hid : id < h.frames.size) :
    (h.push frame).2.owns id name = h.owns id name := by
  simp [owns, push, Array.getElem?_push, Nat.ne_of_lt hid]

theorem parent?_push (frame : Frame) (hid : id < h.frames.size) :
    (h.push frame).2.parent? id = h.parent? id := by
  simp [parent?, push, Array.getElem?_push, Nat.ne_of_lt hid]

theorem owns_define :
    (h.define id name value).owns id' n = true ↔
      h.owns id' n = true ∨ (id' = id ∧ n = name ∧ id < h.frames.size) := by
  unfold owns define
  simp only [Array.getElem?_modify]
  split
  next heq =>
    subst heq
    cases hframe : h.frames[id]? with
    | none =>
      have hsize := Array.getElem?_eq_none_iff.1 hframe
      simp [Nat.not_lt_of_le hsize]
    | some frame =>
      have hsize := (Array.getElem?_eq_some_iff.1 hframe).1
      simp [Bindings.contains_insert, hsize, eq_comm (a := n)]
  next hne => simp [Ne.symm hne]

theorem parent?_define : (h.define id name value).parent? id' = h.parent? id' := by
  unfold parent? define
  simp only [Array.getElem?_modify]
  split
  · cases h.frames[id']? <;> rfl
  · rfl

/-- What a name resolves to is a frame that binds it. -/
theorem owns_of_resolveWithin {bound : Nat} {owner : FrameId}
    (hfound : h.resolveWithin name bound id = some (owner, value)) : h.owns owner name = true := by
  induction bound generalizing id with
  | zero => simp [Heap.resolveWithin] at hfound
  | succ bound ih =>
    unfold Heap.resolveWithin at hfound
    split at hfound
    next => cases hfound
    next frame hframe =>
      split at hfound
      next found hget =>
        cases hfound
        simp [owns, hframe, Bindings.contains_of_get? hget]
      next =>
        split at hfound
        · exact ih hfound
        · cases hfound

/-- An assignment overwrites what is bound. -/
theorem owns_assign : (h.assign id name value).2.owns id' n = h.owns id' n := by
  unfold assign
  split
  next owner _ hfound =>
    have howner := owns_of_resolveWithin hfound
    rw [Bool.eq_iff_iff, owns_define, or_iff_left_iff_imp]
    rintro ⟨rfl, rfl, -⟩
    exact howner
  next => rfl

theorem parent?_assign : (h.assign id name value).2.parent? id' = h.parent? id' := by
  unfold assign
  split
  · exact parent?_define
  · rfl

theorem size_define : (h.define id name value).frames.size = h.frames.size := by simp [define]

theorem size_assign : (h.assign id name value).2.frames.size = h.frames.size := by
  unfold assign
  split
  · exact size_define
  · rfl

/-! ### Growing heaps -/

/-- How a heap may change: its frames keep their parents and their names, and gain a name only if
`may` says so. -/
structure Grows (may : FrameId → String → Prop) (h h' : Heap) : Prop where
  size : h.frames.size ≤ h'.frames.size
  parent : ∀ id, id < h.frames.size → h'.parent? id = h.parent? id
  keeps : ∀ id name, h.owns id name = true → h'.owns id name = true
  gains : ∀ id name, id < h.frames.size → h'.owns id name = true →
    h.owns id name = true ∨ may id name

namespace Grows

variable {may may' : FrameId → String → Prop}

theorem refl (h : Heap) : h.Grows may h :=
  ⟨Nat.le_refl _, fun _ _ => rfl, fun _ _ => id, fun _ _ _ => .inl⟩

/-- Only the frames matter. -/
theorem of_frames (hframes : h'.frames = h.frames) : h.Grows may h' := by
  obtain ⟨frames, members, cell⟩ := h
  obtain rfl : h'.frames = frames := hframes
  exact ⟨Nat.le_refl _, fun _ _ => rfl, fun _ _ => id, fun _ _ _ => .inl⟩

/-- What happens to frames that were not there at first is of no concern. -/
theorem trans (h₁ : h.Grows may h') (h₂ : h'.Grows may' h'')
    (hmay : ∀ id name, may' id name → h.frames.size ≤ id ∨ may id name) : h.Grows may h'' := by
  refine ⟨Nat.le_trans h₁.size h₂.size, fun id hid => ?_, fun id name hname => ?_,
    fun id name hid hname => ?_⟩
  · rw [h₂.parent id (Nat.lt_of_lt_of_le hid h₁.size), h₁.parent id hid]
  · exact h₂.keeps id name (h₁.keeps id name hname)
  · rcases h₂.gains id name (Nat.lt_of_lt_of_le hid h₁.size) hname with hname | hgain
    · exact h₁.gains id name hid hname
    · exact .inr ((hmay id name hgain).resolve_left (Nat.not_le_of_lt hid))

theorem push (frame : Frame) : h.Grows may (h.push frame).2 := by
  refine ⟨by simp [Heap.push], fun id hid => parent?_push frame hid, fun id name hname => ?_,
    fun id name hid hname => ?_⟩
  · rwa [owns_push frame (lt_size_of_owns hname)]
  · rw [owns_push frame hid] at hname
    exact .inl hname

theorem define (hmay : may id name) : h.Grows may (h.define id name value) := by
  refine ⟨Nat.le_of_eq size_define.symm, fun _ _ => parent?_define,
    fun _ _ hn => owns_define.2 (.inl hn), fun id' n _ hn => ?_⟩
  rcases owns_define.1 hn with hn | ⟨rfl, rfl, -⟩
  · exact .inl hn
  · exact .inr hmay

theorem assign : h.Grows may (h.assign id name value).2 :=
  ⟨Nat.le_of_eq size_assign.symm, fun _ _ => parent?_assign, fun _ _ hn => owns_assign.trans hn,
    fun _ _ _ hn => .inl (owns_assign.symm.trans hn)⟩

end Grows

end Heap

/-! ### Growing machines -/

/-- How a machine may change: its heap grows, and as many calls are in progress as before. -/
structure Machine.Grows (may : FrameId → String → Prop) (m m' : Machine) : Prop where
  heap : m.heap.Grows may m'.heap
  depth : m'.depth = m.depth
  limit : m'.limit = m.limit

namespace Machine.Grows

variable {may may' : FrameId → String → Prop} {m m' m'' : Machine}

theorem refl (m : Machine) : m.Grows may m := ⟨.refl m.heap, rfl, rfl⟩

theorem trans (h₁ : m.Grows may m') (h₂ : m'.Grows may' m'')
    (hmay : ∀ id name, may' id name → m.heap.frames.size ≤ id ∨ may id name) :
    m.Grows may m'' :=
  ⟨h₁.heap.trans h₂.heap hmay, h₂.depth.trans h₁.depth, h₂.limit.trans h₁.limit⟩

theorem mono (h : m.Grows may' m')
    (hmay : ∀ id name, may' id name → m.heap.frames.size ≤ id ∨ may id name) : m.Grows may m' :=
  (refl m).trans h hmay

/-- One call deeper and back again. -/
theorem leaveCall (h : Grows may { m with depth := m.depth + 1 } m') :
    m.Grows may (Eval.leaveCall m') := by
  refine ⟨h.heap, ?_, h.limit⟩
  rw [Eval.leaveCall, h.depth, Nat.add_sub_cancel]

end Machine.Grows

/-! ### Contracts of growing machines -/

/-- A property of machines that lasts while they grow, the names in `may` being bound on the way.
The names of new frames always may be. -/
structure Lasting where
  holds : Machine → Prop
  may : FrameId → String → Prop
  new : ∀ {m : Machine} {id : FrameId} {name : String}, holds m → m.heap.frames.size ≤ id →
    may id name
  lasts : ∀ {m m' : Machine}, holds m → m.Grows may m' → holds m'

namespace Lasting

/-- The contract to keep a lasting property, however evaluation ends. -/
def contract (l : Lasting) : Contract where
  machine := l.holds
  halt _ := l.holds
  value _ := True
  binds := l.may
  fault _ hm := hm
  host _ hm := l.lasts hm ⟨.of_frames rfl, rfl, rfl⟩
  cells _ hm := l.lasts hm ⟨.of_frames rfl, rfl, rfl⟩
  closure hm := l.lasts hm ⟨.of_frames rfl, rfl, rfl⟩
  members _ _ hm := l.lasts hm ⟨.of_frames rfl, rfl, rfl⟩
  bind _ _ _ hm _ := ⟨l.lasts hm ⟨.push _, rfl, rfl⟩, fun _ => l.new hm (Nat.le_refl _)⟩
  define hm hmay _ := l.lasts hm ⟨.define hmay, rfl, rfl⟩
  assign hm _ := l.lasts hm ⟨.assign, rfl, rfl⟩
  lookup _ _ := trivial
  byParts := ⟨fun _ => trivial, ⟨fun _ => ⟨trivial, trivial⟩, fun _ => trivial⟩⟩

/-- To be what may become of `m₀`, the names in `may` being bound on the way. -/
def since (m₀ : Machine) (may : FrameId → String → Prop) : Lasting where
  holds := m₀.Grows may
  may id name := m₀.heap.frames.size ≤ id ∨ may id name
  new hm hid := .inl (Nat.le_trans hm.heap.size hid)
  lasts hm hgrows := hm.trans hgrows fun _ _ => id

/-- Every outcome is within the contract of a lasting property. -/
theorem outcome (l : Lasting) (o : Outcome) : l.contract.outcome o := by
  match o with
  | .value _ | .signal (.giveBack _) => trivial
  | .signal .breakOut | .signal .continueOn | .signal .fallThrough => trivial

/-- A procedure meets the contract of a lasting property if it keeps it. -/
theorem meets_iff {l : Lasting} {α : Type} {p : Eval α} :
    l.contract.Meets p (fun _ => True) ↔ ∀ m, l.holds m → l.holds (Eval.after p m) := by
  refine forall₂_congr fun m _ => ?_
  unfold Eval.after
  cases p m with
  | ok a m' => exact ⟨fun h => h.1, fun h => ⟨h, trivial⟩⟩
  | error halt m' => exact Iff.rfl

end Lasting

/-- An evaluator that binds names in the frame that it is given, and in new ones. -/
def Evaluator.Grows (self : Evaluator) : Prop :=
  ∀ (m₀ : Machine) (node : Node) (frame : FrameId),
    (Lasting.since m₀ fun id _ => id = frame).contract.Meets (self node frame) fun _ => True

/-- The body of a closure runs in a frame of its own, so a call binds names in new frames only. -/
theorem Lasting.calls (l : Lasting) {self : Evaluator} (hself : self.Grows) :
    l.contract.Calls self self := by
  intro c line inner _ hinner
  refine Contract.asCall_follows fun m hm _ => ?_
  have hback : ∀ {m'}, Machine.Grows (fun id _ => id = inner) { m with depth := m.depth + 1 } m' →
      l.holds (Eval.leaveCall m') := by
    intro m' hgrows
    refine l.lasts hm (hgrows.leaveCall.mono ?_)
    rintro id name rfl
    exact .inr (hinner name)
  let below := Lasting.since { m with depth := m.depth + 1 } fun id _ => id = inner
  refine ⟨below.contract, .refl _, ?_, fun _ => hback, fun _ _ => hback⟩
  refine (Contract.sequence_lifts fun node _ => ?_).mono fun o _ => l.outcome o
  exact ((hself _ node inner).mono fun o _ => below.outcome o).self

/-! ### Evaluation -/

/-- A definition of a name that is evaluated in the frame of the node: those in the bodies of
functions and in blocks are not. -/
inductive Node.Defines (name : String) : Node → Prop
  | here {value : Node} {line : Nat} : Defines name (.definition name value line)
  | part {node part : Node} (value : part ∈ node.valueParts) (defines : Defines name part) :
      Defines name node

theorem Node.Defines.of_memberParts {name : String} {node part : Node}
    (hpart : part ∈ node.memberParts) (h : part.Defines name) : node.Defines name := by
  cases node with
  | operation symbol operands line =>
    obtain ⟨operand, hoperand, hpart⟩ := List.mem_flatMap.1 hpart
    have hvalue : operand ∈ (Node.operation symbol operands line).valueParts := hoperand
    exact .part hvalue (.part hpart h)
  | assignment target value yieldsOld line =>
    have hvalue : target ∈ (Node.assignment target value yieldsOld line).valueParts :=
      List.mem_cons_self
    exact .part hvalue (.part hpart h)
  | _ => cases hpart

/-- **Evaluation grows machines**, and binds in the frame of a node only the names that the node
defines. -/
theorem evaluate_grows (fuel : Nat) :
    ∀ (m₀ : Machine) (may : FrameId → String → Prop) (node : Node) (frame : FrameId),
      (∀ name, node.Defines name → (Lasting.since m₀ may).may frame name) →
      (Lasting.since m₀ may).contract.Meets (Eval.evaluate fuel node frame) fun _ => True := by
  induction fuel with
  | zero => exact fun _ _ _ _ _ => .exhausted fun _ hm => hm
  | succ fuel ih =>
    intro m₀ may node frame hmay
    have hself : Evaluator.Grows (Eval.evaluate fuel) :=
      fun m₀ node frame => ih m₀ _ node frame fun _ _ => .inr rfl
    let l := Lasting.since m₀ may
    have hpart : ∀ (part : Node) (frame : FrameId), (∀ name, part.Defines name → l.may frame name) →
        l.contract.LiftsAt (Eval.evaluate fuel) (Eval.evaluate fuel) frame part :=
      fun part frame hpart => ((ih m₀ may part frame hpart).mono fun o _ => l.outcome o).self
    refine ((Contract.step_follows (Nat.le_refl _) (l.calls hself) ?_).mono
      fun _ _ => trivial).meets
    refine ⟨fun part h => hpart part frame fun name hname => hmay name (.part h hname),
      fun part h => hpart part frame fun name hname => hmay name (.of_memberParts h hname),
      fun inner hinner part _ => hpart part inner fun name _ => hinner name, ?_,
      fun _ _ _ _ _ _ => trivial, fun _ _ hm => hm⟩
    rintro name value line rfl
    exact hmay name .here

end PairScript
