import PairScript.Proofs.Eval.Growth

/-!
# Who binds a name in a frame

A frame gains names in two ways only: while it is made, and through definitions that are evaluated
in it.  The bodies of branches and loops are not evaluated in the frame of their node, so what such
a node binds there it binds through the expressions of its head: a condition, a range, a subject or
the values of a case.  `evaluate_keeps_frames` states this for every evaluation, however it ends.

The last part of it speaks about moments of a run.  `BoundDuring` says that a name was bound while
a part was evaluated, between two given machines.
-/

namespace PairScript

/-- Whether a node runs blocks: a branch or a loop. -/
def Node.isControl : Node → Bool
  | .conditional _ _ _ _ | .whileLoop _ _ _ | .switch _ _ _ _ | .rangeLoop _ _ _ _ _ _ _
  | .eachLoop _ _ _ _ => true
  | _ => false

/-- Evaluation keeps every lasting property that lets it bind what the node defines. -/
theorem Lasting.evaluate_meets (l : Lasting) {fuel : Nat} {node : Node} {frame : FrameId}
    (h : ∀ name, node.Defines name → l.may frame name) :
    l.contract.Meets (Eval.evaluate fuel node frame) fun _ => True := by
  refine meets_iff.2 fun m hm => l.lasts hm ?_
  have hgrows := evaluate_grows fuel m l.may node frame fun name hname => .inr (h name hname)
  exact meets_iff.1 hgrows m (.refl m)

/-! ### Moments of a run -/

/-- The name was bound in the frame while the part was evaluated in it, on the way from `m` to
`m'`. -/
def BoundDuring (fuel : Nat) (part : Node) (frame : FrameId) (name : String) (m m' : Machine) :
    Prop :=
  ∃ before, m.Grows (fun _ _ => True) before ∧ before.heap.owns frame name = false ∧
    (Eval.after (Eval.evaluate fuel part frame) before).heap.owns frame name = true ∧
    (Eval.after (Eval.evaluate fuel part frame) before).Grows (fun _ _ => True) m'

theorem BoundDuring.grows {fuel : Nat} {part : Node} {frame : FrameId} {name : String}
    {m m' m'' : Machine} (h : BoundDuring fuel part frame name m m')
    (hgrows : m'.Grows (fun _ _ => True) m'') : BoundDuring fuel part frame name m m'' := by
  obtain ⟨before, hbefore, hfree, hbound, hafter⟩ := h
  exact ⟨before, hbefore, hfree, hbound, hafter.trans hgrows fun _ _ => .inr⟩

section

variable {m₀ m m' : Machine} {frame : FrameId}

/-- What a part binds in the frame, on the way from `m₀`, is bound while the part is evaluated. -/
def ThroughParts (fuel : Nat) (parts : List Node) (frame : FrameId) (m₀ m : Machine) : Prop :=
  ∀ name, m₀.heap.owns frame name = false → m.heap.owns frame name = true →
    ∃ part ∈ parts, BoundDuring fuel part frame name m₀ m

variable {fuel : Nat} {parts : List Node}

/-- Whatever happens to other frames, the frame has what it has through the parts. -/
theorem ThroughParts.grows {may : FrameId → String → Prop} (h : ThroughParts fuel parts frame m₀ m)
    (hgrows : m.Grows may m')
    (hsame : ∀ name, m'.heap.owns frame name = true → m.heap.owns frame name = true) :
    ThroughParts fuel parts frame m₀ m' := by
  intro name hfree hname
  obtain ⟨part, hpart, hbound⟩ := h name hfree (hsame name hname)
  exact ⟨part, hpart, hbound.grows (hgrows.mono fun _ _ _ => .inr trivial)⟩

/-- To be what may become of `m₀`, the frame gaining names through some parts only. -/
def Lasting.through (fuel : Nat) (parts : List Node) (frame : FrameId) (m₀ : Machine)
    (hframe : frame < m₀.heap.frames.size) : Lasting where
  holds m := m₀.Grows (fun id _ => id = frame) m ∧ ThroughParts fuel parts frame m₀ m
  may id _ := m₀.heap.frames.size ≤ id
  new hm hid := Nat.le_trans hm.1.heap.size hid
  lasts hm hgrows := by
    refine ⟨hm.1.trans hgrows fun _ _ => .inl, hm.2.grows hgrows fun name hname => ?_⟩
    have hlt := Nat.lt_of_lt_of_le hframe hm.1.heap.size
    exact (hgrows.heap.gains frame name hlt hname).resolve_right (Nat.not_le_of_lt hframe)

theorem Lasting.through_part {hframe : frame < m₀.heap.frames.size} {part : Node}
    (hpart : part ∈ parts) :
    (Lasting.through fuel parts frame m₀ hframe).contract.Meets (Eval.evaluate fuel part frame)
      fun _ => True := by
  refine meets_iff.2 fun m hm => ?_
  have hgrows : m.Grows (fun id _ => id = frame) (Eval.after (Eval.evaluate fuel part frame) m) :=
    meets_iff.1 (evaluate_grows fuel m _ part frame fun _ _ => .inr rfl) m (.refl m)
  have hany : m.Grows (fun _ _ => True) (Eval.after (Eval.evaluate fuel part frame) m) :=
    hgrows.mono fun _ _ _ => .inr trivial
  refine ⟨hm.1.trans hgrows fun _ _ => .inr, fun name hfree hname => ?_⟩
  by_cases hbefore : m.heap.owns frame name = true
  · obtain ⟨part', hpart', hbound⟩ := hm.2 name hfree hbefore
    exact ⟨part', hpart', hbound.grows hany⟩
  · refine ⟨part, hpart, m, hm.1.mono fun _ _ _ => .inr trivial, ?_, hname, .refl _⟩
    exact Bool.eq_false_iff.2 hbefore

/-- A branch or a loop binds names in its frame through the expressions of its head. -/
theorem control_through {node : Node} (hcontrol : node.isControl = true)
    (hframe : frame < m₀.heap.frames.size) :
    ThroughParts fuel node.valueParts frame m₀
      (Eval.after (Eval.evaluate (fuel + 1) node frame) m₀) := by
  let l := Lasting.through fuel node.valueParts frame m₀ hframe
  have hself : Evaluator.Grows (Eval.evaluate fuel) :=
    fun m node frame => evaluate_grows fuel m _ node frame fun _ _ => .inr rfl
  have hadmits : l.contract.Admits (Eval.evaluate fuel) (Eval.evaluate fuel) frame node := by
    refine ⟨fun part hpart => ?_, fun part hpart => ?_, fun inner hinner part _ => ?_, ?_,
      fun _ _ _ _ _ _ => trivial, fun _ _ hm => hm⟩
    · exact ((Lasting.through_part hpart).mono fun o _ => l.outcome o).self
    · cases node <;> first | cases hpart | cases hcontrol
    · exact ((l.evaluate_meets fun name _ => hinner name).mono fun o _ => l.outcome o).self
    · rintro name value line rfl
      cases hcontrol
  have hstep := Contract.step_follows (Nat.le_refl fuel) (l.calls hself) hadmits
  have hstart : l.holds m₀ := ⟨.refl m₀, fun name hfree hname => by simp [hfree] at hname⟩
  exact (Lasting.meets_iff.1 (hstep.meets.mono fun _ _ => trivial) m₀ hstart).2

end

/-! ### Evaluation and frames -/

theorem evaluate_grows_defined (fuel : Nat) (node : Node) (frame : FrameId) (m : Machine) :
    m.Grows (fun id name => id = frame ∧ node.Defines name)
      (Eval.after (Eval.evaluate fuel node frame) m) :=
  Lasting.meets_iff.1 (evaluate_grows fuel m _ node frame fun _ h => .inr ⟨rfl, h⟩) m (.refl m)

section

variable {fuel : Nat} {node part : Node} {frame : FrameId} {name : String} {m m' : Machine}

/-- A name that the frame of a node gains is one that the node defines. -/
theorem defines_of_gained (hframe : frame < m.heap.frames.size)
    (hfree : m.heap.owns frame name = false)
    (hname : (Eval.after (Eval.evaluate fuel node frame) m).heap.owns frame name = true) :
    node.Defines name := by
  rcases (evaluate_grows_defined fuel node frame m).heap.gains frame name hframe hname with h | h
  · cases hfree.symm.trans h
  · exact h.2

theorem BoundDuring.defines (h : BoundDuring fuel part frame name m m')
    (hframe : frame < m.heap.frames.size) : part.Defines name := by
  obtain ⟨before, hbefore, hfree, hbound, -⟩ := h
  exact defines_of_gained (Nat.lt_of_lt_of_le hframe hbefore.heap.size) hfree hbound

end

/-- **Evaluation keeps frames.**  Whatever a node is, on whatever machine it is evaluated and
however that ends, every frame that is there keeps its parent and its names, and no frame but the
one of the node gains a name.  The names that this frame gains are defined by the node outside of
function bodies and blocks, and a branch or a loop binds them while it evaluates the expressions of
its head. -/
theorem evaluate_keeps_frames (fuel : Nat) (node : Node) (frame : FrameId) (m : Machine) :
    (∀ id, id < m.heap.frames.size →
      id < (Eval.after (Eval.evaluate fuel node frame) m).heap.frames.size ∧
      (Eval.after (Eval.evaluate fuel node frame) m).heap.parent? id = m.heap.parent? id ∧
      ∀ name,
        (m.heap.owns id name = true →
          (Eval.after (Eval.evaluate fuel node frame) m).heap.owns id name = true) ∧
        (id ≠ frame → (Eval.after (Eval.evaluate fuel node frame) m).heap.owns id name = true →
          m.heap.owns id name = true)) ∧
    ∀ name, frame < m.heap.frames.size → m.heap.owns frame name = false →
      (Eval.after (Eval.evaluate fuel node frame) m).heap.owns frame name = true →
      node.Defines name ∧
      (node.isControl = true → ∃ part ∈ node.valueParts, part.Defines name ∧
        ∃ below, fuel = below + 1 ∧
          BoundDuring below part frame name m (Eval.after (Eval.evaluate fuel node frame) m)) := by
  have hgrows := evaluate_grows_defined fuel node frame m
  refine ⟨fun id hid => ⟨?_, ?_, fun name => ⟨?_, fun hne hname => ?_⟩⟩,
    fun name hframe hfree hname => ⟨?_, fun hcontrol => ?_⟩⟩
  · exact Nat.lt_of_lt_of_le hid hgrows.heap.size
  · exact hgrows.heap.parent id hid
  · exact hgrows.heap.keeps id name
  · exact (hgrows.heap.gains id name hid hname).resolve_right fun h => hne h.1
  · exact defines_of_gained hframe hfree hname
  · cases fuel with
    | zero =>
      -- without fuel nothing happens, so no name is gained
      cases hfree.symm.trans hname
    | succ below =>
      obtain ⟨part, hpart, hbound⟩ := control_through hcontrol hframe name hfree hname
      exact ⟨part, hpart, hbound.defines hframe, below, rfl, hbound⟩

/-- `if (x := "a") { var y = "b" }`. -/
def definingBranch : Node :=
  .conditional (.definition "x" (.constant (.str "a") 1) 1)
    [.definition "y" (.constant (.str "b") 2) 2] none 1

/-- A machine with one frame, which is empty. -/
def oneFrame : Machine := ⟨⟨#[⟨[], none⟩], #[], 0⟩, .ofInput [], 0, 0⟩

theorem definingBranch_keeps_frame :
    (Eval.after (Eval.evaluate 3 definingBranch 0) oneFrame).heap.parent? 0 = none ∧
      definingBranch.Defines "x" ∧
      ∃ part ∈ definingBranch.valueParts, part.Defines "x" ∧ ∃ below, 3 = below + 1 ∧
        BoundDuring below part 0 "x" oneFrame
          (Eval.after (Eval.evaluate 3 definingBranch 0) oneFrame) := by
  obtain ⟨hframes, hgained⟩ := evaluate_keeps_frames 3 definingBranch 0 oneFrame
  obtain ⟨-, hparent, -⟩ := hframes 0 (by decide)
  obtain ⟨hdefines, hthrough⟩ := hgained "x" (by decide) rfl rfl
  exact ⟨hparent, hdefines, hthrough rfl⟩

end PairScript
