import PairScript.Eval.Machine

/-!
# Procedures that uphold an invariant

`Upholds I F p Q` says what the procedure `p` does on every machine that satisfies `I`: if it
ends, the machine satisfies `I` again and the result satisfies `Q`; if it fails, the cause
satisfies `F`; and if its bound is too small nothing is claimed.

The rules of this module go through the building blocks of procedures, so that a property of
evaluation is shown along the definition of each construct.
-/

namespace PairScript

/-- An end with a machine in `I` and a result in `Q`, or a failure with a cause in `F`. -/
def EndsIn (I : Machine → Prop) (F : EvalCause → Prop) {α : Type} (Q : α → Prop) :
    EStateM.Result (Halt EvalCause) Machine α → Prop
  | .ok a m => I m ∧ Q a
  | .error (.fault f) _ => F f.cause
  | .error .outOfFuel _ => True

/-- The procedure `p` keeps `I`, fails only with causes in `F`, and gives results in `Q`. -/
def Upholds (I : Machine → Prop) (F : EvalCause → Prop) {α : Type} (p : Eval α) (Q : α → Prop) :
    Prop :=
  ∀ m, I m → EndsIn I F Q (p m)

namespace Upholds

variable {I : Machine → Prop} {F : EvalCause → Prop} {α β : Type} {p : Eval α} {Q Q' : α → Prop}

/-! ### Reading a result off -/

theorem ok (h : Upholds I F p Q) {m m' : Machine} {a : α} (hm : I m) (hp : p m = .ok a m') :
    I m' ∧ Q a := by
  have hend := h m hm
  rwa [hp] at hend

theorem fault (h : Upholds I F p Q) {m m' : Machine} {f : EvalFault} (hm : I m)
    (hp : p m = .error (.fault f) m') : F f.cause := by
  have hend := h m hm
  rwa [hp] at hend

/-! ### Sequencing -/

/-- Every procedure upholds what says nothing. -/
theorem any (p : Eval α) : Upholds (fun _ => True) (fun _ => True) p fun _ => True := by
  intro m _
  match p m with
  | .ok _ _ => exact ⟨trivial, trivial⟩
  | .error (.fault _) _ => exact trivial
  | .error .outOfFuel _ => exact trivial

theorem mono (h : Upholds I F p Q) (hQ : ∀ a, Q a → Q' a) : Upholds I F p Q' := by
  intro m hm
  have hend := h m hm
  match hp : p m with
  | .ok a m' =>
    rw [hp] at hend
    exact ⟨hend.1, hQ a hend.2⟩
  | .error (.fault f) _ => rwa [hp] at hend
  | .error .outOfFuel _ => exact trivial

theorem pure {a : α} (h : Q a) : Upholds I F (pure a) Q := fun _ hm => ⟨hm, h⟩

theorem bind {f : α → Eval β} {P : β → Prop} (hp : Upholds I F p Q)
    (hf : ∀ a, Q a → Upholds I F (f a) P) : Upholds I F (p >>= f) P := by
  intro m hm
  have hend := hp m hm
  show EndsIn I F P (EStateM.bind p f m)
  unfold EStateM.bind
  match hp : p m with
  | .ok a m' =>
    rw [hp] at hend
    exact hf a hend.2 m' hend.1
  | .error (.fault f) _ => rwa [hp] at hend
  | .error .outOfFuel _ => exact trivial

theorem get_bind {f : Machine → Eval β} {P : β → Prop}
    (h : ∀ m, I m → Upholds I F (f m) P) : Upholds I F (get >>= f) P :=
  fun m hm => h m hm m hm

theorem fail {cause : EvalCause} {line : Nat} (h : F cause) :
    Upholds I F (Eval.fail cause line) Q := fun _ _ => h

theorem exhausted : Upholds I F Eval.exhausted Q := fun _ _ => trivial

theorem settle {x : Except EvalCause α} {line : Nat} (hok : ∀ a, x = .ok a → Q a)
    (herror : ∀ cause, x = .error cause → F cause) : Upholds I F (Eval.settle line x) Q := by
  cases x with
  | ok a => exact .pure (hok a rfl)
  | error cause => exact .fail (herror cause rfl)

/-! ### Machines -/

theorem onHeap {f : Heap → α × Heap}
    (h : ∀ m, I m → I { m with heap := (f m.heap).2 } ∧ Q (f m.heap).1) :
    Upholds I F (Eval.onHeap f) Q := fun m hm => h m hm

theorem lookup? {frame : FrameId} {name : String} {Q : Option Value → Prop}
    (h : ∀ m, I m → Q (m.heap.lookup frame name)) : Upholds I F (Eval.lookup? frame name) Q :=
  fun m hm => ⟨hm, h m hm⟩

theorem lookup {frame : FrameId} {name : String} {line : Nat} {Q : Value → Prop}
    (hF : F (.unknownVariable name))
    (h : ∀ m value, I m → m.heap.lookup frame name = some value → Q value) :
    Upholds I F (Eval.lookup frame name line) Q := by
  refine .bind (.lookup? (Q := fun found => ∀ value, found = some value → Q value) ?_) ?_
  · exact fun m hm value => h m value hm
  · intro found hfound
    cases found with
    | none => exact .fail hF
    | some value => exact .pure (hfound value rfl)

theorem onHost {line : Nat} {f : Host → Except HostFailure α × Host}
    (hI : ∀ m host, I m → I { m with host := host }) (hF : ∀ failure, F (.host failure))
    (hQ : ∀ host a, (f host).1 = .ok a → Q a) : Upholds I F (Eval.onHost line f) Q := by
  refine .bind (Q := fun r => ∀ a, r = .ok a → Q a) ?_ ?_
  · exact fun m hm => ⟨hI m _ hm, fun a => hQ m.host a⟩
  · intro r hr
    cases r with
    | ok a => exact .pure (hr a rfl)
    | error failure => exact .fail (hF failure)

/-- A call upholds what its body does, if entering and leaving are no concern of `I`. -/
theorem asCall {line : Nat} (hI : ∀ m depth, I m → I { m with depth := depth })
    (hF : ∀ limit, F (.callDepthExceeded limit)) (h : Upholds I F p Q) :
    Upholds I F (Eval.asCall line p) Q := by
  refine .bind (Q := fun _ => True) ?_ ?_
  · refine .get_bind fun m hm => ?_
    split
    · exact .fail (hF _)
    · exact fun _ _ => ⟨hI m _ hm, trivial⟩
  · intro _ _ m hm
    have hend := h m hm
    unfold Eval.leavingAfter
    match hp : p m with
    | .ok a m' =>
      rw [hp] at hend
      exact ⟨hI m' _ hend.1, hend.2⟩
    | .error (.fault f) _ => rwa [hp] at hend
    | .error .outOfFuel _ => exact trivial

end Upholds

end PairScript
