import PairScript.Proofs.Eval.Regime

/-!
# Contracts

A contract is a regime in which nothing changes with the stage of a run, and in which all frames,
names and lines are equal.  It says which machines an evaluation starts on and ends with, which it
halts on, which values a program may get hold of, and in which frames it may bind a name.

`Contract.step_follows` is what regimes have to say about contracts: if the parts of a node meet a
contract where a step evaluates them, and calls of closures meet it, then the step does.  A call may
meet its contract by another one, for the machines with one more call in progress.
-/

namespace PairScript

/-- What an evaluation relies on and answers for. -/
structure Contract where
  /-- The machines that it starts on, and ends with. -/
  machine : Machine → Prop
  /-- How it may halt, and on which machines. -/
  halt : Halt EvalCause → Machine → Prop
  /-- The values that the program may get hold of. -/
  value : Value → Prop
  /-- The names that may be bound in a frame. -/
  binds : FrameId → String → Prop
  fault : ∀ {m : Machine} (f : EvalFault), machine m → halt (.fault f) m
  host : ∀ {m : Machine} (host : Host), machine m → machine { m with host := host }
  cells : ∀ {m : Machine} (n : CellId),
    machine m → machine { m with heap := { m.heap with nextCell := n } }
  closure : ∀ {m : Machine}, machine m → machine { m with heap := m.heap.newClosure.2 }
  members : ∀ {m : Machine} (id : ClosureId) (frame : FrameId),
    machine m → machine { m with heap := m.heap.setMemberFrame id frame }
  /-- A new frame may bind every name. -/
  bind : ∀ {m : Machine} (parent : FrameId) (names : List String) {values : List Value},
    machine m → (∀ v ∈ values, value v) →
    machine { m with heap := (m.heap.bind parent names values).2 } ∧
      ∀ name, binds m.heap.frames.size name
  define : ∀ {m : Machine} {frame : FrameId} {name : String} {v : Value}, machine m →
    binds frame name → value v → machine { m with heap := m.heap.define frame name v }
  assign : ∀ {m : Machine} {frame : FrameId} {name : String} {v : Value}, machine m → value v →
    machine { m with heap := (m.heap.assign frame name v).2 }
  lookup : ∀ {m : Machine} {frame : FrameId} {name : String} {v : Value}, machine m →
    m.heap.lookup frame name = some v → value v
  byParts : Value.ByParts value

namespace Contract

variable {k : Contract} {α β : Type} {p : Eval α} {Q Q' : α → Prop} {line : Nat}

/-- How a procedure that meets the contract ends. -/
def Ends (k : Contract) {α : Type} (Q : α → Prop) :
    EStateM.Result (Halt EvalCause) Machine α → Prop
  | .ok a m => k.machine m ∧ Q a
  | .error halt m => k.halt halt m

/-- On a machine of the contract, `p` ends with one and with a result in `Q`, or halts as it may. -/
def Meets (k : Contract) {α : Type} (p : Eval α) (Q : α → Prop) : Prop :=
  ∀ m, k.machine m → k.Ends Q (p m)

/-- The outcomes that hold values of the contract. -/
def outcome (k : Contract) : Outcome → Prop
  | .value v => k.value v
  | .signal (.giveBack v) => k.value v
  | .signal _ => True

/-! ### Two procedures -/

/-- `p` meets the contract, and where it finishes, `q` does the same. -/
structure Follows (k : Contract) {α : Type} (p q : Eval α) (Q : α → Prop) : Prop where
  meets : k.Meets p Q
  same : ∀ m, k.machine m → Eval.Finishes (p m) → q m = p m

/-- A procedure in which one evaluator follows another. -/
abbrev Lifts (k : Contract) (self self' : Evaluator) {α : Type} (p : Evaluator → Eval α)
    (Q : α → Prop) : Prop :=
  k.Follows (p self) (p self') Q

/-- One evaluator follows another on a node in a frame. -/
abbrev LiftsAt (k : Contract) (self self' : Evaluator) (frame : FrameId) (node : Node) : Prop :=
  k.Follows (self node frame) (self' node frame) k.outcome

theorem Meets.self (h : k.Meets p Q) : k.Follows p p Q := ⟨h, fun _ _ _ => rfl⟩

/-! ### Contracts as regimes -/

/-- A contract as a regime. -/
def toRegime (k : Contract) : Regime where
  machine := k.machine
  halt := k.halt
  stage _ := 0
  value _ := k.value
  frame _ _ := True
  closureId _ := True
  binds := k.binds
  name _ := True
  line _ := True
  lenient := True
  value_mono _ := id
  frame_mono _ := id
  byParts _ := k.byParts
  closures _ := ⟨trivial, fun _ _ => trivial, trivial⟩
  fault hm _ := k.fault _ hm
  host host hm := ⟨k.host host hm, Nat.le_refl 0⟩
  cells n hm := ⟨k.cells n hm, Nat.le_refl 0⟩
  closure hm := ⟨⟨k.closure hm, Nat.le_refl 0⟩, trivial⟩
  member _ _ _ := trivial
  members _ _ hm _ _ := ⟨k.members _ _ hm, Nat.le_refl 0⟩
  bind hm _ _ hvalues :=
    have h := k.bind _ _ hm hvalues
    ⟨⟨h.1, Nat.le_refl 0⟩, trivial, fun name _ => h.2 name⟩
  define hm _ hbinds hv := ⟨k.define hm hbinds hv, Nat.le_refl 0⟩
  assign hm _ _ hv := ⟨k.assign hm hv, Nat.le_refl 0⟩
  lookup hm _ hfound := k.lookup hm hfound

theorem Meets.toRegime (h : k.Meets p Q) (n : Nat) : k.toRegime.Meets n p fun _ => Q := by
  intro m hm _
  have hend := h m hm
  match hp : p m with
  | .ok a m' =>
    rw [hp] at hend
    exact ⟨hend.1, Nat.le_refl 0, hend.2⟩
  | .error halt m' => rwa [hp] at hend

theorem Meets.ofRegime (h : k.toRegime.Meets 0 p fun _ => Q) : k.Meets p Q := by
  intro m hm
  have hend := h m hm (Nat.le_refl 0)
  match hp : p m with
  | .ok a m' =>
    rw [hp] at hend
    exact ⟨hend.1, hend.2.2⟩
  | .error halt m' => rwa [hp] at hend

theorem Follows.toRegime {q : Eval α} (h : k.Follows p q Q) (n : Nat) :
    k.toRegime.Follows n p q fun _ => Q :=
  ⟨h.meets.toRegime n, fun m hm _ hfinishes => h.same m hm (hfinishes trivial)⟩

theorem Follows.ofRegime {q : Eval α} (h : k.toRegime.Follows 0 p q fun _ => Q) :
    k.Follows p q Q :=
  ⟨.ofRegime h.meets, fun m hm hfinishes => h.same m hm (Nat.le_refl 0) fun _ => hfinishes⟩

theorem toRegime_outcome : k.toRegime.outcome = fun _ => k.outcome := by
  funext _ o
  match o with
  | .value _ | .signal (.giveBack _) => rfl
  | .signal .breakOut | .signal .continueOn | .signal .fallThrough => rfl

theorem toRegime_liftsAt {self self' : Evaluator} {frame : FrameId} {node : Node}
    (h : k.LiftsAt self self' frame node) (n : Nat) :
    k.toRegime.LiftsAt n self self' frame node := by
  refine ⟨⟨trivial, fun _ _ => trivial⟩, ?_⟩
  rw [toRegime_outcome]
  exact h.toRegime n

/-! ### Sequencing -/

theorem Meets.mono (h : k.Meets p Q) (hQ : ∀ a, Q a → Q' a) : k.Meets p Q' :=
  .ofRegime ((h.toRegime 0).mono fun _ a _ => hQ a)

theorem Meets.bind {f : α → Eval β} {P : β → Prop} (hp : k.Meets p Q)
    (hf : ∀ a, Q a → k.Meets (f a) P) : k.Meets (p >>= f) P :=
  .ofRegime ((hp.toRegime 0).bind fun stage a _ ha => (hf a ha).toRegime stage)

theorem Meets.exhausted (h : ∀ m, k.machine m → k.halt .outOfFuel m) :
    k.Meets Eval.exhausted Q :=
  fun m hm => h m hm

theorem Meets.onHeap {f : Heap → α × Heap}
    (h : ∀ m, k.machine m → k.machine { m with heap := (f m.heap).2 } ∧ Q (f m.heap).1) :
    k.Meets (Eval.onHeap f) Q :=
  fun m hm => h m hm

namespace Follows

variable {q : Eval α}

theorem mono (h : k.Follows p q Q) (hQ : ∀ a, Q a → Q' a) : k.Follows p q Q' :=
  ⟨h.meets.mono hQ, h.same⟩

/-- What does not finish is followed by everything. -/
theorem exhausted (h : ∀ m, k.machine m → k.halt .outOfFuel m) :
    k.Follows Eval.exhausted q Q :=
  ⟨.exhausted h, fun _ _ => False.elim⟩

theorem bind {f g : α → Eval β} {P : β → Prop} (h : k.Follows p q Q)
    (hf : ∀ a, Q a → k.Follows (f a) (g a) P) : k.Follows (p >>= f) (q >>= g) P :=
  .ofRegime ((h.toRegime 0).bind fun stage a _ ha => (hf a ha).toRegime stage)

end Follows

/-! ### Nodes -/

variable {self self' : Evaluator} {frame : FrameId} {nodes : List Node} {v : Value}

theorem sequence_lifts (h : ∀ node ∈ nodes, k.LiftsAt self self' frame node) :
    k.Lifts self self' (Eval.sequence · frame nodes) k.outcome := by
  refine .ofRegime ?_
  rw [← toRegime_outcome]
  exact Regime.sequence_lifts fun node hnode => toRegime_liftsAt (h node hnode) 0

theorem valuesOf_lifts (h : ∀ node ∈ nodes, k.LiftsAt self self' frame node) :
    k.Lifts self self' (Eval.valuesOf · nodes frame) (∀ v ∈ ·, k.value v) :=
  .ofRegime (Regime.valuesOf_lifts fun node hnode => toRegime_liftsAt (h node hnode) 0)

theorem program_lifts {last : Value} (h : ∀ node ∈ nodes, k.LiftsAt self self' frame node)
    (hlast : k.value last) : k.Lifts self self' (Eval.program · frame last nodes) k.value :=
  .ofRegime (Regime.program_lifts (fun node hnode => toRegime_liftsAt (h node hnode) 0) hlast)

/-- Statements that meet the contract in every frame that is theirs. -/
def Scopes (k : Contract) (self self' : Evaluator) (body : List Node) : Prop :=
  ∀ inner, (∀ name, k.binds inner name) → ∀ node ∈ body, k.LiftsAt self self' inner node

/-- What is asked of the closures of a contract: as a call, their bodies meet it in every frame
that is theirs. -/
def Calls (k : Contract) (self self' : Evaluator) : Prop :=
  ∀ (c : Closure) (line : Nat) (inner : FrameId), k.value (.closure c) →
    (∀ name, k.binds inner name) →
    k.Lifts self self' (fun self => Eval.asCall line (Eval.sequence self inner c.body)) k.outcome

/-- A call meets the contract if its body, one call deeper, meets one that leads back to it. -/
theorem asCall_follows {q : Eval α} (h : ∀ m, k.machine m → m.depth < m.limit → ∃ k' : Contract,
      k'.machine { m with depth := m.depth + 1 } ∧ k'.Follows p q Q ∧
      (∀ m', k'.machine m' → k.machine (Eval.leaveCall m')) ∧
      ∀ halt m', k'.halt halt m' → k.halt halt (Eval.leaveCall m')) :
    k.Follows (Eval.asCall line p) (Eval.asCall line q) Q := by
  refine ⟨fun m hm => ?_, fun m hm => ?_⟩
  · rw [Eval.asCall_apply]
    split
    next => exact k.fault _ hm
    next hdepth =>
      obtain ⟨k', henter, hp, hmachine, hhalt⟩ := h m hm (Nat.lt_of_not_le hdepth)
      have hend := hp.meets _ henter
      unfold Eval.leavingAfter
      match hresult : p { m with depth := m.depth + 1 } with
      | .ok a m' =>
        rw [hresult] at hend
        exact ⟨hmachine m' hend.1, hend.2⟩
      | .error halt m' =>
        rw [hresult] at hend
        exact hhalt halt m' hend
  · rw [Eval.asCall_apply, Eval.asCall_apply]
    split
    next => exact fun _ => rfl
    next hdepth =>
      obtain ⟨k', henter, hp, -, -⟩ := h m hm (Nat.lt_of_not_le hdepth)
      intro hfinishes
      unfold Eval.leavingAfter
      rw [hp.same _ henter (Eval.finishes_leavingAfter.1 hfinishes)]

theorem Calls.toRegime (h : k.Calls self self') : k.toRegime.Calls self self' := by
  intro n c line inner _ hc hinner
  have hcall := h c line inner hc fun name => hinner.2 name trivial
  rw [toRegime_outcome]
  exact hcall.toRegime n

theorem apply_lifts (hcalls : k.Calls self self') {args : List Value} (hv : k.value v)
    (hargs : ∀ arg ∈ args, k.value arg) :
    k.Lifts self self' (Eval.apply · v args line) k.value :=
  .ofRegime (Regime.apply_lifts hcalls.toRegime trivial hv hargs)

/-- What a step asks of its node: its parts meet the contract where they are evaluated, and what it
binds and makes by itself is within the contract. -/
structure Admits (k : Contract) (below below' : Evaluator) (frame : FrameId) (node : Node) :
    Prop where
  values : ∀ part ∈ node.valueParts, k.LiftsAt below below' frame part
  members : ∀ part ∈ node.memberParts, k.LiftsAt below below' frame part
  statements : k.Scopes below below' node.statementParts
  binds : ∀ name value line, node = .definition name value line → k.binds frame name
  closure : ∀ name params body line, node = .function name params body line →
    ∀ id, k.value (.closure ⟨id, name, params, body, frame⟩)
  fuel : node.isUnbounded = true → ∀ m, k.machine m → k.halt .outOfFuel m

theorem Admits.toRegime {node : Node} (h : k.Admits self self' frame node) :
    k.toRegime.Admits 0 self self' frame node where
  fits := ⟨trivial, fun _ _ => trivial⟩
  within := trivial
  values part hpart := toRegime_liftsAt (h.values part hpart) 0
  members part hpart := toRegime_liftsAt (h.members part hpart) 0
  statements stage inner _ hinner part hpart :=
    toRegime_liftsAt (h.statements inner (fun name => hinner.2 name trivial) part hpart) stage
  binds := h.binds
  closure name params body line hnode id _ := h.closure name params body line hnode id
  fuel := h.fuel

/-- **One level of evaluation meets a contract** that the level below meets. -/
theorem step_follows {bound bound' : Nat} {node : Node} (hbound : bound ≤ bound')
    (hcalls : k.Calls self self') (h : k.Admits self self' frame node) :
    k.Follows (Eval.step bound self node frame) (Eval.step bound' self' node frame)
      k.outcome := by
  refine .ofRegime ?_
  rw [← toRegime_outcome]
  exact Regime.step_follows (.inr ⟨trivial, hbound⟩) hcalls.toRegime h.toRegime

end Contract

end PairScript
