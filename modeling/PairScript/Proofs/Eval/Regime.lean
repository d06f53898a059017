import PairScript.Eval.Node
import PairScript.Proofs.Primitive.Performs
import PairScript.Proofs.Syntax.WellFormed

/-!
# Regimes

A regime says what an evaluation relies on and what it answers for: the machines that it starts on
and ends with, how it may halt, the values and frames that a program may get hold of, the names
that it may use, and the lines that it may be blamed on.  The laws of a regime say that nothing
that evaluation does on its own account leaves it.

Some frames are there from some moment on only, and the closures made in them too.  So values and
frames belong to a regime from a stage on, and the stage of a machine never falls.  What holds at a
stage is said of all machines that have reached it.

`Regime.step_follows` goes through evaluation once and for all.  If the parts of a node keep to a
regime where a step evaluates them, and calls of closures do, then the step does.  What is left of
a property of all runs is the regime, and what a call does.

Two evaluators are compared along the way.  Where one may take the place of the other on the parts
of a node and in calls, it may do so in the step.  Some comparisons are about runs that finish
only; a regime is lenient then.
-/

namespace PairScript

/-! ### Procedures -/

/-- The machine that a procedure leaves behind, however it ends. -/
def Eval.after {α : Type} (p : Eval α) (m : Machine) : Machine :=
  match p m with
  | .ok _ m' => m'
  | .error _ m' => m'

theorem Eval.bind_eq_ok {α β : Type} {p : Eval α} {f : α → Eval β} {b : β} {m m' : Machine}
    (h : (p >>= f) m = .ok b m') : ∃ a m₁, p m = .ok a m₁ ∧ f a m₁ = .ok b m' := by
  change EStateM.bind p f m = .ok b m' at h
  unfold EStateM.bind at h
  split at h
  next a m₁ hp => exact ⟨a, m₁, hp, h⟩
  next => cases h

theorem Eval.bind_of_ok {α β : Type} {p : Eval α} {f : α → Eval β} {a : α} {m m' : Machine}
    (h : p m = .ok a m') : (p >>= f) m = f a m' := by
  show EStateM.bind p f m = f a m'
  rw [EStateM.bind, h]

theorem Eval.bind_of_error {α β : Type} {p : Eval α} {f : α → Eval β} {halt : Halt EvalCause}
    {m m' : Machine} (h : p m = .error halt m') : (p >>= f) m = .error halt m' := by
  show EStateM.bind p f m = .error halt m'
  rw [EStateM.bind, h]

theorem Eval.lookup_of_some {frame : FrameId} {name : String} {line : Nat} {v : Value} {m : Machine}
    (h : m.heap.lookup frame name = some v) : Eval.lookup frame name line m = .ok v m := by
  have hfound : Eval.lookup? frame name m = .ok (some v) m := congrArg (EStateM.Result.ok · m) h
  exact Eval.bind_of_ok hfound

/-- A run that ended with a result or a fault, and not because its bound was too small. -/
def Eval.Finishes {α : Type} : EStateM.Result (Halt EvalCause) Machine α → Prop
  | .error .outOfFuel _ => False
  | _ => True

theorem Eval.finishes_leavingAfter {α : Type} {p : Eval α} {m : Machine} :
    Eval.Finishes (Eval.leavingAfter p m) ↔ Eval.Finishes (p m) := by
  unfold Eval.leavingAfter
  match p m with
  | .ok _ _ | .error (.fault _) _ | .error .outOfFuel _ => exact Iff.rfl

/-- A call is refused at the limit, and runs its body one call deeper otherwise. -/
theorem Eval.asCall_apply {α : Type} {p : Eval α} {line : Nat} (m : Machine) :
    Eval.asCall line p m =
      if m.limit ≤ m.depth then .error (.fault ⟨.callDepthExceeded m.limit, line⟩) m
      else Eval.leavingAfter p { m with depth := m.depth + 1 } := by
  have henter : Eval.enterCall line m =
      (if m.limit ≤ m.depth then Eval.fail (.callDepthExceeded m.limit) line
        else set { m with depth := m.depth + 1 } : Eval Unit) m := rfl
  show EStateM.bind (Eval.enterCall line) (fun _ => Eval.leavingAfter p) m = _
  by_cases hdepth : m.limit ≤ m.depth
  · rw [EStateM.bind, henter, if_pos hdepth, if_pos hdepth]
    rfl
  · rw [EStateM.bind, henter, if_neg hdepth, if_neg hdepth]
    rfl

/-! ### The terms of a regime -/

/-- What an evaluation relies on and answers for. -/
structure Regime.Terms where
  /-- The machines that it starts on, and ends with. -/
  machine : Machine → Prop
  /-- How it may halt, and on which machines. -/
  halt : Halt EvalCause → Machine → Prop
  /-- How far a run has come with a machine. -/
  stage : Machine → Nat
  /-- The values that the program may get hold of, from a stage on. -/
  value : Nat → Value → Prop
  /-- The frames that the program may get hold of, from a stage on. -/
  frame : Nat → FrameId → Prop
  /-- The numbers of the closures that the program may get hold of. -/
  closureId : ClosureId → Prop
  /-- The names that may be bound in a frame. -/
  binds : FrameId → String → Prop
  /-- The names that the program uses. -/
  name : String → Prop
  /-- The lines that a fault may be blamed on. -/
  line : Nat → Prop
  /-- Whether only runs that finish are compared. -/
  lenient : Prop

/-- A machine may become another: it is one of the regime, and no stage is undone. -/
def Regime.Terms.Goes (t : Regime.Terms) (m m' : Machine) : Prop :=
  t.machine m' ∧ t.stage m ≤ t.stage m'

/-- Terms that evaluation does not leave on its own account. -/
structure Regime extends Regime.Terms where
  value_mono : ∀ {n n' : Nat} {v : Value}, n ≤ n' → value n v → value n' v
  frame_mono : ∀ {n n' : Nat} {f : FrameId}, n ≤ n' → frame n f → frame n' f
  byParts : ∀ n, Value.ByParts (value n)
  closures : ∀ {n : Nat} {c : Closure}, value n (.closure c) →
    frame n c.frame ∧ (∀ param ∈ c.params, name param) ∧ closureId c.id
  fault : ∀ {m : Machine} {f : EvalFault}, machine m → line f.line → halt (.fault f) m
  host : ∀ {m : Machine} (host : Host), machine m → toTerms.Goes m { m with host := host }
  cells : ∀ {m : Machine} (n : CellId), machine m →
    toTerms.Goes m { m with heap := { m.heap with nextCell := n } }
  closure : ∀ {m : Machine}, machine m →
    toTerms.Goes m { m with heap := m.heap.newClosure.2 } ∧ closureId m.heap.newClosure.1
  member : ∀ {m : Machine} {id : ClosureId} {f : FrameId}, machine m → closureId id →
    m.heap.memberFrame? id = some f → frame (stage m) f
  /-- Members are kept at the end of what begins without them. -/
  members : ∀ {before m : Machine} {id : ClosureId} {f : FrameId}, machine before →
    before.heap.memberFrame? id = none → machine m → closureId id → frame (stage m) f →
    toTerms.Goes m { m with heap := m.heap.setMemberFrame id f }
  /-- A new frame may bind every name that the program uses. -/
  bind : ∀ {m : Machine} {parent : FrameId} {names : List String} {values : List Value},
    machine m → frame (stage m) parent → (∀ n ∈ names, name n) →
    (∀ v ∈ values, value (stage m) v) →
    toTerms.Goes m { m with heap := (m.heap.bind parent names values).2 } ∧
      frame (stage { m with heap := (m.heap.bind parent names values).2 }) m.heap.frames.size ∧
      ∀ n, name n → binds m.heap.frames.size n
  define : ∀ {m : Machine} {f : FrameId} {n : String} {v : Value}, machine m →
    frame (stage m) f → binds f n → value (stage m) v →
    toTerms.Goes m { m with heap := m.heap.define f n v }
  assign : ∀ {m : Machine} {f : FrameId} {n : String} {v : Value}, machine m →
    frame (stage m) f → name n → value (stage m) v →
    toTerms.Goes m { m with heap := (m.heap.assign f n v).2 }
  lookup : ∀ {m : Machine} {f : FrameId} {n : String} {v : Value}, machine m →
    frame (stage m) f → m.heap.lookup f n = some v → value (stage m) v

namespace Regime

variable {k : Regime} {α β : Type} {p : Eval α} {n n' : Nat} {Q Q' : Nat → α → Prop} {line : Nat}

/-- How a procedure that keeps to the regime ends, if it starts at stage `n`. -/
def Ends (k : Regime) {α : Type} (n : Nat) (Q : Nat → α → Prop) :
    EStateM.Result (Halt EvalCause) Machine α → Prop
  | .ok a m => k.machine m ∧ n ≤ k.stage m ∧ Q (k.stage m) a
  | .error halt m => k.halt halt m

/-- From stage `n` on, `p` ends with a machine of the regime, no stage being undone, and with a
result in `Q`, or halts as it may. -/
def Meets (k : Regime) {α : Type} (n : Nat) (p : Eval α) (Q : Nat → α → Prop) : Prop :=
  ∀ m, k.machine m → n ≤ k.stage m → k.Ends (k.stage m) Q (p m)

/-- The outcomes that hold values of the regime. -/
def outcome (k : Regime) (n : Nat) : Outcome → Prop
  | .value v => k.value n v
  | .signal (.giveBack v) => k.value n v
  | .signal _ => True

/-- The values of a list are of the regime. -/
def Values (k : Regime) (n : Nat) (values : List Value) : Prop := ∀ v ∈ values, k.value n v

/-- A frame of one's own: all names that the program uses may be bound there. -/
def Own (k : Regime) (n : Nat) (inner : FrameId) : Prop :=
  k.frame n inner ∧ ∀ name, k.name name → k.binds inner name

theorem values_nil : k.Values n [] := by simp [Values]

theorem values_cons {v : Value} {values : List Value} :
    k.Values n (v :: values) ↔ k.value n v ∧ k.Values n values :=
  List.forall_mem_cons

theorem Values.later {values : List Value} (h : k.Values n values) (hn : n ≤ n') :
    k.Values n' values :=
  fun v hv => k.value_mono hn (h v hv)

theorem Own.later {inner : FrameId} (h : k.Own n inner) (hn : n ≤ n') : k.Own n' inner :=
  ⟨k.frame_mono hn h.1, h.2⟩

theorem null (k : Regime) (n : Nat) : k.value n .null := (k.byParts n).atom rfl

theorem Ends.mono {r : EStateM.Result (Halt EvalCause) Machine α} (h : k.Ends n Q r)
    (hn : n' ≤ n) (hQ : ∀ stage a, n ≤ stage → Q stage a → Q' stage a) : k.Ends n' Q' r := by
  match r with
  | .ok a m =>
    obtain ⟨hm, hstage, ha⟩ := h
    exact ⟨hm, Nat.le_trans hn hstage, hQ _ a hstage ha⟩
  | .error halt m => exact h

/-! ### Sequencing -/

namespace Meets

theorem mono (h : k.Meets n p Q) (hQ : ∀ stage a, n ≤ stage → Q stage a → Q' stage a) :
    k.Meets n p Q' :=
  fun m hm hn => (h m hm hn).mono (Nat.le_refl _) fun stage a hstage =>
    hQ stage a (Nat.le_trans hn hstage)

theorem later (h : k.Meets n p Q) (hn : n ≤ n') : k.Meets n' p Q :=
  fun m hm hstage => h m hm (Nat.le_trans hn hstage)

theorem pure {a : α} (h : ∀ stage, n ≤ stage → Q stage a) : k.Meets n (pure a) Q :=
  fun _ hm hn => ⟨hm, Nat.le_refl _, h _ hn⟩

theorem bind {f : α → Eval β} {P : Nat → β → Prop} (hp : k.Meets n p Q)
    (hf : ∀ stage a, n ≤ stage → Q stage a → k.Meets stage (f a) P) : k.Meets n (p >>= f) P := by
  intro m hm hn
  have hend := hp m hm hn
  show k.Ends (k.stage m) P (EStateM.bind p f m)
  unfold EStateM.bind
  match hp : p m with
  | .ok a m' =>
    rw [hp] at hend
    obtain ⟨hm', hstage, ha⟩ := hend
    have hrest := hf _ a (Nat.le_trans hn hstage) ha m' hm' (Nat.le_refl _)
    exact hrest.mono hstage fun _ _ _ => id
  | .error halt m' => rwa [hp] at hend

theorem get_bind {f : Machine → Eval β} {P : Nat → β → Prop}
    (h : ∀ m, k.machine m → n ≤ k.stage m → k.Meets (k.stage m) (f m) P) :
    k.Meets n (get >>= f) P :=
  fun m hm hn => h m hm hn m hm (Nat.le_refl _)

theorem fail {cause : EvalCause} (hline : k.line line) : k.Meets n (Eval.fail cause line) Q :=
  fun _ hm _ => k.fault hm hline

theorem exhausted (h : ∀ m, k.machine m → k.halt .outOfFuel m) : k.Meets n Eval.exhausted Q :=
  fun m hm _ => h m hm

theorem settle {P : α → Prop} {x : Except EvalCause α} (hline : k.line line) (h : Yields x P) :
    k.Meets n (Eval.settle line x) fun _ => P := by
  cases x with
  | ok a => exact .pure fun _ _ => h.1 a rfl
  | error cause => exact .fail hline

theorem onHeap {f : Heap → α × Heap}
    (h : ∀ m, k.machine m → n ≤ k.stage m → k.Goes m { m with heap := (f m.heap).2 } ∧
      Q (k.stage { m with heap := (f m.heap).2 }) (f m.heap).1) :
    k.Meets n (Eval.onHeap f) Q := by
  intro m hm hn
  obtain ⟨⟨hm', hstage⟩, ha⟩ := h m hm hn
  exact ⟨hm', hstage, ha⟩

theorem onHost {f : Host → Except HostFailure α × Host} (hline : k.line line) :
    k.Meets n (Eval.onHost line f) fun _ _ => True := by
  refine .bind (Q := fun _ _ => True) (fun m hm _ => ?_) fun _ r _ _ => ?_
  · obtain ⟨hm', hstage⟩ := k.host (f m.host).2 hm
    exact ⟨hm', hstage, trivial⟩
  · cases r with
    | ok a => exact .pure fun _ _ => trivial
    | error failure => exact .fail hline

end Meets

/-! ### Two procedures -/

/-- `p` keeps to the regime, and `q` does the same, at least where `p` finishes. -/
structure Follows (k : Regime) {α : Type} (n : Nat) (p q : Eval α) (Q : Nat → α → Prop) :
    Prop where
  meets : k.Meets n p Q
  same : ∀ m, k.machine m → n ≤ k.stage m → (k.lenient → Eval.Finishes (p m)) → q m = p m

/-- A procedure in which one evaluator follows another. -/
abbrev Lifts (k : Regime) (n : Nat) (self self' : Evaluator) {α : Type} (p : Evaluator → Eval α)
    (Q : Nat → α → Prop) : Prop :=
  k.Follows n (p self) (p self') Q

theorem Meets.self (h : k.Meets n p Q) : k.Follows n p p Q := ⟨h, fun _ _ _ _ => rfl⟩

namespace Follows

variable {q : Eval α}

theorem mono (h : k.Follows n p q Q) (hQ : ∀ stage a, n ≤ stage → Q stage a → Q' stage a) :
    k.Follows n p q Q' :=
  ⟨h.meets.mono hQ, h.same⟩

theorem later (h : k.Follows n p q Q) (hn : n ≤ n') : k.Follows n' p q Q :=
  ⟨h.meets.later hn, fun m hm hstage => h.same m hm (Nat.le_trans hn hstage)⟩

theorem pure {a : α} (h : ∀ stage, n ≤ stage → Q stage a) :
    k.Follows n (Pure.pure a) (Pure.pure a) Q :=
  (Meets.pure h).self

theorem fail {cause : EvalCause} (hline : k.line line) :
    k.Follows n (Eval.fail cause line) (Eval.fail cause line) Q :=
  (Meets.fail hline).self

/-- What does not finish is followed by everything, if only what finishes is compared. -/
theorem exhausted (h : ∀ m, k.machine m → k.halt .outOfFuel m) (hlenient : k.lenient) :
    k.Follows n Eval.exhausted q Q :=
  ⟨.exhausted h, fun _ _ _ hfinishes => (hfinishes hlenient).elim⟩

theorem bind {f g : α → Eval β} {P : Nat → β → Prop} (h : k.Follows n p q Q)
    (hf : ∀ stage a, n ≤ stage → Q stage a → k.Follows stage (f a) (g a) P) :
    k.Follows n (p >>= f) (q >>= g) P := by
  refine ⟨h.meets.bind fun stage a hstage ha => (hf stage a hstage ha).meets,
    fun m hm hn hfinishes => ?_⟩
  have hend := h.meets m hm hn
  have hsame := h.same m hm hn
  change k.lenient → Eval.Finishes (EStateM.bind p f m) at hfinishes
  show EStateM.bind q g m = EStateM.bind p f m
  unfold EStateM.bind at hfinishes ⊢
  match hp : p m with
  | .ok a m' =>
    rw [hp] at hend hsame hfinishes
    obtain ⟨hm', hstage, ha⟩ := hend
    rw [hsame fun _ => trivial]
    exact (hf _ a (Nat.le_trans hn hstage) ha).same m' hm' (Nat.le_refl _) hfinishes
  | .error halt m' =>
    rw [hp] at hsame hfinishes
    have hfinishes : k.lenient → Eval.Finishes (EStateM.Result.error (α := α) halt m') := by
      intro hlenient
      cases halt with
      | fault f => trivial
      | outOfFuel => exact hfinishes hlenient
    rw [hsame hfinishes]

/-- What all results of a procedure have in common may be used after it. -/
theorem and {P : α → Prop} (h : k.Follows n p q Q) (hP : ∀ m a m', p m = .ok a m' → P a) :
    k.Follows n p q fun stage a => Q stage a ∧ P a := by
  refine ⟨fun m hm hn => ?_, h.same⟩
  have hend := h.meets m hm hn
  match hp : p m with
  | .ok a m' =>
    rw [hp] at hend
    exact ⟨hend.1, hend.2.1, hend.2.2, hP m a m' hp⟩
  | .error halt m' => rwa [hp] at hend

theorem get_bind {f g : Machine → Eval β} {P : Nat → β → Prop}
    (h : ∀ m, k.machine m → n ≤ k.stage m → k.Follows (k.stage m) (f m) (g m) P) :
    k.Follows n (get >>= f) (get >>= g) P :=
  ⟨.get_bind fun m hm hn => (h m hm hn).meets,
    fun m hm hn => (h m hm hn).same m hm (Nat.le_refl _)⟩

end Follows

/-! ### Frames -/

variable {frame : FrameId} {name : String} {v : Value}

theorem lookup?_meets : k.Meets n (Eval.lookup? frame name) fun _ _ => True :=
  fun _ hm _ => ⟨hm, Nat.le_refl _, trivial⟩

theorem lookup_meets (hline : k.line line) (hframe : k.frame n frame) :
    k.Meets n (Eval.lookup frame name line) k.value := by
  refine .bind (Q := fun stage found => ∀ v, found = some v → k.value stage v) ?_
    fun stage found _ hfound => ?_
  · intro m hm hn
    exact ⟨hm, Nat.le_refl _, fun v hv => k.lookup hm (k.frame_mono hn hframe) hv⟩
  · cases found with
    | none => exact .fail hline
    | some v => exact .pure fun _ hlater => k.value_mono hlater (hfound v rfl)

theorem define_meets (hframe : k.frame n frame) (hbinds : k.binds frame name)
    (hv : k.value n v) : k.Meets n (Eval.define frame name v) fun _ _ => True :=
  .onHeap fun _ hm hn =>
    ⟨k.define hm (k.frame_mono hn hframe) hbinds (k.value_mono hn hv), trivial⟩

theorem assign_meets (hline : k.line line) (hframe : k.frame n frame) (hname : k.name name)
    (hv : k.value n v) : k.Meets n (Eval.assign frame name v line) fun _ _ => True := by
  refine .bind (Q := fun _ _ => True) ?_ fun _ found _ _ => ?_
  · exact .onHeap fun _ hm hn =>
      ⟨k.assign hm (k.frame_mono hn hframe) hname (k.value_mono hn hv), trivial⟩
  · split
    · exact .pure fun _ _ => trivial
    · exact .fail hline

theorem bind_meets {names : List String} {values : List Value} (hframe : k.frame n frame)
    (hnames : ∀ name ∈ names, k.name name) (hvalues : k.Values n values) :
    k.Meets n (Eval.onHeap (Heap.bind frame names values)) k.Own :=
  .onHeap fun _ hm hn => k.bind hm (k.frame_mono hn hframe) hnames (hvalues.later hn)

theorem childFrame_meets (hframe : k.frame n frame) : k.Meets n (Eval.childFrame frame) k.Own := by
  have hnames : ∀ name ∈ ([] : List String), k.name name := by simp
  exact bind_meets hframe hnames values_nil

theorem boundFrame_meets {names : List String} {values : List Value} (hline : k.line line)
    (hframe : k.frame n frame) (hnames : ∀ name ∈ names, k.name name)
    (hvalues : k.Values n values) :
    k.Meets n (Eval.boundFrame frame names values line) k.Own := by
  unfold Eval.boundFrame
  split
  · exact bind_meets hframe hnames hvalues
  · exact .fail hline

/-! ### Primitives -/

theorem cells_meets {f : Heap → Value × Heap} {cell : Heap → CellId}
    (hf : ∀ h, (f h).2 = { h with nextCell := cell h }) (hv : ∀ h, k.value n (f h).1) :
    k.Meets n (Eval.onHeap f) k.value := by
  refine .onHeap fun m hm hn => ?_
  rw [hf]
  have hgoes := k.cells (cell m.heap) hm
  exact ⟨hgoes, k.value_mono (Nat.le_trans hn hgoes.2) (hv m.heap)⟩

theorem list_meets {items : List Value} (hitems : k.Values n items) :
    k.Meets n (Eval.onHeap (Heap.list items)) k.value :=
  cells_meets (fun _ => rfl)
    fun _ => (k.byParts n).chainOnto ((k.byParts n).atom rfl) (by simpa [Values] using hitems)

theorem readLine_meets (hline : k.line line) : k.Meets n (Primitive.readLine line) k.value := by
  refine .bind (.onHost hline) fun _ text _ _ => ?_
  cases text <;> exact .pure fun stage _ => (k.byParts stage).atom rfl

theorem performs_meets {p : Primitive} {args : List Value} {q : Eval Value} (hline : k.line line)
    (h : p.Performs (k.value n) args line q) : k.Meets n q k.value := by
  cases h with
  | settles yields =>
    exact (Meets.settle hline yields).mono fun _ _ hstage hv => k.value_mono hstage hv
  | pairs left right =>
    exact cells_meets (fun _ => rfl) fun _ => (k.byParts n).pair.2 ⟨left, right⟩
  | lists items_in => exact list_meets items_in
  | spells yields =>
    refine .bind (.settle hline yields) fun stage s _ _ => list_meets fun item hitem => ?_
    obtain ⟨ch, -, rfl⟩ := List.mem_map.1 hitem
    exact (k.byParts stage).atom rfl
  | prints => exact .bind (.onHost hline) fun _ _ _ _ => .pure fun stage _ => k.null stage
  | reads => exact readLine_meets hline
  | asks => exact .bind (.onHost hline) fun _ _ _ _ => readLine_meets hline
  | refuses => exact .fail hline

/-! ### Nodes where they are evaluated -/

/-- The line of a node and the names in it are of the regime. -/
structure Fits (k : Regime) (node : Node) : Prop where
  line : k.line node.line
  names : ∀ name ∈ node.names, k.name name

/-- One evaluator follows another on a node in a frame, from stage `n` on. -/
structure LiftsAt (k : Regime) (n : Nat) (below below' : Evaluator) (frame : FrameId)
    (node : Node) : Prop where
  fits : k.Fits node
  follows : k.Follows n (below node frame) (below' node frame) k.outcome

/-- Statements that keep to the regime in every frame that is theirs. -/
def Scopes (k : Regime) (n : Nat) (self self' : Evaluator) (body : List Node) : Prop :=
  ∀ stage inner, n ≤ stage → k.Own stage inner →
    ∀ node ∈ body, k.LiftsAt stage self self' inner node

variable {self self' : Evaluator} {node condition : Node} {nodes body : List Node}

theorem LiftsAt.later (h : k.LiftsAt n self self' frame node) (hn : n ≤ n') :
    k.LiftsAt n' self self' frame node :=
  ⟨h.fits, h.follows.later hn⟩

theorem LiftsAt.forall_later (h : ∀ node ∈ nodes, k.LiftsAt n self self' frame node)
    (hn : n ≤ n') : ∀ node ∈ nodes, k.LiftsAt n' self self' frame node :=
  fun node hnode => (h node hnode).later hn

theorem Scopes.later (h : k.Scopes n self self' body) (hn : n ≤ n') :
    k.Scopes n' self self' body :=
  fun stage inner hstage => h stage inner (Nat.le_trans hn hstage)

theorem Scopes.mono (h : k.Scopes n self self' nodes) (hsub : ∀ node ∈ body, node ∈ nodes) :
    k.Scopes n self self' body :=
  fun stage inner hstage hinner node hnode => h stage inner hstage hinner node (hsub node hnode)

/-! ### Values and sequences -/

theorem escaped_follows {s : Signal} (hline : k.line line) :
    k.Follows n (Eval.escaped s line) (Eval.escaped s line) Q := .fail hline

theorem valueOf_lifts (h : k.LiftsAt n self self' frame node) :
    k.Lifts n self self' (Eval.valueOf · node frame) k.value := by
  refine .bind h.follows fun stage o _ ho => ?_
  cases o with
  | value v => exact .pure fun _ hlater => k.value_mono hlater ho
  | signal s => exact escaped_follows h.fits.line

theorem valuesOnto_lifts {acc : List Value}
    (h : ∀ node ∈ nodes, k.LiftsAt n self self' frame node) (hacc : k.Values n acc) :
    k.Lifts n self self' (Eval.valuesOnto · frame nodes acc) k.Values := by
  induction nodes generalizing n acc with
  | nil => exact .pure fun stage hstage => by simpa [Values] using hacc.later hstage
  | cons node nodes ih =>
    obtain ⟨hnode, hnodes⟩ := List.forall_mem_cons.1 h
    refine .bind (valueOf_lifts hnode) fun stage v hstage hv => ?_
    refine ih (LiftsAt.forall_later hnodes hstage) ?_
    exact values_cons.2 ⟨hv, hacc.later hstage⟩

theorem valuesOf_lifts (h : ∀ node ∈ nodes, k.LiftsAt n self self' frame node) :
    k.Lifts n self self' (Eval.valuesOf · nodes frame) k.Values :=
  valuesOnto_lifts h values_nil

theorem null_follows :
    k.Follows n (Pure.pure (Outcome.value .null)) (Pure.pure (Outcome.value .null)) k.outcome :=
  .pure fun stage _ => k.null stage

theorem outcome_mono {o : Outcome} (hn : n ≤ n') (ho : k.outcome n o) : k.outcome n' o := by
  match o with
  | .value _ | .signal (.giveBack _) => exact k.value_mono hn ho
  | .signal .breakOut | .signal .continueOn | .signal .fallThrough => trivial

theorem outcome_follows {o : Outcome} (ho : k.outcome n o) :
    k.Follows n (Pure.pure o) (Pure.pure o) k.outcome :=
  .pure fun _ hstage => outcome_mono hstage ho

theorem sequence_lifts (h : ∀ node ∈ nodes, k.LiftsAt n self self' frame node) :
    k.Lifts n self self' (Eval.sequence · frame nodes) k.outcome := by
  induction nodes generalizing n with
  | nil => exact null_follows
  | cons node nodes ih =>
    obtain ⟨hnode, hnodes⟩ := List.forall_mem_cons.1 h
    refine .bind hnode.follows fun stage o hstage ho => ?_
    cases o with
    | value v => exact ih (LiftsAt.forall_later hnodes hstage)
    | signal s => exact outcome_follows ho

theorem program_lifts {last : Value} (h : ∀ node ∈ nodes, k.LiftsAt n self self' frame node)
    (hlast : k.value n last) :
    k.Lifts n self self' (Eval.program · frame last nodes) k.value := by
  induction nodes generalizing n last with
  | nil => exact .pure fun _ hstage => k.value_mono hstage hlast
  | cons node nodes ih =>
    obtain ⟨hnode, hnodes⟩ := List.forall_mem_cons.1 h
    refine .bind hnode.follows fun stage o hstage ho => ?_
    match o with
    | .value v => exact ih (LiftsAt.forall_later hnodes hstage) ho
    | .signal (.giveBack _) => exact .pure fun _ hlater => k.value_mono hlater ho
    | .signal .breakOut | .signal .continueOn | .signal .fallThrough =>
      exact escaped_follows hnode.fits.line

theorem inScope_lifts (hframe : k.frame n frame) (h : k.Scopes n self self' body) :
    k.Lifts n self self' (Eval.inScope · body frame) k.outcome :=
  .bind (childFrame_meets hframe).self fun stage inner hstage hinner =>
    sequence_lifts (h stage inner hstage hinner)

/-! ### Branches -/

theorem inScope?_lifts {body : Option (List Node)} (hframe : k.frame n frame)
    (h : k.Scopes n self self' (body.getD [])) :
    k.Lifts n self self' (Eval.inScope? · body frame) k.outcome := by
  cases body with
  | some body => exact inScope_lifts hframe h
  | none => exact null_follows

theorem conditional_lifts {other : Option (List Node)} (hframe : k.frame n frame)
    (hcondition : k.LiftsAt n self self' frame condition) (hbody : k.Scopes n self self' body)
    (hother : k.Scopes n self self' (other.getD [])) :
    k.Lifts n self self' (Eval.conditional · condition body other frame) k.outcome := by
  refine .bind (valueOf_lifts hcondition) fun stage v hstage _ => ?_
  have hframe := k.frame_mono hstage hframe
  split
  · exact inScope_lifts hframe (hbody.later hstage)
  · exact inScope?_lifts hframe (hother.later hstage)

theorem matchesAny_lifts {subject : Value}
    (h : ∀ node ∈ nodes, k.LiftsAt n self self' frame node) :
    k.Lifts n self self' (Eval.matchesAny · subject frame nodes) fun _ _ => True := by
  induction nodes generalizing n with
  | nil => exact .pure fun _ _ => trivial
  | cons node nodes ih =>
    obtain ⟨hnode, hnodes⟩ := List.forall_mem_cons.1 h
    refine .bind (valueOf_lifts hnode) fun stage v hstage _ => ?_
    split
    · exact .pure fun _ _ => trivial
    · exact ih (LiftsAt.forall_later hnodes hstage)

theorem switchOutcome_meets {o : Outcome} (h : k.outcome n o) :
    k.outcome n (Eval.switchOutcome o) := by
  match o with
  | .signal (.giveBack _) => exact h
  | .signal .continueOn => trivial
  | .value _ | .signal .breakOut | .signal .fallThrough => exact k.null n

section

variable {fallback : Option (List Node)} {arms : List (Arm Node)}

theorem runFallback_lifts (hframe : k.frame n frame)
    (h : k.Scopes n self self' (fallback.getD [])) :
    k.Lifts n self self' (Eval.runFallback · fallback frame) k.outcome :=
  .bind (inScope?_lifts hframe h) fun _ _ _ ho => outcome_follows (switchOutcome_meets ho)

theorem runArms_lifts (hframe : k.frame n frame)
    (hfallback : k.Scopes n self self' (fallback.getD []))
    (harms : ∀ arm ∈ arms, k.Scopes n self self' arm.body) :
    k.Lifts n self self' (Eval.runArms · fallback frame arms) k.outcome := by
  induction arms generalizing n with
  | nil => exact runFallback_lifts hframe hfallback
  | cons arm arms ih =>
    obtain ⟨harm, harms⟩ := List.forall_mem_cons.1 harms
    refine .bind (inScope_lifts hframe harm) fun stage o hstage ho => ?_
    split
    · exact ih (k.frame_mono hstage hframe) (hfallback.later hstage)
        fun arm harm => (harms arm harm).later hstage
    · exact outcome_follows (switchOutcome_meets ho)

theorem chooseArm_lifts {subject : Value} (hframe : k.frame n frame)
    (hfallback : k.Scopes n self self' (fallback.getD []))
    (hvalues : ∀ arm ∈ arms, ∀ node ∈ arm.values, k.LiftsAt n self self' frame node)
    (harms : ∀ arm ∈ arms, k.Scopes n self self' arm.body) :
    k.Lifts n self self' (Eval.chooseArm · subject fallback frame arms) k.outcome := by
  induction arms generalizing n with
  | nil => exact runFallback_lifts hframe hfallback
  | cons arm arms ih =>
    refine .bind (matchesAny_lifts (hvalues arm (by simp))) fun stage found hstage _ => ?_
    have hframe := k.frame_mono hstage hframe
    have hfallback := hfallback.later hstage
    have harms := fun arm harm => (harms arm harm).later hstage
    split
    · exact runArms_lifts hframe hfallback harms
    · exact ih hframe hfallback
        (fun arm harm => LiftsAt.forall_later (hvalues arm (List.mem_cons_of_mem _ harm)) hstage)
        fun arm harm => harms arm (List.mem_cons_of_mem _ harm)

end

/-! ### Loops -/

theorem leave_meets {o : Outcome} {s : Signal} (h : k.outcome n o)
    (hleave : Eval.passOf o = .leave s) : k.outcome n (.signal s) := by
  match o with
  | .signal (.giveBack _) =>
    cases hleave
    exact h
  | .signal .fallThrough =>
    cases hleave
    trivial

/-- Bounds under which loops may be compared: the same, or a larger one for runs that finish. -/
def Bounds (k : Regime) (bound bound' : Nat) : Prop :=
  bound = bound' ∨ k.lenient ∧ bound ≤ bound'

theorem Bounds.succ {bound bound' : Nat} (h : k.Bounds (bound + 1) bound') :
    ∃ below, bound' = below + 1 ∧ k.Bounds bound below := by
  rcases h with rfl | ⟨hlenient, hle⟩
  · exact ⟨bound, rfl, .inl rfl⟩
  · obtain ⟨below, rfl⟩ := Nat.exists_eq_succ_of_ne_zero (Nat.ne_zero_of_lt hle)
    exact ⟨below, rfl, .inr ⟨hlenient, Nat.le_of_succ_le_succ hle⟩⟩

/-- A loop whose bound is used up. -/
theorem exhausted_follows {bound' : Nat} {q : Eval α} (hbound : k.Bounds 0 bound')
    (hfuel : ∀ m, k.machine m → k.halt .outOfFuel m) (hq : bound' = 0 → q = Eval.exhausted) :
    k.Follows n Eval.exhausted q Q := by
  rcases hbound with hzero | ⟨hlenient, -⟩
  · rw [hq hzero.symm]
    exact (Meets.exhausted hfuel).self
  · exact .exhausted hfuel hlenient

theorem whileLoop_follows {bound bound' : Nat} (hbound : k.Bounds bound bound')
    (hfuel : ∀ m, k.machine m → k.halt .outOfFuel m) (hframe : k.frame n frame)
    (hcondition : k.LiftsAt n self self' frame condition) (hbody : k.Scopes n self self' body) :
    k.Follows n (Eval.whileLoop self condition body frame bound)
      (Eval.whileLoop self' condition body frame bound') k.outcome := by
  induction bound generalizing n bound' with
  | zero => exact exhausted_follows hbound hfuel fun hzero => by rw [hzero]; rfl
  | succ bound ih =>
    obtain ⟨below, rfl, hbelow⟩ := hbound.succ
    refine .bind (valueOf_lifts hcondition) fun stage v hstage _ => ?_
    have hframe := k.frame_mono hstage hframe
    have hbody := hbody.later hstage
    split
    · refine .bind (inScope_lifts hframe hbody) fun stage' o hlater ho => ?_
      split
      next =>
        exact ih hbelow (k.frame_mono hlater hframe)
          (hcondition.later (Nat.le_trans hstage hlater)) (hbody.later hlater)
      next => exact null_follows
      next s hleave => exact outcome_follows (leave_meets ho hleave)
    · exact null_follows

theorem advance_meets {r : Eval.Range} {current : Value} (hline : k.line r.line)
    (hframe : k.frame n frame) (hbinds : k.binds frame r.name) :
    k.Meets n (Eval.advance r frame current) fun _ _ => True := by
  refine .bind lookup?_meets fun stage now hstage _ => ?_
  refine .bind (.settle hline (Primitive.plus_yields _ _)) fun stage' v hlater hv => ?_
  have hframe := k.frame_mono (Nat.le_trans hstage hlater) hframe
  exact define_meets hframe hbinds ((k.byParts stage').atom hv)

theorem rangePasses_follows {r : Eval.Range} {bound bound' : Nat} (hbound : k.Bounds bound bound')
    (hfuel : ∀ m, k.machine m → k.halt .outOfFuel m) (hline : k.line r.line)
    (hframe : k.frame n frame) (hbinds : k.binds frame r.name)
    (hbody : k.Scopes n self self' r.body) :
    k.Follows n (Eval.rangePasses self r frame bound) (Eval.rangePasses self' r frame bound')
      k.outcome := by
  induction bound generalizing n bound' with
  | zero => exact exhausted_follows hbound hfuel fun hzero => by rw [hzero]; rfl
  | succ bound ih =>
    obtain ⟨below, rfl, hbelow⟩ := hbound.succ
    refine .bind (lookup_meets hline hframe).self fun stage₁ current h₁ _ => ?_
    refine .bind (Meets.settle hline (Primitive.compareNumbers_yields _ _)).self
      fun stage₂ o h₂ _ => ?_
    have hframe := k.frame_mono (Nat.le_trans h₁ h₂) hframe
    have hbody := hbody.later (Nat.le_trans h₁ h₂)
    split
    · refine .bind (inScope_lifts hframe hbody) fun stage₃ o h₃ ho => ?_
      have hframe := k.frame_mono h₃ hframe
      split
      next =>
        refine .bind (advance_meets hline hframe hbinds).self fun stage₄ _ h₄ _ => ?_
        exact ih hbelow (k.frame_mono h₄ hframe) (hbody.later (Nat.le_trans h₃ h₄))
      next => exact null_follows
      next s hleave => exact outcome_follows (leave_meets ho hleave)
    · exact null_follows

theorem stepValue_lifts {step : Option Node}
    (h : ∀ node ∈ step.toList, k.LiftsAt n self self' frame node) :
    k.Lifts n self self' (Eval.stepValue · step frame) k.value := by
  cases step with
  | some node => exact valueOf_lifts (h node (by simp))
  | none => exact .pure fun stage _ => (k.byParts stage).atom rfl

theorem rangeLoop_follows {bound bound' : Nat} {start limit : Node} {closed : Bool}
    {step : Option Node} (hbound : k.Bounds bound bound')
    (hfuel : ∀ m, k.machine m → k.halt .outOfFuel m) (hline : k.line line) (hname : k.name name)
    (hframe : k.frame n frame) (hstart : k.LiftsAt n self self' frame start)
    (hlimit : k.LiftsAt n self self' frame limit)
    (hstep : ∀ node ∈ step.toList, k.LiftsAt n self self' frame node)
    (hbody : k.Scopes n self self' body) :
    k.Follows n (Eval.rangeLoop self bound name start limit closed step body frame line)
      (Eval.rangeLoop self' bound' name start limit closed step body frame line)
      k.outcome := by
  refine .bind (valueOf_lifts hstart) fun stage₁ first h₁ hfirst => ?_
  refine .bind (valueOf_lifts (hlimit.later h₁)) fun stage₂ last h₂ _ => ?_
  have hsecond := Nat.le_trans h₁ h₂
  refine .bind (stepValue_lifts (LiftsAt.forall_later hstep hsecond)) fun stage₃ by_ h₃ _ => ?_
  refine .bind (Meets.settle hline (Eval.directionOf_yields by_)).self fun stage₄ upwards h₄ _ => ?_
  refine .bind (Meets.settle hline (Eval.requireNumber_yields first)).self fun stage₅ _ h₅ _ => ?_
  refine .bind (Meets.settle hline (Eval.requireNumber_yields last)).self fun stage₆ _ h₆ _ => ?_
  have hfirst : k.value stage₆ first := k.value_mono (by omega) hfirst
  have hframe : k.frame stage₆ frame := k.frame_mono (by omega) hframe
  have hbody : k.Scopes stage₆ self self' body := hbody.later (by omega)
  refine .bind (childFrame_meets hframe).self fun stage₇ inner h₇ hinner => ?_
  have hbinds := hinner.2 name hname
  refine .bind (define_meets hinner.1 hbinds (k.value_mono h₇ hfirst)).self
    fun stage₈ _ h₈ _ => ?_
  exact rangePasses_follows hbound hfuel hline (k.frame_mono h₈ hinner.1) hbinds
    (hbody.later (Nat.le_trans h₇ h₈))

theorem eachPass_lifts {items : List Value} (hname : k.name name) (hframe : k.frame n frame)
    (hbody : k.Scopes n self self' body) (hitems : k.Values n items) :
    k.Lifts n self self' (Eval.eachPass · name body frame items) k.outcome := by
  induction items generalizing n with
  | nil => exact null_follows
  | cons item items ih =>
    obtain ⟨hitem, hitems⟩ := values_cons.1 hitems
    refine .bind (childFrame_meets hframe).self fun stage₁ inner h₁ hinner => ?_
    refine .bind (define_meets hinner.1 (hinner.2 name hname) (k.value_mono h₁ hitem)).self
      fun stage₂ _ h₂ _ => ?_
    have hscope := hbody stage₂ inner (Nat.le_trans h₁ h₂) (hinner.later h₂)
    refine .bind (sequence_lifts hscope) fun stage₃ o h₃ ho => ?_
    have hlater : n ≤ stage₃ := Nat.le_trans (Nat.le_trans h₁ h₂) h₃
    split
    next => exact ih (k.frame_mono hlater hframe) (hbody.later hlater) (hitems.later hlater)
    next => exact null_follows
    next s hleave => exact outcome_follows (leave_meets ho hleave)

theorem eachLoop_lifts {collection : Node} (hline : k.line line) (hname : k.name name)
    (hframe : k.frame n frame) (hcollection : k.LiftsAt n self self' frame collection)
    (hbody : k.Scopes n self self' body) :
    k.Lifts n self self' (Eval.eachLoop · name collection body frame line) k.outcome := by
  refine .bind (valueOf_lifts hcollection) fun stage₁ v h₁ hv => ?_
  refine .bind (Meets.settle hline (Eval.rangeElements_yields (k.byParts stage₁).downward hv)).self
    fun stage₂ items h₂ hitems => ?_
  have hlater := Nat.le_trans h₁ h₂
  exact eachPass_lifts hname (k.frame_mono hlater hframe) (hbody.later hlater)
    (Values.later hitems h₂)

/-! ### Calls and members -/

theorem returned_meets {o : Outcome} (hline : k.line line) (ho : k.outcome n o) :
    k.Meets n (Eval.returned o line) k.value := by
  match o with
  | .value _ => exact .pure fun stage _ => k.null stage
  | .signal (.giveBack _) => exact .pure fun _ hstage => k.value_mono hstage ho
  | .signal .breakOut | .signal .continueOn | .signal .fallThrough => exact .fail hline

/-- What is asked of the closures of a regime: as a call, their bodies keep to it in every frame
that is theirs. -/
def Calls (k : Regime) (self self' : Evaluator) : Prop :=
  ∀ (n : Nat) (c : Closure) (line : Nat) (inner : FrameId), k.line line →
    k.value n (.closure c) → k.Own n inner →
    k.Lifts n self self' (fun self => Eval.asCall line (Eval.sequence self inner c.body)) k.outcome

section

variable (hcalls : k.Calls self self') (hline : k.line line)
include hcalls hline

theorem callClosure_lifts {c : Closure} {args : List Value} (hc : k.value n (.closure c))
    (hargs : k.Values n args) : k.Lifts n self self' (Eval.callClosure · c args line) k.value := by
  obtain ⟨hframe, hparams, -⟩ := k.closures hc
  refine .bind (boundFrame_meets hline hframe hparams hargs).self
    fun stage inner hstage hinner => ?_
  refine .bind (hcalls stage c line inner hline (k.value_mono hstage hc) hinner)
    fun _ o _ ho => ?_
  exact (returned_meets hline ho).self

theorem instantiate_lifts {c : Closure} {before : Machine} (hbefore : k.machine before)
    (hnone : before.heap.memberFrame? c.id = none) (hc : k.value n (.closure c)) :
    k.Lifts n self self' (Eval.instantiate · c line) k.frame := by
  obtain ⟨hframe, hparams, hid⟩ := k.closures hc
  refine .bind (boundFrame_meets hline hframe hparams values_nil).self
    fun stage₁ inner h₁ hinner => ?_
  refine .bind (hcalls stage₁ c line inner hline (k.value_mono h₁ hc) hinner)
    fun stage₂ o h₂ ho => ?_
  refine .bind (returned_meets hline ho).self fun stage₃ _ h₃ _ => ?_
  refine (Meets.onHeap fun m hm hn => ?_).self
  have hinner := k.frame_mono (Nat.le_trans (Nat.le_trans h₂ h₃) hn) hinner.1
  have hgoes := k.members hbefore hnone hm hid hinner
  exact ⟨hgoes, k.frame_mono hgoes.2 hinner⟩

theorem memberFrame_lifts {c : Closure} (hc : k.value n (.closure c)) :
    k.Lifts n self self' (Eval.memberFrame · c line) k.frame := by
  refine .get_bind fun m hm hn => ?_
  split
  next f hf =>
    have hframe := k.member hm (k.closures hc).2.2 hf
    exact .pure fun _ hstage => k.frame_mono hstage hframe
  next hnone => exact instantiate_lifts hcalls hline hm hnone (k.value_mono hn hc)

theorem apply_lifts {args : List Value} (hv : k.value n v) (hargs : k.Values n args) :
    k.Lifts n self self' (Eval.apply · v args line) k.value := by
  unfold Eval.apply
  split
  next p =>
    have hperforms := Primitive.apply_performs (p := p) (k.byParts n).downward line hargs
    exact (performs_meets hline hperforms).self
  next c => exact callClosure_lifts hcalls hline hv hargs
  next => exact .fail hline

theorem applyTo_lifts (hv : k.value n v)
    (h : ∀ node ∈ nodes, k.LiftsAt n self self' frame node) :
    k.Lifts n self self' (Eval.applyTo · v nodes frame line) k.value :=
  .bind (valuesOf_lifts h) fun _ _ hstage hargs =>
    apply_lifts hcalls hline (k.value_mono hstage hv) hargs

theorem logical_lifts {symbol : String} (hframe : k.frame n frame)
    (h : ∀ node ∈ nodes, k.LiftsAt n self self' frame node) :
    k.Lifts n self self' (Eval.logical · symbol nodes frame line) k.value := by
  unfold Eval.logical
  split
  next left right =>
    refine .bind (valueOf_lifts (h left (by simp))) fun stage a hstage ha => ?_
    have hrest : ∀ stage' b, stage ≤ stage' → k.value stage' b →
        k.Lifts stage' self self'
          (fun self => Eval.lookup frame symbol line >>= fun f => Eval.apply self f [a, b] line)
          k.value := by
      intro stage' b hlater hb
      have hframe := k.frame_mono (Nat.le_trans hstage hlater) hframe
      refine .bind (lookup_meets hline hframe).self fun last f hlast hf => ?_
      have ha := k.value_mono (Nat.le_trans hlater hlast) ha
      have hb := k.value_mono hlast hb
      exact apply_lifts hcalls hline hf (values_cons.2 ⟨ha, values_cons.2 ⟨hb, values_nil⟩⟩)
    dsimp only
    split
    · exact .bind (valueOf_lifts ((h right (by simp)).later hstage)) hrest
    · exact .bind (.pure fun stage' _ => k.null stage') hrest
  next => exact .fail hline

omit hcalls in
theorem listMember_meets (hv : k.value n v) :
    k.Meets n (Eval.listMember v name line) k.value := by
  have hslot : ∀ {part : Option Value} {name}, (∀ a ∈ part, k.value n a) →
      k.Meets n (Eval.slot part name line) k.value := by
    intro part name hpart
    cases part with
    | some a => exact .pure fun _ hstage => k.value_mono hstage (hpart a rfl)
    | none => exact .fail hline
  unfold Eval.listMember
  split
  · refine hslot fun a ha => ?_
    match v, ha with
    | .pair _ _ _, rfl => exact ((k.byParts n).pair.1 hv).1
  · refine hslot fun a ha => ?_
    match v, ha with
    | .pair _ _ _, rfl => exact ((k.byParts n).pair.1 hv).2
  · exact .pure fun stage _ => (k.byParts stage).atom rfl
  · exact .fail hline

theorem member_lifts (hv : k.value n v) :
    k.Lifts n self self' (Eval.member · v name line) k.value := by
  unfold Eval.member
  split
  next c =>
    exact .bind (memberFrame_lifts hcalls hline hv) fun _ _ _ hframe =>
      (lookup_meets hline hframe).self
  next =>
    split
    · exact (listMember_meets hline hv).self
    · exact .fail hline

theorem callMember_lifts (hv : k.value n v)
    (h : ∀ node ∈ nodes, k.LiftsAt n self self' frame node) :
    k.Lifts n self self' (Eval.callMember · v name nodes frame line) k.value := by
  refine .bind (member_lifts hcalls hline hv) fun stage₁ f h₁ hf => ?_
  refine .bind (valuesOf_lifts (LiftsAt.forall_later h h₁)) fun stage₂ args h₂ hargs => ?_
  have hf := k.value_mono h₂ hf
  split
  · split
    · exact .pure fun _ hstage => k.value_mono hstage hf
    · exact .fail hline
  · exact apply_lifts hcalls hline hf hargs

theorem assignMember_lifts {new : Value} (hname : k.name name) (hv : k.value n v)
    (hnew : k.value n new) :
    k.Lifts n self self' (Eval.assignMember · v name new line) fun _ _ => True := by
  unfold Eval.assignMember
  split
  next c =>
    exact .bind (memberFrame_lifts hcalls hline hv) fun _ _ hstage hframe =>
      (assign_meets hline hframe hname (k.value_mono hstage hnew)).self
  next => exact .fail hline

theorem access_lifts (h : ∀ node ∈ nodes, k.LiftsAt n self self' frame node)
    (hmembers : ∀ node ∈ nodes, ∀ part ∈ node.valueParts, k.LiftsAt n self self' frame part) :
    k.Lifts n self self' (Eval.access · nodes frame line) k.value := by
  unfold Eval.access
  split
  next left right =>
    refine .bind (valueOf_lifts (h left (by simp))) fun stage target hstage htarget => ?_
    split
    next name _ => exact member_lifts hcalls hline htarget
    next name line' arguments line'' =>
      refine callMember_lifts hcalls hline htarget fun node hnode => ?_
      have hpart : node ∈ (Node.call (.reference name line') arguments line'').valueParts :=
        List.mem_cons_of_mem _ hnode
      exact (hmembers _ (by simp) node hpart).later hstage
    next => exact .fail hline
  next => exact .fail hline

/-! ### Assignments -/

theorem store_lifts {target : Node} (hframe : k.frame n frame)
    (hnames : ∀ name ∈ target.names, k.name name)
    (hmembers : ∀ part ∈ target.valueParts, k.LiftsAt n self self' frame part)
    (hv : k.value n v) :
    k.Lifts n self self' (Eval.store · target v frame line) fun _ _ => True := by
  unfold Eval.store
  split
  next => exact (assign_meets hline hframe (hnames _ (by simp [Node.names])) hv).self
  next symbol operands _ =>
    split
    · split
      next left name line' =>
        obtain ⟨hleft, hright⟩ := List.forall_mem_cons.1 hmembers
        have hname : k.name name :=
          (hright _ List.mem_cons_self).fits.names name (by simp [Node.names])
        refine .bind (valueOf_lifts hleft) fun _ owner hstage howner => ?_
        exact assignMember_lifts hcalls hline hname howner (k.value_mono hstage hv)
      next => exact .fail hline
    · exact .fail hline
  next => exact .fail hline

theorem assignment_lifts {target value : Node} {yieldsOld : Bool} (hframe : k.frame n frame)
    (htarget : k.LiftsAt n self self' frame target)
    (hvalue : k.LiftsAt n self self' frame value)
    (hmembers : ∀ part ∈ target.valueParts, k.LiftsAt n self self' frame part) :
    k.Lifts n self self' (Eval.assignment · target value yieldsOld frame line) k.value := by
  refine .bind (valueOf_lifts hvalue) fun stage new hstage hnew => ?_
  have hrest : ∀ stage' result, stage ≤ stage' → k.value stage' result →
      k.Lifts stage' self self'
        (fun self => Eval.store self target new frame line >>= fun _ => pure result) k.value := by
    intro stage' result hlater hresult
    have hlate := Nat.le_trans hstage hlater
    refine .bind (store_lifts hcalls hline (k.frame_mono hlate hframe) htarget.fits.names
      (LiftsAt.forall_later hmembers hlate) (k.value_mono hlater hnew)) fun _ _ hlast _ => ?_
    exact .pure fun _ hend => k.value_mono (Nat.le_trans hlast hend) hresult
  dsimp only
  split
  · exact .bind (valueOf_lifts (htarget.later hstage)) hrest
  · exact .bind (.pure fun _ hlater => k.value_mono hlater hnew) hrest

theorem strict_lifts {symbol : String} (hframe : k.frame n frame)
    (h : ∀ node ∈ nodes, k.LiftsAt n self self' frame node) :
    k.Lifts n self self' (Eval.strict · symbol nodes frame line) k.value :=
  .bind (lookup_meets hline hframe).self fun _ _ hstage hf =>
    applyTo_lifts hcalls hline hf (LiftsAt.forall_later h hstage)

theorem operation_lifts {symbol : String} (hframe : k.frame n frame)
    (h : ∀ node ∈ nodes, k.LiftsAt n self self' frame node)
    (hmembers : ∀ node ∈ nodes, ∀ part ∈ node.valueParts, k.LiftsAt n self self' frame part) :
    k.Lifts n self self' (Eval.operation · symbol nodes frame line) k.value := by
  unfold Eval.operation
  split
  · exact logical_lifts hcalls hline hframe h
  · split
    · exact access_lifts hcalls hline h hmembers
    · exact strict_lifts hcalls hline hframe h

end

end Regime

/-! ### Nodes -/

namespace Node

/-- The parts of operands that the access of a member evaluates itself: the arguments of a member
that is called, and the owner of one that is assigned. -/
def memberParts : Node → List Node
  | .operation _ operands _ => operands.flatMap valueParts
  | .assignment target _ _ _ => target.valueParts
  | _ => []

/-- Whether a node is a loop that may go on forever. -/
def isUnbounded : Node → Bool
  | .whileLoop _ _ _ | .rangeLoop _ _ _ _ _ _ _ => true
  | _ => false

end Node

namespace Regime

variable {k : Regime} {n : Nat} {self self' : Evaluator} {frame : FrameId}

/-- What a step asks of its node: its parts keep to the regime where they are evaluated, and what
it binds and makes by itself is of the regime. -/
structure Admits (k : Regime) (n : Nat) (below below' : Evaluator) (frame : FrameId)
    (node : Node) : Prop where
  fits : k.Fits node
  within : k.frame n frame
  values : ∀ part ∈ node.valueParts, k.LiftsAt n below below' frame part
  members : ∀ part ∈ node.memberParts, k.LiftsAt n below below' frame part
  statements : k.Scopes n below below' node.statementParts
  binds : ∀ name value line, node = .definition name value line → k.binds frame name
  closure : ∀ name params body line, node = .function name params body line →
    ∀ id, k.closureId id → k.value n (.closure ⟨id, name, params, body, frame⟩)
  fuel : node.isUnbounded = true → ∀ m, k.machine m → k.halt .outOfFuel m

theorem value_follows {p q : Eval Value} (h : k.Follows n p q k.value) :
    k.Follows n (p >>= fun v => pure (Outcome.value v)) (q >>= fun v => pure (Outcome.value v))
      k.outcome :=
  .bind h fun _ _ _ hv => .pure fun _ hlater => k.value_mono hlater hv

/-- **One level of evaluation keeps to a regime** that the level below keeps to. -/
theorem step_follows {bound bound' : Nat} {node : Node} (hbound : k.Bounds bound bound')
    (hcalls : k.Calls self self') (h : k.Admits n self self' frame node) :
    k.Follows n (Eval.step bound self node frame) (Eval.step bound' self' node frame)
      k.outcome := by
  obtain ⟨⟨hline, hnames⟩, hframe, hvalues, hmembers, hstatements, hbinds, hclosure, hfuel⟩ := h
  cases node with
  | constant value _ =>
    refine .pure fun stage _ => (k.byParts stage).atom ?_
    cases value <;> rfl
  | reference _ _ => exact value_follows (lookup_meets hline hframe).self
  | definition name value line =>
    refine .bind (valueOf_lifts (hvalues value (by simp [Node.valueParts])))
      fun stage v hstage hv => ?_
    have hbound := define_meets (k.frame_mono hstage hframe) (hbinds name value line rfl) hv
    exact .bind hbound.self fun _ _ hlater _ =>
      .pure fun _ hend => k.value_mono (Nat.le_trans hlater hend) hv
  | function name params body line =>
    have hnew : k.Meets n (Eval.onHeap Heap.newClosure) fun _ => k.closureId := by
      exact .onHeap fun _ hm _ => k.closure hm
    refine value_follows (.bind hnew.self fun _ id hstage hid => .pure fun _ hlater => ?_)
    exact k.value_mono (Nat.le_trans hstage hlater) (hclosure name params body line rfl id hid)
  | assignment target value _ _ =>
    exact value_follows (assignment_lifts hcalls hline hframe
      (hvalues target (by simp [Node.valueParts])) (hvalues value (by simp [Node.valueParts]))
      hmembers)
  | operation _ _ _ =>
    exact value_follows (operation_lifts hcalls hline hframe hvalues
      (List.forall_mem_flatMap.1 hmembers))
  | call callee arguments _ =>
    obtain ⟨hcallee, harguments⟩ := List.forall_mem_cons.1 hvalues
    exact value_follows (.bind (valueOf_lifts hcallee) fun _ _ hstage hf =>
      applyTo_lifts hcalls hline hf (LiftsAt.forall_later harguments hstage))
  | conditional condition _ _ _ =>
    refine conditional_lifts hframe (hvalues condition (by simp [Node.valueParts])) ?_ ?_
    · exact hstatements.mono fun _ => List.mem_append_left _
    · exact hstatements.mono fun _ => List.mem_append_right _
  | whileLoop condition _ _ =>
    exact whileLoop_follows hbound (hfuel rfl) hframe
      (hvalues condition (by simp [Node.valueParts])) hstatements
  | switch subject arms _ _ =>
    obtain ⟨hsubject, hcases⟩ := List.forall_mem_cons.1 hvalues
    refine .bind (valueOf_lifts hsubject) fun stage v hstage _ => ?_
    have hcases := List.forall_mem_flatMap.1 hcases
    have hstatements := hstatements.later hstage
    refine chooseArm_lifts (k.frame_mono hstage hframe) ?_
      (fun arm harm => LiftsAt.forall_later (hcases arm harm) hstage) fun arm harm => ?_
    · exact hstatements.mono fun _ => List.mem_append_right _
    · refine hstatements.mono fun node hnode => List.mem_append_left _ ?_
      exact List.mem_flatMap.2 ⟨arm, harm, hnode⟩
  | rangeLoop name start limit _ _ _ _ =>
    obtain ⟨hstart, hrest⟩ := List.forall_mem_cons.1 hvalues
    obtain ⟨hlimit, hstep⟩ := List.forall_mem_cons.1 hrest
    exact rangeLoop_follows hbound (hfuel rfl) hline (hnames name (by simp [Node.names])) hframe
      hstart hlimit hstep hstatements
  | eachLoop name collection _ _ =>
    exact eachLoop_lifts hline (hnames name (by simp [Node.names])) hframe
      (hvalues collection (by simp [Node.valueParts])) hstatements
  | breakOut _ | continueOn _ | fallThrough _ => exact .pure fun _ _ => trivial
  | giveBack value _ =>
    cases value with
    | some node =>
      exact .bind (valueOf_lifts (hvalues node (by simp [Node.valueParts]))) fun _ _ _ hv =>
        .pure fun _ hlater => k.value_mono hlater hv
    | none => exact .pure fun stage _ => k.null stage

/-! ### Whole runs -/

/-- A regime that is the same in calls, for the nodes in `good` wherever they are evaluated. -/
structure Covers (k : Regime) (good : Node → Prop) : Prop where
  fits : ∀ {node : Node}, good node → k.Fits node
  values : ∀ {node part : Node}, good node → part ∈ node.valueParts → good part
  statements : ∀ {node part : Node}, good node → part ∈ node.statementParts → good part
  binds : ∀ {frame : FrameId} {name : String}, k.name name → k.binds frame name
  literal : ∀ {n : Nat} {frame : FrameId} {id : ClosureId} {name : Option String}
    {params : List String} {body : List Node} {line : Nat},
    good (.function name params body line) → k.frame n frame → k.closureId id →
    k.value n (.closure ⟨id, name, params, body, frame⟩)
  body : ∀ {n : Nat} {c : Closure}, k.value n (.closure c) → ∀ node ∈ c.body, good node
  depth : ∀ {m : Machine} (depth : Nat), k.machine m → k.Goes m { m with depth := depth }
  halt : ∀ {halt : Halt EvalCause} {m : Machine} (depth : Nat), k.halt halt m →
    k.halt halt { m with depth := depth }
  fuel : ∀ {m : Machine}, k.machine m → k.halt .outOfFuel m

/-- One evaluator follows another on the nodes in `good`, in all frames of the regime. -/
def Agree (k : Regime) (good : Node → Prop) (self self' : Evaluator) : Prop :=
  ∀ n node frame, good node → k.frame n frame → k.LiftsAt n self self' frame node

theorem Agree.program {good : Node → Prop} {nodes : List Node} (h : k.Agree good self self')
    (hnodes : ∀ node ∈ nodes, good node) (hframe : k.frame n frame) :
    k.Follows n (Eval.program self frame .null nodes) (Eval.program self' frame .null nodes)
      k.value :=
  program_lifts (fun node hnode => h n node frame (hnodes node hnode) hframe) (k.null n)

namespace Covers

variable {good : Node → Prop} {node : Node} {line : Nat}

theorem memberParts (h : k.Covers good) {part : Node} (hnode : good node)
    (hpart : part ∈ node.memberParts) : good part := by
  cases node with
  | operation symbol operands line =>
    obtain ⟨operand, hoperand, hpart⟩ := List.mem_flatMap.1 hpart
    have hvalue : operand ∈ (Node.operation symbol operands line).valueParts := hoperand
    exact h.values (h.values hnode hvalue) hpart
  | assignment target value yieldsOld line =>
    have hvalue : target ∈ (Node.assignment target value yieldsOld line).valueParts :=
      List.mem_cons_self
    exact h.values (h.values hnode hvalue) hpart
  | _ => cases hpart

/-- A body may run one call deeper. -/
theorem asCall_follows (h : k.Covers good) {p q : Eval Outcome} (hline : k.line line)
    (hp : k.Follows n p q k.outcome) :
    k.Follows n (Eval.asCall line p) (Eval.asCall line q) k.outcome := by
  refine ⟨fun m hm hn => ?_, fun m hm hn => ?_⟩
  · rw [Eval.asCall_apply]
    split
    next => exact k.fault hm hline
    next =>
      obtain ⟨hdeeper, hstage⟩ := h.depth (m.depth + 1) hm
      have hend := hp.meets _ hdeeper (Nat.le_trans hn hstage)
      unfold Eval.leavingAfter
      match hresult : p { m with depth := m.depth + 1 } with
      | .ok o m' =>
        rw [hresult] at hend
        obtain ⟨hm', hstage', ho⟩ := hend
        obtain ⟨hback, hlast⟩ := h.depth (m'.depth - 1) hm'
        exact ⟨hback, Nat.le_trans hstage (Nat.le_trans hstage' hlast), outcome_mono hlast ho⟩
      | .error halt m' =>
        rw [hresult] at hend
        exact h.halt (m'.depth - 1) hend
  · rw [Eval.asCall_apply, Eval.asCall_apply]
    split
    next => exact fun _ => rfl
    next =>
      obtain ⟨hdeeper, hstage⟩ := h.depth (m.depth + 1) hm
      intro hfinishes
      unfold Eval.leavingAfter
      rw [hp.same _ hdeeper (Nat.le_trans hn hstage) fun hlenient =>
        Eval.finishes_leavingAfter.1 (hfinishes hlenient)]

theorem calls (h : k.Covers good) (hbelow : k.Agree good self self') : k.Calls self self' := by
  intro n c line inner hline hc hinner
  refine h.asCall_follows hline (sequence_lifts fun node hnode => ?_)
  exact hbelow n node inner (h.body hc node hnode) hinner.1

theorem admits (h : k.Covers good) (hbelow : k.Agree good self self') (hnode : good node)
    (hframe : k.frame n frame) : k.Admits n self self' frame node where
  fits := h.fits hnode
  within := hframe
  values part hpart := hbelow n part frame (h.values hnode hpart) hframe
  members part hpart := hbelow n part frame (h.memberParts hnode hpart) hframe
  statements stage inner _ hinner part hpart :=
    hbelow stage part inner (h.statements hnode hpart) hinner.1
  binds name value line hdefinition :=
    h.binds ((h.fits hnode).names name (by rw [hdefinition]; exact List.mem_cons_self))
  closure name params body line hfunction id hid :=
    h.literal (hfunction ▸ hnode) hframe hid
  fuel _ _ hm := h.fuel hm

/-- One level of evaluation, after a level below that keeps to the regime. -/
theorem step (h : k.Covers good) (hbelow : k.Agree good self self') (bound : Nat)
    (hnode : good node) (hframe : k.frame n frame) :
    k.Follows n (Eval.step bound self node frame) (Eval.step bound self' node frame) k.outcome :=
  step_follows (.inl rfl) (h.calls hbelow) (h.admits hbelow hnode hframe)

/-- Without fuel nothing happens. -/
theorem agree_exhausted (h : k.Covers good) :
    k.Agree good (fun _ _ => Eval.exhausted) fun _ _ => Eval.exhausted :=
  fun _ _ _ hnode _ => ⟨h.fits hnode, (Meets.exhausted fun _ => h.fuel).self⟩

/-- **Evaluation keeps to the regime**, with any fuel. -/
theorem agree (h : k.Covers good) (fuel : Nat) :
    k.Agree good (Eval.evaluate fuel) (Eval.evaluate fuel) := by
  induction fuel with
  | zero => exact h.agree_exhausted
  | succ fuel ih =>
    intro n node frame hnode hframe
    exact ⟨h.fits hnode, h.step ih fuel hnode hframe⟩

end Covers

end Regime

end PairScript
