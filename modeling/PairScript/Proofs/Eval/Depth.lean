import PairScript.Proofs.Eval.Growth

/-!
# Calls in progress

A machine counts the calls of closures in progress.  A call adds itself to them, unless the limit
is reached, and takes itself away at its end, whatever that is.  So the count is the same before
and after every piece of evaluation, and on the way it exceeds neither the limit nor what it was at
the start, whichever is larger.

What happens on the way does not show in the result of a run.  `Eval.watched` makes it show: it
evaluates like `Eval.evaluate`, but gives up as soon as a node starts or ends on a machine that it
does not accept.  A run that is not disturbed by being watched has seen only such machines.
-/

namespace PairScript

namespace Eval

/-- Gives up unless the machine is accepted, both before and after a procedure. -/
def guarded {α : Type} (ok : Machine → Bool) (p : Eval α) : Eval α := fun m =>
  if ok m && ok (after p m) then p m else exhausted m

/-- Evaluates a node in a frame, and gives up if a node starts or ends on a machine that is not
accepted. -/
def watched (ok : Machine → Bool) : (fuel : Nat) → Evaluator
  | 0, _, _ => exhausted
  | fuel + 1, node, frame => guarded ok (step fuel (watched ok fuel) node frame)

/-- The ways into evaluation.  `Eval.run` is the last of them, with `Eval.ampleFuel`. -/
inductive Entry : {α : Type} → (Evaluator → Eval α) → Prop
  | node (node : Node) (frame : FrameId) : Entry fun self => self node frame
  | sequence (nodes : List Node) (frame : FrameId) : Entry fun self => sequence self frame nodes
  | operands (nodes : List Node) (frame : FrameId) : Entry fun self => valuesOf self nodes frame
  | apply (callee : Value) (args : List Value) (line : Nat) :
      Entry fun self => apply self callee args line
  | program (nodes : List Node) (frame : FrameId) (last : Value) :
      Entry fun self => program self frame last nodes

end Eval

/-! ### The count of calls -/

/-- To have a number of calls in progress. -/
def Lasting.atDepth (depth limit : Nat) : Lasting where
  holds m := m.depth = depth ∧ m.limit = limit
  may _ _ := True
  new _ _ := trivial
  lasts hm hgrows := ⟨hgrows.depth.trans hm.1, hgrows.limit.trans hm.2⟩

/-- One evaluator follows another on all nodes, whatever number of calls up to `top` is in
progress, and keeps that number. -/
def Evaluator.Counts (self self' : Evaluator) (limit top : Nat) : Prop :=
  ∀ depth, depth ≤ top → ∀ node frame,
    (Lasting.atDepth depth limit).contract.LiftsAt self self' frame node

namespace Evaluator.Counts

variable {self self' : Evaluator} {depth limit top : Nat}

theorem calls (h : self.Counts self' limit top) (hlimit : limit ≤ top) :
    (Lasting.atDepth depth limit).contract.Calls self self' := by
  intro c line inner _ _
  refine Contract.asCall_follows fun m hm hdepth => ?_
  obtain ⟨rfl, rfl⟩ := hm
  have hback : ∀ {m'}, (Lasting.atDepth (m.depth + 1) m.limit).holds m' →
      (Lasting.atDepth m.depth m.limit).holds (Eval.leaveCall m') := by
    rintro m' ⟨hdepth', hlimit'⟩
    exact ⟨by simp [Eval.leaveCall, hdepth'], hlimit'⟩
  refine ⟨(Lasting.atDepth (m.depth + 1) m.limit).contract, ⟨rfl, rfl⟩, ?_, fun _ => hback,
    fun _ _ => hback⟩
  refine (Contract.sequence_lifts fun node _ => ?_).mono fun o _ => Lasting.outcome _ o
  exact h _ (Nat.le_trans hdepth hlimit) node inner

theorem admits (h : self.Counts self' limit top) (hdepth : depth ≤ top) (frame : FrameId)
    (node : Node) : (Lasting.atDepth depth limit).contract.Admits self self' frame node :=
  ⟨fun part _ => h depth hdepth part frame, fun part _ => h depth hdepth part frame,
    fun inner _ part _ => h depth hdepth part inner, fun _ _ _ _ => trivial,
    fun _ _ _ _ _ _ => trivial, fun _ _ hm => hm⟩

theorem entry (h : self.Counts self' limit top) (hlimit : limit ≤ top) (hdepth : depth ≤ top)
    {α : Type} {p : Evaluator → Eval α} (hp : Eval.Entry p) :
    (Lasting.atDepth depth limit).contract.Lifts self self' p fun _ => True := by
  have hany : ∀ {α : Type} {p : Evaluator → Eval α} {Q : α → Prop},
      (Lasting.atDepth depth limit).contract.Lifts self self' p Q →
      (Lasting.atDepth depth limit).contract.Lifts self self' p fun _ => True :=
    fun hp => hp.mono fun _ _ => trivial
  cases hp with
  | node node frame => exact hany (p := fun self => self node frame) (h depth hdepth node frame)
  | sequence nodes frame =>
    exact hany (Contract.sequence_lifts fun node _ => h depth hdepth node frame)
  | operands nodes frame =>
    exact hany (Contract.valuesOf_lifts fun node _ => h depth hdepth node frame)
  | apply callee args line =>
    exact hany (Contract.apply_lifts (h.calls hlimit) trivial fun _ _ => trivial)
  | program nodes frame last =>
    exact hany (Contract.program_lifts (fun node _ => h depth hdepth node frame) trivial)

end Evaluator.Counts

/-- A guard that accepts all machines of a regime does not disturb. -/
theorem Regime.Follows.guarded {k : Regime} {α : Type} {n : Nat} {p q : Eval α}
    {Q : Nat → α → Prop} {ok : Machine → Bool} (h : k.Follows n p q Q)
    (hmachine : ∀ m, k.machine m → ok m = true) (hhalt : ∀ halt m, k.halt halt m → ok m = true) :
    k.Follows n p (Eval.guarded ok q) Q := by
  refine ⟨h.meets, fun m hm hn hfinishes => ?_⟩
  have hsame := h.same m hm hn hfinishes
  have hafter : ok (Eval.after q m) = true := by
    have hend := h.meets m hm hn
    unfold Eval.after
    rw [hsame]
    match hp : p m with
    | .ok a m' =>
      rw [hp] at hend
      exact hmachine m' hend.1
    | .error halt m' =>
      rw [hp] at hend
      exact hhalt halt m' hend
  unfold Eval.guarded
  rw [hmachine m hm, hafter]
  exact hsame

theorem Contract.Follows.guarded {k : Contract} {α : Type} {p q : Eval α} {Q : α → Prop}
    {ok : Machine → Bool} (h : k.Follows p q Q) (hmachine : ∀ m, k.machine m → ok m = true)
    (hhalt : ∀ halt m, k.halt halt m → ok m = true) : k.Follows p (Eval.guarded ok q) Q :=
  .ofRegime ((h.toRegime 0).guarded hmachine hhalt)

/-- Evaluation keeps the number of calls in progress, and does so undisturbed by who watches that
the number stays within `top`. -/
theorem evaluate_counts {limit top : Nat} (hlimit : limit ≤ top) (fuel : Nat) :
    Evaluator.Counts (Eval.evaluate fuel) (Eval.watched (fun m => m.depth ≤ top) fuel)
      limit top := by
  induction fuel with
  | zero => exact fun _ _ _ _ => .exhausted fun _ hm => hm
  | succ fuel ih =>
    intro depth hdepth node frame
    have hok : ∀ m, (Lasting.atDepth depth limit).holds m → decide (m.depth ≤ top) = true := by
      rintro m ⟨rfl, -⟩
      exact decide_eq_true hdepth
    refine Contract.Follows.guarded ?_ hok fun _ => hok
    exact Contract.step_follows (Nat.le_refl fuel) (ih.calls hlimit) (ih.admits hdepth frame node)

/-! ### Entering a body -/

/-- The frame that the body of a closure is to run in, and the machine that it starts on. -/
def Closure.enter (c : Closure) (args : List Value) (m : Machine) : FrameId × Machine :=
  let (inner, heap) := m.heap.bind c.frame c.params args
  (inner, { m with heap := heap, depth := m.depth + 1 })

namespace Eval

/-- A procedure runs the body of a closure as a call, and goes on from there. -/
def Enters {α : Type} (p : Evaluator → Eval α) (c : Closure) (args : List Value) (m : Machine) :
    Prop :=
  ∃ rest : Outcome → Eval α, ∀ self,
    p self m = (leavingAfter (sequence self (c.enter args m).1 c.body) >>= rest) (c.enter args m).2

/-- A procedure stops at the limit of calls, whatever a body would have done. -/
def Refused {α : Type} (p : Evaluator → Eval α) (line : Nat) (m : Machine) : Prop :=
  ∀ self, ∃ m', p self m = .error (.fault ⟨.callDepthExceeded m.limit, line⟩) m'

section

variable {α : Type} {c : Closure} {args : List Value} {line : Nat} {m : Machine}
  {rest : FrameId → Outcome → Eval α}

/-- Binds the parameters of a closure, runs its body as a call, and goes on.  Calls do this, and
so does making the members of a closure. -/
def runBody (c : Closure) (args : List Value) (line : Nat) (rest : FrameId → Outcome → Eval α)
    (self : Evaluator) : Eval α := do
  let inner ← boundFrame c.frame c.params args line
  let outcome ← asCall line (sequence self inner c.body)
  rest inner outcome

theorem callClosure_eq_runBody :
    (callClosure · c args line) = runBody c args line fun _ o => returned o line := rfl

theorem instantiate_eq_runBody :
    (instantiate · c line) = runBody c [] line fun inner o =>
      (returned o line >>= fun _ => onHeap fun h => (inner, h.setMemberFrame c.id inner)) := rfl

theorem runBody_of_arity (self : Evaluator) (h : c.params.length = args.length) :
    runBody c args line rest self m =
      (asCall line (sequence self (c.enter args m).1 c.body) >>= rest (c.enter args m).1)
        { m with heap := (m.heap.bind c.frame c.params args).2 } := by
  have hframe : boundFrame c.frame c.params args line
      = onHeap (Heap.bind c.frame c.params args) := by
    simp [boundFrame, h]
  unfold runBody
  rw [hframe]
  rfl

theorem runBody_of_depth (self : Evaluator) (harity : c.params.length = args.length)
    (hdepth : m.depth < m.limit) :
    runBody c args line rest self m =
      (leavingAfter (sequence self (c.enter args m).1 c.body) >>= rest (c.enter args m).1)
        (c.enter args m).2 := by
  rw [runBody_of_arity self harity]
  show EStateM.bind _ _ _ = EStateM.bind _ _ _
  unfold EStateM.bind
  rw [asCall_apply, if_neg (Nat.not_le_of_lt hdepth)]
  rfl

theorem runBody_of_limit (self : Evaluator) (harity : c.params.length = args.length)
    (hdepth : m.limit ≤ m.depth) :
    runBody c args line rest self m = .error (.fault ⟨.callDepthExceeded m.limit, line⟩)
      { m with heap := (m.heap.bind c.frame c.params args).2 } := by
  rw [runBody_of_arity self harity]
  show EStateM.bind _ _ _ = _
  unfold EStateM.bind
  rw [asCall_apply, if_pos hdepth]

/-- Statements that all have the value `null`. -/
theorem sequence_null (frame : FrameId) (nodes : List Node) :
    sequence (fun _ _ => pure (.value .null)) frame nodes = pure (.value .null) := by
  induction nodes with
  | nil => rfl
  | cons node nodes ih => exact ih

theorem runBody_enters (harity : c.params.length = args.length) (hdepth : m.depth < m.limit) :
    Enters (runBody c args line rest) c args m :=
  ⟨_, fun self => runBody_of_depth self harity hdepth⟩

theorem runBody_refused (hrest : ∀ inner m, ∃ a m', rest inner (.value .null) m = .ok a m') :
    Refused (runBody c args line rest) line m ↔
      c.params.length = args.length ∧ m.limit ≤ m.depth := by
  refine ⟨fun h => ?_, fun ⟨harity, hdepth⟩ self => ⟨_, runBody_of_limit self harity hdepth⟩⟩
  -- a body of which every statement has a value would not stop anything
  obtain ⟨m', hstop⟩ := h fun _ _ => pure (.value .null)
  by_cases harity : c.params.length = args.length
  · refine ⟨harity, Nat.le_of_not_lt fun hdepth => ?_⟩
    rw [runBody_of_depth _ harity hdepth, sequence_null] at hstop
    obtain ⟨a, m'', hok⟩ := hrest (c.enter args m).1 (leaveCall (c.enter args m).2)
    cases hstop.symm.trans hok
  · have hframe : boundFrame c.frame c.params args line
        = fail (.frameArity c.params.length args.length) line := by
      simp [boundFrame, harity]
    unfold runBody at hstop
    rw [hframe] at hstop
    cases hstop

end

end Eval

/-! ### The discipline of calls -/

/-- **Calls are balanced and bounded.**  Whatever is evaluated, on whatever machine and however that
ends, as many calls are in progress afterwards as before; and on the way they are no more than the
limit or than there were at first.  A call, or the making of members, with the right number of
arguments is entered below the limit: its body runs with one more call in progress, within the
limit, and ends with as many, of which one is taken away.  At the limit and above, and only there,
it is refused. -/
theorem calls_balanced_and_bounded (fuel : Nat) :
    (∀ {α : Type} (p : Evaluator → Eval α) (m : Machine), Eval.Entry p →
      (Eval.after (p (Eval.evaluate fuel)) m).depth = m.depth ∧
      (Eval.Finishes (p (Eval.evaluate fuel) m) →
        p (Eval.watched (fun m' => m'.depth ≤ max m.depth m.limit) fuel) m =
          p (Eval.evaluate fuel) m)) ∧
    ∀ (c : Closure) (args : List Value) (line : Nat) (m : Machine),
      (c.params.length = args.length → m.depth < m.limit →
        Eval.Enters (Eval.callClosure · c args line) c args m ∧
        (args = [] → Eval.Enters (Eval.instantiate · c line) c args m) ∧
        (c.enter args m).2.depth = m.depth + 1 ∧ m.depth + 1 ≤ m.limit ∧
        (Eval.after (Eval.sequence (Eval.evaluate fuel) (c.enter args m).1 c.body)
          (c.enter args m).2).depth = m.depth + 1) ∧
      (Eval.Refused (Eval.callClosure · c args line) line m ↔
        c.params.length = args.length ∧ m.limit ≤ m.depth) ∧
      (Eval.Refused (Eval.instantiate · c line) line m ↔
        c.params.length = 0 ∧ m.limit ≤ m.depth) := by
  have hentry : ∀ {α : Type} {p : Evaluator → Eval α} (m : Machine), Eval.Entry p →
      (Lasting.atDepth m.depth m.limit).contract.Lifts (Eval.evaluate fuel)
        (Eval.watched (fun m' => m'.depth ≤ max m.depth m.limit) fuel) p fun _ => True :=
    fun m hp => (evaluate_counts (Nat.le_max_right _ _) fuel).entry (Nat.le_max_right _ _)
      (Nat.le_max_left _ _) hp
  have hbalance : ∀ {α : Type} {p : Evaluator → Eval α} (m : Machine), Eval.Entry p →
      (Eval.after (p (Eval.evaluate fuel)) m).depth = m.depth :=
    fun m hp => (Lasting.meets_iff.1 (hentry m hp).meets m ⟨rfl, rfl⟩).1
  refine ⟨fun p m hp => ⟨hbalance m hp, (hentry m hp).same m ⟨rfl, rfl⟩⟩,
    fun c args line m => ⟨fun harity hdepth => ⟨?_, ?_, rfl, hdepth, ?_⟩, ?_, ?_⟩⟩
  · rw [Eval.callClosure_eq_runBody]
    exact Eval.runBody_enters harity hdepth
  · rintro rfl
    rw [Eval.instantiate_eq_runBody]
    exact Eval.runBody_enters harity hdepth
  · exact hbalance (c.enter args m).2 (.sequence c.body _)
  · rw [Eval.callClosure_eq_runBody]
    exact Eval.runBody_refused fun _ m => ⟨_, m, rfl⟩
  · rw [Eval.instantiate_eq_runBody]
    exact Eval.runBody_refused fun _ m => ⟨_, _, rfl⟩

/-- `func() { "a" }`, made in the outermost frame. -/
def quietClosure : Closure := ⟨0, none, [], [.constant (.str "a") 1], 0⟩

/-- A machine with a limit of one call, of which some are in progress. -/
def oneCallMachine (depth : Nat) : Machine := ⟨⟨#[⟨[], none⟩], #[none], 0⟩, .ofInput [], depth, 1⟩

theorem quietClosure_balanced :
    Eval.Enters (Eval.callClosure · quietClosure [] 1) quietClosure [] (oneCallMachine 0) ∧
      (Eval.after (Eval.apply (Eval.evaluate 1) (.closure quietClosure) [] 1)
        (oneCallMachine 0)).depth = 0 ∧
      Eval.apply (Eval.watched (fun m => m.depth ≤ 1) 1) (.closure quietClosure) [] 1
        (oneCallMachine 0) = Eval.apply (Eval.evaluate 1) (.closure quietClosure) [] 1
          (oneCallMachine 0) ∧
      Eval.Refused (Eval.callClosure · quietClosure [] 1) 1 (oneCallMachine 1) := by
  obtain ⟨hentry, hcall⟩ := calls_balanced_and_bounded 1
  obtain ⟨hbalance, hwatched⟩ :=
    hentry _ (oneCallMachine 0) (.apply (.closure quietClosure) [] 1)
  refine ⟨((hcall quietClosure [] 1 (oneCallMachine 0)).1 rfl (by decide)).1, hbalance,
    hwatched trivial, ?_⟩
  exact (hcall quietClosure [] 1 (oneCallMachine 1)).2.1.2 ⟨rfl, by decide⟩

end PairScript
