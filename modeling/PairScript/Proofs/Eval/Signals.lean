import PairScript.Eval.Node
import PairScript.Proofs.Eval.Upholds
import PairScript.Proofs.Syntax.WellFormed

/-!
# The signals that each construct lets through

An expression ends with a value, a loop takes `break` and `continue`, and a switch takes `break`
and `fallthrough`.  This holds of every tree, on every machine and whatever the level below does:
only the construct itself decides what it lets through.
-/

namespace PairScript

namespace Node

/-- Whether a node is a loop. -/
def isLoop : Node → Bool
  | .whileLoop _ _ _ | .rangeLoop _ _ _ _ _ _ _ | .eachLoop _ _ _ _ => true
  | _ => false

/-- Whether a node is a switch. -/
def isSwitch : Node → Bool
  | .switch _ _ _ _ => true
  | _ => false

end Node

/-- If an evaluation ends with a signal, it is one of those in `allowed`. -/
def Outcome.Signals (allowed : Signal → Prop) (o : Outcome) : Prop :=
  ∀ s, o = .signal s → allowed s

/-- The signals that leave a loop. -/
def Signal.leavesLoop (s : Signal) : Prop := s ≠ .breakOut ∧ s ≠ .continueOn

/-- The signals that leave a switch. -/
def Signal.leavesSwitch (s : Signal) : Prop := s ≠ .breakOut ∧ s ≠ .fallThrough

/-- Whatever happens otherwise, the results of a procedure are in `Q`. -/
abbrev Always {α : Type} (p : Eval α) (Q : α → Prop) : Prop :=
  Upholds (fun _ => True) (fun _ => True) p Q

namespace Always

variable {α β : Type} {Q : β → Prop}

/-- Only the last procedure of a sequence has a say. -/
theorem last {p : Eval α} {f : α → Eval β} (h : ∀ a, Always (f a) Q) : Always (p >>= f) Q :=
  .bind (.any p) fun a _ => h a

theorem value {allowed : Signal → Prop} {v : Value} :
    Always (pure (.value v)) (Outcome.Signals allowed) := .pure nofun

end Always

variable {self : Evaluator} {frame : FrameId} {line : Nat}

/-! ### Loops -/

theorem leavesLoop_of_passOf {o : Outcome} {s : Signal} (h : Eval.passOf o = .leave s) :
    (Outcome.signal s).Signals Signal.leavesLoop := by
  match o with
  | .signal (.giveBack _) =>
    cases h
    rintro _ ⟨⟩
    exact ⟨nofun, nofun⟩
  | .signal .fallThrough =>
    cases h
    rintro _ ⟨⟩
    exact ⟨nofun, nofun⟩

theorem whileLoop_signals (condition : Node) (body : List Node) (bound : Nat) :
    Always (Eval.whileLoop self condition body frame bound)
      (Outcome.Signals Signal.leavesLoop) := by
  induction bound with
  | zero => exact .exhausted
  | succ bound ih =>
    refine .last fun v => ?_
    split
    · refine .last fun o => ?_
      split
      next => exact ih
      next => exact .value
      next s hleave => exact .pure (leavesLoop_of_passOf hleave)
    · exact .value

theorem rangePasses_signals (r : Eval.Range) (bound : Nat) :
    Always (Eval.rangePasses self r frame bound) (Outcome.Signals Signal.leavesLoop) := by
  induction bound with
  | zero => exact .exhausted
  | succ bound ih =>
    refine .last fun current => .last fun o => ?_
    split
    · refine .last fun o => ?_
      split
      next => exact .last fun _ => ih
      next => exact .value
      next s hleave => exact .pure (leavesLoop_of_passOf hleave)
    · exact .value

theorem rangeLoop_signals (bound : Nat) (name : String) (start limit : Node) (closed : Bool)
    (step : Option Node) (body : List Node) :
    Always (Eval.rangeLoop self bound name start limit closed step body frame line)
      (Outcome.Signals Signal.leavesLoop) :=
  .last fun _ => .last fun _ => .last fun _ => .last fun _ => .last fun _ => .last fun _ =>
    .last fun _ => .last fun _ => rangePasses_signals _ bound

theorem eachPass_signals (name : String) (body : List Node) (items : List Value) :
    Always (Eval.eachPass self name body frame items) (Outcome.Signals Signal.leavesLoop) := by
  induction items with
  | nil => exact .value
  | cons item items ih =>
    refine .last fun inner => .last fun _ => .last fun o => ?_
    split
    next => exact ih
    next => exact .value
    next s hleave => exact .pure (leavesLoop_of_passOf hleave)

/-! ### Switches -/

theorem switchOutcome_signals (o : Outcome) :
    (Eval.switchOutcome o).Signals Signal.leavesSwitch := by
  match o with
  | .value _ | .signal .breakOut | .signal .fallThrough => nofun
  | .signal (.giveBack _) | .signal .continueOn =>
    rintro _ ⟨⟩
    exact ⟨nofun, nofun⟩

theorem runFallback_signals (fallback : Option (List Node)) :
    Always (Eval.runFallback self fallback frame) (Outcome.Signals Signal.leavesSwitch) :=
  .last fun o => .pure (switchOutcome_signals o)

theorem runArms_signals (fallback : Option (List Node)) (arms : List (Arm Node)) :
    Always (Eval.runArms self fallback frame arms) (Outcome.Signals Signal.leavesSwitch) := by
  induction arms with
  | nil => exact runFallback_signals fallback
  | cons arm arms ih =>
    refine .last fun o => ?_
    split
    · exact ih
    · exact .pure (switchOutcome_signals o)

theorem chooseArm_signals (subject : Value) (fallback : Option (List Node))
    (arms : List (Arm Node)) :
    Always (Eval.chooseArm self subject fallback frame arms)
      (Outcome.Signals Signal.leavesSwitch) := by
  induction arms with
  | nil => exact runFallback_signals fallback
  | cons arm arms ih =>
    refine .last fun found => ?_
    split
    · exact runArms_signals fallback (arm :: arms)
    · exact ih

/-! ### Nodes -/

/-- The signals that leave a node. -/
structure Node.LetsThrough (node : Node) (s : Signal) : Prop where
  expression : node.isExpression = false
  loop : node.isLoop = true → s.leavesLoop
  switch : node.isSwitch = true → s.leavesSwitch

/-- **Each construct takes its signals.** -/
theorem step_signals (bound : Nat) (node : Node) :
    Always (Eval.step bound self node frame) (Outcome.Signals node.LetsThrough) := by
  have hloop : ∀ {p : Eval Outcome}, node.isExpression = false → node.isSwitch = false →
      Always p (Outcome.Signals Signal.leavesLoop) →
      Always p (Outcome.Signals node.LetsThrough) := by
    intro p hexpression hswitch hp
    refine hp.mono fun o ho s hs => ⟨hexpression, fun _ => ho s hs, fun h => ?_⟩
    rw [hswitch] at h
    cases h
  have hplain : ∀ {p : Eval Outcome}, node.isExpression = false → node.isLoop = false →
      node.isSwitch = false → Always p (Outcome.Signals node.LetsThrough) := by
    intro p hexpression hnoloop hswitch
    refine (Upholds.any p).mono fun o _ s _ => ⟨hexpression, fun h => ?_, fun h => ?_⟩
    · rw [hnoloop] at h
      cases h
    · rw [hswitch] at h
      cases h
  cases node with
  | constant _ _ => exact .value
  | reference _ _ | function _ _ _ _ | assignment _ _ _ _ | operation _ _ _ | call _ _ _ =>
    exact .last fun _ => .value
  | definition _ _ _ => exact .last fun _ => .last fun _ => .value
  | whileLoop condition body _ => exact hloop rfl rfl (whileLoop_signals condition body bound)
  | rangeLoop _ _ _ _ _ _ _ => exact hloop rfl rfl (rangeLoop_signals bound _ _ _ _ _ _)
  | eachLoop name _ body _ =>
    exact hloop rfl rfl (.last fun _ => .last fun items => eachPass_signals name body items)
  | switch subject arms fallback _ =>
    have hswitch : Always (Eval.switch self subject arms fallback frame)
        (Outcome.Signals Signal.leavesSwitch) := .last fun v => chooseArm_signals v fallback arms
    exact hswitch.mono fun o ho s hs => ⟨rfl, nofun, fun _ => ho s hs⟩
  | conditional _ _ _ _ | breakOut _ | continueOn _ | fallThrough _ | giveBack _ _ =>
    exact hplain rfl rfl rfl

theorem evaluate_signals (fuel : Nat) (node : Node) (frame : FrameId) :
    Always (Eval.evaluate fuel node frame) (Outcome.Signals node.LetsThrough) := by
  cases fuel with
  | zero => exact .exhausted
  | succ fuel => exact step_signals fuel node

end PairScript
