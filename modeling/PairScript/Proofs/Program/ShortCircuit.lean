import PairScript.Proofs.Program.Operators

/-!
# Operators that short-circuit

`&&` and `||` evaluate their right operand only if the left one leaves the result open.  That is
decided twice: before the right operand is evaluated, and again by the primitive, which gets `null`
in place of an operand that was not.  The primitive is looked up after the operands were evaluated.

`ShortCircuits` says what there is to an operator that short-circuits, without look-up, primitive
and placeholder.  `Eval.monitored` raises an alarm as soon as a node is evaluated on a machine on
which something is not as it should be.  `operators_short_circuit` states that the alarm is never
raised, whatever it is, where all that is asked is that `&&` and `||` short-circuit, in whatever
programs are run one after the other in one root frame.
-/

namespace PairScript

/-! ### What is asked of an operator -/

/-- How an operator ends that a left operand of one truth value settles. -/
inductive ShortCircuits (self : Evaluator) (frame : FrameId) (settles : Bool) (left right : Node)
    (m : Machine) : EStateM.Result (Halt EvalCause) Machine Value → Prop
  /-- It fails as its left operand does. -/
  | fails {halt : Halt EvalCause} {m₁ : Machine}
      (evaluated : Eval.valueOf self left frame m = .error halt m₁) :
      ShortCircuits self frame settles left right m (.error halt m₁)
  /-- It gives the value of the left operand, on the machine right after it. -/
  | settled {a : Value} {m₁ : Machine} (evaluated : Eval.valueOf self left frame m = .ok a m₁)
      (truth : a.isTruthy = settles) : ShortCircuits self frame settles left right m (.ok a m₁)
  /-- It ends as the right operand does after the left one. -/
  | left_open {a : Value} {m₁ : Machine} (evaluated : Eval.valueOf self left frame m = .ok a m₁)
      (truth : a.isTruthy = !settles) :
      ShortCircuits self frame settles left right m (Eval.valueOf self right frame m₁)

/-- The truth value of a left operand that settles an operator. -/
def settledBy? (symbol : String) : Option Bool :=
  if symbol = "&&" then some false else if symbol = "||" then some true else none

/-- If a node is an operator that a left operand can settle, then it short-circuits. -/
def Node.ShortCircuitsAt (self : Evaluator) (node : Node) (frame : FrameId) (m : Machine) : Prop :=
  ∀ symbol operands line settles, node = .operation symbol operands line →
    settledBy? symbol = some settles → ∃ left right, operands = [left, right] ∧
      ShortCircuits self frame settles left right m
        (Eval.operation self symbol operands frame line m)

/-- Evaluates a node in a frame like `Eval.evaluate`, with an alarm on nodes that are evaluated on
machines on which they are not as they should be. -/
noncomputable def Eval.monitored (alarm : Halt EvalCause)
    (proper : Evaluator → Node → FrameId → Machine → Prop) : (fuel : Nat) → Evaluator
  | 0, _, _ => exhausted
  | fuel + 1, node, frame => fun m =>
    haveI := Classical.propDecidable (proper (evaluate fuel) node frame m)
    if proper (evaluate fuel) node frame m then step fuel (monitored alarm proper fuel) node frame m
    else .error alarm m

/-! ### The two operators -/

theorem Primitive.and_apply (a b : Value) (line : Nat) (m : Machine) :
    Primitive.and.apply [a, b] line m = .ok (if a.isTruthy = false then a else b) m := by
  show EStateM.Result.ok (conjunction a b) m = _
  unfold conjunction
  cases a.isTruthy with
  | true => rfl
  | false => rfl

theorem Primitive.or_apply (a b : Value) (line : Nat) (m : Machine) :
    Primitive.or.apply [a, b] line m = .ok (if a.isTruthy = true then a else b) m :=
  rfl

/-- A primitive is the one of an operator that a left operand of one truth value settles. -/
structure Primitive.IsSettledBy (p : Primitive) (settles : Bool) : Prop where
  symbolic : p.IsSymbolic
  member : p.name ≠ "."
  binary : ∀ {count}, takesOperands p.name count = true → count = 2
  logical : ∀ {self operands frame line}, Eval.operation self p.name operands frame line
    = Eval.logical self p.name operands frame line
  needs : ∀ truth, Eval.needsRight p.name truth = (truth != settles)
  apply : ∀ a b line m, p.apply [a, b] line m = .ok (if a.isTruthy = settles then a else b) m

theorem Primitive.and_isSettledBy : Primitive.and.IsSettledBy false where
  symbolic := by decide
  member := by decide
  binary htakes := by simpa [takesOperands, binaryLevel?, name] using htakes
  logical := rfl
  needs := by decide
  apply := and_apply

theorem Primitive.or_isSettledBy : Primitive.or.IsSettledBy true where
  symbolic := by decide
  member := by decide
  binary htakes := by simpa [takesOperands, binaryLevel?, name] using htakes
  logical := rfl
  needs := by decide
  apply := or_apply

theorem exists_isSettledBy {symbol : String} {settles : Bool}
    (h : settledBy? symbol = some settles) :
    ∃ p : Primitive, p.name = symbol ∧ p.IsSettledBy settles := by
  unfold settledBy? at h
  split at h
  next hsymbol =>
    cases h
    exact ⟨.and, hsymbol.symm, Primitive.and_isSettledBy⟩
  next =>
    split at h
    next hsymbol =>
      cases h
      exact ⟨.or, hsymbol.symm, Primitive.or_isSettledBy⟩
    next => cases h

/-! ### No alarm -/

namespace Reach

variable {r : Reach} {self : Evaluator} {frame : FrameId} {n : Nat}
  {node left right : Node} {line : Nat} {m m' : Machine} {v : Value}

/-- Where an operand ends, the symbols of operators are looked up to their primitives. -/
theorem lookup_after (hlifts : r.regime.LiftsAt n self self frame node) (hm : r.Holds m.heap)
    (hn : n ≤ m.heap.frames.size) (hframe : r.HasFrame n frame) {p : Primitive}
    (hp : p.IsSymbolic) (hvalue : Eval.valueOf self node frame m = .ok v m') :
    r.Holds m'.heap ∧ n ≤ m'.heap.frames.size ∧
      Eval.lookup frame p.name line m' = .ok (.primitive p) m' := by
  have hmeets : r.regime.Meets n (Eval.valueOf self node frame) r.HasValue :=
    (Regime.valueOf_lifts hlifts).meets
  have hend := hmeets m hm hn
  rw [hvalue] at hend
  obtain ⟨hm', hstage, -⟩ := hend
  have hn' : n ≤ m'.heap.frames.size := Nat.le_trans hn hstage
  exact ⟨hm', hn', Eval.lookup_of_some (hm'.lookup_symbol (hframe.mono hn') hp)⟩

theorem logical_shortCircuits (hleft : r.regime.LiftsAt n self self frame left)
    (hright : r.regime.LiftsAt n self self frame right) (hm : r.Holds m.heap)
    (hn : n ≤ m.heap.frames.size) (hframe : r.HasFrame n frame) {p : Primitive} {settles : Bool}
    (hp : p.IsSettledBy settles) :
    ShortCircuits self frame settles left right m
      (Eval.logical self p.name [left, right] frame line m) := by
  let last (a b : Value) : Eval Value :=
    Eval.lookup frame p.name line >>= fun f => Eval.apply self f [a, b] line
  have hlast : ∀ {a b : Value} {m' : Machine},
      Eval.lookup frame p.name line m' = .ok (.primitive p) m' →
      last a b m' = .ok (if a.isTruthy = settles then a else b) m' :=
    fun hlookup => (Eval.bind_of_ok hlookup).trans (hp.apply _ _ line _)
  cases hvalue : Eval.valueOf self left frame m with
  | error halt m₁ =>
    have hlogical : Eval.logical self p.name [left, right] frame line m = .error halt m₁ :=
      Eval.bind_of_error hvalue
    rw [hlogical]
    exact .fails hvalue
  | ok a m₁ =>
    have hlogical : Eval.logical self p.name [left, right] frame line m =
        (if Eval.needsRight p.name a.isTruthy then Eval.valueOf self right frame >>= last a
          else pure .null >>= last a) m₁ := Eval.bind_of_ok hvalue
    obtain ⟨hm₁, hn₁, hlookup⟩ := lookup_after hleft hm hn hframe hp.symbolic hvalue
    rw [hlogical, hp.needs]
    by_cases hsettled : a.isTruthy = settles
    · -- the primitive gets `null` for the right operand, and does not give it
      have hneeded : ¬ (a.isTruthy != settles) = true := by simp [hsettled]
      have hnull : (pure .null : Eval Value) m₁ = .ok .null m₁ := rfl
      rw [if_neg hneeded, Eval.bind_of_ok hnull, hlast hlookup, if_pos hsettled]
      exact .settled hvalue hsettled
    · have hneeded : (a.isTruthy != settles) = true := by simpa using hsettled
      have hopen : a.isTruthy = !settles := Bool.eq_not.2 hsettled
      rw [if_pos hneeded]
      cases hother : Eval.valueOf self right frame m₁ with
      | error halt m₂ =>
        rw [Eval.bind_of_error hother, ← hother]
        exact .left_open hvalue hopen
      | ok b m₂ =>
        obtain ⟨-, -, hlookup⟩ := lookup_after hright hm₁ hn₁ hframe hp.symbolic hother
        rw [Eval.bind_of_ok hother, hlast hlookup, if_neg hsettled, ← hother]
        exact .left_open hvalue hopen

/-- Wherever programs reach, something is true of their parts. -/
def Throughout (r : Reach) (proper : Evaluator → Node → FrameId → Machine → Prop) : Prop :=
  ∀ {node : Node} {n : Nat} {frame : FrameId} {m : Machine} (fuel : Nat), r.Part node →
    r.Holds m.heap → n ≤ m.heap.frames.size → r.HasFrame n frame →
    proper (Eval.evaluate fuel) node frame m

/-- **Parts of programs short-circuit** where programs reach. -/
theorem throughout_shortCircuitsAt (r : Reach) : r.Throughout Node.ShortCircuitsAt := by
  rintro _ n frame m fuel hnode hm hn hframe symbol operands line settles rfl hsettles
  obtain ⟨p, rfl, hp⟩ := exists_isSettledBy hsettles
  have hshape : (Node.operation p.name operands line).HasShape := hnode.here.1.shape
  dsimp only [Node.HasShape] at hshape
  rw [if_neg hp.member] at hshape
  have hlifts : ∀ part ∈ operands,
      r.regime.LiftsAt n (Eval.evaluate fuel) (Eval.evaluate fuel) frame part :=
    fun part hpart => r.covers.agree fuel n part frame (r.covers.values hnode hpart) hframe
  match operands, hp.binary hshape.1 with
  | [left, right], _ =>
    rw [hp.logical]
    exact ⟨left, right, rfl, logical_shortCircuits (hlifts left (by simp)) (hlifts right (by simp))
      hm hn hframe hp⟩

/-- A monitor of what is proper where programs reach makes no difference there. -/
theorem agree_monitored (r : Reach) (alarm : Halt EvalCause)
    {proper : Evaluator → Node → FrameId → Machine → Prop} (hproper : r.Throughout proper)
    (fuel : Nat) :
    r.regime.Agree r.Part (Eval.evaluate fuel) (Eval.monitored alarm proper fuel) := by
  induction fuel with
  | zero => exact r.covers.agree_exhausted
  | succ fuel ih =>
    intro n node frame hnode hframe
    have hstep := r.covers.step ih fuel hnode hframe
    refine ⟨r.covers.fits hnode, hstep.meets, fun m hm hn hfinishes => ?_⟩
    have hmonitored : Eval.monitored alarm proper (fuel + 1) node frame m
        = Eval.step fuel (Eval.monitored alarm proper fuel) node frame m :=
      if_pos (hproper fuel hnode hm hn hframe)
    rw [hmonitored]
    exact hstep.same m hm hn hfinishes

theorem session_monitored {r : Reach} (alarm : Halt EvalCause)
    {proper : Evaluator → Node → FrameId → Machine → Prop} (hproper : r.Throughout proper)
    (fuel : Nat) (sources : List String) (hline : ∀ line, r.line line) (hm : r.Holds m.heap) :
    session (runSourceWith (Eval.monitored alarm proper fuel) r.root) sources m
      = session (runSourceWith (Eval.evaluate fuel) r.root) sources m :=
  (session_agree (r.agree_monitored alarm hproper fuel) id (part_of_compile hline)
    (fun _ => r.hasFrame_root) (fun _ _ => And.left) sources hm).1

end Reach

/-! ### Sessions -/

theorem ShortCircuits.of_null {self : Evaluator} {frame : FrameId} {settles : Bool}
    {left right : Node} {m m' : Machine}
    (h : ShortCircuits self frame settles left right m (.ok .null m')) :
    Eval.valueOf self left frame m = .ok .null m' ∨
      ∃ a m₁, Eval.valueOf self left frame m = .ok a m₁ ∧ a.isTruthy = !settles ∧
        Eval.valueOf self right frame m₁ = .ok .null m' := by
  generalize hresult : EStateM.Result.ok Value.null m' = result at h
  cases h with
  | fails => cases hresult
  | settled evaluated =>
    cases hresult
    exact .inl evaluated
  | left_open evaluated truth => exact .inr ⟨_, _, evaluated, truth, rfl⟩

/-- **Operators short-circuit.**  Whatever texts are run one after the other in a new root frame of
whatever machine, every node with `&&` or `||` that is evaluated on the way does what there is to a
short circuit, with any fuel, and so in particular with the fuel of `runSourceIn`:

* it fails if the left operand does, in the same way;
* it gives the value of the left operand if that settles it, a false one settling `&&` and a true
  one `||`, and leaves the machine as it is right after the left operand;
* otherwise it ends as the right operand does, evaluated after the left one.

So it gives `null` only if an operand that was evaluated did. -/
theorem operators_short_circuit (m : Machine) (sources : List String) (fuel : Nat) :
    let root := m.heap.standardRoot.1
    let start := { m with heap := m.heap.standardRoot.2 }
    (∀ alarm, session (runSourceWith (Eval.monitored alarm Node.ShortCircuitsAt fuel) root)
        sources start = session (runSourceWith (Eval.evaluate fuel) root) sources start) ∧
    (∀ alarm,
      session (runSourceWith (Eval.monitored alarm Node.ShortCircuitsAt Eval.ampleFuel) root)
        sources start = session (runSourceIn root) sources start) ∧
    ∀ {self frame settles left right m m'},
      ShortCircuits self frame settles left right m (.ok .null m') →
      Eval.valueOf self left frame m = .ok .null m' ∨
        ∃ a m₁, Eval.valueOf self left frame m = .ok a m₁ ∧ a.isTruthy = !settles ∧
          Eval.valueOf self right frame m₁ = .ok .null m' := by
  intro root start
  let r := Reach.ofHeap m.heap fun _ => True
  have hstart : r.Holds start.heap := Reach.holds_standardRoot m.heap _
  have hsession := fun alarm fuel =>
    Reach.session_monitored alarm r.throughout_shortCircuitsAt fuel sources (fun _ => trivial)
      hstart
  exact ⟨fun alarm => hsession alarm fuel, fun alarm => hsession alarm Eval.ampleFuel,
    ShortCircuits.of_null⟩

/-- An operator whose right operand is a name that is not bound. -/
def settledSource : String := "0 && missing"

theorem compile_settled : compile settledSource = .ok
    [.operation "&&" [.constant (.int 0) 1, .reference "missing" 1] 1] := by
  have htokens : tokenize settledSource = .ok [⟨.int 0, 1⟩, ⟨.symbol "&&", 1⟩,
      ⟨.name "missing", 1⟩, ⟨.finish, 1⟩] := rfl
  rw [compile, htokens]
  rfl

/-- The name is not looked up, and there is no alarm. -/
theorem settledSource_short_circuits :
    let m := Machine.start (.ofInput []) 0
    let start := { m with heap := m.heap.standardRoot.2 }
    session (runSourceWith (Eval.monitored .outOfFuel Node.ShortCircuitsAt 5)
        m.heap.standardRoot.1) [settledSource] start = ([.ok (.int 0)], start) := by
  intro m start
  obtain ⟨hsame, -⟩ := operators_short_circuit m [settledSource] 5
  rw [hsame .outOfFuel]
  simp only [session, runSourceWith, compile_settled]
  rfl

end PairScript
