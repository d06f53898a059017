import PairScript.Proofs.Eval.Chain
import PairScript.Proofs.Eval.Switch
import PairScript.Proofs.Eval.Termination
import PairScript.Proofs.Number.Words

/-!
# Loops over ranges of integers

A loop from `a` to `b` by steps of `s` visits `a`, `a + s`, `a + 2 * s` and so on, as long as they
are before `b` in the direction of the step, or at `b` if the range is closed.  `RangeHas` says so
of integers of any size, and `passCount` counts the values.

The loop works on words.  The values that it visits lie between `a` and `b` and are words, but the
one that it steps to after the last pass need not be: then the loop ends in an overflow, all its
passes being made.

* `Passes` is about the passes that the loop comes to, one after the other;
* `rangePasses_done` and `rangePasses_turn` say what the loop does at one value;
* `rangePasses_run` follows the loop to its end, by induction on the passes that are left.
-/

namespace PairScript

/-! ### The values of a range -/

/-- Whether the range from `a` to `b` by steps of `s` has a value number `k`: one that is before `b`
in the direction of the step, or at `b` if the range is closed. -/
def RangeHas (closed : Bool) (a b s : Int) (k : Nat) : Prop :=
  match closed with
  | false => if 0 < s then a + k * s < b else b < a + k * s
  | true => if 0 < s then a + k * s ≤ b else b ≤ a + k * s

/-- Number of the values of a range. -/
def passCount (closed : Bool) (a b s : Int) : Nat :=
  let distance := if 0 < s then b - a else a - b
  ((distance - if closed then 0 else 1) / s.natAbs + 1).toNat

theorem rangeHas_iff {closed : Bool} {a b s : Int} (hs : s ≠ 0) {k : Nat} :
    RangeHas closed a b s k ↔ k < passCount closed a b s := by
  have hpos : (0 : Int) < s.natAbs := by omega
  have hcount : ∀ distance : Int,
      k < (distance / s.natAbs + 1).toNat ↔ k * s.natAbs ≤ distance := by
    intro distance
    rw [← Int.le_ediv_iff_mul_le hpos]
    omega
  unfold passCount
  rw [hcount]
  by_cases hup : 0 < s
  · have habs : (s.natAbs : Int) = s := by omega
    rw [habs, if_pos hup]
    cases closed with
    | false =>
      simp only [RangeHas, if_pos hup, Bool.false_eq_true, ↓reduceIte]
      omega
    | true =>
      simp only [RangeHas, if_pos hup, ↓reduceIte]
      omega
  · have habs : (s.natAbs : Int) = -s := by omega
    rw [habs, if_neg hup, Int.mul_neg]
    cases closed with
    | false =>
      simp only [RangeHas, if_neg hup, Bool.false_eq_true, ↓reduceIte]
      omega
    | true =>
      simp only [RangeHas, if_neg hup, ↓reduceIte]
      omega

example : passCount true 7 1 (-2) = 4 := rfl

/-- The values of a range of words are words. -/
theorem exists_word_of_rangeHas {closed : Bool} {a b : Word} {s : Int} {k : Nat}
    (h : RangeHas closed a.toInt b.toInt s k) : ∃ v : Word, v.toInt = a.toInt + k * s := by
  by_cases hup : 0 < s
  · have hstep : 0 ≤ k * s := Int.mul_nonneg (Int.natCast_nonneg k) (Int.le_of_lt hup)
    refine Word.exists_of_between (v := a) (w := b) (by omega) ?_
    cases closed with
    | false =>
      rw [RangeHas, if_pos hup] at h
      omega
    | true => rwa [RangeHas, if_pos hup] at h
  · have hstep : k * s ≤ 0 := Int.mul_nonpos_of_nonneg_of_nonpos (Int.natCast_nonneg k) (by omega)
    refine Word.exists_of_between (v := b) (w := a) ?_ (by omega)
    cases closed with
    | false =>
      rw [RangeHas, if_neg hup] at h
      omega
    | true => rwa [RangeHas, if_neg hup] at h

/-- The loop tests whether the range has one more value. -/
theorem goesOn_iff {closed : Bool} {a b s v : Int} {k : Nat} (hv : v = a + k * s) :
    Eval.goesOn (decide (0 < s)) closed (compare v b) = true ↔ RangeHas closed a b s k := by
  subst hv
  by_cases hup : 0 < s
  · rw [decide_eq_true hup]
    cases closed with
    | false =>
      rw [RangeHas, if_pos hup]
      exact Ordering.isLT_iff_eq_lt.trans Int.compare_eq_lt
    | true =>
      rw [RangeHas, if_pos hup]
      exact Std.isLE_compare
  · rw [decide_eq_false hup]
    cases closed with
    | false =>
      rw [RangeHas, if_neg hup]
      exact Ordering.isGT_iff_eq_gt.trans Int.compare_eq_gt
    | true =>
      rw [RangeHas, if_neg hup]
      exact Std.isGE_compare

/-- The words that a loop visits from `a` by steps of `s`, in order. -/
def Steps (a s : Int) (values : List Word) : Prop :=
  values.map Int64.toInt = (List.range values.length).map fun k : Nat => a + k * s

theorem Steps.concat {a s : Int} {values : List Word} {v : Word} (h : Steps a s values)
    (hv : v.toInt = a + values.length * s) : Steps a s (values ++ [v]) := by
  unfold Steps at h ⊢
  rw [List.length_append, List.length_singleton, List.range_succ, List.map_append, List.map_append,
    h, List.map_singleton, List.map_singleton, hv]

/-! ### Passes -/

/-- Evaluating a node gives a word, with enough fuel. -/
def Gives (frame : FrameId) (node : Node) (m : Machine) (w : Word) (m' : Machine) : Prop :=
  ∃ fuel, Eval.evaluate fuel node frame m = .ok (.value (.int w)) m'

/-- The step of a range, which is 1 by default. -/
inductive StepGives (frame : FrameId) : Option Node → Machine → Word → Machine → Prop
  | default {m : Machine} : StepGives frame none m 1 m
  | given {node : Node} {m m' : Machine} {s : Word} (gives : Gives frame node m s m') :
      StepGives frame (some node) m s m'

/-- A machine in which a frame binds a name. -/
def Machine.define (m : Machine) (frame : FrameId) (name : String) (v : Word) : Machine :=
  { m with heap := m.heap.define frame name (.int v) }

/-- A machine with a new frame, in which nothing is bound, inside another. -/
def Machine.child (m : Machine) (frame : FrameId) : Machine :=
  { m with heap := (m.heap.child frame).2 }

/-- A pass at a value: the loop variable is bound to it, and the body, which is run in a new frame
inside, ends with a value or in `continue` and leaves the variable as it is. -/
inductive PassRuns (frame : FrameId) (name : String) (body : List Node) (v : Word)
    (m m' : Machine) : Prop
  | intro {fuel : Nat} {outcome : Outcome}
      (runs : BlockRuns (Eval.evaluate fuel) frame body (m.define frame name v) outcome m')
      (ends : (∃ w, outcome = .value w) ∨ outcome = .signal .continueOn)
      (kept : m'.heap.own? frame name = some (.int v))

/-- Passes at values, one after the other. -/
inductive Passes (frame : FrameId) (name : String) (body : List Node) (m : Machine) :
    List Word → Machine → Prop
  | none : Passes frame name body m [] m
  | more {values : List Word} {v : Word} {m₁ m' : Machine}
      (before : Passes frame name body m values m₁) (pass : PassRuns frame name body v m₁ m') :
      Passes frame name body m (values ++ [v]) m'

/-! ### Fuel -/

theorem Contract.Follows.eq_ok {k : Contract} {α : Type} {p q : Eval α} {Q : α → Prop} {a : α}
    {m m' : Machine} (h : k.Follows p q Q) (hm : k.machine m) (hp : p m = .ok a m') :
    q m = .ok a m' := by
  rw [h.same m hm (by rw [hp]; trivial), hp]

theorem evaluate_ok_of_le {fuel fuel' : Nat} {node : Node} {frame : FrameId} {m m' : Machine}
    {outcome : Outcome} (h : Eval.evaluate fuel node frame m = .ok outcome m')
    (hfuel : fuel ≤ fuel') : Eval.evaluate fuel' node frame m = .ok outcome m' :=
  (evaluate_of_le hfuel node frame).eq_ok trivial h

theorem blockRuns_of_le {fuel fuel' : Nat} {body : List Node} {frame : FrameId} {m m' : Machine}
    {outcome : Outcome} (h : BlockRuns (Eval.evaluate fuel) frame body m outcome m')
    (hfuel : fuel ≤ fuel') : BlockRuns (Eval.evaluate fuel') frame body m outcome m' :=
  (Contract.sequence_lifts fun node _ => evaluate_of_le hfuel node _).eq_ok trivial h

theorem valueOf_of_evaluate {fuel fuel' : Nat} {node : Node} {frame : FrameId} {m m' : Machine}
    {w : Word} (h : Eval.evaluate fuel node frame m = .ok (.value (.int w)) m')
    (hfuel : fuel ≤ fuel') :
    Eval.valueOf (Eval.evaluate fuel') node frame m = .ok (.int w) m' :=
  Eval.valueOf_ok_iff.2 (evaluate_ok_of_le h hfuel)

/-! ### One turn -/

theorem Heap.lookup_of_own? {h : Heap} {id : FrameId} {name : String} {v : Value}
    (hown : h.own? id name = some v) : h.lookup id name = some v := by
  rw [lookup, resolve, resolveWithin_succ, hown]
  rfl

/-- A loop over words. -/
def wordRange (name : String) (closed : Bool) (b s : Word) (body : List Node) (line : Nat) :
    Eval.Range :=
  ⟨name, .int b, .int s, decide (0 < s.toInt), closed, body, line⟩

section

variable {self : Evaluator} {name : String} {closed : Bool} {b s v next : Word} {body : List Node}
  {line bound : Nat} {frame : FrameId} {m m₁ m₂ : Machine} {outcome : Outcome}

theorem own?_define_self (hsize : frame < m.heap.frames.size) :
    (m.define frame name v).heap.own? frame name = some (.int v) := by
  rw [Machine.define, Heap.own?_define hsize, if_pos ⟨rfl, rfl⟩]

/-- The test before a pass. -/
theorem rangePasses_test (hown : m.heap.own? frame name = some (.int v)) :
    Eval.rangePasses self (wordRange name closed b s body line) frame (bound + 1) m =
      (if Eval.goesOn (decide (0 < s.toInt)) closed (compare v.toInt b.toInt) then
        Eval.inScope self body frame >>= fun outcome =>
          match Eval.passOf outcome with
          | .next => Eval.advance (wordRange name closed b s body line) frame (.int v) >>= fun _ =>
              Eval.rangePasses self (wordRange name closed b s body line) frame bound
          | .stop => pure (.value .null)
          | .leave s => pure (.signal s)
      else pure (.value .null)) m :=
  Eval.bind_of_ok (Eval.lookup_of_some (Heap.lookup_of_own? hown))

theorem rangePasses_done (hown : m.heap.own? frame name = some (.int v))
    (hstop : ¬ Eval.goesOn (decide (0 < s.toInt)) closed (compare v.toInt b.toInt) = true) :
    Eval.rangePasses self (wordRange name closed b s body line) frame (bound + 1) m
      = .ok (.value .null) m := by
  rw [rangePasses_test hown, if_neg hstop]
  rfl

theorem rangePasses_pass (hown : m.heap.own? frame name = some (.int v))
    (hgo : Eval.goesOn (decide (0 < s.toInt)) closed (compare v.toInt b.toInt) = true)
    (hruns : BlockRuns self frame body m outcome m₁)
    (hends : (∃ w, outcome = .value w) ∨ outcome = .signal .continueOn) :
    Eval.rangePasses self (wordRange name closed b s body line) frame (bound + 1) m =
      (Eval.advance (wordRange name closed b s body line) frame (.int v) >>= fun _ =>
        Eval.rangePasses self (wordRange name closed b s body line) frame bound) m₁ := by
  rw [rangePasses_test hown, if_pos hgo, Eval.bind_of_ok (inScope_ok_iff.2 hruns)]
  rcases hends with ⟨w, rfl⟩ | rfl
  · rfl
  · rfl

/-- The variable steps to the next value, which has to be a word. -/
theorem advance_eq {current : Value} (hown : m.heap.own? frame name = some (.int v)) :
    Eval.advance (wordRange name closed b s body line) frame current m =
      (Eval.settle line (Primitive.checked (Word.ofInt? (v.toInt + s.toInt))) >>= fun next =>
        Eval.define frame name next) m := by
  have hlookup : Eval.lookup? frame name m = .ok (some (.int v)) m :=
    congrArg (EStateM.Result.ok · m) (Heap.lookup_of_own? hown)
  exact Eval.bind_of_ok hlookup

/-- A pass, with enough fuel, and the step after it. -/
theorem rangePasses_turn (line : Nat) (hsize : frame < m.heap.frames.size)
    (hgo : Eval.goesOn (decide (0 < s.toInt)) closed (compare v.toInt b.toInt) = true)
    (hpass : PassRuns frame name body v m m₁) :
    ∃ enough, ∀ fuel, enough ≤ fuel → ∀ bound,
      Eval.rangePasses (Eval.evaluate fuel) (wordRange name closed b s body line) frame (bound + 1)
          (m.define frame name v) =
        (Eval.settle line (Primitive.checked (Word.ofInt? (v.toInt + s.toInt))) >>= fun next =>
          Eval.define frame name next >>= fun _ =>
            Eval.rangePasses (Eval.evaluate fuel) (wordRange name closed b s body line) frame
              bound) m₁ := by
  obtain @⟨enough, outcome, hruns, hends, hkept⟩ := hpass
  refine ⟨enough, fun fuel hfuel bound => ?_⟩
  rw [rangePasses_pass (own?_define_self hsize) hgo (blockRuns_of_le hruns hfuel) hends]
  show EStateM.bind _ _ m₁ = _
  rw [EStateM.bind, advance_eq hkept]
  cases Word.ofInt? (v.toInt + s.toInt) with
  | none => rfl
  | some next => rfl

end

/-! ### The whole loop -/

theorem directionOf_word {s : Word} (hs : s ≠ 0) :
    Eval.directionOf (.int s) = .ok (decide (0 < s.toInt)) := by
  have hne : s.toInt ≠ 0 := fun h => hs (Int64.toInt_inj.1 h)
  have hcompare : Primitive.compareNumbers (.int s) (.int 0) = .ok (compare s.toInt 0) := rfl
  unfold Eval.directionOf
  rw [hcompare]
  by_cases hup : 0 < s.toInt
  · rw [Int.compare_eq_gt.2 hup, decide_eq_true hup]
    rfl
  · rw [Int.compare_eq_lt.2 (by omega), decide_eq_false hup]
    rfl

/-- How a loop ends after its passes: with `null`, its variable being bound to the value after the
last one, or in an overflow if that value is not a word. -/
def rangeEnd (frame : FrameId) (name : String) (line : Nat) (next : Int) (m : Machine) :
    EStateM.Result (Halt EvalCause) Machine Outcome :=
  match Word.ofInt? next with
  | some w => .ok (.value .null) (m.define frame name w)
  | none => .error (.fault ⟨.overflow, line⟩) m

section

variable {name : String} {closed : Bool} {a b s : Word} {body : List Node} {line : Nat}
  {frame : FrameId} {m : Machine}

/-- From any pass on, the loop makes the passes that are left and ends.  The induction is on their
number. -/
theorem rangePasses_run (hs : s.toInt ≠ 0)
    (hbody : ∀ {values : List Word} {v : Word} {m₁ : Machine}, Steps a.toInt s.toInt values →
      RangeHas closed a.toInt b.toInt s.toInt values.length →
      v.toInt = a.toInt + values.length * s.toInt → Passes frame name body m values m₁ →
      ∃ m', PassRuns frame name body v m₁ m') (left : Nat) (values : List Word) (v : Word)
    {m₁ : Machine} (hleft : values.length + left = passCount closed a.toInt b.toInt s.toInt)
    (hvalues : Steps a.toInt s.toInt values) (hv : v.toInt = a.toInt + values.length * s.toInt)
    (hpasses : Passes frame name body m values m₁) (hsize : frame < m₁.heap.frames.size) :
    ∃ all m', Steps a.toInt s.toInt all ∧
      all.length = passCount closed a.toInt b.toInt s.toInt ∧ Passes frame name body m all m' ∧
      ∃ least, ∀ fuel, least ≤ fuel → ∀ more,
        Eval.rangePasses (Eval.evaluate fuel) (wordRange name closed b s body line) frame
            (left + more + 1) (m₁.define frame name v)
          = rangeEnd frame name line (a.toInt + all.length * s.toInt) m' := by
  induction left generalizing values v m₁ with
  | zero =>
    refine ⟨values, m₁, hvalues, hleft, hpasses, 0, fun fuel _ more => ?_⟩
    have hstop : ¬ RangeHas closed a.toInt b.toInt s.toInt values.length := by
      rw [rangeHas_iff hs]
      omega
    rw [← goesOn_iff hv] at hstop
    rw [Nat.zero_add, rangePasses_done (own?_define_self hsize) hstop, rangeEnd,
      Word.ofInt?_eq_some_iff.2 hv]
  | succ left ih =>
    have hhas : RangeHas closed a.toInt b.toInt s.toInt values.length := by
      rw [rangeHas_iff hs]
      omega
    obtain ⟨m₂, hpass⟩ := hbody hvalues hhas hv hpasses
    have hall := hvalues.concat hv
    have hmade := Passes.more hpasses hpass
    have hlength : (values ++ [v]).length = values.length + 1 := by simp
    have hnext : v.toInt + s.toInt = a.toInt + (values ++ [v]).length * s.toInt := by
      rw [hv, hlength, Int.natCast_add, Int.add_mul]
      omega
    obtain ⟨enough, hturn⟩ := rangePasses_turn line hsize ((goesOn_iff hv).2 hhas) hpass
    rw [hnext] at hturn
    cases hword : Word.ofInt? (a.toInt + (values ++ [v]).length * s.toInt) with
    | some next =>
      rw [hword] at hturn
      have hframe : frame < m₂.heap.frames.size := by
        obtain ⟨-, -, hkept⟩ := hpass
        exact Heap.lt_size_of_own? hkept
      obtain ⟨all, m', hsteps, hcount, hrun, least, hloop⟩ := ih (values ++ [v]) next (by omega)
        hall (Word.ofInt?_eq_some_iff.1 hword) hmade hframe
      refine ⟨all, m', hsteps, hcount, hrun, max enough least, fun fuel hfuel more => ?_⟩
      rw [hturn fuel (by omega), ← hloop fuel (by omega) more, Nat.add_right_comm left 1 more]
      rfl
    | none =>
      rw [hword] at hturn
      -- a value that is not a word is not one of the range
      have hlast : left = 0 := by
        refine Nat.eq_zero_of_not_pos fun hpos => ?_
        have hhas : RangeHas closed a.toInt b.toInt s.toInt (values ++ [v]).length := by
          rw [rangeHas_iff hs]
          omega
        obtain ⟨w, hw⟩ := exists_word_of_rangeHas hhas
        rw [Word.ofInt?_eq_some_iff.2 hw] at hword
        cases hword
      refine ⟨values ++ [v], m₂, hall, by omega, hmade, enough, fun fuel hfuel more => ?_⟩
      rw [hturn fuel hfuel, rangeEnd, hword]
      rfl

end

/-- The bounds and the step of a range are evaluated from left to right, and give words. -/
inductive HeaderGives (frame : FrameId) (start limit : Node) (step : Option Node) (m : Machine)
    (a b s : Word) (m' : Machine) : Prop
  | intro {m₁ m₂ : Machine} (start : Gives frame start m a m₁) (limit : Gives frame limit m₁ b m₂)
      (step : StepGives frame step m₂ s m')

/-- The loop begins with its variable bound in a new frame. -/
theorem rangeLoop_begins {frame : FrameId} {name : String} {start limit : Node} {closed : Bool}
    {step : Option Node} {body : List Node} {line : Nat} {m m₀ : Machine} {a b s : Word}
    (hheader : HeaderGives frame start limit step m a b s m₀) (hs : s ≠ 0) :
    ∃ least, ∀ fuel, least ≤ fuel →
      Eval.evaluate (fuel + 1) (.rangeLoop name start limit closed step body line) frame m =
        Eval.rangePasses (Eval.evaluate fuel) (wordRange name closed b s body line)
          m₀.heap.frames.size fuel ((m₀.child frame).define m₀.heap.frames.size name a) := by
  obtain @⟨m₁, m₂, ⟨fuel₁, hstart⟩, ⟨fuel₂, hlimit⟩, hstep⟩ := hheader
  have hgiven : ∃ fuel₃, ∀ fuel, fuel₃ ≤ fuel →
      Eval.stepValue (Eval.evaluate fuel) step frame m₂ = .ok (.int s) m₀ := by
    cases hstep with
    | default => exact ⟨0, fun _ _ => rfl⟩
    | given gives =>
      obtain ⟨fuel₃, hgives⟩ := gives
      exact ⟨fuel₃, fun fuel hfuel => valueOf_of_evaluate hgives hfuel⟩
  obtain ⟨fuel₃, hgiven⟩ := hgiven
  refine ⟨max fuel₁ (max fuel₂ fuel₃), fun fuel hfuel => ?_⟩
  show Eval.rangeLoop (Eval.evaluate fuel) fuel name start limit closed step body frame line m = _
  unfold Eval.rangeLoop
  rw [Eval.bind_of_ok (valueOf_of_evaluate hstart (by omega)),
    Eval.bind_of_ok (valueOf_of_evaluate hlimit (by omega)),
    Eval.bind_of_ok (hgiven fuel (by omega)), directionOf_word hs]
  rfl

/-- **A loop over a range of words visits each of its values once, in order, and then ends.**  The
bounds and the step may be any words, the step not being zero, and the body any statements whose
passes end with a value or in `continue` and leave the loop variable as it is.

The loop makes a pass at `a + k * s` for each `k` for which that is before `b` in the direction of
the step, or at `b` if the range is closed; its variable is bound to exactly that value.  After the
last pass it steps once more.  It gives `null` if the value that it steps to is a word, and ends in
an overflow if not. -/
theorem range_visits_its_values {frame : FrameId} {name : String} {start limit : Node}
    {closed : Bool} {step : Option Node} {body : List Node} {line : Nat} {m m₀ : Machine}
    {a b s : Word} (hheader : HeaderGives frame start limit step m a b s m₀) (hs : s ≠ 0)
    (hbody : ∀ {values : List Word} {v : Word} {m₁ : Machine}, Steps a.toInt s.toInt values →
      RangeHas closed a.toInt b.toInt s.toInt values.length →
      v.toInt = a.toInt + values.length * s.toInt →
      Passes m₀.heap.frames.size name body (m₀.child frame) values m₁ →
      ∃ m', PassRuns m₀.heap.frames.size name body v m₁ m') :
    ∃ values m', Steps a.toInt s.toInt values ∧
      (∀ k, RangeHas closed a.toInt b.toInt s.toInt k ↔ k < values.length) ∧
      Passes m₀.heap.frames.size name body (m₀.child frame) values m' ∧
      ∃ least, ∀ fuel, least ≤ fuel →
        Eval.evaluate fuel (.rangeLoop name start limit closed step body line) frame m =
          rangeEnd m₀.heap.frames.size name line (a.toInt + values.length * s.toInt) m' := by
  have hne : s.toInt ≠ 0 := fun h => hs (Int64.toInt_inj.1 h)
  have hsize : m₀.heap.frames.size < (m₀.child frame).heap.frames.size := by
    simp [Machine.child, Heap.child, Heap.push]
  obtain ⟨least, hbegins⟩ := rangeLoop_begins hheader hs
  obtain ⟨values, m', hsteps, hcount, hpasses, least', hloop⟩ :=
    rangePasses_run hne hbody (passCount closed a.toInt b.toInt s.toInt) [] a (Nat.zero_add _) rfl
      (by simp) .none hsize
  refine ⟨values, m', hsteps, fun k => ?_, hpasses, ?_⟩
  · rw [hcount]
    exact rangeHas_iff hne
  · refine ⟨max least least' + passCount closed a.toInt b.toInt s.toInt + 2, fun fuel hfuel => ?_⟩
    obtain ⟨more, rfl⟩ : ∃ more, fuel = passCount closed a.toInt b.toInt s.toInt + more + 1 + 1 :=
      ⟨fuel - passCount closed a.toInt b.toInt s.toInt - 2, by omega⟩
    rw [hbegins _ (by omega), hloop _ (by omega)]

/-- A machine with one frame, in which nothing is bound. -/
def bareMachine : Machine := ⟨Heap.empty.root.2, .ofInput [], 0, 10⟩

/-- A closed range by steps of two, whose body is a `continue`. -/
theorem oddRange_visits_its_values :
    ∃ values m', Steps (1 : Word).toInt (2 : Word).toInt values ∧
      (∀ k, RangeHas true (1 : Word).toInt (5 : Word).toInt (2 : Word).toInt k ↔
        k < values.length) ∧
      Passes 1 "i" [.continueOn 1] (bareMachine.child 0) values m' ∧
      ∃ least, ∀ fuel, least ≤ fuel →
        Eval.evaluate fuel (.rangeLoop "i" (.constant (.int 1) 1) (.constant (.int 5) 1) true
            (some (.constant (.int 2) 1)) [.continueOn 1] 1) 0 bareMachine =
          rangeEnd 1 "i" 1 ((1 : Word).toInt + values.length * (2 : Word).toInt) m' := by
  have hheader : HeaderGives 0 (.constant (.int 1) 1) (.constant (.int 5) 1)
      (some (.constant (.int 2) 1)) bareMachine 1 5 2 bareMachine :=
    .intro ⟨1, rfl⟩ ⟨1, rfl⟩ (.given ⟨1, rfl⟩)
  refine range_visits_its_values hheader (by decide) fun {values v m₁} _ _ _ hpasses => ?_
  have hsize : 1 < m₁.heap.frames.size := by
    cases hpasses with
    | none => decide
    | more _ pass =>
      obtain ⟨-, -, kept⟩ := pass
      exact Heap.lt_size_of_own? kept
  have hkept : ((m₁.define 1 "i" v).child 1).heap.own? 1 "i" = some (.int v) := by
    refine (Heap.own?_push ⟨[], some 1⟩ ?_).trans (own?_define_self hsize)
    rw [Machine.define, Heap.size_define]
    exact hsize
  have hruns : BlockRuns (Eval.evaluate 1) 1 [.continueOn 1] (m₁.define 1 "i" v)
      (.signal .continueOn) ((m₁.define 1 "i" v).child 1) := rfl
  exact ⟨_, .intro hruns (.inr rfl) hkept⟩

/-- A loop to the largest word. -/
def lastWordsSource : String :=
  "for i in 9223372036854775806..=9223372036854775807 \x7b print(i) \x7d"

/-- The program of `lastWordsSource`. -/
def lastWordsLoop : Node :=
  .rangeLoop "i" (.constant (.int 9223372036854775806) 1) (.constant (.int 9223372036854775807) 1)
    true none [.call (.reference "print" 1) [.reference "i" 1] 1] 1

theorem compile_lastWords : compile lastWordsSource = .ok [lastWordsLoop] := by
  have htokens : tokenize lastWordsSource = .ok [⟨.name "for", 1⟩, ⟨.name "i", 1⟩, ⟨.name "in", 1⟩,
      ⟨.int 9223372036854775806, 1⟩, ⟨.symbol "..=", 1⟩, ⟨.int 9223372036854775807, 1⟩,
      ⟨.symbol "\x7b", 1⟩, ⟨.name "print", 1⟩, ⟨.symbol "(", 1⟩, ⟨.name "i", 1⟩, ⟨.symbol ")", 1⟩,
      ⟨.symbol "\x7d", 1⟩, ⟨.finish, 1⟩] := by rfl
  rw [compile, htokens]
  rfl

/-- **A loop does not get past the largest word.**  It visits both values of the range, and then
ends in an overflow. -/
theorem lastWords_end_in_overflow :
    compile lastWordsSource = .ok [lastWordsLoop] ∧
      (∀ k, RangeHas true 9223372036854775806 9223372036854775807 1 k ↔ k < 2) ∧
      ∃ m', Eval.runFresh [lastWordsLoop] (Machine.start (.ofInput []) defaultLimit)
          = .error (.fault ⟨.overflow, 1⟩) m' ∧
        m'.host.output = "9223372036854775806\n9223372036854775807\n" := by
  have hshort : ∃ m', Eval.runFreshWithin 6 [lastWordsLoop]
      (Machine.start (.ofInput []) defaultLimit) = .error (.fault ⟨.overflow, 1⟩) m' ∧
        m'.host.output = "9223372036854775806\n9223372036854775807\n" :=
    ⟨_, rfl, by decide +kernel⟩
  obtain ⟨m', hrun, houtput⟩ := hshort
  have hfinishes : Eval.Finishes (Eval.runFreshWithin 6 [lastWordsLoop]
      (Machine.start (.ofInput []) defaultLimit)) := by
    rw [hrun]
    trivial
  refine ⟨compile_lastWords, fun k => rangeHas_iff (by decide), m', ?_, houtput⟩
  rw [Eval.runFresh_eq, runFreshWithin_of_le (by decide) hfinishes, hrun]

end PairScript
