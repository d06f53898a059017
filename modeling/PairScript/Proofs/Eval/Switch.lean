import PairScript.Proofs.Eval.Regime
import PairScript.Proofs.Parse.Sound

/-!
# What a switch evaluates

A switch evaluates its subject, then the values of its arms up to the first one that equals the
subject, and then blocks: the arms from the matching one on, as long as they end in `fallthrough`,
and the default arm if no arm matched or the last one ended so.

The relations of this module say that with the machines in between, for every evaluator of the
parts.  So they leave no room for an evaluation that they do not mention.

* `Misses` and `Finds` are about the values of arms;
* `BlockRuns`, `FallsThrough`, `DefaultRuns` and `ArmsRun` are about their blocks;
* `SwitchRuns` is about all arms, and `Switches` about the whole.

The default arm may be written anywhere.  `Grammar.Clauses` reads the clauses of a switch in the
order in which they are written.
-/

namespace PairScript

/-! ### Sequencing -/

theorem Eval.bind_ok_iff {α β : Type} {p : Eval α} {f : α → Eval β} {b : β} {m m' : Machine} :
    (p >>= f) m = .ok b m' ↔ ∃ a m₁, p m = .ok a m₁ ∧ f a m₁ = .ok b m' := by
  constructor
  · exact Eval.bind_eq_ok
  · rintro ⟨a, m₁, hp, hf⟩
    show EStateM.bind p f m = .ok b m'
    rw [EStateM.bind, hp]
    exact hf

theorem Eval.pure_ok_iff {α : Type} {a b : α} {m m' : Machine} :
    (pure a : Eval α) m = .ok b m' ↔ b = a ∧ m' = m := by
  show EStateM.Result.ok a m = .ok b m' ↔ _
  rw [EStateM.Result.ok.injEq, eq_comm, @eq_comm _ m]

theorem Eval.valueOf_ok_iff {self : Evaluator} {node : Node} {frame : FrameId} {v : Value}
    {m m' : Machine} :
    Eval.valueOf self node frame m = .ok v m' ↔ self node frame m = .ok (.value v) m' := by
  unfold Eval.valueOf
  rw [Eval.bind_ok_iff]
  constructor
  · rintro ⟨o, m₁, hself, hrest⟩
    cases o with
    | value w =>
      obtain ⟨rfl, rfl⟩ := Eval.pure_ok_iff.1 hrest
      exact hself
    | signal s => cases hrest
  · intro hself
    exact ⟨.value v, m', hself, rfl⟩

section

variable (self : Evaluator) (frame : FrameId)

/-! ### The values of arms -/

/-- Nodes are evaluated one after the other, and their values all differ from the subject. -/
inductive Misses (subject : Value) : List Node → Machine → Machine → Prop
  | nil {m : Machine} : Misses subject [] m m
  | cons {node : Node} {nodes : List Node} {v : Value} {m m₁ m' : Machine}
      (evaluated : self node frame m = .ok (.value v) m₁) (differs : v.equal subject = false)
      (others : Misses subject nodes m₁ m') : Misses subject (node :: nodes) m m'

/-- Nodes are evaluated up to the first one whose value equals the subject, and no further. -/
inductive Finds (subject : Value) : List Node → Machine → Machine → Prop
  | intro {missed unread : List Node} {node : Node} {v : Value} {m m₁ m' : Machine}
      (before : Misses self frame subject missed m m₁)
      (evaluated : self node frame m₁ = .ok (.value v) m') (equal : v.equal subject = true) :
      Finds subject (missed ++ node :: unread) m m'

/-! ### The blocks of arms -/

/-- The statements of a block are run in a frame of their own: a new one, with nothing in it,
inside `frame`. -/
def BlockRuns (body : List Node) (m : Machine) (outcome : Outcome) (m' : Machine) : Prop :=
  Eval.sequence self m.heap.frames.size body
    { m with heap := { m.heap with frames := m.heap.frames.push ⟨[], some frame⟩ } }
    = .ok outcome m'

/-- The blocks of arms are run one after the other, and all end in `fallthrough`. -/
inductive FallsThrough : List (Arm Node) → Machine → Machine → Prop
  | nil {m : Machine} : FallsThrough [] m m
  | cons {arm : Arm Node} {arms : List (Arm Node)} {m m₁ m' : Machine}
      (block : BlockRuns self frame arm.body m (.signal .fallThrough) m₁)
      (others : FallsThrough arms m₁ m') : FallsThrough (arm :: arms) m m'

/-- What a switch makes of the outcome of the last block that it runs: `return` and `continue` are
passed on, and everything else is `null`. -/
inductive PassesOn : (last outcome : Outcome) → Prop
  | giveBack {v : Value} : PassesOn (.signal (.giveBack v)) (.signal (.giveBack v))
  | continueOn : PassesOn (.signal .continueOn) (.signal .continueOn)
  | null {last : Outcome} (value : ∀ v, last ≠ .signal (.giveBack v))
      (loop : last ≠ .signal .continueOn) : PassesOn last (.value .null)

/-- The default arm is run, if there is one. -/
inductive DefaultRuns : Option (List Node) → Machine → Outcome → Machine → Prop
  | absent {m : Machine} : DefaultRuns none m (.value .null) m
  | present {body : List Node} {m m' : Machine} {last outcome : Outcome}
      (block : BlockRuns self frame body m last m') (passes : PassesOn last outcome) :
      DefaultRuns (some body) m outcome m'

variable (fallback : Option (List Node))

/-- Arms are run without a test, the first one to begin with, and every other one if the one
before it ended in `fallthrough`.  After the last arm comes the default arm. -/
inductive ArmsRun : List (Arm Node) → Machine → Outcome → Machine → Prop
  | stopped {through unread : List (Arm Node)} {arm : Arm Node} {m m₁ m' : Machine}
      {last outcome : Outcome} (before : FallsThrough self frame through m m₁)
      (block : BlockRuns self frame arm.body m₁ last m') (stops : last ≠ .signal .fallThrough)
      (passes : PassesOn last outcome) : ArmsRun (through ++ arm :: unread) m outcome m'
  | fallen {arms : List (Arm Node)} {m m₁ m' : Machine} {outcome : Outcome}
      (all : FallsThrough self frame arms m m₁)
      (default : DefaultRuns self frame fallback m₁ outcome m') : ArmsRun arms m outcome m'

/-- The arms of a switch are tried in order.  The first one with a value that equals the subject is
run, and goes on to those after it. -/
inductive SwitchRuns (subject : Value) : List (Arm Node) → Machine → Outcome → Machine → Prop
  | unmatched {arms : List (Arm Node)} {m m₁ m' : Machine} {outcome : Outcome}
      (all : Misses self frame subject (arms.flatMap Arm.values) m m₁)
      (default : DefaultRuns self frame fallback m₁ outcome m') :
      SwitchRuns subject arms m outcome m'
  | matched {tried after : List (Arm Node)} {arm : Arm Node} {m m₁ m₂ m' : Machine}
      {outcome : Outcome} (before : Misses self frame subject (tried.flatMap Arm.values) m m₁)
      (value : Finds self frame subject arm.values m₁ m₂)
      (arms : ArmsRun self frame fallback (arm :: after) m₂ outcome m') :
      SwitchRuns subject (tried ++ arm :: after) m outcome m'

/-- A switch evaluates its subject once, and then runs its arms. -/
inductive Switches (subject : Node) (arms : List (Arm Node)) :
    Machine → Outcome → Machine → Prop
  | intro {v : Value} {m m₁ m' : Machine} {outcome : Outcome}
      (evaluated : self subject frame m = .ok (.value v) m₁)
      (runs : SwitchRuns self frame fallback v arms m₁ outcome m') :
      Switches subject arms m outcome m'

end

section

variable {self : Evaluator} {frame : FrameId} {fallback : Option (List Node)}
  {m m₁ m' : Machine} {outcome : Outcome}

/-! ### Looking for a value -/

theorem Misses.append {subject : Value} {nodes nodes' : List Node}
    (h : Misses self frame subject nodes m m₁) (h' : Misses self frame subject nodes' m₁ m') :
    Misses self frame subject (nodes ++ nodes') m m' := by
  induction h with
  | nil => exact h'
  | cons evaluated differs _ ih => exact .cons evaluated differs (ih h')

theorem Misses.of_append {subject : Value} {nodes nodes' : List Node}
    (h : Misses self frame subject (nodes ++ nodes') m m') :
    ∃ m₁, Misses self frame subject nodes m m₁ ∧ Misses self frame subject nodes' m₁ m' := by
  induction nodes generalizing m with
  | nil => exact ⟨m, .nil, h⟩
  | cons node nodes ih =>
    cases h with
    | cons evaluated differs others =>
      obtain ⟨m₁, hfirst, hrest⟩ := ih others
      exact ⟨m₁, .cons evaluated differs hfirst, hrest⟩

theorem Finds.cons {subject v : Value} {node : Node} {nodes : List Node}
    (evaluated : self node frame m = .ok (.value v) m₁) (differs : v.equal subject = false)
    (h : Finds self frame subject nodes m₁ m') : Finds self frame subject (node :: nodes) m m' := by
  cases h with
  | intro before found equal => exact .intro (.cons evaluated differs before) found equal

/-- Looking for a value in a list goes up to the first equal one, or to the end. -/
theorem matchesAny_ok_iff {subject : Value} {nodes : List Node} {b : Bool} :
    Eval.matchesAny self subject frame nodes m = .ok b m' ↔
      if b then Finds self frame subject nodes m m' else Misses self frame subject nodes m m' := by
  induction nodes generalizing m with
  | nil =>
    unfold Eval.matchesAny
    rw [Eval.pure_ok_iff]
    constructor
    · rintro ⟨rfl, rfl⟩
      exact Misses.nil
    · intro h
      cases b with
      | true =>
        generalize hnodes : ([] : List Node) = nodes at h
        cases h
        simp at hnodes
      | false =>
        cases h
        exact ⟨rfl, rfl⟩
  | cons node nodes ih =>
    unfold Eval.matchesAny
    rw [Eval.bind_ok_iff]
    constructor
    · rintro ⟨v, m₁, hvalue, hrest⟩
      have hvalue := Eval.valueOf_ok_iff.1 hvalue
      by_cases hequal : v.equal subject = true
      · rw [if_pos hequal, Eval.pure_ok_iff] at hrest
        obtain ⟨rfl, rfl⟩ := hrest
        exact Finds.intro .nil hvalue hequal
      · rw [if_neg hequal, ih] at hrest
        have hdiffers := Bool.eq_false_iff.2 hequal
        cases b with
        | true => exact Finds.cons hvalue hdiffers hrest
        | false => exact Misses.cons hvalue hdiffers hrest
    · intro h
      cases b with
      | true =>
        generalize hnodes : node :: nodes = all at h
        obtain ⟨before, evaluated, equal⟩ := h
        cases before with
        | nil =>
          obtain ⟨rfl, rfl⟩ := List.cons.inj hnodes
          exact ⟨_, m', Eval.valueOf_ok_iff.2 evaluated, by rw [if_pos equal]; rfl⟩
        | @cons _ _ v _ m₂ _ first differs others =>
          obtain ⟨rfl, rfl⟩ := List.cons.inj hnodes
          refine ⟨v, m₂, Eval.valueOf_ok_iff.2 first, ?_⟩
          rw [if_neg (Bool.eq_false_iff.1 differs), ih]
          exact Finds.intro others evaluated equal
      | false =>
        cases h with
        | @cons _ _ v _ m₂ _ first differs others =>
          refine ⟨v, m₂, Eval.valueOf_ok_iff.2 first, ?_⟩
          rw [if_neg (Bool.eq_false_iff.1 differs), ih]
          exact others

/-! ### Running blocks -/

theorem inScope_ok_iff {body : List Node} :
    Eval.inScope self body frame m = .ok outcome m' ↔ BlockRuns self frame body m outcome m' :=
  Iff.rfl

theorem passesOn_iff {last : Outcome} :
    PassesOn last outcome ↔ outcome = Eval.switchOutcome last := by
  constructor
  · intro h
    cases h with
    | giveBack => rfl
    | continueOn => rfl
    | null value loop =>
      cases last with
      | value v => rfl
      | signal s =>
        cases s with
        | giveBack v => exact absurd rfl (value v)
        | continueOn => exact absurd rfl loop
        | breakOut => rfl
        | fallThrough => rfl
  · rintro rfl
    cases last with
    | value v => exact .null nofun nofun
    | signal s =>
      cases s with
      | giveBack v => exact .giveBack
      | continueOn => exact .continueOn
      | breakOut => exact .null nofun nofun
      | fallThrough => exact .null nofun nofun

theorem runFallback_ok_iff :
    Eval.runFallback self fallback frame m = .ok outcome m' ↔
      DefaultRuns self frame fallback m outcome m' := by
  unfold Eval.runFallback
  rw [Eval.bind_ok_iff]
  constructor
  · rintro ⟨last, m₁, hblock, hlast⟩
    obtain ⟨rfl, rfl⟩ := Eval.pure_ok_iff.1 hlast
    cases fallback with
    | none =>
      obtain ⟨rfl, rfl⟩ := Eval.pure_ok_iff.1 hblock
      exact .absent
    | some body => exact .present hblock (passesOn_iff.2 rfl)
  · intro h
    cases h with
    | absent => exact ⟨.value .null, m, rfl, rfl⟩
    | present block passes => exact ⟨_, m', block, by rw [passesOn_iff.1 passes]; rfl⟩

theorem ArmsRun.cons {arm : Arm Node} {arms : List (Arm Node)}
    (block : BlockRuns self frame arm.body m (.signal .fallThrough) m₁)
    (h : ArmsRun self frame fallback arms m₁ outcome m') :
    ArmsRun self frame fallback (arm :: arms) m outcome m' := by
  cases h with
  | stopped before last stops passes => exact .stopped (.cons block before) last stops passes
  | fallen all default => exact .fallen (.cons block all) default

/-- One arm: its block is run, and `fallthrough` leads on to the others. -/
theorem runArms_cons_ok_iff {arm : Arm Node} {arms : List (Arm Node)} :
    Eval.runArms self fallback frame (arm :: arms) m = .ok outcome m' ↔
      ∃ last m₁, BlockRuns self frame arm.body m last m₁ ∧
        ((last = .signal .fallThrough ∧
            Eval.runArms self fallback frame arms m₁ = .ok outcome m') ∨
          (last ≠ .signal .fallThrough ∧ PassesOn last outcome ∧ m' = m₁)) := by
  rw [Eval.runArms, Eval.bind_ok_iff]
  refine exists_congr fun last => exists_congr fun m₁ => and_congr_right fun _ => ?_
  split
  · simp
  next hstops =>
    have hstops : last ≠ .signal .fallThrough := hstops
    rw [Eval.pure_ok_iff, passesOn_iff]
    simp [hstops]

theorem runArms_ok_iff {arms : List (Arm Node)} :
    Eval.runArms self fallback frame arms m = .ok outcome m' ↔
      ArmsRun self frame fallback arms m outcome m' := by
  induction arms generalizing m with
  | nil =>
    rw [Eval.runArms, runFallback_ok_iff]
    constructor
    · exact fun h => .fallen .nil h
    · intro h
      generalize harms : ([] : List (Arm Node)) = arms at h
      cases h with
      | stopped => simp at harms
      | fallen all default =>
        subst harms
        cases all
        exact default
  | cons arm arms ih =>
    rw [runArms_cons_ok_iff]
    constructor
    · rintro ⟨last, m₁, hblock, ⟨rfl, hrest⟩ | ⟨hstops, hpasses, rfl⟩⟩
      · exact (ih.1 hrest).cons hblock
      · exact .stopped .nil hblock hstops hpasses
    · intro h
      generalize harms : arm :: arms = all at h
      cases h with
      | @stopped _ _ _ _ _ _ last _ before block stops passes =>
        cases before with
        | nil =>
          obtain ⟨rfl, rfl⟩ := List.cons.inj harms
          exact ⟨last, m', block, .inr ⟨stops, passes, rfl⟩⟩
        | cons first others =>
          obtain ⟨rfl, rfl⟩ := List.cons.inj harms
          exact ⟨_, _, first, .inl ⟨rfl, ih.2 (.stopped others block stops passes)⟩⟩
      | fallen all default =>
        subst harms
        cases all with
        | cons first others => exact ⟨_, _, first, .inl ⟨rfl, ih.2 (.fallen others default)⟩⟩

/-! ### The whole switch -/

theorem SwitchRuns.cons {subject : Value} {arm : Arm Node} {arms : List (Arm Node)}
    (first : Misses self frame subject arm.values m m₁)
    (h : SwitchRuns self frame fallback subject arms m₁ outcome m') :
    SwitchRuns self frame fallback subject (arm :: arms) m outcome m' := by
  cases h with
  | unmatched all default => exact .unmatched (first.append all) default
  | @matched tried after arm' _ _ _ _ _ before value runs =>
    have hbefore : Misses self frame subject ((arm :: tried).flatMap Arm.values) m _ :=
      first.append before
    exact SwitchRuns.matched hbefore value runs

theorem chooseArm_ok_iff {subject : Value} {arms : List (Arm Node)} :
    Eval.chooseArm self subject fallback frame arms m = .ok outcome m' ↔
      SwitchRuns self frame fallback subject arms m outcome m' := by
  induction arms generalizing m with
  | nil =>
    rw [Eval.chooseArm, runFallback_ok_iff]
    constructor
    · exact fun h => .unmatched .nil h
    · intro h
      generalize harms : ([] : List (Arm Node)) = arms at h
      cases h with
      | unmatched all default =>
        subst harms
        cases all
        exact default
      | matched => simp at harms
  | cons arm arms ih =>
    rw [Eval.chooseArm, Eval.bind_ok_iff]
    constructor
    · rintro ⟨b, m₁, hmatches, hrest⟩
      have hmatches := matchesAny_ok_iff.1 hmatches
      cases b with
      | true =>
        have hnone : Misses self frame subject (([] : List (Arm Node)).flatMap Arm.values) m m :=
          .nil
        exact SwitchRuns.matched hnone hmatches (runArms_ok_iff.1 hrest)
      | false => exact (ih.1 hrest).cons hmatches
    · intro h
      generalize harms : arm :: arms = all at h
      cases h with
      | unmatched all default =>
        subst harms
        obtain ⟨m₁, hfirst, hothers⟩ := Misses.of_append all
        exact ⟨false, m₁, matchesAny_ok_iff.2 hfirst, ih.2 (.unmatched hothers default)⟩
      | @matched tried _ _ _ _ m₂ _ _ before value runs =>
        cases tried with
        | nil =>
          obtain ⟨rfl, rfl⟩ := List.cons.inj harms
          cases before
          exact ⟨true, m₂, matchesAny_ok_iff.2 value, runArms_ok_iff.2 runs⟩
        | cons first tried =>
          obtain ⟨rfl, rfl⟩ := List.cons.inj harms
          obtain ⟨m₁, hfirst, hothers⟩ := Misses.of_append before
          exact ⟨false, m₁, matchesAny_ok_iff.2 hfirst, ih.2 (.matched hothers value runs)⟩

theorem switch_ok_iff {subject : Node} {arms : List (Arm Node)} :
    Eval.switch self subject arms fallback frame m = .ok outcome m' ↔
      Switches self frame fallback subject arms m outcome m' := by
  rw [Eval.switch, Eval.bind_ok_iff]
  constructor
  · rintro ⟨v, m₁, hsubject, hrest⟩
    exact .intro (Eval.valueOf_ok_iff.1 hsubject) (chooseArm_ok_iff.1 hrest)
  · rintro ⟨evaluated, runs⟩
    exact ⟨_, _, Eval.valueOf_ok_iff.2 evaluated, chooseArm_ok_iff.2 runs⟩

end

/-! ### The clauses of a switch as they are written -/

/-- A clause of a switch. -/
inductive Clause where
  | case (arm : Arm Node)
  | fallback (body : List Node)

/-- The arm of a `case`. -/
def Clause.case? : Clause → Option (Arm Node)
  | .case arm => some arm
  | .fallback _ => none

/-- The body of a `default`. -/
def Clause.fallback? : Clause → Option (List Node)
  | .case _ => none
  | .fallback body => some body

/-- The clauses of a switch in the order in which they are written, and its closing brace. -/
inductive Grammar.Clauses (R : Goal → Phrase Node) : Phrase (List Clause)
  | done {ts rest : List Token} {close : Token} (after : pastSeparators ts = close :: rest)
      (closes : close.kind = .symbol "\x7d") : Clauses R ts [] rest
  | case {ts mid mid' mid'' rest : List Token} {word colon : Token} {values body : List Node}
      {clauses : List Clause} (after : pastSeparators ts = word :: mid)
      (kind : word.kind = .name "case") (list : CaseValues R mid values (colon :: mid'))
      (opens : colon.kind = .symbol ":") (block : Statements R mid' body mid'')
      (others : Clauses R mid'' clauses rest) :
      Clauses R ts (.case ⟨values, body, word.line⟩ :: clauses) rest
  | fallback {ts mid mid' rest : List Token} {word colon : Token} {body : List Node}
      {clauses : List Clause} (after : pastSeparators ts = word :: colon :: mid)
      (kind : word.kind = .name "default") (opens : colon.kind = .symbol ":")
      (block : Statements R mid body mid') (others : Clauses R mid' clauses rest) :
      Clauses R ts (.fallback body :: clauses) rest

/-- The rest of a `switch` with its clauses as they are written. -/
def Grammar.WrittenSwitch (R : Goal → Phrase Node) (ts : List Token) (subject : Node)
    (written : List Clause) (rest : List Token) : Prop :=
  ∃ opening mid mid', R (.run .statement) ts subject mid ∧ pastBreaks mid = opening :: mid' ∧
    opening.kind = .symbol "\x7b" ∧ Clauses R mid' written rest

/-- The cases of a switch keep their order, and the last `default` counts, wherever it stands. -/
theorem Grammar.SwitchArms.written {R : Goal → Phrase Node} {ts rest : List Token}
    {arms : List (Arm Node) × Option (List Node)} (h : SwitchArms R ts arms rest) :
    ∃ written, Clauses R ts written rest ∧ arms.1 = written.filterMap Clause.case? ∧
      arms.2 = (written.filterMap Clause.fallback?).getLast? := by
  induction h with
  | done after closes => exact ⟨[], .done after closes, rfl, rfl⟩
  | case after kind list opens block _ ih =>
    obtain ⟨written, hclauses, hcases, hfallback⟩ := ih
    exact ⟨_, .case after kind list opens block hclauses, congrArg _ hcases, hfallback⟩
  | @fallback _ _ _ _ _ _ body _ fallback after kind opens block _ ih =>
    obtain ⟨written, hclauses, hcases, hfallback⟩ := ih
    refine ⟨_, .fallback after kind opens block hclauses, hcases, ?_⟩
    have hfilter : (Clause.fallback body :: written).filterMap Clause.fallback?
        = body :: written.filterMap Clause.fallback? := rfl
    show fallback.or (some body) = _
    rw [hfilter, List.getLast?_cons, show fallback = _ from hfallback]
    cases (written.filterMap Clause.fallback?).getLast? <;> rfl

theorem Parser.switch_written {n line : Nat} {ts rest : List Token} {node : Node}
    (h : Parser.switch n (Parser.level n) line ts = .ok node rest) :
    ∃ subject written fallback,
      node = .switch subject (written.filterMap Clause.case?) fallback line ∧
      Grammar.WrittenSwitch (Grammar.Level n) ts subject written rest ∧
      ((written.filterMap Clause.fallback?).length ≤ 1 →
        fallback = (written.filterMap Clause.fallback?).head?) := by
  obtain ⟨subject, cases, fallback, opening, mid, mid', hsubject, hmid, hopening, harms, rfl⟩ :=
    Parser.switch_sound (Parser.level_sound n) h
  obtain ⟨written, hwritten, rfl, rfl⟩ := harms.written
  refine ⟨subject, written, _, rfl, ⟨opening, mid, mid', hsubject, hmid, hopening, hwritten⟩, ?_⟩
  intro hsingle
  match written.filterMap Clause.fallback?, hsingle with
  | [], _ => rfl
  | [body], _ => rfl

/-! ### Evaluating a switch -/

/-- **A switch evaluates its subject once, the values of its arms in order up to the first equal
one, and the arms from there on, as long as they end in `fallthrough`; the default arm comes after
all cases, wherever it is written.** -/
theorem switch_evaluates :
    (∀ (self : Evaluator) (bound line : Nat) (subject : Node) (arms : List (Arm Node))
        (fallback : Option (List Node)) (frame : FrameId) (m : Machine) (outcome : Outcome)
        (m' : Machine),
      Eval.step bound self (.switch subject arms fallback line) frame m = .ok outcome m' ↔
        Switches self frame fallback subject arms m outcome m') ∧
    (∀ (fuel line : Nat) (subject : Node) (arms : List (Arm Node)) (fallback : Option (List Node))
        (frame : FrameId) (m : Machine) (outcome : Outcome) (m' : Machine),
      Eval.evaluate fuel (.switch subject arms fallback line) frame m = .ok outcome m' ↔
        ∃ less, fuel = less + 1 ∧
          Switches (Eval.evaluate less) frame fallback subject arms m outcome m') ∧
    ∀ (n line : Nat) (ts rest : List Token) (node : Node),
      Parser.switch n (Parser.level n) line ts = .ok node rest →
      ∃ subject written fallback,
        node = .switch subject (written.filterMap Clause.case?) fallback line ∧
        Grammar.WrittenSwitch (Grammar.Level n) ts subject written rest ∧
        ((written.filterMap Clause.fallback?).length ≤ 1 →
          fallback = (written.filterMap Clause.fallback?).head?) := by
  have hstep : ∀ (self : Evaluator) (bound line : Nat) (subject : Node) (arms : List (Arm Node))
      (fallback : Option (List Node)) (frame : FrameId) (m : Machine) (outcome : Outcome)
      (m' : Machine),
      Eval.step bound self (.switch subject arms fallback line) frame m = .ok outcome m' ↔
        Switches self frame fallback subject arms m outcome m' :=
    fun _ _ _ _ _ _ _ _ _ _ => switch_ok_iff
  refine ⟨hstep, fun fuel line subject arms fallback frame m outcome m' => ?_,
    fun _ _ _ _ _ => Parser.switch_written⟩
  cases fuel with
  | zero =>
    constructor
    · intro h
      cases h
    · rintro ⟨less, hfuel, -⟩
      exact absurd hfuel (Nat.succ_ne_zero less).symm
  | succ less =>
    rw [Eval.evaluate, hstep]
    constructor
    · exact fun h => ⟨less, rfl, h⟩
    · rintro ⟨less', hfuel, h⟩
      obtain rfl := Nat.succ.inj hfuel
      exact h

/-- The arms of a switch of which the second one has a value that is not bound to anything. -/
def fallingArms : List (Arm Node) :=
  [⟨[.constant (.int 1) 2], [.fallThrough 2], 2⟩,
    ⟨[.reference "x" 3], [.giveBack (some (.constant (.int 4) 3)) 3], 3⟩]

/-- The first case falls through to the second one, whose value is not evaluated, and which returns;
so the default arm is not run, which is written before both of them. -/
theorem leading_default_evaluates :
    let m : Machine := ⟨(Heap.empty.push ⟨[], none⟩).2, .ofInput [], 0, 0⟩
    let fallback := some [.constant (.int 2) 1]
    (∃ m', Eval.evaluate 4 (.switch (.constant (.int 1) 1) fallingArms fallback 1) 0 m
        = .ok (.signal (.giveBack (.int 4))) m' ∧
      ∃ less, 4 = less + 1 ∧ Switches (Eval.evaluate less) 0 fallback (.constant (.int 1) 1)
        fallingArms m (.signal (.giveBack (.int 4))) m') ∧
    ∃ subject written fallback',
      Node.switch (.constant (.int 1) 1) fallingArms fallback 1
        = .switch subject (written.filterMap Clause.case?) fallback' 1 ∧
      Grammar.WrittenSwitch (Grammar.Level 9)
        [⟨.int 1, 1⟩, ⟨.symbol "\x7b", 1⟩, ⟨.name "default", 1⟩, ⟨.symbol ":", 1⟩, ⟨.int 2, 1⟩,
          ⟨.newline, 1⟩, ⟨.name "case", 2⟩, ⟨.int 1, 2⟩, ⟨.symbol ":", 2⟩, ⟨.name "fallthrough", 2⟩,
          ⟨.newline, 2⟩, ⟨.name "case", 3⟩, ⟨.name "x", 3⟩, ⟨.symbol ":", 3⟩, ⟨.name "return", 3⟩,
          ⟨.int 4, 3⟩, ⟨.symbol "\x7d", 3⟩] subject written [] ∧
      ((written.filterMap Clause.fallback?).length ≤ 1 →
        fallback' = (written.filterMap Clause.fallback?).head?) := by
  intro m fallback
  have hevaluated : ∃ m', Eval.evaluate 4
      (.switch (.constant (.int 1) 1) fallingArms fallback 1) 0 m
        = .ok (.signal (.giveBack (.int 4))) m' := ⟨_, rfl⟩
  obtain ⟨m', hm'⟩ := hevaluated
  exact ⟨⟨m', hm', (switch_evaluates.2.1 4 1 _ _ _ 0 m _ m').1 hm'⟩,
    switch_evaluates.2.2 9 1 _ _ _ rfl⟩

end PairScript
