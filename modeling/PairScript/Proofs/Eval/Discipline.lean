import PairScript.Eval.Node
import PairScript.Proofs.Eval.Bindings
import PairScript.Proofs.Eval.Upholds
import PairScript.Proofs.Primitive.Performs
import PairScript.Proofs.Syntax.WellFormed
import PairScript.Proofs.Token.Spelling

/-!
# What a program is trusted with

Evaluation has branches for trees that no program has, and for signals that no construct takes.
This module states what has to hold of a program, and of everything that it can get hold of while
it runs, so that those branches stay unreachable.

* `Node.Confined` is the discipline of control signals: `break`, `continue` and `fallthrough`
  stand inside a construct that takes them, and a function body starts afresh.
* A `Demand` chooses which faults are to be excluded: those of signals that escape, for confined
  programs, and those of misshapen trees, for programs whose names are spelt as names.
* `Node.Fits`, `Value.Fits` and `Heap.Fits` extend the demand to trees, to values, which may hold
  the bodies of functions, and to the bindings of all frames.
-/

namespace PairScript

/-! ### Where signals are taken -/

/-- What surrounds a statement, up to the body of the function it belongs to. -/
structure Nesting where
  /-- The body of a loop. -/
  inLoop : Bool
  /-- An arm of a switch. -/
  inArm : Bool
deriving DecidableEq

namespace Nesting

/-- The nesting of the statements of a program or of a function body. -/
def outermost : Nesting := ⟨false, false⟩

/-- Whether a signal is taken before it leaves the function. -/
def takes (c : Nesting) : Signal → Bool
  | .giveBack _ => true
  | .breakOut => c.inLoop || c.inArm
  | .continueOn => c.inLoop
  | .fallThrough => c.inArm

end Nesting

namespace Node

/-- The nesting of the statements directly below a node with nesting `c`. -/
def nestingBelow (c : Nesting) : Node → Nesting
  | .function _ _ _ _ => .outermost
  | .whileLoop _ _ _ | .rangeLoop _ _ _ _ _ _ _ | .eachLoop _ _ _ _ => { c with inLoop := true }
  | .switch _ _ _ _ => { c with inArm := true }
  | _ => c

/-- Whether a node that raises a signal has a construct around it that takes the signal. -/
def isTaken (c : Nesting) : Node → Bool
  | .breakOut _ => c.takes .breakOut
  | .continueOn _ => c.takes .continueOn
  | .fallThrough _ => c.takes .fallThrough
  | _ => true

/-- A tree in which every signal is taken. -/
inductive Confined : Nesting → Node → Prop
  | intro {c : Nesting} {node : Node} (here : node.isTaken c = true)
      (values : ∀ part ∈ node.valueParts, Confined c part)
      (statements : ∀ part ∈ node.statementParts, Confined (node.nestingBelow c) part) :
      Confined c node

end Node

/-! ### Demands -/

/-- Whether a cause reports a tree that no program has. -/
def EvalCause.isDefensive : EvalCause → Bool
  | .mismatch .invalidTarget => true
  | .unknownReference member => member == "."
  | .argumentCount name _ => name == "&&" || name == "||"
  | _ => false

/-- Whether a cause reports a signal that nothing takes. -/
def EvalCause.isEscape : EvalCause → Bool
  | .signalEscaped _ => true
  | _ => false

/-- The faults that a run is to be free of, as conditions on its program. -/
structure Demand where
  /-- Names are spelt as names. -/
  lexical : Prop
  /-- Signals are confined. -/
  confined : Prop

namespace Demand

variable (d : Demand)

/-- The names that the program may use. -/
def Named (name : String) : Prop := d.lexical → startsName name = true

/-- The causes that a run may fail with. -/
def Admits (cause : EvalCause) : Prop :=
  (d.lexical → cause.isDefensive = false) ∧ (d.confined → cause.isEscape = false)

variable {d}

theorem admits_of_isPlain {cause : EvalCause} (h : cause.isPlain = true) : d.Admits cause := by
  constructor
  · intro _
    unfold EvalCause.isDefensive
    split <;> simp_all [EvalCause.isPlain]
  · intro _
    unfold EvalCause.isEscape
    split <;> simp_all [EvalCause.isPlain]

/-- A name of the program is not the symbol of a logical operator. -/
theorem Named.ne_logical {name : String} (h : d.Named name) (hlexical : d.lexical) :
    name ≠ "&&" ∧ name ≠ "||" := by
  constructor
  all_goals
    rintro rfl
    exact absurd (h hlexical) (by decide)

theorem admits_unknownReference {member : String} (h : d.Named member) :
    d.Admits (.unknownReference member) := by
  refine ⟨fun hlexical => ?_, fun _ => rfl⟩
  have hstart := h hlexical
  simp only [EvalCause.isDefensive, beq_eq_false_iff_ne]
  rintro rfl
  exact absurd hstart (by decide)

theorem admits_argumentCount {name : String} {count : Nat}
    (h : d.lexical → name ≠ "&&" ∧ name ≠ "||") : d.Admits (.argumentCount name count) := by
  refine ⟨fun hlexical => ?_, fun _ => rfl⟩
  simpa [EvalCause.isDefensive] using h hlexical

theorem admits_signalEscaped {keyword : String} (h : ¬ d.confined) :
    d.Admits (.signalEscaped keyword) :=
  ⟨fun _ => rfl, fun hconfined => absurd hconfined h⟩

end Demand

/-! ### Trees -/

/-- A tree that meets a demand where its nesting is `c`. -/
inductive Node.Fits (d : Demand) : Nesting → Node → Prop
  | intro {c : Nesting} {node : Node} (here : node.WellFormed d.Named)
      (taken : d.confined → node.isTaken c = true)
      (values : ∀ part ∈ node.valueParts, Fits d c part)
      (statements : ∀ part ∈ node.statementParts, Fits d (node.nestingBelow c) part) :
      Fits d c node

namespace Node.Fits

variable {d : Demand} {c : Nesting} {node : Node}

/-- A well-formed tree meets a demand if it is confined or need not be. -/
theorem of_sound (h : node.Sound d.Named) (hconfined : d.confined → node.Confined c) :
    node.Fits d c := by
  induction h generalizing c with
  | intro here _ _ ihv ihs =>
    refine .intro here ?_ (fun part hpart => ihv part hpart ?_) (fun part hpart => ihs part hpart ?_)
    · intro hd
      cases hconfined hd
      assumption
    · intro hd
      cases hconfined hd with
      | intro _ values _ => exact values part hpart
    · intro hd
      cases hconfined hd with
      | intro _ _ statements => exact statements part hpart

theorem wellFormed (h : node.Fits d c) : node.WellFormed d.Named := by
  cases h
  assumption

theorem isTaken (h : node.Fits d c) : d.confined → node.isTaken c = true := by
  cases h
  assumption

theorem value (h : node.Fits d c) {part : Node} (hpart : part ∈ node.valueParts) :
    part.Fits d c ∧ part.isExpression = true := by
  cases h with
  | intro here _ values _ => exact ⟨values part hpart, here.values part hpart⟩

theorem statements (h : node.Fits d c) :
    ∀ part ∈ node.statementParts, part.Fits d (node.nestingBelow c) := by
  cases h
  assumption

end Node.Fits

/-! ### Values -/

/-- A closure whose body meets a demand. -/
def Closure.Fits (d : Demand) (f : Closure) : Prop :=
  (∀ name ∈ f.params, d.Named name) ∧ ∀ node ∈ f.body, node.Fits d .outermost

/-- A value that a program may get hold of.  The primitives of `&&` and `||` are not among them:
their operators are evaluated without a name. -/
def Value.Fits (d : Demand) : Value → Prop
  | .pair _ head tail => head.Fits d ∧ tail.Fits d
  | .primitive p => d.lexical → p ≠ .and ∧ p ≠ .or
  | .closure f => f.Fits d
  | _ => True

namespace Value

variable {d : Demand}

theorem fits_of_isAtom {v : Value} (h : v.isAtom = true) : v.Fits d := by
  cases v <;> trivial

theorem fits_ofConstant (value : Constant) : (Value.ofConstant value).Fits d := by
  cases value <;> trivial

theorem fits_byParts (d : Demand) : ByParts (Value.Fits d) := ⟨fits_of_isAtom, Iff.rfl⟩

end Value

/-- How an evaluation may end where the nesting is `c`. -/
def Outcome.Fits (d : Demand) (c : Nesting) : Outcome → Prop
  | .value v => v.Fits d
  | .signal (.giveBack v) => v.Fits d
  | .signal s => d.confined → c.takes s = true

/-- Whether an evaluation ended with a value. -/
def Outcome.isValue : Outcome → Bool
  | .value _ => true
  | .signal _ => false

/-! ### Bindings -/

/-- A binding that a program may meet.  Names and symbols are bound to what the program may get
hold of, except for `&&` and `||`, which are bound to their own primitives. -/
structure Demand.Binding (d : Demand) (name : String) (value : Value) : Prop where
  fits : (d.lexical → name ≠ "&&" ∧ name ≠ "||") → value.Fits d
  and : d.lexical → name = "&&" → value = .primitive .and
  or : d.lexical → name = "||" → value = .primitive .or

/-- Names of the program can be bound to whatever it may get hold of. -/
theorem Demand.Binding.of_fits {d : Demand} {name : String} {value : Value} (hname : d.Named name)
    (hvalue : value.Fits d) : d.Binding name value := by
  refine ⟨fun _ => hvalue, fun hlexical hsymbol => ?_, fun hlexical hsymbol => ?_⟩
  · exact absurd hsymbol (hname.ne_logical hlexical).1
  · exact absurd hsymbol (hname.ne_logical hlexical).2

/-- A heap that a program may meet. -/
abbrev Heap.Fits (d : Demand) (h : Heap) : Prop := h.Binds d.Binding

theorem Primitive.binding (d : Demand) (p : Primitive) : d.Binding p.name (.primitive p) := by
  refine ⟨fun hname hlexical => ⟨?_, ?_⟩, fun _ hsymbol => ?_, fun _ hsymbol => ?_⟩
  · rintro rfl
    exact (hname hlexical).1 rfl
  · rintro rfl
    exact (hname hlexical).2 rfl
  · revert hsymbol
    cases p <;> simp [Primitive.name]
  · revert hsymbol
    cases p <;> simp [Primitive.name]

/-- The bindings that every program starts with. -/
theorem standardBindings_fit (d : Demand) : Heap.standardBindings.All d.Binding := by
  refine List.forall_mem_append.2 ⟨?_, ?_⟩
  · have hconstant : ∀ {name value}, startsName name = true → value.Fits d →
        d.Binding name value := fun hname => .of_fits fun _ => hname
    simp only [List.forall_mem_cons]
    exact ⟨hconstant rfl trivial, hconstant rfl trivial, hconstant rfl trivial,
      hconstant rfl trivial, nofun⟩
  · intro entry hentry
    obtain ⟨p, -, rfl⟩ := List.mem_map.1 hentry
    exact p.binding d

end PairScript
