import PairScript.Eval.Loop
import PairScript.Primitive.Apply
import PairScript.Proofs.Primitive.Plain

/-!
# What performing a primitive comes down to

There are many primitives and few things that they do: settle a pure computation, make a pair or a
list, read or write, or refuse.  `Primitive.perform_performs` sorts them, so that a property of all
primitives is a property of those few.

The values that come in and go out are kept within a set `V` that has all values without parts,
and with a pair both of its parts.  Most such sets have every pair of which they have both parts
(`Value.ByParts`).  Loops take their values apart by primitives too.
-/

namespace PairScript

/-- A set of values that has the parts of what it has. -/
structure Value.Downward (V : Value → Prop) : Prop where
  atom : ∀ {v : Value}, v.isAtom = true → V v
  parts : ∀ c h t, V (.pair c h t) → V h ∧ V t

/-- A set of values that goes by parts. -/
structure Value.ByParts (V : Value → Prop) : Prop where
  atom : ∀ {v : Value}, v.isAtom = true → V v
  pair : ∀ {cell : CellId} {head tail : Value}, V (.pair cell head tail) ↔ V head ∧ V tail

namespace Value

variable {V : Value → Prop}

theorem Downward.heads (hV : Downward V) {v : Value} (hv : V v) : ∀ a ∈ v.heads, V a :=
  Primitive.forall_mem_heads hV.parts hv

theorem Downward.yields (hV : Downward V) {x : Except EvalCause Value}
    (h : Yields x (·.isAtom = true)) : Yields x V := by
  cases x with
  | ok v => exact .ok (hV.atom (h.1 v rfl))
  | error cause => exact .error (h.2 cause rfl)

theorem ByParts.downward (hV : ByParts V) : Downward V := ⟨hV.atom, fun _ _ _ => hV.pair.1⟩

theorem ByParts.chainOnto (hV : ByParts V) {cell : CellId} {tail : Value} {reversed : List Value}
    (htail : V tail) (hitems : ∀ v ∈ reversed, V v) : V (Value.chainOnto cell tail reversed) := by
  induction reversed generalizing cell tail with
  | nil => exact htail
  | cons v vs ih =>
    obtain ⟨hv, hvs⟩ := List.forall_mem_cons.1 hitems
    exact ih (hV.pair.2 ⟨hv, htail⟩) hvs

end Value

namespace Primitive

open Eval

/-- The procedures that primitives come down to, `p` being the primitive. -/
inductive Performs (V : Value → Prop) (p : Primitive) (args : List Value) (line : Nat) :
    Eval Value → Prop
  | settles {x : Except EvalCause Value} (yields : Yields x V) :
      Performs V p args line (settle line x)
  | pairs {a b : Value} (left : V a) (right : V b) :
      Performs V p args line (onHeap (Heap.cons a b))
  | lists {items : List Value} (items_in : ∀ item ∈ items, V item) :
      Performs V p args line (onHeap (Heap.list items))
  | spells {x : Except EvalCause String} (yields : Yields x fun _ => True) :
      Performs V p args line (settle line x >>= fun s => onHeap (Heap.list (characters s)))
  | prints : Performs V p args line (printLine args line)
  | reads : Performs V p args line (readLine line)
  | asks {text : String} :
      Performs V p args line (onHost line (Host.write text) >>= fun _ => readLine line)
  | refuses (refused : p.arity.accepts args.length = false) :
      Performs V p args line (fail (.argumentCount p.name args.length) line)

/-- **Every primitive does one of a few things** with as many arguments as it takes. -/
theorem perform_performs {V : Value → Prop} (hV : Value.Downward V) {p : Primitive}
    {args : List Value} (line : Nat) (hargs : ∀ arg ∈ args, V arg)
    (haccepts : p.arity.accepts args.length = true) :
    Performs V p args line (p.perform line args) := by
  have hatom : ∀ {p args x}, Yields x (·.isAtom = true) → Performs V p args line (settle line x) :=
    fun h => .settles (hV.yields h)
  have hpure : ∀ {p args} {v : Value}, V v → Performs V p args line (pure v) :=
    fun {_ _ v} h => .settles (x := .ok v) (.ok h)
  have htruth : ∀ {p args} {b : Bool}, Performs V p args line (pure (.bool b)) :=
    hpure (hV.atom rfl)
  have hfail : ∀ {p args} {cause : EvalCause}, cause.isOfArguments = true →
      Performs V p args line (fail cause line) :=
    fun {_ _ cause} h => .settles (x := .error cause) (.error h)
  have hone : p.arity = .exactly 1 → (∀ a, V a → Performs V p [a] line (p.perform line [a])) →
      Performs V p args line (p.perform line args) := by
    intro harity h
    rw [harity] at haccepts
    obtain ⟨a, rfl⟩ := List.length_eq_one_iff.1 (beq_iff_eq.1 haccepts)
    exact h a (hargs a (by simp))
  have htwo : p.arity = .exactly 2 →
      (∀ a b, V a → V b → Performs V p [a, b] line (p.perform line [a, b])) →
      Performs V p args line (p.perform line args) := by
    intro harity h
    rw [harity] at haccepts
    match args, beq_iff_eq.1 haccepts with
    | [a, b], _ => exact h a b (hargs a (by simp)) (hargs b (by simp))
  cases p with
  | add => exact htwo rfl fun a b _ _ => hatom (plus_yields a b)
  | subtract | multiply => exact htwo rfl fun a b _ _ => hatom (arithmetic_yields _ _ _ a b)
  | floorDivide | modulo => exact htwo rfl fun a b _ _ => hatom (division_yields _ _ _ a b)
  | trueDivide => exact htwo rfl fun a b _ _ => hatom (divideFloats_yields _ _ a b)
  | power => exact htwo rfl fun a b _ _ => hatom (raise_yields a b)
  | negate => exact hone rfl fun a _ => hatom (opposite_yields a)
  | equal | unequal => exact htwo rfl fun _ _ _ _ => htruth
  | less | lessEqual | greater | greaterEqual =>
    exact htwo rfl fun a b _ _ => hatom (ordered_yields _ a b)
  | not => exact hone rfl fun _ _ => htruth
  | and =>
    refine htwo rfl fun a b ha hb => hpure ?_
    unfold conjunction
    split
    · exact hb
    · exact ha
  | or =>
    refine htwo rfl fun a b ha hb => hpure ?_
    unfold disjunction
    split
    · exact ha
    · exact hb
  | bitAnd | bitOr | bitXor => exact htwo rfl fun a b _ _ => hatom (bitwise_yields _ a b)
  | shiftLeft | shiftRight | shiftRightLogical =>
    exact htwo rfl fun a b _ _ => hatom (shift_yields _ a b)
  | complement => exact hone rfl fun a _ => hatom (invert_yields a)
  | comma | pair => exact htwo rfl fun _ _ ha hb => .pairs ha hb
  | index =>
    exact htwo rfl fun a b ha _ =>
      .settles (elementAt_yields (fun _ => hV.atom rfl) hV.parts ha b)
  | list => exact .lists hargs
  | charList => exact hone rfl fun a _ => .spells (asString_yields a)
  | isList | isPair => exact hone rfl fun _ _ => htruth
  | charCode => exact hone rfl fun a _ => hatom (codePoint_yields a)
  | int => exact hone rfl fun a _ => hatom (.map (toInteger_yields a) fun _ _ => rfl)
  | round =>
    match args, haccepts with
    | [a], _ => exact hatom (.map (roundToInteger_yields a) fun _ _ => rfl)
    | [a, b], _ => exact hatom (roundToPlaces_yields a b)
  | print => exact .prints
  | input =>
    match args, haccepts with
    | [], _ => exact .reads
    | [prompt], _ => exact .asks
  | throw => exact hone rfl fun _ _ => hfail rfl
  | assert =>
    refine hone rfl fun a _ => ?_
    show Performs V .assert [a] line (if a.isTruthy then pure .null else fail .assertionFailed line)
    split
    · exact hpure (hV.atom rfl)
    · exact hfail rfl

theorem apply_performs {V : Value → Prop} (hV : Value.Downward V) {p : Primitive}
    {args : List Value} (line : Nat) (hargs : ∀ arg ∈ args, V arg) :
    Performs V p args line (p.apply args line) := by
  unfold apply
  split
  next haccepts => exact perform_performs hV line hargs haccepts
  next hrefused => exact .refuses (Bool.eq_false_iff.2 hrefused)

end Primitive

/-! ### Loops -/

namespace Eval

theorem directionOf_yields (step : Value) : Yields (directionOf step) fun _ => True := by
  refine (Primitive.compareNumbers_yields _ _).bind fun o _ => ?_
  cases o with
  | gt => exact .ok trivial
  | lt => exact .ok trivial
  | eq => exact .error rfl

theorem requireNumber_yields (v : Value) : Yields (requireNumber v) fun _ => True := by
  unfold requireNumber
  split
  · exact .ok trivial
  · exact .error rfl

theorem rangeElements_yields {V : Value → Prop} (hV : Value.Downward V) {v : Value} (hv : V v) :
    Yields (rangeElements v) (∀ item ∈ ·, V item) := by
  unfold rangeElements Value.elements?
  split
  · split
    next items hitems =>
      split at hitems
      · cases hitems
        exact .ok (hV.heads hv)
      · cases hitems
    next => exact .error rfl
  · exact .error rfl

end Eval

end PairScript
