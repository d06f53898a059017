import PairScript.Primitive.Lists

/-!
# The causes that primitives fail with

A fault that a primitive raises about its arguments is about their kinds and sizes.  It is never
about a number of arguments, a member, a place to assign to or a signal: such faults are raised by
evaluation alone.  The causes that primitives may raise are called plain.

Primitives give back numbers, texts and truth values, and otherwise only what was handed to them.
-/

namespace PairScript

/-- Whether a cause may come from the arguments of a primitive. -/
def EvalCause.isPlain : EvalCause → Bool
  | .argumentCount _ _ => false
  | .unknownReference _ => false
  | .mismatch .invalidTarget => false
  | .signalEscaped _ => false
  | _ => true

/-- Whether a cause is about the kinds and sizes of what is computed with. -/
def EvalCause.isOfArguments : EvalCause → Bool
  | .mismatch .invalidTarget => false
  | .mismatch _ | .divisionByZero | .overflow | .indexOutOfBounds _ _ => true
  | .unsupportedRange _ | .improperRange => true
  | .assertionFailed | .thrown _ => true
  | _ => false

theorem EvalCause.isPlain_of_isOfArguments {cause : EvalCause}
    (h : cause.isOfArguments = true) : cause.isPlain = true := by
  unfold isPlain
  split <;> first | rfl | cases h

/-- Whether a value holds no other value and no function. -/
def Value.isAtom : Value → Bool
  | .pair _ _ _ => false
  | .primitive _ => false
  | .closure _ => false
  | _ => true

/-- A pure computation that fails only on account of its arguments and gives results in `Q`. -/
def Yields {α : Type} (x : Except EvalCause α) (Q : α → Prop) : Prop :=
  (∀ a, x = .ok a → Q a) ∧ ∀ cause, x = .error cause → cause.isOfArguments = true

namespace Yields

variable {α β : Type} {x : Except EvalCause α} {Q Q' : α → Prop}

theorem ok {a : α} (h : Q a) : Yields (.ok a) Q :=
  ⟨fun _ ha => Except.ok.inj ha ▸ h, nofun⟩

theorem error {cause : EvalCause} (h : cause.isOfArguments = true) :
    Yields (.error cause : Except EvalCause α) Q :=
  ⟨nofun, fun _ hcause => Except.error.inj hcause ▸ h⟩

theorem bind {f : α → Except EvalCause β} {P : β → Prop} (hx : Yields x Q)
    (hf : ∀ a, Q a → Yields (f a) P) : Yields (x >>= f) P := by
  cases x with
  | ok a => exact hf a (hx.1 a rfl)
  | error cause => exact .error (hx.2 cause rfl)

theorem map {f : α → β} {P : β → Prop} (hx : Yields x Q) (hf : ∀ a, Q a → P (f a)) :
    Yields (f <$> x) P := by
  cases x with
  | ok a => exact .ok (hf a (hx.1 a rfl))
  | error cause => exact .error (hx.2 cause rfl)

end Yields

namespace Primitive

/-! ### Operands -/

theorem asFloat_yields (v : Value) : Yields (asFloat v) fun _ => True := by
  unfold asFloat
  split
  · exact .ok trivial
  · exact .ok trivial
  · exact .error rfl

theorem asInteger_yields (v : Value) : Yields (asInteger v) fun _ => True := by
  unfold asInteger
  split
  · exact .ok trivial
  · exact .error rfl

theorem asString_yields (v : Value) : Yields (asString v) fun _ => True := by
  unfold asString
  split
  · exact .ok trivial
  · exact .error rfl

theorem asFloats_yields (operator : String) (a b : Value) :
    Yields (asFloats operator a b) fun _ => True := by
  unfold asFloats
  split
  · exact .ok trivial
  · exact .ok trivial
  · exact .ok trivial
  · exact .ok trivial
  · exact .error rfl

theorem checked_yields (n : Option Word) : Yields (checked n) (·.isAtom = true) := by
  cases n with
  | some n => exact .ok rfl
  | none => exact .error rfl

/-! ### Arithmetic -/

theorem arithmetic_yields (operator : String) (onWords : Word → Word → Option Word)
    (onFloats : Float → Float → Float) (a b : Value) :
    Yields (arithmetic operator onWords onFloats a b) (·.isAtom = true) := by
  unfold arithmetic
  split
  · exact checked_yields _
  · exact (asFloats_yields _ _ _).bind fun _ _ => .ok rfl

theorem plus_yields (a b : Value) : Yields (plus a b) (·.isAtom = true) := by
  unfold plus
  split
  · exact .ok rfl
  · exact arithmetic_yields _ _ _ _ _

theorem divideFloats_yields (operator : String) (f : Float → Float → Float) (a b : Value) :
    Yields (divideFloats operator f a b) (·.isAtom = true) := by
  refine (asFloats_yields _ _ _).bind fun (x, y) _ => ?_
  simp only
  split
  · exact .error rfl
  · exact .ok rfl

theorem division_yields (operator : String) (onWords : Word → Word → Option Word)
    (onFloats : Float → Float → Float) (a b : Value) :
    Yields (division operator onWords onFloats a b) (·.isAtom = true) := by
  unfold division
  split
  · split
    · exact .error rfl
    · exact checked_yields _
  · exact divideFloats_yields _ _ _ _

theorem floatPower_yields (a b : Value) : Yields (floatPower a b) (·.isAtom = true) := by
  refine (asFloats_yields _ _ _).bind fun (x, y) _ => ?_
  simp only
  split
  · exact .error rfl
  · exact .ok rfl

theorem raise_yields (a b : Value) : Yields (raise a b) (·.isAtom = true) := by
  unfold raise
  split
  · split
    · exact floatPower_yields _ _
    · exact checked_yields _
  · exact floatPower_yields _ _

theorem opposite_yields (v : Value) : Yields (opposite v) (·.isAtom = true) := by
  unfold opposite
  split
  · exact checked_yields _
  · exact .ok rfl
  · exact .error rfl

/-! ### Order and bits -/

theorem compareValues_yields (a b : Value) : Yields (compareValues a b) fun _ => True := by
  unfold compareValues
  split
  · exact .ok trivial
  · exact .ok trivial
  · exact .ok trivial
  · exact .ok trivial
  · exact .ok trivial
  · exact .error rfl

theorem ordered_yields (accept : Ordering → Bool) (a b : Value) :
    Yields (ordered accept a b) (·.isAtom = true) :=
  (compareValues_yields a b).bind fun _ _ => .ok rfl

theorem compareNumbers_yields (a b : Value) : Yields (compareNumbers a b) fun _ => True := by
  unfold compareNumbers
  split
  · exact .error rfl
  · refine (compareValues_yields a b).bind fun o _ => ?_
    cases o with
    | some o => exact .ok trivial
    | none => exact .error rfl

theorem bitwise_yields (f : Word → Word → Word) (a b : Value) :
    Yields (bitwise f a b) (·.isAtom = true) :=
  (asInteger_yields a).bind fun _ _ => (asInteger_yields b).bind fun _ _ => .ok rfl

theorem shift_yields (f : Word → Word → Word) (a b : Value) :
    Yields (shift f a b) (·.isAtom = true) := by
  refine (asInteger_yields a).bind fun x _ => (asInteger_yields b).bind fun n _ => ?_
  split
  · exact .error rfl
  · exact .ok rfl

theorem invert_yields (a : Value) : Yields (invert a) (·.isAtom = true) :=
  (asInteger_yields a).bind fun _ _ => .ok rfl

/-! ### Conversions -/

theorem truncate_yields (x : Float) : Yields (truncate x) fun _ => True := by
  unfold truncate
  split
  · exact .error rfl
  · split
    · exact .ok trivial
    · exact .error rfl

theorem readInteger_yields (s : String) : Yields (readInteger s) fun _ => True := by
  unfold readInteger
  simp only
  split
  · exact .ok trivial
  · split
    · exact truncate_yields _
    · exact .error rfl

theorem toInteger_yields (v : Value) : Yields (toInteger v) fun _ => True := by
  unfold toInteger
  split
  · exact .ok trivial
  · exact truncate_yields _
  · exact .ok trivial
  · exact readInteger_yields _
  · exact .error rfl

theorem roundToInteger_yields (v : Value) : Yields (roundToInteger v) fun _ => True := by
  unfold roundToInteger
  split
  · exact .ok trivial
  · exact (asFloat_yields _).bind fun _ _ => truncate_yields _

theorem roundToPlaces_yields (value places : Value) :
    Yields (roundToPlaces value places) (·.isAtom = true) := by
  refine (asInteger_yields places).bind fun n _ => ?_
  split
  · exact (asFloat_yields value).bind fun _ _ => .ok rfl
  · exact .error rfl

theorem codePoint_yields (v : Value) : Yields (codePoint v) (·.isAtom = true) := by
  refine (asString_yields v).bind fun s _ => ?_
  split
  · exact .ok rfl
  · exact .error rfl

/-! ### Lists -/

/-- The heads of a chain keep what holds of both parts of a pair. -/
theorem forall_mem_headsOnto {P : Value → Prop}
    (hpair : ∀ c h t, P (.pair c h t) → P h ∧ P t) {v : Value} (hv : P v) {acc : List Value}
    (hacc : ∀ a ∈ acc, P a) : ∀ a ∈ v.headsOnto acc, P a := by
  induction v generalizing acc with
  | pair c h t _ iht =>
    obtain ⟨hh, ht⟩ := hpair c h t hv
    exact iht ht (List.forall_mem_cons.2 ⟨hh, hacc⟩)
  | _ => simpa [Value.headsOnto] using hacc

theorem forall_mem_heads {P : Value → Prop} (hpair : ∀ c h t, P (.pair c h t) → P h ∧ P t)
    {v : Value} (hv : P v) : ∀ a ∈ v.heads, P a :=
  forall_mem_headsOnto hpair hv (by simp)

theorem elementAt_yields {P : Value → Prop} (hstr : ∀ s, P (.str s))
    (hpair : ∀ c h t, P (.pair c h t) → P h ∧ P t) {a : Value} (ha : P a) (b : Value) :
    Yields (elementAt a b) P := by
  refine (asInteger_yields b).bind fun position _ => ?_
  split
  · unfold character
    split
    · exact .error rfl
    · split
      · exact .ok (hstr _)
      · exact .error rfl
  · split
    · split
      next items hitems =>
        have hall : ∀ item ∈ items, P item := by
          unfold Value.elements? at hitems
          split at hitems
          · cases hitems
            exact forall_mem_heads hpair ha
          · cases hitems
        unfold element
        split
        · exact .error rfl
        · split
          next v hv => exact .ok (hall v (List.mem_of_getElem? hv))
          next => exact .error rfl
      next => exact .error rfl
    · exact .error rfl

end Primitive

end PairScript
