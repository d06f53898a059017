import Mathlib.Tactic.TFAE
import PairScript.Proofs.Eval.Ranges
import PairScript.Proofs.Primitive.Indexing

/-!
# Proper lists and loops over them

What counts as a list is decided in several places: by `is_list`, by indexing and by loops over
lists, and each of them goes along the chain of pairs for itself.  `list_functions_agree` states
that they all mean `Value.isProper`, that proper lists are the ones that are made from their
elements, and that a loop visits the elements of a proper list in order.

* `VisitRuns` is about the visit to one element, and `Visits` about visits one after the other;
* `eachPass_turn` says what the loop does at one element, with enough fuel;
* `eachPass_run` follows the loop to its end, by induction on the elements that are left.
-/

namespace PairScript

/-! ### Visits -/

/-- A machine with a new frame inside `frame`, in which one name is bound. -/
def Machine.visit (m : Machine) (frame : FrameId) (name : String) (v : Value) : Machine :=
  { m with heap := { m.heap with frames := m.heap.frames.push ⟨[(name, v)], some frame⟩ } }

/-- A visit to a value: the body is run in a new frame inside `frame`, in which the loop variable is
bound to the value, and ends with a value or in `continue`. -/
inductive VisitRuns (frame : FrameId) (name : String) (body : List Node) (v : Value)
    (m m' : Machine) : Prop
  | intro {fuel : Nat} {outcome : Outcome}
      (runs : Eval.sequence (Eval.evaluate fuel) m.heap.frames.size body (m.visit frame name v)
        = .ok outcome m')
      (ends : (∃ w, outcome = .value w) ∨ outcome = .signal .continueOn)

/-- Visits to values, one after the other. -/
inductive Visits (frame : FrameId) (name : String) (body : List Node) (m : Machine) :
    List Value → Machine → Prop
  | none : Visits frame name body m [] m
  | more {values : List Value} {v : Value} {m₁ m' : Machine}
      (before : Visits frame name body m values m₁) (visit : VisitRuns frame name body v m₁ m') :
      Visits frame name body m (values ++ [v]) m'

section

variable {self : Evaluator} {frame : FrameId} {name : String} {body : List Node} {v : Value}
  {m m₀ m₁ : Machine}

theorem Heap.define_child {h : Heap} :
    (h.child frame).2.define h.frames.size name v
      = { h with frames := h.frames.push ⟨[(name, v)], some frame⟩ } := by
  have hframes : (h.frames.push ⟨[], some frame⟩).modify h.frames.size
      (fun f => { f with bindings := f.bindings.insert name v })
        = h.frames.push ⟨[(name, v)], some frame⟩ := by
    refine Array.ext (by simp) fun i hi _ => ?_
    rw [Array.getElem_modify, Array.getElem_push, Array.getElem_push]
    by_cases hnew : h.frames.size = i
    · subst hnew
      simp [Bindings.insert, Bindings.contains]
    · have hold : i < h.frames.size := by
        simp at hi
        omega
      simp [hnew, hold]
  rw [child, push, define, hframes]

/-- The beginning of a visit. -/
theorem eachPass_cons {rest : List Value} :
    Eval.eachPass self name body frame (v :: rest) m =
      (Eval.sequence self m.heap.frames.size body >>= fun outcome =>
        match Eval.passOf outcome with
        | .next => Eval.eachPass self name body frame rest
        | .stop => pure (.value .null)
        | .leave s => pure (.signal s)) (m.visit frame name v) := by
  have hchild : Eval.childFrame frame m
      = .ok m.heap.frames.size { m with heap := (m.heap.child frame).2 } := rfl
  have hdefine : Eval.define m.heap.frames.size name v { m with heap := (m.heap.child frame).2 }
      = .ok () (m.visit frame name v) := by
    rw [Machine.visit, ← Heap.define_child]
    rfl
  rw [Eval.eachPass, Eval.bind_of_ok hchild]
  exact Eval.bind_of_ok hdefine

theorem eachPass_empty {items : List Value} :
    ∃ m', Eval.eachPass self name [] frame items m = .ok (.value .null) m' := by
  induction items generalizing m with
  | nil => exact ⟨m, rfl⟩
  | cons item items ih =>
    rw [eachPass_cons]
    exact ih

/-- A visit, with enough fuel. -/
theorem eachPass_turn (hvisit : VisitRuns frame name body v m m₁) :
    ∃ enough, ∀ fuel, enough ≤ fuel → ∀ rest,
      Eval.eachPass (Eval.evaluate fuel) name body frame (v :: rest) m
        = Eval.eachPass (Eval.evaluate fuel) name body frame rest m₁ := by
  obtain @⟨enough, outcome, hruns, hends⟩ := hvisit
  refine ⟨enough, fun fuel hfuel rest => ?_⟩
  have hruns : Eval.sequence (Eval.evaluate fuel) m.heap.frames.size body (m.visit frame name v)
      = .ok outcome m₁ :=
    (Contract.sequence_lifts fun node _ => evaluate_of_le hfuel node _).eq_ok trivial hruns
  rw [eachPass_cons, Eval.bind_of_ok hruns]
  rcases hends with ⟨w, rfl⟩ | rfl
  · rfl
  · rfl

/-- From any element on, the loop visits the elements that are left and ends. -/
theorem eachPass_run {values : List Value}
    (hbody : ∀ {visited rest : List Value} {v : Value} {m₁ : Machine},
      visited ++ v :: rest = values → Visits frame name body m₀ visited m₁ →
      ∃ m', VisitRuns frame name body v m₁ m')
    (rest visited : List Value) {m₁ : Machine} (hvalues : visited ++ rest = values)
    (hvisits : Visits frame name body m₀ visited m₁) :
    ∃ m', Visits frame name body m₀ values m' ∧ ∃ least, ∀ fuel, least ≤ fuel →
      Eval.eachPass (Eval.evaluate fuel) name body frame rest m₁ = .ok (.value .null) m' := by
  induction rest generalizing visited m₁ with
  | nil =>
    rw [List.append_nil] at hvalues
    subst hvalues
    exact ⟨m₁, hvisits, 0, fun _ _ => rfl⟩
  | cons v rest ih =>
    obtain ⟨m₂, hvisit⟩ := hbody hvalues hvisits
    obtain ⟨enough, hturn⟩ := eachPass_turn hvisit
    obtain ⟨m', hall, least, hloop⟩ :=
      ih (visited ++ [v]) (by rw [← hvalues, List.append_assoc]; rfl) (.more hvisits hvisit)
    refine ⟨m', hall, max enough least, fun fuel hfuel => ?_⟩
    rw [hturn fuel (by omega), hloop fuel (by omega)]

/-! ### Loops -/

/-- What loops do with a value, from the machine on with which their collection gives it. -/
def Value.LoopsBy (v : Value)
    (passes : Evaluator → String → List Node → FrameId → Nat → Eval Outcome) : Prop :=
  ∀ (self : Evaluator) (name : String) (collection : Node) (body : List Node) (frame : FrameId)
    (line : Nat) (m m₀ : Machine), Eval.valueOf self collection frame m = .ok v m₀ →
    Eval.eachLoop self name collection body frame line m = passes self name body frame line m₀

/-- Loops go through the heads of the value, if its chain is proper. -/
theorem loopsBy_passes (hproper : v.isProper = true) :
    v.LoopsBy fun self name body frame _ => Eval.eachPass self name body frame v.heads := by
  intro self name collection body frame line m m₀ hvalue
  have helements : Eval.rangeElements v = .ok v.heads := by
    rw [Eval.rangeElements, if_pos (Value.isList_of_isProper hproper), Value.elements?,
      if_pos hproper]
  rw [Eval.eachLoop, Eval.bind_of_ok hvalue, helements]
  rfl

theorem loopsBy_fail (hlist : v.isList = true) (hproper : v.isProper = false) :
    v.LoopsBy fun _ _ _ _ line => Eval.fail .improperRange line := by
  intro self name collection body frame line m m₀ hvalue
  have helements : Eval.rangeElements v = .error .improperRange := by
    rw [Eval.rangeElements, if_pos hlist, Value.elements?, if_neg (by simp [hproper])]
  rw [Eval.eachLoop, Eval.bind_of_ok hvalue, helements]
  rfl

/-- Going through a value and failing are not the same: a loop with an empty body tells. -/
theorem isProper_of_loopsBy (hlist : v.isList = true)
    (hloops : v.LoopsBy fun self name body frame _ => Eval.eachPass self name body frame v.heads) :
    v.isProper = true := by
  cases hproper : v.isProper with
  | true => rfl
  | false =>
    let self : Evaluator := fun _ _ => pure (.value v)
    have hgoes := hloops self "" (.breakOut 0) [] 0 0 bareMachine bareMachine rfl
    have hfails := loopsBy_fail hlist hproper self "" (.breakOut 0) [] 0 0 bareMachine bareMachine
      rfl
    have hends : ∃ m, Eval.eachPass self "" [] 0 v.heads bareMachine = .ok (.value .null) m :=
      eachPass_empty
    obtain ⟨m, hend⟩ := hends
    cases hend.symm.trans (hgoes.symm.trans hfails)

/-- A loop over a list, with enough fuel. -/
theorem eachLoop_visits {collection : Node} {l : Value} {items : List Value}
    (hcollection : ∃ fuel, Eval.evaluate fuel collection frame m = .ok (.value l) m₀)
    (hitems : l.elements? = some items)
    (hbody : ∀ {visited rest : List Value} {v : Value} {m₁ : Machine},
      visited ++ v :: rest = items → Visits frame name body m₀ visited m₁ →
      ∃ m', VisitRuns frame name body v m₁ m') (line : Nat) :
    ∃ m', Visits frame name body m₀ items m' ∧ ∃ least, ∀ fuel, least ≤ fuel →
      Eval.evaluate fuel (.eachLoop name collection body line) frame m
        = .ok (.value .null) m' := by
  obtain ⟨enough, hcollection⟩ := hcollection
  obtain ⟨hproper, rfl⟩ := Value.elements?_eq_some_iff.1 hitems
  obtain ⟨m', hvisits, least, hloop⟩ := eachPass_run hbody l.heads [] rfl .none
  refine ⟨m', hvisits, max enough least + 1, fun fuel hfuel => ?_⟩
  obtain ⟨below, rfl⟩ : ∃ below, fuel = below + 1 := ⟨fuel - 1, by omega⟩
  have hvalue : Eval.valueOf (Eval.evaluate below) collection frame m = .ok l m₀ :=
    Eval.valueOf_ok_iff.2 (evaluate_ok_of_le hcollection (by omega))
  calc Eval.evaluate (below + 1) (.eachLoop name collection body line) frame m
      = Eval.eachLoop (Eval.evaluate below) name collection body frame line m := rfl
    _ = Eval.eachPass (Eval.evaluate below) name body frame l.heads m₀ :=
      loopsBy_passes hproper _ name collection body frame line m m₀ hvalue
    _ = .ok (.value .null) m' := hloop below (by omega)

end

/-! ### Lists -/

/-- **The functions on lists agree.**  A list that is made of values is proper and has these
elements.  For every list, proper or not, it is the same to be proper, to have elements, to be the
list made of its heads again, to satisfy `is_list`, to be gone through by loops and not to be
refused by indexing; loops fail on the others.  A loop whose body ends with a value or in `continue`
at each element that it comes to visits all elements in order, each of them once, and ends. -/
theorem list_functions_agree (h : Heap) (vs : List Value) {l : Value} (hlist : l.isList = true)
    (i : Word) (line : Nat) (m : Machine) :
    ((h.list vs).1.isProper = true ∧ (h.list vs).1.elements? = some vs ∧
      (h.list vs).1.heads = vs) ∧
    [l.isProper = true,
      l.elements?.isSome = true,
      Value.IsCopy (h.list l.heads).1 l,
      Primitive.isList.apply [l] line m = .ok (.bool true) m,
      l.LoopsBy fun self name body frame _ => Eval.eachPass self name body frame l.heads,
      Primitive.index.apply [l, .int i] line m
        ≠ .error (.fault ⟨.mismatch .improperIndex, line⟩) m].TFAE ∧
    (l.isProper = false → l.LoopsBy fun _ _ _ _ line => Eval.fail .improperRange line) ∧
    ∀ {frame : FrameId} {name : String} {collection : Node} {body : List Node} {line : Nat}
        {items : List Value} {m m₀ : Machine}, l.elements? = some items →
      (∃ fuel, Eval.evaluate fuel collection frame m = .ok (.value l) m₀) →
      (∀ {visited rest : List Value} {v : Value} {m₁ : Machine}, visited ++ v :: rest = items →
        Visits frame name body m₀ visited m₁ → ∃ m', VisitRuns frame name body v m₁ m') →
      ∃ m', Visits frame name body m₀ items m' ∧ ∃ least, ∀ fuel, least ≤ fuel →
        Eval.evaluate fuel (.eachLoop name collection body line) frame m
          = .ok (.value .null) m' := by
  refine ⟨⟨Value.isProper_ofList, Heap.elements?_list vs h, Value.heads_ofList⟩, ?_,
    loopsBy_fail hlist, fun hitems hcollection hbody => eachLoop_visits hcollection hitems hbody _⟩
  tfae_have 1 ↔ 2 := by rw [Value.isSome_elements?]
  tfae_have 3 ↔ 1 := Value.isCopy_ofList_heads_iff
  tfae_have 1 ↔ 4 := by
    have happly : Primitive.isList.apply [l] line m = .ok (.bool l.isProper) m := rfl
    simp [happly]
  tfae_have 1 ↔ 5 := ⟨loopsBy_passes, isProper_of_loopsBy hlist⟩
  tfae_have 1 ↔ 6 := Primitive.index_ne_improper_iff hlist i line m
  tfae_finish

/-- A machine with a standard root frame, and `cells` pairs made. -/
def rootMachine (cells : CellId) : Machine :=
  ⟨{ Heap.empty.standardRoot.2 with nextCell := cells }, .ofInput [], 0, 10⟩

/-- The value of `[1, 2]`. -/
def oneTwo : Value := .pair 1 (.int 1) (.pair 0 (.int 2) .empty)

/-- A loop over `[1, 2]`, whose body is a `continue`. -/
theorem oneTwo_is_visited :
    oneTwo.isList = true ∧ ∃ m', Visits 0 "x" [.continueOn 1] (rootMachine 2) [.int 1, .int 2] m' ∧
      ∃ least, ∀ fuel, least ≤ fuel →
        Eval.evaluate fuel (.eachLoop "x" (.operation "$list"
            [.constant (.int 1) 1, .constant (.int 2) 1] 1) [.continueOn 1] 1) 0 (rootMachine 0)
          = .ok (.value .null) m' := by
  have hlist : oneTwo.isList = true := rfl
  have hitems : oneTwo.elements? = some [.int 1, .int 2] := rfl
  obtain ⟨-, -, -, hloop⟩ := list_functions_agree Heap.empty [] hlist 0 1 (rootMachine 0)
  refine ⟨hlist, hloop hitems ⟨3, rfl⟩ fun {_ _ v m} _ _ => ⟨m.visit 0 "x" v, ?_⟩⟩
  have hruns : Eval.sequence (Eval.evaluate 1) m.heap.frames.size [.continueOn 1]
      (m.visit 0 "x" v) = .ok (.signal .continueOn) (m.visit 0 "x" v) := rfl
  exact .intro hruns (.inr rfl)

end PairScript
