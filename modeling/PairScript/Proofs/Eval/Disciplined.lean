import PairScript.Program
import PairScript.Proofs.Eval.Discipline

/-!
# Evaluation stays within its discipline

Whatever a program meets while it runs meets the demand that the program meets: evaluating a
tree that fits, on a heap that fits, ends with a heap and an outcome that fit, or with a fault
that the demand admits.

There is one lemma for each construct, the level below being a parameter, and `evaluate_holds`
closes the recursion.  Closures are the reason why values and heaps take part: the body that a
call runs is not a part of the tree of the call.
-/

namespace PairScript

/-- On heaps that meet a demand, a procedure ends with one and a result in `Q`, or fails as the
demand admits. -/
abbrev Holds (d : Demand) {α : Type} (p : Eval α) (Q : α → Prop) : Prop :=
  Upholds (fun m => m.heap.Fits d) d.Admits p Q

variable {d : Demand} {c : Nesting} {frame : FrameId} {line : Nat}

/-! ### Shared steps -/

theorem Yields.settle_holds {α : Type} {x : Except EvalCause α} {Q : α → Prop} (h : Yields x Q) :
    Holds d (Eval.settle line x) Q :=
  .settle h.1 fun cause hcause =>
    Demand.admits_of_isPlain (EvalCause.isPlain_of_isOfArguments (h.2 cause hcause))

theorem Yields.settle_atom {x : Except EvalCause Value} (h : Yields x (·.isAtom = true)) :
    Holds d (Eval.settle line x) (Value.Fits d) :=
  h.settle_holds.mono fun _ => Value.fits_of_isAtom

theorem lookup_binding (name : String) :
    Holds d (Eval.lookup frame name line) (d.Binding name) :=
  .lookup (Demand.admits_of_isPlain rfl) fun _ _ hheap hfound => hheap.lookup hfound

theorem lookup_holds {name : String} (hname : d.Named name) :
    Holds d (Eval.lookup frame name line) (Value.Fits d) :=
  (lookup_binding name).mono fun _ hbinding => hbinding.fits hname.ne_logical

theorem define_holds {name : String} {value : Value} (hname : d.Named name)
    (hvalue : value.Fits d) : Holds d (Eval.define frame name value) fun _ => True :=
  .onHeap fun _ hheap => ⟨hheap.define (.of_fits hname hvalue), trivial⟩

theorem assign_holds {name : String} {value : Value} (hname : d.Named name)
    (hvalue : value.Fits d) : Holds d (Eval.assign frame name value line) fun _ => True := by
  refine .bind (Q := fun _ => True) ?_ fun found _ => ?_
  · exact .onHeap fun _ hheap => ⟨hheap.assign (.of_fits hname hvalue), trivial⟩
  · split
    · exact .pure trivial
    · exact .fail (Demand.admits_of_isPlain rfl)

theorem childFrame_holds : Holds d (Eval.childFrame frame) fun _ => True :=
  .onHeap fun _ hheap => ⟨hheap.child frame, trivial⟩

theorem boundFrame_holds {names : List String} {values : List Value}
    (hnames : ∀ name ∈ names, d.Named name) (hvalues : ∀ value ∈ values, value.Fits d) :
    Holds d (Eval.boundFrame frame names values line) fun _ => True := by
  unfold Eval.boundFrame
  split
  · refine .onHeap fun _ hheap => ⟨hheap.bind ?_, trivial⟩
    exact fun name hname value hvalue => .of_fits (hnames name hname) (hvalues value hvalue)
  · exact .fail (Demand.admits_of_isPlain rfl)

theorem onHost_holds {α : Type} {f : Host → Except HostFailure α × Host} :
    Holds d (Eval.onHost line f) fun _ => True :=
  .onHost (fun _ _ hheap => hheap) (fun _ => Demand.admits_of_isPlain rfl) fun _ _ _ => trivial

/-! ### Primitives -/

theorem cons_holds {head tail : Value} (hhead : head.Fits d) (htail : tail.Fits d) :
    Holds d (Eval.onHeap (Heap.cons head tail)) (Value.Fits d) :=
  .onHeap fun _ hheap => ⟨hheap, hhead, htail⟩

theorem list_holds {items : List Value} (hitems : ∀ item ∈ items, item.Fits d) :
    Holds d (Eval.onHeap (Heap.list items)) (Value.Fits d) :=
  .onHeap fun _ hheap => ⟨hheap, (Value.fits_byParts d).chainOnto trivial (by simpa using hitems)⟩

theorem readLine_holds : Holds d (Primitive.readLine line) (Value.Fits d) := by
  refine .bind onHost_holds fun text _ => ?_
  cases text <;> exact .pure trivial

/-- Only the operators of `&&` and `||` have primitives with these names. -/
theorem Primitive.name_ne {p : Primitive} (h : p ≠ .and ∧ p ≠ .or) :
    p.name ≠ "&&" ∧ p.name ≠ "||" := by
  revert h
  cases p <;> simp [Primitive.name]

theorem performs_holds {p : Primitive} {args : List Value} {q : Eval Value}
    (hp : d.lexical → p ≠ .and ∧ p ≠ .or) (h : p.Performs (Value.Fits d) args line q) :
    Holds d q (Value.Fits d) := by
  cases h with
  | settles yields => exact yields.settle_holds
  | pairs left right => exact cons_holds left right
  | lists items_in => exact list_holds items_in
  | spells yields =>
    refine .bind yields.settle_holds fun s _ => list_holds fun item hitem => ?_
    obtain ⟨ch, -, rfl⟩ := List.mem_map.1 hitem
    trivial
  | prints => exact .bind onHost_holds fun _ _ => .pure trivial
  | reads => exact readLine_holds
  | asks => exact .bind onHost_holds fun _ _ => readLine_holds
  | refuses =>
    exact .fail (Demand.admits_argumentCount fun hlexical => Primitive.name_ne (hp hlexical))

theorem primitive_apply_holds {p : Primitive} {args : List Value}
    (hp : d.lexical → p ≠ .and ∧ p ≠ .or) (hargs : ∀ arg ∈ args, arg.Fits d) :
    Holds d (p.apply args line) (Value.Fits d) :=
  performs_holds hp (Primitive.apply_performs (Value.fits_byParts d).downward line hargs)

/-! ### Values and sequences -/

/-- How the evaluation of a node may end: expressions give no signal. -/
def Outcome.Answers (d : Demand) (c : Nesting) (node : Node) (o : Outcome) : Prop :=
  o.Fits d c ∧ (node.isExpression = true → o.isValue = true)

section

variable {self : Evaluator}
  (hself : ∀ node c frame, node.Fits d c → Holds d (self node frame) (Outcome.Answers d c node))
include hself

theorem valueOf_holds {node : Node} (h : node.Fits d c ∧ node.isExpression = true) :
    Holds d (Eval.valueOf self node frame) (Value.Fits d) := by
  refine .bind (hself node c frame h.1) fun o ho => ?_
  cases o with
  | value v => exact .pure ho.1
  | signal s => cases ho.2 h.2

theorem valuesOnto_holds {nodes : List Node} {acc : List Value}
    (hnodes : ∀ node ∈ nodes, node.Fits d c ∧ node.isExpression = true)
    (hacc : ∀ v ∈ acc, v.Fits d) :
    Holds d (Eval.valuesOnto self frame nodes acc) (∀ v ∈ ·, v.Fits d) := by
  induction nodes generalizing acc with
  | nil => exact .pure (by simpa using hacc)
  | cons node nodes ih =>
    obtain ⟨hnode, hnodes⟩ := List.forall_mem_cons.1 hnodes
    refine .bind (valueOf_holds hself hnode) fun v hv => ?_
    exact ih hnodes (List.forall_mem_cons.2 ⟨hv, hacc⟩)

theorem valuesOf_holds {nodes : List Node}
    (hnodes : ∀ node ∈ nodes, node.Fits d c ∧ node.isExpression = true) :
    Holds d (Eval.valuesOf self nodes frame) (∀ v ∈ ·, v.Fits d) :=
  valuesOnto_holds hself hnodes (by simp)

theorem sequence_holds {nodes : List Node} (hnodes : ∀ node ∈ nodes, node.Fits d c) :
    Holds d (Eval.sequence self frame nodes) (Outcome.Fits d c) := by
  induction nodes with
  | nil => exact .pure trivial
  | cons node nodes ih =>
    obtain ⟨hnode, hnodes⟩ := List.forall_mem_cons.1 hnodes
    refine .bind (hself node c frame hnode) fun o ho => ?_
    cases o with
    | value v => exact ih hnodes
    | signal s => exact .pure ho.1

theorem inScope_holds {body : List Node} (hbody : ∀ node ∈ body, node.Fits d c) :
    Holds d (Eval.inScope self body frame) (Outcome.Fits d c) :=
  .bind childFrame_holds fun _ _ => sequence_holds hself hbody

/-! ### Branches -/

theorem inScope?_holds {body : Option (List Node)} (hbody : ∀ node ∈ body.getD [], node.Fits d c) :
    Holds d (Eval.inScope? self body frame) (Outcome.Fits d c) := by
  cases body with
  | some body => exact inScope_holds hself hbody
  | none => exact .pure trivial

theorem conditional_holds {condition : Node} {body : List Node} {other : Option (List Node)}
    (hcondition : condition.Fits d c ∧ condition.isExpression = true)
    (hbody : ∀ node ∈ body, node.Fits d c) (hother : ∀ node ∈ other.getD [], node.Fits d c) :
    Holds d (Eval.conditional self condition body other frame) (Outcome.Fits d c) := by
  refine .bind (valueOf_holds hself hcondition) fun v _ => ?_
  split
  · exact inScope_holds hself hbody
  · exact inScope?_holds hself hother

theorem matchesAny_holds {subject : Value} {nodes : List Node}
    (hnodes : ∀ node ∈ nodes, node.Fits d c ∧ node.isExpression = true) :
    Holds d (Eval.matchesAny self subject frame nodes) fun _ => True := by
  induction nodes with
  | nil => exact .pure trivial
  | cons node nodes ih =>
    obtain ⟨hnode, hnodes⟩ := List.forall_mem_cons.1 hnodes
    refine .bind (valueOf_holds hself hnode) fun v _ => ?_
    split
    · exact .pure trivial
    · exact ih hnodes

omit hself in
/-- A switch takes what its arms raise, except `return` and a `continue` that was there before. -/
theorem switchOutcome_fits {o : Outcome} (h : o.Fits d { c with inArm := true }) :
    (Eval.switchOutcome o).Fits d c := by
  match o with
  | .value _ => trivial
  | .signal (.giveBack _) => exact h
  | .signal .continueOn => exact h
  | .signal .breakOut => trivial
  | .signal .fallThrough => trivial

theorem runFallback_holds {fallback : Option (List Node)}
    (hfallback : ∀ node ∈ fallback.getD [], node.Fits d { c with inArm := true }) :
    Holds d (Eval.runFallback self fallback frame) (Outcome.Fits d c) :=
  .bind (inScope?_holds hself hfallback) fun _ ho => .pure (switchOutcome_fits ho)

theorem runArms_holds {fallback : Option (List Node)} {arms : List (Arm Node)}
    (hfallback : ∀ node ∈ fallback.getD [], node.Fits d { c with inArm := true })
    (harms : ∀ arm ∈ arms, ∀ node ∈ arm.body, node.Fits d { c with inArm := true }) :
    Holds d (Eval.runArms self fallback frame arms) (Outcome.Fits d c) := by
  induction arms with
  | nil => exact runFallback_holds hself hfallback
  | cons arm arms ih =>
    obtain ⟨harm, harms⟩ := List.forall_mem_cons.1 harms
    refine .bind (inScope_holds hself harm) fun o ho => ?_
    match o with
    | .value _ => exact .pure (switchOutcome_fits ho)
    | .signal .fallThrough => exact ih harms
    | .signal (.giveBack _) => exact .pure (switchOutcome_fits ho)
    | .signal .breakOut => exact .pure (switchOutcome_fits ho)
    | .signal .continueOn => exact .pure (switchOutcome_fits ho)

theorem chooseArm_holds {subject : Value} {fallback : Option (List Node)} {arms : List (Arm Node)}
    (hfallback : ∀ node ∈ fallback.getD [], node.Fits d { c with inArm := true })
    (hvalues : ∀ arm ∈ arms, ∀ node ∈ arm.values, node.Fits d c ∧ node.isExpression = true)
    (harms : ∀ arm ∈ arms, ∀ node ∈ arm.body, node.Fits d { c with inArm := true }) :
    Holds d (Eval.chooseArm self subject fallback frame arms) (Outcome.Fits d c) := by
  induction arms with
  | nil => exact runFallback_holds hself hfallback
  | cons arm arms ih =>
    refine .bind (matchesAny_holds hself (hvalues arm (by simp))) fun found _ => ?_
    split
    · exact runArms_holds hself hfallback harms
    · exact ih (List.forall_mem_cons.1 hvalues).2 (List.forall_mem_cons.1 harms).2

/-! ### Loops -/

omit hself in
/-- A loop takes `break` and `continue`, and nothing else. -/
theorem leave_fits {o : Outcome} {s : Signal} (h : o.Fits d { c with inLoop := true })
    (hleave : Eval.passOf o = .leave s) : (Outcome.signal s).Fits d c := by
  match o with
  | .signal (.giveBack _) =>
    cases hleave
    exact h
  | .signal .fallThrough =>
    cases hleave
    exact h

theorem whileLoop_holds {condition : Node} {body : List Node} {bound : Nat}
    (hcondition : condition.Fits d c ∧ condition.isExpression = true)
    (hbody : ∀ node ∈ body, node.Fits d { c with inLoop := true }) :
    Holds d (Eval.whileLoop self condition body frame bound) (Outcome.Fits d c) := by
  induction bound with
  | zero => exact .exhausted
  | succ bound ih =>
    refine .bind (valueOf_holds hself hcondition) fun v _ => ?_
    split
    · refine .bind (inScope_holds hself hbody) fun o ho => ?_
      split
      next => exact ih
      next => exact .pure trivial
      next s hleave => exact .pure (leave_fits ho hleave)
    · exact .pure trivial

omit hself in
theorem advance_holds {r : Eval.Range} {current : Value} (hname : d.Named r.name) :
    Holds d (Eval.advance r frame current) fun _ => True := by
  refine .bind (.lookup? (Q := fun _ => True) fun _ _ => trivial) fun now _ => ?_
  exact .bind (Primitive.plus_yields _ _).settle_atom fun v hv => define_holds hname hv

theorem rangePasses_holds {r : Eval.Range} {bound : Nat} (hname : d.Named r.name)
    (hbody : ∀ node ∈ r.body, node.Fits d { c with inLoop := true }) :
    Holds d (Eval.rangePasses self r frame bound) (Outcome.Fits d c) := by
  induction bound with
  | zero => exact .exhausted
  | succ bound ih =>
    refine .bind (lookup_holds hname) fun current _ => ?_
    refine .bind (Primitive.compareNumbers_yields _ _).settle_holds fun o _ => ?_
    split
    · refine .bind (inScope_holds hself hbody) fun o ho => ?_
      split
      next => exact .bind (advance_holds hname) fun _ _ => ih
      next => exact .pure trivial
      next s hleave => exact .pure (leave_fits ho hleave)
    · exact .pure trivial

theorem stepValue_holds {step : Option Node}
    (hstep : ∀ node ∈ step.toList, node.Fits d c ∧ node.isExpression = true) :
    Holds d (Eval.stepValue self step frame) (Value.Fits d) := by
  cases step with
  | some node => exact valueOf_holds hself (hstep node (by simp))
  | none => exact .pure trivial

theorem rangeLoop_holds {bound : Nat} {name : String} {start limit : Node} {closed : Bool}
    {step : Option Node} {body : List Node} (hname : d.Named name)
    (hstart : start.Fits d c ∧ start.isExpression = true)
    (hlimit : limit.Fits d c ∧ limit.isExpression = true)
    (hstep : ∀ node ∈ step.toList, node.Fits d c ∧ node.isExpression = true)
    (hbody : ∀ node ∈ body, node.Fits d { c with inLoop := true }) :
    Holds d (Eval.rangeLoop self bound name start limit closed step body frame line)
      (Outcome.Fits d c) := by
  refine .bind (valueOf_holds hself hstart) fun first hfirst => ?_
  refine .bind (valueOf_holds hself hlimit) fun last _ => ?_
  refine .bind (stepValue_holds hself hstep) fun by_ _ => ?_
  refine .bind (Eval.directionOf_yields by_).settle_holds fun upwards _ => ?_
  refine .bind (Eval.requireNumber_yields first).settle_holds fun _ _ => ?_
  refine .bind (Eval.requireNumber_yields last).settle_holds fun _ _ => ?_
  refine .bind childFrame_holds fun inner _ => ?_
  refine .bind (define_holds hname hfirst) fun _ _ => ?_
  exact rangePasses_holds hself hname hbody

theorem eachPass_holds {name : String} {body : List Node} {items : List Value}
    (hname : d.Named name) (hbody : ∀ node ∈ body, node.Fits d { c with inLoop := true })
    (hitems : ∀ item ∈ items, item.Fits d) :
    Holds d (Eval.eachPass self name body frame items) (Outcome.Fits d c) := by
  induction items with
  | nil => exact .pure trivial
  | cons item items ih =>
    obtain ⟨hitem, hitems⟩ := List.forall_mem_cons.1 hitems
    refine .bind childFrame_holds fun inner _ => ?_
    refine .bind (define_holds hname hitem) fun _ _ => ?_
    refine .bind (sequence_holds hself hbody) fun o ho => ?_
    split
    next => exact ih hitems
    next => exact .pure trivial
    next s hleave => exact .pure (leave_fits ho hleave)

theorem eachLoop_holds {name : String} {collection : Node} {body : List Node}
    (hname : d.Named name) (hcollection : collection.Fits d c ∧ collection.isExpression = true)
    (hbody : ∀ node ∈ body, node.Fits d { c with inLoop := true }) :
    Holds d (Eval.eachLoop self name collection body frame line) (Outcome.Fits d c) := by
  refine .bind (valueOf_holds hself hcollection) fun v hv => ?_
  have hyields := Eval.rangeElements_yields (Value.fits_byParts d).downward hv
  refine .bind hyields.settle_holds fun items hitems => ?_
  exact eachPass_holds hself hname hbody hitems

/-! ### Calls and members -/

omit hself in
/-- A function body gives back a value, since its signals are taken inside it. -/
theorem returned_holds {o : Outcome} (ho : o.Fits d .outermost) :
    Holds d (Eval.returned o line) (Value.Fits d) := by
  have hescaped : ∀ {s : Signal}, Nesting.outermost.takes s = false →
      (d.confined → Nesting.outermost.takes s = true) →
      Holds d (Eval.escaped s line) (Value.Fits d) := by
    intro s hs htaken
    refine .fail (Demand.admits_signalEscaped fun hconfined => ?_)
    rw [htaken hconfined] at hs
    cases hs
  match o with
  | .value _ => exact .pure trivial
  | .signal (.giveBack _) => exact .pure ho
  | .signal .breakOut => exact hescaped rfl ho
  | .signal .continueOn => exact hescaped rfl ho
  | .signal .fallThrough => exact hescaped rfl ho

/-- Running the body of a closure as a call. -/
theorem body_holds {f : Closure} (hf : f.Fits d) :
    Holds d (Eval.asCall line (Eval.sequence self frame f.body)) (Outcome.Fits d .outermost) :=
  .asCall (fun _ _ hheap => hheap) (fun _ => Demand.admits_of_isPlain rfl)
    (sequence_holds hself hf.2)

theorem callClosure_holds {f : Closure} {args : List Value} (hf : f.Fits d)
    (hargs : ∀ arg ∈ args, arg.Fits d) :
    Holds d (Eval.callClosure self f args line) (Value.Fits d) := by
  refine .bind (boundFrame_holds hf.1 hargs) fun inner _ => ?_
  exact .bind (body_holds hself hf) fun o ho => returned_holds ho

theorem apply_holds {f : Value} {args : List Value} (hf : f.Fits d)
    (hargs : ∀ arg ∈ args, arg.Fits d) : Holds d (Eval.apply self f args line) (Value.Fits d) := by
  unfold Eval.apply
  split
  next p => exact primitive_apply_holds hf hargs
  next f => exact callClosure_holds hself hf hargs
  next => exact .fail (Demand.admits_of_isPlain rfl)

theorem applyTo_holds {f : Value} {arguments : List Node} (hf : f.Fits d)
    (harguments : ∀ node ∈ arguments, node.Fits d c ∧ node.isExpression = true) :
    Holds d (Eval.applyTo self f arguments frame line) (Value.Fits d) :=
  .bind (valuesOf_holds hself harguments) fun _ hargs => apply_holds hself hf hargs

/-- What the symbol of a logical operator is bound to takes two arguments: either the program
may get hold of it, or it is the primitive of the operator. -/
theorem apply_logical_holds {symbol : String} {f a b : Value}
    (hsymbol : symbol = "&&" ∨ symbol = "||") (hf : d.Binding symbol f) (ha : a.Fits d)
    (hb : b.Fits d) : Holds d (Eval.apply self f [a, b] line) (Value.Fits d) := by
  have hboth : ∀ arg ∈ [a, b], arg.Fits d := by simpa using ⟨ha, hb⟩
  by_cases hlexical : d.lexical
  · have hpick : ∀ {x y : Value}, x.Fits d → y.Fits d → ∀ t : Bool,
        (if t = true then x else y).Fits d := by
      intro x y hx hy t
      cases t
      · exact hy
      · exact hx
    rcases hsymbol with rfl | rfl
    · rw [hf.and hlexical rfl]
      exact .pure (hpick hb ha _)
    · rw [hf.or hlexical rfl]
      exact .pure (hpick ha hb _)
  · exact apply_holds hself (hf.fits fun h => absurd h hlexical) hboth

theorem logical_holds {symbol : String} {operands : List Node}
    (hsymbol : symbol = "&&" ∨ symbol = "||") (hcount : operands.length = 2)
    (hoperands : ∀ node ∈ operands, node.Fits d c ∧ node.isExpression = true) :
    Holds d (Eval.logical self symbol operands frame line) (Value.Fits d) := by
  match operands with
  | [left, right] =>
    refine .bind (valueOf_holds hself (hoperands left (by simp))) fun a ha => ?_
    have hrest : ∀ b : Value, b.Fits d →
        Holds d (Eval.lookup frame symbol line >>= fun f => Eval.apply self f [a, b] line)
          (Value.Fits d) := fun b hb =>
      .bind (lookup_binding symbol) fun f hf => apply_logical_holds hself hsymbol hf ha hb
    dsimp only
    split
    · exact .bind (valueOf_holds hself (hoperands right (by simp))) hrest
    · exact .bind (.pure trivial) hrest

theorem memberFrame_holds {f : Closure} (hf : f.Fits d) :
    Holds d (Eval.memberFrame self f line) fun _ => True := by
  refine .get_bind fun m _ => ?_
  split
  · exact .pure trivial
  · refine .bind (boundFrame_holds hf.1 (by simp)) fun inner _ => ?_
    refine .bind (body_holds hself hf) fun o ho => ?_
    refine .bind (returned_holds ho) fun _ _ => ?_
    exact .onHeap fun _ hheap => ⟨hheap, trivial⟩

omit hself in
theorem listMember_holds {list : Value} {name : String} (hlist : list.Fits d) :
    Holds d (Eval.listMember list name line) (Value.Fits d) := by
  have hslot : ∀ {part : Option Value} {name}, (∀ v ∈ part, v.Fits d) →
      Holds d (Eval.slot part name line) (Value.Fits d) := by
    intro part name hpart
    cases part with
    | some v => exact .pure (hpart v rfl)
    | none => exact .fail (Demand.admits_of_isPlain rfl)
  unfold Eval.listMember
  split
  · refine hslot fun v hv => ?_
    match list, hv with
    | .pair _ _ _, rfl => exact hlist.1
  · refine hslot fun v hv => ?_
    match list, hv with
    | .pair _ _ _, rfl => exact hlist.2
  · exact .pure trivial
  · exact .fail (Demand.admits_of_isPlain rfl)

theorem member_holds {target : Value} {name : String} (htarget : target.Fits d)
    (hname : d.Named name) : Holds d (Eval.member self target name line) (Value.Fits d) := by
  unfold Eval.member
  split
  next f => exact .bind (memberFrame_holds hself htarget) fun _ _ => lookup_holds hname
  next =>
    split
    · exact listMember_holds htarget
    · exact .fail (Demand.admits_unknownReference hname)

theorem callMember_holds {target : Value} {name : String} {arguments : List Node}
    (htarget : target.Fits d) (hname : d.Named name)
    (harguments : ∀ node ∈ arguments, node.Fits d c ∧ node.isExpression = true) :
    Holds d (Eval.callMember self target name arguments frame line) (Value.Fits d) := by
  refine .bind (member_holds hself htarget hname) fun f hf => ?_
  refine .bind (valuesOf_holds hself harguments) fun args hargs => ?_
  split
  · split
    · exact .pure hf
    · exact .fail (Demand.admits_argumentCount hname.ne_logical)
  · exact apply_holds hself hf hargs

theorem assignMember_holds {target value : Value} {name : String} (htarget : target.Fits d)
    (hname : d.Named name) (hvalue : value.Fits d) :
    Holds d (Eval.assignMember self target name value line) fun _ => True := by
  unfold Eval.assignMember
  split
  next f => exact .bind (memberFrame_holds hself htarget) fun _ _ => assign_holds hname hvalue
  next => exact .fail (Demand.admits_unknownReference hname)

omit hself in
theorem named_of_reference {name : String} {line' : Nat}
    (h : (Node.reference name line').Fits d c) : d.Named name :=
  h.wellFormed.names name (by simp [Node.names])

theorem access_holds {left right : Node} (hmember : Item.isMember right = true)
    (hleft : left.Fits d c ∧ left.isExpression = true) (hright : right.Fits d c) :
    Holds d (Eval.access self [left, right] frame line) (Value.Fits d) := by
  refine .bind (valueOf_holds hself hleft) fun target htarget => ?_
  match right, hmember with
  | .reference name _, _ => exact member_holds hself htarget (named_of_reference hright)
  | .call (.reference name line') arguments _, _ =>
    have hcallee : (Node.reference name line').Fits d c := (hright.value List.mem_cons_self).1
    have harguments : ∀ node ∈ arguments, node.Fits d c ∧ node.isExpression = true :=
      fun node hnode => hright.value (List.mem_cons_of_mem _ hnode)
    exact callMember_holds hself htarget (named_of_reference hcallee) harguments

/-! ### Assignments -/

theorem store_holds {target : Node} {value : Value} (hassignable : target.isAssignable = true)
    (htarget : target.Fits d c) (hvalue : value.Fits d) :
    Holds d (Eval.store self target value frame line) fun _ => True := by
  match target, hassignable with
  | .reference name _, _ => exact assign_holds (named_of_reference htarget) hvalue
  | .operation symbol [left, .reference name line'] _, hassignable =>
    have hsymbol : (symbol == ".") = true := hassignable
    have hleft : left.Fits d c ∧ left.isExpression = true := htarget.value List.mem_cons_self
    have hname : (Node.reference name line').Fits d c :=
      (htarget.value (List.mem_cons_of_mem _ List.mem_cons_self)).1
    simp only [Eval.store, hsymbol, if_true]
    refine .bind (valueOf_holds hself hleft) fun owner howner => ?_
    exact assignMember_holds hself howner (named_of_reference hname) hvalue

theorem assignment_holds {target value : Node} {yieldsOld : Bool}
    (hassignable : target.isAssignable = true)
    (htarget : target.Fits d c ∧ target.isExpression = true)
    (hvalue : value.Fits d c ∧ value.isExpression = true) :
    Holds d (Eval.assignment self target value yieldsOld frame line) (Value.Fits d) := by
  refine .bind (valueOf_holds hself hvalue) fun new hnew => ?_
  have hrest : ∀ result : Value, result.Fits d →
      Holds d (Eval.store self target new frame line >>= fun _ => pure result) (Value.Fits d) :=
    fun result hresult =>
      .bind (store_holds hself hassignable htarget.1 hnew) fun _ _ => .pure hresult
  dsimp only
  split
  · exact .bind (valueOf_holds hself htarget) hrest
  · exact .bind (.pure hnew) hrest

/-! ### Nodes -/

theorem operation_holds {symbol : String} {operands : List Node} {line' : Nat}
    (h : (Node.operation symbol operands line').Fits d c) :
    Holds d (Eval.operation self symbol operands frame line) (Value.Fits d) := by
  have hshape := h.wellFormed.shape
  have hoperands : ∀ node ∈ operands, node.Fits d c ∧ node.isExpression = true :=
    fun node hnode => h.value hnode
  simp only [Node.HasShape] at hshape
  unfold Eval.operation
  split
  next hlogical =>
    have hsymbol : symbol = "&&" ∨ symbol = "||" := by simpa using hlogical
    have hcount : operands.length = 2 := by
      rcases hsymbol with rfl | rfl
      all_goals
        have htakes := hshape.1
        simp [takesOperands] at htakes
        exact htakes.1
    exact logical_holds hself hsymbol hcount hoperands
  next hlogical =>
    split
    next hdot =>
      rw [if_pos (by simpa using hdot)] at hshape
      obtain ⟨left, right, rfl, hmember⟩ := hshape
      exact access_holds hself hmember (hoperands left (by simp)) (hoperands right (by simp)).1
    next =>
      have hsymbol : symbol ≠ "&&" ∧ symbol ≠ "||" := by simpa using hlogical
      refine .bind (lookup_binding symbol) fun f hf => ?_
      exact applyTo_holds hself (hf.fits fun _ => hsymbol) hoperands

theorem call_holds {callee : Node} {arguments : List Node}
    (hcallee : callee.Fits d c ∧ callee.isExpression = true)
    (harguments : ∀ node ∈ arguments, node.Fits d c ∧ node.isExpression = true) :
    Holds d (Eval.call self callee arguments frame line) (Value.Fits d) :=
  .bind (valueOf_holds hself hcallee) fun _ hf => applyTo_holds hself hf harguments

omit hself in
/-- Making a closure of a function literal that fits. -/
theorem makeClosure_holds {name : Option String} {params : List String} {body : List Node}
    {line' : Nat} (h : (Node.function name params body line').Fits d c) :
    Holds d (Eval.makeClosure name params body frame) (Value.Fits d) := by
  refine .bind (Q := fun _ => True) (.onHeap fun _ hheap => ⟨hheap, trivial⟩) fun id _ => .pure ?_
  refine ⟨fun n hn => h.wellFormed.names n (List.mem_append_right _ hn), ?_⟩
  exact h.statements

theorem giveBack_holds {value : Option Node}
    (hvalue : ∀ node ∈ value.toList, node.Fits d c ∧ node.isExpression = true) :
    Holds d (Eval.giveBack self value frame) (Outcome.Fits d c) := by
  cases value with
  | some node =>
    exact .bind (valueOf_holds hself (hvalue node (by simp))) fun _ hv => .pure hv
  | none => exact .pure trivial

/-- **One level of evaluation**, for each kind of node. -/
theorem step_holds {bound : Nat} {node : Node} (h : node.Fits d c) :
    Holds d (Eval.step bound self node frame) (Outcome.Answers d c node) := by
  have hvalue : ∀ {p : Eval Value}, Holds d p (Value.Fits d) →
      Holds d (p >>= fun v => pure (Outcome.value v)) (Outcome.Answers d c node) :=
    fun hp => .bind hp fun _ hv => .pure ⟨hv, fun _ => rfl⟩
  have hstatement : ∀ {p : Eval Outcome}, node.isExpression = false →
      Holds d p (Outcome.Fits d c) → Holds d p (Outcome.Answers d c node) :=
    fun hnode hp => hp.mono fun _ ho => ⟨ho, fun hexpr => by rw [hnode] at hexpr; cases hexpr⟩
  cases node with
  | constant value _ => exact .pure ⟨Value.fits_ofConstant value, fun _ => rfl⟩
  | reference name _ => exact hvalue (lookup_holds (named_of_reference h))
  | definition name value _ =>
    have hname := h.wellFormed.names name List.mem_cons_self
    refine .bind (valueOf_holds hself (h.value List.mem_cons_self)) fun v hv => ?_
    exact .bind (define_holds hname hv) fun _ _ => .pure ⟨hv, fun _ => rfl⟩
  | function _ _ _ _ => exact hvalue (makeClosure_holds h)
  | assignment target value _ _ =>
    have htarget : target.Fits d c ∧ target.isExpression = true := h.value List.mem_cons_self
    have hright : value.Fits d c ∧ value.isExpression = true :=
      h.value (List.mem_cons_of_mem _ List.mem_cons_self)
    exact hvalue (assignment_holds hself h.wellFormed.shape htarget hright)
  | operation _ _ _ => exact hvalue (operation_holds hself h)
  | call callee arguments _ =>
    have hcallee : callee.Fits d c ∧ callee.isExpression = true := h.value List.mem_cons_self
    have harguments : ∀ node ∈ arguments, node.Fits d c ∧ node.isExpression = true :=
      fun node hnode => h.value (List.mem_cons_of_mem _ hnode)
    exact hvalue (call_holds hself hcallee harguments)
  | conditional _ _ _ _ =>
    obtain ⟨hbody, hother⟩ := List.forall_mem_append.1 h.statements
    exact hstatement rfl (conditional_holds hself (h.value List.mem_cons_self) hbody hother)
  | whileLoop _ _ _ =>
    exact hstatement rfl (whileLoop_holds hself (h.value List.mem_cons_self) h.statements)
  | switch subject arms _ _ =>
    obtain ⟨harms, hfallback⟩ := List.forall_mem_append.1 h.statements
    have hvalues : ∀ arm ∈ arms, ∀ node ∈ arm.values, node.Fits d c ∧ node.isExpression = true :=
      fun arm harm node hnode =>
        h.value (List.mem_cons_of_mem _ (List.mem_flatMap.2 ⟨arm, harm, hnode⟩))
    refine hstatement rfl (.bind (valueOf_holds hself (h.value List.mem_cons_self)) fun v _ => ?_)
    exact chooseArm_holds hself hfallback hvalues (List.forall_mem_flatMap.1 harms)
  | rangeLoop name start limit _ step _ _ =>
    have hname := h.wellFormed.names name List.mem_cons_self
    have hstart : start.Fits d c ∧ start.isExpression = true := h.value List.mem_cons_self
    have hlimit : limit.Fits d c ∧ limit.isExpression = true :=
      h.value (List.mem_cons_of_mem _ List.mem_cons_self)
    have hstep : ∀ node ∈ step.toList, node.Fits d c ∧ node.isExpression = true :=
      fun node hnode => h.value (List.mem_cons_of_mem _ (List.mem_cons_of_mem _ hnode))
    exact hstatement rfl (rangeLoop_holds hself hname hstart hlimit hstep h.statements)
  | eachLoop name _ _ _ =>
    have hname := h.wellFormed.names name List.mem_cons_self
    exact hstatement rfl
      (eachLoop_holds hself hname (h.value List.mem_cons_self) h.statements)
  | breakOut _ | continueOn _ | fallThrough _ => exact hstatement rfl (.pure h.isTaken)
  | giveBack _ _ => exact hstatement rfl (giveBack_holds hself fun _ hnode => h.value hnode)

/-- The statements of a program, whose signals are taken or are a `return`. -/
theorem program_holds {nodes : List Node} {last : Value}
    (hnodes : ∀ node ∈ nodes, node.Fits d .outermost) (hlast : last.Fits d) :
    Holds d (Eval.program self frame last nodes) (Value.Fits d) := by
  induction nodes generalizing last with
  | nil => exact .pure hlast
  | cons node nodes ih =>
    obtain ⟨hnode, hnodes⟩ := List.forall_mem_cons.1 hnodes
    refine .bind (hself node .outermost frame hnode) fun o ho => ?_
    match o with
    | .value v => exact ih hnodes ho.1
    | .signal (.giveBack _) => exact .pure ho.1
    | .signal .breakOut => exact returned_holds ho.1
    | .signal .continueOn => exact returned_holds ho.1
    | .signal .fallThrough => exact returned_holds ho.1

end

/-! ### Closing the recursion -/

/-- **Evaluation stays within its discipline**, with any fuel. -/
theorem evaluate_holds (fuel : Nat) : ∀ node c frame, node.Fits d c →
    Holds d (Eval.evaluate fuel node frame) (Outcome.Answers d c node) := by
  induction fuel with
  | zero => exact fun _ _ _ _ => .exhausted
  | succ fuel ih => exact fun _ _ _ h => step_holds ih h

/-- Runs a program in a new root frame, nesting at most `fuel` levels. -/
def Eval.runFreshWithin (fuel : Nat) (nodes : List Node) : Eval Value := do
  let root ← Eval.standardRoot
  Eval.program (Eval.evaluate fuel) root .null nodes

theorem Eval.runFresh_eq (nodes : List Node) :
    Eval.runFresh nodes = Eval.runFreshWithin Eval.ampleFuel nodes := rfl

theorem runFreshWithin_holds {nodes : List Node} (fuel : Nat)
    (hnodes : ∀ node ∈ nodes, node.Fits d .outermost) :
    Holds d (Eval.runFreshWithin fuel nodes) (Value.Fits d) := by
  refine .bind (Q := fun _ => True) ?_ fun root _ => ?_
  · exact .onHeap fun _ hheap => ⟨hheap.push (standardBindings_fit d), trivial⟩
  · exact program_holds (evaluate_holds fuel) hnodes trivial

/-- **No fault that the demand excludes ends a run from a machine before its first run.** -/
theorem admits_of_runFreshWithin {fuel : Nat} {nodes : List Node}
    (hnodes : ∀ node ∈ nodes, node.Fits d .outermost) {host : Host} {limit : Nat} {f : EvalFault}
    {m : Machine}
    (h : Eval.runFreshWithin fuel nodes (Machine.start host limit) = .error (.fault f) m) :
    d.Admits f.cause :=
  (runFreshWithin_holds fuel hnodes).fault Heap.binds_empty h

end PairScript
