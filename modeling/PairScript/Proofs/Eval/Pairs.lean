import PairScript.Proofs.Eval.Bindings
import PairScript.Proofs.Primitive.Performs
import PairScript.Proofs.Program.Operators
import PairScript.Proofs.Value.Places

/-!
# Every pair is made once

The pairs that a program makes are numbered one after the other, and never change.  So they can be
listed in the order in which they are made, and whatever value a program comes across, its pairs are
the ones that the list has under their numbers (`Heap.Records`).  The list gets longer during a run
and loses nothing, also in a run that fails.

`Tracks` says so of a procedure.  There is one lemma for each construct, the level below being a
parameter, and `evaluate_tracks` closes the recursion.  In the end all values that a machine holds
have their pairs from one heap (`values_coherent`), which is what equality relies on when it takes
two pairs of one number for one pair.
-/

namespace PairScript

/-! ### Heaps -/

/-- The pairs that were made are listed in order, and all values that are bound are made of them. -/
structure Heap.Records (h : Heap) (made : List (Value × Value)) : Prop where
  next : h.nextCell = made.length
  bound : h.Binds fun _ v => v.Recorded made

namespace Heap.Records

variable {h : Heap} {made : List (Value × Value)} {frame : FrameId} {name : String} {v : Value}

theorem empty : Heap.empty.Records [] := ⟨rfl, binds_empty⟩

theorem push {f : Frame} (hh : h.Records made) (hf : f.bindings.All fun _ v => v.Recorded made) :
    (h.push f).2.Records made :=
  ⟨hh.next, hh.bound.push hf⟩

theorem standardRoot (hh : h.Records made) : h.standardRoot.2.Records made := by
  refine hh.push (List.forall_mem_append.2 ⟨?_, fun entry hentry => ?_⟩)
  · simp [Value.Recorded]
  · obtain ⟨p, -, rfl⟩ := List.mem_map.1 hentry
    exact trivial

theorem bind {names : List String} {values : List Value} (hh : h.Records made)
    (hvalues : ∀ v ∈ values, v.Recorded made) : (h.bind frame names values).2.Records made :=
  ⟨hh.next, hh.bound.bind fun _ _ v hv => hvalues v hv⟩

theorem define (hh : h.Records made) (hv : v.Recorded made) :
    (h.define frame name v).Records made :=
  ⟨hh.next, hh.bound.define hv⟩

theorem assign (hh : h.Records made) (hv : v.Recorded made) :
    (h.assign frame name v).2.Records made := by
  unfold Heap.assign
  split
  · exact hh.define hv
  · exact hh

theorem lookup (hh : h.Records made) (hfound : h.lookup frame name = some v) : v.Recorded made :=
  hh.bound.lookup hfound

/-- More pairs are made. -/
theorem more (hh : h.Records made) (new : List (Value × Value)) :
    { h with nextCell := h.nextCell + new.length }.Records (made ++ new) := by
  refine ⟨by rw [List.length_append, hh.next], fun id f hf entry hentry => ?_⟩
  exact (hh.bound id f hf entry hentry).later (List.prefix_append made new)

end Heap.Records

/-- The outcomes that hold values made of listed pairs. -/
def Outcome.Recorded (made : List (Value × Value)) : Outcome → Prop
  | .value v => v.Recorded made
  | .signal (.giveBack v) => v.Recorded made
  | .signal _ => True

/-! ### Procedures -/

/-- An end at which all pairs are listed, those of `made` as before, the result being in `Q`. -/
def Eval.Lists {α : Type} (made : List (Value × Value)) (Q : List (Value × Value) → α → Prop) :
    EStateM.Result (Halt EvalCause) Machine α → Prop
  | .ok a m => ∃ made', made <+: made' ∧ m.heap.Records made' ∧ Q made' a
  | .error _ m => ∃ made', made <+: made' ∧ m.heap.Records made'

/-- Once the pairs of `made` are listed, `p` goes on with the list, and gives a result in `Q`.  More
pairs may be listed by the time when `p` starts, since what comes before it makes pairs too. -/
def Tracks {α : Type} (made : List (Value × Value)) (p : Eval α)
    (Q : List (Value × Value) → α → Prop) : Prop :=
  ∀ made' m, made <+: made' → m.heap.Records made' → Eval.Lists made' Q (p m)

/-- The values of a list are made of listed pairs. -/
def AllRecorded (made : List (Value × Value)) (values : List Value) : Prop :=
  ∀ v ∈ values, v.Recorded made

variable {α β : Type} {made made' : List (Value × Value)} {frame : FrameId} {name : String}
  {line : Nat} {v : Value} {values : List Value}

theorem AllRecorded.later (h : AllRecorded made values) (hmade : made <+: made') :
    AllRecorded made' values :=
  fun v hv => (h v hv).later hmade

theorem Outcome.Recorded.later {o : Outcome} (h : o.Recorded made) (hmade : made <+: made') :
    o.Recorded made' := by
  match o with
  | .value _ => exact Value.Recorded.later h hmade
  | .signal (.giveBack _) => exact Value.Recorded.later h hmade
  | .signal .breakOut => trivial
  | .signal .continueOn => trivial
  | .signal .fallThrough => trivial

theorem Eval.Lists.earlier {Q : List (Value × Value) → α → Prop}
    {r : EStateM.Result (Halt EvalCause) Machine α} (h : Eval.Lists made' Q r)
    (hmade : made <+: made') : Eval.Lists made Q r := by
  match r with
  | .ok a m =>
    obtain ⟨made'', hmade', hrest⟩ := h
    exact ⟨made'', hmade.trans hmade', hrest⟩
  | .error halt m =>
    obtain ⟨made'', hmade', hrest⟩ := h
    exact ⟨made'', hmade.trans hmade', hrest⟩

namespace Tracks

variable {p : Eval α} {Q Q' : List (Value × Value) → α → Prop}

theorem mono (h : Tracks made p Q) (hQ : ∀ made' a, made <+: made' → Q made' a → Q' made' a) :
    Tracks made p Q' := by
  intro made' m hmade hm
  have hend := h made' m hmade hm
  match hp : p m with
  | .ok a m' =>
    rw [hp] at hend
    obtain ⟨made'', hmade', hm', ha⟩ := hend
    exact ⟨made'', hmade', hm', hQ made'' a (hmade.trans hmade') ha⟩
  | .error halt m' => rwa [hp] at hend

theorem pure {a : α} (h : ∀ made', made <+: made' → Q made' a) : Tracks made (pure a) Q :=
  fun made' _ hmade hm => ⟨made', List.prefix_refl made', hm, h made' hmade⟩

theorem bind {f : α → Eval β} {P : List (Value × Value) → β → Prop} (hp : Tracks made p Q)
    (hf : ∀ made' a, made <+: made' → Q made' a → Tracks made' (f a) P) :
    Tracks made (p >>= f) P := by
  intro made' m hmade hm
  have hend := hp made' m hmade hm
  show Eval.Lists made' P (EStateM.bind p f m)
  unfold EStateM.bind
  match hp : p m with
  | .ok a m' =>
    rw [hp] at hend
    obtain ⟨made'', hmade', hm', ha⟩ := hend
    exact (hf made'' a (hmade.trans hmade') ha made'' m' (List.prefix_refl _) hm').earlier hmade'
  | .error halt m' => rwa [hp] at hend

theorem get_bind {f : Machine → Eval β} {P : List (Value × Value) → β → Prop}
    (h : ∀ m, Tracks made (f m) P) : Tracks made (get >>= f) P :=
  fun made' m hmade hm => h m made' m hmade hm

theorem fail {cause : EvalCause} : Tracks made (Eval.fail cause line) Q :=
  fun made' _ _ hm => ⟨made', List.prefix_refl made', hm⟩

theorem exhausted : Tracks made Eval.exhausted Q :=
  fun made' _ _ hm => ⟨made', List.prefix_refl made', hm⟩

theorem settle {P : α → Prop} {x : Except EvalCause α} (h : Yields x P) :
    Tracks made (Eval.settle line x) fun _ => P := by
  cases x with
  | ok a => exact .pure fun _ _ => h.1 a rfl
  | error cause => exact .fail

/-- Changes of the heap that make no pairs. -/
theorem onHeap {f : Heap → α × Heap}
    (h : ∀ made' heap, made <+: made' → heap.Records made' →
      (f heap).2.Records made' ∧ Q made' (f heap).1) : Tracks made (Eval.onHeap f) Q := by
  intro made' m hmade hm
  obtain ⟨hheap, ha⟩ := h made' m.heap hmade hm
  exact ⟨made', List.prefix_refl made', hheap, ha⟩

theorem onHost {f : Host → Except HostFailure α × Host} :
    Tracks made (Eval.onHost line f) fun _ _ => True := by
  refine .bind (Q := fun _ _ => True) ?_ fun _ r _ _ => ?_
  · exact fun made' _ _ hm => ⟨made', List.prefix_refl made', hm, trivial⟩
  · cases r with
    | ok a => exact .pure fun _ _ => trivial
    | error failure => exact .fail

/-- A call, which changes the count of calls besides what its body does. -/
theorem asCall (h : Tracks made p Q) : Tracks made (Eval.asCall line p) Q := by
  intro made' m hmade hm
  rw [Eval.asCall_apply]
  split
  · exact ⟨made', List.prefix_refl made', hm⟩
  · have hend := h made' { m with depth := m.depth + 1 } hmade hm
    unfold Eval.leavingAfter
    match hp : p { m with depth := m.depth + 1 } with
    | .ok a m' => rwa [hp] at hend
    | .error halt m' => rwa [hp] at hend

end Tracks

/-! ### Shared steps -/

theorem lookup_tracks : Tracks made (Eval.lookup frame name line) Value.Recorded := by
  refine .bind (Q := fun made' found => ∀ v, found = some v → v.Recorded made') ?_
    fun made' found _ hfound => ?_
  · exact fun made' m _ hm => ⟨made', List.prefix_refl made', hm, fun v hv => hm.lookup hv⟩
  · cases found with
    | none => exact .fail
    | some v => exact .pure fun _ hmade => (hfound v rfl).later hmade

theorem define_tracks (hv : v.Recorded made) :
    Tracks made (Eval.define frame name v) fun _ _ => True :=
  .onHeap fun _ _ hmade hheap => ⟨hheap.define (hv.later hmade), trivial⟩

theorem assign_tracks (hv : v.Recorded made) :
    Tracks made (Eval.assign frame name v line) fun _ _ => True := by
  refine .bind (Q := fun _ _ => True) ?_ fun _ found _ _ => ?_
  · exact .onHeap fun _ _ hmade hheap => ⟨hheap.assign (hv.later hmade), trivial⟩
  · split
    · exact .pure fun _ _ => trivial
    · exact .fail

theorem childFrame_tracks : Tracks made (Eval.childFrame frame) fun _ _ => True :=
  .onHeap fun _ _ _ hheap => ⟨hheap.push (by simp [Bindings.All]), trivial⟩

theorem boundFrame_tracks {names : List String} (hvalues : AllRecorded made values) :
    Tracks made (Eval.boundFrame frame names values line) fun _ _ => True := by
  unfold Eval.boundFrame
  split
  · exact .onHeap fun _ _ hmade hheap => ⟨hheap.bind (hvalues.later hmade), trivial⟩
  · exact .fail

/-! ### Primitives -/

theorem Value.recorded_downward (made : List (Value × Value)) : Downward (Value.Recorded made) where
  atom := by
    intro v hv
    cases v with
    | pair cell h t => cases hv
    | _ => trivial
  parts := fun _ _ _ h => h.2

/-- A new pair is listed. -/
theorem cons_tracks {head tail : Value} (hhead : head.Recorded made) (htail : tail.Recorded made) :
    Tracks made (Eval.onHeap (Heap.cons head tail)) Value.Recorded := by
  intro made' m hmade hm
  have hpair := Value.recorded_pair (hhead.later hmade) (htail.later hmade)
  rw [← hm.next] at hpair
  exact ⟨made' ++ [(head, tail)], List.prefix_append _ _, hm.more [(head, tail)], hpair⟩

theorem list_tracks {items : List Value} (hitems : AllRecorded made items) :
    Tracks made (Eval.onHeap (Heap.list items)) Value.Recorded := by
  intro made' m hmade hm
  have hreversed : AllRecorded made' items.reverse := fun v hv =>
    hitems.later hmade v (List.mem_reverse.1 hv)
  have hend : Value.empty.Recorded made' := trivial
  obtain ⟨new, hnew, hchain⟩ := Value.recorded_chainOnto hend hreversed
  rw [← hm.next] at hchain
  have hheap := hm.more new
  rw [hnew, List.length_reverse] at hheap
  exact ⟨made' ++ new, List.prefix_append _ _, hheap, hchain⟩

theorem readLine_tracks : Tracks made (Primitive.readLine line) Value.Recorded := by
  refine .bind .onHost fun _ text _ _ => ?_
  cases text <;> exact .pure fun _ _ => trivial

theorem performs_tracks {p : Primitive} {args : List Value} {q : Eval Value}
    (h : p.Performs (Value.Recorded made) args line q) : Tracks made q Value.Recorded := by
  cases h with
  | settles yields => exact (Tracks.settle yields).mono fun _ _ hmade hv => hv.later hmade
  | pairs left right => exact cons_tracks left right
  | lists items_in => exact list_tracks items_in
  | spells yields =>
    refine .bind (.settle yields) fun _ s _ _ => list_tracks fun item hitem => ?_
    obtain ⟨ch, -, rfl⟩ := List.mem_map.1 hitem
    exact trivial
  | prints => exact .bind .onHost fun _ _ _ _ => .pure fun _ _ => trivial
  | reads => exact readLine_tracks
  | asks => exact .bind .onHost fun _ _ _ _ => readLine_tracks
  | refuses => exact .fail

/-! ### Values and sequences -/

section

variable {self : Evaluator}
  (hself : ∀ made node frame, Tracks made (self node frame) Outcome.Recorded)
include hself

theorem valueOf_tracks {node : Node} :
    Tracks made (Eval.valueOf self node frame) Value.Recorded := by
  refine .bind (hself made node frame) fun _ o _ ho => ?_
  cases o with
  | value v => exact .pure fun _ hmade => Value.Recorded.later ho hmade
  | signal s => exact .fail

theorem valuesOnto_tracks {nodes : List Node} {acc : List Value} (hacc : AllRecorded made acc) :
    Tracks made (Eval.valuesOnto self frame nodes acc) AllRecorded := by
  induction nodes generalizing acc made with
  | nil => exact .pure fun _ hmade v hv => (hacc v (List.mem_reverse.1 hv)).later hmade
  | cons node nodes ih =>
    refine .bind (valueOf_tracks hself) fun _ v hmade hv => ?_
    exact ih (List.forall_mem_cons.2 ⟨hv, hacc.later hmade⟩)

theorem valuesOf_tracks {nodes : List Node} :
    Tracks made (Eval.valuesOf self nodes frame) AllRecorded :=
  valuesOnto_tracks hself (by simp [AllRecorded])

theorem sequence_tracks {nodes : List Node} :
    Tracks made (Eval.sequence self frame nodes) Outcome.Recorded := by
  induction nodes generalizing made with
  | nil => exact .pure fun _ _ => trivial
  | cons node nodes ih =>
    refine .bind (hself made node frame) fun _ o _ ho => ?_
    cases o with
    | value v => exact ih
    | signal s => exact .pure fun _ hmade => ho.later hmade

theorem inScope_tracks {body : List Node} :
    Tracks made (Eval.inScope self body frame) Outcome.Recorded :=
  .bind childFrame_tracks fun _ _ _ _ => sequence_tracks hself

/-! ### Branches -/

theorem inScope?_tracks {body : Option (List Node)} :
    Tracks made (Eval.inScope? self body frame) Outcome.Recorded := by
  cases body with
  | some body => exact inScope_tracks hself
  | none => exact .pure fun _ _ => trivial

theorem conditional_tracks {condition : Node} {body : List Node} {other : Option (List Node)} :
    Tracks made (Eval.conditional self condition body other frame) Outcome.Recorded := by
  refine .bind (valueOf_tracks hself) fun _ v _ _ => ?_
  split
  · exact inScope_tracks hself
  · exact inScope?_tracks hself

theorem matchesAny_tracks {subject : Value} {nodes : List Node} :
    Tracks made (Eval.matchesAny self subject frame nodes) fun _ _ => True := by
  induction nodes generalizing made with
  | nil => exact .pure fun _ _ => trivial
  | cons node nodes ih =>
    refine .bind (valueOf_tracks hself) fun _ v _ _ => ?_
    split
    · exact .pure fun _ _ => trivial
    · exact ih

omit hself in
theorem Outcome.Recorded.switchOutcome {o : Outcome} (h : o.Recorded made) :
    (Eval.switchOutcome o).Recorded made := by
  match o with
  | .value _ => trivial
  | .signal (.giveBack _) => exact h
  | .signal .continueOn => trivial
  | .signal .breakOut => trivial
  | .signal .fallThrough => trivial

omit hself in
theorem switchOutcome_tracks {o : Outcome} (h : o.Recorded made) :
    Tracks made (pure (Eval.switchOutcome o)) Outcome.Recorded :=
  .pure fun _ hmade => h.switchOutcome.later hmade

theorem runFallback_tracks {fallback : Option (List Node)} :
    Tracks made (Eval.runFallback self fallback frame) Outcome.Recorded :=
  .bind (inScope?_tracks hself) fun _ _ _ ho => switchOutcome_tracks ho

theorem runArms_tracks {fallback : Option (List Node)} {arms : List (Arm Node)} :
    Tracks made (Eval.runArms self fallback frame arms) Outcome.Recorded := by
  induction arms generalizing made with
  | nil => exact runFallback_tracks hself
  | cons arm arms ih =>
    refine .bind (inScope_tracks hself) fun _ o _ ho => ?_
    match o with
    | .value _ => exact switchOutcome_tracks ho
    | .signal .fallThrough => exact ih
    | .signal (.giveBack _) => exact switchOutcome_tracks ho
    | .signal .breakOut => exact switchOutcome_tracks ho
    | .signal .continueOn => exact switchOutcome_tracks ho

theorem chooseArm_tracks {subject : Value} {fallback : Option (List Node)}
    {arms : List (Arm Node)} :
    Tracks made (Eval.chooseArm self subject fallback frame arms) Outcome.Recorded := by
  induction arms generalizing made with
  | nil => exact runFallback_tracks hself
  | cons arm arms ih =>
    refine .bind (matchesAny_tracks hself) fun _ found _ _ => ?_
    split
    · exact runArms_tracks hself
    · exact ih

/-! ### Loops -/

omit hself in
/-- A signal that leaves a loop is the one that the pass ended with. -/
theorem leave_tracks {o : Outcome} {s : Signal} (ho : o.Recorded made)
    (hleave : Eval.passOf o = .leave s) : Tracks made (pure (.signal s)) Outcome.Recorded := by
  match o with
  | .signal (.giveBack _) =>
    cases hleave
    exact .pure fun _ hmade => ho.later hmade
  | .signal .fallThrough =>
    cases hleave
    exact .pure fun _ _ => trivial

theorem whileLoop_tracks {condition : Node} {body : List Node} {bound : Nat} :
    Tracks made (Eval.whileLoop self condition body frame bound) Outcome.Recorded := by
  induction bound generalizing made with
  | zero => exact .exhausted
  | succ bound ih =>
    refine .bind (valueOf_tracks hself) fun _ v _ _ => ?_
    split
    · refine .bind (inScope_tracks hself) fun _ o _ ho => ?_
      split
      next => exact ih
      next => exact .pure fun _ _ => trivial
      next s hleave => exact leave_tracks ho hleave
    · exact .pure fun _ _ => trivial

omit hself in
theorem advance_tracks {r : Eval.Range} {current : Value} :
    Tracks made (Eval.advance r frame current) fun _ _ => True := by
  refine .bind (Q := fun _ _ => True) ?_ fun _ now _ _ => ?_
  · exact fun made' _ _ hm => ⟨made', List.prefix_refl made', hm, trivial⟩
  · refine .bind (.settle (Primitive.plus_yields _ _)) fun made' v _ hv => define_tracks ?_
    exact (Value.recorded_downward made').atom hv

theorem rangePasses_tracks {r : Eval.Range} {bound : Nat} :
    Tracks made (Eval.rangePasses self r frame bound) Outcome.Recorded := by
  induction bound generalizing made with
  | zero => exact .exhausted
  | succ bound ih =>
    refine .bind lookup_tracks fun _ current _ _ => ?_
    refine .bind (.settle (Primitive.compareNumbers_yields _ _)) fun _ o _ _ => ?_
    split
    · refine .bind (inScope_tracks hself) fun _ o _ ho => ?_
      split
      next => exact .bind advance_tracks fun _ _ _ _ => ih
      next => exact .pure fun _ _ => trivial
      next s hleave => exact leave_tracks ho hleave
    · exact .pure fun _ _ => trivial

theorem stepValue_tracks {step : Option Node} :
    Tracks made (Eval.stepValue self step frame) Value.Recorded := by
  cases step with
  | some node => exact valueOf_tracks hself
  | none => exact .pure fun _ _ => trivial

theorem rangeLoop_tracks {bound : Nat} {start limit : Node} {closed : Bool} {step : Option Node}
    {body : List Node} :
    Tracks made (Eval.rangeLoop self bound name start limit closed step body frame line)
      Outcome.Recorded := by
  refine .bind (valueOf_tracks hself) fun made₁ first _ hfirst => ?_
  refine .bind (valueOf_tracks hself) fun made₂ last h₂ _ => ?_
  refine .bind (stepValue_tracks hself) fun made₃ by_ h₃ _ => ?_
  refine .bind (.settle (Eval.directionOf_yields by_)) fun made₄ upwards h₄ _ => ?_
  refine .bind (.settle (Eval.requireNumber_yields first)) fun made₅ _ h₅ _ => ?_
  refine .bind (.settle (Eval.requireNumber_yields last)) fun made₆ _ h₆ _ => ?_
  refine .bind childFrame_tracks fun made₇ inner h₇ _ => ?_
  have hmade : made₁ <+: made₇ := h₂.trans (h₃.trans (h₄.trans (h₅.trans (h₆.trans h₇))))
  exact .bind (define_tracks (hfirst.later hmade)) fun _ _ _ _ => rangePasses_tracks hself

theorem eachPass_tracks {body : List Node} {items : List Value} (hitems : AllRecorded made items) :
    Tracks made (Eval.eachPass self name body frame items) Outcome.Recorded := by
  induction items generalizing made with
  | nil => exact .pure fun _ _ => trivial
  | cons item items ih =>
    obtain ⟨hitem, hitems⟩ := List.forall_mem_cons.1 hitems
    refine .bind childFrame_tracks fun _ inner h₁ _ => ?_
    refine .bind (define_tracks (hitem.later h₁)) fun _ _ h₂ _ => ?_
    refine .bind (sequence_tracks hself) fun _ o h₃ ho => ?_
    split
    next => exact ih (AllRecorded.later hitems (h₁.trans (h₂.trans h₃)))
    next => exact .pure fun _ _ => trivial
    next s hleave => exact leave_tracks ho hleave

theorem eachLoop_tracks {collection : Node} {body : List Node} :
    Tracks made (Eval.eachLoop self name collection body frame line) Outcome.Recorded := by
  refine .bind (valueOf_tracks hself) fun made₁ v _ hv => ?_
  have hyields := Eval.rangeElements_yields (Value.recorded_downward made₁) hv
  refine .bind (.settle hyields) fun _ items hmade hitems => ?_
  exact eachPass_tracks hself (AllRecorded.later hitems hmade)

/-! ### Calls and members -/

omit hself in
theorem returned_tracks {o : Outcome} (ho : o.Recorded made) :
    Tracks made (Eval.returned o line) Value.Recorded := by
  match o with
  | .value _ => exact .pure fun _ _ => trivial
  | .signal (.giveBack _) => exact .pure fun _ hmade => Value.Recorded.later ho hmade
  | .signal .breakOut => exact .fail
  | .signal .continueOn => exact .fail
  | .signal .fallThrough => exact .fail

theorem callClosure_tracks {f : Closure} {args : List Value} (hargs : AllRecorded made args) :
    Tracks made (Eval.callClosure self f args line) Value.Recorded := by
  refine .bind (boundFrame_tracks hargs) fun _ inner _ _ => ?_
  exact .bind (.asCall (sequence_tracks hself)) fun _ o _ ho => returned_tracks ho

theorem apply_tracks {f : Value} {args : List Value} (hargs : AllRecorded made args) :
    Tracks made (Eval.apply self f args line) Value.Recorded := by
  unfold Eval.apply
  split
  next p =>
    have hdownward := Value.recorded_downward made
    exact performs_tracks (Primitive.apply_performs hdownward line hargs)
  next f => exact callClosure_tracks hself hargs
  next => exact .fail

theorem applyTo_tracks {f : Value} {arguments : List Node} :
    Tracks made (Eval.applyTo self f arguments frame line) Value.Recorded :=
  .bind (valuesOf_tracks hself) fun _ _ _ hargs => apply_tracks hself hargs

theorem logical_tracks {symbol : String} {operands : List Node} :
    Tracks made (Eval.logical self symbol operands frame line) Value.Recorded := by
  unfold Eval.logical
  split
  next left right =>
    refine .bind (valueOf_tracks hself) fun made₁ a _ ha => ?_
    have hrest : ∀ made₂ b, made₁ <+: made₂ → b.Recorded made₂ → Tracks made₂
        (Eval.lookup frame symbol line >>= fun f => Eval.apply self f [a, b] line)
        Value.Recorded := by
      intro made₂ b h₂ hb
      have hboth : AllRecorded made₂ [a, b] := by
        simpa [AllRecorded] using ⟨ha.later h₂, hb⟩
      exact .bind lookup_tracks fun _ f h₃ _ => apply_tracks hself (hboth.later h₃)
    dsimp only
    split
    · exact .bind (valueOf_tracks hself) hrest
    · exact .bind (.pure fun _ _ => trivial) hrest
  next => exact .fail

theorem strict_tracks {symbol : String} {operands : List Node} :
    Tracks made (Eval.strict self symbol operands frame line) Value.Recorded :=
  .bind lookup_tracks fun _ _ _ _ => applyTo_tracks hself

theorem call_tracks {callee : Node} {arguments : List Node} :
    Tracks made (Eval.call self callee arguments frame line) Value.Recorded :=
  .bind (valueOf_tracks hself) fun _ _ _ _ => applyTo_tracks hself

theorem memberFrame_tracks {f : Closure} :
    Tracks made (Eval.memberFrame self f line) fun _ _ => True := by
  refine .get_bind fun m => ?_
  split
  · exact .pure fun _ _ => trivial
  · refine .bind (boundFrame_tracks (by simp [AllRecorded])) fun _ inner _ _ => ?_
    refine .bind (.asCall (sequence_tracks hself)) fun _ o _ ho => ?_
    refine .bind (returned_tracks ho) fun _ _ _ _ => ?_
    exact .onHeap fun _ _ _ hheap => ⟨⟨hheap.next, hheap.bound⟩, trivial⟩

omit hself in
theorem slot_tracks {part : Option Value} (hpart : ∀ v ∈ part, v.Recorded made) :
    Tracks made (Eval.slot part name line) Value.Recorded := by
  cases part with
  | some v => exact .pure fun _ hmade => (hpart v rfl).later hmade
  | none => exact .fail

omit hself in
theorem listMember_tracks {list : Value} (hlist : list.Recorded made) :
    Tracks made (Eval.listMember list name line) Value.Recorded := by
  unfold Eval.listMember
  split
  · refine slot_tracks fun v hv => ?_
    match list, hv with
    | .pair _ _ _, rfl => exact hlist.2.1
  · refine slot_tracks fun v hv => ?_
    match list, hv with
    | .pair _ _ _, rfl => exact hlist.2.2
  · exact .pure fun _ _ => trivial
  · exact .fail

theorem member_tracks {target : Value} (htarget : target.Recorded made) :
    Tracks made (Eval.member self target name line) Value.Recorded := by
  unfold Eval.member
  split
  next f => exact .bind (memberFrame_tracks hself) fun _ _ _ _ => lookup_tracks
  next =>
    split
    · exact listMember_tracks htarget
    · exact .fail

theorem callMember_tracks {target : Value} {arguments : List Node}
    (htarget : target.Recorded made) :
    Tracks made (Eval.callMember self target name arguments frame line) Value.Recorded := by
  refine .bind (member_tracks hself htarget) fun _ f _ hf => ?_
  refine .bind (valuesOf_tracks hself) fun _ args hmade hargs => ?_
  split
  · split
    · exact .pure fun _ hmade' => hf.later (hmade.trans hmade')
    · exact .fail
  · exact apply_tracks hself hargs

theorem assignMember_tracks {target value : Value} (hvalue : value.Recorded made) :
    Tracks made (Eval.assignMember self target name value line) fun _ _ => True := by
  unfold Eval.assignMember
  split
  next f =>
    exact .bind (memberFrame_tracks hself) fun _ _ hmade _ => assign_tracks (hvalue.later hmade)
  next => exact .fail

theorem access_tracks {operands : List Node} :
    Tracks made (Eval.access self operands frame line) Value.Recorded := by
  unfold Eval.access
  split
  · refine .bind (valueOf_tracks hself) fun _ target _ htarget => ?_
    split
    · exact member_tracks hself htarget
    · exact callMember_tracks hself htarget
    · exact .fail
  · exact .fail

/-! ### Assignments -/

theorem store_tracks {target : Node} {value : Value} (hvalue : value.Recorded made) :
    Tracks made (Eval.store self target value frame line) fun _ _ => True := by
  unfold Eval.store
  split
  · exact assign_tracks hvalue
  · split
    · split
      · refine .bind (valueOf_tracks hself) fun _ owner hmade _ => ?_
        exact assignMember_tracks hself (hvalue.later hmade)
      · exact .fail
    · exact .fail
  · exact .fail

theorem assignment_tracks {target value : Node} {yieldsOld : Bool} :
    Tracks made (Eval.assignment self target value yieldsOld frame line) Value.Recorded := by
  refine .bind (valueOf_tracks hself) fun made₁ new _ hnew => ?_
  have hrest : ∀ made₂ result, made₁ <+: made₂ → result.Recorded made₂ → Tracks made₂
      (Eval.store self target new frame line >>= fun _ => pure result) Value.Recorded :=
    fun made₂ result h₂ hresult => .bind (store_tracks hself (hnew.later h₂)) fun _ _ h₃ _ =>
      .pure fun _ hmade => hresult.later (h₃.trans hmade)
  dsimp only
  split
  · exact .bind (valueOf_tracks hself) hrest
  · exact .bind (.pure fun _ hmade => hnew.later hmade) hrest

/-! ### Nodes -/

theorem operation_tracks {symbol : String} {operands : List Node} :
    Tracks made (Eval.operation self symbol operands frame line) Value.Recorded := by
  unfold Eval.operation
  split
  · exact logical_tracks hself
  · split
    · exact access_tracks hself
    · exact strict_tracks hself

omit hself in
theorem makeClosure_tracks {name : Option String} {params : List String} {body : List Node} :
    Tracks made (Eval.makeClosure name params body frame) Value.Recorded := by
  refine .bind (Q := fun _ _ => True) ?_ fun _ id _ _ => .pure fun _ _ => trivial
  exact .onHeap fun _ _ _ hheap => ⟨⟨hheap.next, hheap.bound⟩, trivial⟩

theorem giveBack_tracks {value : Option Node} :
    Tracks made (Eval.giveBack self value frame) Outcome.Recorded := by
  cases value with
  | some node =>
    exact .bind (valueOf_tracks hself) fun _ _ _ hv => .pure fun _ hmade => hv.later hmade
  | none => exact .pure fun _ _ => trivial

omit hself in
theorem value_tracks {p : Eval Value} (h : Tracks made p Value.Recorded) :
    Tracks made (p >>= fun v => pure (Outcome.value v)) Outcome.Recorded :=
  .bind h fun _ _ _ hv => .pure fun _ hmade => hv.later hmade

/-- **One level of evaluation**, for each kind of node. -/
theorem step_tracks {bound : Nat} {node : Node} :
    Tracks made (Eval.step bound self node frame) Outcome.Recorded := by
  cases node with
  | constant value _ => exact .pure fun _ _ => by cases value <;> trivial
  | reference _ _ => exact value_tracks lookup_tracks
  | definition _ _ _ =>
    refine .bind (valueOf_tracks hself) fun _ v _ hv => ?_
    exact .bind (define_tracks hv) fun _ _ h₂ _ => .pure fun _ hmade => hv.later (h₂.trans hmade)
  | function _ _ _ _ => exact value_tracks makeClosure_tracks
  | assignment _ _ _ _ => exact value_tracks (assignment_tracks hself)
  | operation _ _ _ => exact value_tracks (operation_tracks hself)
  | call _ _ _ => exact value_tracks (call_tracks hself)
  | conditional _ _ _ _ => exact conditional_tracks hself
  | whileLoop _ _ _ => exact whileLoop_tracks hself
  | switch _ _ _ _ => exact .bind (valueOf_tracks hself) fun _ _ _ _ => chooseArm_tracks hself
  | rangeLoop _ _ _ _ _ _ _ => exact rangeLoop_tracks hself
  | eachLoop _ _ _ _ => exact eachLoop_tracks hself
  | breakOut _ | continueOn _ | fallThrough _ => exact .pure fun _ _ => trivial
  | giveBack _ _ => exact giveBack_tracks hself

theorem program_tracks {nodes : List Node} {last : Value} (hlast : last.Recorded made) :
    Tracks made (Eval.program self frame last nodes) Value.Recorded := by
  induction nodes generalizing last made with
  | nil => exact .pure fun _ hmade => hlast.later hmade
  | cons node nodes ih =>
    refine .bind (hself made node frame) fun _ o _ ho => ?_
    match o with
    | .value v => exact ih ho
    | .signal (.giveBack _) => exact .pure fun _ hmade => Value.Recorded.later ho hmade
    | .signal .breakOut => exact .fail
    | .signal .continueOn => exact .fail
    | .signal .fallThrough => exact .fail

end

/-! ### Closing the recursion -/

/-- **Evaluation keeps the list of pairs**, with any fuel. -/
theorem evaluate_tracks (fuel : Nat) : ∀ made node frame,
    Tracks made (Eval.evaluate fuel node frame) Outcome.Recorded := by
  induction fuel with
  | zero => exact fun _ _ _ => .exhausted
  | succ fuel ih => exact fun _ _ _ => step_tracks ih

/-! ### Sessions -/

/-- A way of running texts that keeps the list of pairs, and gives values made of its pairs. -/
def KeepsPairs (run : String → Machine → Except Failure Value × Machine) : Prop :=
  ∀ source m made, m.heap.Records made → ∃ made', made <+: made' ∧
    (run source m).2.heap.Records made' ∧ ∀ v, (run source m).1 = .ok v → v.Recorded made'

theorem Tracks.result {p : Eval Value} (hp : Tracks made p Value.Recorded) {m : Machine}
    (hm : m.heap.Records made) : ∃ made', made <+: made' ∧
      (resultOf (p m)).2.heap.Records made' ∧
      ∀ v, (resultOf (p m)).1 = .ok v → v.Recorded made' := by
  have hend := hp made m (List.prefix_refl made) hm
  match hp : p m with
  | .ok a m' =>
    rw [hp] at hend
    obtain ⟨made', hmade, hm', ha⟩ := hend
    refine ⟨made', hmade, hm', fun v hv => ?_⟩
    cases hv
    exact ha
  | .error halt m' =>
    rw [hp] at hend
    obtain ⟨made', hmade, hm'⟩ := hend
    exact ⟨made', hmade, hm', fun v hv => by cases hv⟩

theorem runSourceIn_keepsPairs (root : FrameId) : KeepsPairs (runSourceIn root) := by
  intro source m made hm
  unfold runSourceIn
  split
  · exact ⟨made, List.prefix_refl made, hm, fun v hv => by cases hv⟩
  · have hlast : Value.null.Recorded made := trivial
    exact (program_tracks (evaluate_tracks _) hlast).result hm

theorem runSource_keepsPairs : KeepsPairs runSource := by
  intro source m made hm
  unfold runSource
  split
  · exact ⟨made, List.prefix_refl made, hm, fun v hv => by cases hv⟩
  · refine Tracks.result (.bind (Q := fun _ _ => True) ?_ fun made' root _ _ => ?_) hm
    · exact .onHeap fun _ _ _ hheap => ⟨hheap.standardRoot, trivial⟩
    · have hlast : Value.null.Recorded made' := trivial
      exact program_tracks (evaluate_tracks _) hlast

variable {run : String → Machine → Except Failure Value × Machine}

theorem KeepsPairs.session (hrun : KeepsPairs run) (sources : List String) {m : Machine}
    (hm : m.heap.Records made) : ∃ made', made <+: made' ∧
      (session run sources m).2.heap.Records made' ∧
      ∀ v, .ok v ∈ (session run sources m).1 → v.Recorded made' := by
  induction sources generalizing m made with
  | nil => exact ⟨made, List.prefix_refl made, hm, fun v hv => by cases hv⟩
  | cons source sources ih =>
    obtain ⟨made₁, h₁, hm₁, hfirst⟩ := hrun source m made hm
    obtain ⟨made₂, h₂, hm₂, hrest⟩ := ih hm₁
    refine ⟨made₂, h₁.trans h₂, hm₂, fun v hv => ?_⟩
    rcases List.mem_cons.1 hv with hv | hv
    · exact (hfirst v hv.symm).later h₂
    · exact hrest v hv

/-- A value that a name is bound to in a frame of a heap. -/
def Heap.Bound (h : Heap) (v : Value) : Prop :=
  ∃ (id : FrameId) (f : Frame) (name : String), h.frames[id]? = some f ∧ (name, v) ∈ f.bindings

/-- A value that is at hand after a session: the result of one of its texts, or bound to a name. -/
def AtHand (last : List (Except Failure Value) × Machine) (v : Value) : Prop :=
  .ok v ∈ last.1 ∨ last.2.heap.Bound v

/-- A machine before its first run has no pairs. -/
theorem Machine.start_records (host : Host) (limit : Nat) :
    (Machine.start host limit).heap.Records [] := Heap.Records.empty

/-- **All values have their pairs from one heap**, whatever texts are run, each in a root frame of
its own or all in one. -/
theorem values_coherent (hrun : run = runSource ∨ ∃ root, run = runSourceIn root)
    (sources : List String) {m : Machine} (hm : m.heap.Records made) {a b : Value}
    (ha : AtHand (session run sources m) a) (hb : AtHand (session run sources m) b) :
    Value.Coherent a b := by
  have hkeeps : KeepsPairs run := by
    rcases hrun with rfl | ⟨root, rfl⟩
    · exact runSource_keepsPairs
    · exact runSourceIn_keepsPairs root
  obtain ⟨made', -, hheap, hresults⟩ := hkeeps.session sources hm
  have hrecorded : ∀ v, AtHand (session run sources m) v → v.Recorded made' := by
    rintro v (hv | ⟨id, f, name, hf, hname⟩)
    · exact hresults v hv
    · exact hheap.bound id f hf (name, v) hname
  exact (hrecorded a ha).coherent (hrecorded b hb)

end PairScript
