import PairScript.Proofs.Eval.Reach
import PairScript.Proofs.Eval.Upholds

/-!
# Operators cannot be redefined

Operators are looked up by their symbols, in the frames that hold the variables of programs.  Yet no
program can get at them: what it binds it binds to names, and the symbol of an operator is not a
name.  Only `$list`, the operator of list literals, is one.  It follows the names: it stands for its
primitive as long as the first frame on the chain that binds the name binds it to the primitive.

What operators are looked up to does not show in the result of a run.  `Eval.audited` makes it show:
it evaluates like `Eval.evaluate`, but raises an alarm as soon as the symbol of an operator is not
looked up to its primitive, or as the primitive fails for lack of being a function of so many
operands.  For `$list` the alarm is raised unless the look-up gives the primitive exactly if the
first frame on the chain that binds the name does not rebind it (`Heap.listRebound`).  What frames
behind that one bind is not met: a program can rebind `$list` at its outermost level, and have it
back in a block that binds the primitive to the name again.  `operators_cannot_be_redefined` states
that the alarm is never raised, whatever it is, in whatever programs are run one after the other in
one root frame.
-/

namespace PairScript

/-! ### Operators -/

/-- Whether a value is the primitive of an operator. -/
def Value.isOperator (symbol : String) : Value → Bool
  | .primitive p => p.name == symbol
  | _ => false

/-- Whether a cause says that something is not a function of so many arguments, or not bound. -/
def EvalCause.isOfOperator : EvalCause → Bool
  | .unknownVariable _ | .notCallable _ | .frameArity _ _ | .argumentCount _ _ => true
  | _ => false

namespace Heap

/-- The frames from `id` outward, at most so many. -/
def outwardWithin (h : Heap) : (bound : Nat) → FrameId → List FrameId
  | 0, _ => []
  | bound + 1, id => id :: ((h.parent? id).map (h.outwardWithin bound)).getD []

/-- The frames from `id` outward. -/
def outward (h : Heap) (id : FrameId) : List FrameId := h.outwardWithin (id + 1) id

/-- Whether a frame itself binds `$list` to something else than the primitive. -/
def rebindsList (h : Heap) (id : FrameId) : Bool :=
  (h.own? id "$list").any fun v => !v.isOperator "$list"

/-- Whether the first frame on the chain that binds `$list` rebinds it.  The frames behind that one
do not count, whatever they bind. -/
def listRebound (h : Heap) (id : FrameId) : Bool :=
  ((h.outward id).find? (h.owns · "$list")).any h.rebindsList

/-- Whether the symbol of an operator is looked up to what it stands for. -/
def standsFor (h : Heap) (id : FrameId) (symbol : String) : Bool :=
  (h.lookup id symbol).any fun f =>
    f.isOperator symbol == !(symbol == "$list" && h.listRebound id)

end Heap

/-! ### Auditing -/

namespace Eval

/-- Looks the symbol of an operator up. -/
def auditedLookup (alarm : Halt EvalCause) (frame : FrameId) (symbol : String) (line : Nat) :
    Eval Value := fun m =>
  if m.heap.standsFor frame symbol then lookup frame symbol line m else .error alarm m

/-- Applies what the symbol of an operator was looked up to. -/
def auditedApply (alarm : Halt EvalCause) (self : Evaluator) (symbol : String) (f : Value)
    (args : List Value) (line : Nat) : Eval Value := fun m =>
  match apply self f args line m with
  | .error (.fault e) m' =>
    if f.isOperator symbol && e.cause.isOfOperator then .error alarm m' else .error (.fault e) m'
  | r => r

/-- Evaluates `&&` or `||`. -/
def auditedLogical (alarm : Halt EvalCause) (self : Evaluator) (symbol : String)
    (operands : List Node) (frame : FrameId) (line : Nat) : Eval Value := do
  match operands with
  | [left, right] =>
    let a ← valueOf self left frame
    let b ← if needsRight symbol a.isTruthy then valueOf self right frame else pure .null
    let f ← auditedLookup alarm frame symbol line
    auditedApply alarm self symbol f [a, b] line
  | _ => throw alarm

/-- Evaluates an operator other than `&&`, `||` and `.`. -/
def auditedStrict (alarm : Halt EvalCause) (self : Evaluator) (symbol : String)
    (operands : List Node) (frame : FrameId) (line : Nat) : Eval Value := do
  let f ← auditedLookup alarm frame symbol line
  let args ← valuesOf self operands frame
  auditedApply alarm self symbol f args line

/-- Evaluates an operator. -/
def auditedOperation (alarm : Halt EvalCause) (self : Evaluator) (symbol : String)
    (operands : List Node) (frame : FrameId) (line : Nat) : Eval Value :=
  if symbol == "&&" || symbol == "||" then auditedLogical alarm self symbol operands frame line
  else if symbol == "." then access self operands frame line
  else auditedStrict alarm self symbol operands frame line

/-- Evaluates a node in a frame like `Eval.evaluate`, with an alarm on operators that are not what
they stand for. -/
def audited (alarm : Halt EvalCause) : (fuel : Nat) → Evaluator
  | 0, _, _ => exhausted
  | fuel + 1, .operation symbol operands line, frame => do
    return .value (← auditedOperation alarm (audited alarm fuel) symbol operands frame line)
  | fuel + 1, node, frame => step fuel (audited alarm fuel) node frame

end Eval

/-! ### What is looked up -/

theorem Primitive.ofName?_name (p : Primitive) : ofName? p.name = some p := by
  cases p <;> rfl

theorem Primitive.name_injective {p q : Primitive} (h : p.name = q.name) : p = q :=
  Option.some.inj ((ofName?_name p).symm.trans (h ▸ ofName?_name q))

theorem Value.isOperator_iff {p : Primitive} {v : Value} :
    v.isOperator p.name = true ↔ v = .primitive p := by
  cases v with
  | primitive q =>
    rw [Value.primitive.injEq, isOperator, beq_iff_eq]
    exact ⟨Primitive.name_injective, congrArg Primitive.name⟩
  | _ => simp [isOperator]

namespace Heap

variable {h : Heap} {id owner : FrameId} {name : String} {v : Value} {bound : Nat}

/-- A look-up finds the first frame on the chain that binds the name. -/
theorem find?_outwardWithin (hfound : h.resolveWithin name bound id = some (owner, v)) :
    (h.outwardWithin bound id).find? (h.owns · name) = some owner := by
  induction bound generalizing id with
  | zero => cases hfound
  | succ bound ih =>
    rw [resolveWithin_succ] at hfound
    rw [outwardWithin]
    cases hown : h.own? id name with
    | some found =>
      have howns : h.owns id name = true := owns_iff_own?.2 ⟨found, hown⟩
      rw [hown] at hfound
      cases hfound
      rw [List.find?_cons, howns]
    | none =>
      rw [hown] at hfound
      obtain ⟨parent, hparent, hrest⟩ := Option.bind_eq_some_iff.1 hfound
      have hfree : h.owns id name = false := by
        rw [← Bool.not_eq_true, owns_iff_own?, hown]
        exact nofun
      rw [List.find?_cons, hfree, hparent]
      exact ih hrest

/-- `$list` is looked up to its primitive exactly if it is not rebound. -/
theorem isOperator_of_lookup (hfound : h.lookup id "$list" = some v) :
    v.isOperator "$list" = !h.listRebound id := by
  obtain ⟨⟨owner, found⟩, hresolve, rfl⟩ := Option.map_eq_some_iff.1 hfound
  rw [listRebound, outward, find?_outwardWithin hresolve]
  simp [rebindsList, own?_of_resolveWithin hresolve]

/-- It takes a frame on the chain to rebind `$list`. -/
theorem listRebound_eq_false (hchain : ∀ g ∈ h.outward id, h.rebindsList g = false) :
    h.listRebound id = false := by
  unfold listRebound
  cases hfound : (h.outward id).find? (h.owns · "$list") with
  | none => rfl
  | some g => exact hchain g (List.mem_of_find?_eq_some hfound)

end Heap

namespace Reach

variable {r : Reach} {h : Heap} {f : FrameId} {symbol : String} {count : Nat}

/-- **Operators stand for their primitives** wherever programs evaluate them. -/
theorem Holds.standsFor (hh : r.Holds h) (hf : r.HasFrame h.frames.size f)
    (htakes : takesOperands symbol count = true) (hsymbol : ∃ p : Primitive, p.name = symbol) :
    h.standsFor f symbol = true := by
  obtain ⟨p, rfl⟩ := hsymbol
  unfold Heap.standsFor
  by_cases hlist : p.name = "$list"
  · rw [hlist]
    obtain ⟨v, hv⟩ := hh.lookup_list hf
    simp [hv, Heap.isOperator_of_lookup hv]
  · have hp := Primitive.isSymbolic_of_takesOperands htakes hlist
    simp [hh.lookup_symbol hf hp, Value.isOperator, hlist]

end Reach

/-! ### What is applied -/

theorem EvalCause.isOfOperator_of_isOfArguments {cause : EvalCause}
    (h : cause.isOfArguments = true) : cause.isOfOperator = false := by
  unfold isOfOperator
  split <;> first | rfl | cases h

/-- A primitive that takes the number of arguments does not fail on account of it. -/
theorem Primitive.Performs.blameless {p : Primitive} {args : List Value} {line : Nat}
    {q : Eval Value} (haccepts : p.arity.accepts args.length = true)
    (h : p.Performs (fun _ => True) args line q) :
    Upholds (fun _ => True) (·.isOfOperator = false) q fun _ => True := by
  have hsettle : ∀ {α : Type} {x : Except EvalCause α} {Q : α → Prop}, Yields x Q →
      Upholds (fun _ => True) (·.isOfOperator = false) (Eval.settle line x) fun _ => True :=
    fun hx => .settle (fun _ _ => trivial) fun cause hcause =>
      EvalCause.isOfOperator_of_isOfArguments (hx.2 cause hcause)
  have hhost : ∀ {α : Type} {f : Host → Except HostFailure α × Host},
      Upholds (fun _ => True) (·.isOfOperator = false) (Eval.onHost line f) fun _ => True :=
    .onHost (fun _ _ _ => trivial) (fun _ => rfl) fun _ _ _ => trivial
  have hread : Upholds (fun _ => True) (·.isOfOperator = false) (readLine line)
      fun _ => True := by
    refine .bind hhost fun text _ => ?_
    cases text <;> exact .pure trivial
  cases h with
  | settles yields => exact hsettle yields
  | pairs | lists => exact .onHeap fun _ _ => ⟨trivial, trivial⟩
  | spells yields => exact .bind (hsettle yields) fun _ _ => .onHeap fun _ _ => ⟨trivial, trivial⟩
  | prints => exact .bind hhost fun _ _ => .pure trivial
  | reads => exact hread
  | asks => exact .bind hhost fun _ _ => hread
  | refuses refused => cases refused.symm.trans haccepts

theorem Primitive.apply_blameless {p : Primitive} {args : List Value} {line : Nat}
    {m m' : Machine} {e : EvalFault} (haccepts : p.arity.accepts args.length = true)
    (h : p.apply args line m = .error (.fault e) m') : e.cause.isOfOperator = false := by
  have hall : Value.Downward fun _ => True :=
    ⟨fun _ => trivial, fun _ _ _ _ => ⟨trivial, trivial⟩⟩
  exact ((Primitive.apply_performs hall line fun _ _ => trivial).blameless haccepts).fault trivial h

/-- There are as many operands as their nodes. -/
theorem Eval.length_of_valuesOnto {self : Evaluator} {frame : FrameId} {nodes : List Node}
    {acc args : List Value} {m m' : Machine}
    (h : Eval.valuesOnto self frame nodes acc m = .ok args m') :
    args.length = nodes.length + acc.length := by
  induction nodes generalizing acc m with
  | nil =>
    cases h
    simp
  | cons node nodes ih =>
    obtain ⟨v, m₁, -, hrest⟩ := Eval.bind_eq_ok h
    have hlength := ih hrest
    simp only [List.length_cons] at hlength ⊢
    omega

/-! ### No alarm -/

namespace Reach

variable {r : Reach} {alarm : Halt EvalCause} {self self' : Evaluator} {n count line : Nat}
  {frame : FrameId} {symbol : String} {operands : List Node}

theorem auditedLookup_follows (hline : r.line line) (hframe : r.HasFrame n frame)
    (htakes : takesOperands symbol count = true) (hsymbol : ∃ p : Primitive, p.name = symbol) :
    r.regime.Follows n (Eval.lookup frame symbol line)
      (Eval.auditedLookup alarm frame symbol line) r.HasValue := by
  refine ⟨Regime.lookup_meets hline hframe, fun m hm hn _ => ?_⟩
  rw [Eval.auditedLookup, if_pos (Reach.Holds.standsFor hm (hframe.mono hn) htakes hsymbol)]

theorem auditedApply_follows (hcalls : r.regime.Calls self self') (hline : r.line line)
    {f : Value} {args : List Value} (hf : r.HasValue n f) (hargs : r.regime.Values n args)
    (haccepts : ∀ p : Primitive, p.name = symbol → p.arity.accepts args.length = true) :
    r.regime.Follows n (Eval.apply self f args line)
      (Eval.auditedApply alarm self' symbol f args line) r.HasValue := by
  have hlifts := Regime.apply_lifts hcalls hline hf hargs
  refine ⟨hlifts.meets, fun m hm hn hfinishes => ?_⟩
  have hsame : Eval.apply self' f args line m = Eval.apply self f args line m :=
    hlifts.same m hm hn hfinishes
  unfold Eval.auditedApply
  rw [hsame]
  split
  next e m' hfault =>
    split
    next hown =>
      -- a primitive of that name does not fail so
      obtain ⟨hoperator, hcause⟩ := Bool.and_eq_true_iff.1 hown
      cases f with
      | primitive p =>
        have hblameless := Primitive.apply_blameless (haccepts p (beq_iff_eq.1 hoperator)) hfault
        cases hcause.symm.trans hblameless
      | _ => cases hoperator
    next => exact hfault.symm
  next => rfl

section

variable (hcalls : r.regime.Calls self self') (hline : r.line line)
  (hframe : r.HasFrame n frame)
  (h : ∀ node ∈ operands, r.regime.LiftsAt n self self' frame node)
  (htakes : takesOperands symbol operands.length = true)
  (hsymbol : ∃ p : Primitive, p.name = symbol ∧ p.arity.accepts operands.length = true)
include hcalls hline hframe h htakes hsymbol

theorem auditedLogical_follows (hlogical : symbol = "&&" ∨ symbol = "||") :
    r.regime.Follows n (Eval.logical self symbol operands frame line)
      (Eval.auditedLogical alarm self' symbol operands frame line) r.HasValue := by
  have hcount : operands.length = 2 := by
    rcases hlogical with rfl | rfl <;> simpa [takesOperands, binaryLevel?] using htakes
  obtain ⟨left, right, rfl⟩ : ∃ left right, operands = [left, right] := by
    rcases operands with _ | ⟨left, _ | ⟨right, _ | ⟨third, rest⟩⟩⟩
    · cases hcount
    · cases hcount
    · exact ⟨left, right, rfl⟩
    · cases hcount
  obtain ⟨p, hname, haccepts⟩ := hsymbol
  refine .bind (Regime.valueOf_lifts (h left (by simp))) fun stage a hstage ha => ?_
  have hrest : ∀ stage' b, stage ≤ stage' → r.HasValue stage' b →
      r.regime.Follows stage'
        (Eval.lookup frame symbol line >>= fun f => Eval.apply self f [a, b] line)
        (Eval.auditedLookup alarm frame symbol line >>= fun f =>
          Eval.auditedApply alarm self' symbol f [a, b] line) r.HasValue := by
    intro stage' b hlater hb
    have hframe := hframe.mono (Nat.le_trans hstage hlater)
    refine .bind (auditedLookup_follows hline hframe htakes ⟨p, hname⟩) fun last f hlast hf => ?_
    have hargs : r.regime.Values last [a, b] :=
      Regime.values_cons.2 ⟨ha.mono (Nat.le_trans hlater hlast),
        Regime.values_cons.2 ⟨hb.mono hlast, Regime.values_nil⟩⟩
    refine auditedApply_follows hcalls hline hf hargs fun p' hp' => ?_
    obtain rfl := Primitive.name_injective (hp'.trans hname.symm)
    exact haccepts
  dsimp only
  split
  · exact .bind (Regime.valueOf_lifts ((h right (by simp)).later hstage)) hrest
  · exact .bind (.pure fun stage' _ => r.regime.null stage') hrest

theorem auditedStrict_follows :
    r.regime.Follows n (Eval.strict self symbol operands frame line)
      (Eval.auditedStrict alarm self' symbol operands frame line) r.HasValue := by
  obtain ⟨p, hname, haccepts⟩ := hsymbol
  refine .bind (auditedLookup_follows hline hframe htakes ⟨p, hname⟩) fun stage f hstage hf => ?_
  refine .bind ((Regime.valuesOf_lifts (Regime.LiftsAt.forall_later h hstage)).and
    fun m args m' => Eval.length_of_valuesOnto) fun stage' args hlater hargs => ?_
  refine auditedApply_follows hcalls hline (hf.mono hlater) hargs.1 fun p' hp' => ?_
  obtain rfl := Primitive.name_injective (hp'.trans hname.symm)
  rwa [hargs.2]

end

theorem auditedOperation_follows (hcalls : r.regime.Calls self self')
    (hnode : (Node.operation symbol operands line).HasShape)
    (h : r.regime.Admits n self self' frame (.operation symbol operands line)) :
    r.regime.Follows n (Eval.operation self symbol operands frame line)
      (Eval.auditedOperation alarm self' symbol operands frame line) r.HasValue := by
  dsimp only [Node.HasShape] at hnode
  unfold Eval.operation Eval.auditedOperation
  by_cases hmember : symbol = "."
  · subst hmember
    exact Regime.access_lifts hcalls h.fits.line h.values (List.forall_mem_flatMap.1 h.members)
  · rw [if_neg hmember] at hnode
    obtain ⟨htakes, hsymbol⟩ := hnode
    split
    next hlogical =>
      refine auditedLogical_follows hcalls h.fits.line h.within h.values htakes hsymbol ?_
      simpa using hlogical
    next =>
      rw [if_neg (by simpa using hmember), if_neg (by simpa using hmember)]
      exact auditedStrict_follows hcalls h.fits.line h.within h.values htakes hsymbol

/-- **No alarm is raised** where programs reach. -/
theorem agree_audited (r : Reach) (alarm : Halt EvalCause) (fuel : Nat) :
    r.regime.Agree r.Part (Eval.evaluate fuel) (Eval.audited alarm fuel) := by
  induction fuel with
  | zero => exact r.covers.agree_exhausted
  | succ fuel ih =>
    intro n node frame hnode hframe
    have hadmits := r.covers.admits ih hnode hframe
    refine ⟨hadmits.fits, ?_⟩
    cases node with
    | operation symbol operands line =>
      exact Regime.value_follows
        (auditedOperation_follows (r.covers.calls ih) hnode.here.1.shape hadmits)
    | _ => exact r.covers.step ih fuel hnode hframe

end Reach

/-! ### Sessions -/

/-- Runs a text in a root frame, its nodes being evaluated by `self`. -/
def runSourceWith (self : Evaluator) (root : FrameId) (source : String) (m : Machine) :
    Except Failure Value × Machine :=
  match compile source with
  | .error halt => (.error (.rejected halt), m)
  | .ok nodes => resultOf (Eval.program self root .null nodes m)

/-- Runs texts one after the other.  One that fails does not keep the next from running. -/
def session (run : String → Machine → Except Failure Value × Machine) :
    List String → Machine → List (Except Failure Value) × Machine
  | [], m => ([], m)
  | source :: sources, m =>
    let first := run source m
    let rest := session run sources first.2
    (first.1 :: rest.1, rest.2)

section

variable {k : Regime} {good : Node → Prop} {self self' : Evaluator} {root : FrameId} {m : Machine}
  (hagree : k.Agree good self self') (hstrict : ¬ k.lenient)
  (hgood : ∀ source nodes, compile source = .ok nodes → ∀ node ∈ nodes, good node)
  (hroot : ∀ m, k.machine m → k.frame (k.stage m) root)
  (hhalt : ∀ halt m, k.halt halt m → k.machine m)
include hagree hstrict hgood hroot hhalt

/-- One text of a session. -/
theorem runSourceWith_agree (source : String) (hm : k.machine m) :
    runSourceWith self' root source m = runSourceWith self root source m ∧
      k.machine (runSourceWith self root source m).2 := by
  unfold runSourceWith
  split
  next => exact ⟨rfl, hm⟩
  next nodes hnodes =>
    have hprogram := hagree.program (hgood source nodes hnodes) (hroot m hm)
    have hsame := hprogram.same m hm (Nat.le_refl _) fun hlenient => absurd hlenient hstrict
    have hend := hprogram.meets m hm (Nat.le_refl _)
    refine ⟨congrArg resultOf hsame, ?_⟩
    unfold resultOf
    split
    next hresult =>
      rw [hresult] at hend
      exact hend.1
    next hresult =>
      rw [hresult] at hend
      exact hhalt _ _ hend

/-- **Evaluators that agree give the same sessions.** -/
theorem session_agree (sources : List String) (hm : k.machine m) :
    session (runSourceWith self' root) sources m = session (runSourceWith self root) sources m ∧
      k.machine (session (runSourceWith self root) sources m).2 := by
  induction sources generalizing m with
  | nil => exact ⟨rfl, hm⟩
  | cons source sources ih =>
    obtain ⟨hsame, hnext⟩ := runSourceWith_agree hagree hstrict hgood hroot hhalt source hm
    obtain ⟨hrest, hlast⟩ := ih hnext
    refine ⟨?_, hlast⟩
    simp only [session, hsame, hrest]

end

theorem Reach.part_of_compile {r : Reach} (hline : ∀ line, r.line line) (source : String)
    (nodes : List Node) (hnodes : compile source = .ok nodes) : ∀ node ∈ nodes, r.Part node :=
  fun node hnode =>
    (named_of_compile hnodes node hnode).mono fun node hwell => ⟨hwell, hline node.line⟩

theorem Reach.session_audited {r : Reach} (alarm : Halt EvalCause) (fuel : Nat)
    (sources : List String) {m : Machine} (hline : ∀ line, r.line line) (hm : r.Holds m.heap) :
    session (runSourceWith (Eval.audited alarm fuel) r.root) sources m
        = session (runSourceWith (Eval.evaluate fuel) r.root) sources m ∧
      r.Holds (session (runSourceWith (Eval.evaluate fuel) r.root) sources m).2.heap := by
  refine session_agree (r.agree_audited alarm fuel) id (part_of_compile hline) ?_ ?_ sources hm
  · exact fun m hm => r.hasFrame_root hm
  · exact fun halt m hhalt => hhalt.1

/-- **Operators cannot be redefined.**  Whatever texts are run one after the other in a new root
frame of whatever machine:

* no operator that is evaluated on the way gives reason for an alarm, with any fuel, and so in
  particular with the fuel of `runSourceIn`;
* in the end, from all frames made since, the symbols of operators other than `$list` are still
  looked up to their primitives;
* `$list`, which is a name, is always bound, and is looked up to its primitive exactly if the first
  frame on the chain that binds it does not rebind it.  So it is if no frame on the chain does; but
  one that does behind a nearer frame with the primitive changes nothing. -/
theorem operators_cannot_be_redefined (m : Machine) (sources : List String) (fuel : Nat) :
    let root := m.heap.standardRoot.1
    let start := { m with heap := m.heap.standardRoot.2 }
    let last := (session (runSourceWith (Eval.evaluate fuel) root) sources start).2.heap
    (∀ alarm, session (runSourceWith (Eval.audited alarm fuel) root) sources start
        = session (runSourceWith (Eval.evaluate fuel) root) sources start) ∧
    (∀ alarm, session (runSourceWith (Eval.audited alarm Eval.ampleFuel) root) sources start
        = session (runSourceIn root) sources start) ∧
    ∀ f, root ≤ f → f < last.frames.size →
      (∀ p : Primitive, ∀ count, takesOperands p.name count = true → p.name ≠ "$list" →
        last.lookup f p.name = some (.primitive p)) ∧
      (last.lookup f "$list").isSome = true ∧
      (last.lookup f "$list" = some (.primitive .list) ↔ last.listRebound f = false) ∧
      ((∀ g ∈ last.outward f, last.rebindsList g = false) → last.listRebound f = false) := by
  intro root start last
  let r := Reach.ofHeap m.heap fun _ => True
  have hstart : r.Holds start.heap := Reach.holds_standardRoot m.heap _
  have hsession := fun alarm fuel =>
    Reach.session_audited alarm fuel sources (fun _ => trivial) hstart
  have hlast : r.Holds last := (hsession .outOfFuel fuel).2
  refine ⟨fun alarm => (hsession alarm fuel).1, fun alarm => (hsession alarm Eval.ampleFuel).1,
    fun f hroot hf => ?_⟩
  obtain ⟨v, hv⟩ := hlast.lookup_list ⟨hroot, hf⟩
  refine ⟨fun p count htakes hlist => ?_, by rw [hv]; rfl, ?_, Heap.listRebound_eq_false⟩
  · exact hlast.lookup_symbol ⟨hroot, hf⟩ (Primitive.isSymbolic_of_takesOperands htakes hlist)
  · rw [hv, Option.some.injEq, ← Value.isOperator_iff]
    simp [Primitive.name, Heap.isOperator_of_lookup hv]

/-- A text that rebinds `$list`, and another that adds. -/
def rebinding : List String := ["var $list = 0", "1 + $list"]

theorem compile_rebinding :
    compile "var $list = 0" = .ok [.definition "$list" (.constant (.int 0) 1) 1] ∧
      compile "1 + $list"
        = .ok [.operation "+" [.constant (.int 1) 1, .reference "$list" 1] 1] := by
  have htokens : tokenize "var $list = 0" = .ok [⟨.name "var", 1⟩, ⟨.name "$list", 1⟩,
      ⟨.symbol "=", 1⟩, ⟨.int 0, 1⟩, ⟨.finish, 1⟩] := rfl
  have htokens' : tokenize "1 + $list" = .ok [⟨.int 1, 1⟩, ⟨.symbol "+", 1⟩,
      ⟨.name "$list", 1⟩, ⟨.finish, 1⟩] := rfl
  simp only [compile, htokens, htokens']
  exact ⟨rfl, rfl⟩

/-- After `$list` is rebound its literals change, and the operators do not. -/
theorem rebinding_leaves_operators :
    let m := Machine.start (.ofInput []) 0
    let last := (session (runSourceWith (Eval.evaluate 3) m.heap.standardRoot.1) rebinding
      { m with heap := m.heap.standardRoot.2 }).2.heap
    last.listRebound 0 = true ∧ last.lookup 0 "+" = some (.primitive .add) ∧
      last.lookup 0 "$list" ≠ some (.primitive .list) := by
  intro m last
  have hlast : last = m.heap.standardRoot.2.define 0 "$list" (.int 0) := by
    simp only [last, rebinding, session, runSourceWith, compile_rebinding]
    rfl
  obtain ⟨-, -, hframes⟩ := operators_cannot_be_redefined m rebinding 3
  have hsize : 0 < last.frames.size := by
    rw [hlast]
    decide
  have hrebound : last.listRebound 0 = true := by
    rw [hlast]
    decide +kernel
  obtain ⟨hlookup, -, hlist, -⟩ := hframes 0 (Nat.le_refl 0) hsize
  refine ⟨hrebound, hlookup .add 2 rfl (by decide), fun hkept => ?_⟩
  cases hrebound.symm.trans (hlist.1 hkept)

/-- A text that rebinds `$list` in the root frame, and gives it its primitive back in a block. -/
def shadowing : String :=
  "var p = $list\n$list = 0\nif true \x7b\n  var $list = p\n  print([1, 2])\n\x7d"

theorem compile_shadowing : compile shadowing = .ok
    [.definition "p" (.reference "$list" 1) 1,
      .assignment (.reference "$list" 2) (.constant (.int 0) 2) false 2,
      .conditional (.reference "true" 3) [.definition "$list" (.reference "p" 4) 4,
        .call (.reference "print" 5)
          [.operation "$list" [.constant (.int 1) 5, .constant (.int 2) 5] 5] 5] none 3] := by
  have htokens : tokenize shadowing = .ok [⟨.name "var", 1⟩, ⟨.name "p", 1⟩, ⟨.symbol "=", 1⟩,
      ⟨.name "$list", 1⟩, ⟨.newline, 1⟩, ⟨.name "$list", 2⟩, ⟨.symbol "=", 2⟩, ⟨.int 0, 2⟩,
      ⟨.newline, 2⟩, ⟨.name "if", 3⟩, ⟨.name "true", 3⟩, ⟨.symbol "\x7b", 3⟩, ⟨.newline, 3⟩,
      ⟨.name "var", 4⟩, ⟨.name "$list", 4⟩, ⟨.symbol "=", 4⟩, ⟨.name "p", 4⟩, ⟨.newline, 4⟩,
      ⟨.name "print", 5⟩, ⟨.symbol "(", 5⟩, ⟨.symbol "[", 5⟩, ⟨.int 1, 5⟩, ⟨.symbol ",", 5⟩,
      ⟨.int 2, 5⟩, ⟨.symbol "]", 5⟩, ⟨.symbol ")", 5⟩, ⟨.newline, 5⟩, ⟨.symbol "\x7d", 6⟩,
      ⟨.finish, 6⟩] := rfl
  simp only [compile, htokens]
  rfl

/-- **A rebinding behind a nearer frame is not met.**  The literal in the block is a list, and
`$list` is looked up to its primitive there, though the root frame on its chain rebinds the name. -/
theorem shadowed_rebinding_is_not_met :
    let m := Machine.start (.ofInput []) 0
    let last := (session (runSourceWith (Eval.evaluate 9) m.heap.standardRoot.1) [shadowing]
      { m with heap := m.heap.standardRoot.2 }).2
    last.host.output = "[1, 2]\n" ∧ last.heap.lookup 1 "$list" = some (.primitive .list) ∧
      ¬ ∀ g ∈ last.heap.outward 1, last.heap.rebindsList g = false := by
  intro m last
  have hlast : last = (session (runSourceWith (Eval.evaluate 9) m.heap.standardRoot.1) [shadowing]
      { m with heap := m.heap.standardRoot.2 }).2 := rfl
  simp only [session, runSourceWith, compile_shadowing] at hlast
  have hfound : (last.heap.lookup 1 "$list").any (Value.isOperator "$list") = true := by
    rw [hlast]
    decide +kernel
  obtain ⟨v, hv, hoperator⟩ := (Option.any_eq_true _ _).1 hfound
  refine ⟨?_, ?_, ?_⟩
  · rw [hlast]
    decide +kernel
  · rw [hv, (Value.isOperator_iff (p := .list)).1 hoperator]
  · rw [hlast]
    decide +kernel

/-- An alarm is raised in a frame that binds `+` to something else. -/
example (alarm : Halt EvalCause) (host : Host) :
    let heap := (Heap.empty.push ⟨[("+", .null)], none⟩).2
    Eval.audited alarm 2 (.operation "+" [.constant (.int 1) 1, .constant (.int 2) 1] 1) 0
      ⟨heap, host, 0, 0⟩ = .error alarm ⟨heap, host, 0, 0⟩ := rfl

end PairScript
