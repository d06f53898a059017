import PairScript.Proofs.Program.Operators
import PairScript.Proofs.Value.Lists

/-!
# Forms that stand for others

Two forms are read as other ones.  A definition without a value is read as one with the value of
the name `null`, and a list literal as the operator `$list`.  Both words are looked up when the form
is evaluated, in frames where programs may bind them to something else.

Where the first frame on the chain that binds the word has not rebound it, the forms do what they
stand for, whatever else programs have defined and assigned.  `Eval.hygienic` makes that show: it
evaluates like `Eval.evaluate`, but there it looks nothing up.  It binds `null` to the name and it
makes the list of the values of the elements, and it raises an alarm if the word is not bound to
what the form counts on.  `desugared_forms_are_hygienic` states that it makes no difference to any
run, whatever the alarm is.  In particular the words are always bound, for no program can take a
binding away from the root frame; and a list literal does not mind what its elements do to `$list`.

Where a word is rebound the forms follow it (`rebound_words_are_followed`).
-/

namespace PairScript

/-! ### Forms -/

/-- Whether a value is `null`. -/
def Value.isNull : Value → Bool
  | .null => true
  | _ => false

/-- A form that stands for another one. -/
inductive Form where
  /-- A definition without a value. -/
  | bare (name : String)
  /-- A list literal that is not empty. -/
  | list (elements : List Node)

namespace Form

/-- The word that a form is looked up by. -/
def word : Form → String
  | .bare _ => "null"
  | .list _ => "$list"

/-- Whether a value is what a form counts on. -/
def meant : Form → Value → Bool
  | .bare _, v => v.isNull
  | .list _, v => v.isOperator "$list"

/-- What a form stands for. -/
def run (self : Evaluator) (frame : FrameId) : Form → Eval Outcome
  | .bare name => do
    Eval.define frame name .null
    return .value .null
  | .list elements => do
    let values ← Eval.valuesOf self elements frame
    return .value (← Eval.onHeap (Heap.list values))

end Form

/-- The form that a node was read from. -/
def Node.form? : Node → Option Form
  | .definition name (.reference word _) _ => if word = "null" then some (.bare name) else none
  | .operation symbol elements _ => if symbol = "$list" then some (.list elements) else none
  | _ => none

namespace Heap

/-- Whether a frame itself binds the word of a form to something else. -/
def rebinds (h : Heap) (form : Form) (id : FrameId) : Bool :=
  (h.own? id form.word).any fun v => !form.meant v

/-- Whether the first frame on the chain that binds the word of a form rebinds it. -/
def rebound (h : Heap) (form : Form) (id : FrameId) : Bool :=
  ((h.outward id).find? (h.owns · form.word)).any (h.rebinds form)

end Heap

namespace Eval

/-- Evaluates a form as what it stands for, unless its word is rebound. -/
def hygienicForm (alarm : Halt EvalCause) (self : Evaluator) (form : Form) (frame : FrameId)
    (otherwise : Eval Outcome) : Eval Outcome := fun m =>
  if m.heap.rebound form frame then otherwise m
  else if (m.heap.lookup frame form.word).any form.meant then form.run self frame m
  else .error alarm m

/-- Evaluates a node in a frame like `Eval.evaluate`, the forms being what they stand for.  With
fuel for one level only, there is none for their parts. -/
def hygienic (alarm : Halt EvalCause) : (fuel : Nat) → Evaluator
  | 0, _, _ => exhausted
  | 1, node, frame => step 0 (hygienic alarm 0) node frame
  | fuel + 2, node, frame =>
    match node.form? with
    | some form =>
      hygienicForm alarm (hygienic alarm (fuel + 1)) form frame
        (step (fuel + 1) (hygienic alarm (fuel + 1)) node frame)
    | none => step (fuel + 1) (hygienic alarm (fuel + 1)) node frame

end Eval

/-! ### Words -/

namespace Heap

variable {h : Heap} {id : FrameId} {form : Form} {v : Value}

/-- A word is looked up to what its form counts on exactly if it is not rebound. -/
theorem meant_of_lookup (hfound : h.lookup id form.word = some v) :
    form.meant v = !h.rebound form id := by
  obtain ⟨⟨owner, found⟩, hresolve, rfl⟩ := Option.map_eq_some_iff.1 hfound
  rw [rebound, outward, find?_outwardWithin hresolve]
  simp [rebinds, own?_of_resolveWithin hresolve]

/-- It takes a frame on the chain to rebind a word. -/
theorem rebound_eq_false (hchain : ∀ g ∈ h.outward id, h.rebinds form g = false) :
    h.rebound form id = false := by
  unfold rebound
  cases hfound : (h.outward id).find? (h.owns · form.word) with
  | none => rfl
  | some g => exact hchain g (List.mem_of_find?_eq_some hfound)

end Heap

theorem Value.isNull_iff {v : Value} : v.isNull = true ↔ v = .null := by
  cases v <;> simp [isNull]

/-! ### Keeping more -/

/-- A property of heaps that evaluation keeps, whatever it does to frames. -/
structure Heap.Kept (P : Heap → Prop) : Prop where
  frames : ∀ {h h' : Heap}, P h → h'.frames = h.frames → P h'
  bind : ∀ {h : Heap} {parent : FrameId} {names : List String} {values : List Value}, P h →
    P (h.bind parent names values).2
  define : ∀ {h : Heap} {f : FrameId} {name : String} {v : Value}, P h → P (h.define f name v)

theorem Heap.Kept.assign {P : Heap → Prop} (hP : Kept P) {h : Heap} {f : FrameId} {name : String}
    {v : Value} (hh : P h) : P (h.assign f name v).2 := by
  unfold Heap.assign
  split
  next => exact hP.define hh
  next => exact hh

namespace Regime

variable {k : Regime} {P : Heap → Prop} {good : Node → Prop}

/-- A regime in which such a property holds too. -/
def keeping (k : Regime) (hP : Heap.Kept P) : Regime where
  machine m := k.machine m ∧ P m.heap
  halt halt m := k.halt halt m ∧ P m.heap
  stage := k.stage
  value := k.value
  frame := k.frame
  closureId := k.closureId
  binds := k.binds
  name := k.name
  line := k.line
  lenient := k.lenient
  value_mono := k.value_mono
  frame_mono := k.frame_mono
  byParts := k.byParts
  closures := k.closures
  fault hm hline := ⟨k.fault hm.1 hline, hm.2⟩
  host host hm := by
    obtain ⟨hm', hstage⟩ := k.host host hm.1
    exact ⟨⟨hm', hm.2⟩, hstage⟩
  cells n hm := by
    obtain ⟨hm', hstage⟩ := k.cells n hm.1
    exact ⟨⟨hm', hP.frames hm.2 rfl⟩, hstage⟩
  closure hm := by
    obtain ⟨⟨hm', hstage⟩, hid⟩ := k.closure hm.1
    exact ⟨⟨⟨hm', hP.frames hm.2 rfl⟩, hstage⟩, hid⟩
  member hm := k.member hm.1
  members hbefore hnone hm hid hf := by
    obtain ⟨hm', hstage⟩ := k.members hbefore.1 hnone hm.1 hid hf
    exact ⟨⟨hm', hP.frames hm.2 rfl⟩, hstage⟩
  bind hm hparent hnames hvalues := by
    obtain ⟨⟨hm', hstage⟩, hown⟩ := k.bind hm.1 hparent hnames hvalues
    exact ⟨⟨⟨hm', hP.bind hm.2⟩, hstage⟩, hown⟩
  define hm hf hname hv := by
    obtain ⟨hm', hstage⟩ := k.define hm.1 hf hname hv
    exact ⟨⟨hm', hP.define hm.2⟩, hstage⟩
  assign hm hf hname hv := by
    obtain ⟨hm', hstage⟩ := k.assign hm.1 hf hname hv
    exact ⟨⟨hm', hP.assign hm.2⟩, hstage⟩
  lookup hm := k.lookup hm.1

theorem Covers.keeping (h : k.Covers good) (hP : Heap.Kept P) : (k.keeping hP).Covers good where
  fits hnode := ⟨(h.fits hnode).line, (h.fits hnode).names⟩
  values := h.values
  statements := h.statements
  binds := h.binds
  literal := h.literal
  body := h.body
  depth depth hm := by
    obtain ⟨hm', hstage⟩ := h.depth depth hm.1
    exact ⟨⟨hm', hm.2⟩, hstage⟩
  halt depth hm := ⟨h.halt depth hm.1, hm.2⟩
  fuel hm := ⟨h.fuel hm.1, hm.2⟩

end Regime

/-! ### Words are bound -/

namespace Reach

variable {r : Reach} {h : Heap} {f : FrameId}

/-- The outermost frames that programs reach bind a name. -/
def Roots (r : Reach) (name : String) (h : Heap) : Prop :=
  ∀ f, r.HasFrame h.frames.size f → h.parent? f = none → h.owns f name = true

theorem roots_kept (r : Reach) (name : String) : Heap.Kept (r.Roots name) where
  frames {h h'} hh hframes := by
    intro f hf hparent
    rw [hframes] at hf
    unfold Heap.parent? at hparent
    rw [hframes] at hparent
    unfold Heap.owns
    rw [hframes]
    exact hh f hf hparent
  bind {h parent names values} hh := by
    intro f hf hparent
    have hsize : (h.bind parent names values).2.frames.size = h.frames.size + 1 := by
      simp [Heap.bind, Heap.push]
    have hlt : f < h.frames.size + 1 := hsize ▸ hf.2
    rcases Nat.lt_or_eq_of_le (Nat.le_of_lt_succ hlt) with hold | rfl
    · rw [Heap.bind, Heap.parent?_push _ hold] at hparent
      rw [Heap.bind, Heap.owns_push _ hold]
      exact hh f ⟨hf.1, hold⟩ hparent
    · rw [Heap.bind, Heap.parent?_push_new] at hparent
      cases hparent
  define hh := by
    intro f hf hparent
    rw [Heap.size_define] at hf
    rw [Heap.parent?_define] at hparent
    exact Heap.owns_define.2 (.inl (hh f hf hparent))

theorem roots_standardRoot (h : Heap) (line : Nat → Prop) :
    (ofHeap h line).Roots "null" h.standardRoot.2 := by
  intro f hf _
  have hsize : h.standardRoot.2.frames.size = h.frames.size + 1 := by
    simp [Heap.standardRoot, Heap.push]
  have hlt : f < h.frames.size + 1 := hsize ▸ hf.2
  obtain rfl : f = h.frames.size := Nat.le_antisymm (Nat.le_of_lt_succ hlt) hf.1
  rw [Heap.owns_iff_own?, Heap.standardRoot, Heap.own?_push_new]
  exact ⟨.null, rfl⟩

/-- The words of forms are found from everywhere, bound to something. -/
theorem Holds.lookup_word (hh : r.Holds h) (hroots : r.Roots "null" h) (form : Form)
    (hf : r.HasFrame h.frames.size f) : ∃ v, h.lookup f form.word = some v := by
  cases form with
  | bare name =>
    obtain ⟨owner, v, hresolve⟩ := hh.resolves hroots hf (Nat.lt_succ_self f)
    exact ⟨v, by rw [Form.word, Heap.lookup, Heap.resolve, hresolve]; rfl⟩
  | list elements => exact hh.lookup_list hf

/-- The regime of programs, in which `null` stays bound. -/
def hygiene (r : Reach) : Regime := r.regime.keeping (r.roots_kept "null")

theorem hygiene_covers (r : Reach) : r.hygiene.Covers r.Part :=
  r.covers.keeping (r.roots_kept "null")

end Reach

/-! ### What forms do -/

/-- The nodes that are forms. -/
theorem Node.form_cases {node : Node} {form : Form} (h : node.form? = some form) :
    (∃ name line line', node = .definition name (.reference "null" line) line' ∧
        form = .bare name) ∨
      ∃ elements line, node = .operation "$list" elements line ∧ form = .list elements := by
  unfold Node.form? at h
  split at h
  next name word line line' =>
    split at h
    next hword =>
      cases h
      exact .inl ⟨name, line, line', by rw [hword], rfl⟩
    next => cases h
  next symbol elements line =>
    split at h
    next hsymbol =>
      cases h
      exact .inr ⟨elements, line, by rw [hsymbol], rfl⟩
    next => cases h
  next => cases h

namespace Form

variable {frame : FrameId} {m : Machine} {line line' bound fuel : Nat}

/-- A definition without a value binds `null` where that is not rebound. -/
theorem step_bare {name : String} (h : m.heap.lookup frame "null" = some .null) :
    Eval.step bound (Eval.evaluate (fuel + 1)) (.definition name (.reference "null" line) line')
      frame m = run (Eval.evaluate (fuel + 1)) frame (.bare name) m := by
  have hnull : Eval.evaluate (fuel + 1) (.reference "null" line) frame m = .ok (.value .null) m :=
    Eval.bind_of_ok (Eval.lookup_of_some h)
  have hvalue : Eval.valueOf (Eval.evaluate (fuel + 1)) (.reference "null" line) frame m
      = .ok .null m :=
    Eval.bind_of_ok hnull
  exact Eval.bind_of_ok hvalue

/-- A list literal makes the list of the values of its elements where `$list` is not rebound when
its evaluation begins. -/
theorem step_list {self : Evaluator} {elements : List Node}
    (h : m.heap.lookup frame "$list" = some (.primitive .list)) :
    Eval.step bound self (.operation "$list" elements line) frame m =
      run self frame (.list elements) m := by
  have hstrict : Eval.strict self "$list" elements frame line m =
      (Eval.valuesOf self elements frame >>= fun values => Eval.onHeap (Heap.list values)) m :=
    Eval.bind_of_ok (Eval.lookup_of_some h)
  have hassoc := bind_assoc (m := Eval) (Eval.valuesOf self elements frame)
    (fun values => Eval.onHeap (Heap.list values)) fun v => pure (Outcome.value v)
  show EStateM.bind (Eval.strict self "$list" elements frame line) _ m = _
  rw [EStateM.bind, hstrict]
  exact congrFun hassoc m

/-- A form does what it stands for where its word is bound to what it counts on. -/
theorem step_eq_run {form : Form} {node : Node} {v : Value} (hform : node.form? = some form)
    (hfound : m.heap.lookup frame form.word = some v) (hmeant : form.meant v = true) :
    Eval.step bound (Eval.evaluate (fuel + 1)) node frame m =
      form.run (Eval.evaluate (fuel + 1)) frame m := by
  rcases Node.form_cases hform with ⟨name, line, line', rfl, rfl⟩ | ⟨elements, line, rfl, rfl⟩
  · exact step_bare (Value.isNull_iff.1 hmeant ▸ hfound)
  · exact step_list (Value.isOperator_iff (p := .list).1 hmeant ▸ hfound)

end Form

/-- What a form stands for keeps to a regime that its parts keep to. -/
theorem Regime.Admits.run_follows {k : Regime} {n : Nat} {self self' : Evaluator} {frame : FrameId}
    {node : Node} {form : Form} (h : k.Admits n self self' frame node)
    (hform : node.form? = some form) :
    k.Follows n (form.run self frame) (form.run self' frame) k.outcome := by
  rcases Node.form_cases hform with ⟨name, line, line', rfl, rfl⟩ | ⟨elements, line, rfl, rfl⟩
  · have hdefine := Regime.define_meets h.within (h.binds name _ line' rfl) (k.null n)
    exact .bind hdefine.self fun _ _ _ _ => .pure fun stage _ => k.null stage
  · exact .bind (Regime.valuesOf_lifts h.values) fun _ _ _ hvalues =>
      Regime.value_follows (Regime.list_meets hvalues).self

/-! ### No difference -/

namespace Reach

/-- **Forms do what they stand for** where programs reach, and no alarm is raised. -/
theorem agree_hygienic (r : Reach) (alarm : Halt EvalCause) (fuel : Nat) :
    r.hygiene.Agree r.Part (Eval.evaluate fuel) (Eval.hygienic alarm fuel) := by
  induction fuel with
  | zero => exact r.hygiene_covers.agree_exhausted
  | succ fuel ih =>
    intro n node frame hnode hframe
    have hadmits := r.hygiene_covers.admits ih hnode hframe
    have hstep := r.hygiene_covers.step ih fuel hnode hframe
    refine ⟨hadmits.fits, ?_⟩
    cases fuel with
    | zero => exact hstep
    | succ fuel =>
      cases hform : node.form? with
      | none =>
        have hplain : Eval.hygienic alarm (fuel + 2) node frame
            = Eval.step (fuel + 1) (Eval.hygienic alarm (fuel + 1)) node frame := by
          simp only [Eval.hygienic, hform]
        rw [hplain]
        exact hstep
      | some form =>
        have hformed : Eval.hygienic alarm (fuel + 2) node frame
            = Eval.hygienicForm alarm (Eval.hygienic alarm (fuel + 1)) form frame
              (Eval.step (fuel + 1) (Eval.hygienic alarm (fuel + 1)) node frame) := by
          simp only [Eval.hygienic, hform]
        rw [hformed]
        refine ⟨hstep.meets, fun m hm hn hfinishes => ?_⟩
        unfold Eval.hygienicForm
        split
        next => exact hstep.same m hm hn hfinishes
        next hkept =>
          obtain ⟨v, hfound⟩ := hm.1.lookup_word hm.2 form (hframe.mono hn)
          have hmeant : form.meant v = true := by
            rw [Heap.meant_of_lookup hfound]
            simpa using hkept
          rw [if_pos (by rw [hfound]; exact hmeant)]
          have hrun := (hadmits.run_follows hform).same m hm hn nofun
          exact hrun.trans (Form.step_eq_run hform hfound hmeant).symm

end Reach

/-! ### Sessions -/

theorem Reach.session_hygienic {r : Reach} (alarm : Halt EvalCause) (fuel : Nat)
    (sources : List String) {m : Machine} (hline : ∀ line, r.line line)
    (hm : r.hygiene.machine m) :
    session (runSourceWith (Eval.hygienic alarm fuel) r.root) sources m
        = session (runSourceWith (Eval.evaluate fuel) r.root) sources m ∧
      r.hygiene.machine (session (runSourceWith (Eval.evaluate fuel) r.root) sources m).2 := by
  refine session_agree (r.agree_hygienic alarm fuel) id (part_of_compile hline) ?_ ?_ sources hm
  · exact fun m hm => r.hasFrame_root hm.1
  · exact fun halt m hhalt => ⟨hhalt.1.1, hhalt.2⟩

/-! ### Reading forms -/

namespace Parser

variable {self : Self} {bound line : Nat} {t : Token} {ts rest : List Token}

theorem variableDefinition_bare {name : String} (hkind : t.kind = .name name)
    (hfree : isKeyword name = false) (hbare : Grammar.NotNext (·.isSymbol "=") rest) :
    ∃ node, variableDefinition self line (t :: rest) = .ok node rest ∧
      node.form? = some (.bare name) := by
  refine ⟨.definition name (.reference "null" line) line, ?_, rfl⟩
  refine bind_eq_ok.2 ⟨name, rest, identifier_eq_ok.2 ⟨t, rfl, hkind, hfree⟩, ?_⟩
  exact bind_eq_ok.2 ⟨false, rest, skipIf_eq_ok.2 (.inr ⟨rfl, rfl, hbare⟩), rfl⟩

theorem operand_list {first : Bool} {elements : List Node} (hkind : t.kind = .symbol "[")
    (hlist : commaSeparated bound (self (.run .element)) "]" ts = .ok elements rest)
    (hsome : elements ≠ []) :
    ∃ node, operand bound self first (t :: ts) = .ok node rest ∧
      node.form? = some (.list elements) := by
  have hsome : elements.isEmpty = false := by simpa using hsome
  refine ⟨.operation "$list" elements t.line, ?_, rfl⟩
  simp only [operand, get_bind, set_bind, hkind]
  refine bind_eq_ok.2 ⟨elements, rest, hlist, ?_⟩
  rw [hsome]
  rfl

end Parser

/-! ### Forms in sessions -/

/-- **Forms do what they stand for, unless their words are rebound.**  A definition without a value
and a list literal are read as forms.  Whatever texts are run one after the other in a new root
frame of whatever machine:

* it makes no difference, and gives no reason for an alarm, to evaluate the forms as what they stand
  for wherever their words are not rebound, with any fuel, and so in particular with the fuel of
  `runSourceIn`;
* in the end, from all frames made since, the words of forms are bound to what the forms count on
  exactly if they are not rebound, which takes a frame on the chain that rebinds them.

What a list literal stands for is the well-formed list of the values of its elements. -/
theorem desugared_forms_are_hygienic (m : Machine) (sources : List String) (fuel : Nat) :
    let root := m.heap.standardRoot.1
    let start := { m with heap := m.heap.standardRoot.2 }
    let last := (session (runSourceWith (Eval.evaluate fuel) root) sources start).2.heap
    (∀ alarm, session (runSourceWith (Eval.hygienic alarm fuel) root) sources start
        = session (runSourceWith (Eval.evaluate fuel) root) sources start) ∧
    (∀ alarm, session (runSourceWith (Eval.hygienic alarm Eval.ampleFuel) root) sources start
        = session (runSourceIn root) sources start) ∧
    (∀ f (form : Form), root ≤ f → f < last.frames.size →
      ((last.lookup f form.word).any form.meant = true ↔ last.rebound form f = false) ∧
      ((∀ g ∈ last.outward f, last.rebinds form g = false) → last.rebound form f = false)) ∧
    (∀ (values : List Value) (h : Heap), (h.list values).1.elements? = some values) ∧
    (∀ (self : Parser.Self) (line : Nat) (t : Token) (rest : List Token) (name : String),
      t.kind = .name name → isKeyword name = false → Grammar.NotNext (·.isSymbol "=") rest →
      ∃ node, Parser.variableDefinition self line (t :: rest) = .ok node rest ∧
        node.form? = some (.bare name)) ∧
    ∀ (self : Parser.Self) (bound : Nat) (first : Bool) (t : Token) (ts rest : List Token)
      (elements : List Node), t.kind = .symbol "[" →
      Parser.commaSeparated bound (self (.run .element)) "]" ts = .ok elements rest →
      elements ≠ [] →
      ∃ node, Parser.operand bound self first (t :: ts) = .ok node rest ∧
        node.form? = some (.list elements) := by
  intro root start last
  let r := Reach.ofHeap m.heap fun _ => True
  have hstart : r.hygiene.machine start :=
    ⟨Reach.holds_standardRoot m.heap _, Reach.roots_standardRoot m.heap _⟩
  have hsession := fun alarm fuel =>
    Reach.session_hygienic alarm fuel sources (fun _ => trivial) hstart
  have hlast : r.Holds last := (hsession .outOfFuel fuel).2.1
  have hroots : r.Roots "null" last := (hsession .outOfFuel fuel).2.2
  refine ⟨fun alarm => (hsession alarm fuel).1, fun alarm => (hsession alarm Eval.ampleFuel).1,
    fun f form hroot hf => ⟨?_, Heap.rebound_eq_false⟩, Heap.elements?_list,
    fun _ _ _ _ _ => Parser.variableDefinition_bare, fun _ _ _ _ _ _ _ => Parser.operand_list⟩
  obtain ⟨v, hv⟩ := hlast.lookup_word hroots form ⟨hroot, hf⟩
  rw [hv, Option.any_some, Heap.meant_of_lookup hv, Bool.not_eq_true']

/-- Two texts in which the words of forms are not rebound. -/
def plainForms : List String := ["var x", "[x]"]

theorem compile_plainForms :
    compile "var x" = .ok [.definition "x" (.reference "null" 1) 1] ∧
      compile "[x]" = .ok [.operation "$list" [.reference "x" 1] 1] := by
  have htokens : tokenize "var x" = .ok [⟨.name "var", 1⟩, ⟨.name "x", 1⟩, ⟨.finish, 1⟩] := rfl
  have htokens' : tokenize "[x]" = .ok [⟨.symbol "[", 1⟩, ⟨.name "x", 1⟩, ⟨.symbol "]", 1⟩,
      ⟨.finish, 1⟩] := rfl
  simp only [compile, htokens, htokens']
  exact ⟨rfl, rfl⟩

/-- After a definition without a value the name is `null`, and so is the word still. -/
theorem plainForms_are_hygienic :
    let m := Machine.start (.ofInput []) 0
    let last := (session (runSourceWith (Eval.evaluate 3) m.heap.standardRoot.1) plainForms
      { m with heap := m.heap.standardRoot.2 }).2.heap
    last.lookup 0 "x" = some .null ∧ last.rebound (.bare "x") 0 = false ∧
      (last.lookup 0 "null").any Value.isNull = true := by
  intro m last
  have hlast : last = { m.heap.standardRoot.2.define 0 "x" .null with nextCell := 1 } := by
    simp only [last, plainForms, session, runSourceWith, compile_plainForms]
    rfl
  obtain ⟨-, -, hframes, -⟩ := desugared_forms_are_hygienic m plainForms 3
  have hsize : 0 < last.frames.size := by
    rw [hlast]
    decide
  have hkept : last.rebound (.bare "x") 0 = false := by
    rw [hlast]
    decide +kernel
  refine ⟨by rw [hlast]; rfl, hkept, ?_⟩
  exact (hframes 0 (.bare "x") (Nat.le_refl 0) hsize).1.2 hkept

theorem compile_rebinding_null :
    compile "null = 5\nvar x\nx" = .ok [.assignment (.reference "null" 1) (.constant (.int 5) 1)
      false 1, .definition "x" (.reference "null" 2) 2, .reference "x" 3] := by
  have htokens : tokenize "null = 5\nvar x\nx" = .ok [⟨.name "null", 1⟩, ⟨.symbol "=", 1⟩,
      ⟨.int 5, 1⟩, ⟨.newline, 1⟩, ⟨.name "var", 2⟩, ⟨.name "x", 2⟩, ⟨.newline, 2⟩, ⟨.name "x", 3⟩,
      ⟨.finish, 3⟩] := rfl
  simp only [compile, htokens]
  rfl

theorem compile_rebinding_list :
    compile "func $list(a) \x7b return a \x7d\n[1]" = .ok [.definition "$list" (.function
      (some "$list") ["a"] [.giveBack (some (.reference "a" 1)) 1] 1) 1,
      .operation "$list" [.constant (.int 1) 2] 2] := by
  have htokens : tokenize "func $list(a) \x7b return a \x7d\n[1]" = .ok [⟨.name "func", 1⟩,
      ⟨.name "$list", 1⟩, ⟨.symbol "(", 1⟩, ⟨.name "a", 1⟩, ⟨.symbol ")", 1⟩, ⟨.symbol "\x7b", 1⟩,
      ⟨.name "return", 1⟩, ⟨.name "a", 1⟩, ⟨.symbol "\x7d", 1⟩, ⟨.newline, 1⟩, ⟨.symbol "[", 2⟩,
      ⟨.int 1, 2⟩, ⟨.symbol "]", 2⟩, ⟨.finish, 2⟩] := rfl
  simp only [compile, htokens]
  rfl

/-- **Forms follow words that are rebound.**  A definition without a value binds 5 after `null` was
assigned 5, and a list literal is a call after `$list` was defined as a function. -/
theorem rebound_words_are_followed :
    (runSource "null = 5\nvar x\nx" (Machine.start (.ofInput []) defaultLimit)).1.toOption.map
        Value.text = some "5" ∧
      (runSource "func $list(a) \x7b return a \x7d\n[1]"
        (Machine.start (.ofInput []) defaultLimit)).1.toOption.map Value.text = some "1" := by
  rw [runSource, compile_rebinding_null, runSource, compile_rebinding_list]
  constructor
  · decide +kernel
  · decide +kernel

end PairScript
