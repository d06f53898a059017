import PairScript.Proofs.Eval.Disciplined
import PairScript.Proofs.Eval.Reach
import PairScript.Proofs.Parse.Lines
import PairScript.Proofs.Token.Lines

/-!
# Faults are blamed on lines of the text

A text with `n` line breaks has the lines from 1 to `n + 1`.  Every fault of a text that is run in a
root frame of its own, whether it is raised by reading the text or by running it, is blamed on one
of them (`fault_on_line_of_text`).

* The tokens of a text stand on its lines, and so does a literal that cannot be read.
* Reading keeps to the lines of the tokens (`PairScript.Proofs.Parse.Lines`), and always ends.
* Running a program reaches the closures of the program only, and blames faults on the lines of
  their nodes (`PairScript.Proofs.Eval.Reach`).
-/

namespace PairScript

/-- A line of a text. -/
def InText (source : String) (line : Nat) : Prop :=
  1 ≤ line ∧ line ≤ 1 + Token.lineBreaks source.toList

instance (source : String) : DecidablePred (InText source) :=
  fun _ => inferInstanceAs (Decidable (_ ∧ _))

/-- A text that ends in a line break has one more line, which is empty. -/
example : InText "null\n" 2 ∧ ¬ InText "null\n" 3 ∧ ¬ InText "null\n" 0 := by decide

/-- The line that a failure is blamed on. -/
def Failure.line? : Failure → Option Nat
  | .rejected (.fault f) => some f.line
  | .aborted (.fault f) => some f.line
  | .rejected .outOfFuel => none
  | .aborted .outOfFuel => none

/-! ### Tokens -/

/-- The segments of a text are its beginning. -/
theorem Segment.flatMap_text_isPrefix (bound : Nat) (cs : List Char) :
    (splitWithin bound cs).1.flatMap Segment.text <+: cs := by
  induction bound generalizing cs with
  | zero => cases cs <;> exact List.nil_prefix
  | succ bound ih =>
    cases cs with
    | nil => exact List.nil_prefix
    | cons c r =>
      simp only [splitWithin]
      cases hnext : next c r with
      | error f => exact List.nil_prefix
      | ok found =>
        obtain ⟨s, rest⟩ := found
        rw [List.flatMap_cons, ← (next_text hnext).1]
        exact (List.prefix_append_right_inj s.text).2 (ih rest)

/-- The line after all segments of a text. -/
theorem inText_last (source : String) :
    InText source (Token.place 1 true (Segment.split source.toList).1).2 := by
  obtain ⟨rest, hrest⟩ := Segment.flatMap_text_isPrefix source.toList.length source.toList
  have hcount := congrArg Token.lineBreaks hrest
  simp only [Token.lineBreaks, List.count_append] at hcount
  rw [Token.place_line]
  unfold InText Segment.split Token.lineBreaks
  omega

/-- **The tokens of a text stand on its lines**, the last of them marking its end, and a literal
that cannot be read stands on one of them. -/
theorem tokenize_inText (source : String) :
    match tokenize source with
    | .ok tokens => Marked (InText source) tokens
    | .error f => InText source f.line := by
  have hlast := inText_last source
  rw [tokenize_eq_place]
  dsimp only
  cases (Segment.split source.toList).2 with
  | some f => exact hlast
  | none =>
    refine ⟨fun t ht => ?_, by simp [Token.isFinish]⟩
    rcases List.mem_append.1 ht with ht | ht
    · obtain ⟨hfirst, hline⟩ := Token.line_of_mem_place ht
      exact ⟨hfirst, Nat.le_trans hline hlast.2⟩
    · obtain rfl := List.mem_singleton.1 ht
      exact hlast

/-! ### Programs -/

/-- **Reading a text ends**, with a program on its lines or a fault on one of them. -/
theorem compile_inText (source : String) :
    match compile source with
    | .ok nodes => ∀ node ∈ nodes, node.Lined (InText source)
    | .error (.fault f) => InText source f.line
    | .error .outOfFuel => False := by
  have htokens := tokenize_inText source
  unfold compile
  cases htokenize : tokenize source with
  | error f =>
    rw [htokenize] at htokens
    exact htokens
  | ok tokens =>
    rw [htokenize] at htokens
    exact parse_lined htokens

/-- **Running a text blames faults on its lines**, with any fuel and on any machine. -/
theorem runFreshWithin_inText {source : String} {nodes : List Node}
    (h : compile source = .ok nodes) {fuel : Nat} {m m' : Machine} {f : EvalFault}
    (hrun : Eval.runFreshWithin fuel nodes m = .error (.fault f) m') : InText source f.line := by
  let r := Reach.ofHeap m.heap (InText source)
  let start : Machine := { m with heap := m.heap.standardRoot.2 }
  have hstart : r.Holds start.heap := Reach.holds_standardRoot m.heap _
  have hlined := compile_inText source
  rw [h] at hlined
  have hparts : ∀ node ∈ nodes, r.Part node :=
    fun node hnode => (named_of_compile h node hnode).and (hlined node hnode)
  have hprogram := (r.covers.agree fuel).program hparts (r.hasFrame_root hstart)
  have hend := hprogram.meets start hstart (Nat.le_refl _)
  have hresult : Eval.program (Eval.evaluate fuel) r.root .null nodes start
      = .error (.fault f) m' := hrun
  rw [hresult] at hend
  exact hend.2 f rfl

theorem runSource_eq_error {source : String} {m m' : Machine} {failure : Failure}
    (h : runSource source m = (.error failure, m')) :
    (∃ halt, compile source = .error halt ∧ failure = .rejected halt) ∨
      ∃ nodes halt, compile source = .ok nodes ∧ failure = .aborted halt ∧
        Eval.runFreshWithin Eval.ampleFuel nodes m = .error halt m' := by
  unfold runSource at h
  split at h
  next halt hcompile =>
    cases h
    exact .inl ⟨halt, hcompile, rfl⟩
  next nodes hcompile =>
    rw [Eval.runFresh_eq] at h
    match hresult : Eval.runFreshWithin Eval.ampleFuel nodes m with
    | .ok v m'' =>
      rw [hresult] at h
      cases h
    | .error halt m'' =>
      rw [hresult] at h
      cases h
      exact .inr ⟨nodes, halt, hcompile, rfl, hresult⟩

/-- **Every fault is blamed on a line of the text.**

* A text that is not a program has a fault on one of its lines; no bound is in the way.
* All nodes of a program are on lines of its text, and so are the faults of its runs in a new root
  frame, with any fuel and on any machine.
* So a text that is run in a root frame of its own fails on one of its lines, unless the bound on the
  computation is reached. -/
theorem fault_on_line_of_text (source : String) (m : Machine) :
    (∀ halt, compile source = .error halt → ∃ f, halt = .fault f ∧ InText source f.line) ∧
    (∀ nodes, compile source = .ok nodes →
      (∀ node ∈ nodes, node.Everywhere fun part => InText source part.line) ∧
      ∀ fuel f m', Eval.runFreshWithin fuel nodes m = .error (.fault f) m' →
        InText source f.line) ∧
    ∀ failure m', runSource source m = (.error failure, m') →
      failure = .aborted .outOfFuel ∨
        ∃ line, failure.line? = some line ∧ InText source line := by
  have hrejected : ∀ halt, compile source = .error halt →
      ∃ f, halt = .fault f ∧ InText source f.line := by
    intro halt h
    have hlined := compile_inText source
    rw [h] at hlined
    cases halt with
    | fault f => exact ⟨f, rfl, hlined⟩
    | outOfFuel => exact hlined.elim
  refine ⟨hrejected, fun nodes h => ⟨?_, fun fuel f m' => runFreshWithin_inText h⟩,
    fun failure m' hrun => ?_⟩
  · have hlined := compile_inText source
    rwa [h] at hlined
  · rcases runSource_eq_error hrun with ⟨halt, h, rfl⟩ | ⟨nodes, halt, h, rfl, hprogram⟩
    · obtain ⟨f, rfl, hline⟩ := hrejected halt h
      exact .inr ⟨f.line, rfl, hline⟩
    · cases halt with
      | fault f => exact .inr ⟨f.line, rfl, runFreshWithin_inText h hprogram⟩
      | outOfFuel => exact .inl rfl

/-- Two texts that fail on their second lines, one as it is read and one as it is run. -/
theorem fault_on_second_line :
    (∃ f, compile "\n(" = .error (.fault f) ∧ f.line = 2 ∧ InText "\n(" f.line) ∧
    ∃ m, runSource "\nnull.x" (Machine.start (.ofInput []) 0)
        = (.error (.aborted (.fault ⟨.unknownReference "x", 2⟩)), m) ∧ InText "\nnull.x" 2 := by
  have hgroup : compile "\n(" = .error (.fault ⟨.unexpectedEnd, 2⟩) := by
    have htokens : tokenize "\n(" = .ok [⟨.symbol "(", 2⟩, ⟨.finish, 2⟩] := rfl
    simp only [compile, htokens]
    rfl
  have haccess : compile "\nnull.x"
      = .ok [.operation "." [.reference "null" 2, .reference "x" 2] 2] := by
    have htokens : tokenize "\nnull.x" = .ok [⟨.name "null", 2⟩, ⟨.symbol ".", 2⟩,
        ⟨.name "x", 2⟩, ⟨.finish, 2⟩] := rfl
    simp only [compile, htokens]
    rfl
  have hrun : ∃ m, runSource "\nnull.x" (Machine.start (.ofInput []) 0)
      = (.error (.aborted (.fault ⟨.unknownReference "x", 2⟩)), m) := by
    simp only [runSource, haccess]
    exact ⟨_, rfl⟩
  obtain ⟨m, hrun⟩ := hrun
  constructor
  · obtain ⟨f, hf, hline⟩ :=
      (fault_on_line_of_text "\n(" (Machine.start (.ofInput []) 0)).1 _ hgroup
    cases hf
    exact ⟨_, hgroup, rfl, hline⟩
  · refine ⟨m, hrun, ?_⟩
    have hfails := (fault_on_line_of_text "\nnull.x" (Machine.start (.ofInput []) 0)).2.2 _ m hrun
    obtain hfuel | ⟨line, hblamed, hline⟩ := hfails
    · cases hfuel
    · cases hblamed
      exact hline

end PairScript
