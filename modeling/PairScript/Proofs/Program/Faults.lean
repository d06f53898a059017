import PairScript.Proofs.Eval.Disciplined
import PairScript.Proofs.Eval.Signals
import PairScript.Proofs.Parse.WellFormed

/-!
# Faults that no program raises

Two kinds of faults guard evaluation against trees that reading a program does not give rise to.

* The tree of a program is well formed, so there is always a place to assign to, a member on the
  right of `.`, and two operands of `&&` and `||` (`wellFormed_and_no_defensive_fault`).
* If moreover every control signal stands inside a construct that takes it, no signal escapes
  (`no_signal_escapes`).
-/

namespace PairScript

/-- The trees of a text are well formed, with names that start as names do. -/
theorem sound_of_compile {source : String} {nodes : List Node} (h : compile source = .ok nodes) :
    ∀ node ∈ nodes, node.Sound fun name => startsName name = true := by
  unfold compile at h
  split at h
  next => cases h
  next tokens htokens =>
    refine sound_of_parse (by decide) ?_ h
    exact fun t ht text hkind _ => startsName_of_tokenize htokens ht hkind

/-- The run of a text does not report a tree that no program has. -/
theorem isDefensive_of_compile {source : String} {nodes : List Node}
    (h : compile source = .ok nodes) {fuel : Nat} {host : Host} {limit : Nat} {f : EvalFault}
    {m : Machine}
    (hrun : Eval.runFreshWithin fuel nodes (Machine.start host limit) = .error (.fault f) m) :
    f.cause.isDefensive = false := by
  let d : Demand := ⟨True, False⟩
  have hnodes : ∀ node ∈ nodes, node.Fits d .outermost := by
    intro node hnode
    refine .of_sound ((sound_of_compile h node hnode).mono ?_) nofun
    exact fun node hwell => ⟨hwell.shape, hwell.values, fun name hname _ => hwell.names name hname⟩
  exact (admits_of_runFreshWithin hnodes hrun).1 trivial

/-- **The tree of an accepted program is well formed at every node**, and so no run of a text, with
any fuel, host and limit, faults for lack of a place to assign to, of a member after `.`, or of an
operand of `&&` or `||`. -/
theorem wellFormed_and_no_defensive_fault :
    (∀ (tokens : List Token) (nodes : List Node), parse tokens = .ok nodes →
      ∀ node ∈ nodes, node.Everywhere (Node.WellFormed fun name => isKeyword name = false)) ∧
    ∀ (source : String) (nodes : List Node), compile source = .ok nodes →
      ∀ (fuel : Nat) (host : Host) (limit : Nat) (cause : EvalCause) (line : Nat) (m : Machine),
        (Eval.runFreshWithin fuel nodes (Machine.start host limit) = .error (.fault ⟨cause, line⟩) m ∨
          runSource source (Machine.start host limit) =
            (.error (.aborted (.fault ⟨cause, line⟩)), m)) →
        cause ≠ .mismatch .invalidTarget ∧ cause ≠ .unknownReference "." ∧
          ∀ count, cause ≠ .argumentCount "&&" count ∧ cause ≠ .argumentCount "||" count := by
  constructor
  · intro tokens nodes h
    have hspells : Grammar.Spells (fun name => isKeyword name = false) tokens :=
      fun _ _ _ _ hfree => hfree
    exact sound_of_parse (by decide) hspells h
  · intro source nodes h fuel host limit cause line m hrun
    have hrun : ∃ fuel, Eval.runFreshWithin fuel nodes (Machine.start host limit)
        = .error (.fault ⟨cause, line⟩) m := by
      rcases hrun with hrun | hrun
      · exact ⟨fuel, hrun⟩
      · refine ⟨Eval.ampleFuel, ?_⟩
        rw [← Eval.runFresh_eq]
        simp only [runSource, h, resultOf] at hrun
        split at hrun
        · cases hrun
        · simp_all
    obtain ⟨fuel, hrun⟩ := hrun
    have hcause := isDefensive_of_compile h hrun
    refine ⟨?_, ?_, fun count => ⟨?_, ?_⟩⟩
    all_goals
      rintro rfl
      cases hcause

/-- The tokens of `null.x`. -/
def memberTokens : List Token :=
  [⟨.name "null", 1⟩, ⟨.symbol ".", 1⟩, ⟨.name "x", 1⟩, ⟨.finish, 1⟩]

/-- The tree of `null.x`. -/
def memberAccess : Node := .operation "." [.reference "null" 1, .reference "x" 1] 1

theorem compile_memberAccess : compile "null.x" = .ok [memberAccess] := by
  have htokens : tokenize "null.x" = .ok memberTokens := rfl
  simp only [compile, htokens]
  rfl

/-- A fault about a member, but not about a missing one. -/
theorem wellFormed_and_no_defensive_fault_memberAccess :
    memberAccess.Everywhere (Node.WellFormed fun name => isKeyword name = false) ∧
      ∃ m, runSource "null.x" (Machine.start (.ofInput []) 0)
          = (.error (.aborted (.fault ⟨.unknownReference "x", 1⟩)), m) ∧
        EvalCause.unknownReference "x" ≠ .unknownReference "." := by
  have hrun : ∃ m, runSource "null.x" (Machine.start (.ofInput []) 0)
      = (.error (.aborted (.fault ⟨.unknownReference "x", 1⟩)), m) := by
    simp only [runSource, compile_memberAccess]
    exact ⟨_, rfl⟩
  obtain ⟨m, hrun⟩ := hrun
  obtain ⟨hparse, hfault⟩ := wellFormed_and_no_defensive_fault
  refine ⟨hparse memberTokens [memberAccess] rfl memberAccess List.mem_cons_self, m, hrun, ?_⟩
  exact (hfault "null.x" [memberAccess] compile_memberAccess 0 _ 0 _ 1 m (.inr hrun)).2.1

/-- **No signal escapes from a confined program**: for every accepted program whose signals stand
inside constructs that take them, no run, with any fuel, host and limit, ends with an escaped
signal.  On the way expressions give no signal, loops let neither `break` nor `continue` through,
and switches neither `break` nor `fallthrough`. -/
theorem no_signal_escapes :
    (∀ (tokens : List Token) (nodes : List Node), parse tokens = .ok nodes →
      (∀ node ∈ nodes, node.Confined .outermost) →
      ∀ (fuel : Nat) (host : Host) (limit : Nat) (keyword : String) (line : Nat) (m : Machine),
        Eval.runFreshWithin fuel nodes (Machine.start host limit)
            ≠ .error (.fault ⟨.signalEscaped keyword, line⟩) m ∧
          Eval.runFresh nodes (Machine.start host limit)
            ≠ .error (.fault ⟨.signalEscaped keyword, line⟩) m) ∧
    ∀ (fuel : Nat) (node : Node) (frame : FrameId) (m m' : Machine) (s : Signal),
      Eval.evaluate fuel node frame m = .ok (.signal s) m' →
      node.isExpression = false ∧
        (node.isLoop = true → s ≠ .breakOut ∧ s ≠ .continueOn) ∧
        (node.isSwitch = true → s ≠ .breakOut ∧ s ≠ .fallThrough) := by
  constructor
  · intro tokens nodes h hconfined fuel host limit keyword line m
    let d : Demand := ⟨False, True⟩
    have hspells : Grammar.Spells d.Named tokens := fun _ _ _ _ _ => nofun
    have hsound := sound_of_parse nofun hspells h
    have hnodes : ∀ node ∈ nodes, node.Fits d .outermost :=
      fun node hnode => .of_sound (hsound node hnode) fun _ => hconfined node hnode
    have hfree : ∀ fuel, Eval.runFreshWithin fuel nodes (Machine.start host limit)
        ≠ .error (.fault ⟨.signalEscaped keyword, line⟩) m := by
      intro fuel hrun
      cases (admits_of_runFreshWithin hnodes hrun).2 trivial
    exact ⟨hfree fuel, hfree Eval.ampleFuel⟩
  · intro fuel node frame m m' s h
    obtain ⟨-, hsignals⟩ := (evaluate_signals fuel node frame).ok trivial h
    obtain ⟨hexpression, hloop, hswitch⟩ := hsignals s rfl
    exact ⟨hexpression, hloop, hswitch⟩

/-- The tokens of a loop around a switch that falls through, and a `break`. -/
def loopTokens : List Token :=
  [⟨.name "while", 1⟩, ⟨.name "true", 1⟩, ⟨.symbol "\x7b", 1⟩, ⟨.name "switch", 2⟩,
    ⟨.name "null", 2⟩, ⟨.symbol "\x7b", 2⟩, ⟨.name "case", 2⟩, ⟨.name "null", 2⟩,
    ⟨.symbol ":", 2⟩, ⟨.name "fallthrough", 2⟩, ⟨.symbol "\x7d", 2⟩, ⟨.name "break", 2⟩,
    ⟨.symbol "\x7d", 2⟩, ⟨.finish, 2⟩]

/-- The tree of `loopTokens`. -/
def loopTree : Node :=
  .whileLoop (.reference "true" 1)
    [.switch (.reference "null" 2) [⟨[.reference "null" 2], [.fallThrough 2], 2⟩] none 2,
      .breakOut 2] 1

theorem loopTree_confined : loopTree.Confined .outermost := by
  have hleaf : ∀ {c node}, node.isTaken c = true → node.valueParts = [] →
      node.statementParts = [] → Node.Confined c node := by
    intro c node hnode hvalues hstatements
    exact .intro hnode (by simp [hvalues]) (by simp [hstatements])
  refine .intro rfl ?_ ?_
  · exact List.forall_mem_singleton.2 (hleaf rfl rfl rfl)
  · refine List.forall_mem_cons.2 ⟨.intro rfl ?_ ?_, ?_⟩
    · exact List.forall_mem_cons.2 ⟨hleaf rfl rfl rfl,
        List.forall_mem_singleton.2 (hleaf rfl rfl rfl)⟩
    · exact List.forall_mem_singleton.2 (hleaf rfl rfl rfl)
    · exact List.forall_mem_singleton.2 (hleaf rfl rfl rfl)

theorem no_signal_escapes_loopTree :
    parse loopTokens = .ok [loopTree] ∧ loopTree.Confined .outermost ∧
      ∀ host limit keyword line m, Eval.runFresh [loopTree] (Machine.start host limit)
        ≠ .error (.fault ⟨.signalEscaped keyword, line⟩) m := by
  refine ⟨rfl, loopTree_confined, fun host limit keyword line m => ?_⟩
  have hconfined := List.forall_mem_singleton.2 loopTree_confined
  exact (no_signal_escapes.1 loopTokens [loopTree] rfl hconfined 0 host limit keyword line m).2

end PairScript
