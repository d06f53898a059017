import PairScript.Proofs.Eval.Disciplined
import PairScript.Proofs.Eval.Growth

/-!
# Termination without loops

Fuel is not part of the language.  With more of it a run that finishes does the same
(`runFreshWithin_of_le`), and every run without loops over conditions and ranges finishes with
enough of it.

Such a run nests in two ways: nodes in nodes, and bodies of closures in calls.  All closures are
made by function literals of the program, so that no body is higher than the program itself, and
the calls are counted.  The fuel that a node needs is at most its own height, and the height of the
program once more for each call that is left.
-/

namespace PairScript

/-! ### More fuel -/

/-- Every machine is one. -/
def Lasting.any : Lasting where
  holds _ := True
  may _ _ := True
  new _ _ := trivial
  lasts _ _ := trivial

/-- A run that finishes does the same with more fuel. -/
theorem evaluate_of_le {fuel fuel' : Nat} (hfuel : fuel ≤ fuel') (node : Node) (frame : FrameId) :
    Lasting.any.contract.LiftsAt (Eval.evaluate fuel) (Eval.evaluate fuel') frame node := by
  induction fuel generalizing fuel' node frame with
  | zero => exact .exhausted fun _ _ => trivial
  | succ fuel ih =>
    obtain ⟨fuel', rfl⟩ := Nat.exists_eq_succ_of_ne_zero (Nat.ne_zero_of_lt hfuel)
    have hfuel : fuel ≤ fuel' := Nat.le_of_succ_le_succ hfuel
    refine Contract.step_follows hfuel ?_ ?_
    · intro c line inner _ _
      refine Contract.asCall_follows fun m _ _ => ?_
      refine ⟨Lasting.any.contract, trivial, ?_, fun _ _ => trivial, fun _ _ _ => trivial⟩
      exact Contract.sequence_lifts fun node _ => ih hfuel node inner
    · exact ⟨fun part _ => ih hfuel part frame, fun part _ => ih hfuel part frame,
        fun inner _ part _ => ih hfuel part inner, fun _ _ _ _ => trivial,
        fun _ _ _ _ _ _ => trivial, fun _ _ _ => trivial⟩

theorem runFreshWithin_of_le {fuel fuel' : Nat} (hfuel : fuel ≤ fuel') {nodes : List Node}
    {m : Machine} (h : Eval.Finishes (Eval.runFreshWithin fuel nodes m)) :
    Eval.runFreshWithin fuel' nodes m = Eval.runFreshWithin fuel nodes m := by
  have hroot : Lasting.any.contract.Meets Eval.standardRoot fun _ => True :=
    fun _ _ => ⟨trivial, trivial⟩
  have hrun : Lasting.any.contract.Follows (Eval.runFreshWithin fuel nodes)
      (Eval.runFreshWithin fuel' nodes) fun _ => True :=
    .bind hroot.self fun root _ =>
      Contract.program_lifts (fun node _ => evaluate_of_le hfuel node root) trivial
  exact hrun.same m trivial h

/-! ### Bounded nodes -/

/-- No loop over a condition or a range anywhere in a node, function bodies included, and at most
`n` levels of nodes. -/
inductive Node.Bounded : Nat → Node → Prop
  | intro {n : Nat} {node : Node} (here : node.isUnbounded = false)
      (values : ∀ part ∈ node.valueParts, Bounded n part)
      (statements : ∀ part ∈ node.statementParts, Bounded n part) : Bounded (n + 1) node

namespace Node.Bounded

variable {n n' : Nat} {node part : Node}

theorem mono (h : node.Bounded n) (hn : n ≤ n') : node.Bounded n' := by
  induction h generalizing n' with
  | intro here values statements ihvalues ihstatements =>
    obtain ⟨n', rfl⟩ := Nat.exists_eq_succ_of_ne_zero (Nat.ne_zero_of_lt hn)
    have hn := Nat.le_of_succ_le_succ hn
    exact .intro here (fun part hpart => ihvalues part hpart hn)
      fun part hpart => ihstatements part hpart hn

/-- Nodes that are bounded one by one are bounded together. -/
theorem exists_forall {nodes : List Node} (h : ∀ node ∈ nodes, ∃ n, node.Bounded n) :
    ∃ n, ∀ node ∈ nodes, node.Bounded n := by
  induction nodes with
  | nil => exact ⟨0, by simp⟩
  | cons node nodes ih =>
    obtain ⟨⟨n, hnode⟩, hnodes⟩ := List.forall_mem_cons.1 h
    obtain ⟨n', hnodes⟩ := ih hnodes
    refine ⟨max n n', List.forall_mem_cons.2 ⟨hnode.mono (Nat.le_max_left _ _), ?_⟩⟩
    exact fun node hmem => (hnodes node hmem).mono (Nat.le_max_right _ _)

theorem exists_of_everywhere (h : node.Everywhere (·.isUnbounded = false)) :
    ∃ n, node.Bounded n := by
  induction h with
  | intro here _ _ ihvalues ihstatements =>
    obtain ⟨n, hvalues⟩ := exists_forall ihvalues
    obtain ⟨n', hstatements⟩ := exists_forall ihstatements
    refine ⟨max n n' + 1, .intro here (fun part hpart => ?_) fun part hpart => ?_⟩
    · exact (hvalues part hpart).mono (Nat.le_max_left _ _)
    · exact (hstatements part hpart).mono (Nat.le_max_right _ _)

theorem pos (h : node.Bounded n) : 0 < n := by
  cases h
  exact Nat.succ_pos _

theorem here (h : node.Bounded n) : node.isUnbounded = false := by
  cases h with
  | intro here _ _ => exact here

theorem valueParts (h : node.Bounded (n + 1)) (hpart : part ∈ node.valueParts) :
    part.Bounded n := by
  cases h with
  | intro _ values _ => exact values part hpart

theorem statementParts (h : node.Bounded (n + 1)) (hpart : part ∈ node.statementParts) :
    part.Bounded n := by
  cases h with
  | intro _ _ statements => exact statements part hpart

theorem memberParts (h : node.Bounded (n + 1)) (hpart : part ∈ node.memberParts) :
    part.Bounded n := by
  have hparts : ∀ operand ∈ node.valueParts, part ∈ operand.valueParts → part.Bounded n := by
    intro operand hoperand hpart
    cases h.valueParts hoperand with
    | intro _ values _ => exact (values part hpart).mono (Nat.le_succ _)
  cases node with
  | operation symbol operands line =>
    obtain ⟨operand, hoperand, hpart⟩ := List.mem_flatMap.1 hpart
    exact hparts operand hoperand hpart
  | assignment target value yieldsOld line => exact hparts target List.mem_cons_self hpart
  | _ => cases hpart

end Node.Bounded

/-- The bodies of all closures in a value are bounded. -/
def Value.Bounded (n : Nat) : Value → Prop
  | .pair _ head tail => head.Bounded n ∧ tail.Bounded n
  | .closure c => ∀ node ∈ c.body, node.Bounded n
  | _ => True

theorem Value.bounded_byParts (n : Nat) : Value.ByParts (Value.Bounded n) where
  atom {v} _ := by cases v <;> trivial
  pair := Iff.rfl

theorem standardBindings_bounded (n : Nat) :
    Heap.standardBindings.All fun _ v => v.Bounded n := by
  intro entry hentry
  rcases List.mem_append.1 hentry with h | h
  · simp only [List.mem_cons, List.not_mem_nil, or_false] at h
    rcases h with rfl | rfl | rfl | rfl <;> trivial
  · obtain ⟨p, -, rfl⟩ := List.mem_map.1 h
    trivial

/-! ### Enough fuel -/

/-- To finish, with at most `calls` more calls in progress, when no body of a closure is higher than
`n`. -/
def Contract.finishing (n calls : Nat) : Contract where
  machine m := m.heap.Binds (fun _ v => v.Bounded n) ∧ m.limit ≤ m.depth + calls
  halt h _ := h ≠ .outOfFuel
  value := Value.Bounded n
  binds _ _ := True
  fault _ _ := by simp
  host _ hm := hm
  cells _ hm := hm
  closure hm := hm
  members _ _ hm := hm
  bind _ _ _ hm hvalues := ⟨⟨hm.1.bind fun _ _ v hv => hvalues v hv, hm.2⟩, fun _ => trivial⟩
  define hm _ hv := ⟨hm.1.define hv, hm.2⟩
  assign hm hv := ⟨hm.1.assign hv, hm.2⟩
  lookup hm hfound := hm.1.lookup hfound
  byParts := Value.bounded_byParts n

/-- A call uses up one of the calls that are left. -/
theorem Contract.finishing_calls {n calls : Nat} {self : Evaluator}
    (h : ∀ calls', calls' < calls → ∀ node frame, node.Bounded n →
      (Contract.finishing n calls').LiftsAt self self frame node) :
    (Contract.finishing n calls).Calls self self := by
  intro c line inner hc _
  refine Contract.asCall_follows fun m hm hdepth => ?_
  obtain ⟨calls', rfl⟩ : ∃ calls', calls = calls' + 1 :=
    Nat.exists_eq_succ_of_ne_zero (by rintro rfl; have := hm.2; omega)
  have hback : ∀ {m'}, (Contract.finishing n calls').machine m' →
      (Contract.finishing n (calls' + 1)).machine (Eval.leaveCall m') := by
    rintro m' ⟨hbinds, hlimit⟩
    refine ⟨hbinds, ?_⟩
    show m'.limit ≤ m'.depth - 1 + (calls' + 1)
    omega
  refine ⟨Contract.finishing n calls', ⟨hm.1, ?_⟩, ?_, fun _ => hback, fun _ _ => id⟩
  · have := hm.2
    show m.limit ≤ m.depth + 1 + calls'
    omega
  · refine Contract.sequence_lifts fun node hnode => ?_
    exact h calls' (Nat.lt_succ_self _) node inner (hc node hnode)

/-- A node finishes with as much fuel as it is high, and that of a body for each call left. -/
theorem evaluate_finishing {n : Nat} (fuel : Nat) :
    ∀ {calls height : Nat} {node : Node} (frame : FrameId), node.Bounded height → height ≤ n →
      calls * (n + 1) + height ≤ fuel →
      (Contract.finishing n calls).LiftsAt (Eval.evaluate fuel) (Eval.evaluate fuel) frame
        node := by
  induction fuel with
  | zero =>
    intro calls height node frame hnode _ hfuel
    have := hnode.pos
    omega
  | succ fuel ih =>
    intro calls height node frame hnode hheight hfuel
    obtain ⟨height, rfl⟩ := Nat.exists_eq_succ_of_ne_zero (Nat.ne_zero_of_lt hnode.pos)
    have hpart : ∀ {part : Node} (frame : FrameId), part.Bounded height →
        (Contract.finishing n calls).LiftsAt (Eval.evaluate fuel) (Eval.evaluate fuel) frame
          part :=
      fun frame hpart => ih frame hpart (by omega) (by omega)
    refine Contract.step_follows (Nat.le_refl fuel) (Contract.finishing_calls ?_) ?_
    · intro calls' hcalls body frame hbody
      have hless : (calls' + 1) * (n + 1) ≤ calls * (n + 1) := Nat.mul_le_mul_right _ hcalls
      refine ih frame hbody (Nat.le_refl n) ?_
      rw [Nat.add_mul] at hless
      omega
    · refine ⟨fun part h => hpart frame (hnode.valueParts h),
        fun part h => hpart frame (hnode.memberParts h),
        fun inner _ part h => hpart inner (hnode.statementParts h), fun _ _ _ _ => trivial, ?_,
        fun hloop => by cases hloop.symm.trans hnode.here⟩
      rintro name params body line rfl id part hbody
      exact (hnode.statementParts hbody).mono (by omega)

theorem runFreshWithin_finishes {n fuel limit : Nat} {nodes : List Node} {host : Host}
    (h : ∀ node ∈ nodes, node.Bounded n) (hfuel : limit * (n + 1) + n ≤ fuel) :
    Eval.Finishes (Eval.runFreshWithin fuel nodes (Machine.start host limit)) := by
  have hroot : (Contract.finishing n limit).Meets Eval.standardRoot fun _ => True :=
    .onHeap fun _ hm => ⟨⟨hm.1.push (standardBindings_bounded n), hm.2⟩, trivial⟩
  have hrun : (Contract.finishing n limit).Meets (Eval.runFreshWithin fuel nodes)
      (Value.Bounded n) :=
    hroot.bind fun root _ => (Contract.program_lifts
      (fun node hnode => evaluate_finishing fuel root (h node hnode) (Nat.le_refl n) hfuel)
      ((Value.bounded_byParts n).atom rfl)).meets
  have hend := hrun (Machine.start host limit) ⟨Heap.binds_empty, Nat.le_add_left _ _⟩
  match hresult : Eval.runFreshWithin fuel nodes (Machine.start host limit) with
  | .ok _ _ | .error (.fault _) _ => trivial
  | .error .outOfFuel _ =>
    rw [hresult] at hend
    exact hend rfl

/-- **The limit of calls bounds everything but loops.**  For every program without a loop over a
condition or a range, function bodies included, and every limit of calls there is an amount of fuel
with which all runs finish, whatever the host: with a value or with a fault, the same with any
larger amount. -/
theorem loopless_runs_terminate {nodes : List Node}
    (h : ∀ node ∈ nodes, node.Everywhere (·.isUnbounded = false)) (limit : Nat) :
    ∃ enough, ∀ host : Host, ∃ r, Eval.Finishes r ∧ ∀ fuel, enough ≤ fuel →
      Eval.runFreshWithin fuel nodes (Machine.start host limit) = r := by
  obtain ⟨n, hbounded⟩ := Node.Bounded.exists_forall fun node hnode =>
    Node.Bounded.exists_of_everywhere (h node hnode)
  refine ⟨limit * (n + 1) + n, fun host => ?_⟩
  have hfinishes : Eval.Finishes (Eval.runFreshWithin _ nodes (Machine.start host limit)) :=
    runFreshWithin_finishes hbounded (Nat.le_refl _)
  exact ⟨_, hfinishes, fun fuel hfuel => runFreshWithin_of_le hfuel hfinishes⟩

/-- `var f = func() { f() }` and `f()`. -/
def endlessCalls : List Node :=
  [.definition "f" (.function none [] [.call (.reference "f" 1) [] 1] 1) 1,
    .call (.reference "f" 2) [] 2]

theorem endlessCalls_loopless :
    ∀ node ∈ endlessCalls, node.Everywhere (·.isUnbounded = false) := by
  have hcall : ∀ line, (Node.call (.reference "f" line) [] line).Everywhere
      (·.isUnbounded = false) := by
    intro line
    refine .intro rfl ?_ (by simp [Node.statementParts])
    exact List.forall_mem_singleton.2
      (.intro rfl (by simp [Node.valueParts]) (by simp [Node.statementParts]))
  refine List.forall_mem_cons.2 ⟨.intro rfl ?_ (by simp [Node.statementParts]), ?_⟩
  · refine List.forall_mem_singleton.2 (.intro rfl (by simp [Node.valueParts]) ?_)
    exact List.forall_mem_singleton.2 (hcall 1)
  · exact List.forall_mem_singleton.2 (hcall 2)

theorem endlessCalls_terminate :
    (∀ node ∈ endlessCalls, node.Everywhere (·.isUnbounded = false)) ∧
      ∃ enough, ∀ host : Host, ∃ r, Eval.Finishes r ∧ ∀ fuel, enough ≤ fuel →
        Eval.runFreshWithin fuel endlessCalls (Machine.start host 1000) = r :=
  ⟨endlessCalls_loopless, loopless_runs_terminate endlessCalls_loopless 1000⟩

end PairScript
