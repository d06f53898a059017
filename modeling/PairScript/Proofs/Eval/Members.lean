import PairScript.Program
import PairScript.Proofs.Eval.Chain
import PairScript.Proofs.Eval.Depth
import PairScript.Proofs.Eval.Disciplined

/-!
# Frames of members

The first access to a member of a closure runs its body for a frame of members, and keeps that
frame.  Once a frame is kept, every piece of evaluation that starts then leaves it in its place,
and every read, call and assignment of a member goes through it (`kept_members_last`).

The frame is kept when the body has ended, and the body may ask for the members of its own closure.
Such a request finds no frame yet, so it runs the body once more and keeps another frame first,
which then gives way: what was assigned to its members is gone (`reentrant_members_replaced`).

`LastingMembers` are the properties of kept frames that no evaluation ends.
-/

namespace PairScript

/-! ### Kept frames -/

namespace Heap

variable {h h' : Heap} {id id' : ClosureId} {frame : FrameId}

theorem memberFrame?_newClosure (hid : h.memberFrame? id = some frame) :
    h.newClosure.2.memberFrame? id = some frame := by
  obtain ⟨hlt, -⟩ := Array.getElem?_eq_some_iff.1 (Option.join_eq_some_iff.1 hid)
  unfold memberFrame? newClosure at *
  rwa [Array.getElem?_push, if_neg (Nat.ne_of_lt hlt)]

theorem memberFrame?_setMemberFrame_of_ne (hne : id' ≠ id) :
    (h.setMemberFrame id' frame).memberFrame? id = h.memberFrame? id := by
  unfold memberFrame? setMemberFrame
  simp [Array.getElem?_modify, hne]

theorem memberFrame?_setMemberFrame (hid : id < h.memberFrames.size) :
    (h.setMemberFrame id frame).memberFrame? id = some frame := by
  unfold memberFrame? setMemberFrame
  rw [Array.getElem?_modify, if_pos rfl, Array.getElem?_eq_getElem hid]
  rfl

theorem memberFrames_assign (id : FrameId) (name : String) (value : Value) (h : Heap) :
    (h.assign id name value).2.memberFrames = h.memberFrames := by
  unfold assign
  split <;> rfl

end Heap

/-- A property of the kept frames of members that lasts: closures may be made, and a frame may be
kept for a closure that had none when the access to its members began. -/
structure LastingMembers where
  holds : Heap → Prop
  others : ∀ {h h' : Heap}, holds h → h'.memberFrames = h.memberFrames → holds h'
  closure : ∀ {h : Heap}, holds h → holds h.newClosure.2
  keep : ∀ {before h : Heap} {id : ClosureId} {frame : FrameId}, holds before →
    before.memberFrame? id = none → holds h → holds (h.setMemberFrame id frame)

namespace LastingMembers

/-- That a closure has a certain frame of members. -/
def kept (id : ClosureId) (frame : FrameId) : LastingMembers where
  holds h := h.memberFrame? id = some frame
  others h hsame := by rwa [Heap.memberFrame?, hsame]
  closure h := Heap.memberFrame?_newClosure h
  keep {before _ id' _} hbefore hnone h := by
    have hne : id' ≠ id := by
      rintro rfl
      cases hnone.symm.trans hbefore
    rwa [Heap.memberFrame?_setMemberFrame_of_ne hne]

/-- That a closure was made. -/
def made (id : ClosureId) : LastingMembers where
  holds h := id < h.memberFrames.size
  others h hsame := by rwa [hsame]
  closure h := by simpa [Heap.newClosure] using Nat.lt_succ_of_lt h
  keep _ _ h := by simpa [Heap.setMemberFrame] using h

/-- The regime in which a lasting property holds, however evaluation ends. -/
def regime (l : LastingMembers) : Regime where
  machine m := l.holds m.heap
  halt _ m := l.holds m.heap
  stage _ := 0
  value _ _ := True
  frame _ _ := True
  closureId _ := True
  binds _ _ := True
  name _ := True
  line _ := True
  lenient := False
  value_mono _ := id
  frame_mono _ := id
  byParts _ := ⟨fun _ => trivial, ⟨fun _ => ⟨trivial, trivial⟩, fun _ => trivial⟩⟩
  closures _ := ⟨trivial, fun _ _ => trivial, trivial⟩
  fault hm _ := hm
  host _ hm := ⟨hm, Nat.le_refl 0⟩
  cells _ hm := ⟨l.others hm rfl, Nat.le_refl 0⟩
  closure hm := ⟨⟨l.closure hm, Nat.le_refl 0⟩, trivial⟩
  member _ _ _ := trivial
  members hbefore hnone hm _ _ := ⟨l.keep hbefore hnone hm, Nat.le_refl 0⟩
  bind hm _ _ _ := ⟨⟨l.others hm rfl, Nat.le_refl 0⟩, trivial, fun _ _ => trivial⟩
  define hm _ _ _ := ⟨l.others hm rfl, Nat.le_refl 0⟩
  assign hm _ _ _ := ⟨l.others hm (Heap.memberFrames_assign ..), Nat.le_refl 0⟩
  lookup _ _ _ := trivial

theorem covers (l : LastingMembers) : l.regime.Covers fun _ => True where
  fits _ := ⟨trivial, fun _ _ => trivial⟩
  values _ _ := trivial
  statements _ _ := trivial
  binds _ := trivial
  literal _ _ _ := trivial
  body _ _ _ := trivial
  depth _ hm := ⟨hm, Nat.le_refl 0⟩
  halt _ hm := hm
  fuel hm := hm

/-- Evaluation keeps a lasting property, and does so undisturbed by who watches it. -/
theorem agree (l : LastingMembers) (ok : Machine → Bool) (hok : ∀ m, l.holds m.heap → ok m = true)
    (fuel : Nat) :
    l.regime.Agree (fun _ => True) (Eval.evaluate fuel) (Eval.watched ok fuel) := by
  induction fuel with
  | zero => exact l.covers.agree_exhausted
  | succ fuel ih =>
    intro n node frame hnode hframe
    exact ⟨l.covers.fits hnode, (l.covers.step ih fuel hnode hframe).guarded hok fun _ => hok⟩

theorem entry (l : LastingMembers) (ok : Machine → Bool) (hok : ∀ m, l.holds m.heap → ok m = true)
    (fuel : Nat) {α : Type} {p : Evaluator → Eval α} (hp : Eval.Entry p) :
    l.regime.Lifts 0 (Eval.evaluate fuel) (Eval.watched ok fuel) p fun _ _ => True := by
  have hagree := l.agree ok hok fuel
  have hnode : ∀ node frame,
      l.regime.LiftsAt 0 (Eval.evaluate fuel) (Eval.watched ok fuel) frame node :=
    fun node frame => hagree 0 node frame trivial trivial
  have hany : ∀ {α : Type} {p : Evaluator → Eval α} {Q : Nat → α → Prop},
      l.regime.Lifts 0 (Eval.evaluate fuel) (Eval.watched ok fuel) p Q →
      l.regime.Lifts 0 (Eval.evaluate fuel) (Eval.watched ok fuel) p fun _ _ => True :=
    fun hp => hp.mono fun _ _ _ _ => trivial
  cases hp with
  | node node frame => exact hany (p := fun self => self node frame) (hnode node frame).follows
  | sequence nodes frame => exact hany (Regime.sequence_lifts fun node _ => hnode node frame)
  | operands nodes frame => exact hany (Regime.valuesOf_lifts fun node _ => hnode node frame)
  | apply callee args line =>
    exact hany (Regime.apply_lifts (l.covers.calls hagree) trivial trivial fun _ _ => trivial)
  | program nodes frame last =>
    exact hany (Regime.program_lifts (fun node _ => hnode node frame) trivial)

theorem holds_after {l : LastingMembers} {α : Type} {p q : Eval α} {Q : Nat → α → Prop}
    (h : l.regime.Follows 0 p q Q) {m : Machine} (hm : l.holds m.heap) :
    l.holds (Eval.after p m).heap := by
  have hend := h.meets m hm (Nat.le_refl 0)
  unfold Eval.after
  match hp : p m with
  | .ok a m' =>
    rw [hp] at hend
    exact hend.1
  | .error halt m' =>
    rw [hp] at hend
    exact hend

end LastingMembers

/-! ### Accesses -/

namespace Eval

variable {self : Evaluator} {c : Closure} {m m' : Machine} {frame inner : FrameId} {line : Nat}

theorem get_bind_apply {α : Type} (f : Machine → Eval α) : (get >>= f) m = f m m := rfl

theorem memberFrame_of_kept (h : m.heap.memberFrame? c.id = some frame) :
    memberFrame self c line m = .ok frame m := by
  rw [memberFrame, get_bind_apply, h]
  rfl

theorem memberFrame_of_none (h : m.heap.memberFrame? c.id = none) :
    memberFrame self c line m = instantiate self c line m := by
  rw [memberFrame, get_bind_apply, h]

/-- Going on after the frame of members is found, if there is one. -/
theorem memberFrame_bind_of_kept {α : Type} {f : FrameId → Eval α}
    (h : m.heap.memberFrame? c.id = some frame) :
    (memberFrame self c line >>= f) m = f frame m := by
  show EStateM.bind _ _ _ = _
  rw [EStateM.bind, memberFrame_of_kept h]

/-- What making members ends with: the frame that it made, which is kept from then on. -/
theorem instantiate_eq_ok (h : instantiate self c line m = .ok frame m') :
    frame = m.heap.frames.size ∧
      ∃ h₁ : Heap, m'.heap = h₁.setMemberFrame c.id frame := by
  obtain ⟨inner, m₁, hinner, h⟩ := bind_eq_ok h
  obtain ⟨o, m₂, -, h⟩ := bind_eq_ok h
  obtain ⟨_, m₃, -, h⟩ := bind_eq_ok h
  cases h
  refine ⟨?_, m₃.heap, rfl⟩
  unfold boundFrame at hinner
  split at hinner
  · cases hinner
    rfl
  · cases hinner

theorem instantiate_keeps {fuel : Nat} (hid : c.id < m.heap.memberFrames.size)
    (hnone : m.heap.memberFrame? c.id = none)
    (h : instantiate (evaluate fuel) c line m = .ok frame m') :
    m'.heap.memberFrame? c.id = some frame := by
  let l := LastingMembers.made c.id
  have hagree := l.agree (fun _ => true) (fun _ _ => rfl) fuel
  have hlifts : l.regime.Lifts 0 (evaluate fuel) (watched (fun _ => true) fuel)
      (instantiate · c line) l.regime.frame :=
    Regime.instantiate_lifts (l.covers.calls hagree) trivial hid hnone trivial
  have hmade : l.holds (after (instantiate (evaluate fuel) c line) m).heap :=
    LastingMembers.holds_after hlifts hid
  have hmade : c.id < m'.heap.memberFrames.size := by
    rwa [after, h] at hmade
  obtain ⟨-, h₁, heap⟩ := instantiate_eq_ok h
  rw [heap] at hmade ⊢
  exact Heap.memberFrame?_setMemberFrame (by simpa [Heap.setMemberFrame] using hmade)

/-- Frames keep their parents and names whatever is evaluated. -/
theorem Entry.grows {α : Type} {p : Evaluator → Eval α} (hp : Entry p) (fuel : Nat) (m : Machine) :
    m.Grows (fun _ _ => True) (after (p (evaluate fuel)) m) := by
  let l := Lasting.since m fun _ _ => True
  have hnode : ∀ node frame, l.contract.LiftsAt (evaluate fuel) (evaluate fuel) frame node :=
    fun node frame => ((evaluate_grows fuel m _ node frame fun _ _ => .inr trivial).mono
      fun o _ => l.outcome o).self
  have hself : Evaluator.Grows (evaluate fuel) :=
    fun m node frame => evaluate_grows fuel m _ node frame fun _ _ => .inr rfl
  have hany : ∀ {α : Type} {p : Eval α} {Q : α → Prop}, l.contract.Follows p p Q →
      m.Grows (fun _ _ => True) (after p m) :=
    fun h => Lasting.meets_iff.1 (h.meets.mono fun _ _ => trivial) m (.refl m)
  cases hp with
  | node node frame => exact hany (hnode node frame)
  | sequence nodes frame => exact hany (Contract.sequence_lifts fun node _ => hnode node frame)
  | operands nodes frame => exact hany (Contract.valuesOf_lifts fun node _ => hnode node frame)
  | apply callee args line =>
    exact hany (Contract.apply_lifts (l.calls hself) trivial fun _ _ => trivial)
  | program nodes frame last =>
    exact hany (Contract.program_lifts (fun node _ => hnode node frame) trivial)

end Eval

/-! ### Kept members last -/

namespace Eval

/-- Whatever is evaluated next, the machine is accepted at every moment of it and at its end. -/
def Always (fuel : Nat) (ok : Machine → Bool) (m : Machine) : Prop :=
  ∀ {α : Type} (p : Evaluator → Eval α), Entry p →
    ok (after (p (evaluate fuel)) m) = true ∧ p (watched ok fuel) m = p (evaluate fuel) m

variable {self : Evaluator} {c : Closure} {m m' : Machine} {frame owner : FrameId} {line : Nat}
  {name : String} {v : Value}

theorem always_kept (fuel : Nat) (h : m.heap.memberFrame? c.id = some frame) :
    Always fuel (fun m' => m'.heap.memberFrame? c.id = some frame) m := by
  intro α p hp
  have hentry := (LastingMembers.kept c.id frame).entry
    (fun m' => m'.heap.memberFrame? c.id = some frame) (fun _ h => decide_eq_true h) fuel hp
  exact ⟨decide_eq_true (LastingMembers.holds_after hentry h),
    hentry.same m h (Nat.le_refl 0) False.elim⟩

theorem member_of_kept (h : m.heap.memberFrame? c.id = some frame) :
    member self (.closure c) name line m = lookup frame name line m :=
  memberFrame_bind_of_kept h

theorem assignMember_of_kept (h : m.heap.memberFrame? c.id = some frame) :
    assignMember self (.closure c) name v line m = assign frame name v line m :=
  memberFrame_bind_of_kept h

theorem callMember_of_kept (h : m.heap.memberFrame? c.id = some frame) (arguments : List Node)
    (current : FrameId) :
    callMember self (.closure c) name arguments current line m =
      (lookup frame name line >>= fun f => applyTo self f arguments current line) m := by
  show EStateM.bind _ _ _ = EStateM.bind _ _ _
  unfold EStateM.bind
  rw [member_of_kept h]
  rfl

theorem lookup_of_resolve (h : m.heap.resolve frame name = some (owner, v)) :
    lookup frame name line m = .ok v m := by
  rw [lookup, lookup?, bind_assoc, get_bind_apply, pure_bind, Heap.lookup, h]
  rfl

theorem assign_eq_ok (h : assign frame name v line m = .ok () m') :
    m'.heap = (m.heap.assign frame name v).2 ∧ (m.heap.assign frame name v).1 = true := by
  change (if (m.heap.assign frame name v).1 = true then pure ()
    else fail (.unknownVariable name) line : Eval Unit)
      { m with heap := (m.heap.assign frame name v).2 } = .ok () m' at h
  split at h
  next hfound =>
    cases h
    exact ⟨rfl, hfound⟩
  next => cases h

/-- What an assignment of a kept member stores is what reading the member gives, and later reads
find the same binding or one that a nearer frame has gained. -/
theorem member_of_assign (h : m.heap.memberFrame? c.id = some frame)
    (hassign : assign frame name v line m = .ok () m') :
    ∃ owner, m'.heap.own? owner name = some v ∧
      member self (.closure c) name line m' = .ok v m' ∧
      ∀ (fuel : Nat) {α : Type} (p : Evaluator → Eval α), Entry p → ∃ owner' v',
        (owner' = owner ∨ m'.heap.owns owner' name = false) ∧
        (after (p (evaluate fuel)) m').heap.own? owner' name = some v' ∧
        member self (.closure c) name line (after (p (evaluate fuel)) m') =
          .ok v' (after (p (evaluate fuel)) m') := by
  obtain ⟨heap, hfound⟩ := assign_eq_ok hassign
  have hkept : m'.heap.memberFrame? c.id = some frame := by
    rw [heap]
    exact (LastingMembers.kept c.id frame).others h (Heap.memberFrames_assign ..)
  obtain ⟨owner, hresolve⟩ := Heap.resolve_assign hfound
  rw [← heap] at hresolve
  refine ⟨owner, Heap.own?_of_resolveWithin hresolve, ?_, fun fuel α p hp => ?_⟩
  · rw [member_of_kept hkept, lookup_of_resolve hresolve]
  · obtain ⟨owner', v', hlater, howner⟩ := (hp.grows fuel m').heap.resolve hresolve
    have hkept' := of_decide_eq_true (always_kept fuel hkept p hp).1
    refine ⟨owner', v', howner, Heap.own?_of_resolveWithin hlater, ?_⟩
    rw [member_of_kept hkept', lookup_of_resolve hlater]

end Eval

/-- **Kept members last.**  An access to the members of a closure takes the frame that is kept, and
changes nothing, or makes a new one and keeps that.  Once a frame is kept, whatever is evaluated
next leaves it in its place, at every moment and however it ends; and reads, calls and assignments
of members go through it.  What an assignment stores is what the next read gives, and later reads
find that same binding, unless a nearer frame has gained one. -/
theorem kept_members_last (fuel : Nat) (c : Closure) (m : Machine) :
    (∀ (line : Nat) (frame : FrameId) (m' : Machine),
      Eval.memberFrame (Eval.evaluate fuel) c line m = .ok frame m' →
      (m.heap.memberFrame? c.id = some frame ∧ m' = m) ∨
        (m.heap.memberFrame? c.id = none ∧ frame = m.heap.frames.size ∧
          (c.id < m.heap.memberFrames.size → m'.heap.memberFrame? c.id = some frame))) ∧
    ∀ frame, m.heap.memberFrame? c.id = some frame →
      Eval.Always fuel (fun m' => m'.heap.memberFrame? c.id = some frame) m ∧
      ∀ (self : Evaluator) (name : String) (line : Nat),
        Eval.member self (.closure c) name line m = Eval.lookup frame name line m ∧
        (∀ arguments current, Eval.callMember self (.closure c) name arguments current line m =
          (Eval.lookup frame name line >>= fun f =>
            Eval.applyTo self f arguments current line) m) ∧
        ∀ (v : Value) (m' : Machine),
          Eval.assignMember self (.closure c) name v line m = .ok () m' →
          ∃ owner, m'.heap.own? owner name = some v ∧
            Eval.member self (.closure c) name line m' = .ok v m' ∧
            ∀ {α : Type} (p : Evaluator → Eval α), Eval.Entry p → ∃ owner' v',
              (owner' = owner ∨ m'.heap.owns owner' name = false) ∧
              (Eval.after (p (Eval.evaluate fuel)) m').heap.own? owner' name = some v' ∧
              Eval.member self (.closure c) name line (Eval.after (p (Eval.evaluate fuel)) m') =
                .ok v' (Eval.after (p (Eval.evaluate fuel)) m') := by
  refine ⟨fun line frame m' h => ?_, fun frame hkept => ⟨Eval.always_kept fuel hkept,
    fun self name line => ⟨Eval.member_of_kept hkept, Eval.callMember_of_kept hkept,
      fun v m' hassign => ?_⟩⟩⟩
  · cases hmember : m.heap.memberFrame? c.id with
    | some kept =>
      rw [Eval.memberFrame_of_kept hmember] at h
      cases h
      exact .inl ⟨rfl, rfl⟩
    | none =>
      rw [Eval.memberFrame_of_none hmember] at h
      obtain ⟨hnew, -⟩ := Eval.instantiate_eq_ok h
      exact .inr ⟨rfl, hnew, fun hid => Eval.instantiate_keeps hid hmember h⟩
  · rw [Eval.assignMember_of_kept hkept] at hassign
    obtain ⟨owner, hown, hread, hlater⟩ := Eval.member_of_assign hkept hassign
    exact ⟨owner, hown, hread, fun p hp => hlater fuel p hp⟩

/-- `func counter() { var count = 0 }`, made in the outermost frame. -/
def counterClosure : Closure :=
  ⟨0, some "counter", [], [.definition "count" (.constant (.int 0) 1) 1], 0⟩

/-- A machine with one closure, which has no members yet. -/
def counterMachine : Machine := ⟨⟨#[⟨[], none⟩], #[none], 0⟩, .ofInput [], 0, 10⟩

theorem counter_members_last :
    ∃ m m', Eval.memberFrame (Eval.evaluate 3) counterClosure 1 counterMachine = .ok 1 m ∧
      m.heap.memberFrame? 0 = some 1 ∧
      Eval.Always 3 (fun m => m.heap.memberFrame? 0 = some 1) m ∧
      Eval.assignMember (Eval.evaluate 3) (.closure counterClosure) "count" (.int 5) 1 m
        = .ok () m' ∧
      Eval.member (Eval.evaluate 3) (.closure counterClosure) "count" 1 m' = .ok (.int 5) m' := by
  obtain ⟨hfirst, -⟩ := kept_members_last 3 counterClosure counterMachine
  obtain ⟨hkept, -⟩ | ⟨-, -, hkept⟩ := hfirst 1 1 _ rfl
  · cases hkept
  · obtain ⟨halways, haccess⟩ := (kept_members_last 3 counterClosure _).2 1 (hkept (by decide))
    obtain ⟨-, -, hassign⟩ := haccess (Eval.evaluate 3) "count" 1
    obtain ⟨owner, -, hread, -⟩ := hassign (.int 5) _ rfl
    exact ⟨_, _, rfl, hkept (by decide), halways, rfl, hread⟩

/-! ### Members that are asked for while they are made -/

/-- A function that asks for its own members the first time that its body runs, and a read of the
member that it assigns then. -/
def reentrantSource : String :=
  "var n = 0\nfunc f() \x7b\n  var m = 0\n  n = n + 1\n  if n == 1 \x7b f.m = 5 \x7d\n\x7d\nf.m"

/-- The function of `reentrantSource`, made in the outermost frame. -/
def reentrantClosure : Closure where
  id := 0
  name := some "f"
  params := []
  body := [.definition "m" (.constant (.int 0) 3) 3,
    .assignment (.reference "n" 4)
      (.operation "+" [.reference "n" 4, .constant (.int 1) 4] 4) false 4,
    .conditional (.operation "==" [.reference "n" 5, .constant (.int 1) 5] 5)
      [.assignment (.operation "." [.reference "f" 5, .reference "m" 5] 5)
        (.constant (.int 5) 5) false 5] none 5]
  frame := 0

/-- The definitions of `reentrantSource`. -/
def reentrantSetup : List Node :=
  [.definition "n" (.constant (.int 0) 1) 1,
    .definition "f" (.function (some "f") [] reentrantClosure.body 2) 2]

/-- The machine after these definitions. -/
def reentrantMachine : Machine :=
  ⟨⟨#[⟨("f", .closure reentrantClosure) :: ("n", .int 0) :: Heap.standardBindings, none⟩],
    #[none], 0⟩, .ofInput [], 0, 10⟩

/-- The read of `reentrantSource`. -/
def reentrantRead : Node := .operation "." [.reference "f" 7, .reference "m" 7] 7

theorem compile_reentrantSource :
    compile reentrantSource = .ok (reentrantSetup ++ [reentrantRead]) := by
  have htokens : tokenize reentrantSource = .ok [⟨.name "var", 1⟩, ⟨.name "n", 1⟩,
      ⟨.symbol "=", 1⟩, ⟨.int 0, 1⟩, ⟨.newline, 1⟩, ⟨.name "func", 2⟩, ⟨.name "f", 2⟩,
      ⟨.symbol "(", 2⟩, ⟨.symbol ")", 2⟩, ⟨.symbol "\x7b", 2⟩, ⟨.newline, 2⟩, ⟨.name "var", 3⟩,
      ⟨.name "m", 3⟩, ⟨.symbol "=", 3⟩, ⟨.int 0, 3⟩, ⟨.newline, 3⟩, ⟨.name "n", 4⟩,
      ⟨.symbol "=", 4⟩, ⟨.name "n", 4⟩, ⟨.symbol "+", 4⟩, ⟨.int 1, 4⟩, ⟨.newline, 4⟩,
      ⟨.name "if", 5⟩, ⟨.name "n", 5⟩, ⟨.symbol "==", 5⟩, ⟨.int 1, 5⟩, ⟨.symbol "\x7b", 5⟩,
      ⟨.name "f", 5⟩, ⟨.symbol ".", 5⟩, ⟨.name "m", 5⟩, ⟨.symbol "=", 5⟩, ⟨.int 5, 5⟩,
      ⟨.symbol "\x7d", 5⟩, ⟨.newline, 5⟩, ⟨.symbol "\x7d", 6⟩, ⟨.newline, 6⟩, ⟨.name "f", 7⟩,
      ⟨.symbol ".", 7⟩, ⟨.name "m", 7⟩, ⟨.finish, 7⟩] := by rfl
  simp only [compile, htokens]
  rfl

/-- The body of `reentrantClosure`, run for its members. -/
def reentrantInside : Machine :=
  Eval.after (Eval.sequence (Eval.evaluate 9) (reentrantClosure.enter [] reentrantMachine).1
    reentrantClosure.body) (reentrantClosure.enter [] reentrantMachine).2

/-- **A kept frame gives way to an access that began before it was kept.**  The body of the
function, run for its members, keeps a frame and stores 5 in it; the access that ran the body then
keeps its own frame, in which the member is 0. -/
theorem reentrant_members_replaced :
    Eval.runFreshWithin 9 reentrantSetup (Machine.start (.ofInput []) 10) =
        .ok (.closure reentrantClosure) reentrantMachine ∧
      reentrantInside.heap.memberFrame? 0 = some 3 ∧
      (reentrantInside.heap.lookup 3 "m").map Value.text = some "5" ∧
      (Eval.after (Eval.evaluate 9 reentrantRead 0) reentrantMachine).heap.memberFrame? 0 = some 1 ∧
      (runSource reentrantSource (Machine.start (.ofInput []) defaultLimit)).1.toOption.map
        Value.text = some "0" := by
  refine ⟨rfl, by decide +kernel, by decide +kernel, by decide +kernel, ?_⟩
  rw [runSource, compile_reentrantSource]
  decide +kernel

end PairScript
