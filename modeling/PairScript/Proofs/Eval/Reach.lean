import PairScript.Program
import PairScript.Proofs.Eval.Bindings
import PairScript.Proofs.Eval.Chain
import PairScript.Proofs.Parse.WellFormed
import PairScript.Proofs.Token.Spelling

/-!
# What programs reach from their root frame

A root frame is made before the first program runs in it.  From then on programs reach the frames
and the closures that were made since, and no others: the frames on a chain, the frame that a
closure was made in and the frame of its members are all made after the root frame.

`Reach.Holds` says so of a heap, and what else is true of that part of it:

* the bodies of closures are parts of programs, their nodes standing on the lines of the programs;
* an outermost frame binds the symbols of operators to their primitives, and a frame inside another
  binds no such symbol, because programs have names for what they bind and the symbol of an operator
  is not a name.  The one exception is `$list`, which is a name too.

`Reach.regime` shows that evaluation keeps all this.
-/

namespace PairScript

/-! ### Names and symbols -/

/-- A text that can be spelt as a name. -/
def Named (text : String) : Prop := Segment.IsName text.toList

instance : DecidablePred Named :=
  fun text => inferInstanceAs (Decidable (Segment.IsName text.toList))

/-- The names in the trees of a text can be spelt as names. -/
theorem named_of_compile {source : String} {nodes : List Node} (h : compile source = .ok nodes) :
    ∀ node ∈ nodes, node.Sound Named := by
  unfold compile at h
  split at h
  next => cases h
  next tokens htokens =>
    refine sound_of_parse (by decide) ?_ h
    exact fun t ht text hkind _ => isName_of_tokenize htokens ht hkind

/-- A primitive that no name stands for. -/
def Primitive.IsSymbolic (p : Primitive) : Prop := ¬ Named p.name

instance : DecidablePred Primitive.IsSymbolic :=
  fun p => inferInstanceAs (Decidable (¬ Named p.name))

/-- The symbol of an operator is not a name, unless it is `$list`. -/
theorem Primitive.isSymbolic_of_takesOperands {p : Primitive} {count : Nat}
    (h : takesOperands p.name count = true) (hlist : p.name ≠ "$list") : p.IsSymbolic := by
  cases p with
  | list => exact absurd rfl hlist
  | pair | charList | isList | isPair | charCode | int | round | print | input | throw | assert =>
    simp [Primitive.name, takesOperands, binaryLevel?] at h
  | _ => decide

/-- A symbol is not a name. -/
theorem Primitive.IsSymbolic.ne {p : Primitive} (hp : p.IsSymbolic) {name : String}
    (hname : Named name) : p.name ≠ name := by
  rintro rfl
  exact hp hname

/-! ### Closures in a value -/

/-- A property of all closures in a value. -/
def Value.Closures (P : Closure → Prop) : Value → Prop
  | .pair _ head tail => head.Closures P ∧ tail.Closures P
  | .closure c => P c
  | _ => True

namespace Value

variable {P P' : Closure → Prop} {v : Value}

theorem closures_byParts (P : Closure → Prop) : Value.ByParts (Value.Closures P) where
  atom {v} _ := by cases v <;> trivial
  pair := Iff.rfl

theorem Closures.mono (h : v.Closures P) (hP : ∀ c, P c → P' c) : v.Closures P' := by
  induction v with
  | pair _ head tail ihhead ihtail => exact ⟨ihhead h.1, ihtail h.2⟩
  | closure c => exact hP c h
  | _ => trivial

end Value

theorem Heap.standardBindings_get? (p : Primitive) :
    standardBindings.get? p.name = some (.primitive p) := by
  cases p <;> rfl

theorem Heap.standardBindings_closures (P : Closure → Prop) :
    standardBindings.All fun _ v => v.Closures P := by
  intro entry hentry
  rcases List.mem_append.1 hentry with h | h
  · simp only [List.mem_cons, List.not_mem_nil, or_false] at h
    rcases h with rfl | rfl | rfl | rfl <;> trivial
  · obtain ⟨p, -, rfl⟩ := List.mem_map.1 h
    trivial

/-! ### Heaps -/

/-- What programs reach: the frames from a root frame on and the closures from a first one on.  The
programs stand on certain lines. -/
structure Reach where
  root : FrameId
  first : ClosureId
  line : Nat → Prop

namespace Reach

variable {r : Reach} {h : Heap} {n n' : Nat} {f owner : FrameId} {name : String} {v : Value}
  {bound : Nat}

/-- A part of a program. -/
def Part (r : Reach) (node : Node) : Prop :=
  node.Everywhere fun node => node.WellFormed Named ∧ r.line node.line

/-- A frame that is reached when there are `n` frames. -/
def HasFrame (r : Reach) (n : Nat) (f : FrameId) : Prop := r.root ≤ f ∧ f < n

/-- A closure that is reached when there are `n` frames. -/
structure HasClosure (r : Reach) (n : Nat) (c : Closure) : Prop where
  id : r.first ≤ c.id
  frame : r.HasFrame n c.frame
  params : ∀ param ∈ c.params, Named param
  body : ∀ node ∈ c.body, r.Part node

/-- A value that is reached when there are `n` frames. -/
def HasValue (r : Reach) (n : Nat) (v : Value) : Prop := v.Closures (r.HasClosure n)

/-- What is true of a heap with the root frame. -/
structure Holds (r : Reach) (h : Heap) : Prop where
  root : r.root < h.frames.size
  first : r.first ≤ h.memberFrames.size
  outermost : ∀ f, r.HasFrame h.frames.size f → h.parent? f = none →
    (∀ p : Primitive, p.IsSymbolic → h.own? f p.name = some (.primitive p)) ∧
      h.owns f "$list" = true
  inner : ∀ f parent, r.root ≤ f → h.parent? f = some parent →
    r.root ≤ parent ∧ parent < f ∧ ∀ p : Primitive, p.IsSymbolic → h.own? f p.name = none
  values : ∀ f name v, r.root ≤ f → h.own? f name = some v → r.HasValue h.frames.size v
  members : ∀ id f, r.first ≤ id → h.memberFrame? id = some f → r.HasFrame h.frames.size f

theorem HasFrame.mono (hf : r.HasFrame n f) (hn : n ≤ n') : r.HasFrame n' f :=
  ⟨hf.1, Nat.lt_of_lt_of_le hf.2 hn⟩

theorem hasFrame_root (r : Reach) (hh : r.Holds h) : r.HasFrame h.frames.size r.root :=
  ⟨Nat.le_refl _, hh.root⟩

theorem HasValue.mono (hv : r.HasValue n v) (hn : n ≤ n') : r.HasValue n' v :=
  Value.Closures.mono hv fun _ hc => ⟨hc.id, hc.frame.mono hn, hc.params, hc.body⟩

/-! ### Looking outward -/

namespace Holds

/-- Looking outward stays among the frames that are reached. -/
theorem hasFrame_owner (hh : r.Holds h) (hf : r.root ≤ f)
    (hfound : h.resolveWithin name bound f = some (owner, v)) : r.HasFrame h.frames.size owner := by
  refine ⟨?_, Heap.lt_size_of_owns (Heap.owns_of_resolveWithin hfound)⟩
  induction bound generalizing f with
  | zero => cases hfound
  | succ bound ih =>
    rw [Heap.resolveWithin_succ] at hfound
    cases hown : h.own? f name with
    | some found =>
      rw [hown] at hfound
      cases hfound
      exact hf
    | none =>
      rw [hown] at hfound
      obtain ⟨parent, hparent, hrest⟩ := Option.bind_eq_some_iff.1 hfound
      exact ih (hh.inner f parent hf hparent).1 hrest

theorem lookup (hh : r.Holds h) (hf : r.root ≤ f) (hfound : h.lookup f name = some v) :
    r.HasValue h.frames.size v := by
  obtain ⟨⟨owner, found⟩, hresolve, rfl⟩ := Option.map_eq_some_iff.1 hfound
  exact hh.values owner name found (hh.hasFrame_owner hf hresolve).1
    (Heap.own?_of_resolveWithin hresolve)

/-- A name that all outermost frames bind is found from everywhere. -/
theorem resolves (hh : r.Holds h) (hname : ∀ f, r.HasFrame h.frames.size f → h.parent? f = none →
    h.owns f name = true) (hf : r.HasFrame h.frames.size f) (hbound : f < bound) :
    ∃ owner v, h.resolveWithin name bound f = some (owner, v) := by
  induction bound generalizing f with
  | zero => cases hbound
  | succ bound ih =>
    rw [Heap.resolveWithin_succ]
    cases hown : h.own? f name with
    | some found => exact ⟨f, found, rfl⟩
    | none =>
      cases hparent : h.parent? f with
      | none =>
        obtain ⟨found, hfound⟩ := Heap.owns_iff_own?.1 (hname f hf hparent)
        cases hown.symm.trans hfound
      | some parent =>
        obtain ⟨hroot, hlt, -⟩ := hh.inner f parent hf.1 hparent
        exact ih ⟨hroot, Nat.lt_trans hlt hf.2⟩ (Nat.lt_of_lt_of_le hlt (Nat.le_of_lt_succ hbound))

/-- **The symbol of an operator is found**, from every frame, bound to its primitive. -/
theorem lookup_symbol (hh : r.Holds h) (hf : r.HasFrame h.frames.size f) {p : Primitive}
    (hp : p.IsSymbolic) : h.lookup f p.name = some (.primitive p) := by
  have hname : ∀ f, r.HasFrame h.frames.size f → h.parent? f = none → h.owns f p.name = true :=
    fun f hf hparent => Heap.owns_iff_own?.2 ⟨_, (hh.outermost f hf hparent).1 p hp⟩
  obtain ⟨owner, v, hresolve⟩ := hh.resolves hname hf (Nat.lt_succ_self f)
  have howner := hh.hasFrame_owner hf.1 hresolve
  have hown := Heap.own?_of_resolveWithin hresolve
  -- a frame inside another does not bind the symbol, so it was found in an outermost one
  have hv : v = .primitive p := by
    cases hparent : h.parent? owner with
    | none => exact Option.some.inj (hown.symm.trans ((hh.outermost owner howner hparent).1 p hp))
    | some parent =>
      cases hown.symm.trans ((hh.inner owner parent howner.1 hparent).2.2 p hp)
  rw [Heap.lookup, Heap.resolve, hresolve, hv]
  rfl

/-- `$list` is found too, bound to something. -/
theorem lookup_list (hh : r.Holds h) (hf : r.HasFrame h.frames.size f) :
    ∃ v, h.lookup f "$list" = some v := by
  obtain ⟨owner, v, hresolve⟩ :=
    hh.resolves (fun f hf hparent => (hh.outermost f hf hparent).2) hf (Nat.lt_succ_self f)
  exact ⟨v, by rw [Heap.lookup, Heap.resolve, hresolve]; rfl⟩

/-! ### Changing heaps -/

theorem push (hh : r.Holds h) {frame : Frame}
    (houtermost : frame.parent = none →
      (∀ p : Primitive, p.IsSymbolic → frame.bindings.get? p.name = some (.primitive p)) ∧
        frame.bindings.contains "$list" = true)
    (hinner : ∀ parent, frame.parent = some parent → r.HasFrame h.frames.size parent ∧
      ∀ p : Primitive, p.IsSymbolic → frame.bindings.get? p.name = none)
    (hvalues : ∀ name v, frame.bindings.get? name = some v → r.HasValue h.frames.size v) :
    r.Holds (h.push frame).2 := by
  have hsize : (h.push frame).2.frames.size = h.frames.size + 1 := by simp [Heap.push]
  have hcases : ∀ {f}, f < (h.push frame).2.frames.size →
      f < h.frames.size ∨ f = h.frames.size := by omega
  have hle : h.frames.size ≤ (h.push frame).2.frames.size := by omega
  refine ⟨Nat.lt_of_lt_of_le hh.root hle, hh.first, fun f hf hparent => ?_,
    fun f parent hf hparent => ?_, fun f name v hf hown => ?_,
    fun id f hid hmember => (hh.members id f hid hmember).mono hle⟩
  · rcases hcases hf.2 with hold | rfl
    · rw [Heap.parent?_push frame hold] at hparent
      simp only [Heap.own?_push frame hold, Heap.owns_push frame hold]
      exact hh.outermost f ⟨hf.1, hold⟩ hparent
    · rw [Heap.parent?_push_new] at hparent
      obtain ⟨hsymbols, hlist⟩ := houtermost hparent
      refine ⟨fun p hp => by rw [Heap.own?_push_new]; exact hsymbols p hp, ?_⟩
      rw [Heap.owns_iff_own?, Heap.own?_push_new]
      exact Bindings.contains_iff_get?.1 hlist
  · rcases hcases (Heap.lt_size_of_parent? hparent) with hold | rfl
    · rw [Heap.parent?_push frame hold] at hparent
      simp only [Heap.own?_push frame hold]
      exact hh.inner f parent hf hparent
    · rw [Heap.parent?_push_new] at hparent
      obtain ⟨hreached, hfree⟩ := hinner parent hparent
      exact ⟨hreached.1, hreached.2, fun p hp => by rw [Heap.own?_push_new]; exact hfree p hp⟩
  · rcases hcases (Heap.lt_size_of_own? hown) with hold | rfl
    · rw [Heap.own?_push frame hold] at hown
      exact (hh.values f name v hf hown).mono hle
    · rw [Heap.own?_push_new] at hown
      exact (hvalues name v hown).mono hle

theorem define (hh : r.Holds h) (hf : r.HasFrame h.frames.size f) (hname : Named name)
    (hv : r.HasValue h.frames.size v) : r.Holds (h.define f name v) := by
  have hsymbol : ∀ {f'} {p : Primitive}, p.IsSymbolic →
      (h.define f name v).own? f' p.name = h.own? f' p.name := by
    intro f' p hp
    rw [Heap.own?_define hf.2, if_neg fun hsame => hp.ne hname hsame.2]
  obtain ⟨hroot, hfirst, houtermost, hinner, hvalues, hmembers⟩ := hh
  rw [← Heap.size_define] at hroot houtermost hvalues hmembers
  refine ⟨hroot, hfirst, fun f' hf' hparent => ?_, fun f' parent hf' hparent => ?_,
    fun f' name' v' hf' hown => ?_, hmembers⟩
  · rw [Heap.parent?_define] at hparent
    obtain ⟨hsymbols, hlist⟩ := houtermost f' hf' hparent
    exact ⟨fun p hp => (hsymbol hp).trans (hsymbols p hp), Heap.owns_define.2 (.inl hlist)⟩
  · rw [Heap.parent?_define] at hparent
    obtain ⟨hreached, hlt, hfree⟩ := hinner f' parent hf' hparent
    exact ⟨hreached, hlt, fun p hp => (hsymbol hp).trans (hfree p hp)⟩
  · rw [Heap.own?_define hf.2] at hown
    split at hown
    · cases hown
      rwa [Heap.size_define]
    · exact hvalues f' name' v' hf' hown

theorem assign (hh : r.Holds h) (hf : r.HasFrame h.frames.size f) (hname : Named name)
    (hv : r.HasValue h.frames.size v) : r.Holds (h.assign f name v).2 := by
  unfold Heap.assign
  split
  next hresolve => exact hh.define (hh.hasFrame_owner hf.1 hresolve) hname hv
  next => exact hh

/-- A new frame inside one that is reached. -/
theorem bind (hh : r.Holds h) {parent : FrameId} {names : List String} {values : List Value}
    (hparent : r.HasFrame h.frames.size parent) (hnames : ∀ name ∈ names, Named name)
    (hvalues : ∀ v ∈ values, r.HasValue h.frames.size v) :
    r.Holds (h.bind parent names values).2 := by
  have hall : (Bindings.insertAll [] names values).All fun name v =>
      Named name ∧ r.HasValue h.frames.size v :=
    Bindings.All.insertAll (by simp [Bindings.All])
      fun name hname v hv => ⟨hnames name hname, hvalues v hv⟩
  refine hh.push (by rintro ⟨⟩) ?_ fun name v hget => (hall.get? hget).2
  rintro _ ⟨⟩
  refine ⟨hparent, fun p hp => ?_⟩
  cases hget : (Bindings.insertAll [] names values).get? p.name with
  | none => rfl
  | some v => exact absurd (hall.get? hget).1 hp

theorem newClosure (hh : r.Holds h) : r.Holds h.newClosure.2 := by
  refine ⟨hh.root, ?_, hh.outermost, hh.inner, hh.values, fun id f hid hmember => ?_⟩
  · exact Nat.le_trans hh.first (by simp [Heap.newClosure])
  · refine hh.members id f hid ?_
    unfold Heap.memberFrame? Heap.newClosure at hmember
    rw [Array.getElem?_push] at hmember
    split at hmember
    · cases hmember
    · exact hmember

theorem setMemberFrame (hh : r.Holds h) {id : ClosureId} (hf : r.HasFrame h.frames.size f) :
    r.Holds (h.setMemberFrame id f) := by
  refine ⟨hh.root, ?_, hh.outermost, hh.inner, hh.values, fun id' f' hid hmember => ?_⟩
  · simpa [Heap.setMemberFrame] using hh.first
  · unfold Heap.memberFrame? Heap.setMemberFrame at hmember
    rw [Array.getElem?_modify] at hmember
    split at hmember
    · obtain ⟨kept, -, hkept⟩ := Option.map_eq_some_iff.1 (Option.join_eq_some_iff.1 hmember)
      cases hkept
      exact hf
    · exact hh.members id' f' hid hmember

end Holds

/-- The reach of programs on certain lines, from a root frame that is added to a heap. -/
def ofHeap (h : Heap) (line : Nat → Prop) : Reach := ⟨h.frames.size, h.memberFrames.size, line⟩

theorem holds_standardRoot (h : Heap) (line : Nat → Prop) :
    (ofHeap h line).Holds h.standardRoot.2 := by
  have hsize : h.standardRoot.2.frames.size = h.frames.size + 1 := by
    simp [Heap.standardRoot, Heap.push]
  have hroot : ∀ {f}, h.frames.size ≤ f → f < h.standardRoot.2.frames.size →
      f = h.frames.size := by omega
  refine ⟨hsize ▸ Nat.lt_succ_self _, Nat.le_refl _, fun f hf _ => ?_,
    fun f parent hf hparent => ?_, fun f name v hf hown => ?_, fun id f hid hmember => ?_⟩
  · obtain rfl := hroot hf.1 hf.2
    rw [Heap.owns_iff_own?]
    simp only [Heap.standardRoot, Heap.own?_push_new]
    exact ⟨fun p _ => Heap.standardBindings_get? p, _, Heap.standardBindings_get? .list⟩
  · obtain rfl := hroot hf (Heap.lt_size_of_parent? hparent)
    rw [Heap.standardRoot, Heap.parent?_push_new] at hparent
    cases hparent
  · obtain rfl := hroot hf (Heap.lt_size_of_own? hown)
    rw [Heap.standardRoot, Heap.own?_push_new] at hown
    exact (Heap.standardBindings_closures _).get? hown
  · have hnone : h.memberFrame? id = none := by
      simp [Heap.memberFrame?, Array.getElem?_eq_none hid]
    cases hnone.symm.trans hmember

/-! ### Evaluation -/

/-- **Evaluation stays within reach**, and is blamed on the lines of the programs. -/
def regime (r : Reach) : Regime where
  machine m := r.Holds m.heap
  halt halt m := r.Holds m.heap ∧ ∀ f, halt = .fault f → r.line f.line
  stage m := m.heap.frames.size
  value := r.HasValue
  frame := r.HasFrame
  closureId id := r.first ≤ id
  binds _ := Named
  name := Named
  line := r.line
  lenient := False
  value_mono hn hv := hv.mono hn
  frame_mono hn hf := hf.mono hn
  byParts n := Value.closures_byParts (r.HasClosure n)
  closures hc := ⟨hc.frame, hc.params, hc.id⟩
  fault hm hline := ⟨hm, by rintro _ ⟨⟩; exact hline⟩
  host _ hm := ⟨hm, Nat.le_refl _⟩
  cells _ hm := ⟨⟨hm.root, hm.first, hm.outermost, hm.inner, hm.values, hm.members⟩, Nat.le_refl _⟩
  closure hm := ⟨⟨hm.newClosure, Nat.le_refl _⟩, hm.first⟩
  member hm hid hmember := hm.members _ _ hid hmember
  members _ _ hm _ hf := ⟨hm.setMemberFrame hf, Nat.le_refl _⟩
  bind hm hparent hnames hvalues := by
    refine ⟨⟨hm.bind hparent hnames hvalues, ?_⟩, ⟨Nat.le_of_lt hm.root, ?_⟩, fun _ => id⟩
    all_goals simp [Heap.bind, Heap.push]
  define hm hf hname hv := ⟨hm.define hf hname hv, Nat.le_of_eq Heap.size_define.symm⟩
  assign hm hf hname hv := ⟨hm.assign hf hname hv, Nat.le_of_eq Heap.size_assign.symm⟩
  lookup hm hf hfound := hm.lookup hf.1 hfound

theorem covers (r : Reach) : r.regime.Covers r.Part where
  fits hnode := ⟨hnode.here.2, hnode.here.1.names⟩
  values := by
    rintro node part ⟨-, hvalues, -⟩ hpart
    exact hvalues part hpart
  statements := by
    rintro node part ⟨-, -, hstatements⟩ hpart
    exact hstatements part hpart
  binds hname := hname
  literal := by
    rintro n frame id name params body line ⟨hhere, -, hbody⟩ hframe hid
    exact ⟨hid, hframe, fun param hparam => hhere.1.names param (List.mem_append_right _ hparam),
      hbody⟩
  body hc := hc.body
  depth _ hm := ⟨hm, Nat.le_refl _⟩
  halt _ hm := hm
  fuel hm := ⟨hm, nofun⟩

end Reach

end PairScript
