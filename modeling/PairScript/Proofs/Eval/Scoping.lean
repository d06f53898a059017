import Mathlib.Data.List.Basic
import PairScript.Proofs.Eval.Chain

/-!
# Lexical scoping

Frames are shared: closures, loops and namespaces hold numbers of frames, and two holders of one
number see each other's writes.  So the laws of look-up are laws of a heap in which many chains of
parents run together.

* `Heap.Made` generates the heaps that the operations on frames build, with the numbers that they
  have handed out;
* `Heap.Chain` is the chain of parents of a frame, and `Heap.Sees` says that a frame is on a chain
  with no frame before it that binds a name;
* in a heap whose parents are older than their children every chain is finite, a look-up finds the
  first binding on it, and a binding that is made or overwritten changes exactly the look-ups that
  see the frame of it.

`frames_scope_lexically` puts the laws together.
-/

namespace PairScript

namespace Bindings

/-- Of several values for one name the last counts. -/
theorem get?_insertAll {b : Bindings} {names : List String} {values : List Value} {n : String} :
    (b.insertAll names values).get? n =
      ((names.zip values).reverse.lookup n).or (b.get? n) := by
  induction names generalizing b values with
  | nil => rfl
  | cons name names ih =>
    cases values with
    | nil => rfl
    | cons value values =>
      have hlast : List.lookup n [(name, value)] = if n = name then some value else none :=
        get?_cons (b := [])
      rw [insertAll, ih, get?_insert, List.zip_cons_cons, List.reverse_cons, List.lookup_append,
        hlast, Option.or_assoc]
      split <;> rfl

end Bindings

namespace Heap

variable {h : Heap} {handles : List FrameId} {e e' f : FrameId} {ids : List FrameId}
  {n n' : String} {v w : Value}

/-! ### Chains -/

/-- The frames from `e` outward, up to one without a parent. -/
inductive Chain (h : Heap) : FrameId → List FrameId → Prop
  | outermost {e : FrameId} (last : h.parent? e = none) : Chain h e [e]
  | inner {e parent : FrameId} {ids : List FrameId} (next : h.parent? e = some parent)
      (rest : Chain h parent ids) : Chain h e (e :: ids)

/-- The frame `f` is on the chain of `e`, and no frame before it binds the name. -/
def Sees (h : Heap) (e : FrameId) (n : String) (f : FrameId) : Prop :=
  ∃ before after, h.Chain e (before ++ f :: after) ∧ ∀ g ∈ before, h.own? g n = none

/-- From `e`, the name is found in the frame `f`. -/
def Resolves (h : Heap) (e : FrameId) (n : String) (f : FrameId) : Prop :=
  h.Sees e n f ∧ h.owns f n = true

/-- Parents are older than their children. -/
def Ordered (h : Heap) : Prop := ∀ e parent, h.parent? e = some parent → parent < e

theorem Chain.unique {ids' : List FrameId} (hids : h.Chain e ids) (hids' : h.Chain e ids') :
    ids' = ids := by
  induction hids generalizing ids' with
  | outermost last =>
    cases hids' with
    | outermost => rfl
    | inner next => cases last.symm.trans next
  | inner next _ ih =>
    cases hids' with
    | outermost last => cases last.symm.trans next
    | inner next' rest =>
      cases next.symm.trans next'
      rw [ih rest]

theorem Chain.self (hids : h.Chain e ids) : ∃ after, ids = e :: after := by
  cases hids with
  | outermost _ => exact ⟨[], rfl⟩
  | inner _ _ => exact ⟨_, rfl⟩

/-- A heap with the same parents has the same chains. -/
theorem Chain.congr {h' : Heap} (hids : h.Chain e ids) (hparent : ∀ g, h'.parent? g = h.parent? g) :
    h'.Chain e ids := by
  induction hids with
  | outermost last => exact .outermost ((hparent _).trans last)
  | inner next _ ih => exact .inner ((hparent _).trans next) ih

/-- Making a frame leaves the chains of the others as they are. -/
theorem Chain.push (hh : h.Ordered) (hids : h.Chain e ids) (he : e < h.frames.size)
    (frame : Frame) : (h.push frame).2.Chain e ids := by
  induction hids with
  | outermost last => exact .outermost ((parent?_push frame he).trans last)
  | inner next _ ih =>
    have hparent := Nat.lt_trans (hh _ _ next) he
    exact .inner ((parent?_push frame he).trans next) (ih hparent)

theorem sees_self (hh : ∃ ids, h.Chain e ids) : h.Sees e n e := by
  obtain ⟨ids, hids⟩ := hh
  obtain ⟨after, rfl⟩ := hids.self
  exact ⟨[], after, hids, nofun⟩

/-! ### Looking outward -/

/-- A walk outward that is long enough finds the first binding on the chain. -/
theorem Chain.resolveWithin (hids : h.Chain e ids) {bound : Nat} (hbound : ids.length ≤ bound) :
    h.resolveWithin n bound e = ids.findSome? fun f => (h.own? f n).map (f, ·) := by
  induction hids generalizing bound with
  | outermost last =>
    obtain ⟨bound, rfl⟩ := Nat.exists_eq_succ_of_ne_zero (Nat.ne_zero_of_lt hbound)
    rw [resolveWithin_succ, last, List.findSome?_cons]
    cases h.own? _ n <;> rfl
  | inner next _ ih =>
    obtain ⟨bound, rfl⟩ := Nat.exists_eq_succ_of_ne_zero (Nat.ne_zero_of_lt hbound)
    rw [resolveWithin_succ, next, List.findSome?_cons]
    cases h.own? _ n with
    | some value => rfl
    | none => exact ih (Nat.le_of_succ_le_succ hbound)

namespace Ordered

/-- **Every chain is finite**: it has at most as many frames as there are numbers up to `e`. -/
theorem chain (hh : h.Ordered) (e : FrameId) : ∃ ids, h.Chain e ids ∧ ids.length ≤ e + 1 := by
  induction e using Nat.strongRecOn with
  | ind e ih =>
    cases hparent : h.parent? e with
    | none => exact ⟨[e], .outermost hparent, Nat.succ_le_succ (Nat.zero_le e)⟩
    | some parent =>
      have hlt := hh e parent hparent
      obtain ⟨ids, hids, hlength⟩ := ih parent hlt
      exact ⟨e :: ids, .inner hparent hids, Nat.succ_le_succ (Nat.le_trans hlength hlt)⟩

theorem resolve_eq (hh : h.Ordered) (hids : h.Chain e ids) :
    h.resolve e n = ids.findSome? fun f => (h.own? f n).map (f, ·) := by
  obtain ⟨ids', hids', hlength⟩ := hh.chain e
  obtain rfl := hids'.unique hids
  exact hids.resolveWithin hlength

/-- **A look-up gives the value in the nearest frame** that binds the name. -/
theorem lookup_eq (hh : h.Ordered) (hids : h.Chain e ids) :
    h.lookup e n = ids.findSome? (h.own? · n) := by
  have hvalue : Option.map (·.2) ∘ (fun f => (h.own? f n).map (f, ·)) = (h.own? · n) := by
    funext f
    rw [Function.comp_apply, Option.map_map]
    exact Option.map_id'
  rw [lookup, hh.resolve_eq hids, List.map_findSome?, hvalue]

theorem resolve_eq_some_iff (hh : h.Ordered) :
    h.resolve e n = some (f, w) ↔ h.Sees e n f ∧ h.own? f n = some w := by
  obtain ⟨ids, hids, -⟩ := hh.chain e
  rw [hh.resolve_eq hids, List.findSome?_eq_some_iff]
  constructor
  · rintro ⟨before, g, after, rfl, hfound, hbefore⟩
    obtain ⟨value, hown, hsame⟩ := Option.map_eq_some_iff.1 hfound
    cases hsame
    exact ⟨⟨before, after, hids, fun g hg => Option.map_eq_none_iff.1 (hbefore g hg)⟩, hown⟩
  · rintro ⟨⟨before, after, hids', hbefore⟩, hown⟩
    obtain rfl := hids.unique hids'
    refine ⟨before, f, after, rfl, by rw [hown]; rfl, fun g hg => ?_⟩
    rw [hbefore g hg]
    rfl

/-! ### Binding a name -/

theorem define (hh : h.Ordered) : (h.define f n v).Ordered := by
  intro e parent hparent
  rw [parent?_define] at hparent
  exact hh e parent hparent

/-- Who sees a frame finds what is bound in it. -/
theorem lookup_define_of_sees (hh : h.Ordered) (hf : f < h.frames.size) (hsees : h.Sees e n f) :
    (h.define f n v).lookup e n = some v := by
  obtain ⟨before, after, hids, hbefore⟩ := hsees
  have hids' : (h.define f n v).Chain e (before ++ f :: after) := hids.congr fun _ => parent?_define
  have hown : ∀ g, g = f ∨ h.own? g n = none →
      (h.define f n v).own? g n = if g = f then some v else none := by
    intro g hg
    rw [own?_define hf]
    by_cases hsame : g = f
    · rw [if_pos ⟨hsame, rfl⟩, if_pos hsame]
    · rw [if_neg fun hboth => hsame hboth.1, if_neg hsame, hg.resolve_left hsame]
  rw [hh.define.lookup_eq hids', List.findSome?_append]
  have hrest : (f :: after).findSome? ((h.define f n v).own? · n) = some v := by
    rw [List.findSome?_cons, hown f (.inl rfl), if_pos rfl]
  -- a frame before it that is the same frame gives the same value
  cases hfirst : before.findSome? ((h.define f n v).own? · n) with
  | none => rw [Option.none_or, hrest]
  | some found =>
    obtain ⟨g, hg, hfound⟩ := List.exists_of_findSome?_eq_some hfirst
    rw [hown g (.inr (hbefore g hg))] at hfound
    split at hfound
    · rw [Option.some_or, ← hfound]
    · cases hfound

/-- Who does not see a frame, or looks for another name, finds what was found before. -/
theorem lookup_define_of_not (hh : h.Ordered) (hf : f < h.frames.size)
    (hnot : ¬ (n' = n ∧ h.Sees e n f)) : (h.define f n v).lookup e n' = h.lookup e n' := by
  obtain ⟨ids, hids, -⟩ := hh.chain e
  have hids' : (h.define f n v).Chain e ids := hids.congr fun _ => parent?_define
  have hother : ∀ g, ¬ (g = f ∧ n' = n) → (h.define f n v).own? g n' = h.own? g n' :=
    fun g hg => by rw [own?_define hf, if_neg hg]
  have hsame : ∀ gs : List FrameId, (∀ g ∈ gs, ¬ (g = f ∧ n' = n)) →
      gs.findSome? ((h.define f n v).own? · n') = gs.findSome? (h.own? · n') := by
    intro gs hgs
    rw [← List.head?_filterMap, ← List.head?_filterMap]
    exact congrArg List.head? (List.filterMap_congr fun g hg => hother g (hgs g hg))
  rw [hh.define.lookup_eq hids', hh.lookup_eq hids]
  by_cases hon : f ∈ ids ∧ n' = n
  · -- the frame is on the chain, so a frame before it binds the name
    obtain ⟨hmem, rfl⟩ := hon
    obtain ⟨before, after, rfl, hfirst⟩ := List.eq_append_cons_of_mem hmem
    rw [List.findSome?_append, List.findSome?_append,
      hsame before fun g hg hboth => hfirst (hboth.1 ▸ hg)]
    cases hfound : before.findSome? (h.own? · n') with
    | some found => rfl
    | none =>
      have hbefore := List.findSome?_eq_none_iff.1 hfound
      exact absurd ⟨rfl, before, after, hids, hbefore⟩ hnot
  · exact hsame ids fun g hg hboth => hon ⟨hboth.1 ▸ hg, hboth.2⟩

/-! ### Overwriting a binding -/

/-- An assignment binds the name in the frame where it is found. -/
theorem assign_eq (hh : h.Ordered) (hfound : (h.assign e n v).1 = true) :
    ∃ owner, h.Resolves e n owner ∧ owner < h.frames.size ∧
      (h.assign e n v).2 = h.define owner n v := by
  unfold Heap.assign at hfound ⊢
  cases hresolve : h.resolve e n with
  | none =>
    rw [hresolve] at hfound
    cases hfound
  | some found =>
    obtain ⟨owner, w⟩ := found
    obtain ⟨hsees, hown⟩ := hh.resolve_eq_some_iff.1 hresolve
    exact ⟨owner, ⟨hsees, owns_iff_own?.2 ⟨w, hown⟩⟩, lt_size_of_own? hown, rfl⟩

theorem assign (hh : h.Ordered) : (h.assign e n v).2.Ordered := by
  unfold Heap.assign
  split
  · exact hh.define
  · exact hh

/-! ### Making a frame -/

theorem push (hh : h.Ordered) {frame : Frame}
    (hparent : ∀ parent, frame.parent = some parent → parent < h.frames.size) :
    (h.push frame).2.Ordered := by
  intro e parent hnext
  have hlt : e < h.frames.size + 1 := by simpa [Heap.push] using lt_size_of_parent? hnext
  rcases Nat.lt_succ_iff_lt_or_eq.1 hlt with hold | rfl
  · rw [parent?_push frame hold] at hnext
    exact hh e parent hnext
  · rw [parent?_push_new] at hnext
    exact hparent parent hnext

theorem lookup_push (hh : h.Ordered) {frame : Frame}
    (hparent : ∀ parent, frame.parent = some parent → parent < h.frames.size)
    (he : e < h.frames.size) : (h.push frame).2.lookup e n = h.lookup e n := by
  obtain ⟨ids, hids, -⟩ := hh.chain e
  have hold : ∀ g ∈ ids, g < h.frames.size := by
    intro g hg
    induction hids with
    | outermost _ => exact List.mem_singleton.1 hg ▸ he
    | inner next _ ih =>
      rcases List.mem_cons.1 hg with rfl | hg
      · exact he
      · exact ih (Nat.lt_trans (hh _ _ next) he) hg
  rw [(hh.push hparent).lookup_eq (hids.push hh he frame), hh.lookup_eq hids,
    ← List.head?_filterMap, ← List.head?_filterMap]
  exact congrArg List.head? (List.filterMap_congr fun g hg => own?_push frame (hold g hg))

/-- From a new frame, its own bindings come first. -/
theorem lookup_push_new (hh : h.Ordered) {b : Bindings} (he : e < h.frames.size) :
    (h.push ⟨b, some e⟩).2.lookup h.frames.size n = (b.get? n).or (h.lookup e n) := by
  have hparent : ∀ parent, (Frame.mk b (some e)).parent = some parent → parent < h.frames.size := by
    rintro _ ⟨⟩
    exact he
  obtain ⟨ids, hids, -⟩ := (hh.push hparent).chain e
  rw [(hh.push hparent).lookup_eq (.inner (parent?_push_new _) hids), List.findSome?_cons,
    own?_push_new, ← (hh.push hparent).lookup_eq hids, hh.lookup_push hparent he]
  cases b.get? n <;> rfl

end Ordered

/-- An assignment succeeds exactly where the name is found. -/
theorem assign_fst : (h.assign e n v).1 = (h.lookup e n).isSome := by
  unfold assign lookup
  cases h.resolve e n <;> rfl

theorem assign_snd_of_not (hfound : (h.assign e n v).1 = false) : (h.assign e n v).2 = h := by
  unfold assign at hfound ⊢
  cases hresolve : h.resolve e n with
  | none => rfl
  | some found =>
    rw [hresolve] at hfound
    cases hfound

/-! ### Heaps of frames -/

/-- The heaps that operations on frames build, with the numbers of frames that they have handed
out.  To clone a number is to hand it out again. -/
inductive Made : Heap → List FrameId → Prop
  | empty : Made .empty []
  | root {h : Heap} {handles : List FrameId} (before : Made h handles) :
      Made h.root.2 (h.root.1 :: handles)
  | child {h : Heap} {handles : List FrameId} {e : FrameId} (before : Made h handles)
      (held : e ∈ handles) : Made (h.child e).2 ((h.child e).1 :: handles)
  | clone {h : Heap} {handles : List FrameId} {e : FrameId} (before : Made h handles)
      (held : e ∈ handles) : Made h (e :: handles)
  | bind {h : Heap} {handles : List FrameId} {e : FrameId} {names : List String}
      {values : List Value} (before : Made h handles) (held : e ∈ handles)
      (paired : names.length = values.length) :
      Made (h.bind e names values).2 ((h.bind e names values).1 :: handles)
  | define {h : Heap} {handles : List FrameId} {e : FrameId} {n : String} {v : Value}
      (before : Made h handles) (held : e ∈ handles) : Made (h.define e n v) handles
  | assign {h : Heap} {handles : List FrameId} {e : FrameId} {n : String} {v : Value}
      (before : Made h handles) (held : e ∈ handles) : Made (h.assign e n v).2 handles

/-- What is handed out is there, and parents are older than their children. -/
theorem Made.ordered (hmade : h.Made handles) :
    h.Ordered ∧ ∀ e ∈ handles, e < h.frames.size := by
  have hnew : ∀ {h : Heap} {handles : List FrameId} {frame : Frame},
      (h.Ordered ∧ ∀ e ∈ handles, e < h.frames.size) →
      (∀ parent, frame.parent = some parent → parent ∈ handles) →
      (h.push frame).2.Ordered ∧ ∀ e ∈ (h.push frame).1 :: handles,
        e < (h.push frame).2.frames.size := by
    intro h handles frame ⟨hh, hhandles⟩ hparent
    have hsize : (h.push frame).2.frames.size = h.frames.size + 1 := by simp [Heap.push]
    rw [hsize, List.forall_mem_cons]
    exact ⟨hh.push fun parent h => hhandles parent (hparent parent h), Nat.lt_succ_self _,
      fun e he => Nat.lt_succ_of_lt (hhandles e he)⟩
  induction hmade with
  | empty =>
    refine ⟨fun e parent hparent => ?_, by simp⟩
    cases lt_size_of_parent? hparent
  | root _ ih => exact hnew ih nofun
  | child _ held ih | bind _ held _ ih =>
    refine hnew ih ?_
    rintro _ ⟨⟩
    exact held
  | clone _ held ih => exact ⟨ih.1, List.forall_mem_cons.2 ⟨ih.2 _ held, ih.2⟩⟩
  | define _ _ ih => exact ⟨ih.1.define, by simpa only [size_define] using ih.2⟩
  | assign _ _ ih => exact ⟨ih.1.assign, by simpa only [size_assign] using ih.2⟩

end Heap

/-! ### The laws of look-up -/

theorem Eval.boundFrame_of_ne {e : FrameId} {names : List String} {values : List Value}
    {line : Nat} (m : Machine) (h : names.length ≠ values.length) :
    Eval.boundFrame e names values line m
      = .error (.fault ⟨.frameArity names.length values.length, line⟩) m := by
  unfold Eval.boundFrame
  rw [if_neg (by simpa using h)]
  rfl

theorem Eval.boundFrame_of_eq {e : FrameId} {names : List String} {values : List Value}
    {line : Nat} (m : Machine) (h : names.length = values.length) :
    Eval.boundFrame e names values line m
      = .ok m.heap.frames.size { m with heap := (m.heap.bind e names values).2 } := by
  unfold Eval.boundFrame
  rw [if_pos (by simpa using h)]
  rfl

/-- **Frames scope lexically.**  In every heap that operations on frames build, from every frame
that they have handed out:

* the chain of parents is finite, and a look-up gives the value in the nearest frame of it that
  binds the name;
* an assignment succeeds if and only if the look-up does; then the look-up gives the new value, from
  everywhere that finds the name in the same frame, and no other look-up changes; and if it fails no
  look-up changes;
* a definition is seen by the look-ups of the name that come to the frame before any other binding,
  and no other look-up changes;
* making a frame with bindings fails if and only if there are not as many values as names, and then
  nothing changes; otherwise the frame is a new one, which binds each name to the last value that it
  is paired with, and no look-up from another frame changes. -/
theorem frames_scope_lexically {h : Heap} {handles : List FrameId} (hmade : h.Made handles)
    {e : FrameId} (he : e ∈ handles) :
    (∃ chain, h.Chain e chain ∧ (∀ other, h.Chain e other → other = chain) ∧
      ∀ n, h.lookup e n = chain.findSome? (h.own? · n)) ∧
    (∀ n v,
      ((h.assign e n v).1 = true ↔ (h.lookup e n).isSome = true) ∧
      ((h.assign e n v).1 = true → (h.assign e n v).2.lookup e n = some v ∧
        ∃ owner, h.Resolves e n owner ∧ ∀ e' ∈ handles,
          (h.Resolves e' n owner → (h.assign e n v).2.lookup e' n = some v) ∧
          ∀ n', (h.assign e n v).2.lookup e' n' ≠ h.lookup e' n' →
            n' = n ∧ h.Resolves e' n owner) ∧
      ((h.assign e n v).1 = false → ∀ e' ∈ handles, ∀ n',
        (h.assign e n v).2.lookup e' n' = h.lookup e' n')) ∧
    (∀ n v, (h.define e n v).lookup e n = some v ∧ ∀ e' ∈ handles,
      (h.Sees e' n e → (h.define e n v).lookup e' n = some v) ∧
      ∀ n', (h.define e n v).lookup e' n' ≠ h.lookup e' n' → n' = n ∧ h.Sees e' n e) ∧
    ∀ (names : List String) (values : List Value) (line : Nat) (m : Machine), m.heap = h →
      (names.length ≠ values.length → Eval.boundFrame e names values line m
        = .error (.fault ⟨.frameArity names.length values.length, line⟩) m) ∧
      (names.length = values.length → ∃ inner h',
        Eval.boundFrame e names values line m = .ok inner { m with heap := h' } ∧
        h.frames.size ≤ inner ∧ inner ∉ handles ∧ h'.parent? inner = some e ∧
        (∀ n, h'.own? inner n = (names.zip values).reverse.lookup n) ∧
        (∀ n, h'.lookup inner n = ((names.zip values).reverse.lookup n).or (h.lookup e n)) ∧
        ∀ e' ∈ handles, ∀ n, h'.lookup e' n = h.lookup e' n) := by
  obtain ⟨hh, hhandles⟩ := hmade.ordered
  have hsize := hhandles e he
  obtain ⟨chain, hchain, -⟩ := hh.chain e
  refine ⟨⟨chain, hchain, fun _ => hchain.unique, fun _ => hh.lookup_eq hchain⟩,
    fun n v => ⟨by rw [Heap.assign_fst], fun hfound => ?_, fun hfound e' _ n' => ?_⟩,
    fun n v => ⟨hh.lookup_define_of_sees hsize (Heap.sees_self ⟨chain, hchain⟩),
      fun e' _ => ⟨hh.lookup_define_of_sees hsize, fun n' hchanged => ?_⟩⟩,
    fun names values line m heap => ⟨Eval.boundFrame_of_ne m, fun hlength => ?_⟩⟩
  · obtain ⟨owner, howner, hlt, hassign⟩ := hh.assign_eq hfound
    rw [hassign]
    refine ⟨hh.lookup_define_of_sees hlt howner.1, owner, howner, fun e' _ =>
      ⟨fun hresolves => hh.lookup_define_of_sees hlt hresolves.1, fun n' hchanged => ?_⟩⟩
    obtain ⟨hsame, hsees⟩ := not_imp_comm.1 (hh.lookup_define_of_not hlt) hchanged
    exact ⟨hsame, hsees, howner.2⟩
  · rw [Heap.assign_snd_of_not hfound]
  · exact not_imp_comm.1 (hh.lookup_define_of_not hsize) hchanged
  · subst heap
    have hown : ∀ n, (Bindings.insertAll [] names values).get? n
        = (names.zip values).reverse.lookup n :=
      fun n => Bindings.get?_insertAll.trans (Option.or_none ..)
    refine ⟨_, _, Eval.boundFrame_of_eq m hlength, Nat.le_refl _,
      fun hheld => Nat.lt_irrefl _ (hhandles _ hheld), Heap.parent?_push_new _, fun n => ?_,
      fun n => ?_, fun e' he' n => ?_⟩
    · exact (Heap.own?_push_new _).trans (hown n)
    · exact (hh.lookup_push_new hsize).trans (by rw [hown])
    · refine hh.lookup_push ?_ (hhandles e' he')
      rintro _ ⟨⟩
      exact hsize

/-- A root frame that binds `x`, a frame inside it, and the root frame handed out again. -/
def sharedRoot : Heap := (((Heap.empty.root.2).define 0 "x" (.int 1)).child 0).2

theorem sharedRoot_made : sharedRoot.Made [0, 1, 0] := by
  have hroot : Heap.Made (Heap.empty.root.2) [0] := .root .empty
  have hchild : sharedRoot.Made [1, 0] := .child (.define hroot (by simp)) (by simp)
  exact .clone hchild (by simp)

/-- An assignment from inside is found from everywhere, and a frame binds the last of two values. -/
theorem sharedRoot_scopes_lexically :
    (sharedRoot.assign 1 "x" (.int 5)).1 = true ∧
      (sharedRoot.assign 1 "x" (.int 5)).2.lookup 1 "x" = some (.int 5) ∧
      (sharedRoot.define 1 "x" (.int 5)).lookup 0 "x" = sharedRoot.lookup 0 "x" ∧
      ∃ inner h', Eval.boundFrame 1 ["a", "a"] [.int 1, .int 2] 1 ⟨sharedRoot, .ofInput [], 0, 0⟩
        = .ok inner ⟨h', .ofInput [], 0, 0⟩ ∧ h'.lookup inner "a" = some (.int 2) := by
  obtain ⟨-, hassign, hdefine, hbind⟩ :=
    frames_scope_lexically sharedRoot_made (e := 1) (by simp)
  obtain ⟨hfound, hassigned, -⟩ := hassign "x" (.int 5)
  obtain ⟨-, hothers⟩ := hdefine "x" (.int 5)
  obtain ⟨-, hmake⟩ := hbind ["a", "a"] [.int 1, .int 2] 1 ⟨sharedRoot, .ofInput [], 0, 0⟩ rfl
  obtain ⟨inner, h', hframe, -, -, -, -, hlookup, -⟩ := hmake rfl
  refine ⟨hfound.2 rfl, (hassigned (hfound.2 rfl)).1, ?_, inner, h', hframe, hlookup "a"⟩
  by_contra hchanged
  obtain ⟨-, before, after, hchain, -⟩ := (hothers 0 (by simp)).2 "x" hchanged
  -- the chain of the root frame is the root frame alone
  have hroot : sharedRoot.Chain 0 [0] := .outermost rfl
  cases before with
  | nil => cases hroot.unique hchain
  | cons g before => simpa using hroot.unique hchain

end PairScript
