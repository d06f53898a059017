import PairScript.Syntax.Precedence

/-!
# Sorting a run agrees with precedence climbing

`Item.postOrder` sorts a run with a stack of waiting operators.  Here the same runs are read a
second time, without a stack: `Climbing.tree?` is a recursive reader that takes a *floor*, and
goes on as long as the next operator is not below it.

* `Term` is a tree of operators, `Term.postOrder` lists it, `Term.reduce` folds it;
* `Item.isRun` says which lists of items are runs;
* `releases_eq` is the bridge: an incoming operator releases a waiting one exactly when it is
  below the floor that the waiting one set for its right side;
* `expression_sorts` and `climb_sorts` carry it through the two recursions: the waiting operators
  are those of the readers in progress, followed by those that the next operator releases;
* `postOrder_eq_climbing` puts the parts together.
-/

namespace PairScript

/-! ### Trees of operators -/

/-- A tree of operators over finished subtrees. -/
inductive Term where
  | leaf (node : Node)
  | before (symbol : String) (line : Nat) (operand : Term)
  | after (symbol : String) (line : Nat) (operand : Term)
  | between (symbol : String) (line : Nat) (left right : Term)

namespace Term

/-- The items of a tree, every operator after its operands. -/
def postOrder : Term → List Item
  | .leaf node => [.operand node]
  | .before symbol line t => t.postOrder ++ [.operator symbol .before line]
  | .after symbol line t => t.postOrder ++ [.operator symbol .after line]
  | .between symbol line l r => l.postOrder ++ r.postOrder ++ [.operator symbol .between line]

/-- The syntax tree of a tree of operators, its parts being folded before it, the left one
first. -/
def reduce : Term → Except SyntaxFault Node
  | .leaf node => .ok node
  | .before symbol line t => do Item.reduceUnary symbol .before (← t.reduce) line
  | .after symbol line t => do Item.reduceUnary symbol .after (← t.reduce) line
  | .between symbol line l r => do
    let left ← l.reduce
    let right ← r.reduce
    Item.reduceBinary symbol left right line

end Term

/-! ### Runs -/

/-- Whether items are a run, or the rest of one after an operand.  A run has any number of
operators before each operand and after it, and operators of the table between operands; an index
is an operand after the operator `[`. -/
def Item.isRun : (operandDue : Bool) → List Item → Bool
  | true, .operand _ :: rest => isRun false rest
  | true, .operator _ .before _ :: rest => isRun true rest
  | false, [] => true
  | false, .operator _ .after _ :: rest => isRun false rest
  | false, .operator symbol .between _ :: rest => (binaryLevel? symbol).isSome && isRun true rest
  | _, _ => false

/-! ### Climbing -/

namespace Climbing

/-- The lowest level that the right side of an infix operator of this level takes in: its own if
it groups to the right, the next one otherwise. -/
def rightFloor (symbol : String) (level : Nat) : Nat :=
  if symbol = "**" ∨ level = 0 then level else level + 1

mutual

/-- Reads an operand with the operators before it, and all operators not below `floor` after it.
Gives the tree and the items that are left. -/
def expression : (bound floor : Nat) → List Item → Option (Term × List Item)
  | bound + 1, floor, .operand node :: rest => climb bound floor (.leaf node) rest
  | bound + 1, floor, .operator symbol .before line :: rest =>
    match expression bound (unaryLevel + 1) rest with
    | some (t, rest') => climb bound floor (.before symbol line t) rest'
    | none => none
  | _, _, _ => none

/-- Goes on after the tree `left`, as long as the next operator is not below `floor`. -/
def climb : (bound floor : Nat) → (left : Term) → List Item → Option (Term × List Item)
  | _, _, left, [] => some (left, [])
  | bound + 1, floor, left, .operator symbol .after line :: rest =>
    if floor ≤ accessLevel then climb bound floor (.after symbol line left) rest
    else some (left, .operator symbol .after line :: rest)
  | bound + 1, floor, left, .operator symbol .between line :: rest =>
    match binaryLevel? symbol with
    | some level =>
      if floor ≤ level then
        match expression bound (rightFloor symbol level) rest with
        | some (right, rest') => climb bound floor (.between symbol line left right) rest'
        | none => none
      else some (left, .operator symbol .between line :: rest)
    | none => none
  | _, _, _, _ => none

end

/-- The tree of a run. -/
def tree? (items : List Item) : Option Term :=
  match expression (items.length + 1) 0 items with
  | some (t, []) => some t
  | _ => none

/-! ### Floors of waiting operators -/

/-- The level at which an operator comes in where an operator could stand. -/
def incoming? : Item → Option Nat
  | .operator _ .after _ => some accessLevel
  | .operator symbol .between _ => binaryLevel? symbol
  | _ => none

/-- The floor that a waiting operator sets for what follows it. -/
def floor? : Item → Option Nat
  | .operator _ .before _ => some (unaryLevel + 1)
  | .operator symbol .between _ => (binaryLevel? symbol).map (rightFloor symbol)
  | _ => none

/-- Whether an operator that comes in lets a waiting one go out. -/
def releases : (incoming waiting : Item) → Bool
  | .operator symbol .between _, w => Item.yieldsToBinary symbol w
  | .operator _ .after _, w => w.yieldsToAfter
  | _, _ => false

/-- Grouping to the right is a matter of the level. -/
theorem groupsRight_eq {symbol : String} {level : Nat} (h : binaryLevel? symbol = some level) :
    groupsRight symbol = decide (level = 0 ∨ level = 13) := by
  unfold binaryLevel? at h
  split at h <;> simp_all [accessLevel] <;> subst h <;> decide

theorem rightFloor_eq {symbol : String} {level : Nat} (h : binaryLevel? symbol = some level) :
    rightFloor symbol level = if level = 0 ∨ level = 13 then level else level + 1 := by
  unfold binaryLevel? at h
  split at h <;> simp_all [accessLevel] <;> subst h <;> decide

/-- No infix operator shares its level with the prefix operators. -/
theorem level_ne_unary {symbol : String} {level : Nat} (h : binaryLevel? symbol = some level) :
    level ≠ unaryLevel ∧ level ≤ accessLevel := by
  unfold binaryLevel? at h
  split at h <;> simp_all [accessLevel, unaryLevel] <;> omega

/-- **The bridge.**  An operator that comes in releases a waiting one exactly when it is below the
floor of the waiting one. -/
theorem releases_eq {i w : Item} {level floor : Nat} (hi : incoming? i = some level)
    (hw : floor? w = some floor) : releases i w = decide (level < floor) := by
  match i, w with
  | .operator s .between _, .operator _ .before _ =>
    have hlevel : binaryLevel? s = some level := hi
    have hne := (level_ne_unary hlevel).1
    cases hw
    simp only [releases, Item.yieldsToBinary, Item.waitingLevel, hlevel, Option.getD_some]
    grind
  | .operator s .between _, .operator t .between _ =>
    have hlevel : binaryLevel? s = some level := hi
    obtain ⟨other, hother, rfl⟩ := Option.map_eq_some_iff.1 hw
    simp only [releases, Item.yieldsToBinary, Item.waitingLevel, hlevel, hother,
      Option.getD_some, groupsRight_eq hlevel, rightFloor_eq hother]
    grind
  | .operator _ .after _, .operator _ .before _ =>
    cases hi
    cases hw
    rfl
  | .operator _ .after _, .operator t .between _ =>
    obtain ⟨other, hother, rfl⟩ := Option.map_eq_some_iff.1 hw
    cases hi
    simp only [releases, Item.yieldsToAfter, Item.waitingLevel, hother, Option.getD_some,
      rightFloor_eq hother, accessLevel]
    grind

/-- Whether the next item, if there is one, is an operator below `floor`. -/
def Below (floor : Nat) : List Item → Prop
  | [] => True
  | i :: _ => ∃ level, incoming? i = some level ∧ level < floor

/-- Whether `floor` is the one that the operator on top of a stack sets. -/
def Guards (floor : Nat) : List Item → Prop
  | [] => True
  | top :: _ => floor? top = some floor

/-- The state `s'` has taken in the tree `t` since the state `s`: some of its operators still
wait, on top of those that waited before, and the next item of `rest` releases them all. -/
def Reads (s : Item.Sorting) (t : Term) (rest : List Item) (s' : Item.Sorting) : Prop :=
  ∃ pending, s'.waiting = pending ++ s.waiting ∧
    s'.out.reverse ++ pending = s.out.reverse ++ t.postOrder ∧
    ∀ w ∈ pending, ∃ floor, floor? w = some floor ∧ Below floor rest

/-- An operator not below the floor releases what is pending of the tree before it, and nothing
under that. -/
theorem Reads.release {s s' : Item.Sorting} {t : Term} {i : Item} {rest : List Item}
    {floor level : Nat} (h : Reads s t (i :: rest) s') (hg : Guards floor s.waiting)
    (hi : incoming? i = some level) (hle : floor ≤ level) :
    s'.release (releases i) = ⟨t.postOrder.reverse ++ s.out, s.waiting⟩ := by
  obtain ⟨pending, hw, hout, hall⟩ := h
  have hpop : ∀ w ∈ pending, releases i w = true := by
    intro w hmem
    obtain ⟨f, hf, k, hk, hlt⟩ := hall w hmem
    rw [hi] at hk
    cases hk
    rw [releases_eq hi hf]
    exact decide_eq_true hlt
  have hstay : s.waiting.takeWhile (releases i) = [] ∧
      s.waiting.dropWhile (releases i) = s.waiting := by
    cases hs : s.waiting with
    | nil => exact ⟨rfl, rfl⟩
    | cons top below =>
      rw [hs] at hg
      have hno : releases i top = false := by
        rw [releases_eq hi hg]
        exact decide_eq_false (by omega)
      simp [hno]
  have hout' : pending.reverse ++ s'.out = t.postOrder.reverse ++ s.out := by
    have := congrArg List.reverse hout
    simpa using this
  unfold Item.Sorting.release
  rw [hw, List.takeWhile_append_of_pos hpop, List.dropWhile_append_of_pos hpop, hstay.1, hstay.2,
    List.append_nil, hout']

/-- A tree that was read on top of a waiting operator completes the tree of that operator. -/
theorem Reads.close {s s' : Item.Sorting} {t u : Term} {i : Item} {out rest : List Item}
    {floor : Nat} (h : Reads ⟨out, i :: s.waiting⟩ t rest s') (hi : floor? i = some floor)
    (hb : Below floor rest)
    (hu : out.reverse ++ (t.postOrder ++ [i]) = s.out.reverse ++ u.postOrder) :
    Reads s u rest s' := by
  obtain ⟨pending, hw, hout, hall⟩ := h
  refine ⟨pending ++ [i], ?_, ?_, ?_⟩
  · rw [hw, List.append_assoc]
    rfl
  · rw [← hu, ← List.append_assoc, hout, List.append_assoc]
  · intro w hmem
    rcases List.mem_append.1 hmem with hmem | hmem
    · exact hall w hmem
    · rw [List.mem_singleton.1 hmem]
      exact ⟨floor, hi, hb⟩

/-! ### Reading and sorting -/

/-- Sorting takes a state to one that has taken in a tree, up to the items that are left, and the
next of these is below the floor. -/
def Reaches (floor : Nat) (s : Item.Sorting) (t : Term) (rest : List Item) (from_ : Item.Sorting)
    (items : List Item) : Prop :=
  ∃ s', items.foldl Item.Sorting.step from_ = rest.foldl Item.Sorting.step s' ∧
    Reads s t rest s' ∧ Below floor rest

/-- What `expression` reads, sorting takes in. -/
def ExpressionSorts (bound : Nat) : Prop :=
  ∀ {floor : Nat} {items rest : List Item} {t : Term} {s : Item.Sorting},
    expression bound floor items = some (t, rest) → Guards floor s.waiting →
    Reaches floor s t rest s items

/-- What `climb` adds to a tree, sorting takes in after that tree. -/
def ClimbSorts (bound : Nat) : Prop :=
  ∀ {floor : Nat} {left t : Term} {items rest : List Item} {s s' : Item.Sorting},
    climb bound floor left items = some (t, rest) → Guards floor s.waiting →
    Reads s left items s' → Reaches floor s t rest s' items

theorem climb_sorts_zero : ClimbSorts 0 := by
  intro floor left t items rest s s' h _ hr
  cases items with
  | nil =>
    cases h
    exact ⟨s', rfl, hr, trivial⟩
  | cons i items => simp [climb] at h

theorem climb_sorts_succ {bound : Nat} (he : ExpressionSorts bound) (hc : ClimbSorts bound) :
    ClimbSorts (bound + 1) := by
  intro floor left t items rest s s' h hg hr
  match items with
  | [] =>
    cases h
    exact ⟨s', rfl, hr, trivial⟩
  | .operator symbol .after line :: items =>
    simp only [climb] at h
    split at h
    next hle =>
      -- the operator goes out at once, and nothing of the tree is left waiting
      have hstep : s'.step (.operator symbol .after line)
          = (s'.release (releases (.operator symbol .after line))).emit
              (.operator symbol .after line) := rfl
      rw [hr.release hg rfl hle] at hstep
      have hr' : Reads s (.after symbol line left) items
          (s'.step (.operator symbol .after line)) := by
        rw [hstep]
        refine ⟨[], rfl, ?_, by simp⟩
        simp [Item.Sorting.emit, Term.postOrder]
      obtain ⟨s₂, hfold, hr₂⟩ := hc h hg hr'
      exact ⟨s₂, hfold, hr₂⟩
    next hlt =>
      cases h
      exact ⟨s', rfl, hr, accessLevel, rfl, by omega⟩
  | .operator symbol .between line :: items =>
    simp only [climb] at h
    split at h
    next level hlevel =>
      split at h
      next hle =>
        split at h
        next right rest' hright =>
          -- the operator waits for its right side, which is read at its floor
          have hstep : s'.step (.operator symbol .between line)
              = (s'.release (releases (.operator symbol .between line))).hold
                  (.operator symbol .between line) := rfl
          rw [hr.release hg hlevel hle] at hstep
          have hfloor : floor? (.operator symbol .between line)
              = some (rightFloor symbol level) := by
            simp [floor?, hlevel]
          obtain ⟨s₂, hfold, hr₂, hb₂⟩ :=
            he (s := s'.step (.operator symbol .between line)) hright (by rw [hstep]; exact hfloor)
          rw [hstep] at hr₂
          have hr' : Reads s (.between symbol line left right) rest' s₂ :=
            hr₂.close (s := s) hfloor hb₂ (by simp [Term.postOrder])
          obtain ⟨s₃, hfold₃, hr₃⟩ := hc h hg hr'
          exact ⟨s₃, by rw [List.foldl_cons, hfold, hfold₃], hr₃⟩
        next => cases h
      next hlt =>
        cases h
        exact ⟨s', rfl, hr, level, hlevel, by omega⟩
    next => cases h
  | .operand _ :: _ => simp [climb] at h
  | .operator _ .before _ :: _ => simp [climb] at h

theorem expression_sorts_succ {bound : Nat} (he : ExpressionSorts bound)
    (hc : ClimbSorts bound) : ExpressionSorts (bound + 1) := by
  intro floor items rest t s h hg
  match items with
  | [] => simp [expression] at h
  | .operand node :: items =>
    have hr : Reads s (.leaf node) items (s.step (.operand node)) :=
      ⟨[], rfl, by simp [Item.Sorting.step, Item.Sorting.emit, Term.postOrder], by simp⟩
    obtain ⟨s₂, hfold, hr₂⟩ := hc (by simpa only [expression] using h) hg hr
    exact ⟨s₂, hfold, hr₂⟩
  | .operator symbol .before line :: items =>
    simp only [expression] at h
    split at h
    next operand rest' hoperand =>
      obtain ⟨s₂, hfold, hr₂, hb₂⟩ :=
        he (s := s.step (.operator symbol .before line)) hoperand rfl
      have hr' : Reads s (.before symbol line operand) rest' s₂ := hr₂.close rfl hb₂ rfl
      obtain ⟨s₃, hfold₃, hr₃⟩ := hc h hg hr'
      exact ⟨s₃, by rw [List.foldl_cons, hfold, hfold₃], hr₃⟩
    next => cases h
  | .operator _ .after _ :: _ => simp [expression] at h
  | .operator _ .between _ :: _ => simp [expression] at h

/-- **Sorting follows the reader**, at every bound. -/
theorem sorts (bound : Nat) : ExpressionSorts bound ∧ ClimbSorts bound := by
  induction bound with
  | zero => exact ⟨fun h => by simp [expression] at h, climb_sorts_zero⟩
  | succ bound ih => exact ⟨expression_sorts_succ ih.1 ih.2, climb_sorts_succ ih.1 ih.2⟩

/-! ### Every run is read -/

/-- Every run has a first tree at every floor. -/
def ExpressionSucceeds (bound : Nat) : Prop :=
  ∀ (floor : Nat) {items : List Item}, Item.isRun true items = true → items.length < bound →
    ∃ t rest, expression bound floor items = some (t, rest) ∧ Item.isRun false rest = true ∧
      rest.length < items.length

/-- Every rest of a run can be climbed. -/
def ClimbSucceeds (bound : Nat) : Prop :=
  ∀ (floor : Nat) (left : Term) {items : List Item}, Item.isRun false items = true →
    items.length < bound →
    ∃ t rest, climb bound floor left items = some (t, rest) ∧ Item.isRun false rest = true ∧
      rest.length ≤ items.length

theorem climb_succeeds_succ {bound : Nat} (he : ExpressionSucceeds bound)
    (hc : ClimbSucceeds bound) : ClimbSucceeds (bound + 1) := by
  intro floor left items hrun hlen
  match items with
  | [] => exact ⟨left, [], by simp [climb], rfl, Nat.le_refl _⟩
  | .operator symbol .after line :: items =>
    simp only [climb]
    rw [List.length_cons] at hlen
    by_cases hle : floor ≤ accessLevel
    · have hitems : Item.isRun false items = true := hrun
      obtain ⟨t, rest, h, hrest, hshort⟩ :=
        hc floor (.after symbol line left) hitems (by omega)
      rw [if_pos hle]
      exact ⟨t, rest, h, hrest, by simp; omega⟩
    · rw [if_neg hle]
      exact ⟨left, _, rfl, hrun, Nat.le_refl _⟩
  | .operator symbol .between line :: items =>
    have hrun' := hrun
    simp only [Item.isRun, Bool.and_eq_true, Option.isSome_iff_exists] at hrun'
    obtain ⟨⟨level, hlevel⟩, hitems⟩ := hrun'
    simp only [climb, hlevel]
    rw [List.length_cons] at hlen
    by_cases hle : floor ≤ level
    · obtain ⟨right, rest', hright, hrest', hshort'⟩ :=
        he (rightFloor symbol level) hitems (by omega)
      obtain ⟨t, rest, h, hrest, hshort⟩ :=
        hc floor (.between symbol line left right) hrest' (by omega)
      rw [if_pos hle, hright]
      exact ⟨t, rest, h, hrest, by simp; omega⟩
    · rw [if_neg hle]
      exact ⟨left, _, rfl, hrun, Nat.le_refl _⟩
  | .operand _ :: _ => simp [Item.isRun] at hrun
  | .operator _ .before _ :: _ => simp [Item.isRun] at hrun

theorem expression_succeeds_succ {bound : Nat} (he : ExpressionSucceeds bound)
    (hc : ClimbSucceeds bound) : ExpressionSucceeds (bound + 1) := by
  intro floor items hrun hlen
  match items with
  | [] => simp [Item.isRun] at hrun
  | .operand node :: items =>
    rw [List.length_cons] at hlen
    have hitems : Item.isRun false items = true := hrun
    obtain ⟨t, rest, h, hrest, hshort⟩ := hc floor (.leaf node) hitems (by omega)
    exact ⟨t, rest, by simpa only [expression] using h, hrest, by simp; omega⟩
  | .operator symbol .before line :: items =>
    rw [List.length_cons] at hlen
    have hitems : Item.isRun true items = true := hrun
    obtain ⟨operand, rest', hoperand, hrest', hshort'⟩ :=
      he (unaryLevel + 1) hitems (by omega)
    obtain ⟨t, rest, h, hrest, hshort⟩ :=
      hc floor (.before symbol line operand) hrest' (by omega)
    refine ⟨t, rest, ?_, hrest, by simp; omega⟩
    simp only [expression, hoperand]
    exact h
  | .operator _ .after _ :: _ => simp [Item.isRun] at hrun
  | .operator _ .between _ :: _ => simp [Item.isRun] at hrun

theorem succeeds (bound : Nat) : ExpressionSucceeds bound ∧ ClimbSucceeds bound := by
  induction bound with
  | zero => exact ⟨fun _ _ _ h => by omega, fun _ _ _ _ h => by omega⟩
  | succ bound ih =>
    exact ⟨expression_succeeds_succ ih.1 ih.2, climb_succeeds_succ ih.1 ih.2⟩

/-- A run is read to its end, since nothing is below the floor 0, and sorting it lists the tree
that was read. -/
theorem tree_of_run {items : List Item} (h : Item.isRun true items = true) :
    ∃ t, tree? items = some t ∧ Item.postOrder items = t.postOrder := by
  obtain ⟨t, rest, hread, hrest, -⟩ := (succeeds (items.length + 1)).1 0 h (by omega)
  obtain ⟨s', hfold, ⟨pending, hw, hout, -⟩, hb⟩ :=
    (sorts (items.length + 1)).1 (s := ⟨[], []⟩) hread trivial
  cases rest with
  | nil =>
    refine ⟨t, by simp [tree?, hread], ?_⟩
    unfold Item.postOrder
    rw [hfold]
    show s'.out.reverse ++ s'.waiting = t.postOrder
    rw [hw, List.append_nil, hout]
    rfl
  | cons i rest =>
    obtain ⟨level, -, hlt⟩ := hb
    omega

end Climbing

/-! ### Folding a post-order -/

/-- Folding the post-order of a tree puts the syntax tree of the whole on top of the stack, and
fails where that tree cannot be made. -/
theorem foldlM_postOrder (t : Term) (rest : List Item) (stack : List Node) :
    (t.postOrder ++ rest).foldlM Item.reduce stack
      = t.reduce >>= fun node => rest.foldlM Item.reduce (node :: stack) := by
  induction t generalizing rest stack with
  | leaf node => rfl
  | before symbol line t ih =>
    rw [Term.postOrder, List.append_assoc, ih]
    simp only [Term.reduce, List.singleton_append, List.foldlM_cons, Item.reduce, bind_assoc,
      pure_bind]
  | after symbol line t ih =>
    rw [Term.postOrder, List.append_assoc, ih]
    simp only [Term.reduce, List.singleton_append, List.foldlM_cons, Item.reduce, bind_assoc,
      pure_bind]
  | between symbol line l r ihl ihr =>
    rw [Term.postOrder, List.append_assoc, List.append_assoc, ihl]
    simp only [ihr, Term.reduce, List.singleton_append, List.foldlM_cons, Item.reduce, bind_assoc,
      pure_bind]

/-- Building the tree of a post-order is folding the tree that it lists. -/
theorem buildTree_postOrder (t : Term) (line : Nat) :
    Item.buildTree t.postOrder line = t.reduce := by
  have h := foldlM_postOrder t [] []
  rw [List.append_nil] at h
  unfold Item.buildTree
  rw [h]
  cases t.reduce <;> rfl

/-- **Sorting a run lists the tree that precedence climbing reads from it**, and folding the
sorted run gives the syntax tree of that tree, or fails as the folding of that tree does. -/
theorem postOrder_eq_climbing (items : List Item) (h : Item.isRun true items = true) :
    ∃ t, Climbing.tree? items = some t ∧ Item.postOrder items = t.postOrder ∧
      ∀ line, Item.buildTree (Item.postOrder items) line = t.reduce := by
  obtain ⟨t, htree, hsorted⟩ := Climbing.tree_of_run h
  refine ⟨t, htree, hsorted, ?_⟩
  intro line
  rw [hsorted]
  exact buildTree_postOrder t line

/-- The run of `a ** -b ** c * d`, in which an operator waits under a tighter one. -/
def powerRun : List Item :=
  [.operand (.reference "a" 1), .operator "**" .between 1, .operator "_-" .before 1,
    .operand (.reference "b" 1), .operator "**" .between 1, .operand (.reference "c" 1),
    .operator "*" .between 1, .operand (.reference "d" 1)]

theorem postOrder_eq_climbing_powerRun :
    Item.isRun true powerRun = true ∧
      ∃ t, Climbing.tree? powerRun = some t ∧ Item.postOrder powerRun = t.postOrder ∧
        ∀ line, Item.buildTree (Item.postOrder powerRun) line = t.reduce :=
  ⟨by decide, postOrder_eq_climbing powerRun (by decide)⟩

example : Climbing.tree? powerRun
    = some (.between "*" 1
        (.between "**" 1 (.leaf (.reference "a" 1))
          (.before "_-" 1
            (.between "**" 1 (.leaf (.reference "b" 1)) (.leaf (.reference "c" 1)))))
        (.leaf (.reference "d" 1))) := rfl

end PairScript
