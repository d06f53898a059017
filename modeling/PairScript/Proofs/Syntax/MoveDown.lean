import PairScript.Proofs.Syntax.WellFormed

/-!
# Trees further down

`Node.moveDown k` adds `k` to every line of a tree, and changes nothing else.  Nothing that decides
the shape of a tree looks at lines, so sorting and folding a run commute with it.
-/

namespace PairScript

/-! ### Moving a tree down -/

mutual

/-- The tree a number of lines further down. -/
def Node.moveDown (k : Nat) : Node → Node
  | .constant value line => .constant value (line + k)
  | .reference name line => .reference name (line + k)
  | .definition name value line => .definition name (value.moveDown k) (line + k)
  | .function name params body line => .function name params (moveDownAll k body) (line + k)
  | .assignment target value yieldsOld line =>
    .assignment (target.moveDown k) (value.moveDown k) yieldsOld (line + k)
  | .operation symbol operands line => .operation symbol (moveDownAll k operands) (line + k)
  | .call callee arguments line =>
    .call (callee.moveDown k) (moveDownAll k arguments) (line + k)
  | .conditional condition body other line =>
    .conditional (condition.moveDown k) (moveDownAll k body) (moveDownBlock k other) (line + k)
  | .whileLoop condition body line =>
    .whileLoop (condition.moveDown k) (moveDownAll k body) (line + k)
  | .switch subject arms fallback line =>
    .switch (subject.moveDown k) (moveDownArms k arms) (moveDownBlock k fallback) (line + k)
  | .rangeLoop name start bound closed step body line =>
    .rangeLoop name (start.moveDown k) (bound.moveDown k) closed (moveDownOptional k step)
      (moveDownAll k body) (line + k)
  | .eachLoop name collection body line =>
    .eachLoop name (collection.moveDown k) (moveDownAll k body) (line + k)
  | .breakOut line => .breakOut (line + k)
  | .continueOn line => .continueOn (line + k)
  | .fallThrough line => .fallThrough (line + k)
  | .giveBack value line => .giveBack (moveDownOptional k value) (line + k)

/-- The statements a number of lines further down. -/
def moveDownAll (k : Nat) : List Node → List Node
  | [] => []
  | node :: rest => node.moveDown k :: moveDownAll k rest

/-- The optional tree a number of lines further down. -/
def moveDownOptional (k : Nat) : Option Node → Option Node
  | some node => some (node.moveDown k)
  | none => none

/-- The optional block a number of lines further down. -/
def moveDownBlock (k : Nat) : Option (List Node) → Option (List Node)
  | some body => some (moveDownAll k body)
  | none => none

/-- The arm a number of lines further down. -/
def moveDownArm (k : Nat) : Arm Node → Arm Node
  | ⟨values, body, line⟩ => ⟨moveDownAll k values, moveDownAll k body, line + k⟩

/-- The arms of a switch a number of lines further down. -/
def moveDownArms (k : Nat) : List (Arm Node) → List (Arm Node)
  | [] => []
  | arm :: rest => moveDownArm k arm :: moveDownArms k rest

end

theorem moveDownAll_eq_map (k : Nat) (nodes : List Node) :
    moveDownAll k nodes = nodes.map (Node.moveDown k) := by
  induction nodes with
  | nil => rfl
  | cons node nodes ih => rw [moveDownAll, ih, List.map_cons]

/-! ### Runs -/

/-- The item a number of lines further down. -/
def Item.moveDown (k : Nat) : Item → Item
  | .operand node => .operand (node.moveDown k)
  | .operator symbol fixity line => .operator symbol fixity (line + k)

variable {k : Nat}

/-- Sorting goes by symbols and fixities. -/
theorem step_moveDown (s : Item.Sorting) (i : Item) :
    Item.Sorting.step ⟨s.out.map (Item.moveDown k), s.waiting.map (Item.moveDown k)⟩ (i.moveDown k)
      = ⟨(s.step i).out.map (Item.moveDown k), (s.step i).waiting.map (Item.moveDown k)⟩ := by
  have hlevel : ∀ j : Item, (j.moveDown k).waitingLevel = j.waitingLevel := by
    intro j
    match j with
    | .operand _ | .operator _ .before _ | .operator _ .after _ | .operator _ .between _ => rfl
  have hbinary : ∀ symbol, Item.yieldsToBinary symbol ∘ Item.moveDown k
      = Item.yieldsToBinary symbol := by
    intro symbol
    funext j
    simp only [Function.comp, Item.yieldsToBinary, hlevel]
  have hafter : Item.yieldsToAfter ∘ Item.moveDown k = Item.yieldsToAfter := by
    funext j
    match j with
    | .operand _ | .operator _ .before _ | .operator _ .after _ | .operator _ .between _ => rfl
  match i with
  | .operand node => rfl
  | .operator symbol .before line => rfl
  | .operator symbol .after line =>
    simp [Item.moveDown, Item.Sorting.step, Item.Sorting.release, Item.Sorting.emit,
      List.takeWhile_map, List.dropWhile_map, hafter]
  | .operator symbol .between line =>
    simp [Item.moveDown, Item.Sorting.step, Item.Sorting.release, Item.Sorting.hold,
      List.takeWhile_map, List.dropWhile_map, hbinary]

theorem postOrder_moveDown (items : List Item) :
    Item.postOrder (items.map (Item.moveDown k)) = (Item.postOrder items).map (Item.moveDown k) := by
  have hfold : ∀ (items : List Item) (s : Item.Sorting),
      (items.map (Item.moveDown k)).foldl Item.Sorting.step
          ⟨s.out.map (Item.moveDown k), s.waiting.map (Item.moveDown k)⟩
        = ⟨(items.foldl Item.Sorting.step s).out.map (Item.moveDown k),
          (items.foldl Item.Sorting.step s).waiting.map (Item.moveDown k)⟩ := by
    intro items
    induction items with
    | nil => exact fun s => rfl
    | cons i items ih =>
      intro s
      rw [List.map_cons, List.foldl_cons, List.foldl_cons, step_moveDown, ih]
  have hstart := hfold items ⟨[], []⟩
  simp only [List.map_nil] at hstart
  simp [Item.postOrder, hstart, Item.Sorting.finish]

/-! ### Trees -/

variable {line : Nat} {left right node : Node} {symbol : String}

theorem isAssignable_moveDown (h : node.isAssignable = true) :
    (node.moveDown k).isAssignable = true := by
  match node, h with
  | .reference _ _, _ => rfl
  | .operation symbol [_, .reference _ _] _, h => exact h

theorem isMember_moveDown (h : Item.isMember node = true) :
    Item.isMember (node.moveDown k) = true := by
  match node, h with
  | .reference _ _, _ => rfl
  | .call (.reference _ _) _ _, _ => rfl

theorem reduceUnary_moveDown {fixity : Fixity} {operand : Node}
    (h : Item.reduceUnary symbol fixity operand line = .ok node) :
    Item.reduceUnary symbol fixity (operand.moveDown k) (line + k) = .ok (node.moveDown k) := by
  unfold Item.reduceUnary at h ⊢
  split at h
  next hstep =>
    rw [if_pos hstep]
    unfold Item.increment at h ⊢
    split at h
    next hassignable =>
      cases h
      rw [if_pos (isAssignable_moveDown hassignable)]
      rfl
    next => cases h
  next hstep =>
    cases h
    rw [if_neg hstep]
    rfl

theorem reduceBinary_moveDown (h : Item.reduceBinary symbol left right line = .ok node) :
    Item.reduceBinary symbol (left.moveDown k) (right.moveDown k) (line + k)
      = .ok (node.moveDown k) := by
  unfold Item.reduceBinary at h ⊢
  split at h
  next hassign =>
    rw [if_pos hassign]
    split at h
    next hassignable =>
      cases h
      rw [if_pos (isAssignable_moveDown hassignable)]
      rfl
    next => cases h
  next hassign =>
    rw [if_neg hassign]
    split at h
    next hdefine =>
      rw [if_pos hdefine]
      split at h
      next =>
        cases h
        rfl
      next => cases h
    next hdefine =>
      rw [if_neg hdefine]
      split at h
      next hdot =>
        rw [if_pos hdot]
        split at h
        next hmember =>
          cases h
          rw [if_pos (isMember_moveDown hmember)]
          rfl
        next => cases h
      next hdot =>
        rw [if_neg hdot]
        split at h
        next =>
          split at h
          next hassignable =>
            cases h
            rw [if_pos (isAssignable_moveDown hassignable)]
            rfl
          next => cases h
        next =>
          cases h
          rfl

theorem reduce_moveDown {stack stack' : List Node} {item : Item}
    (h : Item.reduce stack item = .ok stack') :
    Item.reduce (stack.map (Node.moveDown k)) (item.moveDown k)
      = .ok (stack'.map (Node.moveDown k)) := by
  rcases reduce_cases h with ⟨node, rfl, rfl⟩ |
    ⟨symbol, line, left, right, rest, node, rfl, rfl, hnode, rfl⟩ |
    ⟨symbol, fixity, line, tree, rest, node, rfl, hfixity, rfl, hnode, rfl⟩
  · rfl
  · simp only [List.map_cons, Item.moveDown, Item.reduce, reduceBinary_moveDown hnode]
    rfl
  · cases fixity with
    | before =>
      simp only [List.map_cons, Item.moveDown, Item.reduce, reduceUnary_moveDown hnode]
      rfl
    | after =>
      simp only [List.map_cons, Item.moveDown, Item.reduce, reduceUnary_moveDown hnode]
      rfl
    | between => exact absurd rfl hfixity

theorem foldlM_reduce_moveDown {items : List Item} {stack stack' : List Node}
    (h : items.foldlM Item.reduce stack = .ok stack') :
    (items.map (Item.moveDown k)).foldlM Item.reduce (stack.map (Node.moveDown k))
      = .ok (stack'.map (Node.moveDown k)) := by
  induction items generalizing stack with
  | nil =>
    cases h
    rfl
  | cons item items ih =>
    rw [List.foldlM_cons] at h
    cases hstep : Item.reduce stack item with
    | error f =>
      rw [hstep] at h
      cases h
    | ok next =>
      rw [hstep] at h
      rw [List.map_cons, List.foldlM_cons, reduce_moveDown hstep]
      exact ih h

/-- A run builds a tree if its items fold into one, on whatever line it stands. -/
theorem buildTree_eq_ok {items : List Item} :
    Item.buildTree items line = .ok node ↔ items.foldlM Item.reduce [] = .ok [node] := by
  unfold Item.buildTree
  cases items.foldlM Item.reduce [] with
  | error f => exact ⟨nofun, nofun⟩
  | ok stack =>
    match stack with
    | [] => exact ⟨nofun, nofun⟩
    | [tree] =>
      constructor
      · rintro ⟨⟩
        rfl
      · rintro ⟨⟩
        rfl
    | _ :: _ :: _ => exact ⟨nofun, nofun⟩

/-- **The tree of a run further down is the tree of the run, further down.** -/
theorem buildTree_moveDown {items : List Item} {line' : Nat}
    (h : Item.buildTree (Item.postOrder items) line = .ok node) :
    Item.buildTree (Item.postOrder (items.map (Item.moveDown k))) line'
      = .ok (node.moveDown k) := by
  rw [buildTree_eq_ok] at h ⊢
  rw [postOrder_moveDown]
  exact foldlM_reduce_moveDown h

end PairScript
