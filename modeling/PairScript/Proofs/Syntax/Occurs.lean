import PairScript.Proofs.Syntax.WellFormed

/-!
# Tokens in trees

A literal or a name of a program is left somewhere in its tree: the literal as a constant on its
line, the name as one that a node binds or refers to.  The folding of a run keeps all of them, for
every operand of the run is sent out once (`mem_postOrder`), and every tree that an operator makes
has its operands below it (`reduce_holds`).
-/

namespace PairScript

/-! ### Nodes of a tree -/

/-- A property of a node or of a node below it. -/
inductive Node.Somewhere (p : Node → Prop) : Node → Prop
  | here {node : Node} (holds : p node) : Somewhere p node
  | value {node part : Node} (below : part ∈ node.valueParts) (inner : Somewhere p part) :
      Somewhere p node
  | statement {node part : Node} (below : part ∈ node.statementParts) (inner : Somewhere p part) :
      Somewhere p node

/-! ### Tokens -/

/-- Whether a token says something of its own: a literal, or a name that is not a keyword. -/
def Token.isCode (t : Token) : Bool :=
  match t.kind with
  | .int _ | .float _ | .str _ => true
  | .name text => !isKeyword text
  | _ => false

/-- What a token that says something is in a tree: a constant with its value and line, or a node
that binds or refers to its name. -/
def Token.At (t : Token) (node : Node) : Prop :=
  match t.kind with
  | .int value => node = .constant (.int value) t.line
  | .float value => node = .constant (.float value) t.line
  | .str value => node = .constant (.str value) t.line
  | .name text => text ∈ node.names
  | _ => False

/-- The token is left somewhere in the tree. -/
def Node.Holds (node : Node) (t : Token) : Prop := node.Somewhere t.At

/-- The token is left in one of the trees. -/
def Held (nodes : List Node) (t : Token) : Prop := ∃ node ∈ nodes, node.Holds t

variable {t : Token} {node : Node} {nodes : List Node}

theorem isCode_symbol {s : String} (h : t.kind = .symbol s) : t.isCode = false := by
  rw [Token.isCode, h]

theorem isCode_keyword {word : String} (h : t.kind = .name word) (hword : isKeyword word = true) :
    t.isCode = false := by
  rw [Token.isCode, h]
  show (!isKeyword word) = false
  rw [hword]
  rfl

theorem at_name {name : String} (h : t.kind = .name name) : t.At node ↔ name ∈ node.names := by
  rw [Token.At, h]

/-- A node has the names that it binds or refers to. -/
theorem Node.holds_name {name : String} (h : t.kind = .name name) (hname : name ∈ node.names) :
    node.Holds t :=
  .here ((at_name h).2 hname)

theorem held_singleton : Held [node] t ↔ node.Holds t := by simp [Held]

theorem held_cons : Held (node :: nodes) t ↔ node.Holds t ∨ Held nodes t := by simp [Held]

theorem held_append {nodes' : List Node} :
    Held (nodes ++ nodes') t ↔ Held nodes t ∨ Held nodes' t := by
  simp only [Held, List.mem_append, or_and_right, exists_or]

theorem Node.holds_of_values (h : Held node.valueParts t) : node.Holds t := by
  obtain ⟨part, hpart, hholds⟩ := h
  exact .value hpart hholds

theorem Node.holds_of_statements (h : Held node.statementParts t) : node.Holds t := by
  obtain ⟨part, hpart, hholds⟩ := h
  exact .statement hpart hholds

/-- A variable holds nothing but its name. -/
theorem Node.reference_holds {name : String} {line : Nat} (h : (Node.reference name line).Holds t) :
    t.kind = .name name := by
  cases h with
  | here holds =>
    unfold Token.At at holds
    split at holds
    next => cases holds
    next => cases holds
    next => cases holds
    next text hkind => rw [hkind, List.mem_singleton.1 holds]
    next => cases holds
  | value below _ => cases below
  | statement below _ => cases below

/-! ### Folding a run -/

variable {line : Nat}

theorem reduceUnary_holds {symbol : String} {fixity : Fixity} {operand : Node}
    (h : Item.reduceUnary symbol fixity operand line = .ok node) (ht : operand.Holds t) :
    node.Holds t := by
  unfold Item.reduceUnary Item.increment at h
  split at h
  next =>
    split at h
    next =>
      cases h
      exact .value List.mem_cons_self ht
    next => cases h
  next =>
    cases h
    exact .value List.mem_cons_self ht

theorem reduceBinary_holds {symbol : String} {left right : Node}
    (h : Item.reduceBinary symbol left right line = .ok node) (ht : left.Holds t ∨ right.Holds t) :
    node.Holds t := by
  have hpair : ∀ symbol, (Node.operation symbol [left, right] line).Holds t :=
    fun _ => Node.holds_of_values (held_cons.2 (ht.imp_right held_singleton.2))
  unfold Item.reduceBinary at h
  split at h
  next =>
    split at h
    next =>
      cases h
      exact Node.holds_of_values (held_cons.2 (ht.imp_right held_singleton.2))
    next => cases h
  next =>
    split at h
    next =>
      -- The name of a definition is not below it, but its own.
      split at h
      next name _ =>
        cases h
        rcases ht with hleft | hright
        · exact Node.holds_name (Node.reference_holds hleft) List.mem_cons_self
        · exact .value List.mem_cons_self hright
      next => cases h
    next =>
      split at h
      next =>
        split at h
        next =>
          cases h
          exact hpair "."
        next => cases h
      next =>
        split at h
        next base _ =>
          split at h
          next =>
            cases h
            exact .value (List.mem_cons_of_mem _ List.mem_cons_self) (hpair base)
          next => cases h
        next =>
          cases h
          exact hpair symbol

/-- A step of the folding keeps what the stack and the item hold. -/
theorem reduce_holds {stack stack' : List Node} {item : Item}
    (h : Item.reduce stack item = .ok stack')
    (ht : Held stack t ∨ ∃ node, item = .operand node ∧ node.Holds t) : Held stack' t := by
  rcases reduce_cases h with ⟨node, rfl, rfl⟩ |
    ⟨symbol, line, left, right, rest, node, rfl, rfl, hnode, rfl⟩ |
    ⟨symbol, fixity, line, tree, rest, node, rfl, hfixity, rfl, hnode, rfl⟩
  · rw [held_cons]
    rcases ht with hstack | ⟨node', heq, hholds⟩
    · exact .inr hstack
    · cases heq
      exact .inl hholds
  · rcases ht with hstack | ⟨node', heq, -⟩
    · rw [held_cons, held_cons] at hstack
      rw [held_cons]
      rcases hstack with hright | hleft | hrest
      · exact .inl (reduceBinary_holds hnode (.inr hright))
      · exact .inl (reduceBinary_holds hnode (.inl hleft))
      · exact .inr hrest
    · cases heq
  · rcases ht with hstack | ⟨node', heq, -⟩
    · rw [held_cons] at hstack ⊢
      exact hstack.imp_left (reduceUnary_holds hnode)
    · cases heq

theorem foldlM_reduce_holds {items : List Item} {stack stack' : List Node}
    (h : items.foldlM Item.reduce stack = .ok stack')
    (ht : Held stack t ∨ ∃ node, .operand node ∈ items ∧ node.Holds t) : Held stack' t := by
  induction items generalizing stack with
  | nil =>
    cases h
    simpa using ht
  | cons item items ih =>
    rw [List.foldlM_cons] at h
    cases hstep : Item.reduce stack item with
    | error f =>
      rw [hstep] at h
      cases h
    | ok next =>
      rw [hstep] at h
      refine ih h ?_
      rcases ht with hstack | ⟨node, hmem, hholds⟩
      · exact .inl (reduce_holds hstep (.inl hstack))
      · rcases List.mem_cons.1 hmem with rfl | hmem
        · exact .inl (reduce_holds hstep (.inr ⟨node, rfl, hholds⟩))
        · exact .inr ⟨node, hmem, hholds⟩

/-- **The tree of a run holds what its operands hold.** -/
theorem buildTree_holds {items : List Item} {operand : Node}
    (h : Item.buildTree (Item.postOrder items) line = .ok node)
    (hoperand : .operand operand ∈ items) (ht : operand.Holds t) : node.Holds t := by
  unfold Item.buildTree at h
  cases hfold : (Item.postOrder items).foldlM Item.reduce [] with
  | error f =>
    rw [hfold] at h
    cases h
  | ok stack =>
    have hstack := foldlM_reduce_holds hfold (.inr ⟨operand, mem_postOrder.2 hoperand, ht⟩)
    rw [hfold] at h
    match stack, hstack, h with
    | [tree], hstack, rfl => exact held_singleton.1 hstack

end PairScript
