import PairScript.Proofs.Syntax.Sorting
import PairScript.Syntax.Precedence
import PairScript.Token.Basic
import PairScript.Value.Primitive

/-!
# Well-formed trees

Not every tree is the tree of a program.  A tree is well formed if every node of it, down to the
bodies of its functions, has the shape that evaluation counts on:

* what stands on the left of an assignment can be assigned to;
* an operator has as many operands as the primitive of its name takes, and `.` has a value and a
  member;
* a call is the call of a name, and every arm of a switch has a value;
* where a value is required stands an expression, never a statement;
* the names that the node binds or refers to are names that a program may use.
-/

namespace PairScript

/-! ### The parts of a node -/

namespace Node

/-- Whether a node stands for a value.  All others are statements only. -/
def isExpression : Node → Bool
  | .constant _ _ | .reference _ _ | .definition _ _ _ | .function _ _ _ _ => true
  | .assignment _ _ _ _ | .operation _ _ _ | .call _ _ _ => true
  | _ => false

/-- The parts of a node that have to give a value. -/
def valueParts : Node → List Node
  | .definition _ value _ => [value]
  | .assignment target value _ _ => [target, value]
  | .operation _ operands _ => operands
  | .call callee arguments _ => callee :: arguments
  | .conditional condition _ _ _ => [condition]
  | .whileLoop condition _ _ => [condition]
  | .switch subject arms _ _ => subject :: arms.flatMap (·.values)
  | .rangeLoop _ start bound _ step _ _ => start :: bound :: step.toList
  | .eachLoop _ collection _ _ => [collection]
  | .giveBack value _ => value.toList
  | _ => []

/-- The statements directly below a node. -/
def statementParts : Node → List Node
  | .function _ _ body _ => body
  | .conditional _ body other _ => body ++ other.getD []
  | .whileLoop _ body _ => body
  | .switch _ arms fallback _ => arms.flatMap (·.body) ++ fallback.getD []
  | .rangeLoop _ _ _ _ _ body _ => body
  | .eachLoop _ _ body _ => body
  | _ => []

/-- The names that a node itself binds or refers to. -/
def names : Node → List String
  | .reference name _ => [name]
  | .definition name _ _ => [name]
  | .function name params _ _ => name.toList ++ params
  | .rangeLoop name _ _ _ _ _ _ => [name]
  | .eachLoop name _ _ _ => [name]
  | _ => []

/-- A property of a node and of all nodes below it. -/
inductive Everywhere (p : Node → Prop) : Node → Prop
  | intro {node : Node} (here : p node) (values : ∀ part ∈ node.valueParts, Everywhere p part)
      (statements : ∀ part ∈ node.statementParts, Everywhere p part) : Everywhere p node

theorem Everywhere.here {p : Node → Prop} {node : Node} (h : node.Everywhere p) : p node := by
  cases h
  assumption

theorem Everywhere.mono {p q : Node → Prop} (hpq : ∀ node, p node → q node) {node : Node}
    (h : node.Everywhere p) : node.Everywhere q := by
  induction h with
  | intro here _ _ ihv ihs => exact .intro (hpq _ here) ihv ihs

theorem Everywhere.and {p q : Node → Prop} {node : Node} (hp : node.Everywhere p)
    (hq : node.Everywhere q) : node.Everywhere fun node => p node ∧ q node := by
  induction hp with
  | intro here _ _ ihv ihs =>
    cases hq with
    | intro here' values statements =>
      exact .intro ⟨here, here'⟩ (fun part hpart => ihv part hpart (values part hpart))
        fun part hpart => ihs part hpart (statements part hpart)

end Node

/-! ### The shape of a node -/

/-- Whether an operator other than `.` takes so many operands. -/
def takesOperands (symbol : String) (count : Nat) : Bool :=
  if ["_-", "_!", "_~"].contains symbol then count == 1
  else if symbol == "$list" then decide (1 ≤ count)
  else count == 2 && (binaryLevel? symbol).any (0 < ·)

/-- The shape that a node has in the tree of a program. -/
def Node.HasShape : Node → Prop
  | .assignment target _ _ _ => target.isAssignable = true
  | .operation symbol operands _ =>
    if symbol = "." then ∃ left right, operands = [left, right] ∧ Item.isMember right = true
    else takesOperands symbol operands.length = true ∧
      ∃ p : Primitive, p.name = symbol ∧ p.arity.accepts operands.length = true
  | .call callee _ _ => ∃ name line, callee = .reference name line
  | .switch _ arms _ _ => ∀ arm ∈ arms, arm.values ≠ []
  | _ => True

/-- A node as it stands in the tree of a program that uses the names in `named`. -/
structure Node.WellFormed (named : String → Prop) (node : Node) : Prop where
  shape : node.HasShape
  values : ∀ part ∈ node.valueParts, part.isExpression = true
  names : ∀ name ∈ node.names, named name

/-- A whole tree of a program. -/
abbrev Node.Sound (named : String → Prop) (node : Node) : Prop :=
  node.Everywhere (Node.WellFormed named)

/-- A tree of a program that stands for a value. -/
def Node.SoundValue (named : String → Prop) (node : Node) : Prop :=
  node.Sound named ∧ node.isExpression = true

variable {named : String → Prop}

/-! ### Operators -/

/-- An infix operator that is not an assignment or `.` is a primitive on two operands. -/
theorem takesOperands_between {symbol : String} (h : (binaryLevel? symbol).isSome = true)
    (hassign : symbol ≠ "=") (hdefine : symbol ≠ ":=") (hmember : symbol ≠ ".")
    (hbase : Item.compoundBase? symbol = none) :
    takesOperands symbol 2 = true ∧
      ∃ p : Primitive, p.name = symbol ∧ p.arity.accepts 2 = true := by
  have htable : ∃ p : Primitive, p.name = symbol ∧ p.arity = .exactly 2 ∧
      takesOperands p.name 2 = true := by
    unfold binaryLevel? at h
    split at h
    all_goals try contradiction
    · exact ⟨.comma, rfl, rfl, rfl⟩
    · exact ⟨.or, rfl, rfl, rfl⟩
    · exact ⟨.and, rfl, rfl, rfl⟩
    · exact ⟨.bitOr, rfl, rfl, rfl⟩
    · exact ⟨.bitXor, rfl, rfl, rfl⟩
    · exact ⟨.bitAnd, rfl, rfl, rfl⟩
    · exact ⟨.equal, rfl, rfl, rfl⟩
    · exact ⟨.unequal, rfl, rfl, rfl⟩
    · exact ⟨.less, rfl, rfl, rfl⟩
    · exact ⟨.lessEqual, rfl, rfl, rfl⟩
    · exact ⟨.greater, rfl, rfl, rfl⟩
    · exact ⟨.greaterEqual, rfl, rfl, rfl⟩
    · exact ⟨.shiftLeft, rfl, rfl, rfl⟩
    · exact ⟨.shiftRight, rfl, rfl, rfl⟩
    · exact ⟨.shiftRightLogical, rfl, rfl, rfl⟩
    · exact ⟨.add, rfl, rfl, rfl⟩
    · exact ⟨.subtract, rfl, rfl, rfl⟩
    · exact ⟨.multiply, rfl, rfl, rfl⟩
    · exact ⟨.floorDivide, rfl, rfl, rfl⟩
    · exact ⟨.trueDivide, rfl, rfl, rfl⟩
    · exact ⟨.modulo, rfl, rfl, rfl⟩
    · exact ⟨.power, rfl, rfl, rfl⟩
    · exact ⟨.index, rfl, rfl, rfl⟩
  obtain ⟨p, rfl, harity, htakes⟩ := htable
  exact ⟨htakes, p, rfl, by rw [harity]; rfl⟩

/-- The operators that stand before or after their operand and are no assignments. -/
theorem takesOperands_before {symbol : String} (h : symbol ∈ ["_-", "_!", "_~"]) :
    takesOperands symbol 1 = true ∧
      ∃ p : Primitive, p.name = symbol ∧ p.arity.accepts 1 = true := by
  simp only [List.mem_cons, List.not_mem_nil, or_false] at h
  obtain rfl | rfl | rfl := h
  · exact ⟨rfl, .negate, rfl, rfl⟩
  · exact ⟨rfl, .not, rfl, rfl⟩
  · exact ⟨rfl, .complement, rfl, rfl⟩

/-! ### Trees from parts -/

section

variable {line : Nat} {target value left right : Node}

theorem soundValue_constant (value : Constant) (line : Nat) :
    (Node.constant value line).SoundValue named :=
  ⟨.intro ⟨trivial, nofun, nofun⟩ nofun nofun, rfl⟩

theorem soundValue_reference {name : String} (h : named name) :
    (Node.reference name line).SoundValue named :=
  ⟨.intro ⟨trivial, nofun, by simpa [Node.names] using h⟩ nofun nofun, rfl⟩

theorem soundValue_definition {name : String} (hname : named name)
    (hvalue : value.SoundValue named) : (Node.definition name value line).SoundValue named := by
  refine ⟨.intro ⟨trivial, ?_, ?_⟩ ?_ nofun, rfl⟩
  · simpa [Node.valueParts] using hvalue.2
  · simpa [Node.names] using hname
  · simpa [Node.valueParts] using hvalue.1

theorem soundValue_assignment {yieldsOld : Bool} (hassignable : target.isAssignable = true)
    (htarget : target.SoundValue named) (hvalue : value.SoundValue named) :
    (Node.assignment target value yieldsOld line).SoundValue named := by
  refine ⟨.intro ⟨hassignable, ?_, nofun⟩ ?_ nofun, rfl⟩
  · simpa [Node.valueParts] using ⟨htarget.2, hvalue.2⟩
  · simpa [Node.valueParts] using ⟨htarget.1, hvalue.1⟩

theorem soundValue_operation {symbol : String} {operands : List Node} (hmember : symbol ≠ ".")
    (htakes : takesOperands symbol operands.length = true ∧
      ∃ p : Primitive, p.name = symbol ∧ p.arity.accepts operands.length = true)
    (hoperands : ∀ operand ∈ operands, operand.SoundValue named) :
    (Node.operation symbol operands line).SoundValue named := by
  refine ⟨.intro ⟨?_, fun part hpart => (hoperands part hpart).2, nofun⟩
    (fun part hpart => (hoperands part hpart).1) nofun, rfl⟩
  simp only [Node.HasShape, if_neg hmember]
  exact htakes

theorem soundValue_access (hmember : Item.isMember right = true) (hleft : left.SoundValue named)
    (hright : right.SoundValue named) :
    (Node.operation "." [left, right] line).SoundValue named := by
  refine ⟨.intro ⟨⟨left, right, rfl, hmember⟩, ?_, nofun⟩ ?_ nofun, rfl⟩
  · simpa [Node.valueParts] using ⟨hleft.2, hright.2⟩
  · simpa [Node.valueParts] using ⟨hleft.1, hright.1⟩

theorem soundValue_call {name : String} {line' : Nat} {arguments : List Node} (hname : named name)
    (harguments : ∀ argument ∈ arguments, argument.SoundValue named) :
    (Node.call (.reference name line') arguments line).SoundValue named := by
  refine ⟨.intro ⟨⟨name, line', rfl⟩, ?_, nofun⟩ ?_ nofun, rfl⟩
  · simpa [Node.valueParts] using ⟨rfl, fun part hpart => (harguments part hpart).2⟩
  · simpa [Node.valueParts] using
      ⟨(soundValue_reference hname).1, fun part hpart => (harguments part hpart).1⟩

theorem soundValue_function {name : Option String} {params : List String} {body : List Node}
    (hname : ∀ n ∈ name, named n) (hparams : ∀ n ∈ params, named n)
    (hbody : ∀ node ∈ body, node.Sound named) :
    (Node.function name params body line).SoundValue named := by
  refine ⟨.intro ⟨trivial, nofun, ?_⟩ nofun hbody, rfl⟩
  intro n hn
  rcases List.mem_append.1 hn with hn | hn
  · exact hname n (by simpa using hn)
  · exact hparams n hn

/-! ### Runs -/

/-- Sorting sends out what came in. -/
theorem mem_postOrder {items : List Item} {item : Item} :
    item ∈ Item.postOrder items ↔ item ∈ items :=
  (Item.delays_postOrder items).perm.mem_iff

/-- What a successful step of the folding does to the stack. -/
theorem reduce_cases {stack stack' : List Node} {item : Item}
    (h : Item.reduce stack item = .ok stack') :
    (∃ node, item = .operand node ∧ stack' = node :: stack) ∨
      (∃ symbol line left right rest node, item = .operator symbol .between line ∧
        stack = right :: left :: rest ∧ Item.reduceBinary symbol left right line = .ok node ∧
        stack' = node :: rest) ∨
      ∃ symbol fixity line tree rest node, item = .operator symbol fixity line ∧
        fixity ≠ .between ∧ stack = tree :: rest ∧
        Item.reduceUnary symbol fixity tree line = .ok node ∧ stack' = node :: rest := by
  have hunary : ∀ {symbol fixity line}, fixity ≠ .between →
      Item.reduce stack (.operator symbol fixity line) = .ok stack' →
      ∃ tree rest node, stack = tree :: rest ∧
        Item.reduceUnary symbol fixity tree line = .ok node ∧ stack' = node :: rest := by
    intro symbol fixity line hfixity h
    cases stack with
    | nil => cases fixity <;> cases h
    | cons tree rest =>
      have h : (Item.reduceUnary symbol fixity tree line >>= fun node => pure (node :: rest))
          = .ok stack' := by
        cases fixity with
        | between => exact absurd rfl hfixity
        | before => exact h
        | after => exact h
      cases hnode : Item.reduceUnary symbol fixity tree line with
      | error f =>
        rw [hnode] at h
        cases h
      | ok node =>
        rw [hnode] at h
        cases h
        exact ⟨tree, rest, node, rfl, hnode, rfl⟩
  cases item with
  | operand node =>
    cases h
    exact .inl ⟨node, rfl, rfl⟩
  | operator symbol fixity line =>
    by_cases hfixity : fixity = .between
    · subst hfixity
      rcases stack with _ | ⟨right, _ | ⟨left, rest⟩⟩
      · cases h
      · cases h
      · simp only [Item.reduce] at h
        cases hnode : Item.reduceBinary symbol left right line with
        | error f =>
          rw [hnode] at h
          cases h
        | ok node =>
          rw [hnode] at h
          cases h
          exact .inr (.inl ⟨symbol, line, left, right, rest, node, rfl, rfl, hnode, rfl⟩)
    · obtain ⟨tree, rest, node, hrest⟩ := hunary hfixity h
      exact .inr (.inr ⟨symbol, fixity, line, tree, rest, node, rfl, hfixity, hrest⟩)

end

end PairScript
