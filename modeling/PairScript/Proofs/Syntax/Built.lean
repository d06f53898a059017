import PairScript.Proofs.Syntax.WellFormed

/-!
# The trees of programs

Of all trees only some are trees of programs.  `Node.Built` generates them, one case for each way in
which a tree comes out of a text: an increment, for one, is an assignment of a particular shape, and
what is called is a name on the line of the call.  A tree is built as a value, out of operands and
operators, or as a statement.

* `buildTree_built` shows that runs of operands and operators add up to built trees;
* `Node.Built.sound` shows that built trees are well formed.
-/

namespace PairScript

/-- What a tree stands for where it stands. -/
inductive Place where
  | value
  | statement
deriving Repr, DecidableEq

/-- Whether a symbol is an operator between two operands, assignments apart. -/
def isInfix (symbol : String) : Bool := (binaryLevel? symbol).any (0 < ·)

/-- The trees of programs that use the names in `named`. -/
inductive Node.Built (named : String → Prop) : Place → Node → Prop
  | constant (value : Constant) (line : Nat) : Built named .value (.constant value line)
  | reference {name : String} {line : Nat} (free : named name) :
      Built named .value (.reference name line)
  | definition {name : String} {value : Node} {line : Nat} (free : named name)
      (right : Built named .value value) : Built named .value (.definition name value line)
  | function {name : Option String} {params : List String} {body : List Node} {line : Nat}
      (free : ∀ n ∈ name, named n) (frees : ∀ n ∈ params, named n)
      (statements : ∀ node ∈ body, Built named .statement node) :
      Built named .value (.function name params body line)
  | assignment {target value : Node} {line : Nat} (place : target.isAssignable = true)
      (left : Built named .value target) (right : Built named .value value) :
      Built named .value (.assignment target value false line)
  | increment {target : Node} {base : String} {line : Nat} (place : target.isAssignable = true)
      (step : base = "+" ∨ base = "-") (left : Built named .value target) :
      Built named .value
        (.assignment target (.operation base [target, .constant (.int 1) line] line) true line)
  | before {symbol : String} {operand : Node} {line : Nat} (operator : symbol ∈ ["_-", "_!", "_~"])
      (right : Built named .value operand) : Built named .value (.operation symbol [operand] line)
  | between {symbol : String} {left right : Node} {line : Nat} (operator : isInfix symbol = true)
      (plain : symbol ≠ ".") (first : Built named .value left) (second : Built named .value right) :
      Built named .value (.operation symbol [left, right] line)
  | access {left right : Node} {line : Nat} (member : Item.isMember right = true)
      (first : Built named .value left) (second : Built named .value right) :
      Built named .value (.operation "." [left, right] line)
  | list {elements : List Node} {line : Nat} (some : elements ≠ [])
      (each : ∀ element ∈ elements, Built named .value element) :
      Built named .value (.operation "$list" elements line)
  | call {name : String} {arguments : List Node} {line : Nat} (free : named name)
      (each : ∀ argument ∈ arguments, Built named .value argument) :
      Built named .value (.call (.reference name line) arguments line)
  | expression {node : Node} (value : Built named .value node) : Built named .statement node
  | conditional {condition : Node} {body : List Node} {other : Option (List Node)} {line : Nat}
      (test : Built named .value condition)
      (statements : ∀ node ∈ body, Built named .statement node)
      (others : ∀ node ∈ other.getD [], Built named .statement node) :
      Built named .statement (.conditional condition body other line)
  | whileLoop {condition : Node} {body : List Node} {line : Nat}
      (test : Built named .value condition)
      (statements : ∀ node ∈ body, Built named .statement node) :
      Built named .statement (.whileLoop condition body line)
  | switch {subject : Node} {arms : List (Arm Node)} {fallback : Option (List Node)} {line : Nat}
      (chosen : Built named .value subject) (some : ∀ arm ∈ arms, arm.values ≠ [])
      (values : ∀ arm ∈ arms, ∀ value ∈ arm.values, Built named .value value)
      (bodies : ∀ arm ∈ arms, ∀ node ∈ arm.body, Built named .statement node)
      (others : ∀ node ∈ fallback.getD [], Built named .statement node) :
      Built named .statement (.switch subject arms fallback line)
  | rangeLoop {name : String} {start limit : Node} {closed : Bool} {step : Option Node}
      {body : List Node} {line : Nat} (free : named name) (first : Built named .value start)
      (last : Built named .value limit) (by_ : ∀ node ∈ step, Built named .value node)
      (statements : ∀ node ∈ body, Built named .statement node) :
      Built named .statement (.rangeLoop name start limit closed step body line)
  | eachLoop {name : String} {collection : Node} {body : List Node} {line : Nat}
      (free : named name) (elements : Built named .value collection)
      (statements : ∀ node ∈ body, Built named .statement node) :
      Built named .statement (.eachLoop name collection body line)
  | breakOut (line : Nat) : Built named .statement (.breakOut line)
  | continueOn (line : Nat) : Built named .statement (.continueOn line)
  | fallThrough (line : Nat) : Built named .statement (.fallThrough line)
  | giveBack {value : Option Node} {line : Nat} (result : ∀ node ∈ value, Built named .value node) :
      Built named .statement (.giveBack value line)

variable {named : String → Prop} {line : Nat}

/-! ### Runs -/

/-- An item of a run of a program. -/
def Item.Built (named : String → Prop) : Item → Prop
  | .operand node => node.Built named .value
  | .operator symbol .before _ => symbol ∈ ["_-", "_!", "_~", "++", "--"]
  | .operator symbol .after _ => symbol ∈ ["++", "--"]
  | .operator symbol .between _ => (binaryLevel? symbol).isSome = true

theorem isInfix_iff {symbol : String} :
    isInfix symbol = true ↔ (binaryLevel? symbol).isSome = true ∧ symbol ≠ "=" ∧ symbol ≠ ":=" ∧
      Item.compoundBase? symbol = none := by
  constructor
  · intro h
    refine ⟨?_, ?_, ?_, ?_⟩
    · unfold isInfix at h
      cases hlevel : binaryLevel? symbol with
      | none => simp [hlevel] at h
      | some level => rfl
    · rintro rfl
      cases h
    · rintro rfl
      cases h
    · unfold Item.compoundBase?
      split
      all_goals first | rfl | cases h
  · rintro ⟨h, hassign, hdefine, hbase⟩
    unfold isInfix
    unfold binaryLevel? at h ⊢
    split at h
    all_goals first | rfl | contradiction

theorem isInfix_of_compoundBase {symbol base : String}
    (h : Item.compoundBase? symbol = some base) : isInfix base = true ∧ base ≠ "." := by
  unfold Item.compoundBase? at h
  split at h
  all_goals
    cases h
    try exact ⟨rfl, by decide⟩

theorem increment_built {symbol : String} {yieldsOld : Bool} {target node : Node}
    (htarget : target.Built named .value)
    (h : Item.increment symbol yieldsOld target line = .ok node) : node.Built named .value := by
  unfold Item.increment at h
  split at h
  next hplace =>
    cases h
    have hbase : ∀ {base}, base = (if symbol == "++" then "+" else "-") →
        base = "+" ∨ base = "-" := by
      rintro base rfl
      split <;> simp
    cases yieldsOld with
    | true => exact .increment hplace (hbase rfl) htarget
    | false =>
      refine .assignment hplace htarget (.between ?_ ?_ htarget (.constant _ _))
      · rcases hbase rfl with h | h <;> rw [h] <;> rfl
      · rcases hbase rfl with h | h <;> rw [h] <;> decide
  next => cases h

theorem reduceUnary_built {symbol : String} {fixity : Fixity} {operand node : Node}
    (hsymbol : symbol ∈ ["_-", "_!", "_~", "++", "--"]) (hoperand : operand.Built named .value)
    (h : Item.reduceUnary symbol fixity operand line = .ok node) : node.Built named .value := by
  unfold Item.reduceUnary at h
  split at h
  next => exact increment_built hoperand h
  next hother =>
    cases h
    refine .before ?_ hoperand
    simp only [Bool.or_eq_true, beq_iff_eq, not_or] at hother
    simpa [hother] using hsymbol

theorem reduceBinary_built {symbol : String} {left right node : Node}
    (hsymbol : (binaryLevel? symbol).isSome = true) (hleft : left.Built named .value)
    (hright : right.Built named .value) (h : Item.reduceBinary symbol left right line = .ok node) :
    node.Built named .value := by
  unfold Item.reduceBinary at h
  split at h
  next =>
    split at h
    next hplace =>
      cases h
      exact .assignment hplace hleft hright
    next => cases h
  next hassign =>
    split at h
    next =>
      split at h
      next name _ =>
        cases h
        cases hleft with
        | reference free => exact .definition free hright
      next => cases h
    next hdefine =>
      split at h
      next hmember =>
        split at h
        next hright' =>
          cases h
          exact .access hright' hleft hright
        next => cases h
      next hmember =>
        rw [beq_iff_eq] at hassign hdefine hmember
        split at h
        next base hbase =>
          obtain ⟨hbetween, hplain⟩ := isInfix_of_compoundBase hbase
          split at h
          next hplace =>
            cases h
            exact .assignment hplace hleft (.between hbetween hplain hleft hright)
          next => cases h
        next hbase =>
          cases h
          have hbetween := isInfix_iff.2 ⟨hsymbol, hassign, hdefine, hbase⟩
          exact .between hbetween hmember hleft hright

/-- One step of the folding keeps the stack free of anything but built values. -/
theorem reduce_built {stack stack' : List Node} {item : Item}
    (hstack : ∀ node ∈ stack, node.Built named .value) (hitem : item.Built named)
    (h : Item.reduce stack item = .ok stack') : ∀ node ∈ stack', node.Built named .value := by
  rcases reduce_cases h with ⟨node, rfl, rfl⟩ |
    ⟨symbol, line, left, right, rest, node, rfl, rfl, hnode, rfl⟩ |
    ⟨symbol, fixity, line, tree, rest, node, rfl, hfixity, rfl, hnode, rfl⟩
  · exact List.forall_mem_cons.2 ⟨hitem, hstack⟩
  · rw [List.forall_mem_cons, List.forall_mem_cons] at hstack
    obtain ⟨hright, hleft, hrest⟩ := hstack
    exact List.forall_mem_cons.2 ⟨reduceBinary_built hitem hleft hright hnode, hrest⟩
  · rw [List.forall_mem_cons] at hstack
    refine List.forall_mem_cons.2 ⟨reduceUnary_built ?_ hstack.1 hnode, hstack.2⟩
    cases fixity with
    | before => exact hitem
    | after => exact List.mem_of_mem_drop (i := 3) hitem
    | between => exact absurd rfl hfixity

theorem foldlM_reduce_built {items : List Item} {stack stack' : List Node}
    (hstack : ∀ node ∈ stack, node.Built named .value) (hitems : ∀ item ∈ items, item.Built named)
    (h : items.foldlM Item.reduce stack = .ok stack') :
    ∀ node ∈ stack', node.Built named .value := by
  induction items generalizing stack with
  | nil =>
    cases h
    exact hstack
  | cons item items ih =>
    rw [List.foldlM_cons] at h
    cases hstep : Item.reduce stack item with
    | error f =>
      rw [hstep] at h
      cases h
    | ok next =>
      rw [hstep] at h
      have hnext := reduce_built hstack (hitems item (by simp)) hstep
      exact ih hnext (fun i hi => hitems i (by simp [hi])) h

/-- **A run of a program adds up to a built value.** -/
theorem buildTree_built {items : List Item} {node : Node}
    (hitems : ∀ item ∈ items, item.Built named)
    (h : Item.buildTree (Item.postOrder items) line = .ok node) : node.Built named .value := by
  unfold Item.buildTree at h
  cases hfold : (Item.postOrder items).foldlM Item.reduce [] with
  | error f =>
    rw [hfold] at h
    cases h
  | ok stack =>
    have hsorted : ∀ item ∈ Item.postOrder items, item.Built named :=
      fun item hitem => hitems item (mem_postOrder.1 hitem)
    have hstack := foldlM_reduce_built (by simp) hsorted hfold
    rw [hfold] at h
    match stack, hstack, h with
    | [tree], hstack, rfl => exact hstack tree (by simp)

/-! ### Built trees are well formed -/

theorem takesOperands_of_isInfix {symbol : String} (h : isInfix symbol = true)
    (hplain : symbol ≠ ".") :
    takesOperands symbol 2 = true ∧
      ∃ p : Primitive, p.name = symbol ∧ p.arity.accepts 2 = true := by
  obtain ⟨hlevel, hassign, hdefine, hbase⟩ := isInfix_iff.1 h
  exact takesOperands_between hlevel hassign hdefine hplain hbase

/-- A tree of a program at its place. -/
def Node.SoundAt (named : String → Prop) : Place → Node → Prop
  | .value, node => node.SoundValue named
  | .statement, node => node.Sound named

theorem Node.sound_of_parts {node : Node} (hshape : node.HasShape)
    (hvalues : ∀ part ∈ node.valueParts, part.SoundValue named)
    (hnames : ∀ name ∈ node.names, named name)
    (hstatements : ∀ part ∈ node.statementParts, part.Sound named) : node.Sound named :=
  .intro ⟨hshape, fun part hpart => (hvalues part hpart).2, hnames⟩
    (fun part hpart => (hvalues part hpart).1) hstatements

/-- **Built trees are well formed.** -/
theorem Node.Built.sound {place : Place} {node : Node} (h : node.Built named place) :
    node.SoundAt named place := by
  induction h with
  | constant value line => exact soundValue_constant value line
  | reference free => exact soundValue_reference free
  | definition free _ right => exact soundValue_definition free right
  | function free frees _ statements => exact soundValue_function free frees statements
  | assignment place _ _ left right => exact soundValue_assignment place left right
  | @increment target base line place step _ left =>
    have hbetween : isInfix base = true ∧ base ≠ "." := by
      rcases step with rfl | rfl
      · exact ⟨rfl, by decide⟩
      · exact ⟨rfl, by decide⟩
    refine soundValue_assignment place left ?_
    refine soundValue_operation hbetween.2 (takesOperands_of_isInfix hbetween.1 hbetween.2) ?_
    simpa using ⟨left, soundValue_constant _ line⟩
  | before operator _ right =>
    refine soundValue_operation ?_ (takesOperands_before operator)
      (List.forall_mem_singleton.2 right)
    rintro rfl
    simp at operator
  | between operator plain _ _ first second =>
    refine soundValue_operation plain (takesOperands_of_isInfix operator plain) ?_
    simpa using ⟨first, second⟩
  | access member _ _ first second => exact soundValue_access member first second
  | list some _ each =>
    have hcount : 1 ≤ _ := List.length_pos_iff.2 some
    refine soundValue_operation (by decide) ⟨by simpa [takesOperands] using hcount, ?_⟩ each
    exact ⟨.list, rfl, rfl⟩
  | call free _ each => exact soundValue_call free each
  | expression _ value => exact value.1
  | conditional _ _ _ test statements others =>
    refine Node.sound_of_parts trivial (List.forall_mem_singleton.2 test) nofun ?_
    exact List.forall_mem_append.2 ⟨statements, others⟩
  | whileLoop _ _ test statements =>
    exact Node.sound_of_parts trivial (List.forall_mem_singleton.2 test) nofun statements
  | switch _ some _ _ _ chosen values bodies others =>
    refine Node.sound_of_parts some ?_ nofun ?_
    · exact List.forall_mem_cons.2 ⟨chosen, List.forall_mem_flatMap.2 values⟩
    · exact List.forall_mem_append.2 ⟨List.forall_mem_flatMap.2 bodies, others⟩
  | rangeLoop free _ _ _ _ first last by_ statements =>
    refine Node.sound_of_parts trivial ?_ (List.forall_mem_singleton.2 free) statements
    refine List.forall_mem_cons.2 ⟨first, List.forall_mem_cons.2 ⟨last, fun node hnode => ?_⟩⟩
    exact by_ node (Option.mem_toList.1 hnode)
  | eachLoop free _ _ elements statements =>
    exact Node.sound_of_parts trivial (List.forall_mem_singleton.2 elements)
      (List.forall_mem_singleton.2 free) statements
  | breakOut | continueOn | fallThrough => exact Node.sound_of_parts trivial nofun nofun nofun
  | giveBack _ result =>
    refine Node.sound_of_parts trivial (fun node hnode => ?_) nofun nofun
    exact result node (Option.mem_toList.1 hnode)

end PairScript
