import PairScript.Proofs.Parse.Sound
import PairScript.Proofs.Syntax.Climbing

/-!
# Runs add up

The items that `Parser.collect` hands on alternate between operands and operators.  So they are a
run in the sense of `Item.isRun`, sorting them lists a tree of operators, and the folding of that
list is the folding of the tree: every operator finds its operands on the stack, and one tree is
left.  What can still go wrong is that an operator does not accept the operands it finds.
-/

namespace PairScript

/-- Why an operator may not accept its operands. -/
def SyntaxCause.IsOfOperands (cause : SyntaxCause) : Prop :=
  cause = .invalidTarget ∨ cause = .invalidMember

theorem SyntaxCause.IsOfOperands.ne_malformed {cause : SyntaxCause} (h : cause.IsOfOperands) :
    cause ≠ .malformedExpression := by
  rcases h with rfl | rfl
  · exact nofun
  · exact nofun

namespace Item

/-! ### Folding -/

/-- How many trees an item takes off the stack. -/
def operands : Item → Nat
  | .operand _ => 0
  | .operator _ .between _ => 2
  | .operator _ _ _ => 1

/-- A computation that fails only because an operator does not accept its operands. -/
def Accepts {α : Type} (x : Except SyntaxFault α) : Prop := ∀ f, x = .error f → f.cause.IsOfOperands

theorem Accepts.ok {α : Type} (a : α) : Accepts (.ok a) := fun _ h => nomatch h

theorem Accepts.error {α : Type} {cause : SyntaxCause} (line : Nat) (h : cause.IsOfOperands) :
    Accepts (.error ⟨cause, line⟩ : Except SyntaxFault α) := by
  intro f hf
  cases hf
  exact h

theorem Accepts.bind {α β : Type} {x : Except SyntaxFault α} {f : α → Except SyntaxFault β}
    (hx : Accepts x) (hf : ∀ a, Accepts (f a)) : Accepts (x >>= f) := by
  cases x with
  | ok a => exact hf a
  | error fault =>
    intro f hfault
    cases hfault
    exact hx fault rfl

theorem reduceUnary_accepts (symbol : String) (fixity : Fixity) (operand : Node) (line : Nat) :
    Accepts (reduceUnary symbol fixity operand line) := by
  unfold reduceUnary increment
  split
  · split
    · exact .ok _
    · exact .error line (.inl rfl)
  · exact .ok _

theorem reduceBinary_accepts (symbol : String) (left right : Node) (line : Nat) :
    Accepts (reduceBinary symbol left right line) := by
  unfold reduceBinary
  split
  · split
    · exact .ok _
    · exact .error line (.inl rfl)
  · split
    · split
      · exact .ok _
      · exact .error line (.inl rfl)
    · split
      · split
        · exact .ok _
        · exact .error line (.inr rfl)
      · split
        · split
          · exact .ok _
          · exact .error line (.inl rfl)
        · exact .ok _

end Item

/-- A tree of operators has all the operands there are to it. -/
theorem Term.reduce_accepts (t : Term) : Item.Accepts t.reduce := by
  induction t with
  | leaf node => exact .ok node
  | before symbol line t ih => exact ih.bind fun _ => Item.reduceUnary_accepts _ _ _ _
  | after symbol line t ih => exact ih.bind fun _ => Item.reduceUnary_accepts _ _ _ _
  | between symbol line l r ihl ihr =>
    exact ihl.bind fun _ => ihr.bind fun _ => Item.reduceBinary_accepts _ _ _ _

namespace Item

/-- An item that lacks an operand is found to be malformed. -/
theorem reduce_of_short {stack : List Node} {item : Item} (h : stack.length < item.operands) :
    ∃ line, reduce stack item = .error ⟨.malformedExpression, line⟩ := by
  match item, stack with
  | .operand node, stack => exact absurd h (Nat.not_lt_zero _)
  | .operator _ .between line, [] => exact ⟨line, rfl⟩
  | .operator _ .between line, [_] => exact ⟨line, rfl⟩
  | .operator _ .between line, _ :: _ :: _ => exact absurd h (by simp [operands])
  | .operator _ .before line, [] => exact ⟨line, rfl⟩
  | .operator _ .after line, [] => exact ⟨line, rfl⟩
  | .operator _ .before line, _ :: _ => exact absurd h (by simp [operands])
  | .operator _ .after line, _ :: _ => exact absurd h (by simp [operands])

/-- Items whose folding never lacks an operand and leaves one tree. -/
structure AddsUp (items : List Item) : Prop where
  /-- Whatever has been folded so far, the next item finds its operands on the stack. -/
  enough : ∀ {before after : List Item} {item : Item} {stack : List Node},
    postOrder items = before ++ item :: after → before.foldlM reduce [] = .ok stack →
      item.operands ≤ stack.length
  single : ∀ {stack : List Node}, (postOrder items).foldlM reduce [] = .ok stack →
    ∃ tree, stack = [tree]
  accepts : ∀ line, Accepts (buildTree (postOrder items) line)

/-- **Runs add up.** -/
theorem addsUp_of_isRun {items : List Item} (h : isRun true items = true) : AddsUp items := by
  obtain ⟨t, -, hsorted⟩ := Climbing.tree_of_run h
  have hfold : (postOrder items).foldlM reduce [] = t.reduce >>= fun node => pure [node] := by
    have hfold := foldlM_postOrder t [] []
    rw [List.append_nil] at hfold
    rw [hsorted, hfold]
    rfl
  refine ⟨fun {before after item stack} hsplit hstack => ?_, fun {stack} hstack => ?_, ?_⟩
  · refine Nat.not_lt.1 fun hshort => ?_
    -- the folding would stop here, and the tree could not be made for want of an operand
    obtain ⟨line, hreduce⟩ := reduce_of_short hshort
    have hstops : (postOrder items).foldlM reduce [] = .error ⟨.malformedExpression, line⟩ := by
      rw [hsplit, List.foldlM_append, hstack]
      show (reduce stack item >>= fun stack => after.foldlM reduce stack) = _
      rw [hreduce]
      rfl
    rw [hfold] at hstops
    exact ((t.reduce_accepts.bind fun node => .ok [node]) _ hstops).ne_malformed rfl
  · rw [hfold] at hstack
    cases htree : t.reduce with
    | ok node =>
      rw [htree] at hstack
      cases hstack
      exact ⟨node, rfl⟩
    | error f =>
      rw [htree] at hstack
      cases hstack
  · intro line
    rw [hsorted, buildTree_postOrder]
    exact t.reduce_accepts

end Item

/-! ### Collecting -/

theorem Parser.binaryLevel_of_continuation {mode : Mode} {text : String}
    (h : symbolContinuation mode text = .between) : (binaryLevel? text).isSome = true := by
  unfold symbolContinuation at h
  repeat' split at h
  all_goals simp_all

theorem Grammar.Items.isRun {R : Goal → Phrase Node} {mode : Mode} {due started : Bool}
    {ts rest : List Token} {items : List Item} (h : Items R mode due started ts items rest) :
    Item.isRun due items = true := by
  induction h with
  | done => rfl
  | lineBreak _ _ _ ih => exact ih
  | plus _ _ ih => exact ih
  | before _ _ _ _ ih => exact ih
  | operand _ _ ih => exact ih
  | ignored _ _ _ ih => exact ih
  | after _ _ _ ih => exact ih
  | index _ _ _ _ ih => exact ih
  | between _ hoperator _ ih =>
    rw [Item.isRun, Parser.binaryLevel_of_continuation hoperator]
    exact ih

/-- **What is collected adds up**, unless an operand is still due at the end of the list. -/
theorem Parser.collect_addsUp {self : Self} {mode : Mode} {bound : Nat} {ts rest : List Token}
    {c : Collected} (h : collect self mode bound ⟨true, []⟩ ts = .ok c rest)
    (hdone : c.operandDue = false) : Item.AddsUp c.items.reverse := by
  have hself : ∀ goal ts node rest, self goal ts = .ok node rest → True := fun _ _ _ _ _ => trivial
  obtain ⟨items, hitems, hphrase⟩ := collect_sound (R := fun _ _ _ _ => True) hself
    (c := ⟨true, []⟩) nofun h hdone
  rw [hitems, List.append_nil, List.reverse_reverse]
  exact Item.addsUp_of_isRun hphrase.isRun

end PairScript
