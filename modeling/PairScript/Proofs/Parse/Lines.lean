import PairScript.Proofs.Parse.Runs
import PairScript.Proofs.Syntax.WellFormed

/-!
# Reading ends, and keeps to the lines of the tokens

The tokens of a text stand on its lines, and the last of them marks its end (`Marked`).  Reading
keeps it that way: a procedure that takes the mark off the list fails at once.  So there is always a
token left to take a line from, and

* the line of a fault is the line of a token, and its cause is never that operators and operands do
  not add up;
* the line of every node is the line of a token;
* the bounds on loops and levels are never reached, whether the reading succeeds or not.

`Consumes` says all this of one procedure, and how many tokens it leaves; there is a lemma for each
procedure.  `level_answers` closes the recursion, and `parse_lined` is what follows for whole
programs.
-/

namespace PairScript

/-- A tree whose nodes are all on certain lines. -/
abbrev Node.Lined (on : Nat → Prop) (node : Node) : Prop := node.Everywhere fun node => on node.line

/-- A part of a run on certain lines. -/
def Item.Lined (on : Nat → Prop) : Item → Prop
  | .operand node => node.Lined on
  | .operator _ _ line => on line

/-- A result, or a fault on certain lines. -/
def Settled {α : Type} (on : Nat → Prop) (Q : α → Prop) : Except SyntaxFault α → Prop
  | .ok a => Q a
  | .error f => on f.line

variable {on : Nat → Prop} {line : Nat}

/-! ### Trees -/

theorem Settled.bind {α β : Type} {Q : α → Prop} {P : β → Prop} {x : Except SyntaxFault α}
    {f : α → Except SyntaxFault β} (hx : Settled on Q x) (hf : ∀ a, Q a → Settled on P (f a)) :
    Settled on P (x >>= f) := by
  cases x with
  | ok a => exact hf a hx
  | error fault => exact hx

namespace Item

theorem increment_settled {symbol : String} {yieldsOld : Bool} {target : Node}
    (htarget : target.Lined on) (hline : on line) :
    Settled on (Node.Lined on) (increment symbol yieldsOld target line) := by
  unfold increment
  split
  · have hone : (Node.constant (.int 1) line).Lined on := .intro hline nofun nofun
    refine .intro hline (List.forall_mem_cons.2 ⟨htarget, List.forall_mem_singleton.2 ?_⟩) nofun
    exact .intro hline (List.forall_mem_cons.2 ⟨htarget, List.forall_mem_singleton.2 hone⟩) nofun
  · exact hline

theorem reduceUnary_settled {symbol : String} {fixity : Fixity} {operand : Node}
    (hoperand : operand.Lined on) (hline : on line) :
    Settled on (Node.Lined on) (reduceUnary symbol fixity operand line) := by
  unfold reduceUnary
  split
  · exact increment_settled hoperand hline
  · exact .intro hline (List.forall_mem_singleton.2 hoperand) nofun

theorem reduceBinary_settled {symbol : String} {left right : Node} (hleft : left.Lined on)
    (hright : right.Lined on) (hline : on line) :
    Settled on (Node.Lined on) (reduceBinary symbol left right line) := by
  have hoperation : ∀ symbol, (Node.operation symbol [left, right] line).Lined on := fun _ =>
    .intro hline (List.forall_mem_cons.2 ⟨hleft, List.forall_mem_singleton.2 hright⟩) nofun
  have hassignment : ∀ {value}, value.Lined on →
      (Node.assignment left value false line).Lined on := fun hvalue =>
    .intro hline (List.forall_mem_cons.2 ⟨hleft, List.forall_mem_singleton.2 hvalue⟩) nofun
  unfold reduceBinary
  split
  · split
    · exact hassignment hright
    · exact hline
  · split
    · split
      · exact .intro hline (List.forall_mem_singleton.2 hright) nofun
      · exact hline
    · split
      · split
        · exact hoperation "."
        · exact hline
      · split
        · split
          · exact hassignment (hoperation _)
          · exact hline
        · exact hoperation symbol

theorem reduce_settled {stack : List Node} {item : Item} (hstack : ∀ node ∈ stack, node.Lined on)
    (hitem : item.Lined on) : Settled on (∀ node ∈ ·, node.Lined on) (reduce stack item) := by
  unfold reduce
  split
  next => exact List.forall_mem_cons.2 ⟨hitem, hstack⟩
  next =>
    split
    next =>
      obtain ⟨hright, hstack⟩ := List.forall_mem_cons.1 hstack
      obtain ⟨hleft, hrest⟩ := List.forall_mem_cons.1 hstack
      exact (reduceBinary_settled hleft hright hitem).bind fun _ hnode =>
        List.forall_mem_cons.2 ⟨hnode, hrest⟩
    next => exact hitem
  next =>
    split
    next =>
      obtain ⟨htree, hrest⟩ := List.forall_mem_cons.1 hstack
      exact (reduceUnary_settled htree hitem).bind fun _ hnode =>
        List.forall_mem_cons.2 ⟨hnode, hrest⟩
    next => exact hitem

theorem foldlM_reduce_settled {items : List Item} {stack : List Node}
    (hstack : ∀ node ∈ stack, node.Lined on) (hitems : ∀ item ∈ items, item.Lined on) :
    Settled on (∀ node ∈ ·, node.Lined on) (items.foldlM reduce stack) := by
  induction items generalizing stack with
  | nil => exact hstack
  | cons item items ih =>
    obtain ⟨hitem, hitems⟩ := List.forall_mem_cons.1 hitems
    rw [List.foldlM_cons]
    exact (reduce_settled hstack hitem).bind fun _ hnext => ih hnext hitems

/-- A run on certain lines adds up to a tree on them, or to a fault on one of them. -/
theorem buildTree_settled {items : List Item} (hitems : ∀ item ∈ items, item.Lined on)
    (hline : on line) : Settled on (Node.Lined on) (buildTree (postOrder items) line) := by
  have hsorted : ∀ item ∈ postOrder items, item.Lined on :=
    fun item hitem => hitems item (mem_postOrder.1 hitem)
  refine (foldlM_reduce_settled (by simp) hsorted).bind fun stack hstack => ?_
  split
  next => exact hline
  next tree => exact hstack tree List.mem_cons_self
  next => exact hline

end Item

/-! ### Tokens -/

/-- Tokens on certain lines, the last of which marks the end. -/
structure Marked (on : Nat → Prop) (ts : List Token) : Prop where
  lines : ∀ t ∈ ts, on t.line
  ended : ts.getLast?.any Token.isFinish = true

namespace Marked

variable {ts rest : List Token} {t : Token}

theorem ne_nil (h : Marked on ts) : ts ≠ [] := by
  rintro rfl
  cases h.ended

theorem length_pos (h : Marked on ts) : 0 < ts.length := List.length_pos_iff.2 h.ne_nil

theorem head (h : Marked on (t :: rest)) : on t.line := h.lines t List.mem_cons_self

/-- Only the mark of the end cannot be taken off. -/
theorem tail (h : Marked on (t :: rest)) (ht : t.isFinish = false) : Marked on rest := by
  refine ⟨fun t' ht' => h.lines t' (List.mem_cons_of_mem t ht'), ?_⟩
  have hended := h.ended
  cases rest with
  | nil => simp [ht] at hended
  | cons t' rest => simpa using hended

theorem dropWhile {p : Token → Bool} (hp : ∀ t, p t = true → t.isFinish = false)
    (h : Marked on ts) : Marked on (ts.dropWhile p) := by
  induction ts with
  | nil => exact h
  | cons t rest ih =>
    rw [List.dropWhile_cons]
    split
    next ht => exact ih (h.tail (hp t ht))
    next => exact h

end Marked

namespace Token

theorem isFinish_of_isSymbol {t : Token} {s : String} (h : t.isSymbol s = true) :
    t.isFinish = false := by
  rw [← Bool.not_eq_true, isFinish_iff, isSymbol_iff.1 h]
  exact nofun

theorem isFinish_of_isName {t : Token} {w : String} (h : t.isName w = true) :
    t.isFinish = false := by
  rw [← Bool.not_eq_true, isFinish_iff, isName_iff.1 h]
  exact nofun

theorem isFinish_of_isNewline {t : Token} (h : t.isNewline = true) : t.isFinish = false := by
  rw [← Bool.not_eq_true, isFinish_iff, isNewline_iff.1 h]
  exact nofun

theorem isFinish_of_isSeparator {t : Token} (h : Parser.isSeparator t = true) :
    t.isFinish = false :=
  (Bool.or_eq_true_iff.1 h).elim isFinish_of_isNewline isFinish_of_isSymbol

end Token

namespace Parser

variable {α β : Type} {p : Parser α} {a a' b b' : Nat} {Q Q' : α → Prop}

/-! ### Procedures -/

/-- How a procedure may end: with a result and at most `b` tokens left, or with a fault, which is
never that an expression is malformed. -/
def Ends (on : Nat → Prop) (b : Nat) (Q : α → Prop) :
    EStateM.Result (Halt SyntaxCause) (List Token) α → Prop
  | .ok x rest => Marked on rest ∧ rest.length ≤ b ∧ Q x
  | .error (.fault f) _ => on f.line ∧ f.cause ≠ .malformedExpression
  | .error .outOfFuel _ => False

/-- A procedure that, given at most `a` tokens, leaves at most `b` of them. -/
def Consumes (on : Nat → Prop) (a : Nat) (p : Parser α) (b : Nat) (Q : α → Prop) : Prop :=
  ∀ ts, Marked on ts → ts.length ≤ a → Ends on b Q (p ts)

theorem fail_ends {cause : SyntaxCause} {ts : List Token} (hline : on line)
    (hcause : cause ≠ .malformedExpression) : Ends on b Q ((fail cause line : Parser α) ts) :=
  ⟨hline, hcause⟩

theorem unexpected_ends {t : Token} {expected : Expectation} {ts : List Token} (ht : on t.line) :
    Ends on b Q ((unexpected t expected : Parser α) ts) := by
  unfold unexpected
  split <;> exact ⟨ht, nofun⟩

theorem Ends.mono {r : EStateM.Result (Halt SyntaxCause) (List Token) α} (h : Ends on b Q r)
    (hb : b ≤ b') (hQ : ∀ x, Q x → Q' x) : Ends on b' Q' r := by
  unfold Ends at h ⊢
  split at h
  next => exact ⟨h.1, Nat.le_trans h.2.1 hb, hQ _ h.2.2⟩
  next => exact h
  next => exact h

/-- Whatever else is known of the result. -/
theorem Ends.of_ok {r : EStateM.Result (Halt SyntaxCause) (List Token) α} {P : α → Prop}
    (h : Ends on b Q r) (hP : ∀ x rest, r = .ok x rest → P x) :
    Ends on b (fun x => Q x ∧ P x) r := by
  unfold Ends at h ⊢
  split at h
  next x rest => exact ⟨h.1, h.2.1, h.2.2, hP x rest rfl⟩
  next => exact h
  next => exact h

theorem Ends.bind {f : α → Parser β} {n : Nat} {P : β → Prop} {ts : List Token}
    (hp : Ends on b Q (p ts)) (hf : ∀ x, Q x → Consumes on b (f x) n P) :
    Ends on n P ((p >>= f) ts) := by
  show Ends on n P (EStateM.bind p f ts)
  unfold EStateM.bind
  match hresult : p ts with
  | .ok x rest =>
    rw [hresult] at hp
    exact hf x hp.2.2 rest hp.1 hp.2.1
  | .error (.fault _) _ =>
    rw [hresult] at hp
    exact hp
  | .error .outOfFuel _ =>
    rw [hresult] at hp
    exact hp

namespace Consumes

theorem mono (h : Consumes on a p b Q) (ha : a' ≤ a) (hb : b ≤ b') (hQ : ∀ x, Q x → Q' x) :
    Consumes on a' p b' Q' :=
  fun ts hts hlength => (h ts hts (Nat.le_trans hlength ha)).mono hb hQ

theorem leaving (h : Consumes on a p b Q) (hb : b ≤ b') : Consumes on a p b' Q :=
  h.mono (Nat.le_refl a) hb fun _ => id

/-- There is at least one token. -/
theorem of_pos (h : 0 < a → Consumes on a p b Q) : Consumes on a p b Q :=
  fun ts hts hlength => h (Nat.lt_of_lt_of_le hts.length_pos hlength) ts hts hlength

theorem pure {x : α} (hx : Q x) : Consumes on a (pure x) a Q :=
  fun _ hts hlength => ⟨hts, hlength, hx⟩

theorem bind {f : α → Parser β} {n : Nat} {P : β → Prop} (hp : Consumes on a p b Q)
    (hf : ∀ x, Q x → Consumes on b (f x) n P) : Consumes on a (p >>= f) n P :=
  fun ts hts hlength => (hp ts hts hlength).bind hf

theorem map {f : α → β} {P : β → Prop} (hp : Consumes on a p b Q) (hf : ∀ x, Q x → P (f x)) :
    Consumes on a (f <$> p) b P := by
  rw [map_eq_pure_bind]
  exact hp.bind fun x hx => .pure (hf x hx)

/-- A procedure that looks at the tokens first. -/
theorem get_bind {f : List Token → Parser β} {P : β → Prop}
    (hf : ∀ t rest, Marked on (t :: rest) → rest.length + 1 ≤ a →
      Ends on b P (f (t :: rest) (t :: rest))) : Consumes on a (get >>= f) b P := by
  intro ts hts hlength
  match ts, hts with
  | t :: rest, hts => exact hf t rest hts hlength

theorem ofExcept {x : Except SyntaxFault α} (hx : Settled on Q x) (haccepts : Item.Accepts x) :
    Consumes on a (ofExcept x) a Q := by
  intro ts hts hlength
  cases x with
  | ok y => exact ⟨hts, hlength, hx⟩
  | error f => exact ⟨hx, (haccepts f rfl).ne_malformed⟩

end Consumes

/-! ### Single tokens -/

theorem skipWhile_consumes {p : Token → Bool} (hp : ∀ t, p t = true → t.isFinish = false) :
    Consumes on a (skipWhile p) a fun _ => True :=
  fun _ hts hlength =>
    ⟨hts.dropWhile hp, Nat.le_trans (List.dropWhile_suffix p).length_le hlength, trivial⟩

theorem skipNewlines_consumes : Consumes on a skipNewlines a fun _ => True :=
  skipWhile_consumes fun _ => Token.isFinish_of_isNewline

theorem expect_consumes {p : Token → Bool} {expected : Expectation}
    (hp : ∀ t, p t = true → t.isFinish = false) :
    Consumes on a (expect p expected) (a - 1) fun _ => True := by
  refine .get_bind fun t rest hts hlength => ?_
  simp only [set_bind]
  split
  next ht => exact ⟨hts.tail (hp t ht), Nat.le_sub_of_add_le hlength, trivial⟩
  next => exact unexpected_ends hts.head

theorem expectSymbol_consumes {s : String} :
    Consumes on a (expectSymbol s) (a - 1) fun _ => True :=
  expect_consumes fun _ => Token.isFinish_of_isSymbol

theorem expectWord_consumes {w : String} : Consumes on a (expectWord w) (a - 1) fun _ => True :=
  expect_consumes fun _ => Token.isFinish_of_isName

theorem identifier_consumes : Consumes on a identifier (a - 1) fun _ => True := by
  refine .get_bind fun t rest hts hlength => ?_
  simp only [set_bind]
  cases hkind : t.kind with
  | name text =>
    dsimp only
    split
    · exact unexpected_ends hts.head
    · have hleft := hts.tail (Token.isFinish_of_isName (Token.isName_iff.2 hkind))
      exact ⟨hleft, Nat.le_sub_of_add_le hlength, trivial⟩
  | _ => exact unexpected_ends hts.head

theorem atSymbol_consumes {s : String} : Consumes on a (atSymbol s) a fun _ => True :=
  fun _ hts hlength => ⟨hts, hlength, trivial⟩

theorem currentLine_consumes : Consumes on a currentLine a on := by
  intro ts hts hlength
  match ts, hts with
  | t :: rest, hts => exact ⟨hts, hlength, hts.head⟩

/-- What follows a token that may be missing. -/
theorem skipIf_bind {p : Token → Bool} (hp : ∀ t, p t = true → t.isFinish = false)
    {f : Bool → Parser β} {P : β → Prop} (htrue : Consumes on (a - 1) (f true) b P)
    (hfalse : Consumes on a (f false) b P) : Consumes on a (skipIf p >>= f) b P := by
  intro ts hts hlength
  match ts, hts with
  | t :: rest, hts =>
    show Ends on b P (EStateM.bind (skipIf p) f (t :: rest))
    simp only [EStateM.bind, skipIf, get_bind]
    rw [List.length_cons] at hlength
    split
    next x s hresult =>
      split at hresult
      next ht =>
        cases hresult
        exact htrue rest (hts.tail (hp t ht)) (by omega)
      next =>
        cases hresult
        exact hfalse (t :: rest) hts hlength
    next hresult =>
      split at hresult
      · cases hresult
      · cases hresult

/-! ### Lists -/

section

variable {item : Parser α} {closing : String}

theorem commaSeparatedFrom_consumes {bound : Nat} {acc : List α} (hbound : a ≤ bound)
    (hitem : ∀ a', a' ≤ a → Consumes on a' item (a' - 1) Q) (hacc : ∀ x ∈ acc, Q x) :
    Consumes on a (commaSeparatedFrom item closing bound acc) (a - 1) (∀ x ∈ ·, Q x) := by
  induction bound generalizing a acc with
  | zero => exact .of_pos fun ha => absurd hbound (Nat.not_le.2 ha)
  | succ bound ih =>
    refine (hitem a (Nat.le_refl a)).bind fun x hx => skipNewlines_consumes.bind fun _ _ => ?_
    refine .get_bind fun t rest hts hlength => ?_
    simp only [set_bind]
    have hmore := List.forall_mem_cons.2 ⟨hx, hacc⟩
    split
    next hcomma =>
      have hnext := skipNewlines_consumes.bind fun _ _ =>
        ih (a := a - 1 - 1) (by omega) (fun a' ha' => hitem a' (by omega)) hmore
      have hleft := hts.tail (Token.isFinish_of_isSymbol hcomma)
      exact (hnext.leaving (by omega)) rest hleft (by omega)
    next =>
      split
      next hclosing =>
        refine ⟨hts.tail (Token.isFinish_of_isSymbol hclosing), by omega, fun y hy => ?_⟩
        exact hmore y (List.mem_reverse.1 hy)
      next => exact unexpected_ends hts.head

theorem commaSeparated_consumes {bound : Nat} (hbound : a ≤ bound)
    (hitem : ∀ a', a' ≤ a → Consumes on a' item (a' - 1) Q) :
    Consumes on a (commaSeparated bound item closing) (a - 1) (∀ x ∈ ·, Q x) := by
  refine skipNewlines_consumes.bind fun _ _ => ?_
  exact skipIf_bind (fun _ => Token.isFinish_of_isSymbol) (.pure nofun)
    (commaSeparatedFrom_consumes hbound hitem nofun)

end

/-! ### Blocks and functions -/

/-- A level that answers its goals as long as two levels are left for every token: a statement asks
for a run of the same tokens, and whatever a run asks for comes after a token of its own. -/
structure Answers (on : Nat → Prop) (below : Self) (n : Nat) : Prop where
  run : ∀ {mode : Mode} {a : Nat}, 2 * a + 1 ≤ n →
    Consumes on a (below (.run mode)) (a - 1) (Node.Lined on)
  statement : ∀ {a : Nat}, 2 * a + 2 ≤ n →
    Consumes on a (below .statement) (a - 1) (Node.Lined on)
  conditional : ∀ {line a : Nat}, on line → 2 * a + 2 ≤ n →
    Consumes on a (below (.conditional line)) (a - 1) (Node.Lined on)

section

variable {self : Self} {n bound : Nat} (hself : Answers on self n)
include hself

theorem statementsFrom_consumes {acc : List Node} (hbound : a ≤ bound) (hn : 2 * a + 2 ≤ n)
    (hacc : ∀ node ∈ acc, node.Lined on) :
    Consumes on a (statementsFrom self bound acc) a (∀ node ∈ ·, node.Lined on) := by
  induction bound generalizing a acc with
  | zero => exact .of_pos fun ha => absurd hbound (Nat.not_le.2 ha)
  | succ bound ih =>
    refine (skipWhile_consumes fun _ => Token.isFinish_of_isSeparator).bind fun _ _ => ?_
    refine .get_bind fun t rest hts hlength => ?_
    dsimp only
    split
    next => exact ⟨hts, hlength, fun node hnode => hacc node (List.mem_reverse.1 hnode)⟩
    next =>
      have hmore : Consumes on a (self .statement >>= fun node =>
          statementsFrom self bound (node :: acc)) a (∀ node ∈ ·, node.Lined on) := by
        refine (hself.statement hn).bind fun node hnode => ?_
        refine (ih (a := a - 1) (by omega) (by omega) ?_).leaving (by omega)
        exact List.forall_mem_cons.2 ⟨hnode, hacc⟩
      exact hmore (t :: rest) hts hlength

theorem block_consumes (hbound : a ≤ bound) (hn : 2 * a + 2 ≤ n) :
    Consumes on a (block bound self) (a - 1) (∀ node ∈ ·, node.Lined on) := by
  refine skipNewlines_consumes.bind fun _ _ => expectSymbol_consumes.bind fun _ _ => ?_
  refine (statementsFrom_consumes hself (by omega) (by omega) (by simp)).bind fun body hbody => ?_
  exact (expectSymbol_consumes.bind fun _ _ => .pure hbody).leaving (by omega)

theorem functionParts_consumes (hbound : a ≤ bound) (hn : 2 * a + 2 ≤ n) :
    Consumes on a (functionParts bound self) (a - 1) fun f => ∀ node ∈ f.body, node.Lined on := by
  have hrest : ∀ a', a' ≤ a → ∀ name,
      Consumes on a' (expectSymbol "(" >>= fun _ => commaSeparated bound identifier ")" >>=
        fun params => block bound self >>= fun body => pure (⟨name, params, body⟩ : FunctionParts))
        (a - 1) fun f => ∀ node ∈ f.body, node.Lined on := by
    intro a' ha' name
    refine expectSymbol_consumes.bind fun _ _ => ?_
    refine (commaSeparated_consumes (by omega) fun a'' _ => identifier_consumes).bind
      fun params _ => ?_
    refine (block_consumes hself (a := a' - 1 - 1) (by omega) (by omega)).bind fun body hbody => ?_
    exact (Consumes.pure hbody).leaving (by omega)
  refine atSymbol_consumes.bind fun unnamed _ => ?_
  split
  · exact (Consumes.pure (Q := fun _ => True) trivial).bind fun name _ =>
      hrest a (Nat.le_refl a) name
  · exact (identifier_consumes.map (P := fun _ => True) fun _ _ => trivial).bind fun name _ =>
      hrest (a - 1) (by omega) name

theorem functionLiteral_consumes (hline : on line) (hbound : a ≤ bound) (hn : 2 * a + 2 ≤ n) :
    Consumes on a (functionLiteral bound self line) (a - 1) (Node.Lined on) :=
  (functionParts_consumes hself hbound hn).bind fun _ hbody => .pure (.intro hline nofun hbody)

/-! ### Expressions -/

theorem elements_consumes {closing : String} (hbound : a ≤ bound) (hn : 2 * a + 2 ≤ n) :
    Consumes on a (commaSeparated bound (self (.run .element)) closing) (a - 1)
      (∀ node ∈ ·, node.Lined on) :=
  commaSeparated_consumes hbound fun _ _ => hself.run (by omega)

theorem operand_consumes {first : Bool} (hbound : a ≤ bound + 1) (hn : 2 * a ≤ n) :
    Consumes on a (operand bound self first) (a - 1) (Node.Lined on) := by
  refine .get_bind fun t rest hts hlength => ?_
  have hline := hts.head
  simp only [set_bind]
  cases hkind : t.kind with
  | int | float | str =>
    exact ⟨hts.tail (by simp [Token.isFinish, hkind]), by omega, .intro hline nofun nofun⟩
  | name text =>
    have hrest := hts.tail (by simp [Token.isFinish, hkind])
    have hreference : (Node.reference text t.line).Lined on := .intro hline nofun nofun
    dsimp only
    split
    · have hfunction : Consumes on (a - 1) (functionLiteral bound self t.line) (a - 1 - 1)
          (Node.Lined on) := functionLiteral_consumes hself hline (by omega) (by omega)
      exact hfunction.leaving (Nat.sub_le _ _) rest hrest (by omega)
    · split
      · exact fail_ends hline nofun
      · have hcall : Consumes on (a - 1 - 1) (callArguments bound self >>= fun arguments =>
            pure (.call (.reference text t.line) arguments t.line)) (a - 1) (Node.Lined on) := by
          refine (elements_consumes hself (by omega) (by omega)).bind fun arguments harguments => ?_
          refine (Consumes.pure ?_).leaving (by omega)
          exact .intro hline (List.forall_mem_cons.2 ⟨hreference, harguments⟩) nofun
        rw [atSymbol_bind]
        match rest, hrest with
        | t' :: rest, hrest =>
          split
          next hopen =>
            rw [List.length_cons] at hlength
            exact hcall rest (hrest.tail (Token.isFinish_of_isSymbol hopen)) (by omega)
          next => exact ⟨hrest, by omega, hreference⟩
  | symbol text =>
    have hrest := hts.tail (by simp [Token.isFinish, hkind])
    dsimp only
    split
    · have hgroup : Consumes on (a - 1) (self (.run .nested) >>= fun inner =>
          skipNewlines >>= fun _ => expectSymbol ")" >>= fun _ => pure inner) (a - 1)
          (Node.Lined on) := by
        refine (hself.run (by omega)).bind fun inner hinner => ?_
        refine skipNewlines_consumes.bind fun _ _ => expectSymbol_consumes.bind fun _ _ => ?_
        exact (Consumes.pure hinner).leaving (by omega)
      exact hgroup rest hrest (by omega)
    · split
      · have hlist : Consumes on (a - 1) (commaSeparated bound (self (.run .element)) "]" >>=
            fun elements => if elements.isEmpty then pure (.constant .empty t.line)
              else pure (.operation "$list" elements t.line)) (a - 1) (Node.Lined on) := by
          refine (elements_consumes hself (by omega) (by omega)).bind fun elements helements => ?_
          split
          · exact (Consumes.pure (.intro hline nofun nofun)).leaving (by omega)
          · exact (Consumes.pure (.intro hline helements nofun)).leaving (by omega)
        exact hlist rest hrest (by omega)
      · exact fail_ends hline nofun
  | finish => exact fail_ends hline nofun
  | newline =>
    dsimp only
    split <;> exact fail_ends hline nofun

omit hself in
theorem isFinish_of_prefixOperator {t : Token} {name : String}
    (h : prefixOperator? t = some name) : t.isFinish = false := by
  unfold prefixOperator? at h
  split at h
  next hkind => exact Token.isFinish_of_isSymbol (Token.isSymbol_iff.2 hkind)
  next => cases h

omit hself in
theorem isFinish_of_continuation {t : Token} {mode : Mode} {c : Continuation}
    (h : continuation mode t.kind = c) (hc : c ≠ .stop) : t.isFinish = false := by
  rw [← Bool.not_eq_true, Token.isFinish_iff]
  intro hkind
  rw [hkind] at h
  exact hc h.symm

/-- A run that is being collected never ends while an operand is due, and takes in a token if one
is due at the start. -/
theorem collect_consumes {mode : Mode} {c : Collected} (hbound : a ≤ bound) (hn : 2 * a ≤ n)
    (hc : ∀ item ∈ c.items, item.Lined on) :
    Consumes on a (collect self mode bound c) (if c.operandDue then a - 1 else a)
      fun c' => c'.operandDue = false ∧ ∀ item ∈ c'.items, item.Lined on := by
  induction bound generalizing a c with
  | zero => exact .of_pos fun ha => absurd hbound (Nat.not_le.2 ha)
  | succ bound ih =>
    -- what follows once a token has been taken in
    have hnext : ∀ c', (∀ item ∈ c'.items, item.Lined on) →
        Consumes on (a - 1) (collect self mode bound c') (if c.operandDue then a - 1 else a)
          fun c' => c'.operandDue = false ∧ ∀ item ∈ c'.items, item.Lined on := by
      intro c' hc'
      refine .of_pos fun ha => (ih (a := a - 1) (by omega) (by omega) hc').leaving ?_
      split <;> split <;> omega
    refine .get_bind fun t rest hts hlength => ?_
    have hlength' : rest.length ≤ a - 1 := by omega
    have hoperator : ∀ symbol fixity,
        ∀ item ∈ Item.operator symbol fixity t.line :: c.items, item.Lined on :=
      fun _ _ => List.forall_mem_cons.2 ⟨hts.head, hc⟩
    dsimp only
    split
    next hdue =>
      rw [if_pos hdue] at hnext
      split
      next hbreak =>
        have hnewline := Token.isFinish_of_isNewline (Bool.and_eq_true_iff.1 hbreak).1
        exact hnext c hc rest (hts.tail hnewline) hlength'
      next =>
        cases hbefore : prefixOperator? t with
        | some name =>
          have hrest := hts.tail (isFinish_of_prefixOperator hbefore)
          simp only [set_bind]
          split
          next => exact hnext c hc rest hrest hlength'
          next => exact hnext _ (hoperator _ _) rest hrest hlength'
        | none =>
          have hoperand : Consumes on a (operand bound self c.items.isEmpty) (a - 1)
              (Node.Lined on) := operand_consumes hself hbound hn
          have hmore := hoperand.bind fun node hnode =>
            hnext ⟨false, .operand node :: c.items⟩ (List.forall_mem_cons.2 ⟨hnode, hc⟩)
          exact hmore (t :: rest) hts hlength
    next hdue =>
      rw [if_neg hdue] at hnext
      cases hkind : continuation mode t.kind with
      | stop => exact ⟨hts, hlength, by simpa using hdue, hc⟩
      | ignore => exact hnext c hc rest (hts.tail (isFinish_of_continuation hkind nofun)) hlength'
      | after | between =>
        have hrest := hts.tail (isFinish_of_continuation hkind nofun)
        exact hnext _ (hoperator _ _) rest hrest hlength'
      | index =>
        have hrest := hts.tail (isFinish_of_continuation hkind nofun)
        have hindex : Consumes on (a - 1) (self (.run .nested) >>= fun node =>
            expectSymbol "]" >>= fun _ => collect self mode bound ⟨false,
              .operand node :: .operator (symbolText t.kind) .between t.line :: c.items⟩) a
            fun c' => c'.operandDue = false ∧ ∀ item ∈ c'.items, item.Lined on := by
          refine (hself.run (by omega)).bind fun node hnode => ?_
          refine expectSymbol_consumes.bind fun _ _ => ?_
          refine (hnext _ ?_).mono (by omega) (Nat.le_refl a) fun _ => id
          exact List.forall_mem_cons.2 ⟨hnode, hoperator _ _⟩
        exact hindex rest hrest hlength'
      | reject => exact fail_ends hts.head nofun

theorem run_consumes {mode : Mode} (hbound : a ≤ bound) (hn : 2 * a ≤ n) :
    Consumes on a (run bound self mode) (a - 1) (Node.Lined on) := by
  rw [run_eq_finishRun]
  refine currentLine_consumes.bind fun line hline => ?_
  intro ts hts hlength
  have hcollect : Ends on (a - 1) _ (collect self mode bound ⟨true, []⟩ ts) :=
    collect_consumes hself hbound hn (by simp) ts hts hlength
  refine (hcollect.of_ok fun _ _ => collect_addsUp).bind ?_
  rintro c ⟨⟨hdue, hitems⟩, hadds⟩
  unfold finishRun
  rw [hdue]
  refine .ofExcept (Item.buildTree_settled (fun item hitem => ?_) hline) ((hadds hdue).accepts line)
  exact hitems item (List.mem_reverse.1 hitem)

/-! ### Statements -/

theorem variableDefinition_consumes (hline : on line) (hn : 2 * a + 2 ≤ n) :
    Consumes on a (variableDefinition self line) (a - 1) (Node.Lined on) := by
  refine identifier_consumes.bind fun name _ => ?_
  refine skipIf_bind (fun _ => Token.isFinish_of_isSymbol) ?_ ?_
  · refine (hself.run (by omega)).bind fun value hvalue => ?_
    exact (Consumes.pure (.intro hline (List.forall_mem_singleton.2 hvalue) nofun)).leaving
      (by omega)
  · have hnull : (Node.reference "null" line).Lined on := .intro hline nofun nofun
    exact .pure (.intro hline (List.forall_mem_singleton.2 hnull) nofun)

/-- The name is there, if no parenthesis is. -/
theorem functionDefinition_ends {ts : List Token} (hline : on line) (hbound : a ≤ bound)
    (hn : 2 * a + 2 ≤ n) (hts : Marked on ts) (hlength : ts.length ≤ a)
    (hnamed : startsParameters ts = false) :
    Ends on (a - 1) (Node.Lined on) (functionDefinition bound self line ts) := by
  have hname : ∀ f rest, functionParts bound self ts = .ok f rest → f.name ≠ none := by
    intro f rest hparts
    cases functionParts_sound (R := fun _ _ _ _ => True) (fun _ _ _ _ _ => trivial) hparts with
    | anonymous hsignature =>
      obtain ⟨opening, _, _, rfl, hopening, -⟩ := hsignature
      rw [startsParameters, Token.isSymbol_iff.2 hopening] at hnamed
      cases hnamed
    | named => exact nofun
  refine ((functionParts_consumes hself hbound hn ts hts hlength).of_ok hname).bind ?_
  rintro ⟨name, params, body⟩ ⟨hbody, hname⟩
  have hfunction : (Node.function name params body line).Lined on := .intro hline nofun hbody
  cases name with
  | none => exact absurd rfl hname
  | some name => exact .pure (.intro hline (List.forall_mem_singleton.2 hfunction) nofun)

theorem otherwise_consumes (hbound : a ≤ bound) (hn : 2 * a + 2 ≤ n) :
    Consumes on a (otherwise bound self) a fun other => ∀ node ∈ other.getD [], node.Lined on := by
  have hblock : Consumes on a (some <$> block bound self) a
      fun other => ∀ node ∈ other.getD [], node.Lined on :=
    ((block_consumes hself hbound hn).map fun _ => id).leaving (by omega)
  intro ts hts hlength
  -- the line breaks are looked past, and stay unread if no `else` follows
  have hdropped : Marked on (ts.dropWhile Token.isNewline) :=
    hts.dropWhile fun _ => Token.isFinish_of_isNewline
  have hshort := (List.dropWhile_suffix Token.isNewline (l := ts)).length_le
  unfold otherwise
  rw [get_bind]
  match hrest : ts.dropWhile Token.isNewline, hdropped with
  | t :: rest, hdropped =>
    rw [hrest, List.length_cons] at hshort
    dsimp only
    split
    next helse =>
      have hrest := hdropped.tail (Token.isFinish_of_isName helse)
      simp only [set_bind]
      match rest, hrest with
      | t' :: rest, hrest =>
        rw [List.length_cons] at hshort
        dsimp only
        split
        next hif =>
          have hchain : Consumes on (a - 1) (self (.conditional t'.line) >>= fun inner =>
              pure (some [inner])) a fun other => ∀ node ∈ other.getD [], node.Lined on := by
            refine (hself.conditional hrest.head (by omega)).bind fun inner hinner => ?_
            exact (Consumes.pure (List.forall_mem_singleton.2 hinner)).leaving (by omega)
          exact hchain rest (hrest.tail (Token.isFinish_of_isName hif)) (by omega)
        next => exact hblock (t' :: rest) hrest (by rw [List.length_cons]; omega)
    next => exact ⟨hts, hlength, by simp⟩

theorem conditional_consumes (hline : on line) (hbound : a ≤ bound) (ha : 0 < a)
    (hn : 2 * a + 1 ≤ n) : Consumes on a (conditional bound self line) (a - 1) (Node.Lined on) := by
  refine (hself.run hn).bind fun condition hcondition => ?_
  refine (block_consumes hself (by omega) (by omega)).bind fun body hbody => ?_
  refine (otherwise_consumes hself (by omega) (by omega)).bind fun other hother => ?_
  refine (Consumes.pure ?_).leaving (by omega)
  exact .intro hline (List.forall_mem_singleton.2 hcondition)
    (List.forall_mem_append.2 ⟨hbody, hother⟩)

theorem caseValuesFrom_consumes {acc : List Node} (hbound : a ≤ bound) (hn : 2 * a + 2 ≤ n)
    (hacc : ∀ node ∈ acc, node.Lined on) :
    Consumes on a (caseValuesFrom self bound acc) (a - 1) (∀ node ∈ ·, node.Lined on) := by
  induction bound generalizing a acc with
  | zero => exact .of_pos fun ha => absurd hbound (Nat.not_le.2 ha)
  | succ bound ih =>
    refine (hself.run (by omega)).bind fun value hvalue => ?_
    have hmore := List.forall_mem_cons.2 ⟨hvalue, hacc⟩
    refine skipIf_bind (fun _ => Token.isFinish_of_isSymbol) ?_ ?_
    · exact (ih (by omega) (by omega) hmore).leaving (by omega)
    · exact .pure fun node hnode => hmore node (List.mem_reverse.1 hnode)

/-- Arms on certain lines. -/
def Arms.Lined (on : Nat → Prop) (arms : Arms) : Prop :=
  (∀ arm ∈ arms.cases, (∀ node ∈ arm.values, node.Lined on) ∧ ∀ node ∈ arm.body, node.Lined on) ∧
    ∀ node ∈ arms.fallback.getD [], node.Lined on

theorem arms_consumes {c : Arms} (hbound : a ≤ bound) (hn : 2 * a + 2 ≤ n)
    (hc : c.Lined on) : Consumes on a (arms self line bound c) (a - 1) (Arms.Lined on) := by
  induction bound generalizing a c with
  | zero => exact .of_pos fun ha => absurd hbound (Nat.not_le.2 ha)
  | succ bound ih =>
    refine (skipWhile_consumes fun _ => Token.isFinish_of_isSeparator).bind fun _ _ => ?_
    refine .get_bind fun t rest hts hlength => ?_
    -- a `case` and a `default` go on alike after the colon
    have hbody : ∀ {f : List Node → Arms}, (∀ body, (∀ node ∈ body, node.Lined on) →
        (f body).Lined on) → ∀ a', a' ≤ a - 1 → Consumes on a' (expectSymbol ":" >>= fun _ =>
          statements bound self >>= fun body => arms self line bound (f body)) (a - 1)
          (Arms.Lined on) := by
      intro f hf a' ha'
      refine expectSymbol_consumes.bind fun _ _ => ?_
      refine (statementsFrom_consumes hself (a := a' - 1) (by omega) (by omega) (by simp)).bind
        fun body hbody => ?_
      exact (ih (by omega) (by omega) (hf body hbody)).leaving (by omega)
    dsimp only
    split
    next hclosing => exact ⟨hts.tail (Token.isFinish_of_isSymbol hclosing), by omega, hc⟩
    next =>
      split
      next hcase =>
        have hvalues : Consumes on (a - 1) (caseValuesFrom self bound [] >>= fun values =>
            expectSymbol ":" >>= fun _ => statements bound self >>= fun body =>
              arms self line bound ⟨⟨values, body, t.line⟩ :: c.cases, c.fallback⟩) (a - 1)
            (Arms.Lined on) := by
          refine (caseValuesFrom_consumes hself (by omega) (by omega) (by simp)).bind
            fun values hvalues => hbody (fun body hbody => ?_) _ (by omega)
          exact ⟨List.forall_mem_cons.2 ⟨⟨hvalues, hbody⟩, hc.1⟩, hc.2⟩
        exact hvalues rest (hts.tail (Token.isFinish_of_isName hcase)) (by omega)
      next =>
        split
        next hdefault =>
          have hfallback := hbody (f := fun body => ⟨c.cases, some body⟩)
            (fun body hbody => ⟨hc.1, hbody⟩) (a - 1) (Nat.le_refl _)
          exact hfallback rest (hts.tail (Token.isFinish_of_isName hdefault)) (by omega)
        next => exact unexpected_ends hts.head

theorem switch_consumes (hline : on line) (hbound : a ≤ bound) (hn : 2 * a + 2 ≤ n) :
    Consumes on a (switch bound self line) (a - 1) (Node.Lined on) := by
  refine (hself.run (by omega)).bind fun subject hsubject => ?_
  refine skipNewlines_consumes.bind fun _ _ => expectSymbol_consumes.bind fun _ _ => ?_
  refine (arms_consumes hself (c := ⟨[], none⟩) (by omega) (by omega)
    ⟨by simp, by simp⟩).bind fun c hc => ?_
  refine (Consumes.pure ?_).leaving (by omega)
  obtain ⟨hcases, hfallback⟩ := hc
  have hcases : ∀ arm ∈ c.cases.reverse, _ := fun arm harm => hcases arm (List.mem_reverse.1 harm)
  refine .intro hline ?_ ?_
  · exact List.forall_mem_cons.2 ⟨hsubject,
      List.forall_mem_flatMap.2 fun arm harm => (hcases arm harm).1⟩
  · exact List.forall_mem_append.2 ⟨List.forall_mem_flatMap.2 fun arm harm => (hcases arm harm).2,
      hfallback⟩

theorem whileLoop_consumes (hline : on line) (hbound : a ≤ bound) (hn : 2 * a + 2 ≤ n) :
    Consumes on a (whileLoop bound self line) (a - 1) (Node.Lined on) := by
  refine (hself.run (by omega)).bind fun condition hcondition => ?_
  refine (block_consumes hself (by omega) (by omega)).bind fun body hbody => ?_
  refine (Consumes.pure ?_).leaving (by omega)
  exact .intro hline (List.forall_mem_singleton.2 hcondition) hbody

theorem rangeLoop_consumes {name : String} {start : Node} {closed : Bool} (hline : on line)
    (hstart : start.Lined on) (hbound : a ≤ bound) (hn : 2 * a + 2 ≤ n) :
    Consumes on a (rangeLoop bound self name start closed line) (a - 1) (Node.Lined on) := by
  refine (hself.run (by omega)).bind fun limit hlimit => ?_
  have hrest : ∀ a', a' ≤ a - 1 → ∀ step, (∀ node ∈ step, node.Lined on) →
      Consumes on a' (block bound self >>= fun body =>
        pure (.rangeLoop name start limit closed step body line)) (a - 1) (Node.Lined on) := by
    intro a' ha' step hstep
    refine (block_consumes hself (by omega) (by omega)).bind fun body hbody => ?_
    refine (Consumes.pure (.intro hline ?_ hbody)).leaving (by omega)
    refine List.forall_mem_cons.2 ⟨hstart, List.forall_mem_cons.2 ⟨hlimit, fun node hnode => ?_⟩⟩
    exact hstep node (Option.mem_toList.1 hnode)
  refine skipIf_bind (fun _ => Token.isFinish_of_isName) ?_ ?_
  · have hstep : Consumes on (a - 1 - 1) (some <$> self (.run .statement)) (a - 1 - 1 - 1)
        fun step => ∀ node ∈ step, node.Lined on := by
      refine (hself.run (by omega)).map fun node hnode => ?_
      rintro _ ⟨⟩
      exact hnode
    exact hstep.bind fun step hstep => hrest _ (by omega) step hstep
  · exact hrest _ (Nat.le_refl _) none nofun

theorem forLoop_consumes (hline : on line) (hbound : a ≤ bound) (hn : 2 * a + 2 ≤ n) :
    Consumes on a (forLoop bound self line) (a - 1) (Node.Lined on) := by
  refine identifier_consumes.bind fun name _ => expectWord_consumes.bind fun _ _ => ?_
  refine (hself.run (by omega)).bind fun start hstart => ?_
  refine skipIf_bind (fun _ => Token.isFinish_of_isSymbol) ?_
    (skipIf_bind (fun _ => Token.isFinish_of_isSymbol) ?_ ?_)
  · exact (rangeLoop_consumes hself hline hstart (by omega) (by omega)).leaving (by omega)
  · exact (rangeLoop_consumes hself hline hstart (by omega) (by omega)).leaving (by omega)
  · refine (block_consumes hself (by omega) (by omega)).bind fun body hbody => ?_
    refine (Consumes.pure ?_).leaving (by omega)
    exact .intro hline (List.forall_mem_singleton.2 hstart) hbody

theorem giveBack_consumes (hline : on line) (hn : 2 * a + 2 ≤ n) :
    Consumes on a (giveBack self line) a (Node.Lined on) := by
  intro ts hts hlength
  unfold giveBack
  rw [atStatementEnd_bind]
  split
  · exact ⟨hts, hlength, .intro hline nofun nofun⟩
  · have hvalue : Consumes on a (self (.run .statement) >>= fun value =>
        pure (.giveBack (some value) line)) a (Node.Lined on) := by
      refine (hself.run (by omega)).bind fun value hvalue => ?_
      refine (Consumes.pure ?_).leaving (by omega)
      exact .intro hline (List.forall_mem_singleton.2 hvalue) nofun
    exact hvalue ts hts hlength

omit hself in
theorem closed_consumes {p : Parser Node} (hp : Consumes on a p b (Node.Lined on)) :
    Consumes on a (closed p) b (Node.Lined on) := by
  refine hp.bind fun node hnode => Consumes.bind (Q := fun _ => True) (b := b) ?_ fun _ _ =>
    .pure hnode
  refine .get_bind fun t rest hts hlength => ?_
  dsimp only
  split
  next hseparator =>
    exact ⟨hts.tail (Token.isFinish_of_isSeparator hseparator), by omega, trivial⟩
  next =>
    split
    · exact ⟨hts, hlength, trivial⟩
    · exact unexpected_ends hts.head

omit hself in
theorem blockClosed_ends {p : Parser Node} {ts : List Token}
    (hp : Ends on b (Node.Lined on) (p ts)) : Ends on b (Node.Lined on) (blockClosed p ts) := by
  refine hp.bind fun node hnode => Consumes.bind (Q := fun _ => True) (b := b) ?_ fun _ _ =>
    .pure hnode
  refine skipIf_bind (fun _ => Token.isFinish_of_isSeparator) ?_ (.pure trivial)
  exact (Consumes.pure trivial).leaving (by omega)

theorem construct_ends {word : String} {rest : List Token} {p : Parser Node}
    (hline : on line) (hbound : a ≤ bound) (hn : 2 * a + 2 ≤ n) (hrest : Marked on rest)
    (hlength : rest.length ≤ a) (h : construct? bound self word line rest = some p) :
    Ends on a (Node.Lined on) (p rest) := by
  have hleaf : ∀ {node : Node}, node.line = line → node.valueParts = [] →
      node.statementParts = [] → Ends on a (Node.Lined on) (closed (pure node) rest) := by
    intro node hnode hvalues hstatements
    refine closed_consumes (.pure (.intro (hnode ▸ hline) ?_ ?_)) rest hrest hlength
    · simp [hvalues]
    · simp [hstatements]
  have hblock : ∀ {p}, Ends on (a - 1) (Node.Lined on) (p rest) →
      Ends on a (Node.Lined on) (blockClosed p rest) :=
    fun hp => blockClosed_ends (hp.mono (Nat.sub_le a 1) fun _ => id)
  unfold construct? at h
  split at h
  · cases h
    have hvariable := closed_consumes (variableDefinition_consumes hself hline hn)
    exact hvariable.leaving (by omega) rest hrest hlength
  · split at h
    · cases h
    next hnamed =>
      cases h
      exact hblock (functionDefinition_ends hself hline hbound hn hrest hlength
        (Bool.eq_false_iff.2 hnamed))
  · cases h
    have ha : 0 < a := Nat.lt_of_lt_of_le hrest.length_pos hlength
    exact hblock (conditional_consumes hself hline hbound ha (by omega) rest hrest hlength)
  · cases h
    exact hblock (whileLoop_consumes hself hline hbound hn rest hrest hlength)
  · cases h
    exact hblock (forLoop_consumes hself hline hbound hn rest hrest hlength)
  · cases h
    exact hblock (switch_consumes hself hline hbound hn rest hrest hlength)
  · cases h
    exact hleaf rfl rfl rfl
  · cases h
    exact hleaf rfl rfl rfl
  · cases h
    exact hleaf rfl rfl rfl
  · cases h
    exact closed_consumes (giveBack_consumes hself hline hn) rest hrest hlength
  · cases h

theorem statement_consumes (hbound : a ≤ bound + 1) (hn : 2 * a + 1 ≤ n) :
    Consumes on a (statement bound self) (a - 1) (Node.Lined on) := by
  refine .get_bind fun t rest hts hlength => ?_
  dsimp only
  cases hconstruct : construct? bound self (leadingWord t.kind) t.line rest with
  | some p =>
    have hfinish : t.isFinish = false := by
      rw [← Bool.not_eq_true, Token.isFinish_iff]
      intro hkind
      rw [hkind] at hconstruct
      cases hconstruct
    show Ends on (a - 1) (Node.Lined on) (p rest)
    exact construct_ends hself hts.head (by omega) (by omega) (hts.tail hfinish) (by omega)
      hconstruct
  | none => exact closed_consumes (hself.run hn) (t :: rest) hts hlength

end

/-! ### Whole programs -/

/-- **Every level answers its goals.** -/
theorem level_answers (n : Nat) : Answers on (level n) n := by
  induction n with
  | zero => exact ⟨fun ha => absurd ha (by omega), fun ha => absurd ha (by omega),
      fun _ ha => absurd ha (by omega)⟩
  | succ n ih =>
    refine ⟨fun ha => run_consumes ih (by omega) (by omega),
      fun ha => statement_consumes ih (by omega) (by omega), fun hline ha => ?_⟩
    exact .of_pos fun hpos => conditional_consumes ih hline (by omega) hpos (by omega)

theorem program_consumes {self : Self} {n bound : Nat} (hself : Answers on self n)
    (hbound : a ≤ bound) (hn : 2 * a + 2 ≤ n) :
    Consumes on a (program bound self) a (∀ node ∈ ·, node.Lined on) := by
  refine (statementsFrom_consumes hself hbound hn (by simp)).bind fun nodes hnodes => ?_
  refine .get_bind fun t rest hts hlength => ?_
  dsimp only
  split
  · exact ⟨hts, hlength, hnodes⟩
  · exact unexpected_ends hts.head

/-- Every part of the grammar is read within two levels for every token, and two more. -/
theorem entry_consumes {n : Nat} (entry : Entry) (hn : 2 * a + 2 ≤ n) :
    Consumes on a (entry.parser n) a (∀ node ∈ ·, node.Lined on) := by
  have hself : Answers on (level n) n := level_answers n
  have hone : ∀ {goal}, Consumes on a (level n goal) (a - 1) (Node.Lined on) →
      Consumes on a (List.singleton <$> level n goal) a (∀ node ∈ ·, node.Lined on) := by
    intro goal hgoal
    refine (hgoal.leaving (Nat.sub_le a 1)).map fun node hnode => ?_
    exact List.forall_mem_singleton.2 hnode
  cases entry with
  | program => exact program_consumes hself (by omega) hn
  | expression | nested | element => exact hone (hself.run (by omega))
  | statement => exact hone (hself.statement hn)
  | statements => exact statementsFrom_consumes hself (by omega) hn nofun
  | block => exact (block_consumes hself (by omega) hn).leaving (Nat.sub_le a 1)

end Parser

/-- **Reading tokens up to the mark of the end** gives trees on their lines or a fault on one of
their lines, and never reaches a bound. -/
theorem parse_lined {tokens : List Token} (h : Marked on tokens) :
    match parse tokens with
    | .ok nodes => ∀ node ∈ nodes, node.Lined on
    | .error (.fault f) => on f.line
    | .error .outOfFuel => False := by
  have hprogram : Parser.Ends on tokens.length (∀ node ∈ ·, node.Lined on)
      (Entry.program.parse tokens) :=
    Parser.entry_consumes .program (by unfold Parser.fuel; omega) tokens h (Nat.le_refl _)
  unfold parse
  match hresult : Entry.program.parse tokens with
  | .ok nodes rest =>
    rw [hresult] at hprogram
    exact hprogram.2.2
  | .error (.fault f) rest =>
    rw [hresult] at hprogram
    exact hprogram.1
  | .error .outOfFuel rest =>
    rw [hresult] at hprogram
    exact hprogram

end PairScript
