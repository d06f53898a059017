import PairScript.Proofs.Parse.Complete
import PairScript.Proofs.Parse.Seam
import PairScript.Proofs.Parse.WellFormed
import PairScript.Proofs.Syntax.Unparse
import Mathlib.Order.Filter.AtTopBot.Basic
import Mathlib.Order.Filter.Finite

/-!
# Reading what was written

`unparse` writes programs down, and `parse` reads them back: `parse_unparse` shows that every
program that the parser can return comes back from its own tokens, node by node and line by line.

What is written for a tree is a phrase of the grammar that stands for this tree.  For a tree in
parentheses this is so whatever follows; a run without them has to be followed by something that
ends it, and a statement by a line that does not start with `else`.  One lemma for each way to build
a tree, and an induction over built trees.

Phrases nest, and `Grammar.Level` counts how deeply.  The induction does not keep account of it: it
shows that all levels from some point on read the tree back.
-/

namespace PairScript

open Grammar Unparse Filter
open PairScript.Parser (FunctionParts)

/-! ### Tokens -/

namespace Grammar

/-- Whether a run ends at these tokens. -/
def Stops (mode : Mode) (ts : List Token) : Prop :=
  ∀ t ∈ ts.head?, Parser.continuation mode t.kind = .stop

/-- Whether a line with these tokens does not go on with an `if`. -/
def NotElse (ts : List Token) : Prop := NotNext (·.isName "else") (pastBreaks ts)

variable {mode : Mode} {t : Token} {ts rest : List Token} {line : Nat}

theorem stops_cons : Stops mode (t :: ts) ↔ Parser.continuation mode t.kind = .stop := by
  simp [Stops]

theorem stops_mark {text : String} (h : Parser.stoppers.contains text = true) :
    Stops mode (mark text line :: ts) := by
  rw [stops_cons]
  show Parser.symbolContinuation mode text = .stop
  unfold Parser.symbolContinuation
  rw [if_pos h]

theorem notNext_cons {p : Token → Bool} (h : p t = false) : NotNext p (t :: ts) := by
  simpa [NotNext] using h

theorem pastBreaks_cons (h : t.isNewline = false) : pastBreaks (t :: ts) = t :: ts := by
  simp [pastBreaks, h]

theorem pastSeparators_cons (h : Parser.isSeparator t = false) :
    pastSeparators (t :: ts) = t :: ts := by
  simp [pastSeparators, h]

/-- A name that ends a run is not called. -/
theorem Stops.not_called (h : Stops mode ts) : NotNext (·.isSymbol "(") ts := by
  intro t ht
  rw [Bool.eq_false_iff]
  intro hopen
  have hstop := h t ht
  rw [Token.isSymbol_iff] at hopen
  rw [hopen] at hstop
  cases mode <;> cases hstop

/-- An operator between operands continues a run, except for a comma in a list. -/
theorem symbolContinuation_between {symbol : String} (hmode : mode ≠ .element)
    (h : (binaryLevel? symbol).isSome = true) (hindex : symbol ≠ "[") :
    Parser.symbolContinuation mode symbol = .between := by
  have hmode : (mode == .element) = false := beq_eq_false_iff_ne.2 hmode
  unfold binaryLevel? at h
  split at h
  all_goals first
    | contradiction
    | (unfold Parser.symbolContinuation; rw [hmode]; rfl)

end Grammar

/-! ### Runs -/

section

variable {a b node : Node} {symbol : String} {line line' : Nat}

theorem buildTree_unary {fixity : Fixity} (hfixity : fixity ≠ .between)
    (h : Item.reduceUnary symbol fixity a line = .ok node) :
    Item.buildTree [.operand a, .operator symbol fixity line] line' = .ok node := by
  have hfold : [Item.operand a, .operator symbol fixity line].foldlM Item.reduce []
      = Except.ok [node] := by
    have hstep : Item.reduce [a] (.operator symbol fixity line)
        = Item.reduceUnary symbol fixity a line >>= fun n => pure [n] := by
      cases fixity with
      | between => exact absurd rfl hfixity
      | before => rfl
      | after => rfl
    show Item.reduce [a] (.operator symbol fixity line) >>= pure = _
    rw [hstep, h]
    rfl
  unfold Item.buildTree
  rw [hfold]
  rfl

theorem buildTree_binary (h : Item.reduceBinary symbol a b line = .ok node) :
    Item.buildTree [.operand a, .operand b, .operator symbol .between line] line' = .ok node := by
  have hfold : [Item.operand a, .operand b, .operator symbol .between line].foldlM Item.reduce []
      = Except.ok [node] := by
    show (Item.reduceBinary symbol a b line >>= fun n => pure [n]) >>= pure = _
    rw [h]
    rfl
  unfold Item.buildTree
  rw [hfold]
  rfl

end

namespace Grammar

variable {R : Goal → Phrase Node} {mode : Mode} {a b node : Node} {symbol : String} {line : Nat}
  {ts mid rest : List Token}

theorem Operand.run (h : Operand R ts node rest) (hrest : Stops mode rest) :
    Run R mode ts node rest :=
  ⟨_, 0, .operand h (.done hrest), rfl⟩

theorem Operand.run_after (hsymbol : symbol = "++" ∨ symbol = "--")
    (h : Operand R ts a (mark symbol line :: rest)) (hrest : Stops mode rest)
    (hnode : Item.reduceUnary symbol .after a line = .ok node) : Run R mode ts node rest :=
  ⟨_, 0, .operand h (.after rfl hsymbol (.done hrest)), buildTree_unary nofun hnode⟩

theorem Operand.run_before {name : String} (hname : Parser.prefixName? symbol = some name)
    (hmeaning : name ≠ "+") (h : Operand R ts a rest) (hrest : Stops mode rest)
    (hnode : Item.reduceUnary name .before a line = .ok node) :
    Run R mode (mark symbol line :: ts) node rest :=
  ⟨_, 0, .before rfl hname hmeaning (.operand h (.done hrest)), buildTree_unary nofun hnode⟩

theorem Operand.run_between (hsymbol : Parser.symbolContinuation mode symbol = .between)
    (ha : Operand R ts a (mark symbol line :: mid)) (hb : Operand R mid b rest)
    (hrest : Stops mode rest) (hnode : Item.reduceBinary symbol a b line = .ok node) :
    Run R mode ts node rest :=
  ⟨_, 0, .operand ha (.between rfl hsymbol (.operand hb (.done hrest))), buildTree_binary hnode⟩

theorem Operand.run_index (ha : Operand R ts a (mark "[" line :: mid))
    (hb : R (.run .nested) mid b (mark "]" line :: rest)) (hrest : Stops mode rest)
    (hnode : Item.reduceBinary "[" a b line = .ok node) : Run R mode ts node rest :=
  ⟨_, 0, .operand ha (.index rfl hb rfl (.done hrest)), buildTree_binary hnode⟩

/-! ### Lists -/

section

variable {α : Type} {Item : Phrase α} {closing : String} {write : α → List Token} {as : List α}

/-- What is written for an item is read back in front of a comma and of the closing symbol. -/
structure ItemReads (Item : Phrase α) (closing : String) (write : α → List Token) (a : α) :
    Prop where
  starts : ∃ t ts, write a = t :: ts ∧ t.isNewline = false ∧ t.isSymbol closing = false
  reads : ∀ text line rest, text = "," ∨ text = closing →
    Item (write a ++ mark text line :: rest) a (mark text line :: rest)

/-- A written list starts like its first item. -/
theorem pastBreaks_separated (line : Nat) (as : List α) {a : α}
    (ha : ItemReads Item closing write a) (ts : List Token) :
    pastBreaks (separated line ((a :: as).map write) ++ ts)
        = separated line ((a :: as).map write) ++ ts ∧
      NotNext (·.isSymbol closing) (separated line ((a :: as).map write) ++ ts) := by
  obtain ⟨t, front, hwrite, hbreak, hclose⟩ := ha.starts
  have hstarts : ∃ back, separated line ((a :: as).map write) = t :: back := by
    cases as with
    | nil => exact ⟨front, hwrite⟩
    | cons b as => exact ⟨front ++ mark "," line :: separated line ((b :: as).map write), by
        simp [separated, hwrite]⟩
  obtain ⟨back, hstarts⟩ := hstarts
  rw [hstarts]
  exact ⟨pastBreaks_cons hbreak, notNext_cons hclose⟩

theorem commas_separated {a : α} (h : ∀ b ∈ a :: as, ItemReads Item closing write b) :
    Commas Item closing (separated line ((a :: as).map write) ++ mark closing line :: rest)
      (a :: as) rest := by
  induction as generalizing a with
  | nil => exact .last ((h a (by simp)).reads closing line rest (.inr rfl)) rfl rfl
  | cons b as ih =>
    obtain ⟨ha, has⟩ := List.forall_mem_cons.1 h
    have hfirst := ha.reads "," line
      (separated line ((b :: as).map write) ++ mark closing line :: rest) (.inl rfl)
    have hothers := ih has
    rw [← (pastBreaks_separated line as (has b (by simp)) _).1] at hothers
    have hlist : separated line ((a :: b :: as).map write) ++ mark closing line :: rest
        = write a ++ mark "," line :: (separated line ((b :: as).map write)
          ++ mark closing line :: rest) := by
      simp [separated]
    rw [hlist]
    exact .more hfirst rfl rfl hothers

theorem commaList_separated (h : ∀ a ∈ as, ItemReads Item closing write a) :
    CommaList Item closing (separated line (as.map write) ++ mark closing line :: rest) as
      rest := by
  cases as with
  | nil => exact .empty rfl rfl
  | cons a as =>
    obtain ⟨hbreaks, hopens⟩ :=
      pastBreaks_separated line as (h a (by simp)) (mark closing line :: rest)
    exact .items (hbreaks.symm ▸ hopens) (hbreaks.symm ▸ commas_separated h)

end

/-! ### Groups and blocks -/

theorem parens_append (line : Nat) (ts rest : List Token) :
    parens line ts ++ rest = mark "(" line :: (ts ++ mark ")" line :: rest) := by
  simp [parens]

theorem braces_append (line : Nat) (ts rest : List Token) :
    braces line ts ++ rest
      = mark "\x7b" line :: lineBreak line :: (ts ++ mark "\x7d" line :: rest) := by
  simp [braces]

/-- What is in parentheses is an operand, whatever follows. -/
theorem Operand.of_parens
    (h : ∀ rest, Stops .nested rest → R (.run .nested) (ts ++ rest) node rest) :
    Operand R (parens line ts ++ rest) node rest := by
  rw [parens_append]
  exact .group rfl (h _ (stops_mark rfl)) rfl rfl

/-- A token that starts a statement. -/
structure Opens (t : Token) : Prop where
  separator : Parser.isSeparator t = false
  list : Parser.endsList t = false
  other : t.isName "else" = false

/-- What is written for a statement is read back on a line that is not followed by an `else`. -/
structure StatementReads (R : Goal → Phrase Node) (node : Node) : Prop where
  starts : ∃ t ts, node.write .statement = t :: ts ∧ Opens t
  reads : ∀ line rest, NotElse rest →
    R .statement (node.write .statement ++ lineBreak line :: rest) node rest

/-- What ends a list of statements neither separates them nor goes on with an `if`. -/
theorem plain_of_endsList (h : Parser.endsList t = true) :
    Parser.isSeparator t = false ∧ t.isName "else" = false := by
  obtain ⟨kind, line⟩ := t
  cases kind with
  | name text =>
    refine ⟨rfl, ?_⟩
    simp only [Parser.endsList, Token.isFinish, Token.isSymbol, Token.isName, Bool.false_or,
      Bool.or_eq_true, beq_iff_eq] at h
    rcases h with rfl | rfl <;> rfl
  | symbol text =>
    refine ⟨?_, rfl⟩
    simp only [Parser.endsList, Token.isFinish, Token.isSymbol, Token.isName, Bool.false_or,
      Bool.or_false, beq_iff_eq] at h
    subst h
    rfl
  | finish => exact ⟨rfl, rfl⟩
  | _ => cases h

theorem notElse_cons (hseparator : Parser.isSeparator t = false) (helse : t.isName "else" = false) :
    NotElse (t :: ts) := by
  unfold NotElse
  rw [pastBreaks_cons (isNewline_of_not_separator hseparator)]
  exact notNext_cons helse

section

variable {nodes : List Node} (hends : Parser.endsList t = true)
include hends

theorem notElse_statements (h : ∀ node ∈ nodes, StatementReads R node) (rest : List Token) :
    NotElse (writeStatements nodes ++ t :: rest) := by
  cases nodes with
  | nil =>
    obtain ⟨hseparator, helse⟩ := plain_of_endsList hends
    exact notElse_cons hseparator helse
  | cons node nodes =>
    obtain ⟨first, front, hwrite, hopens⟩ := (h node (by simp)).starts
    rw [writeStatements_cons, hwrite]
    exact notElse_cons hopens.separator hopens.other

theorem statements_write (h : ∀ node ∈ nodes, StatementReads R node) (rest : List Token) :
    Statements R (writeStatements nodes ++ t :: rest) nodes (t :: rest) := by
  induction nodes with
  | nil =>
    have hpast : pastSeparators (t :: rest) = t :: rest :=
      pastSeparators_cons (plain_of_endsList hends).1
    have hdone : Statements R (t :: rest) [] (pastSeparators (t :: rest)) :=
      .done (by rw [hpast]; simpa [Next] using hends)
    rwa [hpast] at hdone
  | cons node nodes ih =>
    obtain ⟨hnode, hnodes⟩ := List.forall_mem_cons.1 h
    obtain ⟨first, front, hwrite, hopens⟩ := hnode.starts
    have hstatement := hnode.reads node.line _ (notElse_statements hends hnodes rest)
    rw [writeStatements_cons, List.append_assoc, List.cons_append]
    rw [hwrite] at hstatement ⊢
    exact .more (pastSeparators_cons hopens.separator) hopens.list hstatement (ih hnodes)

omit hends in
theorem Statements.lineBreak (h : Statements R ts nodes rest) :
    Statements R (lineBreak line :: ts) nodes rest := by
  cases h with
  | done ends => exact .done ends
  | more first continues statement others => exact .more first continues statement others

omit hends in
theorem block_write (h : ∀ node ∈ nodes, StatementReads R node) :
    Block R (braces line (writeStatements nodes) ++ rest) nodes rest := by
  rw [braces_append]
  refine ⟨_, _, _, rfl, rfl, (statements_write ?_ h rest).lineBreak, rfl⟩
  rfl

end

/-! ### Values -/

/-- A value is read back wherever something follows that ends it.  In a list it would be cut at a
comma. -/
def ValueReads (R : Goal → Phrase Node) (node : Node) : Prop :=
  ∀ mode rest, mode ≠ .element → Stops mode rest →
    R (.run mode) (node.write .value ++ rest) node rest

/-- A value in parentheses is read back wherever something follows that ends it. -/
def ParensRead (R : Goal → Phrase Node) (node : Node) : Prop :=
  ∀ mode line rest, Stops mode rest →
    R (.run mode) (parens line (node.write .value) ++ rest) node rest

/-- The next level reads a value back. -/
def RunReads (R : Goal → Phrase Node) (node : Node) : Prop :=
  ∀ mode rest, mode ≠ .element → Stops mode rest → Run R mode (node.write .value ++ rest) node rest

theorem ValueReads.operand (h : ValueReads R node) :
    Operand R (parens line (node.write .value) ++ rest) node rest :=
  .of_parens fun rest => h .nested rest nofun

theorem ValueReads.run_parens (h : ValueReads R node) (hrest : Stops mode rest) :
    Run R mode (parens line (node.write .value) ++ rest) node rest :=
  h.operand.run hrest

theorem runReads_constant (value : Constant) : RunReads R (.constant value line) := by
  intro mode rest _ hrest
  cases value with
  | int value => exact Operand.run (.int rfl) hrest
  | float value => exact Operand.run (.float rfl) hrest
  | str value => exact Operand.run (.str rfl) hrest
  | empty => exact Operand.run (.empty rfl (.empty rfl rfl)) hrest

theorem runReads_reference {name : String} (hname : isKeyword name = false) :
    RunReads R (.reference name line) :=
  fun _ _ _ hrest => Operand.run (.reference rfl hname hrest.not_called) hrest

theorem runReads_definition {name : String} (hname : isKeyword name = false)
    (h : ValueReads R node) : RunReads R (.definition name node line) := by
  intro mode rest hmode hrest
  have hbetween : Parser.symbolContinuation mode ":=" = .between :=
    symbolContinuation_between hmode rfl (by decide)
  exact Operand.run_between hbetween (.reference rfl hname (notNext_cons rfl)) h.operand hrest rfl

theorem runReads_assignment (hplace : a.isAssignable = true) (ha : ValueReads R a)
    (hb : ValueReads R b) : RunReads R (.assignment a b false line) := by
  intro mode rest hmode hrest
  have hbetween : Parser.symbolContinuation mode "=" = .between :=
    symbolContinuation_between hmode rfl (by decide)
  have hwrite : (Node.assignment a b false line).write .value ++ rest
      = parens line (a.write .value) ++ mark "=" line :: (parens line (b.write .value)
        ++ rest) := by
    simp
  rw [hwrite]
  refine ha.operand.run_between hbetween hb.operand hrest ?_
  simp [Item.reduceBinary, hplace]

theorem runReads_increment {base : String} (hplace : a.isAssignable = true)
    (hbase : base = "+" ∨ base = "-") (ha : ValueReads R a) :
    RunReads R
      (.assignment a (.operation base [a, .constant (.int 1) line] line) true line) := by
  intro mode rest _ hrest
  have hwrite : ∀ value, (Node.assignment a value true line).write .value ++ rest
      = parens line (a.write .value) ++ mark (incrementMark value) line :: rest := by
    simp
  rw [hwrite]
  rcases hbase with rfl | rfl
  · refine ha.operand.run_after (.inl rfl) hrest ?_
    simp [Item.reduceUnary, Item.increment, hplace]
  · refine ha.operand.run_after (.inr rfl) hrest ?_
    simp [Item.reduceUnary, Item.increment, hplace]

theorem runReads_before (hsymbol : symbol ∈ ["_-", "_!", "_~"]) (ha : ValueReads R a) :
    RunReads R (.operation symbol [a] line) := by
  intro mode rest _ hrest
  simp only [List.mem_cons, List.not_mem_nil, or_false] at hsymbol
  rcases hsymbol with rfl | rfl | rfl
  · exact ha.operand.run_before rfl nofun hrest rfl
  · exact ha.operand.run_before rfl nofun hrest rfl
  · exact ha.operand.run_before rfl nofun hrest rfl

theorem reduceBinary_of_isInfix (h : isInfix symbol = true) (hplain : symbol ≠ ".") :
    Item.reduceBinary symbol a b line = .ok (.operation symbol [a, b] line) := by
  obtain ⟨-, hassign, hdefine, hbase⟩ := isInfix_iff.1 h
  simp [Item.reduceBinary, hassign, hdefine, hplain, hbase]

/-- The operands of an operator stand on its sides, or one of them in its brackets. -/
theorem runReads_binary (h : isInfix symbol = true) (ha : ValueReads R a) (hb : ValueReads R b)
    (hb' : ParensRead R b)
    (hnode : Item.reduceBinary symbol a b line = .ok (.operation symbol [a, b] line)) :
    RunReads R (.operation symbol [a, b] line) := by
  intro mode rest hmode hrest
  by_cases hindex : symbol = "["
  · subst hindex
    have hwrite : (Node.operation "[" [a, b] line).write .value ++ rest
        = parens line (a.write .value) ++ mark "[" line :: (parens line (b.write .value)
          ++ mark "]" line :: rest) := by
      simp
    rw [hwrite]
    exact ha.operand.run_index (hb' .nested line _ (stops_mark rfl)) hrest hnode
  · have hbetween := symbolContinuation_between hmode (isInfix_iff.1 h).1 hindex
    have hwrite : (Node.operation symbol [a, b] line).write .value ++ rest
        = parens line (a.write .value) ++ mark symbol line :: (parens line (b.write .value)
          ++ rest) := by
      simp [write_between h hindex]
    rw [hwrite]
    exact ha.operand.run_between hbetween hb.operand hrest hnode

/-- Values in parentheses are the items of a list. -/
theorem operands_read {closing : String} {nodes : List Node} (h : ∀ node ∈ nodes, ParensRead R node)
    (hclosing : closing = ")" ∨ closing = "]") :
    CommaList (R (.run .element)) closing
      (separated line (writeOperands line nodes) ++ mark closing line :: rest) nodes rest := by
  rw [writeOperands_eq_map]
  refine commaList_separated fun node hnode =>
    ⟨⟨_, _, rfl, rfl, ?_⟩, fun text line' rest htext => ?_⟩
  · rcases hclosing with rfl | rfl <;> rfl
  · refine h node hnode .element line _ ?_
    rw [stops_cons]
    rcases htext with rfl | rfl
    · rfl
    · rcases hclosing with rfl | rfl <;> rfl

theorem runReads_list {elements : List Node} (hsome : elements ≠ [])
    (h : ∀ element ∈ elements, ParensRead R element) :
    RunReads R (.operation "$list" elements line) := by
  intro mode rest _ hrest
  have hwrite : (Node.operation "$list" elements line).write .value ++ rest
      = mark "[" line :: (separated line (writeOperands line elements)
        ++ mark "]" line :: rest) := by
    simp
  rw [hwrite]
  exact Operand.run (.list rfl (operands_read h (.inr rfl)) hsome) hrest

theorem runReads_call {name : String} {arguments : List Node} (hname : isKeyword name = false)
    (h : ∀ argument ∈ arguments, ParensRead R argument) :
    RunReads R (.call (.reference name line) arguments line) := by
  intro mode rest _ hrest
  have hwrite : (Node.call (.reference name line) arguments line).write .value ++ rest
      = word name line :: mark "(" line :: (separated line (writeOperands line arguments)
        ++ mark ")" line :: rest) := by
    simp [parens]
  rw [hwrite]
  exact Operand.run (.call rfl hname rfl (operands_read h (.inl rfl))) hrest

/-! ### Functions -/

theorem parameters_read {params : List String} (h : ∀ name ∈ params, isKeyword name = false) :
    CommaList Identifier ")"
      (separated line (params.map fun param => [word param line]) ++ mark ")" line :: rest) params
      rest := by
  refine commaList_separated fun name hname => ⟨⟨_, _, rfl, rfl, rfl⟩, fun text line' rest _ => ?_⟩
  exact ⟨word name line, rfl, rfl, h name hname⟩

theorem function_read {name : Option String} {params : List String} {body : List Node}
    (hname : ∀ n ∈ name, isKeyword n = false) (hparams : ∀ n ∈ params, isKeyword n = false)
    (hbody : ∀ node ∈ body, StatementReads R node) :
    Operand R (Unparse.function name params (writeStatements body) line ++ rest)
      (.function name params body line) rest := by
  have hsignature : Signature R (parens line (separated line
      (params.map fun param => [word param line])) ++ (braces line (writeStatements body) ++ rest))
      (params, body) rest := by
    rw [parens_append]
    exact ⟨_, _, _, rfl, rfl, parameters_read hparams, block_write hbody⟩
  cases name with
  | none =>
    have hwrite : Unparse.function none params (writeStatements body) line ++ rest
        = word "func" line :: (parens line (separated line
          (params.map fun param => [word param line])) ++ (braces line (writeStatements body)
          ++ rest)) := by
      simp [Unparse.function]
    rw [hwrite]
    exact Operand.function rfl (.anonymous hsignature)
  | some name =>
    have hwrite : Unparse.function (some name) params (writeStatements body) line ++ rest
        = word "func" line :: word name line :: (parens line (separated line
          (params.map fun param => [word param line])) ++ (braces line (writeStatements body)
          ++ rest)) := by
      simp [Unparse.function]
    rw [hwrite]
    exact Operand.function rfl (.named ⟨_, rfl, rfl, hname name rfl⟩ hsignature)

theorem runReads_function {name : Option String} {params : List String} {body : List Node}
    (hname : ∀ n ∈ name, isKeyword n = false) (hparams : ∀ n ∈ params, isKeyword n = false)
    (hbody : ∀ node ∈ body, StatementReads R node) :
    RunReads R (.function name params body line) :=
  fun _ _ _ hrest => (function_read hname hparams hbody).run hrest

/-! ### Statements -/

/-- The next level reads a statement back. -/
def LineReads (R : Goal → Phrase Node) (node : Node) : Prop :=
  ∀ line rest, NotElse rest →
    Statement R (node.write .statement ++ lineBreak line :: rest) node rest

theorem lineReads_expression {t : Token} {front : List Token}
    (hwrite : node.write .statement = t :: front)
    (hother : ∀ back, startsConstruct (Parser.leadingWord t.kind) (front ++ back) = false)
    (h : ∀ rest, Stops .statement rest →
      R (.run .statement) (node.write .statement ++ rest) node rest) : LineReads R node := by
  intro line rest _
  have hrun := h (lineBreak line :: rest) (stops_cons.2 rfl)
  rw [hwrite] at hrun ⊢
  exact .expression (hother _) hrun (.separator rfl)

theorem lineReads_definition {name : String} (hname : isKeyword name = false)
    (h : ParensRead R node) : LineReads R (.definition name node line) := by
  intro line' rest _
  have hvalue := h .statement line (lineBreak line' :: rest) (stops_cons.2 rfl)
  exact .plain rfl (.definition (.valued ⟨_, rfl, rfl, hname⟩ rfl hvalue)) (.separator rfl)

section

variable {body : List Node} (hbody : ∀ node ∈ body, StatementReads R node)
include hbody

theorem lineReads_conditional {other : Option (List Node)} (h : ParensRead R node)
    (hother : ∀ node ∈ other.getD [], StatementReads R node) :
    LineReads R (.conditional node body other line) := by
  intro line' rest hrest
  have hwrite : (Node.conditional node body other line).write .statement ++ lineBreak line' :: rest
      = word "if" line :: (parens line (node.write .value) ++ (braces line (writeStatements body)
        ++ (writeOtherwise line other ++ lineBreak line' :: rest))) := by
    simp
  have hcondition := h .statement line (braces line (writeStatements body)
    ++ (writeOtherwise line other ++ lineBreak line' :: rest)) (stops_mark rfl)
  have hothers : Otherwise R (writeOtherwise line other ++ lineBreak line' :: rest) other
      (lineBreak line' :: rest) := by
    cases other with
    | none => exact .absent hrest
    | some others => exact .block rfl rfl (block_write hother)
  rw [hwrite]
  exact .blocked rfl (.conditional ⟨_, _, _, _, _, hcondition, block_write hbody, hothers, rfl⟩)
    (.separator rfl)

theorem lineReads_whileLoop (h : ParensRead R node) :
    LineReads R (.whileLoop node body line) := by
  intro line' rest _
  have hwrite : (Node.whileLoop node body line).write .statement ++ lineBreak line' :: rest
      = word "while" line :: (parens line (node.write .value)
        ++ (braces line (writeStatements body) ++ lineBreak line' :: rest)) := by
    simp
  have hcondition := h .statement line (braces line (writeStatements body)
    ++ lineBreak line' :: rest) (stops_mark rfl)
  rw [hwrite]
  exact .blocked rfl (.whileLoop ⟨_, _, _, hcondition, block_write hbody, rfl⟩) (.separator rfl)

theorem lineReads_eachLoop {name : String} (hname : isKeyword name = false)
    (h : ParensRead R node) : LineReads R (.eachLoop name node body line) := by
  intro line' rest _
  have hwrite : (Node.eachLoop name node body line).write .statement ++ lineBreak line' :: rest
      = word "for" line :: word name line :: word "in" line :: (parens line (node.write .value)
        ++ (braces line (writeStatements body) ++ lineBreak line' :: rest)) := by
    simp
  have hcollection := h .statement line (braces line (writeStatements body)
    ++ lineBreak line' :: rest) (stops_mark rfl)
  rw [hwrite]
  exact .blocked rfl (.forLoop ⟨name, _, _, ⟨_, rfl, rfl, hname⟩, rfl,
    .each hcollection (block_write hbody)⟩) (.separator rfl)

theorem lineReads_rangeLoop {name : String} {closed : Bool} {step : Option Node}
    (hname : isKeyword name = false) (ha : ParensRead R a) (hb : ParensRead R b)
    (hstep : ∀ node ∈ step, ParensRead R node) :
    LineReads R (.rangeLoop name a b closed step body line) := by
  intro line' rest _
  have hwrite : (Node.rangeLoop name a b closed step body line).write .statement
        ++ lineBreak line' :: rest
      = word "for" line :: word name line :: word "in" line :: (parens line (a.write .value)
        ++ mark (if closed then "..=" else "..") line :: (parens line (b.write .value)
        ++ (writeStep line step ++ (braces line (writeStatements body)
        ++ lineBreak line' :: rest)))) := by
    simp
  have hdots : Parser.stoppers.contains (if closed then "..=" else "..") = true := by
    cases closed <;> rfl
  have hby : Step R (writeStep line step ++ (braces line (writeStatements body)
      ++ lineBreak line' :: rest)) step (braces line (writeStatements body)
      ++ lineBreak line' :: rest) := by
    cases step with
    | none => exact .absent (notNext_cons rfl)
    | some value => exact .present rfl (hstep value rfl .statement line _ (stops_mark rfl))
  have hlimit : Stops .statement (writeStep line step ++ (braces line (writeStatements body)
      ++ lineBreak line' :: rest)) := by
    cases step with
    | none => exact stops_mark rfl
    | some value => exact stops_cons.2 rfl
  rw [hwrite]
  exact .blocked rfl (.forLoop ⟨name, _, _, ⟨_, rfl, rfl, hname⟩, rfl,
    .range (ha .statement line _ (stops_mark hdots)) rfl (hb .statement line _ hlimit) hby
      (block_write hbody)⟩) (.separator rfl)

end

theorem lineReads_giveBack {value : Option Node} (h : ∀ node ∈ value, ParensRead R node) :
    LineReads R (.giveBack value line) := by
  intro line' rest _
  cases value with
  | none => exact .plain rfl (.giveBack (.plain (by simp [Next]; rfl))) (.separator rfl)
  | some node =>
    have hvalue := h node rfl .statement line (lineBreak line' :: rest) (stops_cons.2 rfl)
    have hwrite : (Node.giveBack (some node) line).write .statement ++ lineBreak line' :: rest
        = word "return" line :: (parens line (node.write .value) ++ lineBreak line' :: rest) := by
      simp
    rw [parens_append] at hvalue
    rw [hwrite, parens_append]
    exact .plain rfl (.giveBack (.valued rfl hvalue)) (.separator rfl)

/-! ### Switches -/

theorem caseValues_read {value : Node} {values : List Node}
    (h : ∀ v ∈ value :: values, ParensRead R v) :
    CaseValues R (separated line (writeOperands line (value :: values)) ++ mark ":" line :: rest)
      (value :: values) (mark ":" line :: rest) := by
  induction values generalizing value with
  | nil =>
    exact .last (h value (by simp) .element line _ (stops_mark rfl)) (notNext_cons rfl)
  | cons next values ih =>
    obtain ⟨hvalue, hvalues⟩ := List.forall_mem_cons.1 h
    have hwrite : separated line (writeOperands line (value :: next :: values))
          ++ mark ":" line :: rest
        = parens line (value.write .value) ++ mark "," line ::
          (separated line (writeOperands line (next :: values)) ++ mark ":" line :: rest) := by
      simp [writeOperands_eq_map, separated]
    rw [hwrite]
    exact .more (hvalue .element line _ (stops_cons.2 rfl)) rfl (ih hvalues)

theorem SwitchArms.lineBreak {arms : List (Arm Node) × Option (List Node)}
    (h : SwitchArms R ts arms rest) : SwitchArms R (lineBreak line :: ts) arms rest := by
  cases h with
  | done after closes => exact .done after closes
  | case after kind list opens block others => exact .case after kind list opens block others
  | fallback after kind opens block others => exact .fallback after kind opens block others

section

variable {arms : List (Arm Node)} {fallback : Option (List Node)}

/-- The arms of a switch, its default arm and its closing brace. -/
def armTokens (line : Nat) (arms : List (Arm Node)) (fallback : Option (List Node))
    (rest : List Token) : List Token :=
  writeArms arms ++ (writeFallback line fallback ++ mark "\x7d" line :: rest)

/-- An arm ends where the next one, the default arm or the closing brace stands. -/
theorem armTokens_ends (line : Nat) (arms : List (Arm Node)) (fallback : Option (List Node))
    (rest : List Token) :
    ∃ t ts, armTokens line arms fallback rest = t :: ts ∧ Parser.endsList t = true := by
  cases arms with
  | nil =>
    cases fallback with
    | none => exact ⟨_, _, rfl, rfl⟩
    | some body => exact ⟨_, _, rfl, rfl⟩
  | cons arm arms =>
    obtain ⟨values, body, line'⟩ := arm
    exact ⟨word "case" line', _, rfl, rfl⟩

theorem fallback_read (h : ∀ node ∈ fallback.getD [], StatementReads R node) :
    SwitchArms R (armTokens line [] fallback rest) ([], fallback) rest := by
  have hclose : SwitchArms R (mark "\x7d" line :: rest) ([], none) rest := .done rfl rfl
  cases fallback with
  | none => exact hclose
  | some body =>
    have hbody := statements_write (t := mark "\x7d" line) rfl h rest
    have hwrite : armTokens line [] (some body) rest
        = word "default" line :: mark ":" line :: lineBreak line :: (writeStatements body
          ++ mark "\x7d" line :: rest) := by
      simp [armTokens]
    rw [hwrite]
    exact .fallback rfl rfl rfl hbody.lineBreak hclose

theorem arms_read (hsome : ∀ arm ∈ arms, arm.values ≠ [])
    (hvalues : ∀ arm ∈ arms, ∀ value ∈ arm.values, ParensRead R value)
    (hbodies : ∀ arm ∈ arms, ∀ node ∈ arm.body, StatementReads R node)
    (hfallback : ∀ node ∈ fallback.getD [], StatementReads R node) :
    SwitchArms R (armTokens line arms fallback rest) (arms, fallback) rest := by
  induction arms with
  | nil => exact fallback_read hfallback
  | cons arm arms ih =>
    obtain ⟨values, body, line'⟩ := arm
    rw [List.forall_mem_cons] at hsome hvalues hbodies
    have hothers := ih hsome.2 hvalues.2 hbodies.2
    obtain ⟨value, values, rfl⟩ := List.exists_cons_of_ne_nil hsome.1
    obtain ⟨t, ts, hnext, hends⟩ := armTokens_ends line arms fallback rest
    have hwrite : armTokens line (⟨value :: values, body, line'⟩ :: arms) fallback rest
        = word "case" line' :: (separated line' (writeOperands line' (value :: values))
          ++ mark ":" line' :: lineBreak line' :: (writeStatements body
          ++ armTokens line arms fallback rest)) := by
      simp [armTokens]
    rw [hwrite]
    rw [hnext] at hothers ⊢
    have hbody := statements_write hends hbodies.1 ts
    exact .case (pastSeparators_cons rfl) rfl (caseValues_read hvalues.1) rfl hbody.lineBreak
      hothers

theorem lineReads_switch (h : ParensRead R node) (hsome : ∀ arm ∈ arms, arm.values ≠ [])
    (hvalues : ∀ arm ∈ arms, ∀ value ∈ arm.values, ParensRead R value)
    (hbodies : ∀ arm ∈ arms, ∀ node ∈ arm.body, StatementReads R node)
    (hfallback : ∀ node ∈ fallback.getD [], StatementReads R node) :
    LineReads R (.switch node arms fallback line) := by
  intro line' rest _
  have hwrite : (Node.switch node arms fallback line).write .statement ++ lineBreak line' :: rest
      = word "switch" line :: (parens line (node.write .value) ++ mark "\x7b" line ::
        lineBreak line :: armTokens line arms fallback (lineBreak line' :: rest)) := by
    simp [braces, armTokens]
  have harms : SwitchArms R (armTokens line arms fallback (lineBreak line' :: rest))
      (arms, fallback) (lineBreak line' :: rest) :=
    arms_read hsome hvalues hbodies hfallback
  rw [hwrite]
  exact .blocked rfl (.switch ⟨_, _, _, _, _, _, h .statement line _ (stops_mark rfl), rfl, rfl,
    harms.lineBreak, rfl⟩) (.separator rfl)

end

/-! ### First tokens -/

theorem opens_name {name : String} (h : isKeyword name = false) : Opens (word name line) := by
  have hne : ∀ text, isKeyword text = true → (name == text) = false := by
    intro text htext
    rw [beq_eq_false_iff_ne]
    rintro rfl
    cases h.symm.trans htext
  refine ⟨rfl, ?_, hne "else" rfl⟩
  show (false || false || name == "case" || name == "default") = false
  rw [hne "case" rfl, hne "default" rfl]
  rfl

/-- A name starts no construct. -/
theorem startsConstruct_name {name : String} (h : isKeyword name = false) (ts : List Token) :
    startsConstruct name ts = false := by
  unfold startsConstruct
  split
  all_goals first | rfl | cases h

/-- What is written for a value starts like an expression, also as a statement.  Definitions do not:
they start with `var`. -/
theorem value_opens (h : node.Built (isKeyword · = false) .value)
    (hplain : ∀ name value line, node ≠ .definition name value line) :
    ∃ t front, node.write .statement = t :: front ∧ Opens t ∧
      ∀ back, startsConstruct (Parser.leadingWord t.kind) (front ++ back) = false := by
  cases h with
  | constant value line =>
    cases value <;> exact ⟨_, _, rfl, ⟨rfl, rfl, rfl⟩, fun _ => rfl⟩
  | reference free => exact ⟨_, _, rfl, opens_name free, startsConstruct_name free⟩
  | definition _ _ => exact absurd rfl (hplain _ _ _)
  | @function name _ _ _ _ _ _ =>
    cases name with
    | none => exact ⟨_, _, rfl, ⟨rfl, rfl, rfl⟩, fun _ => rfl⟩
    | some name => exact ⟨_, _, rfl, ⟨rfl, rfl, rfl⟩, fun _ => rfl⟩
  | assignment _ _ _ => exact ⟨_, _, rfl, ⟨rfl, rfl, rfl⟩, fun _ => rfl⟩
  | increment _ _ _ => exact ⟨_, _, rfl, ⟨rfl, rfl, rfl⟩, fun _ => rfl⟩
  | before operator _ =>
    simp only [List.mem_cons, List.not_mem_nil, or_false] at operator
    rcases operator with rfl | rfl | rfl
    all_goals exact ⟨_, _, rfl, ⟨rfl, rfl, rfl⟩, fun _ => rfl⟩
  | @between symbol left right line operator _ _ _ =>
    have hfirst : ∃ front, (Node.operation symbol [left, right] line).write .statement
        = mark "(" line :: front := by
      by_cases hindex : symbol = "["
      · simp [parens, hindex]
      · simp [parens, write_between operator hindex]
    obtain ⟨front, hwrite⟩ := hfirst
    exact ⟨_, front, hwrite, ⟨rfl, rfl, rfl⟩, fun _ => rfl⟩
  | access _ _ _ => exact ⟨_, _, rfl, ⟨rfl, rfl, rfl⟩, fun _ => rfl⟩
  | list _ _ => exact ⟨_, _, rfl, ⟨rfl, rfl, rfl⟩, fun _ => rfl⟩
  | call free _ =>
    exact ⟨_, _, rfl, opens_name free, fun back => startsConstruct_name free _⟩

/-! ### Built trees -/

/-- At level `n` a value is read back in all the ways in which it is written. -/
structure ValueBack (n : Nat) (node : Node) : Prop where
  value : ValueReads (Level n) node
  parens : ParensRead (Level n) node
  statement : StatementReads (Level n) node

/-- At level `n` a tree is read back at its place. -/
def ReadBack (n : Nat) : Place → Node → Prop
  | .value, node => ValueBack n node
  | .statement, node => StatementReads (Level n) node

theorem eventually_succ {P Q : Nat → Prop} (h : ∀ᶠ n in atTop, P n)
    (hstep : ∀ n, P n → Q (n + 1)) : ∀ᶠ n in atTop, Q n := by
  obtain ⟨least, hleast⟩ := eventually_atTop.1 h
  refine eventually_atTop.2 ⟨least + 1, fun n hn => ?_⟩
  obtain ⟨n, rfl⟩ := Nat.exists_eq_succ_of_ne_zero (Nat.ne_zero_of_lt hn)
  exact hstep n (hleast n (Nat.le_of_succ_le_succ hn))

theorem eventually_parens (h : ∀ᶠ n in atTop, ValueReads (Level n) node) :
    ∀ᶠ n in atTop, ParensRead (Level n) node :=
  eventually_succ h fun _ hvalue _ _ _ hrest => hvalue.run_parens hrest

/-- As a statement, a value other than a definition is written as a value, possibly in
parentheses. -/
theorem ValueReads.statement {n : Nat} (hbuilt : node.Built (isKeyword · = false) .value)
    (hplain : ∀ name value line, node ≠ .definition name value line)
    (hvalue : ValueReads (Level n) node) (hparens : ParensRead (Level n) node) :
    StatementReads (Level (n + 1)) node := by
  obtain ⟨t, front, hwrite, hopens, hother⟩ := value_opens hbuilt hplain
  refine ⟨⟨t, front, hwrite, hopens⟩, lineReads_expression hwrite hother fun rest hrest => ?_⟩
  cases node with
  | function name params body line =>
    cases name with
    | none => exact hvalue .statement rest nofun hrest
    | some name => exact hparens .statement line rest hrest
  | definition name value line => exact absurd rfl (hplain name value line)
  | _ => exact hvalue .statement rest nofun hrest

/-- A statement that the next level reads back is read back from some level on. -/
theorem eventually_statement {t : Token} {front : List Token}
    (hwrite : node.write .statement = t :: front) (hopens : Opens t)
    (h : ∀ᶠ n in atTop, LineReads (Level n) node) :
    ∀ᶠ n in atTop, ReadBack n .statement node :=
  eventually_succ h fun _ hline => ⟨⟨t, front, hwrite, hopens⟩, hline⟩

theorem eventually_both (hvalue : ∀ᶠ n in atTop, ValueReads (Level n) node)
    (hstatement : ∀ᶠ n in atTop, ReadBack n .statement node) :
    ∀ᶠ n in atTop, ReadBack n .value node := by
  filter_upwards [hvalue, eventually_parens hvalue, hstatement] with n hvalue hparens hstatement
  exact ⟨hvalue, hparens, hstatement⟩

/-- A value that the next level reads back is read back in all ways from some level on. -/
theorem eventually_value (hbuilt : node.Built (isKeyword · = false) .value)
    (hplain : ∀ name value line, node ≠ .definition name value line)
    (h : ∀ᶠ n in atTop, RunReads (Level n) node) : ∀ᶠ n in atTop, ReadBack n .value node := by
  have hvalue : ∀ᶠ n in atTop, ValueReads (Level n) node := eventually_succ h fun _ hrun => hrun
  refine eventually_both hvalue ?_
  exact eventually_succ (hvalue.and (eventually_parens hvalue)) fun _ h =>
    h.1.statement hbuilt hplain h.2

theorem eventually_each {α : Type} {P : Nat → α → Prop} {as : List α}
    (h : ∀ a ∈ as, ∀ᶠ n in atTop, P n a) : ∀ᶠ n in atTop, ∀ a ∈ as, P n a :=
  (eventually_all_finite as.finite_toSet).2 h

theorem eventually_option {α : Type} {P : Nat → α → Prop} {o : Option α}
    (h : ∀ a ∈ o, ∀ᶠ n in atTop, P n a) : ∀ᶠ n in atTop, ∀ a ∈ o, P n a := by
  cases o with
  | none => exact .of_forall nofun
  | some a =>
    refine (h a rfl).mono fun n ha b hb => ?_
    cases hb
    exact ha

/-- **Every built tree is read back**, from some level on. -/
theorem readBack_of_built {place : Place} (h : node.Built (isKeyword · = false) place) :
    ∀ᶠ n in atTop, ReadBack n place node := by
  induction h with
  | constant value line =>
    refine eventually_value (.constant value line) nofun ?_
    exact .of_forall fun _ => runReads_constant value
  | reference free =>
    refine eventually_value (.reference free) nofun ?_
    exact .of_forall fun _ => runReads_reference free
  | definition free _ right =>
    refine eventually_both ?_ (eventually_statement rfl ⟨rfl, rfl, rfl⟩ ?_)
    · exact eventually_succ right fun _ hright => runReads_definition free hright.value
    · exact right.mono fun _ hright => lineReads_definition free hright.parens
  | function free frees built statements =>
    refine eventually_value (.function free frees built) nofun ?_
    exact (eventually_each statements).mono fun _ hbody => runReads_function free frees hbody
  | assignment place builtLeft builtRight left right =>
    refine eventually_value (.assignment place builtLeft builtRight) nofun ?_
    filter_upwards [left, right] with n hleft hright
    exact runReads_assignment place hleft.value hright.value
  | increment place step built left =>
    refine eventually_value (.increment place step built) nofun ?_
    exact left.mono fun _ hleft => runReads_increment place step hleft.value
  | before operator built right =>
    refine eventually_value (.before operator built) nofun ?_
    exact right.mono fun _ hright => runReads_before operator hright.value
  | between operator plain builtFirst builtSecond first second =>
    refine eventually_value (.between operator plain builtFirst builtSecond) nofun ?_
    filter_upwards [first, second] with n hfirst hsecond
    exact runReads_binary operator hfirst.value hsecond.value hsecond.parens
      (reduceBinary_of_isInfix operator plain)
  | access member builtFirst builtSecond first second =>
    refine eventually_value (.access member builtFirst builtSecond) nofun ?_
    filter_upwards [first, second] with n hfirst hsecond
    refine runReads_binary rfl hfirst.value hsecond.value hsecond.parens ?_
    simp [Item.reduceBinary, member]
  | list some built each =>
    refine eventually_value (.list some built) nofun ?_
    exact (eventually_each each).mono fun _ heach =>
      runReads_list some fun element helement => (heach element helement).parens
  | call free built each =>
    refine eventually_value (.call free built) nofun ?_
    exact (eventually_each each).mono fun _ heach =>
      runReads_call free fun argument hargument => (heach argument hargument).parens
  | expression _ value => exact value.mono fun _ hvalue => hvalue.statement
  | conditional _ _ _ test statements others =>
    refine eventually_statement rfl ⟨rfl, rfl, rfl⟩ ?_
    filter_upwards [test, eventually_each statements, eventually_each others]
      with n htest hbody hothers
    exact lineReads_conditional hbody htest.parens hothers
  | whileLoop _ _ test statements =>
    refine eventually_statement rfl ⟨rfl, rfl, rfl⟩ ?_
    filter_upwards [test, eventually_each statements] with n htest hbody
    exact lineReads_whileLoop hbody htest.parens
  | switch _ some _ _ _ chosen values bodies others =>
    refine eventually_statement rfl ⟨rfl, rfl, rfl⟩ ?_
    have hvalues := eventually_each fun arm harm => eventually_each (values arm harm)
    have hbodies := eventually_each fun arm harm => eventually_each (bodies arm harm)
    filter_upwards [chosen, hvalues, hbodies, eventually_each others]
      with n hchosen hvalues hbodies hothers
    exact lineReads_switch hchosen.parens some
      (fun arm harm value hvalue => (hvalues arm harm value hvalue).parens) hbodies hothers
  | rangeLoop free _ _ _ _ first last by_ statements =>
    refine eventually_statement rfl ⟨rfl, rfl, rfl⟩ ?_
    filter_upwards [first, last, eventually_option by_, eventually_each statements]
      with n hfirst hlast hstep hbody
    exact lineReads_rangeLoop hbody free hfirst.parens hlast.parens
      fun node hnode => (hstep node hnode).parens
  | eachLoop free _ _ elements statements =>
    refine eventually_statement rfl ⟨rfl, rfl, rfl⟩ ?_
    filter_upwards [elements, eventually_each statements] with n helements hbody
    exact lineReads_eachLoop hbody free helements.parens
  | breakOut line =>
    refine eventually_statement rfl ⟨rfl, rfl, rfl⟩ (.of_forall fun _ _ _ _ => ?_)
    exact .plain rfl .breakOut (.separator rfl)
  | continueOn line =>
    refine eventually_statement rfl ⟨rfl, rfl, rfl⟩ (.of_forall fun _ _ _ _ => ?_)
    exact .plain rfl .continueOn (.separator rfl)
  | fallThrough line =>
    refine eventually_statement rfl ⟨rfl, rfl, rfl⟩ (.of_forall fun _ _ _ _ => ?_)
    exact .plain rfl .fallThrough (.separator rfl)
  | giveBack _ result =>
    refine eventually_statement rfl ⟨rfl, rfl, rfl⟩ ?_
    exact (eventually_option result).mono fun _ hresult =>
      lineReads_giveBack fun node hnode => (hresult node hnode).parens

end Grammar

/-! ### Programs -/

/-- Built statements come back from their own tokens. -/
theorem parse_unparse_of_built {nodes : List Node}
    (h : ∀ node ∈ nodes, node.Built (isKeyword · = false) .statement) :
    parse (unparse nodes) = .ok nodes := by
  have hread : ∀ᶠ n in atTop, ∀ node ∈ nodes, StatementReads (Level n) node :=
    eventually_each fun node hnode => readBack_of_built (h node hnode)
  obtain ⟨n, hn⟩ := hread.exists
  have hprogram : Grammar.Program (Level n) (unparse nodes) nodes [⟨.finish, 1⟩] :=
    ⟨statements_write rfl hn [], by simp [Next, Token.isFinish]⟩
  exact parse_complete hprogram.reads

/-- **Parsing undoes writing.**  Every program that the parser returns comes back, lines included,
from the tokens that are written for it. -/
theorem parse_unparse {tokens : List Token} {nodes : List Node} (h : parse tokens = .ok nodes) :
    parse (unparse nodes) = .ok nodes := by
  have hspells : Spells (isKeyword · = false) tokens := fun _ _ _ _ hfree => hfree
  refine parse_unparse_of_built (built_of_parse ?_ hspells h)
  rfl

/-- The tokens of `while i < n` with the body `sum += i++` on a line of its own. -/
def summingTokens : List Token :=
  [word "while" 1, word "i" 1, mark "<" 1, word "n" 1, mark "\x7b" 1, lineBreak 1,
    word "sum" 2, mark "+=" 2, word "i" 2, mark "++" 2, lineBreak 2, mark "\x7d" 3, ⟨.finish, 3⟩]

/-- The tree of `summingTokens`, where neither assignment is left as it was written. -/
def summingTree : Node :=
  .whileLoop (.operation "<" [.reference "i" 1, .reference "n" 1] 1)
    [.assignment (.reference "sum" 2)
      (.operation "+" [.reference "sum" 2,
        .assignment (.reference "i" 2)
          (.operation "+" [.reference "i" 2, .constant (.int 1) 2] 2) true 2] 2) false 2] 1

theorem parse_unparse_summing :
    parse summingTokens = .ok [summingTree] ∧
      parse (unparse [summingTree]) = .ok [summingTree] := by
  have hparse : parse summingTokens = .ok [summingTree] := by rfl
  exact ⟨hparse, parse_unparse hparse⟩

end PairScript
