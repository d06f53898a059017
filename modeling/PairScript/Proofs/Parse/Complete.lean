import PairScript.Proofs.Parse.Sound
import PairScript.Proofs.Parse.Takes
import PairScript.Proofs.Syntax.MoveDown

/-!
# The parser accepts every phrase of the grammar

This is the converse of `PairScript.Proofs.Parse.Sound`: on the tokens of a phrase the procedure of
the same name succeeds, with the tree that the phrase stands for and the tokens that follow.

The bounds are the point.  A level is used up by a run and by a statement, and between a run and
the next run inside it at least one token is taken, so two levels for each token and a few more
are enough (`Goal.levels`).  A loop makes at most one pass for each token.
-/

namespace PairScript

/-- The levels that a goal needs besides two for each token. -/
def Goal.levels : Goal → Nat
  | .run _ => 1
  | .statement => 2
  | .conditional _ => 2

namespace Parser

variable {α β : Type} {ts mid rest : List Token} {t : Token} {s : String}

/-! ### Tokens -/

theorem isSymbol_eq_false {s' : String} (h : t.kind = .symbol s) (hne : s ≠ s') :
    t.isSymbol s' = false := by
  simp [Token.isSymbol, h, hne]

theorem isNewline_eq_false {kind : Token.Kind} (h : t.kind = kind) (hkind : kind ≠ .newline) :
    t.isNewline = false := by
  rw [← Bool.not_eq_true, Token.isNewline_iff, h]
  exact hkind

theorem symbolContinuation_of_after {mode : Mode} (h : s = "++" ∨ s = "--") :
    symbolContinuation mode s = .after := by
  rcases h with rfl | rfl <;> cases mode <;> rfl

theorem ne_func_of_free (h : isKeyword s = false) : (s == "func") = false := by
  rw [beq_eq_false_iff_ne]
  rintro rfl
  cases h

/-- An operand starts with a token that is taken for one. -/
theorem operand_starts {R : Goal → Phrase Node} {node : Node}
    (h : Grammar.Operand R ts node rest) :
    ∃ t ts', ts = t :: ts' ∧ t.isNewline = false ∧ prefixOperator? t = none := by
  cases h with
  | int kind | float kind | str kind | function kind _ | call kind _ _ _ | reference kind _ _
  | group kind _ _ _ | empty kind _ | list kind _ _ =>
    exact ⟨_, _, rfl, isNewline_eq_false kind nofun, by simp [prefixOperator?, kind, prefixName?]⟩

/-! ### Lists -/

section

variable {item : Parser α} {Item : Phrase α} {closing : String} {as : List α} {bound longest : Nat}
  (htakes : ∀ ts a rest, Item ts a rest → Grammar.Takes ts rest)
  (hitem : ∀ ts a rest, Item ts a rest → ts.length ≤ longest → item ts = .ok a rest)
  (hclosing : closing ≠ ",")
include htakes hitem hclosing

theorem commaSeparatedFrom_complete (h : Grammar.Commas Item closing ts as rest)
    (hlongest : ts.length ≤ longest) (hbound : ts.length ≤ bound) (acc : List α) :
    commaSeparatedFrom item closing bound acc ts = .ok (acc.reverse ++ as) rest := by
  induction h generalizing bound acc with
  | last first after closes =>
    have htaken := (htakes _ _ _ first).2
    cases bound with
    | zero => omega
    | succ bound =>
      refine bind_eq_ok.2 ⟨_, _, hitem _ _ _ first hlongest, ?_⟩
      simp only [skipNewlines_bind, get_bind, after, set_bind]
      rw [isSymbol_eq_false closes hclosing, Token.isSymbol_iff.2 closes]
      simp
  | @more ts mid mid' rest a as comma first after separates _ ih =>
    have htaken := ((htakes _ _ _ first).trans (Grammar.takes_dropWhile after)).2
    have hbreaks : (Grammar.pastBreaks mid').length ≤ mid'.length :=
      (List.dropWhile_suffix _).length_le
    cases bound with
    | zero => omega
    | succ bound =>
      refine bind_eq_ok.2 ⟨_, _, hitem _ _ _ first hlongest, ?_⟩
      simp only [skipNewlines_bind, get_bind, after, set_bind, Token.isSymbol_iff.2 separates,
        if_true]
      rw [ih (by omega) (by omega) (a :: acc)]
      simp

theorem commaSeparated_complete (h : Grammar.CommaList Item closing ts as rest)
    (hlongest : ts.length ≤ longest) (hbound : ts.length ≤ bound) :
    commaSeparated bound item closing ts = .ok as rest := by
  simp only [commaSeparated, skipNewlines_bind]
  cases h with
  | empty after closes =>
    refine bind_eq_ok.2 ⟨true, rest, ?_, rfl⟩
    exact skipIf_eq_ok.2 (.inl ⟨rfl, _, after, Token.isSymbol_iff.2 closes⟩)
  | items opens list =>
    have hbreaks : (Grammar.pastBreaks ts).length ≤ ts.length :=
      (List.dropWhile_suffix _).length_le
    refine bind_eq_ok.2 ⟨false, _, skipIf_eq_ok.2 (.inr ⟨rfl, rfl, opens⟩), ?_⟩
    exact commaSeparatedFrom_complete htakes hitem hclosing list (by omega) (by omega) []

end

/-! ### Blocks and functions -/

section

variable {self : Self} {R : Goal → Phrase Node} {n bound line : Nat} {node : Node}
  {nodes : List Node}
  (htakes : ∀ goal ts node rest, R goal ts node rest → Grammar.Takes ts rest)
  (hself : ∀ goal ts node rest, R goal ts node rest → 2 * ts.length + goal.levels ≤ n →
    self goal ts = .ok node rest)
include htakes

/-- Each statement takes a token. -/
theorem statements_length (h : Grammar.Statements R ts nodes rest) :
    nodes.length + rest.length ≤ ts.length := by
  induction h with
  | done _ => simpa using (List.dropWhile_suffix Parser.isSeparator).length_le
  | more first _ statement _ ih =>
    have hfirst := (Grammar.takes_dropWhile first).2
    have hstatement := (htakes _ _ _ _ statement).2
    simp only [List.length_cons] at hstatement ⊢
    omega

include hself

omit htakes in
/-- A run that is asked of the level below. -/
theorem below_complete {mode : Mode} (h : R (.run mode) ts node rest)
    (hn : 2 * ts.length + 1 ≤ n) : self (.run mode) ts = .ok node rest :=
  hself _ _ _ _ h hn

theorem statementsFrom_complete (h : Grammar.Statements R ts nodes rest)
    (hn : 2 * ts.length + 2 ≤ n) (hbound : nodes.length < bound) (acc : List Node) :
    statementsFrom self bound acc ts = .ok (acc.reverse ++ nodes) rest := by
  induction h generalizing bound acc with
  | @done ts ends =>
    cases bound with
    | zero => cases hbound
    | succ bound =>
      simp only [statementsFrom, skipWhile_bind, get_bind]
      cases hts : Grammar.pastSeparators ts with
      | nil => simp only [hts, pure_apply, List.append_nil]
      | cons t ts' =>
        have hends : endsList t = true := by simpa [Grammar.Next, hts] using ends
        simp only [hts, hends, if_true, pure_apply, List.append_nil]
  | @more ts mid rest t ts' node nodes first continues statement _ ih =>
    have hfirst := (Grammar.takes_dropWhile first).2
    have hstatement := (htakes _ _ _ _ statement).2
    rw [List.length_cons] at hbound hstatement
    cases bound with
    | zero => cases hbound
    | succ bound =>
      simp only [statementsFrom, skipWhile_bind, get_bind, first, continues, Bool.false_eq_true,
        if_false]
      have hnode : self .statement (t :: ts') = .ok node mid := by
        refine hself _ _ _ _ statement ?_
        simp only [List.length_cons, Goal.levels]
        omega
      refine bind_eq_ok.2 ⟨node, mid, hnode, ?_⟩
      rw [ih (by omega) (by omega) (node :: acc)]
      simp

theorem statements_complete (h : Grammar.Statements R ts nodes rest)
    (hn : 2 * ts.length + 2 ≤ n) (hbound : nodes.length < bound) :
    statements bound self ts = .ok nodes rest :=
  statementsFrom_complete htakes hself h hn hbound []

theorem block_complete {body : List Node} (h : Grammar.Block R ts body rest)
    (hn : 2 * ts.length ≤ n) (hbound : ts.length ≤ bound) :
    block bound self ts = .ok body rest := by
  obtain ⟨opening, closing, mid, hts, hopening, hbody, hclosing⟩ := h
  have hmid := (Grammar.takes_dropWhile hts).2
  have hlength := statements_length htakes hbody
  rw [List.length_cons] at hlength
  simp only [block, skipNewlines_bind]
  refine bind_eq_ok.2 ⟨(), mid, expectSymbol_eq_ok.2 ⟨opening, hts, hopening⟩, ?_⟩
  refine bind_eq_ok.2 ⟨body, closing :: rest, ?_, ?_⟩
  · exact statements_complete htakes hself hbody (by omega) (by omega)
  · exact bind_eq_ok.2 ⟨(), rest, expectSymbol_eq_ok.2 ⟨closing, rfl, hclosing⟩, rfl⟩

theorem functionParts_complete {f : FunctionParts} (h : Grammar.Function R ts f rest)
    (hn : 2 * ts.length ≤ n) (hbound : ts.length ≤ bound) :
    functionParts bound self ts = .ok f rest := by
  have hsignature : ∀ {ts params body} (name : Option String),
      Grammar.Signature R ts (params, body) rest → 2 * ts.length ≤ n → ts.length ≤ bound →
      (expectSymbol "(" >>= fun _ => commaSeparated bound identifier ")" >>= fun params =>
        block bound self >>= fun body => pure (⟨name, params, body⟩ : FunctionParts)) ts
        = .ok ⟨name, params, body⟩ rest := by
    rintro ts params body name ⟨opening, mid, mid', rfl, hopening, hparams, hbody⟩ hn hbound
    rw [List.length_cons] at hn hbound
    have hmid := (hparams.takes fun _ _ _ => Grammar.Identifier.takes).2
    refine bind_eq_ok.2 ⟨(), mid, expectSymbol_eq_ok.2 ⟨opening, rfl, hopening⟩, ?_⟩
    refine bind_eq_ok.2 ⟨params, mid', ?_, ?_⟩
    · exact commaSeparated_complete (fun _ _ _ => Grammar.Identifier.takes)
        (fun _ _ _ h _ => identifier_eq_ok.2 h) (by decide) hparams (Nat.le_refl _) (by omega)
    · exact bind_eq_ok.2 ⟨body, rest, block_complete htakes hself hbody (by omega) (by omega), rfl⟩
  simp only [functionParts, atSymbol_bind]
  cases h with
  | anonymous signature =>
    obtain ⟨opening, mid, mid', rfl, hopening, hparts⟩ := id signature
    have hopen : (opening :: mid).head?.any (·.isSymbol "(") = true := by
      simpa using Token.isSymbol_iff.2 hopening
    rw [if_pos hopen]
    exact hsignature none signature hn hbound
  | @named _ mid _ name _ _ identifier signature =>
    have hmid := identifier.takes.2
    obtain ⟨t, rfl, hkind, -⟩ := id identifier
    have hopen : (t :: mid).head?.any (·.isSymbol "(") = false := by
      simp [Token.isSymbol, hkind]
    rw [hopen]
    refine bind_eq_ok.2 ⟨some name, mid, ?_, ?_⟩
    · exact map_eq_ok.2 ⟨name, identifier_eq_ok.2 identifier, rfl⟩
    · exact hsignature (some name) signature (by omega) (by omega)

omit htakes hself in
/-- Before a block only line breaks stand. -/
theorem block_starts {body : List Node} (h : Grammar.Block R ts body rest) :
    ∀ t ∈ ts.head?, t.kind = .newline ∨ t.kind = .symbol "\x7b" := by
  obtain ⟨opening, closing, mid, hts, hopening, -⟩ := h
  cases ts with
  | nil => simp
  | cons t ts =>
    rintro _ ⟨⟩
    by_cases hnewline : t.isNewline = true
    · exact .inl (Token.isNewline_iff.1 hnewline)
    · rw [Grammar.pastBreaks, List.dropWhile_cons_of_neg hnewline] at hts
      cases hts
      exact .inr hopening

/-! ### Expressions -/

theorem elements_complete {closing : String} {elements : List Node} (hclosing : closing ≠ ",")
    (h : Grammar.CommaList (R (.run .element)) closing ts elements rest)
    (hn : 2 * ts.length + 1 ≤ n) (hbound : ts.length ≤ bound) :
    commaSeparated bound (self (.run .element)) closing ts = .ok elements rest := by
  refine commaSeparated_complete (htakes _) ?_ hclosing h (Nat.le_refl _) hbound
  intro ts' a rest' h hlength
  exact below_complete hself h (by omega)

theorem operand_complete {first : Bool} (h : Grammar.Operand R ts node rest)
    (hn : 2 * ts.length ≤ n) (hbound : ts.length ≤ bound) :
    operand bound self first ts = .ok node rest := by
  cases h with
  | int kind | float kind | str kind => simp [operand, kind]
  | function kind parts =>
    rw [List.length_cons] at hn hbound
    simp only [operand, get_bind, set_bind, kind, beq_self_eq_true, if_true]
    exact bind_eq_ok.2
      ⟨_, rest, functionParts_complete htakes hself parts (by omega) (by omega), rfl⟩
  | @call t opening ts _ text _ kind free opens list =>
    have hfunc := ne_func_of_free free
    simp only [List.length_cons] at hn hbound
    simp only [operand, get_bind, set_bind, kind, hfunc, free, Bool.false_eq_true, if_false,
      atSymbol_bind, List.head?_cons, Option.any_some, Token.isSymbol_iff.2 opens, if_true,
      skip_bind, List.tail_cons]
    refine bind_eq_ok.2 ⟨_, rest, ?_, rfl⟩
    exact elements_complete htakes hself (by decide) list (by omega) (by omega)
  | @reference t _ text kind free plain =>
    have hfunc := ne_func_of_free free
    have hplain : rest.head?.any (·.isSymbol "(") = false := by
      cases rest with
      | nil => rfl
      | cons t' rest => simpa [Grammar.NotNext] using plain
    simp only [operand, get_bind, set_bind, kind, hfunc, free, Bool.false_eq_true, if_false,
      atSymbol_bind, hplain]
    rfl
  | @group t close ts mid _ inner kind run after closes =>
    rw [List.length_cons] at hn
    simp only [operand, get_bind, set_bind, kind, beq_self_eq_true, if_true]
    refine bind_eq_ok.2 ⟨node, mid, below_complete hself run (by omega), ?_⟩
    simp only [skipNewlines_bind]
    exact bind_eq_ok.2 ⟨(), rest, expectSymbol_eq_ok.2 ⟨close, after, closes⟩, rfl⟩
  | @empty t ts _ kind list =>
    simp only [List.length_cons] at hn hbound
    simp only [operand, get_bind, set_bind, kind]
    refine bind_eq_ok.2 ⟨[], rest, ?_, rfl⟩
    exact elements_complete htakes hself (by decide) list (by omega) (by omega)
  | @list t ts _ elements kind list some =>
    simp only [List.length_cons] at hn hbound
    have hsome : elements.isEmpty = false := by simpa using some
    simp only [operand, get_bind, set_bind, kind]
    refine bind_eq_ok.2 ⟨elements, rest, ?_, ?_⟩
    · exact elements_complete htakes hself (by decide) list (by omega) (by omega)
    · rw [hsome]
      rfl

/-- The items of a run are collected.  An operand is due as in the phrase, and `acc` holds what
stands before. -/
theorem collect_complete {mode : Mode} {due started : Bool} {items : List Item}
    (h : Grammar.Items R mode due started ts items rest) (hn : 2 * ts.length ≤ n)
    (hbound : ts.length < bound) {acc : List Item} (hacc : started = !acc.isEmpty) :
    collect self mode bound ⟨due, acc⟩ ts = .ok ⟨false, items.reverse ++ acc⟩ rest := by
  induction h generalizing bound acc with
  | @done ts stops =>
    cases bound with
    | zero => omega
    | succ bound =>
      cases ts with
      | nil => simp [collect]
      | cons t ts => simp [collect, stops t rfl]
  | @lineBreak started t ts rest items kind skips _ ih =>
    rw [List.length_cons] at hn hbound
    cases bound with
    | zero => omega
    | succ bound =>
      have hskips : (t.isNewline && (mode != .statement || !acc.isEmpty)) = true := by
        rw [Token.isNewline_iff.2 kind, Bool.true_and, ← hacc]
        simpa using skips
      simp only [collect, get_bind, if_true, hskips, set_bind]
      exact ih (by omega) (by omega) hacc
  | @plus started t ts rest items kind _ ih =>
    rw [List.length_cons] at hn hbound
    cases bound with
    | zero => omega
    | succ bound =>
      have hname : prefixOperator? t = some "+" := by rw [prefixOperator?, kind]; rfl
      simp only [collect, get_bind, if_true, isNewline_eq_false kind nofun, Bool.false_and,
        Bool.false_eq_true, if_false, hname, set_bind, beq_self_eq_true]
      exact ih (by omega) (by omega) hacc
  | @before started t ts rest items text name kind operator meaning _ ih =>
    rw [List.length_cons] at hn hbound
    cases bound with
    | zero => omega
    | succ bound =>
      have hname : prefixOperator? t = some name := by rw [prefixOperator?, kind, ← operator]
      simp only [collect, get_bind, if_true, isNewline_eq_false kind nofun, Bool.false_and,
        Bool.false_eq_true, if_false, hname, set_bind, beq_eq_false_iff_ne.2 meaning]
      rw [ih (by omega) (by omega) rfl]
      simp
  | @operand started ts mid rest items node operand _ ih =>
    have htaken := (operand.takes htakes).2
    cases bound with
    | zero => omega
    | succ bound =>
      obtain ⟨t, ts, rfl, hnewline, hname⟩ := operand_starts operand
      simp only [collect, get_bind, if_true, hnewline, Bool.false_and, Bool.false_eq_true,
        if_false, hname]
      refine bind_eq_ok.2 ⟨node, mid, ?_, ?_⟩
      · exact operand_complete htakes hself operand hn (by omega)
      · rw [ih (by omega) (by omega) rfl]
        simp
  | @ignored t ts rest items kind skips _ ih =>
    rw [List.length_cons] at hn hbound
    cases bound with
    | zero => omega
    | succ bound =>
      have hignore : continuation mode t.kind = .ignore := by simp [continuation, kind, skips]
      simp only [collect, get_bind, Bool.false_eq_true, if_false, hignore, set_bind]
      exact ih (by omega) (by omega) hacc
  | @after t ts rest items text kind operator _ ih =>
    rw [List.length_cons] at hn hbound
    cases bound with
    | zero => omega
    | succ bound =>
      have hafter : continuation mode t.kind = .after := by
        rw [kind]
        exact symbolContinuation_of_after operator
      simp only [collect, get_bind, Bool.false_eq_true, if_false, hafter, set_bind]
      rw [ih (by omega) (by omega) rfl]
      simp [kind, symbolText]
  | @index t close ts mid rest items index kind run closes _ ih =>
    rw [List.length_cons] at hn hbound
    have htaken := (htakes _ _ _ _ run).2
    rw [List.length_cons] at htaken
    cases bound with
    | zero => omega
    | succ bound =>
      have hindex : continuation mode t.kind = .index := by
        rw [kind]
        cases mode <;> rfl
      simp only [collect, get_bind, Bool.false_eq_true, if_false, hindex, set_bind]
      refine bind_eq_ok.2 ⟨index, close :: mid, below_complete hself run (by omega), ?_⟩
      refine bind_eq_ok.2 ⟨(), mid, expectSymbol_eq_ok.2 ⟨close, rfl, closes⟩, ?_⟩
      rw [ih (by omega) (by omega) rfl]
      simp [kind, symbolText]
  | @between t ts rest items text kind operator _ ih =>
    rw [List.length_cons] at hn hbound
    cases bound with
    | zero => omega
    | succ bound =>
      have hbetween : continuation mode t.kind = .between := by rw [kind, ← operator]; rfl
      simp only [collect, get_bind, Bool.false_eq_true, if_false, hbetween, set_bind]
      rw [ih (by omega) (by omega) rfl]
      simp [kind, symbolText]

theorem run_complete {mode : Mode} (h : Grammar.Run R mode ts node rest)
    (hn : 2 * ts.length ≤ n) (hbound : ts.length < bound) :
    run bound self mode ts = .ok node rest := by
  obtain ⟨items, line, hitems, htree⟩ := h
  rw [run_eq_finishRun, currentLine_bind]
  refine bind_eq_ok.2 ⟨_, rest, collect_complete htakes hself hitems hn hbound rfl, ?_⟩
  simp only [finishRun, List.append_nil, List.reverse_reverse, Bool.false_eq_true, if_false]
  exact ofExcept_eq_ok.2 ⟨buildTree_eq_ok.2 (buildTree_eq_ok.1 htree), rfl⟩

/-! ### Definitions and branches -/

omit htakes in
theorem variableDefinition_complete (h : Grammar.Variable R line ts node rest)
    (hn : 2 * ts.length ≤ n) : variableDefinition self line ts = .ok node rest := by
  cases h with
  | plain identifier bare =>
    refine bind_eq_ok.2 ⟨_, rest, identifier_eq_ok.2 identifier, ?_⟩
    exact bind_eq_ok.2 ⟨false, rest, skipIf_eq_ok.2 (.inr ⟨rfl, rfl, bare⟩), rfl⟩
  | @valued _ mid _ name equals value identifier kind run =>
    have hmid := identifier.takes.2
    rw [List.length_cons] at hmid
    refine bind_eq_ok.2 ⟨_, _, identifier_eq_ok.2 identifier, ?_⟩
    refine bind_eq_ok.2 ⟨true, mid, ?_, ?_⟩
    · exact skipIf_eq_ok.2 (.inl ⟨rfl, equals, rfl, Token.isSymbol_iff.2 kind⟩)
    · exact bind_eq_ok.2 ⟨value, rest, below_complete hself run (by omega), rfl⟩

theorem functionDefinition_complete (h : Grammar.NamedFunction R line ts node rest)
    (hn : 2 * ts.length ≤ n) (hbound : ts.length ≤ bound) :
    functionDefinition bound self line ts = .ok node rest := by
  obtain ⟨name, params, body, hparts, rfl⟩ := h
  exact bind_eq_ok.2 ⟨_, rest, functionParts_complete htakes hself hparts hn hbound, rfl⟩

theorem otherwise_complete {other : Option (List Node)} (h : Grammar.Otherwise R ts other rest)
    (hn : 2 * ts.length ≤ n) (hbound : ts.length ≤ bound) :
    otherwise bound self ts = .ok other rest := by
  simp only [otherwise, get_bind]
  cases h with
  | absent bare =>
    cases hts : Grammar.pastBreaks ts with
    | nil => simp only [hts, pure_apply]
    | cons word mid =>
      have hword : word.isName "else" = false := by simpa [Grammar.NotNext, hts] using bare
      simp only [hts, hword, Bool.false_eq_true, if_false, pure_apply]
  | @chain _ mid _ word next inner after kind again conditional =>
    have hmid := (Grammar.takes_dropWhile after).2
    rw [List.length_cons] at hmid
    simp only [after, Token.isName_iff.2 kind, if_true, set_bind, Token.isName_iff.2 again]
    refine bind_eq_ok.2 ⟨inner, rest, hself _ _ _ _ conditional ?_, rfl⟩
    simp only [Goal.levels]
    omega
  | @block _ mid _ word body after kind body' =>
    have hmid := (Grammar.takes_dropWhile after).2
    have hblock : Parser.block bound self mid = .ok body rest :=
      block_complete htakes hself body' (by omega) (by omega)
    simp only [after, Token.isName_iff.2 kind, if_true, set_bind]
    cases mid with
    | nil => exact map_eq_ok.2 ⟨body, hblock, rfl⟩
    | cons next mid =>
      have hnext : next.isName "if" = false := by
        rcases block_starts body' next rfl with hkind | hkind <;> simp [Token.isName, hkind]
      simp only [hnext, Bool.false_eq_true, if_false]
      exact map_eq_ok.2 ⟨body, hblock, rfl⟩

theorem conditional_complete (h : Grammar.Conditional R line ts node rest)
    (hn : 2 * ts.length + 1 ≤ n) (hbound : ts.length ≤ bound) :
    conditional bound self line ts = .ok node rest := by
  obtain ⟨condition, body, other, mid, mid', hcondition, hbody, hother, rfl⟩ := h
  have hmid := (htakes _ _ _ _ hcondition).2
  have hmid' := (hbody.takes htakes).2
  refine bind_eq_ok.2 ⟨condition, mid, below_complete hself hcondition hn, ?_⟩
  refine bind_eq_ok.2 ⟨body, mid', block_complete htakes hself hbody (by omega) (by omega), ?_⟩
  refine bind_eq_ok.2 ⟨other, rest, ?_, rfl⟩
  exact otherwise_complete htakes hself hother (by omega) (by omega)

theorem caseValuesFrom_complete {values : List Node} (h : Grammar.CaseValues R ts values rest)
    (hn : 2 * ts.length + 1 ≤ n) (hbound : ts.length ≤ bound) (acc : List Node) :
    caseValuesFrom self bound acc ts = .ok (acc.reverse ++ values) rest := by
  induction h generalizing bound acc with
  | @last ts rest value run ends =>
    have htaken := (htakes _ _ _ _ run).2
    cases bound with
    | zero => omega
    | succ bound =>
      refine bind_eq_ok.2 ⟨value, rest, below_complete hself run hn, ?_⟩
      refine bind_eq_ok.2 ⟨false, rest, skipIf_eq_ok.2 (.inr ⟨rfl, rfl, ends⟩), ?_⟩
      simp
  | @more ts mid rest comma value values run kind _ ih =>
    have htaken := (htakes _ _ _ _ run).2
    rw [List.length_cons] at htaken
    cases bound with
    | zero => omega
    | succ bound =>
      refine bind_eq_ok.2 ⟨value, comma :: mid, below_complete hself run hn, ?_⟩
      refine bind_eq_ok.2 ⟨true, mid, ?_, ?_⟩
      · exact skipIf_eq_ok.2 (.inl ⟨rfl, comma, rfl, Token.isSymbol_iff.2 kind⟩)
      · rw [if_pos rfl, ih (by omega) (by omega) (value :: acc)]
        simp

theorem arms_complete {cases : List (Arm Node)} {fallback : Option (List Node)}
    (h : Grammar.SwitchArms R ts (cases, fallback) rest) (hn : 2 * ts.length ≤ n)
    (hbound : ts.length ≤ bound) (a : Arms) :
    arms self line bound a ts = .ok ⟨cases.reverse ++ a.cases, fallback.or a.fallback⟩ rest := by
  generalize harms : (cases, fallback) = arms' at h
  induction h generalizing cases fallback bound a with
  | done after closes =>
    obtain ⟨rfl, rfl⟩ := Prod.mk.inj harms
    have htaken := (Grammar.takes_dropWhile after).2
    cases bound with
    | zero => omega
    | succ bound =>
      simp only [arms, skipWhile_bind, get_bind, after, Token.isSymbol_iff.2 closes, if_true,
        set_bind, pure_apply]
      rfl
  | @case ts mid mid' mid'' rest word colon values body cases' fallback' after kind list opens
      block others ih =>
    obtain ⟨rfl, rfl⟩ := Prod.mk.inj harms
    have htaken := (Grammar.takes_dropWhile after).2
    have hlist := (list.takes htakes).2
    have hblock := statements_length htakes block
    rw [List.length_cons] at hlist
    cases bound with
    | zero => omega
    | succ bound =>
      have hclose : word.isSymbol "\x7d" = false := by simp [Token.isSymbol, kind]
      simp only [arms, skipWhile_bind, get_bind, after, hclose, Token.isName_iff.2 kind,
        Bool.false_eq_true, if_false, if_true, set_bind]
      refine bind_eq_ok.2 ⟨values, colon :: mid', ?_, ?_⟩
      · exact caseValuesFrom_complete htakes hself list (by omega) (by omega) []
      refine bind_eq_ok.2 ⟨(), mid', expectSymbol_eq_ok.2 ⟨colon, rfl, opens⟩, ?_⟩
      refine bind_eq_ok.2 ⟨body, mid'', ?_, ?_⟩
      · exact statements_complete htakes hself block (by omega) (by omega)
      · rw [ih (by omega) (by omega) _ rfl]
        simp
  | @fallback ts mid mid' rest word colon body cases' fallback' after kind opens block others ih =>
    obtain ⟨rfl, rfl⟩ := Prod.mk.inj harms
    have htaken := (Grammar.takes_dropWhile after).2
    have hblock := statements_length htakes block
    rw [List.length_cons] at htaken
    cases bound with
    | zero => omega
    | succ bound =>
      have hclose : word.isSymbol "\x7d" = false := by simp [Token.isSymbol, kind]
      have hcase : word.isName "case" = false := by simp [Token.isName, kind]
      simp only [arms, skipWhile_bind, get_bind, after, hclose, hcase, Token.isName_iff.2 kind,
        Bool.false_eq_true, if_false, if_true, set_bind]
      refine bind_eq_ok.2 ⟨(), mid, expectSymbol_eq_ok.2 ⟨colon, rfl, opens⟩, ?_⟩
      refine bind_eq_ok.2 ⟨body, mid', ?_, ?_⟩
      · exact statements_complete htakes hself block (by omega) (by omega)
      · rw [ih (by omega) (by omega) _ rfl]
        simp

theorem switch_complete (h : Grammar.Switch R line ts node rest) (hn : 2 * ts.length + 1 ≤ n)
    (hbound : ts.length ≤ bound) : switch bound self line ts = .ok node rest := by
  obtain ⟨subject, cases, fallback, opening, mid, mid', hsubject, hmid, hopening, harms, rfl⟩ := h
  have htaken := (htakes _ _ _ _ hsubject).2
  have hmid' := (Grammar.takes_dropWhile hmid).2
  refine bind_eq_ok.2 ⟨subject, mid, below_complete hself hsubject hn, ?_⟩
  simp only [skipNewlines_bind]
  refine bind_eq_ok.2 ⟨(), mid', expectSymbol_eq_ok.2 ⟨opening, hmid, hopening⟩, ?_⟩
  refine bind_eq_ok.2 ⟨_, rest, arms_complete htakes hself harms (by omega) (by omega) _, ?_⟩
  simp

/-! ### Loops -/

theorem whileLoop_complete (h : Grammar.While R line ts node rest) (hn : 2 * ts.length + 1 ≤ n)
    (hbound : ts.length ≤ bound) : whileLoop bound self line ts = .ok node rest := by
  obtain ⟨condition, body, mid, hcondition, hbody, rfl⟩ := h
  have hmid := (htakes _ _ _ _ hcondition).2
  refine bind_eq_ok.2 ⟨condition, mid, below_complete hself hcondition hn, ?_⟩
  exact bind_eq_ok.2 ⟨body, rest, block_complete htakes hself hbody (by omega) (by omega), rfl⟩

theorem rangeLoop_complete {name : String} {start limit : Node} {closed : Bool}
    {step : Option Node} {body : List Node} {mid' : List Token}
    (hlimit : R (.run .statement) ts limit mid) (hstep : Grammar.Step R mid step mid')
    (hbody : Grammar.Block R mid' body rest) (hn : 2 * ts.length + 1 ≤ n)
    (hbound : ts.length ≤ bound) :
    rangeLoop bound self name start closed line ts =
      .ok (.rangeLoop name start limit closed step body line) rest := by
  have hmid := (htakes _ _ _ _ hlimit).2
  have hmid' := (hstep.suffix htakes).length_le
  have hblock : block bound self mid' = .ok body rest :=
    block_complete htakes hself hbody (by omega) (by omega)
  refine bind_eq_ok.2 ⟨limit, mid, below_complete hself hlimit hn, ?_⟩
  cases hstep with
  | absent bare =>
    refine bind_eq_ok.2 ⟨false, mid, skipIf_eq_ok.2 (.inr ⟨rfl, rfl, bare⟩), ?_⟩
    exact bind_eq_ok.2 ⟨none, mid, rfl, bind_eq_ok.2 ⟨body, rest, hblock, rfl⟩⟩
  | @present word mid _ step kind run =>
    rw [List.length_cons] at hmid
    refine bind_eq_ok.2 ⟨true, mid, ?_, ?_⟩
    · exact skipIf_eq_ok.2 (.inl ⟨rfl, word, rfl, Token.isName_iff.2 kind⟩)
    · refine bind_eq_ok.2 ⟨some step, mid', map_eq_ok.2 ⟨step, ?_, rfl⟩, ?_⟩
      · exact below_complete hself run (by omega)
      · exact bind_eq_ok.2 ⟨body, rest, hblock, rfl⟩

theorem forLoop_complete (h : Grammar.For R line ts node rest) (hn : 2 * ts.length ≤ n)
    (hbound : ts.length ≤ bound) : forLoop bound self line ts = .ok node rest := by
  obtain ⟨name, word, mid, hname, hword, htail⟩ := h
  have hmid := hname.takes.2
  rw [List.length_cons] at hmid
  refine bind_eq_ok.2 ⟨name, word :: mid, identifier_eq_ok.2 hname, ?_⟩
  refine bind_eq_ok.2 ⟨(), mid, expectWord_eq_ok.2 ⟨word, rfl, hword⟩, ?_⟩
  cases htail with
  | @range _ mid₁ mid₂ mid₃ _ dots start limit closed step body run kind upTo by_ block =>
    have htaken := (htakes _ _ _ _ run).2
    rw [List.length_cons] at htaken
    refine bind_eq_ok.2 ⟨start, dots :: mid₁, below_complete hself run (by omega), ?_⟩
    cases closed with
    | true =>
      refine bind_eq_ok.2 ⟨true, mid₁, ?_, ?_⟩
      · exact skipIf_eq_ok.2 (.inl ⟨rfl, dots, rfl, Token.isSymbol_iff.2 kind⟩)
      · exact rangeLoop_complete htakes hself upTo by_ block (by omega) (by omega)
    | false =>
      have hopen : Grammar.NotNext (·.isSymbol "..=") (dots :: mid₁) := by
        simp [Grammar.NotNext, Token.isSymbol, kind]
      refine bind_eq_ok.2 ⟨false, dots :: mid₁, skipIf_eq_ok.2 (.inr ⟨rfl, rfl, hopen⟩), ?_⟩
      refine bind_eq_ok.2 ⟨true, mid₁, ?_, ?_⟩
      · exact skipIf_eq_ok.2 (.inl ⟨rfl, dots, rfl, Token.isSymbol_iff.2 kind⟩)
      · exact rangeLoop_complete htakes hself upTo by_ block (by omega) (by omega)
  | @each _ mid₁ _ collection body run block =>
    have htaken := (htakes _ _ _ _ run).2
    have hdots (s : String) (hs : "\x7b" ≠ s) : Grammar.NotNext (·.isSymbol s) mid₁ := by
      intro t ht
      rcases block_starts block t ht with hkind | hkind <;> simp [Token.isSymbol, hkind, hs]
    refine bind_eq_ok.2 ⟨collection, mid₁, below_complete hself run (by omega), ?_⟩
    refine bind_eq_ok.2 ⟨false, mid₁, ?_, ?_⟩
    · exact skipIf_eq_ok.2 (.inr ⟨rfl, rfl, hdots "..=" (by decide)⟩)
    refine bind_eq_ok.2 ⟨false, mid₁, ?_, ?_⟩
    · exact skipIf_eq_ok.2 (.inr ⟨rfl, rfl, hdots ".." (by decide)⟩)
    exact bind_eq_ok.2 ⟨body, rest, block_complete htakes hself block (by omega) (by omega), rfl⟩

/-! ### Statements -/

omit htakes in
theorem giveBack_complete (h : Grammar.GiveBack R line ts node rest)
    (hn : 2 * ts.length + 1 ≤ n) : giveBack self line ts = .ok node rest := by
  simp only [giveBack, atStatementEnd_bind]
  cases h with
  | plain stops =>
    have hstop : ts.head?.all Grammar.ends = true := by cases ts <;> simp_all [Grammar.Next]
    rw [hstop]
    rfl
  | @valued t ts _ value continues run =>
    rw [List.head?_cons, Option.all_some, continues]
    exact bind_eq_ok.2 ⟨value, rest, below_complete hself run hn, rfl⟩

omit htakes hself in
theorem closed_complete {statement : Parser Node} (h : statement ts = .ok node mid)
    (hclose : Grammar.Close mid rest) : closed statement ts = .ok node rest := by
  refine bind_eq_ok.2 ⟨node, mid, h, bind_eq_ok.2 ⟨(), rest, ?_, rfl⟩⟩
  cases hclose with
  | separator separates => simp [statementEnd, separates]
  | list bare stops =>
    cases mid with
    | nil => rfl
    | cons t mid =>
      have hbare : isSeparator t = false := by simpa [Grammar.NotNext] using bare
      have hstops : endsList t = true := by simpa [Grammar.Next] using stops
      simp [statementEnd, hbare, hstops]

omit htakes hself in
theorem blockClosed_complete {statement : Parser Node} (h : statement ts = .ok node mid)
    (hclose : Grammar.BlockClose mid rest) : blockClosed statement ts = .ok node rest := by
  refine bind_eq_ok.2 ⟨node, mid, h, bind_eq_ok.2 ⟨(), rest, ?_, rfl⟩⟩
  cases hclose with
  | separator separates =>
    exact bind_eq_ok.2 ⟨true, rest, skipIf_eq_ok.2 (.inl ⟨rfl, _, rfl, separates⟩), rfl⟩
  | bare none => exact bind_eq_ok.2 ⟨false, mid, skipIf_eq_ok.2 (.inr ⟨rfl, rfl, none⟩), rfl⟩

theorem blockConstruct_complete {word : String}
    (h : Grammar.BlockConstruct R word line ts node mid) (hclose : Grammar.BlockClose mid rest)
    (hn : 2 * ts.length + 1 ≤ n) (hbound : ts.length ≤ bound) :
    ∃ construct, construct? bound self word line ts = some construct ∧
      construct ts = .ok node rest := by
  cases h with
  | function named parts =>
    have hconstruct : construct? bound self "func" line ts =
        some (blockClosed (functionDefinition bound self line)) := by
      simp only [construct?, named, Bool.false_eq_true, if_false]
    refine ⟨_, hconstruct, blockClosed_complete ?_ hclose⟩
    exact functionDefinition_complete htakes hself parts (by omega) hbound
  | conditional parts =>
    exact ⟨_, rfl, blockClosed_complete (conditional_complete htakes hself parts hn hbound) hclose⟩
  | whileLoop parts =>
    exact ⟨_, rfl, blockClosed_complete (whileLoop_complete htakes hself parts hn hbound) hclose⟩
  | forLoop parts =>
    refine ⟨_, rfl, blockClosed_complete ?_ hclose⟩
    exact forLoop_complete htakes hself parts (by omega) hbound
  | switch parts =>
    exact ⟨_, rfl, blockClosed_complete (switch_complete htakes hself parts hn hbound) hclose⟩

omit htakes in
theorem plainConstruct_complete {word : String}
    (h : Grammar.PlainConstruct R word line ts node mid) (hclose : Grammar.Close mid rest)
    (hn : 2 * ts.length + 1 ≤ n) :
    ∃ construct, construct? bound self word line ts = some construct ∧
      construct ts = .ok node rest := by
  cases h with
  | definition parts =>
    exact ⟨_, rfl, closed_complete (variableDefinition_complete hself parts (by omega)) hclose⟩
  | breakOut | continueOn | fallThrough => exact ⟨_, rfl, closed_complete rfl hclose⟩
  | giveBack parts => exact ⟨_, rfl, closed_complete (giveBack_complete hself parts hn) hclose⟩

theorem statement_complete (h : Grammar.Statement R ts node rest) (hn : 2 * ts.length + 1 ≤ n)
    (hbound : ts.length ≤ bound) : statement bound self ts = .ok node rest := by
  cases h with
  | @blocked t ts mid _ word _ kind construct close =>
    rw [List.length_cons] at hn hbound
    obtain ⟨parser, hparser, hresult⟩ : ∃ parser, construct? bound self word t.line ts =
        some parser ∧ parser ts = .ok node rest :=
      blockConstruct_complete htakes hself construct close (by omega) (by omega)
    simp only [statement, get_bind, kind, leadingWord, hparser, set_bind, hresult]
  | @plain t ts mid _ word _ kind construct close =>
    rw [List.length_cons] at hn
    obtain ⟨parser, hparser, hresult⟩ : ∃ parser, construct? bound self word t.line ts =
        some parser ∧ parser ts = .ok node rest :=
      plainConstruct_complete hself construct close (by omega)
    simp only [statement, get_bind, kind, leadingWord, hparser, set_bind, hresult]
  | expression other run close =>
    simp only [statement, get_bind, construct_eq_none_iff.2 other]
    exact closed_complete (below_complete hself run hn) close

theorem program_complete (h : Grammar.Program R ts nodes rest) (hn : 2 * ts.length + 2 ≤ n)
    (hbound : ts.length < bound) : program bound self ts = .ok nodes rest := by
  obtain ⟨hnodes, hrest⟩ := h
  have hlength := statements_length htakes hnodes
  refine bind_eq_ok.2 ⟨nodes, rest, ?_, ?_⟩
  · exact statements_complete htakes hself hnodes hn (by omega)
  · cases rest with
    | nil => rfl
    | cons t rest =>
      have hfinish : t.isFinish = true := by simpa [Grammar.Next] using hrest
      simp only [get_bind, hfinish, if_true, pure_apply]

end

/-! ### Closing the recursion -/

/-- A phrase is read with two levels for each of its tokens and a few more. -/
theorem level_complete (n : Nat) :
    ∀ m goal ts node rest, Grammar.Level m goal ts node rest → 2 * ts.length + goal.levels ≤ n →
      level n goal ts = .ok node rest := by
  induction n with
  | zero =>
    intro m goal ts node rest h hn
    have htaken := (Grammar.Level.takes m goal ts node rest h).2
    omega
  | succ n ih =>
    intro m goal ts node rest h hn
    cases m with
    | zero => exact h.elim
    | succ m =>
      have htaken := (Grammar.Level.takes (m + 1) goal ts node rest h).2
      cases goal with
      | run mode =>
        simp only [Goal.levels] at hn
        exact run_complete (Grammar.Level.takes m) (ih m) h (by omega) (by omega)
      | statement =>
        simp only [Goal.levels] at hn
        exact statement_complete (Grammar.Level.takes m) (ih m) h (by omega) (by omega)
      | conditional line =>
        simp only [Goal.levels] at hn
        exact conditional_complete (Grammar.Level.takes m) (ih m) h (by omega) (by omega)

end Parser

/-- **A program of the grammar is accepted.** -/
theorem parse_complete {tokens rest : List Token} {nodes : List Node}
    (h : Grammar.Program Grammar.Reads tokens nodes rest) : parse tokens = .ok nodes := by
  have hprogram : Entry.program.parse tokens = .ok nodes rest := by
    refine Parser.program_complete ?_ ?_ h (n := Parser.fuel tokens) ?_ ?_
    · exact fun goal ts node rest ⟨m, h⟩ => Grammar.Level.takes m goal ts node rest h
    · exact fun goal ts node rest ⟨m, h⟩ => Parser.level_complete _ m goal ts node rest h
    all_goals
      unfold Parser.fuel
      omega
  simp only [parse, hprogram]

end PairScript
