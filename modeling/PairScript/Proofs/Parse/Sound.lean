import PairScript.Proofs.Parse.Grammar

/-!
# What the parser accepts is a phrase of the grammar

If a procedure of `PairScript.Parse` succeeds, then the tokens it has read form a phrase of the
relation of the same name in `PairScript.Proofs.Parse.Grammar`, for the result that it gives.

* The first part says, for each procedure on single tokens, when it succeeds and with what.
* The second part takes the procedures of the grammar one by one, with the level below as a
  parameter; loops are inductions on their bound.
* `level_sound` and `parse_sound` close the recursion.
-/

namespace PairScript.Token

theorem isSymbol_iff {t : Token} {s : String} : t.isSymbol s = true ↔ t.kind = .symbol s := by
  unfold isSymbol
  cases t.kind <;> simp

theorem isName_iff {t : Token} {w : String} : t.isName w = true ↔ t.kind = .name w := by
  unfold isName
  cases t.kind <;> simp

theorem isNewline_iff {t : Token} : t.isNewline = true ↔ t.kind = .newline := by
  unfold isNewline
  cases t.kind <;> simp

theorem isFinish_iff {t : Token} : t.isFinish = true ↔ t.kind = .finish := by
  unfold isFinish
  cases t.kind <;> simp

end PairScript.Token

namespace PairScript.Parser

variable {α β : Type} {ts rest : List Token}

/-! ### Success of single steps -/

theorem bind_eq_ok {p : Parser α} {f : α → Parser β} {b : β} :
    (p >>= f) ts = .ok b rest ↔ ∃ a mid, p ts = .ok a mid ∧ f a mid = .ok b rest := by
  constructor
  · intro h
    cases hp : p ts with
    | ok a mid =>
      refine ⟨a, mid, rfl, ?_⟩
      simpa [bind, EStateM.bind, hp] using h
    | error e mid => simp [bind, EStateM.bind, hp] at h
  · rintro ⟨a, mid, hp, hf⟩
    simp [bind, EStateM.bind, hp, hf]

theorem map_eq_ok {p : Parser α} {f : α → β} {b : β} :
    (f <$> p) ts = .ok b rest ↔ ∃ a, p ts = .ok a rest ∧ f a = b := by
  show EStateM.map f p ts = _ ↔ _
  cases hp : p ts with
  | ok a mid =>
    simp only [EStateM.map, hp, EStateM.Result.ok.injEq]
    grind
  | error e mid => simp [EStateM.map, hp]

@[simp] theorem pure_apply (a : α) : (pure a : Parser α) ts = .ok a ts := rfl

@[simp] theorem get_bind (f : List Token → Parser β) : (get >>= f) ts = f ts ts := rfl

@[simp] theorem set_bind (s : List Token) (f : PUnit → Parser β) :
    (set s >>= f) ts = f ⟨⟩ s := rfl

@[simp] theorem set_apply (s : List Token) : (set s : Parser PUnit) ts = .ok ⟨⟩ s := rfl

@[simp] theorem fail_ne_ok (cause : SyntaxCause) (line : Nat) (a : α) :
    ¬ (fail cause line : Parser α) ts = .ok a rest := nofun

@[simp] theorem exhausted_ne_ok (a : α) : ¬ (exhausted : Parser α) ts = .ok a rest := nofun

@[simp] theorem unexpected_ne_ok (t : Token) (expected : Expectation) (a : α) :
    ¬ (unexpected t expected : Parser α) ts = .ok a rest := by
  unfold unexpected
  split <;> simp

@[simp] theorem skip_bind (f : Unit → Parser β) : (skip >>= f) ts = f () ts.tail := rfl

@[simp] theorem skipNewlines_bind (f : Unit → Parser β) :
    (skipNewlines >>= f) ts = f () (Grammar.pastBreaks ts) := rfl

@[simp] theorem skipWhile_bind (p : Token → Bool) (f : Unit → Parser β) :
    (skipWhile p >>= f) ts = f () (ts.dropWhile p) := rfl

@[simp] theorem currentLine_bind (f : Nat → Parser β) :
    (currentLine >>= f) ts = f (match ts with | token :: _ => token.line | [] => 0) ts := rfl

theorem ofExcept_eq_ok {x : Except SyntaxFault α} {a : α} :
    ofExcept x ts = .ok a rest ↔ x = .ok a ∧ ts = rest := by
  cases x with
  | ok b => simp [ofExcept]
  | error f => exact ⟨nofun, nofun⟩

theorem atSymbol_bind (s : String) (f : Bool → Parser β) :
    (atSymbol s >>= f) ts = f (ts.head?.any (·.isSymbol s)) ts := by
  cases ts <;> rfl

theorem expect_eq_ok {p : Token → Bool} {expected : Expectation} {u : Unit} :
    expect p expected ts = .ok u rest ↔ ∃ t, ts = t :: rest ∧ p t = true := by
  cases ts with
  | nil => simp [expect]
  | cons t ts =>
    simp only [expect, get_bind, set_bind]
    split
    · simp only [pure_apply, EStateM.Result.ok.injEq]
      grind
    · simp only [unexpected_ne_ok]
      grind

theorem expectSymbol_eq_ok {s : String} {u : Unit} :
    expectSymbol s ts = .ok u rest ↔ ∃ t, ts = t :: rest ∧ t.kind = .symbol s := by
  simp only [expectSymbol, expect_eq_ok, Token.isSymbol_iff]

theorem expectWord_eq_ok {w : String} {u : Unit} :
    expectWord w ts = .ok u rest ↔ ∃ t, ts = t :: rest ∧ t.kind = .name w := by
  simp only [expectWord, expect_eq_ok, Token.isName_iff]

theorem skipIf_eq_ok {p : Token → Bool} {b : Bool} :
    skipIf p ts = .ok b rest ↔
      (b = true ∧ ∃ t, ts = t :: rest ∧ p t = true) ∨
        (b = false ∧ rest = ts ∧ Grammar.NotNext p ts) := by
  unfold Grammar.NotNext
  cases ts with
  | nil =>
    simp only [skipIf, get_bind, pure_apply, EStateM.Result.ok.injEq]
    grind
  | cons t ts =>
    simp only [skipIf, get_bind]
    split
    · simp only [set_bind, pure_apply, EStateM.Result.ok.injEq]
      grind
    · simp only [pure_apply, EStateM.Result.ok.injEq]
      grind

theorem identifier_eq_ok {name : String} :
    identifier ts = .ok name rest ↔ Grammar.Identifier ts name rest := by
  unfold Grammar.Identifier
  cases ts with
  | nil => simp [identifier]
  | cons t ts =>
    simp only [identifier, get_bind, set_bind]
    cases hk : t.kind with
    | name text =>
      by_cases hw : isKeyword text = true
      · simp [hw]
        grind
      · simp [hw]
        grind
    | _ => simp [hk]

/-! ### Lists -/

section

variable {item : Parser α} {Item : Phrase α} {closing : String}
  (hitem : ∀ ts a rest, item ts = .ok a rest → Item ts a rest)
include hitem

theorem commaSeparatedFrom_sound {bound : Nat} {acc as : List α}
    (h : commaSeparatedFrom item closing bound acc ts = .ok as rest) :
    ∃ more, as = acc.reverse ++ more ∧ Grammar.Commas Item closing ts more rest := by
  induction bound generalizing ts acc with
  | zero => simp [commaSeparatedFrom] at h
  | succ bound ih =>
    obtain ⟨a, mid, ha, h⟩ := bind_eq_ok.1 h
    simp only [skipNewlines_bind, get_bind] at h
    cases hmid : Grammar.pastBreaks mid with
    | nil => simp [hmid] at h
    | cons token mid' =>
      simp only [hmid, set_bind] at h
      split at h
      next hcomma =>
        obtain ⟨more, rfl, hmore⟩ := ih h
        exact ⟨a :: more, by simp, .more (hitem _ _ _ ha) hmid (Token.isSymbol_iff.1 hcomma) hmore⟩
      next =>
        split at h
        next hclose =>
          cases h
          exact ⟨[a], by simp, .last (hitem _ _ _ ha) hmid (Token.isSymbol_iff.1 hclose)⟩
        next => simp at h

theorem commaSeparated_sound {bound : Nat} {as : List α}
    (h : commaSeparated bound item closing ts = .ok as rest) :
    Grammar.CommaList Item closing ts as rest := by
  simp only [commaSeparated, skipNewlines_bind] at h
  obtain ⟨b, mid, hb, h⟩ := bind_eq_ok.1 h
  rcases skipIf_eq_ok.1 hb with ⟨rfl, close, hclose, hkind⟩ | ⟨rfl, rfl, hopen⟩
  · cases h
    exact .empty hclose (Token.isSymbol_iff.1 hkind)
  · obtain ⟨more, rfl, hmore⟩ := commaSeparatedFrom_sound hitem h
    exact .items hopen (by simpa using hmore)

end

/-! ### Operators -/

/-- What a token where an operator could stand must be, to be taken as one. -/
theorem symbolContinuation_after {mode : Mode} {text : String}
    (h : symbolContinuation mode text = .after) : text = "++" ∨ text = "--" := by
  unfold symbolContinuation at h
  repeat' split at h
  all_goals simp_all

theorem symbolContinuation_index {mode : Mode} {text : String}
    (h : symbolContinuation mode text = .index) : text = "[" := by
  unfold symbolContinuation at h
  repeat' split at h
  all_goals simp_all

theorem continuation_ignore {mode : Mode} {kind : Token.Kind}
    (h : continuation mode kind = .ignore) : kind = .newline ∧ mode ≠ .statement := by
  cases kind with
  | newline => cases mode <;> simp_all [continuation]
  | symbol text =>
    simp only [continuation, symbolContinuation] at h
    repeat' split at h
    all_goals simp_all
  | _ => simp [continuation] at h

/-- A token that is taken as an operator is a symbol. -/
theorem continuation_symbol {mode : Mode} {kind : Token.Kind} {c : Continuation}
    (h : continuation mode kind = c) (hstop : c ≠ .stop) (hignore : c ≠ .ignore) :
    ∃ text, kind = .symbol text ∧ symbolContinuation mode text = c := by
  cases kind with
  | symbol text => exact ⟨text, rfl, h⟩
  | newline => cases mode <;> simp_all [continuation]
  | _ => simp_all [continuation]

/-! ### Ends of statements -/

theorem atStatementEnd_bind (f : Bool → Parser β) :
    (atStatementEnd >>= f) ts = f (ts.head?.all Grammar.ends) ts := by
  cases ts <;> rfl

theorem statementEnd_sound {u : Unit} (h : statementEnd ts = .ok u rest) :
    Grammar.Close ts rest := by
  cases ts with
  | nil =>
    cases h
    exact .list (by simp [Grammar.NotNext]) (by simp [Grammar.Next])
  | cons t ts =>
    simp only [statementEnd, get_bind] at h
    split at h
    next hsep =>
      cases h
      exact .separator hsep
    next hbare =>
      split at h
      next hends =>
        cases h
        exact .list (by simpa [Grammar.NotNext] using hbare) (by simpa [Grammar.Next] using hends)
      next => simp at h

theorem blockEnd_sound {u : Unit} (h : blockEnd ts = .ok u rest) : Grammar.BlockClose ts rest := by
  obtain ⟨b, mid, hb, h⟩ := bind_eq_ok.1 h
  cases h
  rcases skipIf_eq_ok.1 hb with ⟨-, t, rfl, hsep⟩ | ⟨-, rfl, hbare⟩
  · exact .separator hsep
  · exact .bare hbare

theorem closed_sound {statement : Parser Node} {node : Node}
    (h : closed statement ts = .ok node rest) :
    ∃ mid, statement ts = .ok node mid ∧ Grammar.Close mid rest := by
  obtain ⟨node', mid, hnode, h⟩ := bind_eq_ok.1 h
  obtain ⟨_, mid', hend, h⟩ := bind_eq_ok.1 h
  cases h
  exact ⟨mid, hnode, statementEnd_sound hend⟩

theorem blockClosed_sound {statement : Parser Node} {node : Node}
    (h : blockClosed statement ts = .ok node rest) :
    ∃ mid, statement ts = .ok node mid ∧ Grammar.BlockClose mid rest := by
  obtain ⟨node', mid, hnode, h⟩ := bind_eq_ok.1 h
  obtain ⟨_, mid', hend, h⟩ := bind_eq_ok.1 h
  cases h
  exact ⟨mid, hnode, blockEnd_sound hend⟩

theorem construct_eq_none_iff {self : Self} {word : String} {bound line : Nat} :
    construct? bound self word line ts = none ↔ Grammar.startsConstruct word ts = false := by
  unfold construct? Grammar.startsConstruct
  split <;> simp_all

/-! ### Ends of runs -/

/-- A run that ends while an operand is due has taken in all tokens: while one is due, every token
is taken in or is a fault. -/
theorem collect_due {self : Self} {mode : Mode} {bound : Nat} {c c' : Collected}
    (h : collect self mode bound c ts = .ok c' rest) (hdue : c'.operandDue = true) : rest = [] := by
  induction bound generalizing ts c with
  | zero => simp [collect] at h
  | succ bound ih =>
    simp only [collect, get_bind] at h
    cases ts with
    | nil =>
      cases h
      rfl
    | cons token ts =>
      simp only at h
      split at h
      next =>
        split at h
        next => exact ih h
        next =>
          cases hname : prefixOperator? token with
          | some name =>
            simp only [hname, set_bind] at h
            split at h
            next => exact ih h
            next => exact ih h
          | none =>
            simp only [hname] at h
            obtain ⟨node, mid, -, h⟩ := bind_eq_ok.1 h
            exact ih h
      next hoperator =>
        cases hcont : continuation mode token.kind with
        | stop =>
          simp only [hcont] at h
          cases h
          exact absurd hdue hoperator
        | ignore | after | between =>
          simp only [hcont, set_bind] at h
          exact ih h
        | index =>
          simp only [hcont, set_bind] at h
          obtain ⟨index, mid, -, h⟩ := bind_eq_ok.1 h
          obtain ⟨-, mid', -, h⟩ := bind_eq_ok.1 h
          exact ih h
        | reject => simp [hcont] at h

/-- What becomes of a run that is collected; `line` is the line of the whole run. -/
def finishRun (line : Nat) (c : Collected) : Parser Node :=
  if c.operandDue then fail .unexpectedEnd line
  else ofExcept (Item.buildTree (Item.postOrder c.items.reverse) line)

/-- **A run lacks an operand only at the end of the list.**  So of the faults of `missingOperand`
only the last one ever comes out. -/
theorem run_eq_finishRun {self : Self} {mode : Mode} {bound : Nat} : run bound self mode =
    currentLine >>= fun line => collect self mode bound ⟨true, []⟩ >>= finishRun line := by
  funext ts
  simp only [run, currentLine_bind]
  show EStateM.bind (collect self mode bound ⟨true, []⟩) _ ts
    = EStateM.bind (collect self mode bound ⟨true, []⟩) _ ts
  unfold EStateM.bind
  cases hcollect : collect self mode bound ⟨true, []⟩ ts with
  | error halt rest => rfl
  | ok c rest =>
    dsimp only
    unfold finishRun
    cases hdue : c.operandDue with
    | false => rfl
    | true =>
      obtain rfl := collect_due hcollect hdue
      rfl

/-! ### Blocks and functions -/

section

variable {self : Self} {R : Goal → Phrase Node} {bound line : Nat}
  (hself : ∀ goal ts node rest, self goal ts = .ok node rest → R goal ts node rest)
include hself

theorem statementsFrom_sound {acc nodes : List Node}
    (h : statementsFrom self bound acc ts = .ok nodes rest) :
    ∃ more, nodes = acc.reverse ++ more ∧ Grammar.Statements R ts more rest := by
  induction bound generalizing ts acc with
  | zero => simp [statementsFrom] at h
  | succ bound ih =>
    simp only [statementsFrom, skipWhile_bind, get_bind] at h
    cases hts : Grammar.pastSeparators ts with
    | nil =>
      simp only [hts] at h
      cases h
      exact ⟨[], by simp, hts ▸ .done (by simp [Grammar.Next, hts])⟩
    | cons token ts' =>
      simp only [hts] at h
      split at h
      next hends =>
        cases h
        exact ⟨[], by simp, hts ▸ .done (by simpa [Grammar.Next, hts] using hends)⟩
      next hends =>
        obtain ⟨node, mid, hnode, h⟩ := bind_eq_ok.1 h
        obtain ⟨more, rfl, hmore⟩ := ih h
        exact ⟨node :: more, by simp, .more hts (by simpa using hends) (hself _ _ _ _ hnode) hmore⟩

theorem statements_sound {nodes : List Node} (h : statements bound self ts = .ok nodes rest) :
    Grammar.Statements R ts nodes rest := by
  obtain ⟨more, rfl, hmore⟩ := statementsFrom_sound hself h
  simpa using hmore

theorem block_sound {body : List Node} (h : block bound self ts = .ok body rest) :
    Grammar.Block R ts body rest := by
  simp only [block, skipNewlines_bind] at h
  obtain ⟨_, mid, hopen, h⟩ := bind_eq_ok.1 h
  obtain ⟨nodes, mid', hnodes, h⟩ := bind_eq_ok.1 h
  obtain ⟨_, mid'', hclose, h⟩ := bind_eq_ok.1 h
  cases h
  obtain ⟨opening, hts, hopening⟩ := expectSymbol_eq_ok.1 hopen
  obtain ⟨closing, rfl, hclosing⟩ := expectSymbol_eq_ok.1 hclose
  exact ⟨opening, closing, mid, hts, hopening, statements_sound hself hnodes, hclosing⟩

theorem functionParts_sound {f : FunctionParts} (h : functionParts bound self ts = .ok f rest) :
    Grammar.Function R ts f rest := by
  simp only [functionParts, atSymbol_bind] at h
  have hname : ∃ name mid, (name = none ∧ mid = ts ∨ ∃ text, name = some text ∧
        Grammar.Identifier ts text mid) ∧
      (expectSymbol "(" >>= fun _ => commaSeparated bound identifier ")" >>= fun params =>
        block bound self >>= fun body => pure ⟨name, params, body⟩) mid = .ok f rest := by
    split at h
    · exact ⟨none, ts, .inl ⟨rfl, rfl⟩, h⟩
    · obtain ⟨name, mid, hname, h⟩ := bind_eq_ok.1 h
      obtain ⟨text, htext, rfl⟩ := map_eq_ok.1 hname
      exact ⟨some text, mid, .inr ⟨text, rfl, identifier_eq_ok.1 htext⟩, h⟩
  obtain ⟨name, mid, hname, h⟩ := hname
  obtain ⟨_, mid₁, hopen, h⟩ := bind_eq_ok.1 h
  obtain ⟨params, mid₂, hparams, h⟩ := bind_eq_ok.1 h
  obtain ⟨body, mid₃, hbody, h⟩ := bind_eq_ok.1 h
  cases h
  obtain ⟨opening, rfl, hopening⟩ := expectSymbol_eq_ok.1 hopen
  have hsignature : Grammar.Signature R (opening :: mid₁) (params, body) rest :=
    ⟨opening, mid₁, mid₂, rfl, hopening, commaSeparated_sound (fun _ _ _ => identifier_eq_ok.1) hparams,
      block_sound hself hbody⟩
  rcases hname with ⟨rfl, rfl⟩ | ⟨text, rfl, htext⟩
  · exact .anonymous hsignature
  · exact .named htext hsignature

/-! ### Expressions -/

theorem operand_sound {first : Bool} {node : Node}
    (h : operand bound self first ts = .ok node rest) : Grammar.Operand R ts node rest := by
  cases ts with
  | nil => simp [operand] at h
  | cons token ts =>
    simp only [operand, get_bind, set_bind] at h
    cases hkind : token.kind with
    | int value =>
      rw [hkind] at h
      cases h
      exact .int hkind
    | float value =>
      rw [hkind] at h
      cases h
      exact .float hkind
    | str value =>
      rw [hkind] at h
      cases h
      exact .str hkind
    | name text =>
      rw [hkind] at h
      simp only at h
      split at h
      next hfunc =>
        obtain ⟨f, mid, hf, h⟩ := bind_eq_ok.1 h
        cases h
        rw [beq_iff_eq] at hfunc
        exact .function (hfunc ▸ hkind) (functionParts_sound hself hf)
      next =>
        split at h
        next => simp at h
        next hfree =>
          have hfree : isKeyword text = false := by simpa using hfree
          rw [atSymbol_bind] at h
          cases ts with
          | nil =>
            cases h
            exact .reference hkind hfree (by simp [Grammar.NotNext])
          | cons next ts =>
            split at h
            next hopen =>
              simp only [skip_bind] at h
              obtain ⟨arguments, mid, harguments, h⟩ := bind_eq_ok.1 h
              cases h
              exact .call hkind hfree (Token.isSymbol_iff.1 (by simpa using hopen))
                (commaSeparated_sound (hself _) harguments)
            next hplain =>
              cases h
              refine .reference hkind hfree ?_
              simpa [Grammar.NotNext] using hplain
    | symbol text =>
      rw [hkind] at h
      simp only at h
      split at h
      next hgroup =>
        rw [beq_iff_eq] at hgroup
        obtain ⟨inner, mid, hinner, h⟩ := bind_eq_ok.1 h
        simp only [skipNewlines_bind] at h
        obtain ⟨_, mid', hclose, h⟩ := bind_eq_ok.1 h
        cases h
        obtain ⟨close, hmid, hclosing⟩ := expectSymbol_eq_ok.1 hclose
        exact .group (hgroup ▸ hkind) (hself _ _ _ _ hinner) hmid hclosing
      next =>
        split at h
        next hlist =>
          rw [beq_iff_eq] at hlist
          obtain ⟨elements, mid, helements, h⟩ := bind_eq_ok.1 h
          have hphrase := commaSeparated_sound (hself _) helements
          cases elements with
          | nil =>
            cases h
            exact .empty (hlist ▸ hkind) hphrase
          | cons e es =>
            cases h
            exact .list (hlist ▸ hkind) hphrase (by simp)
        next => simp at h
    | finish =>
      rw [hkind] at h
      simp at h
    | newline =>
      rw [hkind] at h
      simp only at h
      split at h <;> simp at h

theorem collect_sound {mode : Mode} {c c' : Collected} (hc : c.operandDue = false → c.items ≠ [])
    (h : collect self mode bound c ts = .ok c' rest) (hdone : c'.operandDue = false) :
    ∃ items, c'.items = items.reverse ++ c.items ∧
      Grammar.Items R mode c.operandDue (!c.items.isEmpty) ts items rest := by
  induction bound generalizing ts c with
  | zero => simp [collect] at h
  | succ bound ih =>
    obtain ⟨due, before⟩ := c
    simp only [collect, get_bind] at h
    cases ts with
    | nil =>
      cases h
      have hdue : due = false := hdone
      subst hdue
      have hne : before.isEmpty = false := by simpa using hc rfl
      exact ⟨[], rfl, by simpa [hne] using .done (by simp)⟩
    | cons token ts =>
      simp only at h
      split at h
      next hdue =>
        subst hdue
        split at h
        next hskip =>
          simp only [set_bind] at h
          obtain ⟨items, hitems, hphrase⟩ := ih hc h
          rw [Bool.and_eq_true, Bool.or_eq_true] at hskip
          exact ⟨items, hitems, .lineBreak (Token.isNewline_iff.1 hskip.1)
            (hskip.2.imp (by simp) id) hphrase⟩
        next =>
          cases hname : prefixOperator? token with
          | some name =>
            simp only [hname, set_bind] at h
            obtain ⟨text, hkind, hname⟩ : ∃ text, token.kind = .symbol text ∧
                prefixName? text = some name := by
              unfold prefixOperator? at hname
              split at hname
              next text hkind => exact ⟨text, hkind, hname⟩
              next => cases hname
            split at h
            next hplus =>
              obtain ⟨items, hitems, hphrase⟩ := ih hc h
              rw [beq_iff_eq] at hplus
              subst hplus
              have htext : text = "+" := by
                unfold prefixName? at hname
                split at hname <;> simp_all
              exact ⟨items, hitems, .plus (htext ▸ hkind) hphrase⟩
            next hother =>
              obtain ⟨items, hitems, hphrase⟩ := ih (by simp) h
              refine ⟨.operator name .before token.line :: items, by simp [hitems], ?_⟩
              exact .before hkind hname (by simpa using hother) hphrase
          | none =>
            simp only [hname] at h
            obtain ⟨node, mid, hnode, h⟩ := bind_eq_ok.1 h
            obtain ⟨items, hitems, hphrase⟩ := ih (by simp) h
            refine ⟨.operand node :: items, by simp [hitems], ?_⟩
            exact .operand (operand_sound hself hnode) hphrase
      next hdue =>
        have hdue : due = false := by simpa using hdue
        subst hdue
        have hne : (!before.isEmpty) = true := by simpa using hc rfl
        simp only [hne]
        cases hcont : continuation mode token.kind with
        | stop =>
          simp only [hcont] at h
          cases h
          exact ⟨[], rfl, .done (by simpa using hcont)⟩
        | ignore =>
          simp only [hcont, set_bind] at h
          obtain ⟨items, hitems, hphrase⟩ := ih hc h
          obtain ⟨hkind, hmode⟩ := continuation_ignore hcont
          exact ⟨items, hitems, .ignored hkind hmode (by simpa [hne] using hphrase)⟩
        | after =>
          simp only [hcont, set_bind] at h
          obtain ⟨text, hkind, hsymbol⟩ := continuation_symbol hcont (by simp) (by simp)
          obtain ⟨items, hitems, hphrase⟩ := ih (by simp) h
          refine ⟨.operator text .after token.line :: items, by simp [hitems, hkind, symbolText], ?_⟩
          exact .after hkind (symbolContinuation_after hsymbol) hphrase
        | index =>
          simp only [hcont, set_bind] at h
          obtain ⟨index, mid, hrun, h'⟩ := bind_eq_ok.1 h
          obtain ⟨_, mid', hclose, hrest⟩ := bind_eq_ok.1 h'
          obtain ⟨close, rfl, hclosing⟩ := expectSymbol_eq_ok.1 hclose
          obtain ⟨text, hkind, hsymbol⟩ := continuation_symbol hcont (by simp) (by simp)
          obtain rfl := symbolContinuation_index hsymbol
          obtain ⟨items, hitems, hphrase⟩ := ih (by simp) hrest
          refine ⟨.operator "[" .between token.line :: .operand index :: items,
            by simp [hitems, hkind, symbolText], ?_⟩
          exact .index hkind (hself _ _ _ _ hrun) hclosing hphrase
        | between =>
          simp only [hcont, set_bind] at h
          obtain ⟨text, hkind, hsymbol⟩ := continuation_symbol hcont (by simp) (by simp)
          obtain ⟨items, hitems, hphrase⟩ := ih (by simp) h
          refine ⟨.operator text .between token.line :: items, by simp [hitems, hkind, symbolText], ?_⟩
          exact .between hkind hsymbol hphrase
        | reject => simp [hcont] at h

theorem run_sound {mode : Mode} {node : Node} (h : run bound self mode ts = .ok node rest) :
    Grammar.Run R mode ts node rest := by
  rw [run_eq_finishRun, currentLine_bind] at h
  obtain ⟨c, mid, hc, h⟩ := bind_eq_ok.1 h
  unfold finishRun at h
  split at h
  next => simp at h
  next hdue =>
    obtain ⟨htree, rfl⟩ := ofExcept_eq_ok.1 h
    obtain ⟨items, hitems, hphrase⟩ := collect_sound hself (by simp) hc (by simpa using hdue)
    rw [hitems, List.append_nil, List.reverse_reverse] at htree
    exact ⟨items, _, hphrase, htree⟩

/-! ### Definitions and branches -/

theorem variableDefinition_sound {node : Node}
    (h : variableDefinition self line ts = .ok node rest) :
    Grammar.Variable R line ts node rest := by
  obtain ⟨name, mid, hname, h₁⟩ := bind_eq_ok.1 h
  obtain ⟨b, mid', hb, h₂⟩ := bind_eq_ok.1 h₁
  rcases skipIf_eq_ok.1 hb with ⟨rfl, equals, rfl, hequals⟩ | ⟨rfl, rfl, hbare⟩
  · obtain ⟨value, mid'', hvalue, h₃⟩ := bind_eq_ok.1 h₂
    cases h₃
    exact .valued (identifier_eq_ok.1 hname) (Token.isSymbol_iff.1 hequals) (hself _ _ _ _ hvalue)
  · cases h₂
    exact .plain (identifier_eq_ok.1 hname) hbare

theorem functionDefinition_sound {node : Node}
    (h : functionDefinition bound self line ts = .ok node rest) :
    Grammar.NamedFunction R line ts node rest := by
  obtain ⟨⟨name, params, body⟩, mid, hf, h⟩ := bind_eq_ok.1 h
  cases name with
  | none => simp at h
  | some name =>
    cases h
    exact ⟨name, params, body, functionParts_sound hself hf, rfl⟩

theorem otherwise_sound {other : Option (List Node)}
    (h : otherwise bound self ts = .ok other rest) : Grammar.Otherwise R ts other rest := by
  simp only [otherwise, get_bind] at h
  cases hts : Grammar.pastBreaks ts with
  | nil =>
    simp only [hts] at h
    cases h
    exact .absent (by simp [Grammar.NotNext, hts])
  | cons word mid =>
    simp only [hts] at h
    split at h
    next helse =>
      have hkind := Token.isName_iff.1 helse
      simp only [set_bind] at h
      cases mid with
      | nil =>
        obtain ⟨body, hbody, rfl⟩ := map_eq_ok.1 h
        exact .block hts hkind (block_sound hself hbody)
      | cons next mid =>
        simp only at h
        split at h
        next hif =>
          simp only [set_bind] at h
          obtain ⟨inner, mid', hinner, h⟩ := bind_eq_ok.1 h
          cases h
          exact .chain hts hkind (Token.isName_iff.1 hif) (hself _ _ _ _ hinner)
        next =>
          obtain ⟨body, hbody, rfl⟩ := map_eq_ok.1 h
          exact .block hts hkind (block_sound hself hbody)
    next helse =>
      cases h
      exact .absent (by simpa [Grammar.NotNext, hts] using helse)

theorem conditional_sound {node : Node} (h : conditional bound self line ts = .ok node rest) :
    Grammar.Conditional R line ts node rest := by
  obtain ⟨condition, mid, hcondition, h⟩ := bind_eq_ok.1 h
  obtain ⟨body, mid', hbody, h⟩ := bind_eq_ok.1 h
  obtain ⟨other, mid'', hother, h⟩ := bind_eq_ok.1 h
  cases h
  exact ⟨condition, body, other, mid, mid', hself _ _ _ _ hcondition, block_sound hself hbody,
    otherwise_sound hself hother, rfl⟩

theorem caseValuesFrom_sound {acc values : List Node}
    (h : caseValuesFrom self bound acc ts = .ok values rest) :
    ∃ more, values = acc.reverse ++ more ∧ Grammar.CaseValues R ts more rest := by
  induction bound generalizing ts acc with
  | zero => simp [caseValuesFrom] at h
  | succ bound ih =>
    obtain ⟨value, mid, hvalue, h⟩ := bind_eq_ok.1 h
    obtain ⟨b, mid', hb, hrest⟩ := bind_eq_ok.1 h
    rcases skipIf_eq_ok.1 hb with ⟨rfl, comma, rfl, hcomma⟩ | ⟨rfl, rfl, hends⟩
    · obtain ⟨more, rfl, hmore⟩ := ih hrest
      exact ⟨value :: more, by simp,
        .more (hself _ _ _ _ hvalue) (Token.isSymbol_iff.1 hcomma) hmore⟩
    · cases hrest
      exact ⟨[value], by simp, .last (hself _ _ _ _ hvalue) hends⟩

theorem arms_sound {a a' : Arms} (h : arms self line bound a ts = .ok a' rest) :
    ∃ cases fallback, a'.cases = cases.reverse ++ a.cases ∧ a'.fallback = fallback.or a.fallback ∧
      Grammar.SwitchArms R ts (cases, fallback) rest := by
  induction bound generalizing ts a with
  | zero => simp [arms] at h
  | succ bound ih =>
    simp only [arms, skipWhile_bind, get_bind] at h
    cases hts : Grammar.pastSeparators ts with
    | nil => simp [hts] at h
    | cons word mid =>
      simp only [hts] at h
      split at h
      next hclose =>
        cases h
        exact ⟨[], none, rfl, rfl, .done hts (Token.isSymbol_iff.1 hclose)⟩
      next =>
        split at h
        next hcase =>
          simp only [set_bind] at h
          obtain ⟨values, mid₁, hvalues, h₁⟩ := bind_eq_ok.1 h
          obtain ⟨_, mid₂, hcolon, h₂⟩ := bind_eq_ok.1 h₁
          obtain ⟨body, mid₃, hbody, h₃⟩ := bind_eq_ok.1 h₂
          obtain ⟨colon, rfl, hopens⟩ := expectSymbol_eq_ok.1 hcolon
          obtain ⟨more, hmore, hlist⟩ := caseValuesFrom_sound hself hvalues
          obtain ⟨cases, fallback, hcases, hfallback, harms⟩ := ih h₃
          rw [← hmore.trans (List.nil_append more)] at hlist
          refine ⟨⟨values, body, word.line⟩ :: cases, fallback, by simp [hcases], hfallback, ?_⟩
          exact .case hts (Token.isName_iff.1 hcase) hlist hopens (statements_sound hself hbody)
            harms
        next =>
          split at h
          next hdefault =>
            simp only [set_bind] at h
            obtain ⟨_, mid₁, hcolon, h₁⟩ := bind_eq_ok.1 h
            obtain ⟨body, mid₂, hbody, h₂⟩ := bind_eq_ok.1 h₁
            obtain ⟨colon, rfl, hopens⟩ := expectSymbol_eq_ok.1 hcolon
            obtain ⟨cases, fallback, hcases, hfallback, harms⟩ := ih h₂
            refine ⟨cases, fallback.or (some body), hcases, by simp [hfallback], ?_⟩
            exact .fallback hts (Token.isName_iff.1 hdefault) hopens (statements_sound hself hbody)
              harms
          next => simp at h

theorem switch_sound {node : Node} (h : switch bound self line ts = .ok node rest) :
    Grammar.Switch R line ts node rest := by
  obtain ⟨subject, mid, hsubject, h⟩ := bind_eq_ok.1 h
  simp only [skipNewlines_bind] at h
  obtain ⟨_, mid', hopen, h⟩ := bind_eq_ok.1 h
  obtain ⟨⟨cases', fallback'⟩, mid'', harms, h⟩ := bind_eq_ok.1 h
  cases h
  obtain ⟨opening, hmid, hopening⟩ := expectSymbol_eq_ok.1 hopen
  obtain ⟨cases, fallback, rfl, rfl, hphrase⟩ := arms_sound hself harms
  exact ⟨subject, cases, fallback, opening, mid, mid', hself _ _ _ _ hsubject, hmid, hopening,
    hphrase, by simp⟩

/-! ### Loops -/

theorem whileLoop_sound {node : Node} (h : whileLoop bound self line ts = .ok node rest) :
    Grammar.While R line ts node rest := by
  obtain ⟨condition, mid, hcondition, h⟩ := bind_eq_ok.1 h
  obtain ⟨body, mid', hbody, h⟩ := bind_eq_ok.1 h
  cases h
  exact ⟨condition, body, mid, hself _ _ _ _ hcondition, block_sound hself hbody, rfl⟩

theorem rangeLoop_sound (closed : Bool) {name : String} {start node : Node} {mid : List Token}
    {dots : Token} (hstart : R (.run .statement) ts start (dots :: mid))
    (hdots : dots.kind = .symbol (if closed then "..=" else ".."))
    (h : rangeLoop bound self name start closed line mid = .ok node rest) :
    Grammar.LoopTail R name line ts node rest := by
  obtain ⟨limit, mid₁, hlimit, h₁⟩ := bind_eq_ok.1 h
  obtain ⟨b, mid₂, hb, h₂⟩ := bind_eq_ok.1 h₁
  rcases skipIf_eq_ok.1 hb with ⟨rfl, word, rfl, hword⟩ | ⟨rfl, rfl, hbare⟩
  · obtain ⟨step, mid₃, hstep, h₃⟩ := bind_eq_ok.1 h₂
    obtain ⟨body, mid₄, hbody, h₄⟩ := bind_eq_ok.1 h₃
    cases h₄
    obtain ⟨value, hvalue, rfl⟩ := map_eq_ok.1 hstep
    exact .range hstart hdots (hself _ _ _ _ hlimit)
      (.present (Token.isName_iff.1 hword) (hself _ _ _ _ hvalue)) (block_sound hself hbody)
  · obtain ⟨step, mid₃, hstep, h₃⟩ := bind_eq_ok.1 h₂
    obtain ⟨body, mid₄, hbody, h₄⟩ := bind_eq_ok.1 h₃
    cases h₄
    cases hstep
    exact .range hstart hdots (hself _ _ _ _ hlimit) (.absent hbare) (block_sound hself hbody)

theorem forLoop_sound {node : Node} (h : forLoop bound self line ts = .ok node rest) :
    Grammar.For R line ts node rest := by
  obtain ⟨name, mid, hname, h⟩ := bind_eq_ok.1 h
  obtain ⟨_, mid₁, hin, h₁⟩ := bind_eq_ok.1 h
  obtain ⟨start, mid₂, hstart, h₂⟩ := bind_eq_ok.1 h₁
  obtain ⟨b, mid₃, hb, h₃⟩ := bind_eq_ok.1 h₂
  obtain ⟨word, rfl, hword⟩ := expectWord_eq_ok.1 hin
  have hstart := hself _ _ _ _ hstart
  refine ⟨name, word, mid₁, identifier_eq_ok.1 hname, hword, ?_⟩
  rcases skipIf_eq_ok.1 hb with ⟨rfl, dots, rfl, hdots⟩ | ⟨rfl, rfl, -⟩
  · exact rangeLoop_sound hself true hstart (Token.isSymbol_iff.1 hdots) h₃
  · obtain ⟨b', mid₄, hb', h₄⟩ := bind_eq_ok.1 h₃
    rcases skipIf_eq_ok.1 hb' with ⟨rfl, dots, rfl, hdots⟩ | ⟨rfl, rfl, -⟩
    · exact rangeLoop_sound hself false hstart (Token.isSymbol_iff.1 hdots) h₄
    · obtain ⟨body, mid₅, hbody, h₅⟩ := bind_eq_ok.1 h₄
      cases h₅
      exact .each hstart (block_sound hself hbody)

/-! ### Statements -/

theorem giveBack_sound {node : Node} (h : giveBack self line ts = .ok node rest) :
    Grammar.GiveBack R line ts node rest := by
  simp only [giveBack, atStatementEnd_bind] at h
  split at h
  next hstop =>
    cases h
    exact .plain (by cases ts <;> simp_all [Grammar.Next])
  next hgo =>
    cases ts with
    | nil => simp at hgo
    | cons t ts =>
      obtain ⟨value, mid, hvalue, h⟩ := bind_eq_ok.1 h
      cases h
      exact .valued (by simpa using hgo) (hself _ _ _ _ hvalue)

/-- A construct that succeeds is one that ends in a block, or one that does not. -/
theorem construct_sound {word : String} {construct : Parser Node} {node : Node}
    (hword : construct? bound self word line ts = some construct)
    (h : construct ts = .ok node rest) :
    (∃ mid, Grammar.BlockConstruct R word line ts node mid ∧ Grammar.BlockClose mid rest) ∨
      ∃ mid, Grammar.PlainConstruct R word line ts node mid ∧ Grammar.Close mid rest := by
  unfold construct? at hword
  split at hword
  · cases hword
    obtain ⟨mid, hnode, hclose⟩ := closed_sound h
    exact .inr ⟨mid, .definition (variableDefinition_sound hself hnode), hclose⟩
  · split at hword
    next => cases hword
    next hnamed =>
      cases hword
      obtain ⟨mid, hnode, hclose⟩ := blockClosed_sound h
      refine .inl ⟨mid, .function (by simpa using hnamed) ?_, hclose⟩
      exact functionDefinition_sound hself hnode
  · cases hword
    obtain ⟨mid, hnode, hclose⟩ := blockClosed_sound h
    exact .inl ⟨mid, .conditional (conditional_sound hself hnode), hclose⟩
  · cases hword
    obtain ⟨mid, hnode, hclose⟩ := blockClosed_sound h
    exact .inl ⟨mid, .whileLoop (whileLoop_sound hself hnode), hclose⟩
  · cases hword
    obtain ⟨mid, hnode, hclose⟩ := blockClosed_sound h
    exact .inl ⟨mid, .forLoop (forLoop_sound hself hnode), hclose⟩
  · cases hword
    obtain ⟨mid, hnode, hclose⟩ := blockClosed_sound h
    exact .inl ⟨mid, .switch (switch_sound hself hnode), hclose⟩
  · cases hword
    obtain ⟨mid, hnode, hclose⟩ := closed_sound h
    cases hnode
    exact .inr ⟨_, .breakOut, hclose⟩
  · cases hword
    obtain ⟨mid, hnode, hclose⟩ := closed_sound h
    cases hnode
    exact .inr ⟨_, .continueOn, hclose⟩
  · cases hword
    obtain ⟨mid, hnode, hclose⟩ := closed_sound h
    cases hnode
    exact .inr ⟨_, .fallThrough, hclose⟩
  · cases hword
    obtain ⟨mid, hnode, hclose⟩ := closed_sound h
    exact .inr ⟨mid, .giveBack (giveBack_sound hself hnode), hclose⟩
  · cases hword

theorem statement_sound {node : Node} (h : statement bound self ts = .ok node rest) :
    Grammar.Statement R ts node rest := by
  cases ts with
  | nil => simp [statement] at h
  | cons t ts =>
    simp only [statement, get_bind] at h
    cases hword : construct? bound self (leadingWord t.kind) t.line ts with
    | some construct =>
      simp only [hword, set_bind] at h
      have hkind : t.kind = .name (leadingWord t.kind) := by
        cases hk : t.kind with
        | name text => rfl
        | _ => simp [hk, leadingWord, construct?] at hword
      rcases construct_sound hself hword h with ⟨mid, hnode, hclose⟩ | ⟨mid, hnode, hclose⟩
      · exact .blocked hkind hnode hclose
      · exact .plain hkind hnode hclose
    | none =>
      simp only [hword] at h
      obtain ⟨mid, hnode, hclose⟩ := closed_sound h
      exact .expression (construct_eq_none_iff.1 hword) (hself _ _ _ _ hnode) hclose

theorem program_sound {nodes : List Node} (h : program bound self ts = .ok nodes rest) :
    Grammar.Program R ts nodes rest := by
  obtain ⟨nodes', mid, hnodes, h⟩ := bind_eq_ok.1 h
  have hphrase := statements_sound hself hnodes
  simp only [get_bind] at h
  cases mid with
  | nil =>
    cases h
    exact ⟨hphrase, by simp [Grammar.Next]⟩
  | cons t mid =>
    simp only at h
    split at h
    next hfinish =>
      cases h
      exact ⟨hphrase, by simpa [Grammar.Next] using hfinish⟩
    next => simp at h

end

/-! ### Closing the recursion -/

/-- A goal that is answered with `n` levels is a phrase of `n` levels. -/
theorem level_sound (n : Nat) :
    ∀ goal ts node rest, level n goal ts = .ok node rest → Grammar.Level n goal ts node rest := by
  induction n with
  | zero =>
    intro goal ts node rest h
    simp [level] at h
  | succ n ih =>
    intro goal ts node rest h
    cases goal with
    | run mode => exact run_sound ih h
    | statement => exact statement_sound ih h
    | conditional line => exact conditional_sound ih h

end PairScript.Parser

namespace PairScript

/-- **An accepted list of tokens is a program of the grammar.** -/
theorem parse_sound {tokens : List Token} {nodes : List Node} (h : parse tokens = .ok nodes) :
    ∃ n rest, Grammar.Program (Grammar.Level n) tokens nodes rest := by
  unfold parse at h
  cases hp : Entry.program.parse tokens with
  | ok nodes' rest =>
    simp only [hp, Except.ok.injEq] at h
    subst h
    exact ⟨_, rest, Parser.program_sound (Parser.level_sound _) hp⟩
  | error halt rest => simp [hp] at h

end PairScript
