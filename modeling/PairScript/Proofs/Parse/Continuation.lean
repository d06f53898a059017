import PairScript.Proofs.Parse.Complete
import PairScript.Proofs.Parse.Fork
import PairScript.Token.Tokenize

/-!
# Lines that end in an operator

A run of a statement ends with its line, unless an operand is due there: so a line that ends in an
operator continues.  The one exception is a plus sign that the run begins with.  It stands for
nothing, and after it the run is as if it had not begun yet.

* `Piece` is what one pass over a run takes in, and `Pieces` what several take in.  They say which
  tokens of a run are its operators, and which ones belong to an operand or an index.
* Collecting a run goes on from where its pieces end (`Pieces.collect`), and the pieces are the same
  whatever follows the token after them (`Pieces.forks`).
* `Items.break_after`: what an operator is followed by may start on a new line.
* `line_continues_after_operator` puts these together.
-/

namespace PairScript

namespace Grammar

open PairScript.Parser (Collected)

variable {R : Goal → Phrase Node} {mode : Mode} {c c' c'' : Collected} {t : Token}
  {ts ts' mid rest : List Token}

/-! ### Pieces of a run -/

/-- What one pass over a run takes in, and how far the run has been collected before and after. -/
inductive Piece (R : Goal → Phrase Node) (mode : Mode) :
    Collected → List Token → Collected → List Token → Prop
  | lineBreak {items : List Item} {t : Token} {ts : List Token} (kind : t.kind = .newline)
      (skips : mode ≠ .statement ∨ items ≠ []) :
      Piece R mode ⟨true, items⟩ (t :: ts) ⟨true, items⟩ ts
  | plus {items : List Item} {t : Token} {ts : List Token} (kind : t.kind = .symbol "+") :
      Piece R mode ⟨true, items⟩ (t :: ts) ⟨true, items⟩ ts
  | before {items : List Item} {t : Token} {ts : List Token} {text name : String}
      (kind : t.kind = .symbol text) (operator : Parser.prefixName? text = some name)
      (meaning : name ≠ "+") :
      Piece R mode ⟨true, items⟩ (t :: ts) ⟨true, .operator name .before t.line :: items⟩ ts
  | operand {items : List Item} {ts mid : List Token} {node : Node}
      (operand : Operand R ts node mid) :
      Piece R mode ⟨true, items⟩ ts ⟨false, .operand node :: items⟩ mid
  | ignored {items : List Item} {t : Token} {ts : List Token} (kind : t.kind = .newline)
      (skips : mode ≠ .statement) : Piece R mode ⟨false, items⟩ (t :: ts) ⟨false, items⟩ ts
  | after {items : List Item} {t : Token} {ts : List Token} {text : String}
      (kind : t.kind = .symbol text) (operator : text = "++" ∨ text = "--") :
      Piece R mode ⟨false, items⟩ (t :: ts) ⟨false, .operator text .after t.line :: items⟩ ts
  | index {items : List Item} {t close : Token} {ts mid : List Token} {index : Node}
      (kind : t.kind = .symbol "[") (run : R (.run .nested) ts index (close :: mid))
      (closes : close.kind = .symbol "]") :
      Piece R mode ⟨false, items⟩ (t :: ts)
        ⟨false, .operand index :: .operator "[" .between t.line :: items⟩ mid
  | between {items : List Item} {t : Token} {ts : List Token} {text : String}
      (kind : t.kind = .symbol text) (operator : Parser.symbolContinuation mode text = .between) :
      Piece R mode ⟨false, items⟩ (t :: ts) ⟨true, .operator text .between t.line :: items⟩ ts

/-- What some passes over a run take in, one after the other. -/
inductive Pieces (R : Goal → Phrase Node) (mode : Mode) :
    Collected → List Token → Collected → List Token → Prop
  | none {c : Collected} {ts : List Token} : Pieces R mode c ts c ts
  | more {c c' c'' : Collected} {ts mid rest : List Token} (piece : Piece R mode c ts c' mid)
      (others : Pieces R mode c' mid c'' rest) : Pieces R mode c ts c'' rest

theorem Piece.takes (hR : ∀ goal ts node rest, R goal ts node rest → Takes ts rest)
    (h : Piece R mode c ts c' rest) : Takes ts rest := by
  cases h with
  | operand operand => exact operand.takes hR
  | index _ run _ =>
    exact takes_cons ((hR _ _ _ _ run).trans (takes_cons (List.suffix_refl rest))).1
  | lineBreak | plus | before | ignored | after | between =>
    exact takes_cons (List.suffix_refl rest)

theorem Pieces.suffix (hR : ∀ goal ts node rest, R goal ts node rest → Takes ts rest)
    (h : Pieces R mode c ts c' rest) : rest <:+ ts := by
  induction h with
  | none => exact List.suffix_refl _
  | more piece _ ih => exact ih.trans (piece.takes hR).1

/-- Only an operand is followed by a place for an operator, so an item stands before that place. -/
theorem Piece.ready (h : Piece R mode c ts c' rest) (hc : c.operandDue = false → c.items ≠ []) :
    c'.operandDue = false → c'.items ≠ [] := by
  cases h with
  | ignored => exact hc
  | lineBreak | plus | before | between => exact nofun
  | operand | after | index => exact fun _ => List.cons_ne_nil _ _

theorem Pieces.ready (h : Pieces R mode c ts c' rest)
    (hc : c.operandDue = false → c.items ≠ []) : c'.operandDue = false → c'.items ≠ [] := by
  induction h with
  | none => exact hc
  | more piece _ ih => exact ih (piece.ready hc)

/-- The items of a run are read piece by piece. -/
theorem Items.pieces {due started : Bool} {items before : List Item}
    (h : Items R mode due started ts items rest) (hbefore : started = !before.isEmpty) :
    Pieces R mode ⟨due, before⟩ ts ⟨false, items.reverse ++ before⟩ rest := by
  induction h generalizing before with
  | done _ => exact .none
  | lineBreak kind skips _ ih =>
    refine .more (.lineBreak kind (skips.imp_right fun hstarted => ?_)) (ih hbefore)
    simpa [hstarted] using hbefore
  | plus kind _ ih => exact .more (.plus kind) (ih hbefore)
  | before kind operator meaning _ ih =>
    simpa using Pieces.more (.before kind operator meaning) (ih rfl)
  | operand operand _ ih => simpa using Pieces.more (.operand operand) (ih rfl)
  | ignored kind skips _ ih => exact .more (.ignored kind skips) (ih hbefore)
  | after kind operator _ ih => simpa using Pieces.more (.after kind operator) (ih rfl)
  | index kind run closes _ ih => simpa using Pieces.more (.index kind run closes) (ih rfl)
  | between kind operator _ ih => simpa using Pieces.more (.between kind operator) (ih rfl)

/-! ### Pieces before a fork -/

section

variable {pivot : Token} {u v : List Token} (hpivot : Parser.isSeparator pivot = false)
  (hR : ∀ goal ts node rest, R goal ts node rest → Takes ts rest)
  (hlocal : ∀ goal, Local pivot u v (R goal))
include hpivot hR hlocal

theorem Piece.forks (h : Piece R mode c ts c' rest) (hj : Forked pivot u v ts ts')
    (hu : u.length < rest.length) :
    ∃ rest', Forked pivot u v rest rest' ∧ Piece R mode c ts' c' rest' := by
  cases h with
  | operand operand =>
    obtain ⟨rest', hrest, hoperand⟩ := Operand.forks hpivot hR hlocal operand hj hu
    exact ⟨rest', hrest, .operand hoperand⟩
  | index kind run closes =>
    have hclose := Nat.lt_succ_of_lt hu
    obtain ⟨ts₁, rfl, hj₁⟩ := hj.uncons ((hR _ _ _ _ run).unread hclose)
    obtain ⟨_, hforked, hrun⟩ := hlocal _ run hj₁ hclose
    obtain ⟨rest', rfl, hrest⟩ := hforked.uncons hu
    exact ⟨rest', hrest, .index kind hrun closes⟩
  | lineBreak kind skips =>
    obtain ⟨rest', rfl, hrest⟩ := hj.uncons hu
    exact ⟨rest', hrest, .lineBreak kind skips⟩
  | plus kind =>
    obtain ⟨rest', rfl, hrest⟩ := hj.uncons hu
    exact ⟨rest', hrest, .plus kind⟩
  | before kind operator meaning =>
    obtain ⟨rest', rfl, hrest⟩ := hj.uncons hu
    exact ⟨rest', hrest, .before kind operator meaning⟩
  | ignored kind skips =>
    obtain ⟨rest', rfl, hrest⟩ := hj.uncons hu
    exact ⟨rest', hrest, .ignored kind skips⟩
  | after kind operator =>
    obtain ⟨rest', rfl, hrest⟩ := hj.uncons hu
    exact ⟨rest', hrest, .after kind operator⟩
  | between kind operator =>
    obtain ⟨rest', rfl, hrest⟩ := hj.uncons hu
    exact ⟨rest', hrest, .between kind operator⟩

theorem Pieces.forks (h : Pieces R mode c ts c' rest) (hj : Forked pivot u v ts ts')
    (hu : u.length < rest.length) :
    ∃ rest', Forked pivot u v rest rest' ∧ Pieces R mode c ts' c' rest' := by
  induction h generalizing ts' with
  | none => exact ⟨ts', hj, .none⟩
  | more piece others ih =>
    obtain ⟨mid', hmid, hpiece⟩ :=
      piece.forks hpivot hR hlocal hj (unread_of_suffix (others.suffix hR) hu)
    obtain ⟨rest', hrest, hothers⟩ := ih hmid hu
    exact ⟨rest', hrest, .more hpiece hothers⟩

end

/-! ### Collecting -/

theorem bind_of_ok {α β : Type} {p : Parser α} {f : α → Parser β} {a : α}
    (h : p ts = .ok a mid) : (p >>= f) ts = f a mid := by
  show EStateM.bind p f ts = f a mid
  simp only [EStateM.bind, h]

section

open PairScript.Parser

variable {self : Self} {n bound : Nat}
  (htakes : ∀ goal ts node rest, R goal ts node rest → Takes ts rest)
  (hself : ∀ goal ts node rest, R goal ts node rest → 2 * ts.length + goal.levels ≤ n →
    self goal ts = .ok node rest)
include htakes hself

/-- One pass over a run takes in one piece of it. -/
theorem Piece.collect (h : Piece R mode c ts c' mid) (hn : 2 * ts.length ≤ n)
    (hbound : ts.length ≤ bound) :
    Parser.collect self mode (bound + 1) c ts = Parser.collect self mode bound c' mid := by
  cases h with
  | @lineBreak items t _ kind skips =>
    have hskips : (t.isNewline && (mode != .statement || !items.isEmpty)) = true := by
      rw [Token.isNewline_iff.2 kind, Bool.true_and]
      simpa using skips
    simp only [Parser.collect, get_bind, if_true, hskips, set_bind]
  | @plus items t _ kind =>
    have hname : prefixOperator? t = some "+" := by rw [prefixOperator?, kind]; rfl
    simp only [Parser.collect, get_bind, if_true, isNewline_eq_false kind (by simp), Bool.false_and,
      Bool.false_eq_true, if_false, hname, set_bind, beq_self_eq_true]
  | @before items t _ text name kind operator meaning =>
    have hname : prefixOperator? t = some name := by rw [prefixOperator?, kind, ← operator]
    simp only [Parser.collect, get_bind, if_true, isNewline_eq_false kind (by simp), Bool.false_and,
      Bool.false_eq_true, if_false, hname, set_bind, beq_eq_false_iff_ne.2 meaning]
  | @operand items _ _ node operand =>
    have hoperand : Parser.operand bound self items.isEmpty ts = .ok node mid :=
      operand_complete htakes hself operand hn hbound
    obtain ⟨t, ts, rfl, hnewline, hname⟩ := operand_starts operand
    simp only [Parser.collect, get_bind, if_true, hnewline, Bool.false_and, Bool.false_eq_true,
      if_false, hname]
    exact bind_of_ok hoperand
  | @ignored items t _ kind skips =>
    have hignore : continuation mode t.kind = .ignore := by simp [continuation, kind, skips]
    simp only [Parser.collect, get_bind, Bool.false_eq_true, if_false, hignore, set_bind]
  | @after items t _ text kind operator =>
    have hafter : continuation mode t.kind = .after := by
      rw [kind]
      exact symbolContinuation_of_after operator
    simp only [Parser.collect, get_bind, Bool.false_eq_true, if_false, hafter, set_bind]
    rw [kind, symbolText]
  | @index items t close ts _ index kind run closes =>
    rw [List.length_cons] at hn
    have hindex : continuation mode t.kind = .index := by
      rw [kind]
      cases mode <;> rfl
    have hclose : expectSymbol "]" (close :: mid) = .ok () mid :=
      expectSymbol_eq_ok.2 ⟨close, rfl, closes⟩
    simp only [Parser.collect, get_bind, Bool.false_eq_true, if_false, hindex, set_bind]
    rw [bind_of_ok (below_complete hself run (by omega)), bind_of_ok hclose, kind, symbolText]
  | @between items t _ text kind operator =>
    have hbetween : continuation mode t.kind = .between := by rw [kind, ← operator]; rfl
    simp only [Parser.collect, get_bind, Bool.false_eq_true, if_false, hbetween, set_bind]
    rw [kind, symbolText]

/-- Collecting goes on from where the pieces end, with a bound that is still enough. -/
theorem Pieces.collect (h : Pieces R mode c ts c' rest) (hn : 2 * ts.length ≤ n)
    (hbound : ts.length < bound) : ∃ bound', rest.length < bound' ∧
      Parser.collect self mode bound c ts = Parser.collect self mode bound' c' rest := by
  induction h generalizing bound with
  | none => exact ⟨bound, hbound, rfl⟩
  | more piece others ih =>
    have htaken := (piece.takes htakes).2
    cases bound with
    | zero => omega
    | succ bound =>
      obtain ⟨bound', hbound', hothers⟩ := @ih bound (by omega) (by omega)
      refine ⟨bound', hbound', ?_⟩
      rw [piece.collect htakes hself hn (by omega), hothers]

end

/-! ### After an operator -/

/-- Whether a token is an operator of a run of a statement: one before its operand if an operand is
due, and else one between operands or the bracket of an index. -/
def isOperator (operandDue : Bool) (t : Token) : Bool :=
  if operandDue then (Parser.prefixOperator? t).isSome
  else Parser.continuation .statement t.kind == .between ||
    Parser.continuation .statement t.kind == .index

theorem not_separator_of_isOperator {due : Bool} (h : isOperator due t = true) :
    Parser.isSeparator t = false := by
  cases hkind : t.kind with
  | newline | finish | int | float | str | name =>
    simp [isOperator, Parser.prefixOperator?, Parser.continuation, hkind] at h
  | symbol text =>
    have htext : text ≠ ";" := by
      rintro rfl
      simp [isOperator, Parser.prefixOperator?, Parser.prefixName?, Parser.continuation,
        Parser.symbolContinuation, Parser.stoppers, hkind] at h
    simp [Parser.isSeparator, Token.isNewline, Token.isSymbol, hkind, htext]

/-- Line breaks may stand before a run between brackets. -/
theorem Level.after_break {n : Nat} {node : Node} (ht : t.kind = .newline)
    (hmode : mode ≠ .statement) (h : Level n (.run mode) ts node rest) :
    Level n (.run mode) (t :: ts) node rest := by
  cases n with
  | zero => exact h
  | succ n =>
    obtain ⟨items, line, hitems, htree⟩ := h
    exact ⟨items, line, .lineBreak ht (.inl hmode) hitems, htree⟩

/-- **What follows an operator may start on a new line**, unless the operator is a plus sign that
the run begins with. -/
theorem Items.break_after {due started : Bool} {items : List Item} {op lineBreak : Token}
    (hnested : ∀ {node rest}, R (.run .nested) ts node rest →
      R (.run .nested) (lineBreak :: ts) node rest)
    (hop : isOperator due op = true) (hplus : started = true ∨ op.kind ≠ .symbol "+")
    (hbreak : lineBreak.kind = .newline)
    (h : Items R .statement due started (op :: ts) items rest) :
    Items R .statement due started (op :: lineBreak :: ts) items rest := by
  have hnewline := isNewline_of_not_separator (not_separator_of_isOperator hop)
  cases h with
  | done stops =>
    have hstop := stops op rfl
    simp [isOperator, hstop] at hop
  | lineBreak kind _ _ | ignored kind _ _ =>
    rw [Token.isNewline_iff.2 kind] at hnewline
    cases hnewline
  | plus kind others =>
    have hstarted := hplus.resolve_right (not_not_intro kind)
    exact .plus kind (.lineBreak hbreak (.inr hstarted) others)
  | before kind operator meaning others =>
    exact .before kind operator meaning (.lineBreak hbreak (.inr rfl) others)
  | operand operand _ =>
    obtain ⟨_, _, ⟨⟩, -, hname⟩ := Parser.operand_starts operand
    simp [isOperator, hname] at hop
  | after kind operator _ =>
    have hafter : Parser.symbolContinuation .statement _ = .after :=
      Parser.symbolContinuation_of_after operator
    simp [isOperator, Parser.continuation, kind, hafter] at hop
  | index kind run closes others => exact .index kind (hnested run) closes others
  | between kind operator others =>
    exact .between kind operator (.lineBreak hbreak (.inr rfl) others)

end Grammar

namespace Parser

variable {self : Self} {mode : Mode} {bound : Nat} {ts rest : List Token} {node : Node}

/-- A run is the tree of what has been collected at its end. -/
theorem run_eq_ok : run bound self mode ts = .ok node rest ↔
    ∃ c line, collect self mode bound ⟨true, []⟩ ts = .ok c rest ∧ c.operandDue = false ∧
      Item.buildTree (Item.postOrder c.items.reverse) line = .ok node := by
  rw [run_eq_finishRun, currentLine_bind]
  constructor
  · intro h
    obtain ⟨c, mid, hc, h⟩ := bind_eq_ok.1 h
    unfold finishRun at h
    split at h
    next => simp at h
    next hdue =>
      obtain ⟨htree, rfl⟩ := ofExcept_eq_ok.1 h
      exact ⟨c, _, hc, by simpa using hdue, htree⟩
  · rintro ⟨c, line, hc, hdue, htree⟩
    refine bind_eq_ok.2 ⟨c, rest, hc, ?_⟩
    simp only [finishRun, hdue, Bool.false_eq_true, if_false]
    exact ofExcept_eq_ok.2 ⟨buildTree_eq_ok.2 (buildTree_eq_ok.1 htree), rfl⟩

theorem run_of_collect_error {halt : Halt SyntaxCause}
    (h : collect self mode bound ⟨true, []⟩ ts = .error halt rest) :
    run bound self mode ts = .error halt rest := by
  simp only [run, currentLine_bind]
  show EStateM.bind (collect self mode bound ⟨true, []⟩) _ ts = _
  simp only [EStateM.bind, h]

/-- An expression is read as a run with one level less than the tokens allow. -/
theorem expression_eq_ok {nodes : List Node} : Entry.expression.parse ts = .ok nodes rest ↔
    ∃ node, run (2 * ts.length + 3) (level (2 * ts.length + 3)) .statement ts = .ok node rest ∧
      [node] = nodes :=
  map_eq_ok

/-- A plus sign that a run begins with leaves the run where it was, at its first token. -/
theorem collect_plus_break {op lineBreak : Token} (hop : op.kind = .symbol "+")
    (hbreak : lineBreak.kind = .newline) (hbound : 2 ≤ bound) :
    collect self .statement bound ⟨true, []⟩ (op :: lineBreak :: ts) =
      .error (.fault ⟨.expectedExpression, lineBreak.line⟩) ts := by
  obtain ⟨bound, rfl⟩ : ∃ b, bound = b + 2 := ⟨bound - 2, by omega⟩
  have hname : prefixOperator? op = some "+" := by rw [prefixOperator?, hop]; rfl
  have hnone : prefixOperator? lineBreak = none := by rw [prefixOperator?, hbreak]
  have hoperand : operand bound self true (lineBreak :: ts) =
      .error (.fault ⟨.expectedExpression, lineBreak.line⟩) ts := by
    simp only [operand, get_bind, set_bind, hbreak, if_true]
    rfl
  have hstay :
      (lineBreak.isNewline && (Mode.statement != .statement || !([] : List Item).isEmpty)) = false :=
    by simp
  simp only [collect, get_bind, if_true, isNewline_eq_false hop (by simp), Bool.false_and,
    Bool.false_eq_true, if_false, hname, set_bind, beq_self_eq_true, hstay, hnone]
  show EStateM.bind (operand bound self true) _ _ = _
  simp only [EStateM.bind, hoperand]

end Parser

section

open PairScript.Grammar PairScript.Parser

variable {n : Nat} {front after ts mid rest : List Token} {op lineBreak : Token}
  {nodes : List Node} {c : Collected}

/-- **An accepted expression is read in pieces**, the last of which is an operand or an operator
after one. -/
theorem accepted_in_pieces (hparse : Entry.expression.parse ts = .ok nodes rest) :
    ∃ n c node line, Pieces (Level n) .statement ⟨true, []⟩ ts c rest ∧ c.operandDue = false ∧
      Item.buildTree (Item.postOrder c.items.reverse) line = .ok node ∧ nodes = [node] := by
  obtain ⟨node, hrun, hnodes⟩ := expression_eq_ok.1 hparse
  obtain ⟨items, line, hitems, htree⟩ := run_sound (level_sound _) hrun
  refine ⟨2 * ts.length + 3, ⟨false, items.reverse⟩, node, line, ?_, rfl, ?_, hnodes.symm⟩
  · have hpieces : Pieces (Level (2 * ts.length + 3)) .statement ⟨true, []⟩ ts
        ⟨false, items.reverse ++ []⟩ rest := hitems.pieces rfl
    rwa [List.append_nil] at hpieces
  · rwa [List.reverse_reverse]

/-- Reading an expression goes on from where some of its pieces end. -/
theorem expression_from_pieces (h : Pieces (Level n) .statement ⟨true, []⟩ ts c mid) :
    ∃ bound, mid.length < bound ∧
      collect (level (2 * ts.length + 3)) .statement (2 * ts.length + 3) ⟨true, []⟩ ts =
        collect (level (2 * ts.length + 3)) .statement bound c mid :=
  h.collect (Level.takes n) (fun _ _ _ _ h hn => level_complete (2 * ts.length + 3) n _ _ _ _ h hn)
    (by omega) (by omega)

/-- The pieces before an operator are the same with a line break after it. -/
theorem pieces_before_break (hop : isOperator c.operandDue op = true)
    (h : Pieces (Level n) .statement ⟨true, []⟩ (front ++ op :: after) c (op :: after))
    (lineBreak : Token) :
    Pieces (Level n) .statement ⟨true, []⟩ (front ++ op :: lineBreak :: after) c
      (op :: lineBreak :: after) := by
  have hseparator := not_separator_of_isOperator hop
  have hforked : Forked op after (lineBreak :: after) (front ++ op :: after)
      (front ++ op :: lineBreak :: after) := forked_append front
  obtain ⟨_, hfork, hpieces⟩ :=
    h.forks hseparator (Level.takes n) (Level.forks hseparator n) hforked (Nat.lt_succ_self _)
  rwa [hfork.at_pivot] at hpieces

theorem accepted_with_break
    (hparse : Entry.expression.parse (front ++ op :: after) = .ok nodes rest)
    (hpieces : Pieces (Level n) .statement ⟨true, []⟩ (front ++ op :: after) c (op :: after))
    (hop : isOperator c.operandDue op = true) (hplus : c.items ≠ [] ∨ op.kind ≠ .symbol "+")
    (hbreak : lineBreak.kind = .newline) :
    Entry.expression.parse (front ++ op :: lineBreak :: after) = .ok nodes rest := by
  obtain ⟨node, hrun, hnodes⟩ := expression_eq_ok.1 hparse
  obtain ⟨c', line, hcollect, hdue, htree⟩ := run_eq_ok.1 hrun
  -- what is left at the operator are the items after it ...
  obtain ⟨bound, -, hfrom⟩ := expression_from_pieces hpieces
  rw [hfrom] at hcollect
  obtain ⟨items, hitems, hphrase⟩ :=
    collect_sound (level_sound _) (hpieces.ready nofun) hcollect hdue
  -- ... and they are the same with the line break
  have hstarted : (!c.items.isEmpty) = true ∨ op.kind ≠ .symbol "+" :=
    hplus.imp_left fun hne => by simpa using hne
  have hphrase' := hphrase.break_after (Level.after_break hbreak nofun) hop hstarted hbreak
  obtain ⟨bound', hbound', hfrom'⟩ :=
    expression_from_pieces (pieces_before_break hop hpieces lineBreak)
  have hcollect' := collect_complete (Level.takes _)
    (fun _ _ _ _ h hn => level_complete (2 * (front ++ op :: lineBreak :: after).length + 3) _ _ _ _
      _ h hn) hphrase' (by simp; omega) hbound' rfl
  rw [← hfrom', ← hitems, ← hdue] at hcollect'
  exact expression_eq_ok.2 ⟨node, run_eq_ok.2 ⟨c', line, hcollect', hdue, htree⟩, hnodes⟩

theorem refused_with_break
    (hpieces : Pieces (Level n) .statement ⟨true, []⟩ (front ++ op :: after) c (op :: after))
    (hop : isOperator c.operandDue op = true) (hitems : c.items = [])
    (hplus : op.kind = .symbol "+") (hbreak : lineBreak.kind = .newline) :
    Entry.expression.parse (front ++ op :: lineBreak :: after) =
      .error (.fault ⟨.expectedExpression, lineBreak.line⟩) after := by
  obtain ⟨bound, hbound, hfrom⟩ :=
    expression_from_pieces (pieces_before_break hop hpieces lineBreak)
  rw [List.length_cons, List.length_cons] at hbound
  have hdue : c.operandDue = true := by
    rw [← Bool.not_eq_false]
    exact fun hdue => hpieces.ready nofun hdue hitems
  obtain ⟨due, before⟩ := c
  obtain rfl : due = true := hdue
  obtain rfl : before = [] := hitems
  rw [collect_plus_break hplus hbreak (by omega)] at hfrom
  show EStateM.map List.singleton (run (2 * (front ++ op :: lineBreak :: after).length + 3)
    (level (2 * (front ++ op :: lineBreak :: after).length + 3)) .statement) _ = _
  rw [EStateM.map, run_of_collect_error hfrom]

end

/-- **A line that ends in an operator continues.**  Let some tokens be accepted as an expression of
a statement, and let `op` be one of its operators, that is, let it stand where some pieces of the
run end and an operator follows.  With a line break after `op` the tokens are accepted too, as the
same tree, and the same tokens are left.  The exception is a plus sign without an item before it:
the line break after it is where an expression was expected. -/
theorem line_continues_after_operator {n : Nat} {front after rest : List Token}
    {op lineBreak : Token} {nodes : List Node} {c : Parser.Collected}
    (hparse : Entry.expression.parse (front ++ op :: after) = .ok nodes rest)
    (hpieces : Grammar.Pieces (Grammar.Level n) .statement ⟨true, []⟩ (front ++ op :: after) c
      (op :: after))
    (hop : Grammar.isOperator c.operandDue op = true) (hbreak : lineBreak.kind = .newline) :
    (c.items ≠ [] ∨ op.kind ≠ .symbol "+" →
        Entry.expression.parse (front ++ op :: lineBreak :: after) = .ok nodes rest) ∧
      (c.items = [] → op.kind = .symbol "+" →
        Entry.expression.parse (front ++ op :: lineBreak :: after) =
          .error (.fault ⟨.expectedExpression, lineBreak.line⟩) after) := by
  constructor
  · intro hplus
    exact accepted_with_break hparse hpieces hop hplus hbreak
  · intro hitems hplus
    exact refused_with_break hpieces hop hitems hplus hbreak

/-- The sum of `-a` and 1, in front of what follows the plus sign. -/
def negatedSum (tail : List Token) : List Token :=
  [⟨.symbol "-", 1⟩, ⟨.name "a", 1⟩] ++ ⟨.symbol "+", 1⟩ :: tail

theorem negatedSum_continues :
    Entry.expression.parse (negatedSum [⟨.newline, 1⟩, ⟨.int 1, 2⟩, ⟨.finish, 2⟩]) =
      .ok [.operation "+" [.operation "_-" [.reference "a" 1] 1, .constant (.int 1) 2] 1]
        [⟨.finish, 2⟩] := by
  have hparse : Entry.expression.parse (negatedSum [⟨.int 1, 2⟩, ⟨.finish, 2⟩]) =
      .ok [.operation "+" [.operation "_-" [.reference "a" 1] 1, .constant (.int 1) 2] 1]
        [⟨.finish, 2⟩] := rfl
  have hpieces : Grammar.Pieces (Grammar.Level 1) .statement ⟨true, []⟩
      (negatedSum [⟨.int 1, 2⟩, ⟨.finish, 2⟩])
      ⟨false, [.operand (.reference "a" 1), .operator "_-" .before 1]⟩
      [⟨.symbol "+", 1⟩, ⟨.int 1, 2⟩, ⟨.finish, 2⟩] :=
    .more (.before rfl rfl (by decide))
      (.more (.operand (.reference rfl rfl (by simp [Grammar.NotNext, Token.isSymbol]))) .none)
  exact (line_continues_after_operator hparse hpieces rfl rfl).1 (.inl (List.cons_ne_nil _ _))

/-- **A line that ends in a plus sign of its own does not continue**, although one that ends in a
minus sign does. -/
theorem lone_plus_does_not_continue :
    tokenize "+\n1" = .ok [⟨.symbol "+", 1⟩, ⟨.newline, 1⟩, ⟨.int 1, 2⟩, ⟨.finish, 2⟩] ∧
      Entry.expression.parse [⟨.symbol "+", 1⟩, ⟨.int 1, 2⟩, ⟨.finish, 2⟩] =
        .ok [.constant (.int 1) 2] [⟨.finish, 2⟩] ∧
      Entry.expression.parse [⟨.symbol "+", 1⟩, ⟨.newline, 1⟩, ⟨.int 1, 2⟩, ⟨.finish, 2⟩] =
        .error (.fault ⟨.expectedExpression, 1⟩) [⟨.int 1, 2⟩, ⟨.finish, 2⟩] ∧
      Entry.expression.parse [⟨.symbol "-", 1⟩, ⟨.newline, 1⟩, ⟨.int 1, 2⟩, ⟨.finish, 2⟩] =
        .ok [.operation "_-" [.constant (.int 1) 2] 1] [⟨.finish, 2⟩] :=
  ⟨rfl, rfl, rfl, rfl⟩

end PairScript
