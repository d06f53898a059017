import PairScript.Proofs.Parse.Complete
import PairScript.Proofs.Syntax.Occurs
import PairScript.Token.Tokenize

/-!
# Parsing loses no code but overwritten defaults

Every literal and every name of an accepted program is left in its tree.  There is one exception: a
switch may have several `default` clauses, of which the last counts, and what stands in the others
is read and dropped.

A token may occur many times in a program, so the statements of this module are about places.  A
place is a list of tokens, those from a token on to the end of the text.  `Retains found ts rest`
says that every place from `ts` up to `rest` is found or `Overwritten`.  It composes along the
tokens, and there is one lemma about it for every phrase of the grammar.
-/

namespace PairScript

/-- The place `s` is in the body of a `default` clause, and the same switch has another one after
it. -/
inductive Overwritten (tokens s : List Token) : Prop
  | intro (line : Nat) {word colon : Token} {mid after rest : List Token} {body kept : List Node}
      {cases : List (Arm Node)} (written : word :: colon :: mid <:+ tokens)
      (kind : word.kind = .name "default") (opens : colon.kind = .symbol ":")
      (block : Entry.statements.parse mid = .ok body after) (inside : s <:+ mid)
      (before : after.length < s.length)
      (others : Parser.arms (Parser.level (Parser.fuel after)) line (Parser.fuel after) ⟨[], none⟩
        after = .ok ⟨cases, some kept⟩ rest) : Overwritten tokens s

theorem Overwritten.mono {tokens tokens' s : List Token} (h : Overwritten tokens s)
    (hsuffix : tokens <:+ tokens') : Overwritten tokens' s := by
  cases h with
  | intro line written kind opens block inside before others =>
    exact .intro line (written.trans hsuffix) kind opens block inside before others

namespace Grammar

open PairScript.Parser (FunctionParts)

/-- What is read between `ts` and `rest` is found where it says something, or overwritten. -/
structure Retains (found : Token → Prop) (ts rest : List Token) : Prop where
  suffix : rest <:+ ts
  kept : ∀ t tail, t :: tail <:+ ts → t.isCode = true →
    t :: tail <:+ rest ∨ found t ∨ Overwritten ts (t :: tail)

variable {found found' : Token → Prop} {ts mid rest : List Token} {t : Token}

/-! ### Keeping tokens -/

namespace Retains

theorem refl (found : Token → Prop) (ts : List Token) : Retains found ts ts :=
  ⟨List.suffix_refl ts, fun _ _ hplace _ => .inl hplace⟩

theorem mono (h : Retains found' ts rest) (hfound : ∀ t, found' t → found t) :
    Retains found ts rest :=
  ⟨h.suffix, fun t tail hplace hcode =>
    (h.kept t tail hplace hcode).imp_right (Or.imp_left (hfound t))⟩

theorem trans (h₁ : Retains found ts mid) (h₂ : Retains found mid rest) :
    Retains found ts rest := by
  refine ⟨h₂.suffix.trans h₁.suffix, fun t tail hplace hcode => ?_⟩
  rcases h₁.kept t tail hplace hcode with hmid | hfirst
  · exact (h₂.kept t tail hmid hcode).imp_right (Or.imp_right (·.mono h₁.suffix))
  · exact .inr hfirst

/-- A part of a phrase, and then others. -/
theorem part (h₁ : Retains found' ts mid) (hfound : ∀ t, found' t → found t)
    (h₂ : Retains found mid rest) : Retains found ts rest :=
  (h₁.mono hfound).trans h₂

/-- One token, and then others. -/
theorem token (hfirst : t.isCode = true → found t) (h : Retains found ts rest) :
    Retains found (t :: ts) rest := by
  refine trans ⟨List.suffix_cons t ts, fun t' tail hplace hcode => ?_⟩ h
  rcases List.suffix_cons_iff.1 hplace with heq | hplace
  · obtain ⟨rfl, rfl⟩ := List.cons.inj heq
    exact .inr (.inl (hfirst hcode))
  · exact .inl hplace

/-- One token that says nothing, and then others. -/
theorem skip (hfirst : t.isCode = false) (h : Retains found ts rest) :
    Retains found (t :: ts) rest :=
  token (fun hcode => absurd hcode (by simp [hfirst])) h

theorem symbol {s : String} (hkind : t.kind = .symbol s) (h : Retains found ts rest) :
    Retains found (t :: ts) rest :=
  skip (isCode_symbol hkind) h

theorem keyword {word : String} (hkind : t.kind = .name word) (hword : isKeyword word = true)
    (h : Retains found ts rest) : Retains found (t :: ts) rest :=
  skip (isCode_keyword hkind hword) h

theorem lineBreak (hkind : t.kind = .newline) (h : Retains found ts rest) :
    Retains found (t :: ts) rest :=
  skip (by rw [Token.isCode, hkind]) h

/-- Tokens that say nothing, and then others. -/
theorem dropWhile {p : Token → Bool} (hp : ∀ t, p t = true → t.isCode = false)
    (h : Retains found (ts.dropWhile p) rest) : Retains found ts rest := by
  induction ts with
  | nil => exact h
  | cons t ts ih =>
    by_cases ht : p t = true
    · rw [List.dropWhile_cons_of_pos ht] at h
      exact (ih h).skip (hp t ht)
    · rwa [List.dropWhile_cons_of_neg ht] at h

theorem breaks (h : Retains found (pastBreaks ts) rest) : Retains found ts rest := by
  refine dropWhile (fun t ht => ?_) h
  rw [Token.isCode, Token.isNewline_iff.1 ht]

end Retains

theorem isCode_isSeparator (t : Token) (h : Parser.isSeparator t = true) : t.isCode = false := by
  unfold Parser.isSeparator at h
  rcases Bool.or_eq_true_iff.1 h with h | h
  · rw [Token.isCode, Token.isNewline_iff.1 h]
  · exact isCode_symbol (Token.isSymbol_iff.1 h)

theorem Retains.separators (h : Retains found (pastSeparators ts) rest) : Retains found ts rest :=
  .dropWhile isCode_isSeparator h

/-- Line breaks, a symbol, and then others. -/
theorem Retains.breaksSymbol {s : String} (hts : pastBreaks ts = t :: mid)
    (hkind : t.kind = .symbol s) (h : Retains found mid rest) : Retains found ts rest :=
  .breaks (hts.symm ▸ .symbol hkind h)

/-! ### Names and lists -/

theorem Identifier.retains {name : String} (h : Identifier ts name rest) :
    Retains (fun t => t.kind = .name name) ts rest := by
  obtain ⟨t, rfl, hkind, -⟩ := h
  exact .token (fun _ => hkind) (.refl _ rest)

section

variable {α : Type} {Item : Phrase α} {F : α → Token → Prop} {closing : String} {as : List α}
  (hitem : ∀ ts a rest, Item ts a rest → Retains (F a) ts rest)
include hitem

theorem Commas.retains (h : Commas Item closing ts as rest) :
    Retains (fun t => ∃ a ∈ as, F a t) ts rest := by
  induction h with
  | @last _ _ _ a _ item after closes =>
    refine .part (hitem _ _ _ item) (fun t ht => ⟨a, List.mem_singleton.2 rfl, ht⟩) ?_
    exact .breaksSymbol after closes (.refl _ _)
  | @more _ _ _ _ a as _ item after separates _ ih =>
    refine .part (hitem _ _ _ item) (fun t ht => ⟨a, List.mem_cons_self, ht⟩) ?_
    refine .breaksSymbol after separates (.breaks (ih.mono fun t ⟨a', ha', ht⟩ => ?_))
    exact ⟨a', List.mem_cons_of_mem a ha', ht⟩

theorem CommaList.retains (h : CommaList Item closing ts as rest) :
    Retains (fun t => ∃ a ∈ as, F a t) ts rest := by
  cases h with
  | empty after closes => exact .breaksSymbol after closes (.refl _ _)
  | items _ list => exact .breaks (list.retains hitem)

end

/-! ### Blocks, functions and expressions -/

section

variable {n line : Nat} {node : Node} {nodes : List Node}
  (hR : ∀ goal ts node rest, Level n goal ts node rest → Retains node.Holds ts rest)
include hR

theorem Statements.retains (h : Statements (Level n) ts nodes rest) :
    Retains (Held nodes) ts rest := by
  induction h with
  | done _ => exact .separators (.refl _ _)
  | more first _ statement _ ih =>
    refine .separators (first.symm ▸ ?_)
    refine .part (hR _ _ _ _ statement) (fun t ht => held_cons.2 (.inl ht)) ?_
    exact ih.mono fun t ht => held_cons.2 (.inr ht)

theorem Block.retains {body : List Node} (h : Block (Level n) ts body rest) :
    Retains (Held body) ts rest := by
  obtain ⟨opening, closing, mid, hts, hopening, hbody, hclosing⟩ := h
  exact .breaksSymbol hts hopening (.trans (hbody.retains hR) (.symbol hclosing (.refl _ rest)))

theorem Signature.retains {f : List String × List Node} (h : Signature (Level n) ts f rest) :
    Retains (fun t => (∃ name ∈ f.1, t.kind = .name name) ∨ Held f.2 t) ts rest := by
  obtain ⟨opening, mid, mid', rfl, hopening, hparams, hbody⟩ := h
  have hparams : Retains (fun t => ∃ name ∈ f.1, t.kind = .name name) mid mid' :=
    hparams.retains fun ts name rest h => h.retains
  exact .symbol hopening (.part hparams (fun t => .inl) ((hbody.retains hR).mono fun t => .inr))

theorem Function.retains {f : FunctionParts} (h : Function (Level n) ts f rest) (line : Nat) :
    Retains (Node.function f.name f.params f.body line).Holds ts rest := by
  have hsignature : ∀ {ts params body name}, Signature (Level n) ts (params, body) rest →
      Retains (Node.function name params body line).Holds ts rest := by
    intro ts params body name h
    refine (h.retains hR).mono fun t ht => ?_
    rcases ht with ⟨param, hparam, hkind⟩ | hbody
    · exact Node.holds_name hkind (List.mem_append_right _ hparam)
    · exact Node.holds_of_statements hbody
  cases h with
  | anonymous signature => exact hsignature signature
  | named identifier signature =>
    refine .part identifier.retains (fun t ht => Node.holds_name ht ?_) (hsignature signature)
    exact List.mem_append_left _ List.mem_cons_self

theorem Operand.retains (h : Operand (Level n) ts node rest) : Retains node.Holds ts rest := by
  have hliteral : ∀ {t : Token} {value : Constant}, t.At (.constant value t.line) →
      Retains (Node.constant value t.line).Holds (t :: rest) rest :=
    fun hat => .token (fun _ => .here hat) (.refl _ rest)
  have helements : ∀ {closing ts elements},
      CommaList (Level n (.run .element)) closing ts elements rest →
      Retains (Held elements) ts rest :=
    fun list => list.retains (hR _)
  cases h with
  | int kind => exact hliteral (by rw [Token.At, kind])
  | float kind => exact hliteral (by rw [Token.At, kind])
  | str kind => exact hliteral (by rw [Token.At, kind])
  | function kind parts => exact .keyword kind rfl (parts.retains hR _)
  | call kind _ opens list =>
    refine .token (fun _ => ?_) (.symbol opens ((helements list).mono fun t ht => ?_))
    · exact .value List.mem_cons_self (Node.holds_name kind List.mem_cons_self)
    · exact Node.holds_of_values (held_cons.2 (.inr ht))
  | reference kind _ _ =>
    exact .token (fun _ => Node.holds_name kind List.mem_cons_self) (.refl _ rest)
  | group kind run after closes =>
    exact .symbol kind (.trans (hR _ _ _ _ run) (.breaksSymbol after closes (.refl _ rest)))
  | empty kind list => exact .symbol kind ((helements list).mono fun t ht => by simp [Held] at ht)
  | list kind list _ =>
    exact .symbol kind ((helements list).mono fun t ht => Node.holds_of_values ht)

theorem Items.retains {mode : Mode} {due started : Bool} {items : List Item}
    (h : Items (Level n) mode due started ts items rest) :
    Retains (fun t => ∃ node, .operand node ∈ items ∧ node.Holds t) ts rest := by
  have hlater : ∀ {items : List Item} {item : Item} (t : Token),
      (∃ node, .operand node ∈ items ∧ node.Holds t) →
      ∃ node, .operand node ∈ item :: items ∧ node.Holds t :=
    fun t ⟨node, hmem, ht⟩ => ⟨node, List.mem_cons_of_mem _ hmem, ht⟩
  induction h with
  | done _ => exact .refl _ _
  | lineBreak kind _ _ ih => exact .lineBreak kind ih
  | plus kind _ ih => exact .symbol kind ih
  | before kind _ _ _ ih => exact .symbol kind (ih.mono hlater)
  | @operand _ _ _ _ _ node operand _ ih =>
    exact .part (operand.retains hR) (fun t ht => ⟨node, List.mem_cons_self, ht⟩) (ih.mono hlater)
  | ignored kind _ _ ih => exact .lineBreak kind ih
  | after kind _ _ ih => exact .symbol kind (ih.mono hlater)
  | @index _ _ _ _ _ _ index kind run closes _ ih =>
    refine .symbol kind (.part (hR _ _ _ _ run) (fun t ht => ⟨index, ?_, ht⟩) ?_)
    · exact List.mem_cons_of_mem _ List.mem_cons_self
    · exact .symbol closes (ih.mono fun t ht => hlater t (hlater t ht))
  | between kind _ _ ih => exact .symbol kind (ih.mono hlater)

theorem Run.retains {mode : Mode} (h : Run (Level n) mode ts node rest) :
    Retains node.Holds ts rest := by
  obtain ⟨items, line, hitems, htree⟩ := h
  exact (hitems.retains hR).mono fun t ⟨operand, hmem, ht⟩ => buildTree_holds htree hmem ht

/-! ### Statements -/

theorem Variable.retains (h : Variable (Level n) line ts node rest) :
    Retains node.Holds ts rest := by
  cases h with
  | plain identifier _ =>
    exact identifier.retains.mono fun t ht => Node.holds_name ht List.mem_cons_self
  | valued identifier kind run =>
    refine .part identifier.retains (fun t ht => Node.holds_name ht List.mem_cons_self) ?_
    exact .symbol kind ((hR _ _ _ _ run).mono fun t ht => .value List.mem_cons_self ht)

theorem NamedFunction.retains (h : NamedFunction (Level n) line ts node rest) :
    Retains node.Holds ts rest := by
  obtain ⟨name, params, body, hparts, rfl⟩ := h
  exact (hparts.retains hR line).mono fun t ht => .value List.mem_cons_self ht

theorem Otherwise.retains {other : Option (List Node)} (h : Otherwise (Level n) ts other rest) :
    Retains (Held (other.getD [])) ts rest := by
  cases h with
  | absent _ => exact .refl _ _
  | chain after kind again conditional =>
    refine .breaks (after.symm ▸ .keyword kind rfl (.keyword again rfl ?_))
    exact (hR _ _ _ _ conditional).mono fun t ht => held_singleton.2 ht
  | block after kind block => exact .breaks (after.symm ▸ .keyword kind rfl (block.retains hR))

theorem Conditional.retains (h : Conditional (Level n) line ts node rest) :
    Retains node.Holds ts rest := by
  obtain ⟨condition, body, other, mid, mid', hcondition, hbody, hother, rfl⟩ := h
  refine .part (hR _ _ _ _ hcondition) (fun t ht => .value List.mem_cons_self ht) ?_
  refine .part (hbody.retains hR) (fun t ht => Node.holds_of_statements ?_)
    ((hother.retains hR).mono fun t ht => Node.holds_of_statements ?_)
  · exact held_append.2 (.inl ht)
  · exact held_append.2 (.inr ht)

theorem CaseValues.retains {values : List Node} (h : CaseValues (Level n) ts values rest) :
    Retains (Held values) ts rest := by
  induction h with
  | last run _ => exact (hR _ _ _ _ run).mono fun t ht => held_singleton.2 ht
  | more run kind _ ih =>
    refine .part (hR _ _ _ _ run) (fun t ht => held_cons.2 (.inl ht)) (.symbol kind ?_)
    exact ih.mono fun t ht => held_cons.2 (.inr ht)

omit hR in
/-- What stands in a `default` clause with another one after it is overwritten. -/
theorem overwritten_of_arms {word colon : Token} {after tokens s : List Token}
    {body kept : List Node} {cases : List (Arm Node)} (hwritten : word :: colon :: mid <:+ tokens)
    (hkind : word.kind = .name "default") (hopens : colon.kind = .symbol ":")
    (hblock : Statements (Level n) mid body after) (hinside : s <:+ mid)
    (hbefore : after.length < s.length)
    (hothers : SwitchArms (Level n) after (cases, some kept) rest) : Overwritten tokens s := by
  have hlength := Parser.statements_length (Level.takes n) hblock
  have hlevel : ∀ tokens goal ts node rest, Level n goal ts node rest →
      2 * ts.length + goal.levels ≤ Parser.fuel tokens →
      Parser.level (Parser.fuel tokens) goal ts = .ok node rest :=
    fun tokens goal ts node rest => Parser.level_complete _ n goal ts node rest
  have hbody : Entry.statements.parse mid = .ok body after := by
    refine Parser.statements_complete (Level.takes n) (hlevel mid) hblock ?_ ?_
    · exact Nat.le_add_right (2 * mid.length + 2) 2
    · unfold Parser.fuel
      omega
  refine .intro 0 hwritten hkind hopens hbody hinside hbefore
    (Parser.arms_complete (Level.takes n) (hlevel after) hothers ?_ ?_ ⟨[], none⟩)
  · exact Nat.le_add_right (2 * after.length) 4
  · unfold Parser.fuel
    omega

/-- The tokens of a switch are left in its arms. -/
theorem SwitchArms.retains {arms : List (Arm Node) × Option (List Node)}
    (h : SwitchArms (Level n) ts arms rest) :
    Retains (fun t => Held (arms.1.flatMap Arm.values) t ∨ Held (arms.1.flatMap Arm.body) t ∨
      Held (arms.2.getD []) t) ts rest := by
  induction h with
  | done after closes => exact .separators (after.symm ▸ .symbol closes (.refl _ _))
  | case after kind list opens block _ ih =>
    refine .separators (after.symm ▸ .keyword kind rfl ?_)
    refine .part (list.retains hR) (fun t ht => .inl (held_append.2 (.inl ht))) ?_
    refine .symbol opens ?_
    refine .part (block.retains hR) (fun t ht => .inr (.inl (held_append.2 (.inl ht)))) ?_
    refine ih.mono fun t ht => ?_
    rcases ht with ht | ht | ht
    · exact .inl (held_append.2 (.inr ht))
    · exact .inr (.inl (held_append.2 (.inr ht)))
    · exact .inr (.inr ht)
  | @fallback ts mid mid' rest word colon body cases fallback after kind opens block others ih =>
    have hbody := block.retains hR
    cases fallback with
    | none =>
      refine .separators (after.symm ▸ .keyword kind rfl (.symbol opens ?_))
      refine .part hbody (fun t ht => .inr (.inr ht)) (ih.mono fun t ht => ?_)
      exact ht.imp_right (Or.imp_right fun hnone => by simp [Held] at hnone)
    | some kept =>
      -- The body counts for nothing: its places are overwritten, whether or not they are found.
      have hwritten : word :: colon :: mid <:+ ts := after ▸ List.dropWhile_suffix _
      have hclause : Retains (fun _ => False) ts mid :=
        .separators (after.symm ▸ .keyword kind rfl (.symbol opens (.refl _ mid)))
      have hmid := hbody.suffix.trans hclause.suffix
      refine ⟨ih.suffix.trans hmid, fun t tail hplace hcode => ?_⟩
      rcases hclause.kept t tail hplace hcode with hplace | hnone | hlost
      · by_cases hlength : mid'.length < (t :: tail).length
        · exact .inr (.inr
            (overwritten_of_arms hwritten kind opens block hplace hlength others))
        · have hplace :=
            List.suffix_of_suffix_length_le hplace hbody.suffix (Nat.le_of_not_lt hlength)
          exact (ih.kept t tail hplace hcode).imp_right (Or.imp_right (·.mono hmid))
      · exact hnone.elim
      · exact .inr (.inr hlost)

theorem Switch.retains (h : Switch (Level n) line ts node rest) : Retains node.Holds ts rest := by
  obtain ⟨subject, cases, fallback, opening, mid, mid', hsubject, hmid, hopening, harms, rfl⟩ := h
  refine .part (hR _ _ _ _ hsubject) (fun t ht => .value List.mem_cons_self ht) ?_
  refine .breaksSymbol hmid hopening ((harms.retains hR).mono fun t ht => ?_)
  rcases ht with ht | ht | ht
  · exact Node.holds_of_values (held_cons.2 (.inr ht))
  · exact Node.holds_of_statements (held_append.2 (.inl ht))
  · exact Node.holds_of_statements (held_append.2 (.inr ht))

theorem While.retains (h : While (Level n) line ts node rest) : Retains node.Holds ts rest := by
  obtain ⟨condition, body, mid, hcondition, hbody, rfl⟩ := h
  refine .part (hR _ _ _ _ hcondition) (fun t ht => .value List.mem_cons_self ht) ?_
  exact (hbody.retains hR).mono fun t ht => Node.holds_of_statements ht

theorem Step.retains {step : Option Node} (h : Step (Level n) ts step rest) :
    Retains (Held step.toList) ts rest := by
  cases h with
  | absent _ => exact .refl _ _
  | present kind run =>
    exact .keyword kind rfl ((hR _ _ _ _ run).mono fun t ht => held_singleton.2 ht)

theorem LoopTail.retains {name : String} (h : LoopTail (Level n) name line ts node rest) :
    Retains node.Holds ts rest := by
  cases h with
  | range run kind upTo by_ block =>
    refine .part (hR _ _ _ _ run) (fun t ht => .value List.mem_cons_self ht) (.symbol kind ?_)
    refine .part (hR _ _ _ _ upTo) (fun t ht => .value ?_ ht) ?_
    · exact List.mem_cons_of_mem _ List.mem_cons_self
    · refine .part (by_.retains hR) (fun t ht => Node.holds_of_values ?_)
        ((block.retains hR).mono fun t ht => Node.holds_of_statements ht)
      exact held_cons.2 (.inr (held_cons.2 (.inr ht)))
  | each run block =>
    refine .part (hR _ _ _ _ run) (fun t ht => .value List.mem_cons_self ht) ?_
    exact (block.retains hR).mono fun t ht => Node.holds_of_statements ht

theorem For.retains (h : For (Level n) line ts node rest) : Retains node.Holds ts rest := by
  obtain ⟨name, word, mid, hname, hword, htail⟩ := h
  have hnames : name ∈ node.names := by
    cases htail with
    | range => exact List.mem_cons_self
    | each => exact List.mem_cons_self
  refine .part hname.retains (fun t ht => Node.holds_name ht hnames) ?_
  exact .keyword hword rfl (htail.retains hR)

theorem GiveBack.retains (h : GiveBack (Level n) line ts node rest) :
    Retains node.Holds ts rest := by
  cases h with
  | plain _ => exact .refl _ _
  | valued _ run => exact (hR _ _ _ _ run).mono fun t ht => .value List.mem_cons_self ht

omit hR in
theorem Close.retains (h : Close ts rest) : Retains found ts rest := by
  cases h with
  | separator separates => exact .skip (isCode_isSeparator _ separates) (.refl _ _)
  | list _ _ => exact .refl _ _

omit hR in
theorem BlockClose.retains (h : BlockClose ts rest) : Retains found ts rest := by
  cases h with
  | separator separates => exact .skip (isCode_isSeparator _ separates) (.refl _ _)
  | bare _ => exact .refl _ _

theorem Statement.retains (h : Statement (Level n) ts node rest) : Retains node.Holds ts rest := by
  cases h with
  | blocked kind construct close =>
    cases construct with
    | function _ parts => exact .keyword kind rfl (.trans (parts.retains hR) close.retains)
    | conditional parts => exact .keyword kind rfl (.trans (parts.retains hR) close.retains)
    | whileLoop parts => exact .keyword kind rfl (.trans (parts.retains hR) close.retains)
    | forLoop parts => exact .keyword kind rfl (.trans (parts.retains hR) close.retains)
    | switch parts => exact .keyword kind rfl (.trans (parts.retains hR) close.retains)
  | plain kind construct close =>
    cases construct with
    | definition parts => exact .keyword kind rfl (.trans (parts.retains hR) close.retains)
    | breakOut | continueOn | fallThrough => exact .keyword kind rfl close.retains
    | giveBack parts => exact .keyword kind rfl (.trans (parts.retains hR) close.retains)
  | expression _ run close => exact .trans (hR _ _ _ _ run) close.retains

end

/-! ### Closing the recursion -/

/-- **A phrase keeps what it reads, but for overwritten defaults.** -/
theorem Level.retains (n : Nat) :
    ∀ goal ts node rest, Level n goal ts node rest → Retains node.Holds ts rest := by
  induction n with
  | zero => exact fun _ _ _ _ h => h.elim
  | succ n ih =>
    intro goal ts node rest h
    cases goal with
    | run mode => exact Run.retains ih h
    | statement => exact Statement.retains ih h
    | conditional line => exact Conditional.retains ih h

end Grammar

/-! ### Programs -/

/-- Behind an end marker that is the only one there is nothing. -/
theorem not_isCode_of_finished {tokens rest tail : List Token} {t : Token}
    (hlast : ∀ t ∈ tokens.dropLast, t.isFinish = false) (hrest : rest <:+ tokens)
    (hfinish : Grammar.Next Token.isFinish rest) (hplace : t :: tail <:+ rest) :
    t.isCode = false := by
  cases rest with
  | nil => simp at hplace
  | cons mark after =>
    have hmark : mark.isFinish = true := hfinish mark rfl
    obtain ⟨before, rfl⟩ := hrest
    cases after with
    | nil =>
      obtain rfl : t = mark := List.mem_singleton.1 (hplace.subset List.mem_cons_self)
      rw [Token.isCode, Token.isFinish_iff.1 hmark]
    | cons next after =>
      have hmem : mark ∈ (before ++ mark :: next :: after).dropLast := by simp
      exact absurd hmark (by simp [hlast mark hmem])

/-- **An accepted program keeps every literal and every name in its tree, but for those in a
`default` clause that another one overwrites.** -/
theorem parse_keeps_code {tokens : List Token} {nodes : List Node} (h : parse tokens = .ok nodes)
    (hlast : ∀ t ∈ tokens.dropLast, t.isFinish = false) :
    ∀ t tail, t :: tail <:+ tokens → t.isCode = true →
      Held nodes t ∨ Overwritten tokens (t :: tail) := by
  intro t tail hplace hcode
  obtain ⟨n, rest, hstatements, hfinish⟩ := parse_sound h
  have hretains := hstatements.retains (Grammar.Level.retains n)
  rcases hretains.kept t tail hplace hcode with hrest | hkept
  · have hcode' := not_isCode_of_finished hlast hretains.suffix hfinish hrest
    cases hcode.symm.trans hcode'
  · exact hkept

/-- The tokens of a switch with two `default` clauses. -/
def twoDefaults : List Token :=
  [⟨.name "switch", 1⟩, ⟨.int 1, 1⟩, ⟨.symbol "\x7b", 1⟩, ⟨.newline, 1⟩, ⟨.name "default", 2⟩,
    ⟨.symbol ":", 2⟩, ⟨.int 2, 2⟩, ⟨.newline, 2⟩, ⟨.name "default", 3⟩, ⟨.symbol ":", 3⟩,
    ⟨.int 3, 3⟩, ⟨.newline, 3⟩, ⟨.symbol "\x7d", 4⟩, ⟨.finish, 4⟩]

/-- The tree of a switch with two `default` clauses. -/
def twoDefaultsTree : Node :=
  .switch (.constant (.int 1) 1) [] (some [.constant (.int 3) 3]) 1

/-- The literals of the two clauses. -/
theorem twoDefaults_keeps_code :
    (Held [twoDefaultsTree] ⟨.int 2, 2⟩ ∨ Overwritten twoDefaults (twoDefaults.drop 6)) ∧
      (Held [twoDefaultsTree] ⟨.int 3, 3⟩ ∨ Overwritten twoDefaults (twoDefaults.drop 10)) :=
  ⟨parse_keeps_code rfl (by decide) _ (twoDefaults.drop 7) (List.drop_suffix 6 twoDefaults) rfl,
    parse_keeps_code rfl (by decide) _ (twoDefaults.drop 11) (List.drop_suffix 10 twoDefaults) rfl⟩

/-- The first of two `default` clauses is lost. -/
theorem first_default_is_lost :
    tokenize "switch 1 \x7b\ndefault: 2\ndefault: 3\n\x7d" = .ok twoDefaults ∧
      parse twoDefaults = .ok [twoDefaultsTree] ∧
      (∀ t ∈ twoDefaults.dropLast, t.isFinish = false) ∧
      ¬ ∀ t ∈ twoDefaults, t.isCode = true → Held [twoDefaultsTree] t := by
  refine ⟨rfl, rfl, by decide, fun hkept => ?_⟩
  have hheld := hkept ⟨.int 2, 2⟩ (by decide) rfl
  rw [held_singleton] at hheld
  cases hheld with
  | here holds => cases holds
  | value below inner =>
    obtain rfl := List.mem_singleton.1 below
    cases inner with
    | here holds => cases holds
    | value below _ => cases below
    | statement below _ => cases below
  | statement below inner =>
    obtain rfl := List.mem_singleton.1 below
    cases inner with
    | here holds => cases holds
    | value below _ => cases below
    | statement below _ => cases below

end PairScript
