import PairScript.Proofs.Parse.EndMark
import PairScript.Proofs.Parse.Takes

/-!
# Reading ends, and leaves the end of the list

Procedures take tokens off the front of the list and put none back, whether they succeed or not.  So
what is unread at the end of a reading is an end of the list that it started with.

The bounds on levels and loops are there to make the procedures total, and should not matter.  They
do not: a reading within some bounds is the same within larger ones, unless it reaches a bound
(`Extends`), and within the bounds that the tokens ask for it never does
(`Entry.parse_cases`).  A recursion without bounds would therefore end on every list, with the
answer that is given here.

`Within` says both of two procedures, of which the second one may have larger bounds; there is a
lemma for each procedure, and `level_within` closes the recursion.
-/

namespace PairScript

namespace Parser

variable {α β : Type}

/-- The tokens that are left at the end of a reading, with a result or without one. -/
def unread : EStateM.Result (Halt SyntaxCause) (List Token) α → List Token
  | .ok _ rest => rest
  | .error _ rest => rest

/-! ### Two readings -/

/-- How a reading of `ts` compares with one within larger bounds. -/
structure Extends (ts : List Token) (r r' : EStateM.Result (Halt SyntaxCause) (List Token) α) :
    Prop where
  suffix : unread r <:+ ts
  same : (∃ s, r = .error .outOfFuel s) ∨ r' = r

/-- Two procedures of which the second one reads like the first one, as far as that one gets. -/
def Within (p q : Parser α) : Prop := ∀ ts, Extends ts (p ts) (q ts)

namespace Extends

variable {ts rest : List Token} {r r' : EStateM.Result (Halt SyntaxCause) (List Token) α}

/-- A reading that does not depend on bounds. -/
theorem alike (h : unread r <:+ ts) : Extends ts r r := ⟨h, .inr rfl⟩

theorem of_suffix (h : Extends rest r r') (hrest : rest <:+ ts) : Extends ts r r' :=
  ⟨h.suffix.trans hrest, h.same⟩

/-- A token has been taken off. -/
theorem tail {t : Token} (h : Extends rest r r') : Extends (t :: rest) r r' :=
  h.of_suffix (List.suffix_cons t rest)

theorem bind {p q : Parser α} {f g : α → Parser β} (h : Extends ts (p rest) (q rest))
    (hf : ∀ x, Within (f x) (g x)) : Extends ts ((p >>= f) rest) ((q >>= g) rest) := by
  show Extends ts (EStateM.bind p f rest) (EStateM.bind q g rest)
  unfold EStateM.bind
  obtain ⟨hsuffix, ⟨s, hbound⟩ | hsame⟩ := h
  · rw [hbound] at hsuffix ⊢
    exact ⟨hsuffix, .inl ⟨s, rfl⟩⟩
  · rw [hsame]
    cases hp : p rest with
    | ok x rest' =>
      rw [hp] at hsuffix
      exact (hf x rest').of_suffix hsuffix
    | error halt s =>
      rw [hp] at hsuffix
      exact .alike hsuffix

end Extends

theorem fail_extends {cause : SyntaxCause} {line : Nat} {ts s : List Token} (h : s <:+ ts) :
    Extends ts ((fail cause line : Parser α) s) ((fail cause line : Parser α) s) := .alike h

theorem unexpected_extends {t : Token} {expected : Expectation} {ts s : List Token} (h : s <:+ ts) :
    Extends ts ((unexpected t expected : Parser α) s) ((unexpected t expected : Parser α) s) := by
  unfold unexpected
  split <;> exact fail_extends h

namespace Within

variable {p q : Parser α}

theorem pure {x : α} : Within (pure x) (Pure.pure x) := fun _ => .alike (List.suffix_refl _)

theorem fail {cause : SyntaxCause} {line : Nat} :
    Within (fail cause line : Parser α) (Parser.fail cause line) :=
  fun ts => fail_extends (List.suffix_refl ts)

/-- Whatever is done within larger bounds. -/
theorem exhausted : Within Parser.exhausted q := fun ts => ⟨List.suffix_refl ts, .inl ⟨ts, rfl⟩⟩

theorem ofExcept {x : Except SyntaxFault α} : Within (ofExcept x) (Parser.ofExcept x) := by
  cases x with
  | ok a => exact .pure
  | error f => exact fun ts => .alike (List.suffix_refl ts)

theorem bind {f g : α → Parser β} (h : Within p q) (hf : ∀ x, Within (f x) (g x)) :
    Within (p >>= f) (q >>= g) := fun ts => (h ts).bind hf

theorem map {f : α → β} (h : Within p q) : Within (f <$> p) (f <$> q) := by
  rw [map_eq_pure_bind, map_eq_pure_bind]
  exact h.bind fun _ => .pure

/-- Two procedures that look at the tokens first. -/
theorem get_bind {f g : List Token → Parser β} (hnil : Extends [] (f [] []) (g [] []))
    (hcons : ∀ t rest, Extends (t :: rest) (f (t :: rest) (t :: rest))
      (g (t :: rest) (t :: rest))) : Within (get >>= f) (get >>= g) := by
  intro ts
  cases ts with
  | nil => exact hnil
  | cons t rest => exact hcons t rest

/-- Two loops compare if one pass does whenever the passes after it do. -/
theorem loop {σ : Type} {p q : Nat → σ → Parser α} (hzero : ∀ s, p 0 s = Parser.exhausted)
    (hstep : ∀ b b', b ≤ b' → (∀ s, Within (p b s) (q b' s)) →
      ∀ s, Within (p (b + 1) s) (q (b' + 1) s)) {b b' : Nat} (hb : b ≤ b') :
    ∀ s, Within (p b s) (q b' s) := by
  induction b generalizing b' with
  | zero =>
    intro s
    rw [hzero]
    exact .exhausted
  | succ b ih =>
    cases b' with
    | zero => exact absurd hb (Nat.not_succ_le_zero b)
    | succ b' => exact hstep b b' (Nat.le_of_succ_le_succ hb) (ih (Nat.le_of_succ_le_succ hb))

end Within

/-! ### Single tokens -/

theorem skipWhile_within {p : Token → Bool} : Within (skipWhile p) (skipWhile p) :=
  fun _ => .alike (List.dropWhile_suffix p)

theorem skipNewlines_within : Within skipNewlines skipNewlines := skipWhile_within

theorem skip_within : Within skip skip := fun ts => .alike (List.tail_suffix ts)

theorem currentLine_within : Within currentLine currentLine :=
  fun ts => .alike (List.suffix_refl ts)

theorem atSymbol_within {s : String} : Within (atSymbol s) (atSymbol s) :=
  fun ts => .alike (List.suffix_refl ts)

theorem atStatementEnd_within : Within atStatementEnd atStatementEnd :=
  fun ts => .alike (List.suffix_refl ts)

theorem skipIf_within {p : Token → Bool} : Within (skipIf p) (skipIf p) := by
  refine .get_bind (.alike (List.suffix_refl _)) fun t rest => ?_
  dsimp only
  split
  · exact .tail (.alike (List.suffix_refl rest))
  · exact .alike (List.suffix_refl _)

theorem expect_within {p : Token → Bool} {expected : Expectation} :
    Within (expect p expected) (expect p expected) := by
  refine .get_bind (fail_extends (List.suffix_refl _)) fun t rest => .tail ?_
  simp only [set_bind]
  split
  · exact .alike (List.suffix_refl rest)
  · exact unexpected_extends (List.suffix_refl rest)

theorem expectSymbol_within {s : String} : Within (expectSymbol s) (expectSymbol s) :=
  expect_within

theorem identifier_within : Within identifier identifier := by
  refine .get_bind (fail_extends (List.suffix_refl _)) fun t rest => .tail ?_
  simp only [set_bind]
  cases t.kind with
  | name text =>
    dsimp only
    split
    · exact unexpected_extends (List.suffix_refl rest)
    · exact .alike (List.suffix_refl rest)
  | _ => exact unexpected_extends (List.suffix_refl rest)

/-! ### Lists -/

section

variable {item item' : Parser α} {closing : String} {b b' : Nat}

theorem commaSeparatedFrom_within (hitem : Within item item') (hb : b ≤ b') (acc : List α) :
    Within (commaSeparatedFrom item closing b acc) (commaSeparatedFrom item' closing b' acc) := by
  refine Within.loop (fun _ => rfl) (fun b b' _ ih acc => ?_) hb acc
  refine hitem.bind fun x => skipNewlines_within.bind fun _ => ?_
  refine .get_bind (fail_extends (List.suffix_refl _)) fun t rest => .tail ?_
  simp only [set_bind]
  split
  · exact (skipNewlines_within.bind fun _ => ih (x :: acc)) rest
  · split
    · exact .alike (List.suffix_refl rest)
    · exact unexpected_extends (List.suffix_refl rest)

theorem commaSeparated_within (hitem : Within item item') (hb : b ≤ b') :
    Within (commaSeparated b item closing) (commaSeparated b' item' closing) := by
  refine skipNewlines_within.bind fun _ => skipIf_within.bind fun empty => ?_
  cases empty with
  | true => exact .pure
  | false => exact commaSeparatedFrom_within hitem hb []

end

/-! ### Blocks and functions -/

/-- Two levels of which the second one answers like the first one, as far as that one gets. -/
def Below (below below' : Self) : Prop := ∀ goal, Within (below goal) (below' goal)

section

variable {self self' : Self} {b b' line : Nat} (hself : Below self self') (hb : b ≤ b')
include hself hb

theorem statementsFrom_within (acc : List Node) :
    Within (statementsFrom self b acc) (statementsFrom self' b' acc) := by
  refine Within.loop (fun _ => rfl) (fun b b' _ ih acc => ?_) hb acc
  refine skipWhile_within.bind fun _ => ?_
  refine .get_bind (.alike (List.suffix_refl _)) fun t rest => ?_
  dsimp only
  split
  · exact .alike (List.suffix_refl _)
  · exact ((hself .statement).bind fun node => ih (node :: acc)) (t :: rest)

theorem block_within : Within (block b self) (block b' self') := by
  refine skipNewlines_within.bind fun _ => expectSymbol_within.bind fun _ => ?_
  refine (statementsFrom_within hself hb []).bind fun body => ?_
  exact expectSymbol_within.bind fun _ => .pure

theorem functionParts_within : Within (functionParts b self) (functionParts b' self') := by
  have hrest : ∀ name : Option String, Within
      (expectSymbol "(" >>= fun _ => commaSeparated b identifier ")" >>= fun params =>
        block b self >>= fun body => pure (⟨name, params, body⟩ : FunctionParts))
      (expectSymbol "(" >>= fun _ => commaSeparated b' identifier ")" >>= fun params =>
        block b' self' >>= fun body => pure ⟨name, params, body⟩) := by
    intro name
    refine expectSymbol_within.bind fun _ => ?_
    refine (commaSeparated_within identifier_within hb).bind fun params => ?_
    exact (block_within hself hb).bind fun body => .pure
  refine atSymbol_within.bind fun unnamed => ?_
  cases unnamed with
  | true => exact Within.pure.bind hrest
  | false => exact identifier_within.map.bind hrest

/-! ### Expressions -/

theorem elements_within {closing : String} :
    Within (commaSeparated b (self (.run .element)) closing)
      (commaSeparated b' (self' (.run .element)) closing) :=
  commaSeparated_within (hself (.run .element)) hb

theorem operand_within {first : Bool} :
    Within (operand b self first) (operand b' self' first) := by
  refine .get_bind (fail_extends (List.suffix_refl _)) fun t rest => .tail ?_
  simp only [set_bind]
  cases t.kind with
  | int | float | str => exact .alike (List.suffix_refl rest)
  | name text =>
    dsimp only
    split
    · exact ((functionParts_within hself hb).bind fun f => .pure) rest
    · split
      · exact fail_extends (List.suffix_refl rest)
      · refine (atSymbol_within.bind fun called => ?_) rest
        cases called with
        | true => exact skip_within.bind fun _ => (elements_within hself hb).bind fun _ => .pure
        | false => exact .pure
  | symbol text =>
    dsimp only
    split
    · refine ((hself (.run .nested)).bind fun inner => ?_) rest
      exact skipNewlines_within.bind fun _ => expectSymbol_within.bind fun _ => .pure
    · split
      · refine ((elements_within hself hb).bind fun elements => ?_) rest
        split <;> exact .pure
      · exact fail_extends (List.suffix_refl rest)
  | finish => exact fail_extends (List.suffix_refl rest)
  | newline =>
    dsimp only
    split <;> exact fail_extends (List.suffix_refl rest)

theorem collect_within {mode : Mode} (c : Collected) :
    Within (collect self mode b c) (collect self' mode b' c) := by
  refine Within.loop (fun _ => rfl) (fun b b' hb ih c => ?_) hb c
  refine .get_bind (.alike (List.suffix_refl _)) fun t rest => ?_
  dsimp only
  split
  next =>
    split
    next => exact .tail (ih _ rest)
    next =>
      cases prefixOperator? t with
      | some name =>
        simp only [set_bind]
        split
        · exact .tail (ih _ rest)
        · exact .tail (ih _ rest)
      | none => exact ((operand_within hself hb).bind fun node => ih _) (t :: rest)
  next =>
    cases continuation mode t.kind with
    | stop => exact .alike (List.suffix_refl _)
    | ignore | after | between => exact .tail (ih _ rest)
    | index =>
      refine .tail (((hself (.run .nested)).bind fun index => ?_) rest)
      exact expectSymbol_within.bind fun _ => ih _
    | reject => exact fail_extends (List.suffix_refl _)

theorem run_within {mode : Mode} : Within (run b self mode) (run b' self' mode) := by
  rw [run_eq_finishRun, run_eq_finishRun]
  refine currentLine_within.bind fun line => (collect_within hself hb ⟨true, []⟩).bind fun c => ?_
  unfold finishRun
  split
  · exact .fail
  · exact .ofExcept

/-! ### Statements -/

omit hb in
theorem variableDefinition_within :
    Within (variableDefinition self line) (variableDefinition self' line) := by
  refine identifier_within.bind fun name => skipIf_within.bind fun valued => ?_
  cases valued with
  | true => exact (hself (.run .statement)).bind fun value => .pure
  | false => exact .pure

theorem functionDefinition_within :
    Within (functionDefinition b self line) (functionDefinition b' self' line) := by
  refine (functionParts_within hself hb).bind fun f => ?_
  split
  · exact .pure
  · exact .fail

theorem otherwise_within : Within (otherwise b self) (otherwise b' self') := by
  have hblock : Within (some <$> block b self) (some <$> block b' self') :=
    (block_within hself hb).map
  intro ts
  unfold otherwise
  rw [Parser.get_bind, Parser.get_bind]
  have hpast : ts.dropWhile Token.isNewline <:+ ts := List.dropWhile_suffix _
  cases hts : ts.dropWhile Token.isNewline with
  | nil => exact .alike (List.suffix_refl ts)
  | cons t rest =>
    rw [hts] at hpast
    dsimp only
    split
    next =>
      refine Extends.of_suffix (.tail ?_) hpast
      cases rest with
      | nil => exact hblock []
      | cons next rest =>
        simp only [set_bind]
        split
        · exact .tail (((hself (.conditional next.line)).bind fun inner => .pure) rest)
        · exact hblock (next :: rest)
    next => exact .alike (List.suffix_refl ts)

theorem conditional_within :
    Within (conditional b self line) (conditional b' self' line) := by
  refine (hself (.run .statement)).bind fun _ => (block_within hself hb).bind fun _ => ?_
  exact (otherwise_within hself hb).bind fun _ => .pure

theorem caseValuesFrom_within (acc : List Node) :
    Within (caseValuesFrom self b acc) (caseValuesFrom self' b' acc) := by
  refine Within.loop (fun _ => rfl) (fun b b' _ ih acc => ?_) hb acc
  refine (hself (.run .element)).bind fun value => skipIf_within.bind fun more => ?_
  cases more with
  | true => exact ih (value :: acc)
  | false => exact .pure

theorem arms_within (a : Arms) : Within (arms self line b a) (arms self' line b' a) := by
  refine Within.loop (fun _ => rfl) (fun b b' hb ih a => ?_) hb a
  have hbody : ∀ f : List Node → Arms, Within
      (expectSymbol ":" >>= fun _ => statements b self >>= fun body => arms self line b (f body))
      (expectSymbol ":" >>= fun _ => statements b' self' >>= fun body =>
        arms self' line b' (f body)) :=
    fun f => expectSymbol_within.bind fun _ => (statementsFrom_within hself hb []).bind
      fun body => ih (f body)
  refine skipWhile_within.bind fun _ => ?_
  refine .get_bind (fail_extends (List.suffix_refl _)) fun t rest => ?_
  dsimp only
  split
  · exact .tail (.alike (List.suffix_refl rest))
  · split
    · exact .tail (((caseValuesFrom_within hself hb []).bind fun values => hbody _) rest)
    · split
      · exact .tail (hbody _ rest)
      · exact unexpected_extends (List.suffix_refl _)

theorem switch_within : Within (switch b self line) (switch b' self' line) := by
  refine (hself (.run .statement)).bind fun _ => skipNewlines_within.bind fun _ => ?_
  refine expectSymbol_within.bind fun _ => ?_
  exact (arms_within hself hb ⟨[], none⟩).bind fun _ => .pure

theorem whileLoop_within : Within (whileLoop b self line) (whileLoop b' self' line) :=
  (hself (.run .statement)).bind fun _ => (block_within hself hb).bind fun _ => .pure

theorem rangeLoop_within {name : String} {start : Node} {closed : Bool} :
    Within (rangeLoop b self name start closed line)
      (rangeLoop b' self' name start closed line) := by
  refine (hself (.run .statement)).bind fun limit => skipIf_within.bind fun stepped => ?_
  have hbody : ∀ step : Option Node, Within
      (block b self >>= fun body => pure (Node.rangeLoop name start limit closed step body line))
      (block b' self' >>= fun body =>
        pure (Node.rangeLoop name start limit closed step body line)) :=
    fun step => (block_within hself hb).bind fun body => .pure
  cases stepped with
  | true => exact (hself (.run .statement)).map.bind hbody
  | false => exact Within.pure.bind hbody

theorem forLoop_within : Within (forLoop b self line) (forLoop b' self' line) := by
  refine identifier_within.bind fun name => expect_within.bind fun _ => ?_
  refine (hself (.run .statement)).bind fun start => skipIf_within.bind fun closed => ?_
  cases closed with
  | true => exact rangeLoop_within hself hb
  | false =>
    refine skipIf_within.bind fun opened => ?_
    cases opened with
    | true => exact rangeLoop_within hself hb
    | false => exact (block_within hself hb).bind fun _ => .pure

omit hb in
theorem giveBack_within : Within (giveBack self line) (giveBack self' line) := by
  refine atStatementEnd_within.bind fun ended => ?_
  cases ended with
  | true => exact .pure
  | false => exact (hself (.run .statement)).bind fun _ => .pure

omit hself hb in
theorem closed_within {p q : Parser Node} (h : Within p q) : Within (closed p) (closed q) := by
  refine h.bind fun node => Within.bind ?_ fun _ => .pure
  refine .get_bind (.alike (List.suffix_refl _)) fun t rest => ?_
  dsimp only
  split
  · exact .tail (.alike (List.suffix_refl rest))
  · split
    · exact .alike (List.suffix_refl _)
    · exact unexpected_extends (List.suffix_refl _)

omit hself hb in
theorem blockClosed_within {p q : Parser Node} (h : Within p q) :
    Within (blockClosed p) (blockClosed q) :=
  h.bind fun _ => (skipIf_within.bind fun _ => .pure).bind fun _ => .pure

/-- Which construct a statement is does not depend on bounds. -/
theorem construct_within {word : String} {rest : List Token} :
    Option.Rel Within (construct? b self word line rest) (construct? b' self' word line rest) := by
  unfold construct?
  split
  · exact .some (closed_within (variableDefinition_within hself))
  · split
    · exact .none
    · exact .some (blockClosed_within (functionDefinition_within hself hb))
  · exact .some (blockClosed_within (conditional_within hself hb))
  · exact .some (blockClosed_within (whileLoop_within hself hb))
  · exact .some (blockClosed_within (forLoop_within hself hb))
  · exact .some (blockClosed_within (switch_within hself hb))
  · exact .some (closed_within .pure)
  · exact .some (closed_within .pure)
  · exact .some (closed_within .pure)
  · exact .some (closed_within (giveBack_within hself))
  · exact .none

theorem statement_within : Within (statement b self) (statement b' self') := by
  refine .get_bind (fail_extends (List.suffix_refl _)) fun t rest => ?_
  have hconstruct : Option.Rel Within (construct? b self (leadingWord t.kind) t.line rest)
      (construct? b' self' (leadingWord t.kind) t.line rest) := construct_within hself hb
  dsimp only
  generalize construct? b self (leadingWord t.kind) t.line rest = left at hconstruct
  generalize construct? b' self' (leadingWord t.kind) t.line rest = right at hconstruct
  cases hconstruct with
  | none => exact closed_within (hself (.run .statement)) (t :: rest)
  | some h => exact .tail (h rest)

theorem program_within : Within (program b self) (program b' self') := by
  refine (statementsFrom_within hself hb []).bind fun nodes => ?_
  refine .get_bind (.alike (List.suffix_refl _)) fun t rest => ?_
  dsimp only
  split
  · exact .alike (List.suffix_refl _)
  · exact unexpected_extends (List.suffix_refl _)

end

/-! ### Closing the recursion -/

/-- **More levels read alike.** -/
theorem level_within {n n' : Nat} (h : n ≤ n') : Below (level n) (level n') := by
  induction n generalizing n' with
  | zero => exact fun _ => .exhausted
  | succ n ih =>
    cases n' with
    | zero => exact absurd h (Nat.not_succ_le_zero n)
    | succ n' =>
      have hn : n ≤ n' := Nat.le_of_succ_le_succ h
      intro goal
      cases goal with
      | run mode => exact run_within (ih hn) hn
      | statement => exact statement_within (ih hn) hn
      | conditional line => exact conditional_within (ih hn) hn

theorem entry_within {n n' : Nat} (h : n ≤ n') (entry : Entry) :
    Within (entry.parser n) (entry.parser n') := by
  have hself := level_within h
  cases entry with
  | program => exact program_within hself h
  | expression | nested | element | statement => exact (hself _).map
  | statements => exact statementsFrom_within hself h []
  | block => exact block_within hself h

/-! ### Bounds that are enough -/

/-- A reading that ends without having reached a bound. -/
def Ended (r : EStateM.Result (Halt SyntaxCause) (List Token) α) : Prop :=
  ∀ s, r ≠ .error .outOfFuel s

/-- What ends on a list with a mark of the end ends without the mark. -/
theorem ended_of_agrees {p : Parser α} {n b : Nat} {Q : α → Prop} {ts : List Token}
    (hagrees : Agrees n n 0 p p) (hconsumes : Consumes (fun _ => True) (ts.length + 1) p b Q) :
    Ended (p ts) := by
  have hmarked : Marked (fun _ => True) (ts ++ [⟨.finish, 0⟩]) :=
    ⟨fun _ _ => trivial, by rw [List.getLast?_concat]; rfl⟩
  have hends := hconsumes _ hmarked (by simp)
  have htally := hagrees ts
  generalize p ts = left at htally ⊢
  generalize p (ts ++ [⟨.finish, 0⟩]) = right at hends htally
  cases htally with
  | ok => exact nofun
  | fault => exact nofun
  | exhausted => exact hends.elim
  | sooner h => exact absurd h (Nat.lt_irrefl _)
  | later h => exact absurd h (Nat.lt_irrefl _)

section

variable {ts : List Token} {n bound : Nat} (hn : fuel ts ≤ n) (hbound : ts.length < bound)
include hn hbound

theorem statements_ended : Ended (statements bound (level n) ts) := by
  unfold fuel at hn
  exact ended_of_agrees (statementsFrom_agrees (level_matches (n := n) rfl) rfl [])
    (statementsFrom_consumes (level_answers n) hbound (by omega) nofun)

theorem elements_ended (closing : String) :
    Ended (commaSeparated bound (level n (.run .element)) closing ts) := by
  unfold fuel at hn
  exact ended_of_agrees (elements_agrees (level_matches (n := n) rfl) rfl)
    (elements_consumes (level_answers n) hbound (by omega))

omit hn in
theorem identifiers_ended (closing : String) :
    Ended (commaSeparated bound identifier closing ts) :=
  ended_of_agrees (n := 0) (commaSeparated_agrees identifier_agrees rfl)
    (commaSeparated_consumes hbound fun _ _ => identifier_consumes)

theorem caseValues_ended : Ended (caseValuesFrom (level n) bound [] ts) := by
  unfold fuel at hn
  exact ended_of_agrees (caseValuesFrom_agrees (level_matches (n := n) rfl) rfl [])
    (caseValuesFrom_consumes (level_answers n) hbound (by omega) nofun)

theorem arms_ended (line : Nat) : Ended (arms (level n) line bound ⟨[], none⟩ ts) := by
  unfold fuel at hn
  exact ended_of_agrees (arms_agrees (level_matches (n := n) rfl) rfl _)
    (arms_consumes (level_answers n) hbound (by omega) ⟨nofun, nofun⟩)

/-- A run ends, so its items are collected. -/
theorem collect_ended (mode : Mode) : Ended (collect (level n) mode bound ⟨true, []⟩ ts) := by
  unfold fuel at hn
  have hrun : Ended (run bound (level n) mode ts) :=
    ended_of_agrees (run_agrees (level_matches (n := n) rfl) rfl)
      (run_consumes (level_answers n) hbound (by omega))
  intro s hcollect
  refine hrun s ?_
  rw [run_eq_finishRun, currentLine_bind]
  show EStateM.bind (collect (level n) mode bound ⟨true, []⟩) _ ts = _
  rw [EStateM.bind, hcollect]

end

end Parser

/-! ### Entries -/

namespace Entry

variable {entry : Entry} {ts rest : List Token} {nodes : List Node}

theorem parse_ended (entry : Entry) (ts : List Token) : Parser.Ended (entry.parse ts) := by
  intro s hbound
  obtain ⟨nodes, rest, hok⟩ | ⟨f, rest, hfault, -⟩ := Entry.parse_cases entry ts
  · cases hok.symm.trans hbound
  · cases hfault.symm.trans hbound

/-- **Larger bounds change nothing.** -/
theorem parser_eq_parse {n : Nat} (hn : Parser.fuel ts ≤ n) : entry.parser n ts = entry.parse ts := by
  obtain ⟨s, hbound⟩ | hsame := (Parser.entry_within hn entry ts).same
  · exact absurd hbound (parse_ended entry ts s)
  · exact hsame

/-- An expression, a statement and a block take in at least one token. -/
theorem length_of_parse (h : entry.parse ts = .ok nodes rest) (hprogram : entry ≠ .program)
    (hstatements : entry ≠ .statements) : rest.length < ts.length := by
  have hsound := Parser.level_sound (Parser.fuel ts)
  have htakes := Grammar.Level.takes (Parser.fuel ts)
  cases entry with
  | program => exact absurd rfl hprogram
  | statements => exact absurd rfl hstatements
  | expression | nested | element | statement =>
    obtain ⟨node, hnode, -⟩ := Parser.map_eq_ok.1 h
    exact (htakes _ _ _ _ (hsound _ _ _ _ hnode)).2
  | block => exact ((Parser.block_sound hsound h).takes htakes).2

end Entry

/-- **Reading ends.**

* Whatever part of the grammar is read from whatever list of tokens, with marks of the end at any
  place or without: no bound is reached, larger bounds give the same answer, and what is unread in
  the end is an end of the list, also after a fault.
* An expression in any mode, a statement and a block take in at least one token.
* So every loop makes fewer passes than there are tokens and one more: those over statements, over
  arguments, elements and parameters, over the values of a case, over the arms of a switch and over
  the items of a run.
* A program is accepted only if a mark of the end comes next or nothing is left. -/
theorem reading_ends (ts : List Token) :
    (∀ entry : Entry,
      Parser.Ended (entry.parse ts) ∧
      (∀ n, Parser.fuel ts ≤ n → entry.parser n ts = entry.parse ts) ∧
      Parser.unread (entry.parse ts) <:+ ts ∧
      ∀ nodes rest, entry.parse ts = .ok nodes rest → entry ≠ .program → entry ≠ .statements →
        rest.length < ts.length) ∧
    (∀ n bound, Parser.fuel ts ≤ n → ts.length < bound →
      Parser.Ended (Parser.statements bound (Parser.level n) ts) ∧
      (∀ closing,
        Parser.Ended (Parser.commaSeparated bound (Parser.level n (.run .element)) closing ts) ∧
        Parser.Ended (Parser.commaSeparated bound Parser.identifier closing ts)) ∧
      Parser.Ended (Parser.caseValuesFrom (Parser.level n) bound [] ts) ∧
      (∀ line, Parser.Ended (Parser.arms (Parser.level n) line bound ⟨[], none⟩ ts)) ∧
      ∀ mode, Parser.Ended (Parser.collect (Parser.level n) mode bound ⟨true, []⟩ ts)) ∧
    ∀ nodes, parse ts = .ok nodes →
      ∃ rest, Entry.program.parse ts = .ok nodes rest ∧ ∀ t ∈ rest.head?, t.kind = .finish := by
  refine ⟨fun entry => ⟨Entry.parse_ended entry ts, fun n hn => Entry.parser_eq_parse hn, ?_, ?_⟩,
    fun n bound hn hbound => ?_, fun nodes hparse => ?_⟩
  · exact (Parser.entry_within (Nat.le_refl _) entry ts).suffix
  · exact fun nodes rest => Entry.length_of_parse
  · exact ⟨Parser.statements_ended hn hbound,
      fun closing => ⟨Parser.elements_ended hn hbound closing,
        Parser.identifiers_ended hbound closing⟩,
      Parser.caseValues_ended hn hbound, Parser.arms_ended hn hbound,
      Parser.collect_ended hn hbound⟩
  · unfold parse at hparse
    cases hresult : Entry.program.parse ts with
    | ok nodes' rest =>
      rw [hresult] at hparse
      cases hparse
      have hphrase := Parser.program_sound (Parser.level_sound _) hresult
      exact ⟨rest, rfl, fun t ht => Token.isFinish_iff.1 (hphrase.2 t ht)⟩
    | error halt rest =>
      rw [hresult] at hparse
      cases hparse

/-- The tokens of `f(1)` and more tokens after the mark of the end. -/
def earlyFinish : List Token :=
  [⟨.name "f", 1⟩, ⟨.symbol "(", 1⟩, ⟨.int 1, 1⟩, ⟨.symbol ")", 1⟩, ⟨.finish, 1⟩, ⟨.symbol "(", 2⟩]

theorem earlyFinish_reading_ends :
    Entry.block.parser 1000 earlyFinish = Entry.block.parse earlyFinish ∧
      (∃ nodes rest, Entry.statement.parse earlyFinish = .ok nodes rest ∧
        rest.length < earlyFinish.length) ∧
      Parser.Ended (Parser.collect (Parser.level 20) .statement 7 ⟨true, []⟩ earlyFinish) ∧
      ∃ nodes rest, Entry.program.parse earlyFinish = .ok nodes rest ∧
        ∀ t ∈ rest.head?, t.kind = .finish := by
  obtain ⟨hentries, hloops, hprogram⟩ := reading_ends earlyFinish
  refine ⟨(hentries .block).2.1 1000 (by decide), ⟨_, _, rfl, ?_⟩, ?_, _, hprogram _ rfl⟩
  · exact (hentries .statement).2.2.2 _ _ rfl nofun nofun
  · exact (hloops 20 7 (by decide) (by decide)).2.2.2.2 .statement

end PairScript
