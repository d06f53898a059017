import PairScript.Proofs.Parse.Lines

/-!
# The mark of the end means nothing but the end

A list of tokens may end with a mark or just end.  The two readings of a list, without the mark and
with it, are compared step by step (`Tally`): they have the same tokens before them except for the
mark, they give the same results, and where one fails the other fails for the same cause.  Only the
line of a fault may differ, since the mark has a line and the end of a list has none.

The two lists have different lengths and so are read within different bounds; a reading may then
reach its bound where the other goes on, if its bound is the smaller one.

`level_matches` closes the recursion.  What `PairScript.Proofs.Parse.Lines` shows of lists with a
mark then holds of all lists (`Entry.parse_cases`): bounds are never reached, and no expression is
malformed.
-/

namespace PairScript

namespace Parser

variable {α β : Type} {n m l : Nat}

/-! ### Two readings -/

/-- How a reading within `n` levels compares with one within `m` levels that has a mark of the end
on line `l` in addition. -/
inductive Tally (n m l : Nat) : EStateM.Result (Halt SyntaxCause) (List Token) α →
    EStateM.Result (Halt SyntaxCause) (List Token) α → Prop
  | ok {x : α} {rest : List Token} : Tally n m l (.ok x rest) (.ok x (rest ++ [⟨.finish, l⟩]))
  | fault {cause : SyntaxCause} {line line' : Nat} {s s' : List Token} :
      Tally n m l (.error (.fault ⟨cause, line⟩) s) (.error (.fault ⟨cause, line'⟩) s')
  | exhausted {s s' : List Token} : Tally n m l (.error .outOfFuel s) (.error .outOfFuel s')
  | sooner {s : List Token} {r' : EStateM.Result (Halt SyntaxCause) (List Token) α} (h : n < m) :
      Tally n m l (.error .outOfFuel s) r'
  | later {s' : List Token} {r : EStateM.Result (Halt SyntaxCause) (List Token) α} (h : m < n) :
      Tally n m l r (.error .outOfFuel s')

/-- Two procedures whose readings of every list compare. -/
def Agrees (n m l : Nat) (p q : Parser α) : Prop :=
  ∀ ts, Tally n m l (p ts) (q (ts ++ [⟨.finish, l⟩]))

theorem Tally.bind {p q : Parser α} {f g : α → Parser β} {ts ts' : List Token}
    (h : Tally n m l (p ts) (q ts')) (hf : ∀ x, Agrees n m l (f x) (g x)) :
    Tally n m l ((p >>= f) ts) ((q >>= g) ts') := by
  show Tally n m l (EStateM.bind p f ts) (EStateM.bind q g ts')
  unfold EStateM.bind
  generalize p ts = r at h
  generalize q ts' = r' at h
  cases h with
  | ok => exact hf _ _
  | fault => exact .fault
  | exhausted => exact .exhausted
  | sooner h => exact .sooner h
  | later h => exact .later h

/-- Both fail at one token. -/
theorem unexpected_tallies {t : Token} {expected : Expectation} {s s' : List Token} :
    Tally n m l ((unexpected t expected : Parser α) s) ((unexpected t expected : Parser α) s') := by
  unfold unexpected
  split <;> exact .fault

namespace Agrees

variable {p q : Parser α}

theorem pure {x : α} : Agrees n m l (pure x) (pure x) := fun _ => .ok

theorem fail {cause : SyntaxCause} {line line' : Nat} :
    Agrees n m l (fail cause line : Parser α) (Parser.fail cause line') := fun _ => .fault

theorem bind {f g : α → Parser β} (h : Agrees n m l p q) (hf : ∀ x, Agrees n m l (f x) (g x)) :
    Agrees n m l (p >>= f) (q >>= g) := fun ts => (h ts).bind hf

theorem map {f : α → β} (h : Agrees n m l p q) : Agrees n m l (f <$> p) (f <$> q) := by
  rw [map_eq_pure_bind, map_eq_pure_bind]
  exact h.bind fun _ => .pure

/-- Two procedures that look at the tokens first: one finds the end where the other finds the
mark. -/
theorem get_bind {f g : List Token → Parser β}
    (hnil : Tally n m l (f [] []) (g [⟨.finish, l⟩] [⟨.finish, l⟩]))
    (hcons : ∀ t rest, Tally n m l (f (t :: rest) (t :: rest))
      (g (t :: (rest ++ [⟨.finish, l⟩])) (t :: (rest ++ [⟨.finish, l⟩])))) :
    Agrees n m l (get >>= f) (get >>= g) := by
  intro ts
  cases ts with
  | nil => exact hnil
  | cons t rest => exact hcons t rest

/-- Two loops agree at all bounds that differ as much as the levels do, if one pass agrees whenever
the passes after it do. -/
theorem loop {σ : Type} {p q : Nat → σ → Parser α} (hp : ∀ s, p 0 s = exhausted)
    (hq : ∀ s, q 0 s = exhausted)
    (hstep : ∀ b b', b + m = b' + n → (∀ s, Agrees n m l (p b s) (q b' s)) →
      ∀ s, Agrees n m l (p (b + 1) s) (q (b' + 1) s)) {b b' : Nat} (hb : b + m = b' + n) :
    ∀ s, Agrees n m l (p b s) (q b' s) := by
  induction b generalizing b' with
  | zero =>
    intro s ts
    rw [hp]
    cases b' with
    | zero =>
      rw [hq]
      exact .exhausted
    | succ b' => exact .sooner (by omega)
  | succ b ih =>
    cases b' with
    | zero =>
      intro s ts
      rw [hq]
      exact .later (by omega)
    | succ b' => exact hstep b b' (by omega) (ih (by omega))

end Agrees

/-! ### Single tokens -/

theorem dropWhile_mark {p : Token → Bool} (hp : p ⟨.finish, l⟩ = false) (ts : List Token) :
    List.dropWhile p (ts ++ [⟨.finish, l⟩]) = ts.dropWhile p ++ [⟨.finish, l⟩] := by
  induction ts with
  | nil =>
    rw [List.nil_append, List.dropWhile_cons, hp]
    rfl
  | cons t ts ih =>
    rw [List.cons_append, List.dropWhile_cons, List.dropWhile_cons]
    split
    · exact ih
    · rfl

theorem skipWhile_agrees {p : Token → Bool} (hp : p ⟨.finish, l⟩ = false) :
    Agrees n m l (skipWhile p) (skipWhile p) := by
  intro ts
  show Tally n m l (.ok () (ts.dropWhile p)) (.ok () (List.dropWhile p (ts ++ [⟨.finish, l⟩])))
  rw [dropWhile_mark hp]
  exact .ok

theorem skipNewlines_agrees : Agrees n m l skipNewlines skipNewlines := skipWhile_agrees rfl

theorem skipIf_agrees {p : Token → Bool} (hp : p ⟨.finish, l⟩ = false) :
    Agrees n m l (skipIf p) (skipIf p) := by
  refine .get_bind ?_ fun t rest => ?_
  · dsimp only
    rw [hp]
    exact .ok
  · dsimp only
    split
    · exact .ok
    · exact .ok

theorem atSymbol_agrees {s : String} : Agrees n m l (atSymbol s) (atSymbol s) :=
  .get_bind .ok fun _ _ => .ok

/-- What follows a symbol that may be missing, the symbol being unread. -/
theorem atSymbol_bind_agrees {s : String} {f g : Bool → Parser β}
    (htrue : ∀ t rest, Tally n m l (f true (t :: rest)) (g true (t :: (rest ++ [⟨.finish, l⟩]))))
    (hfalse : Agrees n m l (f false) (g false)) :
    Agrees n m l (atSymbol s >>= f) (atSymbol s >>= g) := by
  intro ts
  cases ts with
  | nil => exact hfalse []
  | cons t rest =>
    show Tally n m l (f (t.isSymbol s) (t :: rest))
      (g (t.isSymbol s) (t :: (rest ++ [⟨.finish, l⟩])))
    cases t.isSymbol s with
    | true => exact htrue t rest
    | false => exact hfalse (t :: rest)

theorem expect_agrees {p : Token → Bool} {expected : Expectation} (hp : p ⟨.finish, l⟩ = false) :
    Agrees n m l (expect p expected) (expect p expected) := by
  refine .get_bind ?_ fun t rest => ?_
  · simp only [set_bind]
    rw [hp]
    exact .fault
  · simp only [set_bind]
    split
    · exact .ok
    · exact unexpected_tallies

theorem expectSymbol_agrees {s : String} : Agrees n m l (expectSymbol s) (expectSymbol s) :=
  expect_agrees rfl

theorem identifier_agrees : Agrees n m l identifier identifier := by
  refine .get_bind .fault fun t rest => ?_
  simp only [set_bind]
  cases t.kind with
  | name text =>
    dsimp only
    split
    · exact unexpected_tallies
    · exact .ok
  | _ => exact unexpected_tallies

/-! ### Lists -/

section

variable {item item' : Parser α} {closing : String} {b b' : Nat}

theorem commaSeparatedFrom_agrees (hitem : Agrees n m l item item') (hb : b + m = b' + n)
    (acc : List α) : Agrees n m l (commaSeparatedFrom item closing b acc)
      (commaSeparatedFrom item' closing b' acc) := by
  refine Agrees.loop (fun _ => rfl) (fun _ => rfl) (fun b b' _ ih acc => ?_) hb acc
  refine hitem.bind fun x => skipNewlines_agrees.bind fun _ => .get_bind .fault fun t rest => ?_
  simp only [set_bind]
  split
  · exact (skipNewlines_agrees.bind fun _ => ih (x :: acc)) rest
  · split
    · exact .ok
    · exact unexpected_tallies

theorem commaSeparated_agrees (hitem : Agrees n m l item item') (hb : b + m = b' + n) :
    Agrees n m l (commaSeparated b item closing) (commaSeparated b' item' closing) := by
  refine skipNewlines_agrees.bind fun _ => (skipIf_agrees rfl).bind fun empty => ?_
  cases empty with
  | true => exact .pure
  | false => exact commaSeparatedFrom_agrees hitem hb []

end

/-! ### Blocks and functions -/

/-- Two levels that answer goals alike.  A statement is only asked for where there is a token. -/
structure Matches (n m l : Nat) (below below' : Self) : Prop where
  run : ∀ mode, Agrees n m l (below (.run mode)) (below' (.run mode))
  statement : ∀ t rest, Tally n m l (below .statement (t :: rest))
    (below' .statement (t :: (rest ++ [⟨.finish, l⟩])))
  conditional : ∀ line, Agrees n m l (below (.conditional line)) (below' (.conditional line))

section

variable {self self' : Self} {b b' line : Nat} (hself : Matches n m l self self')
  (hb : b + m = b' + n)
include hself hb

theorem statementsFrom_agrees (acc : List Node) :
    Agrees n m l (statementsFrom self b acc) (statementsFrom self' b' acc) := by
  refine Agrees.loop (fun _ => rfl) (fun _ => rfl) (fun b b' _ ih acc => ?_) hb acc
  refine (skipWhile_agrees rfl).bind fun _ => .get_bind .ok fun t rest => ?_
  dsimp only
  split
  · exact .ok
  · exact (hself.statement t rest).bind fun node => ih (node :: acc)

theorem block_agrees : Agrees n m l (block b self) (block b' self') := by
  refine skipNewlines_agrees.bind fun _ => expectSymbol_agrees.bind fun _ => ?_
  refine (statementsFrom_agrees hself hb []).bind fun body => ?_
  exact expectSymbol_agrees.bind fun _ => .pure

theorem functionParts_agrees : Agrees n m l (functionParts b self) (functionParts b' self') := by
  have hrest : ∀ name : Option String, Agrees n m l
      (expectSymbol "(" >>= fun _ => commaSeparated b identifier ")" >>= fun params =>
        block b self >>= fun body => pure (⟨name, params, body⟩ : FunctionParts))
      (expectSymbol "(" >>= fun _ => commaSeparated b' identifier ")" >>= fun params =>
        block b' self' >>= fun body => pure ⟨name, params, body⟩) := by
    intro name
    refine expectSymbol_agrees.bind fun _ => ?_
    refine (commaSeparated_agrees identifier_agrees hb).bind fun params => ?_
    exact (block_agrees hself hb).bind fun body => .pure
  refine atSymbol_agrees.bind fun unnamed => ?_
  cases unnamed with
  | true => exact Agrees.pure.bind hrest
  | false => exact identifier_agrees.map.bind hrest

/-! ### Expressions -/

theorem elements_agrees {closing : String} :
    Agrees n m l (commaSeparated b (self (.run .element)) closing)
      (commaSeparated b' (self' (.run .element)) closing) :=
  commaSeparated_agrees (hself.run .element) hb

theorem operand_agrees {first : Bool} :
    Agrees n m l (operand b self first) (operand b' self' first) := by
  refine .get_bind .fault fun t rest => ?_
  simp only [set_bind]
  cases t.kind with
  | int | float | str => exact .ok
  | name text =>
    dsimp only
    split
    · exact ((functionParts_agrees hself hb).bind fun f => .pure) rest
    · split
      · exact .fault
      · refine atSymbol_bind_agrees (fun t' rest => ?_) ?_ rest
        · exact ((elements_agrees hself hb).bind fun arguments => .pure) rest
        · exact .pure
  | symbol text =>
    dsimp only
    split
    · refine ((hself.run .nested).bind fun inner => ?_) rest
      exact skipNewlines_agrees.bind fun _ => expectSymbol_agrees.bind fun _ => .pure
    · split
      · refine ((elements_agrees hself hb).bind fun elements => ?_) rest
        split <;> exact .pure
      · exact .fault
  | finish => exact .fault
  | newline =>
    dsimp only
    split <;> exact .fault

omit hself hb in
/-- The line of a run matters only for its faults. -/
theorem buildTree_agrees {items : List Item} {line' : Nat} :
    Agrees n m l (ofExcept (Item.buildTree items line))
      (ofExcept (Item.buildTree items line')) := by
  unfold Item.buildTree
  cases items.foldlM Item.reduce [] with
  | error f => exact fun _ => .fault
  | ok stack =>
    match stack with
    | [] => exact fun _ => .fault
    | [tree] => exact .pure
    | _ :: _ :: _ => exact fun _ => .fault

/-- A run that breaks off at the end of the list is found to be incomplete, and one that breaks off
at the mark lacks an operand. -/
theorem collect_agrees {mode : Mode} {line' : Nat} (c : Collected) :
    Agrees n m l (collect self mode b c >>= finishRun line)
      (collect self' mode b' c >>= finishRun line') := by
  refine Agrees.loop (p := fun b c => collect self mode b c >>= finishRun line)
    (q := fun b c => collect self' mode b c >>= finishRun line')
    (fun _ => rfl) (fun _ => rfl) (fun b b' hb ih c => ?_) hb c
  intro ts
  simp only [collect, bind_assoc, get_bind]
  obtain ⟨due, items⟩ := c
  cases ts with
  | nil =>
    cases due with
    | true => exact .fault
    | false => exact buildTree_agrees []
  | cons t rest =>
    simp only [List.cons_append]
    cases due with
    | true =>
      simp only [↓reduceIte]
      by_cases hbreak : (t.isNewline && (mode != .statement || !items.isEmpty)) = true
      · rw [if_pos hbreak, if_pos hbreak]
        exact ih _ rest
      · rw [if_neg hbreak, if_neg hbreak]
        cases prefixOperator? t with
        | some name =>
          by_cases hplus : (name == "+") = true
          · simp only [hplus, ↓reduceIte, bind_assoc]
            exact ih _ rest
          · simp only [hplus, bind_assoc]
            exact ih _ rest
        | none =>
          simp only [bind_assoc]
          exact ((operand_agrees hself hb).bind fun node => ih _) (t :: rest)
    | false =>
      cases continuation mode t.kind with
      | stop => exact buildTree_agrees (t :: rest)
      | ignore | after | between => exact ih _ rest
      | index =>
        simp only [Bool.false_eq_true, ↓reduceIte, bind_assoc]
        exact ((hself.run .nested).bind fun index => expectSymbol_agrees.bind fun _ => ih _) rest
      | reject => exact .fault

theorem run_agrees {mode : Mode} : Agrees n m l (run b self mode) (run b' self' mode) := by
  intro ts
  rw [run_eq_finishRun, run_eq_finishRun, currentLine_bind, currentLine_bind]
  exact collect_agrees hself hb ⟨true, []⟩ ts

/-! ### Statements -/

omit hb in
theorem variableDefinition_agrees :
    Agrees n m l (variableDefinition self line) (variableDefinition self' line) := by
  refine identifier_agrees.bind fun name => (skipIf_agrees rfl).bind fun valued => ?_
  cases valued with
  | true => exact (hself.run .statement).bind fun value => .pure
  | false => exact .pure

theorem functionDefinition_agrees :
    Agrees n m l (functionDefinition b self line) (functionDefinition b' self' line) := by
  refine (functionParts_agrees hself hb).bind fun f => ?_
  split
  · exact .pure
  · exact .fail

theorem otherwise_agrees : Agrees n m l (otherwise b self) (otherwise b' self') := by
  have hblock : Agrees n m l (some <$> block b self) (some <$> block b' self') :=
    (block_agrees hself hb).map
  intro ts
  unfold otherwise
  rw [get_bind, get_bind, dropWhile_mark rfl]
  cases ts.dropWhile Token.isNewline with
  | nil => exact .ok
  | cons t rest =>
    simp only [List.cons_append]
    by_cases helse : t.isName "else" = true
    · rw [if_pos helse, if_pos helse]
      cases rest with
      | nil => exact hblock []
      | cons next rest =>
        simp only [List.cons_append, set_bind]
        by_cases hif : next.isName "if" = true
        · rw [if_pos hif, if_pos hif]
          exact ((hself.conditional next.line).bind fun inner => .pure) rest
        · rw [if_neg hif, if_neg hif]
          exact hblock (next :: rest)
    · rw [if_neg helse, if_neg helse]
      exact .ok

theorem conditional_agrees :
    Agrees n m l (conditional b self line) (conditional b' self' line) := by
  refine (hself.run .statement).bind fun condition => (block_agrees hself hb).bind fun body => ?_
  exact (otherwise_agrees hself hb).bind fun other => .pure

theorem caseValuesFrom_agrees (acc : List Node) :
    Agrees n m l (caseValuesFrom self b acc) (caseValuesFrom self' b' acc) := by
  refine Agrees.loop (fun _ => rfl) (fun _ => rfl) (fun b b' _ ih acc => ?_) hb acc
  refine (hself.run .element).bind fun value => (skipIf_agrees rfl).bind fun more => ?_
  cases more with
  | true => exact ih (value :: acc)
  | false => exact .pure

theorem arms_agrees (a : Arms) : Agrees n m l (arms self line b a) (arms self' line b' a) := by
  refine Agrees.loop (fun _ => rfl) (fun _ => rfl) (fun b b' hb ih a => ?_) hb a
  have hbody : ∀ f : List Node → Arms, Agrees n m l
      (expectSymbol ":" >>= fun _ => statements b self >>= fun body => arms self line b (f body))
      (expectSymbol ":" >>= fun _ => statements b' self' >>= fun body =>
        arms self' line b' (f body)) :=
    fun f => expectSymbol_agrees.bind fun _ => (statementsFrom_agrees hself hb []).bind
      fun body => ih (f body)
  refine (skipWhile_agrees rfl).bind fun _ => .get_bind .fault fun t rest => ?_
  dsimp only
  split
  · exact .ok
  · split
    · exact ((caseValuesFrom_agrees hself hb []).bind fun values => hbody _) rest
    · split
      · exact hbody _ rest
      · exact unexpected_tallies

theorem switch_agrees : Agrees n m l (switch b self line) (switch b' self' line) := by
  refine (hself.run .statement).bind fun subject => skipNewlines_agrees.bind fun _ => ?_
  refine expectSymbol_agrees.bind fun _ => ?_
  exact (arms_agrees hself hb ⟨[], none⟩).bind fun a => .pure

theorem whileLoop_agrees : Agrees n m l (whileLoop b self line) (whileLoop b' self' line) :=
  (hself.run .statement).bind fun _ => (block_agrees hself hb).bind fun _ => .pure

theorem rangeLoop_agrees {name : String} {start : Node} {closed : Bool} :
    Agrees n m l (rangeLoop b self name start closed line)
      (rangeLoop b' self' name start closed line) := by
  refine (hself.run .statement).bind fun limit => (skipIf_agrees rfl).bind fun stepped => ?_
  have hbody : ∀ step : Option Node, Agrees n m l
      (block b self >>= fun body => pure (Node.rangeLoop name start limit closed step body line))
      (block b' self' >>= fun body =>
        pure (Node.rangeLoop name start limit closed step body line)) :=
    fun step => (block_agrees hself hb).bind fun body => .pure
  cases stepped with
  | true => exact (hself.run .statement).map.bind hbody
  | false => exact Agrees.pure.bind hbody

theorem forLoop_agrees : Agrees n m l (forLoop b self line) (forLoop b' self' line) := by
  refine identifier_agrees.bind fun name => (expect_agrees rfl).bind fun _ => ?_
  refine (hself.run .statement).bind fun start => (skipIf_agrees rfl).bind fun closed => ?_
  cases closed with
  | true => exact rangeLoop_agrees hself hb
  | false =>
    refine (skipIf_agrees rfl).bind fun opened => ?_
    cases opened with
    | true => exact rangeLoop_agrees hself hb
    | false => exact (block_agrees hself hb).bind fun body => .pure

omit hb in
theorem giveBack_agrees : Agrees n m l (giveBack self line) (giveBack self' line) := by
  have hend : Agrees n m l atStatementEnd atStatementEnd := .get_bind .ok fun _ _ => .ok
  refine hend.bind fun ended => ?_
  cases ended with
  | true => exact .pure
  | false => exact (hself.run .statement).bind fun value => .pure

omit hself hb in
theorem closed_agrees {p q : Parser Node} (h : Agrees n m l p q) :
    Agrees n m l (closed p) (closed q) := by
  refine h.bind fun node => Agrees.bind (.get_bind .ok fun t rest => ?_) fun _ => .pure
  dsimp only
  split
  · exact .ok
  · split
    · exact .ok
    · exact unexpected_tallies

omit hself hb in
theorem blockClosed_agrees {p q : Parser Node} (h : Agrees n m l p q) :
    Agrees n m l (blockClosed p) (blockClosed q) :=
  h.bind fun _ => ((skipIf_agrees rfl).bind fun _ => .pure).bind fun _ => .pure

/-- Both lists start the same construct, the mark being no parenthesis. -/
theorem construct_agrees {word : String} {rest : List Token} :
    Option.Rel (Agrees n m l) (construct? b self word line rest)
      (construct? b' self' word line (rest ++ [⟨.finish, l⟩])) := by
  have hparameters : startsParameters (rest ++ [⟨.finish, l⟩]) = startsParameters rest := by
    cases rest <;> rfl
  unfold construct?
  rw [hparameters]
  split
  · exact .some (closed_agrees (variableDefinition_agrees hself))
  · split
    · exact .none
    · exact .some (blockClosed_agrees (functionDefinition_agrees hself hb))
  · exact .some (blockClosed_agrees (conditional_agrees hself hb))
  · exact .some (blockClosed_agrees (whileLoop_agrees hself hb))
  · exact .some (blockClosed_agrees (forLoop_agrees hself hb))
  · exact .some (blockClosed_agrees (switch_agrees hself hb))
  · exact .some (closed_agrees .pure)
  · exact .some (closed_agrees .pure)
  · exact .some (closed_agrees .pure)
  · exact .some (closed_agrees (giveBack_agrees hself))
  · exact .none

theorem statement_tallies (t : Token) (rest : List Token) :
    Tally n m l (statement b self (t :: rest))
      (statement b' self' (t :: (rest ++ [⟨.finish, l⟩]))) := by
  have hconstruct : Option.Rel (Agrees n m l) (construct? b self (leadingWord t.kind) t.line rest)
      (construct? b' self' (leadingWord t.kind) t.line (rest ++ [⟨.finish, l⟩])) :=
    construct_agrees hself hb
  unfold statement
  rw [get_bind, get_bind]
  dsimp only
  generalize construct? b self (leadingWord t.kind) t.line rest = left at hconstruct
  generalize construct? b' self' (leadingWord t.kind) t.line (rest ++ [⟨.finish, l⟩]) = right
    at hconstruct
  cases hconstruct with
  | none => exact closed_agrees (hself.run .statement) (t :: rest)
  | some h => exact h rest

end

/-! ### Whole programs -/

theorem level_matches {b b' : Nat} (hb : b + m = b' + n) :
    Matches n m l (level b) (level b') := by
  induction b generalizing b' with
  | zero =>
    have hzero : ∀ goal ts,
        Tally n m l (level 0 goal ts) (level b' goal (ts ++ [⟨.finish, l⟩])) := by
      intro goal ts
      cases b' with
      | zero => exact .exhausted
      | succ b' => exact .sooner (by omega)
    exact ⟨fun _ => hzero _, fun t rest => hzero _ (t :: rest), fun _ => hzero _⟩
  | succ b ih =>
    cases b' with
    | zero =>
      have hlater : m < n := by omega
      exact ⟨fun _ _ => .later hlater, fun _ _ => .later hlater, fun _ _ => .later hlater⟩
    | succ b' =>
      have hb : b + m = b' + n := by omega
      have hself := ih hb
      exact ⟨fun _ => run_agrees hself hb, statement_tallies hself hb,
        fun _ => conditional_agrees hself hb⟩

theorem program_agrees {self self' : Self} {b b' : Nat} (hself : Matches n m l self self')
    (hb : b + m = b' + n) : Agrees n m l (program b self) (program b' self') := by
  refine (statementsFrom_agrees hself hb []).bind fun nodes => ?_
  refine .get_bind .ok fun t rest => ?_
  dsimp only
  split
  · exact .ok
  · exact unexpected_tallies

/-- Every part of the grammar is read alike with and without the mark; a statement needs a token. -/
theorem entry_tallies (n m l : Nat) (entry : Entry) (ts : List Token)
    (hts : entry = .statement → ts ≠ []) :
    Tally n m l (entry.parser n ts) (entry.parser m (ts ++ [⟨.finish, l⟩])) := by
  have hb : n + m = m + n := Nat.add_comm n m
  have hself : Matches n m l (level n) (level m) := level_matches hb
  cases entry with
  | program => exact program_agrees hself hb ts
  | expression | nested | element => exact (hself.run _).map ts
  | statement =>
    cases ts with
    | nil => exact absurd rfl (hts rfl)
    | cons t rest =>
      show Tally n m l ((List.singleton <$> level n .statement) (t :: rest))
        ((List.singleton <$> level m .statement) (t :: (rest ++ [⟨.finish, l⟩])))
      rw [map_eq_pure_bind, map_eq_pure_bind]
      exact (hself.statement t rest).bind fun _ => .pure
  | statements => exact statementsFrom_agrees hself hb [] ts
  | block => exact block_agrees hself hb ts

end Parser

/-! ### Every list -/

/-- How every part of the grammar is read from every list: the bound is never reached, and no
expression is found to be malformed. -/
theorem Entry.parse_cases (entry : Entry) (ts : List Token) :
    (∃ nodes rest, entry.parse ts = .ok nodes rest) ∨
      ∃ f rest, entry.parse ts = .error (.fault f) rest ∧ f.cause ≠ .malformedExpression := by
  by_cases hempty : entry = .statement ∧ ts = []
  · obtain ⟨rfl, rfl⟩ := hempty
    exact .inr ⟨⟨.unexpectedEnd, 0⟩, [], rfl, nofun⟩
  · -- the bound of the list is enough for one token more, which is the mark
    have hmarked : Marked (fun _ => True) (ts ++ [⟨.finish, 0⟩]) :=
      ⟨fun _ _ => trivial, by rw [List.getLast?_concat]; rfl⟩
    have hends := Parser.entry_consumes entry (a := ts.length + 1) (n := Parser.fuel ts)
      (by unfold Parser.fuel; omega) _ hmarked (by simp)
    have htally := Parser.entry_tallies (Parser.fuel ts) (Parser.fuel ts) 0 entry ts
      fun hentry hts => hempty ⟨hentry, hts⟩
    unfold Entry.parse
    generalize entry.parser (Parser.fuel ts) ts = left at htally ⊢
    generalize entry.parser (Parser.fuel ts) (ts ++ [⟨.finish, 0⟩]) = right at hends htally
    cases htally with
    | ok => exact .inl ⟨_, _, rfl⟩
    | fault => exact .inr ⟨_, _, rfl, hends.2⟩
    | exhausted => exact hends.elim
    | sooner h => exact absurd h (Nat.lt_irrefl _)
    | later h => exact absurd h (Nat.lt_irrefl _)

/-- **No expression is malformed.**

* Whatever part of the grammar is read, from whatever list of tokens, with a mark of the end or
  without: there is a result or a fault, and the fault is never that an expression is malformed.
* Whatever run is collected, at any level of the grammar and in any mode: in its post-order every
  operator finds its operands on the stack, and one tree is left.  The folding fails only because an
  operator does not accept its operands. -/
theorem no_expression_is_malformed :
    (∀ (entry : Entry) (ts : List Token),
      (∃ nodes rest, entry.parse ts = .ok nodes rest) ∨
        ∃ f rest, entry.parse ts = .error (.fault f) rest ∧ f.cause ≠ .malformedExpression) ∧
    (∀ (ts : List Token) (line : Nat),
      parse ts ≠ .error (.fault ⟨.malformedExpression, line⟩)) ∧
    ∀ (self : Parser.Self) (mode : Mode) (bound : Nat) (ts rest : List Token)
      (c : Parser.Collected), Parser.collect self mode bound ⟨true, []⟩ ts = .ok c rest →
        c.operandDue = false →
          (∀ before item after stack,
            Item.postOrder c.items.reverse = before ++ item :: after →
              before.foldlM Item.reduce [] = .ok stack → item.operands ≤ stack.length) ∧
          (∀ stack, (Item.postOrder c.items.reverse).foldlM Item.reduce [] = .ok stack →
            ∃ tree, stack = [tree]) ∧
          ∀ line, (∃ tree, Item.buildTree (Item.postOrder c.items.reverse) line = .ok tree) ∨
            ∃ f, Item.buildTree (Item.postOrder c.items.reverse) line = .error f ∧
              (f.cause = .invalidTarget ∨ f.cause = .invalidMember) := by
  refine ⟨Entry.parse_cases, ?_, ?_⟩
  · intro ts line hparse
    unfold parse at hparse
    obtain ⟨_, _, hok⟩ | ⟨f, _, hfault, hcause⟩ := Entry.parse_cases .program ts
    · rw [hok] at hparse
      cases hparse
    · rw [hfault] at hparse
      cases hparse
      exact hcause rfl
  · intro self mode bound ts rest c hcollect hdone
    have hadds : Item.AddsUp c.items.reverse := Parser.collect_addsUp hcollect hdone
    refine ⟨fun _ _ _ _ => hadds.enough, fun _ => hadds.single, fun line => ?_⟩
    cases htree : Item.buildTree (Item.postOrder c.items.reverse) line with
    | ok tree => exact .inl ⟨tree, rfl⟩
    | error f => exact .inr ⟨f, rfl, hadds.accepts line f htree⟩

/-- The tokens of `-a ** b[1]`. -/
def negatedPower : List Token :=
  [⟨.symbol "-", 1⟩, ⟨.name "a", 1⟩, ⟨.symbol "**", 1⟩, ⟨.name "b", 1⟩, ⟨.symbol "[", 1⟩,
    ⟨.int 1, 1⟩, ⟨.symbol "]", 1⟩, ⟨.finish, 1⟩]

theorem negatedPower_is_not_malformed :
    ∃ c rest, Parser.collect (Parser.level 3) .statement 6 ⟨true, []⟩ negatedPower = .ok c rest ∧
      c.operandDue = false ∧ c.items.length = 6 ∧
      ∀ stack, (Item.postOrder c.items.reverse).foldlM Item.reduce [] = .ok stack →
        ∃ tree, stack = [tree] := by
  refine ⟨_, _, rfl, rfl, rfl, ?_⟩
  exact (no_expression_is_malformed.2.2 (Parser.level 3) .statement 6 negatedPower _ _ rfl rfl).2.1

/-- **The mark of the end means nothing but the end.**  With or without it a list of tokens is read
as the same program, or the reading fails for the same cause. -/
theorem endMark_means_only_the_end (ts : List Token) (l : Nat) :
    (∃ nodes, parse ts = .ok nodes ∧ parse (ts ++ [⟨.finish, l⟩]) = .ok nodes) ∨
      ∃ cause line line', parse ts = .error (.fault ⟨cause, line⟩) ∧
        parse (ts ++ [⟨.finish, l⟩]) = .error (.fault ⟨cause, line'⟩) := by
  have hfuel : Parser.fuel ts < Parser.fuel (ts ++ [⟨.finish, l⟩]) := by
    unfold Parser.fuel
    rw [List.length_append, List.length_singleton]
    omega
  have htally := Parser.entry_tallies (Parser.fuel ts) (Parser.fuel (ts ++ [⟨.finish, l⟩])) l
    .program ts nofun
  have hcases := Entry.parse_cases .program ts
  unfold parse
  unfold Entry.parse at hcases ⊢
  generalize Entry.program.parser (Parser.fuel ts) ts = left at htally hcases ⊢
  generalize Entry.program.parser (Parser.fuel (ts ++ [⟨.finish, l⟩]))
    (ts ++ [⟨.finish, l⟩]) = right at htally ⊢
  cases htally with
  | ok => exact .inl ⟨_, rfl, rfl⟩
  | fault => exact .inr ⟨_, _, _, rfl, rfl⟩
  | exhausted | sooner =>
    obtain ⟨_, _, hok⟩ | ⟨_, _, hfault, -⟩ := hcases
    · cases hok
    · cases hfault
  | later h => exact absurd h (Nat.lt_asymm hfuel)

end PairScript
