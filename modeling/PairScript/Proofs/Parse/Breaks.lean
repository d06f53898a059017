import PairScript.Proofs.Parse.Complete

/-!
# Line breaks between brackets

Between brackets a line break stands for nothing: the phrases of a run there are phrases without the
line breaks too (`unbroken`), and stand for the same.  What is left is a run of a statement, in
which no line break ends anything.

* A function brings a block with statements, in which line breaks do mean something, so no token
  may be the word `func` (`Functionless`).
* The converse fails.  A name and a parenthesis after it are a call, but no longer with a line break
  between them; a run goes on after a name, and no run goes on with a parenthesis
  (`Items.not_called`).

The lines of a tree are those of tokens that are no line breaks, so even they stay the same.
-/

namespace PairScript.Grammar

variable {α : Type} {ts mid rest : List Token} {t : Token}

/-- The tokens without the line breaks among them. -/
def unbroken (ts : List Token) : List Token := ts.filter fun t => !t.isNewline

/-- No token is the keyword of functions. -/
def Functionless (ts : List Token) : Prop := ∀ t ∈ ts, t.kind ≠ .name "func"

/-! ### Tokens -/

theorem unbroken_break (h : t.kind = .newline) (ts : List Token) :
    unbroken (t :: ts) = unbroken ts := by
  have hbreak : t.isNewline = true := Token.isNewline_iff.2 h
  exact List.filter_cons_of_neg (by simp [hbreak])

theorem unbroken_cons (h : t.isNewline = false) (ts : List Token) :
    unbroken (t :: ts) = t :: unbroken ts :=
  List.filter_cons_of_pos (by simp [h])

/-- A token of some other kind stays. -/
theorem unbroken_of_kind {kind : Token.Kind} (h : t.kind = kind) (hkind : kind ≠ .newline)
    (ts : List Token) : unbroken (t :: ts) = t :: unbroken ts :=
  unbroken_cons (Parser.isNewline_eq_false h hkind) ts

theorem unbroken_pastBreaks (ts : List Token) : unbroken (pastBreaks ts) = unbroken ts := by
  induction ts with
  | nil => rfl
  | cons t ts ih =>
    rw [pastBreaks, List.dropWhile_cons]
    split
    next hbreak => rw [unbroken_break (Token.isNewline_iff.1 hbreak), ih]
    next => rfl

theorem pastBreaks_unbroken (ts : List Token) : pastBreaks (unbroken ts) = unbroken ts := by
  cases hts : unbroken ts with
  | nil => rfl
  | cons t rest =>
    have hmem : t ∈ unbroken ts := hts ▸ List.mem_cons_self
    have hbreak : t.isNewline = false := by simpa using (List.mem_filter.1 hmem).2
    exact List.dropWhile_cons_of_neg (by simp [hbreak])

/-- What follows line breaks follows at once without them. -/
theorem unbroken_uncons (h : pastBreaks ts = t :: rest) :
    pastBreaks (unbroken ts) = t :: unbroken rest := by
  have hbreak : t.isNewline = false := by
    have hhead := List.head?_dropWhile_not Token.isNewline ts
    rwa [← pastBreaks, h] at hhead
  rw [pastBreaks_unbroken, ← unbroken_pastBreaks, h, unbroken_cons hbreak]

theorem NotNext.without_breaks {p : Token → Bool} (h : NotNext p (pastBreaks ts)) :
    NotNext p (pastBreaks (unbroken ts)) := by
  cases hts : pastBreaks ts with
  | nil =>
    rw [pastBreaks_unbroken, ← unbroken_pastBreaks, hts]
    exact nofun
  | cons t rest =>
    rw [unbroken_uncons hts]
    rw [hts] at h
    exact h

theorem Functionless.suffix (h : Functionless ts) (hrest : rest <:+ ts) : Functionless rest :=
  fun t ht => h t (hrest.mem ht)

theorem Functionless.tail (h : Functionless (t :: ts)) : Functionless ts :=
  h.suffix (List.suffix_cons t ts)

theorem Functionless.pastBreaks (h : Functionless ts) : Functionless (pastBreaks ts) :=
  h.suffix (List.dropWhile_suffix _)

theorem Functionless.after (h : Functionless ts) (hrest : Takes ts rest) : Functionless rest :=
  h.suffix hrest.1

/-! ### Lists -/

section

variable {Item : Phrase α} {closing : String} {as : List α}
  (htakes : ∀ ts a rest, Item ts a rest → Takes ts rest)
  (hitem : ∀ ts a rest, Item ts a rest → Functionless ts → Item (unbroken ts) a (unbroken rest))
include htakes hitem

theorem Commas.without_breaks (h : Commas Item closing ts as rest) (hfree : Functionless ts) :
    Commas Item closing (unbroken ts) as (unbroken rest) := by
  induction h with
  | last item after closes => exact .last (hitem _ _ _ item hfree) (unbroken_uncons after) closes
  | @more ts mid mid' rest a as comma item after separates others ih =>
    have hmid : Functionless mid' :=
      hfree.after ((htakes _ _ _ item).trans (takes_dropWhile after))
    refine .more (hitem _ _ _ item hfree) (unbroken_uncons after) separates ?_
    rw [pastBreaks_unbroken, ← unbroken_pastBreaks]
    exact ih hmid.pastBreaks

theorem CommaList.without_breaks (h : CommaList Item closing ts as rest)
    (hfree : Functionless ts) : CommaList Item closing (unbroken ts) as (unbroken rest) := by
  cases h with
  | empty after closes => exact .empty (unbroken_uncons after) closes
  | items opens list =>
    refine .items opens.without_breaks ?_
    rw [pastBreaks_unbroken, ← unbroken_pastBreaks]
    exact list.without_breaks htakes hitem hfree.pastBreaks

end

/-! ### Runs -/

section

variable {R : Goal → Phrase Node} {mode mode' : Mode} {node : Node} {items : List Item}

/-- Between brackets a line break means nothing. -/
theorem continuation_newline (hmode : mode ≠ .statement) :
    Parser.continuation mode .newline = .ignore := by
  cases mode with
  | statement => exact absurd rfl hmode
  | nested => rfl
  | element => rfl

theorem isNewline_of_stop (hmode : mode ≠ .statement)
    (h : Parser.continuation mode t.kind = .stop) : t.isNewline = false := by
  rw [← Bool.not_eq_true, Token.isNewline_iff]
  intro hkind
  rw [hkind] at h
  cases (continuation_newline hmode).symm.trans h

/-- Runs that treat symbols alike go on alike, line breaks apart. -/
theorem continuation_same {kind : Token.Kind}
    (hsame : ∀ text, Parser.symbolContinuation mode' text = Parser.symbolContinuation mode text)
    (hkind : kind ≠ .newline) :
    Parser.continuation mode' kind = Parser.continuation mode kind := by
  cases kind with
  | newline => exact absurd rfl hkind
  | symbol text => exact hsame text
  | finish | name | int | float | str => rfl

/-- No run goes on with a parenthesis. -/
theorem continuation_parenthesis (mode : Mode) :
    Parser.continuation mode (.symbol "(") = .reject := by
  cases mode with
  | statement => rfl
  | nested => rfl
  | element => rfl

/-- After an operand a run between brackets does not go on with a parenthesis, whatever line breaks
stand before that. -/
theorem Items.not_called {due started : Bool} (hmode : mode ≠ .statement)
    (h : Items R mode due started ts items rest) (hdue : due = false) :
    NotNext (·.isSymbol "(") (unbroken ts) := by
  induction h with
  | @done ts stops =>
    cases ts with
    | nil => exact nofun
    | cons t ts =>
      have hstop := stops t rfl
      rw [unbroken_cons (isNewline_of_stop hmode hstop)]
      rintro t ⟨⟩
      rw [← Bool.not_eq_true, Token.isSymbol_iff]
      intro hkind
      rw [hkind] at hstop
      cases (continuation_parenthesis mode).symm.trans hstop
  | lineBreak | plus | before | operand => cases hdue
  | ignored kind skips others ih =>
    rw [unbroken_break kind]
    exact ih rfl
  | after kind operator others ih =>
    rw [unbroken_of_kind kind nofun]
    rintro t ⟨⟩
    rcases operator with rfl | rfl
    · exact Parser.isSymbol_eq_false kind (by decide)
    · exact Parser.isSymbol_eq_false kind (by decide)
  | index kind run closes others ih =>
    rw [unbroken_of_kind kind nofun]
    rintro t ⟨⟩
    exact Parser.isSymbol_eq_false kind (by decide)
  | between kind operator others ih =>
    rw [unbroken_of_kind kind nofun]
    rintro t ⟨⟩
    refine Parser.isSymbol_eq_false kind ?_
    rintro rfl
    cases operator.symm.trans (continuation_parenthesis mode)

variable (hR : ∀ goal ts node rest, R goal ts node rest → Takes ts rest)
  (hbreaks : ∀ {mode ts node rest}, mode ≠ .statement → R (.run mode) ts node rest →
    Functionless ts → R (.run mode) (unbroken ts) node (unbroken rest))
include hR hbreaks

theorem elements_without_breaks {closing : String} {nodes : List Node}
    (h : CommaList (R (.run .element)) closing ts nodes rest) (hfree : Functionless ts) :
    CommaList (R (.run .element)) closing (unbroken ts) nodes (unbroken rest) :=
  h.without_breaks (hR _) (fun _ _ _ => hbreaks nofun) hfree

/-- A name stays a name only as long as no parenthesis moves up to it. -/
theorem Operand.without_breaks (h : Operand R ts node rest) (hfree : Functionless ts)
    (hnext : NotNext (·.isSymbol "(") (unbroken rest)) :
    Operand R (unbroken ts) node (unbroken rest) := by
  cases h with
  | int kind =>
    rw [unbroken_of_kind kind nofun]
    exact .int kind
  | float kind =>
    rw [unbroken_of_kind kind nofun]
    exact .float kind
  | str kind =>
    rw [unbroken_of_kind kind nofun]
    exact .str kind
  | function kind parts => exact absurd kind (hfree _ List.mem_cons_self)
  | call kind free opens list =>
    rw [unbroken_of_kind kind nofun, unbroken_of_kind opens nofun]
    exact .call kind free opens (elements_without_breaks hR hbreaks list hfree.tail.tail)
  | reference kind free plain =>
    rw [unbroken_of_kind kind nofun]
    exact .reference kind free hnext
  | group kind run after closes =>
    rw [unbroken_of_kind kind nofun]
    exact .group kind (hbreaks nofun run hfree.tail) (unbroken_uncons after) closes
  | empty kind list =>
    rw [unbroken_of_kind kind nofun]
    exact .empty kind (elements_without_breaks hR hbreaks list hfree.tail)
  | list kind list some =>
    rw [unbroken_of_kind kind nofun]
    exact .list kind (elements_without_breaks hR hbreaks list hfree.tail) some

/-- The items of a run between brackets are those of a run without the line breaks, also of one in a
mode in which line breaks would mean something, as long as a comma means the same in both. -/
theorem Items.without_breaks {due started : Bool} (hmode : mode ≠ .statement)
    (hsame : ∀ text, Parser.symbolContinuation mode' text = Parser.symbolContinuation mode text)
    (h : Items R mode due started ts items rest) (hfree : Functionless ts) :
    Items R mode' due started (unbroken ts) items (unbroken rest) := by
  induction h with
  | @done ts stops =>
    refine .done ?_
    cases ts with
    | nil => exact nofun
    | cons t ts =>
      have hstop := stops t rfl
      have hbreak := isNewline_of_stop hmode hstop
      have hkind : t.kind ≠ .newline := by
        rw [ne_eq, ← Token.isNewline_iff, hbreak]
        decide
      rw [unbroken_cons hbreak]
      rintro t ⟨⟩
      rw [continuation_same hsame hkind, hstop]
  | lineBreak kind skips others ih =>
    rw [unbroken_break kind]
    exact ih hfree.tail
  | plus kind others ih =>
    rw [unbroken_of_kind kind nofun]
    exact .plus kind (ih hfree.tail)
  | before kind operator meaning others ih =>
    rw [unbroken_of_kind kind nofun]
    exact .before kind operator meaning (ih hfree.tail)
  | operand operand others ih =>
    have hnext := others.not_called hmode rfl
    exact .operand (operand.without_breaks hR hbreaks hfree hnext)
      (ih (hfree.after (operand.takes hR)))
  | ignored kind skips others ih =>
    rw [unbroken_break kind]
    exact ih hfree.tail
  | after kind operator others ih =>
    rw [unbroken_of_kind kind nofun]
    exact .after kind operator (ih hfree.tail)
  | index kind run closes others ih =>
    have hnested : Mode.nested ≠ .statement := by decide
    have hrun := hbreaks hnested run hfree.tail
    have hmid := (hfree.tail.after (hR _ _ _ _ run)).tail
    rw [unbroken_of_kind closes nofun] at hrun
    rw [unbroken_of_kind kind nofun]
    exact .index kind hrun closes (ih hmid)
  | between kind operator others ih =>
    rw [unbroken_of_kind kind nofun]
    exact .between kind ((hsame _).trans operator) (ih hfree.tail)

end

/-- **A run between brackets is one without its line breaks**, for the same tree. -/
theorem Level.without_breaks (n : Nat) {mode mode' : Mode} {node : Node}
    (hmode : mode ≠ .statement)
    (hsame : ∀ text, Parser.symbolContinuation mode' text = Parser.symbolContinuation mode text)
    (h : Level n (.run mode) ts node rest) (hfree : Functionless ts) :
    Level n (.run mode') (unbroken ts) node (unbroken rest) := by
  induction n generalizing mode mode' ts node rest with
  | zero => exact h.elim
  | succ n ih =>
    obtain ⟨items, line, hitems, htree⟩ := h
    have hbelow : ∀ {mode ts node rest}, mode ≠ .statement → Level n (.run mode) ts node rest →
        Functionless ts → Level n (.run mode) (unbroken ts) node (unbroken rest) :=
      fun hmode h hfree => ih hmode (fun _ => rfl) h hfree
    exact ⟨items, line, hitems.without_breaks (Level.takes n) hbelow hmode hsame hfree, htree⟩

end PairScript.Grammar

namespace PairScript

/-- **Line breaks between brackets carry no meaning.**  Tokens without functions that are accepted as
a run between brackets are accepted as an expression of a statement when all line breaks are taken
out of them.  The tree is the same, lines included, and so are the tokens that are left, but for
their line breaks. -/
theorem breaks_in_brackets_mean_nothing {ts rest : List Token} {nodes : List Node}
    (hfree : Grammar.Functionless ts) (h : Entry.nested.parse ts = .ok nodes rest) :
    Entry.expression.parse (Grammar.unbroken ts) = .ok nodes (Grammar.unbroken rest) := by
  obtain ⟨node, hnode, hnodes⟩ := Parser.map_eq_ok.1 h
  have hphrase := Parser.level_sound _ _ _ _ _ hnode
  have hnested : Mode.nested ≠ .statement := by decide
  have hunbroken : Grammar.Level (Parser.fuel ts) (.run .statement) (Grammar.unbroken ts) node
      (Grammar.unbroken rest) :=
    Grammar.Level.without_breaks _ hnested (fun _ => rfl) hphrase hfree
  refine Parser.map_eq_ok.2 ⟨node, ?_, hnodes⟩
  refine Parser.level_complete _ _ _ _ _ _ hunbroken ?_
  simp only [Parser.fuel, Goal.levels]
  omega

/-- The sum of a call and the negation of an index, with a line break wherever one may stand, in
front of what closes it. -/
def brokenSum : List Token :=
  [⟨.newline, 1⟩, ⟨.name "f", 2⟩, ⟨.symbol "(", 2⟩, ⟨.newline, 2⟩, ⟨.name "a", 3⟩, ⟨.newline, 3⟩,
    ⟨.symbol ",", 4⟩, ⟨.newline, 4⟩, ⟨.int 1, 5⟩, ⟨.newline, 5⟩, ⟨.symbol ")", 6⟩, ⟨.newline, 6⟩,
    ⟨.symbol "+", 7⟩, ⟨.newline, 7⟩, ⟨.symbol "-", 8⟩, ⟨.newline, 8⟩, ⟨.name "b", 9⟩, ⟨.newline, 9⟩,
    ⟨.symbol "[", 10⟩, ⟨.newline, 10⟩, ⟨.int 0, 11⟩, ⟨.newline, 11⟩, ⟨.symbol "]", 12⟩,
    ⟨.newline, 12⟩, ⟨.symbol ")", 13⟩, ⟨.newline, 13⟩, ⟨.finish, 14⟩]

/-- The tree of `brokenSum`. -/
def brokenSumTree : Node :=
  .operation "+"
    [.call (.reference "f" 2) [.reference "a" 3, .constant (.int 1) 5] 2,
      .operation "_-" [.operation "[" [.reference "b" 9, .constant (.int 0) 11] 10] 8] 7

theorem brokenSum_without_breaks :
    Entry.nested.parse brokenSum =
        .ok [brokenSumTree] [⟨.symbol ")", 13⟩, ⟨.newline, 13⟩, ⟨.finish, 14⟩] ∧
      Entry.expression.parse (Grammar.unbroken brokenSum) =
        .ok [brokenSumTree] [⟨.symbol ")", 13⟩, ⟨.finish, 14⟩] := by
  have hparse : Entry.nested.parse brokenSum =
      .ok [brokenSumTree] [⟨.symbol ")", 13⟩, ⟨.newline, 13⟩, ⟨.finish, 14⟩] := rfl
  have hfree : Grammar.Functionless brokenSum := by
    unfold Grammar.Functionless
    decide
  exact ⟨hparse, breaks_in_brackets_mean_nothing hfree hparse⟩

end PairScript
