import Mathlib.Data.List.Destutter
import Mathlib.Data.List.Infix
import Mathlib.Data.List.TakeWhile
import PairScript.Proofs.Token.Concat

/-!
# The scan loses nothing and takes the longest pieces

`Segment.next` reads a text with `takeWhile`, `dropWhile` and a loop over the table of operators.
This module says what the pieces are without a word about how they are found: a name is a front of
the text that has the form of a name, and no longer front has it.  Likewise for blanks, numbers and
operators (`Segment.Longest`).  Comments and string literals are told by where they end.

* `Segment.Lexes` has one case for each kind of segment, in these terms;
* `Segment.Tiles` says that a text is made of such segments, one after the other;
* `tokenize_lossless` states that a text is tokenized exactly along the one way to tile it, or
  fails at a literal that is not one.
-/

namespace PairScript

namespace Segment

open Token (lineBreaks)

/-! ### The forms of segments -/

/-- One or more blanks. -/
def IsBlanks (text : List Char) : Prop := text ≠ [] ∧ ∀ c ∈ text, isBlank c = true

/-- A digit, and digits and separators after it. -/
def IsDigits : List Char → Prop
  | c :: r => c.isDigit = true ∧ ∀ d ∈ r, isNumberPart d = true
  | [] => False

/-- Digits, possibly with a fraction, which starts with a digit too. -/
def IsNumber (text : List Char) : Prop :=
  IsDigits text ∨ ∃ whole part, text = whole ++ '.' :: part ∧ IsDigits whole ∧ IsDigits part

/-- A character, possibly with a suffix that the table of operators has for it. -/
def IsOperator : List Char → Prop
  | c :: suffix => suffix = [] ∨ suffix ∈ suffixes c
  | [] => False

/-- Whether a character starts an operator: it is visible, and starts nothing else. -/
def isOperatorStart (c : Char) : Bool :=
  decide (32 < c.toNat) && !isNameStart c && !c.isDigit && !isQuote c

/-- The text of a string literal after its opening delimiter, and what the literal denotes. -/
inductive Spells (quote : Char) : (text value : List Char) → Prop
  | close : Spells quote [quote] []
  | escaped {e : Char} {text value : List Char} (others : Spells quote text value) :
      Spells quote ('\\' :: e :: text) (unescape e :: value)
  | plain {c : Char} {text value : List Char} (inside : c ≠ quote) (bare : c ≠ '\\')
      (stands : mayStandIn quote c = true) (others : Spells quote text value) :
      Spells quote (c :: text) (c :: value)

/-- A text has a form, and with what follows it no longer front has that form. -/
structure Longest (Form : List Char → Prop) (text rest : List Char) : Prop where
  form : Form text
  longest : ∀ longer, longer <+: text ++ rest → Form longer → longer.length ≤ text.length

/-- The two characters that close a block comment. -/
abbrev closing : List Char := ['*', '/']

/-- A segment with its contribution and the number of its line breaks, and the text that follows
it. -/
inductive Lexes : Segment → (rest : List Char) → Prop
  | blanks {text rest : List Char} (longest : Longest IsBlanks text rest) :
      Lexes ⟨text, .gap, lineBreaks text⟩ rest
  | lineBreak {rest : List Char} : Lexes ⟨['\n'], .lineBreak, lineBreaks ['\n']⟩ rest
  | lineComment {body rest : List Char} (within : '\n' ∉ body)
      (ends : rest = [] ∨ ∃ r, rest = '\n' :: r) :
      Lexes ⟨'/' :: '/' :: body, .gap, lineBreaks ('/' :: '/' :: body)⟩ rest
  /-- A block comment ends with the first closing after its opening. -/
  | closedComment {body rest : List Char} (first : ¬ closing <:+: body ++ ['*']) :
      Lexes ⟨'/' :: '*' :: (body ++ closing), .gap, lineBreaks ('/' :: '*' :: (body ++ closing))⟩
        rest
  /-- A block comment without a closing reaches to the end. -/
  | openComment {body : List Char} (never : ¬ closing <:+: body) :
      Lexes ⟨'/' :: '*' :: body, .gap, lineBreaks ('/' :: '*' :: body)⟩ []
  | name {text rest : List Char} (longest : Longest IsName text rest) :
      Lexes ⟨text, .token (.name (String.ofList text)), lineBreaks text⟩ rest
  | number {text rest : List Char} {kind : Token.Kind} (longest : Longest IsNumber text rest)
      (value : numberKind? text = some kind) : Lexes ⟨text, .token kind, lineBreaks text⟩ rest
  | quoted {quote : Char} {text value rest : List Char} (delimiter : isQuote quote = true)
      (spells : Spells quote text value) :
      Lexes ⟨quote :: text, .token (.str (String.ofList value)), lineBreaks (quote :: text)⟩ rest
  /-- A slash that opens a comment is no operator. -/
  | operator {c : Char} {suffix rest : List Char} (start : isOperatorStart c = true)
      (bare : c = '/' → opensComment (suffix ++ rest) = false)
      (longest : Longest IsOperator (c :: suffix) rest) :
      Lexes ⟨c :: suffix, .token (.symbol (String.ofList (c :: suffix))), lineBreaks (c :: suffix)⟩
        rest

/-- A text is made of segments, up to some text that is left. -/
inductive Tiles : List Char → List Segment → (left : List Char) → Prop
  | done {cs : List Char} : Tiles cs [] cs
  | more {s : Segment} {rest left : List Char} {ss : List Segment} (first : Lexes s rest)
      (others : Tiles rest ss left) : Tiles (s.text ++ rest) (s :: ss) left

/-- A text that starts with a literal which is not one. -/
inductive Stuck : List Char → Failure → Prop
  | quoted {quote : Char} {r : List Char} (delimiter : isQuote quote = true)
      (never : ∀ text value, text <+: r → ¬ Spells quote text value) :
      Stuck (quote :: r) .unterminatedString
  | number {text rest : List Char} (longest : Longest IsNumber text rest)
      (valueless : numberKind? text = none) : Stuck (text ++ rest) (.invalidNumber text)

variable {c : Char} {r rest rest' text text' : List Char} {s : Segment}

/-! ### Longest fronts -/

/-- There is one longest front of a form. -/
theorem Longest.unique {Form : List Char → Prop} (h : Longest Form text rest)
    (h' : Longest Form text' rest') (hsame : text ++ rest = text' ++ rest') :
    text = text' ∧ rest = rest' := by
  have hle : text'.length ≤ text.length :=
    h.longest text' (hsame ▸ List.prefix_append text' rest') h'.form
  have hge : text.length ≤ text'.length :=
    h'.longest text (hsame ▸ List.prefix_append text rest) h.form
  exact List.append_inj hsame (Nat.le_antisymm hge hle)

/-- A front of which every character is in a class is a front of the longest one. -/
theorem prefix_takeWhile {p : Char → Bool} (h : text <+: r) (hall : ∀ d ∈ text, p d = true) :
    text <+: r.takeWhile p := by
  obtain ⟨tail, rfl⟩ := h
  rw [List.takeWhile_append_of_pos hall]
  exact List.prefix_append text _

theorem longest_blanks (hc : isBlank c = true) :
    Longest IsBlanks (c :: r.takeWhile isBlank) (r.dropWhile isBlank) := by
  refine ⟨⟨by simp, List.forall_mem_cons.2 ⟨hc, fun _ => List.mem_takeWhile_imp⟩⟩,
    fun longer hfront h => ?_⟩
  rw [List.cons_append, List.takeWhile_append_dropWhile] at hfront
  have hle := (prefix_takeWhile hfront h.2).length_le
  rwa [List.takeWhile_cons, if_pos hc] at hle

theorem longest_name (hc : isNameStart c = true) :
    Longest IsName (c :: r.takeWhile isNamePart) (r.dropWhile isNamePart) := by
  refine ⟨⟨hc, fun _ => List.mem_takeWhile_imp⟩, fun longer hfront h => ?_⟩
  rw [List.cons_append, List.takeWhile_append_dropWhile] at hfront
  match longer, h with
  | d :: more, ⟨_, hmore⟩ =>
    obtain ⟨-, hfront⟩ := List.cons_prefix_cons.1 hfront
    exact Nat.succ_le_succ (prefix_takeWhile hfront hmore).length_le

/-! ### Numbers -/

theorem fraction_cases (tail : List Char) :
    (fraction tail = [] ∧ ∀ part, '.' :: part <+: tail → ¬ IsDigits part) ∨
      ∃ d r, tail = '.' :: d :: r ∧ d.isDigit = true ∧
        fraction tail = '.' :: d :: r.takeWhile isNumberPart := by
  have hbare : (∀ d r, tail = '.' :: d :: r → d.isDigit = false) →
      ∀ part, '.' :: part <+: tail → ¬ IsDigits part := by
    intro hnone part hfront hpart
    match part, hpart with
    | d :: more, ⟨hd, _⟩ =>
      obtain ⟨after, rfl⟩ := hfront
      cases hd.symm.trans (hnone d (more ++ after) rfl)
  unfold fraction
  split
  next d r =>
    split
    next hd => exact .inr ⟨d, r, rfl, hd, rfl⟩
    next hd =>
      refine .inl ⟨rfl, hbare ?_⟩
      rintro d' r' ⟨⟩
      exact Bool.eq_false_iff.2 hd
  next hnone => exact .inl ⟨rfl, hbare fun d r htail => (hnone d r htail).elim⟩

theorem isNumber_scanned (hc : c.isDigit = true) (tail : List Char) :
    IsNumber (c :: r.takeWhile isNumberPart ++ fraction tail) := by
  have hwhole : IsDigits (c :: r.takeWhile isNumberPart) := ⟨hc, fun _ => List.mem_takeWhile_imp⟩
  rcases fraction_cases tail with ⟨hnone, -⟩ | ⟨d, r', -, hd, hsome⟩
  · rw [hnone, List.append_nil]
    exact .inl hwhole
  · rw [hsome]
    exact .inr ⟨_, _, rfl, hwhole, hd, fun _ => List.mem_takeWhile_imp⟩

theorem IsNumber.cons (h : IsNumber text) : ∃ c r, text = c :: r ∧ c.isDigit = true := by
  rcases h with h | ⟨whole, part, rfl, h, -⟩
  · match text, h with
    | c :: r, ⟨hc, _⟩ => exact ⟨c, r, rfl, hc⟩
  · match whole, h with
    | c :: r, ⟨hc, _⟩ => exact ⟨c, r ++ '.' :: part, rfl, hc⟩

theorem append_scanned :
    c :: r.takeWhile isNumberPart ++ fraction (r.dropWhile isNumberPart)
      ++ (r.dropWhile isNumberPart).drop (fraction (r.dropWhile isNumberPart)).length = c :: r := by
  rw [List.append_assoc, List.prefix_iff_eq_append.1 fraction_isPrefix, List.cons_append,
    List.takeWhile_append_dropWhile]

/-- Digits at the front of a text are within its longest run of digits and separators. -/
theorem IsDigits.prefix_scanned (h : IsDigits text) (hfront : text <+: c :: r) :
    ∃ more, text = c :: more ∧ more <+: r.takeWhile isNumberPart := by
  match text, h with
  | d :: more, ⟨_, hmore⟩ =>
    obtain ⟨rfl, htail⟩ := List.cons_prefix_cons.1 hfront
    exact ⟨more, rfl, prefix_takeWhile htail hmore⟩

theorem longest_number (hc : c.isDigit = true) {tail : List Char}
    (htail : r.dropWhile isNumberPart = tail) :
    Longest IsNumber (c :: r.takeWhile isNumberPart ++ fraction tail)
      (tail.drop (fraction tail).length) := by
  refine ⟨isNumber_scanned hc tail, fun longer hfront h => ?_⟩
  subst htail
  rw [append_scanned] at hfront
  rcases h with hdigits | ⟨whole, part, rfl, hwhole, hpart⟩
  · obtain ⟨more, rfl, hmore⟩ := hdigits.prefix_scanned hfront
    have := hmore.length_le
    simp only [List.length_cons, List.length_append]
    omega
  -- the point cannot be passed by digits, so both wholes end before it
  · obtain ⟨more, rfl, hmore⟩ :=
      hwhole.prefix_scanned ((List.prefix_append whole _).trans hfront)
    obtain ⟨after, hafter⟩ := hfront
    simp only [List.cons_append, List.append_assoc, List.cons.injEq, true_and] at hafter
    have htake : r.takeWhile isNumberPart = more := by
      rw [← hafter, List.takeWhile_append_of_pos hwhole.2]
      simp [isNumberPart]
    have htail : r.dropWhile isNumberPart = '.' :: (part ++ after) := by
      rw [← hafter, List.dropWhile_append_of_pos hwhole.2]
      rfl
    rcases fraction_cases (r.dropWhile isNumberPart) with ⟨-, hnone⟩ | ⟨d, r', hd, -, hsome⟩
    · exact (hnone part ⟨after, htail.symm⟩ hpart).elim
    · rw [htail, List.cons.injEq] at hd
      obtain ⟨more', rfl, hmore'⟩ :=
        hpart.prefix_scanned (hd.2 ▸ List.prefix_append part after)
      have := hmore'.length_le
      rw [hsome, htake]
      simp only [List.length_cons, List.length_append]
      omega

/-! ### Operators -/

/-- The table has with every suffix all fronts of it. -/
theorem suffixes_front {suffix front : List Char} (h : suffix ∈ suffixes c)
    (hfront : front <+: suffix) (hsome : front ≠ []) : front ∈ suffixes c := by
  have htable : ∀ suffix ∈ suffixes c, ∀ front ∈ suffix.inits, front ≠ [] →
      front ∈ suffixes c := by
    unfold suffixes
    split <;> decide
  exact htable suffix h front ((List.mem_inits _ _).2 hfront) hsome

theorem longestSuffix_mem {table : List (List Char)} {taken : List Char} :
    longestSuffix table taken r = taken ∨ longestSuffix table taken r ∈ table := by
  induction taken, r using longestSuffix.induct table with
  | case1 taken => exact .inl rfl
  | case2 taken c r htable ih =>
    rw [longestSuffix, if_pos htable]
    rcases ih with hsame | hmem
    · rw [hsame]
      exact .inr (List.contains_iff_mem.1 htable)
    · exact .inr hmem
  | case3 taken c r htable => exact .inl (by rw [longestSuffix, if_neg htable])

/-- As the table has all fronts of its entries, the loop does not stop before the longest one. -/
theorem length_le_longestSuffix {table : List (List Char)} {taken more : List Char}
    (hfronts : ∀ front, front <+: more → front ≠ [] → taken ++ front ∈ table)
    (hmore : more <+: r) : taken.length + more.length ≤ (longestSuffix table taken r).length := by
  induction taken, r using longestSuffix.induct table generalizing more with
  | case1 taken =>
    rw [List.prefix_nil.1 hmore]
    simp [longestSuffix]
  | case2 taken c r htable ih =>
    rw [longestSuffix, if_pos htable]
    cases more with
    | nil =>
      obtain ⟨after, hafter, -⟩ := longestSuffix_eq_append table (taken ++ [c]) r
      rw [hafter]
      simp only [List.length_append, List.length_nil]
      omega
    | cons d more =>
      obtain ⟨rfl, htail⟩ := List.cons_prefix_cons.1 hmore
      have hlater : ∀ front, front <+: more → front ≠ [] → taken ++ [d] ++ front ∈ table := by
        intro front hfront _
        rw [List.append_assoc]
        exact hfronts (d :: front) (List.cons_prefix_cons.2 ⟨rfl, hfront⟩) (by simp)
      have hle := ih hlater htail
      simp only [List.length_append, List.length_cons, List.length_nil] at hle ⊢
      omega
  | case3 taken c r htable =>
    rw [longestSuffix, if_neg htable]
    cases more with
    | nil => simp
    | cons d more =>
      obtain ⟨rfl, -⟩ := List.cons_prefix_cons.1 hmore
      have hin := hfronts [d] (List.cons_prefix_cons.2 ⟨rfl, List.nil_prefix⟩) (by simp)
      exact absurd (List.contains_iff_mem.2 hin) htable

theorem longest_operator {found : List Char} (hfound : longestSuffix (suffixes c) [] r = found) :
    Longest IsOperator (c :: found) (r.drop found.length) := by
  subst hfound
  refine ⟨longestSuffix_mem, fun longer hfront h => ?_⟩
  rw [List.cons_append, List.prefix_iff_eq_append.1 (longestSuffix_isPrefix _ r)] at hfront
  match longer, h with
  | d :: suffix, h =>
    obtain ⟨rfl, htail⟩ := List.cons_prefix_cons.1 hfront
    rcases h with rfl | hmem
    · simp
    · have hfronts : ∀ front, front <+: suffix → front ≠ [] → [] ++ front ∈ suffixes d :=
        fun front => suffixes_front hmem
      simpa using length_le_longestSuffix hfronts htail

/-! ### Literals and comments -/

theorem spells_of_literal {quote : Char} {l : Literal} (h : literal? quote r = some l) :
    Spells quote l.text l.value ∧ l.text ++ l.rest = r := by
  refine ⟨?_, (literal_append h []).2⟩
  induction r using literal?.induct quote generalizing l with
  | case1 => cases h
  | case2 r' =>
    rw [literal_cons, if_pos rfl] at h
    cases h
    exact .close
  | case3 hquote =>
    rw [literal_cons, if_neg hquote, if_pos rfl] at h
    cases h
  | case4 e r' hquote ih =>
    rw [literal_cons, if_neg hquote, if_pos rfl] at h
    obtain ⟨l', hl', rfl⟩ := Option.map_eq_some_iff.1 h
    exact .escaped (ih hl')
  | case5 c r' hquote hescape hstand ih =>
    rw [literal_cons, if_neg hquote, if_neg hescape, if_pos hstand] at h
    obtain ⟨l', hl', rfl⟩ := Option.map_eq_some_iff.1 h
    exact .plain hquote hescape hstand (ih hl')
  | case6 c r' hquote hescape hstand =>
    rw [literal_cons, if_neg hquote, if_neg hescape, if_neg hstand] at h
    cases h

theorem Spells.literal {quote : Char} {value : List Char} (h : Spells quote text value)
    (hquote : isQuote quote = true) (rest : List Char) :
    literal? quote (text ++ rest) = some ⟨value, text, lineBreaks text, rest⟩ := by
  induction h with
  | close =>
    have hbreak : quote ≠ '\n' := by
      rintro rfl
      cases hquote
    rw [List.singleton_append, literal_cons, if_pos rfl, Token.lineBreaks_cons_of_ne hbreak]
    rfl
  | escaped _ ih =>
    have hescape : '\\' ≠ quote := by
      rintro rfl
      cases hquote
    rw [List.cons_append, literal_cons, if_neg hescape, if_pos rfl,
      Token.lineBreaks_cons_of_ne (by decide), Token.lineBreaks_cons]
    simp [ih, Literal.push]
  | plain inside bare stands _ ih =>
    rw [List.cons_append, literal_cons, if_neg inside, if_neg bare, if_pos stands, ih,
      Token.lineBreaks_cons]
    rfl

theorem blockComment_cons (hopen : ¬ (c = '*' ∧ ∃ r', r = '/' :: r')) :
    blockComment (c :: r) = (c :: (blockComment r).1, (blockComment r).2) := by
  rw [blockComment]
  rintro r' rfl rfl
  exact hopen ⟨rfl, r', rfl⟩

theorem not_closing_tail (h : ¬ closing <:+: c :: r) : ¬ closing <:+: r :=
  fun hinfix => h (List.infix_cons hinfix)

theorem not_closing_head (h : ¬ closing <:+: c :: r) : ¬ (c = '*' ∧ ∃ r', r = '/' :: r') := by
  rintro ⟨rfl, r', rfl⟩
  exact h (List.prefix_append closing r').isInfix

theorem blockComment_of_open {body : List Char} (h : ¬ closing <:+: body) :
    blockComment body = (body, []) := by
  induction body with
  | nil => rfl
  | cons c body ih => rw [blockComment_cons (not_closing_head h), ih (not_closing_tail h)]

theorem blockComment_of_closed {body : List Char} (h : ¬ closing <:+: body ++ ['*'])
    (rest : List Char) : blockComment (body ++ closing ++ rest) = (body ++ closing, rest) := by
  induction body with
  | nil => rfl
  | cons c body ih =>
    have hopen : ¬ (c = '*' ∧ ∃ r', body ++ closing ++ rest = '/' :: r') := by
      rintro ⟨rfl, r', hr⟩
      refine not_closing_head h ⟨rfl, ?_⟩
      cases body with
      | nil => cases hr
      | cons d body =>
        rw [List.cons_append, List.cons_append, List.cons.injEq] at hr
        exact ⟨body ++ ['*'], by rw [hr.1]; rfl⟩
    rw [List.cons_append, List.cons_append, blockComment_cons hopen, ih (not_closing_tail h)]

/-- A text without the first closing and what follows it, or without any closing. -/
theorem first_closing (r : List Char) :
    (¬ closing <:+: r) ∨
      ∃ body rest, r = body ++ closing ++ rest ∧ ¬ closing <:+: body ++ ['*'] := by
  induction r with
  | nil => exact .inl (by decide)
  | cons c r ih =>
    by_cases hhead : c = '*' ∧ ∃ r', r = '/' :: r'
    · obtain ⟨rfl, r', rfl⟩ := hhead
      exact .inr ⟨[], r', rfl, by decide⟩
    have hcons : ∀ {r' : List Char}, (∀ r'', r' = '/' :: r'' → ∃ r'', r = '/' :: r'') →
        ¬ closing <:+: r' → ¬ closing <:+: c :: r' := by
      intro r' hstart hnever hinfix
      rcases List.infix_cons_iff.1 hinfix with hfront | hinfix
      · obtain ⟨rfl, after, rfl⟩ := List.cons_prefix_cons.1 hfront
        exact hhead ⟨rfl, hstart _ rfl⟩
      · exact hnever hinfix
    rcases ih with hnever | ⟨body, rest, rfl, hfirst⟩
    · exact .inl (hcons (fun r'' h => ⟨r'', h⟩) hnever)
    · refine .inr ⟨c :: body, rest, rfl, ?_⟩
      refine hcons (fun r'' h => ?_) hfirst
      cases body with
      | nil => cases h
      | cons d body =>
        obtain ⟨rfl, -⟩ := List.cons.inj h
        exact ⟨body ++ closing ++ rest, rfl⟩

theorem lexes_blockComment (r : List Char) :
    Lexes ⟨'/' :: '*' :: (blockComment r).1, .gap, lineBreaks ('/' :: '*' :: (blockComment r).1)⟩
      (blockComment r).2 := by
  rcases first_closing r with hnever | ⟨body, rest, rfl, hfirst⟩
  · rw [blockComment_of_open hnever]
    exact .openComment hnever
  · rw [blockComment_of_closed hfirst]
    exact .closedComment hfirst

/-! ### The scan and the forms -/

theorem code_of_isNameStart (h : isNameStart c = true) :
    32 < c.toNat ∧ ¬ (48 ≤ c.toNat ∧ c.toNat ≤ 57) := by
  unfold isNameStart Char.isAlpha Char.isUpper Char.isLower at h
  simp only [Bool.or_eq_true, Bool.and_eq_true, decide_eq_true_eq, beq_iff_eq, ge_iff_le,
    UInt32.le_iff_toNat_le] at h
  rcases h with (((h | h) | rfl) | rfl) | rfl
  · have : 65 ≤ c.toNat ∧ c.toNat ≤ 90 := h
    omega
  · have : 97 ≤ c.toNat ∧ c.toNat ≤ 122 := h
    omega
  all_goals decide

theorem code_of_isDigit (h : c.isDigit = true) : 48 ≤ c.toNat ∧ c.toNat ≤ 57 := by
  simpa [Char.isDigit, UInt32.le_iff_toNat_le] using h

theorem not_blank_of_code (h : 32 < c.toNat) : c ≠ '\n' ∧ isBlank c = false := by
  constructor
  · rintro rfl
    exact absurd h (by decide)
  · simp [isBlank, Nat.not_le_of_lt h]

theorem ruleOf_of_fits {rule : Rule} (h : rule.Fits c) : ruleOf c = rule := by
  unfold ruleOf
  cases rule <;> simp_all [Rule.Fits]

theorem ruleOf_name (h : isNameStart c = true) : ruleOf c = .name := by
  obtain ⟨hbreak, hblank⟩ := not_blank_of_code (code_of_isNameStart h).1
  exact ruleOf_of_fits ⟨hbreak, hblank, h⟩

theorem ruleOf_number (h : c.isDigit = true) : ruleOf c = .number := by
  have hcode := code_of_isDigit h
  obtain ⟨hbreak, hblank⟩ := not_blank_of_code (c := c) (by omega)
  refine ruleOf_of_fits ⟨hbreak, hblank, ?_, h⟩
  exact Bool.eq_false_iff.2 fun hname => (code_of_isNameStart hname).2 hcode

theorem ruleOf_quoted (h : isQuote c = true) : ruleOf c = .quoted := by
  simp only [isQuote, Bool.or_eq_true, beq_iff_eq] at h
  rcases h with (rfl | rfl) | rfl <;> decide

theorem isOperatorStart_iff : isOperatorStart c = true ↔ ruleOf c = .other := by
  unfold isOperatorStart ruleOf
  have hbreak : '\n'.toNat = 10 := rfl
  have hblank : isBlank c = (decide (c.toNat ≤ 32) && c != '\n') := rfl
  by_cases hc : c = '\n'
  · subst hc
    decide
  · by_cases hle : c.toNat ≤ 32
    · simp [hc, hblank, hle]
    · simp only [hc, hblank, hle, Nat.lt_of_not_le hle, if_false, decide_true, decide_false,
        Bool.false_and, Bool.false_eq_true, Bool.true_and]
      cases isNameStart c <;> cases c.isDigit <;> cases isQuote c <;> simp

theorem lexes_of_scans (h : Scans c r s rest) : Lexes s rest := by
  suffices hlexes : Lexes ⟨s.text, s.image, lineBreaks s.text⟩ rest by
    rwa [← h.breaks_eq] at hlexes
  cases h with
  | lineBreak rule =>
    obtain rfl : c = '\n' := fits_of_ruleOf rule
    exact .lineBreak
  | blank rule => exact .blanks (longest_blanks (fits_of_ruleOf rule).2)
  | name rule => exact .name (longest_name (fits_of_ruleOf rule).2.2)
  | number rule after value =>
    exact .number (longest_number (fits_of_ruleOf rule).2.2.2 after) value
  | quoted rule literal =>
    exact .quoted (fits_of_ruleOf rule).2.2.2.2 (spells_of_literal literal).1
  | @lineComment r =>
    refine .lineComment (fun hmem => ?_) ?_
    · simpa using List.mem_takeWhile_imp hmem
    · cases hrest : r.dropWhile (· != '\n') with
      | nil => exact .inl rfl
      | cons d r' =>
        have hd := List.head?_dropWhile_not (· != '\n') r
        rw [hrest] at hd
        exact .inr ⟨r', by simpa using hd⟩
  | blockComment => exact lexes_blockComment _
  | @operator _ _ found rule bare longest =>
    have hoperator := longest_operator longest
    refine .operator (isOperatorStart_iff.2 rule) (fun hc => ?_) hoperator
    rw [List.prefix_iff_eq_append.1 (longest ▸ longestSuffix_isPrefix (suffixes c) r)]
    exact bare hc

/-- The segment that a rule reads has the number of its line breaks. -/
theorem Scans.counted (h : Scans c r s rest) :
    Scans c r ⟨s.text, s.image, lineBreaks s.text⟩ rest := by
  rw [← h.breaks_eq]
  exact h

theorem Lexes.scans (h : Lexes s rest) : ∃ c r, s.text ++ rest = c :: r ∧ Scans c r s rest := by
  cases h with
  | lineBreak => exact ⟨'\n', rest, rfl, .lineBreak rfl⟩
  | @blanks text _ longest =>
    match text, longest with
    | [], longest => exact absurd rfl longest.form.1
    | c :: text, longest =>
      have hc : isBlank c = true := longest.form.2 c (by simp)
      have hbreak : c ≠ '\n' := by
        rintro rfl
        cases hc
      have hscan := Scans.blank (r := text ++ rest) (ruleOf_of_fits ⟨hbreak, hc⟩)
      obtain ⟨htext, hrest⟩ := longest.unique (longest_blanks (r := text ++ rest) hc) (by simp)
      rw [← htext, ← hrest] at hscan
      exact ⟨c, text ++ rest, rfl, hscan.counted⟩
  | @name text _ longest =>
    match text, longest with
    | c :: text, longest =>
      have hc : isNameStart c = true := longest.form.1
      have hscan := Scans.name (r := text ++ rest) (ruleOf_name hc)
      obtain ⟨htext, hrest⟩ := longest.unique (longest_name (r := text ++ rest) hc) (by simp)
      rw [← htext, ← hrest] at hscan
      exact ⟨c, text ++ rest, rfl, hscan.counted⟩
  | @number text _ kind longest value =>
    obtain ⟨c, text, rfl, hc⟩ := longest.form.cons
    obtain ⟨htext, hrest⟩ := longest.unique (longest_number (r := text ++ rest) hc rfl)
      (append_scanned (r := text ++ rest)).symm
    rw [htext] at value
    have hscan := Scans.number (r := text ++ rest) (ruleOf_number hc) rfl value
    rw [← htext, ← hrest] at hscan
    exact ⟨c, text ++ rest, rfl, hscan.counted⟩
  | @quoted quote text value _ delimiter spells =>
    exact ⟨quote, text ++ rest, rfl,
      (Scans.quoted (ruleOf_quoted delimiter) (spells.literal delimiter rest)).counted⟩
  | @lineComment body _ within ends =>
    have hall : ∀ d ∈ body, (d != '\n') = true := by
      intro d hd
      rw [bne_iff_ne]
      rintro rfl
      exact within hd
    have hscan := (Scans.lineComment (r := body ++ rest)).counted
    rw [List.takeWhile_append_of_pos hall, List.dropWhile_append_of_pos hall] at hscan
    refine ⟨'/', '/' :: (body ++ rest), rfl, ?_⟩
    rcases ends with rfl | ⟨r, rfl⟩
    · simpa using hscan
    · simpa using hscan
  | @closedComment body _ first =>
    have hscan := Scans.blockComment (r := body ++ closing ++ rest)
    rw [blockComment_of_closed first] at hscan
    exact ⟨'/', '*' :: (body ++ closing ++ rest), rfl, hscan.counted⟩
  | @openComment body never =>
    have hscan := Scans.blockComment (r := body)
    rw [blockComment_of_open never] at hscan
    exact ⟨'/', '*' :: body, by simp, hscan.counted⟩
  | @operator c suffix _ start bare longest =>
    obtain ⟨htext, hrest⟩ := longest.unique (longest_operator (c := c) (r := suffix ++ rest) rfl)
      (by rw [List.cons_append, List.cons_append,
        List.prefix_iff_eq_append.1 (longestSuffix_isPrefix _ _)])
    have hscan := Scans.operator (isOperatorStart_iff.1 start) bare rfl
    rw [← htext, ← hrest] at hscan
    exact ⟨c, suffix ++ rest, rfl, hscan.counted⟩

/-! ### Tilings -/

variable {cs left : List Char} {ss ss' : List Segment} {f : Failure}

theorem Tiles.flatMap_text (h : Tiles cs ss left) : ss.flatMap Segment.text ++ left = cs := by
  induction h with
  | done => rfl
  | more _ _ ih => rw [List.flatMap_cons, List.append_assoc, ih]

theorem tiles_of_splits (h : Splits cs ss) : Tiles cs ss [] := by
  induction h with
  | nil => exact .done
  | cons first _ ih =>
    rw [← (next_text first).1]
    exact .more (lexes_of_scans (next_eq_ok_iff.1 first)) ih

theorem Tiles.splits (h : Tiles cs ss []) : Splits cs ss := by
  generalize hleft : ([] : List Char) = left at h
  induction h with
  | done =>
    subst hleft
    exact .nil
  | more first _ ih =>
    obtain ⟨c, r, htext, hscan⟩ := first.scans
    rw [htext]
    exact .cons (next_eq_ok_iff.2 hscan) (ih hleft)

/-- A text can be tiled to its end in one way only. -/
theorem Tiles.unique (h : Tiles cs ss []) (h' : Tiles cs ss' []) : ss' = ss := by
  have hsplit := (split_eq_iff.2 h'.splits).symm.trans (split_eq_iff.2 h.splits)
  exact congrArg Prod.fst hsplit

/-- The scan fails at literals only. -/
theorem stuck_of_next (h : next c r = .error f) : Stuck (c :: r) f := by
  unfold next at h
  split at h
  next => cases h
  next =>
    split at h
    next => cases h
    next =>
      split at h
      next => cases h
      next =>
        split at h
        next hc =>
          simp only at h
          split at h
          next => cases h
          next hnone =>
            cases h
            have hstuck := Stuck.number (longest_number hc rfl) hnone
            rwa [append_scanned] at hstuck
        next =>
          split at h
          next hc =>
            split at h
            next => cases h
            next hnone =>
              cases h
              refine .quoted hc ?_
              rintro text value ⟨after, rfl⟩ hspells
              rw [hspells.literal hc after] at hnone
              cases hnone
          next =>
            split at h
            · cases h
            · cases h
            · cases h

theorem stuck_of_splitWithin {bound : Nat} (h : splitWithin bound cs = (ss, some f)) :
    ∃ left, Tiles cs ss left ∧ Stuck left f := by
  induction bound generalizing cs ss with
  | zero => cases cs <;> cases h
  | succ bound ih =>
    cases cs with
    | nil => cases h
    | cons c r =>
      simp only [splitWithin] at h
      cases hnext : next c r with
      | error f' =>
        rw [hnext] at h
        cases h
        exact ⟨c :: r, .done, stuck_of_next hnext⟩
      | ok p =>
        obtain ⟨s, rest⟩ := p
        rw [hnext] at h
        cases hrest : splitWithin bound rest with
        | mk others failure =>
          simp only [hrest, Prod.mk.injEq] at h
          obtain ⟨rfl, rfl⟩ := h
          obtain ⟨left, htiles, hstuck⟩ := ih hrest
          have hall := Tiles.more (lexes_of_scans (next_eq_ok_iff.1 hnext)) htiles
          rw [(next_text hnext).1] at hall
          exact ⟨left, hall, hstuck⟩

/-! ### Tokens -/

/-- The kind of token that a segment gives, if none of them is folded. -/
def kind? (s : Segment) : Option Token.Kind :=
  match s.image with
  | .gap => none
  | .lineBreak => some .newline
  | .token kind => some kind

end Segment

namespace Token

/-- Kinds of tokens of which not both are line breaks. -/
def Kind.Apart (k k' : Kind) : Prop := ¬ (k = .newline ∧ k' = .newline)

instance : DecidableRel Kind.Apart := fun _ _ => inferInstanceAs (Decidable (¬ _))

/-- The kinds without line breaks at the front, and one line break in the place of several. -/
def folded (kinds : List Kind) : List Kind :=
  (kinds.dropWhile (· == .newline)).destutter Kind.Apart

theorem destutter_token {kind : Kind} (hkind : kind ≠ .newline) (kinds : List Kind) :
    (kind :: kinds).destutter Kind.Apart = kind :: kinds.destutter Kind.Apart := by
  cases kinds with
  | nil => rfl
  | cons k kinds =>
    have hapart : kind.Apart k := fun h => hkind h.1
    rw [List.destutter_cons_cons, if_pos hapart]
    rfl

theorem destutter_newline (kinds : List Kind) :
    (.newline :: kinds : List Kind).destutter Kind.Apart = .newline :: folded kinds := by
  induction kinds with
  | nil => rfl
  | cons k kinds ih =>
    rw [List.destutter_cons_cons]
    by_cases hk : k = .newline
    · subst hk
      rw [if_neg fun h => h ⟨rfl, rfl⟩]
      exact ih
    · have hapart : Kind.newline.Apart k := fun h => hk h.2
      rw [if_pos hapart, folded, List.dropWhile_cons, if_neg (by simpa using hk)]
      rfl

/-- Tokens are placed as their kinds are folded. -/
theorem place_kinds (line : Nat) (folding : Bool) {ss : List Segment}
    (hss : ∀ s ∈ ss, s.image ≠ .token .newline) :
    (place line folding ss).1.map Token.kind =
      if folding then folded (ss.filterMap Segment.kind?)
      else (ss.filterMap Segment.kind?).destutter Kind.Apart := by
  induction ss generalizing line folding with
  | nil => cases folding <;> rfl
  | cons s ss ih =>
    obtain ⟨text, image, breaks⟩ := s
    obtain ⟨hs, hothers⟩ := List.forall_mem_cons.1 hss
    cases image with
    | gap => exact ih _ _ hothers
    | lineBreak =>
      cases folding with
      | true => exact ih _ _ hothers
      | false =>
        show Kind.newline :: (place _ true ss).1.map Token.kind = _
        rw [ih _ _ hothers]
        exact (destutter_newline _).symm
    | token kind =>
      have hkind : kind ≠ .newline := by
        rintro rfl
        exact hs rfl
      have hfold : folded (kind :: ss.filterMap Segment.kind?)
          = kind :: (ss.filterMap Segment.kind?).destutter Kind.Apart := by
        rw [folded, List.dropWhile_cons, if_neg (by simpa using hkind), destutter_token hkind]
      show kind :: (place _ false ss).1.map Token.kind = _
      rw [ih _ _ hothers]
      cases folding with
      | true => exact hfold.symm
      | false => exact (destutter_token hkind _).symm

end Token

/-- **The tokens of a text are the images of the segments that tile it.**  A text that is tokenized
can be tiled to its end, in one way only: nothing of it is lost, and every name, number and operator
is as long as it can be.  The tokens before the end are the images of the segments, in order, line
breaks being folded.  A text that is not tokenized can be tiled up to a string literal without an
end or a number without a value, and the failure says which. -/
theorem tokenize_lossless (source : String) :
    (∀ tokens, tokenize source = .ok tokens →
      ∃ ss, Segment.Tiles source.toList ss [] ∧
        (∀ ss', Segment.Tiles source.toList ss' [] → ss' = ss) ∧
        ss.flatMap Segment.text = source.toList ∧
        tokens.map Token.kind = Token.folded (ss.filterMap Segment.kind?) ++ [.finish]) ∧
    ∀ f, tokenize source = .error f →
      ∃ ss left failure, Segment.Tiles source.toList ss left ∧ Segment.Stuck left failure ∧
        f.cause = failure.cause ∧
        (f.cause = .unterminatedString ∨ ∃ literal, f.cause = .invalidNumber literal) := by
  refine ⟨fun tokens h => ?_, fun f h => ?_⟩
  · obtain ⟨ss, hss, rfl⟩ := tokenize_eq_ok.1 h
    have htiles := Segment.tiles_of_splits hss
    refine ⟨ss, htiles, fun _ => htiles.unique, by simpa using htiles.flatMap_text, ?_⟩
    have hplain : ∀ s ∈ ss, s.image ≠ .token .newline := by
      intro s hs himage
      have hspelt : s ∈ (Segment.split source.toList).1 := by rwa [Segment.split_eq_iff.2 hss]
      cases Segment.isSpelt_of_splitWithin hspelt himage
    rw [List.map_append, Token.place_kinds 1 true hplain]
    rfl
  · rw [tokenize_eq_place] at h
    cases hsplit : Segment.split source.toList with
    | mk ss failure =>
      cases failure with
      | none =>
        rw [hsplit] at h
        cases h
      | some failure =>
        rw [hsplit] at h
        cases h
        obtain ⟨left, htiles, hstuck⟩ := Segment.stuck_of_splitWithin hsplit
        refine ⟨ss, left, failure, htiles, hstuck, rfl, ?_⟩
        cases failure with
        | unterminatedString => exact .inl rfl
        | invalidNumber literal => exact .inr ⟨_, rfl⟩

/-- A line break at the front, operators that could be split otherwise, and a comment; and a string
that a line break cuts off. -/
theorem tokenize_lossless_operators :
    (∃ ss, Segment.Tiles "\n\nx>>>=1..2//\n\n".toList ss [] ∧
      Token.folded (ss.filterMap Segment.kind?) =
        [.name "x", .symbol ">>>", .symbol "=", .int 1, .symbol "..", .int 2, .newline]) ∧
      ∃ ss left, Segment.Tiles "x'\n'".toList ss left ∧
        Segment.Stuck left .unterminatedString := by
  have htokens : tokenize "\n\nx>>>=1..2//\n\n" = .ok
      [⟨.name "x", 3⟩, ⟨.symbol ">>>", 3⟩, ⟨.symbol "=", 3⟩, ⟨.int 1, 3⟩, ⟨.symbol "..", 3⟩,
        ⟨.int 2, 3⟩, ⟨.newline, 3⟩, ⟨.finish, 5⟩] := rfl
  have hfailure : tokenize "x'\n'" = .error ⟨.unterminatedString, 1⟩ := rfl
  obtain ⟨ss, htiles, -, -, hkinds⟩ := (tokenize_lossless _).1 _ htokens
  obtain ⟨ss', left, failure, htiles', hstuck, hcause, -⟩ := (tokenize_lossless _).2 _ hfailure
  refine ⟨⟨ss, htiles, ?_⟩, ss', left, htiles', ?_⟩
  · exact (List.append_left_inj [Token.Kind.finish]).1 hkinds.symm
  · cases failure with
    | unterminatedString => exact hstuck
    | invalidNumber literal => cases hcause

end PairScript
