import Mathlib.Data.Nat.Digits.Defs
import PairScript.Proofs.Number.Words
import PairScript.Proofs.Token.Lossless

/-!
# Texts that are one literal

Two kinds of literals are told by how they are written.

* A digit with digits and separators after it is an integer, whose value is the one that the digits
  have in base ten (`decimalValue`).  It is a token as long as that is a word, whatever the number
  of separators and leading zeros (`tokenize_integer`).
* Every string can be written between any of the delimiters, with a backslash before the characters
  that could not stand there otherwise (`quotedBody`).  What is written so is read back, and is no
  literal without its closing delimiter (`tokenize_quoted`).
-/

namespace PairScript

open Segment

variable {c : Char} {r text : List Char}

/-! ### Texts of one segment -/

/-- A text that is one segment is one token, and the mark of the end on the line that it ends on. -/
theorem tokenize_of_next {kind : Token.Kind} {breaks : Nat}
    (h : next c r = .ok (⟨c :: r, .token kind, breaks⟩, [])) :
    tokenize (String.ofList (c :: r)) =
      .ok [⟨kind, 1⟩, ⟨.finish, 1 + Token.lineBreaks (c :: r)⟩] := by
  apply tokenize_eq_ok.2
  refine ⟨[⟨c :: r, .token kind, breaks⟩], ?_, rfl⟩
  rw [String.toList_ofList]
  exact .cons h .nil

theorem tokenize_of_next_error {f : Segment.Failure} (h : next c r = .error f) :
    tokenize (String.ofList (c :: r)) = .error ⟨f.cause, 1⟩ := by
  have hsplit : split (c :: r) = ([], some f) := by
    simp only [split, List.length_cons, splitWithin, h]
  rw [tokenize_eq_place, String.toList_ofList, hsplit]
  rfl

/-! ### Integers -/

/-- The value of a digit. -/
def digitValue (d : Char) : Nat := d.toNat - '0'.toNat

/-- The digits of a text in base ten, whatever stands between them. -/
def decimalValue (text : List Char) : Nat :=
  Nat.ofDigits 10 ((text.filter Char.isDigit).reverse.map digitValue)

/-- The digits of a text without the separators and the zeros at the front. -/
def significantDigits (text : List Char) : List Char :=
  (text.filter Char.isDigit).dropWhile (· == '0')

theorem digitsValue_eq_ofDigits (ds : List Char) :
    Word.digitsValue ds = Nat.ofDigits 10 (ds.reverse.map digitValue) := by
  induction ds using List.reverseRecOn with
  | nil => rfl
  | append_singleton ds d ih =>
    rw [List.reverse_append, List.reverse_singleton, List.singleton_append, List.map_cons,
      Nat.ofDigits_cons, ← ih, Word.digitsValue, List.foldl_append]
    show 10 * _ + digitValue d = _
    rw [Nat.add_comm]
    rfl

/-- Zeros at the front of a number do not change its value. -/
theorem digitsValue_dropWhile_zero (ds : List Char) :
    Word.digitsValue (ds.dropWhile (· == '0')) = Word.digitsValue ds := by
  induction ds with
  | nil => rfl
  | cons d ds ih =>
    rw [List.dropWhile_cons]
    split
    next hzero =>
      obtain rfl : d = '0' := by simpa using hzero
      exact ih
    next => rfl

theorem decimalValue_eq (text : List Char) :
    decimalValue text = Word.digitsValue (text.filter Char.isDigit) :=
  (digitsValue_eq_ofDigits _).symm

theorem decimalValue_eq_significant (text : List Char) :
    decimalValue text = Word.digitsValue (significantDigits text) := by
  rw [decimalValue_eq, significantDigits, digitsValue_dropWhile_zero]

/-- What is left without the separators are the digits. -/
theorem filter_separators (h : ∀ d ∈ text, isNumberPart d = true) :
    text.filter (· != '_') = text.filter Char.isDigit := by
  apply List.filter_congr
  intro d hd
  have hpart := h d hd
  by_cases hseparator : d = '_'
  · subst hseparator
    rfl
  · have hdigit : d.isDigit = true := by simpa [isNumberPart, hseparator] using hpart
    simp [hseparator, hdigit]

instance : DecidablePred IsDigits
  | c :: r => decidable_of_iff ((c.isDigit && r.all isNumberPart) = true) (by simp [IsDigits])
  | [] => isFalse id

theorem Segment.IsDigits.all (h : IsDigits text) : ∀ d ∈ text, isNumberPart d = true := by
  match text, h with
  | d :: more, ⟨hd, hmore⟩ =>
    have hpart : isNumberPart d = true := by simp [isNumberPart, hd]
    exact List.forall_mem_cons.2 ⟨hpart, hmore⟩

/-- Digits without a point are an integer if their value is a word, and nothing else. -/
theorem numberKind_of_digits (h : IsDigits text) :
    numberKind? text = (Word.ofInt? (decimalValue text)).map .int := by
  have hpoint : (text.filter Char.isDigit).contains '.' = false := by
    rw [Bool.eq_false_iff, ne_eq, List.contains_iff_mem, List.mem_filter]
    exact fun hmem => absurd hmem.2 (by decide)
  unfold numberKind?
  rw [decimalValue_eq]
  simp only [filter_separators h.all, hpoint, Bool.false_eq_true, if_false]

/-- Digits and separators are one segment, as far as they go. -/
theorem next_of_digits {kind : Token.Kind} (h : IsDigits (c :: r))
    (hvalue : numberKind? (c :: r) = some kind) :
    next c r = .ok (⟨c :: r, .token kind, 0⟩, []) := by
  obtain ⟨hc, hr⟩ := h
  have htake : r.takeWhile isNumberPart = r := List.takeWhile_eq_self_iff.2 hr
  have hdrop : r.dropWhile isNumberPart = [] := List.dropWhile_eq_nil_iff.2 hr
  have hfraction : fraction [] = [] := rfl
  have hscanned : c :: r.takeWhile isNumberPart ++ fraction [] = c :: r := by
    rw [htake, hfraction, List.append_nil]
  have hscan := Scans.number (ruleOf_number hc) hdrop (hscanned.symm ▸ hvalue)
  rw [hscanned] at hscan
  exact hscan.next_eq

theorem next_of_digits_error (h : IsDigits (c :: r)) (hvalue : numberKind? (c :: r) = none) :
    next c r = .error (.invalidNumber (c :: r)) := by
  obtain ⟨hc, hr⟩ := h
  obtain ⟨hbreak, hblank, hname, hnumber⟩ := fits_of_ruleOf (ruleOf_number hc)
  have htake : r.takeWhile isNumberPart = r := List.takeWhile_eq_self_iff.2 hr
  have hdrop : r.dropWhile isNumberPart = [] := List.dropWhile_eq_nil_iff.2 hr
  simp only [next, hbreak, hblank, hname, hnumber, Bool.false_eq_true, if_false, if_true, htake,
    hdrop, fraction, List.append_nil, hvalue]

theorem lineBreaks_of_digits (h : IsDigits text) : Token.lineBreaks text = 0 := by
  rw [Token.lineBreaks, List.count_eq_zero]
  exact fun hmem => absurd (h.all _ hmem) (by decide)

/-- What the tokens of an integer literal are depends on its value only. -/
theorem tokenize_digits (h : IsDigits text) :
    tokenize (String.ofList text) =
      match Word.ofInt? (decimalValue text) with
      | some w => .ok [⟨.int w, 1⟩, ⟨.finish, 1⟩]
      | none => .error ⟨.invalidNumber (String.ofList text), 1⟩ := by
  match text, h with
  | c :: r, h =>
    have hkind := numberKind_of_digits h
    cases hvalue : Word.ofInt? (decimalValue (c :: r)) with
    | some w =>
      rw [hvalue] at hkind
      rw [tokenize_of_next (next_of_digits h hkind), lineBreaks_of_digits h]
    | none =>
      rw [hvalue] at hkind
      exact tokenize_of_next_error (next_of_digits_error h hkind)

/-- **An integer literal is the value of its digits.**  A digit with digits and separators after it
is one token, the word that has the value of the digits in base ten.  It is refused, as it is
written, if there is none.  Literals with the same digits but for separators and leading zeros are
the same tokens. -/
theorem tokenize_integer (h : IsDigits text) :
    (decimalValue text ≤ 9223372036854775807 →
      ∃ w : Word, w.toInt = decimalValue text ∧
        tokenize (String.ofList text) = .ok [⟨.int w, 1⟩, ⟨.finish, 1⟩]) ∧
      (9223372036854775807 < decimalValue text →
        tokenize (String.ofList text) = .error ⟨.invalidNumber (String.ofList text), 1⟩) ∧
      ∀ text', IsDigits text' → significantDigits text' = significantDigits text →
        ∀ tokens, tokenize (String.ofList text') = .ok tokens ↔
          tokenize (String.ofList text) = .ok tokens := by
  refine ⟨fun hle => ?_, fun hlt => ?_, fun text' h' hsame tokens => ?_⟩
  · have hlow : (0 : Word).toInt ≤ decimalValue text := Int.natCast_nonneg _
    have hhigh : (decimalValue text : Int) ≤ Int64.maxValue.toInt := Int.ofNat_le.2 hle
    obtain ⟨w, hw⟩ := Word.exists_of_between hlow hhigh
    refine ⟨w, hw, ?_⟩
    rw [tokenize_digits h, Word.ofInt?_eq_some_iff.2 hw]
  · have hnone : Word.ofInt? (decimalValue text) = none := by
      rw [Word.ofInt?_eq_none_iff]
      intro w hw
      have hgreatest := w.toInt_lt
      omega
    rw [tokenize_digits h, hnone]
  · rw [tokenize_digits h, tokenize_digits h', decimalValue_eq_significant text', hsame,
      ← decimalValue_eq_significant text]
    cases Word.ofInt? (decimalValue text) with
    | some w => exact Iff.rfl
    | none => exact ⟨nofun, nofun⟩

/-- The greatest word with separators, and with zeros too; and the number after it. -/
theorem greatest_literal :
    (∃ w : Word, w.toInt = 9223372036854775807 ∧
      tokenize "9_223_372_036_854_775_807" = .ok [⟨.int w, 1⟩, ⟨.finish, 1⟩] ∧
      tokenize "0_00__9223372036854775807_" = .ok [⟨.int w, 1⟩, ⟨.finish, 1⟩]) ∧
      tokenize "09_223_372_036_854_775_808" =
        .error ⟨.invalidNumber "09_223_372_036_854_775_808", 1⟩ := by
  have hplain : IsDigits "9_223_372_036_854_775_807".toList := by decide +kernel
  have hzeros : IsDigits "0_00__9223372036854775807_".toList := by decide +kernel
  have hlarge : IsDigits "09_223_372_036_854_775_808".toList := by decide +kernel
  obtain ⟨w, hw, htokens⟩ := (tokenize_integer hplain).1 (by decide +kernel)
  refine ⟨⟨w, hw, htokens, ?_⟩, (tokenize_integer hlarge).2.1 (by decide +kernel)⟩
  exact ((tokenize_integer hplain).2.2 _ hzeros (by decide +kernel) _).2 htokens

/-! ### Strings -/

/-- Whether a character cannot stand for itself in a literal with the delimiter `quote`: the
delimiter, a backslash, and, unless the delimiter is a backquote, a control other than the tab. -/
def mustEscape (quote c : Char) : Bool :=
  c == quote || c == '\\' || (quote != '\x60' && decide (c.toNat < 32) && c != '\t')

/-- A string as it is written between two delimiters. -/
def quotedBody (quote : Char) (value : List Char) : List Char :=
  value.flatMap fun c => if mustEscape quote c then ['\\', c] else [c]

theorem quotedBody_cons (quote c : Char) (value : List Char) :
    quotedBody quote (c :: value) =
      if mustEscape quote c then '\\' :: c :: quotedBody quote value
      else c :: quotedBody quote value := by
  rw [quotedBody, List.flatMap_cons]
  split
  · rfl
  · rfl

variable {quote : Char} {value : List Char}

/-- Letters are not escaped: some of them mean something else after a backslash. -/
theorem mustEscape_of_isAlpha (hquote : isQuote quote = true) (hletter : c.isAlpha = true) :
    mustEscape quote c = false := by
  have hname : isNameStart c = true := by simp [isNameStart, hletter]
  have hcode := (code_of_isNameStart hname).1
  have hother : ∀ d : Char, d.isAlpha = false → c ≠ d := by
    rintro d hd rfl
    cases hletter.symm.trans hd
  have hdelimiter : quote.isAlpha = false := by
    simp only [isQuote, Bool.or_eq_true, beq_iff_eq] at hquote
    rcases hquote with (rfl | rfl) | rfl
    · rfl
    · rfl
    · rfl
  simp [mustEscape, hother quote hdelimiter, hother '\\' rfl, Nat.not_lt_of_lt hcode]

/-- A character that has to be escaped stands for itself after the backslash. -/
theorem unescape_of_mustEscape (hquote : isQuote quote = true) (h : mustEscape quote c = true) :
    unescape c = c := by
  unfold unescape
  split
  case h_6 => rfl
  all_goals
    rw [mustEscape_of_isAlpha hquote rfl] at h
    cases h

/-- A character that need not be escaped is neither of those with a meaning, and may stand there. -/
theorem plain_of_not_mustEscape (h : mustEscape quote c = false) :
    c ≠ quote ∧ c ≠ '\\' ∧ mayStandIn quote c = true := by
  unfold mustEscape at h
  rw [Bool.or_eq_false_iff, Bool.or_eq_false_iff, beq_eq_false_iff_ne, beq_eq_false_iff_ne] at h
  obtain ⟨⟨hinside, hbare⟩, hcontrol⟩ := h
  refine ⟨hinside, hbare, ?_⟩
  rw [mayStandIn]
  by_cases hraw : quote = '\x60'
  · simp [hraw]
  · by_cases hlow : c.toNat < 32
    · have htab : c = '\t' := by simpa [hraw, hlow] using hcontrol
      simp [htab]
    · simp [Nat.le_of_not_lt hlow]

theorem spells_quotedBody (hquote : isQuote quote = true) (value : List Char) :
    Spells quote (quotedBody quote value ++ [quote]) value := by
  induction value with
  | nil => exact .close
  | cons c value ih =>
    rw [quotedBody_cons]
    split
    next hescape =>
      have hspells := Spells.escaped (e := c) ih
      rwa [unescape_of_mustEscape hquote hescape] at hspells
    next hplain =>
      obtain ⟨hinside, hbare, hstands⟩ := plain_of_not_mustEscape (Bool.eq_false_iff.2 hplain)
      exact .plain hinside hbare hstands ih

/-- Without its closing delimiter no end is found. -/
theorem literal_quotedBody (hquote : isQuote quote = true) (value : List Char) :
    literal? quote (quotedBody quote value) = none := by
  induction value with
  | nil => rfl
  | cons c value ih =>
    rw [quotedBody_cons]
    split
    next hescape =>
      have hbackslash : '\\' ≠ quote := by
        rintro rfl
        cases hquote
      rw [literal_cons, if_neg hbackslash, if_pos rfl]
      exact congrArg (Option.map _) ih
    next hplain =>
      obtain ⟨hinside, hbare, hstands⟩ := plain_of_not_mustEscape (Bool.eq_false_iff.2 hplain)
      rw [literal_cons, if_neg hinside, if_neg hbare, if_pos hstands, ih]
      rfl

theorem next_of_quote_error (hquote : isQuote quote = true) (hnone : literal? quote r = none) :
    next quote r = .error .unterminatedString := by
  obtain ⟨hbreak, hblank, hname, hnumber, hquoted⟩ := fits_of_ruleOf (ruleOf_quoted hquote)
  simp only [next, hbreak, hblank, hname, hnumber, hquoted, Bool.false_eq_true, if_false, if_true,
    hnone]

/-- The backslashes are no line breaks. -/
theorem lineBreaks_quotedBody (quote : Char) (value : List Char) :
    Token.lineBreaks (quotedBody quote value) = Token.lineBreaks value := by
  induction value with
  | nil => rfl
  | cons c value ih =>
    unfold Token.lineBreaks at ih ⊢
    rw [quotedBody_cons]
    split
    · rw [List.count_cons_of_ne (by decide), List.count_cons, List.count_cons, ih]
    · rw [List.count_cons, List.count_cons, ih]

/-- A literal is as long as its text, and ends on the line that its string does. -/
theorem lineBreaks_quoted (hquote : isQuote quote = true) (value : List Char) :
    Token.lineBreaks (quote :: (quotedBody quote value ++ [quote])) = value.count '\n' := by
  have hbreak : quote ≠ '\n' := (fits_of_ruleOf (ruleOf_quoted hquote)).1
  rw [Token.lineBreaks, List.count_cons_of_ne hbreak, List.count_append, List.count_singleton,
    if_neg (by simpa using hbreak)]
  exact lineBreaks_quotedBody quote value

/-- **Every string has a literal in every quoting.**  A string with its delimiter, its backslashes and
its controls escaped is, between two delimiters, one token on the first line; the lines after it are
counted.  Without the closing delimiter the text is refused. -/
theorem tokenize_quoted (s : String) (hquote : isQuote quote = true) :
    tokenize (String.ofList (quote :: (quotedBody quote s.toList ++ [quote]))) =
        .ok [⟨.str s, 1⟩, ⟨.finish, 1 + s.toList.count '\n'⟩] ∧
      tokenize (String.ofList (quote :: quotedBody quote s.toList)) =
        .error ⟨.unterminatedString, 1⟩ := by
  constructor
  · have hliteral := (spells_quotedBody hquote s.toList).literal hquote []
    rw [List.append_nil] at hliteral
    have hscan := Scans.quoted (ruleOf_quoted hquote) hliteral
    rw [tokenize_of_next hscan.next_eq, lineBreaks_quoted hquote, String.ofList_toList]
  · have hnone := literal_quotedBody hquote s.toList
    exact tokenize_of_next_error (next_of_quote_error hquote hnone)

/-- A quotation mark, a backslash before a letter with a meaning, a line break and a control; and the
same string between backquotes, where the controls stand for themselves. -/
theorem awkward_string_reads_back :
    tokenize "\"a\\\"\\\\n\\\n\\\x01\"" = .ok [⟨.str "a\"\\n\n\x01", 1⟩, ⟨.finish, 2⟩] ∧
      tokenize "\x60a\"\\\\n\n\x01\x60" = .ok [⟨.str "a\"\\n\n\x01", 1⟩, ⟨.finish, 2⟩] ∧
      tokenize "\x60a\"\\\\n\n\x01" = .error ⟨.unterminatedString, 1⟩ := by
  have hdouble : isQuote '\x22' = true := rfl
  have hback : isQuote '\x60' = true := rfl
  refine ⟨?_, ?_, ?_⟩
  · exact (tokenize_quoted "a\"\\n\n\x01" hdouble).1
  · exact (tokenize_quoted "a\"\\n\n\x01" hback).1
  · exact (tokenize_quoted "a\"\\n\n\x01" hback).2

end PairScript
