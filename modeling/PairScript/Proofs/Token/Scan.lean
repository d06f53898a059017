import PairScript.Token.Segment

/-!
# The rules of the scan

The first character of a text decides which rule its first segment is read by, except that a
slash may start a comment (`Segment.ruleOf`).  `Segment.Scans` has one case for each rule, with
what the segment is and what it leaves, so that a fact about all segments is shown rule by rule.
-/

namespace PairScript.Segment

/-- The rules that the first character of a segment tells apart. -/
inductive Rule where
  | lineBreak
  | blank
  | name
  | number
  | quoted
  | other
deriving Repr, DecidableEq

/-- The rule that a segment is read by, from its first character. -/
def ruleOf (c : Char) : Rule :=
  if c = '\n' then .lineBreak
  else if isBlank c then .blank
  else if isNameStart c then .name
  else if c.isDigit then .number
  else if isQuote c then .quoted
  else .other

/-- Whether the text after a slash makes it the start of a comment. -/
def opensComment : List Char → Bool
  | d :: _ => d == '/' || d == '*'
  | [] => false

/-- The first segment of the text `c :: r`, and what it leaves. -/
inductive Scans : (c : Char) → (r : List Char) → Segment → List Char → Prop
  | lineBreak {c : Char} {r : List Char} (rule : ruleOf c = .lineBreak) :
      Scans c r ⟨[c], .lineBreak, 1⟩ r
  | blank {c : Char} {r : List Char} (rule : ruleOf c = .blank) :
      Scans c r ⟨c :: r.takeWhile isBlank, .gap, 0⟩ (r.dropWhile isBlank)
  | name {c : Char} {r : List Char} (rule : ruleOf c = .name) :
      Scans c r ⟨c :: r.takeWhile isNamePart,
        .token (.name (String.ofList (c :: r.takeWhile isNamePart))), 0⟩ (r.dropWhile isNamePart)
  | number {c : Char} {r tail : List Char} {kind : Token.Kind} (rule : ruleOf c = .number)
      (after : r.dropWhile isNumberPart = tail)
      (value : numberKind? (c :: r.takeWhile isNumberPart ++ fraction tail) = some kind) :
      Scans c r ⟨c :: r.takeWhile isNumberPart ++ fraction tail, .token kind, 0⟩
        (tail.drop (fraction tail).length)
  | quoted {c : Char} {r : List Char} {l : Literal} (rule : ruleOf c = .quoted)
      (literal : literal? c r = some l) :
      Scans c r ⟨c :: l.text, .token (.str (String.ofList l.value)), l.breaks⟩ l.rest
  | lineComment {r : List Char} :
      Scans '/' ('/' :: r) ⟨'/' :: '/' :: r.takeWhile (· != '\n'), .gap, 0⟩
        (r.dropWhile (· != '\n'))
  | blockComment {r : List Char} :
      Scans '/' ('*' :: r) ⟨'/' :: '*' :: (blockComment r).1, .gap,
        Token.lineBreaks (blockComment r).1⟩ (blockComment r).2
  | operator {c : Char} {r found : List Char} (rule : ruleOf c = .other)
      (bare : c = '/' → opensComment r = false)
      (longest : longestSuffix (suffixes c) [] r = found) :
      Scans c r ⟨c :: found, .token (.symbol (String.ofList (c :: found))), 0⟩ (r.drop found.length)

variable {c : Char} {r rest : List Char} {s : Segment}

/-- What a character is, and is not, if its segment is read by a rule. -/
def Rule.Fits (c : Char) : Rule → Prop
  | .lineBreak => c = '\n'
  | .blank => c ≠ '\n' ∧ isBlank c = true
  | .name => c ≠ '\n' ∧ isBlank c = false ∧ isNameStart c = true
  | .number => c ≠ '\n' ∧ isBlank c = false ∧ isNameStart c = false ∧ c.isDigit = true
  | .quoted =>
    c ≠ '\n' ∧ isBlank c = false ∧ isNameStart c = false ∧ c.isDigit = false ∧ isQuote c = true
  | .other =>
    c ≠ '\n' ∧ isBlank c = false ∧ isNameStart c = false ∧ c.isDigit = false ∧ isQuote c = false

theorem fits_of_ruleOf {rule : Rule} (h : ruleOf c = rule) : rule.Fits c := by
  subst h
  unfold ruleOf
  repeat' split
  all_goals simp_all [Rule.Fits]

/-! ### The scan -/

/-- What `next` finds is read by one of the rules. -/
theorem scans_of_next (h : next c r = .ok (s, rest)) : Scans c r s rest := by
  unfold next at h
  split at h
  next hc =>
    cases h
    exact .lineBreak (by simp [ruleOf, hc])
  next hbreak =>
    split at h
    next hc =>
      cases h
      exact .blank (by simp [ruleOf, hbreak, hc])
    next hblank =>
      split at h
      next hc =>
        cases h
        exact .name (by simp [ruleOf, hbreak, hblank, hc])
      next hname =>
        split at h
        next hc =>
          simp only at h
          split at h
          next kind hkind =>
            cases h
            exact .number (by simp [ruleOf, hbreak, hblank, hname, hc]) rfl hkind
          next => cases h
        next hnumber =>
          split at h
          next hc =>
            split at h
            next l hl =>
              cases h
              exact .quoted (by simp [ruleOf, hbreak, hblank, hname, hnumber, hc]) hl
            next => cases h
          next hquoted =>
            have hrule : ruleOf c = .other := by
              simp [ruleOf, hbreak, hblank, hname, hnumber, hquoted]
            split at h
            next =>
              cases h
              exact .lineComment
            next =>
              cases h
              exact .blockComment
            next hline hblock =>
              cases h
              refine .operator hrule ?_ rfl
              rintro rfl
              cases r with
              | nil => rfl
              | cons d r =>
                rw [opensComment, Bool.or_eq_false_iff, beq_eq_false_iff_ne, beq_eq_false_iff_ne]
                constructor
                · rintro rfl
                  exact hline r rfl rfl
                · rintro rfl
                  exact hblock r rfl rfl

theorem Scans.next_eq (h : Scans c r s rest) : next c r = .ok (s, rest) := by
  cases h with
  | lineBreak rule =>
    obtain rfl : c = '\n' := fits_of_ruleOf rule
    rfl
  | blank rule =>
    obtain ⟨hbreak, hblank⟩ := fits_of_ruleOf rule
    simp only [next, hbreak, hblank, if_false, if_true]
  | name rule =>
    obtain ⟨hbreak, hblank, hname⟩ := fits_of_ruleOf rule
    simp only [next, hbreak, hblank, hname, Bool.false_eq_true, if_false, if_true]
  | number rule after value =>
    obtain ⟨hbreak, hblank, hname, hnumber⟩ := fits_of_ruleOf rule
    subst after
    simp only [next, hbreak, hblank, hname, hnumber, Bool.false_eq_true, if_false, if_true, value]
  | quoted rule literal =>
    obtain ⟨hbreak, hblank, hname, hnumber, hquoted⟩ := fits_of_ruleOf rule
    simp only [next, hbreak, hblank, hname, hnumber, hquoted, Bool.false_eq_true, if_false,
      if_true, literal]
  | lineComment => rfl
  | blockComment => rfl
  | operator rule bare longest =>
    obtain ⟨hbreak, hblank, hname, hnumber, hquoted⟩ := fits_of_ruleOf rule
    subst longest
    simp only [next, hbreak, hblank, hname, hnumber, hquoted, Bool.false_eq_true, if_false]
    split
    · cases bare rfl
    · cases bare rfl
    · rfl

/-- **The first segment of a text** is the one that a rule reads. -/
theorem next_eq_ok_iff : next c r = .ok (s, rest) ↔ Scans c r s rest :=
  ⟨scans_of_next, Scans.next_eq⟩

end PairScript.Segment
