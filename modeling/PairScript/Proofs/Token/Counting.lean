import PairScript.Proofs.Token.Scan
import PairScript.Token.Tokenize

/-!
# Counted lines

Line breaks are counted as they are read: the one that is a segment of its own, those in string
literals, escaped or not, and those in block comments.  Two counters say when they count: at once in
a comment, and after the token has been put out in all other segments.

Every line break is counted once, whatever segment it is in (`Segment.Scans.breaks_eq`).  So it
comes to the same to count the line breaks in the text of each segment and to add them to the line
when the segment is past (`Token.place`).  `tokenize_eq_place` says this for whole texts, and what is
shown of lines below is shown of `Token.place`.
-/

namespace PairScript

open Token (lineBreaks)

theorem Token.lineBreaks_cons (c : Char) (cs : List Char) :
    lineBreaks (c :: cs) = Segment.breakCount c + lineBreaks cs := by
  unfold lineBreaks Segment.breakCount
  rw [List.count_cons, Nat.add_comm]
  by_cases hc : c = '\n' <;> simp [hc]

theorem Token.lineBreaks_cons_of_ne {c : Char} (hc : c ≠ '\n') (cs : List Char) :
    lineBreaks (c :: cs) = lineBreaks cs :=
  List.count_cons_of_ne hc

theorem Token.lineBreaks_eq_zero {cs : List Char} (h : ∀ c ∈ cs, c ≠ '\n') : lineBreaks cs = 0 :=
  List.count_eq_zero.2 fun hmem => h _ hmem rfl

namespace Segment

variable {c : Char} {r rest : List Char} {s : Segment}

/-! ### Literals -/

theorem literal_cons (quote c : Char) (r : List Char) :
    literal? quote (c :: r) =
      if c = quote then some ⟨[], [c], 0, r⟩
      else if c = '\\' then
        match r with
        | [] => none
        | e :: r' => (literal? quote r').map (Literal.push (unescape e) [c, e] (breakCount e))
      else if mayStandIn quote c then (literal? quote r).map (Literal.push c [c] (breakCount c))
      else none :=
  literal?.eq_def quote (c :: r)

/-- The count goes along with the text. -/
theorem breaks_of_literal {quote : Char} {l : Literal} (hquote : quote ≠ '\n')
    (h : literal? quote r = some l) : l.breaks = lineBreaks l.text := by
  induction r using literal?.induct quote generalizing l with
  | case1 => cases h
  | case2 r' =>
    rw [literal_cons, if_pos rfl] at h
    cases h
    exact (Token.lineBreaks_cons_of_ne hquote []).symm
  | case3 hother =>
    rw [literal_cons, if_neg hother, if_pos rfl] at h
    cases h
  | case4 e r' hother ih =>
    rw [literal_cons, if_neg hother, if_pos rfl] at h
    obtain ⟨l', hl', rfl⟩ := Option.map_eq_some_iff.1 h
    show breakCount e + l'.breaks = lineBreaks ('\\' :: e :: l'.text)
    rw [Token.lineBreaks_cons_of_ne (by decide), Token.lineBreaks_cons, ih hl']
  | case5 c r' hother hbare hstands ih =>
    rw [literal_cons, if_neg hother, if_neg hbare, if_pos hstands] at h
    obtain ⟨l', hl', rfl⟩ := Option.map_eq_some_iff.1 h
    show breakCount c + l'.breaks = lineBreaks (c :: l'.text)
    rw [Token.lineBreaks_cons, ih hl']
  | case6 c r' hother hbare hstands =>
    rw [literal_cons, if_neg hother, if_neg hbare, if_neg hstands] at h
    cases h

/-! ### Segments without line breaks -/

theorem ne_break_of_mem_takeWhile {p : Char → Bool} (hp : p '\n' = false) :
    ∀ d ∈ r.takeWhile p, d ≠ '\n' := by
  rintro d hd rfl
  have hbreak := List.all_eq_true.1 List.all_takeWhile _ hd
  rw [hp] at hbreak
  cases hbreak

theorem ne_break_of_mem_fraction : ∀ d ∈ fraction r, d ≠ '\n' := by
  unfold fraction
  split
  next d r' =>
    split
    next hdigit =>
      have hd : d ≠ '\n' := by
        rintro rfl
        cases hdigit
      exact List.forall_mem_cons.2 ⟨by decide, List.forall_mem_cons.2
        ⟨hd, ne_break_of_mem_takeWhile (by decide)⟩⟩
    next => exact nofun
  next => exact nofun

theorem suffixes_noBreak (c : Char) : ∀ entry ∈ suffixes c, '\n' ∉ entry := by
  unfold suffixes
  split <;> decide

theorem longestSuffix_noBreak {table : List (List Char)} {taken : List Char}
    (htable : ∀ entry ∈ table, '\n' ∉ entry) (htaken : '\n' ∉ taken) :
    '\n' ∉ longestSuffix table taken r := by
  induction taken, r using longestSuffix.induct table with
  | case1 taken => exact htaken
  | case2 taken c r hin ih =>
    rw [longestSuffix, if_pos hin]
    exact ih (htable _ (List.contains_iff_mem.1 hin))
  | case3 taken c r hout =>
    rw [longestSuffix, if_neg hout]
    exact htaken

/-! ### All segments -/

/-- **Every line break of a segment is counted once.** -/
theorem Scans.breaks_eq (h : Scans c r s rest) : s.breaks = lineBreaks s.text := by
  -- a segment that counts none
  have hnone : ∀ {more : List Char}, c ≠ '\n' → (∀ d ∈ more, d ≠ '\n') →
      0 = lineBreaks (c :: more) :=
    fun hc hmore => (Token.lineBreaks_eq_zero (List.forall_mem_cons.2 ⟨hc, hmore⟩)).symm
  cases h with
  | lineBreak rule =>
    obtain rfl : c = '\n' := fits_of_ruleOf rule
    rfl
  | blank rule => exact hnone (fits_of_ruleOf rule).1 (ne_break_of_mem_takeWhile (by decide))
  | name rule => exact hnone (fits_of_ruleOf rule).1 (ne_break_of_mem_takeWhile (by decide))
  | number rule =>
    refine hnone (fits_of_ruleOf rule).1 fun d hd => ?_
    rcases List.mem_append.1 hd with hd | hd
    · exact ne_break_of_mem_takeWhile (by decide) d hd
    · exact ne_break_of_mem_fraction d hd
  | quoted rule literal =>
    have hc : c ≠ '\n' := (fits_of_ruleOf rule).1
    rw [Token.lineBreaks_cons_of_ne hc]
    exact breaks_of_literal hc literal
  | lineComment =>
    exact hnone (by decide) (List.forall_mem_cons.2 ⟨by decide, ne_break_of_mem_takeWhile rfl⟩)
  | blockComment =>
    rw [Token.lineBreaks_cons_of_ne (by decide), Token.lineBreaks_cons_of_ne (by decide)]
  | operator rule _ longest =>
    subst longest
    refine hnone (fits_of_ruleOf rule).1 ?_
    rintro d hd rfl
    exact longestSuffix_noBreak (suffixes_noBreak c) List.not_mem_nil hd

/-- A property of each segment, wherever it is read, is one of all segments of a text. -/
theorem forall_mem_splitWithin {P : Segment → Prop}
    (h : ∀ {c : Char} {r rest : List Char} {s : Segment}, next c r = .ok (s, rest) → P s)
    {bound : Nat} {cs : List Char} : ∀ s ∈ (splitWithin bound cs).1, P s := by
  induction bound generalizing cs with
  | zero => cases cs <;> simp [splitWithin]
  | succ bound ih =>
    cases cs with
    | nil => simp [splitWithin]
    | cons c r =>
      simp only [splitWithin]
      cases hnext : next c r with
      | error f => simp
      | ok p => exact List.forall_mem_cons.2 ⟨h hnext, ih⟩

end Segment

/-! ### The line of a token -/

/-- What is read with nothing pending counts as soon as it is put out. -/
theorem Counters.settle_read (line breaks : Nat) :
    Counters.settle ⟨line, 0 + breaks⟩ = ⟨line + breaks, 0⟩ := by
  rw [Nat.zero_add]
  rfl

namespace Token

/-- The tokens of a list of segments that starts on `line`, and the line after them, all line breaks
in the text of a segment being counted.  While `folding`, a line break gives no token. -/
def place (line : Nat) (folding : Bool) : List Segment → List Token × Nat
  | [] => ([], line)
  | s :: rest =>
    let after := line + lineBreaks s.text
    match s.image with
    | .gap => place after folding rest
    | .lineBreak =>
      if folding then place after true rest
      else
        let (ts, last) := place after true rest
        (⟨.newline, line⟩ :: ts, last)
    | .token kind =>
      let (ts, last) := place after false rest
      (⟨kind, line⟩ :: ts, last)

/-- **The two counters add up** if nothing is pending at the start: a token stands on the line that
its segment starts on, and nothing is pending at the end. -/
theorem emit_eq_place {line : Nat} {folding : Bool} {ss : List Segment}
    (h : ∀ s ∈ ss, s.breaks = lineBreaks s.text) :
    emit ⟨line, 0⟩ folding ss
      = ((place line folding ss).1, ⟨(place line folding ss).2, 0⟩) := by
  -- nothing is pending between segments either, so the line alone is carried along
  induction ss generalizing line folding with
  | nil => rfl
  | cons s ss ih =>
    obtain ⟨hs, hothers⟩ := List.forall_mem_cons.1 h
    obtain ⟨text, image, breaks⟩ := s
    obtain rfl : breaks = lineBreaks text := hs
    cases image with
    | gap => exact ih hothers
    | lineBreak =>
      cases folding with
      | true =>
        show emit (Counters.settle ⟨line, 0 + lineBreaks text⟩) true ss = _
        rw [Counters.settle_read]
        exact ih hothers
      | false => simp only [emit, place, Counters.read, Counters.settle_read, ih hothers]; rfl
    | token kind => simp only [emit, place, Counters.read, Counters.settle_read, ih hothers]

end Token

/-- **Tokens are placed by the line breaks before them.** -/
theorem tokenize_eq_place (source : String) :
    tokenize source =
      let (segments, failure) := Segment.split source.toList
      let (tokens, line) := Token.place 1 true segments
      match failure with
      | some f => .error ⟨f.cause, line⟩
      | none => .ok (tokens ++ [⟨.finish, line⟩]) := by
  have hbreaks : ∀ s ∈ (Segment.split source.toList).1, s.breaks = lineBreaks s.text :=
    Segment.forall_mem_splitWithin fun hnext => (Segment.scans_of_next hnext).breaks_eq
  unfold tokenize Counters.start
  revert hbreaks
  obtain ⟨segments, failure⟩ := Segment.split source.toList
  intro hbreaks
  dsimp only at hbreaks ⊢
  cases failure with
  | none => simp only [Token.emit_eq_place hbreaks]
  | some f => simp only [Token.emit_eq_place hbreaks]

end PairScript
