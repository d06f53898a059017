import PairScript.Proofs.Token.Spelling

/-!
# Tokens of two texts with a line break between them

No segment of a text reaches over a line break, except for string literals, which have to end, and
block comments that are not closed.  So the segments of a text followed by a line break and another
text are the segments of the one, the line break, and the segments of the other.

The tokens of the second text keep their kinds and are moved down by the number of lines of the
first (`tokenize_concat`).  The line break between them gives a token unless the first text ends
with one already, or has none at all.
-/

namespace PairScript

namespace Segment

/-- Whether a segment is a block comment without an end. -/
def isOpenComment (s : Segment) : Bool :=
  match s.text with
  | '/' :: '*' :: body => !(['*', '/'].isSuffixOf body)
  | _ => false

variable {c : Char} {r rest q : List Char} {s : Segment}

/-! ### Pieces of a segment -/

theorem takeWhile_break {p : Char → Bool} (hp : p '\n' = false) :
    (r ++ '\n' :: q).takeWhile p = r.takeWhile p := by
  induction r with
  | nil => simp [hp]
  | cons c r ih =>
    rw [List.cons_append, List.takeWhile_cons, List.takeWhile_cons, ih]

theorem dropWhile_break {p : Char → Bool} (hp : p '\n' = false) :
    (r ++ '\n' :: q).dropWhile p = r.dropWhile p ++ '\n' :: q := by
  induction r with
  | nil => simp [hp]
  | cons c r ih =>
    rw [List.cons_append, List.dropWhile_cons, List.dropWhile_cons, ih]
    split <;> rfl

theorem fraction_break : fraction (r ++ '\n' :: q) = fraction r := by
  match r with
  | [] => rfl
  | [c] =>
    by_cases hc : c = '.'
    · subst hc
      rfl
    · simp [fraction, hc]
  | c :: d :: r =>
    by_cases hc : c = '.'
    · subst hc
      simp only [List.cons_append, fraction]
      rw [takeWhile_break (by decide)]
    · simp [fraction, hc]

theorem fraction_isPrefix : fraction r <+: r := by
  unfold fraction
  split
  · split
    · exact List.prefix_append_right_inj ['.', _] |>.2 (List.takeWhile_prefix _)
    · exact List.nil_prefix
  · exact List.nil_prefix

/-- A literal that ends is read up to its end, whatever follows. -/
theorem literal_append {quote : Char} {l : Literal} (h : literal? quote r = some l)
    (q : List Char) :
    literal? quote (r ++ q) = some ⟨l.value, l.text, l.breaks, l.rest ++ q⟩ ∧
      l.text ++ l.rest = r := by
  induction r using literal?.induct quote generalizing l with
  | case1 => cases h
  | case2 r' =>
    rw [literal_cons, if_pos rfl] at h
    cases h
    rw [List.cons_append, literal_cons, if_pos rfl]
    exact ⟨rfl, rfl⟩
  | case3 hquote =>
    rw [literal_cons, if_neg hquote, if_pos rfl] at h
    cases h
  | case4 e r' hquote ih =>
    rw [literal_cons, if_neg hquote, if_pos rfl] at h
    obtain ⟨l', hl', rfl⟩ := Option.map_eq_some_iff.1 h
    rw [List.cons_append, literal_cons, if_neg hquote, if_pos rfl]
    obtain ⟨hmore, htext⟩ := ih hl'
    simp only [List.cons_append, hmore, Literal.push]
    exact ⟨rfl, by simp [htext]⟩
  | case5 c r' hquote hescape hstand ih =>
    rw [literal_cons, if_neg hquote, if_neg hescape, if_pos hstand] at h
    obtain ⟨l', hl', rfl⟩ := Option.map_eq_some_iff.1 h
    rw [List.cons_append, literal_cons, if_neg hquote, if_neg hescape, if_pos hstand]
    obtain ⟨hmore, htext⟩ := ih hl'
    simp only [hmore, Literal.push]
    exact ⟨rfl, by simp [htext]⟩
  | case6 c r' hquote hescape hstand =>
    rw [literal_cons, if_neg hquote, if_neg hescape, if_neg hstand] at h
    cases h

theorem blockComment_text (r : List Char) : (blockComment r).1 ++ (blockComment r).2 = r := by
  induction r using blockComment.induct with
  | case1 => rfl
  | case2 r => rfl
  | case3 c r hopen text rest hrest ih =>
    rw [hrest] at ih
    simp [blockComment, hrest, ih]

/-- A comment that something follows is closed. -/
theorem blockComment_closed (h : (blockComment r).2 ≠ []) :
    ['*', '/'].isSuffixOf (blockComment r).1 = true := by
  induction r using blockComment.induct with
  | case1 => exact absurd rfl h
  | case2 r => rfl
  | case3 c r hopen text rest hrest ih =>
    simp only [blockComment, hrest] at h ih ⊢
    rw [List.isSuffixOf_iff_suffix] at ih ⊢
    exact (ih h).trans (List.suffix_cons c text)

/-- A closed comment ends where it did before. -/
theorem blockComment_append (h : ['*', '/'].isSuffixOf (blockComment r).1 = true)
    (q : List Char) : blockComment (r ++ q) = ((blockComment r).1, (blockComment r).2 ++ q) := by
  induction r using blockComment.induct with
  | case1 => cases h
  | case2 r => rfl
  | case3 c r hopen text rest hrest ih =>
    -- the comment closes in the rest, since it does not close here
    have hstep : ∀ r' : List Char, (∀ r'', c = '*' → r' = '/' :: r'' → False) →
        blockComment (c :: r') = (c :: (blockComment r').1, (blockComment r').2) := by
      intro r' hopen'
      rw [blockComment]
      exact hopen'
    rw [hstep r hopen] at h
    have hlater : ['*', '/'].isSuffixOf (blockComment r).1 = true := by
      rw [List.isSuffixOf_iff_suffix, List.suffix_cons_iff] at h
      rcases h with h | h
      · obtain ⟨rfl, hbody⟩ := List.cons.inj h
        have htext := blockComment_text r
        rw [← hbody] at htext
        exact (hopen _ rfl htext.symm).elim
      · exact List.isSuffixOf_iff_suffix.2 h
    have hopen' : ∀ r'', c = '*' → r ++ q = '/' :: r'' → False := by
      intro r'' hc hr
      cases r with
      | nil => cases hlater
      | cons d r =>
        rw [List.cons_append, List.cons.injEq] at hr
        exact hopen r hc (by rw [hr.1])
    rw [List.cons_append, hstep r hopen, hstep (r ++ q) hopen', ih hlater]

theorem longestSuffix_eq_append (table : List (List Char)) (taken r : List Char) :
    ∃ more, longestSuffix table taken r = taken ++ more ∧ more <+: r := by
  induction taken, r using longestSuffix.induct table with
  | case1 taken => exact ⟨[], by simp [longestSuffix], List.nil_prefix⟩
  | case2 taken c r htable ih =>
    obtain ⟨more, hmore, hprefix⟩ := ih
    refine ⟨c :: more, ?_, List.cons_prefix_cons.2 ⟨rfl, hprefix⟩⟩
    rw [longestSuffix, if_pos htable, hmore]
    simp
  | case3 taken c r htable =>
    exact ⟨[], by rw [longestSuffix, if_neg htable, List.append_nil], List.nil_prefix⟩

theorem longestSuffix_isPrefix (table : List (List Char)) (r : List Char) :
    longestSuffix table [] r <+: r := by
  obtain ⟨more, hmore, hprefix⟩ := longestSuffix_eq_append table [] r
  rw [hmore]
  exact hprefix

theorem longestSuffix_break {table : List (List Char)} {taken : List Char}
    (htable : ∀ entry ∈ table, '\n' ∉ entry) :
    longestSuffix table taken (r ++ '\n' :: q) = longestSuffix table taken r := by
  induction taken, r using longestSuffix.induct table with
  | case1 taken =>
    have hstop : table.contains (taken ++ ['\n']) = false := by
      rw [Bool.eq_false_iff, ne_eq, List.contains_iff_mem]
      exact fun hmem => htable _ hmem (by simp)
    simp only [List.nil_append, longestSuffix, hstop, Bool.false_eq_true, if_false]
  | case2 taken c r hin ih =>
    rw [List.cons_append, longestSuffix, longestSuffix, if_pos hin, if_pos hin, ih]
  | case3 taken c r hout =>
    rw [List.cons_append, longestSuffix, longestSuffix, if_neg hout, if_neg hout]

/-! ### Segments -/

/-- A segment is the front of its text. -/
theorem next_text (h : next c r = .ok (s, rest)) : s.text ++ rest = c :: r ∧ s.text ≠ [] := by
  have hdrop : ∀ {part l : List Char}, part <+: l → part ++ l.drop part.length = l := by
    rintro part l ⟨tail, rfl⟩
    simp
  cases next_eq_ok_iff.1 h with
  | lineBreak | blank | name | lineComment => simp
  | number _ after _ =>
    subst after
    refine ⟨?_, by simp⟩
    rw [List.append_assoc, hdrop fraction_isPrefix]
    simp
  | quoted _ literal => simp [(literal_append literal []).2]
  | blockComment => simp [blockComment_text]
  | operator _ _ longest =>
    subst longest
    exact ⟨by rw [List.cons_append, hdrop (longestSuffix_isPrefix _ r)], by simp⟩

theorem opensComment_break (q : List Char) : opensComment (r ++ '\n' :: q) = opensComment r := by
  cases r <;> rfl

/-- A segment that is not an open comment ends before the line break after its text.  If something
follows it within the text, it is not an open comment. -/
theorem next_break (h : next c r = .ok (s, rest)) (hs : rest ≠ [] ∨ s.isOpenComment = false)
    (q : List Char) : next c (r ++ '\n' :: q) = .ok (s, rest ++ '\n' :: q) := by
  have hdrop : ∀ {part l : List Char}, part <+: l →
      l.drop part.length ++ '\n' :: q = (l ++ '\n' :: q).drop part.length := by
    intro part l hpart
    exact (List.drop_append_of_le_length hpart.length_le).symm
  rw [next_eq_ok_iff] at h ⊢
  cases h with
  | lineBreak rule => exact .lineBreak rule
  | blank rule =>
    rw [← takeWhile_break (q := q) (by decide), ← dropWhile_break (by decide)]
    exact .blank rule
  | name rule =>
    rw [← takeWhile_break (q := q) (by decide), ← dropWhile_break (by decide)]
    exact .name rule
  | @number _ _ _ kind rule after value =>
    subst after
    have hvalue : numberKind? (c :: (r ++ '\n' :: q).takeWhile isNumberPart ++
        fraction (r.dropWhile isNumberPart ++ '\n' :: q)) = some kind := by
      rw [takeWhile_break (by decide), fraction_break]
      exact value
    have hscan := Scans.number rule (dropWhile_break (by decide)) hvalue
    rwa [takeWhile_break (by decide), fraction_break, ← hdrop fraction_isPrefix] at hscan
  | quoted rule literal => exact .quoted rule (literal_append literal ('\n' :: q)).1
  | lineComment =>
    rw [← takeWhile_break (q := q) (by decide), ← dropWhile_break (by decide)]
    exact .lineComment
  | @blockComment r =>
    simp only [isOpenComment, Bool.not_eq_false'] at hs
    have hscan := Scans.blockComment (r := r ++ '\n' :: q)
    rwa [blockComment_append (hs.elim blockComment_closed id)] at hscan
  | operator rule bare longest =>
    subst longest
    rw [hdrop (longestSuffix_isPrefix _ r)]
    refine .operator rule (fun hc => ?_) (longestSuffix_break (suffixes_noBreak _))
    rw [opensComment_break, bare hc]

/-! ### All segments of a text -/

/-- A text splits into segments, to its end. -/
inductive Splits : List Char → List Segment → Prop
  | nil : Splits [] []
  | cons {c : Char} {r rest : List Char} {s : Segment} {ss : List Segment}
      (first : next c r = .ok (s, rest)) (others : Splits rest ss) : Splits (c :: r) (s :: ss)

variable {cs cs₁ cs₂ : List Char} {ss ss₁ ss₂ : List Segment}

theorem next_length (h : next c r = .ok (s, rest)) : rest.length ≤ r.length := by
  obtain ⟨htext, hsome⟩ := next_text h
  have hlength := congrArg List.length htext
  have hpos := List.length_pos_iff.2 hsome
  simp only [List.length_append, List.length_cons] at hlength
  omega

theorem splits_of_splitWithin {bound : Nat} (hbound : cs.length ≤ bound)
    (h : splitWithin bound cs = (ss, none)) : Splits cs ss := by
  induction bound generalizing cs ss with
  | zero =>
    cases cs with
    | nil =>
      cases h
      exact .nil
    | cons c r => cases hbound
  | succ bound ih =>
    cases cs with
    | nil =>
      cases h
      exact .nil
    | cons c r =>
      simp only [splitWithin] at h
      cases hnext : next c r with
      | error f =>
        rw [hnext] at h
        cases h
      | ok p =>
        obtain ⟨s, rest⟩ := p
        have hlength := next_length hnext
        rw [hnext] at h
        cases hrest : splitWithin bound rest with
        | mk ss' f =>
          simp only [hrest, Prod.mk.injEq] at h
          obtain ⟨rfl, rfl⟩ := h
          refine .cons hnext (ih ?_ hrest)
          rw [List.length_cons] at hbound
          omega

theorem Splits.splitWithin_eq (h : Splits cs ss) {bound : Nat} (hbound : cs.length ≤ bound) :
    splitWithin bound cs = (ss, none) := by
  induction h generalizing bound with
  | nil => cases bound <;> rfl
  | cons first _ ih =>
    have hlength := next_length first
    cases bound with
    | zero => cases hbound
    | succ bound =>
      rw [List.length_cons] at hbound
      simp only [splitWithin, first, ih (by omega : _ ≤ bound)]

theorem split_eq_iff : split cs = (ss, none) ↔ Splits cs ss :=
  ⟨splits_of_splitWithin (Nat.le_refl _), fun h => h.splitWithin_eq (Nat.le_refl _)⟩

theorem Splits.text (h : Splits cs ss) : ss.flatMap Segment.text = cs := by
  induction h with
  | nil => rfl
  | cons first _ ih => rw [List.flatMap_cons, ih, (next_text first).1]

/-- **The segments of two texts with a line break between them**, unless the first one ends in an
open comment. -/
theorem Splits.concat (h₁ : Splits cs₁ ss₁) (hclosed : ss₁.getLast?.any isOpenComment = false)
    (h₂ : Splits cs₂ ss₂) :
    Splits (cs₁ ++ '\n' :: cs₂) (ss₁ ++ ⟨['\n'], .lineBreak, 1⟩ :: ss₂) := by
  induction h₁ with
  | nil => exact .cons (by simp [next]) h₂
  | @cons c r rest s ss first others ih =>
    cases others with
    | nil =>
      have hs : s.isOpenComment = false := by simpa using hclosed
      exact .cons (next_break first (.inr hs) cs₂) (.cons (by simp [next]) h₂)
    | cons first' others' =>
      rw [List.getLast?_cons_cons] at hclosed
      exact .cons (next_break first (.inl (by simp)) cs₂) (ih hclosed)

end Segment

/-! ### Lines -/

namespace Token

/-- The token a number of lines further down. -/
def moveDown (k : Nat) (t : Token) : Token := ⟨t.kind, t.line + k⟩

variable {line : Nat} {folding : Bool} {ss ss₁ ss₂ : List Segment}

theorem place_line (line : Nat) (folding : Bool) (ss : List Segment) :
    (place line folding ss).2 = line + lineBreaks (ss.flatMap Segment.text) := by
  induction ss generalizing line folding with
  | nil => rfl
  | cons s ss ih =>
    have hcount : line + lineBreaks s.text + lineBreaks (ss.flatMap Segment.text)
        = line + lineBreaks ((s :: ss).flatMap Segment.text) := by
      simp only [lineBreaks, List.flatMap_cons, List.count_append]
      omega
    rw [place, ← hcount]
    simp only
    split
    next => exact ih _ _
    next =>
      split
      · exact ih _ _
      · exact ih _ _
    next => exact ih _ _

theorem place_moveDown (k line : Nat) (folding : Bool) (ss : List Segment) :
    place (line + k) folding ss
      = ((place line folding ss).1.map (moveDown k), (place line folding ss).2 + k) := by
  induction ss generalizing line folding with
  | nil => rfl
  | cons s ss ih =>
    have hafter : line + k + lineBreaks s.text = line + lineBreaks s.text + k := by omega
    simp only [place, hafter, ih]
    split
    next => rfl
    next =>
      split
      · rfl
      · rfl
    next => rfl

/-- Whether a line break after some segments gives no token. -/
def foldsAfter (folding : Bool) : List Segment → Bool
  | [] => folding
  | s :: ss =>
    match s.image with
    | .gap => foldsAfter folding ss
    | .lineBreak => foldsAfter true ss
    | .token _ => foldsAfter false ss

theorem place_append (line : Nat) (folding : Bool) (ss₁ ss₂ : List Segment) :
    place line folding (ss₁ ++ ss₂) =
      ((place line folding ss₁).1 ++
          (place (place line folding ss₁).2 (foldsAfter folding ss₁) ss₂).1,
        (place (place line folding ss₁).2 (foldsAfter folding ss₁) ss₂).2) := by
  induction ss₁ generalizing line folding with
  | nil => rfl
  | cons s ss₁ ih =>
    obtain ⟨text, image, breaks⟩ := s
    cases image with
    | gap => exact ih _ _
    | lineBreak =>
      cases folding with
      | true => exact ih _ _
      | false =>
        simp only [List.cons_append, place, foldsAfter, ih]
        rfl
    | token kind =>
      simp only [List.cons_append, place, foldsAfter, ih]

/-- A line break gives no token only after another one, or at the front. -/
theorem place_of_foldsAfter (h : foldsAfter folding ss = true) :
    ((place line folding ss).1 = [] ∧ folding = true) ∨
      ∃ ts t, (place line folding ss).1 = ts ++ [t] ∧ t.kind = .newline := by
  induction ss generalizing line folding with
  | nil => exact .inl ⟨rfl, h⟩
  | cons s ss ih =>
    have hcons : ∀ {t : Token} {ts : List Token},
        (∃ ts' t', ts = ts' ++ [t'] ∧ t'.kind = .newline) →
        ∃ ts' t', t :: ts = ts' ++ [t'] ∧ t'.kind = .newline := by
      rintro t ts ⟨ts', t', rfl, ht'⟩
      exact ⟨t :: ts', t', rfl, ht'⟩
    obtain ⟨text, image, breaks⟩ := s
    cases image with
    | gap => exact ih h
    | lineBreak =>
      cases folding with
      | true => exact ih h
      | false =>
        rcases @ih (line + lineBreaks text) true h with ⟨hnone, -⟩ | hsome
        · exact .inr ⟨[], ⟨.newline, line⟩, congrArg (_ :: ·) hnone, rfl⟩
        · exact .inr (hcons hsome)
    | token kind =>
      rcases @ih (line + lineBreaks text) false h with ⟨-, hfalse⟩ | hsome
      · cases hfalse
      · exact .inr (hcons hsome)

end Token

/-! ### Tokens -/

/-- Whether the tokens of a text end inside a block comment. -/
def endsInComment (source : String) : Bool :=
  (Segment.split source.toList).1.getLast?.any Segment.isOpenComment

theorem tokenize_eq_ok {source : String} {tokens : List Token} :
    tokenize source = .ok tokens ↔ ∃ ss, Segment.Splits source.toList ss ∧
      tokens = (Token.place 1 true ss).1 ++ [⟨.finish, (Token.place 1 true ss).2⟩] := by
  rw [tokenize_eq_place]
  cases hsplit : Segment.split source.toList with
  | mk ss failure =>
    cases failure with
    | some f =>
      refine ⟨nofun, ?_⟩
      rintro ⟨ss', hss', -⟩
      rw [Segment.split_eq_iff.2 hss'] at hsplit
      cases hsplit
    | none =>
      constructor
      · intro h
        cases h
        exact ⟨ss, Segment.split_eq_iff.1 hsplit, rfl⟩
      · rintro ⟨ss', hss', rfl⟩
        rw [Segment.split_eq_iff.2 hss'] at hsplit
        cases hsplit
        rfl

/-- What stands between the tokens of two texts: the token of the line break, unless there is one
before it or nothing at all. -/
inductive Separated : (before after : List Token) → List Token → Prop
  | none {after : List Token} : Separated [] after after
  | folded {ts after : List Token} {t : Token} (kind : t.kind = .newline) :
      Separated (ts ++ [t]) after (ts ++ t :: after)
  | broken {ts after : List Token} {t : Token} (kind : t.kind = .newline) :
      Separated ts after (ts ++ t :: after)

/-- **The tokens of two texts with a line break between them**: those of the one, without its end,
and those of the other, moved down by its number of lines. -/
theorem tokenize_concat {source₁ source₂ : String} {tokens₁ tokens₂ : List Token}
    (h₁ : tokenize source₁ = .ok tokens₁) (h₂ : tokenize source₂ = .ok tokens₂)
    (hclosed : endsInComment source₁ = false) :
    ∃ ts fin tokens, tokens₁ = ts ++ [fin] ∧ fin.kind = .finish ∧
      (∀ t ∈ ts, t.kind ≠ .finish) ∧
      tokenize (source₁ ++ "\n" ++ source₂) = .ok tokens ∧
      Separated ts (tokens₂.map (Token.moveDown (1 + source₁.toList.count '\n'))) tokens := by
  obtain ⟨ss₁, hss₁, rfl⟩ := tokenize_eq_ok.1 h₁
  obtain ⟨ss₂, hss₂, rfl⟩ := tokenize_eq_ok.1 h₂
  have hline : (Token.place 1 true ss₁).2 = 1 + source₁.toList.count '\n' := by
    rw [Token.place_line, hss₁.text]
    rfl
  have hsplit := Segment.split_eq_iff.2 hss₁
  rw [endsInComment, hsplit] at hclosed
  have hconcat : Segment.Splits (source₁ ++ "\n" ++ source₂).toList
      (ss₁ ++ ⟨['\n'], .lineBreak, 1⟩ :: ss₂) := by
    have htext : (source₁ ++ "\n" ++ source₂).toList
        = source₁.toList ++ '\n' :: source₂.toList := by simp
    rw [htext]
    exact hss₁.concat hclosed hss₂
  have hfinish : ∀ t ∈ (Token.place 1 true ss₁).1, t.kind ≠ .finish := by
    intro t ht hkind
    have hspelt : t ∈ (Token.place 1 true (Segment.split source₁.toList).1).1 := by rwa [hsplit]
    rcases isSpelt_of_split hspelt with hbreak | hspelt
    · rw [hkind] at hbreak
      cases hbreak
    · rw [hkind] at hspelt
      cases hspelt
  refine ⟨_, _, _, rfl, rfl, hfinish, tokenize_eq_ok.2 ⟨_, hconcat, rfl⟩, ?_⟩
  -- after the line break the second text starts as it would on its own, further down
  have hafter : Token.place ((Token.place 1 true ss₁).2 + 1) true ss₂
      = ((Token.place 1 true ss₂).1.map (Token.moveDown (Token.place 1 true ss₁).2),
        (Token.place 1 true ss₂).2 + (Token.place 1 true ss₁).2) := by
    rw [Nat.add_comm, Token.place_moveDown]
  rw [Token.place_append, ← hline, List.map_append]
  cases hfolds : Token.foldsAfter true ss₁ with
  | true =>
    have hbreak : ∀ line, Token.place line true (⟨['\n'], .lineBreak, 1⟩ :: ss₂)
        = Token.place (line + 1) true ss₂ := fun _ => rfl
    simp only [hbreak, hafter, List.append_assoc]
    rcases @Token.place_of_foldsAfter 1 true ss₁ hfolds with ⟨hnone, -⟩ | ⟨ts, t, hsome, ht⟩
    · simp only [hnone, List.nil_append]
      exact .none
    · simp only [hsome, List.append_assoc]
      exact .folded ht
  | false =>
    have hbreak : ∀ line, Token.place line false (⟨['\n'], .lineBreak, 1⟩ :: ss₂)
        = (⟨.newline, line⟩ :: (Token.place (line + 1) true ss₂).1,
          (Token.place (line + 1) true ss₂).2) := fun _ => rfl
    simp only [hbreak, hafter, List.append_assoc]
    exact .broken rfl

end PairScript
