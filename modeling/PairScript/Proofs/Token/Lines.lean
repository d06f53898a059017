import PairScript.Proofs.Token.Lossless

/-!
# The lines of tokens

A token stands on the line on which its lexeme starts.  The lexemes are the segments that tile the
text (`PairScript.Proofs.Token.Lossless`), so the line of a token is told by the segments before
its own: it is one more than the number of line breaks in them, whether these stand between
tokens, in comments or in string literals.  That the counters of the tokenizer give the same lines
is shown in `PairScript.Proofs.Token.Counting`.

* `Segment.Starts` says which segments tokens start with;
* `Token.segment_of_place` finds the segment of a token, and with it the line;
* `tokens_stand_where_they_start` puts this together for whole texts, also for those that cannot be
  read.
-/

namespace PairScript

namespace Segment

/-- The last of some segments, gaps apart, gives a token that is not a line break. -/
def EndInToken (ss : List Segment) : Prop :=
  ∃ before s gaps kind, ss = before ++ s :: gaps ∧ s.image = .token kind ∧
    ∀ gap ∈ gaps, gap.image = .gap

/-- A token starts with the segment `s`, which the segments `ss` stand before: `s` is of its kind,
and if it is a line break then it is the first one of its run. -/
structure Starts (ss : List Segment) (s : Segment) (kind : Token.Kind) : Prop where
  kind : s.kind? = some kind
  first : s.image = .lineBreak → EndInToken ss

theorem EndInToken.cons {ss : List Segment} (h : EndInToken ss) (s : Segment) :
    EndInToken (s :: ss) := by
  obtain ⟨before, t, gaps, kind, rfl, ht, hgaps⟩ := h
  exact ⟨s :: before, t, gaps, kind, rfl, ht, hgaps⟩

/-- A line break gives a token after some segments if their last one that counts gives another. -/
theorem endInToken_of_foldsAfter {folding : Bool} {ss : List Segment}
    (h : Token.foldsAfter folding ss = false) :
    EndInToken ss ∨ folding = false ∧ ∀ s ∈ ss, s.image = .gap := by
  induction ss generalizing folding with
  | nil => exact .inr ⟨h, nofun⟩
  | cons s ss ih =>
    obtain ⟨text, image, breaks⟩ := s
    cases image with
    | gap =>
      rcases ih h with htoken | ⟨hfolding, hgaps⟩
      · exact .inl (htoken.cons _)
      · exact .inr ⟨hfolding, List.forall_mem_cons.2 ⟨rfl, hgaps⟩⟩
    | lineBreak =>
      rcases @ih true h with htoken | ⟨hfolding, -⟩
      · exact .inl (htoken.cons _)
      · cases hfolding
    | token kind =>
      rcases @ih false h with htoken | ⟨-, hgaps⟩
      · exact .inl (htoken.cons _)
      · exact .inl ⟨[], _, ss, kind, rfl, rfl, hgaps⟩

end Segment

namespace Token

variable {line : Nat} {folding : Bool} {ss : List Segment} {t : Token}

/-- Every token that is placed starts with a segment: the tokens before it are those of the segments
before that one, and its line is told by their line breaks. -/
theorem segment_of_place {earlier later : List Token}
    (h : (place line folding ss).1 = earlier ++ t :: later) :
    ∃ before s after, ss = before ++ s :: after ∧ (place line folding before).1 = earlier ∧
      s.kind? = some t.kind ∧ (s.image = .lineBreak → foldsAfter folding before = false) ∧
      t.line = line + lineBreaks (before.flatMap Segment.text) := by
  induction ss generalizing line folding earlier with
  | nil => simp [place] at h
  | cons s ss ih =>
    -- a token of a later segment, after the tokens `own` of this one
    have hlater : ∀ (own : List Token) {folds : Bool} {others : List Token},
        (∀ ss, (place line folding (s :: ss)).1
          = own ++ (place (line + lineBreaks s.text) folds ss).1) →
        (∀ ss, foldsAfter folding (s :: ss) = foldsAfter folds ss) →
        (place (line + lineBreaks s.text) folds ss).1 = others ++ t :: later →
        ∃ before s' after, s :: ss = before ++ s' :: after ∧
          (place line folding before).1 = own ++ others ∧ s'.kind? = some t.kind ∧
          (s'.image = .lineBreak → foldsAfter folding before = false) ∧
          t.line = line + lineBreaks (before.flatMap Segment.text) := by
      intro own folds others hplace hfolds hothers
      obtain ⟨before, s', after, rfl, hbefore, hkind, hfirst, hline⟩ := ih hothers
      refine ⟨s :: before, s', after, rfl, ?_, hkind, ?_, ?_⟩
      · rw [hplace, hbefore]
      · rw [hfolds]
        exact hfirst
      · rw [hline, List.flatMap_cons]
        simp only [lineBreaks, List.count_append]
        omega
    obtain ⟨text, image, breaks⟩ := s
    cases image with
    | gap => exact hlater [] (fun _ => rfl) (fun _ => rfl) h
    | lineBreak =>
      cases folding with
      | true => exact hlater [] (fun _ => rfl) (fun _ => rfl) h
      | false =>
        cases earlier with
        | nil =>
          obtain ⟨rfl, -⟩ := List.cons.inj h
          exact ⟨[], _, ss, rfl, rfl, rfl, fun _ => rfl, rfl⟩
        | cons t' earlier =>
          obtain ⟨rfl, hothers⟩ := List.cons.inj h
          exact hlater [⟨.newline, line⟩] (fun _ => rfl) (fun _ => rfl) hothers
    | token kind =>
      cases earlier with
      | nil =>
        obtain ⟨rfl, -⟩ := List.cons.inj h
        refine ⟨[], _, ss, rfl, rfl, rfl, ?_, rfl⟩
        intro hbreak
        cases hbreak
      | cons t' earlier =>
        obtain ⟨rfl, hothers⟩ := List.cons.inj h
        exact hlater [⟨kind, line⟩] (fun _ => rfl) (fun _ => rfl) hothers

/-- A token stands between the first line and the last. -/
theorem line_of_mem_place (h : t ∈ (place line folding ss).1) :
    line ≤ t.line ∧ t.line ≤ (place line folding ss).2 := by
  obtain ⟨earlier, later, hsplit⟩ := List.append_of_mem h
  obtain ⟨before, s, after, rfl, -, -, -, hline⟩ := segment_of_place hsplit
  rw [place_line, hline, List.flatMap_append]
  simp only [lineBreaks, List.count_append]
  omega

/-- The lines of tokens never decrease. -/
theorem place_pairwise (line : Nat) (folding : Bool) (ss : List Segment) :
    (place line folding ss).1.Pairwise (·.line ≤ ·.line) := by
  induction ss generalizing line folding with
  | nil => exact .nil
  | cons s ss ih =>
    -- the token of this segment, and those of the segments after it
    have hcons : ∀ kind folds,
        (⟨kind, line⟩ :: (place (line + lineBreaks s.text) folds ss).1).Pairwise
          (·.line ≤ ·.line) := by
      intro kind folds
      refine .cons (fun t ht => ?_) (ih _ _)
      exact Nat.le_trans (Nat.le_add_right _ _) (line_of_mem_place ht).1
    obtain ⟨text, image, breaks⟩ := s
    cases image with
    | gap => exact ih _ _
    | lineBreak =>
      cases folding with
      | true => exact ih _ _
      | false => exact hcons _ _
    | token kind => exact hcons _ _

end Token

/-! ### Texts -/

/-- **Tokens stand on the lines on which their lexemes start.**

* A text that is tokenized can be tiled in one way only.  Every token before the end starts with a
  segment of that tiling: the tokens before it are those of the segments before that one, and its
  line is one more than the number of line breaks in the text before that segment.  The mark of the
  end stands on the last line, and lines never decrease.
* A text that is not tokenized can be tiled up to a literal that is not one, and the fault is blamed
  on the line on which that literal starts. -/
theorem tokens_stand_where_they_start (source : String) :
    (∀ tokens, tokenize source = .ok tokens →
      tokens.Pairwise (·.line ≤ ·.line) ∧
      ∃ ss ts, Segment.Tiles source.toList ss [] ∧
        (∀ ss', Segment.Tiles source.toList ss' [] → ss' = ss) ∧
        tokens = ts ++ [⟨.finish, 1 + Token.lineBreaks source.toList⟩] ∧
        ∀ earlier t later, ts = earlier ++ t :: later →
          ∃ before s after, ss = before ++ s :: after ∧ Segment.Starts before s t.kind ∧
            earlier.map Token.kind = Token.folded (before.filterMap Segment.kind?) ∧
            source.toList = before.flatMap Segment.text ++ s.text ++ after.flatMap Segment.text ∧
            t.line = 1 + Token.lineBreaks (before.flatMap Segment.text)) ∧
    ∀ f, tokenize source = .error f →
      ∃ ss left failure, Segment.Tiles source.toList ss left ∧ Segment.Stuck left failure ∧
        source.toList = ss.flatMap Segment.text ++ left ∧
        f = ⟨failure.cause, 1 + Token.lineBreaks (ss.flatMap Segment.text)⟩ := by
  refine ⟨fun tokens h => ?_, fun f h => ?_⟩
  · obtain ⟨ss, hss, htokens⟩ := tokenize_eq_ok.1 h
    have htiles := Segment.tiles_of_splits hss
    refine ⟨?_, ss, (Token.place 1 true ss).1, htiles, fun _ => htiles.unique, ?_, ?_⟩
    · rw [htokens]
      refine List.pairwise_append.2 ⟨Token.place_pairwise 1 true ss, List.pairwise_singleton _ _, ?_⟩
      intro t ht t' ht'
      rw [List.mem_singleton.1 ht']
      exact (Token.line_of_mem_place ht).2
    · rw [htokens, Token.place_line, hss.text]
    · intro earlier t later hts
      obtain ⟨before, s, after, rfl, hearlier, hkind, hfirst, hline⟩ :=
        Token.segment_of_place hts
      have hplain : ∀ s ∈ before, s.image ≠ .token .newline := by
        intro s hs himage
        have hspelt : s ∈ (Segment.split source.toList).1 := by
          rw [Segment.split_eq_iff.2 hss]
          exact List.mem_append_left _ hs
        cases Segment.isSpelt_of_splitWithin hspelt himage
      refine ⟨before, s, after, rfl, ⟨hkind, fun hbreak => ?_⟩, ?_, ?_, hline⟩
      · rcases Segment.endInToken_of_foldsAfter (hfirst hbreak) with htoken | ⟨hfolding, -⟩
        · exact htoken
        · cases hfolding
      · rw [← hearlier, Token.place_kinds 1 true hplain]
        rfl
      · rw [← hss.text, List.flatMap_append, List.flatMap_cons, List.append_assoc]
  · rw [tokenize_eq_place] at h
    cases hsplit : Segment.split source.toList with
    | mk ss failure =>
      cases failure with
      | none =>
        rw [hsplit] at h
        cases h
      | some failure =>
        rw [hsplit] at h
        cases h
        obtain ⟨left, htiles, hstuck⟩ := Segment.stuck_of_splitWithin hsplit
        exact ⟨ss, left, failure, htiles, hstuck, htiles.flatMap_text.symm,
          by rw [Token.place_line]⟩

/-- The last name of a text with line breaks in a comment and in a string, and a string that is cut
off on its second line. -/
theorem lastName_stands_where_it_starts :
    (∃ tokens, tokenize "a /* one\ntwo */ b\n\x60x\ny\x60 c" = .ok tokens ∧
      tokens.Pairwise (·.line ≤ ·.line) ∧
      ∃ before s, Segment.Starts before s (.name "c") ∧
        4 = 1 + Token.lineBreaks (before.flatMap Segment.text)) ∧
    ∃ ss left, Segment.Tiles "\n'abc\ndef'".toList ss left ∧
      Segment.Stuck left .unterminatedString ∧
      2 = 1 + Token.lineBreaks (ss.flatMap Segment.text) := by
  have htokens : tokenize "a /* one\ntwo */ b\n\x60x\ny\x60 c" = .ok
      [⟨.name "a", 1⟩, ⟨.name "b", 2⟩, ⟨.newline, 2⟩, ⟨.str "x\ny", 3⟩, ⟨.name "c", 4⟩,
        ⟨.finish, 4⟩] := by decide +kernel
  have hfailure : tokenize "\n'abc\ndef'" = .error ⟨.unterminatedString, 2⟩ := by decide +kernel
  obtain ⟨hlines, ss, ts, -, -, hts, hstarts⟩ := (tokens_stand_where_they_start _).1 _ htokens
  obtain ⟨ss', left, failure, htiles, hstuck, -, hfault⟩ :=
    (tokens_stand_where_they_start _).2 _ hfailure
  refine ⟨⟨_, htokens, hlines, ?_⟩, ss', left, htiles, ?_, (Fault.mk.inj hfault).2⟩
  · have hts : ts = [⟨.name "a", 1⟩, ⟨.name "b", 2⟩, ⟨.newline, 2⟩, ⟨.str "x\ny", 3⟩,
        ⟨.name "c", 4⟩] := by
      have hfront := congrArg List.dropLast hts
      rw [List.dropLast_concat] at hfront
      exact hfront.symm
    obtain ⟨before, s, -, -, hs, -, -, hline⟩ :=
      hstarts (ts.take 4) ⟨.name "c", 4⟩ [] (by rw [hts]; rfl)
    exact ⟨before, s, hs, hline⟩
  · cases failure with
    | unterminatedString => exact hstuck
    | invalidNumber literal => cases (Fault.mk.inj hfault).1

end PairScript
