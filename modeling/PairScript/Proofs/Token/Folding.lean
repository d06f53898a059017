import PairScript.Proofs.Token.Lossless

/-!
# Line breaks are folded, and the end is marked once

What a parser may count on in the tokens of a text: the mark of the end is the last of them and no
other, there is no line break at the front, and no two line breaks stand side by side.  In the text
there may be any number of line breaks, with blanks and comments between them, and more of them in
comments and in string literals.

The kinds of the tokens are those of the segments, folded (`Token.place_kinds`).  So all that is to
be shown is what folding does to any list of kinds.
-/

namespace PairScript

namespace Token

/-! ### Folded kinds -/

theorem isChain_folded (kinds : List Kind) : (folded kinds).IsChain Kind.Apart :=
  List.isChain_destutter Kind.Apart _

theorem head_folded (kinds : List Kind) : ∀ kind ∈ (folded kinds).head?, kind ≠ .newline := by
  unfold folded
  cases hfront : kinds.dropWhile (· == .newline) with
  | nil => exact nofun
  | cons k others =>
    have hk : k ≠ .newline := by
      have hhead := List.head?_dropWhile_not (· == Kind.newline) kinds
      rw [hfront] at hhead
      simpa using hhead
    rw [destutter_token hk]
    rintro kind ⟨⟩
    exact hk

theorem mem_of_mem_folded {kinds : List Kind} {kind : Kind} (h : kind ∈ folded kinds) :
    kind ∈ kinds :=
  (List.dropWhile_sublist _).subset ((List.destutter_sublist Kind.Apart _).subset h)

end Token

/-! ### The tokens of a text -/

/-- The tokens of a text before the mark of its end. -/
theorem kinds_of_tokenize {source : String} {tokens : List Token}
    (h : tokenize source = .ok tokens) :
    ∃ body line kinds, tokens = body ++ [⟨.finish, line⟩] ∧
      body.map Token.kind = Token.folded kinds ∧ Token.Kind.finish ∉ kinds := by
  obtain ⟨ss, hss, rfl⟩ := tokenize_eq_ok.1 h
  -- what a segment gives is spelt out in the text, so it is neither a line break nor the mark
  have hspelt : ∀ s ∈ ss, ∀ kind, s.image = .token kind → kind.isSpelt = true := by
    intro s hs kind himage
    have hmem : s ∈ (Segment.split source.toList).1 := by rwa [Segment.split_eq_iff.2 hss]
    exact Segment.isSpelt_of_splitWithin hmem himage
  have hplain : ∀ s ∈ ss, s.image ≠ .token .newline := by
    intro s hs himage
    cases hspelt s hs _ himage
  refine ⟨_, _, ss.filterMap Segment.kind?, rfl, Token.place_kinds 1 true hplain, fun hfinish => ?_⟩
  obtain ⟨⟨text, image, breaks⟩, hs, hkind⟩ := List.mem_filterMap.1 hfinish
  cases image with
  | gap | lineBreak => cases hkind
  | token kind =>
    cases hkind
    cases hspelt _ hs _ rfl

/-- **The tokens of a text end with the mark of the end**, which is nowhere else among them, they do
not start with a line break, and no two adjacent ones are line breaks. -/
theorem tokenize_folds_breaks (source : String) (tokens : List Token)
    (h : tokenize source = .ok tokens) :
    (∃ body last, tokens = body ++ [last] ∧ last.kind = .finish ∧ ∀ t ∈ body, t.kind ≠ .finish) ∧
      (∀ t ∈ tokens.head?, t.kind ≠ .newline) ∧
      tokens.IsChain fun t t' => ¬ (t.kind = .newline ∧ t'.kind = .newline) := by
  obtain ⟨body, line, kinds, rfl, hbody, hfinish⟩ := kinds_of_tokenize h
  refine ⟨⟨body, _, rfl, rfl, fun t ht hkind => ?_⟩, ?_, ?_⟩
  · have hmem : t.kind ∈ Token.folded kinds := hbody ▸ List.mem_map_of_mem ht
    exact hfinish (Token.mem_of_mem_folded (hkind ▸ hmem))
  · cases body with
    | nil =>
      rintro t ⟨⟩
      exact nofun
    | cons first others =>
      rintro t ⟨⟩
      refine Token.head_folded kinds _ ?_
      rw [← hbody]
      rfl
  · have hchain := Token.isChain_folded kinds
    rw [← hbody, List.isChain_map] at hchain
    refine hchain.append (.singleton _) ?_
    rintro t - t' ⟨⟩ ⟨-, hkind⟩
    cases hkind

/-- Line breaks at the front and at the end, after a comment, in one, and in a string literal. -/
theorem tokenize_folds_breaks_around_comments :
    ∃ tokens, tokenize "\n \n`a\n`//\n\n /*\n*/ \nc\n" = .ok tokens ∧
      tokens.map Token.kind = [.str "a\n", .newline, .name "c", .newline, .finish] ∧
      tokens.IsChain fun t t' => ¬ (t.kind = .newline ∧ t'.kind = .newline) := by
  have htokens : tokenize "\n \n`a\n`//\n\n /*\n*/ \nc\n" = .ok
      [⟨.str "a\n", 3⟩, ⟨.newline, 4⟩, ⟨.name "c", 8⟩, ⟨.newline, 8⟩, ⟨.finish, 9⟩] := by
    decide +kernel
  exact ⟨_, htokens, rfl, (tokenize_folds_breaks _ _ htokens).2.2⟩

end PairScript
