import PairScript.Proofs.Token.Counting

/-!
# How tokens are spelt

A token of a text that is not a line break comes from a segment of the text, so it is not the mark
of the end either.  A name token starts with a letter, `_`, `$` or `@`, and goes on with characters
of names (`isName_of_tokenize`).  No operator starts so, so a program cannot refer to an operator by
name: what is bound to the symbol of an operator stays out of the reach of variables.
-/

namespace PairScript

/-- Whether a text starts as names do. -/
def startsName (text : String) : Bool := text.toList.head?.any Segment.isNameStart

/-- Whether a segment can be read as a token of this kind. -/
def Token.Kind.isSpelt : Token.Kind → Bool
  | .newline => false
  | .finish => false
  | .name text => startsName text
  | _ => true

namespace Segment

theorem isSpelt_of_numberKind {digits : List Char} {kind : Token.Kind}
    (h : numberKind? digits = some kind) : kind.isSpelt = true := by
  unfold numberKind? at h
  simp only at h
  split at h
  · obtain ⟨x, -, rfl⟩ := Option.map_eq_some_iff.1 h
    rfl
  · obtain ⟨n, -, rfl⟩ := Option.map_eq_some_iff.1 h
    rfl

theorem isSpelt_of_next {c : Char} {r rest : List Char} {s : Segment} {kind : Token.Kind}
    (h : next c r = .ok (s, rest)) (himage : s.image = .token kind) : kind.isSpelt = true := by
  cases next_eq_ok_iff.1 h with
  | lineBreak | blank | lineComment | blockComment => cases himage
  | name rule =>
    cases himage
    obtain ⟨-, -, hstart⟩ := fits_of_ruleOf rule
    simpa [Token.Kind.isSpelt, startsName] using hstart
  | number _ _ value =>
    cases himage
    exact isSpelt_of_numberKind value
  | quoted | operator =>
    cases himage
    rfl

theorem isSpelt_of_splitWithin {bound : Nat} {cs : List Char} {s : Segment} {kind : Token.Kind}
    (hs : s ∈ (splitWithin bound cs).1) (himage : s.image = .token kind) :
    kind.isSpelt = true :=
  forall_mem_splitWithin (P := fun s => ∀ kind, s.image = .token kind → kind.isSpelt = true)
    (fun hnext _ => isSpelt_of_next hnext) s hs kind himage

/-- A name or a keyword. -/
def IsName : List Char → Prop
  | c :: r => isNameStart c = true ∧ ∀ d ∈ r, isNamePart d = true
  | [] => False

instance : DecidablePred IsName
  | c :: r => decidable_of_iff ((isNameStart c && r.all isNamePart) = true) (by simp [IsName])
  | [] => isFalse id

theorem isName_of_next {c : Char} {r rest : List Char} {s : Segment} {text : String}
    (h : next c r = .ok (s, rest)) (himage : s.image = .token (.name text)) :
    IsName text.toList := by
  cases next_eq_ok_iff.1 h with
  | lineBreak | blank | lineComment | blockComment | quoted | operator => cases himage
  | name rule =>
    cases himage
    obtain ⟨-, -, hstart⟩ := fits_of_ruleOf rule
    rw [String.toList_ofList]
    exact ⟨hstart, List.all_eq_true.1 List.all_takeWhile⟩
  | number _ _ value =>
    cases himage
    unfold numberKind? at value
    simp only at value
    split at value
    · obtain ⟨x, -, hx⟩ := Option.map_eq_some_iff.1 value
      cases hx
    · obtain ⟨n, -, hn⟩ := Option.map_eq_some_iff.1 value
      cases hn

end Segment

namespace Token

/-- A token is a line break or comes from a segment. -/
theorem kind_of_mem_place {line : Nat} {folding : Bool} {ss : List Segment} {t : Token}
    (h : t ∈ (place line folding ss).1) :
    t.kind = .newline ∨ ∃ s ∈ ss, s.image = .token t.kind := by
  induction ss generalizing line folding with
  | nil => simp [place] at h
  | cons s ss ih =>
    have hlater : ∀ {line folding}, t ∈ (place line folding ss).1 →
        t.kind = .newline ∨ ∃ s' ∈ s :: ss, s'.image = .token t.kind := by
      intro line folding h
      refine (ih h).imp_right ?_
      rintro ⟨s', hs', himage⟩
      exact ⟨s', List.mem_cons_of_mem s hs', himage⟩
    unfold place at h
    simp only at h
    split at h
    next => exact hlater h
    next =>
      split at h
      next => exact hlater h
      next =>
        rcases List.mem_cons.1 h with rfl | h
        · exact .inl rfl
        · exact hlater h
    next kind himage =>
      rcases List.mem_cons.1 h with rfl | h
      · exact .inr ⟨s, List.mem_cons_self, himage⟩
      · exact hlater h

end Token

/-- A token of a text is a line break, or a segment is read as it. -/
theorem isSpelt_of_split {cs : List Char} {line : Nat} {folding : Bool} {t : Token}
    (h : t ∈ (Token.place line folding (Segment.split cs).1).1) :
    t.kind = .newline ∨ t.kind.isSpelt = true := by
  refine (Token.kind_of_mem_place h).imp_right ?_
  rintro ⟨s, hs, himage⟩
  exact Segment.isSpelt_of_splitWithin hs himage

/-- A name among the tokens of a text is read from one of its segments. -/
theorem segment_of_tokenize {source : String} {tokens : List Token}
    (h : tokenize source = .ok tokens) {t : Token} (ht : t ∈ tokens) {text : String}
    (hkind : t.kind = .name text) :
    ∃ s ∈ (Segment.split source.toList).1, s.image = .token (.name text) := by
  rw [tokenize_eq_place] at h
  simp only at h
  split at h
  next => cases h
  next =>
    cases h
    rcases List.mem_append.1 ht with ht | ht
    · rcases Token.kind_of_mem_place ht with hbreak | hsegment
      · cases hbreak.symm.trans hkind
      · rwa [hkind] at hsegment
    · obtain rfl := List.mem_singleton.1 ht
      cases hkind

/-- **A name among the tokens of a text starts as names do.** -/
theorem startsName_of_tokenize {source : String} {tokens : List Token}
    (h : tokenize source = .ok tokens) {t : Token} (ht : t ∈ tokens) {text : String}
    (hkind : t.kind = .name text) : startsName text = true := by
  obtain ⟨s, hs, himage⟩ := segment_of_tokenize h ht hkind
  exact Segment.isSpelt_of_splitWithin hs himage

/-- **A name among the tokens of a text has the form of a name.** -/
theorem isName_of_tokenize {source : String} {tokens : List Token}
    (h : tokenize source = .ok tokens) {t : Token} (ht : t ∈ tokens) {text : String}
    (hkind : t.kind = .name text) : Segment.IsName text.toList := by
  obtain ⟨s, hs, himage⟩ := segment_of_tokenize h ht hkind
  exact Segment.forall_mem_splitWithin
    (P := fun s => ∀ text, s.image = .token (.name text) → Segment.IsName text.toList)
    (fun hnext _ => Segment.isName_of_next hnext) s hs text himage

end PairScript
