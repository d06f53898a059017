import PairScript.Proofs.Parse.Sound

/-!
# Phrases before a seam

Let the tokens of a text be replaced, from some point before their end on, by a line break and the
tokens of another text (`Joined`).  A phrase that was read before that point is read there still,
and this module shows that it stays the same phrase, whatever stands at the seam:

* a phrase that needs a token after it, as a block needs its brace, is closed before the seam;
* a run of a statement ends at the line break, where it ended at the end of the text before;
* a statement takes in the line break that ended it, or the one that is new, and stops where the
  other text starts (`Statement.kept`);
* the search for an `else` goes past the line breaks and into the other text, so that one must not
  start with `else`.

With it a list of statements goes on with those of the other text (`Statements.kept`).
-/

namespace PairScript.Grammar

open PairScript.Parser (FunctionParts)

variable {α : Type} {u ts ts' mid rest : List Token} {t : Token} {p : Token → Bool}

/-! ### The seam -/

/-- Nothing but line breaks is left, and the end of the text. -/
inductive Spent : List Token → Prop
  | finish {t : Token} (kind : t.kind = .finish) : Spent [t]
  | lineBreak {t : Token} {ts : List Token} (kind : t.kind = .newline) (others : Spent ts) :
      Spent (t :: ts)

/-- The second list is the first one with a line break and the tokens `u` in place of its end. -/
inductive Joined (u : List Token) : (ts ts' : List Token) → Prop
  | seam {t : Token} {ts : List Token} (spent : Spent ts) (kind : t.kind = .newline) :
      Joined u ts (t :: u)
  | cons {t : Token} {ts ts' : List Token} (within : t.kind ≠ .finish) (others : Joined u ts ts') :
      Joined u (t :: ts) (t :: ts')

/-- Whether a token stands for something, and not for the end of a line or of the text. -/
def Solid (t : Token) : Prop := t.kind ≠ .newline ∧ t.kind ≠ .finish

theorem solid_of_kind {kind : Token.Kind} (h : t.kind = kind) (hnewline : kind ≠ .newline)
    (hfinish : kind ≠ .finish) : Solid t := by
  unfold Solid
  rw [h]
  exact ⟨hnewline, hfinish⟩

theorem solid_symbol {s : String} (h : t.kind = .symbol s) : Solid t := solid_of_kind h nofun nofun

theorem solid_name {w : String} (h : t.kind = .name w) : Solid t := solid_of_kind h nofun nofun

theorem Spent.not_solid (h : Spent (t :: ts)) : ¬ Solid t := by
  rintro ⟨hnewline, hfinish⟩
  cases h with
  | finish kind => exact hfinish kind
  | lineBreak kind _ => exact hnewline kind

theorem Spent.tail (h : Spent (t :: ts)) (ht : t.kind ≠ .finish) : Spent ts := by
  cases h with
  | finish kind => exact absurd kind ht
  | lineBreak _ others => exact others

/-- A solid token stands before the seam. -/
theorem Joined.uncons (h : Joined u (t :: ts) ts') (ht : Solid t) :
    ∃ rest', ts' = t :: rest' ∧ Joined u ts rest' := by
  cases h with
  | seam spent _ => exact absurd ht spent.not_solid
  | cons _ others => exact ⟨_, rfl, others⟩

/-- Both lists start with a token that stands before the seam. -/
def Before (u : List Token) (ts ts' : List Token) : Prop :=
  ∃ t mid mid', ts = t :: mid ∧ ts' = t :: mid' ∧ t.kind ≠ .finish ∧ Joined u mid mid'

theorem Before.joined (h : Before u ts ts') : Joined u ts ts' := by
  obtain ⟨t, mid, mid', rfl, rfl, ht, hj⟩ := h
  exact .cons ht hj

/-! ### Looking past line breaks -/

section

variable (hnewline : ∀ t : Token, t.kind = .newline → p t = true)
  (hfinish : ∀ t : Token, t.kind = .finish → p t = false)
include hnewline hfinish

theorem Spent.dropWhile (h : Spent ts) : ∃ fin, ts.dropWhile p = [fin] ∧ fin.kind = .finish := by
  induction h with
  | @finish t kind => exact ⟨t, List.dropWhile_cons_of_neg (by simp [hfinish t kind]), kind⟩
  | @lineBreak t ts kind _ ih => rwa [List.dropWhile_cons_of_pos (hnewline t kind)]

/-- What is skipped in the two lists ends before the seam, or goes past it. -/
theorem Joined.dropWhile (h : Joined u ts ts') :
    Before u (ts.dropWhile p) (ts'.dropWhile p) ∨
      Spent (ts.dropWhile p) ∧ ts'.dropWhile p = u.dropWhile p := by
  induction h with
  | @seam t ts spent kind =>
    obtain ⟨fin, hfin, hkind⟩ := spent.dropWhile hnewline hfinish
    rw [hfin, List.dropWhile_cons_of_pos (hnewline t kind)]
    exact .inr ⟨.finish hkind, rfl⟩
  | @cons t ts ts' within others ih =>
    by_cases hp : p t = true
    · rwa [List.dropWhile_cons_of_pos hp, List.dropWhile_cons_of_pos hp]
    · rw [List.dropWhile_cons_of_neg hp, List.dropWhile_cons_of_neg hp]
      exact .inl ⟨t, ts, ts', rfl, rfl, within, others⟩

end

theorem isNewline_of_finish (t : Token) (h : t.kind = .finish) : t.isNewline = false := by
  simp [Token.isNewline, h]

theorem isSymbol_of_newline (s : String) (t : Token) (h : t.kind = .newline) :
    t.isSymbol s = false := by
  simp [Token.isSymbol, h]

theorem isName_of_newline (w : String) (t : Token) (h : t.kind = .newline) :
    t.isName w = false := by
  simp [Token.isName, h]

theorem isSeparator_of_newline (t : Token) (h : t.kind = .newline) :
    Parser.isSeparator t = true := by
  simp [Parser.isSeparator, Token.isNewline, h]

theorem isSeparator_of_finish (t : Token) (h : t.kind = .finish) :
    Parser.isSeparator t = false := by
  simp [Parser.isSeparator, Token.isNewline, Token.isSymbol, h]

theorem separator_ne_finish (h : Parser.isSeparator t = true) : t.kind ≠ .finish := by
  intro hkind
  rw [isSeparator_of_finish t hkind] at h
  cases h

theorem Spent.pastBreaks (h : Spent ts) : ∃ fin, pastBreaks ts = [fin] ∧ fin.kind = .finish :=
  h.dropWhile (fun _ => Token.isNewline_iff.2) isNewline_of_finish

theorem Spent.pastSeparators (h : Spent ts) :
    ∃ fin, pastSeparators ts = [fin] ∧ fin.kind = .finish :=
  h.dropWhile isSeparator_of_newline isSeparator_of_finish

theorem Joined.pastBreaks (h : Joined u ts ts') :
    Before u (pastBreaks ts) (pastBreaks ts') ∨
      Spent (pastBreaks ts) ∧ pastBreaks ts' = pastBreaks u :=
  h.dropWhile (fun _ => Token.isNewline_iff.2) isNewline_of_finish

theorem Joined.pastSeparators (h : Joined u ts ts') :
    Before u (pastSeparators ts) (pastSeparators ts') ∨
      Spent (pastSeparators ts) ∧ pastSeparators ts' = pastSeparators u :=
  h.dropWhile isSeparator_of_newline isSeparator_of_finish

/-- If what is skipped ends at a solid token, then that token stands before the seam. -/
theorem uncons_of_before {mid' : List Token}
    (h : Before u (t :: mid) mid' ∨ Spent (t :: mid) ∧ mid' = rest) (ht : Solid t) :
    ∃ rest', mid' = t :: rest' ∧ Joined u mid rest' := by
  rcases h with hbefore | ⟨hspent, -⟩
  · exact hbefore.joined.uncons ht
  · exact absurd ht hspent.not_solid

theorem Joined.pastBreaks_uncons (h : Joined u ts ts') (hts : Grammar.pastBreaks ts = t :: mid)
    (ht : Solid t) : ∃ mid', Grammar.pastBreaks ts' = t :: mid' ∧ Joined u mid mid' :=
  uncons_of_before (hts ▸ h.pastBreaks) ht

theorem Joined.pastSeparators_uncons (h : Joined u ts ts')
    (hts : Grammar.pastSeparators ts = t :: mid) (ht : Solid t) :
    ∃ mid', Grammar.pastSeparators ts' = t :: mid' ∧ Joined u mid mid' :=
  uncons_of_before (hts ▸ h.pastSeparators) ht

/-- A look ahead that a line break cannot satisfy has the same answer. -/
theorem NotNext.kept (h : NotNext p ts) (hj : Joined u ts ts')
    (hp : ∀ t : Token, t.kind = .newline → p t = false) : NotNext p ts' := by
  rintro t ht
  cases hj with
  | seam _ kind =>
    cases ht
    exact hp _ kind
  | cons _ _ =>
    cases ht
    exact h _ rfl

theorem solid_of_continues (hseparator : Parser.isSeparator t = false)
    (hcontinues : Parser.endsList t = false) : Solid t := by
  constructor
  · intro hkind
    rw [isSeparator_of_newline t hkind] at hseparator
    cases hseparator
  · intro hkind
    simp [Parser.endsList, Token.isFinish, hkind] at hcontinues

/-! ### Phrases and the seam -/

/-- Some tokens before the seam satisfy `P` in place of `rest`. -/
def Kept (u : List Token) (P : List Token → Prop) (rest : List Token) : Prop :=
  ∃ rest', Joined u rest rest' ∧ P rest'

/-- What becomes of a goal whose tokens are joined to others.  Between brackets a run takes in the
line breaks after it, so it may reach the end of the text; a statement may take in the last line
break. -/
def KeptFor (u : List Token) : Goal → (P : List Token → Prop) → (rest : List Token) → Prop
  | .run .statement, P, rest => Kept u P rest
  | .run _, P, rest => Spent rest ∨ Kept u P rest
  | .statement, P, rest => Kept u P rest ∨ Spent rest ∧ P u
  | .conditional _, P, rest => Kept u P rest

theorem KeptFor.imp {P Q : List Token → Prop} {goal : Goal} (h : KeptFor u goal P rest)
    (hPQ : ∀ ts, P ts → Q ts) : KeptFor u goal Q rest := by
  have hkept : Kept u P rest → Kept u Q rest := fun ⟨rest', hrest, hP⟩ => ⟨rest', hrest, hPQ _ hP⟩
  cases goal with
  | run mode =>
    cases mode with
    | statement => exact hkept h
    | nested | element => exact Or.imp_right hkept h
  | statement => exact Or.imp hkept (fun ⟨hspent, hP⟩ => ⟨hspent, hPQ _ hP⟩) h
  | conditional line => exact hkept h

theorem Kept.uncons {P : List Token → Prop} (h : Kept u P (t :: rest)) (ht : Solid t) :
    ∃ rest', Joined u rest rest' ∧ P (t :: rest') := by
  obtain ⟨_, hj, hP⟩ := h
  obtain ⟨rest', rfl, hrest⟩ := hj.uncons ht
  exact ⟨rest', hrest, hP⟩

/-! ### Names and lists -/

theorem Identifier.kept {name : String} (h : Identifier ts name rest) (hj : Joined u ts ts') :
    Kept u (Identifier ts' name) rest := by
  obtain ⟨t, rfl, hkind, hfree⟩ := h
  obtain ⟨rest', rfl, hrest⟩ := hj.uncons (solid_name hkind)
  exact ⟨rest', hrest, t, rfl, hkind, hfree⟩

theorem Identifier.not_spent {name : String} (h : Identifier ts name rest) : ¬ Spent ts := by
  obtain ⟨t, rfl, hkind, -⟩ := h
  exact fun hspent => hspent.not_solid (solid_name hkind)

section

variable {Item : Phrase α} {closing : String} {as : List α}
  (hitem : ∀ ts ts' a rest, Item ts a rest → Joined u ts ts' →
    Spent rest ∨ Kept u (Item ts' a) rest)
  (hspent : ∀ ts a rest, Item ts a rest → ¬ Spent ts)
include hitem

/-- If a solid token follows an item, then it stands before the seam. -/
theorem item_kept {a : α} (h : Item ts a mid) (hj : Joined u ts ts')
    (hmid : pastBreaks mid = t :: rest) (ht : Solid t) :
    ∃ mid' rest', Item ts' a mid' ∧ pastBreaks mid' = t :: rest' ∧ Joined u rest rest' := by
  rcases hitem _ _ _ _ h hj with hspent | ⟨mid', hmid', hitem'⟩
  · obtain ⟨fin, hfin, hkind⟩ := hspent.pastBreaks
    cases hmid.symm.trans hfin
    exact absurd hkind ht.2
  · obtain ⟨rest', hrest', hj'⟩ := hmid'.pastBreaks_uncons hmid ht
    exact ⟨mid', rest', hitem', hrest', hj'⟩

include hspent

omit hitem in
/-- Items that line breaks may stand before start before the seam. -/
theorem Commas.joined (h : Commas Item closing (pastBreaks ts) as rest) (hj : Joined u ts ts') :
    Joined u (pastBreaks ts) (pastBreaks ts') := by
  rcases hj.pastBreaks with hbefore | ⟨hempty, -⟩
  · exact hbefore.joined
  · cases h with
    | last item _ _ => exact absurd hempty (hspent _ _ _ item)
    | more item _ _ _ => exact absurd hempty (hspent _ _ _ item)

theorem Commas.kept (h : Commas Item closing ts as rest) (hj : Joined u ts ts') :
    Kept u (Commas Item closing ts' as) rest := by
  induction h generalizing ts' with
  | last item after closes =>
    obtain ⟨mid', rest', hitem', hafter, hrest⟩ :=
      item_kept hitem item hj after (solid_symbol closes)
    exact ⟨rest', hrest, .last hitem' hafter closes⟩
  | more item after separates others ih =>
    obtain ⟨mid', rest', hitem', hafter, hrest⟩ :=
      item_kept hitem item hj after (solid_symbol separates)
    obtain ⟨rest'', hrest', hothers⟩ := ih (others.joined hspent hrest)
    exact ⟨rest'', hrest', .more hitem' hafter separates hothers⟩

theorem CommaList.kept (h : CommaList Item closing ts as rest) (hj : Joined u ts ts') :
    Kept u (CommaList Item closing ts' as) rest := by
  cases h with
  | empty after closes =>
    obtain ⟨rest', hafter, hrest⟩ := hj.pastBreaks_uncons after (solid_symbol closes)
    exact ⟨rest', hrest, .empty hafter closes⟩
  | items opens list =>
    have hbreaks := list.joined hspent hj
    obtain ⟨rest', hrest, hlist⟩ := list.kept hitem hspent hbreaks
    exact ⟨rest', hrest, .items (opens.kept hbreaks (isSymbol_of_newline _)) hlist⟩

end

/-! ### Blocks and functions -/

/-- What the phrases of a level need from the level below. -/
structure Keeps (u : List Token) (R : Goal → Phrase Node) : Prop where
  kept : ∀ goal ts ts' node rest, R goal ts node rest → Joined u ts ts' →
    KeptFor u goal (R goal ts' node) rest
  not_spent : ∀ mode ts node rest, R (.run mode) ts node rest → ¬ Spent ts

section

variable {R : Goal → Phrase Node} {node : Node} {nodes : List Node} {line : Nat}

/-- Only what stands after the separators counts. -/
theorem Statements.of_pastSeparators (h : Statements R ts nodes rest)
    (hts : pastSeparators ts' = pastSeparators ts) : Statements R ts' nodes rest := by
  cases h with
  | done ends =>
    rw [← hts] at ends ⊢
    exact .done ends
  | more first continues statement others => exact .more (hts.trans first) continues statement others

theorem Statements.of_spent (h : Statements R ts nodes rest) (hts : Spent ts) :
    nodes = [] ∧ Spent rest := by
  obtain ⟨fin, hfin, hkind⟩ := hts.pastSeparators
  cases h with
  | done _ =>
    rw [hfin]
    exact ⟨rfl, .finish hkind⟩
  | more first continues _ _ =>
    cases first.symm.trans hfin
    simp [Parser.endsList, Token.isFinish, hkind] at continues

variable (hR : Keeps u R)
include hR

theorem Keeps.run (h : R (.run .statement) ts node rest) (hj : Joined u ts ts') :
    Kept u (R (.run .statement) ts' node) rest :=
  hR.kept _ _ _ _ _ h hj

/-- A run between brackets that a solid token follows stands before the seam. -/
theorem Keeps.inner {mode : Mode} (h : R (.run mode) ts node (t :: rest)) (hj : Joined u ts ts')
    (ht : Solid t) : ∃ rest', Joined u rest rest' ∧ R (.run mode) ts' node (t :: rest') := by
  have hkept := hR.kept _ _ _ _ _ h hj
  cases mode with
  | statement => exact Kept.uncons hkept ht
  | nested | element =>
    rcases hkept with hspent | hkept
    · exact absurd ht hspent.not_solid
    · exact hkept.uncons ht

theorem Keeps.element (ts ts' : List Token) (node : Node) (rest : List Token)
    (h : R (.run .element) ts node rest) (hj : Joined u ts ts') :
    Spent rest ∨ Kept u (R (.run .element) ts' node) rest :=
  hR.kept _ _ _ _ _ h hj

/-- **A list of statements at the seam** ends before it, or it ends with the text, and then it
goes on with the statements of the other text. -/
theorem Statements.kept (h : Statements R ts nodes rest) (hj : Joined u ts ts') :
    (∃ rest', Before u rest rest' ∧ Statements R ts' nodes rest') ∨
      (Spent rest ∧ ∀ nodes₂ rest₂, Statements R u nodes₂ rest₂ →
        Statements R ts' (nodes ++ nodes₂) rest₂) := by
  induction h generalizing ts' with
  | @done ts ends =>
    rcases hj.pastSeparators with hbefore | ⟨hspent, hpast⟩
    · refine .inl ⟨_, hbefore, .done ?_⟩
      obtain ⟨t, mid, mid', hmid, hmid', -, -⟩ := hbefore
      rw [hmid] at ends
      rw [hmid']
      exact fun t ht => ends t ht
    · exact .inr ⟨hspent, fun nodes₂ rest₂ h₂ => h₂.of_pastSeparators hpast⟩
  | @more ts mid rest t ts₀ node nodes first continues statement others ih =>
    have hseparator : Parser.isSeparator t = false := by
      simpa [first] using List.head?_dropWhile_not Parser.isSeparator ts
    have ht := solid_of_continues hseparator continues
    obtain ⟨ts₁, hts₁, hj₁⟩ := hj.pastSeparators_uncons first ht
    rcases hR.kept _ _ _ _ _ statement (.cons ht.2 hj₁) with ⟨mid', hmid', hnode⟩ | ⟨hspent, hnode⟩
    · rcases ih hmid' with ⟨rest', hbefore, hothers⟩ | ⟨hspent, hothers⟩
      · exact .inl ⟨rest', hbefore, .more hts₁ continues hnode hothers⟩
      · refine .inr ⟨hspent, fun nodes₂ rest₂ h₂ => ?_⟩
        exact .more hts₁ continues hnode (hothers nodes₂ rest₂ h₂)
    · obtain ⟨rfl, hrest⟩ := others.of_spent hspent
      exact .inr ⟨hrest, fun nodes₂ rest₂ h₂ => .more hts₁ continues hnode h₂⟩

theorem Block.kept {body : List Node} (h : Block R ts body rest) (hj : Joined u ts ts') :
    Kept u (Block R ts' body) rest := by
  obtain ⟨opening, closing, mid, hts, hopening, hbody, hclosing⟩ := h
  obtain ⟨mid', hmid', hj'⟩ := hj.pastBreaks_uncons hts (solid_symbol hopening)
  rcases hbody.kept hR hj' with ⟨_, hbefore, hbody'⟩ | ⟨hspent, -⟩
  · obtain ⟨rest', rfl, hrest⟩ := hbefore.joined.uncons (solid_symbol hclosing)
    exact ⟨rest', hrest, opening, closing, mid', hmid', hopening, hbody', hclosing⟩
  · exact absurd (solid_symbol hclosing) hspent.not_solid

theorem Signature.kept {f : List String × List Node} (h : Signature R ts f rest)
    (hj : Joined u ts ts') : Kept u (Signature R ts' f) rest := by
  obtain ⟨opening, mid, mid', rfl, hopening, hparams, hbody⟩ := h
  obtain ⟨mid₁, rfl, hj₁⟩ := hj.uncons (solid_symbol hopening)
  obtain ⟨mid₂, hj₂, hparams'⟩ := hparams.kept (fun _ _ _ _ h hj => .inr (h.kept hj))
    (fun _ _ _ h => h.not_spent) hj₁
  obtain ⟨rest', hrest, hbody'⟩ := hbody.kept hR hj₂
  exact ⟨rest', hrest, opening, mid₁, mid₂, rfl, hopening, hparams', hbody'⟩

theorem Function.kept {f : FunctionParts} (h : Function R ts f rest) (hj : Joined u ts ts') :
    Kept u (Function R ts' f) rest := by
  cases h with
  | anonymous signature =>
    obtain ⟨rest', hrest, hsignature⟩ := signature.kept hR hj
    exact ⟨rest', hrest, .anonymous hsignature⟩
  | named identifier signature =>
    obtain ⟨mid', hmid', hidentifier⟩ := identifier.kept hj
    obtain ⟨rest', hrest, hsignature⟩ := signature.kept hR hmid'
    exact ⟨rest', hrest, .named hidentifier hsignature⟩

/-! ### Expressions -/

omit hR in
theorem Operand.not_spent (h : Operand R ts node rest) : ¬ Spent ts := by
  intro hts
  cases h with
  | int kind | float kind | str kind | function kind _ | call kind _ _ _ | reference kind _ _
  | group kind _ _ _ | empty kind _ | list kind _ _ =>
    exact hts.not_solid (solid_of_kind kind nofun nofun)

theorem Operand.kept (h : Operand R ts node rest) (hj : Joined u ts ts') :
    Kept u (Operand R ts' node) rest := by
  cases h with
  | int kind =>
    obtain ⟨rest', rfl, hrest⟩ := hj.uncons (solid_of_kind kind nofun nofun)
    exact ⟨rest', hrest, .int kind⟩
  | float kind =>
    obtain ⟨rest', rfl, hrest⟩ := hj.uncons (solid_of_kind kind nofun nofun)
    exact ⟨rest', hrest, .float kind⟩
  | str kind =>
    obtain ⟨rest', rfl, hrest⟩ := hj.uncons (solid_of_kind kind nofun nofun)
    exact ⟨rest', hrest, .str kind⟩
  | function kind parts =>
    obtain ⟨mid, rfl, hmid⟩ := hj.uncons (solid_name kind)
    obtain ⟨rest', hrest, hparts⟩ := parts.kept hR hmid
    exact ⟨rest', hrest, .function kind hparts⟩
  | call kind free opens list =>
    obtain ⟨_, rfl, hmid⟩ := hj.uncons (solid_name kind)
    obtain ⟨mid', rfl, hmid'⟩ := hmid.uncons (solid_symbol opens)
    obtain ⟨rest', hrest, hlist⟩ := list.kept hR.element (hR.not_spent _) hmid'
    exact ⟨rest', hrest, .call kind free opens hlist⟩
  | reference kind free plain =>
    obtain ⟨rest', rfl, hrest⟩ := hj.uncons (solid_name kind)
    exact ⟨rest', hrest, .reference kind free (plain.kept hrest (isSymbol_of_newline _))⟩
  | group kind run after closes =>
    obtain ⟨mid, rfl, hmid⟩ := hj.uncons (solid_symbol kind)
    have hitem : ∀ ts ts' node rest, R (.run .nested) ts node rest → Joined u ts ts' →
        Spent rest ∨ Kept u (R (.run .nested) ts' node) rest := hR.kept _
    obtain ⟨mid', rest', hrun, hafter, hrest⟩ :=
      item_kept hitem run hmid after (solid_symbol closes)
    exact ⟨rest', hrest, .group kind hrun hafter closes⟩
  | empty kind list =>
    obtain ⟨mid, rfl, hmid⟩ := hj.uncons (solid_symbol kind)
    obtain ⟨rest', hrest, hlist⟩ := list.kept hR.element (hR.not_spent _) hmid
    exact ⟨rest', hrest, .empty kind hlist⟩
  | list kind list some =>
    obtain ⟨mid, rfl, hmid⟩ := hj.uncons (solid_symbol kind)
    obtain ⟨rest', hrest, hlist⟩ := list.kept hR.element (hR.not_spent _) hmid
    exact ⟨rest', hrest, .list kind hlist some⟩

omit hR in
/-- Where no solid token is left no item is read. -/
theorem Items.of_spent {mode : Mode} {due started : Bool} {items : List Item}
    (h : Items R mode due started ts items rest) (hts : Spent ts) : due = false ∧ Spent rest := by
  induction h with
  | done _ => exact ⟨rfl, hts⟩
  | lineBreak kind _ _ ih | ignored kind _ _ ih => exact ih (hts.tail (by simp [kind]))
  | plus kind _ _ | before kind _ _ _ _ | after kind _ _ _ | index kind _ _ _ _
  | between kind _ _ _ => exact absurd (solid_symbol kind) hts.not_solid
  | operand operand _ _ => exact absurd hts operand.not_spent

/-- The items of a run are collected as before.  Between brackets they may take in the line
breaks at the end of the text. -/
theorem Items.kept {mode : Mode} {due started : Bool} {items : List Item}
    (h : Items R mode due started ts items rest) (hj : Joined u ts ts') :
    (mode ≠ .statement ∧ Spent rest) ∨ Kept u (Items R mode due started ts' items) rest := by
  induction h generalizing ts' with
  | done stops =>
    cases hj with
    | @seam t _ spent kind =>
      by_cases hmode : mode = .statement
      · refine .inr ⟨_, .seam spent kind, .done ?_⟩
        rintro _ ⟨⟩
        simp [Parser.continuation, kind, hmode]
      · exact .inl ⟨hmode, spent⟩
    | cons within others => exact .inr ⟨_, .cons within others, .done stops⟩
  | lineBreak kind skips others ih =>
    cases hj with
    | seam spent _ => cases (others.of_spent (spent.tail (by simp [kind]))).1
    | cons _ hj =>
      rcases ih hj with hspent | ⟨rest', hrest, hothers⟩
      · exact .inl hspent
      · exact .inr ⟨rest', hrest, .lineBreak kind skips hothers⟩
  | plus kind _ ih =>
    obtain ⟨mid, rfl, hmid⟩ := hj.uncons (solid_symbol kind)
    rcases ih hmid with hspent | ⟨rest', hrest, hothers⟩
    · exact .inl hspent
    · exact .inr ⟨rest', hrest, .plus kind hothers⟩
  | before kind operator meaning _ ih =>
    obtain ⟨mid, rfl, hmid⟩ := hj.uncons (solid_symbol kind)
    rcases ih hmid with hspent | ⟨rest', hrest, hothers⟩
    · exact .inl hspent
    · exact .inr ⟨rest', hrest, .before kind operator meaning hothers⟩
  | operand operand _ ih =>
    obtain ⟨mid, hmid, hoperand⟩ := operand.kept hR hj
    rcases ih hmid with hspent | ⟨rest', hrest, hothers⟩
    · exact .inl hspent
    · exact .inr ⟨rest', hrest, .operand hoperand hothers⟩
  | ignored kind skips others ih =>
    cases hj with
    | seam spent _ => exact .inl ⟨skips, (others.of_spent (spent.tail (by simp [kind]))).2⟩
    | cons _ hj =>
      rcases ih hj with hspent | ⟨rest', hrest, hothers⟩
      · exact .inl hspent
      · exact .inr ⟨rest', hrest, .ignored kind skips hothers⟩
  | after kind operator _ ih =>
    obtain ⟨mid, rfl, hmid⟩ := hj.uncons (solid_symbol kind)
    rcases ih hmid with hspent | ⟨rest', hrest, hothers⟩
    · exact .inl hspent
    · exact .inr ⟨rest', hrest, .after kind operator hothers⟩
  | index kind run closes _ ih =>
    obtain ⟨mid, rfl, hmid⟩ := hj.uncons (solid_symbol kind)
    obtain ⟨mid', hmid', hrun⟩ := hR.inner run hmid (solid_symbol closes)
    rcases ih hmid' with hspent | ⟨rest', hrest, hothers⟩
    · exact .inl hspent
    · exact .inr ⟨rest', hrest, .index kind hrun closes hothers⟩
  | between kind operator _ ih =>
    obtain ⟨mid, rfl, hmid⟩ := hj.uncons (solid_symbol kind)
    rcases ih hmid with hspent | ⟨rest', hrest, hothers⟩
    · exact .inl hspent
    · exact .inr ⟨rest', hrest, .between kind operator hothers⟩

theorem Run.kept {mode : Mode} (h : Run R mode ts node rest) (hj : Joined u ts ts') :
    KeptFor u (.run mode) (Run R mode ts' node) rest := by
  obtain ⟨items, line, hitems, htree⟩ := h
  have hkept : (mode ≠ .statement ∧ Spent rest) ∨ Kept u (Run R mode ts' node) rest := by
    rcases hitems.kept hR hj with hspent | ⟨rest', hrest, hitems'⟩
    · exact .inl hspent
    · exact .inr ⟨rest', hrest, items, line, hitems', htree⟩
  cases mode with
  | statement => exact hkept.resolve_left fun h => h.1 rfl
  | nested | element => exact hkept.imp_left And.right

omit hR in
theorem Run.not_spent {mode : Mode} (h : Run R mode ts node rest) : ¬ Spent ts := by
  obtain ⟨items, line, hitems, -⟩ := h
  exact fun hts => nomatch (hitems.of_spent hts).1

/-! ### Definitions and branches -/

theorem Variable.kept (h : Variable R line ts node rest) (hj : Joined u ts ts') :
    Kept u (Variable R line ts' node) rest := by
  cases h with
  | plain identifier bare =>
    obtain ⟨rest', hrest, hidentifier⟩ := identifier.kept hj
    exact ⟨rest', hrest, .plain hidentifier (bare.kept hrest (isSymbol_of_newline _))⟩
  | valued identifier kind run =>
    obtain ⟨mid, hmid, hidentifier⟩ := (identifier.kept hj).uncons (solid_symbol kind)
    obtain ⟨rest', hrest, hrun⟩ := hR.run run hmid
    exact ⟨rest', hrest, .valued hidentifier kind hrun⟩

theorem NamedFunction.kept (h : NamedFunction R line ts node rest) (hj : Joined u ts ts') :
    Kept u (NamedFunction R line ts' node) rest := by
  obtain ⟨name, params, body, hparts, hnode⟩ := h
  obtain ⟨rest', hrest, hparts'⟩ := hparts.kept hR hj
  exact ⟨rest', hrest, name, params, body, hparts', hnode⟩

/-- An `else` is looked for in the other text too. -/
theorem Otherwise.kept (hu : NotNext (·.isName "else") (pastBreaks u))
    {other : Option (List Node)} (h : Otherwise R ts other rest) (hj : Joined u ts ts') :
    Kept u (Otherwise R ts' other) rest := by
  cases h with
  | absent bare =>
    refine ⟨ts', hj, .absent ?_⟩
    rcases hj.pastBreaks with hbefore | ⟨-, hpast⟩
    · exact bare.kept hbefore.joined (isName_of_newline _)
    · rwa [hpast]
  | chain after kind again conditional =>
    obtain ⟨_, hafter, hj₁⟩ := hj.pastBreaks_uncons after (solid_name kind)
    obtain ⟨mid, rfl, hj₂⟩ := hj₁.uncons (solid_name again)
    obtain ⟨rest', hrest, hconditional⟩ := hR.kept _ _ _ _ _ conditional hj₂
    exact ⟨rest', hrest, .chain hafter kind again hconditional⟩
  | block after kind block =>
    obtain ⟨mid, hafter, hj₁⟩ := hj.pastBreaks_uncons after (solid_name kind)
    obtain ⟨rest', hrest, hblock⟩ := block.kept hR hj₁
    exact ⟨rest', hrest, .block hafter kind hblock⟩

theorem Conditional.kept (hu : NotNext (·.isName "else") (pastBreaks u))
    (h : Conditional R line ts node rest) (hj : Joined u ts ts') :
    Kept u (Conditional R line ts' node) rest := by
  obtain ⟨condition, body, other, mid, mid', hcondition, hbody, hother, hnode⟩ := h
  obtain ⟨mid₁, hmid₁, hcondition'⟩ := hR.run hcondition hj
  obtain ⟨mid₂, hmid₂, hbody'⟩ := hbody.kept hR hmid₁
  obtain ⟨rest', hrest, hother'⟩ := hother.kept hR hu hmid₂
  exact ⟨rest', hrest, condition, body, other, mid₁, mid₂, hcondition', hbody', hother', hnode⟩

theorem CaseValues.kept {values : List Node} (h : CaseValues R ts values rest)
    (hj : Joined u ts ts') : Spent rest ∨ Kept u (CaseValues R ts' values) rest := by
  induction h generalizing ts' with
  | last run ends =>
    rcases hR.element _ _ _ _ run hj with hspent | ⟨rest', hrest, hrun⟩
    · exact .inl hspent
    · exact .inr ⟨rest', hrest, .last hrun (ends.kept hrest (isSymbol_of_newline _))⟩
  | more run kind _ ih =>
    obtain ⟨mid, hmid, hrun⟩ := hR.inner run hj (solid_symbol kind)
    rcases ih hmid with hspent | ⟨rest', hrest, hothers⟩
    · exact .inl hspent
    · exact .inr ⟨rest', hrest, .more hrun kind hothers⟩

omit hR in
theorem SwitchArms.not_spent {arms : List (Arm Node) × Option (List Node)}
    (h : SwitchArms R ts arms rest) : ¬ Spent ts := by
  intro hts
  obtain ⟨fin, hfin, hkind⟩ := hts.pastSeparators
  cases h with
  | done after kind | case after kind _ _ _ _ =>
    cases after.symm.trans hfin
    cases hkind.symm.trans kind
  | fallback after _ _ _ _ => cases after.symm.trans hfin

/-- The statements of an arm, which more of the switch follows, end before the seam. -/
theorem SwitchArms.body_kept {arms : List (Arm Node) × Option (List Node)}
    (h : Statements R ts nodes mid) (harms : SwitchArms R mid arms rest) (hj : Joined u ts ts') :
    Kept u (Statements R ts' nodes) mid := by
  rcases h.kept hR hj with ⟨mid', hbefore, hbody⟩ | ⟨hspent, -⟩
  · exact ⟨mid', hbefore.joined, hbody⟩
  · exact absurd hspent harms.not_spent

theorem SwitchArms.kept {arms : List (Arm Node) × Option (List Node)}
    (h : SwitchArms R ts arms rest) (hj : Joined u ts ts') :
    Kept u (SwitchArms R ts' arms) rest := by
  induction h generalizing ts' with
  | done after closes =>
    obtain ⟨rest', hafter, hrest⟩ := hj.pastSeparators_uncons after (solid_symbol closes)
    exact ⟨rest', hrest, .done hafter closes⟩
  | case after kind list opens block others ih =>
    obtain ⟨mid₁, hafter, hmid₁⟩ := hj.pastSeparators_uncons after (solid_name kind)
    have hlist := (list.kept hR hmid₁).resolve_left fun h => h.not_solid (solid_symbol opens)
    obtain ⟨mid₂, hmid₂, hlist'⟩ := hlist.uncons (solid_symbol opens)
    obtain ⟨mid₃, hmid₃, hblock⟩ := others.body_kept hR block hmid₂
    obtain ⟨rest', hrest, hothers⟩ := ih hmid₃
    exact ⟨rest', hrest, .case hafter kind hlist' opens hblock hothers⟩
  | fallback after kind opens block others ih =>
    obtain ⟨_, hafter, hmid₁⟩ := hj.pastSeparators_uncons after (solid_name kind)
    obtain ⟨mid₂, rfl, hmid₂⟩ := hmid₁.uncons (solid_symbol opens)
    obtain ⟨mid₃, hmid₃, hblock⟩ := others.body_kept hR block hmid₂
    obtain ⟨rest', hrest, hothers⟩ := ih hmid₃
    exact ⟨rest', hrest, .fallback hafter kind opens hblock hothers⟩

theorem Switch.kept (h : Switch R line ts node rest) (hj : Joined u ts ts') :
    Kept u (Switch R line ts' node) rest := by
  obtain ⟨subject, cases, fallback, opening, mid, mid', hsubject, hmid, hopening, harms, hnode⟩ := h
  obtain ⟨mid₁, hmid₁, hsubject'⟩ := hR.run hsubject hj
  obtain ⟨mid₂, hopens, hmid₂⟩ := hmid₁.pastBreaks_uncons hmid (solid_symbol hopening)
  obtain ⟨rest', hrest, harms'⟩ := harms.kept hR hmid₂
  exact ⟨rest', hrest, subject, cases, fallback, opening, mid₁, mid₂, hsubject', hopens, hopening,
    harms', hnode⟩

/-! ### Loops -/

theorem While.kept (h : While R line ts node rest) (hj : Joined u ts ts') :
    Kept u (While R line ts' node) rest := by
  obtain ⟨condition, body, mid, hcondition, hbody, hnode⟩ := h
  obtain ⟨mid₁, hmid₁, hcondition'⟩ := hR.run hcondition hj
  obtain ⟨rest', hrest, hbody'⟩ := hbody.kept hR hmid₁
  exact ⟨rest', hrest, condition, body, mid₁, hcondition', hbody', hnode⟩

theorem Step.kept {step : Option Node} (h : Step R ts step rest) (hj : Joined u ts ts') :
    Kept u (Step R ts' step) rest := by
  cases h with
  | absent bare =>
    exact ⟨ts', hj, .absent (bare.kept hj (isName_of_newline _))⟩
  | present kind run =>
    obtain ⟨mid, rfl, hmid⟩ := hj.uncons (solid_name kind)
    obtain ⟨rest', hrest, hrun⟩ := hR.run run hmid
    exact ⟨rest', hrest, .present kind hrun⟩

theorem LoopTail.kept {name : String} (h : LoopTail R name line ts node rest)
    (hj : Joined u ts ts') : Kept u (LoopTail R name line ts' node) rest := by
  cases h with
  | range run kind upTo by_ block =>
    obtain ⟨mid₁, hmid₁, hrun⟩ := hR.inner run hj (solid_symbol kind)
    obtain ⟨mid₂, hmid₂, hlimit⟩ := hR.run upTo hmid₁
    obtain ⟨mid₃, hmid₃, hstep⟩ := by_.kept hR hmid₂
    obtain ⟨rest', hrest, hblock⟩ := block.kept hR hmid₃
    exact ⟨rest', hrest, .range hrun kind hlimit hstep hblock⟩
  | each run block =>
    obtain ⟨mid, hmid, hrun⟩ := hR.run run hj
    obtain ⟨rest', hrest, hblock⟩ := block.kept hR hmid
    exact ⟨rest', hrest, .each hrun hblock⟩

theorem For.kept (h : For R line ts node rest) (hj : Joined u ts ts') :
    Kept u (For R line ts' node) rest := by
  obtain ⟨name, word, mid, hname, hword, htail⟩ := h
  obtain ⟨mid₁, hmid₁, hname'⟩ := (hname.kept hj).uncons (solid_name hword)
  obtain ⟨rest', hrest, htail'⟩ := htail.kept hR hmid₁
  exact ⟨rest', hrest, name, word, mid₁, hname', hword, htail'⟩

/-! ### Statements -/

theorem GiveBack.kept (h : GiveBack R line ts node rest) (hj : Joined u ts ts') :
    Kept u (GiveBack R line ts' node) rest := by
  cases h with
  | plain stops =>
    refine ⟨ts', hj, .plain ?_⟩
    cases hj with
    | seam _ kind =>
      rintro _ ⟨⟩
      simp [ends, isSeparator_of_newline _ kind]
    | cons _ _ => exact stops
  | valued continues run =>
    have hsolid := solid_of_continues (Bool.or_eq_false_iff.1 continues).1
      (Bool.or_eq_false_iff.1 continues).2
    obtain ⟨rest', hrest, hrun⟩ := hR.run run hj
    obtain ⟨mid, rfl, -⟩ := hj.uncons hsolid
    exact ⟨rest', hrest, .valued continues hrun⟩

omit hR in
/-- A statement is ended by the line break at the seam, if by nothing before. -/
theorem Close.kept (h : Close ts rest) (hj : Joined u ts ts') :
    Kept u (Close ts') rest ∨ Spent rest ∧ Close ts' u := by
  cases hj with
  | seam spent kind =>
    refine .inr ⟨?_, .separator (isSeparator_of_newline _ kind)⟩
    cases h with
    | separator separates => exact spent.tail (separator_ne_finish separates)
    | list _ _ => exact spent
  | cons within others =>
    cases h with
    | separator separates => exact .inl ⟨_, others, .separator separates⟩
    | list bare stops => exact .inl ⟨_, .cons within others, .list bare stops⟩

omit hR in
theorem BlockClose.kept (h : BlockClose ts rest) (hj : Joined u ts ts') :
    Kept u (BlockClose ts') rest ∨ Spent rest ∧ BlockClose ts' u := by
  cases hj with
  | seam spent kind =>
    refine .inr ⟨?_, .separator (isSeparator_of_newline _ kind)⟩
    cases h with
    | separator separates => exact spent.tail (separator_ne_finish separates)
    | bare _ => exact spent
  | cons within others =>
    cases h with
    | separator separates => exact .inl ⟨_, others, .separator separates⟩
    | bare none => exact .inl ⟨_, .cons within others, .bare none⟩

theorem BlockConstruct.kept (hu : NotNext (·.isName "else") (pastBreaks u)) {word : String}
    (h : BlockConstruct R word line ts node rest) (hj : Joined u ts ts') :
    Kept u (BlockConstruct R word line ts' node) rest := by
  cases h with
  | function named parts =>
    obtain ⟨rest', hrest, hparts⟩ := parts.kept hR hj
    refine ⟨rest', hrest, .function ?_ hparts⟩
    cases hj with
    | seam _ kind => simp [Parser.startsParameters, Token.isSymbol, kind]
    | cons _ _ => exact named
  | conditional parts =>
    obtain ⟨rest', hrest, hparts⟩ := parts.kept hR hu hj
    exact ⟨rest', hrest, .conditional hparts⟩
  | whileLoop parts =>
    obtain ⟨rest', hrest, hparts⟩ := parts.kept hR hj
    exact ⟨rest', hrest, .whileLoop hparts⟩
  | forLoop parts =>
    obtain ⟨rest', hrest, hparts⟩ := parts.kept hR hj
    exact ⟨rest', hrest, .forLoop hparts⟩
  | switch parts =>
    obtain ⟨rest', hrest, hparts⟩ := parts.kept hR hj
    exact ⟨rest', hrest, .switch hparts⟩

theorem PlainConstruct.kept {word : String} (h : PlainConstruct R word line ts node rest)
    (hj : Joined u ts ts') : Kept u (PlainConstruct R word line ts' node) rest := by
  cases h with
  | definition parts =>
    obtain ⟨rest', hrest, hparts⟩ := parts.kept hR hj
    exact ⟨rest', hrest, .definition hparts⟩
  | breakOut => exact ⟨ts', hj, .breakOut⟩
  | continueOn => exact ⟨ts', hj, .continueOn⟩
  | fallThrough => exact ⟨ts', hj, .fallThrough⟩
  | giveBack parts =>
    obtain ⟨rest', hrest, hparts⟩ := parts.kept hR hj
    exact ⟨rest', hrest, .giveBack hparts⟩

omit hR in
theorem startsConstruct_kept {word : String} (h : startsConstruct word ts = false)
    (hj : Joined u ts ts') : startsConstruct word ts' = false := by
  unfold startsConstruct at h ⊢
  split at h
  · cases ts with
    | nil => simp [Parser.startsParameters] at h
    | cons t ts =>
      have hopens : t.isSymbol "(" = true := by simpa [Parser.startsParameters] using h
      obtain ⟨rest', rfl, -⟩ := hj.uncons (solid_symbol (Token.isSymbol_iff.1 hopens))
      exact h
  all_goals exact h

/-- **A statement at the seam** is the same statement, and the other text starts after it. -/
theorem Statement.kept (hu : NotNext (·.isName "else") (pastBreaks u))
    (h : Statement R ts node rest) (hj : Joined u ts ts') :
    KeptFor u .statement (Statement R ts' node) rest := by
  cases h with
  | blocked kind construct close =>
    obtain ⟨mid, rfl, hmid⟩ := hj.uncons (solid_name kind)
    obtain ⟨mid', hmid', hconstruct⟩ := construct.kept hR hu hmid
    rcases close.kept hmid' with ⟨rest', hrest, hclose⟩ | ⟨hspent, hclose⟩
    · exact .inl ⟨rest', hrest, .blocked kind hconstruct hclose⟩
    · exact .inr ⟨hspent, .blocked kind hconstruct hclose⟩
  | plain kind construct close =>
    obtain ⟨mid, rfl, hmid⟩ := hj.uncons (solid_name kind)
    obtain ⟨mid', hmid', hconstruct⟩ := construct.kept hR hmid
    rcases close.kept hmid' with ⟨rest', hrest, hclose⟩ | ⟨hspent, hclose⟩
    · exact .inl ⟨rest', hrest, .plain kind hconstruct hclose⟩
    · exact .inr ⟨hspent, .plain kind hconstruct hclose⟩
  | expression other run close =>
    obtain ⟨mid, hmid, hrun⟩ := hR.run run hj
    cases hj with
    | seam spent _ => exact absurd spent (hR.not_spent _ _ _ _ run)
    | cons _ others =>
      have hother := startsConstruct_kept other others
      rcases close.kept hmid with ⟨rest', hrest, hclose⟩ | ⟨hspent, hclose⟩
      · exact .inl ⟨rest', hrest, .expression hother hrun hclose⟩
      · exact .inr ⟨hspent, .expression hother hrun hclose⟩

end

/-! ### Closing the recursion -/

theorem Level.keeps (hu : NotNext (·.isName "else") (pastBreaks u)) (n : Nat) :
    Keeps u (Level n) := by
  induction n with
  | zero => exact ⟨fun _ _ _ _ _ h => h.elim, fun _ _ _ _ h => h.elim⟩
  | succ n ih =>
    refine ⟨fun goal ts ts' node rest h hj => ?_, fun mode ts node rest h => Run.not_spent h⟩
    cases goal with
    | run mode => exact Run.kept ih h hj
    | statement => exact Statement.kept ih hu h hj
    | conditional line => exact Conditional.kept ih hu h hj

theorem Reads.keeps (hu : NotNext (·.isName "else") (pastBreaks u)) : Keeps u Reads := by
  refine ⟨fun goal ts ts' node rest ⟨n, h⟩ hj => ?_, fun mode ts node rest ⟨n, h⟩ => ?_⟩
  · exact ((Level.keeps hu n).kept goal ts ts' node rest h hj).imp fun _ h => ⟨n, h⟩
  · exact (Level.keeps hu n).not_spent mode ts node rest h

/-- The program of some level is one of the grammar. -/
theorem Program.reads {n : Nat} {nodes : List Node} (h : Program (Level n) ts nodes rest) :
    Program Reads ts nodes rest := by
  obtain ⟨hnodes, hrest⟩ := h
  refine ⟨?_, hrest⟩
  clear hrest
  induction hnodes with
  | done ends => exact .done ends
  | more first continues statement _ ih => exact .more first continues ⟨n, statement⟩ ih

/-! ### Two texts -/

/-- An `else` starts no statement. -/
theorem Reads.not_else {node : Node} (h : Reads .statement (t :: ts) node rest) :
    t.isName "else" = false := by
  rw [← Bool.not_eq_true, Token.isName_iff]
  intro helse
  have hword {word : String} (kind : t.kind = .name word) : "else" = word :=
    Token.Kind.name.inj (helse.symm.trans kind)
  obtain ⟨n, h⟩ := h
  cases n with
  | zero => exact h
  | succ n =>
    cases h with
    | blocked kind construct _ => cases construct <;> exact absurd (hword kind) (by decide)
    | plain kind construct _ => cases construct <;> exact absurd (hword kind) (by decide)
    | expression _ run _ =>
      cases n with
      | zero => exact run
      | succ n =>
        obtain ⟨items, line, hitems, -⟩ := run
        cases hitems with
        | lineBreak kind _ _ | plus kind _ | before kind _ _ _ => cases helse.symm.trans kind
        | operand operand _ =>
          cases operand with
          | int kind | float kind | str kind | group kind _ _ _ | empty kind _ | list kind _ _ =>
            cases helse.symm.trans kind
          | function kind _ => exact absurd (hword kind) (by decide)
          | call kind free _ _ | reference kind free _ =>
            rw [← hword kind] at free
            cases free

theorem pastSeparators_pastBreaks (ts : List Token) :
    pastSeparators (pastBreaks ts) = pastSeparators ts := by
  induction ts with
  | nil => rfl
  | cons t ts ih =>
    by_cases hnewline : t.isNewline = true
    · have hseparator := isSeparator_of_newline t (Token.isNewline_iff.1 hnewline)
      rwa [pastBreaks, List.dropWhile_cons_of_pos hnewline, pastSeparators, pastSeparators,
        List.dropWhile_cons_of_pos hseparator]
    · rw [pastBreaks, List.dropWhile_cons_of_neg hnewline]

/-- Nor does it start a list of them. -/
theorem Statements.not_else {nodes : List Node} (h : Statements Reads ts nodes rest) :
    NotNext (·.isName "else") (pastBreaks ts) := by
  intro t ht
  cases hts : pastBreaks ts with
  | nil => simp [hts] at ht
  | cons t' mid =>
    rw [hts] at ht
    cases ht
    rw [← Bool.not_eq_true, Token.isName_iff]
    intro helse
    have hpast : pastSeparators ts = t :: mid := by
      rw [← pastSeparators_pastBreaks, hts]
      exact List.dropWhile_cons_of_neg
        (by simp [Parser.isSeparator, Token.isNewline, Token.isSymbol, helse])
    cases h with
    | done ends =>
      have hends : Parser.endsList t = true := ends t (by rw [hpast]; rfl)
      simp [Parser.endsList, Token.isFinish, Token.isSymbol, Token.isName, helse] at hends
    | more first _ statement _ =>
      cases hpast.symm.trans first
      exact absurd (Token.isName_iff.2 helse) (by simp [Reads.not_else statement])

/-- **Two programs with a line break between them** are one program. -/
theorem Program.concat {nodes₁ nodes₂ : List Node} {rest₁ rest₂ : List Token}
    (h₁ : Program Reads ts nodes₁ rest₁) (h₂ : Program Reads u nodes₂ rest₂)
    (hj : Joined u ts ts') : Program Reads ts' (nodes₁ ++ nodes₂) rest₂ := by
  obtain ⟨hnodes₁, hrest₁⟩ := h₁
  obtain ⟨hnodes₂, hrest₂⟩ := h₂
  rcases hnodes₁.kept (Reads.keeps hnodes₂.not_else) hj with ⟨rest', hbefore, -⟩ | ⟨-, hconcat⟩
  · obtain ⟨t, mid, mid', rfl, rfl, ht, -⟩ := hbefore
    exact absurd (Token.isFinish_iff.1 (hrest₁ t rfl)) ht
  · exact ⟨hconcat nodes₂ rest₂ hnodes₂, hrest₂⟩

end PairScript.Grammar
