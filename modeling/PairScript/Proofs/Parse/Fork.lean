import PairScript.Proofs.Parse.Takes

/-!
# Phrases before a fork

Two lists of tokens may be the same up to some token, and go on differently after it (`Forked`).  A
phrase that ends before that token is a phrase of both lists, and stands for the same in both:
reading looks one token past a phrase, and past line breaks in search of an `else`, but never past
the token at the fork as long as that one separates no statements.

`Local` says so of one kind of phrase, and `Level.forks` of all of them.
-/

namespace PairScript.Grammar

open PairScript.Parser (FunctionParts)

/-! ### The fork -/

/-- The two lists are the same up to the token `pivot`, after which one goes on with `u` and the
other with `v`. -/
inductive Forked (pivot : Token) (u v : List Token) : (ts ts' : List Token) → Prop
  | pivot : Forked pivot u v (pivot :: u) (pivot :: v)
  | cons (t : Token) {ts ts' : List Token} (others : Forked pivot u v ts ts') :
      Forked pivot u v (t :: ts) (t :: ts')

/-- A phrase that ends before the fork of a list is one of the other list too. -/
def Local {α : Type} (pivot : Token) (u v : List Token) (P : Phrase α) : Prop :=
  ∀ {ts ts' : List Token} {a : α} {rest : List Token}, P ts a rest → Forked pivot u v ts ts' →
    u.length < rest.length → ∃ rest', Forked pivot u v rest rest' ∧ P ts' a rest'

variable {α : Type} {pivot t : Token} {u v ts ts' mid rest : List Token} {p : Token → Bool}

theorem forked_append (front : List Token) :
    Forked pivot u v (front ++ pivot :: u) (front ++ pivot :: v) := by
  induction front with
  | nil => exact .pivot
  | cons t front ih => exact .cons t ih

theorem Forked.eq_append (h : Forked pivot u v ts ts') :
    ∃ front, ts = front ++ pivot :: u ∧ ts' = front ++ pivot :: v := by
  induction h with
  | pivot => exact ⟨[], rfl, rfl⟩
  | cons t _ ih =>
    obtain ⟨front, rfl, rfl⟩ := ih
    exact ⟨t :: front, rfl, rfl⟩

theorem Forked.length (h : Forked pivot u v ts ts') : u.length < ts.length := by
  obtain ⟨front, rfl, -⟩ := h.eq_append
  rw [List.length_append, List.length_cons]
  omega

/-- What the fork of `pivot :: u` goes on with. -/
theorem Forked.at_pivot (h : Forked pivot u v (pivot :: u) ts') : ts' = pivot :: v := by
  cases h with
  | pivot => rfl
  | cons _ others => exact absurd others.length (Nat.lt_irrefl _)

/-- Both lists have a first token, and it is the same. -/
theorem Forked.head (h : Forked pivot u v ts ts') : ts'.head? = ts.head? := by
  cases h <;> rfl

/-- A token that is followed by the fork. -/
theorem Forked.uncons (h : Forked pivot u v (t :: ts) ts') (hts : u.length < ts.length) :
    ∃ rest', ts' = t :: rest' ∧ Forked pivot u v ts rest' := by
  cases h with
  | pivot => exact absurd hts (Nat.lt_irrefl _)
  | cons _ others => exact ⟨_, rfl, others⟩

theorem Forked.dropWhile (h : Forked pivot u v ts ts') (hp : p pivot = false) :
    Forked pivot u v (ts.dropWhile p) (ts'.dropWhile p) := by
  have hpivot : ¬ p pivot = true := by simp [hp]
  induction h with
  | pivot =>
    rw [List.dropWhile_cons_of_neg hpivot, List.dropWhile_cons_of_neg hpivot]
    exact .pivot
  | @cons t ts ts' others ih =>
    by_cases ht : p t = true
    · rwa [List.dropWhile_cons_of_pos ht, List.dropWhile_cons_of_pos ht]
    · rw [List.dropWhile_cons_of_neg ht, List.dropWhile_cons_of_neg ht]
      exact .cons t others

/-- What is skipped ends at the same token in both lists. -/
theorem Forked.dropWhile_uncons (h : Forked pivot u v ts ts') (hp : p pivot = false)
    (hts : ts.dropWhile p = t :: mid) (hmid : u.length < mid.length) :
    ∃ mid', ts'.dropWhile p = t :: mid' ∧ Forked pivot u v mid mid' :=
  (hts ▸ h.dropWhile hp).uncons hmid

theorem Next.forked (h : Next p ts) (hj : Forked pivot u v ts ts') : Next p ts' := by
  unfold Next
  rwa [hj.head]

theorem NotNext.forked (h : NotNext p ts) (hj : Forked pivot u v ts ts') : NotNext p ts' := by
  unfold NotNext
  rwa [hj.head]

/-- A token that is still unread was unread before. -/
theorem Takes.unread (h : Takes ts rest) (hu : u.length < rest.length) : u.length < ts.length :=
  Nat.lt_trans hu h.2

theorem unread_of_suffix (h : rest <:+ ts) (hu : u.length < rest.length) : u.length < ts.length :=
  Nat.lt_of_lt_of_le hu h.length_le

/-! ### Names and lists -/

theorem Identifier.forks : Local pivot u v Identifier := by
  rintro ts ts' name rest ⟨t, rfl, hkind, hfree⟩ hj hu
  obtain ⟨rest', rfl, hrest⟩ := hj.uncons hu
  exact ⟨rest', hrest, t, rfl, hkind, hfree⟩

section

variable {Item : Phrase α} {closing : String} (hpivot : Parser.isSeparator pivot = false)
  (htakes : ∀ ts a rest, Item ts a rest → Takes ts rest) (hitem : Local pivot u v Item)
include hpivot htakes hitem

theorem Commas.forks : Local pivot u v (Commas Item closing) := by
  have hbreak := isNewline_of_not_separator hpivot
  intro ts ts' as rest h hj hu
  induction h generalizing ts' with
  | last item after closes =>
    obtain ⟨mid', hmid, hitem'⟩ := hitem item hj ((takes_dropWhile after).unread hu)
    obtain ⟨rest', hafter, hrest⟩ := hmid.dropWhile_uncons hbreak after hu
    exact ⟨rest', hrest, .last hitem' hafter closes⟩
  | more item after separates others ih =>
    have hothers := (others.takes htakes).unread hu
    have hcomma := unread_of_suffix (List.dropWhile_suffix _) hothers
    obtain ⟨mid', hmid, hitem'⟩ := hitem item hj ((takes_dropWhile after).unread hcomma)
    obtain ⟨mid'', hafter, hmid'⟩ := hmid.dropWhile_uncons hbreak after hcomma
    obtain ⟨rest', hrest, hothers'⟩ := ih (hmid'.dropWhile hbreak) hu
    exact ⟨rest', hrest, .more hitem' hafter separates hothers'⟩

theorem CommaList.forks : Local pivot u v (CommaList Item closing) := by
  have hbreak := isNewline_of_not_separator hpivot
  intro ts ts' as rest h hj hu
  cases h with
  | empty after closes =>
    obtain ⟨rest', hafter, hrest⟩ := hj.dropWhile_uncons hbreak after hu
    exact ⟨rest', hrest, .empty hafter closes⟩
  | items opens list =>
    have hbreaks := hj.dropWhile hbreak
    obtain ⟨rest', hrest, hlist⟩ := Commas.forks hpivot htakes hitem list hbreaks hu
    exact ⟨rest', hrest, .items (opens.forked hbreaks) hlist⟩

end

/-! ### Blocks and functions -/

section

variable {R : Goal → Phrase Node} {line : Nat} (hpivot : Parser.isSeparator pivot = false)
  (hR : ∀ goal ts node rest, R goal ts node rest → Takes ts rest)
  (hlocal : ∀ goal, Local pivot u v (R goal))
include hpivot hR hlocal

theorem Statements.forks : Local pivot u v (Statements R) := by
  intro ts ts' nodes rest h hj hu
  induction h generalizing ts' with
  | done ends =>
    have hrest := hj.dropWhile hpivot
    exact ⟨_, hrest, .done (ends.forked hrest)⟩
  | @more ts mid rest t ts₀ node nodes first continues statement others ih =>
    have hmid := unread_of_suffix (others.suffix hR) hu
    have htaken := (hR _ _ _ _ statement).2
    rw [List.length_cons] at htaken
    obtain ⟨ts₁, hfirst, hj₁⟩ := hj.dropWhile_uncons hpivot first (by omega)
    obtain ⟨mid', hmid', hnode⟩ := hlocal _ statement (.cons t hj₁) hmid
    obtain ⟨rest', hrest, hothers⟩ := ih hmid' hu
    exact ⟨rest', hrest, .more hfirst continues hnode hothers⟩

theorem Block.forks : Local pivot u v (Block R) := by
  rintro ts ts' body rest ⟨opening, closing, mid, hts, hopening, hbody, hclosing⟩ hj hu
  have hclose : u.length < (closing :: rest).length := Nat.lt_succ_of_lt hu
  have hmid := unread_of_suffix (hbody.suffix hR) hclose
  obtain ⟨mid', hmid', hj'⟩ := hj.dropWhile_uncons (isNewline_of_not_separator hpivot) hts hmid
  obtain ⟨_, hforked, hbody'⟩ := Statements.forks hpivot hR hlocal hbody hj' hclose
  obtain ⟨rest', rfl, hrest⟩ := hforked.uncons hu
  exact ⟨rest', hrest, opening, closing, mid', hmid', hopening, hbody', hclosing⟩

theorem Signature.forks : Local pivot u v (Signature R) := by
  rintro ts ts' f rest ⟨opening, mid, mid', rfl, hopening, hparams, hbody⟩ hj hu
  have hmid' := (hbody.takes hR).unread hu
  have hnames : ∀ ts name rest, Identifier ts name rest → Takes ts rest :=
    fun _ _ _ => Identifier.takes
  obtain ⟨mid₁, rfl, hj₁⟩ := hj.uncons ((hparams.takes hnames).unread hmid')
  obtain ⟨mid₂, hj₂, hparams'⟩ :=
    CommaList.forks hpivot hnames Identifier.forks hparams hj₁ hmid'
  obtain ⟨rest', hrest, hbody'⟩ := Block.forks hpivot hR hlocal hbody hj₂ hu
  exact ⟨rest', hrest, opening, mid₁, mid₂, rfl, hopening, hparams', hbody'⟩

theorem Function.forks : Local pivot u v (Function R) := by
  intro ts ts' f rest h hj hu
  cases h with
  | anonymous signature =>
    obtain ⟨rest', hrest, hsignature⟩ := Signature.forks hpivot hR hlocal signature hj hu
    exact ⟨rest', hrest, .anonymous hsignature⟩
  | named identifier signature =>
    obtain ⟨mid', hmid', hidentifier⟩ :=
      Identifier.forks identifier hj ((signature.takes hR).unread hu)
    obtain ⟨rest', hrest, hsignature⟩ := Signature.forks hpivot hR hlocal signature hmid' hu
    exact ⟨rest', hrest, .named hidentifier hsignature⟩

/-! ### Expressions -/

theorem Elements.forks {closing : String} :
    Local pivot u v (CommaList (R (.run .element)) closing) :=
  CommaList.forks hpivot (hR _) (hlocal _)

theorem Operand.forks : Local pivot u v (Operand R) := by
  intro ts ts' node rest h hj hu
  cases h with
  | int kind =>
    obtain ⟨rest', rfl, hrest⟩ := hj.uncons hu
    exact ⟨rest', hrest, .int kind⟩
  | float kind =>
    obtain ⟨rest', rfl, hrest⟩ := hj.uncons hu
    exact ⟨rest', hrest, .float kind⟩
  | str kind =>
    obtain ⟨rest', rfl, hrest⟩ := hj.uncons hu
    exact ⟨rest', hrest, .str kind⟩
  | function kind parts =>
    obtain ⟨mid, rfl, hmid⟩ := hj.uncons ((parts.takes hR).unread hu)
    obtain ⟨rest', hrest, hparts⟩ := Function.forks hpivot hR hlocal parts hmid hu
    exact ⟨rest', hrest, .function kind hparts⟩
  | call kind free opens list =>
    have hlist := (list.takes (hR _)).unread hu
    obtain ⟨_, rfl, hmid⟩ := hj.uncons (Nat.lt_succ_of_lt hlist)
    obtain ⟨mid', rfl, hmid'⟩ := hmid.uncons hlist
    obtain ⟨rest', hrest, hlist'⟩ := Elements.forks hpivot hR hlocal list hmid' hu
    exact ⟨rest', hrest, .call kind free opens hlist'⟩
  | reference kind free plain =>
    obtain ⟨rest', rfl, hrest⟩ := hj.uncons hu
    exact ⟨rest', hrest, .reference kind free (plain.forked hrest)⟩
  | group kind run after closes =>
    have hmid := (takes_dropWhile after).unread hu
    obtain ⟨mid, rfl, hj'⟩ := hj.uncons ((hR _ _ _ _ run).unread hmid)
    obtain ⟨mid', hmid', hrun⟩ := hlocal _ run hj' hmid
    obtain ⟨rest', hafter, hrest⟩ :=
      hmid'.dropWhile_uncons (isNewline_of_not_separator hpivot) after hu
    exact ⟨rest', hrest, .group kind hrun hafter closes⟩
  | empty kind list =>
    obtain ⟨mid, rfl, hmid⟩ := hj.uncons ((list.takes (hR _)).unread hu)
    obtain ⟨rest', hrest, hlist⟩ := Elements.forks hpivot hR hlocal list hmid hu
    exact ⟨rest', hrest, .empty kind hlist⟩
  | list kind list some =>
    obtain ⟨mid, rfl, hmid⟩ := hj.uncons ((list.takes (hR _)).unread hu)
    obtain ⟨rest', hrest, hlist⟩ := Elements.forks hpivot hR hlocal list hmid hu
    exact ⟨rest', hrest, .list kind hlist some⟩

theorem Items.forks {mode : Mode} {due started : Bool} :
    Local pivot u v (Items R mode due started) := by
  intro ts ts' items rest h hj hu
  induction h generalizing ts' with
  | done stops =>
    refine ⟨ts', hj, .done ?_⟩
    rwa [hj.head]
  | lineBreak kind skips others ih =>
    obtain ⟨mid, rfl, hmid⟩ := hj.uncons (unread_of_suffix (others.takes hR).1 hu)
    obtain ⟨rest', hrest, hothers⟩ := ih hmid hu
    exact ⟨rest', hrest, .lineBreak kind skips hothers⟩
  | plus kind others ih =>
    obtain ⟨mid, rfl, hmid⟩ := hj.uncons (unread_of_suffix (others.takes hR).1 hu)
    obtain ⟨rest', hrest, hothers⟩ := ih hmid hu
    exact ⟨rest', hrest, .plus kind hothers⟩
  | before kind operator meaning others ih =>
    obtain ⟨mid, rfl, hmid⟩ := hj.uncons (unread_of_suffix (others.takes hR).1 hu)
    obtain ⟨rest', hrest, hothers⟩ := ih hmid hu
    exact ⟨rest', hrest, .before kind operator meaning hothers⟩
  | operand operand others ih =>
    obtain ⟨mid, hmid, hoperand⟩ := Operand.forks hpivot hR hlocal operand hj
      (unread_of_suffix (others.takes hR).1 hu)
    obtain ⟨rest', hrest, hothers⟩ := ih hmid hu
    exact ⟨rest', hrest, .operand hoperand hothers⟩
  | ignored kind skips others ih =>
    obtain ⟨mid, rfl, hmid⟩ := hj.uncons (unread_of_suffix (others.takes hR).1 hu)
    obtain ⟨rest', hrest, hothers⟩ := ih hmid hu
    exact ⟨rest', hrest, .ignored kind skips hothers⟩
  | after kind operator others ih =>
    obtain ⟨mid, rfl, hmid⟩ := hj.uncons (unread_of_suffix (others.takes hR).1 hu)
    obtain ⟨rest', hrest, hothers⟩ := ih hmid hu
    exact ⟨rest', hrest, .after kind operator hothers⟩
  | index kind run closes others ih =>
    have hmid := unread_of_suffix (others.takes hR).1 hu
    obtain ⟨ts₁, rfl, hj₁⟩ := hj.uncons ((hR _ _ _ _ run).unread (Nat.lt_succ_of_lt hmid))
    obtain ⟨_, hclose, hrun⟩ := hlocal _ run hj₁ (Nat.lt_succ_of_lt hmid)
    obtain ⟨mid', rfl, hmid'⟩ := hclose.uncons hmid
    obtain ⟨rest', hrest, hothers⟩ := ih hmid' hu
    exact ⟨rest', hrest, .index kind hrun closes hothers⟩
  | between kind operator others ih =>
    obtain ⟨mid, rfl, hmid⟩ := hj.uncons (unread_of_suffix (others.takes hR).1 hu)
    obtain ⟨rest', hrest, hothers⟩ := ih hmid hu
    exact ⟨rest', hrest, .between kind operator hothers⟩

theorem Run.forks {mode : Mode} : Local pivot u v (Run R mode) := by
  rintro ts ts' node rest ⟨items, line, hitems, htree⟩ hj hu
  obtain ⟨rest', hrest, hitems'⟩ := Items.forks hpivot hR hlocal hitems hj hu
  exact ⟨rest', hrest, items, line, hitems', htree⟩

/-! ### Definitions and branches -/

omit hpivot in
theorem Variable.forks : Local pivot u v (Variable R line) := by
  intro ts ts' node rest h hj hu
  cases h with
  | plain identifier bare =>
    obtain ⟨rest', hrest, hidentifier⟩ := Identifier.forks identifier hj hu
    exact ⟨rest', hrest, .plain hidentifier (bare.forked hrest)⟩
  | valued identifier kind run =>
    have hmid := (hR _ _ _ _ run).unread hu
    obtain ⟨_, hequals, hidentifier⟩ := Identifier.forks identifier hj (Nat.lt_succ_of_lt hmid)
    obtain ⟨mid', rfl, hmid'⟩ := hequals.uncons hmid
    obtain ⟨rest', hrest, hrun⟩ := hlocal _ run hmid' hu
    exact ⟨rest', hrest, .valued hidentifier kind hrun⟩

theorem NamedFunction.forks : Local pivot u v (NamedFunction R line) := by
  rintro ts ts' node rest ⟨name, params, body, hparts, hnode⟩ hj hu
  obtain ⟨rest', hrest, hparts'⟩ := Function.forks hpivot hR hlocal hparts hj hu
  exact ⟨rest', hrest, name, params, body, hparts', hnode⟩

/-- The search for an `else` does not go past the token at the fork. -/
theorem Otherwise.forks : Local pivot u v (Otherwise R) := by
  have hbreak := isNewline_of_not_separator hpivot
  intro ts ts' other rest h hj hu
  cases h with
  | absent bare => exact ⟨ts', hj, .absent (bare.forked (hj.dropWhile hbreak))⟩
  | chain after kind again conditional =>
    have hmid := (hR _ _ _ _ conditional).unread hu
    obtain ⟨_, hafter, hj₁⟩ := hj.dropWhile_uncons hbreak after (Nat.lt_succ_of_lt hmid)
    obtain ⟨mid, rfl, hj₂⟩ := hj₁.uncons hmid
    obtain ⟨rest', hrest, hconditional⟩ := hlocal _ conditional hj₂ hu
    exact ⟨rest', hrest, .chain hafter kind again hconditional⟩
  | block after kind block =>
    obtain ⟨mid, hafter, hj₁⟩ := hj.dropWhile_uncons hbreak after ((block.takes hR).unread hu)
    obtain ⟨rest', hrest, hblock⟩ := Block.forks hpivot hR hlocal block hj₁ hu
    exact ⟨rest', hrest, .block hafter kind hblock⟩

theorem Conditional.forks : Local pivot u v (Conditional R line) := by
  rintro ts ts' node rest ⟨condition, body, other, mid, mid', hcondition, hbody, hother, hnode⟩
    hj hu
  have hu' := unread_of_suffix (hother.suffix hR) hu
  obtain ⟨mid₁, hmid₁, hcondition'⟩ := hlocal _ hcondition hj ((hbody.takes hR).unread hu')
  obtain ⟨mid₂, hmid₂, hbody'⟩ := Block.forks hpivot hR hlocal hbody hmid₁ hu'
  obtain ⟨rest', hrest, hother'⟩ := Otherwise.forks hpivot hR hlocal hother hmid₂ hu
  exact ⟨rest', hrest, condition, body, other, mid₁, mid₂, hcondition', hbody', hother', hnode⟩

omit hpivot in
theorem CaseValues.forks : Local pivot u v (CaseValues R) := by
  intro ts ts' values rest h hj hu
  induction h generalizing ts' with
  | last run ends =>
    obtain ⟨rest', hrest, hrun⟩ := hlocal _ run hj hu
    exact ⟨rest', hrest, .last hrun (ends.forked hrest)⟩
  | more run kind others ih =>
    have hmid := (others.takes hR).unread hu
    obtain ⟨_, hcomma, hrun⟩ := hlocal _ run hj (Nat.lt_succ_of_lt hmid)
    obtain ⟨mid', rfl, hmid'⟩ := hcomma.uncons hmid
    obtain ⟨rest', hrest, hothers⟩ := ih hmid' hu
    exact ⟨rest', hrest, .more hrun kind hothers⟩

theorem SwitchArms.forks : Local pivot u v (SwitchArms R) := by
  intro ts ts' arms rest h hj hu
  induction h generalizing ts' with
  | done after closes =>
    obtain ⟨rest', hafter, hrest⟩ := hj.dropWhile_uncons hpivot after hu
    exact ⟨rest', hrest, .done hafter closes⟩
  | case after kind list opens block others ih =>
    have hothers := (others.takes hR).unread hu
    have hblock := unread_of_suffix (block.suffix hR) hothers
    have hcolon := Nat.lt_succ_of_lt hblock
    obtain ⟨mid₁, hafter, hmid₁⟩ := hj.dropWhile_uncons hpivot after ((list.takes hR).unread hcolon)
    obtain ⟨_, hcolon', hlist⟩ := CaseValues.forks hR hlocal list hmid₁ hcolon
    obtain ⟨mid₂, rfl, hmid₂⟩ := hcolon'.uncons hblock
    obtain ⟨mid₃, hmid₃, hblock'⟩ := Statements.forks hpivot hR hlocal block hmid₂ hothers
    obtain ⟨rest', hrest, hothers'⟩ := ih hmid₃ hu
    exact ⟨rest', hrest, .case hafter kind hlist opens hblock' hothers'⟩
  | fallback after kind opens block others ih =>
    have hothers := (others.takes hR).unread hu
    have hblock := unread_of_suffix (block.suffix hR) hothers
    obtain ⟨_, hafter, hmid₁⟩ := hj.dropWhile_uncons hpivot after (Nat.lt_succ_of_lt hblock)
    obtain ⟨mid₂, rfl, hmid₂⟩ := hmid₁.uncons hblock
    obtain ⟨mid₃, hmid₃, hblock'⟩ := Statements.forks hpivot hR hlocal block hmid₂ hothers
    obtain ⟨rest', hrest, hothers'⟩ := ih hmid₃ hu
    exact ⟨rest', hrest, .fallback hafter kind opens hblock' hothers'⟩

theorem Switch.forks : Local pivot u v (Switch R line) := by
  rintro ts ts' node rest
    ⟨subject, cases, fallback, opening, mid, mid', hsubject, hmid, hopening, harms, hnode⟩ hj hu
  have hmid' := (harms.takes hR).unread hu
  obtain ⟨mid₁, hmid₁, hsubject'⟩ := hlocal _ hsubject hj ((takes_dropWhile hmid).unread hmid')
  obtain ⟨mid₂, hopens, hmid₂⟩ :=
    hmid₁.dropWhile_uncons (isNewline_of_not_separator hpivot) hmid hmid'
  obtain ⟨rest', hrest, harms'⟩ := SwitchArms.forks hpivot hR hlocal harms hmid₂ hu
  exact ⟨rest', hrest, subject, cases, fallback, opening, mid₁, mid₂, hsubject', hopens, hopening,
    harms', hnode⟩

/-! ### Loops -/

theorem While.forks : Local pivot u v (While R line) := by
  rintro ts ts' node rest ⟨condition, body, mid, hcondition, hbody, hnode⟩ hj hu
  obtain ⟨mid₁, hmid₁, hcondition'⟩ := hlocal _ hcondition hj ((hbody.takes hR).unread hu)
  obtain ⟨rest', hrest, hbody'⟩ := Block.forks hpivot hR hlocal hbody hmid₁ hu
  exact ⟨rest', hrest, condition, body, mid₁, hcondition', hbody', hnode⟩

omit hpivot in
theorem Step.forks : Local pivot u v (Step R) := by
  intro ts ts' step rest h hj hu
  cases h with
  | absent bare => exact ⟨ts', hj, .absent (bare.forked hj)⟩
  | present kind run =>
    obtain ⟨mid, rfl, hmid⟩ := hj.uncons ((hR _ _ _ _ run).unread hu)
    obtain ⟨rest', hrest, hrun⟩ := hlocal _ run hmid hu
    exact ⟨rest', hrest, .present kind hrun⟩

theorem LoopTail.forks {name : String} : Local pivot u v (LoopTail R name line) := by
  intro ts ts' node rest h hj hu
  cases h with
  | range run kind upTo by_ block =>
    have hblock := (block.takes hR).unread hu
    have hstep := unread_of_suffix (by_.suffix hR) hblock
    have hlimit := (hR _ _ _ _ upTo).unread hstep
    obtain ⟨_, hdots, hrun⟩ := hlocal _ run hj (Nat.lt_succ_of_lt hlimit)
    obtain ⟨mid₁, rfl, hmid₁⟩ := hdots.uncons hlimit
    obtain ⟨mid₂, hmid₂, hlimit'⟩ := hlocal _ upTo hmid₁ hstep
    obtain ⟨mid₃, hmid₃, hstep'⟩ := Step.forks hR hlocal by_ hmid₂ hblock
    obtain ⟨rest', hrest, hblock'⟩ := Block.forks hpivot hR hlocal block hmid₃ hu
    exact ⟨rest', hrest, .range hrun kind hlimit' hstep' hblock'⟩
  | each run block =>
    obtain ⟨mid, hmid, hrun⟩ := hlocal _ run hj ((block.takes hR).unread hu)
    obtain ⟨rest', hrest, hblock⟩ := Block.forks hpivot hR hlocal block hmid hu
    exact ⟨rest', hrest, .each hrun hblock⟩

theorem For.forks : Local pivot u v (For R line) := by
  rintro ts ts' node rest ⟨name, word, mid, hname, hword, htail⟩ hj hu
  have hmid := (htail.takes hR).unread hu
  obtain ⟨_, hin, hname'⟩ := Identifier.forks hname hj (Nat.lt_succ_of_lt hmid)
  obtain ⟨mid₁, rfl, hmid₁⟩ := hin.uncons hmid
  obtain ⟨rest', hrest, htail'⟩ := LoopTail.forks hpivot hR hlocal htail hmid₁ hu
  exact ⟨rest', hrest, name, word, mid₁, hname', hword, htail'⟩

/-! ### Statements -/

omit hpivot in
theorem GiveBack.forks : Local pivot u v (GiveBack R line) := by
  intro ts ts' node rest h hj hu
  cases h with
  | plain stops => exact ⟨ts', hj, .plain (stops.forked hj)⟩
  | @valued t ts rest value continues run =>
    have htaken := (hR _ _ _ _ run).2
    rw [List.length_cons] at htaken
    obtain ⟨mid, rfl, hmid⟩ := hj.uncons (by omega)
    obtain ⟨rest', hrest, hrun⟩ := hlocal _ run (.cons t hmid) hu
    exact ⟨rest', hrest, .valued continues hrun⟩

omit hpivot hR hlocal in
theorem Close.forks (h : Close ts rest) (hj : Forked pivot u v ts ts')
    (hu : u.length < rest.length) : ∃ rest', Forked pivot u v rest rest' ∧ Close ts' rest' := by
  cases h with
  | separator separates =>
    obtain ⟨rest', rfl, hrest⟩ := hj.uncons hu
    exact ⟨rest', hrest, .separator separates⟩
  | list bare stops => exact ⟨ts', hj, .list (bare.forked hj) (stops.forked hj)⟩

omit hpivot hR hlocal in
theorem BlockClose.forks (h : BlockClose ts rest) (hj : Forked pivot u v ts ts')
    (hu : u.length < rest.length) :
    ∃ rest', Forked pivot u v rest rest' ∧ BlockClose ts' rest' := by
  cases h with
  | separator separates =>
    obtain ⟨rest', rfl, hrest⟩ := hj.uncons hu
    exact ⟨rest', hrest, .separator separates⟩
  | bare none => exact ⟨ts', hj, .bare (none.forked hj)⟩

omit hpivot hR hlocal in
theorem startsParameters_forked (hj : Forked pivot u v ts ts') :
    Parser.startsParameters ts' = Parser.startsParameters ts := by
  cases hj <;> rfl

theorem BlockConstruct.forks {word : String} : Local pivot u v (BlockConstruct R word line) := by
  intro ts ts' node rest h hj hu
  cases h with
  | function named parts =>
    obtain ⟨rest', hrest, hparts⟩ := NamedFunction.forks hpivot hR hlocal parts hj hu
    exact ⟨rest', hrest, .function ((startsParameters_forked hj).trans named) hparts⟩
  | conditional parts =>
    obtain ⟨rest', hrest, hparts⟩ := Conditional.forks hpivot hR hlocal parts hj hu
    exact ⟨rest', hrest, .conditional hparts⟩
  | whileLoop parts =>
    obtain ⟨rest', hrest, hparts⟩ := While.forks hpivot hR hlocal parts hj hu
    exact ⟨rest', hrest, .whileLoop hparts⟩
  | forLoop parts =>
    obtain ⟨rest', hrest, hparts⟩ := For.forks hpivot hR hlocal parts hj hu
    exact ⟨rest', hrest, .forLoop hparts⟩
  | switch parts =>
    obtain ⟨rest', hrest, hparts⟩ := Switch.forks hpivot hR hlocal parts hj hu
    exact ⟨rest', hrest, .switch hparts⟩

omit hpivot in
theorem PlainConstruct.forks {word : String} : Local pivot u v (PlainConstruct R word line) := by
  intro ts ts' node rest h hj hu
  cases h with
  | definition parts =>
    obtain ⟨rest', hrest, hparts⟩ := Variable.forks hR hlocal parts hj hu
    exact ⟨rest', hrest, .definition hparts⟩
  | breakOut => exact ⟨ts', hj, .breakOut⟩
  | continueOn => exact ⟨ts', hj, .continueOn⟩
  | fallThrough => exact ⟨ts', hj, .fallThrough⟩
  | giveBack parts =>
    obtain ⟨rest', hrest, hparts⟩ := GiveBack.forks hR hlocal parts hj hu
    exact ⟨rest', hrest, .giveBack hparts⟩

theorem Statement.forks : Local pivot u v (Statement R) := by
  intro ts ts' node rest h hj hu
  cases h with
  | blocked kind construct close =>
    have hmid := unread_of_suffix close.suffix hu
    obtain ⟨ts₁, rfl, hj₁⟩ := hj.uncons ((construct.takes hR).unread hmid)
    obtain ⟨mid', hmid', hconstruct⟩ := BlockConstruct.forks hpivot hR hlocal construct hj₁ hmid
    obtain ⟨rest', hrest, hclose⟩ := close.forks hmid' hu
    exact ⟨rest', hrest, .blocked kind hconstruct hclose⟩
  | plain kind construct close =>
    have hmid := unread_of_suffix close.suffix hu
    obtain ⟨ts₁, rfl, hj₁⟩ := hj.uncons (unread_of_suffix (construct.suffix hR) hmid)
    obtain ⟨mid', hmid', hconstruct⟩ := PlainConstruct.forks hR hlocal construct hj₁ hmid
    obtain ⟨rest', hrest, hclose⟩ := close.forks hmid' hu
    exact ⟨rest', hrest, .plain kind hconstruct hclose⟩
  | @expression t ts mid rest node other run close =>
    have hmid := unread_of_suffix close.suffix hu
    have htaken := (hR _ _ _ _ run).2
    rw [List.length_cons] at htaken
    obtain ⟨ts₁, rfl, hj₁⟩ := hj.uncons (by omega)
    obtain ⟨mid', hmid', hrun⟩ := hlocal _ run (.cons t hj₁) hmid
    obtain ⟨rest', hrest, hclose⟩ := close.forks hmid' hu
    have hstarts : ∀ word, startsConstruct word ts₁ = startsConstruct word ts := by
      intro word
      unfold startsConstruct
      rw [startsParameters_forked hj₁]
    exact ⟨rest', hrest, .expression ((hstarts _).trans other) hrun hclose⟩

end

/-! ### Closing the recursion -/

/-- **What a phrase stands for does not depend on what follows the token after it.** -/
theorem Level.forks (hpivot : Parser.isSeparator pivot = false) (n : Nat) :
    ∀ goal, Local pivot u v (Level n goal) := by
  induction n with
  | zero => exact fun _ _ _ _ _ h => h.elim
  | succ n ih =>
    intro goal
    cases goal with
    | run mode => exact Run.forks hpivot (Level.takes n) ih
    | statement => exact Statement.forks hpivot (Level.takes n) ih
    | conditional line => exact Conditional.forks hpivot (Level.takes n) ih

end PairScript.Grammar
