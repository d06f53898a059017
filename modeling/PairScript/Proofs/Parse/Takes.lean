import PairScript.Proofs.Parse.Grammar

/-!
# Phrases take tokens from the front

What follows a phrase is the end of the list of tokens that starts with it, and all phrases but a
few optional ones take in at least one token.  So every recursion of the grammar is on fewer
tokens than it started with, which is why a bound that grows with their number is enough
(`PairScript.Proofs.Parse.Complete`).
-/

namespace PairScript.Grammar

open PairScript.Parser (FunctionParts)

/-- The tokens `rest` are the end of `ts`, without one token or more. -/
def Takes (ts rest : List Token) : Prop := rest <:+ ts ∧ rest.length < ts.length

variable {α : Type} {ts mid rest : List Token} {t : Token}

/-! ### Taking tokens -/

theorem takes_cons (h : rest <:+ ts) : Takes (t :: ts) rest := by
  refine ⟨h.trans (List.suffix_cons t ts), ?_⟩
  have := h.length_le
  rw [List.length_cons]
  omega

theorem Takes.trans_suffix (h₁ : Takes ts mid) (h₂ : rest <:+ mid) : Takes ts rest :=
  ⟨h₂.trans h₁.1, Nat.lt_of_le_of_lt h₂.length_le h₁.2⟩

theorem Takes.of_suffix (h₁ : mid <:+ ts) (h₂ : Takes mid rest) : Takes ts rest :=
  ⟨h₂.1.trans h₁, Nat.lt_of_lt_of_le h₂.2 h₁.length_le⟩

theorem Takes.trans (h₁ : Takes ts mid) (h₂ : Takes mid rest) : Takes ts rest :=
  h₁.trans_suffix h₂.1

theorem isNewline_of_not_separator (h : Parser.isSeparator t = false) : t.isNewline = false :=
  (Bool.or_eq_false_iff.1 h).1

/-- Dropping tokens and taking one more. -/
theorem takes_dropWhile {p : Token → Bool} (h : ts.dropWhile p = t :: rest) : Takes ts rest := by
  have hsuffix := List.dropWhile_suffix p (l := ts)
  rw [h] at hsuffix
  exact .of_suffix hsuffix (takes_cons (List.suffix_refl rest))

/-! ### Names and lists -/

theorem Identifier.takes {name : String} (h : Identifier ts name rest) : Takes ts rest := by
  obtain ⟨t, rfl, -, -⟩ := h
  exact takes_cons (List.suffix_refl rest)

section

variable {Item : Phrase α} {closing : String} {as : List α}

theorem Commas.takes (hitem : ∀ ts a rest, Item ts a rest → Takes ts rest)
    (h : Commas Item closing ts as rest) : Takes ts rest := by
  induction h with
  | last item after _ => exact (hitem _ _ _ item).trans (takes_dropWhile after)
  | more item after _ _ ih =>
    have hmid := (hitem _ _ _ item).trans (takes_dropWhile after)
    exact (hmid.trans_suffix (List.dropWhile_suffix _)).trans ih

theorem CommaList.takes (hitem : ∀ ts a rest, Item ts a rest → Takes ts rest)
    (h : CommaList Item closing ts as rest) : Takes ts rest := by
  cases h with
  | empty after _ => exact takes_dropWhile after
  | items _ list => exact .of_suffix (List.dropWhile_suffix _) (list.takes hitem)

end

/-! ### Blocks, functions and expressions -/

section

variable {R : Goal → Phrase Node} {node : Node} {nodes : List Node} {line : Nat}
  (hR : ∀ goal ts node rest, R goal ts node rest → Takes ts rest)
include hR

theorem Statements.suffix (h : Statements R ts nodes rest) : rest <:+ ts := by
  induction h with
  | done _ => exact List.dropWhile_suffix _
  | more first _ statement _ ih =>
    have htaken := (hR _ _ _ _ statement).1
    rw [← first] at htaken
    exact ih.trans (htaken.trans (List.dropWhile_suffix _))

theorem Block.takes {body : List Node} (h : Block R ts body rest) : Takes ts rest := by
  obtain ⟨opening, closing, mid, hts, -, hbody, -⟩ := h
  have hclosing := takes_cons (t := closing) (List.suffix_refl rest)
  exact (takes_dropWhile hts).trans (.of_suffix (hbody.suffix hR) hclosing)

theorem Signature.takes {f : List String × List Node} (h : Signature R ts f rest) :
    Takes ts rest := by
  obtain ⟨opening, mid, mid', rfl, -, hparams, hbody⟩ := h
  have hmid := hparams.takes fun _ _ _ => Identifier.takes
  exact takes_cons (hmid.trans (hbody.takes hR)).1

theorem Function.takes {f : FunctionParts} (h : Function R ts f rest) : Takes ts rest := by
  cases h with
  | anonymous signature => exact signature.takes hR
  | named identifier signature => exact identifier.takes.trans (signature.takes hR)

theorem Operand.takes (h : Operand R ts node rest) : Takes ts rest := by
  cases h with
  | int | float | str | reference => exact takes_cons (List.suffix_refl rest)
  | function _ parts => exact takes_cons (parts.takes hR).1
  | call _ _ _ list => exact takes_cons (takes_cons (list.takes (hR _)).1).1
  | group _ run after _ => exact takes_cons ((hR _ _ _ _ run).trans (takes_dropWhile after)).1
  | empty _ list => exact takes_cons (list.takes (hR _)).1
  | list _ list _ => exact takes_cons (list.takes (hR _)).1

/-- The items of a run take tokens, those of the rest of one possibly none. -/
theorem Items.takes {mode : Mode} {due started : Bool} {items : List Item}
    (h : Items R mode due started ts items rest) : rest <:+ ts ∧ (due = true → Takes ts rest) := by
  induction h with
  | done _ => exact ⟨List.suffix_refl _, nofun⟩
  | lineBreak _ _ _ ih | plus _ _ ih | before _ _ _ _ ih | between _ _ _ ih =>
    exact ⟨(takes_cons ih.1).1, fun _ => takes_cons ih.1⟩
  | operand operand _ ih =>
    have htaken := (operand.takes hR).trans_suffix ih.1
    exact ⟨htaken.1, fun _ => htaken⟩
  | ignored _ _ _ ih | after _ _ _ ih => exact ⟨(takes_cons ih.1).1, nofun⟩
  | index _ run _ _ ih =>
    exact ⟨(takes_cons ((hR _ _ _ _ run).trans (takes_cons ih.1)).1).1, nofun⟩

theorem Run.takes {mode : Mode} (h : Run R mode ts node rest) : Takes ts rest := by
  obtain ⟨items, line, hitems, -⟩ := h
  exact (hitems.takes hR).2 rfl

/-! ### Statements -/

theorem Variable.takes (h : Variable R line ts node rest) : Takes ts rest := by
  cases h with
  | plain identifier _ => exact identifier.takes
  | valued identifier _ run =>
    exact identifier.takes.trans (takes_cons (hR _ _ _ _ run).1)

theorem NamedFunction.takes (h : NamedFunction R line ts node rest) : Takes ts rest := by
  obtain ⟨name, params, body, hparts, -⟩ := h
  exact hparts.takes hR

theorem Otherwise.suffix {other : Option (List Node)} (h : Otherwise R ts other rest) :
    rest <:+ ts := by
  cases h with
  | absent _ => exact List.suffix_refl _
  | chain after _ _ conditional =>
    exact ((takes_dropWhile after).trans (takes_cons (hR _ _ _ _ conditional).1)).1
  | block after _ block => exact ((takes_dropWhile after).trans (block.takes hR)).1

theorem Conditional.takes (h : Conditional R line ts node rest) : Takes ts rest := by
  obtain ⟨condition, body, other, mid, mid', hcondition, hbody, hother, -⟩ := h
  have hmid := (hR _ _ _ _ hcondition).trans (hbody.takes hR)
  exact hmid.trans_suffix (hother.suffix hR)

theorem CaseValues.takes {values : List Node} (h : CaseValues R ts values rest) :
    Takes ts rest := by
  induction h with
  | last run _ => exact hR _ _ _ _ run
  | more run _ _ ih => exact (hR _ _ _ _ run).trans (takes_cons ih.1)

theorem SwitchArms.takes {arms : List (Arm Node) × Option (List Node)}
    (h : SwitchArms R ts arms rest) : Takes ts rest := by
  induction h with
  | done after _ => exact takes_dropWhile after
  | case after _ list _ block _ ih =>
    have hlist := (takes_dropWhile after).trans (list.takes hR)
    exact hlist.trans (takes_cons (ih.1.trans (block.suffix hR)))
  | fallback after _ _ block _ ih =>
    exact (takes_dropWhile after).trans (takes_cons (ih.1.trans (block.suffix hR)))

theorem Switch.takes (h : Switch R line ts node rest) : Takes ts rest := by
  obtain ⟨subject, cases, fallback, opening, mid, mid', hsubject, hmid, -, harms, -⟩ := h
  exact ((hR _ _ _ _ hsubject).trans (takes_dropWhile hmid)).trans (harms.takes hR)

theorem While.takes (h : While R line ts node rest) : Takes ts rest := by
  obtain ⟨condition, body, mid, hcondition, hbody, -⟩ := h
  exact (hR _ _ _ _ hcondition).trans (hbody.takes hR)

theorem Step.suffix {step : Option Node} (h : Step R ts step rest) : rest <:+ ts := by
  cases h with
  | absent _ => exact List.suffix_refl _
  | present _ run => exact (takes_cons (hR _ _ _ _ run).1).1

theorem LoopTail.takes {name : String} (h : LoopTail R name line ts node rest) :
    Takes ts rest := by
  cases h with
  | range run _ upTo by_ block =>
    have hdots := (hR _ _ _ _ run).trans (takes_cons (hR _ _ _ _ upTo).1)
    exact (hdots.trans_suffix (by_.suffix hR)).trans (block.takes hR)
  | each run block => exact (hR _ _ _ _ run).trans (block.takes hR)

theorem For.takes (h : For R line ts node rest) : Takes ts rest := by
  obtain ⟨name, word, mid, hname, -, htail⟩ := h
  exact hname.takes.trans (takes_cons (htail.takes hR).1)

theorem GiveBack.suffix (h : GiveBack R line ts node rest) : rest <:+ ts := by
  cases h with
  | plain _ => exact List.suffix_refl _
  | valued _ run => exact (hR _ _ _ _ run).1

omit hR in
theorem Close.suffix (h : Close ts rest) : rest <:+ ts := by
  cases h with
  | separator _ => exact List.suffix_cons _ _
  | list _ _ => exact List.suffix_refl _

omit hR in
theorem BlockClose.suffix (h : BlockClose ts rest) : rest <:+ ts := by
  cases h with
  | separator _ => exact List.suffix_cons _ _
  | bare _ => exact List.suffix_refl _

theorem BlockConstruct.takes {word : String} (h : BlockConstruct R word line ts node rest) :
    Takes ts rest := by
  cases h with
  | function _ parts => exact parts.takes hR
  | conditional parts => exact parts.takes hR
  | whileLoop parts => exact parts.takes hR
  | forLoop parts => exact parts.takes hR
  | switch parts => exact parts.takes hR

theorem PlainConstruct.suffix {word : String} (h : PlainConstruct R word line ts node rest) :
    rest <:+ ts := by
  cases h with
  | definition parts => exact (parts.takes hR).1
  | breakOut | continueOn | fallThrough => exact List.suffix_refl _
  | giveBack parts => exact parts.suffix hR

theorem Statement.takes (h : Statement R ts node rest) : Takes ts rest := by
  cases h with
  | blocked _ construct close => exact takes_cons (close.suffix.trans (construct.takes hR).1)
  | plain _ construct close => exact takes_cons (close.suffix.trans (construct.suffix hR))
  | expression _ run close => exact (hR _ _ _ _ run).trans_suffix close.suffix

end

/-! ### Closing the recursion -/

/-- **A phrase takes in at least one token.** -/
theorem Level.takes (n : Nat) :
    ∀ goal ts node rest, Level n goal ts node rest → Takes ts rest := by
  induction n with
  | zero => exact fun _ _ _ _ h => h.elim
  | succ n ih =>
    intro goal ts node rest h
    cases goal with
    | run mode => exact Run.takes ih h
    | statement => exact Statement.takes ih h
    | conditional line => exact Conditional.takes ih h

end PairScript.Grammar
