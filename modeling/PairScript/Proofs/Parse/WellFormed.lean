import PairScript.Proofs.Parse.Sound
import PairScript.Proofs.Parse.Takes
import PairScript.Proofs.Syntax.Built

/-!
# Accepted programs are well formed

Every production of the grammar gives a built tree out of built parts: one lemma for each kind of
phrase, the level below being a parameter, and an induction on the levels.  Built trees are well
formed.

The names of the tree come from the tokens, so whatever is known about the names among the tokens
holds of the names in the tree.  The one name that no token spells is `null`, which stands for a
missing value.
-/

namespace PairScript.Grammar

open PairScript.Parser (FunctionParts)

/-- The names among the tokens, keywords apart, are in `named`. -/
def Spells (named : String → Prop) (ts : List Token) : Prop :=
  ∀ t ∈ ts, ∀ text, t.kind = .name text → isKeyword text = false → named text

/-- What a goal is answered with: a run with the tree of a value, all else with a tree. -/
def Answers (named : String → Prop) : Goal → Node → Prop
  | .run _, node => node.Built named .value
  | _, node => node.Built named .statement

variable {named : String → Prop} {ts mid rest : List Token} {t : Token}

theorem Spells.suffix (h : Spells named ts) (hrest : rest <:+ ts) : Spells named rest :=
  fun t ht => h t (hrest.mem ht)

theorem Spells.tail (h : Spells named (t :: ts)) : Spells named ts :=
  h.suffix (List.suffix_cons t ts)

/-! ### Names and lists -/

theorem Identifier.spelt {name : String} (h : Identifier ts name rest) (hts : Spells named ts) :
    named name := by
  obtain ⟨t, rfl, hkind, hfree⟩ := h
  exact hts t (by simp) name hkind hfree

section

variable {α : Type} {Item : Phrase α} {P : α → Prop} {closing : String} {as : List α}
  (htakes : ∀ ts a rest, Item ts a rest → Takes ts rest)
  (hitem : ∀ ts a rest, Item ts a rest → Spells named ts → P a)
include htakes hitem

theorem Commas.all (h : Commas Item closing ts as rest) (hts : Spells named ts) :
    ∀ a ∈ as, P a := by
  induction h with
  | last item _ _ => exact List.forall_mem_singleton.2 (hitem _ _ _ item hts)
  | more item after _ _ ih =>
    have hmid := (htakes _ _ _ item).trans (takes_dropWhile after)
    refine List.forall_mem_cons.2 ⟨hitem _ _ _ item hts, ih ?_⟩
    exact (hts.suffix hmid.1).suffix (List.dropWhile_suffix _)

theorem CommaList.all (h : CommaList Item closing ts as rest) (hts : Spells named ts) :
    ∀ a ∈ as, P a := by
  cases h with
  | empty _ _ => simp
  | items _ list => exact list.all htakes hitem (hts.suffix (List.dropWhile_suffix _))

end

/-! ### Blocks, functions and expressions -/

section

variable {R : Goal → Phrase Node} {node : Node} {nodes : List Node} {line : Nat}
  (htakes : ∀ goal ts node rest, R goal ts node rest → Takes ts rest)
  (hbuilt : ∀ goal ts node rest, R goal ts node rest → Spells named ts → Answers named goal node)
include htakes hbuilt

theorem Statements.built (h : Statements R ts nodes rest) (hts : Spells named ts) :
    ∀ node ∈ nodes, node.Built named .statement := by
  induction h with
  | done _ => simp
  | @more ts _ _ _ _ _ _ first _ statement _ ih =>
    have hfirst : Spells named (pastSeparators ts) := hts.suffix (List.dropWhile_suffix _)
    rw [first] at hfirst
    refine List.forall_mem_cons.2 ⟨hbuilt _ _ _ _ statement hfirst, ih ?_⟩
    exact hfirst.suffix (htakes _ _ _ _ statement).1

theorem Block.built {body : List Node} (h : Block R ts body rest) (hts : Spells named ts) :
    ∀ node ∈ body, node.Built named .statement := by
  obtain ⟨opening, closing, mid, hmid, -, hbody, -⟩ := h
  exact hbody.built htakes hbuilt (hts.suffix (takes_dropWhile hmid).1)

theorem Function.built (line : Nat) {f : FunctionParts} (h : Function R ts f rest)
    (hts : Spells named ts) : (Node.function f.name f.params f.body line).Built named .value := by
  have hsignature : ∀ {ts params body}, Signature R ts (params, body) rest → Spells named ts →
      (∀ name ∈ params, named name) ∧ ∀ node ∈ body, node.Built named .statement := by
    rintro ts params body ⟨opening, mid, mid', rfl, -, hparams, hbody⟩ hts
    have hrest := (hparams.takes fun _ _ _ => Identifier.takes).1
    exact ⟨hparams.all (fun _ _ _ => Identifier.takes) (fun _ _ _ => Identifier.spelt) hts.tail,
      hbody.built htakes hbuilt (hts.tail.suffix hrest)⟩
  cases h with
  | anonymous signature =>
    obtain ⟨hparams, hbody⟩ := hsignature signature hts
    exact .function nofun hparams hbody
  | named identifier signature =>
    obtain ⟨hparams, hbody⟩ := hsignature signature (hts.suffix identifier.takes.1)
    exact .function (by simpa using identifier.spelt hts) hparams hbody

theorem Operand.built (h : Operand R ts node rest) (hts : Spells named ts) :
    node.Built named .value := by
  cases h with
  | int | float | str | empty => exact .constant _ _
  | function _ parts => exact parts.built htakes hbuilt _ hts.tail
  | call kind free _ list =>
    refine .call (hts _ (by simp) _ kind free) ?_
    exact list.all (htakes _) (hbuilt _) hts.tail.tail
  | reference kind free _ => exact .reference (hts _ (by simp) _ kind free)
  | group _ run _ _ => exact hbuilt _ _ _ _ run hts.tail
  | list _ list some => exact .list some (list.all (htakes _) (hbuilt _) hts.tail)

theorem Items.built {mode : Mode} {due started : Bool} {items : List Item}
    (h : Items R mode due started ts items rest) (hts : Spells named ts) :
    ∀ item ∈ items, item.Built named := by
  induction h with
  | done _ => simp
  | lineBreak _ _ _ ih | plus _ _ ih | ignored _ _ _ ih => exact ih hts.tail
  | before _ operator meaning _ ih =>
    refine List.forall_mem_cons.2 ⟨?_, ih hts.tail⟩
    unfold Parser.prefixName? at operator
    split at operator <;> simp_all [Item.Built]
  | operand operand _ ih =>
    refine List.forall_mem_cons.2 ⟨operand.built htakes hbuilt hts, ih ?_⟩
    exact hts.suffix (operand.takes htakes).1
  | after _ operator _ ih =>
    exact List.forall_mem_cons.2 ⟨by simpa [Item.Built] using operator, ih hts.tail⟩
  | index _ run _ _ ih =>
    have hrest := (hts.tail.suffix (htakes _ _ _ _ run).1).tail
    exact List.forall_mem_cons.2 ⟨by simp [Item.Built, binaryLevel?],
      List.forall_mem_cons.2 ⟨hbuilt _ _ _ _ run hts.tail, ih hrest⟩⟩
  | between _ operator _ ih =>
    refine List.forall_mem_cons.2 ⟨?_, ih hts.tail⟩
    unfold Parser.symbolContinuation at operator
    simp only [Item.Built]
    grind

theorem Run.built {mode : Mode} (h : Run R mode ts node rest) (hts : Spells named ts) :
    node.Built named .value := by
  obtain ⟨items, line, hitems, htree⟩ := h
  exact buildTree_built (hitems.built htakes hbuilt hts) htree

/-! ### Statements -/

omit htakes in
theorem Variable.built (hnull : named "null") (h : Variable R line ts node rest)
    (hts : Spells named ts) : node.Built named .statement := by
  cases h with
  | plain identifier _ =>
    exact .expression (.definition (identifier.spelt hts) (.reference hnull))
  | valued identifier _ run =>
    have hvalue := hbuilt _ _ _ _ run (hts.suffix identifier.takes.1).tail
    exact .expression (.definition (identifier.spelt hts) hvalue)

theorem NamedFunction.built (h : NamedFunction R line ts node rest) (hts : Spells named ts) :
    node.Built named .statement := by
  obtain ⟨name, params, body, hparts, rfl⟩ := h
  have hfunction := hparts.built htakes hbuilt line hts
  cases hfunction with
  | function free frees statements =>
    exact .expression (.definition (free name rfl) (.function free frees statements))

theorem Otherwise.built {other : Option (List Node)} (h : Otherwise R ts other rest)
    (hts : Spells named ts) : ∀ node ∈ other.getD [], node.Built named .statement := by
  cases h with
  | absent _ => simp
  | chain after _ _ conditional =>
    have hmid := (hts.suffix (takes_dropWhile after).1).tail
    exact List.forall_mem_singleton.2 (hbuilt _ _ _ _ conditional hmid)
  | block after _ block =>
    exact block.built htakes hbuilt (hts.suffix (takes_dropWhile after).1)

theorem Conditional.built (h : Conditional R line ts node rest) (hts : Spells named ts) :
    node.Built named .statement := by
  obtain ⟨condition, body, other, mid, mid', hcondition, hbody, hother, rfl⟩ := h
  have hmid := hts.suffix (htakes _ _ _ _ hcondition).1
  refine .conditional (hbuilt _ _ _ _ hcondition hts) (hbody.built htakes hbuilt hmid) ?_
  exact hother.built htakes hbuilt (hmid.suffix (hbody.takes htakes).1)

theorem CaseValues.built {values : List Node} (h : CaseValues R ts values rest)
    (hts : Spells named ts) : values ≠ [] ∧ ∀ value ∈ values, value.Built named .value := by
  induction h with
  | last run _ => exact ⟨by simp, List.forall_mem_singleton.2 (hbuilt _ _ _ _ run hts)⟩
  | more run _ _ ih =>
    have hrest := (hts.suffix (htakes _ _ _ _ run).1).tail
    exact ⟨by simp, List.forall_mem_cons.2 ⟨hbuilt _ _ _ _ run hts, (ih hrest).2⟩⟩

theorem SwitchArms.built {arms : List (Arm Node) × Option (List Node)}
    (h : SwitchArms R ts arms rest) (hts : Spells named ts) :
    (∀ arm ∈ arms.1, arm.values ≠ [] ∧ (∀ value ∈ arm.values, value.Built named .value) ∧
      ∀ node ∈ arm.body, node.Built named .statement) ∧
      ∀ node ∈ arms.2.getD [], node.Built named .statement := by
  induction h with
  | done _ _ => simp
  | case after _ list _ block _ ih =>
    have hmid := hts.suffix (takes_dropWhile after).1
    have hmid' := (hmid.suffix (list.takes htakes).1).tail
    obtain ⟨hsome, hvalues⟩ := list.built htakes hbuilt hmid
    obtain ⟨hcases, hfallback⟩ := ih (hmid'.suffix (block.suffix htakes))
    refine ⟨List.forall_mem_cons.2 ⟨⟨hsome, hvalues, ?_⟩, hcases⟩, hfallback⟩
    exact block.built htakes hbuilt hmid'
  | @fallback _ _ _ _ _ _ _ _ fallback after _ _ block _ ih =>
    have hmid := (hts.suffix (takes_dropWhile after).1).tail
    obtain ⟨hcases, hfallback⟩ := ih (hmid.suffix (block.suffix htakes))
    refine ⟨hcases, ?_⟩
    cases fallback with
    | none => exact block.built htakes hbuilt hmid
    | some body => exact hfallback

theorem Switch.built (h : Switch R line ts node rest) (hts : Spells named ts) :
    node.Built named .statement := by
  obtain ⟨subject, cases, fallback, opening, mid, mid', hsubject, hmid, -, harms, rfl⟩ := h
  have hmid := (hts.suffix (htakes _ _ _ _ hsubject).1).suffix (takes_dropWhile hmid).1
  obtain ⟨hcases, hfallback⟩ := harms.built htakes hbuilt hmid
  exact .switch (hbuilt _ _ _ _ hsubject hts) (fun arm harm => (hcases arm harm).1)
    (fun arm harm => (hcases arm harm).2.1) (fun arm harm => (hcases arm harm).2.2) hfallback

theorem While.built (h : While R line ts node rest) (hts : Spells named ts) :
    node.Built named .statement := by
  obtain ⟨condition, body, mid, hcondition, hbody, rfl⟩ := h
  refine .whileLoop (hbuilt _ _ _ _ hcondition hts) ?_
  exact hbody.built htakes hbuilt (hts.suffix (htakes _ _ _ _ hcondition).1)

omit htakes in
theorem Step.built {step : Option Node} (h : Step R ts step rest) (hts : Spells named ts) :
    ∀ value ∈ step, value.Built named .value := by
  cases h with
  | absent _ => simp
  | present _ run =>
    rintro value ⟨⟩
    exact hbuilt _ _ _ _ run hts.tail

theorem LoopTail.built {name : String} (hname : named name)
    (h : LoopTail R name line ts node rest) (hts : Spells named ts) :
    node.Built named .statement := by
  cases h with
  | range run _ upTo by_ block =>
    have hmid := (hts.suffix (htakes _ _ _ _ run).1).tail
    have hmid' := hmid.suffix (htakes _ _ _ _ upTo).1
    refine .rangeLoop hname (hbuilt _ _ _ _ run hts) (hbuilt _ _ _ _ upTo hmid)
      (by_.built hbuilt hmid') ?_
    exact block.built htakes hbuilt (hmid'.suffix (by_.suffix htakes))
  | each run block =>
    refine .eachLoop hname (hbuilt _ _ _ _ run hts) ?_
    exact block.built htakes hbuilt (hts.suffix (htakes _ _ _ _ run).1)

theorem For.built (h : For R line ts node rest) (hts : Spells named ts) :
    node.Built named .statement := by
  obtain ⟨name, word, mid, hname, -, htail⟩ := h
  exact htail.built htakes hbuilt (hname.spelt hts) (hts.suffix hname.takes.1).tail

omit htakes in
theorem GiveBack.built (h : GiveBack R line ts node rest) (hts : Spells named ts) :
    node.Built named .statement := by
  cases h with
  | plain _ => exact .giveBack nofun
  | valued _ run =>
    refine .giveBack ?_
    rintro value ⟨⟩
    exact hbuilt _ _ _ _ run hts

theorem Statement.built (hnull : named "null") (h : Statement R ts node rest)
    (hts : Spells named ts) : node.Built named .statement := by
  cases h with
  | blocked _ construct _ =>
    cases construct with
    | function _ parts => exact parts.built htakes hbuilt hts.tail
    | conditional parts => exact parts.built htakes hbuilt hts.tail
    | whileLoop parts => exact parts.built htakes hbuilt hts.tail
    | forLoop parts => exact parts.built htakes hbuilt hts.tail
    | switch parts => exact parts.built htakes hbuilt hts.tail
  | plain _ construct _ =>
    cases construct with
    | definition parts => exact parts.built hbuilt hnull hts.tail
    | breakOut => exact .breakOut _
    | continueOn => exact .continueOn _
    | fallThrough => exact .fallThrough _
    | giveBack parts => exact parts.built hbuilt hts.tail
  | expression _ run _ => exact .expression (hbuilt _ _ _ _ run hts)

end

/-! ### Closing the recursion -/

theorem Level.built (hnull : named "null") (n : Nat) :
    ∀ goal ts node rest, Level n goal ts node rest → Spells named ts →
      Answers named goal node := by
  induction n with
  | zero => exact fun _ _ _ _ h => h.elim
  | succ n ih =>
    intro goal ts node rest h hts
    cases goal with
    | run mode => exact Run.built (Level.takes n) ih h hts
    | statement => exact Statement.built (Level.takes n) ih hnull h hts
    | conditional line => exact Conditional.built (Level.takes n) ih h hts

end PairScript.Grammar

namespace PairScript

/-- **The trees of accepted programs are built**, out of the names that their tokens spell. -/
theorem built_of_parse {named : String → Prop} (hnull : named "null") {tokens : List Token}
    {nodes : List Node} (hspells : Grammar.Spells named tokens) (h : parse tokens = .ok nodes) :
    ∀ node ∈ nodes, node.Built named .statement := by
  obtain ⟨n, rest, hprogram, -⟩ := parse_sound h
  exact hprogram.built (Grammar.Level.takes n) (Grammar.Level.built hnull n) hspells

/-- **Every tree of an accepted program is well formed**, and uses the names that its tokens
spell. -/
theorem sound_of_parse {named : String → Prop} (hnull : named "null") {tokens : List Token}
    {nodes : List Node} (hspells : Grammar.Spells named tokens) (h : parse tokens = .ok nodes) :
    ∀ node ∈ nodes, node.Sound named :=
  fun node hnode => (built_of_parse hnull hspells h node hnode).sound

end PairScript
