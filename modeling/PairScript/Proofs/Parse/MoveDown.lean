import PairScript.Proofs.Parse.Grammar
import PairScript.Proofs.Syntax.MoveDown
import PairScript.Proofs.Token.Concat

/-!
# Phrases further down

If the tokens of a phrase are moved down, they are a phrase for the same tree, moved down.  The
grammar copies lines from tokens to trees and never looks at them, so every production maps to
itself.
-/

namespace PairScript.Grammar

open PairScript.Parser (FunctionParts)

variable {k : Nat} {ts mid rest : List Token} {t : Token} {p : Token → Bool}

/-- The tokens a number of lines further down. -/
abbrev down (k : Nat) (ts : List Token) : List Token := ts.map (Token.moveDown k)

/-- The goal for tokens a number of lines further down. -/
def downGoal (k : Nat) : Goal → Goal
  | .conditional line => .conditional (line + k)
  | goal => goal

/-! ### Tokens -/

theorem dropWhile_down (hp : ∀ t, p (t.moveDown k) = p t) (ts : List Token) :
    (down k ts).dropWhile p = down k (ts.dropWhile p) := by
  rw [List.dropWhile_map]
  have hcomp : p ∘ Token.moveDown k = p := funext hp
  rw [hcomp]

theorem pastBreaks_down (h : pastBreaks ts = t :: rest) :
    pastBreaks (down k ts) = t.moveDown k :: down k rest := by
  rw [pastBreaks, dropWhile_down (fun _ => rfl)]
  exact congrArg (down k) h

theorem pastSeparators_down (ts : List Token) :
    pastSeparators (down k ts) = down k (pastSeparators ts) :=
  dropWhile_down (fun _ => rfl) ts

theorem Next.down (hp : ∀ t, p (t.moveDown k) = p t) (h : Next p ts) :
    Next p (Grammar.down k ts) := by
  cases ts with
  | nil => simp [Next]
  | cons t ts => simpa [Next, hp] using h

theorem NotNext.down (hp : ∀ t, p (t.moveDown k) = p t) (h : NotNext p ts) :
    NotNext p (Grammar.down k ts) := by
  cases ts with
  | nil => simp [NotNext]
  | cons t ts => simpa [NotNext, hp] using h

/-! ### Names and lists -/

theorem Identifier.down {name : String} (h : Identifier ts name rest) :
    Identifier (Grammar.down k ts) name (Grammar.down k rest) := by
  obtain ⟨t, rfl, hkind, hfree⟩ := h
  exact ⟨t.moveDown k, rfl, hkind, hfree⟩

section

variable {α : Type} {Item : Phrase α} {f : α → α} {closing : String} {as : List α}
  (hitem : ∀ ts a rest, Item ts a rest → Item (Grammar.down k ts) (f a) (Grammar.down k rest))
include hitem

theorem Commas.down (h : Commas Item closing ts as rest) :
    Commas Item closing (Grammar.down k ts) (as.map f) (Grammar.down k rest) := by
  induction h with
  | last item after closes => exact .last (hitem _ _ _ item) (pastBreaks_down after) closes
  | more item after separates _ ih =>
    refine .more (hitem _ _ _ item) (pastBreaks_down after) separates ?_
    rwa [pastBreaks, dropWhile_down (fun _ => rfl)]

theorem CommaList.down (h : CommaList Item closing ts as rest) :
    CommaList Item closing (Grammar.down k ts) (as.map f) (Grammar.down k rest) := by
  cases h with
  | empty after closes => exact .empty (pastBreaks_down after) closes
  | @items ts _ _ opens list =>
    have hbreaks : pastBreaks (Grammar.down k ts) = Grammar.down k (pastBreaks ts) :=
      dropWhile_down (fun _ => rfl) ts
    refine .items ?_ ?_
    · rw [hbreaks]
      exact opens.down fun _ => rfl
    · rw [hbreaks]
      exact list.down hitem

end

/-! ### Blocks, functions and expressions -/

section

variable {R : Goal → Phrase Node} {node : Node} {nodes : List Node} {line : Nat}
  (hR : ∀ goal ts node rest, R goal ts node rest →
    R (downGoal k goal) (Grammar.down k ts) (node.moveDown k) (Grammar.down k rest))
include hR

theorem Statements.down (h : Statements R ts nodes rest) :
    Statements R (Grammar.down k ts) (moveDownAll k nodes) (Grammar.down k rest) := by
  induction h with
  | done ends =>
    rw [← pastSeparators_down]
    refine .done ?_
    rw [pastSeparators_down]
    exact ends.down fun _ => rfl
  | @more _ _ _ t _ _ _ first continues statement _ ih =>
    refine .more (t := t.moveDown k) ?_ continues (hR _ _ _ _ statement) ih
    rw [pastSeparators_down, first]
    rfl

theorem Block.down {body : List Node} (h : Block R ts body rest) :
    Block R (Grammar.down k ts) (moveDownAll k body) (Grammar.down k rest) := by
  obtain ⟨opening, closing, mid, hts, hopening, hbody, hclosing⟩ := h
  exact ⟨opening.moveDown k, closing.moveDown k, Grammar.down k mid, pastBreaks_down hts, hopening,
    hbody.down hR, hclosing⟩

theorem Signature.down {params : List String} {body : List Node}
    (h : Signature R ts (params, body) rest) :
    Signature R (Grammar.down k ts) (params, moveDownAll k body) (Grammar.down k rest) := by
  obtain ⟨opening, mid, mid', rfl, hopening, hparams, hbody⟩ := h
  have hparams' := hparams.down (f := id) fun _ _ _ h => h.down (k := k)
  rw [List.map_id] at hparams'
  exact ⟨opening.moveDown k, Grammar.down k mid, Grammar.down k mid', rfl, hopening, hparams',
    hbody.down hR⟩

theorem Function.down {f : FunctionParts} (h : Function R ts f rest) :
    Function R (Grammar.down k ts) ⟨f.name, f.params, moveDownAll k f.body⟩ (Grammar.down k rest) := by
  cases h with
  | anonymous signature => exact .anonymous (signature.down hR)
  | named identifier signature => exact .named identifier.down (signature.down hR)

theorem elements_down {closing : String} {elements : List Node}
    (h : CommaList (R (.run .element)) closing ts elements rest) :
    CommaList (R (.run .element)) closing (Grammar.down k ts) (moveDownAll k elements)
      (Grammar.down k rest) := by
  rw [moveDownAll_eq_map]
  exact h.down (hR (.run .element))

theorem Operand.down (h : Operand R ts node rest) :
    Operand R (Grammar.down k ts) (node.moveDown k) (Grammar.down k rest) := by
  cases h with
  | int kind => exact .int kind
  | float kind => exact .float kind
  | str kind => exact .str kind
  | @function t _ _ _ kind parts => exact .function (t := t.moveDown k) kind (parts.down hR)
  | call kind free opens list => exact .call kind free opens (elements_down hR list)
  | reference kind free plain => exact .reference kind free (plain.down fun _ => rfl)
  | group kind run after closes =>
    exact .group kind (hR _ _ _ _ run) (pastBreaks_down after) closes
  | empty kind list => exact .empty kind (elements_down hR list)
  | list kind list some =>
    refine .list kind (elements_down hR list) ?_
    rw [moveDownAll_eq_map]
    simpa using some

theorem Items.down {mode : Mode} {due started : Bool} {items : List Item}
    (h : Items R mode due started ts items rest) :
    Items R mode due started (Grammar.down k ts) (items.map (Item.moveDown k))
      (Grammar.down k rest) := by
  induction h with
  | @done ts stops =>
    refine .done ?_
    cases ts with
    | nil => exact stops
    | cons t ts => simpa [Token.moveDown] using stops
  | lineBreak kind skips _ ih => exact .lineBreak kind skips ih
  | plus kind _ ih => exact .plus kind ih
  | before kind operator meaning _ ih => exact .before kind operator meaning ih
  | operand operand _ ih => exact .operand (operand.down hR) ih
  | ignored kind skips _ ih => exact .ignored kind skips ih
  | after kind operator _ ih => exact .after kind operator ih
  | index kind run closes _ ih => exact .index kind (hR _ _ _ _ run) closes ih
  | between kind operator _ ih => exact .between kind operator ih

theorem Run.down {mode : Mode} (h : Run R mode ts node rest) :
    Run R mode (Grammar.down k ts) (node.moveDown k) (Grammar.down k rest) := by
  obtain ⟨items, line, hitems, htree⟩ := h
  exact ⟨items.map (Item.moveDown k), line, hitems.down hR, buildTree_moveDown htree⟩

/-! ### Statements -/

theorem Variable.down (h : Variable R line ts node rest) :
    Variable R (line + k) (Grammar.down k ts) (node.moveDown k) (Grammar.down k rest) := by
  cases h with
  | plain identifier bare => exact .plain identifier.down (bare.down fun _ => rfl)
  | valued identifier kind run => exact .valued identifier.down kind (hR _ _ _ _ run)

theorem NamedFunction.down (h : NamedFunction R line ts node rest) :
    NamedFunction R (line + k) (Grammar.down k ts) (node.moveDown k) (Grammar.down k rest) := by
  obtain ⟨name, params, body, hparts, rfl⟩ := h
  exact ⟨name, params, moveDownAll k body, hparts.down hR, rfl⟩

theorem Otherwise.down {other : Option (List Node)} (h : Otherwise R ts other rest) :
    Otherwise R (Grammar.down k ts) (moveDownBlock k other) (Grammar.down k rest) := by
  cases h with
  | absent bare =>
    refine .absent ?_
    rw [pastBreaks, dropWhile_down (fun _ => rfl)]
    exact bare.down fun _ => rfl
  | chain after kind again conditional =>
    exact .chain (pastBreaks_down after) kind again (hR _ _ _ _ conditional)
  | block after kind block => exact .block (pastBreaks_down after) kind (block.down hR)

theorem Conditional.down (h : Conditional R line ts node rest) :
    Conditional R (line + k) (Grammar.down k ts) (node.moveDown k) (Grammar.down k rest) := by
  obtain ⟨condition, body, other, mid, mid', hcondition, hbody, hother, rfl⟩ := h
  exact ⟨condition.moveDown k, moveDownAll k body, moveDownBlock k other, Grammar.down k mid,
    Grammar.down k mid', hR _ _ _ _ hcondition, hbody.down hR, hother.down hR, rfl⟩

theorem CaseValues.down {values : List Node} (h : CaseValues R ts values rest) :
    CaseValues R (Grammar.down k ts) (moveDownAll k values) (Grammar.down k rest) := by
  induction h with
  | last run ends => exact .last (hR _ _ _ _ run) (ends.down fun _ => rfl)
  | @more _ _ _ comma _ _ run kind _ ih =>
    have hcomma : (comma.moveDown k).kind = .symbol "," := kind
    exact .more (hR _ _ _ _ run) hcomma ih

theorem SwitchArms.down {arms : List (Arm Node) × Option (List Node)}
    (h : SwitchArms R ts arms rest) :
    SwitchArms R (Grammar.down k ts) (moveDownArms k arms.1, moveDownBlock k arms.2)
      (Grammar.down k rest) := by
  induction h with
  | @done _ _ close after closes =>
    have hclose : (close.moveDown k).kind = .symbol "\x7d" := closes
    refine .done ?_ hclose
    rw [pastSeparators_down, after]
    rfl
  | @case _ _ _ _ _ word colon _ _ _ _ after kind list opens block _ ih =>
    have hword : (word.moveDown k).kind = .name "case" := kind
    have hcolon : (colon.moveDown k).kind = .symbol ":" := opens
    refine .case ?_ hword (list.down hR) hcolon (block.down hR) ih
    rw [pastSeparators_down, after]
    rfl
  | @fallback _ _ _ _ word colon _ _ fallback after kind opens block _ ih =>
    have hor : ∀ body : List Node, moveDownBlock k (fallback.or (some body))
        = (moveDownBlock k fallback).or (some (moveDownAll k body)) := by
      intro body
      cases fallback <;> rfl
    rw [hor]
    have hword : (word.moveDown k).kind = .name "default" := kind
    have hcolon : (colon.moveDown k).kind = .symbol ":" := opens
    refine .fallback ?_ hword hcolon (block.down hR) ih
    rw [pastSeparators_down, after]
    rfl

theorem Switch.down (h : Switch R line ts node rest) :
    Switch R (line + k) (Grammar.down k ts) (node.moveDown k) (Grammar.down k rest) := by
  obtain ⟨subject, cases, fallback, opening, mid, mid', hsubject, hmid, hopening, harms, rfl⟩ := h
  exact ⟨subject.moveDown k, moveDownArms k cases, moveDownBlock k fallback, opening.moveDown k,
    Grammar.down k mid, Grammar.down k mid', hR _ _ _ _ hsubject, pastBreaks_down hmid, hopening,
    harms.down hR, rfl⟩

theorem While.down (h : While R line ts node rest) :
    While R (line + k) (Grammar.down k ts) (node.moveDown k) (Grammar.down k rest) := by
  obtain ⟨condition, body, mid, hcondition, hbody, rfl⟩ := h
  exact ⟨condition.moveDown k, moveDownAll k body, Grammar.down k mid, hR _ _ _ _ hcondition,
    hbody.down hR, rfl⟩

theorem Step.down {step : Option Node} (h : Step R ts step rest) :
    Step R (Grammar.down k ts) (moveDownOptional k step) (Grammar.down k rest) := by
  cases h with
  | absent bare => exact .absent (bare.down fun _ => rfl)
  | present kind run => exact .present kind (hR _ _ _ _ run)

theorem LoopTail.down {name : String} (h : LoopTail R name line ts node rest) :
    LoopTail R name (line + k) (Grammar.down k ts) (node.moveDown k) (Grammar.down k rest) := by
  cases h with
  | @range _ _ _ _ _ dots _ _ closed _ _ run kind upTo by_ block =>
    have hdots : (dots.moveDown k).kind = .symbol (if closed then "..=" else "..") := kind
    exact .range (hR _ _ _ _ run) hdots (hR _ _ _ _ upTo) (by_.down hR) (block.down hR)
  | each run block => exact .each (hR _ _ _ _ run) (block.down hR)

theorem For.down (h : For R line ts node rest) :
    For R (line + k) (Grammar.down k ts) (node.moveDown k) (Grammar.down k rest) := by
  obtain ⟨name, word, mid, hname, hword, htail⟩ := h
  exact ⟨name, word.moveDown k, Grammar.down k mid, hname.down, hword, htail.down hR⟩

theorem GiveBack.down (h : GiveBack R line ts node rest) :
    GiveBack R (line + k) (Grammar.down k ts) (node.moveDown k) (Grammar.down k rest) := by
  cases h with
  | plain stops => exact .plain (stops.down fun _ => rfl)
  | valued continues run => exact .valued continues (hR _ _ _ _ run)

omit hR in
theorem Close.down (h : Close ts rest) : Close (Grammar.down k ts) (Grammar.down k rest) := by
  cases h with
  | separator separates => exact .separator separates
  | list bare stops => exact .list (bare.down fun _ => rfl) (stops.down fun _ => rfl)

omit hR in
theorem BlockClose.down (h : BlockClose ts rest) :
    BlockClose (Grammar.down k ts) (Grammar.down k rest) := by
  cases h with
  | separator separates => exact .separator separates
  | bare none => exact .bare (none.down fun _ => rfl)

omit hR in
theorem startsParameters_down (ts : List Token) :
    Parser.startsParameters (Grammar.down k ts) = Parser.startsParameters ts := by
  cases ts <;> rfl

theorem BlockConstruct.down {word : String} (h : BlockConstruct R word line ts node rest) :
    BlockConstruct R word (line + k) (Grammar.down k ts) (node.moveDown k)
      (Grammar.down k rest) := by
  cases h with
  | function named parts =>
    exact .function ((startsParameters_down ts).trans named) (parts.down hR)
  | conditional parts => exact .conditional (parts.down hR)
  | whileLoop parts => exact .whileLoop (parts.down hR)
  | forLoop parts => exact .forLoop (parts.down hR)
  | switch parts => exact .switch (parts.down hR)

theorem PlainConstruct.down {word : String} (h : PlainConstruct R word line ts node rest) :
    PlainConstruct R word (line + k) (Grammar.down k ts) (node.moveDown k)
      (Grammar.down k rest) := by
  cases h with
  | definition parts => exact .definition (parts.down hR)
  | breakOut => exact .breakOut
  | continueOn => exact .continueOn
  | fallThrough => exact .fallThrough
  | giveBack parts => exact .giveBack (parts.down hR)

theorem Statement.down (h : Statement R ts node rest) :
    Statement R (Grammar.down k ts) (node.moveDown k) (Grammar.down k rest) := by
  cases h with
  | blocked kind construct close => exact .blocked kind (construct.down hR) close.down
  | plain kind construct close => exact .plain kind (construct.down hR) close.down
  | @expression t ts _ _ _ other run close =>
    refine .expression ?_ (hR _ _ _ _ run) close.down
    have hstarts : ∀ word, startsConstruct word (Grammar.down k ts) = startsConstruct word ts := by
      intro word
      unfold startsConstruct
      rw [startsParameters_down]
    exact (hstarts _).trans other

end

/-! ### Closing the recursion -/

/-- **A phrase further down stands for the same tree, further down.** -/
theorem Level.down (n : Nat) : ∀ goal ts node rest, Level n goal ts node rest →
    Level n (downGoal k goal) (Grammar.down k ts) (node.moveDown k) (Grammar.down k rest) := by
  induction n with
  | zero => exact fun _ _ _ _ h => h.elim
  | succ n ih =>
    intro goal ts node rest h
    cases goal with
    | run mode => exact Run.down ih h
    | statement => exact Statement.down ih h
    | conditional line => exact Conditional.down ih h

theorem Program.down {n : Nat} {nodes : List Node} (h : Program (Level n) ts nodes rest) :
    Program (Level n) (Grammar.down k ts) (moveDownAll k nodes) (Grammar.down k rest) :=
  ⟨h.1.down (Level.down n), h.2.down fun _ => rfl⟩

end PairScript.Grammar
