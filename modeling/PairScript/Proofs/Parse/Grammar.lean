import PairScript.Parse.Program

/-!
# The grammar as relations

The procedures of `PairScript.Parse` say how tokens are read.  The relations of this module say
what is read: `P ts a rest` holds when the tokens `ts` start with a phrase that stands for `a`, and
`rest` follows it.  Bounds, accumulators and faults have no place here, so a property of all
accepted programs is an induction over phrases.

Like the procedures, the relations are open: what a phrase needs from the level below it asks of a
parameter `R`, and `Level` closes the recursion.

* `Operand`, `Items` and `Run` are the phrases of expressions;
* `Statements`, `Block` and `FunctionParts` those of blocks and function literals;
* `Statement` and the relations before it those of statements;
* `Program` is the whole.

`PairScript.Proofs.Parse.Sound` and `PairScript.Proofs.Parse.Complete` show that the relations and
the procedures agree.
-/

namespace PairScript

/-- A kind of phrase: the tokens that start with it, what it stands for, and what follows it. -/
abbrev Phrase (α : Type) := List Token → α → List Token → Prop

namespace Grammar

open PairScript.Parser (FunctionParts)

/-- Whether the next token, if there is one, satisfies `p`. -/
def Next (p : Token → Bool) (ts : List Token) : Prop := ∀ t ∈ ts.head?, p t = true

/-- Whether the next token, if there is one, does not satisfy `p`. -/
def NotNext (p : Token → Bool) (ts : List Token) : Prop := ∀ t ∈ ts.head?, p t = false

/-- The tokens without the line breaks at the front. -/
abbrev pastBreaks (ts : List Token) : List Token := ts.dropWhile Token.isNewline

/-- The tokens without the separators at the front. -/
abbrev pastSeparators (ts : List Token) : List Token := ts.dropWhile Parser.isSeparator

/-! ### Names and lists -/

/-- A name that is not a keyword. -/
def Identifier : Phrase String := fun ts name rest =>
  ∃ t, ts = t :: rest ∧ t.kind = .name name ∧ isKeyword name = false

/-- One or more items with commas between them, and the closing symbol. -/
inductive Commas {α : Type} (Item : Phrase α) (closing : String) : Phrase (List α)
  | last {ts mid rest : List Token} {a : α} {close : Token} (item : Item ts a mid)
      (after : pastBreaks mid = close :: rest) (closes : close.kind = .symbol closing) :
      Commas Item closing ts [a] rest
  | more {ts mid mid' rest : List Token} {a : α} {as : List α} {comma : Token}
      (item : Item ts a mid) (after : pastBreaks mid = comma :: mid')
      (separates : comma.kind = .symbol ",")
      (others : Commas Item closing (pastBreaks mid') as rest) :
      Commas Item closing ts (a :: as) rest

/-- Any number of items with commas between them, and the closing symbol. -/
inductive CommaList {α : Type} (Item : Phrase α) (closing : String) : Phrase (List α)
  | empty {ts rest : List Token} {close : Token} (after : pastBreaks ts = close :: rest)
      (closes : close.kind = .symbol closing) : CommaList Item closing ts [] rest
  | items {ts rest : List Token} {as : List α} (opens : NotNext (·.isSymbol closing) (pastBreaks ts))
      (list : Commas Item closing (pastBreaks ts) as rest) : CommaList Item closing ts as rest

section

variable (R : Goal → Phrase Node)

/-! ### Blocks and functions -/

/-- Statements up to the end of their list, with separators anywhere between them. -/
inductive Statements : Phrase (List Node)
  | done {ts : List Token} (ends : Next Parser.endsList (pastSeparators ts)) :
      Statements ts [] (pastSeparators ts)
  | more {ts mid rest : List Token} {t : Token} {ts' : List Token} {node : Node}
      {nodes : List Node} (first : pastSeparators ts = t :: ts')
      (continues : Parser.endsList t = false) (statement : R .statement (t :: ts') node mid)
      (others : Statements mid nodes rest) : Statements ts (node :: nodes) rest

/-- Statements between braces, after any number of line breaks. -/
def Block : Phrase (List Node) := fun ts body rest =>
  ∃ opening closing mid, pastBreaks ts = opening :: mid ∧ opening.kind = .symbol "\x7b" ∧
    Statements R mid body (closing :: rest) ∧ closing.kind = .symbol "\x7d"

/-- The parameters in parentheses and the body of a function. -/
def Signature : Phrase (List String × List Node) := fun ts f rest =>
  ∃ opening mid mid', ts = opening :: mid ∧ opening.kind = .symbol "(" ∧
    CommaList Identifier ")" mid f.1 mid' ∧ Block R mid' f.2 rest

/-- A function after its keyword: an optional name, and its signature. -/
inductive Function : Phrase FunctionParts
  | anonymous {ts rest : List Token} {params : List String} {body : List Node}
      (signature : Signature R ts (params, body) rest) : Function ts ⟨none, params, body⟩ rest
  | named {ts mid rest : List Token} {name : String} {params : List String} {body : List Node}
      (identifier : Identifier ts name mid) (signature : Signature R mid (params, body) rest) :
      Function ts ⟨some name, params, body⟩ rest

/-! ### Expressions -/

/-- An operand of a run. -/
inductive Operand : Phrase Node
  | int {t : Token} {rest : List Token} {value : Word} (kind : t.kind = .int value) :
      Operand (t :: rest) (.constant (.int value) t.line) rest
  | float {t : Token} {rest : List Token} {value : Float} (kind : t.kind = .float value) :
      Operand (t :: rest) (.constant (.float value) t.line) rest
  | str {t : Token} {rest : List Token} {value : String} (kind : t.kind = .str value) :
      Operand (t :: rest) (.constant (.str value) t.line) rest
  | function {t : Token} {ts rest : List Token} {f : FunctionParts}
      (kind : t.kind = .name "func") (parts : Function R ts f rest) :
      Operand (t :: ts) (.function f.name f.params f.body t.line) rest
  | call {t opening : Token} {ts rest : List Token} {text : String} {arguments : List Node}
      (kind : t.kind = .name text) (free : isKeyword text = false)
      (opens : opening.kind = .symbol "(")
      (list : CommaList (R (.run .element)) ")" ts arguments rest) :
      Operand (t :: opening :: ts) (.call (.reference text t.line) arguments t.line) rest
  | reference {t : Token} {rest : List Token} {text : String} (kind : t.kind = .name text)
      (free : isKeyword text = false) (plain : NotNext (·.isSymbol "(") rest) :
      Operand (t :: rest) (.reference text t.line) rest
  | group {t close : Token} {ts mid rest : List Token} {inner : Node}
      (kind : t.kind = .symbol "(") (run : R (.run .nested) ts inner mid)
      (after : pastBreaks mid = close :: rest) (closes : close.kind = .symbol ")") :
      Operand (t :: ts) inner rest
  | empty {t : Token} {ts rest : List Token} (kind : t.kind = .symbol "[")
      (list : CommaList (R (.run .element)) "]" ts [] rest) :
      Operand (t :: ts) (.constant .empty t.line) rest
  | list {t : Token} {ts rest : List Token} {elements : List Node} (kind : t.kind = .symbol "[")
      (list : CommaList (R (.run .element)) "]" ts elements rest) (some : elements ≠ []) :
      Operand (t :: ts) (.operation "$list" elements t.line) rest

/-- The items of a run, or of the rest of one after an operand.  `started` tells whether an item
stands before them. -/
inductive Items (mode : Mode) : (operandDue started : Bool) → Phrase (List Item)
  | done {ts : List Token} (stops : ∀ t ∈ ts.head?, Parser.continuation mode t.kind = .stop) :
      Items mode false true ts [] ts
  | lineBreak {started : Bool} {t : Token} {ts rest : List Token} {items : List Item}
      (kind : t.kind = .newline) (skips : mode ≠ .statement ∨ started = true)
      (others : Items mode true started ts items rest) : Items mode true started (t :: ts) items rest
  | plus {started : Bool} {t : Token} {ts rest : List Token} {items : List Item}
      (kind : t.kind = .symbol "+") (others : Items mode true started ts items rest) :
      Items mode true started (t :: ts) items rest
  | before {started : Bool} {t : Token} {ts rest : List Token} {items : List Item}
      {text name : String} (kind : t.kind = .symbol text)
      (operator : Parser.prefixName? text = some name) (meaning : name ≠ "+")
      (others : Items mode true true ts items rest) :
      Items mode true started (t :: ts) (.operator name .before t.line :: items) rest
  | operand {started : Bool} {ts mid rest : List Token} {items : List Item} {node : Node}
      (operand : Operand R ts node mid) (others : Items mode false true mid items rest) :
      Items mode true started ts (.operand node :: items) rest
  | ignored {t : Token} {ts rest : List Token} {items : List Item} (kind : t.kind = .newline)
      (skips : mode ≠ .statement) (others : Items mode false true ts items rest) :
      Items mode false true (t :: ts) items rest
  | after {t : Token} {ts rest : List Token} {items : List Item} {text : String}
      (kind : t.kind = .symbol text) (operator : text = "++" ∨ text = "--")
      (others : Items mode false true ts items rest) :
      Items mode false true (t :: ts) (.operator text .after t.line :: items) rest
  | index {t close : Token} {ts mid rest : List Token} {items : List Item} {index : Node}
      (kind : t.kind = .symbol "[") (run : R (.run .nested) ts index (close :: mid))
      (closes : close.kind = .symbol "]") (others : Items mode false true mid items rest) :
      Items mode false true (t :: ts)
        (.operator "[" .between t.line :: .operand index :: items) rest
  | between {t : Token} {ts rest : List Token} {items : List Item} {text : String}
      (kind : t.kind = .symbol text) (operator : Parser.symbolContinuation mode text = .between)
      (others : Items mode true true ts items rest) :
      Items mode false true (t :: ts) (.operator text .between t.line :: items) rest

/-- A run: items that add up to one tree. -/
def Run (mode : Mode) : Phrase Node := fun ts node rest =>
  ∃ items line, Items R mode true false ts items rest ∧
    Item.buildTree (Item.postOrder items) line = .ok node

/-! ### Definitions -/

/-- The rest of `var`: a name, and an optional value. -/
inductive Variable (line : Nat) : Phrase Node
  | plain {ts rest : List Token} {name : String} (identifier : Identifier ts name rest)
      (bare : NotNext (·.isSymbol "=") rest) :
      Variable line ts (.definition name (.reference "null" line) line) rest
  | valued {ts mid rest : List Token} {name : String} {equals : Token} {value : Node}
      (identifier : Identifier ts name (equals :: mid)) (kind : equals.kind = .symbol "=")
      (run : R (.run .statement) mid value rest) :
      Variable line ts (.definition name value line) rest

/-- The rest of a named function. -/
def NamedFunction (line : Nat) : Phrase Node := fun ts node rest =>
  ∃ name params body, Function R ts ⟨some name, params, body⟩ rest ∧
    node = .definition name (.function (some name) params body line) line

/-! ### Branches -/

/-- What follows the body of an `if`. -/
inductive Otherwise : Phrase (Option (List Node))
  | absent {ts : List Token} (bare : NotNext (·.isName "else") (pastBreaks ts)) :
      Otherwise ts none ts
  | chain {ts mid rest : List Token} {word next : Token} {inner : Node}
      (after : pastBreaks ts = word :: next :: mid) (kind : word.kind = .name "else")
      (again : next.kind = .name "if") (conditional : R (.conditional next.line) mid inner rest) :
      Otherwise ts (some [inner]) rest
  | block {ts mid rest : List Token} {word : Token} {body : List Node}
      (after : pastBreaks ts = word :: mid) (kind : word.kind = .name "else")
      (block : Block R mid body rest) : Otherwise ts (some body) rest

/-- The rest of `if`. -/
def Conditional (line : Nat) : Phrase Node := fun ts node rest =>
  ∃ condition body other mid mid', R (.run .statement) ts condition mid ∧
    Block R mid body mid' ∧ Otherwise R mid' other rest ∧
    node = .conditional condition body other line

/-- The values of a `case`. -/
inductive CaseValues : Phrase (List Node)
  | last {ts rest : List Token} {value : Node} (run : R (.run .element) ts value rest)
      (ends : NotNext (·.isSymbol ",") rest) : CaseValues ts [value] rest
  | more {ts mid rest : List Token} {comma : Token} {value : Node} {values : List Node}
      (run : R (.run .element) ts value (comma :: mid)) (kind : comma.kind = .symbol ",")
      (others : CaseValues mid values rest) : CaseValues ts (value :: values) rest

/-- The arms of a switch and its closing brace.  Of several `default` arms the last counts. -/
inductive SwitchArms : Phrase (List (Arm Node) × Option (List Node))
  | done {ts rest : List Token} {close : Token} (after : pastSeparators ts = close :: rest)
      (closes : close.kind = .symbol "\x7d") : SwitchArms ts ([], none) rest
  | case {ts mid mid' mid'' rest : List Token} {word colon : Token} {values body : List Node}
      {cases : List (Arm Node)} {fallback : Option (List Node)}
      (after : pastSeparators ts = word :: mid) (kind : word.kind = .name "case")
      (list : CaseValues R mid values (colon :: mid')) (opens : colon.kind = .symbol ":")
      (block : Statements R mid' body mid'') (others : SwitchArms mid'' (cases, fallback) rest) :
      SwitchArms ts (⟨values, body, word.line⟩ :: cases, fallback) rest
  | fallback {ts mid mid' rest : List Token} {word colon : Token} {body : List Node}
      {cases : List (Arm Node)} {fallback : Option (List Node)}
      (after : pastSeparators ts = word :: colon :: mid) (kind : word.kind = .name "default")
      (opens : colon.kind = .symbol ":") (block : Statements R mid body mid')
      (others : SwitchArms mid' (cases, fallback) rest) :
      SwitchArms ts (cases, fallback.or (some body)) rest

/-- The rest of `switch`. -/
def Switch (line : Nat) : Phrase Node := fun ts node rest =>
  ∃ subject cases fallback opening mid mid', R (.run .statement) ts subject mid ∧
    pastBreaks mid = opening :: mid' ∧ opening.kind = .symbol "\x7b" ∧
    SwitchArms R mid' (cases, fallback) rest ∧ node = .switch subject cases fallback line

/-! ### Loops -/

/-- The rest of `while`. -/
def While (line : Nat) : Phrase Node := fun ts node rest =>
  ∃ condition body mid, R (.run .statement) ts condition mid ∧ Block R mid body rest ∧
    node = .whileLoop condition body line

/-- The optional step of a range. -/
inductive Step : Phrase (Option Node)
  | absent {ts : List Token} (bare : NotNext (·.isName "step") ts) : Step ts none ts
  | present {t : Token} {ts rest : List Token} {step : Node} (kind : t.kind = .name "step")
      (run : R (.run .statement) ts step rest) : Step (t :: ts) (some step) rest

/-- What follows the name and the word `in` of a loop. -/
inductive LoopTail (name : String) (line : Nat) : Phrase Node
  | range {ts mid mid' mid'' rest : List Token} {dots : Token} {start limit : Node} {closed : Bool}
      {step : Option Node} {body : List Node} (run : R (.run .statement) ts start (dots :: mid))
      (kind : dots.kind = .symbol (if closed then "..=" else ".."))
      (upTo : R (.run .statement) mid limit mid') (by_ : Step R mid' step mid'')
      (block : Block R mid'' body rest) :
      LoopTail name line ts (.rangeLoop name start limit closed step body line) rest
  | each {ts mid rest : List Token} {collection : Node} {body : List Node}
      (run : R (.run .statement) ts collection mid) (block : Block R mid body rest) :
      LoopTail name line ts (.eachLoop name collection body line) rest

/-- The rest of `for`. -/
def For (line : Nat) : Phrase Node := fun ts node rest =>
  ∃ name word mid, Identifier ts name (word :: mid) ∧ word.kind = .name "in" ∧
    LoopTail R name line mid node rest

/-! ### Statements -/

/-- Whether nothing more of a statement follows. -/
def ends (t : Token) : Bool := Parser.isSeparator t || Parser.endsList t

/-- The rest of `return`. -/
inductive GiveBack (line : Nat) : Phrase Node
  | plain {ts : List Token} (stops : Next ends ts) : GiveBack line ts (.giveBack none line) ts
  | valued {t : Token} {ts rest : List Token} {value : Node} (continues : ends t = false)
      (run : R (.run .statement) (t :: ts) value rest) :
      GiveBack line (t :: ts) (.giveBack (some value) line) rest

/-- What stands after a statement that does not end in a block: a separator, or the end of the
list, which is left. -/
inductive Close : List Token → List Token → Prop
  | separator {t : Token} {rest : List Token} (separates : Parser.isSeparator t = true) :
      Close (t :: rest) rest
  | list {ts : List Token} (bare : NotNext Parser.isSeparator ts)
      (stops : Next Parser.endsList ts) : Close ts ts

/-- What stands after a statement that ends in a block: possibly a separator. -/
inductive BlockClose : List Token → List Token → Prop
  | separator {t : Token} {rest : List Token} (separates : Parser.isSeparator t = true) :
      BlockClose (t :: rest) rest
  | bare {ts : List Token} (none : NotNext Parser.isSeparator ts) : BlockClose ts ts

/-- Whether a word starts a construct of its own, and not an expression. -/
def startsConstruct (word : String) (rest : List Token) : Bool :=
  match word with
  | "func" => !Parser.startsParameters rest
  | "var" | "if" | "while" | "for" | "switch" | "break" | "continue" | "fallthrough" | "return" =>
    true
  | _ => false

/-- A construct with a keyword of its own, after the keyword, that ends in a block. -/
inductive BlockConstruct : (word : String) → (line : Nat) → Phrase Node
  | function {line : Nat} {ts rest : List Token} {node : Node}
      (named : Parser.startsParameters ts = false) (parts : NamedFunction R line ts node rest) :
      BlockConstruct "func" line ts node rest
  | conditional {line : Nat} {ts rest : List Token} {node : Node}
      (parts : Conditional R line ts node rest) : BlockConstruct "if" line ts node rest
  | whileLoop {line : Nat} {ts rest : List Token} {node : Node}
      (parts : While R line ts node rest) : BlockConstruct "while" line ts node rest
  | forLoop {line : Nat} {ts rest : List Token} {node : Node}
      (parts : For R line ts node rest) : BlockConstruct "for" line ts node rest
  | switch {line : Nat} {ts rest : List Token} {node : Node}
      (parts : Switch R line ts node rest) : BlockConstruct "switch" line ts node rest

/-- A construct with a keyword of its own, after the keyword, that does not end in a block. -/
inductive PlainConstruct : (word : String) → (line : Nat) → Phrase Node
  | definition {line : Nat} {ts rest : List Token} {node : Node}
      (parts : Variable R line ts node rest) : PlainConstruct "var" line ts node rest
  | breakOut {line : Nat} {ts : List Token} : PlainConstruct "break" line ts (.breakOut line) ts
  | continueOn {line : Nat} {ts : List Token} :
      PlainConstruct "continue" line ts (.continueOn line) ts
  | fallThrough {line : Nat} {ts : List Token} :
      PlainConstruct "fallthrough" line ts (.fallThrough line) ts
  | giveBack {line : Nat} {ts rest : List Token} {node : Node}
      (parts : GiveBack R line ts node rest) : PlainConstruct "return" line ts node rest

/-- A statement. -/
inductive Statement : Phrase Node
  | blocked {t : Token} {ts mid rest : List Token} {word : String} {node : Node}
      (kind : t.kind = .name word) (construct : BlockConstruct R word t.line ts node mid)
      (close : BlockClose mid rest) : Statement (t :: ts) node rest
  | plain {t : Token} {ts mid rest : List Token} {word : String} {node : Node}
      (kind : t.kind = .name word) (construct : PlainConstruct R word t.line ts node mid)
      (close : Close mid rest) : Statement (t :: ts) node rest
  | expression {t : Token} {ts mid rest : List Token} {node : Node}
      (other : startsConstruct (Parser.leadingWord t.kind) ts = false)
      (run : R (.run .statement) (t :: ts) node mid) (close : Close mid rest) :
      Statement (t :: ts) node rest

/-- A whole program: statements up to the end of the text. -/
def Program : Phrase (List Node) := fun ts nodes rest =>
  Statements R ts nodes rest ∧ Next Token.isFinish rest

end

/-! ### Closing the recursion -/

/-- The phrases that nest at most `n` levels of the grammar. -/
def Level : (n : Nat) → Goal → Phrase Node
  | 0, _ => fun _ _ _ => False
  | n + 1, .run mode => Run (Level n) mode
  | n + 1, .statement => Statement (Level n)
  | n + 1, .conditional line => Conditional (Level n) line

/-- The phrases of the grammar. -/
def Reads (goal : Goal) : Phrase Node := fun ts node rest => ∃ n, Level n goal ts node rest

end Grammar

end PairScript
