import PairScript.Decimal.Read
import PairScript.Syntax.Cause

/-!
# Segments: the pieces of a program text

A text splits into consecutive segments: blanks, single line breaks, comments, names, numbers,
string literals and operators.  `Segment.next` takes the first segment off a text, always the
longest one of its kind; `split` repeats this to the end or to the first literal that is not one.
No character is dropped: the texts of the segments, one after the other, are the text.

A segment also says what it contributes to the token list (`Segment.Image`), and how many line
breaks were counted on reading it: in string literals, where they stand for themselves or are
escaped, in block comments, and of course at the ends of lines.  All others have none.
-/

namespace PairScript

/-- Number of line breaks in a text. -/
def Token.lineBreaks (cs : List Char) : Nat := cs.count '\n'

/-- What a segment contributes to the list of tokens. -/
inductive Segment.Image where
  /-- Nothing: blanks and comments. -/
  | gap
  /-- A line break, which may be folded into the one before it. -/
  | lineBreak
  | token (kind : Token.Kind)
deriving DecidableEq

/-- A piece of the text and its contribution. -/
structure Segment where
  text : List Char
  image : Segment.Image
  /-- The line breaks that were counted on reading it. -/
  breaks : Nat
deriving DecidableEq

namespace Segment

/-! ### Character classes -/

/-- Characters up to the space that are not line breaks. -/
def isBlank (c : Char) : Bool := c.toNat ≤ 32 && c != '\n'

/-- Characters that start a name. -/
def isNameStart (c : Char) : Bool := c.isAlpha || c == '_' || c == '$' || c == '@'

/-- Characters that continue a name. -/
def isNamePart (c : Char) : Bool := c.isAlphanum || c == '_'

/-- Characters that continue a number: digits and separators. -/
def isNumberPart (c : Char) : Bool := c.isDigit || c == '_'

/-- The three delimiters of string literals. -/
def isQuote (c : Char) : Bool := c == '\x27' || c == '\x22' || c == '\x60'

/-! ### Numbers -/

/-- The fraction at the front of `cs`: a point followed by a digit, and all digits and separators
after it.  A point without a digit after it is no fraction. -/
def fraction : List Char → List Char
  | '.' :: d :: r => if d.isDigit then '.' :: d :: r.takeWhile isNumberPart else []
  | _ => []

/-- The value of a number as written, separators dropped. -/
def numberKind? (text : List Char) : Option Token.Kind :=
  let digits := text.filter (· != '_')
  if digits.contains '.' then (Decimal.readMagnitude? digits).map .float
  else (Word.ofInt? (Word.digitsValue digits)).map .int

/-! ### Strings -/

/-- The character that an escaped character stands for. -/
def unescape : Char → Char
  | 'b' => '\x08'
  | 'f' => '\x0c'
  | 'n' => '\n'
  | 'r' => '\r'
  | 't' => '\t'
  | c => c

/-- Whether a character may stand unescaped in a literal with delimiter `quote`: anything between
backquotes, and everything but controls other than the tab between the other two. -/
def mayStandIn (quote c : Char) : Bool := quote == '\x60' || 32 ≤ c.toNat || c == '\t'

/-- The rest of a string literal after its opening delimiter. -/
structure Literal where
  /-- The characters that the literal denotes. -/
  value : List Char
  /-- The characters as written, closing delimiter included. -/
  text : List Char
  /-- The line breaks among them. -/
  breaks : Nat
  /-- What follows the literal. -/
  rest : List Char
deriving DecidableEq

/-- Puts a character in front of a literal. -/
def Literal.push (value : Char) (text : List Char) (breaks : Nat) (l : Literal) : Literal :=
  ⟨value :: l.value, text ++ l.text, breaks + l.breaks, l.rest⟩

/-- What a character adds to the line breaks of a literal. -/
def breakCount (c : Char) : Nat := if c = '\n' then 1 else 0

/-- Reads up to the closing delimiter; `none` if the literal does not end.  A line break counts
where it is escaped, and where it stands for itself. -/
def literal? (quote : Char) : List Char → Option Literal
  | [] => none
  | c :: r =>
    if c = quote then some ⟨[], [c], 0, r⟩
    else if c = '\\' then
      match r with
      | [] => none
      | e :: r' => (literal? quote r').map (Literal.push (unescape e) [c, e] (breakCount e))
    else if mayStandIn quote c then (literal? quote r).map (Literal.push c [c] (breakCount c))
    else none

/-! ### Comments -/

/-- The rest of a block comment: up to and including the first `*/`, or everything. -/
def blockComment : List Char → List Char × List Char
  | [] => ([], [])
  | '*' :: '/' :: r => (['*', '/'], r)
  | c :: r =>
    let (text, rest) := blockComment r
    (c :: text, rest)

/-! ### Operators -/

/-- What may follow the first character of an operator. -/
def suffixes : Char → List (List Char)
  | '+' => [['+'], ['=']]
  | '-' => [['-'], ['=']]
  | '*' => [['*'], ['=']]
  | '/' => [['='], ['.']]
  | '%' => [['=']]
  | '=' => [['=']]
  | '!' => [['=']]
  | '<' => [['<'], ['=']]
  | '>' => [['>'], ['>', '>'], ['=']]
  | '&' => [['&']]
  | '|' => [['|']]
  | ':' => [['=']]
  | '.' => [['.'], ['.', '=']]
  | _ => []

/-- Extends `taken` with characters of the text as long as the result is in the table. -/
def longestSuffix (table : List (List Char)) (taken : List Char) : List Char → List Char
  | [] => taken
  | c :: r =>
    if table.contains (taken ++ [c]) then longestSuffix table (taken ++ [c]) r else taken

/-! ### The first segment of a text -/

/-- A literal that is not one. -/
inductive Failure where
  | unterminatedString
  | invalidNumber (literal : List Char)
deriving DecidableEq

/-- The cause that a failure is reported as. -/
def Failure.cause : Failure → SyntaxCause
  | .unterminatedString => .unterminatedString
  | .invalidNumber literal => .invalidNumber (String.ofList literal)

/-- The first segment of the text `c :: r`, and the text after it. -/
def next (c : Char) (r : List Char) : Except Failure (Segment × List Char) :=
  if c = '\n' then .ok (⟨[c], .lineBreak, 1⟩, r)
  else if isBlank c then
    .ok (⟨c :: r.takeWhile isBlank, .gap, 0⟩, r.dropWhile isBlank)
  else if isNameStart c then
    let text := c :: r.takeWhile isNamePart
    .ok (⟨text, .token (.name (String.ofList text)), 0⟩, r.dropWhile isNamePart)
  else if c.isDigit then
    let whole := c :: r.takeWhile isNumberPart
    let tail := r.dropWhile isNumberPart
    let part := fraction tail
    let text := whole ++ part
    match numberKind? text with
    | some kind => .ok (⟨text, .token kind, 0⟩, tail.drop part.length)
    | none => .error (.invalidNumber text)
  else if isQuote c then
    match literal? c r with
    | some l => .ok (⟨c :: l.text, .token (.str (String.ofList l.value)), l.breaks⟩, l.rest)
    | none => .error .unterminatedString
  else
    match c, r with
    | '/', '/' :: r' =>
      .ok (⟨'/' :: '/' :: r'.takeWhile (· != '\n'), .gap, 0⟩, r'.dropWhile (· != '\n'))
    | '/', '*' :: r' =>
      let (body, rest) := blockComment r'
      .ok (⟨'/' :: '*' :: body, .gap, Token.lineBreaks body⟩, rest)
    | _, _ =>
      let suffix := longestSuffix (suffixes c) [] r
      .ok (⟨c :: suffix, .token (.symbol (String.ofList (c :: suffix))), 0⟩, r.drop suffix.length)

/-! ### All segments of a text -/

/-- The segments of a text up to its end or its first failure, at most `bound` of them. -/
def splitWithin : (bound : Nat) → List Char → List Segment × Option Failure
  | _, [] => ([], none)
  | 0, _ :: _ => ([], none)
  | bound + 1, c :: r =>
    match next c r with
    | .error f => ([], some f)
    | .ok (s, rest) =>
      let (ss, f) := splitWithin bound rest
      (s :: ss, f)

/-- The segments of a text up to its end or its first failure.  Each segment has at least one
character, so the length of the text bounds their number. -/
def split (cs : List Char) : List Segment × Option Failure := splitWithin cs.length cs

end Segment

end PairScript
