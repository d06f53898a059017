import PairScript.Token.Segment

/-!
# From text to tokens

`tokenize` splits a text into segments, gives every token the line its segment starts on, and
folds runs of line breaks into one token.  Line breaks before the first token give none.

Lines are counted as the segments are read.  There are two counters, for a token is put out with
the line it starts on, while the line breaks in it are found before that.
-/

namespace PairScript

/-- The counters of lines. -/
structure Counters where
  /-- The line on which the token starts that is read, or read next. -/
  line : Nat
  /-- The line breaks in a token that is read but not put out yet. -/
  pending : Nat
deriving DecidableEq

namespace Counters

/-- The counters at the start of a text. -/
def start : Counters := ⟨1, 0⟩

/-- Reads a segment.  A gap gives no token, so the next one starts past its line breaks. -/
def read (k : Counters) (s : Segment) : Counters :=
  match s.image with
  | .gap => { k with line := k.line + s.breaks }
  | .lineBreak | .token _ => { k with pending := k.pending + s.breaks }

/-- Puts out what is read. -/
def settle (k : Counters) : Counters := ⟨k.line + k.pending, 0⟩

end Counters

namespace Token

/-- The tokens of a list of segments, and the counters after them.  While `folding`, a line break
gives no token. -/
def emit (k : Counters) (folding : Bool) : List Segment → List Token × Counters
  | [] => ([], k)
  | s :: rest =>
    let read := k.read s
    match s.image with
    | .gap => emit read folding rest
    | .lineBreak =>
      if folding then emit read.settle true rest
      else
        let (ts, last) := emit read.settle true rest
        (⟨.newline, read.line⟩ :: ts, last)
    | .token kind =>
      let (ts, last) := emit read.settle false rest
      (⟨kind, read.line⟩ :: ts, last)

end Token

/-- The tokens of a text, the last of which is its `finish` token.  A literal that is not one
stops the reading and is blamed on the line it starts on. -/
def tokenize (source : String) : Except SyntaxFault (List Token) :=
  let (segments, failure) := Segment.split source.toList
  let (tokens, counters) := Token.emit .start true segments
  match failure with
  | some f => .error ⟨f.cause, counters.line⟩
  | none => .ok (tokens ++ [⟨.finish, counters.line⟩])

end PairScript
