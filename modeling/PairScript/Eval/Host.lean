import PairScript.Eval.Cause

/-!
# The host

What a program can reach outside of itself: a text that collects its output, and the bytes it has
not read yet.  A host may refuse to take output, which the program sees as a fault.

* Writing an empty text asks nothing of a host that refuses writes.
* A host that refuses flushes has taken the text before it refuses.
* A line that is not UTF-8 is consumed before it is reported.
-/

namespace PairScript

/-- What a host does with output. -/
inductive Sink where
  | accepting
  | refusingWrites
  | refusingFlushes
deriving Repr, DecidableEq

/-- The outside world of a program. -/
structure Host where
  /-- Everything written so far. -/
  output : String
  /-- The bytes that are not read yet. -/
  input : List UInt8
  sink : Sink

namespace Host

/-- A host that takes all output and has the given input. -/
def ofInput (input : List UInt8) : Host := ⟨"", input, .accepting⟩

/-- Writes a text and flushes. -/
def write (text : String) (h : Host) : Except HostFailure Unit × Host :=
  match h.sink with
  | .accepting => (.ok (), { h with output := h.output ++ text })
  | .refusingWrites => if text.isEmpty then (.ok (), h) else (.error .writeRefused, h)
  | .refusingFlushes => (.error .flushRefused, { h with output := h.output ++ text })

/-- Writes a text and a line break, and flushes. -/
def writeLine (text : String) (h : Host) : Except HostFailure Unit × Host :=
  h.write (text ++ "\n")

/-- The byte that ends a line. -/
def newlineByte : UInt8 := 10

/-- Cuts the first line off, with its line break. -/
def cutLine (bytes : List UInt8) : List UInt8 × List UInt8 :=
  let body := bytes.takeWhile (· != newlineByte)
  match bytes.dropWhile (· != newlineByte) with
  | [] => (body, [])
  | b :: rest => (body ++ [b], rest)

/-- Drops the line breaks and carriage returns at the end. -/
def trimEnd (cs : List Char) : List Char :=
  (cs.reverse.dropWhile fun c => c == '\n' || c == '\r').reverse

/-- The text of some bytes, if they are UTF-8. -/
def decode? (bytes : List UInt8) : Option String := String.fromUTF8? ⟨bytes.toArray⟩

/-- Reads a line, without what ends it; `none` if no input is left. -/
def readLine (h : Host) : Except HostFailure (Option String) × Host :=
  if h.input.isEmpty then (.ok none, h)
  else
    let (line, rest) := cutLine h.input
    let h := { h with input := rest }
    match decode? line with
    | some text => (.ok (some (String.ofList (trimEnd text.toList))), h)
    | none => (.error .invalidText, h)

end Host

end PairScript
