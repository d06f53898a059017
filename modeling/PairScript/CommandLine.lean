import PairScript.Program
import PairScript.Syntax.Outline
import PairScript.Value.Text

/-!
# The command line

What the command line does, without doing it: `Options.read?` reads the arguments,
`Options.report` says what is written to the two output streams and which code the process ends
with.  `PairScript.Main` does the reading and writing.
-/

namespace PairScript.CommandLine

/-! ### Arguments -/

/-- What the arguments ask for. -/
structure Options where
  /-- The argument is the path of a script instead of a script. -/
  file : Bool
  /-- List the tokens before running. -/
  tokens : Bool
  /-- Show the syntax tree before running. -/
  ast : Bool
  /-- The limit on the number of calls in progress. -/
  maxDepth : Nat
  contents : String
deriving Repr, DecidableEq

/-- The arguments as far as they have been read.  Each may be given once. -/
structure Draft where
  file : Bool
  tokens : Bool
  ast : Bool
  maxDepth : Option Nat
  contents : Option String
deriving Repr, DecidableEq

namespace Draft

/-- Nothing read yet. -/
def empty : Draft := ⟨false, false, false, none, none⟩

/-- Adds `--file`. -/
def withFile (d : Draft) : Option Draft :=
  if d.file then none else some { d with file := true }

/-- Adds `--tokens`. -/
def withTokens (d : Draft) : Option Draft :=
  if d.tokens then none else some { d with tokens := true }

/-- Adds `--ast`. -/
def withAst (d : Draft) : Option Draft :=
  if d.ast then none else some { d with ast := true }

/-- Reads an unsigned 64-bit number, with an optional plus sign. -/
def readLimit? (text : String) : Option Nat :=
  let ds := match text.toList with
    | '+' :: r => r
    | r => r
  if ds.isEmpty || !ds.all Char.isDigit then none
  else
    let n := Word.digitsValue ds
    if n ≤ 18446744073709551615 then some n else none

/-- Adds a limit. -/
def withMaxDepth (text : String) (d : Draft) : Option Draft :=
  match d.maxDepth, readLimit? text with
  | none, some n => some { d with maxDepth := some n }
  | _, _ => none

/-- Adds the script or its path. -/
def withContents (text : String) (d : Draft) : Option Draft :=
  match d.contents with
  | none => some { d with contents := some text }
  | some _ => none

/-- What the arguments ask for; the script or its path must be there. -/
def finish? (d : Draft) : Option Options :=
  d.contents.map fun contents =>
    ⟨d.file, d.tokens, d.ast, d.maxDepth.getD defaultLimit, contents⟩

end Draft

/-- The value of an argument of the form `--max-depth=value`. -/
def limitValue? (arg : String) : Option String :=
  let mark := "--max-depth=".toList
  let cs := arg.toList
  if mark.isPrefixOf cs then some (String.ofList (cs.drop mark.length)) else none

/-- Whether an argument has the form of an option. -/
def looksLikeOption (arg : String) : Bool :=
  match arg.toList with
  | '-' :: _ :: _ => true
  | _ => false

/-- Reads arguments that cannot be options. -/
def readContents (d : Draft) : List String → Option Draft
  | [] => some d
  | arg :: rest => do readContents (← d.withContents arg) rest

/-- Reads the arguments one by one. -/
def readFrom (d : Draft) : List String → Option Draft
  | [] => some d
  | "--" :: rest => readContents d rest
  | "-f" :: rest => do readFrom (← d.withFile) rest
  | "--file" :: rest => do readFrom (← d.withFile) rest
  | "--tokens" :: rest => do readFrom (← d.withTokens) rest
  | "--ast" :: rest => do readFrom (← d.withAst) rest
  | "--max-depth" :: value :: rest => do
    if looksLikeOption value then none else readFrom (← d.withMaxDepth value) rest
  | arg :: rest => do
    match limitValue? arg with
    | some value => readFrom (← d.withMaxDepth value) rest
    | none =>
      if looksLikeOption arg then none else readFrom (← d.withContents arg) rest

/-- Reads the arguments; `none` if they are no use. -/
def Options.read? (args : List String) : Option Options := do
  (← readFrom Draft.empty args).finish?

/-! ### Reports -/

/-- What a process writes, and how it ends. -/
structure Report where
  code : UInt8
  stdout : String
  stderr : String
deriving Repr, DecidableEq

/-- The code of a process whose arguments are no use. -/
def usageCode : UInt8 := 2

/-- The reason that the operating system gives by a code. -/
def systemReason (details : String) (code : Nat) : String :=
  details ++ " (os error " ++ toString code ++ ")"

/-- The reason why a file that is not there cannot be read. -/
def missingFile : String := systemReason "No such file or directory" 2

/-- The text of a script, or the reason why its bytes are no text. -/
def scriptText (bytes : List UInt8) : Except String String :=
  match Host.decode? bytes with
  | some text => .ok text
  | none => .error HostFailure.invalidText.describe

/-- The report on a script that cannot be read. -/
def unreadable (path reason : String) : Report :=
  ⟨1, "", "Failed to read the input file '" ++ path ++ "': " ++ reason ++ "\n"⟩

/-- A number in a column of the given width. -/
def rightAligned (width n : Nat) : String :=
  let digits := Nat.toDigits 10 n
  String.ofList (List.replicate (width - digits.length) ' ' ++ digits)

/-- The listing of some tokens. -/
def tokenListing (tokens : List Token) : String :=
  String.join <| tokens.map fun t => rightAligned 4 t.line ++ "  " ++ t.kind.describe ++ "\n"

/-- What is written about the result of a script: nothing about `null`. -/
def resultLine : Value → String
  | .null => ""
  | v => v.text ++ "\n"

/-- The report on a script that failed after some output. -/
def failed (stdout : String) (failure : Failure) : Report :=
  ⟨1, stdout, failure.message ++ "\n"⟩

/-- The report on running a script with the given input. -/
def Options.execute (o : Options) (script : String) (input : List UInt8) : Report :=
  match tokenize script with
  | .error f => failed "" (.rejected (.fault f))
  | .ok tokens =>
    let listing := if o.tokens then tokenListing tokens else ""
    match parse tokens with
    | .error halt => failed listing (.rejected halt)
    | .ok nodes =>
      let tree := if o.ast then (programOutline nodes).render ++ "\n" else ""
      let machine := Machine.start (Host.ofInput input) o.maxDepth
      let (result, machine) := resultOf (Eval.runFresh nodes machine)
      let written := listing ++ tree ++ machine.host.output
      match result with
      | .ok v => ⟨0, written ++ resultLine v, ""⟩
      | .error failure => failed written failure

/-- The report on what the arguments ask for, `bytes` being the script file or the reason why it
cannot be read. -/
def Options.report (o : Options) (bytes : Except String (List UInt8)) (input : List UInt8) :
    Report :=
  if o.file then
    match bytes.bind scriptText with
    | .ok script => o.execute script input
    | .error reason => unreadable o.contents reason
  else o.execute o.contents input

end PairScript.CommandLine
