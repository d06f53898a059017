import PairScript.CommandLine

/-!
# The program

Reads the arguments, the script and the standard input, and writes what
`PairScript.CommandLine` says.
-/

namespace PairScript.CommandLine

/-- Everything that is left to read from a stream. -/
partial def readAll (stream : IO.FS.Stream) (acc : ByteArray) : IO ByteArray := do
  let chunk ← stream.read 65536
  if chunk.isEmpty then return acc else readAll stream (acc ++ chunk)

/-- The reason of an error of the operating system. -/
def reasonOf : IO.Error → String
  | .noFileOrDirectory _ _ _ => missingFile
  | .permissionDenied _ code details => systemReason details code.toNat
  | .inappropriateType _ code details => systemReason details code.toNat
  | .illegalOperation code details => systemReason details code.toNat
  | e => toString e

/-- The bytes of the file at a path, or the reason why it cannot be read. -/
def readFile (path : String) : IO (Except String (List UInt8)) := do
  try
    return .ok (← IO.FS.readBinFile path).toList
  catch e => return .error (reasonOf e)

/-- Writes a report and gives back its code. -/
def Report.emit (r : Report) : IO UInt32 := do
  IO.print r.stdout
  IO.eprint r.stderr
  return r.code.toUInt32

end PairScript.CommandLine

open PairScript.CommandLine in
/-- Does what the arguments ask for. -/
def main (args : List String) : IO UInt32 := do
  match Options.read? args with
  | none =>
    IO.eprintln "usage: [-f] [--tokens] [--ast] [--max-depth N] SCRIPT"
    return usageCode.toUInt32
  | some o =>
    let bytes ← if o.file then readFile o.contents else pure (.ok [])
    let input ← if bytes.isOk then readAll (← IO.getStdin) ByteArray.empty else pure .empty
    (o.report bytes input.toList).emit
