import Kotoba.Command.Session

/-!
The command line.
-/

open Kotoba Kotoba.Command

/-- The system gives the number of a reason as it is or negated. -/
def Kotoba.Command.isCode (u : Unreadable) (code : UInt32) : Bool :=
  code = u.number.toUInt32 || 0 - code = u.number.toUInt32

def Kotoba.Command.readScript (path : Path) : IO (Except Unreadable (List UInt8)) := do
  try
    let bytes ← IO.FS.readBinFile (String.ofList path.text)
    return .ok bytes.toList
  catch e =>
    match e with
    | .noFileOrDirectory .. => return .error .missing
    | .inappropriateType _ code _ =>
      return .error (if isCode .notFolder code then .notFolder else .isFolder)
    | .invalidArgument _ code _ =>
      if isCode .nameTooLong code then return .error .nameTooLong else throw e
    | e => throw e

def main (argv : List String) : IO UInt32 := do
  let level ← IO.getEnv "NIHONGO_LOG_LEVEL"
  let outcome ←
    match prepare (argv.map String.toList) (level.map String.toList) with
    | .error outcome => pure outcome
    | .ok o =>
      match o.source with
      | .inline _ => pure (o.finish (.ok []))
      | .input => do
        let bytes ← (← IO.getStdin).readBinToEnd
        pure (o.finish (.ok bytes.toList))
      | .file _ path => do pure (o.finish (← readScript path))
  IO.print (String.ofList outcome.output)
  IO.eprint (String.ofList outcome.errorOutput)
  match outcome.ending with
  | .exit n => return n.toUInt32
  | .failed failure =>
    IO.eprintln (String.ofList failure.message)
    return 1
