import Kotoba.Command.Arguments
import Kotoba.Command.Folder
import Kotoba.Command.Level
import Kotoba.Interpreter

/-!
A run of the command from its arguments to its exit status, with what it writes. The arguments
come to an order, the order says what script to fetch, and the script's bytes finish it.
-/

namespace Kotoba.Command

/-- What ends the command without an exit status of its own. -/
inductive Failure where
  | fault (f : Fault)
  | undecodable (u : Undecodable)
  | level (n : NotLevel)
  /-- The option that gives the script was given nothing. -/
  | noScript
  /-- No path holds the character with number zero. -/
  | zeroInPath
deriving DecidableEq, Repr

def Failure.message : Failure → Text
  | fault f => f.message
  | undecodable u => u.message
  | level n => n.message
  | noScript => "unhashable type: 'list'".toList
  | zeroInPath => "embedded null byte".toList

inductive Ending where
  | exit (status : Nat)
  | failed (f : Failure)
deriving DecidableEq, Repr

structure Outcome where
  ending : Ending
  output : Text
  errorOutput : Text
deriving DecidableEq, Repr

inductive Source where
  | inline (script : Text)
  | input
  /-- A file, by the name given and the path that it means. -/
  | file (name : Text) (path : Path)
deriving DecidableEq, Repr

structure Order where
  source : Source
  printResult : Bool
  logTraces : Bool
deriving DecidableEq, Repr

/-- A script given as text goes before one in a file; a dash means standard input. -/
def Choices.source (c : Choices) : Except Failure Source :=
  match c.command, c.script with
  | some .nothing, _ => .error .noScript
  | some (.text script), _ => .ok (.inline script)
  | none, none => .ok .input
  | none, some name =>
    if name = ['-'] then .ok .input
    else if name.contains '\x00' then .error .zeroInPath
    else .ok (.file name (.ofText name))

def Stop.outcome : Stop → Outcome
  | help => ⟨.exit 0, helpText, []⟩
  | misuse m => ⟨.exit 2, [], m.text⟩

/-- What the arguments and the level in the environment order, or how the command ends at once. -/
def prepare (argv : List Text) (level : Option Text) : Except Outcome Order :=
  match parse argv with
  | .error s => .error s.outcome
  | .ok c =>
    match Level.choose c.level level with
    | .error n => .error ⟨.failed (.level n), [], []⟩
    | .ok l =>
      match c.source with
      | .error f => .error ⟨.failed f, [], []⟩
      | .ok source => .ok ⟨source, c.printResult, l.logsTraces⟩

namespace Order

def perform (o : Order) (script : Text) : Outcome :=
  match runScript script Context.standard with
  | .ok v c =>
    let effects := c.journal.toList
    let output := effects.flatMap Effect.output
    let errorOutput := effects.flatMap (Effect.errorOutput o.logTraces)
    match if o.printResult then v.format.map (· ++ ['\n']) else .ok [] with
    | .ok t => ⟨.exit 0, output ++ t, errorOutput⟩
    | .error e => ⟨.failed (.fault e), output, errorOutput⟩
  | .error e c =>
    let effects := c.journal.toList
    let output := effects.flatMap Effect.output
    let errorOutput := effects.flatMap (Effect.errorOutput o.logTraces)
    match e.report? with
    | some r => ⟨.exit 1, output, errorOutput ++ r.text ++ ['\n']⟩
    | none => ⟨.failed (.fault e), output, errorOutput⟩

/-- Finishes an order with the bytes fetched for it, which an inline script does without. -/
def finish (o : Order) (fetched : Except Unreadable (List UInt8)) : Outcome :=
  match o.source, fetched with
  | .inline script, _ => o.perform script
  | .file name path, .error u =>
    ⟨.exit 2, [], "cannot read ".toList ++ name ++ ": ".toList ++ u.message path ++ ['\n']⟩
  | .input, .error _ => o.perform []
  | _, .ok bytes =>
    match Text.ofUtf8 bytes with
    | .error u => ⟨.failed (.undecodable u), [], []⟩
    | .ok t => o.perform t.unifyLineEnds

end Order

def run (argv : List Text) (level : Option Text) (input : List UInt8) (folder : Folder) :
    Outcome :=
  match prepare argv level with
  | .error outcome => outcome
  | .ok o =>
    o.finish <|
      match o.source with
      | .file _ path => folder.read path
      | _ => .ok input

end Kotoba.Command
