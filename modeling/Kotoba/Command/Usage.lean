import Kotoba.Text.Escaped

/-!
The options of the command, what they are given, and how it explains itself.
-/

namespace Kotoba.Command

inductive Flag where
  | help
  | command
  | printResult
  | logLevel
deriving DecidableEq, Repr

namespace Flag

def all : List Flag := [help, command, printResult, logLevel]

def short? : Flag → Option Text
  | help => some "-h".toList
  | command => some "-c".toList
  | _ => none

def long : Flag → Text
  | help => "--help".toList
  | command => "--command".toList
  | printResult => "--print-result".toList
  | logLevel => "--log-level".toList

def spellings (f : Flag) : List Text := f.short?.toList ++ [f.long]

/-- The option in messages: all its spellings. -/
def name (f : Flag) : Text := Text.join ['/'] f.spellings

def takesValue : Flag → Bool
  | command | logLevel => true
  | help | printResult => false

def ofSpelling? (t : Text) : Option Flag := all.find? fun f ↦ f.spellings.contains t

end Flag

/-- Two dashes by themselves mark that only values follow. -/
def mark : Text := ['-', '-']

/-- What an option is given. -/
inductive Operand where
  | nothing
  | text (t : Text)
deriving DecidableEq, Repr

/-- What text attached to an option gives it. A mark is never a value, so it gives nothing. -/
def Operand.ofAttached (t : Text) : Operand := if t = mark then .nothing else .text t

def levelChoices : List Text :=
  ["DEBUG".toList, "INFO".toList, "WARNING".toList, "ERROR".toList]

inductive Misuse where
  | ambiguous (argument : Text) (matching : List Text)
  | noValue (flag : Flag)
  | strayValue (flag : Flag) (value : Text)
  | badChoice (flag : Flag) (value : Text)
  | unrecognized (arguments : List Text)
deriving DecidableEq, Repr

namespace Misuse

def aboutFlag (f : Flag) (message : Text) : Text :=
  "argument ".toList ++ f.name ++ ": ".toList ++ message

def message : Misuse → Text
  | ambiguous argument matching =>
    "ambiguous option: ".toList ++ argument ++ " could match ".toList ++
      Text.join ", ".toList matching
  | noValue flag => aboutFlag flag "expected one argument".toList
  | strayValue flag value =>
    aboutFlag flag ("ignored explicit argument ".toList ++ value.escaped)
  | badChoice flag value =>
    aboutFlag flag ("invalid choice: ".toList ++ value.escaped ++ " (choose from ".toList ++
      Text.join ", ".toList (levelChoices.map Text.escaped) ++ [')'])
  | unrecognized arguments => "unrecognized arguments: ".toList ++ Text.join [' '] arguments

end Misuse

def usage : Text :=
  ("usage: nihongo [-h] [-c COMMAND] [--print-result]\n" ++
    "               [--log-level \x7bDEBUG,INFO,WARNING,ERROR\x7d]\n" ++
    "               [script]\n").toList

def helpText : Text :=
  usage ++
    ("\nRun にほんご scripts from the command line.\n" ++
      "\npositional arguments:\n" ++
      "  script                script file to run ('-' or omitted reads stdin)\n" ++
      "\noptions:\n" ++
      "  -h, --help            show this help message and exit\n" ++
      "  -c COMMAND, --command COMMAND\n" ++
      "                        run the given script text instead of a file\n" ++
      "  --print-result        print the value of the last statement after the run\n" ++
      "  --log-level \x7bDEBUG,INFO,WARNING,ERROR\x7d\n" ++
      "                        logging level for interpreter tracing\n").toList

/-- What is written when arguments are refused. -/
def Misuse.text (m : Misuse) : Text := usage ++ "nihongo: error: ".toList ++ m.message ++ ['\n']

end Kotoba.Command
