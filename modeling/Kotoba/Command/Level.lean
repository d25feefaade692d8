import Kotoba.Command.Usage

/-!
Levels of logging. A level is named in the environment or by an option; a name that is unknown
means the level of warnings.
-/

namespace Kotoba.Command

/-- Capital letters, also of the few letters beyond ASCII whose capitals are ASCII letters. Other
characters stay. -/
def capital (c : Char) : Text :=
  if 'a' ≤ c ∧ c ≤ 'z' then [Char.ofNat (c.toNat - 32)]
  else
    match c with
    | 'ß' => ['S', 'S']
    | 'ı' => ['I']
    | 'ſ' => ['S']
    | 'ﬀ' => ['F', 'F']
    | 'ﬁ' => ['F', 'I']
    | 'ﬂ' => ['F', 'L']
    | 'ﬃ' => ['F', 'F', 'I']
    | 'ﬄ' => ['F', 'F', 'L']
    | 'ﬅ' => ['S', 'T']
    | 'ﬆ' => ['S', 'T']
    | c => [c]

def capitals (t : Text) : Text := t.flatMap capital

/-- Why no level is named: there is no name, or it is one of the names of the logging facility that
stand for something else. -/
inductive NotLevel where
  | nothing
  | layout
  | styles
deriving DecidableEq, Repr

def NotLevel.message : NotLevel → Text
  | nothing => "attribute name must be string, not 'list'".toList
  | layout => "Unknown level: '%(levelname)s:%(name)s:%(message)s'".toList
  | styles =>
    ("Level not an integer or a valid string: " ++
      "\x7b'%': (<class 'logging.PercentStyle'>, '%(levelname)s:%(name)s:%(message)s'), " ++
      "'\x7b': (<class 'logging.StrFormatStyle'>, " ++
      "'\x7blevelname\x7d:\x7bname\x7d:\x7bmessage\x7d'), " ++
      "'$': (<class 'logging.StringTemplateStyle'>, " ++
      "'$\x7blevelname\x7d:$\x7bname\x7d:$\x7bmessage\x7d')\x7d").toList

/-- The number of a level: the higher, the less is logged. -/
abbrev Level := Nat

namespace Level

def warning : Level := 30

def names : List (Text × Level) :=
  [("NOTSET".toList, 0), ("DEBUG".toList, 10), ("INFO".toList, 20), ("WARNING".toList, 30),
    ("WARN".toList, 30), ("ERROR".toList, 40), ("CRITICAL".toList, 50), ("FATAL".toList, 50)]

def ofName (t : Text) : Except NotLevel Level :=
  if t = "BASIC_FORMAT".toList then .error .layout
  else if t = "_STYLES".toList then .error .styles
  else .ok ((names.lookup t).getD warning)

/-- The level that an option names, or else the environment. -/
def choose (option : Option Operand) (environment : Option Text) : Except NotLevel Level :=
  match option, environment with
  | some .nothing, _ => .error .nothing
  | some (.text t), _ => ofName t
  | none, some t => ofName (capitals t)
  | none, none => .ok warning

/-- Traces are logged at the level of details or below. -/
def logsTraces (l : Level) : Bool := l ≤ 10

end Level

end Kotoba.Command
