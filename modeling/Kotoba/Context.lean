import Kotoba.Builtin
import Kotoba.Value.Bindings
import Kotoba.Value.Format

/-!
The context in which a script runs: one scope for all names, the table of functions, the statement
being run, and a journal of what has happened. Running threads the context through, also where a
fault ends it.
-/

namespace Kotoba

inductive Trace where
  | statement (source : List Token)
  | repetition (times : Nat) (target : List Token)
  | call (name : Text) (particles : List Text)
deriving DecidableEq, Repr

namespace Trace

def message : Trace → Text
  | statement source =>
    "evaluate (".toList ++ positionText (Token.firstLine? source) (Token.lastLine? source) ++
      "): ".toList ++ Token.spaced source
  | repetition times target =>
    "loop ".toList ++ Text.ofNat times ++ " times: ".toList ++ Token.spaced target
  | call name particles =>
    "call ".toList ++ name ++ " with ".toList ++ Text.escapedList particles

/-- The line that a trace makes in a log. -/
def line (r : Trace) : Text := "DEBUG nihongo.evaluator: ".toList ++ r.message

end Trace

/-- What a run does that can be seen from outside. -/
inductive Effect where
  /-- A callable was given a value. -/
  | called (f : Callable) (argument : Value)
  /-- A function from outside was given its arguments. -/
  | invoked (name : Text) (arguments : Bindings)
  | traced (step : Trace)
deriving DecidableEq, Repr

structure Context where
  scope : Bindings
  functions : List Builtin
  diagnostic : Callable
  /-- The statement being run; faulty arguments are reported on its lines. -/
  statement : Option (List Token)
  journal : Array Effect
deriving DecidableEq, Repr

def consoleName : Text := ['コ', 'ン', 'ソ', 'ー', 'ル']

def alertName : Text := ['ア', 'ラ', 'ー', 'ト']

namespace Context

/-- A context with the given sinks, not yet run in. -/
def ofSinks (output warning inspection : Callable) (functions : List Builtin) : Context where
  scope := [(consoleName, .callable output), (alertName, .callable warning)]
  functions := functions
  diagnostic := inspection
  statement := none
  journal := #[]

def standard : Context := ofSinks .console .alert .diagnostic Builtin.standard

def bindOuter (c : Context) (name : Text) (v : Value) : Except Fault Context :=
  (v.validate ("scope[".toList ++ name.escaped ++ [']'])).map fun _ ↦
    { c with scope := c.scope.set name v }

/-- Binds values from outside in order, refusing the first of no known kind. -/
def bindAll (c : Context) : Bindings → Except Fault Context
  | [] => .ok c
  | (name, v) :: b =>
    match c.bindOuter name v with
    | .error e => .error e
    | .ok c => bindAll c b

def note (c : Context) (e : Effect) : Context := { c with journal := c.journal.push e }

end Context

namespace Callable

/-- What a sink prints of a value. A callable from outside prints nothing. -/
def print : Callable → Value → Except Fault Text
  | console, v => v.format.map (· ++ ['\n'])
  | alert, v => v.format.map fun t ↦ '[' :: alertName ++ [']', ' '] ++ t ++ ['\n']
  | diagnostic, v => v.describe.map (· ++ ['\n'])
  | function _ _, _ | object _ _, _ => .ok []

def printed (f : Callable) (v : Value) : Text :=
  match f.print v with
  | .ok t => t
  | .error _ => []

@[simp]
theorem print_unwrap (f : Callable) (v : Value) : f.print v.unwrap = f.print v := by
  cases f <;> simp only [print, Value.format_unwrap, Value.describe_unwrap]

@[simp]
theorem printed_unwrap (f : Callable) (v : Value) : f.printed v.unwrap = f.printed v := by
  simp only [printed, print_unwrap]

theorem eq_of_print_error {f : Callable} {v : Value} {e : Fault} (h : f.print v = .error e) :
    e = .unprintable ∨ ∃ g, v = .foreign g ∧ e = .unsupported g.typeName none := by
  cases f with
  | console | alert => exact .inl (Value.eq_unprintable_of_format (eq_error_of_map h))
  | diagnostic => exact Value.eq_of_describe_error (eq_error_of_map h)
  | _ => cases h

end Callable

namespace Effect

def output : Effect → Text
  | called .console v => Callable.console.printed v
  | _ => []

/-- What the effect writes to standard error, traces being logged or not. -/
def errorOutput (logged : Bool) : Effect → Text
  | called .alert v => Callable.alert.printed v
  | called .diagnostic v => Callable.diagnostic.printed v
  | traced step => if logged then step.line ++ ['\n'] else []
  | _ => []

/-- Calls that go outside, rather than to a printing sink. -/
def isEvent : Effect → Bool
  | called (.function _ _) _ | called (.object _ _) _ | invoked _ _ => true
  | _ => false

def trace? : Effect → Option Trace
  | traced step => some step
  | _ => none

end Effect

/-- Running with a result, a context and perhaps a fault. -/
abbrev Run := EStateM Fault Context

namespace Run

def note (e : Effect) : Run Unit := modify (·.note e)

/-- Fails with a cause, on the lines of the statement being run. -/
def complain {α : Type} (cause : Complaint) : Run α := do
  throw (.onTokens cause ((← get).statement.getD []))

/-- Runs a statement: it is traced, and is the current one until it ends or fails. -/
def within {α : Type} (source : List Token) (body : Run α) : Run α := fun c ↦
  let previous := c.statement
  match body { c.note (.traced (.statement source)) with statement := some source } with
  | .ok a d => .ok a { d with statement := previous }
  | .error e d => .error e { d with statement := previous }

/-- Passes on a failure from outside, if there is one. -/
def passOn (failure : Option Text) : Run Unit := failure.forM fun t ↦ throw (.host t)

def times (body : Run Unit) : Nat → Run Unit
  | 0 => pure ()
  | n + 1 => do body; times body n

def ofExcept {α : Type} : Except Fault α → Run α
  | .ok a => pure a
  | .error e => throw e

end Run

end Kotoba
