import Kotoba.Literal
import Kotoba.Procedure
import Kotoba.Statement

/-!
Running statements and scripts. The parts of a statement run in a fixed order, each at most once
per pass; the first fault ends the run, and what was done before it stays done.
-/

namespace Kotoba

namespace Value

/-- Whole numbers from here on have no double, not even a rounded one. -/
def countLimit : Nat := Nat.pow 2 1024 - Nat.pow 2 970

/-- How often a body is repeated for a count: once for each whole number from zero below it. -/
def repetitions (v : Value) : Run Nat :=
  match v.number? with
  | none => Run.complain .countNotNumber
  | some (.integer n) => if n.natAbs < countLimit then pure n.toNat else throw .countTooLarge
  | some (.real x) =>
    match x.ceil? with
    | none => Run.complain .countNotFinite
    | some n => pure n.toNat

end Value

namespace Statement

/-- The value of a name, or else of a literal. -/
def lookUp (source : List Token) : Run Value := do
  let t := Token.render source
  match (← get).scope.get? t with
  | some v => pure v
  | none =>
    match Literal.value? t with
    | some r => Run.ofExcept r
    | none => throw (.onTokens (.malformed (Token.spaced source)) source)

/-- Fails for want of a statement. One that is wholly empty is reported on the statement around
it. -/
def failMissing (source : List Token) : Run Value := do
  let around := (← get).statement
  let shown := if source = [] then around.getD [] else source
  throw (.onTokens (.noExpression (Token.spaced shown)) shown)

def repeatBody (target : List Token) (count : Value) (body : Run Value) : Run Value := do
  let n ← count.repetitions
  Run.note (.traced (.repetition n target))
  Run.times (do let _ ← body) n
  pure .empty

/-- Binds a name that is not empty to what is computed for it. -/
def bindName (source name : List Token) (value : Run Value) : Run Value := do
  if Token.render name = [] then
    throw (.onTokens (.noName (Token.spaced source)) source)
  let v ← value
  modify fun c ↦ { c with scope := c.scope.set (Token.render name) v }
  pure .empty

/-- Calls a function with what has been computed for its arguments, later ones overriding earlier
ones. -/
def finishCall (source : List Token) (f : Builtin) (complete : Bool)
    (arguments : List (Text × Value)) : Run Value := do
  if !complete then
    throw (.onTokens (.noArgument (Token.spaced source)) source)
  let args := (Bindings.ofPairs arguments).sorted
  Run.note (.traced (.call f.name args.names))
  f.call args

/-- Ends a sequence of lines, with the fault of reading on if there is one. -/
def finishLines (ending : Option Fault) (v : Value) : Run Value :=
  match ending with
  | none => pure v
  | some e => throw e

mutual

def run : Statement → Run Value
  | .missing source => failMissing source
  | .skip => pure .empty
  | .refused source fault => Run.within source (throw fault)
  | .conditional source condition consequent alternative =>
    Run.within source do
      if (← condition.run).holds then consequent.run else alternative.run
  | .repetition source target count body =>
    Run.within source do repeatBody target (← count.run) body.run
  | .binding source name value => Run.within source (bindName source name value.run)
  | .block source lines ending =>
    Run.within source do finishLines ending (← runLines .empty lines)
  | .call source f arguments complete =>
    Run.within source do finishCall source f complete (← runArguments arguments)
  | .phrase source => Run.within source (lookUp source)

/-- Runs lines in order; the value is the last one's, or the one given if there are none. -/
def runLines (v : Value) : List Statement → Run Value
  | [] => pure v
  | s :: ss => do runLines (← s.run) ss

def runArguments : List (Text × Statement) → Run (List (Text × Value))
  | [] => pure []
  | (particle, s) :: rest => do
    let v ← s.run
    let vs ← runArguments rest
    pure ((particle, v) :: vs)

end

end Statement

namespace Cursor

def evaluate (c : Cursor) : Run Value := do (Statement.read (← get).functions c).run

/-- Where the cursor stands once its statement has been read. -/
def afterEvaluate (c : Cursor) : Cursor :=
  if c.trim.isBlank then c.trim
  else
    match Clause.read c.trim.tokens c.trim.rest with
    | .error _ | .ok (.phrase, _) => c.trim
    | .ok (_, rest) => ⟨c.trim.tokens, c.trim.size - rest.length, []⟩

end Cursor

/-- Runs a stretch of tokens line by line, for the value of the last line. -/
def runTokens (ts : List Token) : Run Value := do
  let table := (← get).functions
  let lines := (statedLines ts).map fun line ↦ Statement.read table (.ofTokens line)
  Statement.finishLines (readLines ts).2 (← Statement.runLines .empty lines)

def runScript (script : Text) : Run Value := runTokens (tokenize script 1)

/-- How many tokens have been read when the run of these lines ends. Those after the last line,
which cannot be read as one, have been read if it comes to that. -/
def tokensRead (c : Context) (unread : Nat) : List (List Token) → Nat
  | [] => unread
  | line :: lines =>
    if Token.allDelimiters line then line.length + tokensRead c unread lines
    else
      match (Cursor.ofTokens line).evaluate c with
      | .ok _ d => line.length + tokensRead d unread lines
      | .error _ _ => line.length

namespace Cursor

def runAll (c : Cursor) : Run Value := runTokens c.rest

/-- Where the cursor stands once its lines have been run. -/
def afterRunAll (c : Cursor) (context : Context) : Cursor :=
  let lines := (readLines c.rest).1
  let unread := c.rest.length - lines.flatten.length
  { c with index := c.index + tokensRead context unread lines }

end Cursor

/-- Calls a function on the arguments that the tokens mark for it, whether they name it or not. -/
def Builtin.apply (f : Builtin) (ts : List Token) : Run Value := do
  match f.marking? (Token.render ts) with
  | none => throw .emptySeparator
  | some m =>
    let table := (← get).functions
    let arguments := m.marked.map fun a ↦
      (a.1, Statement.read table (.ofTokens (Statement.nounTokens ts a.2)))
    Statement.finishCall ts f m.complete (← Statement.runArguments arguments)

end Kotoba
