import Kotoba.Context
import Kotoba.Value.Order

/-!
What functions do when they are called.
-/

namespace Kotoba

/-- The text with which a callable from outside fails when it is called. -/
def Callable.failure? : Callable → Option Text
  | .function _ failure | .object _ failure => failure
  | _ => none

/-- Gives a value to a callable. A sink fails on what it cannot print, and one from outside may fail
after it has been called. -/
def Callable.call (f : Callable) (v : Value) : Run Unit := do
  let _ ← Run.ofExcept (f.print v)
  Run.note (.called f v)
  Run.passOn f.failure?

namespace Procedure

/-- The argument with a particle, the empty value if there is none. -/
def argument (args : Bindings) (particle : Text) : Value := (args.get? particle).getD .empty

def compare (args : Bindings) (holds : Operands → Bool) : Run Value := do
  let subject := argument args ['が']
  let bound := argument args ['よ', 'り']
  match subject.operands? bound with
  | some o => pure (.boolean (holds o))
  | none => do
    let left ← Run.ofExcept subject.format
    let right ← Run.ofExcept bound.format
    Run.complain (.incomparable left right)

def call (name : Text) (args : Bindings) : Procedure → Run Value
  | .display => do
    match argument args ['に'] with
    | .callable f => f.call (argument args ['を'])
    | v => do
      let target ← Run.ofExcept v.format
      Run.complain (.notDisplayable target)
    pure .empty
  | .debugDisplay => do
    (← get).diagnostic.call (argument args ['を'])
    pure .empty
  | .less => compare args Operands.less
  | .greater => compare args fun o ↦ o.swap.less
  | .custom echo result failure => do
    Run.note (.invoked name args.sorted)
    Run.passOn failure
    pure (echo.elim result (argument args))

end Procedure

def Builtin.call (f : Builtin) (args : Bindings) : Run Value := f.procedure.call f.name args

end Kotoba
