import Kotoba.Fault
import Kotoba.Number.Order

/-!
The values of scripts. Besides its own kinds a script meets values from outside: arrays of one
element, which stand for that element, callables, and foreign values, which it can only pass on.
-/

namespace Kotoba

/-- The element of an array without dimensions. -/
inductive Scalar where
  | int32 (n : Int)
  | float32 (x : Double)
  | bool (b : Bool)
deriving DecidableEq, Repr

/-- Something that takes a value when called. -/
inductive Callable where
  | console
  /-- Prints to standard error, marked as an alert. -/
  | alert
  /-- Prints to standard error, with the kind of the value. -/
  | diagnostic
  /-- A function from outside, which may fail with a text. -/
  | function (name : Text) (failure : Option Text)
  /-- An object from outside that can be called, which may fail with a text. -/
  | object (typeName : Text) (failure : Option Text)
deriving DecidableEq, Repr

structure Foreign where
  typeName : Text
  text : Text
deriving DecidableEq, Repr

inductive Value where
  | empty
  | boolean (b : Bool)
  | integer (n : Int)
  | real (x : Double)
  | text (t : Text)
  | array (element : Scalar)
  | callable (f : Callable)
  | foreign (f : Foreign)
deriving DecidableEq, Repr

inductive Kind where
  | number
  | string
  | boolean
  | empty
  | callable
deriving DecidableEq, Repr

namespace Kind

def name : Kind → Text
  | number => "number".toList
  | string => "string".toList
  | boolean => "boolean".toList
  | empty => "empty".toList
  | callable => "callable".toList

def label : Kind → Text
  | number => "数値".toList
  | string => "文字列".toList
  | boolean => "真偽値".toList
  | empty => "空".toList
  | callable => "関数".toList

end Kind

def Scalar.value : Scalar → Value
  | int32 n => .integer n
  | float32 x => .real x
  | bool b => .boolean b

namespace Value

/-- The value with an array replaced by its element. -/
def unwrap : Value → Value
  | array element => element.value
  | v => v

def kind? : Value → Except Fault Kind
  | empty => .ok .empty
  | boolean _ | array (.bool _) => .ok .boolean
  | integer _ | real _ | array (.int32 _) | array (.float32 _) => .ok .number
  | text _ => .ok .string
  | callable _ => .ok .callable
  | foreign f => .error (.unsupported f.typeName none)

/-- Refuses a value of no known kind, naming the place it was given for. -/
def validate (place : Text) : Value → Except Fault Unit
  | foreign f => .error (.unsupported f.typeName (some place))
  | _ => .ok ()

def number? : Value → Option Number
  | integer n | array (.int32 n) => some (.integer n)
  | real x | array (.float32 x) => some (.real x)
  | _ => none

def isNumber (v : Value) : Bool := v.number?.isSome

/-- Only falsehood and the empty value do not hold. -/
def holds : Value → Bool
  | empty => false
  | boolean b | array (.bool b) => b
  | _ => true

@[simp]
theorem kind?_unwrap (v : Value) : v.unwrap.kind? = v.kind? := by
  rcases v with _ | _ | _ | _ | _ | s | _ | _
  case array => cases s <;> rfl
  all_goals rfl

@[simp]
theorem number?_unwrap (v : Value) : v.unwrap.number? = v.number? := by
  rcases v with _ | _ | _ | _ | _ | s | _ | _
  case array => cases s <;> rfl
  all_goals rfl

@[simp]
theorem holds_unwrap (v : Value) : v.unwrap.holds = v.holds := by
  rcases v with _ | _ | _ | _ | _ | s | _ | _
  case array => cases s <;> rfl
  all_goals rfl

theorem unwrap_eq_callable {v : Value} {f : Callable} (h : v.unwrap = .callable f) :
    v = .callable f := by
  rcases v with _ | _ | _ | _ | _ | s | _ | _
  case array => cases s <;> cases h
  all_goals exact h

end Value

end Kotoba
