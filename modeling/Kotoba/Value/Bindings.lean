import Kotoba.Value.Basic

/-!
Values by name, in the order in which the names were first bound.
-/

namespace Kotoba

abbrev Bindings := List (Text × Value)

namespace Bindings

def get? : Bindings → Text → Option Value
  | [], _ => none
  | p :: b, name => if p.1 = name then some p.2 else get? b name

/-- Binds a name, in its old place if it has one. -/
def set : Bindings → Text → Value → Bindings
  | [], name, v => [(name, v)]
  | p :: b, name, v => if p.1 = name then (name, v) :: b else p :: set b name v

/-- Later pairs override earlier ones of the same name. -/
def ofPairs (pairs : List (Text × Value)) : Bindings :=
  pairs.foldl (fun b p ↦ b.set p.1 p.2) []

def names (b : Bindings) : List Text := b.map (·.1)

/-- Puts a binding before those of later names. -/
def insertSorted (p : Text × Value) : Bindings → Bindings
  | [] => [p]
  | q :: b => if q.1 < p.1 then q :: insertSorted p b else p :: q :: b

def sorted (b : Bindings) : Bindings := b.foldr insertSorted []

theorem get?_set_self (b : Bindings) (name : Text) (v : Value) :
    (b.set name v).get? name = some v := by
  induction b with
  | nil => simp [set, get?]
  | cons p b ih => by_cases h : p.1 = name <;> simp [set, get?, h, ih]

theorem get?_set_of_ne (b : Bindings) {name other : Text} (v : Value) (h : other ≠ name) :
    (b.set name v).get? other = b.get? other := by
  induction b with
  | nil => simp [set, get?, h.symm]
  | cons p b ih =>
    by_cases hp : p.1 = name
    · simp [set, get?, hp, h.symm]
    · simp [set, get?, hp, ih]

end Bindings

end Kotoba
