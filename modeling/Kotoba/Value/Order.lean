import Kotoba.Value.Basic

/-!
Numbers are compared with numbers and texts with texts; no other two values are comparable.
-/

namespace Kotoba

/-- Two values of which one may be less than the other. -/
inductive Operands where
  | numbers (left right : Number)
  | texts (left right : Text)
deriving DecidableEq, Repr

namespace Operands

def swap : Operands → Operands
  | numbers l r => numbers r l
  | texts l r => texts r l

/-- Texts are ordered by the first code point in which they differ. -/
def less : Operands → Bool
  | numbers l r => l.less r
  | texts l r => decide (l < r)

end Operands

def Value.operands? : (left right : Value) → Option Operands
  | .text l, .text r => some (.texts l r)
  | l, r =>
    match l.number?, r.number? with
    | some l, some r => some (.numbers l r)
    | _, _ => none

@[simp]
theorem Value.operands?_unwrap_left (l r : Value) : l.unwrap.operands? r = l.operands? r := by
  rcases l with _ | _ | _ | _ | _ | s | _ | _
  case array => cases s <;> rfl
  all_goals rfl

@[simp]
theorem Value.operands?_unwrap_right (l r : Value) : l.operands? r.unwrap = l.operands? r := by
  rcases r with _ | _ | _ | _ | _ | s | _ | _
  case array => cases s <;> cases l <;> rfl
  all_goals rfl

end Kotoba
