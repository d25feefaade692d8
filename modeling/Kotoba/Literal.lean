import Kotoba.Number.Decimal
import Kotoba.Value.Basic

/-!
Literals: texts in quotes, numerals, and the words for truth, falsehood and the empty value.
-/

namespace Kotoba

/-- A sign, digits and perhaps a point with more digits. -/
structure Numeral where
  negative : Bool
  whole : Text
  fraction : Option Text
deriving DecidableEq, Repr

namespace Numeral

def maxDigits : Nat := 4300

def allDigits (t : Text) : Bool := t ≠ [] && t.all Text.isDigit

def ofText? (t : Text) : Option Numeral :=
  let (negative, t) := Double.splitSign t
  match t.breakOn ['.'] with
  | none => if allDigits t then some ⟨negative, t, none⟩ else none
  | some (whole, fraction) =>
    if allDigits whole && allDigits fraction then some ⟨negative, whole, some fraction⟩ else none

/-- A numeral with a point denotes the nearest double, one without a whole number. -/
def value (n : Numeral) : Except Fault Value :=
  match n.fraction with
  | some fraction =>
    .ok (.real (.ofDecimal n.negative (Text.natValue (n.whole ++ fraction)) (-fraction.length)))
  | none =>
    if maxDigits < n.whole.length then .error (.tooManyDigits n.whole.length)
    else
      let k : Int := Text.natValue n.whole
      .ok (.integer (if n.negative then -k else k))

end Numeral

namespace Literal

/-- What stands between an opening mark in front and a closing mark at the end. -/
def quoted? : Text → Option Text
  | '「' :: t => if t.getLast? = some '」' then some t.dropLast else none
  | _ => none

def word? (t : Text) : Option Value :=
  if t = trueWord then some (.boolean true)
  else if t = falseWord then some (.boolean false)
  else if t = emptyWord then some .empty
  else none

def value? (t : Text) : Option (Except Fault Value) :=
  match quoted? t with
  | some inside => some (.ok (.text inside))
  | none =>
    match Numeral.ofText? t with
    | some n => some n.value
    | none => (word? t).map .ok

end Literal

end Kotoba
