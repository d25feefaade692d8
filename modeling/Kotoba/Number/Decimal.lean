import Kotoba.Number.Double
import Kotoba.Text.Decimal

/-!
Doubles in decimal notation. A double is written with the fewest digits that read back as it,
positionally if its leading digit stands from the fourth place after the point to the sixteenth
before it, and with an exponent otherwise.
-/

namespace Kotoba.Double

/-- `digits * 10 ^ exponent`. -/
structure Decimal where
  digits : Nat
  exponent : Int
deriving DecidableEq, Repr

/-- How many digits stand before the point in `units`, or minus the zeros after it. -/
def magnitude (units : Nat) : Int :=
  ((Text.ofNat (units * Nat.pow 10 330 / unitsPerOne)).length : Int) - 330

/-- A number of units divided by `10 ^ exponent`, as numerator and denominator. -/
def onGrid (units : Nat) : (exponent : Int) → Nat × Nat
  | .ofNat e => (units, unitsPerOne * Nat.pow 10 e)
  | .negSucc e => (units * Nat.pow 10 (e + 1), unitsPerOne)

/-- The neighbour of `units` with the given number of digits that reads back, the nearer one if
both do. -/
def neighbour? (units count : Nat) : Option Decimal :=
  let exponent := magnitude units - count
  let (a, b) := onGrid units exponent
  let low := a / b
  let readsBack (digits : Nat) : Bool := ofDecimal false digits exponent = finite false units
  let upFirst : Bool := roundDiv a b ≠ low
  if upFirst then
    if readsBack (low + 1) then some ⟨low + 1, exponent⟩
    else if readsBack low then some ⟨low, exponent⟩ else none
  else
    if readsBack low then some ⟨low, exponent⟩
    else if readsBack (low + 1) then some ⟨low + 1, exponent⟩ else none

/-- The fewest digits that read back. Seventeen always do. -/
def shortest (units : Nat) : Decimal :=
  ((List.range 17).findSome? fun n ↦ neighbour? units (n + 1)).getD ⟨0, 0⟩

def dropZeros (t : Text) : Text := (t.reverse.dropWhile (· = '0')).reverse

def zeros (n : Nat) : Text := List.replicate n '0'

/-- An exponent has a sign and at least two digits. -/
def exponentText (e : Int) : Text :=
  let ds := Text.ofNat e.natAbs
  'e' :: (if e < 0 then '-' else '+') :: zeros (2 - ds.length) ++ ds

/-- Writes `digits` with the point after the first `point` of them. -/
def layout (digits : Text) (point : Int) : Text :=
  if -4 < point ∧ point ≤ 16 then
    if point ≤ 0 then ['0', '.'] ++ zeros (-point).toNat ++ digits
    else if digits.length ≤ point then
      digits ++ zeros (point.toNat - digits.length) ++ ['.', '0']
    else digits.take point.toNat ++ '.' :: digits.drop point.toNat
  else
    let fraction := digits.drop 1
    digits.take 1 ++ (if fraction = [] then [] else '.' :: fraction) ++ exponentText (point - 1)

def magnitudeText (units : Nat) : Text :=
  if units = 0 then ['0', '.', '0']
  else
    let d := shortest units
    let ds := Text.ofNat d.digits
    layout (dropZeros ds) (ds.length + d.exponent)

def text : Double → Text
  | nan => "nan".toList
  | infinite negative => (if negative then ['-'] else []) ++ "inf".toList
  | finite negative units => (if negative then ['-'] else []) ++ magnitudeText units

/-- Splits off a sign: whether it is minus, and the rest. -/
def splitSign : Text → Bool × Text
  | '-' :: t => (true, t)
  | '+' :: t => (false, t)
  | t => (false, t)

/-- Reads an exponent, the empty one being zero. -/
def readExponent? : Text → Option Int
  | [] => some 0
  | 'e' :: t =>
    let (negative, ds) := splitSign t
    if ds ≠ [] ∧ ds.all Text.isDigit then
      some (if negative then -(Text.natValue ds) else Text.natValue ds)
    else none
  | _ => none

/-- Reads digits, perhaps with a point and more digits, perhaps with an exponent. -/
def readMagnitude? (negative : Bool) (t : Text) : Option Double :=
  let whole := t.takeWhile Text.isDigit
  let t := t.drop whole.length
  let fraction := match t with
    | '.' :: t => t.takeWhile Text.isDigit
    | _ => []
  let t := match t with
    | '.' :: t => t.drop fraction.length
    | t => t
  if whole = [] then none
  else
    (readExponent? t).map fun e ↦
      ofDecimal negative (Text.natValue (whole ++ fraction)) (e - fraction.length)

def ofText? (t : Text) : Option Double :=
  let (negative, t) := splitSign t
  if t = "nan".toList then some nan
  else if t = "inf".toList then some (infinite negative)
  else readMagnitude? negative t

end Kotoba.Double
