/-!
Double-precision numbers, exact: a finite one counts the least positive one, `2 ^ -1074`.
-/

namespace Kotoba

inductive Double where
  | nan
  | infinite (negative : Bool)
  /-- The number `units * 2 ^ -1074`, or its negative. Zero has both signs. -/
  | finite (negative : Bool) (units : Nat)
deriving DecidableEq, Repr

namespace Double

def unitsPerOne : Nat := Nat.pow 2 1074

/-- The units of the least number beyond all finite ones. -/
def unitsLimit : Nat := Nat.pow 2 2098

/-- A quotient rounded to a whole number, a half going to the even neighbour. -/
def roundDiv (a b : Nat) : Nat :=
  let q := a / b
  let r := 2 * (a % b)
  if r < b then q else if b < r then q + 1 else q + q % 2

/-- The double nearest to `num / den`: at most 53 binary digits of its units are kept. -/
def ofRatio (negative : Bool) (num den : Nat) : Double :=
  let a := num * unitsPerOne
  let step := Nat.pow 2 ((a / den).log2 + 1 - 53)
  let units := roundDiv a (den * step) * step
  if units < unitsLimit then finite negative units else infinite negative

/-- The double nearest to `digits * 10 ^ exponent`. -/
def ofDecimal (negative : Bool) (digits : Nat) : (exponent : Int) → Double
  | .ofNat e => ofRatio negative (digits * Nat.pow 10 e) 1
  | .negSucc e => ofRatio negative digits (Nat.pow 10 (e + 1))

def isFinite : Double → Bool
  | finite _ _ => true
  | _ => false

def toInt? : Double → Option Int
  | finite negative units =>
    if units % unitsPerOne = 0 then
      let n : Int := units / unitsPerOne
      some (if negative then -n else n)
    else none
  | _ => none

/-- The least whole number that is no less. -/
def ceil? : Double → Option Int
  | finite false units => some ((units + unitsPerOne - 1) / unitsPerOne : Nat)
  | finite true units => some (-((units / unitsPerOne : Nat) : Int))
  | _ => none

end Double

end Kotoba
