import Kotoba.Number.Double

/-!
Numbers are whole numbers of any size and doubles, compared exactly: each has a place on one line
of units, with a point beyond either end.
-/

namespace Kotoba

inductive Number where
  | integer (n : Int)
  | real (x : Double)
deriving DecidableEq, Repr

/-- A place on the line of units of `2 ^ -1074`. -/
inductive Place where
  | below
  | at (units : Int)
  | above
deriving DecidableEq, Repr

namespace Place

def less : Place → Place → Bool
  | below, below => false
  | below, _ => true
  | .at a, .at b => a < b
  | .at _, above => true
  | _, _ => false

end Place

def Double.place? : Double → Option Place
  | .nan => none
  | .infinite true => some .below
  | .infinite false => some .above
  | .finite true units => some (.at (-units))
  | .finite false units => some (.at units)

namespace Number

def place? : Number → Option Place
  | integer n => some (.at (n * Double.unitsPerOne))
  | real x => x.place?

/-- A number with no place is neither less nor greater than any. -/
def less (a b : Number) : Bool :=
  match a.place?, b.place? with
  | some p, some q => p.less q
  | _, _ => false

end Number

end Kotoba
