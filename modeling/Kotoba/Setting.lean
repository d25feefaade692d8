import Kotoba.Number.Decimal
import Kotoba.Text.Digit
import Kotoba.Text.Escaped

/-!
The size of the store of tokenized texts, which the environment may set.
-/

namespace Kotoba

structure StoreSize where
  size : Nat
  warning : Option Text
deriving DecidableEq, Repr

namespace StoreSize

def standard : Nat := 256

def maxDigits : Nat := 4300

def wholeNumber? (t : Text) : Option Int :=
  let (negative, t) := Double.splitSign t.stripBlanks
  match Text.groupedDigits? false t with
  | none => none
  | some ds =>
    if maxDigits < ds.length then none
    else
      let n : Int := (ds.foldl (fun n d ↦ n * 10 + d) 0 : Nat)
      some (if negative then -n else n)

/-- The size for a setting: at least one, and the standard one if there is none or it is no
number. -/
def ofSetting : Option Text → StoreSize
  | none => ⟨standard, none⟩
  | some t =>
    match wholeNumber? t with
    | some n => ⟨max 1 n.toNat, none⟩
    | none =>
      ⟨standard, some ("WARNING nihongo.lexer: ignoring NIHONGO_TOKENIZE_CACHE_MAX=".toList ++
        t.escaped ++ " (not an integer); using ".toList ++ Text.ofNat standard)⟩

end StoreSize

end Kotoba
