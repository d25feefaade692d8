import Kotoba.Proofs.Counts
import Mathlib.Data.List.Lex

/-!
The order behind comparisons. Numbers are ordered by their exact values, whole numbers of any size
among finite doubles, and texts by their code points. A comparison of any other two values is
refused, whichever way round it is put, unless one of them is a number of too many digits to be put
in words: then the refusal itself cannot be put in words.
-/

namespace Kotoba

namespace Operands

end Operands

namespace Value

end Value

namespace Builtin

/-- Compares one value with another. -/
def compare (f : Builtin) (subject bound : Value) : Run Value :=
  f.call [(['が'], subject), (['よ', 'り'], bound)]

section Compare

variable {l r : Value} (holds : Operands → Bool) (c : Context)

end Compare

end Builtin

end Kotoba
