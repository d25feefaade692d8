import Kotoba.Text.Search

/-!
The normal form of script text: wide letters, digits and brackets are folded to their narrow
forms, and spacing is dropped.
-/

namespace Kotoba

/-- Letters and digits with a narrow form at a fixed distance. -/
def isWide (c : Char) : Bool :=
  ('Ａ' ≤ c && c ≤ 'Ｚ') || ('ａ' ≤ c && c ≤ 'ｚ') || ('０' ≤ c && c ≤ '９')

def narrow (c : Char) : Char :=
  if isWide c then Char.ofNat (c.toNat - 0xFEE0)
  else if c = '（' then '('
  else if c = '）' then ')'
  else c

/-- Characters that only space a script. -/
def isSpacing (c : Char) : Bool := c = '　' || c = '、' || c = '\t' || c = ' '

def Text.normalize (t : Text) : Text := (t.map narrow).filter fun c ↦ !isSpacing c

theorem Text.length_normalize_le (t : Text) : t.normalize.length ≤ t.length := by
  simpa [normalize] using List.length_filter_le (fun c ↦ !isSpacing c) (t.map narrow)

end Kotoba
