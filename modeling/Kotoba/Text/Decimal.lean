import Kotoba.Text.Search

/-!
Whole numbers in decimal digits. Reading back the digits of a number gives the number.
-/

namespace Kotoba.Text

def digitChar (d : Nat) : Char := Char.ofNat (48 + d)

def isDigit (c : Char) : Bool := '0' ≤ c && c ≤ '9'

/-- The value of a digit, and of no other character anything of use. -/
def digitValue (c : Char) : Nat := c.toNat - 48

/-- The digits of a number, with no zero in front. -/
def ofNat (n : Nat) : Text :=
  if n < 10 then [digitChar n] else ofNat (n / 10) ++ [digitChar (n % 10)]

def ofInt : Int → Text
  | .ofNat n => ofNat n
  | .negSucc n => '-' :: ofNat (n + 1)

/-- The number that a row of digits denotes. -/
def natValue (t : Text) : Nat := t.foldl (fun n c ↦ n * 10 + digitValue c) 0

theorem natValue_concat (t : Text) (c : Char) :
    natValue (t ++ [c]) = natValue t * 10 + digitValue c := by
  simp [natValue]

theorem digitValue_digitChar {d : Nat} (h : d < 10) : digitValue (digitChar d) = d := by
  match d, h with
  | 0, _ | 1, _ | 2, _ | 3, _ | 4, _ | 5, _ | 6, _ | 7, _ | 8, _ | 9, _ => rfl

theorem isDigit_digitChar {d : Nat} (h : d < 10) : isDigit (digitChar d) = true := by
  match d, h with
  | 0, _ | 1, _ | 2, _ | 3, _ | 4, _ | 5, _ | 6, _ | 7, _ | 8, _ | 9, _ => rfl

@[simp]
theorem natValue_ofNat (n : Nat) : natValue (ofNat n) = n := by
  fun_induction ofNat n with
  | case1 n h => simp [natValue, digitValue_digitChar h]
  | case2 n _ ih =>
    rw [natValue_concat, ih, digitValue_digitChar (Nat.mod_lt _ (by decide))]
    omega

theorem isDigit_of_mem_ofNat {n : Nat} {c : Char} (h : c ∈ ofNat n) : isDigit c = true := by
  fun_induction ofNat n with
  | case1 n hn =>
    obtain rfl := List.mem_singleton.1 h
    exact isDigit_digitChar hn
  | case2 n _ ih =>
    rcases List.mem_append.1 h with h | h
    · exact ih h
    · obtain rfl := List.mem_singleton.1 h
      exact isDigit_digitChar (Nat.mod_lt _ (by decide))

theorem ofNat_ne_nil (n : Nat) : ofNat n ≠ [] := by
  unfold ofNat
  split <;> simp

/-- A number has at most `k` digits if it is less than `10 ^ k`. -/
theorem length_ofNat_le_iff {n k : Nat} (hk : 0 < k) :
    (ofNat n).length ≤ k ↔ n < Nat.pow 10 k := by
  fun_induction ofNat n generalizing k with
  | case1 n hn =>
    have hp : Nat.pow 10 1 ≤ Nat.pow 10 k := Nat.pow_le_pow_right (by decide) hk
    have ht : Nat.pow 10 1 = 10 := rfl
    rw [List.length_singleton]
    omega
  | case2 n hn ih =>
    obtain ⟨j, rfl⟩ : ∃ j, k = j + 1 := ⟨k - 1, by omega⟩
    have hp : Nat.pow 10 (j + 1) = Nat.pow 10 j * 10 := rfl
    rw [List.length_append, List.length_singleton, Nat.add_le_add_iff_right, hp]
    cases j with
    | zero =>
      have hl : 0 < (ofNat (n / 10)).length := List.length_pos_iff.2 (ofNat_ne_nil _)
      have ht : Nat.pow 10 0 = 1 := rfl
      omega
    | succ j =>
      have hi : (ofNat (n / 10)).length ≤ j + 1 ↔ n / 10 < Nat.pow 10 (j + 1) := ih j.succ_pos
      rw [hi]
      omega

theorem digitValue_lt {c : Char} (h : isDigit c = true) : digitValue c < 10 := by
  simp only [isDigit, Bool.and_eq_true, decide_eq_true_eq] at h
  have hc : c.toNat ≤ 57 := h.2
  unfold digitValue
  omega

/-- Digits read behind a number add that many places to it. -/
theorem foldl_digits_lt {t : Text} (h : t.all isDigit = true) (n : Nat) :
    t.foldl (fun n c ↦ n * 10 + digitValue c) n < (n + 1) * Nat.pow 10 t.length := by
  induction t generalizing n with
  | nil => simp
  | cons c t ih =>
    rw [List.all_cons, Bool.and_eq_true] at h
    have hd := digitValue_lt h.1
    calc
      _ < (n * 10 + digitValue c + 1) * Nat.pow 10 t.length := ih h.2 (n * 10 + digitValue c)
      _ ≤ (n + 1) * 10 * Nat.pow 10 t.length := Nat.mul_le_mul_right _ (by omega)
      _ = (n + 1) * (Nat.pow 10 t.length * 10) := by rw [Nat.mul_comm (Nat.pow 10 _), Nat.mul_assoc]

theorem natValue_lt {t : Text} {k : Nat} (h : t.all isDigit = true) (hk : t.length ≤ k) :
    natValue t < Nat.pow 10 k := by
  have hl : natValue t < (0 + 1) * Nat.pow 10 t.length := foldl_digits_lt h 0
  rw [Nat.zero_add, Nat.one_mul] at hl
  exact Nat.lt_of_lt_of_le hl (Nat.pow_le_pow_right (by decide) hk)

end Kotoba.Text
