import Kotoba.Interpreter
import Mathlib.Data.Rat.Floor

/-!
Counts. A number counts the whole numbers from zero below it, if the double nearest to it is finite.
A whole number without such a double is too large, and neither an infinity nor what is no number
counts anything.
-/

namespace Kotoba

namespace Double

def toRat? : Double → Option ℚ
  | finite negative units => some (((if negative then -units else units : ℤ) : ℚ) / unitsPerOne)
  | _ => none

theorem neg_ediv_eq (n : Nat) {u : Nat} (hu : 0 < u) :
    (-(n : ℤ)) / (u : ℤ) = -((n + u - 1) / u : Nat) := by
  have hd := Nat.div_add_mod (n + u - 1) u
  have hm := Nat.mod_lt (n + u - 1) hu
  let r : ℤ := u - 1 - ((n + u - 1) % u : Nat)
  refine ((Int.ediv_emod_unique (r := r) (by omega)).2 ⟨?_, by omega, by omega⟩).1
  rw [mul_neg, ← Nat.cast_mul]
  omega

theorem ceil?_eq_map_toRat? (x : Double) : x.ceil? = x.toRat?.map Int.ceil := by
  rcases x with _ | _ | ⟨negative, units⟩
  · rfl
  · rfl
  · have hu : 0 < unitsPerOne := Nat.pos_of_ne_zero (by decide +kernel)
    rw [toRat?, Option.map_some, Rat.ceil_intCast_div_natCast]
    cases negative with
    | true => rw [ceil?, if_pos rfl, neg_neg, Int.natCast_ediv]
    | false => rw [ceil?, if_neg Bool.false_ne_true, neg_ediv_eq units hu, neg_neg]

/-- A quotient is rounded to less than an even number if it is less than the half before it. -/
theorem roundDiv_lt_iff {a b m : Nat} (hb : 0 < b) (hm : m % 2 = 0) :
    roundDiv a b < m ↔ 2 * a + b < 2 * (m * b) := by
  have ha := Nat.div_add_mod a b
  have hr := Nat.mod_lt a hb
  unfold roundDiv
  generalize a / b = q at *
  generalize a % b = r at *
  subst ha
  rcases Nat.lt_trichotomy (q + 1) m with h | rfl | h
  · have hle : b * (q + 2) ≤ m * b := by
      rw [Nat.mul_comm m]
      exact Nat.mul_le_mul_left b h
    rw [Nat.mul_add] at hle
    simp only
    split_ifs <;> omega
  · -- Only here does it matter which way the quotient is rounded.
    rw [Nat.add_mul, Nat.mul_comm q]
    simp only
    split_ifs <;> omega
  · have hle : m * b ≤ b * q := by
      rw [Nat.mul_comm m]
      exact Nat.mul_le_mul_left b (by omega)
    simp only
    split_ifs <;> omega

theorem roundDiv_mul_lt_iff (a i j : Nat) :
    roundDiv a (2 ^ j) * 2 ^ j < 2 ^ (i + 1 + j) ↔ 2 * a + 2 ^ j < 2 * 2 ^ (i + 1 + j) := by
  have hm : 2 ^ (i + 1) % 2 = 0 := by omega
  rw [Nat.pow_add 2 (i + 1) j, Nat.mul_lt_mul_right (Nat.two_pow_pos j),
    roundDiv_lt_iff (Nat.two_pow_pos j) hm]

/-- A number with 53 binary digits kept is below a power of two if it is nearer to the last number
of 53 digits before that power. -/
theorem roundDiv_log2_lt_iff (a e : Nat) :
    roundDiv a (2 ^ (a.log2 + 1 - 53)) * 2 ^ (a.log2 + 1 - 53) < 2 ^ (e + 54) ↔
      a + 2 ^ e < 2 ^ (e + 54) := by
  have hlt : a < 2 ^ (a.log2 + 1) := Nat.lt_log2_self
  have hp := Nat.two_pow_pos (a.log2 + 1 - 53)
  have he := Nat.two_pow_pos e
  have hadd (i : Nat) : 2 ^ (e + i) = 2 ^ i * 2 ^ e := by rw [Nat.pow_add, Nat.mul_comm]
  -- Only a number with as many digits as the last one below the power can be rounded up to it.
  rcases Nat.lt_trichotomy a.log2 (e + 53) with h | h | h
  · obtain ⟨i, hi⟩ : ∃ i, e + 54 = i + 1 + (a.log2 + 1 - 53) :=
      ⟨e + 53 - (a.log2 + 1 - 53), by omega⟩
    have ha : 2 ^ (a.log2 + 1) ≤ 2 ^ (e + 53) := Nat.pow_le_pow_right (by decide) (by omega)
    have hs : 2 ^ (a.log2 + 1 - 53) ≤ 2 ^ e := Nat.pow_le_pow_right (by decide) (by omega)
    rw [hadd] at ha
    rw [hi, roundDiv_mul_lt_iff, ← hi, hadd]
    omega
  · have hi : e + 54 = 52 + 1 + (a.log2 + 1 - 53) := by omega
    have hs : a.log2 + 1 - 53 = e + 1 := by omega
    rw [hi, roundDiv_mul_lt_iff, ← hi, hs, hadd, hadd]
    omega
  · have ha : 2 ^ a.log2 ≤ a := Nat.log2_self_le (by rintro rfl; simp at h)
    have hk : 2 ^ (e + 54) ≤ 2 ^ a.log2 := Nat.pow_le_pow_right (by decide) (by omega)
    have hi : a.log2 = 51 + 1 + (a.log2 + 1 - 53) := by omega
    have hr := roundDiv_mul_lt_iff a 51 (a.log2 + 1 - 53)
    rw [← hi] at hr
    omega

theorem isFinite_ofRatio_one_iff (negative : Bool) (n : Nat) :
    (ofRatio negative n 1).isFinite = true ↔ n < Value.countLimit := by
  -- The exponents are variables here, so that no power is computed.
  obtain ⟨p, hp⟩ : ∃ p, p = 1074 := ⟨_, rfl⟩
  obtain ⟨e, he⟩ : ∃ e, e = 970 := ⟨_, rfl⟩
  have hu : unitsPerOne = 2 ^ p := by
    unfold unitsPerOne
    rw [← hp, Nat.pow_eq]
  have hl : unitsLimit = 2 ^ (e + p + 54) := by
    unfold unitsLimit
    rw [show 2098 = e + p + 54 by omega, Nat.pow_eq]
  have hc : Value.countLimit = 2 ^ (e + 54) - 2 ^ e := by
    unfold Value.countLimit
    rw [show 1024 = e + 54 by omega, ← he, Nat.pow_eq, Nat.pow_eq]
  have hs : n * 2 ^ p + 2 ^ (e + p) < 2 ^ (e + p + 54) ↔ n + 2 ^ e < 2 ^ (e + 54) := by
    rw [Nat.pow_add 2 e p, ← Nat.add_mul, Nat.add_right_comm, Nat.pow_add 2 (e + 54) p,
      Nat.mul_lt_mul_right (Nat.two_pow_pos p)]
  have hr := (roundDiv_log2_lt_iff (n * 2 ^ p) (e + p)).trans hs
  unfold ofRatio
  simp only [hu, hl, Nat.div_one, Nat.one_mul, Nat.pow_eq, hc]
  split
  · next h =>
    have hn := hr.1 h
    exact iff_of_true rfl (by omega)
  · next h =>
    have hn := mt hr.2 h
    exact iff_of_false Bool.false_ne_true (by omega)

end Double

namespace Number

def toRat? : Number → Option ℚ
  | integer n => some n
  | real x => x.toRat?

def nearest : Number → Double
  | integer n => .ofRatio (decide (n < 0)) n.natAbs 1
  | real x => x

end Number

/-- What a loop makes of the value that counts its passes, as a part of the statement `source`. -/
inductive Value.Counts (source : List Token) (v : Value) : Except Fault Nat → Prop
  | passes {x : Number} {q : ℚ} {n : Nat} :
      v.number? = some x → x.nearest.isFinite = true → x.toRat? = some q → (n : ℤ) = max 0 ⌈q⌉ →
      Counts source v (.ok n)
  | tooLarge {n : ℤ} :
      v.number? = some (.integer n) → (Number.integer n).nearest.isFinite = false →
      Counts source v (.error .countTooLarge)
  | notFinite {x : Double} :
      v.number? = some (.real x) → x.isFinite = false →
      Counts source v (.error (.onTokens .countNotFinite source))
  | notNumber :
      v.number? = none → Counts source v (.error (.onTokens .countNotNumber source))

theorem Value.exists_counts (v : Value) {c : Context} {source : List Token}
    (hc : c.statement = some source) :
    ∃ k, v.Counts source k ∧ v.repetitions c = Run.ofExcept k c := by
  have hcomplain (cause : Complaint) :
      (Run.complain cause : Run Nat) c = .error (.onTokens cause source) c := by
    show EStateM.Result.error (Fault.onTokens cause (c.statement.getD [])) c = _
    rw [hc, Option.getD_some]
  cases hn : v.number? with
  | none =>
    refine ⟨_, .notNumber hn, ?_⟩
    rw [repetitions, hn]
    exact hcomplain _
  | some x =>
    cases x with
    | integer n =>
      have hf := Double.isFinite_ofRatio_one_iff (decide (n < 0)) n.natAbs
      by_cases h : n.natAbs < countLimit
      · refine ⟨.ok n.toNat, .passes hn (hf.2 h) rfl ?_, ?_⟩
        · rw [Int.ceil_intCast]
          omega
        · simp only [repetitions, hn, if_pos h]
          rfl
      · refine ⟨_, .tooLarge hn (Bool.eq_false_iff.2 fun ht ↦ h (hf.1 ht)), ?_⟩
        simp only [repetitions, hn, if_neg h]
        rfl
    | real x =>
      have hceil := x.ceil?_eq_map_toRat?
      cases x with
      | finite negative units =>
        refine ⟨.ok _, .passes hn rfl rfl ((Int.toNat_eq_max _).trans (max_comm _ _)), ?_⟩
        simp only [repetitions, hn, hceil, Double.toRat?, Option.map_some]
        rfl
      | _ =>
        refine ⟨_, .notFinite hn rfl, ?_⟩
        simp only [repetitions, hn, Double.ceil?]
        exact hcomplain _

end Kotoba
