import Kotoba.Proofs.Origin
import Kotoba.Proofs.ParticleOrder
import Mathlib.Data.List.Induction
import Mathlib.Data.Nat.Digits.Defs
import Mathlib.Tactic.IntervalCases

/-!
Whole numbers as scripts. Digits denote the number that their places make of them, and the digits
written for a number denote it again. No structuring word and no name of a function stands in a sign
and digits, so a script that is no more than a numeral has its number as value.
-/

namespace Kotoba

namespace Text

/-- Reading digits from the left gives each the worth of its place. -/
theorem natValue_eq_ofDigits (t : Text) :
    natValue t = Nat.ofDigits 10 (t.reverse.map digitValue) := by
  induction t using List.reverseRecOn with
  | nil => rfl
  | append_singleton t c ih =>
    rw [natValue_concat, ih, List.reverse_append, List.reverse_singleton, List.singleton_append,
      List.map_cons, Nat.ofDigits_cons]
    omega

end Text

namespace Numeral

variable {sign digits : Text} {negative : Bool}

/-- The whole number of a sign and digits: their sum, each with the worth of its place. -/
def integer (negative : Bool) (digits : Text) : ℤ :=
  let n : ℕ := Nat.ofDigits 10 (digits.reverse.map fun c ↦ c.toNat - '0'.toNat)
  if negative then -(n : ℤ) else n

theorem integer_eq (negative : Bool) (digits : Text) :
    integer negative digits =
      if negative then -(Text.natValue digits : ℤ) else Text.natValue digits := by
  rw [Text.natValue_eq_ofDigits]
  rfl

/-- The characters of which a sign and digits consist. -/
def characters : Text := ['+', '-', '0', '1', '2', '3', '4', '5', '6', '7', '8', '9']

theorem mem_characters_of_digit {c : Char} (h : '0' ≤ c ∧ c ≤ '9') : c ∈ characters := by
  have hl : 48 ≤ c.toNat := h.1
  have hu : c.toNat ≤ 57 := h.2
  have hs : ∀ n, 48 ≤ n → n ≤ 57 → Char.ofNat n ∈ characters := by
    intro n hn hn'
    interval_cases n <;> decide
  rw [← Char.ofNat_toNat c]
  exact hs c.toNat hl hu

theorem subset_characters (hs : Sign sign negative) (hd : Digits digits) :
    sign ++ digits ⊆ characters := by
  intro c hc
  rcases List.mem_append.1 hc with hc | hc
  · cases hs with
    | none => cases hc
    | plus =>
      rw [List.mem_singleton.1 hc]
      decide
    | minus =>
      rw [List.mem_singleton.1 hc]
      decide
  · exact mem_characters_of_digit (hd.2 c hc)

theorem ne_nil_of_digits (sign : Text) (hd : Digits digits) : sign ++ digits ≠ [] := by
  simp [hd.1]

section Characters

variable {t : Text} (h : t ⊆ characters)

include h

theorem normalize_eq : t.normalize = t := by
  have ha : characters.all (fun c ↦ narrow c = c && !isSpacing c) = true := by decide
  have hc : ∀ c ∈ characters, narrow c = c ∧ isSpacing c = false := by
    simpa only [List.all_eq_true, Bool.and_eq_true, decide_eq_true_eq, Bool.not_eq_true'] using ha
  have hm : t.map narrow = t := (List.map_congr_left fun c hm ↦ (hc c (h hm)).1).trans t.map_id
  rw [Text.normalize, hm, List.filter_eq_self]
  intro c hm
  simp [(hc c (h hm)).2]

theorem not_reserved_infix : ∀ w ∈ Builtin.reserved, ¬ w <:+: t := by
  have hw : ∀ w ∈ Builtin.reserved, ¬ w ⊆ characters := by decide
  intro w hm hi
  exact hw w hm (List.Subset.trans hi.subset h)

theorem get?_ofSinks (output warning inspection : Callable) (functions : List Builtin) :
    (Context.ofSinks output warning inspection functions).scope.get? t = none := by
  have hc : consoleName ≠ t := by
    rintro rfl
    exact absurd (h List.mem_cons_self) (by decide)
  have ha : alertName ≠ t := by
    rintro rfl
    exact absurd (h List.mem_cons_self) (by decide)
  simp only [Context.ofSinks, Bindings.get?, hc, ha, if_false]

end Characters

theorem splitSign_eq (hs : Sign sign negative) (hd : Digits digits) :
    Double.splitSign (sign ++ digits) = (negative, digits) := by
  cases hs with
  | plus => rfl
  | minus => rfl
  | none =>
    obtain ⟨c, t, rfl⟩ := List.exists_cons_of_ne_nil hd.1
    have hc := hd.2 c List.mem_cons_self
    -- The first digit is not taken for a sign.
    rw [List.nil_append, Double.splitSign]
    · intro t' he
      cases he
      exact absurd hc.1 (by decide)
    · intro t' he
      cases he
      exact absurd hc.1 (by decide)

/-- A sign and digits are read as the numeral that they are. -/
theorem ofText?_eq (hs : Sign sign negative) (hd : Digits digits) :
    ofText? (sign ++ digits) = some ⟨negative, digits, none⟩ := by
  have hb : digits.breakOn ['.'] = none := by
    rw [Text.breakOn_eq_none_iff]
    intro hi
    exact absurd (hd.2 '.' (hi.subset List.mem_cons_self)).1 (by decide)
  have ha : allDigits digits = true := by
    simp only [allDigits, Bool.and_eq_true, decide_eq_true_eq, List.all_eq_true]
    refine ⟨hd.1, fun c hc ↦ ?_⟩
    simpa only [Text.isDigit, Bool.and_eq_true, decide_eq_true_eq] using hd.2 c hc
  simp only [ofText?, splitSign_eq hs hd, hb, ha, if_true]

theorem literal_eq (hs : Sign sign negative) (hd : Digits digits) (hl : digits.length ≤ 4300) :
    Literal.value? (sign ++ digits) = some (.ok (.integer (integer negative digits))) := by
  have hq : Literal.quoted? (sign ++ digits) = none := by
    unfold Literal.quoted?
    split
    · next t ht =>
      have hm := subset_characters hs hd (ht ▸ List.mem_cons_self)
      exact absurd hm (by decide)
    · rfl
  have hm : ¬ maxDigits < digits.length := Nat.not_lt.2 hl
  simp only [Literal.value?, hq, ofText?_eq hs hd, value, hm, if_false, integer_eq]

/-- The sign and the digits that are written for a number. -/
theorem exists_ofInt (n : ℤ) :
    ∃ sign digits negative, Sign sign negative ∧ Digits digits ∧ digits = Text.ofNat n.natAbs ∧
      Text.ofInt n = sign ++ digits ∧ integer negative digits = n := by
  have hd (m : Nat) : Digits (Text.ofNat m) := by
    refine ⟨Text.ofNat_ne_nil m, fun c hc ↦ ?_⟩
    have hi := Text.isDigit_of_mem_ofNat hc
    simpa only [Text.isDigit, Bool.and_eq_true, decide_eq_true_eq] using hi
  cases n with
  | ofNat m => exact ⟨[], _, false, .none, hd m, rfl, rfl, by simp [integer_eq]⟩
  | negSucc m =>
    refine ⟨['-'], _, true, .minus, hd (m + 1), rfl, rfl, ?_⟩
    rw [integer_eq, Text.natValue_ofNat, if_pos rfl]
    rfl

end Numeral

/-- A text with no reserved word in it, that is no name, is the literal that it spells. -/
theorem runScript_literal {t : Text} (hn : t ≠ []) (ht : t.normalize = t)
    (hw : ∀ w ∈ Builtin.reserved, ¬ w <:+: t) {c : Context} (hf : c.functions = Builtin.standard)
    (hc : c.scope.get? t = none) {v : Value} (hv : Literal.value? t = some (.ok v)) :
    runScript t c = .ok v (c.note (.traced (.statement (tokenize t 1)))) := by
  have hm : t.mask = t := by
    refine Text.mask_of_none (Text.breakQuoted_of_not_mem fun hq ↦ ?_)
    obtain ⟨a, b, rfl⟩ := List.append_of_mem hq
    exact hw ['「'] (by decide) ⟨a, b, by simp⟩
  have hs : t.Simple := by
    intro w ha hi
    rw [hm] at hi
    exact absurd hi (hw w (List.mem_append_left _ ha))
  have hr : Token.render (tokenize t 1) = t := by rw [Token.render_tokenize, ht]
  have hu := hs.unstructured ht 1
  have hne : tokenize t 1 ≠ [] := tokenize_ne_nil (ht.symm ▸ hn) 1
  have hfind : Builtin.find? Builtin.standard t = none := by
    rw [Builtin.find?_eq_none_iff]
    intro g hg
    cases ho : g.offset? t.mask with
    | none => rfl
    | some i =>
      have hi := Builtin.name_infix_of_offset? ho
      rw [hm] at hi
      exact absurd hi (hw _ (Builtin.name_mem_reserved hg))
  refine (runTokens_of_line (hu.trimmed hne) hu.readLine_eq c).trans ?_
  rw [hf]
  exact Run.ofTokens_literal (hu.trimmed hne) (hu.clause_eq hne) (hr.symm ▸ hfind) (hr.symm ▸ hc)
    (hr.symm ▸ hv)

/-- In a context not yet run in, a script that comes down to a sign and up to 4300 digits gives the
whole number that they denote and does nothing; so does a script that is a number of up to 4300
digits as it is printed. -/
theorem runScript_integer (output warning inspection : Callable) :
    let c := Context.ofSinks output warning inspection Builtin.standard
    (∀ t sign digits negative, t.normalize = sign ++ digits → Numeral.Sign sign negative →
        Numeral.Digits digits → digits.length ≤ 4300 →
        ∃ d, c.Quiet d ∧ d.scope = c.scope ∧
          runScript t c = .ok (.integer (Numeral.integer negative digits)) d) ∧
      ∀ n : ℤ, n.natAbs < 10 ^ 4300 →
        ∃ t, (Value.integer n).format = .ok t ∧
          ∃ d, c.Quiet d ∧ d.scope = c.scope ∧ runScript t c = .ok (.integer n) d := by
  intro c
  have hr : ∀ t sign digits negative, t.normalize = sign ++ digits →
      Numeral.Sign sign negative → Numeral.Digits digits → digits.length ≤ 4300 →
      ∃ d, c.Quiet d ∧ d.scope = c.scope ∧
        runScript t c = .ok (.integer (Numeral.integer negative digits)) d := by
    intro t sign digits negative ht hs hd hl
    have hm := Numeral.subset_characters hs hd
    refine ⟨_, Context.Quiet.traced c (.statement (tokenize (sign ++ digits) 1)), rfl, ?_⟩
    rw [runScript_normalize, ht]
    exact runScript_literal (Numeral.ne_nil_of_digits sign hd) (Numeral.normalize_eq hm)
      (Numeral.not_reserved_infix hm) rfl (Numeral.get?_ofSinks hm output warning inspection _)
      (Numeral.literal_eq hs hd hl)
  refine ⟨hr, fun n hn ↦ ?_⟩
  obtain ⟨sign, digits, negative, hs, hd, rfl, ht, hi⟩ := Numeral.exists_ofInt n
  have hm := Numeral.subset_characters hs hd
  -- The number of places is a variable here, so that no power is computed.
  have hk {k : ℕ} (hk : 0 < k) (h : n.natAbs < 10 ^ k) : (Text.ofNat n.natAbs).length ≤ k :=
    (Text.length_ofNat_le_iff hk).2 h
  have hl : (Text.ofNat n.natAbs).length ≤ 4300 := hk (by decide) hn
  have hf : (Value.integer n).format = .ok (Text.ofInt n) := by
    rw [Value.format, Numeral.print, Numeral.maxDigits, if_neg (Nat.not_lt.2 hl)]
  have hv := hr (Text.ofInt n) _ _ _ (by rw [ht, Numeral.normalize_eq hm]) hs hd hl
  rw [hi] at hv
  exact ⟨Text.ofInt n, hf, hv⟩

/-- A numeral with zeros in front, a wide digit and spacing, and a number that no double is. -/
theorem runScript_integer_of_spaced_digits :
    let c := Context.standard
    let t : Text := " -　0０4\t、２".toList
    let n : ℤ := -9007199254740993
    (t.normalize = ['-'] ++ ['0', '0', '4', '2'] ∧ Numeral.Sign ['-'] true ∧
        Numeral.Digits ['0', '0', '4', '2'] ∧
        ∃ d, c.Quiet d ∧ runScript t c = .ok (.integer (-42)) d) ∧
      n.natAbs < 10 ^ 4300 ∧ (Value.integer n).format = .ok "-9007199254740993".toList ∧
        ∃ d, c.Quiet d ∧ runScript "-9007199254740993".toList c = .ok (.integer n) d := by
  intro c t n
  have ht : t.normalize = ['-'] ++ ['0', '0', '4', '2'] := by decide +kernel
  have hd : Numeral.Digits ['0', '0', '4', '2'] := Numeral.digits_of_allDigits (by decide)
  have hn : n.natAbs < 10 ^ 4300 := by decide +kernel
  obtain ⟨hr, hp⟩ := runScript_integer .console .alert .diagnostic
  obtain ⟨d, hq, -, he⟩ := hr t _ _ _ ht .minus hd (by decide)
  obtain ⟨u, hu, d', hq', -, he'⟩ := hp n hn
  have hf : (Value.integer n).format.toOption = some "-9007199254740993".toList := by
    decide +kernel
  rw [hu] at hf
  obtain rfl : u = "-9007199254740993".toList := Option.some.inj hf
  exact ⟨⟨ht, .minus, hd, d, hq, he⟩, hn, hu, d', hq', he'⟩

end Kotoba
