import Kotoba.Literal

/-!
Values in words. Whole numbers of more digits than a literal may have are not put in words.
-/

namespace Kotoba

def Callable.name : Callable → Text
  | console => "console_sink".toList
  | alert => "alert_sink".toList
  | diagnostic => "diagnostic_sink".toList
  | function name _ => name
  | object typeName _ => typeName

/-- A callable in words; a function without a name is just a function. -/
def Callable.format (f : Callable) : Text :=
  let name : Text :=
    match f with
    | function [] _ => "function".toList
    | f => f.name
  "<関数 ".toList ++ name ++ ['>']

def Numeral.print (n : Int) : Except Fault Text :=
  if maxDigits < (Text.ofNat n.natAbs).length then .error .unprintable else .ok (Text.ofInt n)

theorem Numeral.print_eq (n : Int) :
    print n =
      if n.natAbs < Nat.pow 10 maxDigits then .ok (Text.ofInt n) else .error .unprintable := by
  have hl : maxDigits < (Text.ofNat n.natAbs).length ↔ ¬ n.natAbs < Nat.pow 10 maxDigits := by
    rw [← Text.length_ofNat_le_iff (by decide), Nat.not_le]
  simp only [print, hl, ite_not]

/-- A double that is a whole number is shown as one, of at most 309 digits. -/
def Double.format (x : Double) : Text :=
  match x.toInt? with
  | some n => Text.ofInt n
  | none => x.text

namespace Value

/-- The text that is printed for a value. -/
def format : Value → Except Fault Text
  | empty => .ok emptyWord
  | boolean b | array (.bool b) => .ok (if b then trueWord else falseWord)
  | integer n | array (.int32 n) => Numeral.print n
  | real x | array (.float32 x) => .ok x.format
  | text t => .ok t
  | callable f => .ok f.format
  | foreign f => .ok f.text

@[simp]
theorem format_unwrap (v : Value) : v.unwrap.format = v.format := by
  rcases v with _ | _ | _ | _ | _ | s | _ | _
  case array => cases s <;> rfl
  all_goals rfl

/-- The value is no whole number of too many digits. -/
def Printable (v : Value) : Prop :=
  ∀ n, v.unwrap = .integer n → n.natAbs < Nat.pow 10 Numeral.maxDigits

theorem format_cases (v : Value) :
    v.Printable ∧ (∃ t, v.format = .ok t) ∨ ¬ v.Printable ∧ v.format = .error .unprintable := by
  have hn (n : Int) (hv : v.unwrap = .integer n) :
      v.Printable ∧ (∃ t, v.format = .ok t) ∨ ¬ v.Printable ∧ v.format = .error .unprintable := by
    have hp : v.Printable ↔ n.natAbs < Nat.pow 10 Numeral.maxDigits := by
      simp only [Printable, hv, integer.injEq, forall_eq']
    have hf : v.format = Numeral.print n := by rw [← format_unwrap, hv, format]
    rw [hp, hf, Numeral.print_eq]
    split
    · next h => exact .inl ⟨h, _, rfl⟩
    · next h => exact .inr ⟨h, rfl⟩
  rcases v with _ | _ | n | _ | _ | s | _ | _
  case integer => exact hn n rfl
  case array =>
    cases s with
    | int32 n => exact hn n rfl
    | _ => exact .inl ⟨fun _ h ↦ (by cases h), _, rfl⟩
  all_goals exact .inl ⟨fun _ h ↦ (by cases h), _, rfl⟩

theorem Printable.exists_format {v : Value} (h : v.Printable) : ∃ t, v.format = .ok t :=
  v.format_cases.elim And.right fun hu ↦ absurd h hu.1

theorem eq_unprintable_of_format {v : Value} {e : Fault} (h : v.format = .error e) :
    e = .unprintable := by
  rcases v.format_cases with ⟨-, t, ht⟩ | ⟨-, hu⟩
  · cases ht.symm.trans h
  · cases hu.symm.trans h
    rfl

/-- The text of a value with its kind in front, strings in quotes. -/
def describe (v : Value) : Except Fault Text := do
  let k ← v.kind?
  let t ← v.format
  return k.label ++ [':', ' '] ++ if k = .string then '「' :: t ++ ['」'] else t

@[simp]
theorem describe_unwrap (v : Value) : v.unwrap.describe = v.describe := by
  simp only [describe, kind?_unwrap, format_unwrap]

theorem describe_eq {v : Value} {k : Kind} (h : v.kind? = .ok k) :
    v.describe = v.format.map fun t ↦
      k.label ++ [':', ' '] ++ if k = .string then '「' :: t ++ ['」'] else t := by
  unfold describe
  rw [h]
  cases v.format <;> rfl

theorem eq_of_describe_error {v : Value} {e : Fault} (h : v.describe = .error e) :
    e = .unprintable ∨ ∃ f, v = .foreign f ∧ e = .unsupported f.typeName none := by
  cases hk : v.kind? with
  | ok k =>
    rw [describe_eq hk] at h
    cases hf : v.format with
    | ok t =>
      rw [hf] at h
      cases h
    | error e' =>
      rw [hf] at h
      cases h
      exact .inl (eq_unprintable_of_format hf)
  | error e' =>
    unfold describe at h
    rw [hk] at h
    cases h
    unfold kind? at hk
    split at hk <;> cases hk
    exact .inr ⟨_, rfl, rfl⟩

end Value

end Kotoba
