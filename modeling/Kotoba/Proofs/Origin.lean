import Kotoba.Proofs.Comparison

/-!
Where the values of a run come from. A script makes no value but the empty one, truth and falsehood,
texts that it quotes and numbers that it writes out; all others were there before. So a run in a
scope without foreign values never meets one.
-/

namespace Kotoba

namespace Numeral

def Digits (t : Text) : Prop := t ≠ [] ∧ ∀ c ∈ t, '0' ≤ c ∧ c ≤ '9'

/-- The signs that a numeral may begin with, and whether they make it negative. -/
inductive Sign : Text → Bool → Prop
  | none : Sign [] false
  | plus : Sign ['+'] false
  | minus : Sign ['-'] true

/-- A text is a sign, digits and perhaps a point with more digits, and denotes the number. -/
inductive Denotes : Text → Value → Prop
  | whole {sign digits : Text} {negative : Bool} :
      Sign sign negative → Digits digits →
      Denotes (sign ++ digits)
        (.integer (if negative then -(Text.natValue digits : Int) else Text.natValue digits))
  | decimal {sign whole fraction : Text} {negative : Bool} :
      Sign sign negative → Digits whole → Digits fraction →
      Denotes (sign ++ (whole ++ '.' :: fraction))
        (.real (.ofDecimal negative (Text.natValue (whole ++ fraction)) (-fraction.length)))

theorem digits_of_allDigits {t : Text} (h : allDigits t = true) : Digits t := by
  simp only [allDigits, Bool.and_eq_true, decide_eq_true_eq, List.all_eq_true] at h
  refine ⟨h.1, fun c hc ↦ ?_⟩
  have hd := h.2 c hc
  simpa only [Text.isDigit, Bool.and_eq_true, decide_eq_true_eq] using hd

theorem sign_of_splitSign {t rest : Text} {negative : Bool}
    (h : Double.splitSign t = (negative, rest)) :
    ∃ sign, Sign sign negative ∧ t = sign ++ rest := by
  unfold Double.splitSign at h
  split at h
  · cases h
    exact ⟨_, .minus, rfl⟩
  · cases h
    exact ⟨_, .plus, rfl⟩
  · cases h
    exact ⟨_, .none, rfl⟩

theorem denotes_of_value {t : Text} {n : Numeral} {v : Value} (h : ofText? t = some n)
    (hv : n.value = .ok v) : Denotes t v := by
  unfold ofText? at h
  obtain ⟨negative, rest, hp⟩ : ∃ negative rest, Double.splitSign t = (negative, rest) := ⟨_, _, rfl⟩
  obtain ⟨sign, hs, rfl⟩ := sign_of_splitSign hp
  simp only [hp] at h
  split at h
  · split at h
    · next hd =>
      cases h
      simp only [value] at hv
      split at hv
      · cases hv
      · cases hv
        exact .whole hs (digits_of_allDigits hd)
    · cases h
  · next whole fraction hb =>
    split at h
    · next hd =>
      rw [Bool.and_eq_true] at hd
      cases h
      cases hv
      rw [Text.append_of_breakOn hb, List.append_assoc]
      exact .decimal hs (digits_of_allDigits hd.1) (digits_of_allDigits hd.2)
    · cases h

end Numeral

/-- The ways in which a value can come to be in a run of the script. -/
inductive Value.Origin (script : Text) (scope : Bindings) : Value → Prop
  | empty : Origin script scope .empty
  | boolean (b : Bool) : Origin script scope (.boolean b)
  | initial {name : Text} {v : Value} : scope.get? name = some v → Origin script scope v
  | quoted {t : Text} : t <:+: script.normalize → Origin script scope (.text t)
  | numeral {t : Text} {v : Value} :
      t <:+: script.normalize → Numeral.Denotes t v → Origin script scope v

namespace Value.Origin

variable {script : Text} {scope : Bindings} {v : Value}

theorem initial_of_foreign {f : Foreign} (h : Origin script scope (.foreign f)) :
    ∃ name, scope.get? name = some (.foreign f) := by
  cases h with
  | initial hs => exact ⟨_, hs⟩
  | numeral _ hd => cases hd

theorem exists_kind (h : Origin script scope v)
    (hs : ∀ name w, scope.get? name = some w → ∃ kind, w.kind? = .ok kind) :
    ∃ kind, v.kind? = .ok kind := by
  cases h with
  | initial hv => exact hs _ _ hv
  | numeral _ hd => cases hd <;> exact ⟨_, rfl⟩
  | _ => exact ⟨_, rfl⟩

end Value.Origin

theorem Literal.slice_of_quoted? {t inside : Text} (h : quoted? t = some inside) :
    inside <:+: t := by
  unfold quoted? at h
  split at h
  · split at h
    · cases h
      exact List.infix_cons (List.dropLast_prefix _).isInfix
    · cases h
  · cases h

theorem Literal.eq_of_word? {t : Text} {v : Value} (h : word? t = some v) :
    v = .empty ∨ ∃ b, v = .boolean b := by
  unfold word? at h
  split at h
  · cases h
    exact .inr ⟨true, rfl⟩
  · split at h
    · cases h
      exact .inr ⟨false, rfl⟩
    · split at h
      · cases h
        exact .inl rfl
      · cases h

theorem Literal.origin_of_value? {script t : Text} {scope : Bindings} {v : Value}
    (ht : t <:+: script.normalize) (h : Literal.value? t = some (.ok v)) :
    v.Origin script scope := by
  unfold Literal.value? at h
  split at h
  · next hq =>
    cases h
    exact .quoted ((slice_of_quoted? hq).trans ht)
  · split at h
    · next hn => exact .numeral ht (Numeral.denotes_of_value hn (Option.some.inj h))
    · obtain ⟨w, hw, he⟩ := Option.map_eq_some_iff.1 h
      cases he
      obtain rfl | ⟨b, rfl⟩ := eq_of_word? hw
      · exact .empty
      · exact .boolean b

theorem Value.Made.origin {script : Text} {scope : Bindings} {v : Value} (h : v.Made script) :
    v.Origin script scope := by
  cases h with
  | empty => exact .empty
  | boolean b => exact .boolean b
  | literal ht hv => exact Literal.origin_of_value? ht hv

/-- A run beside itself, its values being alike to themselves for the reason that they have an
origin. -/
def Comparison.ofOrigin (script : Text) (c : Context) : Comparison where
  script := script
  left := c
  right := c
  Like v w := v = w ∧ v.Origin script c.scope
  unwrap_eq h := congrArg Value.unwrap h.1
  made h := ⟨rfl, h.origin⟩

/-- The value is the result of the run from `c`, or was bound or handed on in it. -/
inductive Run.Produces (c : Context) (r : Run.Result) : Value → Prop
  | result {v : Value} : Run.value? r = some v → Produces c r v
  | bound {name : Text} {v : Value} :
      (Run.context r).scope.get? name = some v → Produces c r v
  | called {f : Callable} {v : Value} :
      .called f v ∈ (Run.context r).since c → Produces c r v

theorem Comparison.origin_of_produces {script : Text} {c : Context} {r : Run.Result} {v : Value}
    (ha : (ofOrigin script c).AlikeResults (ofOrigin script c).Like r r)
    (h : Run.Produces c r v) : v.Origin script c.scope := by
  cases h with
  | result hv =>
    have hr := ha.value?
    rw [hv] at hr
    cases hr with
    | some hl => exact hl.2
  | @bound name _ hv =>
    by_cases hn : name <:+: script.normalize
    · have hr := ha.context.mentioned name hn
      rw [hv] at hr
      cases hr with
      | some hl => exact hl.2
    · have hu := (ha.context.unmentioned name hn).1
      exact .initial (hu.symm.trans hv)
  | called hm =>
    have he := List.forall₂_same.1 ha.context.since _ hm
    cases he with
    | called hl => exact hl.2

/-- Every value of a run has an origin, also if the run fails; one that is refused was in the scope
from the start. So where all values in the scope are of known kinds, all values of the run are, and
none is refused. -/
theorem runScript_origin (script : Text) {c : Context} (hf : c.functions = Builtin.standard) :
    let r := runScript script c
    (∀ v, Run.Produces c r v → v.Origin script c.scope) ∧
      (∀ typeName place, Run.fault? r = some (.unsupported typeName place) →
        ∃ name f, c.scope.get? name = some (.foreign f) ∧ f.typeName = typeName) ∧
      ((∀ name v, c.scope.get? name = some v → ∃ kind, v.kind? = .ok kind) →
        (∀ v, Run.Produces c r v → ∃ kind, v.kind? = .ok kind) ∧
          ∀ typeName place, Run.fault? r ≠ some (.unsupported typeName place)) := by
  intro r
  let k := Comparison.ofOrigin script c
  have ha : k.AlikeResults k.Like r r := by
    refine k.alike_runScript hf hf rfl rfl fun name _ ↦ ?_
    show Option.Rel k.Like (c.scope.get? name) (c.scope.get? name)
    cases hv : c.scope.get? name with
    | none => exact .none
    | some v => exact .some ⟨rfl, .initial hv⟩
  have ho : ∀ v, Run.Produces c r v → v.Origin script c.scope :=
    fun _ ↦ Comparison.origin_of_produces ha
  have hu : ∀ typeName place, Run.fault? r = some (.unsupported typeName place) →
      ∃ name f, c.scope.get? name = some (.foreign f) ∧ f.typeName = typeName := by
    intro typeName place he
    obtain ⟨f, w, hl, ht⟩ := ha.accounts he typeName place rfl
    obtain ⟨name, hn⟩ := hl.2.initial_of_foreign
    exact ⟨name, f, hn, ht⟩
  refine ⟨ho, hu, fun hs ↦ ⟨fun v hv ↦ (ho v hv).exists_kind hs, fun typeName place he ↦ ?_⟩⟩
  obtain ⟨name, f, hn, -⟩ := hu typeName place he
  obtain ⟨kind, hk⟩ := hs name _ hn
  cases hk

/-- A text that is shown and a number that is left as the result. -/
theorem runScript_origin_of_literals :
    let script : Text := "「b」をコンソールに表示する\n-1.5".toList
    let scope := Context.standard.scope
    let r := runScript script Context.standard
    let number := Double.ofDecimal true 15 (-1)
    Run.Produces Context.standard r (.text ['b']) ∧ (Value.text ['b']).Origin script scope ∧
      Run.Produces Context.standard r (.real number) ∧ (Value.real number).Origin script scope ∧
      ∀ typeName place, Run.fault? r ≠ some (.unsupported typeName place) := by
  intro script scope r number
  have ht : Run.Produces Context.standard r (.text ['b']) := by
    have hm : Effect.called .console (.text ['b']) ∈
        (Run.context r).since Context.standard := by decide +kernel
    exact .called hm
  have hn : Run.Produces Context.standard r (.real number) := by
    have hv : Run.value? r = some (.real number) := by decide +kernel
    exact .result hv
  have hk : ∀ name v, scope.get? name = some v → ∃ kind, v.kind? = .ok kind := by
    intro name v hv
    simp only [scope, Context.standard, Context.ofSinks, Bindings.get?] at hv
    split at hv
    · cases hv
      exact ⟨_, rfl⟩
    · split at hv
      · cases hv
        exact ⟨_, rfl⟩
      · cases hv
  obtain ⟨ho, -, hs⟩ := runScript_origin script (rfl : Context.standard.functions = _)
  exact ⟨ht, ho _ ht, hn, ho _ hn, (hs hk).2⟩

end Kotoba
