import Kotoba.Proofs.Nesting

/-!
Names. The text under which a binding puts a value is the text of the tokens before its mark. If
these tokens are neither a call nor a statement of another form, then evaluating them looks up the
same text, and gives the value back.
-/

namespace Kotoba

variable {nameMark valueMark : Token} {name value : List Token}

namespace Clause

theorem read_binding (hn : SelfContained name) (hnm : Lacks .nameMark name)
    (hm : nameMark.isA .nameMark = true) (hv : SelfContained value)
    (hvm : Lacks .valueMark value) (hw : valueMark.isA .valueMark = true) :
    let ts := name ++ nameMark :: (value ++ [valueMark])
    read ts ts = .ok (.binding name value, []) := by
  intro ts
  have hi : ts.head?.any (·.isA .ifMark) = false :=
    Token.any_head?_append hn.conditional.any_head? (Token.isA_eq_false hm (by decide)) _
  have hl : ts.getLast?.any (·.isA .loopMark) = false :=
    Token.any_getLast?_append (Token.isA_eq_false hm (by decide))
      (Token.any_getLast?_append (Token.isA_eq_false hw (by decide)) rfl value) name
  rw [read, forms_of_any hi hl]
  simp only [Form.others, Form.first?, Form.steps, List.map_cons, List.map_nil, Option.elim,
    Step.ofClass, ts, hn.run_capture hnm hm (by decide), hv.run_capture hvm hw (by decide)]
  rfl

end Clause

/-- Tokens that are no call and no statement of another form: what is left is the text of them. -/
structure Nameable (ts : List Token) : Prop extends SelfContained ts where
  unmarked : Lacks .nameMark ts
  first : ∀ k ∈ [WordClass.delimiter, .blockOpen], ts.head?.any (·.isA k) = false
  last : ∀ k ∈ [WordClass.delimiter, .loopMark], ts.getLast?.any (·.isA k) = false

namespace Nameable

variable (h : Nameable name)

include h

theorem trimmed (hn : name ≠ []) : Token.Trimmed name :=
  Token.trimmed_of_any hn (h.first _ (by simp)) (h.last _ (by simp))

theorem trimmed_binding (hm : nameMark.isA .nameMark = true)
    (hw : valueMark.isA .valueMark = true) :
    Token.Trimmed (name ++ nameMark :: (value ++ [valueMark])) := by
  have hmd : nameMark.isA .delimiter = false := Token.isA_eq_false hm (by decide)
  have hwd : valueMark.isA .delimiter = false := Token.isA_eq_false hw (by decide)
  refine Token.trimmed_of_any (by simp) ?_ ?_
  · exact Token.any_head?_append (h.first _ (by simp)) hmd _
  · exact Token.any_getLast?_append hmd (Token.any_getLast?_append hwd rfl value) name

theorem evaluate_eq (hn : Token.render name ≠ []) {c : Context}
    (hf : Builtin.find? c.functions (Token.render name) = none) {v : Value}
    (hv : c.scope.get? (Token.render name) = some v) :
    (Cursor.ofTokens name).evaluate c = .ok v (c.note (.traced (.statement name))) := by
  have hne : name ≠ [] := by
    rintro rfl
    exact hn rfl
  obtain ⟨t, ts, rfl⟩ := List.exists_cons_of_ne_nil hne
  have hp : Clause.read (t :: ts) (t :: ts) = .ok (.phrase, t :: ts) :=
    Clause.read_phrase rfl h.conditional.any_head? (h.first .blockOpen (by simp))
      (h.last .loopMark (by simp)) (Pattern.run_capture_of_lacks h.closed h.unmarked _)
  exact Run.ofTokens_bound (h.trimmed hne) hp hf hv

end Nameable

theorem Statement.bindName_apply (source name : List Token) (value : Run Value) (c : Context) :
    bindName source name value c =
      if Token.render name = [] then .error (.onTokens (.noName (Token.spaced source)) source) c
      else
        match value c with
        | .error e d => .error e d
        | .ok v d => .ok .empty { d with scope := d.scope.set (Token.render name) v } := by
  unfold bindName
  split
  · rfl
  · refine (Run.bind_apply value _ c).trans ?_
    cases value c <;> rfl

/-- A binding that succeeds changes nothing after its value but the name, and the name then gives
the value. It fails as its value does, and then leaves what was left there. -/
theorem evaluate_binding (hm : nameMark.isA .nameMark = true)
    (hw : valueMark.isA .valueMark = true) (hn : Nameable name) (hv : Closed value)
    (hvm : Lacks .valueMark value) (hvi : Lacks .ifMark value) {c : Context}
    (hf : Builtin.find? c.functions (Token.render name) = none) :
    let ts := name ++ nameMark :: (value ++ [valueMark])
    let r := (Cursor.ofTokens ts).evaluate c
    let s := (Cursor.ofTokens value).evaluate (c.enter ts)
    (∀ v d, r = .ok v d → v = .empty ∧ ∃ w e, s = .ok w e ∧
      d = { e.leave c with scope := e.scope.set (Token.render name) w } ∧
      (Cursor.ofTokens name).evaluate d = .ok w (d.note (.traced (.statement name)))) ∧
    (Token.render name ≠ [] → Run.fault? r = Run.fault? s ∧
      ∀ e d, s = .error e d → r = .error e (d.leave c)) ∧
    (Token.render name = [] → r =
      .error (.onTokens (.noName (Token.spaced ts)) ts) (c.note (.traced (.statement ts)))) := by
  intro ts r s
  have hread : Clause.read ts ts = .ok (.binding name value, []) :=
    Clause.read_binding hn.toSelfContained hn.unmarked hm ⟨hv, hvi⟩ hvm hw
  have htrim : Token.Trimmed ts := hn.trimmed_binding hm hw
  have he : r = c.exit (Statement.bindName ts name _ (c.enter ts)) :=
    Run.ofTokens_clause c.functions htrim.trim_eq htrim hread c
  have hs : Run.ofTokens c.functions value (c.enter ts) = s := rfl
  rw [Statement.bindName_apply, hs] at he
  by_cases hnil : Token.render name = []
  · rw [if_pos hnil] at he
    refine ⟨?_, fun h ↦ absurd hnil h, fun _ ↦ he⟩
    intro v d h
    rw [he] at h
    cases h
  rw [if_neg hnil] at he
  cases hs : s with
  | error e d =>
    rw [hs] at he
    have hd : r = .error e (d.leave c) := he
    rw [hd]
    refine ⟨?_, fun _ ↦ ⟨rfl, ?_⟩, fun h ↦ absurd h hnil⟩
    · intro v d' h
      cases h
    · intro e' d' h
      cases h
      rfl
  | ok w e =>
    let d := { e.leave c with scope := e.scope.set (Token.render name) w }
    rw [hs] at he
    have hd : r = .ok .empty d := he
    rw [hd]
    refine ⟨?_, fun _ ↦ ⟨rfl, ?_⟩, fun h ↦ absurd h hnil⟩
    · intro v d' h
      obtain ⟨rfl, rfl⟩ := EStateM.Result.ok.inj h
      have hfun : e.functions = (c.enter ts).functions := Cursor.functions_of_evaluate hs
      have hf : Builtin.find? d.functions (Token.render name) = none := by
        show Builtin.find? e.functions _ = none
        rwa [hfun]
      exact ⟨rfl, w, e, rfl, rfl, hn.evaluate_eq hnil hf (Bindings.get?_set_self _ _ _)⟩
    · intro e' d' h
      cases h

/-- The value binds the name itself, with another value, before the binding does. -/
theorem evaluate_binding_of_quoted_name :
    let name := tokenize "「を」の3回".toList 1
    let value := tokenize "(「を」の3回を1とする\n2)".toList 1
    let ts := name ++ ⟨['を'], 1⟩ :: (value ++ [⟨['と', 'す', 'る'], 2⟩])
    let r := (Cursor.ofTokens ts).evaluate Context.standard
    (Nameable name ∧ Closed value ∧ Lacks .valueMark value ∧ Lacks .ifMark value ∧
      Builtin.find? Context.standard.functions (Token.render name) = none) ∧
      Run.value? r = some .empty ∧
      Run.value? ((Cursor.ofTokens name).evaluate (Run.context r)) = some (.integer 2) := by
  intro name value ts r
  have hn : Nameable name :=
    ⟨⟨by decide +kernel, by decide +kernel⟩, by decide +kernel, by decide +kernel,
      by decide +kernel⟩
  have hv : Closed value ∧ Lacks .valueMark value ∧ Lacks .ifMark value := by decide +kernel
  have hf : Builtin.find? Context.standard.functions (Token.render name) = none := by
    decide +kernel
  have hm : Token.isA ⟨['を'], 1⟩ .nameMark = true := rfl
  have hw : Token.isA ⟨['と', 'す', 'る'], 2⟩ .valueMark = true := rfl
  have hr : Run.value? r = some .empty := by decide +kernel
  have hs : Run.value? ((Cursor.ofTokens value).evaluate (Context.standard.enter ts)) =
      some (.integer 2) := by decide +kernel
  obtain ⟨hok, -⟩ := evaluate_binding hm hw hn hv.1 hv.2.1 hv.2.2 hf
  refine ⟨⟨hn, hv.1, hv.2.1, hv.2.2, hf⟩, hr, ?_⟩
  cases he : r with
  | error e d =>
    rw [he] at hr
    cases hr
  | ok v d =>
    obtain ⟨-, w, e, hw, -, hl⟩ := hok v d he
    rw [hw] at hs
    obtain rfl : w = .integer 2 := Option.some.inj hs
    exact congrArg Run.value? hl

end Kotoba
