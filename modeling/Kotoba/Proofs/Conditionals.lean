import Kotoba.Proofs.Nesting

/-!
Conditionals. Of the forms that a conditional may take one fits, and its captures are the parts
between the marks; so the condition is evaluated and then the one part that its value chooses.
-/

namespace Kotoba

variable {mark thenMark elseMark : Token} {condition consequent alternative : List Token}

namespace Clause

theorem forms_of_ifMark (hm : mark.isA .ifMark = true) (source rest : List Token) :
    forms source (mark :: rest) = (Form.conditionals, true) := by
  rw [forms, if_pos (by simpa using hm)]

theorem read_conditional (hm : mark.isA .ifMark = true) (ht : thenMark.isA .thenMark = true)
    (he : elseMark.isA .elseMark = true) (hc : SelfContained condition)
    (hct : Lacks .thenMark condition) (hs : SelfContained consequent)
    (hse : Lacks .elseMark consequent) (ha : Closed alternative)
    (had : Lacks .delimiter alternative) (source : List Token) :
    read source (mark :: (condition ++ thenMark :: (consequent ++ elseMark :: alternative))) =
      .ok (.conditional condition consequent (some alternative), []) := by
  rw [read, forms_of_ifMark hm]
  simp only [Form.conditionals, Form.first?, Form.steps, List.map_cons, List.map_nil, Option.elim,
    Step.ofClass, Pattern.run_word hm, hc.run_capture hct ht (by decide),
    hs.run_capture hse he (by decide), Pattern.run_capture_of_lacks ha had]
  rfl

/-- A conditional without an alternative: no form with one fits. -/
theorem read_conditional_then (hm : mark.isA .ifMark = true)
    (ht : thenMark.isA .thenMark = true) (hc : SelfContained condition)
    (hct : Lacks .thenMark condition) (hs : Closed consequent) (hse : Lacks .elseMark consequent)
    (hsd : Lacks .delimiter consequent) (source : List Token) :
    read source (mark :: (condition ++ thenMark :: consequent)) =
      .ok (.conditional condition consequent none, []) := by
  rw [read, forms_of_ifMark hm]
  simp only [Form.conditionals, Form.first?, Form.steps, List.map_cons, List.map_nil, Option.elim,
    Step.ofClass, Pattern.run_word hm, hc.run_capture hct ht (by decide),
    Pattern.run_capture_of_lacks hs hse, Pattern.run_capture_of_lacks hs hsd]
  rfl

end Clause

theorem Value.holds_eq_false_iff (v : Value) :
    v.holds = false ↔ v.unwrap = .boolean false ∨ v.unwrap = .empty := by
  rcases v with _ | _ | _ | _ | _ | s | _ | _
  case array => cases s <;> simp [holds, unwrap, Scalar.value]
  all_goals simp [holds, unwrap]

/-- What is evaluated after a condition with the given result. -/
def Run.choose (r : Run.Result) (consequent alternative : Run Value) : Run.Result :=
  match r with
  | .error e d => .error e d
  | .ok v d => if v.unwrap = .boolean false ∨ v.unwrap = .empty then alternative d else consequent d

theorem Cursor.evaluate_of_conditional {ts us after : List Token}
    {alternative : Option (List Token)} (hu : Token.trim ts = us) (h : Token.Trimmed us)
    (hr : Clause.read us us = .ok (.conditional condition consequent alternative, after))
    (c : Context) :
    (Cursor.ofTokens ts).evaluate c =
      c.exit (Run.choose ((Cursor.ofTokens condition).evaluate (c.enter us))
        (Cursor.ofTokens consequent).evaluate
        (alternative.elim (pure .empty) fun ts ↦ (Cursor.ofTokens ts).evaluate)) := by
  refine (Run.ofTokens_clause c.functions hu h hr c).trans (congrArg c.exit ?_)
  have hc : Run.ofTokens c.functions condition (c.enter us) =
      (Cursor.ofTokens condition).evaluate (c.enter us) := rfl
  rw [Run.ofClause, Run.bind_apply, hc]
  cases hv : (Cursor.ofTokens condition).evaluate (c.enter us) with
  | error e d => rfl
  | ok v d =>
    have hf : d.functions = (c.enter us).functions := Cursor.functions_of_evaluate hv
    have he (ts : List Token) :
        Run.ofTokens c.functions ts d = (Cursor.ofTokens ts).evaluate d := by
      show Run.ofTokens (c.enter us).functions ts d = Run.ofTokens d.functions ts d
      rw [hf]
    simp only [Run.choose, ← Value.holds_eq_false_iff]
    cases v.holds with
    | true => simp only [if_true, Bool.true_eq_false, if_false, he]
    | false =>
      cases alternative with
      | none => rfl
      | some ts => simp only [Bool.false_eq_true, if_false, if_true, Option.elim, he]

/-- A conditional evaluates its condition once, as a part of the whole statement, and then only the
part that the value chooses. -/
theorem evaluate_conditional (hm : mark.isA .ifMark = true) (ht : thenMark.isA .thenMark = true)
    (he : elseMark.isA .elseMark = true) (hc : Closed condition) (hci : Lacks .ifMark condition)
    (hct : Lacks .thenMark condition) (c : Context) :
    (∀ consequent alternative,
      Closed consequent → Lacks .ifMark consequent → Lacks .elseMark consequent →
      Closed alternative → Lacks .delimiter alternative →
      let ts := mark :: (condition ++ thenMark :: (consequent ++ elseMark :: alternative))
      (Cursor.ofTokens ts).evaluate c =
        c.exit (Run.choose ((Cursor.ofTokens condition).evaluate (c.enter (Token.trim ts)))
          (Cursor.ofTokens consequent).evaluate (Cursor.ofTokens alternative).evaluate)) ∧
    (∀ consequent,
      Closed consequent → Lacks .elseMark consequent → Lacks .delimiter consequent →
      let ts := mark :: (condition ++ thenMark :: consequent)
      (Cursor.ofTokens ts).evaluate c =
        c.exit (Run.choose ((Cursor.ofTokens condition).evaluate (c.enter (Token.trim ts)))
          (Cursor.ofTokens consequent).evaluate (pure .empty))) := by
  have hmd : mark.isA .delimiter = false := Token.isA_eq_false hm (by decide)
  have htd : thenMark.isA .delimiter = false := Token.isA_eq_false ht (by decide)
  have hed : elseMark.isA .delimiter = false := Token.isA_eq_false he (by decide)
  -- Delimiters that end the last part, inside a conditional of its own, are trimmed off the whole.
  constructor
  · intro consequent alternative hs hsi hse ha had ts
    obtain ⟨us, ds, rfl, hd, hl⟩ := Token.exists_append_delimiters alternative
    let vs := mark :: (condition ++ thenMark :: (consequent ++ elseMark :: us))
    have hts : ts = vs ++ ds := by simp [ts, vs]
    have htrim : Token.Trimmed vs := by
      have hlast := Token.any_getLast?_append hed hl (mark :: (condition ++ thenMark :: consequent))
      rw [List.cons_append, List.append_assoc, List.cons_append] at hlast
      exact Token.trimmed_of_any (List.cons_ne_nil _ _) hmd hlast
    have hu : Token.trim ts = vs := by
      rw [hts, Token.trim_append_delimiters vs hd, htrim.trim_eq]
    have hr : Clause.read vs vs = .ok (.conditional condition consequent (some us), []) :=
      Clause.read_conditional hm ht he ⟨hc, hci⟩ hct ⟨hs, hsi⟩ hse (ha.of_append_delimiters hd)
        had.of_append vs
    rw [Cursor.evaluate_of_conditional hu htrim hr c, hu,
      Cursor.evaluate_congr (Token.trim_append_delimiters us hd)]
    rfl
  · intro consequent hs hse hsd ts
    obtain ⟨us, ds, rfl, hd, hl⟩ := Token.exists_append_delimiters consequent
    let vs := (mark :: condition) ++ thenMark :: us
    have hts : ts = vs ++ ds := by simp [ts, vs]
    have htrim : Token.Trimmed vs :=
      Token.trimmed_of_any (List.cons_ne_nil _ _) hmd (Token.any_getLast?_append htd hl _)
    have hu : Token.trim ts = vs := by
      rw [hts, Token.trim_append_delimiters vs hd, htrim.trim_eq]
    have hr : Clause.read vs vs = .ok (.conditional condition us none, []) :=
      Clause.read_conditional_then hm ht ⟨hc, hci⟩ hct (hs.of_append_delimiters hd)
        hse.of_append hsd.of_append vs
    rw [Cursor.evaluate_of_conditional hu htrim hr c, hu,
      Cursor.evaluate_congr (Token.trim_append_delimiters us hd)]
    rfl

/-- The alternative is a conditional with an alternative of its own on the next line. It finds the
name that the condition bound, and not the one that the consequent would have bound. -/
theorem evaluate_conditional_chain :
    let condition := tokenize "(aを偽とする\na)".toList 1
    let consequent := tokenize "(bを1とする)".toList 2
    let alternative := tokenize "もしaならば1\n違うなら「x」".toList 2
    let ts := ⟨['も', 'し'], 1⟩ :: (condition ++ ⟨['な', 'ら', 'ば'], 2⟩ ::
      (consequent ++ ⟨['違', 'う', 'な', 'ら'], 2⟩ :: alternative))
    let r := (Cursor.ofTokens ts).evaluate Context.standard
    (Closed condition ∧ Lacks .ifMark condition ∧ Lacks .thenMark condition) ∧
      (Closed consequent ∧ Lacks .ifMark consequent ∧ Lacks .elseMark consequent) ∧
      (Closed alternative ∧ Lacks .delimiter alternative) ∧
      Run.value? r = some (.text ['x']) ∧
      (Run.context r).scope.get? ['a'] = some (.boolean false) ∧
      (Run.context r).scope.get? ['b'] = none := by
  intro condition consequent alternative ts r
  have hc : Closed condition ∧ Lacks .ifMark condition ∧ Lacks .thenMark condition := by
    decide +kernel
  have hs : Closed consequent ∧ Lacks .ifMark consequent ∧ Lacks .elseMark consequent := by
    decide +kernel
  have ha : Closed alternative ∧ Lacks .delimiter alternative := by decide +kernel
  have hr : r = _ := (evaluate_conditional rfl rfl rfl hc.1 hc.2.1 hc.2.2 Context.standard).1
    consequent alternative hs.1 hs.2.1 hs.2.2 ha.1 ha.2
  refine ⟨hc, hs, ha, ?_⟩
  rw [hr]
  decide +kernel

end Kotoba
