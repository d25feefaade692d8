import Kotoba.Proofs.Counts
import Kotoba.Proofs.Nesting
import Kotoba.Proofs.Outcomes

/-!
Repetitions. Of the two orders in which a repetition is written each fits one form, with the same
captures; so both evaluate the count once and then the body as often as its value says, and the same
comes of them.
-/

namespace Kotoba

variable {targetMark countMark mark : Token} {target count : List Token}

theorem Token.getLast?_marks (first second : List Token) (x y z : Token) :
    (first ++ x :: (second ++ [y, z])).getLast? = some z := by
  have h : first ++ x :: (second ++ [y, z]) = (first ++ x :: (second ++ [y])) ++ [z] := by simp
  rw [h, List.getLast?_concat]

namespace Clause

theorem forms_of_loopMark {ts : List Token} (hi : ts.head?.any (·.isA .ifMark) = false)
    (hl : ts.getLast?.any (·.isA .loopMark) = true) :
    forms ts ts = (Form.repetitions, true) := by
  rw [forms, if_neg (by simp [hi]), if_pos hl]

theorem read_repetition (ht : targetMark.isA .loopTarget = true)
    (hc : countMark.isA .loopCount = true) (hm : mark.isA .loopMark = true)
    (hb : SelfContained target) (hbt : Lacks .loopTarget target) (hn : SelfContained count)
    (hnc : Lacks .loopCount count) :
    let ts := target ++ targetMark :: (count ++ [countMark, mark])
    read ts ts = .ok (.repetition target count, []) := by
  intro ts
  have hi : ts.head?.any (·.isA .ifMark) = false :=
    Token.any_head?_append hb.conditional.any_head? (Token.isA_eq_false ht (by decide)) _
  have hl : ts.getLast?.any (·.isA .loopMark) = true := by rwa [Token.getLast?_marks]
  rw [read, forms_of_loopMark hi hl]
  simp only [Form.repetitions, Form.first?, Form.steps, List.map_cons, List.map_nil, Option.elim,
    Step.ofClass, ts, hb.run_capture hbt ht (by decide), hn.run_capture hnc hc (by decide),
    Pattern.run_word hm]
  rfl

/-- With the count in front, the form for the other order finds one of its marks and then fails. -/
theorem run_of_count_first (ht : targetMark.isA .loopTarget = true)
    (hc : countMark.isA .loopCount = true) (hm : mark.isA .loopMark = true)
    (hb : SelfContained target) (hbt : Lacks .loopTarget target) (hn : SelfContained count)
    (hnt : Lacks .loopTarget count) :
    (Form.steps [none, some .loopTarget, none, some .loopCount, some .loopMark]).run
      (count ++ countMark :: (target ++ [targetMark, mark])) = .ok none := by
  have ho : Frame.opened? countMark = none := Frame.opened?_eq_none hc (by decide)
  have hs : SelfContained (count ++ countMark :: target) :=
    hn.append ho (Token.isA_eq_false hc (by decide)) hb
  have hst : Lacks .loopTarget (count ++ countMark :: target) :=
    hn.lacks_append ho hnt (Token.isA_eq_false hc (by decide)) hbt
  have hnil : SelfContained [] := ⟨rfl, nofun⟩
  have hmo : Frame.opened? mark = none := Frame.opened?_eq_none hm (by decide)
  have hend : SelfContained [mark] := hnil.append hmo (Token.isA_eq_false hm (by decide)) hnil
  have hendc : Lacks .loopCount [mark] :=
    hnil.lacks_append hmo nofun (Token.isA_eq_false hm (by decide)) nofun
  have hts : count ++ countMark :: (target ++ [targetMark, mark]) =
      (count ++ countMark :: target) ++ targetMark :: [mark] := by simp
  simp only [Form.steps, List.map_cons, List.map_nil, Option.elim, Step.ofClass, hts,
    hs.run_capture hst ht (by decide), Pattern.run_capture_of_lacks hend.closed hendc]
  rfl

theorem read_repetition_of_count_first (ht : targetMark.isA .loopTarget = true)
    (hc : countMark.isA .loopCount = true) (hm : mark.isA .loopMark = true)
    (hb : SelfContained target) (hbt : Lacks .loopTarget target) (hn : SelfContained count)
    (hnc : Lacks .loopCount count) (hnt : Lacks .loopTarget count) :
    let ts := count ++ countMark :: (target ++ [targetMark, mark])
    read ts ts = .ok (.repetition target count, []) := by
  intro ts
  have hi : ts.head?.any (·.isA .ifMark) = false :=
    Token.any_head?_append hn.conditional.any_head? (Token.isA_eq_false hc (by decide)) _
  have hl : ts.getLast?.any (·.isA .loopMark) = true := by rwa [Token.getLast?_marks]
  rw [read, forms_of_loopMark hi hl]
  simp only [Form.repetitions, Form.first?, ts, run_of_count_first ht hc hm hb hbt hn hnt]
  simp only [Form.steps, List.map_cons, List.map_nil, Option.elim, Step.ofClass,
    hn.run_capture hnc hc (by decide), hb.run_capture hbt ht (by decide), Pattern.run_word hm]
  rfl

end Clause

namespace Token

variable {x y z : Token}

theorem trim_marks (first second : List Token) (hx : x.isA .delimiter = false)
    (hz : z.isA .delimiter = false) :
    let us := dropDelimiters first ++ x :: (second ++ [y, z])
    Trimmed us ∧ trim (first ++ x :: (second ++ [y, z])) = us := by
  intro us
  obtain ⟨ds, he, hd, hh⟩ := exists_delimiters_append first
  have ht : Trimmed us := by
    refine trimmed_of_any (by simp [us]) (any_head?_append hh hx _) ?_
    rwa [getLast?_marks]
  refine ⟨ht, ?_⟩
  rw [he, List.append_assoc, trim_delimiters_append hd]
  exact ht.trim_eq

end Token

namespace Run

/-- The body is run as often as said, or until it fails. -/
inductive Repeats (body : Run Value) : Nat → Context → Run.Result → Prop
  | done {c : Context} : Repeats body 0 c (.ok .empty c)
  | fail {n : Nat} {c d : Context} {e : Fault} :
      body c = .error e d → Repeats body (n + 1) c (.error e d)
  | again {n : Nat} {c d : Context} {v : Value} {r : Run.Result} :
      body c = .ok v d → Repeats body n d r → Repeats body (n + 1) c r

/-- A loop, as the statement `source`, comes to its result: the count is run once, and the body as
often as its value counts. The trace shows the body as the tokens `shown`. -/
inductive Loops (source shown : List Token) (count body : Run Value) (c : Context) :
    Run.Result → Prop
  | uncounted {d : Context} {e : Fault} :
      count (c.enter source) = .error e d → Loops source shown count body c (.error e (d.leave c))
  | refused {d : Context} {v : Value} {e : Fault} :
      count (c.enter source) = .ok v d → v.Counts source (.error e) →
      Loops source shown count body c (.error e (d.leave c))
  | counted {d : Context} {v : Value} {n : Nat} {r : Run.Result} :
      count (c.enter source) = .ok v d → v.Counts source (.ok n) →
      Repeats body n (d.note (.traced (.repetition n shown))) r →
      Loops source shown count body c (c.exit r)

theorem repeats_passes (target : List Token) (n : Nat) (c : Context) :
    Repeats (Cursor.ofTokens target).evaluate n c ((Task.passes target n).run c.functions c) := by
  -- Each pass begins in the context that the one before it left, with the same functions.
  induction n generalizing c with
  | zero => exact .done
  | succ n ih =>
    have hm : (Task.passes target (n + 1)).Moves c.functions c _ := .pass
    have hb : (Statement.read c.functions (.ofTokens target)).run c =
        (Cursor.ofTokens target).evaluate c := rfl
    rw [hm.run_eq, Move.result, bind_apply, hb]
    cases he : (Cursor.ofTokens target).evaluate c with
    | error e d => exact .fail he
    | ok v d =>
      refine .again he ?_
      rw [← Cursor.functions_of_evaluate he]
      exact ih d

theorem loops_of_read {ts us after : List Token} (hu : Token.trim ts = us)
    (h : Token.Trimmed us) (hr : Clause.read us us = .ok (.repetition target count, after))
    (c : Context) :
    Loops us target (Cursor.ofTokens count).evaluate (Cursor.ofTokens target).evaluate c
      ((Cursor.ofTokens ts).evaluate c) := by
  have he : (Cursor.ofTokens ts).evaluate c = c.exit (Run.ofClause c.functions us
      (.repetition target count) (c.enter us)) := Run.ofTokens_clause c.functions hu h hr c
  have hc : Run.ofTokens c.functions count (c.enter us) =
      (Cursor.ofTokens count).evaluate (c.enter us) := rfl
  rw [he, Run.ofClause, bind_apply, hc]
  cases hv : (Cursor.ofTokens count).evaluate (c.enter us) with
  | error e d => exact .uncounted hv
  | ok v d =>
    obtain ⟨calls, hx⟩ := (Cursor.ofTokens count).exists_executes_evaluate (c.enter us)
    rw [hv] at hx
    have hd : d.statement = some us := hx.extends.statement
    have hf : d.functions = c.functions := hx.extends.functions
    obtain ⟨k, hk, hn⟩ := v.exists_counts hd
    have hl : Statement.repeatBody target v (Run.ofTokens c.functions target) d =
        (Task.loop target v).run c.functions d := rfl
    simp only [hl]
    cases k with
    | error e =>
      have hm : (Task.loop target v).Moves c.functions d (.halt (.error e d)) := .uncountable hn
      rw [hm.run_eq]
      exact .refused hv hk
    | ok n =>
      have hm : (Task.loop target v).Moves c.functions d _ := .counted hn
      rw [hm.run_eq, ← hf]
      exact .counted hv hk (repeats_passes target n _)

theorem outcome_eq_of_read {ts us after ts' us' after' target' count' : List Token}
    (hu : Token.trim ts = us) (h : Token.Trimmed us)
    (hr : Clause.read us us = .ok (.repetition target count, after)) (hu' : Token.trim ts' = us')
    (h' : Token.Trimmed us')
    (hr' : Clause.read us' us' = .ok (.repetition target' count', after'))
    (ht : Token.trim target = Token.trim target') (hc : Token.trim count = Token.trim count')
    (c : Context) :
    outcome ((Cursor.ofTokens ts).evaluate c) = outcome ((Cursor.ofTokens ts').evaluate c) := by
  have he : (Cursor.ofTokens ts).evaluate c = c.exit _ := ofTokens_clause c.functions hu h hr c
  have he' : (Cursor.ofTokens ts').evaluate c = c.exit _ := ofTokens_clause c.functions hu' h' hr' c
  rw [he, he', outcome_exit, outcome_exit, ofClause, ofClause, ofTokens_congr _ ht,
    ofTokens_congr _ hc]
  refine Interchangeable.bind (interchangeable_ofTokens _ _) (fun v ↦ ?_) _ _ ?_
  · exact Statement.interchangeable_repeatBody _ _ v (interchangeable_ofTokens _ _)
  · rw [Context.outward_enter, Context.outward_enter]

end Run

/-- Both orders of a repetition evaluate the count once, as a part of the whole statement, and then
the body from its first token on for each pass that the value counts, up to the first fault. The
same comes of both. -/
theorem evaluate_repetition {targetMark' countMark' mark' : Token}
    (ht : targetMark.isA .loopTarget = true) (hc : countMark.isA .loopCount = true)
    (hm : mark.isA .loopMark = true) (ht' : targetMark'.isA .loopTarget = true)
    (hc' : countMark'.isA .loopCount = true) (hm' : mark'.isA .loopMark = true)
    (hb : Closed target) (hbt : Lacks .loopTarget target) (hbi : Lacks .ifMark target)
    (hn : Closed count) (hnt : Lacks .loopTarget count) (hnc : Lacks .loopCount count)
    (hni : Lacks .ifMark count) (c : Context) :
    let ts := target ++ targetMark :: (count ++ [countMark, mark])
    let us := count ++ countMark' :: (target ++ [targetMark', mark'])
    let r := (Cursor.ofTokens ts).evaluate c
    let s := (Cursor.ofTokens us).evaluate c
    let counting := (Cursor.ofTokens count).evaluate
    let body := (Cursor.ofTokens target).evaluate
    Run.Loops (Token.trim ts) (Token.dropDelimiters target) counting body c r ∧
      Run.Loops (Token.trim us) target counting body c s ∧
      Run.value? r = Run.value? s ∧ (Run.context r).scope = (Run.context s).scope ∧
      (Run.context r).events c = (Run.context s).events c := by
  intro ts us r s counting body
  have hbody : SelfContained target := ⟨hb, hbi⟩
  have hcount : SelfContained count := ⟨hn, hni⟩
  obtain ⟨hts, hu⟩ := Token.trim_marks (y := countMark) target count
    (Token.isA_eq_false ht (by decide)) (Token.isA_eq_false hm (by decide))
  obtain ⟨hus, hu'⟩ := Token.trim_marks (y := targetMark') count target
    (Token.isA_eq_false hc' (by decide)) (Token.isA_eq_false hm' (by decide))
  have hr := Clause.read_repetition ht hc hm hbody.dropDelimiters hbt.dropDelimiters hcount hnc
  have hr' := Clause.read_repetition_of_count_first ht' hc' hm' hbody hbt hcount.dropDelimiters
    hnc.dropDelimiters hnt.dropDelimiters
  have hbd := Token.trim_dropDelimiters target
  have hnd := Token.trim_dropDelimiters count
  have ho : Run.outcome r = Run.outcome s :=
    Run.outcome_eq_of_read hu hts hr hu' hus hr' hbd hnd.symm c
  obtain ⟨hv, hw⟩ := Prod.mk.inj ho
  have hscope : (Run.context r).outward.scope = (Run.context s).outward.scope := by rw [hw]
  refine ⟨?_, ?_, hv, hscope, ?_⟩
  · have hl := Run.loops_of_read hu hts hr c
    rwa [Cursor.evaluate_congr hbd, ← hu] at hl
  · have hl := Run.loops_of_read hu' hus hr' c
    rwa [Cursor.evaluate_congr hnd, ← hu'] at hl
  · obtain ⟨calls, hx⟩ := (Cursor.ofTokens ts).exists_executes_evaluate c
    obtain ⟨calls', hx'⟩ := (Cursor.ofTokens us).exists_executes_evaluate c
    exact Context.events_eq_of_outward hx.extends hx'.extends hw

/-- Two and a half count three passes, the first of which binds the name that counted them. -/
theorem evaluate_repetition_of_own_count :
    let half : Double := .finite false (5 * Nat.pow 2 1073)
    let target := tokenize "(nをコンソールに表示する\nnを0とする)".toList 1
    let count := tokenize "\nn".toList 1
    let targetMark : Token := ⟨['を'], 2⟩
    let countMark : Token := ⟨['回'], 2⟩
    let mark : Token := ⟨['繰', 'り', '返', 'す'], 2⟩
    let c : Context :=
      { Context.standard with scope := (['n'], .real half) :: Context.standard.scope }
    let r := (Cursor.ofTokens (target ++ targetMark :: (count ++ [countMark, mark]))).evaluate c
    let s := (Cursor.ofTokens (count ++ countMark :: (target ++ [targetMark, mark]))).evaluate c
    (Closed target ∧ Lacks .loopTarget target ∧ Lacks .ifMark target) ∧
      (Closed count ∧ Lacks .loopTarget count ∧ Lacks .loopCount count ∧ Lacks .ifMark count) ∧
      Run.value? r = some .empty ∧ Run.value? s = some .empty ∧
      (Run.context s).events c = [.called .console (.real half), .called .console (.integer 0),
        .called .console (.integer 0)] := by
  intro half target count targetMark countMark mark c r s
  have hb : Closed target ∧ Lacks .loopTarget target ∧ Lacks .ifMark target := by decide +kernel
  have hn : Closed count ∧ Lacks .loopTarget count ∧ Lacks .loopCount count ∧
      Lacks .ifMark count := by decide +kernel
  have ht : targetMark.isA .loopTarget = true := rfl
  have hc : countMark.isA .loopCount = true := rfl
  have hm : mark.isA .loopMark = true := rfl
  obtain ⟨-, -, hv, -, he⟩ := evaluate_repetition ht hc hm ht hc hm hb.1 hb.2.1 hb.2.2 hn.1 hn.2.1
    hn.2.2.1 hn.2.2.2 c
  have hr : Run.value? r = some .empty := by decide +kernel
  refine ⟨hb, hn, hr, hv.symm.trans hr, he.symm.trans ?_⟩
  decide +kernel

end Kotoba
