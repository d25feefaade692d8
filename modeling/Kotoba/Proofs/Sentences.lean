import Kotoba.Proofs.Sequencing

/-!
Statements as they stand. Nothing is trimmed off tokens that neither begin nor end with a delimiter,
so they are evaluated as they are; and a script that is one such line does no more than that.
-/

namespace Kotoba

/-- No word is in two classes that have none in common. -/
theorem Token.isA_eq_false {t : Token} {k k' : WordClass} (h : t.isA k = true)
    (hd : ∀ w ∈ k.words, w ∉ k'.words) : t.isA k' = false := by
  have hm : t.text ∈ k.words := by simpa [isA] using h
  simpa [isA] using hd t.text hm

theorem Cursor.trim_ofTokens (ts : List Token) : (ofTokens ts).trim = ofTokens (Token.trim ts) := by
  unfold Cursor.trim ofTokens
  simp only [Nat.zero_sub, Nat.zero_min]

/-- There are tokens, and neither the first nor the last one is a delimiter. -/
structure Token.Trimmed (ts : List Token) : Prop where
  first : ∃ t, ts.head? = some t ∧ t.isA .delimiter = false
  last : ∃ t, ts.getLast? = some t ∧ t.isA .delimiter = false

namespace Token

theorem dropDelimiters_eq_self {ts : List Token} {t : Token} (h : ts.head? = some t)
    (ht : t.isA .delimiter = false) : dropDelimiters ts = ts := by
  obtain ⟨us, rfl⟩ := List.head?_eq_some_iff.1 h
  rw [dropDelimiters, List.dropWhile_cons_of_neg (by simp [ht])]

namespace Trimmed

variable {ts : List Token}

theorem trim_eq (h : Trimmed ts) : trim ts = ts := by
  obtain ⟨t, ht, hd⟩ := h.first
  obtain ⟨u, hu, hd'⟩ := h.last
  have hr : ts.reverse.head? = some u := by rw [List.head?_reverse, hu]
  rw [trim, dropDelimiters_eq_self ht hd, dropDelimiters_eq_self hr hd', List.reverse_reverse]

theorem allDelimiters_eq_false (h : Trimmed ts) : allDelimiters ts = false := by
  obtain ⟨t, ht, hd⟩ := h.first
  obtain ⟨us, rfl⟩ := List.head?_eq_some_iff.1 ht
  simp [allDelimiters, hd]

theorem trim_ofTokens (h : Trimmed ts) : (Cursor.ofTokens ts).trim = .ofTokens ts := by
  rw [Cursor.trim_ofTokens, h.trim_eq]

theorem isBlank_trim (h : Trimmed ts) : (Cursor.ofTokens ts).trim.isBlank = false :=
  Cursor.isBlank_trim_ofTokens h.allDelimiters_eq_false

end Trimmed

section Delimiters

variable {ds : List Token}

theorem dropDelimiters_append (hd : allDelimiters ds = true) (ts : List Token) :
    dropDelimiters (ds ++ ts) = dropDelimiters ts := by
  induction ds with
  | nil => rfl
  | cons t ds ih =>
    simp only [allDelimiters, List.all_cons, Bool.and_eq_true] at hd
    rw [List.cons_append, dropDelimiters, List.dropWhile_cons, if_pos hd.1]
    exact ih hd.2

theorem trim_delimiters_append (hd : allDelimiters ds = true) (ts : List Token) :
    trim (ds ++ ts) = trim ts := by
  rw [trim, dropDelimiters_append hd, trim]

theorem trim_append_delimiters (ts : List Token) (hd : allDelimiters ds = true) :
    trim (ts ++ ds) = trim ts := by
  have hr : allDelimiters ds.reverse = true := by rwa [allDelimiters, List.all_reverse]
  induction ts with
  | nil =>
    have hn := trim_delimiters_append hd []
    rwa [List.append_nil] at hn
  | cons t ts ih =>
    by_cases ht : t.isA .delimiter = true
    · have ha : allDelimiters [t] = true := by simp [allDelimiters, ht]
      have h := trim_delimiters_append ha
      exact (h (ts ++ ds)).trans (ih.trans (h ts).symm)
    · have hs (us : List Token) : dropDelimiters (t :: us) = t :: us :=
        dropDelimiters_eq_self rfl (Bool.eq_false_iff.2 ht)
      rw [trim, trim, List.cons_append, hs, hs, ← List.cons_append, List.reverse_append,
        dropDelimiters_append hr]

/-- The delimiters in front of tokens, and the rest. -/
theorem exists_delimiters_append (ts : List Token) :
    ∃ ds, ts = ds ++ dropDelimiters ts ∧ allDelimiters ds = true ∧
      (dropDelimiters ts).head?.any (·.isA .delimiter) = false := by
  refine ⟨ts.takeWhile fun t ↦ t.isA .delimiter, List.takeWhile_append_dropWhile.symm,
    List.all_takeWhile, ?_⟩
  have hh := List.head?_dropWhile_not (fun t ↦ t.isA .delimiter) ts
  cases hd : (dropDelimiters ts).head? with
  | none => rfl
  | some t =>
    rw [dropDelimiters] at hd
    simpa [hd] using hh

theorem trim_dropDelimiters (ts : List Token) : trim (dropDelimiters ts) = trim ts := by
  obtain ⟨ds, he, hd, -⟩ := exists_delimiters_append ts
  rw [← trim_delimiters_append hd, ← he]

/-- Tokens, and the delimiters that end them. -/
theorem exists_append_delimiters (ts : List Token) :
    ∃ us ds, ts = us ++ ds ∧ allDelimiters ds = true ∧
      us.getLast?.any (·.isA .delimiter) = false := by
  obtain ⟨ds, he, hd, hh⟩ := exists_delimiters_append ts.reverse
  refine ⟨(dropDelimiters ts.reverse).reverse, ds.reverse, ?_, ?_, ?_⟩
  · rw [← List.reverse_append, ← he, List.reverse_reverse]
  · rwa [allDelimiters, List.all_reverse]
  · rwa [List.getLast?_reverse]

theorem any_head?_append {k : WordClass} {t : Token} {ts : List Token}
    (hf : ts.head?.any (·.isA k) = false) (ht : t.isA k = false) (us : List Token) :
    (ts ++ t :: us).head?.any (·.isA k) = false := by
  cases ts with
  | nil => exact ht
  | cons u ts => exact hf

theorem any_getLast?_append {k : WordClass} {t : Token} {ts : List Token} (ht : t.isA k = false)
    (hl : ts.getLast?.any (·.isA k) = false) (us : List Token) :
    (us ++ t :: ts).getLast?.any (·.isA k) = false := by
  have hs := List.getLast?_eq_some_getLast (List.cons_ne_nil t ts)
  rw [List.getLast?_append, hs, Option.some_or, ← hs]
  cases ts with
  | nil => exact ht
  | cons u ts => rwa [List.getLast?_cons_cons]

theorem trimmed_of_any {ts : List Token} (hn : ts ≠ [])
    (hf : ts.head?.any (·.isA .delimiter) = false)
    (hl : ts.getLast?.any (·.isA .delimiter) = false) : Trimmed ts := by
  constructor
  · obtain ⟨t, us, rfl⟩ := List.exists_cons_of_ne_nil hn
    exact ⟨t, rfl, hf⟩
  · have hs := List.getLast?_eq_some_getLast hn
    rw [hs] at hl
    exact ⟨_, hs, hl⟩

end Delimiters

end Token

/-- Delimiters around a statement change nothing. -/
theorem Run.ofTokens_congr (table : List Builtin) {ts us : List Token}
    (h : Token.trim ts = Token.trim us) : Run.ofTokens table ts = Run.ofTokens table us := by
  rw [Run.ofTokens, Run.ofTokens, Statement.run_read, Statement.run_read, Cursor.trim_ofTokens,
    Cursor.trim_ofTokens, h]

/-- What is evaluated next finds the functions that were there. -/
theorem Cursor.functions_of_evaluate {code : Cursor} {c d : Context} {v : Value}
    (h : code.evaluate c = .ok v d) : d.functions = c.functions := by
  obtain ⟨calls, hx⟩ := code.exists_executes_evaluate c
  rw [h] at hx
  exact hx.extends.functions

theorem Run.ofTokens_of_trimmed (table : List Builtin) {ts : List Token} (h : Token.Trimmed ts)
    (c : Context) :
    Run.ofTokens table ts c = c.exit ((Task.clause ts ts).run table (c.enter ts)) := by
  have hb := Statement.run_read_of_not_blank table h.isBlank_trim c
  rw [h.trim_ofTokens] at hb
  exact hb

theorem Cursor.evaluate_congr {ts us : List Token} (h : Token.trim ts = Token.trim us) :
    (ofTokens ts).evaluate = (ofTokens us).evaluate := by
  funext c
  exact congrFun (Run.ofTokens_congr c.functions h) c

/-- A statement is what is left of the tokens between delimiters. -/
theorem Run.ofTokens_clause (table : List Builtin) {ts us after : List Token} {k : Clause}
    (hu : Token.trim ts = us) (h : Token.Trimmed us) (hr : Clause.read us us = .ok (k, after))
    (c : Context) :
    Run.ofTokens table ts c = c.exit (Run.ofClause table us k (c.enter us)) := by
  rw [Run.ofTokens_congr table (hu.trans h.trim_eq.symm), Run.ofTokens_of_trimmed table h]
  simp only [Task.run, hr]

theorem Clause.forms_of_any {ts : List Token} (hi : ts.head?.any (·.isA .ifMark) = false)
    (hl : ts.getLast?.any (·.isA .loopMark) = false) :
    Clause.forms ts ts = (Form.others, false) := by
  rw [Clause.forms, if_neg (by simp [hi]), if_neg (by simp [hl])]

/-- What is no conditional, repetition, binding or block is a phrase. -/
theorem Clause.read_phrase {ts : List Token} {t : Token} (hh : ts.head? = some t)
    (hi : t.isA .ifMark = false) (ho : t.isA .blockOpen = false)
    (hl : ts.getLast?.any (·.isA .loopMark) = false)
    (hb : (Form.steps [none, some .nameMark, none, some .valueMark]).run ts = .ok none) :
    Clause.read ts ts = .ok (.phrase, ts) := by
  obtain ⟨us, rfl⟩ := List.head?_eq_some_iff.1 hh
  have hn : (Form.steps [some .blockOpen, none, some .blockClose]).run (t :: us) = .ok none := by
    have hw : WordClass.blockOpen.words.contains t.text = false := ho
    simp only [Form.steps, List.map_cons, Option.elim, Step.ofClass, Pattern.run, hw,
      Bool.false_eq_true, if_false]
  have hf : Clause.forms (t :: us) (t :: us) = (Form.others, false) := Clause.forms_of_any hi hl
  rw [Clause.read, hf]
  simp only [Form.others, Form.first?, hb, hn, Bool.false_eq_true, if_false]

theorem Statement.lookUp_apply (source : List Token) (c : Context) :
    lookUp source c =
      match c.scope.get? (Token.render source) with
      | some v => .ok v c
      | none =>
        match Literal.value? (Token.render source) with
        | some (.ok v) => .ok v c
        | some (.error e) => .error e c
        | none => .error (.onTokens (.malformed (Token.spaced source)) source) c := by
  rw [lookUp, Run.bind_apply]
  show (match c.scope.get? (Token.render source) with
    | some v => (pure v : Run Value)
    | none => _) c = _
  cases c.scope.get? (Token.render source) with
  | some v => rfl
  | none =>
    cases Literal.value? (Token.render source) with
    | none => rfl
    | some r => cases r <;> rfl

namespace Run

variable {table : List Builtin} {ts after : List Token}

theorem ofTokens_phrase (h : Token.Trimmed ts) (hr : Clause.read ts ts = .ok (.phrase, after))
    (hf : Builtin.find? table (Token.render ts) = none) (c : Context) :
    Run.ofTokens table ts c = c.exit (Statement.lookUp ts (c.enter ts)) := by
  rw [ofTokens_of_trimmed table h]
  simp only [Task.run, hr, ofClause, hf]

theorem ofTokens_call (h : Token.Trimmed ts) (hr : Clause.read ts ts = .ok (.phrase, after))
    {f : Builtin} {m : Marking} (hf : Builtin.find? table (Token.render ts) = some f)
    (hm : f.marking? (Token.render ts) = some m) (c : Context) :
    Run.ofTokens table ts c =
      c.exit (ofNouns table ts f m.complete m.marked [] (c.enter ts)) := by
  rw [ofTokens_of_trimmed table h]
  simp only [Task.run, hr, ofClause, hf, hm]

theorem ofNouns_cons_of_ok {source : List Token} {a : Text × Text} {c d : Context} {v : Value}
    (h : Run.ofTokens table (Statement.nounTokens source a.2) c = .ok v d) (f : Builtin)
    (complete : Bool) (nouns : List (Text × Text)) (done : List (Text × Value)) :
    ofNouns table source f complete (a :: nouns) done c =
      ofNouns table source f complete nouns (done ++ [(a.1, v)]) d := by
  rw [ofNouns_cons, bind_apply, h]

variable {c : Context} {v : Value}

theorem ofTokens_bound (h : Token.Trimmed ts) (hr : Clause.read ts ts = .ok (.phrase, after))
    (hf : Builtin.find? table (Token.render ts) = none)
    (hv : c.scope.get? (Token.render ts) = some v) :
    Run.ofTokens table ts c = .ok v (c.note (.traced (.statement ts))) := by
  have hl : Statement.lookUp ts (c.enter ts) = .ok v (c.enter ts) := by
    rw [Statement.lookUp_apply, show (c.enter ts).scope = c.scope from rfl, hv]
  rw [ofTokens_phrase h hr hf, hl]
  rfl

theorem ofTokens_literal (h : Token.Trimmed ts) (hr : Clause.read ts ts = .ok (.phrase, after))
    (hf : Builtin.find? table (Token.render ts) = none)
    (hn : c.scope.get? (Token.render ts) = none)
    (hv : Literal.value? (Token.render ts) = some (.ok v)) :
    Run.ofTokens table ts c = .ok v (c.note (.traced (.statement ts))) := by
  have hl : Statement.lookUp ts (c.enter ts) = .ok v (c.enter ts) := by
    rw [Statement.lookUp_apply, show (c.enter ts).scope = c.scope from rfl, hn, hv]
  rw [ofTokens_phrase h hr hf, hl]
  rfl

end Run

/-- A single line that is trimmed is run as the statement that it is. -/
theorem runTokens_of_line {ts : List Token} (h : Token.Trimmed ts)
    (hl : readLine [] ts = .ok (ts, [])) (c : Context) :
    runTokens ts c = Run.ofTokens c.functions ts c := by
  obtain ⟨t, us, rfl⟩ : ∃ t us, ts = t :: us := by
    obtain ⟨t, ht, -⟩ := h.first
    exact ⟨t, List.head?_eq_some_iff.1 ht⟩
  have hr : Run.ofLines c.functions (t :: us) .empty = Run.ofTokens c.functions (t :: us) := by
    rw [Run.ofLines_cons, hl]
    simp only [h.allDelimiters_eq_false, Bool.false_eq_true, if_false]
    rw [show Run.ofLines c.functions [] = Pure.pure from funext (Run.ofLines_nil c.functions),
      bind_pure]
  rw [← hr]
  rfl

end Kotoba
