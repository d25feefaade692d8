import Kotoba.Proofs.Execution

/-!
Every run ends. A statement calls only for statements of fewer characters, and between two calls a
task only moves on to tasks of lower rank: a loop to the passes that its count allows, lines to the
lines after the one just read.
-/

namespace Kotoba

/-- A task may go on as `t` after the move. -/
def Move.Leads : Move → Task → Prop
  | .halt _, _ => False
  | .proceed t' _, t => t = t'
  | .call _ resume, t => ∃ v, t = resume v

namespace Task

def rank : Task → Nat × Nat
  | .value _ | .assign _ _ => (0, 0)
  | .evaluate _ => (1, 0)
  | .passes _ n => (1, n)
  | .lines ts _ => (1, ts.length)
  | .arguments _ _ _ nouns _ => (1, nouns.length)
  | .loop _ _ => (2, 0)
  | .clause _ _ => (3, 0)

def Precedes (t t' : Task) : Prop := Prod.Lex (· < ·) (· < ·) t.rank t'.rank

theorem wellFounded_precedes : WellFounded Precedes :=
  InvImage.wf rank (Prod.lex ⟨_, Nat.lt_wfRel.wf⟩ ⟨_, Nat.lt_wfRel.wf⟩).wf

/-- Every statement that the task may call for has fewer than `w` characters. -/
def Below (w : Nat) : Task → Prop
  | .value _ | .assign _ _ => True
  | .evaluate code => Token.width code.tokens < w
  | .clause source rest => Token.width source ≤ w ∧ Token.width rest ≤ w
  | .loop target _ | .passes target _ => Token.width target < w
  | .lines ts _ => Token.width ts < w
  | .arguments _ _ _ nouns _ => ∀ a ∈ nouns, a.2.length < w

end Task

theorem Task.Moves.precedes {table : List Builtin} {t t' : Task} {c : Context} {m : Move}
    (h : t.Moves table c m) (hl : m.Leads t') : t'.Precedes t := by
  cases h with
  | evaluate =>
    obtain ⟨v, rfl⟩ := hl
    exact .left _ _ Nat.zero_lt_one
  | @conditional _ _ _ _ consequent alternative =>
    obtain ⟨v, rfl⟩ := hl
    apply Prod.Lex.left
    unfold Task.branch
    cases v.holds <;> cases alternative <;> simp
  | repetition =>
    obtain ⟨v, rfl⟩ := hl
    exact .left _ _ (by simp)
  | binding =>
    obtain ⟨v, rfl⟩ := hl
    exact .left _ _ (by simp)
  | block => subst hl; exact .left _ _ (by simp)
  | nouns => subst hl; exact .left _ _ (by simp)
  | counted => subst hl; exact .left _ _ (by simp)
  | @pass _ n =>
    obtain ⟨v, rfl⟩ := hl
    exact .right _ (Nat.lt_succ_self n)
  | blankLine hr => subst hl; exact .right _ (length_of_readLine hr)
  | line hr =>
    obtain ⟨v, rfl⟩ := hl
    exact .right _ (length_of_readLine hr)
  | argument =>
    obtain ⟨v, rfl⟩ := hl
    exact .right _ (Nat.lt_succ_self _)
  | _ => exact hl.elim

def Move.Below (w : Nat) : Move → Prop
  | .halt _ => True
  | .proceed t _ => t.Below w
  | .call code resume => Token.width code.tokens < w ∧ ∀ v, (resume v).Below w

theorem width_of_readLine {ts line rest : List Token} (h : readLine [] ts = .ok (line, rest)) :
    Token.width line + Token.width rest = Token.width ts := by
  rw [append_of_readLine h, Token.width_append]

theorem Task.Moves.below {table : List Builtin} {t : Task} {c : Context} {m : Move} {w : Nat}
    (h : t.Moves table c m) (hb : t.Below w) : m.Below w := by
  cases h with
  | evaluate => exact ⟨hb, fun _ ↦ trivial⟩
  | @conditional _ _ _ condition consequent alternative _ hr =>
    have hp (part : List Token) (h : part ∈ [condition, consequent] ++ alternative.toList) :
        Token.width part < w := by
      refine Nat.lt_of_lt_of_le (Clause.width_of_read hr ?_) hb.2
      cases alternative <;> simpa [Clause.parts] using h
    refine ⟨hp condition (by simp), fun v ↦ ?_⟩
    unfold Task.branch
    split
    · exact hp consequent (by simp)
    · cases alternative with
      | none => trivial
      | some ts => exact hp ts (by simp)
  | @repetition _ _ _ target count _ hr =>
    have hp (part : List Token) (h : part ∈ [target, count]) : Token.width part < w :=
      Nat.lt_of_lt_of_le (Clause.width_of_read hr h) hb.2
    exact ⟨hp count (by simp), fun _ ↦ hp target (by simp)⟩
  | binding hr =>
    exact ⟨Nat.lt_of_lt_of_le (Clause.width_of_read hr (by simp [Clause.parts])) hb.2,
      fun _ ↦ trivial⟩
  | block hr => exact Nat.lt_of_lt_of_le (Clause.width_of_read hr (by simp [Clause.parts])) hb.2
  | nouns _ _ hm =>
    intro a ha
    exact Nat.lt_of_lt_of_le (Builtin.length_of_mem_marking? hm ha) hb.1
  | counted => exact hb
  | pass => exact ⟨hb, fun _ ↦ hb⟩
  | blankLine hr =>
    have hw := width_of_readLine hr
    exact Nat.lt_of_le_of_lt (by omega) hb
  | line hr =>
    have hw := width_of_readLine hr
    exact ⟨Nat.lt_of_le_of_lt (by simp only [Cursor.tokens_ofTokens]; omega) hb,
      fun _ ↦ Nat.lt_of_le_of_lt (by omega) hb⟩
  | @argument source _ _ a nouns =>
    have hn : Token.width (Statement.nounTokens source a.2) ≤ a.2.length :=
      Token.width_tokenize_le _ _
    have ha := hb a List.mem_cons_self
    constructor
    · rw [Cursor.tokens_ofTokens]
      omega
    · intro _ b h
      exact hb b (List.mem_cons_of_mem a h)
  | _ => trivial

theorem Cursor.width_rest_le (code : Cursor) :
    Token.width code.rest ≤ Token.width code.tokens := by
  have h := congrArg Token.width (List.take_append_drop code.index code.tokens)
  rw [Token.width_append] at h
  unfold Cursor.rest
  omega

theorem Cursor.width_trim_le (code : Cursor) :
    Token.width code.trim.tokens ≤ Token.width code.tokens := Token.width_trim_le code.tokens

/-- The statement of a code calls for nothing as long as itself. -/
theorem Task.below_clause (code : Cursor) :
    (Task.clause code.trim.tokens code.trim.rest).Below (Token.width code.trim.tokens) :=
  ⟨Nat.le_refl _, code.trim.width_rest_le⟩

theorem Executes.width_of_mem {table : List Builtin} {t : Task} {c : Context} {r : Run.Result}
    {calls : List Call} (h : Executes table t c r calls) {w : Nat} (hb : t.Below w) :
    ∀ k ∈ calls, Token.width k.code.tokens < w := by
  induction h generalizing w with
  | halt => simp
  | proceed hm _ ih => exact ih (hm.below hb)
  | missing hm => simpa using (hm.below hb).1
  | @fail _ _ _ code _ _ calls hm _ _ ih =>
    have hw := (hm.below hb).1
    intro k hk
    rcases List.mem_append.1 hk with hk | hk
    · have hn := Nat.lt_of_lt_of_le (ih (Task.below_clause code) k hk) code.width_trim_le
      exact Nat.lt_trans hn hw
    · rw [List.mem_singleton.1 hk]
      exact hw
  | @resume _ _ _ code _ v _ calls later hm _ _ _ ih ih' =>
    obtain ⟨hw, hr⟩ := hm.below hb
    intro k hk
    rcases List.mem_append.1 hk with hk | hk
    · have hn := Nat.lt_of_lt_of_le (ih (Task.below_clause code) k hk) code.width_trim_le
      exact Nat.lt_trans hn hw
    · rcases List.mem_cons.1 hk with rfl | hk
      · exact hw
      · exact ih' (hr v) k hk

/-- A task whose calls have fewer than `w` characters comes to an end. -/
theorem Task.Below.exists_executes (table : List Builtin) {w : Nat} {t : Task} (hb : t.Below w)
    (c : Context) : ∃ r calls, Executes table t c r calls := by
  induction w using Nat.strongRecOn generalizing t c with
  | _ w ihw =>
    -- The statements called for are shorter, and what follows a move has lower rank.
    induction t using wellFounded_precedes.induction generalizing c with
    | _ t iht =>
      obtain ⟨m, hm⟩ := t.exists_moves table c
      have hmb := hm.below hb
      cases m with
      | halt r => exact ⟨r, [], .halt hm⟩
      | proceed t' c' =>
        obtain ⟨r, calls, he⟩ := iht t' (hm.precedes rfl) hmb c'
        exact ⟨r, calls, .proceed hm he⟩
      | call code resume =>
        cases hk : code.trim.isBlank with
        | true => exact ⟨_, _, .missing hm hk⟩
        | false =>
          obtain ⟨r, calls, he⟩ :=
            ihw _ (Nat.lt_of_le_of_lt code.width_trim_le hmb.1) (Task.below_clause code)
              (c.enter code.trim.tokens)
          cases r with
          | error e d => exact ⟨_, _, .fail hm hk he⟩
          | ok v d =>
            obtain ⟨r', later, he'⟩ := iht (resume v) (hm.precedes ⟨v, rfl⟩) (hmb.2 v) (d.leave c)
            exact ⟨r', _, .resume hm hk he he'⟩

/-- Evaluating a code is a call of its own, the last one to end; all others are shorter. -/
theorem Executes.calls_of_evaluate {table : List Builtin} {code : Cursor} {c : Context}
    {r : Run.Result} {calls : List Call} (h : Executes table (.evaluate code) c r calls) :
    ∃ nested, calls = nested ++ [⟨code, c, r⟩] ∧
      ∀ k ∈ nested, Token.width k.code.tokens < Token.width code.trim.tokens := by
  cases h with
  | halt hm => cases hm
  | proceed hm => cases hm
  | missing hm => cases hm; exact ⟨[], rfl, by simp⟩
  | fail hm _ he => cases hm; exact ⟨_, rfl, he.width_of_mem (Task.below_clause code)⟩
  | resume hm _ he he' =>
    cases hm
    cases he' with
    | halt hv => cases hv; exact ⟨_, rfl, he.width_of_mem (Task.below_clause code)⟩
    | proceed hv => cases hv
    | missing hv => cases hv
    | fail hv => cases hv
    | resume hv => cases hv

/-- The target of a loop is evaluated once in each pass, and nowhere else in it. -/
theorem Executes.count_passes {table : List Builtin} {target : List Token} {n : Nat} {c : Context}
    {r : Run.Result} {calls : List Call} (h : Executes table (.passes target n) c r calls) :
    calls.countP (·.code = .ofTokens target) ≤ n ∧
      ∀ v d, r = .ok v d → calls.countP (·.code = .ofTokens target) = n := by
  have hz (calls : List Call) (h : ∀ k ∈ calls,
      Token.width k.code.tokens < Token.width (Cursor.ofTokens target).trim.tokens) :
      calls.countP (·.code = .ofTokens target) = 0 := by
    refine List.countP_eq_zero.2 fun k hk he ↦ ?_
    have hw := h k hk
    have ht := (Cursor.ofTokens target).width_trim_le
    rw [of_decide_eq_true he] at hw
    omega
  induction n generalizing c r calls with
  | zero =>
    cases h with
    | halt => simp
    | proceed hm => cases hm
    | missing hm => cases hm
    | fail hm => cases hm
    | resume hm => cases hm
  | succ n ih =>
    cases h with
    | halt hm => cases hm
    | proceed hm => cases hm
    | missing hm _ =>
      cases hm
      exact ⟨by simp, fun v d hr ↦ nomatch hr⟩
    | fail hm _ he =>
      cases hm
      have hn := hz _ (he.width_of_mem (Task.below_clause _))
      exact ⟨by simp [List.countP_append, hn], fun v d hr ↦ nomatch hr⟩
    | resume hm _ he he' =>
      cases hm
      have hn := hz _ (he.width_of_mem (Task.below_clause _))
      obtain ⟨hle, heq⟩ := ih he'
      simp only [List.countP_append, hn, List.countP_cons, decide_true, if_true]
      refine ⟨by omega, fun v d hr ↦ ?_⟩
      have hv := heq v d hr
      omega

theorem Executes.count_loop {table : List Builtin} {target : List Token} {count : Value}
    {c : Context} {r : Run.Result} {calls : List Call}
    (h : Executes table (.loop target count) c r calls) :
    (∃ e d, count.repetitions c = .error e d ∧ r = .error e d ∧ calls = []) ∨
      ∃ n d, count.repetitions c = .ok n d ∧
        calls.countP (·.code = .ofTokens target) ≤ n ∧
        ∀ v d', r = .ok v d' → calls.countP (·.code = .ofTokens target) = n := by
  cases h with
  | halt hm =>
    cases hm with
    | uncountable hn => exact .inl ⟨_, _, hn, rfl, rfl⟩
  | proceed hm he =>
    cases hm with
    | counted hn => exact .inr ⟨_, _, hn, he.count_passes⟩
  | missing hm => cases hm
  | fail hm => cases hm
  | resume hm => cases hm

theorem Cursor.index_readLine {cursor : Cursor} {line : List Token}
    (h : cursor.readLine.1 = .ok (some line)) :
    line ≠ [] ∧ cursor.readLine.2.index = cursor.index + line.length ∧
      cursor.readLine.2.index ≤ cursor.size := by
  obtain ⟨hi, ⟨rest, hr⟩, hc⟩ := Cursor.readLine_cases h
  have hlen : cursor.rest.length = cursor.size - cursor.index := List.length_drop
  have ha := congrArg List.length (append_of_readLine hr)
  rw [List.length_append] at ha
  refine ⟨?_, by rw [hc], by rw [hc]; show cursor.index + line.length ≤ cursor.size; omega⟩
  obtain ⟨t, ts, ht⟩ := List.exists_cons_of_length_pos (show 0 < cursor.rest.length by omega)
  exact ne_nil_of_readLine (ht ▸ hr)

theorem Cursor.exists_executes_evaluate (code : Cursor) (c : Context) :
    ∃ calls, Executes c.functions (.evaluate code) c (code.evaluate c) calls := by
  have hb : (Task.evaluate code).Below (Token.width code.tokens + 1) := Nat.lt_succ_self _
  obtain ⟨r, calls, he⟩ := hb.exists_executes c.functions c
  have hr : code.evaluate c = r := he.run_eq
  rw [hr]
  exact ⟨calls, he⟩

theorem runTokens_eq (ts : List Token) (c : Context) :
    runTokens ts c = (Task.lines ts .empty).run c.functions c := rfl

theorem exists_executes_runTokens (ts : List Token) (c : Context) :
    ∃ calls, Executes c.functions (.lines ts .empty) c (runTokens ts c) calls := by
  have hb : (Task.lines ts .empty).Below (Token.width ts + 1) := Nat.lt_succ_self _
  obtain ⟨r, calls, he⟩ := hb.exists_executes c.functions c
  rw [runTokens_eq, he.run_eq]
  exact ⟨calls, he⟩

/-- Every script ends in every context, after finitely many calls. While a code is evaluated only
shorter ones are, a block is longer than what it encloses, each line takes a token, and a loop makes
the passes that were counted before the first one. -/
theorem runScript_ends (script : Text) (c : Context) :
    (∃ calls,
      Executes c.functions (.lines (tokenize script 1) .empty) c (runScript script c) calls) ∧
    (∀ r calls, Executes c.functions (.lines (tokenize script 1) .empty) c r calls →
      r = runScript script c) ∧
    (∀ (table : List Builtin) (code : Cursor) (d : Context) (r : Run.Result) (calls : List Call),
      Executes table (.evaluate code) d r calls →
      ∃ nested, calls = nested ++ [⟨code, d, r⟩] ∧ ∀ k ∈ nested,
        (Token.render k.code.tokens).length < (Token.render code.trim.tokens).length) ∧
    (∀ (code : Cursor) (body after : List Token),
      Clause.read code.trim.tokens code.trim.rest = .ok (.block body, after) →
      (Token.render body).length < (Token.render code.trim.tokens).length) ∧
    (∀ (cursor : Cursor) (line : List Token), cursor.readLine.1 = .ok (some line) →
      line ≠ [] ∧ cursor.readLine.2.index = cursor.index + line.length ∧
        cursor.readLine.2.index ≤ cursor.size) ∧
    (∀ (table : List Builtin) (target : List Token) (count : Value) (d : Context) (r : Run.Result)
      (calls : List Call), Executes table (.loop target count) d r calls →
      (∃ e d', count.repetitions d = .error e d' ∧ r = .error e d' ∧ calls = []) ∨
        ∃ n d', count.repetitions d = .ok n d' ∧
          calls.countP (·.code = .ofTokens target) ≤ n ∧
          ∀ v d'', r = .ok v d'' → calls.countP (·.code = .ofTokens target) = n) := by
  refine ⟨exists_executes_runTokens _ c, ?_, ?_, ?_, ?_, ?_⟩
  · intro r calls h
    exact h.run_eq.symm
  · intro table code d r calls h
    exact h.calls_of_evaluate
  · intro code body after h
    exact Nat.lt_of_lt_of_le (Clause.width_of_read h (by simp [Clause.parts]))
      code.trim.width_rest_le
  · intro cursor line h
    exact Cursor.index_readLine h
  · intro table target count d r calls h
    exact h.count_loop

end Kotoba
