import Kotoba.Proofs.Frame
import Kotoba.Proofs.Shift

/-!
Running does not depend on where in a script the statements stand: run further down they do the
same, and only the lines in traces and faults are moved.
-/

namespace Kotoba

instance : Located Trace where
  shift n
    | .statement source => .statement (shift n source)
    | .repetition times target => .repetition times (shift n target)
    | .call name particles => .call name particles

instance : Located Effect where
  shift n
    | .traced step => .traced (shift n step)
    | e => e

namespace Context

/-- The context with the lines moved in what was noted after the first `k` effects. -/
def relocate (n : Int) (k : Nat) (c : Context) : Context :=
  { c with journal := c.journal.mapIdx fun i e ↦ if i < k then e else shift n e }

/-- The context in which the same statement further down would be run. -/
def shift (n : Int) (k : Nat) (c : Context) : Context :=
  { c.relocate n k with statement := Kotoba.shift n c.statement }

theorem shift_note {n : Int} {k : Nat} {c : Context} (hk : k ≤ c.journal.size) (e : Effect) :
    (c.note e).shift n k = (c.shift n k).note (Kotoba.shift n e) := by
  simp only [shift, relocate, note, Array.mapIdx_push, if_neg (Nat.not_lt.2 hk)]

theorem size_note (c : Context) (e : Effect) : (c.note e).journal.size = c.journal.size + 1 :=
  Array.size_push e

theorem shift_enter {n : Int} {k : Nat} {c : Context} (hk : k ≤ c.journal.size)
    (source : List Token) :
    (c.enter source).shift n k = (c.shift n k).enter (Kotoba.shift n source) := by
  have h := shift_note (n := n) hk (.traced (.statement source))
  unfold enter
  rw [show Effect.traced (.statement (Kotoba.shift n source)) =
    Kotoba.shift n (Effect.traced (.statement source)) from rfl, ← h]
  rfl

end Context

/-- The result of the same run further down. -/
def Run.shift {α : Type} (n : Int) (k : Nat) :
    EStateM.Result Fault Context α → EStateM.Result Fault Context α
  | .ok a d => .ok a (d.shift n k)
  | .error e d => .error (Kotoba.shift n e) (d.shift n k)

/-- The second run does further down what the first one does. -/
def Run.Shifts {α : Type} (n : Int) (k : Nat) (x y : Run α) : Prop :=
  ∀ c : Context, k ≤ c.journal.size → y (c.shift n k) = Run.shift n k (x c)

namespace Run.Shifts

variable {α β : Type} {n : Int} {k : Nat}

theorem pure (a : α) : Shifts n k (Pure.pure a) (Pure.pure a) := fun _ _ ↦ rfl

theorem throw (e : Fault) :
    Shifts n k (MonadExcept.throw e : Run α) (MonadExcept.throw (Kotoba.shift n e)) :=
  fun _ _ ↦ rfl

theorem bind {x y : Run α} {f g : α → Run β} (hx : Shifts n k x y) (he : Extending x)
    (hf : ∀ a, Shifts n k (f a) (g a)) : Shifts n k (x >>= f) (y >>= g) := by
  intro c hk
  have hs := (he c).size_le
  rw [Run.bind_apply, Run.bind_apply, hx c hk]
  cases hr : x c with
  | ok a d =>
    rw [hr] at hs
    exact hf a d (Nat.le_trans hk hs)
  | error e d => rfl

theorem get_bind {f g : Context → Run α} (hf : ∀ c : Context, Shifts n k (f c) (g (c.shift n k))) :
    Shifts n k (get >>= f) (get >>= g) := fun c hk ↦ hf c c hk

theorem note (e : Effect) : Shifts n k (Run.note e) (Run.note (Kotoba.shift n e)) := by
  intro c hk
  show EStateM.Result.ok () ((c.shift n k).note (Kotoba.shift n e)) = .ok () ((c.note e).shift n k)
  rw [Context.shift_note hk]

theorem complain (cause : Complaint) :
    Shifts n k (Run.complain cause : Run α) (Run.complain cause) := by
  refine get_bind fun c ↦ ?_
  have h : (c.shift n k).statement.getD [] = Kotoba.shift n (c.statement.getD []) := by
    show (Kotoba.shift n c.statement).getD [] = _
    cases c.statement <;> rfl
  rw [h, Fault.onTokens_shift]
  exact throw _

theorem ofExcept {r : Except Fault α} (h : ∀ e, r = .error e → Kotoba.shift n e = e) :
    Shifts n k (Run.ofExcept r) (Run.ofExcept r) := by
  cases r with
  | ok a => exact pure a
  | error e =>
    have ht := throw (α := α) (n := n) (k := k) e
    rw [h e rfl] at ht
    exact ht

theorem passOn (failure : Option Text) :
    Shifts n k (Run.passOn failure) (Run.passOn failure) := by
  cases failure with
  | none => exact pure ()
  | some t => exact throw (.host t)

end Run.Shifts

theorem Value.format_error_shift {n : Int} {v : Value} {e : Fault} (h : v.format = .error e) :
    shift n e = e := by
  rw [eq_unprintable_of_format h]
  rfl

theorem Callable.print_error_shift {n : Int} {f : Callable} {v : Value} {e : Fault}
    (h : f.print v = .error e) : shift n e = e := by
  rcases eq_of_print_error h with rfl | ⟨g, -, rfl⟩ <;> rfl

theorem Literal.value?_error_shift {n : Int} {t : Text} {e : Fault}
    (h : Literal.value? t = some (.error e)) : shift n e = e := by
  unfold Literal.value? at h
  split at h
  · cases h
  · split at h
    · unfold Numeral.value at h
      split at h
      · cases h
      · split at h <;> cases h
        rfl
    · simp at h

section Shifts

variable {n : Int} {k : Nat}

theorem Callable.call_shifts (f : Callable) (v : Value) :
    Run.Shifts n k (f.call v) (f.call v) :=
  .bind (.ofExcept fun _ ↦ print_error_shift) (.ofExcept _) fun _ ↦
    .bind (.note (.called f v)) (.note _) fun _ ↦ .passOn f.failure?

theorem Procedure.compare_shifts (args : Bindings) (holds : Operands → Bool) :
    Run.Shifts n k (compare args holds) (compare args holds) := by
  unfold compare
  simp only
  split
  · exact .pure _
  · exact .bind (.ofExcept fun _ ↦ Value.format_error_shift) (.ofExcept _) fun _ ↦
      .bind (.ofExcept fun _ ↦ Value.format_error_shift) (.ofExcept _) fun _ ↦ .complain _

theorem Procedure.call_shifts (name : Text) (args : Bindings) (p : Procedure) :
    Run.Shifts n k (p.call name args) (p.call name args) := by
  cases p with
  | display =>
    simp only [call]
    split
    · exact .bind (Callable.call_shifts _ _) (Callable.call_extending _ _) fun _ ↦ .pure _
    · exact .bind (.ofExcept fun _ ↦ Value.format_error_shift) (.ofExcept _) fun _ ↦
        .bind (.complain _) (.complain _) fun _ ↦ .pure _
  | debugDisplay =>
    exact .get_bind fun c ↦
      .bind (Callable.call_shifts c.diagnostic _) (Callable.call_extending _ _) fun _ ↦ .pure _
  | less => exact compare_shifts args _
  | greater => exact compare_shifts args _
  | custom echo result failure =>
    exact .bind (.note (.invoked name args.sorted)) (.note _) fun _ ↦
      .bind (.passOn failure) (.passOn failure) fun _ ↦ .pure _

theorem Value.repetitions_shifts (v : Value) : Run.Shifts n k v.repetitions v.repetitions := by
  unfold repetitions
  split
  · exact .complain _
  · split
    · exact .pure _
    · exact .throw .countTooLarge
  · split
    · exact .complain _
    · exact .pure _

namespace Statement

theorem lookUp_shifts (source : List Token) :
    Run.Shifts n k (lookUp source) (lookUp (shift n source)) := by
  refine .get_bind fun c ↦ ?_
  have hs : (c.shift n k).scope = c.scope := rfl
  rw [Token.render_shift, Token.spaced_shift, hs, Fault.onTokens_shift]
  split
  · exact .pure _
  · split
    · next r hr => exact .ofExcept fun e he ↦ Literal.value?_error_shift (he ▸ hr)
    · exact .throw _

theorem failMissing_shifts (source : List Token) :
    Run.Shifts n k (failMissing source) (failMissing (shift n source)) := by
  refine .get_bind fun c ↦ ?_
  have hs : (if shift n source = [] then (c.shift n k).statement.getD [] else shift n source) =
      shift n (if source = [] then c.statement.getD [] else source) := by
    rw [shift_ite]
    simp only [shift_list_eq_nil]
    congr 1
    show (shift n c.statement).getD [] = _
    cases c.statement <;> rfl
  simp only [hs, Token.spaced_shift, Fault.onTokens_shift]
  exact .throw _

theorem finishCall_shifts (source : List Token) (f : Builtin) (complete : Bool)
    (arguments : List (Text × Value)) :
    Run.Shifts n k (finishCall source f complete arguments)
      (finishCall (shift n source) f complete arguments) := by
  unfold finishCall
  rw [Token.spaced_shift, Fault.onTokens_shift]
  cases complete with
  | false => exact .throw _
  | true =>
    exact .bind (.note (.traced (.call f.name (Bindings.ofPairs arguments).sorted.names)))
      (.note _) fun _ ↦ Procedure.call_shifts _ _ _

end Statement

end Shifts

instance : Located Task where
  shift n
    | .value v => .value v
    | .evaluate code => .evaluate (shift n code)
    | .clause source rest => .clause (shift n source) (shift n rest)
    | .loop target count => .loop (shift n target) count
    | .passes target times => .passes (shift n target) times
    | .assign name v => .assign (shift n name) v
    | .lines ts last => .lines (shift n ts) last
    | .arguments source f complete nouns done => .arguments (shift n source) f complete nouns done

/-- The tokens from which nouns get their lines are not empty. -/
def Task.Sourced : Task → Prop
  | .clause source _ | .arguments source _ _ _ _ => source ≠ []
  | _ => True

def Move.Sourced : Move → Prop
  | .halt _ => True
  | .proceed t _ => t.Sourced
  | .call _ resume => ∀ v, (resume v).Sourced

theorem Task.Moves.sourced {table : List Builtin} {t : Task} {c : Context} {m : Move}
    (h : t.Moves table c m) (hs : t.Sourced) : m.Sourced := by
  cases h with
  | @conditional _ _ _ _ _ alternative =>
    intro v
    unfold Task.branch
    cases v.holds <;> cases alternative <;> trivial
  | nouns => exact hs
  | argument => exact fun _ ↦ hs
  | repetition | binding | pass | line | evaluate => exact fun _ ↦ trivial
  | _ => trivial

theorem Task.branch_shift (n : Int) (consequent : List Token) (alternative : Option (List Token)) :
    (fun v ↦ shift n (Task.branch consequent alternative v)) =
      Task.branch (shift n consequent) (shift n alternative) := by
  funext v
  unfold Task.branch
  rw [shift_ite]
  cases alternative <;> rfl

def Move.shift (n : Int) (k : Nat) : Move → Move
  | .halt r => .halt (Run.shift n k r)
  | .proceed t c => .proceed (Kotoba.shift n t) (c.shift n k)
  | .call code resume => .call (Kotoba.shift n code) fun v ↦ Kotoba.shift n (resume v)

theorem Clause.read_shift_ok (n : Int) {source rest after : List Token} {clause : Clause}
    (h : Clause.read source rest = .ok (clause, after)) :
    Clause.read (shift n source) (shift n rest) = .ok (shift n clause, shift n after) := by
  rw [read_shift, h]
  rfl

theorem readLine_shift_ok (n : Int) {ts line rest : List Token}
    (h : readLine [] ts = .ok (line, rest)) :
    readLine [] (shift n ts) = .ok (shift n line, shift n rest) := by
  rw [← shift_nil n, readLine_shift, h]
  rfl

theorem readLine_shift_error (n : Int) {ts : List Token} {e : Fault}
    (h : readLine [] ts = .error e) : readLine [] (shift n ts) = .error (shift n e) := by
  rw [← shift_nil n, readLine_shift, h]
  rfl

/-- A task further down makes the same move further down. -/
theorem Task.Moves.shift {table : List Builtin} {t : Task} {c : Context} {m : Move} {n : Int}
    {k : Nat} (h : t.Moves table c m) (hs : t.Sourced) (hk : k ≤ c.journal.size) :
    (Kotoba.shift n t).Moves table (c.shift n k) (m.shift n k) := by
  cases h with
  | value => exact .value
  | evaluate => exact .evaluate
  | refused hr =>
    refine .refused ?_
    rw [Clause.read_shift, hr]
    rfl
  | @conditional _ _ _ _ consequent alternative _ hr =>
    have hm := @Moves.conditional table _ _ _ _ _ _ (c.shift n k) (Clause.read_shift_ok n hr)
    rw [← Task.branch_shift n consequent alternative] at hm
    exact hm
  | repetition hr => exact .repetition (Clause.read_shift_ok n hr)
  | unnamed hr hn =>
    have hm := @Moves.unnamed table _ _ _ _ _ (c.shift n k) (Clause.read_shift_ok n hr)
      (by rwa [Token.render_shift])
    rw [Token.spaced_shift, Fault.onTokens_shift] at hm
    exact hm
  | binding hr hn => exact .binding (Clause.read_shift_ok n hr) (by rwa [Token.render_shift])
  | block hr => exact .block (Clause.read_shift_ok n hr)
  | @phrase source _ _ _ hr hf =>
    have hm := @Moves.phrase table _ _ _ (c.shift n k) (Clause.read_shift_ok n hr)
      (by rwa [Token.render_shift])
    rw [Statement.lookUp_shifts source c hk] at hm
    exact hm
  | inseparable hr hf hm =>
    exact .inseparable (Clause.read_shift_ok n hr) (by rwa [Token.render_shift])
      (by rwa [Token.render_shift])
  | nouns hr hf hm =>
    exact .nouns (Clause.read_shift_ok n hr) (by rwa [Token.render_shift])
      (by rwa [Token.render_shift])
  | @uncountable _ count _ _ _ hn =>
    refine .uncountable ?_
    rw [count.repetitions_shifts c hk, hn]
    rfl
  | @counted target count _ d times hn =>
    have hd := (count.repetitions_extending c).size_le
    rw [hn] at hd
    have hm := @Moves.counted table (Kotoba.shift n target) count (c.shift n k) (d.shift n k) times
      (by rw [count.repetitions_shifts c hk, hn]; rfl)
    have he : (d.shift n k).note (.traced (.repetition times (Kotoba.shift n target))) =
        (d.note (.traced (.repetition times target))).shift n k :=
      (Context.shift_note (Nat.le_trans hk hd) (.traced (.repetition times target))).symm
    rw [he] at hm
    exact hm
  | finished => exact .finished
  | pass => exact .pass
  | @assign name v =>
    have hm := @Moves.assign table (Kotoba.shift n name) v (c.shift n k)
    rw [Token.render_shift] at hm
    exact hm
  | ended => exact .ended
  | unreadable hr => exact .unreadable (readLine_shift_error n hr)
  | blankLine hr hb =>
    exact .blankLine (readLine_shift_ok n hr) (by rwa [Token.allDelimiters_shift])
  | line hr hb => exact .line (readLine_shift_ok n hr) (by rwa [Token.allDelimiters_shift])
  | @complete source f complete done =>
    have hm := @Moves.complete table (Kotoba.shift n source) f complete done (c.shift n k)
    rw [Statement.finishCall_shifts source f complete done c hk] at hm
    exact hm
  | @argument source f complete a nouns done =>
    have hm := @Moves.argument table (Kotoba.shift n source) f complete a nouns done (c.shift n k)
    rw [Statement.nounTokens_shift n hs, Cursor.ofTokens_shift] at hm
    exact hm

theorem Cursor.tokens_ne_nil {code : Cursor} (h : code.isBlank = false) : code.tokens ≠ [] := by
  rintro ht
  simp [Cursor.isBlank, ht, Token.allDelimiters] at h

theorem Context.size_enter (c : Context) (source : List Token) :
    c.journal.size ≤ (c.enter source).journal.size := by
  show c.journal.size ≤ (c.note _).journal.size
  rw [size_note]
  omega

theorem Cursor.tokens_trim_shift (n : Int) (code : Cursor) :
    (shift n code).trim.tokens = shift n code.trim.tokens := by
  rw [trim_shift]
  rfl

theorem Task.clause_trim_shift (n : Int) (code : Cursor) :
    shift n (Task.clause code.trim.tokens code.trim.rest) =
      .clause (shift n code).trim.tokens (shift n code).trim.rest := by
  rw [Cursor.trim_shift, Cursor.rest_shift]
  rfl

theorem Cursor.isBlank_trim_shift (n : Int) (code : Cursor) :
    (shift n code).trim.isBlank = code.trim.isBlank := by
  rw [trim_shift, isBlank_shift]

def Call.shift (n : Int) (j : Nat) (k : Call) : Call :=
  ⟨Kotoba.shift n k.code, k.entry.shift n j, Run.shift n j k.result⟩

/-- A task further down is done in the same way, further down. -/
theorem Executes.shift {table : List Builtin} {t : Task} {c : Context} {r : Run.Result}
    {calls : List Call} (h : Executes table t c r calls) {n : Int} {k : Nat} (hs : t.Sourced)
    (hk : k ≤ c.journal.size) :
    Executes table (Kotoba.shift n t) (c.shift n k) (Run.shift n k r) (calls.map (.shift n k)) := by
  induction h with
  | halt hm => exact .halt (hm.shift hs hk)
  | proceed hm _ ih =>
    exact .proceed (hm.shift hs hk) (ih (hm.sourced hs) (Nat.le_trans hk hm.extending.size_le))
  | @missing t c code resume hm hb =>
    have he := Executes.missing (hm.shift (n := n) hs hk) ((code.isBlank_trim_shift n).trans hb)
    rw [Cursor.tokens_trim_shift, Statement.failMissing_shifts code.trim.tokens c hk] at he
    exact he
  | @fail t c d code resume e calls hm hb _ ih =>
    have hc := ih (Cursor.tokens_ne_nil hb) (Nat.le_trans hk (c.size_enter code.trim.tokens))
    rw [Context.shift_enter hk, Task.clause_trim_shift, ← Cursor.tokens_trim_shift] at hc
    have he := Executes.fail (hm.shift hs hk) ((code.isBlank_trim_shift n).trans hb) hc
    rw [List.map_append]
    exact he
  | @resume t c d code resume v r calls later hm hb hx _ ih ih' =>
    have hc := ih (Cursor.tokens_ne_nil hb) (Nat.le_trans hk (c.size_enter code.trim.tokens))
    rw [Context.shift_enter hk, Task.clause_trim_shift, ← Cursor.tokens_trim_shift] at hc
    have hd : k ≤ (d.leave c).journal.size := Nat.le_trans hk hx.extends.leave.size_le
    have he := Executes.resume (hm.shift hs hk) ((code.isBlank_trim_shift n).trans hb) hc
      (ih' (hm.sourced hs v) hd)
    rw [List.map_append, List.map_cons]
    exact he

end Kotoba
