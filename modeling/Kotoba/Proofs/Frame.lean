import Kotoba.Proofs.Termination

/-!
What a run leaves as it was: the table of functions, the sink for inspection and the statement
around it. Names that are bound stay bound and effects that are noted stay noted.
-/

namespace Kotoba

/-- The second context has only more names bound, or bound anew, and more effects noted. -/
structure Context.Extends (c d : Context) : Prop where
  functions : d.functions = c.functions
  diagnostic : d.diagnostic = c.diagnostic
  statement : d.statement = c.statement
  bound : ∀ name, (c.scope.get? name).isSome = true → (d.scope.get? name).isSome = true
  journal : ∃ later, d.journal = c.journal ++ later

namespace Context.Extends

theorem refl (c : Context) : c.Extends c := ⟨rfl, rfl, rfl, fun _ h ↦ h, #[], by simp⟩

theorem trans {c d e : Context} (h : c.Extends d) (h' : d.Extends e) : c.Extends e := by
  obtain ⟨later, hl⟩ := h.journal
  obtain ⟨later', hl'⟩ := h'.journal
  refine ⟨h'.functions.trans h.functions, h'.diagnostic.trans h.diagnostic,
    h'.statement.trans h.statement, fun name hn ↦ h'.bound name (h.bound name hn),
    later ++ later', ?_⟩
  rw [hl', hl, Array.append_assoc]

theorem note (c : Context) (e : Effect) : c.Extends (c.note e) :=
  ⟨rfl, rfl, rfl, fun _ h ↦ h, #[e], by simp [Context.note]⟩

theorem set (c : Context) (name : Text) (v : Value) :
    c.Extends { c with scope := c.scope.set name v } := by
  refine ⟨rfl, rfl, rfl, fun other h ↦ ?_, #[], by simp⟩
  by_cases hn : other = name
  · rw [hn, Bindings.get?_set_self]
    rfl
  · rwa [Bindings.get?_set_of_ne _ _ hn]

theorem leave {c d : Context} {source : List Token} (h : (c.enter source).Extends d) :
    c.Extends (d.leave c) := by
  obtain ⟨later, hl⟩ := h.journal
  refine ⟨h.functions, h.diagnostic, rfl, h.bound, #[.traced (.statement source)] ++ later, ?_⟩
  rw [← Array.append_assoc]
  exact hl

theorem size_le {c d : Context} (h : c.Extends d) : c.journal.size ≤ d.journal.size := by
  obtain ⟨later, hl⟩ := h.journal
  rw [hl, Array.size_append]
  omega

end Context.Extends

namespace Context

/-- What has been noted in `d` on the way to it from `c`. -/
def since (d c : Context) : List Effect := d.journal.toList.drop c.journal.size

theorem since_of_append {c d : Context} {later : List Effect}
    (h : d.journal.toList = c.journal.toList ++ later) : d.since c = later := by
  rw [since, h, ← Array.length_toList, List.drop_left]

end Context

namespace Run

/-- The context in which a run ended. -/
def context {α : Type} : EStateM.Result Fault Context α → Context
  | .ok _ d => d
  | .error _ d => d

def value? {α : Type} : EStateM.Result Fault Context α → Option α
  | .ok a _ => some a
  | .error _ _ => none

def fault? {α : Type} : EStateM.Result Fault Context α → Option Fault
  | .ok _ _ => none
  | .error e _ => some e

theorem eq_error_of_fault? {α : Type} {r : EStateM.Result Fault Context α} {e : Fault}
    (h : fault? r = some e) : ∃ d, r = .error e d := by
  cases r with
  | ok a d => cases h
  | error e' d =>
    cases h
    exact ⟨d, rfl⟩

def Extending {α : Type} (x : Run α) : Prop := ∀ c : Context, c.Extends (context (x c))

namespace Extending

theorem pure {α : Type} (a : α) : Extending (Pure.pure a) := Context.Extends.refl

theorem throw {α : Type} (e : Fault) : Extending (MonadExcept.throw e : Run α) :=
  Context.Extends.refl

theorem bind {α β : Type} {x : Run α} {f : α → Run β} (hx : Extending x)
    (hf : ∀ a, Extending (f a)) : Extending (x >>= f) := by
  intro c
  have h := hx c
  rw [Run.bind_apply]
  cases hr : x c with
  | ok a d =>
    rw [hr] at h
    exact h.trans (hf a d)
  | error e d =>
    rw [hr] at h
    exact h

theorem get_bind {α : Type} {f : Context → Run α} (hf : ∀ c, Extending (f c)) :
    Extending (get >>= f) := fun c ↦ hf c c

theorem note (e : Effect) : Extending (Run.note e) := fun c ↦ .note c e

theorem complain {α : Type} (cause : Complaint) : Extending (Run.complain cause : Run α) :=
  get_bind fun _ ↦ throw _

theorem ofExcept {α : Type} (r : Except Fault α) : Extending (Run.ofExcept r) := by
  cases r with
  | ok a => exact pure a
  | error e => exact throw e

theorem passOn (failure : Option Text) : Extending (Run.passOn failure) := by
  cases failure with
  | none => exact pure ()
  | some t => exact throw _

end Extending

end Run

theorem Callable.call_extending (f : Callable) (v : Value) : Run.Extending (f.call v) :=
  .bind (.ofExcept _) fun _ ↦ .bind (.note _) fun _ ↦ .passOn _

theorem Procedure.compare_extending (args : Bindings) (holds : Operands → Bool) :
    Run.Extending (compare args holds) := by
  unfold compare
  simp only
  split
  · exact .pure _
  · exact .bind (.ofExcept _) fun _ ↦ .bind (.ofExcept _) fun _ ↦ .complain _

theorem Procedure.call_extending (name : Text) (args : Bindings) (p : Procedure) :
    Run.Extending (p.call name args) := by
  cases p with
  | display =>
    simp only [call]
    split
    · exact .bind (Callable.call_extending _ _) fun _ ↦ .pure _
    · exact .bind (.ofExcept _) fun _ ↦ .bind (.complain _) fun _ ↦ .pure _
  | debugDisplay =>
    exact .get_bind fun c ↦ .bind (Callable.call_extending _ _) fun _ ↦ .pure _
  | less => exact compare_extending args _
  | greater => exact compare_extending args _
  | custom echo result failure =>
    exact .bind (.note _) fun _ ↦ .bind (.passOn failure) fun _ ↦ .pure _

theorem Value.repetitions_extending (v : Value) : Run.Extending v.repetitions := by
  unfold repetitions
  split
  · exact .complain _
  · split
    · exact .pure _
    · exact .throw _
  · split
    · exact .complain _
    · exact .pure _

namespace Statement

theorem lookUp_extending (source : List Token) : Run.Extending (lookUp source) := by
  refine .get_bind fun c ↦ ?_
  split
  · exact .pure _
  · split
    · exact .ofExcept _
    · exact .throw _

theorem failMissing_extending (source : List Token) : Run.Extending (failMissing source) :=
  .get_bind fun _ ↦ .throw _

theorem finishCall_extending (source : List Token) (f : Builtin) (complete : Bool)
    (arguments : List (Text × Value)) :
    Run.Extending (finishCall source f complete arguments) := by
  unfold finishCall
  cases complete with
  | false => exact .throw _
  | true => exact .bind (.note _) fun _ ↦ Procedure.call_extending _ _ _

end Statement

/-- Neither halting nor going on takes anything back. -/
def Move.Extending (c : Context) : Move → Prop
  | .halt r => c.Extends (Run.context r)
  | .proceed _ d => c.Extends d
  | .call _ _ => True

theorem Task.Moves.extending {table : List Builtin} {t : Task} {c : Context} {m : Move}
    (h : t.Moves table c m) : m.Extending c := by
  cases h with
  | phrase => exact Statement.lookUp_extending _ c
  | @uncountable _ count _ _ _ hn =>
    have he := count.repetitions_extending c
    rw [hn] at he
    exact he
  | @counted _ count _ _ _ hn =>
    have he := count.repetitions_extending c
    rw [hn] at he
    exact he.trans (.note _ _)
  | assign => exact .set c _ _
  | complete => exact Statement.finishCall_extending _ _ _ _ c
  | _ => first | trivial | exact .refl c

theorem Executes.extends {table : List Builtin} {t : Task} {c : Context} {r : Run.Result}
    {calls : List Call} (h : Executes table t c r calls) : c.Extends (Run.context r) := by
  induction h with
  | halt hm => exact hm.extending
  | proceed hm _ ih => exact hm.extending.trans ih
  | missing => exact Statement.failMissing_extending _ _
  | fail _ _ _ ih => exact ih.leave
  | resume _ _ _ _ ih ih' => exact ih.leave.trans ih'

/-- However a statement, lines or a script end, by a value or by a fault, the statement around them,
the functions and the sink for inspection are what they were, and no name has been unbound. -/
theorem run_restores_context (code : Cursor) (script : Text) (c : Context) :
    c.Extends (Run.context (code.evaluate c)) ∧ c.Extends (Run.context (code.runAll c)) ∧
      c.Extends (Run.context (runScript script c)) := by
  refine ⟨?_, ?_, ?_⟩
  · obtain ⟨calls, hx⟩ := code.exists_executes_evaluate c
    exact hx.extends
  · obtain ⟨calls, hx⟩ := exists_executes_runTokens code.rest c
    exact hx.extends
  · obtain ⟨calls, hx⟩ := exists_executes_runTokens (tokenize script 1) c
    exact hx.extends

end Kotoba
