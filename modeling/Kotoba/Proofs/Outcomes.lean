import Kotoba.Proofs.Journal
import Kotoba.Proofs.Sentences

/-!
What comes of a run, seen from outside: its value, the names it binds and what it does, traces left
out. Two runs are interchangeable if the same comes of them wherever they begin, and then also of
what is put together from them in the same way. The faults of the two may be worded differently,
and so may the traces.
-/

namespace Kotoba

/-- The context without traces and without the statement that is run in it. -/
def Context.outward (c : Context) : Context :=
  { c with statement := none, journal := c.journal.filter fun e ↦ e.trace?.isNone }

namespace Context

variable {c d : Context}

theorem outward_traced (c : Context) (step : Trace) :
    (c.note (.traced step)).outward = c.outward := by
  have hj : (c.journal.push (.traced step)).filter (fun e ↦ e.trace?.isNone) =
      c.journal.filter fun e ↦ e.trace?.isNone :=
    Array.filter_push_of_neg Bool.false_ne_true (Array.size_push _)
  simp only [note, outward, hj]

theorem outward_note (h : c.outward = d.outward) (e : Effect) :
    (c.note e).outward = (d.note e).outward := by
  injection h with hs hf hi _ hj
  have hp : (c.journal.push e).filter (fun e ↦ e.trace?.isNone) =
      (d.journal.push e).filter fun e ↦ e.trace?.isNone := by
    rw [← Array.toList_inj] at hj ⊢
    simp only [Array.toList_filter, Array.toList_push, List.filter_append] at hj ⊢
    rw [hj]
  simp only [note, outward, hs, hf, hi, hp]

theorem outward_enter (c : Context) (source : List Token) : (c.enter source).outward = c.outward :=
  c.outward_traced (.statement source)

theorem outward_preface (h : c.outward = d.outward) (e : Context) :
    (e.preface c.journal).outward = (e.preface d.journal).outward := by
  have hj : c.outward.journal = d.outward.journal := congrArg Context.journal h
  simp only [outward] at hj
  simp only [preface, outward, Array.filter_append, Array.size_append, hj]

theorem events_of_outward (h : c.Extends d) :
    d.outward.journal.toList = c.outward.journal.toList ++ d.events c := by
  obtain ⟨later, hl⟩ := h.journal
  have hs : d.since c = later.toList := since_of_append (by rw [hl, Array.toList_append])
  unfold outward events
  rw [hs, hl]
  simp

theorem events_eq_of_outward {e : Context} (hd : c.Extends d) (he : c.Extends e)
    (h : d.outward = e.outward) : d.events c = e.events c := by
  have hj := congrArg (fun c : Context ↦ c.journal.toList) h
  simp only [events_of_outward hd, events_of_outward he] at hj
  exact List.append_cancel_left hj

end Context

namespace Run

variable {α β : Type}

def outcome (r : EStateM.Result Fault Context α) : Option α × Context :=
  (value? r, (context r).outward)

theorem outcome_exit (c : Context) (r : EStateM.Result Fault Context α) :
    outcome (c.exit r) = outcome r := by
  cases r <;> rfl

/-- From contexts that look alike, the same comes of both runs. -/
def Interchangeable (x y : Run α) : Prop :=
  ∀ c d : Context, c.outward = d.outward → outcome (x c) = outcome (y d)

namespace Interchangeable

theorem pure (a : α) : Interchangeable (Pure.pure a) (Pure.pure a) := by
  intro c d h
  exact congrArg (Prod.mk (some a)) h

theorem fail {x y : Run α} (hx : ∀ c, ∃ e, x c = .error e c) (hy : ∀ c, ∃ e, y c = .error e c) :
    Interchangeable x y := by
  intro c d h
  obtain ⟨e, he⟩ := hx c
  obtain ⟨e', he'⟩ := hy d
  rw [he, he']
  exact congrArg (Prod.mk none) h

theorem throw (e e' : Fault) :
    Interchangeable (MonadExcept.throw e : Run α) (MonadExcept.throw e') :=
  fail (fun _ ↦ ⟨e, rfl⟩) fun _ ↦ ⟨e', rfl⟩

theorem complain (cause : Complaint) :
    Interchangeable (Run.complain cause : Run α) (Run.complain cause) :=
  fail (fun _ ↦ ⟨_, rfl⟩) fun _ ↦ ⟨_, rfl⟩

theorem ofExcept (r : Except Fault α) : Interchangeable (Run.ofExcept r) (Run.ofExcept r) := by
  cases r with
  | ok a => exact pure a
  | error e => exact throw e e

theorem passOn (failure : Option Text) :
    Interchangeable (Run.passOn failure) (Run.passOn failure) := by
  cases failure with
  | none => exact pure ()
  | some t => exact throw _ _

theorem note (e : Effect) : Interchangeable (Run.note e) (Run.note e) := by
  intro c d h
  exact congrArg (Prod.mk (some ())) (Context.outward_note h e)

theorem traced (step step' : Trace) :
    Interchangeable (Run.note (.traced step)) (Run.note (.traced step')) := by
  intro c d h
  refine congrArg (Prod.mk (some ())) ?_
  show (c.note _).outward = (d.note _).outward
  rw [Context.outward_traced, Context.outward_traced, h]

theorem bind {x y : Run α} {f g : α → Run β} (hx : Interchangeable x y)
    (hf : ∀ a, Interchangeable (f a) (g a)) : Interchangeable (x >>= f) (y >>= g) := by
  intro c d h
  have ho := hx c d h
  rw [bind_apply, bind_apply]
  cases hc : x c with
  | ok a c' =>
    cases hd : y d with
    | ok b d' =>
      rw [hc, hd] at ho
      obtain ⟨hv, hw⟩ := Prod.mk.inj ho
      obtain rfl : a = b := Option.some.inj hv
      exact hf a c' d' hw
    | error e d' =>
      rw [hc, hd] at ho
      cases (Prod.mk.inj ho).1
  | error e c' =>
    cases hd : y d with
    | ok b d' =>
      rw [hc, hd] at ho
      cases (Prod.mk.inj ho).1
    | error e' d' =>
      rw [hc, hd] at ho
      exact congrArg (Prod.mk none) (Prod.mk.inj ho).2

theorem get_bind {f g : Context → Run α}
    (h : ∀ c d : Context, c.outward = d.outward → Interchangeable (f c) (g d)) :
    Interchangeable (get >>= f) (get >>= g) := by
  intro c d hcd
  exact h c d hcd c d hcd

theorem within (source source' : List Token) {x y : Run α} (h : Interchangeable x y) :
    Interchangeable (Run.within source x) (Run.within source' y) := by
  intro c d hcd
  rw [within_apply, within_apply, outcome_exit, outcome_exit]
  refine h _ _ ?_
  rw [Context.outward_enter, Context.outward_enter, hcd]

theorem times {x y : Run Unit} (h : Interchangeable x y) (n : Nat) :
    Interchangeable (Run.times x n) (Run.times y n) := by
  induction n with
  | zero => exact pure ()
  | succ n ih => exact bind h fun _ ↦ ih

end Interchangeable

/-- The run comes to the same wherever it begins, and leaves no more behind than traces. -/
structure Looks (x : Run α) : Prop where
  interchangeable : Interchangeable x x
  outward : ∀ c, (context (x c)).outward = c.outward

theorem Looks.value?_eq {x : Run α} (hx : Looks x) {c d : Context} (h : c.outward = d.outward) :
    value? (x c) = value? (x d) := congrArg Prod.fst (hx.interchangeable c d h)

theorem outcome_bind_of_some {x : Run α} {f : α → Run β} {c : Context} {a : α}
    (h : value? (x c) = some a) : outcome ((x >>= f) c) = outcome (f a (context (x c))) := by
  rw [bind_apply]
  cases hx : x c with
  | ok b d =>
    rw [hx] at h
    cases h
    rfl
  | error e d =>
    rw [hx] at h
    cases h

theorem outcome_bind_of_none {x : Run α} {f : α → Run β} {c : Context}
    (h : value? (x c) = none) : outcome ((x >>= f) c) = (none, (context (x c)).outward) := by
  rw [bind_apply]
  cases hx : x c with
  | ok b d =>
    rw [hx] at h
    cases h
  | error e d => rfl

/-- Runs that only look may be made in either order. -/
theorem Interchangeable.swap {γ : Type} {x : Run α} {y : Run β} {f : α → β → Run γ}
    {g : β → α → Run γ} (hx : Looks x) (hy : Looks y) (h : ∀ a b, Interchangeable (f a b) (g b a)) :
    Interchangeable (x >>= fun a ↦ y >>= fun b ↦ f a b) (y >>= fun b ↦ x >>= fun a ↦ g b a) := by
  intro c d hcd
  -- If one of the two fails, it fails in both orders, and the other one has changed nothing.
  have hxc : (context (x c)).outward = d.outward := (hx.outward c).trans hcd
  have hyd : (context (y d)).outward = c.outward := (hy.outward d).trans hcd.symm
  cases hvx : value? (x c) with
  | none =>
    rw [outcome_bind_of_none hvx, hxc]
    cases hvy : value? (y d) with
    | none => rw [outcome_bind_of_none hvy, hy.outward]
    | some b =>
      have hvx' : value? (x (context (y d))) = none := (hx.value?_eq hyd).trans hvx
      rw [outcome_bind_of_some hvy, outcome_bind_of_none hvx', hx.outward, hy.outward]
  | some a =>
    rw [outcome_bind_of_some hvx]
    cases hvy : value? (y d) with
    | none =>
      have hvy' : value? (y (context (x c))) = none := (hy.value?_eq hxc).trans hvy
      rw [outcome_bind_of_none hvy', outcome_bind_of_none hvy, hy.outward, hy.outward, hxc]
    | some b =>
      have hvx' : value? (x (context (y d))) = some a := (hx.value?_eq hyd).trans hvx
      have hvy' : value? (y (context (x c))) = some b := (hy.value?_eq hxc).trans hvy
      rw [outcome_bind_of_some hvy', outcome_bind_of_some hvy, outcome_bind_of_some hvx']
      refine h a b _ _ ?_
      rw [hy.outward, hxc, hx.outward, hy.outward]

theorem Memoryless.interchangeable {x : Run Value} (hm : Memoryless x) (hd : Detached x) :
    Interchangeable x x := by
  intro c d h
  have hc : d.unrecorded.leave c = c.unrecorded := by
    injection h with hs hf hi
    unfold Context.unrecorded Context.leave
    simp only [hs, hf, hi]
  have hx (e : Context) : x e = preface e.journal (x e.unrecorded) := by
    rw [← hm, e.preface_unrecorded]
  have hp (r : Run.Result) : outcome (preface c.journal r) = outcome (preface d.journal r) := by
    cases r with
    | ok v e => exact congrArg (Prod.mk (some v)) (Context.outward_preface h e)
    | error f e => exact congrArg (Prod.mk none) (Context.outward_preface h e)
  have he (r : Run.Result) :
      outcome (preface d.journal (c.exit r)) = outcome (preface d.journal r) := by
    cases r <;> rfl
  rw [hx c, hx d, ← hc, hd, hp, he]

theorem interchangeable_ofTokens (table : List Builtin) (ts : List Token) :
    Interchangeable (Run.ofTokens table ts) (Run.ofTokens table ts) := by
  cases hb : (Cursor.ofTokens ts).trim.isBlank with
  | true =>
    have hf : Run.ofTokens table ts = Statement.failMissing (Cursor.ofTokens ts).trim.tokens := by
      rw [Run.ofTokens, Statement.run_read, if_pos hb]
    rw [hf]
    exact .fail (fun _ ↦ ⟨_, rfl⟩) fun _ ↦ ⟨_, rfl⟩
  | false =>
    refine (Statement.memoryless_run _).interchangeable ?_
    rw [Statement.run_read, if_neg (by simp [hb])]
    exact detached_within _ _

end Run

theorem Callable.interchangeable_call (f : Callable) (v : Value) :
    Run.Interchangeable (f.call v) (f.call v) :=
  .bind (.ofExcept _) fun _ ↦ .bind (.note _) fun _ ↦ .passOn _

theorem Procedure.interchangeable_compare (args : Bindings) (holds : Operands → Bool) :
    Run.Interchangeable (compare args holds) (compare args holds) := by
  unfold compare
  simp only
  split
  · exact .pure _
  · exact .bind (.ofExcept _) fun _ ↦ .bind (.ofExcept _) fun _ ↦ .complain _

theorem Procedure.interchangeable_call (name : Text) (args : Bindings) (p : Procedure) :
    Run.Interchangeable (p.call name args) (p.call name args) := by
  cases p with
  | display =>
    simp only [call]
    split
    · exact .bind (Callable.interchangeable_call _ _) fun _ ↦ .pure _
    · exact .bind (.ofExcept _) fun _ ↦ .bind (.complain _) fun _ ↦ .pure _
  | debugDisplay =>
    refine .get_bind fun c d h ↦ ?_
    have hd : c.outward.diagnostic = d.outward.diagnostic := congrArg Context.diagnostic h
    rw [show c.diagnostic = d.diagnostic from hd]
    exact .bind (Callable.interchangeable_call _ _) fun _ ↦ .pure _
  | less => exact interchangeable_compare args _
  | greater => exact interchangeable_compare args _
  | custom echo result failure =>
    exact .bind (.note _) fun _ ↦ .bind (.passOn failure) fun _ ↦ .pure _

theorem Value.interchangeable_repetitions (v : Value) :
    Run.Interchangeable v.repetitions v.repetitions := by
  unfold repetitions
  split
  · exact .complain _
  · split
    · exact .pure _
    · exact .throw _ _
  · split
    · exact .complain _
    · exact .pure _

theorem Statement.interchangeable_repeatBody (target target' : List Token) (count : Value)
    {body : Run Value} (hb : Run.Interchangeable body body) :
    Run.Interchangeable (repeatBody target count body) (repeatBody target' count body) := by
  refine .bind count.interchangeable_repetitions fun n ↦ ?_
  refine .bind (.traced _ _) fun _ ↦ ?_
  exact .bind (.times (.bind hb fun _ ↦ .pure ()) n) fun _ ↦ .pure _

end Kotoba
