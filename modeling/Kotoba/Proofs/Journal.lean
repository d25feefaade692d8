import Kotoba.Proofs.Frame

/-!
Running does not look at the journal. Begun with more noted before it, a run notes the same after
that, and its value, its fault and the names it binds are the same.
-/

namespace Kotoba

namespace Context

/-- The context with more noted in it, before all else. -/
def preface (past : Array Effect) (c : Context) : Context :=
  { c with journal := past ++ c.journal }

theorem preface_note (past : Array Effect) (c : Context) (e : Effect) :
    (c.preface past).note e = (c.note e).preface past := by
  unfold preface note
  rw [Array.push_append]

def unrecorded (c : Context) : Context := { c with journal := #[] }

theorem preface_unrecorded (c : Context) : c.unrecorded.preface c.journal = c := by
  unfold preface unrecorded
  rw [Array.append_empty]

end Context

namespace Run

variable {α β : Type}

def preface (past : Array Effect) :
    EStateM.Result Fault Context α → EStateM.Result Fault Context α
  | .ok a d => .ok a (d.preface past)
  | .error e d => .error e (d.preface past)

def Memoryless (x : Run α) : Prop := ∀ past c, x (Context.preface past c) = preface past (x c)

namespace Memoryless

theorem pure (a : α) : Memoryless (Pure.pure a) := fun _ _ ↦ rfl

theorem throw (e : Fault) : Memoryless (MonadExcept.throw e : Run α) := fun _ _ ↦ rfl

theorem bind {x : Run α} {f : α → Run β} (hx : Memoryless x) (hf : ∀ a, Memoryless (f a)) :
    Memoryless (x >>= f) := by
  intro past c
  rw [Run.bind_apply, Run.bind_apply, hx past c]
  cases x c with
  | ok a d => exact hf a past d
  | error e d => rfl

theorem get_bind {f : Context → Run α} (hf : ∀ c, Memoryless (f c))
    (he : ∀ past c, f (Context.preface past c) = f c) : Memoryless (get >>= f) := by
  intro past c
  show f (c.preface past) (c.preface past) = preface past (f c c)
  rw [he, hf c past c]

theorem note (e : Effect) : Memoryless (Run.note e) := by
  intro past c
  show EStateM.Result.ok () ((c.preface past).note e) = .ok () ((c.note e).preface past)
  rw [Context.preface_note]

theorem complain (cause : Complaint) : Memoryless (Run.complain cause : Run α) :=
  get_bind (fun _ ↦ throw _) fun _ _ ↦ rfl

theorem ofExcept (r : Except Fault α) : Memoryless (Run.ofExcept r) := by
  cases r with
  | ok a => exact pure a
  | error e => exact throw e

theorem passOn (failure : Option Text) : Memoryless (Run.passOn failure) := by
  cases failure with
  | none => exact pure ()
  | some t => exact throw _

theorem within (source : List Token) {body : Run α} (hb : Memoryless body) :
    Memoryless (Run.within source body) := by
  intro past c
  have he : (c.preface past).enter source = (c.enter source).preface past := by
    unfold Context.enter
    rw [Context.preface_note]
    rfl
  rw [Run.within_apply, Run.within_apply, he, hb past (c.enter source)]
  cases body (c.enter source) <;> rfl

theorem times {body : Run Unit} (hb : Memoryless body) (n : Nat) :
    Memoryless (Run.times body n) := by
  induction n with
  | zero => exact pure ()
  | succ n ih => exact bind hb fun _ ↦ ih

end Memoryless

end Run

theorem Callable.call_memoryless (f : Callable) (v : Value) : Run.Memoryless (f.call v) :=
  .bind (.ofExcept _) fun _ ↦ .bind (.note _) fun _ ↦ .passOn _

theorem Procedure.compare_memoryless (args : Bindings) (holds : Operands → Bool) :
    Run.Memoryless (compare args holds) := by
  unfold compare
  simp only
  split
  · exact .pure _
  · exact .bind (.ofExcept _) fun _ ↦ .bind (.ofExcept _) fun _ ↦ .complain _

theorem Procedure.call_memoryless (name : Text) (args : Bindings) (p : Procedure) :
    Run.Memoryless (p.call name args) := by
  cases p with
  | display =>
    simp only [call]
    split
    · exact .bind (Callable.call_memoryless _ _) fun _ ↦ .pure _
    · exact .bind (.ofExcept _) fun _ ↦ .bind (.complain _) fun _ ↦ .pure _
  | debugDisplay =>
    refine .get_bind (fun c ↦ ?_) fun _ _ ↦ rfl
    exact .bind (Callable.call_memoryless _ _) fun _ ↦ .pure _
  | less => exact compare_memoryless args _
  | greater => exact compare_memoryless args _
  | custom echo result failure =>
    exact .bind (.note _) fun _ ↦ .bind (.passOn failure) fun _ ↦ .pure _

theorem Value.repetitions_memoryless (v : Value) : Run.Memoryless v.repetitions := by
  unfold repetitions
  split
  · exact .complain _
  · split
    · exact .pure _
    · exact .throw _
  · split
    · exact .complain _
    · exact .pure _

namespace Statement

theorem lookUp_memoryless (source : List Token) : Run.Memoryless (lookUp source) := by
  refine .get_bind (fun c ↦ ?_) fun _ _ ↦ rfl
  split
  · exact .pure _
  · split
    · exact .ofExcept _
    · exact .throw _

theorem finishCall_memoryless (source : List Token) (f : Builtin) (complete : Bool)
    (arguments : List (Text × Value)) :
    Run.Memoryless (finishCall source f complete arguments) := by
  unfold finishCall
  cases complete with
  | false => exact .throw _
  | true => exact .bind (.note _) fun _ ↦ Procedure.call_memoryless _ _ _

theorem repeatBody_memoryless (target : List Token) (count : Value) {body : Run Value}
    (hb : Run.Memoryless body) : Run.Memoryless (repeatBody target count body) := by
  refine .bind count.repetitions_memoryless fun n ↦ ?_
  refine .bind (.note _) fun _ ↦ ?_
  exact .bind (.times (.bind hb fun _ ↦ .pure ()) n) fun _ ↦ .pure _

theorem bindName_memoryless (source name : List Token) {value : Run Value}
    (hv : Run.Memoryless value) : Run.Memoryless (bindName source name value) := by
  unfold bindName
  split
  · exact .throw _
  · exact .bind hv fun v ↦ .bind (fun _ _ ↦ rfl) fun _ ↦ .pure _

theorem finishLines_memoryless (ending : Option Fault) (v : Value) :
    Run.Memoryless (finishLines ending v) := by
  cases ending with
  | none => exact .pure v
  | some e => exact .throw e

mutual

theorem memoryless_run : ∀ s : Statement, Run.Memoryless s.run
  | .missing source => by
    rw [run]
    exact .get_bind (fun _ ↦ .throw _) fun _ _ ↦ rfl
  | .skip => by
    rw [run]
    exact .pure _
  | .refused source fault => by
    rw [run]
    exact .within source (.throw fault)
  | .conditional source condition consequent alternative => by
    rw [run]
    refine .within source (.bind (memoryless_run condition) fun v ↦ ?_)
    split
    · exact memoryless_run consequent
    · exact memoryless_run alternative
  | .repetition source target count body => by
    rw [run]
    refine .within source (.bind (memoryless_run count) fun v ↦ ?_)
    exact repeatBody_memoryless target v (memoryless_run body)
  | .binding source name value => by
    rw [run]
    exact .within source (bindName_memoryless source name (memoryless_run value))
  | .block source lines ending => by
    rw [run]
    refine .within source (.bind (memoryless_runLines lines .empty) fun v ↦ ?_)
    exact finishLines_memoryless ending v
  | .call source f arguments complete => by
    rw [run]
    refine .within source (.bind (memoryless_runArguments arguments) fun args ↦ ?_)
    exact finishCall_memoryless source f complete args
  | .phrase source => by
    rw [run]
    exact .within source (lookUp_memoryless source)

theorem memoryless_runLines : ∀ (ss : List Statement) (v : Value), Run.Memoryless (runLines v ss)
  | [], v => by
    rw [runLines]
    exact .pure v
  | s :: ss, v => by
    rw [runLines]
    exact .bind (memoryless_run s) fun w ↦ memoryless_runLines ss w

theorem memoryless_runArguments :
    ∀ arguments : List (Text × Statement), Run.Memoryless (runArguments arguments)
  | [] => by
    rw [runArguments]
    exact .pure []
  | (particle, s) :: rest => by
    rw [runArguments]
    refine .bind (memoryless_run s) fun v ↦ ?_
    exact .bind (memoryless_runArguments rest) fun vs ↦ .pure _

end

end Statement

theorem Run.memoryless_ofLines (table : List Builtin) (ts : List Token) (last : Value) :
    Memoryless (Run.ofLines table ts last) :=
  .bind (Statement.memoryless_runLines _ last) fun v ↦ Statement.finishLines_memoryless _ v

/-- What has happened in `d` on the way to it from `c`, traces left out. -/
def Context.events (d c : Context) : List Effect := (d.since c).filter fun e ↦ e.trace?.isNone

/-- Nothing but traces has been noted in `d` on the way to it from `c`. -/
def Context.Quiet (c d : Context) : Prop :=
  ∃ steps : List Trace, d.journal.toList = c.journal.toList ++ steps.map .traced

namespace Context.Quiet

variable {c d : Context}

theorem trans {e : Context} (h : c.Quiet d) (h' : d.Quiet e) : c.Quiet e := by
  obtain ⟨steps, hs⟩ := h
  obtain ⟨more, hm⟩ := h'
  refine ⟨steps ++ more, ?_⟩
  rw [hm, hs, List.map_append, List.append_assoc]

theorem traced (c : Context) (step : Trace) : c.Quiet (c.note (.traced step)) :=
  ⟨[step], Array.toList_push⟩

theorem events_eq (h : c.Quiet d) : d.events c = [] := by
  obtain ⟨steps, hs⟩ := h
  rw [events, since_of_append hs, List.filter_eq_nil_iff]
  intro e he
  obtain ⟨step, -, rfl⟩ := List.mem_map.1 he
  exact Bool.false_ne_true

theorem events_note (h : c.Quiet d) {e : Effect} (he : e.trace?.isNone = true) :
    (d.note e).events c = [e] := by
  have hq := h.events_eq
  obtain ⟨steps, hs⟩ := h
  have hn : (d.note e).journal.toList = c.journal.toList ++ (steps.map .traced ++ [e]) := by
    rw [note, Array.toList_push, hs, List.append_assoc]
  rw [events, since_of_append hs] at hq
  rw [events, since_of_append hn, List.filter_append, hq]
  simp [he]

end Context.Quiet

namespace Run

variable {α : Type}

/-- The second result differs from the first one in nothing but traces and the statement around,
both being reached from `c`. -/
structure Agrees (c : Context) (r r' : EStateM.Result Fault Context α) : Prop where
  value : value? r' = value? r
  fault : fault? r' = fault? r
  scope : (context r').scope = (context r).scope
  events : (context r').events c = (context r).events c

theorem Agrees.exit {c d : Context} {r r' : EStateM.Result Fault Context α} (h : Agrees c r r') :
    Agrees c r (d.exit r') := by
  cases r' with
  | ok a e => exact ⟨h.value, h.fault, h.scope, h.events⟩
  | error e e' => exact ⟨h.value, h.fault, h.scope, h.events⟩

/-- A trace that is noted before a run changes nothing else. -/
theorem Memoryless.agrees_note {x : Run α} (hx : Memoryless x) (c : Context) (step : Trace) :
    Agrees c (x c) (x (c.note (.traced step))) := by
  have hc : x c = preface c.journal (x c.unrecorded) := by
    rw [← hx, c.preface_unrecorded]
  have hn : x (c.note (.traced step)) =
      preface (c.journal.push (.traced step)) (x c.unrecorded) := by
    have he : c.unrecorded.preface (c.journal.push (.traced step)) = c.note (.traced step) :=
      congrArg (fun j ↦ { c with journal := j }) Array.append_empty
    rw [← hx, he]
  rw [hc, hn]
  have hs (d : Context) (past : Array Effect) (more : List Effect)
      (hp : past.toList = c.journal.toList ++ more) :
      (d.preface past).since c = more ++ d.journal.toList := by
    refine Context.since_of_append ?_
    show (past ++ d.journal).toList = _
    rw [Array.toList_append, hp, List.append_assoc]
  have ht (d : Context) : (d.preface (c.journal.push (.traced step))).events c =
      (d.preface c.journal).events c := by
    unfold Context.events
    rw [hs d (c.journal.push _) [.traced step] Array.toList_push,
      hs d c.journal [] (List.append_nil _).symm]
    rfl
  cases x c.unrecorded with
  | ok a d => exact ⟨rfl, rfl, rfl, ht d⟩
  | error e d => exact ⟨rfl, rfl, rfl, ht d⟩

end Run

end Kotoba
