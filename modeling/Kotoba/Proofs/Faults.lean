import Kotoba.Proofs.Termination

/-!
What can go wrong in the standard context. Its functions and sinks fail only with complaints, so
besides these a run fails only on a whole number of too many digits or on a count that has no
double, and then such a number was evaluated.
-/

namespace Kotoba

def Fault.IsComplaint (e : Fault) : Prop := ∃ cause first last, e = .complaint cause first last

theorem Fault.isComplaint_onTokens (cause : Complaint) (ts : List Token) :
    (Fault.onTokens cause ts).IsComplaint := ⟨cause, _, _, rfl⟩

theorem Complaint.category_cases (cause : Complaint) :
    cause.category = .grammar ∨ cause.category = .argument := by
  cases cause <;> simp [category]

theorem Frame.isComplaint_of_fault? {fs : List Frame} {e : Fault} (h : fault? fs = some e) :
    e.IsComplaint := by
  obtain ⟨f, -, hf⟩ := List.exists_of_findSome?_eq_some h
  obtain ⟨k, -, rfl⟩ := Option.map_eq_some_iff.1 hf
  exact ⟨_, _, _, rfl⟩

/-- A search fails only where the tokens end, on the enclosures that are open there. -/
theorem fault?_of_readUntil {words : List Text} {fs : List Frame} {ts : List Token} {e : Fault}
    (h : readUntil words fs ts = .error e) : Frame.fault? (ts.foldl Frame.step fs) = some e := by
  induction ts generalizing fs with
  | nil =>
    unfold readUntil at h
    split at h
    · next hf =>
      cases h
      exact hf
    · cases h
  | cons t ts ih =>
    unfold readUntil at h
    split at h
    · cases h
    · exact ih (eq_error_of_map h)

theorem fault?_of_readLine {fs : List Frame} {ts : List Token} {e : Fault}
    (h : readLine fs ts = .error e) : Frame.fault? (ts.foldl Frame.step fs) = some e := by
  induction ts generalizing fs with
  | nil =>
    unfold readLine at h
    split at h
    · next hf =>
      cases h
      exact hf
    · cases h
  | cons t ts ih =>
    unfold readLine at h
    simp only at h
    split at h
    · cases h
    · exact ih (eq_error_of_map h)

theorem isComplaint_of_readUntil {words : List Text} {fs : List Frame} {ts : List Token} {e : Fault}
    (h : readUntil words fs ts = .error e) : e.IsComplaint :=
  Frame.isComplaint_of_fault? (fault?_of_readUntil h)

theorem isComplaint_of_readLine {fs : List Frame} {ts : List Token} {e : Fault}
    (h : readLine fs ts = .error e) : e.IsComplaint :=
  Frame.isComplaint_of_fault? (fault?_of_readLine h)

/-- No two captures of the pattern stand next to each other. -/
def Pattern.separated : Pattern → Bool
  | .capture :: .capture :: _ => false
  | _ :: p => separated p
  | [] => true

theorem Pattern.separated_tail {s : Step} {p : Pattern} (h : separated (s :: p) = true) :
    separated p = true := by
  cases s with
  | word words => exact h
  | capture =>
    match p with
    | [] => rfl
    | .word words :: p => exact h

theorem Pattern.isComplaint_of_run {p : Pattern} {ts : List Token} {e : Fault}
    (hp : p.separated = true) (h : p.run ts = .error e) : e.IsComplaint := by
  fun_induction Pattern.run p ts with
  | case1 => cases h
  | case2 => cases h
  | case3 => cases hp
  | case4 words steps ts e' hr =>
    cases h
    exact isComplaint_of_readUntil hr
  | case5 => cases h
  | case6 words steps ts taken rest hr ih =>
    exact ih (separated_tail (separated_tail hp)) (eq_error_of_map h)
  | case7 => cases h
  | case8 words steps t ts hw ih => exact ih (separated_tail hp) h
  | case9 => cases h

theorem Form.isComplaint_of_first? {fs : List Form} (hf : ∀ f ∈ fs, f.pattern.separated = true)
    {ts : List Token} {e : Fault} (h : first? fs ts = .error e) : e.IsComplaint := by
  induction fs with
  | nil => cases h
  | cons f fs ih =>
    unfold first? at h
    split at h
    · next he =>
      cases h
      exact Pattern.isComplaint_of_run (hf f List.mem_cons_self) he
    · exact ih (fun g hg ↦ hf g (List.mem_cons_of_mem f hg)) h
    · cases h

theorem Clause.separated_of_mem_forms {source rest : List Token} :
    ∀ f ∈ (forms source rest).1, f.pattern.separated = true := by
  unfold forms
  split
  · decide
  · split <;> decide

theorem Clause.isComplaint_of_read {source rest : List Token} {e : Fault}
    (h : read source rest = .error e) : e.IsComplaint := by
  unfold read at h
  split at h
  · next he =>
    cases h
    exact Form.isComplaint_of_first? separated_of_mem_forms he
  · cases h
  · split at h
    · cases h
      exact Fault.isComplaint_onTokens _ _
    · cases h

theorem Text.isSome_piecesOf {particles : List Text} (h : [] ∉ particles) (ss : List Segment) :
    (piecesOf particles ss).isSome = true := by
  induction ss with
  | nil => rfl
  | cons s ss ih =>
    cases s with
    | quoted t => rw [piecesOf, Option.isSome_map, ih]
    | plain t =>
      obtain ⟨qs, hq⟩ := Option.isSome_iff_exists.1 ih
      rw [piecesOf, splitWords?, if_neg (by simp [h]), hq]
      rfl

theorem Builtin.isSome_marking? {f : Builtin} (h : f ∈ standard) (sentence : Text) :
    (f.marking? sentence).isSome = true := by
  have hp : ∀ g ∈ standard, [] ∉ g.particles := by decide
  rw [marking?, Option.isSome_map]
  exact Text.isSome_piecesOf (hp f h) _

theorem Builtin.mem_of_foldl_furthest {table : List Builtin} {masked : Text}
    {best : Option (Builtin × Nat)} {f : Builtin} {i : Nat}
    (h : table.foldl (furthest masked) best = some (f, i)) : f ∈ table ∨ best = some (f, i) := by
  induction table generalizing best with
  | nil => exact .inr h
  | cons g table ih =>
    rcases ih h with hm | hb
    · exact .inl (List.mem_cons_of_mem g hm)
    · unfold furthest at hb
      split at hb
      · exact .inr hb
      · cases hb
        exact .inl List.mem_cons_self
      · split at hb
        · cases hb
          exact .inl List.mem_cons_self
        · exact .inr hb

theorem Builtin.mem_of_find? {table : List Builtin} {sentence : Text} {f : Builtin}
    (h : find? table sentence = some f) : f ∈ table := by
  obtain ⟨⟨g, i⟩, hg, rfl⟩ := Option.map_eq_some_iff.1 h
  rcases mem_of_foldl_furthest hg with hm | hn
  · exact hm
  · cases hn

/-- A value that scripts make themselves, or one of the sinks that they are given. -/
def Value.Plain : Value → Prop
  | .array _ | .foreign _ => False
  | .callable f => f = .console ∨ f = .alert
  | .integer n => n.natAbs < Nat.pow 10 Numeral.maxDigits
  | _ => True

namespace Value.Plain

variable {v : Value}

theorem printable (h : v.Plain) : v.Printable := by
  intro n hv
  cases v with
  | integer m =>
    cases hv
    exact h
  | array s => exact h.elim
  | _ => cases hv

theorem exists_kind (h : v.Plain) : ∃ k, v.kind? = .ok k := by
  cases v with
  | array s => exact h.elim
  | foreign f => exact h.elim
  | _ => exact ⟨_, rfl⟩

theorem exists_print (h : v.Plain) (f : Callable) : ∃ t, f.print v = .ok t := by
  obtain ⟨t, ht⟩ := h.printable.exists_format
  obtain ⟨k, hk⟩ := h.exists_kind
  cases f with
  | console | alert =>
    rw [Callable.print, ht]
    exact ⟨_, rfl⟩
  | diagnostic =>
    rw [Callable.print, Value.describe_eq hk, ht]
    exact ⟨_, rfl⟩
  | _ => exact ⟨_, rfl⟩

end Value.Plain

namespace Bindings

def Plain (b : Bindings) : Prop := ∀ p ∈ b, p.2.Plain

theorem Plain.get? {b : Bindings} (hb : b.Plain) {name : Text} {v : Value}
    (h : b.get? name = some v) : v.Plain := by
  induction b with
  | nil => cases h
  | cons p b ih =>
    unfold Bindings.get? at h
    split at h
    · cases h
      exact hb p List.mem_cons_self
    · exact ih (fun q hq ↦ hb q (List.mem_cons_of_mem p hq)) h

theorem Plain.set {b : Bindings} (hb : b.Plain) (name : Text) {v : Value} (hv : v.Plain) :
    (b.set name v).Plain := by
  induction b with
  | nil =>
    intro p hp
    rw [List.mem_singleton.1 hp]
    exact hv
  | cons q b ih =>
    have hb' : Plain b := fun p hp ↦ hb p (List.mem_cons_of_mem q hp)
    intro p hp
    unfold Bindings.set at hp
    split at hp
    · rcases List.mem_cons.1 hp with rfl | hp
      · exact hv
      · exact hb' p hp
    · rcases List.mem_cons.1 hp with rfl | hp
      · exact hb p List.mem_cons_self
      · exact ih hb' p hp

theorem Plain.ofPairs {pairs : List (Text × Value)} (h : Plain pairs) : (ofPairs pairs).Plain := by
  have hf (b : Bindings) (hb : b.Plain) :
      (pairs.foldl (fun b p ↦ b.set p.1 p.2) b).Plain := by
    induction pairs generalizing b with
    | nil => exact hb
    | cons p pairs ih =>
      exact ih (fun q hq ↦ h q (List.mem_cons_of_mem p hq)) _
        (hb.set p.1 (h p List.mem_cons_self))
  exact hf [] (by simp [Plain])

theorem mem_insertSorted {p q : Text × Value} {b : Bindings} (h : q ∈ insertSorted p b) :
    q = p ∨ q ∈ b := by
  induction b with
  | nil => exact .inl (List.mem_singleton.1 h)
  | cons r b ih =>
    unfold insertSorted at h
    split at h
    · rcases List.mem_cons.1 h with rfl | h
      · exact .inr List.mem_cons_self
      · exact (ih h).imp id (List.mem_cons_of_mem r)
    · exact List.mem_cons.1 h

theorem Plain.sorted {b : Bindings} (h : b.Plain) : b.sorted.Plain := by
  induction b with
  | nil => exact h
  | cons p b ih =>
    intro q hq
    rcases mem_insertSorted hq with rfl | hq
    · exact h q List.mem_cons_self
    · exact ih (fun r hr ↦ h r (List.mem_cons_of_mem p hr)) q hq

end Bindings

/-- The names are bound to plain values, inspection goes to its own sink, and what was shown on the
console can be printed. -/
structure Context.Standard (c : Context) : Prop where
  scope : Bindings.Plain c.scope
  diagnostic : c.diagnostic = .diagnostic
  shown : ∀ v, .called .console v ∈ c.journal → v.Printable

namespace Context.Standard

variable {c d : Context}

theorem note (h : c.Standard) {e : Effect} (he : ∀ v, e = .called .console v → v.Printable) :
    (c.note e).Standard := by
  refine ⟨h.scope, h.diagnostic, fun v hv ↦ ?_⟩
  rcases Array.mem_push.1 hv with hv | hv
  · exact h.shown v hv
  · exact he v hv.symm

theorem traced (h : c.Standard) (step : Trace) : (c.note (.traced step)).Standard :=
  h.note (by rintro v ⟨⟩)

theorem enter (h : c.Standard) (source : List Token) : (c.enter source).Standard :=
  have ht := h.traced (.statement source)
  ⟨ht.scope, ht.diagnostic, ht.shown⟩

theorem leave (h : d.Standard) : (d.leave c).Standard := ⟨h.scope, h.diagnostic, h.shown⟩

end Context.Standard

theorem Context.standard_standard : Context.standard.Standard := by
  refine ⟨fun p hp ↦ ?_, rfl, by simp [standard, ofSinks]⟩
  simp only [standard, ofSinks, List.mem_cons, List.not_mem_nil, or_false] at hp
  rcases hp with rfl | rfl <;> simp [Value.Plain]

namespace Run

/-- Either a value as described or a fault as described, in a standard context. -/
def Outcome {α : Type} (P : α → Prop) (E : Fault → Prop) :
    EStateM.Result Fault Context α → Prop
  | .ok a d => P a ∧ d.Standard
  | .error e d => E e ∧ d.Standard

theorem Outcome.imp {α : Type} {P : α → Prop} {E E' : Fault → Prop}
    {r : EStateM.Result Fault Context α} (h : Outcome P E r) (he : ∀ e, E e → E' e) :
    Outcome P E' r := by
  cases r with
  | ok a d => exact h
  | error e d => exact h.imp_left (he e)

/-- Run in a standard context, the outcome is as described. -/
def Meets {α : Type} (x : Run α) (P : α → Prop) (E : Fault → Prop) : Prop :=
  ∀ c : Context, c.Standard → Outcome P E (x c)

namespace Meets

variable {α β : Type} {P : α → Prop} {Q : β → Prop} {E : Fault → Prop}

theorem pure {a : α} (h : P a) : Meets (Pure.pure a) P E := fun _ hc ↦ ⟨h, hc⟩

theorem throw {e : Fault} (h : E e) : Meets (MonadExcept.throw e) P E := fun _ hc ↦ ⟨h, hc⟩

theorem bind {x : Run α} {f : α → Run β} (hx : Meets x P E) (hf : ∀ a, P a → Meets (f a) Q E) :
    Meets (x >>= f) Q E := by
  intro c hc
  have h := hx c hc
  rw [Run.bind_apply]
  cases hr : x c with
  | ok a d =>
    rw [hr] at h
    exact hf a h.1 d h.2
  | error e d =>
    rw [hr] at h
    exact h

theorem get_bind {f : Context → Run α} (hf : ∀ c : Context, c.Standard → Meets (f c) P E) :
    Meets (get >>= f) P E := fun c hc ↦ hf c hc c hc

theorem note {e : Effect} (he : ∀ v, e = .called .console v → v.Printable) {P : Unit → Prop}
    (h : P ()) : Meets (Run.note e) P E := fun _ hc ↦ ⟨h, hc.note he⟩

theorem ofExcept {r : Except Fault α} (h : ∃ a, r = .ok a) :
    Meets (Run.ofExcept r) (fun _ ↦ True) E := by
  obtain ⟨a, rfl⟩ := h
  exact pure trivial

theorem complain {cause : Complaint} (hE : ∀ e : Fault, e.IsComplaint → E e) :
    Meets (Run.complain cause) P E :=
  get_bind fun _ _ ↦ throw (hE _ (Fault.isComplaint_onTokens _ _))

end Meets

end Run

theorem Callable.call_meets {f : Callable} (hf : f = .console ∨ f = .alert ∨ f = .diagnostic)
    {v : Value} (hv : v.Plain) : Run.Meets (f.call v) (fun _ ↦ True) Fault.IsComplaint := by
  have hn : f.failure? = none := by rcases hf with rfl | rfl | rfl <;> rfl
  have hp : ∀ w, .called f v = Effect.called .console w → w.Printable := by
    rintro w ⟨⟩
    exact hv.printable
  unfold call
  rw [hn]
  refine .bind (.ofExcept (hv.exists_print f)) fun _ _ ↦ ?_
  exact .bind (.note hp (P := fun _ ↦ True) trivial) fun _ _ ↦ .pure trivial

namespace Procedure

theorem plain_argument {args : Bindings} (h : args.Plain) (particle : Text) :
    (argument args particle).Plain := by
  unfold argument
  cases hv : args.get? particle with
  | none => trivial
  | some v => exact h.get? hv

theorem compare_meets {args : Bindings} (ha : args.Plain) (holds : Operands → Bool) :
    Run.Meets (compare args holds) Value.Plain Fault.IsComplaint := by
  have hf (particle : Text) := (plain_argument ha particle).printable.exists_format
  unfold compare
  simp only
  split
  · exact .pure trivial
  · exact .bind (.ofExcept (hf _)) fun _ _ ↦ .bind (.ofExcept (hf _)) fun _ _ ↦
      .complain fun _ h ↦ h

theorem call_meets (name : Text) {args : Bindings} (ha : args.Plain) {p : Procedure}
    (hp : ∀ echo result failure, p ≠ .custom echo result failure) :
    Run.Meets (p.call name args) Value.Plain Fault.IsComplaint := by
  cases p with
  | display =>
    have hn := plain_argument ha ['に']
    simp only [call]
    split
    · next f hf =>
      rw [hf] at hn
      have hc : f = .console ∨ f = .alert := hn
      exact .bind (Callable.call_meets (hc.imp_right .inl) (plain_argument ha _)) fun _ _ ↦
        .pure trivial
    · refine .bind (.ofExcept hn.printable.exists_format) fun _ _ ↦ ?_
      exact .bind (.complain (P := fun _ ↦ True) fun _ h ↦ h) fun _ _ ↦ .pure trivial
  | debugDisplay =>
    refine .get_bind fun c hc ↦ ?_
    exact .bind (Callable.call_meets (.inr (.inr hc.diagnostic)) (plain_argument ha _)) fun _ _ ↦
      .pure trivial
  | less => exact compare_meets ha _
  | greater => exact compare_meets ha _
  | custom echo result failure => exact absurd rfl (hp echo result failure)

end Procedure

theorem Statement.finishCall_meets (source : List Token) {f : Builtin} (hf : f ∈ Builtin.standard)
    (complete : Bool) {arguments : List (Text × Value)} (ha : Bindings.Plain arguments) :
    Run.Meets (finishCall source f complete arguments) Value.Plain Fault.IsComplaint := by
  have hp : ∀ echo result failure, f.procedure ≠ .custom echo result failure := by
    simp only [Builtin.standard, List.mem_cons, List.not_mem_nil, or_false] at hf
    rcases hf with rfl | rfl | rfl | rfl <;> simp
  unfold finishCall
  cases complete with
  | false => exact .throw (Fault.isComplaint_onTokens _ _)
  | true =>
    exact .bind (.note (by rintro v ⟨⟩) (P := fun _ ↦ True) trivial) fun _ _ ↦
      Procedure.call_meets f.name ha.ofPairs.sorted hp

theorem Statement.failMissing_meets (source : List Token) :
    Run.Meets (failMissing source) Value.Plain Fault.IsComplaint :=
  .get_bind fun _ _ ↦ .throw (Fault.isComplaint_onTokens _ _)

/-- The number has no double. -/
def Value.TooLarge (v : Value) : Prop := ∃ m, v = .integer m ∧ Value.countLimit ≤ m.natAbs

theorem Value.repetitions_meets {v : Value} (hv : v.Plain) :
    Run.Meets v.repetitions (fun _ ↦ True)
      fun e ↦ e.IsComplaint ∨ e = .countTooLarge ∧ v.TooLarge := by
  unfold repetitions
  split
  · exact .complain fun _ ↦ .inl
  · next m hm =>
    have hi : v = .integer m := by
      cases v <;> simp_all [number?, Value.Plain]
    split
    · exact .pure trivial
    · next hl => exact .throw (.inr ⟨rfl, m, hi, Nat.not_lt.1 hl⟩)
  · split
    · exact .complain fun _ ↦ .inl
    · exact .pure trivial

/-- The tokens are a whole number of `n` digits, more than can be read. -/
def Token.Overlong (source : List Token) (n : Nat) : Prop :=
  ∃ m, Numeral.ofText? (Token.render source) = some m ∧ m.fraction = none ∧ m.whole.length = n ∧
    4300 < n

theorem Numeral.all_isDigit_of_ofText? {t : Text} {m : Numeral} (h : ofText? t = some m) :
    m.whole.all Text.isDigit = true := by
  unfold ofText? at h
  simp only at h
  split at h
  · split at h
    · next hd =>
      cases h
      exact (Bool.and_eq_true_iff.1 hd).2
    · cases h
  · split at h
    · next hd =>
      cases h
      exact (Bool.and_eq_true_iff.1 (Bool.and_eq_true_iff.1 hd).1).2
    · cases h

theorem Numeral.plain_of_value {m : Numeral} (hd : m.whole.all Text.isDigit = true) {v : Value}
    (h : m.value = .ok v) : v.Plain := by
  unfold value at h
  split at h
  · cases h
    trivial
  · split at h
    · cases h
    · next hl =>
      cases h
      have hn : Text.natValue m.whole < Nat.pow 10 maxDigits :=
        Text.natValue_lt hd (Nat.not_lt.1 hl)
      show Int.natAbs (if m.negative then _ else _) < Nat.pow 10 maxDigits
      split
      · rwa [Int.natAbs_neg]
      · exact hn

theorem Numeral.of_value_error {m : Numeral} {e : Fault} (h : m.value = .error e) :
    m.fraction = none ∧ 4300 < m.whole.length ∧ e = .tooManyDigits m.whole.length := by
  unfold value at h
  split at h
  · cases h
  · next hf =>
    split at h
    · next hl =>
      cases h
      exact ⟨hf, hl, rfl⟩
    · cases h

/-- The only literals without a value are whole numbers of too many digits. -/
theorem Literal.eq_tooManyDigits_of_value? {t : Text} {e : Fault}
    (h : Literal.value? t = some (.error e)) : ∃ n, e = .tooManyDigits n := by
  unfold Literal.value? at h
  split at h
  · cases h
  · split at h
    · obtain ⟨-, -, he⟩ := Numeral.of_value_error (Option.some.inj h)
      exact ⟨_, he⟩
    · simp at h

theorem Literal.plain_of_word? {t : Text} {v : Value} (h : word? t = some v) : v.Plain := by
  unfold word? at h
  split at h
  · cases h
    trivial
  · split at h
    · cases h
      trivial
    · split at h
      · cases h
        trivial
      · cases h

theorem Statement.lookUp_meets (source : List Token) :
    Run.Meets (lookUp source) Value.Plain
      fun e ↦ e.IsComplaint ∨ ∃ n, e = .tooManyDigits n ∧ Token.Overlong source n := by
  refine .get_bind fun c hc ↦ ?_
  split
  · next hv => exact .pure (hc.scope.get? hv)
  · split
    · next r hr =>
      unfold Literal.value? at hr
      split at hr
      · cases hr
        exact .pure trivial
      · split at hr
        · next m hm =>
          cases hr
          match hv : m.value with
          | .ok v => exact .pure (Numeral.plain_of_value (Numeral.all_isDigit_of_ofText? hm) hv)
          | .error e =>
            obtain ⟨hf, hl, rfl⟩ := Numeral.of_value_error hv
            exact .throw (.inr ⟨_, rfl, m, hm, hf, rfl, hl⟩)
        · obtain ⟨v, hv, rfl⟩ := Option.map_eq_some_iff.1 hr
          exact .pure (Literal.plain_of_word? hv)
    · exact .throw (.inl (Fault.isComplaint_onTokens _ _))

/-- The values that the task holds are plain, and it calls standard functions only. -/
def Task.Plain : Task → Prop
  | .value v | .loop _ v | .assign _ v | .lines _ v => v.Plain
  | .arguments _ f _ _ done => f ∈ Builtin.standard ∧ Bindings.Plain done
  | .evaluate _ | .clause _ _ | .passes _ _ => True

/-- The statement is a loop, and its count was evaluated to a number that has no double. -/
def Overcounts (calls : List Call) (source rest : List Token) : Prop :=
  ∃ target count after, Clause.read source rest = .ok (.repetition target count, after) ∧
    ∃ k ∈ calls, k.code = .ofTokens count ∧ ∃ v d, k.result = .ok v d ∧ v.TooLarge

/-- The task is itself the reason for the fault, its calls being given. -/
def Task.Explains (calls : List Call) : Task → Fault → Prop
  | .clause source _, .tooManyDigits n => Token.Overlong source n
  | .clause source rest, .countTooLarge => Overcounts calls source rest
  | .loop _ v, .countTooLarge => v.TooLarge
  | _, _ => False

/-- A complaint, or else one of the calls is the reason for the fault. -/
def Explained (calls : List Call) : Fault → Prop
  | .complaint _ _ _ => True
  | .tooManyDigits n =>
    ∃ k ∈ calls, Token.Overlong k.code.trim.tokens n ∧ ∃ d, k.result = .error (.tooManyDigits n) d
  | .countTooLarge =>
    ∃ k ∈ calls, Overcounts calls k.code.trim.tokens k.code.trim.rest ∧
      ∃ d, k.result = .error .countTooLarge d
  | _ => False

theorem Overcounts.mono {calls calls' : List Call} {source rest : List Token}
    (h : Overcounts calls source rest) (hs : calls ⊆ calls') : Overcounts calls' source rest := by
  obtain ⟨target, count, after, hr, k, hk, hc⟩ := h
  exact ⟨target, count, after, hr, k, hs hk, hc⟩

theorem Explained.mono {calls calls' : List Call} {e : Fault} (h : Explained calls e)
    (hs : calls ⊆ calls') : Explained calls' e := by
  cases e with
  | complaint => trivial
  | tooManyDigits n =>
    obtain ⟨k, hk, hn⟩ := h
    exact ⟨k, hs hk, hn⟩
  | countTooLarge =>
    obtain ⟨k, hk, ho, hd⟩ := h
    exact ⟨k, hs hk, ho.mono hs, hd⟩
  | _ => exact h.elim

theorem Fault.IsComplaint.explained {e : Fault} (h : e.IsComplaint) (calls : List Call) :
    Explained calls e := by
  obtain ⟨cause, first, last, rfl⟩ := h
  trivial

/-- The move of `t` leaves no fault unexplained: what explains it afterwards is `t` itself, or the
call that was made. -/
def Move.Sound (t : Task) : Move → Prop
  | .halt r => Run.Outcome Value.Plain (fun e ↦ e.IsComplaint ∨ t.Explains [] e) r
  | .proceed t' c => t'.Plain ∧ c.Standard ∧ ∀ calls e, ¬ t'.Explains calls e
  | .call code resume => ∀ v, v.Plain → (resume v).Plain ∧
      ∀ later e, (resume v).Explains later e →
        ∀ calls entry d, ⟨code, entry, .ok v d⟩ ∈ calls → t.Explains calls e

theorem Task.Moves.sound {t : Task} {c : Context} {m : Move} (h : t.Moves Builtin.standard c m)
    (ht : t.Plain) (hc : c.Standard) : m.Sound t := by
  cases h with
  | value => exact ⟨ht, hc⟩
  | evaluate => exact fun v hv ↦ ⟨hv, fun _ _ h ↦ h.elim⟩
  | refused hr => exact ⟨.inl (Clause.isComplaint_of_read hr), hc⟩
  | @conditional _ _ _ _ consequent alternative =>
    intro v hv
    unfold Task.branch
    cases v.holds <;> cases alternative <;> exact ⟨trivial, fun _ _ h ↦ h.elim⟩
  | @repetition source rest after target count _ hr =>
    intro v hv
    refine ⟨hv, ?_⟩
    intro later e h calls entry d hk
    cases e with
    | countTooLarge => exact ⟨target, count, after, hr, _, hk, rfl, v, d, rfl, h⟩
    | _ => exact h.elim
  | unnamed => exact ⟨.inl (Fault.isComplaint_onTokens _ _), hc⟩
  | binding => exact fun v hv ↦ ⟨hv, fun _ _ h ↦ h.elim⟩
  | block => exact ⟨trivial, hc, fun _ _ h ↦ h⟩
  | @phrase source =>
    refine (Statement.lookUp_meets source c hc).imp fun e h ↦ h.imp_right ?_
    rintro ⟨n, rfl, ho⟩
    exact ho
  | @inseparable source _ _ _ _ _ hf hm =>
    have hs := Builtin.isSome_marking? (Builtin.mem_of_find? hf) (Token.render source)
    rw [hm] at hs
    cases hs
  | nouns _ hf hm => exact ⟨⟨Builtin.mem_of_find? hf, by simp [Bindings.Plain]⟩, hc, fun _ _ h ↦ h⟩
  | @uncountable _ count _ _ _ hn =>
    have h := count.repetitions_meets ht c hc
    rw [hn] at h
    refine h.imp_left (Or.imp_right ?_)
    rintro ⟨rfl, hl⟩
    exact hl
  | @counted _ count _ _ _ hn =>
    have h := count.repetitions_meets ht c hc
    rw [hn] at h
    exact ⟨trivial, h.2.traced _, fun _ _ h ↦ h⟩
  | finished => exact ⟨trivial, hc⟩
  | pass => exact fun v hv ↦ ⟨trivial, fun _ _ h ↦ h.elim⟩
  | assign => exact ⟨trivial, hc.scope.set _ ht, hc.diagnostic, hc.shown⟩
  | ended => exact ⟨ht, hc⟩
  | unreadable hr => exact ⟨.inl (isComplaint_of_readLine hr), hc⟩
  | blankLine => exact ⟨ht, hc, fun _ _ h ↦ h⟩
  | line => exact fun v hv ↦ ⟨hv, fun _ _ h ↦ h.elim⟩
  | complete => exact (Statement.finishCall_meets _ ht.1 _ ht.2 c hc).imp fun _ ↦ .inl
  | @argument _ _ _ a nouns done =>
    intro v hv
    refine ⟨⟨ht.1, ?_⟩, fun _ _ h ↦ h.elim⟩
    intro p hp
    rcases List.mem_append.1 hp with hp | hp
    · exact ht.2 p hp
    · rw [List.mem_singleton.1 hp]
      exact hv

/-- Every fault of a task is explained, by its calls or by itself. -/
theorem Executes.outcome {t : Task} {c : Context} {r : Run.Result} {calls : List Call}
    (h : Executes Builtin.standard t c r calls) (ht : t.Plain) (hc : c.Standard) :
    Run.Outcome Value.Plain (fun e ↦ Explained calls e ∨ t.Explains calls e) r := by
  induction h with
  | halt hm => exact Run.Outcome.imp (hm.sound ht hc) fun e h ↦ h.imp_left (·.explained [])
  | proceed hm _ ih =>
    obtain ⟨ht', hc', hn⟩ := hm.sound ht hc
    exact (ih ht' hc').imp fun e h ↦ h.elim .inl fun h ↦ absurd h (hn _ e)
  | @missing _ c code =>
    exact (Statement.failMissing_meets code.trim.tokens c hc).imp fun e h ↦ .inl (h.explained _)
  | @fail t c d code _ e calls hm _ _ ih =>
    obtain ⟨h, hd⟩ : (Explained calls e ∨
        Task.Explains calls (.clause code.trim.tokens code.trim.rest) e) ∧ d.Standard :=
      ih trivial (hc.enter _)
    have hs : calls ⊆ calls ++ [⟨code, c, .error e (d.leave c)⟩] := List.subset_append_left _ _
    have hk : ⟨code, c, .error e (d.leave c)⟩ ∈ calls ++ [⟨code, c, .error e (d.leave c)⟩] := by
      simp
    refine ⟨.inl (h.elim (·.mono hs) fun h ↦ ?_), hd.leave⟩
    -- The call that fails here is the one that explains the fault from now on.
    cases e with
    | tooManyDigits n => exact ⟨_, hk, h, _, rfl⟩
    | countTooLarge => exact ⟨_, hk, Overcounts.mono h hs, _, rfl⟩
    | _ => exact h.elim
  | @resume t c d code resume v r calls later hm _ _ _ ih ih' =>
    obtain ⟨hv, hd⟩ := ih trivial (hc.enter _)
    obtain ⟨hp, he⟩ := hm.sound ht hc v hv
    have hs : later ⊆ calls ++ ⟨code, c, .ok v (d.leave c)⟩ :: later := by
      intro k hk
      simp [hk]
    have hk : ⟨code, c, .ok v (d.leave c)⟩ ∈ calls ++ ⟨code, c, .ok v (d.leave c)⟩ :: later := by
      simp
    refine (ih' hp hd.leave).imp fun e h ↦ ?_
    exact h.imp (·.mono hs) fun h ↦ he later e h _ _ _ hk

/-- In the standard context a script comes to no value that cannot be printed, and shows none. -/
theorem runScript_outcome (script : Text) :
    Run.Outcome Value.Plain (fun _ ↦ True) (runScript script Context.standard) := by
  obtain ⟨calls, hx⟩ := exists_executes_runTokens (tokenize script 1) Context.standard
  exact (hx.outcome trivial Context.standard_standard).imp fun _ _ ↦ trivial

/-- In the standard context a script fails only with a complaint, unless a whole number of too many
digits was evaluated or the count of a loop came to a whole number that has no double. -/
theorem runScript_faults (script : Text) :
    ∃ calls,
      Executes Builtin.standard (.lines (tokenize script 1) .empty) Context.standard
        (runScript script Context.standard) calls ∧
      ∀ e d, runScript script Context.standard = .error e d →
        (∃ cause first last, e = .complaint cause first last ∧
          (cause.category = .grammar ∨ cause.category = .argument)) ∨
        (∃ n, e = .tooManyDigits n ∧ ∃ k ∈ calls, (∃ d', k.result = .error e d') ∧
          ∃ m, Numeral.ofText? (Token.render k.code.trim.tokens) = some m ∧ m.fraction = none ∧
            m.whole.length = n ∧ 4300 < n) ∨
        (e = .countTooLarge ∧ ∃ k ∈ calls, (∃ d', k.result = .error e d') ∧
          ∃ target count after,
            Clause.read k.code.trim.tokens k.code.trim.rest =
              .ok (.repetition target count, after) ∧
            ∃ l ∈ calls, l.code = .ofTokens count ∧
              ∃ m d', l.result = .ok (.integer m) d' ∧ Value.countLimit ≤ m.natAbs) := by
  obtain ⟨calls, hx⟩ := exists_executes_runTokens (tokenize script 1) Context.standard
  refine ⟨calls, hx, fun e d hr ↦ ?_⟩
  have ho := hx.outcome trivial Context.standard_standard
  have hr' : runTokens (tokenize script 1) Context.standard = .error e d := hr
  rw [hr'] at ho
  have he : Explained calls e := ho.1.elim id fun h ↦ h.elim
  cases e with
  | complaint cause first last => exact .inl ⟨cause, first, last, rfl, cause.category_cases⟩
  | tooManyDigits n =>
    obtain ⟨k, hk, hn, hd⟩ := he
    exact .inr (.inl ⟨n, rfl, k, hk, hd, hn⟩)
  | countTooLarge =>
    obtain ⟨k, hk, ⟨target, count, after, hc, l, hl, hlc, v, d', hv, m, rfl, hm⟩, hd⟩ := he
    exact .inr (.inr ⟨rfl, k, hk, hd, target, count, after, hc, l, hl, hlc, m, d', hv, hm⟩)
  | _ => exact he.elim

end Kotoba
