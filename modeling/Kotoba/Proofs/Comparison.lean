import Kotoba.Proofs.Excerpt
import Kotoba.Proofs.Faults
import Kotoba.Proofs.Frame
import Mathlib.Data.List.Forall2

/-!
Two runs of one script side by side. A script can tell of an array only what it can tell of the
element, so it does the same with values that are alike; what it makes itself is alike to itself;
and it neither looks up nor binds a name that does not stand in it. Hence two runs that begin alike
go on alike: the same faults, and values, names and effects that are alike one by one.
-/

namespace Kotoba

/-- The values that a script makes itself. -/
inductive Value.Made (script : Text) : Value → Prop
  | empty : Made script .empty
  | boolean (b : Bool) : Made script (.boolean b)
  | literal {t : Text} {v : Value} :
      t <:+: script.normalize → Literal.value? t = some (.ok v) → Made script v

/-- Two contexts in which a script is run, and a relation of values through which it cannot see. -/
structure Comparison where
  script : Text
  left : Context
  right : Context
  Like : Value → Value → Prop
  unwrap_eq : ∀ {v w}, Like v w → v.unwrap = w.unwrap
  made : ∀ {v}, v.Made script → Like v v

namespace Comparison

variable {k : Comparison}

section Values

variable {v w : Value}

theorem holds_eq (h : k.Like v w) : v.holds = w.holds := by
  rw [← v.holds_unwrap, k.unwrap_eq h, w.holds_unwrap]

theorem number?_eq (h : k.Like v w) : v.number? = w.number? := by
  rw [← v.number?_unwrap, k.unwrap_eq h, w.number?_unwrap]

theorem format_eq (h : k.Like v w) : v.format = w.format := by
  rw [← v.format_unwrap, k.unwrap_eq h, w.format_unwrap]

theorem print_eq (h : k.Like v w) (f : Callable) : f.print v = f.print w := by
  rw [← f.print_unwrap v, k.unwrap_eq h, f.print_unwrap w]

theorem operands?_eq {v' w' : Value} (h : k.Like v w) (h' : k.Like v' w') :
    v.operands? v' = w.operands? w' := by
  rw [← v.operands?_unwrap_left, ← v.unwrap.operands?_unwrap_right, k.unwrap_eq h,
    k.unwrap_eq h', w.unwrap.operands?_unwrap_right, w.operands?_unwrap_left]

theorem callable_iff (h : k.Like v w) (f : Callable) : v = .callable f ↔ w = .callable f := by
  have hu := k.unwrap_eq h
  constructor
  · rintro rfl
    exact Value.unwrap_eq_callable hu.symm
  · rintro rfl
    exact Value.unwrap_eq_callable hu

end Values

variable (k)

inductive AlikeEffects : Effect → Effect → Prop
  | called {f : Callable} {v w : Value} :
      k.Like v w → AlikeEffects (.called f v) (.called f w)
  | traced {step : Trace} : AlikeEffects (.traced step) (.traced step)

/-- Contexts to which the two runs may have come. -/
structure AlikeContexts (c d : Context) : Prop where
  diagnostic : c.diagnostic = d.diagnostic
  statement : c.statement = d.statement
  mentioned : ∀ name, name <:+: k.script.normalize →
    Option.Rel k.Like (c.scope.get? name) (d.scope.get? name)
  unmentioned : ∀ name, ¬ name <:+: k.script.normalize →
    c.scope.get? name = k.left.scope.get? name ∧ d.scope.get? name = k.right.scope.get? name
  journal : ∃ later later', c.journal.toList = k.left.journal.toList ++ later ∧
    d.journal.toList = k.right.journal.toList ++ later' ∧
    List.Forall₂ k.AlikeEffects later later'

/-- A value that was refused is alike to some value. -/
def Accounts (e : Fault) : Prop :=
  ∀ typeName place, e = .unsupported typeName place →
    ∃ f w, k.Like (.foreign f) w ∧ f.typeName = typeName

inductive AlikeResults {α : Type} (P : α → α → Prop) :
    EStateM.Result Fault Context α → EStateM.Result Fault Context α → Prop
  | ok {a b : α} {c d : Context} :
      P a b → k.AlikeContexts c d → AlikeResults P (.ok a c) (.ok b d)
  | error {e : Fault} {c d : Context} :
      k.Accounts e → k.AlikeContexts c d → AlikeResults P (.error e c) (.error e d)

def AlikeRuns {α : Type} (P : α → α → Prop) (x y : Run α) : Prop :=
  ∀ c d, k.AlikeContexts c d → k.AlikeResults P (x c) (y d)

def AlikeBindings : Bindings → Bindings → Prop :=
  List.Forall₂ fun p q ↦ p.1 = q.1 ∧ k.Like p.2 q.2

variable {k}

theorem accounts_of_isComplaint {e : Fault} (h : e.IsComplaint) : k.Accounts e := by
  obtain ⟨cause, first, last, rfl⟩ := h
  exact fun _ _ he ↦ nomatch he

theorem accounts_onTokens (cause : Complaint) (ts : List Token) :
    k.Accounts (.onTokens cause ts) :=
  accounts_of_isComplaint (Fault.isComplaint_onTokens cause ts)

namespace AlikeContexts

variable {c d c' d' : Context}

theorem note (h : k.AlikeContexts c d) {e f : Effect} (he : k.AlikeEffects e f) :
    k.AlikeContexts (c.note e) (d.note f) := by
  obtain ⟨later, later', hl, hl', ha⟩ := h.journal
  refine ⟨h.diagnostic, h.statement, h.mentioned, h.unmentioned, later ++ [e], later' ++ [f],
    ?_, ?_, List.rel_append ha (.cons he .nil)⟩
  · show (c.journal.push e).toList = _
    rw [Array.toList_push, hl, List.append_assoc]
  · show (d.journal.push f).toList = _
    rw [Array.toList_push, hl', List.append_assoc]

theorem set (h : k.AlikeContexts c d) {name : Text} (hn : name <:+: k.script.normalize)
    {v w : Value} (hv : k.Like v w) :
    k.AlikeContexts { c with scope := c.scope.set name v }
      { d with scope := d.scope.set name w } := by
  refine ⟨h.diagnostic, h.statement, fun other ho ↦ ?_, fun other ho ↦ ?_, h.journal⟩
  · show Option.Rel k.Like ((c.scope.set name v).get? other) ((d.scope.set name w).get? other)
    by_cases he : other = name
    · rw [he, Bindings.get?_set_self, Bindings.get?_set_self]
      exact .some hv
    · rw [Bindings.get?_set_of_ne _ _ he, Bindings.get?_set_of_ne _ _ he]
      exact h.mentioned other ho
  · have he : other ≠ name := by
      rintro rfl
      exact ho hn
    show (c.scope.set name v).get? other = _ ∧ (d.scope.set name w).get? other = _
    rw [Bindings.get?_set_of_ne _ _ he, Bindings.get?_set_of_ne _ _ he]
    exact h.unmentioned other ho

theorem enter (h : k.AlikeContexts c d) (source : List Token) :
    k.AlikeContexts (c.enter source) (d.enter source) := by
  have hn := h.note (@AlikeEffects.traced k (.statement source))
  exact ⟨hn.diagnostic, rfl, hn.mentioned, hn.unmentioned, hn.journal⟩

theorem leave (h : k.AlikeContexts c d) (h' : k.AlikeContexts c' d') :
    k.AlikeContexts (c'.leave c) (d'.leave d) :=
  ⟨h'.diagnostic, h.statement, h'.mentioned, h'.unmentioned, h'.journal⟩

theorem since (h : k.AlikeContexts c d) :
    List.Forall₂ k.AlikeEffects (c.since k.left) (d.since k.right) := by
  obtain ⟨later, later', hl, hl', ha⟩ := h.journal
  rw [Context.since_of_append hl, Context.since_of_append hl']
  exact ha

end AlikeContexts

namespace AlikeResults

variable {α : Type} {P : α → α → Prop} {r s : EStateM.Result Fault Context α}

theorem context (h : k.AlikeResults P r s) :
    k.AlikeContexts (Run.context r) (Run.context s) := by
  cases h with
  | ok _ hc => exact hc
  | error _ hc => exact hc

theorem value? (h : k.AlikeResults P r s) : Option.Rel P (Run.value? r) (Run.value? s) := by
  cases h with
  | ok ha _ => exact .some ha
  | error => exact .none

theorem fault?_eq (h : k.AlikeResults P r s) : Run.fault? r = Run.fault? s := by
  cases h with
  | ok => rfl
  | error => rfl

theorem accounts (h : k.AlikeResults P r s) {e : Fault} (he : Run.fault? r = some e) :
    k.Accounts e := by
  cases h with
  | ok => cases he
  | error ha _ =>
    cases he
    exact ha

end AlikeResults

namespace AlikeRuns

variable {α β : Type} {P : α → α → Prop} {Q : β → β → Prop}

theorem pure {a b : α} (h : P a b) : k.AlikeRuns P (Pure.pure a) (Pure.pure b) :=
  fun _ _ hc ↦ .ok h hc

theorem throw {e : Fault} (h : k.Accounts e) :
    k.AlikeRuns P (MonadExcept.throw e) (MonadExcept.throw e) := fun _ _ hc ↦ .error h hc

theorem bind {x y : Run α} {f g : α → Run β} (hx : k.AlikeRuns P x y)
    (hf : ∀ a b, P a b → k.AlikeRuns Q (f a) (g b)) : k.AlikeRuns Q (x >>= f) (y >>= g) := by
  intro c d hc
  have h := hx c d hc
  rw [Run.bind_apply, Run.bind_apply]
  generalize x c = r at h ⊢
  generalize y d = s at h ⊢
  cases h with
  | ok ha hc' => exact hf _ _ ha _ _ hc'
  | error he hc' => exact .error he hc'

theorem get_bind {f g : Context → Run α}
    (hf : ∀ c d, k.AlikeContexts c d → k.AlikeRuns P (f c) (g d)) :
    k.AlikeRuns P (get >>= f) (get >>= g) := fun c d hc ↦ hf c d hc c d hc

theorem note {e f : Effect} (he : k.AlikeEffects e f) {P : Unit → Unit → Prop} (h : P () ()) :
    k.AlikeRuns P (Run.note e) (Run.note f) := fun _ _ hc ↦ .ok h (hc.note he)

theorem ofExcept {r : Except Fault α} (h : ∀ e, r = .error e → k.Accounts e) :
    k.AlikeRuns Eq (Run.ofExcept r) (Run.ofExcept r) := by
  cases r with
  | ok a => exact pure rfl
  | error e => exact throw (h e rfl)

theorem passOn (failure : Option Text) {P : Unit → Unit → Prop} (h : P () ()) :
    k.AlikeRuns P (Run.passOn failure) (Run.passOn failure) := by
  cases failure with
  | none => exact pure h
  | some t => exact throw fun _ _ he ↦ nomatch he

theorem complain (cause : Complaint) :
    k.AlikeRuns P (Run.complain cause) (Run.complain cause) := by
  refine get_bind fun c d hc ↦ ?_
  rw [hc.statement]
  exact throw (accounts_onTokens _ _)

end AlikeRuns

namespace AlikeBindings

variable {b b' : Bindings}

theorem get? (h : k.AlikeBindings b b') (name : Text) :
    Option.Rel k.Like (b.get? name) (b'.get? name) := by
  induction h with
  | nil => exact .none
  | @cons p q _ _ hp _ ih =>
    obtain ⟨hn, hv⟩ := hp
    simp only [Bindings.get?, ← hn]
    split
    · exact .some hv
    · exact ih

theorem names (h : k.AlikeBindings b b') : b.names = b'.names := by
  induction h with
  | nil => rfl
  | cons hp _ ih => exact congrArg₂ List.cons hp.1 ih

theorem set (h : k.AlikeBindings b b') (name : Text) {v w : Value} (hv : k.Like v w) :
    k.AlikeBindings (b.set name v) (b'.set name w) := by
  induction h with
  | nil => exact .cons ⟨rfl, hv⟩ .nil
  | @cons p q _ _ hp ht ih =>
    simp only [Bindings.set, ← hp.1]
    split
    · exact .cons ⟨rfl, hv⟩ ht
    · exact .cons hp ih

theorem ofPairs (h : k.AlikeBindings b b') :
    k.AlikeBindings (Bindings.ofPairs b) (Bindings.ofPairs b') := by
  refine List.rel_foldl (fun s s' hs p q hp ↦ ?_) .nil h
  rw [← hp.1]
  exact AlikeBindings.set hs p.1 hp.2

theorem insertSorted (h : k.AlikeBindings b b') {p q : Text × Value}
    (hp : p.1 = q.1 ∧ k.Like p.2 q.2) :
    k.AlikeBindings (Bindings.insertSorted p b) (Bindings.insertSorted q b') := by
  induction h with
  | nil => exact .cons hp .nil
  | @cons r s _ _ hr ht ih =>
    simp only [Bindings.insertSorted, ← hr.1, ← hp.1]
    split
    · exact .cons hr ih
    · exact .cons hp (.cons hr ht)

theorem sorted (h : k.AlikeBindings b b') : k.AlikeBindings b.sorted b'.sorted := by
  induction h with
  | nil => exact .nil
  | cons hp _ ih => exact AlikeBindings.insertSorted ih hp

theorem argument (h : k.AlikeBindings b b') (particle : Text) :
    k.Like (Procedure.argument b particle) (Procedure.argument b' particle) := by
  have hr := h.get? particle
  unfold Procedure.argument
  generalize b.get? particle = o at hr ⊢
  generalize b'.get? particle = o' at hr ⊢
  cases hr with
  | none => exact k.made .empty
  | some hv => exact hv

end AlikeBindings

section Calls

variable {v w : Value}

theorem accounts_of_format {e : Fault} (he : v.format = .error e) : k.Accounts e := by
  rw [Value.eq_unprintable_of_format he]
  exact fun _ _ he ↦ nomatch he

theorem accounts_of_print (h : k.Like v w) {f : Callable} {e : Fault} (he : f.print v = .error e) :
    k.Accounts e := by
  intro typeName place hu
  rcases Callable.eq_of_print_error he with rfl | ⟨g, rfl, rfl⟩
  · cases hu
  · cases hu
    exact ⟨g, w, h, rfl⟩

theorem alike_call (f : Callable) (h : k.Like v w) :
    k.AlikeRuns (fun _ _ ↦ True) (f.call v) (f.call w) := by
  unfold Callable.call
  rw [← print_eq h f]
  refine .bind (.ofExcept fun _ ↦ accounts_of_print h) fun _ _ _ ↦ ?_
  exact .bind (.note (.called h) (P := fun _ _ ↦ True) trivial) fun _ _ _ ↦ .passOn _ trivial

theorem alike_compare {b b' : Bindings} (h : k.AlikeBindings b b') (holds : Operands → Bool) :
    k.AlikeRuns k.Like (Procedure.compare b holds) (Procedure.compare b' holds) := by
  have hs := h.argument ['が']
  have hb := h.argument ['よ', 'り']
  simp only [Procedure.compare, operands?_eq hs hb, format_eq hs, format_eq hb]
  split
  · exact .pure (k.made (.boolean _))
  · refine .bind (.ofExcept fun _ ↦ accounts_of_format) fun left _ hl ↦ ?_
    refine .bind (.ofExcept fun _ ↦ accounts_of_format) fun right _ hr ↦ ?_
    rw [hl, hr]
    exact .complain _

theorem alike_procedure (name : Text) {b b' : Bindings} (h : k.AlikeBindings b b')
    {p : Procedure} (hp : ∀ echo result failure, p ≠ .custom echo result failure) :
    k.AlikeRuns k.Like (p.call name b) (p.call name b') := by
  cases p with
  | display =>
    have ht := h.argument ['に']
    simp only [Procedure.call]
    split
    · next f hf =>
      rw [(callable_iff ht f).1 hf]
      exact .bind (alike_call f (h.argument ['を'])) fun _ _ _ ↦ .pure (k.made .empty)
    · next hf =>
      split
      · next f hg => exact absurd ((callable_iff ht f).2 hg) (hf f)
      · rw [format_eq ht]
        refine .bind (.ofExcept fun _ ↦ accounts_of_format) fun target _ hs ↦ ?_
        rw [hs]
        exact .bind (.complain (P := fun _ _ ↦ True) _) fun _ _ _ ↦ .pure (k.made .empty)
  | debugDisplay =>
    refine .get_bind fun c d hc ↦ ?_
    rw [hc.diagnostic]
    exact .bind (alike_call d.diagnostic (h.argument ['を'])) fun _ _ _ ↦ .pure (k.made .empty)
  | less => exact alike_compare h _
  | greater => exact alike_compare h _
  | custom echo result failure => exact absurd rfl (hp echo result failure)

theorem alike_repetitions (h : k.Like v w) : k.AlikeRuns Eq v.repetitions w.repetitions := by
  unfold Value.repetitions
  rw [number?_eq h]
  split
  · exact .complain _
  · split
    · exact .pure rfl
    · exact .throw fun _ _ he ↦ nomatch he
  · split
    · exact .complain _
    · exact .pure rfl

theorem alike_lookUp {source : List Token} (hx : Token.Excerpt k.script source) :
    k.AlikeRuns k.Like (Statement.lookUp source) (Statement.lookUp source) := by
  refine .get_bind fun c d hc ↦ ?_
  have hr := hc.mentioned _ hx.stands
  generalize c.scope.get? (Token.render source) = o at hr ⊢
  generalize d.scope.get? (Token.render source) = o' at hr ⊢
  cases hr with
  | some hv => exact .pure hv
  | none =>
    simp only
    split
    · next r hl =>
      cases r with
      | ok v => exact .pure (k.made (.literal hx.stands hl))
      | error e =>
        obtain ⟨n, rfl⟩ := Literal.eq_tooManyDigits_of_value? hl
        exact .throw fun _ _ he ↦ nomatch he
    · exact .throw (accounts_onTokens _ _)

theorem alike_failMissing (source : List Token) :
    k.AlikeRuns k.Like (Statement.failMissing source) (Statement.failMissing source) := by
  refine .get_bind fun c d hc ↦ ?_
  rw [hc.statement]
  exact .throw (accounts_onTokens _ _)

theorem alike_finishCall (source : List Token) {f : Builtin} (hf : f ∈ Builtin.standard)
    (complete : Bool) {b b' : Bindings} (h : k.AlikeBindings b b') :
    k.AlikeRuns k.Like (Statement.finishCall source f complete b)
      (Statement.finishCall source f complete b') := by
  have hp : ∀ g ∈ Builtin.standard, ∀ echo result failure,
      g.procedure ≠ .custom echo result failure := by
    simp [Builtin.standard]
  have ha := h.ofPairs.sorted
  unfold Statement.finishCall
  cases complete with
  | false => exact .throw (accounts_onTokens _ _)
  | true =>
    simp only [ha.names]
    exact .bind (.note .traced (P := fun _ _ ↦ True) trivial) fun _ _ _ ↦
      alike_procedure f.name ha (hp f hf)

end Calls

variable (k)

inductive AlikeTasks : Task → Task → Prop
  | value {v w : Value} : k.Like v w → AlikeTasks (.value v) (.value w)
  | evaluate {code : Cursor} : AlikeTasks (.evaluate code) (.evaluate code)
  | clause {source rest : List Token} : AlikeTasks (.clause source rest) (.clause source rest)
  | loop {target : List Token} {v w : Value} :
      k.Like v w → AlikeTasks (.loop target v) (.loop target w)
  | passes {target : List Token} {n : Nat} : AlikeTasks (.passes target n) (.passes target n)
  | assign {name : List Token} {v w : Value} :
      k.Like v w → AlikeTasks (.assign name v) (.assign name w)
  | lines {ts : List Token} {v w : Value} : k.Like v w → AlikeTasks (.lines ts v) (.lines ts w)
  | arguments {source : List Token} {f : Builtin} {complete : Bool} {nouns : List (Text × Text)}
      {done done' : List (Text × Value)} :
      f ∈ Builtin.standard → k.AlikeBindings done done' →
      AlikeTasks (.arguments source f complete nouns done) (.arguments source f complete nouns done')

inductive AlikeMoves : Move → Move → Prop
  | halt {r s : Run.Result} : k.AlikeResults k.Like r s → AlikeMoves (.halt r) (.halt s)
  | proceed {t u : Task} {c d : Context} :
      k.AlikeTasks t u → k.AlikeContexts c d → AlikeMoves (.proceed t c) (.proceed u d)
  | call {code : Cursor} {resume resume' : Value → Task} :
      (∀ v w, k.Like v w → k.AlikeTasks (resume v) (resume' w)) →
      AlikeMoves (.call code resume) (.call code resume')

variable {k}

theorem alike_branch (consequent : List Token) (alternative : Option (List Token)) {v w : Value}
    (h : k.Like v w) :
    k.AlikeTasks (.branch consequent alternative v) (.branch consequent alternative w) := by
  unfold Task.branch
  rw [holds_eq h]
  cases w.holds with
  | true => exact .evaluate
  | false =>
    cases alternative with
    | none => exact .value (k.made .empty)
    | some ts => exact .evaluate

theorem alike_moves {t u : Task} {c d : Context} {m : Move} (h : t.Moves Builtin.standard c m)
    (ht : k.AlikeTasks t u) (hx : t.Excerpts k.script) (hc : k.AlikeContexts c d) :
    ∃ m', u.Moves Builtin.standard d m' ∧ k.AlikeMoves m m' := by
  cases h with
  | value =>
    cases ht with
    | value hv => exact ⟨_, .value, .halt (.ok hv hc)⟩
  | evaluate => cases ht; exact ⟨_, .evaluate, .call fun _ _ ↦ .value⟩
  | refused hr =>
    cases ht
    have he := Clause.isComplaint_of_read hr
    exact ⟨_, .refused hr, .halt (.error (accounts_of_isComplaint he) hc)⟩
  | conditional hr =>
    cases ht
    exact ⟨_, .conditional hr, .call fun _ _ ↦ alike_branch _ _⟩
  | repetition hr => cases ht; exact ⟨_, .repetition hr, .call fun _ _ ↦ .loop⟩
  | unnamed hr hn =>
    cases ht
    exact ⟨_, .unnamed hr hn, .halt (.error (accounts_onTokens _ _) hc)⟩
  | binding hr hn => cases ht; exact ⟨_, .binding hr hn, .call fun _ _ ↦ .assign⟩
  | block hr => cases ht; exact ⟨_, .block hr, .proceed (.lines (k.made .empty)) hc⟩
  | phrase hr hf => cases ht; exact ⟨_, .phrase hr hf, .halt (alike_lookUp hx.1 c d hc)⟩
  | inseparable hr hf hm =>
    cases ht
    exact ⟨_, .inseparable hr hf hm, .halt (.error (fun _ _ he ↦ nomatch he) hc)⟩
  | nouns hr hf hm =>
    cases ht
    exact ⟨_, .nouns hr hf hm, .proceed (.arguments (Builtin.mem_of_find? hf) .nil) hc⟩
  | uncountable hn =>
    cases ht with
    | loop hv =>
      have hr := alike_repetitions hv c d hc
      rw [hn] at hr
      generalize hs : Value.repetitions _ d = s at hr
      cases hr with
      | error he hc' => exact ⟨_, .uncountable hs, .halt (.error he hc')⟩
  | counted hn =>
    cases ht with
    | loop hv =>
      have hr := alike_repetitions hv c d hc
      rw [hn] at hr
      generalize hs : Value.repetitions _ d = s at hr
      cases hr with
      | ok hn' hc' =>
        subst hn'
        exact ⟨_, .counted hs, .proceed .passes (hc'.note .traced)⟩
  | finished => cases ht; exact ⟨_, .finished, .halt (.ok (k.made .empty) hc)⟩
  | pass => cases ht; exact ⟨_, .pass, .call fun _ _ _ ↦ .passes⟩
  | assign =>
    cases ht with
    | assign hv => exact ⟨_, .assign, .halt (.ok (k.made .empty) (hc.set hx.stands hv))⟩
  | ended =>
    cases ht with
    | lines hv => exact ⟨_, .ended, .halt (.ok hv hc)⟩
  | unreadable hr =>
    cases ht
    have he := isComplaint_of_readLine hr
    exact ⟨_, .unreadable hr, .halt (.error (accounts_of_isComplaint he) hc)⟩
  | blankLine hr hb =>
    cases ht with
    | lines hv => exact ⟨_, .blankLine hr hb, .proceed (.lines hv) hc⟩
  | line hr hb => cases ht; exact ⟨_, .line hr hb, .call fun _ _ ↦ .lines⟩
  | complete =>
    cases ht with
    | arguments hf ha => exact ⟨_, .complete, .halt (alike_finishCall _ hf _ ha c d hc)⟩
  | argument =>
    cases ht with
    | arguments hf ha =>
      refine ⟨_, .argument, .call fun v w hv ↦ .arguments hf ?_⟩
      exact List.rel_append ha (.cons ⟨rfl, hv⟩ .nil)

theorem alike_executes {t u : Task} {c d : Context} {r : Run.Result} {calls : List Call}
    (h : Executes Builtin.standard t c r calls) (ht : k.AlikeTasks t u)
    (hx : t.Excerpts k.script) (hc : k.AlikeContexts c d) :
    ∃ s calls', Executes Builtin.standard u d s calls' ∧ k.AlikeResults k.Like r s := by
  induction h generalizing u d with
  | halt hm =>
    obtain ⟨m', hm', ha⟩ := alike_moves hm ht hx hc
    cases ha with
    | halt hr => exact ⟨_, _, .halt hm', hr⟩
  | proceed hm _ ih =>
    obtain ⟨m', hm', ha⟩ := alike_moves hm ht hx hc
    cases ha with
    | proceed ht' hc' =>
      obtain ⟨s, calls', he, hr⟩ := ih ht' (hm.excerpts hx) hc'
      exact ⟨s, calls', .proceed hm' he, hr⟩
  | missing hm hb =>
    obtain ⟨m', hm', ha⟩ := alike_moves hm ht hx hc
    cases ha with
    | call => exact ⟨_, _, .missing hm' hb, alike_failMissing _ _ _ hc⟩
  | fail hm hb _ ih =>
    obtain ⟨m', hm', ha⟩ := alike_moves hm ht hx hc
    cases ha with
    | call =>
      obtain ⟨s, calls', he, hr⟩ :=
        ih .clause (Task.excerpts_clause (hm.excerpts hx).1) (hc.enter _)
      cases hr with
      | error ha hc' => exact ⟨_, _, .fail hm' hb he, .error ha (hc.leave hc')⟩
  | resume hm hb _ _ ih ih' =>
    obtain ⟨m', hm', ha⟩ := alike_moves hm ht hx hc
    obtain ⟨hcode, hresume⟩ := hm.excerpts hx
    cases ha with
    | call hk =>
      obtain ⟨s, calls', he, hr⟩ := ih .clause (Task.excerpts_clause hcode) (hc.enter _)
      cases hr with
      | ok hv hc' =>
        obtain ⟨s', later, he', hr'⟩ := ih' (hk _ _ hv) (hresume _) (hc.leave hc')
        exact ⟨s', _, .resume hm' hb he he', hr'⟩

/-- Begun alike, the two runs of the script end alike. -/
theorem alike_runScript (hl : k.left.functions = Builtin.standard)
    (hr : k.right.functions = Builtin.standard) (hd : k.left.diagnostic = k.right.diagnostic)
    (hs : k.left.statement = k.right.statement)
    (hv : ∀ name, name <:+: k.script.normalize →
      Option.Rel k.Like (k.left.scope.get? name) (k.right.scope.get? name)) :
    k.AlikeResults k.Like (runScript k.script k.left) (runScript k.script k.right) := by
  have hc : k.AlikeContexts k.left k.right :=
    ⟨hd, hs, hv, fun _ _ ↦ ⟨rfl, rfl⟩, [], [], by simp, by simp, .nil⟩
  obtain ⟨calls, he⟩ := exists_executes_runTokens (tokenize k.script 1) k.left
  rw [hl] at he
  obtain ⟨s, calls', he', ha⟩ :=
    alike_executes he (.lines (k.made .empty)) (Token.Excerpt.tokenize k.script) hc
  have hrun : runScript k.script k.right = s := by
    rw [← he'.run_eq, ← hr]
    rfl
  rw [hrun]
  exact ha

end Comparison

end Kotoba
