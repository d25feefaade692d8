import Kotoba.Proofs.Closedness
import Kotoba.Proofs.Termination

/-!
Where a run learns that an enclosure is not closed. The parts of a closed statement are closed, so
that it comes out before any part of a statement has run, when its line is read. Only the nouns of a
sentence are made into tokens anew, from its text, and need not be closed.
-/

namespace Kotoba

/-- The fault says that an enclosure is not closed. -/
def Fault.LeavesOpen (e : Fault) : Prop := ∃ k first last, e = .complaint (.unclosed k) first last

namespace Run

variable {α β : Type}

/-- No fault of the run says that an enclosure is not closed. -/
def Spares (x : Run α) : Prop := ∀ c e d, x c = .error e d → ¬ e.LeavesOpen

namespace Spares

theorem pure (a : α) : Spares (Pure.pure a) := by
  rintro c e d ⟨⟩

theorem throw {e : Fault} (h : ¬ e.LeavesOpen) : Spares (MonadExcept.throw e : Run α) := by
  intro c e' d he
  cases he
  exact h

theorem bind {x : Run α} {f : α → Run β} (hx : Spares x) (hf : ∀ a, Spares (f a)) :
    Spares (x >>= f) := by
  intro c e d h
  rw [Run.bind_apply] at h
  cases hr : x c with
  | ok a c' =>
    rw [hr] at h
    exact hf a c' e d h
  | error e' c' =>
    rw [hr] at h
    cases h
    exact hx c e d hr

theorem get_bind {f : Context → Run α} (hf : ∀ c, Spares (f c)) : Spares (get >>= f) :=
  fun c ↦ hf c c

theorem note (e : Effect) : Spares (Run.note e) := by
  rintro c e d ⟨⟩

theorem complain {cause : Complaint} (h : ∀ k, cause ≠ .unclosed k) :
    Spares (Run.complain cause : Run α) := by
  refine get_bind fun c ↦ throw ?_
  rintro ⟨k, first, last, he⟩
  cases he
  exact h k rfl

theorem ofExcept {r : Except Fault α} (h : ∀ e, r = .error e → ¬ e.LeavesOpen) :
    Spares (Run.ofExcept r) := by
  cases r with
  | ok a => exact pure a
  | error e => exact throw (h e rfl)

theorem passOn (failure : Option Text) : Spares (Run.passOn failure) := by
  cases failure with
  | none => exact pure ()
  | some t => exact throw (e := .host t) (by rintro ⟨_, _, _, ⟨⟩⟩)

end Spares

end Run

theorem Fault.not_leavesOpen_onTokens {cause : Complaint} (h : ∀ k, cause ≠ .unclosed k)
    (ts : List Token) : ¬ (Fault.onTokens cause ts).LeavesOpen := by
  rintro ⟨k, first, last, he⟩
  cases he
  exact h k rfl

theorem Value.not_leavesOpen_of_format {v : Value} {e : Fault} (h : v.format = .error e) :
    ¬ e.LeavesOpen := by
  rw [eq_unprintable_of_format h]
  rintro ⟨_, _, _, ⟨⟩⟩

theorem Callable.not_leavesOpen_of_print {f : Callable} {v : Value} {e : Fault}
    (h : f.print v = .error e) : ¬ e.LeavesOpen := by
  rcases eq_of_print_error h with rfl | ⟨g, -, rfl⟩ <;> rintro ⟨_, _, _, ⟨⟩⟩

theorem Callable.call_spares (f : Callable) (v : Value) : Run.Spares (f.call v) :=
  .bind (.ofExcept fun _ ↦ not_leavesOpen_of_print) fun _ ↦ .bind (.note _) fun _ ↦ .passOn _

theorem Procedure.compare_spares (args : Bindings) (holds : Operands → Bool) :
    Run.Spares (compare args holds) := by
  unfold compare
  simp only
  split
  · exact .pure _
  · exact .bind (.ofExcept fun _ ↦ Value.not_leavesOpen_of_format) fun _ ↦
      .bind (.ofExcept fun _ ↦ Value.not_leavesOpen_of_format) fun _ ↦ .complain (by simp)

theorem Procedure.call_spares (name : Text) (args : Bindings) (p : Procedure) :
    Run.Spares (p.call name args) := by
  cases p with
  | display =>
    simp only [call]
    split
    · exact .bind (Callable.call_spares _ _) fun _ ↦ .pure _
    · exact .bind (.ofExcept fun _ ↦ Value.not_leavesOpen_of_format) fun _ ↦
        .bind (.complain (by simp)) fun _ ↦ .pure _
  | debugDisplay => exact .get_bind fun c ↦ .bind (Callable.call_spares _ _) fun _ ↦ .pure _
  | less => exact compare_spares args _
  | greater => exact compare_spares args _
  | custom echo result failure =>
    exact .bind (.note _) fun _ ↦ .bind (.passOn failure) fun _ ↦ .pure _

theorem Value.repetitions_spares (v : Value) : Run.Spares v.repetitions := by
  unfold repetitions
  split
  · exact .complain (by simp)
  · split
    · exact .pure _
    · exact .throw (by rintro ⟨_, _, _, ⟨⟩⟩)
  · split
    · exact .complain (by simp)
    · exact .pure _

namespace Statement

variable (source : List Token)

theorem lookUp_spares : Run.Spares (lookUp source) := by
  refine .get_bind fun c ↦ ?_
  split
  · exact .pure _
  · split
    · next r hr =>
      refine .ofExcept fun e he ↦ ?_
      obtain ⟨n, rfl⟩ := Literal.eq_tooManyDigits_of_value? (he ▸ hr)
      rintro ⟨_, _, _, ⟨⟩⟩
    · exact .throw (Fault.not_leavesOpen_onTokens (by simp) _)

theorem failMissing_spares : Run.Spares (failMissing source) :=
  .get_bind fun _ ↦ .throw (Fault.not_leavesOpen_onTokens (by simp) _)

theorem finishCall_spares (f : Builtin) (complete : Bool) (arguments : List (Text × Value)) :
    Run.Spares (finishCall source f complete arguments) := by
  unfold finishCall
  cases complete with
  | false => exact .throw (Fault.not_leavesOpen_onTokens (by simp) _)
  | true => exact .bind (.note _) fun _ ↦ Procedure.call_spares _ _ _

end Statement

/-- The code is a noun that the sentence marks for the function that it calls. -/
def Cursor.IsNounOf (table : List Builtin) (sentence : List Token) (code : Cursor) : Prop :=
  ∃ f m a, Builtin.find? table (Token.render sentence) = some f ∧
    f.marking? (Token.render sentence) = some m ∧ a ∈ m.marked ∧
    code = .ofTokens (Statement.nounTokens sentence a.2)

namespace Task

/-- All tokens of the task that are still to be read are closed, but for nouns. -/
def Sealed (table : List Builtin) : Task → Prop
  | .value _ | .assign _ _ => True
  | .evaluate code => ∃ ts, Closed ts ∧ code = .ofTokens ts
  | .clause _ rest => Closed rest
  | .loop target _ | .passes target _ => Closed target
  | .lines ts _ => Closed ts
  | .arguments source f _ nouns _ => ∃ m, Builtin.find? table (Token.render source) = some f ∧
      f.marking? (Token.render source) = some m ∧ nouns ⊆ m.marked

/-- The sentence whose nouns are still to be evaluated, if there is one. -/
def sentence? : Task → Option (List Token)
  | .clause source _ | .arguments source _ _ _ _ => some source
  | _ => none

/-- The task is a later part of another one and has no other sentence. -/
def Continues (table : List Builtin) (t t' : Task) : Prop :=
  t'.Sealed table ∧ ∀ source, t'.sentence? = some source → t.sentence? = some source

theorem Sealed.continues {table : List Builtin} {t t' : Task} (h : t'.Sealed table)
    (hn : t'.sentence? = none) : t.Continues table t' := by
  refine ⟨h, fun source hs ↦ ?_⟩
  cases hn.symm.trans hs

end Task

/-- The code is of closed tokens, or a noun of the sentence. -/
def Cursor.Fair (table : List Builtin) (sentence? : Option (List Token)) (code : Cursor) : Prop :=
  (∃ ts, Closed ts ∧ code = .ofTokens ts) ∨
    ∃ sentence, sentence? = some sentence ∧ code.IsNounOf table sentence

/-- What the task moves to is sealed, and it does not halt over an enclosure that is not closed. -/
def Move.Sealed (table : List Builtin) (t : Task) : Move → Prop
  | .halt r => ∀ e d, r = .error e d → ¬ e.LeavesOpen
  | .proceed t' _ => t.Continues table t'
  | .call code resume => code.Fair table t.sentence? ∧ ∀ v, t.Continues table (resume v)

variable {table : List Builtin} {t : Task} {c d : Context} {m : Move} {e : Fault}

theorem Closed.fair {ts : List Token} (h : Closed ts) (table : List Builtin)
    (sentence? : Option (List Token)) : (Cursor.ofTokens ts).Fair table sentence? :=
  .inl ⟨ts, h, rfl⟩

theorem Task.sealed_branch {condition consequent : List Token}
    {alternative : Option (List Token)}
    (hp : ∀ part ∈ (Clause.conditional condition consequent alternative).parts, Closed part)
    (v : Value) : t.Continues table (Task.branch consequent alternative v) := by
  unfold branch
  split
  · refine Sealed.continues ⟨consequent, hp consequent ?_, rfl⟩ rfl
    cases alternative <;> simp [Clause.parts]
  · cases alternative with
    | none => exact Sealed.continues trivial rfl
    | some ts => exact Sealed.continues ⟨ts, hp ts (by simp [Clause.parts]), rfl⟩ rfl

theorem Task.Moves.sealed (h : t.Moves table c m) (ht : t.Sealed table) : m.Sealed table t := by
  cases h with
  | evaluate => exact ⟨.inl ht, fun _ ↦ Sealed.continues trivial rfl⟩
  | refused hr =>
    rintro e d ⟨⟩
    rw [Clause.malformed_of_read ht hr]
    exact Fault.not_leavesOpen_onTokens (by simp) _
  | @conditional _ _ _ condition _ alternative _ hr =>
    have hp := Clause.closed_of_read ht hr
    have hs : Closed condition := hp condition (by cases alternative <;> simp [Clause.parts])
    exact ⟨hs.fair table _, Task.sealed_branch hp⟩
  | @repetition _ _ _ target count _ hr =>
    have hp := Clause.closed_of_read ht hr
    have hs : Closed target := hp target (by simp [Clause.parts])
    exact ⟨(hp count (by simp [Clause.parts])).fair table _, fun _ ↦ Sealed.continues hs rfl⟩
  | unnamed =>
    rintro e d ⟨⟩
    exact Fault.not_leavesOpen_onTokens (by simp) _
  | @binding _ _ _ name value _ hr =>
    have hs : Closed value := Clause.closed_of_read ht hr value (by simp [Clause.parts])
    exact ⟨hs.fair table _, fun _ ↦ Sealed.continues trivial rfl⟩
  | @block _ _ _ body _ hr =>
    exact Sealed.continues (Clause.closed_of_read ht hr body (by simp [Clause.parts])) rfl
  | phrase => exact Statement.lookUp_spares _ c
  | inseparable =>
    rintro e d ⟨⟩
    rintro ⟨_, _, _, ⟨⟩⟩
  | nouns _ hf hm => exact ⟨⟨_, hf, hm, List.Subset.refl _⟩, fun _ hs ↦ hs⟩
  | @uncountable _ count _ _ _ hn =>
    rintro e d ⟨⟩
    exact count.repetitions_spares c _ _ hn
  | counted => exact Sealed.continues ht rfl
  | pass => exact ⟨Closed.fair ht table _, fun _ ↦ Sealed.continues ht rfl⟩
  | unreadable hr => exact absurd hr (Closed.readLine_ne_error ht _)
  | blankLine hr => exact Sealed.continues (Closed.of_readLine ht hr) rfl
  | @line _ _ _ rest _ _ hr =>
    have hs : Closed rest := Closed.of_readLine ht hr
    exact ⟨(closed_of_readLine hr).fair table _, fun _ ↦ Sealed.continues hs rfl⟩
  | complete => exact Statement.finishCall_spares _ _ _ _ c
  | @argument source f _ a _ _ _ =>
    obtain ⟨m, hf, hm, hs⟩ := ht
    exact ⟨.inr ⟨source, rfl, f, m, a, hf, hm, hs List.mem_cons_self, rfl⟩,
      fun _ ↦ ⟨⟨m, hf, hm, List.subset_of_cons_subset hs⟩, fun _ hs ↦ hs⟩⟩
  | value | finished | assign | ended => rintro e d ⟨⟩

/-- A noun of the sentence is not closed, and its evaluation has failed with the fault. -/
def NounFails (table : List Builtin) (calls : List Call) (e : Fault) (sentence : List Token) :
    Prop :=
  ∃ k ∈ calls, k.code.IsNounOf table sentence ∧ ¬ Closed k.code.tokens ∧ ∃ d, k.result = .error e d

theorem NounFails.mono {calls calls' : List Call} {sentence : List Token}
    (h : NounFails table calls e sentence) (hs : calls ⊆ calls') :
    NounFails table calls' e sentence := by
  obtain ⟨k, hk, hn⟩ := h
  exact ⟨k, hs hk, hn⟩

/-- A sentence that was evaluated has failed with the fault of one of its nouns. -/
def FromNoun (table : List Builtin) (calls : List Call) (e : Fault) : Prop :=
  ∃ s ∈ calls, (∃ d, s.result = .error e d) ∧ NounFails table calls e s.code.trim.tokens

theorem FromNoun.mono {calls calls' : List Call} (h : FromNoun table calls e)
    (hs : calls ⊆ calls') : FromNoun table calls' e := by
  obtain ⟨s, hm, he, hn⟩ := h
  exact ⟨s, hs hm, he, hn.mono hs⟩

/-- With the call of a statement, its sentence is one of those that were evaluated. -/
theorem FromNoun.concat {calls : List Call} {k : Call} {rest : List Token}
    (hk : ∃ d, k.result = .error e d)
    (h : FromNoun table calls e ∨ ∃ sentence,
      (Task.clause k.code.trim.tokens rest).sentence? = some sentence ∧
        NounFails table calls e sentence) :
    FromNoun table (calls ++ [k]) e := by
  rcases h with hn | ⟨sentence, hs, hn⟩
  · exact hn.mono (List.subset_append_left _ _)
  · cases hs
    exact ⟨k, List.mem_append_right _ List.mem_cons_self, hk,
      hn.mono (List.subset_append_left _ _)⟩

theorem Closed.sealed_clause {ts : List Token} (h : Closed ts) (table : List Builtin) :
    (Task.clause (Cursor.ofTokens ts).trim.tokens (Cursor.ofTokens ts).trim.rest).Sealed table := by
  rw [Cursor.trim_ofTokens]
  exact h.trim

theorem Cursor.Fair.cases {sentence? : Option (List Token)} {code : Cursor}
    (h : code.Fair table sentence?) :
    (Task.clause code.trim.tokens code.trim.rest).Sealed table ∨
      ¬ Closed code.tokens ∧ ∃ sentence, sentence? = some sentence ∧
        code.IsNounOf table sentence := by
  rcases h with ⟨ts, hc, rfl⟩ | ⟨sentence, hs, hn⟩
  · exact .inl (hc.sealed_clause table)
  · by_cases hc : Closed code.tokens
    · obtain ⟨f, m, a, -, -, -, rfl⟩ := hn
      rw [tokens_ofTokens] at hc
      exact .inl (hc.sealed_clause table)
    · exact .inr ⟨hc, sentence, hs, hn⟩

theorem subset_later (calls later : List Call) (k : Call) : later ⊆ calls ++ k :: later :=
  List.subset_append_of_subset_right calls (List.subset_cons_self k later)

/-- In a sealed task only a noun can fail over an enclosure that is not closed. Its sentence is the
one of the task, or one that was evaluated in it. -/
theorem Executes.fromNoun {r : Run.Result} {calls : List Call} (h : Executes table t c r calls)
    (ht : t.Sealed table) (he : e.LeavesOpen) (hr : r = .error e d) :
    FromNoun table calls e ∨
      ∃ sentence, t.sentence? = some sentence ∧ NounFails table calls e sentence := by
  induction h generalizing d with
  | halt hm => exact absurd he (hm.sealed ht e d hr)
  | proceed hm _ ih =>
    obtain ⟨hs, hk⟩ := hm.sealed ht
    rcases ih hs hr with hn | ⟨sentence, hs, hn⟩
    · exact .inl hn
    · exact .inr ⟨sentence, hk sentence hs, hn⟩
  | missing hm => exact absurd he (Statement.failMissing_spares _ _ e d hr)
  | fail hm _ _ ih =>
    cases hr
    -- What is called is sealed, or else it is itself the noun that is not closed.
    rcases (hm.sealed ht).1.cases with hs | ⟨hc, sentence, hs, hn⟩
    · exact .inl (.concat ⟨_, rfl⟩ (ih hs rfl))
    · exact .inr ⟨sentence, hs, _, List.mem_append_right _ List.mem_cons_self, hn, hc, _, rfl⟩
  | @resume _ _ _ _ _ v _ calls later hm _ _ _ _ ih' =>
    obtain ⟨hs, hk⟩ := (hm.sealed ht).2 v
    rcases ih' hs hr with hn | ⟨sentence, hs, hn⟩
    · exact .inl (hn.mono (subset_later calls later _))
    · exact .inr ⟨sentence, hk sentence hs, hn.mono (subset_later calls later _)⟩

/-- The statements of the lines that can be read. -/
def Statement.ofLines (table : List Builtin) (ts : List Token) : List Statement :=
  (statedLines ts).map fun line ↦ read table (.ofTokens line)

theorem Statement.ofLines_of_readLine {u : Token} {ts line rest : List Token}
    (h : readLine [] (u :: ts) = .ok (line, rest)) :
    ofLines table (u :: ts) =
      if Token.allDelimiters line then ofLines table rest
      else read table (.ofTokens line) :: ofLines table rest := by
  rw [ofLines, statedLines, readLines_of_readLine (by simp) h, List.filter_cons]
  cases Token.allDelimiters line <;> rfl

theorem exists_rest_of_readLines {ts : List Token} (h : (readLines ts).2 = some e) :
    ∃ rest, ts = (readLines ts).1.flatten ++ rest ∧ readLine [] rest = .error e := by
  fun_induction readLines ts with
  | case1 => cases h
  | case2 t ts e' hr =>
    cases h
    exact ⟨t :: ts, rfl, hr⟩
  | case3 t ts line rest hr r ih =>
    obtain ⟨rest', ha, he⟩ := ih h
    refine ⟨rest', ?_, he⟩
    rw [List.flatten_cons, List.append_assoc, ← ha, append_of_readLine hr]

/-- The run of the tokens has ended where a line cannot be read: those before it have run, and
nothing else has. -/
def StopsAtLine (ts : List Token) (c : Context) (e : Fault) (d : Context) : Prop :=
  ∃ rest v, ts = (readLines ts).1.flatten ++ rest ∧ readLine [] rest = .error e ∧
    Statement.runLines .empty (Statement.ofLines c.functions ts) c = .ok v d

/-- Lines fail over an enclosure that is not closed where one of them cannot be read, or else in a
noun. -/
theorem Executes.unread_or_fromNoun {ts : List Token} {last : Value} {r : Run.Result}
    {calls : List Call} (h : Executes table (.lines ts last) c r calls) (he : e.LeavesOpen)
    (hr : r = .error e d) :
    (readLines ts).2 = some e ∧
        (∃ v, Statement.runLines last (Statement.ofLines table ts) c = .ok v d) ∨
      FromNoun table calls e := by
  -- Every line goes on to the lines behind it, with its own value as the last one.
  generalize ht : Task.lines ts last = t at h
  induction h generalizing ts last with
  | halt hm =>
    subst ht
    cases hm with
    | ended => cases hr
    | @unreadable u us _ _ _ hl =>
      cases hr
      have hn : readLines (u :: us) = ([], some e) := readLines_of_error (by simp) hl
      refine .inl ⟨by rw [hn], last, ?_⟩
      rw [Statement.ofLines, statedLines, hn]
      rfl
  | proceed hm _ ih =>
    subst ht
    cases hm with
    | blankLine hl hb =>
      rw [Statement.ofLines_of_readLine hl, if_pos hb, readLines_of_readLine (by simp) hl]
      exact ih hr rfl
  | missing => exact absurd he (Statement.failMissing_spares _ _ e d hr)
  | fail hm _ hx =>
    subst ht
    cases hm with
    | line hl =>
      cases hr
      have hs := (closed_of_readLine hl).sealed_clause table
      exact .inr (.concat ⟨_, rfl⟩ (hx.fromNoun hs he rfl))
  | @resume _ c d' _ _ v _ calls later hm hb hx _ _ ih' =>
    subst ht
    cases hm with
    | @line u us line rest _ _ hl hd =>
      rw [Statement.ofLines_of_readLine hl, readLines_of_readLine (by simp) hl]
      rcases ih' hr rfl with ⟨hu, w, hw⟩ | hn
      · refine .inl ⟨hu, w, ?_⟩
        have hs : (Statement.read table (.ofTokens line)).run c = .ok v (d'.leave c) := by
          rw [Statement.run_read_of_not_blank table hb, hx.run_eq, Context.exit]
        rw [hd, if_neg Bool.false_ne_true, Statement.runLines, Run.bind_apply, hs]
        exact hw
      · exact .inr (hn.mono (subset_later calls later _))

theorem runTokens_leavesOpen {ts : List Token} (h : runTokens ts c = .error e d)
    (he : e.LeavesOpen) :
    StopsAtLine ts c e d ∨
      ∃ calls, Executes c.functions (.lines ts .empty) c (.error e d) calls ∧
        FromNoun c.functions calls e := by
  obtain ⟨calls, hx⟩ := exists_executes_runTokens ts c
  rw [h] at hx
  rcases hx.unread_or_fromNoun he rfl with ⟨hu, v, hv⟩ | hn
  · obtain ⟨rest, ha, hr⟩ := exists_rest_of_readLines hu
    exact .inl ⟨rest, v, ha, hr, hv⟩
  · exact .inr ⟨calls, hx, hn⟩

/-- Of closed tokens, what trimming leaves, every line and every capture of a form are closed, and
neither reading the lines nor matching a form fails. So a run that fails over an enclosure that is
not closed does so where a line cannot be read, with nothing done but the lines before it, or in a
noun. -/
theorem closed_preserved :
    (∀ c : Cursor, Closed c.tokens → Closed c.trim.tokens) ∧
      (∀ ts, Closed ts → ∃ lines, (Cursor.ofTokens ts).lines.1 = .ok lines ∧
        ∀ line ∈ lines, Closed line) ∧
      (∀ f ∈ Form.all, ∀ ts saved, Closed ts →
        ∃ o, (Cursor.matchPattern ⟨ts, 0, saved⟩ f.pattern).1 = .ok o ∧
          ∀ captures, o = some captures → ∀ part ∈ captures, Closed part) ∧
      ∀ ts c e d, runTokens ts c = .error e d → e.LeavesOpen →
        StopsAtLine ts c e d ∨
          ∃ calls, Executes c.functions (.lines ts .empty) c (.error e d) calls ∧
            FromNoun c.functions calls e :=
  ⟨fun _ h ↦ h.trim, fun _ h ↦ h.exists_lines,
    fun _ hf _ saved hc ↦ Cursor.closed_of_matchPattern hf hc saved,
    fun _ _ _ _ ↦ runTokens_leavesOpen⟩

/-- A conditional that is closed once its delimiters are cut off, and a closed sentence in whose
text a particle divides a block. -/
theorem closed_preserved_but_for_noun :
    let us := tokenize "。もし(真)ならば「b」。".toList 1
    let f : Form := ⟨Form.steps [some .ifMark, none, some .thenMark, none], Form.conditionalOf⟩
    let ts := tokenize "0(xが1)より小さい".toList 1
    let e : Fault := .complaint (.unclosed .blockClose) (some 1) none
    (Closed us ∧ f ∈ Form.all ∧ ∃ condition consequent,
        (Cursor.matchPattern ⟨Token.trim us, 0, []⟩ f.pattern).1 =
          .ok (some [condition, consequent]) ∧ Closed condition ∧ Closed consequent) ∧
      Closed ts ∧ e.LeavesOpen ∧ ∃ d, runTokens ts Context.standard = .error e d ∧
        ∃ calls, Executes Builtin.standard (.lines ts .empty) Context.standard (.error e d) calls ∧
          FromNoun Builtin.standard calls e := by
  intro us f ts e
  obtain ⟨htrim, -, hmatch, hrun⟩ := closed_preserved
  have hu : Closed us := by decide +kernel
  have hf : f ∈ Form.all := by simp [Form.all, Form.conditionals, f]
  have hts : Closed ts := by decide +kernel
  have he : e.LeavesOpen := ⟨_, _, _, rfl⟩
  refine ⟨⟨hu, hf, ?_⟩, hts, he, ?_⟩
  · obtain ⟨o, ho, hc⟩ := hmatch f hf (Token.trim us) [] (htrim (.ofTokens us) hu)
    have hm : (Cursor.matchPattern ⟨Token.trim us, 0, []⟩ f.pattern).1 =
        .ok (some [[⟨['('], 1⟩, ⟨['真'], 1⟩, ⟨[')'], 1⟩],
          [⟨['「'], 1⟩, ⟨['b'], 1⟩, ⟨['」'], 1⟩]]) := by
      decide +kernel
    cases ho.symm.trans hm
    exact ⟨_, _, hm, hc _ rfl _ (by simp), hc _ rfl _ (by simp)⟩
  · have hr : Run.fault? (runTokens ts Context.standard) = some e := by decide +kernel
    obtain ⟨d, hd⟩ := Run.eq_error_of_fault? hr
    refine ⟨d, hd, (hrun ts Context.standard e d hd he).resolve_left ?_⟩
    rintro ⟨rest, v, ha, hl, -⟩
    have hn : ts = ts ++ rest := by rwa [flatten_readLines hts.snd_readLines] at ha
    obtain rfl : rest = [] := List.append_right_eq_self.1 hn.symm
    cases hl

end Kotoba
