import Kotoba.Interpreter
import Kotoba.Proofs.Lines

/-!
A run as a course of calls. What is left to be done at some point of a run is a `Task`; a task
either halts, goes on as another task, or first calls for a statement to be evaluated and goes on
with its value. `Executes` puts these moves together and lists the calls in the order in which they
end. It holds exactly of the results that running gives.
-/

namespace Kotoba

namespace Context

/-- The context in which the parts of a statement run. -/
def enter (c : Context) (source : List Token) : Context :=
  { c.note (.traced (.statement source)) with statement := some source }

def leave (d c : Context) : Context := { d with statement := c.statement }

/-- The result of a statement that was entered from `c`. -/
def exit {α : Type} (c : Context) :
    EStateM.Result Fault Context α → EStateM.Result Fault Context α
  | .ok a d => .ok a (d.leave c)
  | .error e d => .error e (d.leave c)

end Context

abbrev Run.Result := EStateM.Result Fault Context Value

inductive Task where
  | value (v : Value)
  | evaluate (code : Cursor)
  /-- The statement that was just entered. -/
  | clause (source rest : List Token)
  | loop (target : List Token) (count : Value)
  | passes (target : List Token) (n : Nat)
  | assign (name : List Token) (v : Value)
  /-- Lines still to be read, and the value of the last one run. -/
  | lines (ts : List Token) (last : Value)
  | arguments (source : List Token) (f : Builtin) (complete : Bool) (nouns : List (Text × Text))
      (done : List (Text × Value))

/-- The branch of a conditional that the value of its condition chooses. -/
def Task.branch (consequent : List Token) (alternative : Option (List Token)) (v : Value) : Task :=
  if v.holds then .evaluate (.ofTokens consequent)
  else alternative.elim (.value .empty) fun ts ↦ .evaluate (.ofTokens ts)

inductive Move where
  | halt (r : Run.Result)
  | proceed (t : Task) (c : Context)
  | call (code : Cursor) (resume : Value → Task)

/-- What a task does first. -/
inductive Task.Moves (table : List Builtin) : Task → Context → Move → Prop
  | value {v : Value} {c : Context} : Moves table (.value v) c (.halt (.ok v c))
  | evaluate {code : Cursor} {c : Context} : Moves table (.evaluate code) c (.call code .value)
  | refused {source rest : List Token} {c : Context} {e : Fault} :
      Clause.read source rest = .error e →
      Moves table (.clause source rest) c (.halt (.error e c))
  | conditional {source rest after condition consequent : List Token}
      {alternative : Option (List Token)} {c : Context} :
      Clause.read source rest = .ok (.conditional condition consequent alternative, after) →
      Moves table (.clause source rest) c
        (.call (.ofTokens condition) (.branch consequent alternative))
  | repetition {source rest after target count : List Token} {c : Context} :
      Clause.read source rest = .ok (.repetition target count, after) →
      Moves table (.clause source rest) c (.call (.ofTokens count) (.loop target))
  | unnamed {source rest after name value : List Token} {c : Context} :
      Clause.read source rest = .ok (.binding name value, after) → Token.render name = [] →
      Moves table (.clause source rest) c
        (.halt (.error (.onTokens (.noName (Token.spaced source)) source) c))
  | binding {source rest after name value : List Token} {c : Context} :
      Clause.read source rest = .ok (.binding name value, after) → Token.render name ≠ [] →
      Moves table (.clause source rest) c (.call (.ofTokens value) (.assign name))
  | block {source rest after body : List Token} {c : Context} :
      Clause.read source rest = .ok (.block body, after) →
      Moves table (.clause source rest) c (.proceed (.lines body .empty) c)
  | phrase {source rest after : List Token} {c : Context} :
      Clause.read source rest = .ok (.phrase, after) →
      Builtin.find? table (Token.render source) = none →
      Moves table (.clause source rest) c (.halt (Statement.lookUp source c))
  | inseparable {source rest after : List Token} {c : Context} {f : Builtin} :
      Clause.read source rest = .ok (.phrase, after) →
      Builtin.find? table (Token.render source) = some f →
      f.marking? (Token.render source) = none →
      Moves table (.clause source rest) c (.halt (.error .emptySeparator c))
  | nouns {source rest after : List Token} {c : Context} {f : Builtin} {m : Marking} :
      Clause.read source rest = .ok (.phrase, after) →
      Builtin.find? table (Token.render source) = some f →
      f.marking? (Token.render source) = some m →
      Moves table (.clause source rest) c
        (.proceed (.arguments source f m.complete m.marked []) c)
  | uncountable {target : List Token} {count : Value} {c d : Context} {e : Fault} :
      count.repetitions c = .error e d →
      Moves table (.loop target count) c (.halt (.error e d))
  | counted {target : List Token} {count : Value} {c d : Context} {n : Nat} :
      count.repetitions c = .ok n d →
      Moves table (.loop target count) c
        (.proceed (.passes target n) (d.note (.traced (.repetition n target))))
  | finished {target : List Token} {c : Context} :
      Moves table (.passes target 0) c (.halt (.ok .empty c))
  | pass {target : List Token} {n : Nat} {c : Context} :
      Moves table (.passes target (n + 1)) c
        (.call (.ofTokens target) fun _ ↦ .passes target n)
  | assign {name : List Token} {v : Value} {c : Context} :
      Moves table (.assign name v) c
        (.halt (.ok .empty { c with scope := c.scope.set (Token.render name) v }))
  | ended {last : Value} {c : Context} : Moves table (.lines [] last) c (.halt (.ok last c))
  | unreadable {t : Token} {ts : List Token} {last : Value} {c : Context} {e : Fault} :
      readLine [] (t :: ts) = .error e →
      Moves table (.lines (t :: ts) last) c (.halt (.error e c))
  | blankLine {t : Token} {ts line rest : List Token} {last : Value} {c : Context} :
      readLine [] (t :: ts) = .ok (line, rest) → Token.allDelimiters line = true →
      Moves table (.lines (t :: ts) last) c (.proceed (.lines rest last) c)
  | line {t : Token} {ts line rest : List Token} {last : Value} {c : Context} :
      readLine [] (t :: ts) = .ok (line, rest) → Token.allDelimiters line = false →
      Moves table (.lines (t :: ts) last) c (.call (.ofTokens line) (.lines rest))
  | complete {source : List Token} {f : Builtin} {complete : Bool} {done : List (Text × Value)}
      {c : Context} :
      Moves table (.arguments source f complete [] done) c
        (.halt (Statement.finishCall source f complete done c))
  | argument {source : List Token} {f : Builtin} {complete : Bool} {a : Text × Text}
      {nouns : List (Text × Text)} {done : List (Text × Value)} {c : Context} :
      Moves table (.arguments source f complete (a :: nouns) done) c
        (.call (.ofTokens (Statement.nounTokens source a.2)) fun v ↦
          .arguments source f complete nouns (done ++ [(a.1, v)]))

theorem Task.exists_moves (table : List Builtin) (t : Task) (c : Context) :
    ∃ m, t.Moves table c m := by
  cases t with
  | value v => exact ⟨_, .value⟩
  | evaluate code => exact ⟨_, .evaluate⟩
  | clause source rest =>
    match hr : Clause.read source rest with
    | .error e => exact ⟨_, .refused hr⟩
    | .ok (.conditional _ _ _, _) => exact ⟨_, .conditional hr⟩
    | .ok (.repetition _ _, _) => exact ⟨_, .repetition hr⟩
    | .ok (.binding name _, _) =>
      by_cases hn : Token.render name = []
      · exact ⟨_, .unnamed hr hn⟩
      · exact ⟨_, .binding hr hn⟩
    | .ok (.block _, _) => exact ⟨_, .block hr⟩
    | .ok (.phrase, _) =>
      match hf : Builtin.find? table (Token.render source) with
      | none => exact ⟨_, .phrase hr hf⟩
      | some f =>
        match hm : f.marking? (Token.render source) with
        | none => exact ⟨_, .inseparable hr hf hm⟩
        | some m => exact ⟨_, .nouns hr hf hm⟩
  | loop target count =>
    match hn : count.repetitions c with
    | .error e d => exact ⟨_, .uncountable hn⟩
    | .ok n d => exact ⟨_, .counted hn⟩
  | passes target n =>
    cases n with
    | zero => exact ⟨_, .finished⟩
    | succ n => exact ⟨_, .pass⟩
  | assign name v => exact ⟨_, .assign⟩
  | lines ts last =>
    cases ts with
    | nil => exact ⟨_, .ended⟩
    | cons t ts =>
      match hr : readLine [] (t :: ts) with
      | .error e => exact ⟨_, .unreadable hr⟩
      | .ok (line, rest) =>
        cases hb : Token.allDelimiters line with
        | true => exact ⟨_, .blankLine hr hb⟩
        | false => exact ⟨_, .line hr hb⟩
  | arguments source f complete nouns done =>
    cases nouns with
    | nil => exact ⟨_, .complete⟩
    | cons a nouns => exact ⟨_, .argument⟩

/-- A statement that was evaluated, from which context and with which result. -/
structure Call where
  code : Cursor
  entry : Context
  result : Run.Result

/-- The task, begun in a context, ends with the result after the calls. -/
inductive Executes (table : List Builtin) : Task → Context → Run.Result → List Call → Prop
  | halt {t : Task} {c : Context} {r : Run.Result} :
      t.Moves table c (.halt r) → Executes table t c r []
  | proceed {t t' : Task} {c c' : Context} {r : Run.Result} {calls : List Call} :
      t.Moves table c (.proceed t' c') → Executes table t' c' r calls → Executes table t c r calls
  | missing {t : Task} {c : Context} {code : Cursor} {resume : Value → Task} :
      t.Moves table c (.call code resume) → code.trim.isBlank = true →
      Executes table t c (Statement.failMissing code.trim.tokens c)
        [⟨code, c, Statement.failMissing code.trim.tokens c⟩]
  | fail {t : Task} {c d : Context} {code : Cursor} {resume : Value → Task} {e : Fault}
      {calls : List Call} :
      t.Moves table c (.call code resume) → code.trim.isBlank = false →
      Executes table (.clause code.trim.tokens code.trim.rest) (c.enter code.trim.tokens)
        (.error e d) calls →
      Executes table t c (.error e (d.leave c)) (calls ++ [⟨code, c, .error e (d.leave c)⟩])
  | resume {t : Task} {c d : Context} {code : Cursor} {resume : Value → Task} {v : Value}
      {r : Run.Result} {calls later : List Call} :
      t.Moves table c (.call code resume) → code.trim.isBlank = false →
      Executes table (.clause code.trim.tokens code.trim.rest) (c.enter code.trim.tokens)
        (.ok v d) calls →
      Executes table (resume v) (d.leave c) r later →
      Executes table t c r (calls ++ ⟨code, c, .ok v (d.leave c)⟩ :: later)

/-- Evaluates tokens as one statement. -/
def Run.ofTokens (table : List Builtin) (ts : List Token) : Run Value :=
  (Statement.read table (.ofTokens ts)).run

/-- Runs the lines of a stretch of tokens after a line with the value `last`. -/
def Run.ofLines (table : List Builtin) (ts : List Token) (last : Value) : Run Value := do
  let lines := (statedLines ts).map fun line ↦ Statement.read table (.ofTokens line)
  Statement.finishLines (readLines ts).2 (← Statement.runLines last lines)

def Run.ofNouns (table : List Builtin) (source : List Token) (f : Builtin) (complete : Bool)
    (nouns : List (Text × Text)) (done : List (Text × Value)) : Run Value := do
  let arguments := nouns.map fun a ↦
    (a.1, Statement.read table (.ofTokens (Statement.nounTokens source a.2)))
  Statement.finishCall source f complete (done ++ (← Statement.runArguments arguments))

def Run.ofClause (table : List Builtin) (source : List Token) : Clause → Run Value
  | .conditional condition consequent alternative => do
    if (← Run.ofTokens table condition).holds then Run.ofTokens table consequent
    else alternative.elim (pure .empty) (Run.ofTokens table)
  | .repetition target count => do
    Statement.repeatBody target (← Run.ofTokens table count) (Run.ofTokens table target)
  | .binding name value => Statement.bindName source name (Run.ofTokens table value)
  | .block body => Run.ofLines table body .empty
  | .phrase =>
    match Builtin.find? table (Token.render source) with
    | none => Statement.lookUp source
    | some f =>
      match f.marking? (Token.render source) with
      | none => throw .emptySeparator
      | some m => Run.ofNouns table source f m.complete m.marked []

def Task.run (table : List Builtin) : Task → Run Value
  | .value v => pure v
  | .evaluate code => (Statement.read table code).run
  | .clause source rest =>
    match Clause.read source rest with
    | .error e => throw e
    | .ok (k, _) => Run.ofClause table source k
  | .loop target count => Statement.repeatBody target count (Run.ofTokens table target)
  | .passes target n => do
    Run.times (do let _ ← Run.ofTokens table target) n
    pure .empty
  | .assign name v => do
    modify fun c ↦ { c with scope := c.scope.set (Token.render name) v }
    pure .empty
  | .lines ts last => Run.ofLines table ts last
  | .arguments source f complete nouns done => Run.ofNouns table source f complete nouns done

theorem Run.bind_apply {α β : Type} (x : Run α) (f : α → Run β) (c : Context) :
    (x >>= f) c =
      match x c with
      | .ok a d => f a d
      | .error e d => .error e d := by
  show EStateM.bind x f c = _
  unfold EStateM.bind
  cases x c <;> rfl

theorem Run.within_apply {α : Type} (source : List Token) (body : Run α) (c : Context) :
    Run.within source body c = c.exit (body (c.enter source)) := by
  unfold Run.within Context.exit
  rfl

theorem Statement.run_read (table : List Builtin) (code : Cursor) :
    (Statement.read table code).run =
      if code.trim.isBlank then Statement.failMissing code.trim.tokens
      else
        Run.within code.trim.tokens
          ((Task.clause code.trim.tokens code.trim.rest).run table) := by
  rw [Statement.read_eq]
  split
  · rw [Statement.run]
  · unfold Task.run
    split
    · next h => simp only [h, Statement.run]
    · next condition consequent alternative _ h =>
      cases alternative <;> simp only [h, Statement.run, Run.ofClause, Option.elim, Run.ofTokens]
    · next h => simp only [h, Statement.run, Run.ofClause, Run.ofTokens]
    · next h => simp only [h, Statement.run, Run.ofClause, Run.ofTokens]
    · next h => simp only [h, Statement.run, Run.ofClause, Run.ofLines]
    · next h =>
      simp only [h, Run.ofClause]
      cases Builtin.find? table (Token.render code.trim.tokens) with
      | none => simp only [Statement.run]
      | some f =>
        simp only
        cases f.marking? (Token.render code.trim.tokens) with
        | none => simp only [Statement.run]
        | some m => simp only [Statement.run, Run.ofNouns, List.nil_append]

theorem Run.ofLines_nil (table : List Builtin) (last : Value) :
    Run.ofLines table [] last = pure last := by
  simp [Run.ofLines, statedLines, readLines, Statement.runLines, Statement.finishLines]

theorem Run.ofLines_cons (table : List Builtin) (t : Token) (ts : List Token) (last : Value) :
    Run.ofLines table (t :: ts) last =
      match readLine [] (t :: ts) with
      | .error e => throw e
      | .ok (line, rest) =>
        if Token.allDelimiters line then Run.ofLines table rest last
        else Run.ofTokens table line >>= Run.ofLines table rest := by
  split
  · next e h =>
    simp only [Run.ofLines, statedLines, readLines_of_error (by simp) h, List.filter_nil,
      List.map_nil, Statement.runLines, Statement.finishLines, pure_bind]
  · next line rest h =>
    simp only [Run.ofLines, statedLines, readLines_of_readLine (by simp) h, List.filter_cons]
    by_cases hb : Token.allDelimiters line
    · simp only [hb, Bool.not_true, Bool.false_eq_true, if_false, if_true]
    · simp only [hb, Bool.not_false, if_true, Bool.false_eq_true, if_false, List.map_cons,
        Statement.runLines, bind_assoc, Run.ofTokens]
      rfl

/-- What a move comes to, made in a context. -/
def Move.result (table : List Builtin) (c : Context) : Move → Run.Result
  | .halt r => r
  | .proceed t c' => t.run table c'
  | .call code resume => ((Statement.read table code).run >>= fun v ↦ (resume v).run table) c

theorem Run.ofNouns_cons (table : List Builtin) (source : List Token) (f : Builtin)
    (complete : Bool) (a : Text × Text) (nouns : List (Text × Text)) (done : List (Text × Value)) :
    Run.ofNouns table source f complete (a :: nouns) done =
      Run.ofTokens table (Statement.nounTokens source a.2) >>= fun v ↦
        Run.ofNouns table source f complete nouns (done ++ [(a.1, v)]) := by
  simp only [Run.ofNouns, Run.ofTokens, List.map_cons, Statement.runArguments, bind_assoc,
    pure_bind, List.append_assoc, List.singleton_append]

/-- A task runs by its moves. -/
theorem Task.Moves.run_eq {table : List Builtin} {t : Task} {c : Context} {m : Move}
    (h : t.Moves table c m) : t.run table c = m.result table c := by
  cases h with
  | value => rfl
  | @evaluate code => exact congrFun (bind_pure (Statement.read table code).run).symm c
  | refused hr => simp only [Task.run, hr]; rfl
  | @conditional source rest _ condition consequent alternative _ hr =>
    have h : (Task.clause source rest).run table = Run.ofTokens table condition >>= fun v ↦
        (Task.branch consequent alternative v).run table := by
      simp only [Task.run, hr, Run.ofClause]
      refine bind_congr fun v ↦ ?_
      unfold Task.branch
      cases alternative <;> cases v.holds <;> rfl
    exact congrFun h c
  | repetition hr => simp only [Task.run, hr]; rfl
  | unnamed hr hn => simp only [Task.run, hr, Run.ofClause, Statement.bindName, if_pos hn]; rfl
  | binding hr hn => simp only [Task.run, hr, Run.ofClause, Statement.bindName, if_neg hn]; rfl
  | block hr => simp only [Task.run, hr]; rfl
  | phrase hr hf => simp only [Task.run, hr, Run.ofClause, hf]; rfl
  | inseparable hr hf hm => simp only [Task.run, hr, Run.ofClause, hf, hm]; rfl
  | nouns hr hf hm => simp only [Task.run, hr, Run.ofClause, hf, hm]; rfl
  | @uncountable target count _ _ _ hn =>
    refine (Run.bind_apply count.repetitions _ c).trans ?_
    rw [hn]
    rfl
  | @counted target count _ _ _ hn =>
    refine (Run.bind_apply count.repetitions _ c).trans ?_
    rw [hn]
    rfl
  | finished => rfl
  | @pass target n =>
    have h : (Task.passes target (n + 1)).run table =
        Run.ofTokens table target >>= fun _ ↦ (Task.passes target n).run table := by
      simp only [Task.run, Run.times, bind_assoc, pure_bind]
    exact congrFun h c
  | assign => rfl
  | ended => exact congrFun (Run.ofLines_nil table _) c
  | unreadable hr => simp only [Task.run, Run.ofLines_cons, hr]; rfl
  | blankLine hr hb => simp only [Task.run, Run.ofLines_cons, hr, hb]; rfl
  | line hr hb => simp only [Task.run, Run.ofLines_cons, hr, hb]; rfl
  | @complete source f complete done =>
    have h : (Task.arguments source f complete [] done).run table =
        Statement.finishCall source f complete done := by
      simp only [Task.run, Run.ofNouns, List.map_nil, Statement.runArguments, pure_bind,
        List.append_nil]
    exact congrFun h c
  | argument => exact congrFun (Run.ofNouns_cons table _ _ _ _ _ _) c

theorem Statement.run_read_of_not_blank (table : List Builtin) {code : Cursor}
    (h : code.trim.isBlank = false) (c : Context) :
    (Statement.read table code).run c =
      c.exit ((Task.clause code.trim.tokens code.trim.rest).run table
        (c.enter code.trim.tokens)) := by
  rw [Statement.run_read, if_neg (by simp [h]), Run.within_apply]

theorem Executes.run_eq {table : List Builtin} {t : Task} {c : Context} {r : Run.Result}
    {calls : List Call} (h : Executes table t c r calls) : t.run table c = r := by
  induction h with
  | halt hs => rw [hs.run_eq, Move.result]
  | proceed hs _ ih => rw [hs.run_eq, Move.result, ih]
  | @missing t c code resume hs hb =>
    rw [hs.run_eq, Move.result, Run.bind_apply, Statement.run_read, if_pos hb]
    rfl
  | fail hs hb _ ih =>
    rw [hs.run_eq, Move.result, Run.bind_apply, Statement.run_read_of_not_blank table hb,
      ih, Context.exit]
  | resume hs hb _ _ ih ih' =>
    rw [hs.run_eq, Move.result, Run.bind_apply, Statement.run_read_of_not_blank table hb,
      ih, Context.exit]
    exact ih'

end Kotoba
