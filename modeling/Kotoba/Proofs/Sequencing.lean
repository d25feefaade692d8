import Kotoba.Proofs.Relocation
import Kotoba.Proofs.Termination
import Kotoba.Proofs.Tokenize

/-!
A script that ends with its lines closed may be followed by any other script that does not begin
with an alternative: the two run one after the other.
-/

namespace Kotoba

namespace Run

/-- The run does not look at the statement around it. -/
def Detached (x : Run Value) : Prop := ∀ c d : Context, x (c.leave d) = d.exit (x c)

theorem Detached.bind {x : Run Value} {f : Value → Run Value} (hx : Detached x)
    (hf : ∀ v, Detached (f v)) : Detached (x >>= f) := by
  intro c d
  rw [Run.bind_apply, Run.bind_apply, hx c d]
  cases x c with
  | ok v e => exact hf v e d
  | error e e' => rfl

theorem detached_within (source : List Token) (body : Run Value) :
    Detached (Run.within source body) := by
  intro c d
  rw [Run.within_apply, Run.within_apply]
  show (c.leave d).exit (body (c.enter source)) = _
  cases body (c.enter source) <;> rfl

end Run

theorem Token.allDelimiters_dropDelimiters (ts : List Token) :
    allDelimiters (dropDelimiters ts) = allDelimiters ts := by
  induction ts with
  | nil => rfl
  | cons t ts ih =>
    cases ht : t.isA .delimiter <;> simp_all [dropDelimiters, allDelimiters]

theorem Token.allDelimiters_trim (ts : List Token) :
    allDelimiters (trim ts) = allDelimiters ts := by
  have hr (us : List Token) : allDelimiters us.reverse = allDelimiters us := List.all_reverse
  rw [trim, hr, allDelimiters_dropDelimiters, hr, allDelimiters_dropDelimiters]

/-- A line that says something is not blank once it is trimmed. -/
theorem Cursor.isBlank_trim_ofTokens {line : List Token} (h : Token.allDelimiters line = false) :
    (Cursor.ofTokens line).trim.isBlank = false := by
  rw [← Token.allDelimiters_trim] at h
  have hi : (Cursor.ofTokens line).trim.index = 0 :=
    (congrArg (min · _) (Nat.zero_sub _)).trans (Nat.zero_min _)
  have hp : 0 < (Token.trim line).length := by
    refine List.length_pos_iff.2 fun hn ↦ ?_
    rw [hn] at h
    cases h
  show (decide ((Token.trim line).length ≤ (Cursor.ofTokens line).trim.index) ||
    Token.allDelimiters (Token.trim line)) = false
  rw [hi, h, Bool.or_false]
  exact decide_eq_false (by omega)

theorem Run.detached_ofLines (table : List Builtin) (ts : List Token) (last : Value) :
    Detached (Run.ofLines table ts last) := by
  induction hn : ts.length using Nat.strongRecOn generalizing ts last with
  | _ n ih =>
    cases ts with
    | nil =>
      rw [Run.ofLines_nil]
      exact fun _ _ ↦ rfl
    | cons t ts =>
      rw [Run.ofLines_cons]
      split
      · exact fun _ _ ↦ rfl
      · next line rest hr =>
        have hl := hn ▸ length_of_readLine hr
        split
        · exact ih _ hl rest last rfl
        · next hb =>
          refine .bind ?_ fun v ↦ ih _ hl rest v rfl
          rw [Run.ofTokens, Statement.run_read,
            if_neg (by simp [Cursor.isBlank_trim_ofTokens (Bool.eq_false_iff.2 hb)])]
          exact detached_within _ _

/-- The result with the lines moved in its fault and in what was noted after the first `k`
effects. -/
def Run.relocate {α : Type} (n : Int) (k : Nat) :
    EStateM.Result Fault Context α → EStateM.Result Fault Context α
  | .ok a d => .ok a (d.relocate n k)
  | .error e d => .error (Kotoba.shift n e) (d.relocate n k)

theorem Context.relocate_size (n : Int) (c : Context) : c.relocate n c.journal.size = c := by
  have hj : (c.journal.mapIdx fun i e ↦ if i < c.journal.size then e else Kotoba.shift n e) =
      c.journal := by
    apply Array.ext
    · exact Array.size_mapIdx
    · intro i _ hi
      simp [hi]
  unfold relocate
  rw [hj]

theorem Run.exit_shift {α : Type} {n : Int} {k : Nat} {c : Context}
    {r : EStateM.Result Fault Context α} (h : c.Extends (Run.context r)) :
    c.exit (Run.shift n k r) = Run.relocate n k r := by
  have hd (d : Context) (hs : d.statement = c.statement) :
      (d.shift n k).leave c = d.relocate n k := by
    unfold Context.leave
    rw [← hs]
    rfl
  cases r with
  | ok a d => exact congrArg (EStateM.Result.ok a) (hd d h.statement)
  | error e d => exact congrArg (EStateM.Result.error _) (hd d h.statement)

/-- Lines further down run in the same way. -/
theorem Run.ofLines_shift {table : List Builtin} (n : Int) (ts : List Token) (last : Value)
    (c : Context) :
    Run.ofLines table (Kotoba.shift n ts) last c =
      Run.relocate n c.journal.size (Run.ofLines table ts last c) := by
  have hb : (Task.lines ts last).Below (Token.width ts + 1) := Nat.lt_succ_self _
  obtain ⟨r, calls, he⟩ := hb.exists_executes table c
  have hr : Run.ofLines table ts last c = r := he.run_eq
  have hs : Run.ofLines table (Kotoba.shift n ts) last (c.shift n c.journal.size) =
      Run.shift n c.journal.size r := (he.shift (n := n) trivial (Nat.le_refl _)).run_eq
  -- At the top the statement around the lines does not matter, so it need not be moved.
  have hl : (c.shift n c.journal.size).leave c = c := c.relocate_size n
  have hd := Run.detached_ofLines table (Kotoba.shift n ts) last (c.shift n c.journal.size) c
  rw [hl, hs, Run.exit_shift he.extends] at hd
  rw [hr, hd]

theorem Statement.runLines_append (v : Value) (ss ss' : List Statement) :
    runLines v (ss ++ ss') = runLines v ss >>= fun w ↦ runLines w ss' := by
  induction ss generalizing v with
  | nil => simp only [List.nil_append, runLines, pure_bind]
  | cons s ss ih => simp only [List.cons_append, runLines, bind_assoc, ih]

theorem LineClosed.ofLines_append {table : List Builtin} {ts us : List Token} (h : LineClosed ts)
    (hu : us.head?.any (·.isA .elseMark) = false) (last : Value) :
    Run.ofLines table (ts ++ us) last = Run.ofLines table ts last >>= Run.ofLines table us := by
  simp only [Run.ofLines, statedLines, h.readLines_append hu, h.snd_readLines, List.filter_append,
    List.map_append, Statement.runLines_append, Statement.finishLines, bind_assoc, bind_pure]
  rfl

/-- The value that lines start from is the value only of no lines. -/
theorem Run.ofLines_last (table : List Builtin) (ts : List Token) (last : Value) (c : Context) :
    Run.ofLines table ts last c =
      match Run.ofLines table ts .empty c with
      | .error e d => .error e d
      | .ok v d => .ok (if statedLines ts = [] then last else v) d := by
  unfold Run.ofLines
  cases hs : statedLines ts with
  | nil =>
    simp only [List.map_nil, Statement.runLines, pure_bind, Statement.finishLines]
    cases (readLines ts).2 <;> rfl
  | cons line lines =>
    simp only [List.map_cons, Statement.runLines, reduceCtorEq, if_false]
    split
    · next h => exact h
    · next h => exact h

/-- Two scripts run one after the other if the first one ends with its lines closed and the second
one does not begin with an alternative. -/
theorem runScript_append {s₁ s₂ : Text} (h₁ : s₁.getLast? = some '\n')
    (h₂ : LineClosed (tokenize s₁ 1))
    (h₃ : (tokenize s₂ 1).head?.any (·.isA .elseMark) = false) (c : Context) :
    runScript (s₁ ++ s₂) c =
      match runScript s₁ c with
      | .error e d => .error e d
      | .ok v d =>
        match runScript s₂ d with
        | .error e d' =>
          .error (shift (s₁.count '\n') e) (d'.relocate (s₁.count '\n') d.journal.size)
        | .ok w d' =>
          .ok (if statedLines (tokenize s₂ 1) = [] then v else w)
            (d'.relocate (s₁.count '\n') d.journal.size) := by
  have hrun (s : Text) (d : Context) :
      runScript s d = Run.ofLines d.functions (tokenize s 1) .empty d := rfl
  have ht : tokenize (s₁ ++ s₂) 1 = tokenize s₁ 1 ++ shift (s₁.count '\n') (tokenize s₂ 1) := by
    rw [tokenize_append h₁, tokenize_shift]
  have hu : (shift (s₁.count '\n') (tokenize s₂ 1)).head?.any (·.isA .elseMark) = false := by
    rw [head?_shift, any_isA_shift, h₃]
  obtain ⟨calls, hx⟩ := exists_executes_runTokens (tokenize s₁ 1) c
  have hf : (Run.context (Run.ofLines c.functions (tokenize s₁ 1) .empty c)).functions =
      c.functions := hx.extends.functions
  rw [hrun, ht, h₂.ofLines_append hu, Run.bind_apply, hrun s₁]
  cases hr : Run.ofLines c.functions (tokenize s₁ 1) .empty c with
  | error e d => rfl
  | ok v d =>
    rw [hr] at hf
    have hd : d.functions = c.functions := hf
    simp only
    rw [Run.ofLines_shift, Run.ofLines_last, hrun s₂, hd]
    cases Run.ofLines c.functions (tokenize s₂ 1) .empty d <;> rfl

/-- A fault of the second script is reported on its line of the whole. -/
theorem runScript_append_fault_below :
    (match runScript (['a', 'を', '1', 'と', 'す', 'る', '\n'] ++ ['b', '\n'])
        Context.standard with
      | .error e _ => some e
      | .ok _ _ => none) = some (.complaint (.malformed ['b']) (some 2) (some 2)) := by
  have hc : LineClosed (tokenize ['a', 'を', '1', 'と', 'す', 'る', '\n'] 1) :=
    ⟨⟨['x'], 2⟩, by decide, by decide +kernel, by decide +kernel⟩
  have he : (tokenize ['b', '\n'] 1).head?.any (·.isA .elseMark) = false := by decide +kernel
  rw [runScript_append rfl hc he Context.standard]
  decide +kernel

end Kotoba
