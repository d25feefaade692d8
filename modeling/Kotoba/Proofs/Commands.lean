import Kotoba.Command.Session
import Kotoba.Proofs.Faults
import Kotoba.Proofs.Frame
import Kotoba.Proofs.Masking

/-!
What the command makes of a script that is given to it as text. Its exit status says how the run
ends and its output is what the run shows on the console; the level of logging changes neither,
wherever it is named.
-/

namespace Kotoba

/-- The value that the effect shows on the console. -/
def Effect.console? : Effect → Option Value
  | called .console v => some v
  | _ => none

/-- Values in words, each on a line of its own. -/
def Value.lines : List Value → Except Fault Text
  | [] => .ok []
  | v :: vs => do
    let t ← v.format
    let more ← lines vs
    return t ++ '\n' :: more

theorem Value.lines_cons_eq_ok_iff {v : Value} {vs : List Value} {s : Text} :
    lines (v :: vs) = .ok s ↔
      ∃ t more, v.format = .ok t ∧ lines vs = .ok more ∧ t ++ '\n' :: more = s := by
  rw [lines]
  constructor
  · intro h
    cases hv : v.format with
    | error e =>
      rw [hv] at h
      cases h
    | ok t =>
      cases hm : lines vs with
      | error e =>
        rw [hv, hm] at h
        cases h
      | ok more =>
        rw [hv, hm] at h
        cases h
        exact ⟨t, more, rfl, rfl, rfl⟩
  · rintro ⟨t, more, hv, hm, rfl⟩
    rw [hv, hm]
    rfl

theorem Value.lines_append {vs ws : List Value} {s t : Text} (hs : lines vs = .ok s)
    (ht : lines ws = .ok t) : lines (vs ++ ws) = .ok (s ++ t) := by
  induction vs generalizing s with
  | nil =>
    cases hs
    exact ht
  | cons v vs ih =>
    obtain ⟨u, more, hv, hm, rfl⟩ := lines_cons_eq_ok_iff.1 hs
    refine lines_cons_eq_ok_iff.2 ⟨u, more ++ t, hv, ih hm, ?_⟩
    rw [List.append_assoc, List.cons_append]

theorem Effect.lines_output {effects : List Effect}
    (h : ∀ v, .called .console v ∈ effects → v.Printable) :
    Value.lines (effects.filterMap Effect.console?) = .ok (effects.flatMap Effect.output) := by
  induction effects with
  | nil => rfl
  | cons e effects ih =>
    have hi := ih fun v hv ↦ h v (List.mem_cons_of_mem e hv)
    rw [List.filterMap_cons, List.flatMap_cons]
    rcases e with ⟨_ | _ | _ | _ | _, v⟩ | _ | _
    case called.console =>
      obtain ⟨t, ht⟩ := (h v List.mem_cons_self).exists_format
      have hp : Callable.console.printed v = t ++ ['\n'] := by
        rw [Callable.printed, Callable.print, ht]
        rfl
      refine Value.lines_cons_eq_ok_iff.2 ⟨t, _, ht, hi, ?_⟩
      show t ++ '\n' :: effects.flatMap Effect.output =
        Callable.console.printed v ++ effects.flatMap Effect.output
      rw [hp, List.append_assoc, List.singleton_append]
    all_goals exact hi

namespace Command

/-- The outcome of a run with this result, the value of the script being printed or not. -/
structure Outcome.Reports (o : Outcome) (printResult : Bool)
    (r : EStateM.Result Fault Context Value) : Prop where
  exit_zero : o.ending = .exit 0 ↔ ∃ v, Run.value? r = some v
  exit_one : o.ending = .exit 1 ↔ ∃ e p, Run.fault? r = some e ∧ e.report? = some p
  failed : ∀ e, Run.fault? r = some e → e.report? = none → o.ending = .failed (.fault e)
  output : Value.lines ((Run.context r).journal.toList.filterMap Effect.console? ++
    if printResult then (Run.value? r).toList else []) = .ok o.output
  errorOutput : ∀ e p, Run.fault? r = some e → e.report? = some p →
    ∃ before, o.errorOutput = before ++ (e.message ++ ['\n'])

theorem text_of_report? {e : Fault} {p : Report} (h : e.report? = some p) :
    p.text = e.message := by
  cases e <;> cases h
  rfl

theorem Order.reports_perform (o : Order) (script : Text) :
    (o.perform script).Reports o.printResult (runScript script Context.standard) := by
  have hs := runScript_outcome script
  unfold perform
  cases hr : runScript script Context.standard with
  | ok v c =>
    rw [hr] at hs
    obtain ⟨hv, hc⟩ := hs
    have ho := Effect.lines_output fun w hw ↦ hc.shown w (Array.mem_toList_iff.1 hw)
    obtain ⟨t, ht⟩ := hv.printable.exists_format
    cases o.printResult with
    | false =>
      refine ⟨by simp [Run.value?], by simp [Run.fault?], ?_, Value.lines_append ho rfl, ?_⟩
      · rintro e ⟨⟩
      · rintro e p ⟨⟩
    | true =>
      have hl : Value.lines [v] = .ok (t ++ ['\n']) :=
        Value.lines_cons_eq_ok_iff.2 ⟨t, [], ht, rfl, rfl⟩
      simp only [ht, Except.map, if_true]
      refine ⟨by simp [Run.value?], by simp [Run.fault?], ?_, Value.lines_append ho hl, ?_⟩
      · rintro e ⟨⟩
      · rintro e p ⟨⟩
  | error e c =>
    rw [hr] at hs
    have ho := Effect.lines_output fun w hw ↦ hs.2.shown w (Array.mem_toList_iff.1 hw)
    have hn : (if o.printResult then (none : Option Value).toList else []) = [] := ite_self _
    have hl : Value.lines (c.journal.toList.filterMap Effect.console? ++
        if o.printResult then (none : Option Value).toList else []) =
          .ok (c.journal.toList.flatMap Effect.output) := by
      rw [hn, List.append_nil, ho]
    cases hp : e.report? with
    | none =>
      simp only [hp]
      refine ⟨by simp [Run.value?], by simp [Run.fault?, hp], ?_, hl, ?_⟩
      · rintro f ⟨⟩ -
        rfl
      · rintro f p ⟨⟩ hf
        simp [hp] at hf
    | some p =>
      simp only [hp]
      refine ⟨by simp [Run.value?], by simp [Run.fault?, hp], ?_, hl, ?_⟩
      · rintro f ⟨⟩ hf
        simp [hp] at hf
      · rintro f p' ⟨⟩ -
        refine ⟨c.journal.toList.flatMap (Effect.errorOutput o.logTraces), ?_⟩
        rw [← text_of_report? hp, List.append_assoc]

namespace Outcome.Reports

variable {o o' : Outcome} {printResult : Bool} {r : EStateM.Result Fault Context Value}

theorem ending_eq (h : o.Reports printResult r) (h' : o'.Reports printResult r) :
    o.ending = o'.ending := by
  cases hr : r with
  | ok v d =>
    have hv : ∃ v, Run.value? r = some v := ⟨v, by rw [hr, Run.value?]⟩
    rw [h.exit_zero.2 hv, h'.exit_zero.2 hv]
  | error e d =>
    have he : Run.fault? r = some e := by rw [hr, Run.fault?]
    cases hp : e.report? with
    | none => rw [h.failed e he hp, h'.failed e he hp]
    | some p => rw [h.exit_one.2 ⟨e, p, he, hp⟩, h'.exit_one.2 ⟨e, p, he, hp⟩]

theorem output_eq (h : o.Reports printResult r) (h' : o'.Reports printResult r) :
    o.output = o'.output := Except.ok.inj (h.output.symm.trans h'.output)

end Outcome.Reports

/-- What may be said beside the script. A level is named in the argument of its option, behind an
equals sign, or in the next one. -/
inductive Switch where
  | printResult
  | level (name : {t // t ∈ levelChoices}) (joined : Bool)
deriving DecidableEq

namespace Switch

def arguments : Switch → List Text
  | printResult => [Flag.printResult.long]
  | level name true => [Flag.logLevel.long ++ '=' :: name.1]
  | level name false => [Flag.logLevel.long, name.1]

/-- What the arguments are told apart as. -/
def roles : Switch → List (Text × Role)
  | printResult => [(Flag.printResult.long, .option ⟨.printResult, false, none⟩)]
  | level name true =>
    [(Flag.logLevel.long ++ '=' :: name.1, .option ⟨.logLevel, false, some name.1⟩)]
  | level name false =>
    [(Flag.logLevel.long, .option ⟨.logLevel, false, none⟩), (name.1, .value)]

def level? : Switch → Option Text
  | printResult => none
  | level name _ => some name.1

/-- The choices with this one made, in place of one made before. -/
def choose (c : Choices) : Switch → Choices
  | printResult => { c with printResult := true }
  | level name _ => { c with level := some (.text name.1) }

end Switch

/-- An option in its long spelling, with text attached to it or without. -/
theorem roleOf_joined (f : Flag) (v : Text) :
    roleOf (f.long ++ '=' :: v) = .ok (.option ⟨f, false, some v⟩) := by
  have he : splitEquals (f.long ++ '=' :: v) = (f.long, some v) := by
    have hn : '=' ∉ f.long := by cases f <;> decide
    rw [splitEquals, Text.breakOn_singleton_append hn]
  have hw : Flag.ofSpelling? (f.long ++ '=' :: v) = none := by
    rw [Flag.ofSpelling?, List.find?_eq_none]
    intro g _ hg
    have hm : '=' ∉ f.long ++ '=' :: v := by
      have hs : ∀ g : Flag, ∀ t ∈ g.spellings, '=' ∉ t := by
        rintro (_ | _ | _ | _) <;> decide
      exact hs g _ (List.contains_iff_mem.1 hg)
    exact hm (List.mem_append_right _ List.mem_cons_self)
  have hf : Flag.ofSpelling? f.long = some f := by cases f <;> decide
  have hs : f.short? ≠ some f.long := by cases f <;> decide
  have hh : (f.long ++ '=' :: v).head? = some '-' := by cases f <;> rfl
  simp only [roleOf, hh, ne_eq, not_true_eq_false, if_false, spelled?, hw, he, hf, Option.map_none,
    Option.map_some, hs, decide_false]

theorem roleOf_long (f : Flag) : roleOf f.long = .ok (.option ⟨f, false, none⟩) := by
  cases f <;> rfl

theorem roleOf_level {t : Text} (h : t ∈ levelChoices) : roleOf t = .ok .value := by
  have hh : ∀ t ∈ levelChoices, t.head? ≠ some '-' := by decide
  rw [roleOf, if_pos (hh t h)]

theorem roles_cons {a : Text} {r : Role} (ha : a ≠ mark) (h : roleOf a = .ok r)
    {args : List Text} {rs : List (Text × Role)} (hr : roles args = .ok rs) :
    roles (a :: args) = .ok ((a, r) :: rs) := by
  simp only [roles, if_neg ha, h, hr]

theorem joined_ne_mark (f : Flag) (v : Text) : f.long ++ '=' :: v ≠ mark := by
  cases f <;> exact nofun

theorem takeAll_option {m : Mention} {rest : List (Text × Role)} {t : Taken} {p : Progress}
    {c : Choices} (ht : m.take rest = .ok t) (hc : p.choices.followAll t.followed = .ok c)
    (a : Text) :
    takeAll p ((a, .option m) :: rest) = takeAll { p with choices := c } t.rest := by
  rw [takeAll]
  split
  · next h => cases ht.symm.trans h
  · next h =>
    cases ht.symm.trans h
    simp only [hc]

namespace Switch

theorem roles_append (w : Switch) {args : List Text} {rs : List (Text × Role)}
    (h : Command.roles args = .ok rs) :
    Command.roles (w.arguments ++ args) = .ok (w.roles ++ rs) := by
  have hl : ∀ t ∈ levelChoices, t ≠ mark := by decide
  rcases w with _ | ⟨name, _ | _⟩
  · exact roles_cons (by decide) (roleOf_long _) h
  · have hv := roles_cons (hl _ name.2) (roleOf_level name.2) h
    exact roles_cons (by decide) (roleOf_long _) hv
  · exact roles_cons (joined_ne_mark _ _) (roleOf_joined _ _) h

theorem followAll_level (c : Choices) (name : {t // t ∈ levelChoices}) (joined : Bool) :
    c.followAll [(.logLevel, .text name.1)] = .ok (choose c (level name joined)) := by
  have hc : levelChoices.contains name.1 = true := List.contains_iff_mem.2 name.2
  simp only [Choices.followAll, Choices.follow, hc, if_true, choose]

theorem takeAll_append (w : Switch) (p : Progress) (rest : List (Text × Role)) :
    takeAll p (w.roles ++ rest) = takeAll { p with choices := w.choose p.choices } rest := by
  have hm : ∀ t ∈ levelChoices, Operand.ofAttached t = .text t := by decide
  rcases w with _ | ⟨name, _ | _⟩
  · exact takeAll_option (t := ⟨[(.printResult, .nothing)], rest⟩) rfl rfl _
  · exact takeAll_option (t := ⟨[(.logLevel, .text name.1)], rest⟩) rfl
      (followAll_level _ name _) _
  · have ht : Mention.take ⟨.logLevel, false, some name.1⟩ rest =
        .ok ⟨[(.logLevel, .text name.1)], rest⟩ := by
      simp only [Mention.take, Flag.takesValue, if_true, hm _ name.2]
    exact takeAll_option ht (followAll_level _ name _) _

end Switch

theorem roles_switches (switches : List Switch) :
    roles (switches.flatMap Switch.arguments) = .ok (switches.flatMap Switch.roles) := by
  induction switches with
  | nil => rfl
  | cons w switches ih => exact w.roles_append ih

theorem takeAll_switches (switches : List Switch) (p : Progress) :
    takeAll p (switches.flatMap Switch.roles) =
      .ok { p with choices := switches.foldl Switch.choose p.choices } := by
  induction switches generalizing p with
  | nil => rw [List.flatMap_nil, takeAll, List.foldl_nil]
  | cons w switches ih => rw [List.flatMap_cons, w.takeAll_append, ih, List.foldl_cons]

/-- The level that is named last. -/
def level? (switches : List Switch) : Option Text := (switches.filterMap Switch.level?).getLast?

theorem level?_cons (w : Switch) (switches : List Switch) :
    level? (w :: switches) = (level? switches).or w.level? := by
  unfold level?
  rw [List.filterMap_cons]
  cases w.level? with
  | none => rw [Option.or_none]
  | some t =>
    rw [List.getLast?_cons]
    cases (switches.filterMap Switch.level?).getLast? <;> rfl

theorem level?_eq_none_iff (switches : List Switch) :
    level? switches = none ↔ ∀ name joined, Switch.level name joined ∉ switches := by
  rw [level?, List.getLast?_eq_none_iff, List.filterMap_eq_nil_iff]
  constructor
  · intro h name joined hm
    cases h _ hm
  · intro h w hw
    cases w with
    | printResult => rfl
    | level name joined => exact absurd hw (h name joined)

theorem mem_levelChoices_of_level? {switches : List Switch} {t : Text}
    (h : level? switches = some t) : t ∈ levelChoices := by
  obtain ⟨w, -, hw⟩ := List.mem_filterMap.1 (List.mem_of_getLast? h)
  cases w with
  | printResult => cases hw
  | level name joined =>
    cases hw
    exact name.2

theorem foldl_choose (switches : List Switch) (c : Choices) :
    switches.foldl Switch.choose c =
      { c with
        printResult := c.printResult || decide (.printResult ∈ switches)
        level := ((level? switches).map .text).or c.level } := by
  induction switches generalizing c with
  | nil => simp [level?]
  | cons w switches ih =>
    rw [List.foldl_cons, ih, level?_cons]
    cases w with
    | printResult => simp [Switch.choose, Switch.level?]
    | level name joined =>
      -- This level stands only if no other is named after it.
      cases level? switches <;> simp [Switch.choose, Switch.level?]

/-- A script given as text, and the switches after it. -/
def commandLine (script : Text) (switches : List Switch) : List Text :=
  (Flag.command.long ++ '=' :: script) :: switches.flatMap Switch.arguments

section CommandLine

variable {script : Text} (hs : script ≠ mark) (switches : List Switch)

include hs

theorem parse_commandLine :
    parse (commandLine script switches) =
      .ok ⟨none, some (.text script), decide (.printResult ∈ switches),
        (level? switches).map .text⟩ := by
  have hr := roles_cons (joined_ne_mark _ _) (roleOf_joined .command script)
    (roles_switches switches)
  have ht : Mention.take ⟨.command, false, some script⟩ (switches.flatMap Switch.roles) =
      .ok ⟨[(.command, .text script)], switches.flatMap Switch.roles⟩ := by
    simp only [Mention.take, Flag.takesValue, if_true, Operand.ofAttached, if_neg hs]
  rw [commandLine, parse, hr]
  simp only [takeAll_option ht rfl, takeAll_switches, foldl_choose]
  simp

theorem run_of_level {environment : Option Text} {l : Level}
    (h : Level.choose ((level? switches).map .text) environment = .ok l) (input : List UInt8)
    (folder : Folder) :
    run (commandLine script switches) environment input folder =
      Order.perform ⟨.inline script, decide (.printResult ∈ switches), l.logsTraces⟩ script := by
  simp only [run, prepare, parse_commandLine hs, h, Choices.source, Order.finish]

theorem run_of_not_level {environment : Option Text} {n : NotLevel}
    (h : Level.choose ((level? switches).map .text) environment = .error n) (input : List UInt8)
    (folder : Folder) :
    run (commandLine script switches) environment input folder = ⟨.failed (.level n), [], []⟩ := by
  simp only [run, prepare, parse_commandLine hs, h]

end CommandLine

/-- A level is named among the switches, or else the environment does not name one of the two
things of the logging facility that look like levels. -/
def Leveled (switches : List Switch) (environment : Option Text) : Prop :=
  (∃ name joined, .level name joined ∈ switches) ∨
    ∀ t, environment = some t →
      capitals t ≠ "BASIC_FORMAT".toList ∧ capitals t ≠ "_STYLES".toList

theorem exists_ofName {t : Text} (h : t ≠ "BASIC_FORMAT".toList ∧ t ≠ "_STYLES".toList) :
    ∃ l, Level.ofName t = .ok l :=
  ⟨_, (if_neg h.1).trans (if_neg h.2)⟩

theorem Leveled.exists_choose {switches : List Switch} {environment : Option Text}
    (h : Leveled switches environment) :
    ∃ l, Level.choose ((level? switches).map .text) environment = .ok l := by
  cases hl : level? switches with
  | some t =>
    have ho : ∀ t ∈ levelChoices, t ≠ "BASIC_FORMAT".toList ∧ t ≠ "_STYLES".toList := by decide
    exact exists_ofName (ho t (mem_levelChoices_of_level? hl))
  | none =>
    have hn := (level?_eq_none_iff switches).1 hl
    cases environment with
    | none => exact ⟨_, rfl⟩
    | some t =>
      exact exists_ofName ((h.resolve_left fun ⟨name, joined, hm⟩ ↦ hn name joined hm) t rfl)

theorem exists_choose_of_not_leveled {switches : List Switch} {environment : Option Text}
    (h : ¬ Leveled switches environment) :
    ∃ n, Level.choose ((level? switches).map .text) environment = .error n := by
  obtain ⟨hm, he⟩ := not_or.1 h
  have hl : level? switches = none :=
    (level?_eq_none_iff switches).2 fun name joined hw ↦ hm ⟨name, joined, hw⟩
  rw [hl, Option.map_none]
  obtain ⟨t, he⟩ := Classical.not_forall.1 he
  obtain ⟨rfl, ht⟩ := Classical.not_imp.1 he
  rw [Level.choose, Level.ofName]
  split
  · exact ⟨_, rfl⟩
  · next hb =>
    split
    · exact ⟨_, rfl⟩
    · next hs => exact absurd ⟨hb, hs⟩ ht

/-- A script given as text ends with status 0 if its run ends with a value, with status 1 if the run
ends with a complaint, which is then the last thing written to standard error. The output is what
the run shows on the console, and the value at the end if it is asked for. Level and environment
change none of this, unless no level is named and the environment names something that is none. -/
theorem run_commandLine {script : Text} (hs : script ≠ mark) (switches : List Switch)
    (environment : Option Text) (input : List UInt8) (folder : Folder) :
    let o := run (commandLine script switches) environment input folder
    (Leveled switches environment →
        o.Reports (decide (.printResult ∈ switches)) (runScript script Context.standard) ∧
          ∀ switches' environment', Leveled switches' environment' →
            (.printResult ∈ switches' ↔ .printResult ∈ switches) →
            let o' := run (commandLine script switches') environment' input folder
            o'.ending = o.ending ∧ o'.output = o.output) ∧
      (¬ Leveled switches environment → ∃ n, o = ⟨.failed (.level n), [], []⟩) := by
  intro o
  have hr (switches : List Switch) (environment : Option Text) (h : Leveled switches environment) :
      (run (commandLine script switches) environment input folder).Reports
        (decide (.printResult ∈ switches)) (runScript script Context.standard) := by
    obtain ⟨l, hl⟩ := h.exists_choose
    rw [run_of_level hs switches hl]
    exact Order.reports_perform _ script
  constructor
  · intro h
    refine ⟨hr switches environment h, fun switches' environment' h' hp ↦ ?_⟩
    have hr' := hr switches' environment' h'
    simp only [hp] at hr'
    exact ⟨hr'.ending_eq (hr _ _ h), hr'.output_eq (hr _ _ h)⟩
  · intro h
    obtain ⟨n, hn⟩ := exists_choose_of_not_leveled h
    exact ⟨n, run_of_not_level hs switches hn input folder⟩

/-- A script that fails after it has shown something, with and without its traces being logged. -/
theorem run_commandLine_at_two_levels :
    let script : Text := "1をコンソールに表示\nb".toList
    let styles : Option Text := some "_styles".toList
    let details : List Switch := [.level ⟨"DEBUG".toList, by decide⟩ false, .printResult]
    let o := run (commandLine script details) styles [] ⟨[]⟩
    let o' := run (commandLine script [.printResult]) none [] ⟨[]⟩
    script ≠ mark ∧ Leveled details styles ∧ Leveled [.printResult] none ∧
      ¬ Leveled [.printResult] styles ∧ o.ending = .exit 1 ∧ o.output = "1\n".toList ∧
      (∃ before, o.errorOutput = before ++ "構文エラー : b : 2行目くらい\n".toList) ∧
      o'.ending = o.ending ∧ o'.output = o.output := by
  intro script styles details o o'
  have hs : script ≠ mark := by decide
  have hd : Leveled details styles := .inl ⟨_, _, List.mem_cons_self⟩
  have hn : Leveled [.printResult] none := .inr nofun
  have hu : ¬ Leveled [.printResult] styles := by
    rintro (⟨name, joined, hm⟩ | h)
    · cases List.mem_singleton.1 hm
    · exact absurd (h _ rfl) (by decide)
  obtain ⟨hr, hc⟩ := (run_commandLine hs details styles [] ⟨[]⟩).1 hd
  let e : Fault := .complaint (.malformed ['b']) (some 2) (some 2)
  have he : Run.fault? (runScript script Context.standard) = some e := by decide +kernel
  have ho := hr.output
  have hv : (Value.lines ((Run.context (runScript script Context.standard)).journal.toList.filterMap
      Effect.console? ++ (Run.value? (runScript script Context.standard)).toList)).toOption =
      some "1\n".toList := by decide +kernel
  rw [decide_eq_true (by decide), if_pos rfl] at ho
  rw [ho] at hv
  have hm : e.message ++ ['\n'] = "構文エラー : b : 2行目くらい\n".toList := by decide +kernel
  have hl := hr.errorOutput e _ he rfl
  rw [hm] at hl
  exact ⟨hs, hd, hn, hu, hr.exit_one.2 ⟨e, _, he, rfl⟩, Option.some.inj hv, hl,
    hc [.printResult] none hn (by decide)⟩

/-- A script that is a number has its value, but the command fails, since the environment names the
layout of the log. -/
theorem run_fails_at_layout :
    let o := run (commandLine ['1'] []) (some "BASIC_FORMAT".toList) [] ⟨[]⟩
    (∃ v, Run.value? (runScript ['1'] Context.standard) = some v) ∧ o.ending ≠ .exit 0 ∧
      o.ending ≠ (run (commandLine ['1'] []) none [] ⟨[]⟩).ending := by
  intro o
  have hs : (['1'] : Text) ≠ mark := by decide
  have hv : Run.value? (runScript ['1'] Context.standard) = some (.integer 1) := by decide +kernel
  have ho : o = ⟨.failed (.level .layout), [], []⟩ := run_of_not_level hs [] rfl _ _
  have hl : Level.choose ((level? []).map .text) none = .ok Level.warning := rfl
  have hn := run_of_level hs [] hl [] ⟨[]⟩
  have hr := Order.reports_perform ⟨.inline ['1'], false, false⟩ ['1']
  refine ⟨⟨_, hv⟩, by rw [ho]; exact nofun, ?_⟩
  have he : (run (commandLine ['1'] []) none [] ⟨[]⟩).ending = .exit 0 := by
    rw [hn]
    exact hr.exit_zero.2 ⟨_, hv⟩
  rw [ho, he]
  exact nofun

end Command

end Kotoba
