import Kotoba.Command.Usage
import Kotoba.Text.Digit

/-!
The arguments of the command. Each argument is first told apart: an option, a value, or the mark
after which there are only values. Then they are taken in order; the first value left over is the
script.
-/

namespace Kotoba.Command

/-- An option as it is spelled in an argument. -/
structure Mention where
  flag : Flag
  /-- Spelled with one dash. -/
  short : Bool
  /-- Text in the same argument. -/
  attached : Option Text
deriving DecidableEq, Repr

inductive Role where
  | value
  /-- Two dashes: only values follow. -/
  | mark
  | option (m : Mention)
  | unknown
deriving DecidableEq, Repr

/-- A dash and digits, with or without a point before the last of them. A newline may follow. -/
def isNegativeNumber : Text → Bool
  | '-' :: t =>
    let t : Text := if t.getLast? = some '\n' then t.dropLast else t
    let isNumber (ds : Text) : Bool := ds.all fun c ↦ (Text.anyDigit? c).isSome
    match t.breakOn ['.'] with
    | none => t ≠ [] && isNumber t
    | some (whole, fraction) => isNumber whole && fraction ≠ [] && isNumber fraction
  | _ => false

/-- The text before the first equals sign, and what is attached after it. -/
def splitEquals (t : Text) : Text × Option Text :=
  match t.breakOn ['='] with
  | none => (t, none)
  | some (before, after) => (before, some after)

/-- The options that an argument may mean: a long one by its beginning, a short one with a value
attached. -/
def candidates (argument : Text) : List Mention :=
  match argument with
  | '-' :: '-' :: _ =>
    let (start, attached) := splitEquals argument
    (Flag.all.filter fun f ↦ start.isPrefixOf f.long).map fun f ↦ ⟨f, false, attached⟩
  | _ =>
    (Flag.all.filter fun f ↦ f.short? = some (argument.take 2)).map fun f ↦
      ⟨f, true, some (argument.drop 2)⟩

/-- An argument that has the exact spelling of an option, perhaps with a value after an equals
sign. -/
def spelled? (argument : Text) : Option Mention :=
  let mention (start : Text) (attached : Option Text) : Option Mention :=
    (Flag.ofSpelling? start).map fun f ↦ ⟨f, f.short? = some start, attached⟩
  match mention argument none with
  | some m => some m
  | none =>
    match splitEquals argument with
    | (_, none) => none
    | (start, attached) => mention start attached

/-- Tells an argument apart, by itself. -/
def roleOf (argument : Text) : Except Misuse Role :=
  if argument.head? ≠ some '-' then .ok .value
  else
    match spelled? argument with
    | some m => .ok (.option m)
    | none =>
      if argument.length = 1 then .ok .value
      else
        match candidates argument with
        | [m] => .ok (.option m)
        | [] =>
          if isNegativeNumber argument || argument.contains ' ' then .ok .value else .ok .unknown
        | ms => .error (.ambiguous argument (ms.map fun m ↦ m.flag.long))

def roles : List Text → Except Misuse (List (Text × Role))
  | [] => .ok []
  | a :: rest =>
    if a = mark then .ok ((a, .mark) :: rest.map fun b ↦ (b, .value))
    else
      match roleOf a, roles rest with
      | .error e, _ => .error e
      | .ok _, .error e => .error e
      | .ok r, .ok rs => .ok ((a, r) :: rs)

structure Choices where
  script : Option Text
  command : Option Operand
  printResult : Bool
  /-- What replaces the default level. -/
  level : Option Operand
deriving DecidableEq, Repr

/-- Why the arguments are not followed by a run. -/
inductive Stop where
  | help
  | misuse (m : Misuse)
deriving DecidableEq, Repr

/-- Follows an option with what it is given. Only a text is held against the choices. -/
def Choices.follow (c : Choices) : Flag × Operand → Except Stop Choices
  | (.help, _) => .error .help
  | (.command, v) => .ok { c with command := some v }
  | (.printResult, _) => .ok { c with printResult := true }
  | (.logLevel, .nothing) => .ok { c with level := some .nothing }
  | (.logLevel, .text v) =>
    if levelChoices.contains v then .ok { c with level := some (.text v) }
    else .error (.misuse (.badChoice .logLevel v))

/-- Options with what they are given, and the arguments still to be taken. -/
structure Taken where
  followed : List (Flag × Operand)
  rest : List (Text × Role)
deriving DecidableEq, Repr

/-- The option with the value that follows in an argument of its own. -/
def takeValue (f : Flag) : List (Text × Role) → Except Misuse Taken
  | (v, .value) :: rest => .ok ⟨[(f, .text v)], rest⟩
  | _ => .error (.noValue f)

def Taken.push (f : Flag) (t : Taken) : Taken :=
  { t with followed := (f, .nothing) :: t.followed }

/-- Takes the letters after a short option without a value, which are short options again. -/
def takeLetters (rest : List (Text × Role)) (f : Flag) : Text → Except Misuse Taken
  | [] => .ok ⟨[(f, .nothing)], rest⟩
  | c :: cs =>
    match Flag.ofSpelling? ['-', c] with
    | none => .error (.strayValue f (c :: cs))
    | some g =>
      if !g.takesValue then (takeLetters rest g cs).map (Taken.push f)
      else if cs = [] then (takeValue g rest).map (Taken.push f)
      else .ok ⟨[(f, .nothing), (g, .ofAttached cs)], rest⟩

/-- Takes the options that a mention stands for. -/
def Mention.take (m : Mention) (rest : List (Text × Role)) : Except Misuse Taken :=
  match m.attached with
  | none => if m.flag.takesValue then takeValue m.flag rest else .ok ⟨[(m.flag, .nothing)], rest⟩
  | some v =>
    if m.flag.takesValue then .ok ⟨[(m.flag, .ofAttached v)], rest⟩
    else if m.short && v ≠ [] then takeLetters rest m.flag v
    else .error (.strayValue m.flag v)

/-- Follows options in order, up to the first that ends it. -/
def Choices.followAll (c : Choices) : List (Flag × Operand) → Except Stop Choices
  | [] => .ok c
  | p :: ps =>
    match c.follow p with
    | .error e => .error e
    | .ok c => c.followAll ps

/-- Taking arguments: the choices so far, whether the script may still be named, and the arguments
that nobody takes. -/
structure Progress where
  choices : Choices
  named : Bool
  extras : List Text
deriving DecidableEq, Repr

def Progress.extra (p : Progress) (a : Text) : Progress := { p with extras := p.extras ++ [a] }

def Progress.name (p : Progress) (script : Option Text) : Progress :=
  { p with choices := { p.choices with script := script }, named := true }

theorem length_of_takeValue {f : Flag} {args : List (Text × Role)} {t : Taken}
    (h : takeValue f args = .ok t) : t.rest.length ≤ args.length := by
  unfold takeValue at h
  split at h
  · obtain rfl := Except.ok.inj h
    simp
  · simp at h

theorem length_of_push {f : Flag} {r : Except Misuse Taken} {t : Taken} {n : Nat}
    (hr : ∀ u, r = .ok u → u.rest.length ≤ n) (h : r.map (Taken.push f) = .ok t) :
    t.rest.length ≤ n := by
  cases r with
  | error e => simp [Except.map] at h
  | ok u =>
    obtain rfl := Except.ok.inj h
    exact hr u rfl

theorem length_of_takeLetters {rest : List (Text × Role)} {f : Flag} {letters : Text} {t : Taken}
    (h : takeLetters rest f letters = .ok t) : t.rest.length ≤ rest.length := by
  induction letters generalizing f t with
  | nil =>
    obtain rfl := Except.ok.inj h
    exact Nat.le_refl _
  | cons c cs ih =>
    unfold takeLetters at h
    split at h
    · simp at h
    · split at h
      · exact length_of_push (fun _ ↦ ih) h
      · split at h
        · exact length_of_push (fun _ ↦ length_of_takeValue) h
        · obtain rfl := Except.ok.inj h
          exact Nat.le_refl _

/-- Taking an option leaves no more arguments than follow it. -/
theorem Mention.length_of_take {m : Mention} {rest : List (Text × Role)} {t : Taken}
    (h : m.take rest = .ok t) : t.rest.length ≤ rest.length := by
  unfold Mention.take at h
  split at h
  · split at h
    · exact length_of_takeValue h
    · obtain rfl := Except.ok.inj h
      exact Nat.le_refl _
  · split at h
    · obtain rfl := Except.ok.inj h
      exact Nat.le_refl _
    · split at h
      · exact length_of_takeLetters h
      · simp at h

/-- Takes arguments in order. A mark next to the value that names the script belongs to it. -/
def takeAll (p : Progress) (args : List (Text × Role)) : Except Stop Progress :=
  match args with
  | [] => .ok p
  | (a, .unknown) :: rest => takeAll (p.extra a) rest
  | (a, .value) :: rest =>
    if p.named then takeAll (p.extra a) rest
    else
      match rest with
      | (_, .mark) :: rest => takeAll (p.name (some a)) rest
      | rest => takeAll (p.name (some a)) rest
  | (a, .mark) :: rest =>
    if p.named then takeAll (p.extra a) rest
    else
      match rest with
      | (b, .value) :: rest => takeAll (p.name (some b)) rest
      | rest => takeAll (p.name none) rest
  | (_, .option m) :: rest =>
    match _h : m.take rest with
    | .error e => .error (.misuse e)
    | .ok t =>
      match p.choices.followAll t.followed with
      | .error e => .error e
      | .ok c => takeAll { p with choices := c } t.rest
termination_by args.length
decreasing_by
  all_goals simp only [List.length_cons]
  all_goals try have := Mention.length_of_take _h
  all_goals omega

def parse (argv : List Text) : Except Stop Choices :=
  match roles argv with
  | .error e => .error (.misuse e)
  | .ok args =>
    match takeAll ⟨⟨none, none, false, none⟩, false, []⟩ args with
    | .error e => .error e
    | .ok p => if p.extras = [] then .ok p.choices else .error (.misuse (.unrecognized p.extras))

end Kotoba.Command
