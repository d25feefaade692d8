import Kotoba.Cursor

/-!
Reading with a cursor that moves. Each token read moves the position, and a fault leaves it where
the tokens ran out, however many enclosures were open. Whoever reads only to look, or for a pattern
that may not be there, saves the position first and restores it on every way out but a match. So the
cursor is as it was, with all positions saved before, and a match is the only way on which what is
done with its captures is begun.
-/

namespace Kotoba

namespace Cursor

variable {c d : Cursor} {t : Token} {ts : List Token}

def seek (c : Cursor) (i : Nat) : Cursor := { c with index := i }

theorem seek_seek (c : Cursor) (n : Nat) :
    (c.seek (c.index + 1)).seek ((c.seek (c.index + 1)).index + n) =
      c.seek (c.index + (n + 1)) := by
  show c.seek (c.index + 1 + n) = _
  rw [Nat.add_assoc, Nat.add_comm 1 n]

theorem rest_save (c : Cursor) : c.save.rest = c.rest := rfl

theorem restore_seek_save (c : Cursor) (i : Nat) : (c.save.seek i).restore = .ok c := rfl

theorem length_rest (c : Cursor) : c.rest.length = c.size - c.index := List.length_drop

theorem rest_seek (before : List Token) (h : c.rest = before ++ ts) :
    (c.seek (c.index + before.length)).rest = ts := by
  show c.tokens.drop (c.index + before.length) = ts
  rw [← List.drop_drop]
  exact (congrArg (List.drop before.length) h).trans List.drop_left

theorem rest_seek_of_cons (h : c.rest = t :: ts) : (c.seek (c.index + 1)).rest = ts :=
  rest_seek [t] h

theorem rest_seek_word (before : List Token) (h : c.rest = before ++ t :: ts) :
    (c.seek (c.index + (before.length + 1))).rest = ts ∧
      c.index + (before.length + 1) ≤ c.size := by
  constructor
  · have hr := rest_seek (before ++ [t]) (h.trans (List.append_cons before t ts))
    rwa [List.length_append] at hr
  · have hl := congrArg List.length h
    rw [c.length_rest, List.length_append, List.length_cons] at hl
    omega

theorem peekToken?_eq (c : Cursor) : c.peekToken? = c.rest.head? := List.head?_drop.symm

theorem readToken_of_nil (h : c.rest = []) : c.readToken = (none, c) := by
  rw [readToken, peekToken?_eq, h]
  rfl

theorem readToken_of_cons (h : c.rest = t :: ts) :
    c.readToken = (some t, c.seek (c.index + 1)) := by
  rw [readToken, peekToken?_eq, h]
  rfl

theorem length_rest_of_readToken (h : c.readToken = (some t, d)) :
    d.rest.length < c.rest.length := by
  cases hr : c.rest with
  | nil => simp [readToken_of_nil hr] at h
  | cons u us =>
    rw [readToken_of_cons hr] at h
    cases h
    rw [rest_seek_of_cons hr]
    exact Nat.lt_succ_self _

end Cursor

abbrev Reading := EStateM Fault Cursor

namespace Reading

variable {α : Type}

def next : Reading (Option Token) := fun c ↦ .ok c.readToken.1 c.readToken.2

def remainder : Reading (List Token) := fun c ↦ .ok c.readRest.1 c.readRest.2

def save : Reading Unit := fun c ↦ .ok () c.save

def restore : Reading Unit := fun c ↦
  match c.restore with
  | .ok d => .ok () d
  | .error e => .error e c

def commit : Reading Unit := fun c ↦ .ok () c.commit

/-- Reads on to look what is there, and goes back. -/
def ahead (r : Reading α) : Reading α := do
  save
  try r finally restore

def peek : Reading (Option Token) := ahead next

def finish (fs : List Frame) (a : α) : Reading α :=
  match Frame.fault? fs with
  | some e => throw e
  | none => pure a

def untilWord (words : List Text) (fs : List Frame) (c : Cursor) :
    EStateM.Result Fault Cursor (Option (List Token)) :=
  match _h : c.readToken with
  | (none, d) => finish fs none d
  | (some t, d) =>
    if fs = [] ∧ Frame.opened? t = none ∧ words.contains t.text then .ok (some []) d
    else
      match untilWord words (Frame.step fs t) d with
      | .ok taken e => .ok (taken.map (t :: ·)) e
      | .error fault e => .error fault e
termination_by c.rest.length
decreasing_by exact Cursor.length_rest_of_readToken _h

def push (t : Token) :
    EStateM.Result Fault Cursor (List Token) → EStateM.Result Fault Cursor (List Token)
  | .ok ts c => .ok (t :: ts) c
  | .error e c => .error e c

/-- Whether a delimiter after which nothing is open ends the line: one that closes a conditional
does so only if no alternative follows. -/
def endsLine (fs : List Frame) : Reading Bool :=
  if fs = [] then pure true else do return !(← peek).any (·.isA .elseMark)

section Ahead

variable {r : Reading α} {c : Cursor} {i : Nat}

theorem ahead_of_ok {a : α} (h : r c.save = .ok a (c.save.seek i)) : ahead r c = .ok a c := by
  show (tryFinally r restore : Reading α) c.save = .ok a c
  simp only [tryFinally, tryFinally', Functor.map, EStateM.map, h, restore,
    Cursor.restore_seek_save]

theorem ahead_of_error {e : Fault} (h : r c.save = .error e (c.save.seek i)) :
    ahead r c = .error e c := by
  show (tryFinally r restore : Reading α) c.save = .error e c
  simp only [tryFinally, tryFinally', Functor.map, EStateM.map, h, restore,
    Cursor.restore_seek_save]

end Ahead

theorem peek_apply (c : Cursor) : peek c = .ok c.peekToken? c := by
  have hn : ∃ i, next c.save = .ok c.peekToken? (c.save.seek i) := by
    rw [Cursor.peekToken?_eq, ← c.rest_save]
    unfold next
    cases hr : c.save.rest with
    | nil => exact ⟨c.index, by rw [Cursor.readToken_of_nil hr]; rfl⟩
    | cons t ts => exact ⟨_, by rw [Cursor.readToken_of_cons hr]; rfl⟩
  obtain ⟨i, hn⟩ := hn
  exact ahead_of_ok hn

theorem endsLine_apply (fs : List Frame) (c : Cursor) :
    endsLine fs c = .ok (decide (fs = [] ∨ ¬ c.rest.head?.any (·.isA .elseMark) = true)) c := by
  unfold endsLine
  by_cases hf : fs = []
  · simp only [hf, if_true, true_or, decide_true]
    rfl
  · rw [if_neg hf]
    simp only [bind, EStateM.bind, peek_apply, Cursor.peekToken?_eq]
    show EStateM.Result.ok _ c = _
    simp [hf]

def restOfLine (fs : List Frame) (c : Cursor) : EStateM.Result Fault Cursor (List Token) :=
  match _h : c.readToken with
  | (none, d) => finish fs [] d
  | (some t, d) =>
    let gs := Frame.step fs t
    if gs = [] ∧ t.isA .delimiter then
      match _he : endsLine fs d with
      | .ok true d => .ok [t] d
      | .ok false d => push t (restOfLine gs d)
      | .error e d => .error e d
    else push t (restOfLine gs d)
termination_by c.rest.length
decreasing_by
  · rw [endsLine_apply, EStateM.Result.ok.injEq] at _he
    rw [← _he.2]
    exact Cursor.length_rest_of_readToken _h
  · exact Cursor.length_rest_of_readToken _h

def line : Reading (Option (List Token)) := do
  if (← get).isEnd then return none
  return some (← restOfLine [])

def peekLine : Reading (Option (List Token)) := ahead line

def steps : Pattern → Reading (Option (List Cursor))
  | [] => return some []
  | [.capture] => do return some [.ofTokens (← remainder)]
  | .capture :: .capture :: _ => throw .adjacentCaptures
  | .capture :: .word words :: p => do
    match ← untilWord words [] with
    | none => return none
    | some taken => return (← steps p).map (.ofTokens taken :: ·)
  | .word words :: p => do
    match ← next with
    | none => return none
    | some t => if words.contains t.text then steps p else return none

/-- Reads a pattern and does something with its captures, or goes back if it is not there. -/
def matchThen (p : Pattern) (act : List Cursor → Reading α) : Reading (Option α) := do
  save
  let (found, _) ← tryFinally'
    (do
      let found ← steps p
      if found.isSome then commit
      return found)
    fun found ↦ if found.join.isSome then pure () else restore
  match found with
  | none => return none
  | some captures => return some (← act captures)

theorem finish_apply (fs : List Frame) (a : α) (c : Cursor) :
    finish fs a c = match Frame.fault? fs with
      | some e => .error e c
      | none => .ok a c := by
  unfold finish
  cases Frame.fault? fs <;> rfl

/-- A search moves behind the word that it finds, or to the end. -/
theorem untilWord_apply (words : List Text) (fs : List Frame) (c : Cursor) :
    untilWord words fs c = match readUntil words fs c.rest with
      | .error e => .error e (c.seek (c.index + c.rest.length))
      | .ok none => .ok none (c.seek (c.index + c.rest.length))
      | .ok (some (taken, _)) => .ok (some taken) (c.seek (c.index + (taken.length + 1))) := by
  induction hr : c.rest generalizing fs c with
  | nil =>
    rw [untilWord, readUntil]
    split
    · next h =>
      rw [Cursor.readToken_of_nil hr] at h
      cases h
      rw [finish_apply]
      cases Frame.fault? fs <;> rfl
    · next h => simp [Cursor.readToken_of_nil hr] at h
  | cons t ts ih =>
    rw [untilWord, readUntil]
    split
    · next h => simp [Cursor.readToken_of_cons hr] at h
    · next h =>
      rw [Cursor.readToken_of_cons hr] at h
      cases h
      split
      · rfl
      · rw [ih _ _ (Cursor.rest_seek_of_cons hr)]
        cases readUntil words (Frame.step fs t) ts with
        | error e => simp only [Cursor.seek_seek]; rfl
        | ok o => cases o <;> simp only [Cursor.seek_seek] <;> rfl

/-- A line is passed over whole, and one that cannot be read to the end. -/
theorem restOfLine_apply (fs : List Frame) (c : Cursor) :
    restOfLine fs c = match readLine fs c.rest with
      | .error e => .error e (c.seek (c.index + c.rest.length))
      | .ok (line, _) => .ok line (c.seek (c.index + line.length)) := by
  induction hr : c.rest generalizing fs c with
  | nil =>
    rw [restOfLine, readLine]
    split
    · next h =>
      rw [Cursor.readToken_of_nil hr] at h
      cases h
      rw [finish_apply]
      cases Frame.fault? fs <;> rfl
    · next h => simp [Cursor.readToken_of_nil hr] at h
  | cons t ts ih =>
    rw [restOfLine, readLine]
    split
    · next h => simp [Cursor.readToken_of_cons hr] at h
    · next h =>
      rw [Cursor.readToken_of_cons hr] at h
      cases h
      have hts := Cursor.rest_seek_of_cons hr
      have hp : push t (restOfLine (Frame.step fs t) (c.seek (c.index + 1))) =
          match (readLine (Frame.step fs t) ts).map fun p ↦ (t :: p.1, p.2) with
          | .error e => .error e (c.seek (c.index + (t :: ts).length))
          | .ok (line, _) => .ok line (c.seek (c.index + line.length)) := by
        rw [ih _ _ hts]
        cases readLine (Frame.step fs t) ts <;> simp only [Cursor.seek_seek] <;> rfl
      dsimp only
      split
      · next hd =>
        split
        · next h =>
          rw [endsLine_apply, EStateM.Result.ok.injEq, hts] at h
          rw [if_pos ⟨hd.1, hd.2, by simpa using h.1⟩, ← h.2]
          rfl
        · next h =>
          rw [endsLine_apply, EStateM.Result.ok.injEq, hts] at h
          rw [if_neg (by simpa [hd] using h.1), ← h.2]
          exact hp
        · next h =>
          rw [endsLine_apply] at h
          cases h
      · next hd =>
        rw [if_neg fun hc ↦ hd ⟨hc.1, hc.2.1⟩]
        exact hp

def ofPair : Except Fault α × Cursor → EStateM.Result Fault Cursor α
  | (.ok a, c) => .ok a c
  | (.error e, c) => .error e c

theorem line_apply (c : Cursor) : line c = ofPair c.readLine := by
  show (if c.isEnd then pure none else some <$> restOfLine [] : Reading (Option (List Token))) c = _
  unfold Cursor.readLine Cursor.peekLine?
  by_cases he : c.isEnd = true
  · rw [if_pos he, if_pos he]
    rfl
  · rw [if_neg he, if_neg he]
    simp only [Functor.map, EStateM.map, restOfLine_apply]
    cases readLine [] c.rest with
    | error e =>
      have hi : c.index + c.rest.length = c.size := by
        have hl : c.index < c.size := Nat.lt_of_not_le fun hl ↦ he (decide_eq_true hl)
        rw [c.length_rest]
        omega
      rw [hi]
      rfl
    | ok p => rfl

theorem index_of_run {p : Pattern} {c : Cursor} {m : Match} (hi : c.index ≤ c.size)
    (h : p.run c.rest = .ok (some m)) :
    (if p = [] then c.index else c.size - m.rest.length) = c.size - m.rest.length := by
  by_cases hp : p = []
  · subst hp
    rw [Pattern.run] at h
    cases h
    rw [if_pos rfl, c.length_rest]
    omega
  · rw [if_neg hp]

/-- The steps of a pattern are read with the tokens that are left, and move nothing but the
position. -/
theorem steps_apply (p : Pattern) (c : Cursor) :
    ∃ i, steps p c = match p.run c.rest with
      | .error e => .error e (c.seek i)
      | .ok none => .ok none (c.seek i)
      | .ok (some m) =>
        .ok (some (m.captures.map .ofTokens))
          (c.seek (if p = [] then c.index else c.size - m.rest.length)) := by
  generalize hr : c.rest = ts
  fun_induction Pattern.run p ts generalizing c with
  | case1 ts => exact ⟨c.index, rfl⟩
  | case2 ts =>
    subst hr
    exact ⟨c.index, rfl⟩
  | case3 => exact ⟨c.index, rfl⟩
  | case4 words p ts e hu =>
    have hw := untilWord_apply words [] c
    simp only [hr, hu] at hw
    refine ⟨c.index + ts.length, ?_⟩
    simp only [steps, bind, EStateM.bind, hw]
  | case5 words p ts hu =>
    have hw := untilWord_apply words [] c
    simp only [hr, hu] at hw
    refine ⟨c.index + ts.length, ?_⟩
    simp only [steps, bind, EStateM.bind, hw]
    rfl
  | case6 words p ts taken rest hu ih =>
    have hw := untilWord_apply words [] c
    simp only [hr, hu] at hw
    obtain ⟨w, -, hts⟩ := append_of_readUntil hu
    obtain ⟨hd, hi⟩ := Cursor.rest_seek_word taken (hr.trans hts)
    obtain ⟨i, hs⟩ := ih _ hd
    refine ⟨i, ?_⟩
    simp only [steps, bind, EStateM.bind, hw, hs]
    cases hm : Pattern.run p rest with
    | error e => rfl
    | ok o =>
      cases o with
      | none => rfl
      | some m =>
        simp only [index_of_run hi (hd ▸ hm)]
        rfl
  | case7 words p =>
    refine ⟨c.index, ?_⟩
    simp only [steps, bind, EStateM.bind, next, Cursor.readToken_of_nil hr]
    rfl
  | case8 words p t ts hw ih =>
    obtain ⟨hd, hi⟩ := Cursor.rest_seek_word [] hr
    obtain ⟨i, hs⟩ := ih _ hd
    refine ⟨i, ?_⟩
    simp only [steps, bind, EStateM.bind, next, Cursor.readToken_of_cons hr, hw]
    refine hs.trans ?_
    cases hm : Pattern.run p ts with
    | error e => rfl
    | ok o =>
      cases o with
      | none => rfl
      | some m =>
        simp only [index_of_run hi (hd ▸ hm)]
        rfl
  | case9 words p t ts hw =>
    refine ⟨c.index + 1, ?_⟩
    simp only [steps, bind, EStateM.bind, next, Cursor.readToken_of_cons hr, hw]
    rfl

theorem peekLine_apply (c : Cursor) :
    peekLine c = match c.peekLine? with
      | .error e => .error e c
      | .ok line => .ok line c := by
  have hl := line_apply c.save
  have hs : c.save.peekLine? = c.peekLine? := rfl
  rw [Cursor.readLine, hs] at hl
  unfold peekLine
  cases hp : c.peekLine? with
  | error e =>
    rw [hp] at hl
    exact ahead_of_error hl
  | ok o =>
    rw [hp] at hl
    cases o with
    | none => exact ahead_of_ok hl
    | some line => exact ahead_of_ok hl

theorem matchThen_apply (p : Pattern) (act : List Cursor → Reading α) (c : Cursor) :
    matchThen p act c = match (c.matchPattern p).1 with
      | .error e => .error e c
      | .ok none => .ok none c
      | .ok (some captures) =>
        (some <$> act (captures.map .ofTokens) : Reading (Option α)) (c.matchPattern p).2 := by
  obtain ⟨i, hs⟩ := steps_apply p c.save
  rw [Cursor.rest_save] at hs
  simp only [matchThen, bind, EStateM.bind, save, tryFinally', hs, Cursor.matchPattern]
  -- Going back is by `Cursor.restore_seek_save`, which the kernel sees by computing.
  cases p.run c.rest with
  | error e => rfl
  | ok o => cases o <;> rfl

/-- Looking at the next token or line leaves the cursor as it is, whether there is a fault or not,
and so does a pattern that is not there or cannot be read. Only a match moves on, and only then
anything is done with captures. -/
theorem cursor_restored (c : Cursor) (p : Pattern) (act : List Cursor → Reading α) :
    peek c = .ok c.peekToken? c ∧
      (peekLine c = match c.peekLine? with
        | .error e => .error e c
        | .ok line => .ok line c) ∧
      matchThen p act c = match (c.matchPattern p).1 with
        | .error e => .error e c
        | .ok none => .ok none c
        | .ok (some captures) =>
          (some <$> act (captures.map .ofTokens) : Reading (Option α)) (c.matchPattern p).2 :=
  ⟨peek_apply c, peekLine_apply c, matchThen_apply p act c⟩

end Reading

end Kotoba
