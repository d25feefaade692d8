import Kotoba.Fault

/-!
Enclosures: quotations, blocks and conditionals, read token by token with a stack of the ones
still open. A quotation hides all words but its closing mark. A conditional waits for its
`ならば` and then runs to the end of its statement, so running out of tokens closes it; running out
of tokens inside any other enclosure is a fault at the token that opened it.
-/

namespace Kotoba

/-- What an open enclosure waits for. A conditional is first a `condition`, then a `branch`. -/
inductive Waiting where
  | quotation
  | block
  | condition
  | branch
deriving DecidableEq, Repr

/-- An open enclosure, with the line of its opening word. -/
structure Frame where
  waiting : Waiting
  line : Int
deriving DecidableEq, Repr

namespace Frame

def opened? (t : Token) : Option Frame :=
  if t.isA .quoteOpen then some ⟨.quotation, t.line⟩
  else if t.isA .blockOpen then some ⟨.block, t.line⟩
  else if t.isA .ifMark then some ⟨.condition, t.line⟩
  else none

/-- The open enclosures, innermost first, after one more token. -/
def step : List Frame → Token → List Frame
  | [], t => (opened? t).toList
  | f :: fs, t =>
    if f.waiting = .quotation then if t.isA .quoteClose then fs else f :: fs
    else
      match opened? t with
      | some g => g :: f :: fs
      | none =>
        match f.waiting with
        | .quotation => f :: fs
        | .block => if t.isA .blockClose then fs else f :: fs
        | .condition => if t.isA .thenMark then ⟨.branch, f.line⟩ :: fs else f :: fs
        | .branch => if t.isA .delimiter then fs else f :: fs

/-- The class of words that would end or continue an enclosure, unless the end of input may. -/
def missing? (f : Frame) : Option WordClass :=
  match f.waiting with
  | .quotation => some .quoteClose
  | .block => some .blockClose
  | .condition => some .thenMark
  | .branch => none

/-- The fault of running out of tokens with these enclosures open. -/
def fault? (fs : List Frame) : Option Fault :=
  fs.findSome? fun f ↦ f.missing?.map fun k ↦ .complaint (.unclosed k) (some f.line) none

end Frame

/-- Reads on until all enclosures are closed: the tokens read, and the rest. -/
def readClosed : List Frame → List Token → Except Fault (List Token × List Token)
  | [], ts => .ok ([], ts)
  | f :: fs, [] =>
    match Frame.fault? (f :: fs) with
    | some e => .error e
    | none => .ok ([], [])
  | f :: fs, t :: ts => (readClosed (Frame.step (f :: fs) t) ts).map fun p ↦ (t :: p.1, p.2)

/-- Reads the enclosure that `start` opens. -/
def readEnclosure (start : Token) (ts : List Token) : Except Fault (List Token × List Token) :=
  match Frame.opened? start with
  | none => .error (.notOpener start.text)
  | some f => (readClosed [f] ts).map fun p ↦ (start :: p.1, p.2)

/-- Reads up to the first word of `words` outside all enclosures: what stands before it and what
after it, or nothing if there is none. A word that opens an enclosure is never found. -/
def readUntil (words : List Text) :
    List Frame → List Token → Except Fault (Option (List Token × List Token))
  | fs, [] =>
    match Frame.fault? fs with
    | some e => .error e
    | none => .ok none
  | fs, t :: ts =>
    if fs = [] ∧ Frame.opened? t = none ∧ words.contains t.text then .ok (some ([], ts))
    else (readUntil words (Frame.step fs t) ts).map fun r ↦ r.map fun p ↦ (t :: p.1, p.2)

/-- Reads one line, through its delimiter. The delimiter that ends a conditional ends the line too,
unless an alternative follows. -/
def readLine : List Frame → List Token → Except Fault (List Token × List Token)
  | fs, [] =>
    match Frame.fault? fs with
    | some e => .error e
    | none => .ok ([], [])
  | fs, t :: ts =>
    let gs := Frame.step fs t
    if gs = [] ∧ t.isA .delimiter ∧ (fs = [] ∨ ¬ ts.head?.any (·.isA .elseMark)) then .ok ([t], ts)
    else (readLine gs ts).map fun p ↦ (t :: p.1, p.2)

theorem append_of_readUntil {words : List Text} {fs : List Frame} {ts before after : List Token}
    (h : readUntil words fs ts = .ok (some (before, after))) :
    ∃ t, t.text ∈ words ∧ ts = before ++ t :: after := by
  induction ts generalizing fs before with
  | nil =>
    unfold readUntil at h
    split at h <;> simp at h
  | cons t ts ih =>
    unfold readUntil at h
    split at h
    · next hw =>
      simp only [Except.ok.injEq, Option.some.injEq, Prod.mk.injEq] at h
      obtain ⟨rfl, rfl⟩ := h
      exact ⟨t, by simpa using hw.2.2, rfl⟩
    · match hr : readUntil words (Frame.step fs t) ts with
      | .error e => simp [hr, Except.map] at h
      | .ok none => simp [hr, Except.map] at h
      | .ok (some (b, a)) =>
        simp only [hr, Except.map, Option.map_some, Except.ok.injEq, Option.some.injEq,
          Prod.mk.injEq] at h
        obtain ⟨rfl, rfl⟩ := h
        obtain ⟨w, hw, rfl⟩ := ih hr
        exact ⟨w, hw, rfl⟩

/-- A line is what was read: nothing is lost. -/
theorem append_of_readLine {fs : List Frame} {ts line rest : List Token}
    (h : readLine fs ts = .ok (line, rest)) : ts = line ++ rest := by
  induction ts generalizing fs line with
  | nil =>
    unfold readLine at h
    split at h <;> simp at h
    simp [h]
  | cons t ts ih =>
    unfold readLine at h
    simp only at h
    split at h
    · simp only [Except.ok.injEq, Prod.mk.injEq] at h
      obtain ⟨rfl, rfl⟩ := h
      rfl
    · match hr : readLine (Frame.step fs t) ts with
      | .error e => simp [hr, Except.map] at h
      | .ok (l, r) =>
        simp only [hr, Except.map, Except.ok.injEq, Prod.mk.injEq] at h
        obtain ⟨rfl, rfl⟩ := h
        rw [List.cons_append, ← ih hr]

theorem ne_nil_of_readLine {fs : List Frame} {t : Token} {ts line rest : List Token}
    (h : readLine fs (t :: ts) = .ok (line, rest)) : line ≠ [] := by
  unfold readLine at h
  simp only at h
  split at h
  · simp only [Except.ok.injEq, Prod.mk.injEq] at h
    simp [← h.1]
  · match hr : readLine (Frame.step fs t) ts with
    | .error e => simp [hr, Except.map] at h
    | .ok (l, r) =>
      simp only [hr, Except.map, Except.ok.injEq, Prod.mk.injEq] at h
      simp [← h.1]

/-- The lines of a stretch of tokens, and the fault of reading the one after them, if any. -/
def readLines (ts : List Token) : List (List Token) × Option Fault :=
  match ts with
  | [] => ([], none)
  | t :: ts =>
    match _h : readLine [] (t :: ts) with
    | .error e => ([], some e)
    | .ok (line, rest) =>
      let r := readLines rest
      (line :: r.1, r.2)
termination_by ts.length
decreasing_by
  have h := congrArg List.length (append_of_readLine _h)
  have := List.length_pos_iff.2 (ne_nil_of_readLine _h)
  simp only [List.length_append, List.length_cons] at h ⊢
  omega

end Kotoba
