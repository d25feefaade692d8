import Kotoba.Pattern

/-!
A cursor reads tokens one by one, by lines or by patterns, and can return to positions saved
before.
-/

namespace Kotoba

namespace Token

def dropDelimiters (ts : List Token) : List Token := ts.dropWhile fun t ↦ t.isA .delimiter

def trim (ts : List Token) : List Token :=
  (dropDelimiters (dropDelimiters ts).reverse).reverse

def allDelimiters (ts : List Token) : Bool := ts.all fun t ↦ t.isA .delimiter

theorem append_dropDelimiters (ts : List Token) :
    ∃ us, ts = us ++ dropDelimiters ts :=
  ⟨ts.takeWhile fun t ↦ t.isA .delimiter, (List.takeWhile_append_dropWhile).symm⟩

/-- Trimming cuts something off both ends and leaves the middle. -/
theorem append_trim (ts : List Token) : ∃ us vs, ts = us ++ trim ts ++ vs := by
  obtain ⟨us, hu⟩ := append_dropDelimiters ts
  obtain ⟨vs, hv⟩ := append_dropDelimiters (dropDelimiters ts).reverse
  refine ⟨us, vs.reverse, ?_⟩
  have hv := congrArg List.reverse hv
  rw [List.reverse_reverse, List.reverse_append] at hv
  rw [List.append_assoc, trim, ← hv, ← hu]

theorem width_trim_le (ts : List Token) : width (trim ts) ≤ width ts := by
  obtain ⟨us, vs, h⟩ := append_trim ts
  have := congrArg width h
  simp only [width_append] at this
  omega

end Token

structure Cursor where
  tokens : List Token
  index : Nat
  /-- Positions to return to, the last one saved first. -/
  saved : List Nat
deriving DecidableEq, Repr

namespace Cursor

def ofTokens (ts : List Token) : Cursor := ⟨ts, 0, []⟩

@[simp]
theorem tokens_ofTokens (ts : List Token) : (ofTokens ts).tokens = ts := rfl

def size (c : Cursor) : Nat := c.tokens.length

def rest (c : Cursor) : List Token := c.tokens.drop c.index

def isEnd (c : Cursor) : Bool := c.size ≤ c.index

/-- Nothing is left, or there was nothing but delimiters in the first place. -/
def isBlank (c : Cursor) : Bool := c.isEnd || Token.allDelimiters c.tokens

def firstLine? (c : Cursor) : Option Int := Token.firstLine? c.tokens

def lastLine? (c : Cursor) : Option Int := Token.lastLine? c.tokens

def position (c : Cursor) : Text := positionText c.firstLine? c.lastLine?

/-- Drops the delimiters at both ends. The position keeps its token where it can; saved positions
stay the numbers they were. -/
def trim (c : Cursor) : Cursor :=
  let ts := Token.trim c.tokens
  let dropped := c.size - (Token.dropDelimiters c.tokens).length
  ⟨ts, min (c.index - dropped) ts.length, c.saved⟩

def save (c : Cursor) : Cursor := { c with saved := c.index :: c.saved }

def restore (c : Cursor) : Except Fault Cursor :=
  match c.saved with
  | [] => .error .nothingSaved
  | i :: is => .ok { c with index := i, saved := is }

def commit (c : Cursor) : Cursor := { c with saved := [] }

def peekToken? (c : Cursor) : Option Token := c.tokens[c.index]?

def peekLast? (c : Cursor) : Option Token := c.tokens.getLast?

def readToken (c : Cursor) : Option Token × Cursor :=
  match c.peekToken? with
  | none => (none, c)
  | some t => (some t, { c with index := c.index + 1 })

def peekLine? (c : Cursor) : Except Fault (Option (List Token)) :=
  if c.isEnd then .ok none else (Kotoba.readLine [] c.rest).map fun p ↦ some p.1

/-- Reads the line at the cursor. A line that cannot be read is passed over to the end. -/
def readLine (c : Cursor) : Except Fault (Option (List Token)) × Cursor :=
  match c.peekLine? with
  | .error e => (.error e, { c with index := c.size })
  | .ok none => (.ok none, c)
  | .ok (some line) => (.ok (some line), { c with index := c.index + line.length })

def readRest (c : Cursor) : List Token × Cursor := (c.rest, { c with index := c.size })

/-- Reads a token and the enclosure it opens, or nothing at the end. -/
def readEnclosure (c : Cursor) : Except Fault (Option (List Token)) × Cursor :=
  match c.readToken with
  | (none, c) => (.ok none, c)
  | (some t, c) =>
    match Kotoba.readEnclosure t c.rest with
    | .ok (ts, rest) => (.ok (some ts), { c with index := c.size - rest.length })
    | .error e => (.error e, if Frame.opened? t = none then c else { c with index := c.size })

/-- Matches a pattern at the cursor. A match moves past it and forgets the saved positions;
otherwise the cursor stays as it is. -/
def matchPattern (c : Cursor) (p : Pattern) : Except Fault (Option (List (List Token))) × Cursor :=
  match p.run c.rest with
  | .error e => (.error e, c)
  | .ok none => (.ok none, c)
  | .ok (some m) =>
    (.ok (some m.captures), ⟨c.tokens, if p = [] then c.index else c.size - m.rest.length, []⟩)

def describe (c : Cursor) : Text :=
  "Code(".toList ++ (Token.spaced c.tokens).escaped ++ ", index=".toList ++ Text.ofNat c.index ++
    [')']

end Cursor

end Kotoba
