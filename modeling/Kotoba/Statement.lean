import Kotoba.Builtin
import Kotoba.Clause

/-!
Statements as trees, read from tokens with a table of functions. A statement that cannot be read
is a tree too: its fault comes out when the statement is run, not before.
-/

namespace Kotoba

/-- A statement, with the tokens it was read from. -/
inductive Statement where
  | missing (source : List Token)
  | refused (source : List Token) (fault : Fault)
  /-- The alternative of a conditional that has none. -/
  | skip
  | conditional (source : List Token) (condition consequent alternative : Statement)
  | repetition (source target : List Token) (count body : Statement)
  | binding (source name : List Token) (value : Statement)
  /-- Lines, and the fault of reading on after them. -/
  | block (source : List Token) (lines : List Statement) (ending : Option Fault)
  /-- A call with its arguments; it is incomplete if a particle lacks its noun. -/
  | call (source : List Token) (function : Builtin) (arguments : List (Text × Statement))
      (complete : Bool)
  | phrase (source : List Token)
deriving Repr

/-- The lines that say something. -/
def statedLines (ts : List Token) : List (List Token) :=
  (readLines ts).1.filter fun line ↦ !Token.allDelimiters line

theorem width_of_mem_readLines {ts line : List Token} (h : line ∈ (readLines ts).1) :
    Token.width line ≤ Token.width ts := by
  fun_induction readLines ts with
  | case1 => simp at h
  | case2 => simp at h
  | case3 t ts first rest hr r ih =>
    rw [append_of_readLine hr, Token.width_append]
    rcases List.mem_cons.1 h with rfl | h
    · omega
    · have := ih h
      omega

namespace Statement

/-- The tokens of a noun in a sentence, with lines counted from the sentence's first. -/
def nounTokens (source : List Token) (noun : Text) : List Token :=
  tokenize noun ((Token.firstLine? source).getD 1)

/-- A part of a clause holds fewer characters than the cursor it is read from. -/
theorem width_of_part {c : Cursor} {clause : Clause} {after part : List Token}
    (h : Clause.read c.trim.tokens c.trim.rest = .ok (clause, after))
    (hp : part ∈ clause.parts) : Token.width part < Token.width c.tokens := by
  have hr := congrArg Token.width (List.take_append_drop c.trim.index c.trim.tokens)
  rw [Token.width_append] at hr
  have hs : Token.width c.trim.tokens ≤ Token.width c.tokens := Token.width_trim_le c.tokens
  have hw := Clause.width_of_read h hp
  unfold Cursor.rest at hw
  omega

theorem width_of_noun {c : Cursor} {f : Builtin} {m : Marking} {a : Text × Text}
    (h : f.marking? (Token.render c.trim.tokens) = some m) (ha : a ∈ m.marked) :
    Token.width (nounTokens c.trim.tokens a.2) < Token.width c.tokens :=
  calc
    _ ≤ a.2.length := Token.width_tokenize_le _ _
    _ < (Token.render c.trim.tokens).length := Builtin.length_of_mem_marking? h ha
    _ ≤ _ := Token.width_trim_le c.tokens

def read (table : List Builtin) (c : Cursor) : Statement :=
  let source := c.trim.tokens
  if c.trim.isBlank then .missing source
  else
    match _h : Clause.read source c.trim.rest with
    | .error e => .refused source e
    | .ok (.conditional condition consequent none, _) =>
      .conditional source (read table (.ofTokens condition)) (read table (.ofTokens consequent))
        .skip
    | .ok (.conditional condition consequent (some alternative), _) =>
      .conditional source (read table (.ofTokens condition)) (read table (.ofTokens consequent))
        (read table (.ofTokens alternative))
    | .ok (.repetition target count, _) =>
      .repetition source target (read table (.ofTokens count)) (read table (.ofTokens target))
    | .ok (.binding name value, _) => .binding source name (read table (.ofTokens value))
    | .ok (.block body, _) =>
      .block source
        ((statedLines body).attach.map fun line ↦ read table (.ofTokens line.1))
        (readLines body).2
    | .ok (.phrase, _) =>
      match Builtin.find? table (Token.render source) with
      | none => .phrase source
      | some f =>
        match _hm : f.marking? (Token.render source) with
        | none => .refused source .emptySeparator
        | some m =>
          .call source f
            (m.marked.attach.map fun a ↦ (a.1.1, read table (.ofTokens (nounTokens source a.1.2))))
            m.complete
termination_by Token.width c.tokens
decreasing_by
  all_goals simp only [Cursor.tokens_ofTokens]
  · exact width_of_part _h (by simp [Clause.parts])
  · exact width_of_part _h (by simp [Clause.parts])
  · exact width_of_part _h (by simp [Clause.parts])
  · exact width_of_part _h (by simp [Clause.parts])
  · exact width_of_part _h (by simp [Clause.parts])
  · exact width_of_part _h (by simp [Clause.parts])
  · exact width_of_part _h (by simp [Clause.parts])
  · exact width_of_part _h (by simp [Clause.parts])
  · exact Nat.lt_of_le_of_lt (width_of_mem_readLines (List.mem_filter.1 line.2).1)
      (width_of_part _h (by simp [Clause.parts]))
  · exact width_of_noun _hm a.2

/-- Reading, with the parts read in turn. -/
theorem read_eq (table : List Builtin) (c : Cursor) :
    read table c =
      if c.trim.isBlank then .missing c.trim.tokens
      else
        match Clause.read c.trim.tokens c.trim.rest with
        | .error e => .refused c.trim.tokens e
        | .ok (.conditional condition consequent alternative, _) =>
          .conditional c.trim.tokens (read table (.ofTokens condition))
            (read table (.ofTokens consequent))
            (alternative.elim .skip fun ts ↦ read table (.ofTokens ts))
        | .ok (.repetition target count, _) =>
          .repetition c.trim.tokens target (read table (.ofTokens count))
            (read table (.ofTokens target))
        | .ok (.binding name value, _) =>
          .binding c.trim.tokens name (read table (.ofTokens value))
        | .ok (.block body, _) =>
          .block c.trim.tokens ((statedLines body).map fun line ↦ read table (.ofTokens line))
            (readLines body).2
        | .ok (.phrase, _) =>
          match Builtin.find? table (Token.render c.trim.tokens) with
          | none => .phrase c.trim.tokens
          | some f =>
            match f.marking? (Token.render c.trim.tokens) with
            | none => .refused c.trim.tokens .emptySeparator
            | some m =>
              .call c.trim.tokens f
                (m.marked.map fun a ↦
                  (a.1, read table (.ofTokens (nounTokens c.trim.tokens a.2))))
                m.complete := by
  rw [read]
  split
  · rfl
  · split <;> rename_i h <;> simp only [h, Option.elim]
    · rw [List.attach_map_val (f := fun line ↦ read table (.ofTokens line))]
    · split
      · rfl
      · split <;> rename_i hm <;> simp only [hm]
        rw [List.attach_map_val
          (f := fun (a : Text × Text) ↦ (a.1, read table (.ofTokens (nounTokens c.trim.tokens a.2))))]

end Statement

end Kotoba
