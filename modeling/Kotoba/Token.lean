import Kotoba.Keyword
import Kotoba.Text.Normalize

/-!
Tokens of a script: fragments of its normal form, each with the line it starts on.
-/

namespace Kotoba

structure Token where
  text : Text
  line : Int
deriving DecidableEq, Repr

namespace Token

def isA (t : Token) (k : WordClass) : Bool := k.words.contains t.text

/-- Fragments with their lines, a newline ending each line. -/
def number (line : Int) : List Text → List Token
  | [] => []
  | w :: ws => ⟨w, line⟩ :: number (if w = ['\n'] then line + 1 else line) ws

theorem map_text_number (line : Int) (ws : List Text) : (number line ws).map text = ws := by
  induction ws generalizing line with
  | nil => rfl
  | cons w ws ih => rw [number, List.map_cons, ih]

end Token

/-- The tokens of a text whose first line has the given number. -/
def tokenize (t : Text) (line : Int) : List Token :=
  Token.number line (t.normalize.splitWords allWords)

namespace Token

/-- The characters of the tokens, one after the other. -/
def render (ts : List Token) : Text := ts.flatMap text

/-- The token texts with a blank between each two. -/
def spaced (ts : List Token) : Text := Text.join [' '] (ts.map text)

def firstLine? (ts : List Token) : Option Int := ts.head?.map line

def lastLine? (ts : List Token) : Option Int := ts.getLast?.map line

/-- How many characters the tokens hold. -/
def width (ts : List Token) : Nat := (render ts).length

@[simp]
theorem render_append (ts us : List Token) : render (ts ++ us) = render ts ++ render us := by
  simp [render]

@[simp]
theorem render_cons (t : Token) (ts : List Token) : render (t :: ts) = t.text ++ render ts := rfl

@[simp]
theorem width_nil : width [] = 0 := rfl

@[simp]
theorem width_append (ts us : List Token) : width (ts ++ us) = width ts + width us := by
  simp [width]

@[simp]
theorem width_cons (t : Token) (ts : List Token) : width (t :: ts) = t.text.length + width ts := by
  simp [width]

theorem width_le_of_mem_flatten {ts : List Token} {tss : List (List Token)} (h : ts ∈ tss) :
    width ts ≤ width tss.flatten := by
  induction tss with
  | nil => cases h
  | cons us tss ih =>
    rw [List.flatten_cons, width_append]
    rcases List.mem_cons.1 h with rfl | h
    · omega
    · have := ih h
      omega

/-- A script's tokens hold exactly its normal form. -/
theorem render_tokenize (t : Text) (line : Int) : render (tokenize t line) = t.normalize := by
  rw [render, List.flatMap_def, tokenize, map_text_number, Text.flatten_splitWords]

theorem width_tokenize_le (t : Text) (line : Int) : width (tokenize t line) ≤ t.length := by
  rw [width, render_tokenize]
  exact Text.length_normalize_le t

end Token

end Kotoba
