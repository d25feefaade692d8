import Kotoba.Enclosure

/-!
Patterns of words and captures over tokens. A capture takes what stands before the next word of
the pattern, enclosures whole, or all that is left if it is the last step.
-/

namespace Kotoba

inductive Step where
  | word (words : List Text)
  | capture
deriving DecidableEq, Repr

namespace Step

def ofClass (k : WordClass) : Step := word k.words

end Step

abbrev Pattern := List Step

/-- What the captures of a pattern took, in order, and the tokens after the match. -/
structure Match where
  captures : List (List Token)
  rest : List Token
deriving DecidableEq, Repr

namespace Match

def push (taken : List Token) (m : Match) : Match := ⟨taken :: m.captures, m.rest⟩

end Match

namespace Pattern

def run : Pattern → List Token → Except Fault (Option Match)
  | [], ts => .ok (some ⟨[], ts⟩)
  | [.capture], ts => .ok (some ⟨[ts], []⟩)
  | .capture :: .capture :: _, _ => .error .adjacentCaptures
  | .capture :: .word words :: steps, ts =>
    match readUntil words [] ts with
    | .error e => .error e
    | .ok none => .ok none
    | .ok (some (taken, rest)) => (run steps rest).map fun m ↦ m.map (Match.push taken)
  | .word _ :: _, [] => .ok none
  | .word words :: steps, t :: ts => if words.contains t.text then run steps ts else .ok none

end Pattern

/-- How many tokens the pattern takes that are no part of a capture. -/
def Pattern.wordCount (p : Pattern) : Nat := p.countP fun s ↦ s != .capture

/-- A match spends at least one character on each word of the pattern. -/
theorem Pattern.width_run {p : Pattern} {ts : List Token} {m : Match}
    (hp : ∀ words, .word words ∈ p → [] ∉ words) (h : p.run ts = .ok (some m)) :
    Token.width m.captures.flatten + Token.width m.rest + p.wordCount ≤ Token.width ts := by
  fun_induction Pattern.run p ts generalizing m with
  | case1 ts => simp_all only [Except.ok.injEq, Option.some.injEq]; subst h; simp [wordCount]
  | case2 ts => simp_all only [Except.ok.injEq, Option.some.injEq]; subst h; simp [wordCount]
  | case3 => simp at h
  | case4 => simp at h
  | case5 => simp at h
  | case6 words steps ts taken rest hr ih =>
    match hm : Pattern.run steps rest with
    | .error e => simp [hm, Except.map] at h
    | .ok none => simp [hm, Except.map] at h
    | .ok (some m') =>
      simp only [hm, Except.map, Option.map_some, Except.ok.injEq, Option.some.injEq] at h
      subst h
      obtain ⟨w, hw, rfl⟩ := append_of_readUntil hr
      have hi := ih (fun ws hs ↦ hp ws (by simp [hs])) hm
      have hl : 0 < w.text.length :=
        List.length_pos_iff.2 fun he ↦ hp words (by simp) (he ▸ hw)
      simp only [wordCount] at hi ⊢
      simp only [Match.push, List.flatten_cons, Token.width_append, Token.width_cons,
        List.countP_cons, bne_self_eq_false, Bool.false_eq_true, ↓reduceIte]
      split <;> omega
  | case7 => simp at h
  | case8 words steps t ts hw ih =>
    have hi := ih (fun ws hs ↦ hp ws (by simp [hs])) h
    have hl : 0 < t.text.length :=
      List.length_pos_iff.2 fun he ↦ hp words (by simp) (by simpa [he] using hw)
    simp only [wordCount] at hi ⊢
    simp only [Token.width_cons, List.countP_cons]
    split <;> omega
  | case9 => simp at h

end Kotoba
