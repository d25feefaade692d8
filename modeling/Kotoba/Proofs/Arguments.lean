import Kotoba.Proofs.Excerpt
import Kotoba.Proofs.Frame
import Kotoba.Proofs.Pieces

/-!
The arguments of a call. Since the particles that made the function eligible stand outside the
literals, each of them is among the pieces of the sentence; so the function is called with an
argument for every particle, unless evaluating one fails or a noun is missing. The tokens of a noun
are numbered from the sentence's first line, wherever in the sentence the noun stands.
-/

namespace Kotoba

namespace Bindings

end Bindings

namespace Builtin

/-- What is in a particle of the function is in no other particle of it. -/
structure Separable (f : Builtin) : Prop extends f.Visible where
  disjoint : ∀ p ∈ f.particles, ∀ q ∈ f.particles, p ≠ q → ∀ c ∈ p, c ∉ q

theorem separable_of_mem_standard {f : Builtin} (h : f ∈ standard) : f.Separable := by
  have hs : ∀ f ∈ standard, ∀ p ∈ f.particles, ∀ q ∈ f.particles, p ≠ q →
      p.all (!q.contains ·) := by decide
  refine ⟨visible_of_mem_standard h, ?_⟩
  intro p hp q hq hn c hc
  simpa using List.all_eq_true.1 (hs f h p hp q hq hn) c hc

variable {table : List Builtin} {f : Builtin}

end Builtin

theorem firstLine?_tokenize {t : Text} (line : Int) (h : t.normalize ≠ []) :
    Token.firstLine? (tokenize t line) = some line := by
  refine Token.firstLine?_number line fun hn ↦ h ?_
  rw [← Text.flatten_splitWords t.normalize allWords, hn]
  rfl

/-- The tokens of a noun are numbered from the sentence's first line; that is the line on which the
noun stands only if no line ends before it. -/
theorem firstLine?_nounTokens {t : Text} {line : Int} {f : Builtin} {m : Marking}
    (h : f.marking? (Token.render (tokenize t line)) = some m) {before after : List (Text × Text)}
    {a : Text × Text} (hm : m.marked = before ++ a :: after) :
    let sentence := Token.render (tokenize t line)
    let offset := (Marking.spelled before).length
    let first := Token.firstLine? (Statement.nounTokens (tokenize t line) a.2)
    a.2 ++ a.1 <+: sentence.drop offset ∧ first = some line ∧
      (first = some (line + (sentence.take offset).count '\n') ↔ '\n' ∉ sentence.take offset) := by
  intro sentence offset first
  have ha : a ∈ m.marked := by simp [hm]
  have hi : a.2 <:+: t.normalize := by
    rw [← Token.render_tokenize t line]
    exact Builtin.infix_of_mem_marking? h ha
  have hne : a.2 ≠ [] := Builtin.ne_nil_of_mem_marking? h ha
  have hf : first = some line := by
    have hs : Token.firstLine? (tokenize t line) = some line := firstLine?_tokenize line (by
      intro he
      rw [he] at hi
      exact hne (List.infix_nil.1 hi))
    show Token.firstLine? (tokenize a.2 ((Token.firstLine? (tokenize t line)).getD 1)) = some line
    rw [hs]
    exact firstLine?_tokenize line (by rwa [Text.normalize_slice hi])
  refine ⟨Builtin.noun_front h hm, hf, ?_⟩
  rw [hf, Option.some.injEq, ← List.count_eq_zero]
  omega

/-- The first noun takes up two lines, and the second one stands on the second of them. -/
theorem firstLine?_nounTokens_behind_two_lines :
    let ts := tokenize "「a\nb」がxより小さい".toList 3
    let f : Builtin := ⟨['小', 'さ', 'い'], [['が'], ['よ', 'り']], .less⟩
    let subject : Text × Text := (['が'], "「a\nb」".toList)
    let bound : Text × Text := (['よ', 'り'], ['x'])
    let offset := (Marking.spelled [subject]).length
    f.marking? (Token.render ts) = some ⟨[subject, bound], true⟩ ∧
      bound.2 ++ bound.1 <+: (Token.render ts).drop offset ∧
      Token.firstLine? (Statement.nounTokens ts bound.2) = some 3 ∧
      Token.firstLine? (Statement.nounTokens ts bound.2) ≠
        some (3 + ((Token.render ts).take offset).count '\n') := by
  intro ts f subject bound offset
  have h : f.marking? (Token.render ts) = some ⟨[subject, bound], true⟩ := by decide +kernel
  obtain ⟨hs, hl, hc⟩ := @firstLine?_nounTokens _ _ _ _ h [subject] [] bound rfl
  have hn : '\n' ∈ (Token.render ts).take offset := by decide +kernel
  exact ⟨h, hs, hl, fun he ↦ hc.1 he hn⟩

/-- The fault of a noun is reported one line above it. -/
theorem noun_reported_above_its_line :
    let t : Text := "「a\nb」がxより小さい".toList
    let ts := tokenize t 1
    let f : Builtin := ⟨['小', 'さ', 'い'], [['が'], ['よ', 'り']], .less⟩
    Builtin.find? Builtin.standard (Token.render ts) = some f ∧
      f.marking? (Token.render ts) =
        some ⟨[(['が'], "「a\nb」".toList), (['よ', 'り'], ['x'])], true⟩ ∧
      ['x'] <+: (Token.render ts).drop 6 ∧
      1 + ((Token.render ts).take 6).count '\n' = 2 ∧
      Token.firstLine? (Statement.nounTokens ts ['x']) = some 1 ∧
      Run.fault? (runScript t .standard) =
        some (.complaint (.malformed ['x']) (some 1) (some 1)) := by
  decide +kernel

end Kotoba
