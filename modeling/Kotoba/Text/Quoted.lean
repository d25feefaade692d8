import Kotoba.Text.Search

/-!
Quoted literals `「…」` in a text. A literal ends at the first closing mark after its opening mark;
an opening mark without a closing one is plain text.
-/

namespace Kotoba

/-- A stretch of text: between literals, or one literal with both its marks. -/
inductive Segment where
  | plain (text : Text)
  | quoted (text : Text)
deriving DecidableEq, Repr

namespace Segment

def text : Segment → Text
  | plain t => t
  | quoted t => t

/-- The text with every character of a literal hidden. -/
def masked : Segment → Text
  | plain t => t
  | quoted t => List.replicate t.length '\x00'

end Segment

namespace Text

/-- The first closed literal, with what stands before and after it. -/
def breakQuoted (t : Text) : Option (Text × Text × Text) :=
  match t.breakOn ['「'] with
  | none => none
  | some (before, rest) =>
    match rest.breakOn ['」'] with
    | none => none
    | some (inside, after) => some (before, '「' :: inside ++ ['」'], after)

theorem append_of_breakQuoted {t before literal after : Text}
    (h : t.breakQuoted = some (before, literal, after)) :
    t = before ++ literal ++ after ∧ 2 ≤ literal.length := by
  unfold breakQuoted at h
  split at h
  · simp at h
  · next hb =>
    split at h
    · simp at h
    · next hi =>
      simp only [Option.some.injEq, Prod.mk.injEq] at h
      obtain ⟨rfl, rfl, rfl⟩ := h
      constructor
      · rw [append_of_breakOn hb, append_of_breakOn hi]; simp
      · simp

/-- The text as alternating segments, a plain one first and last. -/
def segments (t : Text) : List Segment :=
  match _h : t.breakQuoted with
  | none => [.plain t]
  | some (before, literal, after) => .plain before :: .quoted literal :: segments after
termination_by t.length
decreasing_by
  obtain ⟨h, hl⟩ := append_of_breakQuoted _h
  simp only [h, List.length_append]
  omega

/-- The text with its closed literals hidden, offsets unchanged. -/
def mask (t : Text) : Text := t.segments.flatMap Segment.masked

theorem flatMap_text_segments (t : Text) : t.segments.flatMap Segment.text = t := by
  fun_induction segments t with
  | case1 => simp [Segment.text]
  | case2 t before literal after h ih =>
    simp only [List.flatMap_cons, Segment.text, ih, (append_of_breakQuoted h).1, List.append_assoc]

theorem ne_nil_of_quoted_mem_segments {t literal : Text} (h : .quoted literal ∈ t.segments) :
    literal ≠ [] := by
  fun_induction segments t with
  | case1 => simp at h
  | case2 t before literal' after hb ih =>
    rcases List.mem_cons.1 h with h | h
    · cases h
    · rcases List.mem_cons.1 h with h | h
      · obtain rfl := Segment.quoted.inj h
        intro hn
        have := (append_of_breakQuoted hb).2
        simp [hn] at this
      · exact ih h

end Text

end Kotoba
