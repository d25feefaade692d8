import Kotoba.Proofs.Resolution

/-!
A sentence cut at particles. Nothing of it is lost and its literals stay whole. A particle that
stands outside the literals is a piece of its own if it has no character in common with the others,
and then it marks the noun before it.
-/

namespace Kotoba

namespace Text

section Disjoint

variable {word : Text} (hw : word ≠ []) {words : List Text}
  (hd : ∀ v ∈ words, v ≠ word → ∀ c ∈ v, c ∉ word)

include hw hd

end Disjoint

end Text

def Segment.pieces (particles : List Text) : Segment → List Text
  | .plain t => t.splitWords particles
  | .quoted t => [t]

namespace Text

/-- The pieces of a text that is cut at words of which none is empty. -/
def pieces (t : Text) (particles : List Text) : List Text :=
  t.segments.flatMap (Segment.pieces particles)

variable {particles : List Text}

theorem pieces?_eq (h : [] ∉ particles) (t : Text) :
    t.pieces? particles = some (t.pieces particles) := by
  have hs (ss : List Segment) :
      piecesOf particles ss = some (ss.flatMap (Segment.pieces particles)) := by
    induction ss with
    | nil => rfl
    | cons s ss ih =>
      cases s with
      | plain t => simp [piecesOf, ih, splitWords?, h, Segment.pieces]
      | quoted t => simp [piecesOf, ih, Segment.pieces]
  exact hs t.segments

theorem Balanced.pieces_append {u s : Text} (hu : Balanced u) (hs : '」' ∉ s) (v : Text) :
    (u ++ s.quote ++ v).pieces particles =
      u.pieces particles ++ s.quote :: v.pieces particles := by
  rw [pieces, hu.segments_append hs, List.flatMap_append, List.flatMap_cons]
  rfl

theorem pieces_of_none {t : Text} (h : t.breakQuoted = none) :
    t.pieces particles = t.splitWords particles := by
  rw [pieces, segments_of_none h]
  simp [Segment.pieces]

@[simp]
theorem pieces_nil : pieces [] particles = [] := by
  rw [pieces_of_none rfl, splitWords_nil]

theorem pieces_quote {s : Text} (h : '」' ∉ s) : s.quote.pieces particles = [s.quote] := by
  have hp := @Balanced.pieces_append particles [] s (.plain List.not_mem_nil) h []
  simpa using hp

/-- A particle that cannot be confused with another is a piece wherever it stands after a balanced
text, and what is on its two sides is cut on its own. -/
theorem Balanced.pieces_append_word {t w : Text} (ht : Balanced t) (hw : Solitary w particles)
    (ho : '「' ∉ w) (r : Text) :
    (t ++ w ++ r).pieces particles = t.pieces particles ++ w :: r.pieces particles := by
  induction ht with
  | @plain t hn =>
    -- The particle is in the plain text before the next literal, with what comes after it there.
    have htw : '「' ∉ t ++ w := fun hm ↦ (List.mem_append.1 hm).elim hn ho
    rw [pieces_of_none (breakQuoted_of_not_mem hn)]
    induction r using literal_induction with
    | plain r hr =>
      rw [pieces_of_none (breakQuoted_append_of_none htw hr), pieces_of_none hr,
        hw.splitWords_append]
    | literal b s a hb hs _ =>
      have htwb : '「' ∉ t ++ w ++ b := fun hm ↦ (List.mem_append.1 hm).elim htw hb
      rw [List.append_assoc b, ← List.append_assoc (t ++ w), ← List.append_assoc (t ++ w ++ b),
        (Balanced.plain htwb).pieces_append hs, ← List.append_assoc b,
        (Balanced.plain hb).pieces_append hs, pieces_of_none (breakQuoted_of_not_mem htwb),
        pieces_of_none (breakQuoted_of_not_mem hb), hw.splitWords_append]
      simp
  | @literal b s u hb hs _ ih =>
    have he : b ++ s.quote ++ u ++ w ++ r = b ++ s.quote ++ (u ++ w ++ r) := by simp
    rw [he, (Balanced.plain hb).pieces_append hs, (Balanced.plain hb).pieces_append hs, ih]
    simp

end Text

namespace Marking

variable {particles ps : List Text} {noun : Text}

theorem ne_nil_of_mem {a : Text × Text} (h : a ∈ (ofPieces particles noun ps).marked) :
    a.2 ≠ [] := by
  induction ps generalizing noun with
  | nil => cases h
  | cons p ps ih =>
    unfold ofPieces at h
    split at h
    · split at h
      · cases h
      · next hn =>
        rcases List.mem_cons.1 h with rfl | h
        · exact hn
        · exact ih h
    · exact ih h

end Marking

namespace Builtin

variable {f : Builtin} {s : Text} {m : Marking}

theorem ne_nil_of_mem_marking? (h : f.marking? s = some m) {a : Text × Text} (ha : a ∈ m.marked) :
    a.2 ≠ [] := by
  obtain ⟨ps, -, rfl⟩ := Option.map_eq_some_iff.1 h
  exact Marking.ne_nil_of_mem ha

end Builtin

end Kotoba
