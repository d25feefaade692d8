import Kotoba.Text.Quoted
import Kotoba.Value.Basic

/-!
Built-in functions. A function is called by its name standing in a sentence, after the case
particles that mark its arguments; literals are never searched.
-/

namespace Kotoba

inductive Procedure where
  | display
  | debugDisplay
  | less
  | greater
  /-- Supplied from outside: notes the call, and gives back an argument or a fixed value, or else
  fails with a text. -/
  | custom (echo : Option Text) (result : Value) (failure : Option Text)
deriving DecidableEq, Repr

structure Builtin where
  name : Text
  particles : List Text
  procedure : Procedure
deriving DecidableEq, Repr

namespace Builtin

def standard : List Builtin :=
  [⟨['表', '示'], [['を'], ['に']], .display⟩,
    ⟨['デ', 'バ', 'ッ', 'グ', '表', '示'], [['を']], .debugDisplay⟩,
    ⟨['小', 'さ', 'い'], [['が'], ['よ', 'り']], .less⟩,
    ⟨['大', 'き', 'い'], [['が'], ['よ', 'り']], .greater⟩]

/-- Where the function's name first stands in a masked sentence, if all its particles stand before
that. -/
def offset? (f : Builtin) (masked : Text) : Option Nat :=
  match masked.breakOn f.name with
  | none => none
  | some (before, _) => if f.particles.all before.hasWord then some before.length else none

/-- Keeps the candidate furthest right, the earlier one of two at the same place. -/
def furthest (masked : Text) (best : Option (Builtin × Nat)) (f : Builtin) :
    Option (Builtin × Nat) :=
  match f.offset? masked, best with
  | none, _ => best
  | some i, none => some (f, i)
  | some i, some (g, j) => if j < i then some (f, i) else some (g, j)

def find? (table : List Builtin) (sentence : Text) : Option Builtin :=
  (table.foldl (furthest sentence.mask) none).map (·.1)

/-- The text in which a sentence names the arguments: what stands before the function's name, or
all but the last character if the name is absent. -/
def region (f : Builtin) (sentence : Text) : Text :=
  match sentence.mask.find? f.name with
  | some i => sentence.take i
  | none => sentence.dropLast

end Builtin

namespace Text

/-- A text cut at particles, its literals whole. -/
def piecesOf (particles : List Text) : List Segment → Option (List Text)
  | [] => some []
  | .quoted t :: ss => (piecesOf particles ss).map (t :: ·)
  | .plain t :: ss =>
    match t.splitWords? particles, piecesOf particles ss with
    | some ps, some qs => some (ps ++ qs)
    | _, _ => none

def pieces? (t : Text) (particles : List Text) : Option (List Text) :=
  piecesOf particles t.segments

theorem flatten_piecesOf {particles : List Text} {ss : List Segment} {ps : List Text}
    (h : piecesOf particles ss = some ps) : ps.flatten = ss.flatMap Segment.text := by
  induction ss generalizing ps with
  | nil => simp_all [piecesOf]
  | cons s ss ih =>
    cases s with
    | quoted t =>
      obtain ⟨qs, hq, rfl⟩ := Option.map_eq_some_iff.1 (by simpa only [piecesOf] using h)
      simp [ih hq, Segment.text]
    | plain t =>
      simp only [piecesOf] at h
      split at h
      · next us qs hu hq =>
        unfold splitWords? at hu
        split at hu
        · simp at hu
        · simp only [Option.some.injEq] at hu h
          subst hu h
          simp [ih hq, Segment.text]
      · simp at h

theorem ne_nil_of_mem_piecesOf {particles : List Text} {ss : List Segment} {ps : List Text}
    (hs : ∀ t, .quoted t ∈ ss → t ≠ []) (h : piecesOf particles ss = some ps) {p : Text}
    (hp : p ∈ ps) : p ≠ [] := by
  induction ss generalizing ps with
  | nil => simp_all [piecesOf]
  | cons s ss ih =>
    cases s with
    | quoted t =>
      obtain ⟨qs, hq, rfl⟩ := Option.map_eq_some_iff.1 (by simpa only [piecesOf] using h)
      rcases List.mem_cons.1 hp with rfl | hp
      · exact hs p (by simp)
      · exact ih (fun t ht ↦ hs t (by simp [ht])) hq hp
    | plain t =>
      simp only [piecesOf] at h
      split at h
      · next us qs hu hq =>
        unfold splitWords? at hu
        split at hu
        · simp at hu
        · simp only [Option.some.injEq] at hu h
          subst hu h
          rcases List.mem_append.1 hp with hp | hp
          · exact ne_nil_of_mem_splitWords hp
          · exact ih (fun t ht ↦ hs t (by simp [ht])) hq hp
      · simp at h

theorem flatten_of_pieces? {t : Text} {particles ps : List Text}
    (h : t.pieces? particles = some ps) : ps.flatten = t := by
  rw [flatten_piecesOf h, flatMap_text_segments]

theorem ne_nil_of_mem_pieces? {t : Text} {particles ps : List Text}
    (h : t.pieces? particles = some ps) {p : Text} (hp : p ∈ ps) : p ≠ [] :=
  ne_nil_of_mem_piecesOf (fun _ ↦ ne_nil_of_quoted_mem_segments) h hp

end Text

/-- Nouns with the particles that mark them. -/
structure Marking where
  /-- Each particle with the noun before it, in order. -/
  marked : List (Text × Text)
  /-- No particle lacked its noun. -/
  complete : Bool
deriving DecidableEq, Repr

namespace Marking

/-- Joins pieces to nouns, each ended by a particle; a last noun without one is dropped. -/
def ofPieces (particles : List Text) (noun : Text) : List Text → Marking
  | [] => ⟨[], true⟩
  | p :: ps =>
    if particles.contains p then
      if noun = [] then ⟨[], false⟩
      else
        let m := ofPieces particles [] ps
        ⟨(p, noun) :: m.marked, m.complete⟩
    else ofPieces particles (noun ++ p) ps

theorem length_of_mem_ofPieces {particles ps : List Text} {noun : Text} {a : Text × Text}
    (hp : ∀ p ∈ ps, p ≠ []) (h : a ∈ (ofPieces particles noun ps).marked) :
    a.2.length < noun.length + ps.flatten.length := by
  induction ps generalizing noun with
  | nil => simp [ofPieces] at h
  | cons p ps ih =>
    have hl : 0 < p.length := List.length_pos_iff.2 (hp p (by simp))
    have hs : ∀ q ∈ ps, q ≠ [] := fun q hq ↦ hp q (by simp [hq])
    simp only [ofPieces] at h
    simp only [List.flatten_cons, List.length_append]
    split at h
    · split at h
      · simp at h
      · rcases List.mem_cons.1 h with rfl | h
        · simp only; omega
        · have := ih hs h
          simp only [List.length_nil] at this
          omega
    · have := ih hs h
      simp only [List.length_append] at this
      omega

end Marking

/-- The arguments that a sentence marks for a function. -/
def Builtin.marking? (f : Builtin) (sentence : Text) : Option Marking :=
  ((f.region sentence).pieces? f.particles).map (Marking.ofPieces f.particles [])

/-- A noun is shorter than the sentence in which it stands. -/
theorem Builtin.length_of_mem_marking? {f : Builtin} {sentence : Text} {m : Marking}
    {a : Text × Text} (h : f.marking? sentence = some m) (ha : a ∈ m.marked) :
    a.2.length < sentence.length := by
  obtain ⟨ps, hp, rfl⟩ := Option.map_eq_some_iff.1 h
  have hl := Marking.length_of_mem_ofPieces (fun _ ↦ Text.ne_nil_of_mem_pieces? hp) ha
  rw [Text.flatten_of_pieces? hp, List.length_nil, Nat.zero_add] at hl
  refine Nat.lt_of_lt_of_le hl ?_
  unfold region
  split
  · rw [List.length_take]; exact Nat.min_le_right _ _
  · simp

end Kotoba
