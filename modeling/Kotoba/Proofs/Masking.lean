import Kotoba.Builtin
import Kotoba.Proofs.Fragments

/-!
A literal in front of a sentence. Whatever stands between its marks, as long as it is no closing
mark, the literal is hidden when functions are looked for, so that the one found is that of the
text behind it; and it is one whole piece when the arguments are cut out.
-/

namespace Kotoba

namespace Text

theorem breakOn_singleton_append {t : Text} {k : Char} (h : k ∉ t) (u : Text) :
    breakOn (t ++ k :: u) [k] = some (t, u) := by
  have hb : t.breakOn [k] = none := breakOn_eq_none_iff.2 fun hi ↦ h (hi.subset List.mem_cons_self)
  have hs := breakOn_append_self (List.cons_ne_nil k []) (unbordered_cons List.not_mem_nil) hb u
  rwa [List.append_assoc, List.singleton_append] at hs

/-- Characters that are in no word only push it back. -/
theorem breakOn_replicate_append {word : Text} {k : Char} (hw : word ≠ []) (hk : k ∉ word) (n : Nat)
    (u : Text) :
    breakOn (List.replicate n k ++ u) word =
      (u.breakOn word).map fun p ↦ (List.replicate n k ++ p.1, p.2) := by
  cases n with
  | zero => simp
  | succ n =>
    have hd : ∀ c ∈ List.replicate (n + 1) k, c ∉ word := by
      intro c hc
      rwa [List.eq_of_mem_replicate hc]
    exact breakOn_append_disjoint (t := []) (by simp) hd (by simp [breakOn, hw]) u

theorem hasWord_replicate_append {word : Text} {k : Char} (hw : word ≠ []) (hk : k ∉ word) (n : Nat)
    (u : Text) : hasWord (List.replicate n k ++ u) word = u.hasWord word := by
  rw [hasWord, breakOn_replicate_append hw hk, Option.isSome_map, hasWord]

/-- A text between marks. -/
def quote (t : Text) : Text := '「' :: t ++ ['」']

theorem breakQuoted_append {b s : Text} (ho : '「' ∉ b) (hc : '」' ∉ s) (a : Text) :
    (b ++ s.quote ++ a).breakQuoted = some (b, s.quote, a) := by
  have hq : b ++ s.quote ++ a = b ++ '「' :: (s ++ '」' :: a) := by simp [quote]
  rw [breakQuoted, hq, breakOn_singleton_append ho]
  simp only
  rw [breakOn_singleton_append hc]
  rfl

theorem segments_append {b s : Text} (ho : '「' ∉ b) (hc : '」' ∉ s) (a : Text) :
    (b ++ s.quote ++ a).segments = .plain b :: .quoted s.quote :: a.segments := by
  have h := breakQuoted_append ho hc a
  rw [segments]
  split
  · next hb =>
    rw [h] at hb
    cases hb
  · next hb =>
    rw [h] at hb
    cases hb
    rfl

variable {t : Text} (h : '」' ∉ t) (u : Text)

include h

theorem segments_quote_append :
    (t.quote ++ u).segments = .plain [] :: .quoted t.quote :: u.segments :=
  segments_append List.not_mem_nil h u

theorem mask_quote_append :
    (t.quote ++ u).mask = List.replicate t.quote.length '\x00' ++ u.mask := by
  rw [mask, segments_quote_append h, List.flatMap_cons, List.flatMap_cons]
  rfl

theorem pieces?_quote_append (particles : List Text) :
    (t.quote ++ u).pieces? particles = (u.pieces? particles).map (t.quote :: ·) := by
  have hn : splitWords? [] particles = some [] := by simp [splitWords?]
  unfold pieces?
  rw [segments_quote_append h, piecesOf, piecesOf, hn]
  cases piecesOf particles u.segments <;> rfl

end Text

namespace Builtin

/-- The name and the particles of the function can be told from what is hidden. -/
structure Visible (f : Builtin) : Prop where
  name : f.name ≠ [] ∧ '\x00' ∉ f.name
  particles : ∀ p ∈ f.particles, p ≠ [] ∧ '\x00' ∉ p

theorem Visible.nil_notMem {f : Builtin} (hf : f.Visible) : [] ∉ f.particles := by
  intro hm
  exact (hf.particles [] hm).1 rfl

theorem visible_of_mem_standard {f : Builtin} (h : f ∈ standard) : f.Visible := by
  have hs : ∀ f ∈ standard, (f.name ≠ [] ∧ '\x00' ∉ f.name) ∧
      ∀ p ∈ f.particles, p ≠ [] ∧ '\x00' ∉ p := by decide
  exact ⟨(hs f h).1, (hs f h).2⟩

theorem Visible.offset?_replicate_append {f : Builtin} (hf : f.Visible) (n : Nat) (u : Text) :
    f.offset? (List.replicate n '\x00' ++ u) = (f.offset? u).map (n + ·) := by
  rw [offset?, Text.breakOn_replicate_append hf.name.1 hf.name.2, offset?]
  cases u.breakOn f.name with
  | none => rfl
  | some p =>
    have hp : (f.particles.all fun w ↦ Text.hasWord (List.replicate n '\x00' ++ p.1) w) =
        f.particles.all fun w ↦ p.1.hasWord w := by
      rw [Bool.eq_iff_iff, List.all_eq_true, List.all_eq_true]
      refine forall₂_congr fun w hw ↦ ?_
      rw [Text.hasWord_replicate_append (hf.particles w hw).1 (hf.particles w hw).2]
    simp only [Option.map_some]
    rw [hp]
    split
    · simp
    · rfl

theorem foldl_furthest_map {table : List Builtin} {masked masked' : Text} {move : Nat → Nat}
    (hm : ∀ i j, move i < move j ↔ i < j)
    (h : ∀ f ∈ table, f.offset? masked' = (f.offset? masked).map move)
    (best : Option (Builtin × Nat)) :
    table.foldl (furthest masked') (best.map fun p ↦ (p.1, move p.2)) =
      (table.foldl (furthest masked) best).map fun p ↦ (p.1, move p.2) := by
  induction table generalizing best with
  | nil => rfl
  | cons f table ih =>
    have hs : furthest masked' (best.map fun p ↦ (p.1, move p.2)) f =
        (furthest masked best f).map fun p ↦ (p.1, move p.2) := by
      unfold furthest
      rw [h f List.mem_cons_self]
      cases f.offset? masked with
      | none => rfl
      | some i =>
        cases best with
        | none => rfl
        | some p => by_cases hi : p.2 < i <;> simp [hm, hi]
    rw [List.foldl_cons, List.foldl_cons, hs]
    exact ih (fun g hg ↦ h g (List.mem_cons_of_mem f hg)) _

/-- The choice is the same where all candidates stand in the same order. -/
theorem find?_eq_of_offset? {table : List Builtin} {s s' : Text} (move : Nat → Nat)
    (hm : ∀ i j, move i < move j ↔ i < j)
    (h : ∀ f ∈ table, f.offset? s'.mask = (f.offset? s.mask).map move) :
    find? table s' = find? table s := by
  have hf := foldl_furthest_map hm h none
  rw [Option.map_none] at hf
  unfold find?
  rw [hf, Option.map_map]
  rfl

variable {t : Text} (h : '」' ∉ t) (u : Text)

include h

theorem find?_quote_append {table : List Builtin} (ht : ∀ f ∈ table, f.Visible) :
    find? table (t.quote ++ u) = find? table u := by
  refine find?_eq_of_offset? (t.quote.length + ·) ?_ ?_
  · intro i j
    omega
  · intro f hf
    rw [Text.mask_quote_append h, (ht f hf).offset?_replicate_append]

theorem Visible.region_quote_append {f : Builtin} (hf : f.Visible)
    (hn : (u.mask.find? f.name).isSome = true) :
    f.region (t.quote ++ u) = t.quote ++ f.region u := by
  obtain ⟨i, hi⟩ := Option.isSome_iff_exists.1 hn
  have hm : (t.quote ++ u).mask.find? f.name = some (t.quote.length + i) := by
    obtain ⟨p, hp, rfl⟩ := Option.map_eq_some_iff.1 hi
    rw [Text.mask_quote_append h, Text.find?, Text.breakOn_replicate_append hf.name.1 hf.name.2, hp]
    simp
  rw [region, hm, region, hi]
  exact List.take_length_add_append i

end Builtin

end Kotoba
