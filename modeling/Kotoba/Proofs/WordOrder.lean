import Kotoba.Proofs.Slices
import Mathlib.Data.List.Basic

/-!
The order of the words at which a text is cut. It matters only where words overlap: of two words
that do not, the one that stands first in a text is cut out of it as a whole, whichever of them the
text is cut at first, and what comes after it is cut on its own. Cutting a second time at a word
finds nothing more to cut, even if the word overlaps with itself.
-/

namespace Kotoba

namespace Text

/-- An end of the first word, but not the whole of it, is a beginning of the second. -/
def RunsInto (v w : Text) : Prop := ∃ i < v.length, 0 < i ∧ v.drop i <+: w

instance (v w : Text) : Decidable (RunsInto v w) :=
  inferInstanceAs (Decidable (∃ i < v.length, 0 < i ∧ v.drop i <+: w))

/-- One of the words stands in the other, or runs into it. -/
def Overlap (v w : Text) : Prop := v <:+: w ∨ w <:+: v ∨ RunsInto v w ∨ RunsInto w v

instance (v w : Text) : Decidable (Overlap v w) :=
  inferInstanceAs (Decidable (v <:+: w ∨ w <:+: v ∨ RunsInto v w ∨ RunsInto w v))

theorem Overlap.symm {v w : Text} (h : Overlap v w) : Overlap w v := by
  rcases h with h | h | h | h
  · exact .inr (.inl h)
  · exact .inl h
  · exact .inr (.inr (.inr h))
  · exact .inr (.inr (.inl h))

theorem runsInto_append {p s w : Text} (hp : p ≠ []) (hs : s ≠ []) (h : s <+: w) :
    RunsInto (p ++ s) w := by
  have hl := List.length_pos_iff.2 hp
  have hl' := List.length_pos_iff.2 hs
  refine ⟨p.length, ?_, hl, ?_⟩
  · rw [List.length_append]
    omega
  · rwa [List.drop_left]

theorem breakOn_front {t v b a : Text} (h : t.breakOn v = some (b, a)) (u : Text) :
    (b ++ v ++ u).breakOn v = some (b, u) := by
  have ht := append_of_breakOn h
  cases hb : (b ++ v).breakOn v with
  | none => exact absurd (List.suffix_append b v).isInfix (breakOn_eq_none_iff.1 hb)
  | some r =>
    obtain ⟨b', c⟩ := r
    have hr := breakOn_append_of_some hb a
    rw [← ht, h] at hr
    obtain ⟨rfl, hc⟩ : b = b' ∧ a = c ++ a := by simpa using hr
    obtain rfl : c = [] := by simpa using hc
    exact breakOn_append_of_some hb u

theorem cutAll_eq_self {fragments : List Text} {w : Text} (h : ∀ f ∈ fragments, f.cut w = [f]) :
    cutAll fragments w = fragments := by
  rw [cutAll, List.flatMap_congr h]
  simp

theorem cut_eq_self {f w : Text} (hf : f ≠ []) (hw : ¬ w <:+: f) : f.cut w = [f] := by
  rw [cut_of_none (breakOn_eq_none_iff.2 hw), fragment_of_ne_nil hf]

theorem cutAll_cutAll_self {w : Text} (hw : w ≠ []) (fragments : List Text) :
    cutAll (cutAll fragments w) w = cutAll fragments w := by
  refine cutAll_eq_self fun f hf ↦ ?_
  obtain ⟨g, -, hf⟩ := List.mem_flatMap.1 hf
  rcases mem_cut hw hf with rfl | ⟨-, hn⟩
  · exact cut_self hw
  · exact cut_eq_self (ne_nil_of_mem_cut hf) hn

section Pair

variable {v w : Text} (ho : ¬ Overlap v w)

include ho

theorem ne_nil_of_not_overlap : v ≠ [] := by
  rintro rfl
  exact ho (.inl List.nil_infix)

/-- A word that does not stand in what is before the other one does not reach into it. -/
theorem not_infix_append {b : Text} (hb : ¬ w <:+: b) : ¬ w <:+: b ++ v := by
  intro h
  rcases List.infix_append_iff_ne_nil.1 h with h | h | ⟨p, s, hp, hs, rfl, -, h⟩
  · exact hb h
  · exact ho (.inr (.inl h))
  · exact ho (.inr (.inr (.inr (runsInto_append hp hs h))))

/-- A word does not begin in the other one and reach beyond its end. -/
theorem not_across_append (b a : Text) : ¬ Across w (b ++ v) a := by
  rintro ⟨l, p, q, r, hl, -, hp, hq, rfl⟩
  have hs : p <:+ b ++ v := ⟨l, hl.symm⟩
  rcases List.suffix_or_suffix_of_suffix hs (List.suffix_append b v) with ⟨x, rfl⟩ | ⟨x, rfl⟩
  · by_cases hx : x = []
    · subst hx
      exact ho (.inl (List.prefix_append p q).isInfix)
    · exact ho (.inr (.inr (.inl (runsInto_append hx hp (List.prefix_append p q)))))
  · exact ho (.inl (List.infix_append x v q))

variable {t b a : Text} (hb : t.breakOn v = some (b, a)) (hw : ¬ w <:+: b)

include hb hw

/-- Cutting at the word that stands first, then at the other one. -/
theorem cutAll_cut_of_first :
    cutAll (t.cut v) w = b.fragment ++ v :: cutAll (a.cut v) w := by
  have hv := ne_nil_of_not_overlap ho
  have hc : v.cut w = [v] := cut_eq_self hv fun h ↦ ho (.inr (.inl h))
  rw [cut_of_some hv hb, cutAll_append, cutAll_fragment, cut_of_none (breakOn_eq_none_iff.2 hw),
    cutAll, List.flatMap_cons, hc]
  rfl

/-- Cutting at the word that stands first after the other one. -/
theorem cutAll_cut_of_second :
    cutAll (t.cut w) v = b.fragment ++ v :: cutAll (a.cut w) v := by
  have hv := ne_nil_of_not_overlap ho
  have hw' := ne_nil_of_not_overlap fun h ↦ ho h.symm
  have hcut (u : Text) : (b ++ v ++ u).cut v = b.fragment ++ v :: u.cut v :=
    cut_of_some hv (breakOn_front hb u)
  have hr := breakOn_append_of_not_across (not_across_append ho b a)
    (breakOn_eq_none_iff.2 (not_infix_append ho hw))
  rw [← append_of_breakOn hb] at hr
  cases ha : a.breakOn w with
  | none =>
    rw [cut_of_none (by rw [hr, ha]; rfl), cut_of_none ha, cutAll_fragment, cutAll_fragment,
      append_of_breakOn hb, hcut]
  | some r =>
    rw [cut_of_some hw' (by rw [hr, ha]; rfl), cut_of_some hw' ha, cutAll_append, cutAll_append,
      cutAll_fragment, cutAll_fragment, hcut]
    simp

end Pair

/-- Cuts at two words that do not overlap can change places. -/
theorem cutAll_cut_comm {v w : Text} (ho : ¬ Overlap v w) (t : Text) :
    cutAll (t.cut v) w = cutAll (t.cut w) v := by
  have ho' : ¬ Overlap w v := fun h ↦ ho h.symm
  have hv := ne_nil_of_not_overlap ho
  have hw := ne_nil_of_not_overlap ho'
  induction hl : t.length using Nat.strongRecOn generalizing t with
  | _ l ih =>
    cases hb : t.breakOn v with
    | none =>
      rw [cut_of_none hb, cutAll_fragment]
      refine (cutAll_eq_self fun f hf ↦ ?_).symm
      rcases mem_cut hw hf with rfl | ⟨hi, -⟩
      · exact cut_eq_self hw fun h ↦ ho (.inl h)
      · exact cut_eq_self (ne_nil_of_mem_cut hf) fun h ↦
          breakOn_eq_none_iff.1 hb (h.trans hi)
    | some r =>
      obtain ⟨b, a⟩ := r
      have hlv := List.length_pos_iff.2 hv
      have hlw := List.length_pos_iff.2 hw
      have ht := length_of_breakOn hb
      cases hb' : b.breakOn w with
      | none =>
        have hn := breakOn_eq_none_iff.1 hb'
        rw [cutAll_cut_of_first ho hb hn, cutAll_cut_of_second ho hb hn,
          ih a.length (by omega) a rfl]
      | some r =>
        -- The other word stands before this one, so it is the first of the two.
        obtain ⟨c, d⟩ := r
        have hc := append_of_breakOn hb'
        have hn : ¬ v <:+: c := by
          intro h
          refine not_infix_of_breakOn hv hb (h.trans ?_)
          rw [hc, List.append_assoc]
          exact (List.prefix_append c _).isInfix
        have hf : t.breakOn w = some (c, d ++ (v ++ a)) := by
          rw [append_of_breakOn hb, List.append_assoc]
          exact breakOn_append_of_some hb' (v ++ a)
        have hlt := length_of_breakOn hf
        rw [cutAll_cut_of_first ho' hf hn, cutAll_cut_of_second ho' hf hn,
          ih (d ++ (v ++ a)).length (by omega) _ rfl]

theorem cutAll_comm {v w : Text} (ho : ¬ Overlap v w) (fragments : List Text) :
    cutAll (cutAll fragments v) w = cutAll (cutAll fragments w) v := by
  have hc (u u' : Text) : cutAll (cutAll fragments u) u' =
      fragments.flatMap fun t ↦ cutAll (t.cut u) u' := List.flatMap_assoc
  rw [hc, hc]
  exact List.flatMap_congr fun t _ ↦ cutAll_cut_comm ho t

section Set

variable {words : List Text} (hn : [] ∉ words)
  (ho : ∀ v ∈ words, ∀ w ∈ words, v ≠ w → ¬ Overlap v w)

include ho

theorem foldl_cutAll_perm {words' : List Text} (hp : words.Perm words') (fragments : List Text) :
    words.foldl cutAll fragments = words'.foldl cutAll fragments := by
  refine hp.foldl_eq' (fun v hv w hw fs ↦ ?_) fragments
  by_cases h : v = w
  · rw [h]
  · exact cutAll_comm (ho v hv w hw h) fs

include hn

/-- A word at which the fragments will be cut anyway need not be cut at before. -/
theorem foldl_cutAll_cutAll {w : Text} (hw : w ∈ words) (fragments : List Text) :
    words.foldl cutAll (cutAll fragments w) = words.foldl cutAll fragments := by
  have hp := List.perm_cons_erase hw
  have hne : w ≠ [] := fun h ↦ hn (h ▸ hw)
  rw [foldl_cutAll_perm ho hp, foldl_cutAll_perm ho hp, List.foldl_cons, List.foldl_cons,
    cutAll_cutAll_self hne]

theorem foldl_cutAll_append_of_subset {earlier : List Text} (he : earlier ⊆ words)
    (fragments : List Text) :
    (earlier ++ words).foldl cutAll fragments = words.foldl cutAll fragments := by
  induction earlier generalizing fragments with
  | nil => rfl
  | cons w earlier ih =>
    obtain ⟨hw, he⟩ := List.cons_subset.1 he
    rw [List.cons_append, List.foldl_cons, ih he, foldl_cutAll_cutAll hn ho hw]

end Set

/-- Words that do not overlap cut a text into the same fragments in whatever order and however often
they are given. -/
theorem splitWords?_of_same_words {words words' : List Text} (hn : [] ∉ words)
    (ho : ∀ v ∈ words, ∀ w ∈ words, v ≠ w → ¬ Overlap v w)
    (hs : ∀ w, w ∈ words' ↔ w ∈ words) (t : Text) :
    t.splitWords? words = some (t.splitWords words) ∧
      t.splitWords? words' = some (t.splitWords words) := by
  have hn' : [] ∉ words' := fun h ↦ hn ((hs []).1 h)
  have ho' : ∀ v ∈ words', ∀ w ∈ words', v ≠ w → ¬ Overlap v w := fun v hv w hw ↦
    ho v ((hs v).1 hv) w ((hs w).1 hw)
  have hm : ∀ v ∈ words' ++ words, v ∈ words := by
    intro v hv
    rcases List.mem_append.1 hv with hv | hv
    · exact (hs v).1 hv
    · exact hv
  have he : t.splitWords words' = t.splitWords words := by
    calc t.splitWords words'
      _ = (words ++ words').foldl cutAll t.fragment :=
        (foldl_cutAll_append_of_subset hn' ho' (fun v hv ↦ (hs v).2 hv) t.fragment).symm
      _ = (words' ++ words).foldl cutAll t.fragment :=
        (foldl_cutAll_perm (fun v hv w hw ↦ ho v (hm v hv) w (hm w hw))
          List.perm_append_comm t.fragment).symm
      _ = t.splitWords words :=
        foldl_cutAll_append_of_subset hn ho (fun v hv ↦ (hs v).1 hv) t.fragment
  simp [splitWords?, hn, hn', he]

/-- Each of the two words overlaps with itself, but not with the other one. -/
theorem splitWords?_of_same_words_overlapping_themselves :
    let words : List Text := [['a', 'a'], ['b', 'b']]
    let words' : List Text := [['b', 'b'], ['a', 'a'], ['b', 'b']]
    let t : Text := "aaabbbaab".toList
    let fragments : List Text := [['a', 'a'], ['a'], ['b', 'b'], ['b'], ['a', 'a'], ['b']]
    [] ∉ words ∧ (∀ v ∈ words, ∀ w ∈ words, v ≠ w → ¬ Overlap v w) ∧
      (∀ w, w ∈ words' ↔ w ∈ words) ∧ t.splitWords words = fragments ∧
      t.splitWords? words' = some fragments := by
  intro words words' t fragments
  have hn : [] ∉ words := by decide
  have ho : ∀ v ∈ words, ∀ w ∈ words, v ≠ w → ¬ Overlap v w := by decide
  have hs : ∀ w, w ∈ words' ↔ w ∈ words := by
    intro w
    simp only [words, words', List.mem_cons, List.not_mem_nil, or_false]
    constructor
    · rintro (h | h | h)
      · exact .inr h
      · exact .inl h
      · exact .inr h
    · rintro (h | h)
      · exact .inr (.inl h)
      · exact .inl h
  have ht : t.splitWords words = fragments := by decide +kernel
  exact ⟨hn, ho, hs, ht, ht ▸ (splitWords?_of_same_words hn ho hs t).2⟩

example :
    let v : Text := ['違', 'う', 'な', 'ら']
    let w : Text := ['な', 'ら', 'ば']
    Overlap v w ∧ splitWords "違うならば".toList [v, w] ≠ splitWords "違うならば".toList [w, v] := by
  decide +kernel

end Text

end Kotoba
