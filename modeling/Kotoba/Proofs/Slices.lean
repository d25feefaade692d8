import Kotoba.Proofs.Excerpt
import Kotoba.Proofs.Fragments

/-!
Cutting again what has been cut. Fragments that follow each other are put together and cut at the
same words: this gives back the fragments, as long as no word overlaps with itself or stands in
another one. A word may well begin as another one ends: whichever comes first in the order of
cutting is a fragment wherever it stands in the text, so that no end of a fragment is inside it. For
tokens this makes every stretch of them the tokens of its own text.
-/

namespace Kotoba

section Nested

variable {α : Type} {A B X Y : List (List α)}

/-- No place between two of the lists is inside one of them. -/
theorem not_flatten_eq_append {p q : List α} (hp : p ≠ []) (hq : q ≠ [])
    (h : X ++ (p ++ q) :: Y = A ++ B) : A.flatten ≠ X.flatten ++ p := by
  intro hf
  have hlen := congrArg List.length hf
  have hlp := List.length_pos_iff.2 hp
  have hlq := List.length_pos_iff.2 hq
  rcases List.append_eq_append_iff.1 h with ⟨C, rfl, hC⟩ | ⟨C, rfl, -⟩
  · cases C with
    | nil =>
      simp only [List.append_nil, List.length_append] at hlen
      omega
    | cons c C =>
      obtain ⟨rfl, rfl⟩ := List.cons.inj hC
      simp only [List.flatten_append, List.flatten_cons, List.length_append] at hlen
      omega
  · simp only [List.flatten_append, List.length_append] at hlen
    omega

theorem append_inj_of_flatten (hn : ∀ l ∈ A ++ B, l ≠ []) (h : X ++ Y = A ++ B)
    (hf : A.flatten = X.flatten) : X = A ∧ Y = B := by
  have hnil {C : List (List α)} (hC : ∀ l ∈ C, l ≠ []) (he : C.flatten = []) : C = [] := by
    cases C with
    | nil => rfl
    | cons c C => exact absurd (List.append_eq_nil_iff.1 he).1 (hC c List.mem_cons_self)
  rcases List.append_eq_append_iff.1 h with ⟨C, rfl, rfl⟩ | ⟨C, rfl, rfl⟩
  · obtain rfl : C = [] := hnil (fun l hl ↦ hn l (by simp [hl])) (by simpa using hf)
    simp
  · obtain rfl : C = [] := hnil (fun l hl ↦ hn l (by simp [hl])) (by simpa using hf)
    simp

end Nested

namespace Text

/-- The word stands across the place where the two texts meet. -/
def Across (word m n : Text) : Prop :=
  ∃ a p q b, m = a ++ p ∧ n = q ++ b ∧ p ≠ [] ∧ q ≠ [] ∧ word = p ++ q

theorem Across.append {word m n : Text} (h : Across word m n) (l : Text) :
    Across word (l ++ m) n := by
  obtain ⟨a, p, q, b, rfl, hn, hp, hq, hw⟩ := h
  exact ⟨l ++ a, p, q, b, (List.append_assoc l a p).symm, hn, hp, hq, hw⟩

theorem breakOn_append_of_not_across {word m n : Text} (h : ¬ Across word m n)
    (hm : m.breakOn word = none) :
    (m ++ n).breakOn word = (n.breakOn word).map fun p ↦ (m ++ p.1, p.2) := by
  induction m with
  | nil => simp
  | cons c m ih =>
    simp only [breakOn] at hm
    split at hm
    · simp at hm
    · next hp =>
      have hn : ¬ word.isPrefixOf (c :: (m ++ n)) := by
        intro hq
        rcases prefix_append_cases (m := c :: m) (List.isPrefixOf_iff_prefix.1 hq) with
          hq | ⟨q, hne, hw, b, hb⟩
        · exact hp (List.isPrefixOf_iff_prefix.2 hq)
        · exact h ⟨[], c :: m, q, b, rfl, hb.symm, List.cons_ne_nil c m, hne, hw⟩
      have hi := ih (fun ha ↦ h (ha.append [c])) (by simpa using hm)
      rw [List.cons_append, breakOn, if_neg hn, hi, Option.map_map]
      rfl

/-- Where the word does not stand across, both texts are cut on their own, but for the pieces that
meet there. -/
theorem cut_append_of_not_across {word m n : Text} (h : ¬ Across word m n) :
    ∃ C m' n' D, m.cut word = C ++ fragment m' ∧ n.cut word = fragment n' ++ D ∧
      (m ++ n).cut word = C ++ fragment (m' ++ n') ++ D := by
  fun_induction cut m word with
  | case1 m hw =>
    have hc (x : Text) : x.cut word = x.fragment := by rw [cut, dif_pos hw]
    exact ⟨[], m, n, [], by simp, by simp [hc], by simp [hc]⟩
  | case2 m hw hb =>
    have ha := breakOn_append_of_not_across h hb
    cases hn : n.breakOn word with
    | none =>
      refine ⟨[], m, n, [], by simp, by simp [cut_of_none hn], ?_⟩
      rw [cut_of_none (by rw [ha, hn]; rfl)]
      simp
    | some r =>
      refine ⟨[], m, r.1, word :: r.2.cut word, by simp, cut_of_some hw hn, ?_⟩
      rw [cut_of_some hw (by rw [ha, hn]; rfl)]
      simp
  | case3 m hw before after hb ih =>
    have hm := append_of_breakOn hb
    obtain ⟨C, m', n', D, hc, hd, hcd⟩ := ih fun ha ↦ h (hm ▸ ha.append (before ++ word))
    refine ⟨before.fragment ++ word :: C, m', n', D, by simp [hc], hd, ?_⟩
    rw [cut_of_some hw (breakOn_append_of_some hb n), hcd]
    simp

theorem fragment_append (m n : Text) :
    fragment (m ++ n) = m.fragment ++ n.fragment ∨ m ≠ [] ∧ n ≠ [] := by
  by_cases hm : m = []
  · simp [hm, fragment]
  · by_cases hn : n = []
    · simp [hn, fragment]
    · exact .inr ⟨hm, hn⟩

section Again

variable {words : List Text} (ha : Apart words) (hu : ∀ w ∈ words, Unbordered w)

include ha

theorem Apart.foldl_cutAll_word {later : List Text} (hl : ∀ v ∈ later, v ∈ words) {w : Text}
    (hw : w ∈ words) (X Y : List Text) :
    later.foldl cutAll (X ++ w :: Y) = later.foldl cutAll X ++ w :: later.foldl cutAll Y := by
  have hs : later.foldl cutAll [w] = [w] := by
    induction later with
    | nil => rfl
    | cons v later ih =>
      have hc : cutAll [w] v = [w] := by
        rw [cutAll, List.flatMap_singleton, ha.cut_eq hw (hl v List.mem_cons_self)]
      rw [List.foldl_cons, hc]
      exact ih fun u hu ↦ hl u (List.mem_cons_of_mem v hu)
  rw [← List.singleton_append, foldl_cutAll_append, foldl_cutAll_append, hs]
  rfl

include hu

/-- If the finished fragments end where `m` and `n` meet, then what is before that place and what is
after it are cut on their own. -/
theorem Apart.foldl_cutAll_append_inj {later P Q A B : List Text} {m n : Text}
    (hl : ∀ w ∈ later, w ∈ words) (hn : ∀ f ∈ A ++ B, f ≠ [])
    (h : later.foldl cutAll (P ++ fragment (m ++ n) ++ Q) = A ++ B)
    (hA : A.flatten = P.flatten ++ m) :
    later.foldl cutAll (P ++ m.fragment) = A ∧ later.foldl cutAll (n.fragment ++ Q) = B := by
  induction later generalizing P Q m n with
  | nil =>
    rw [List.foldl_nil] at h
    rcases fragment_append m n with hf | ⟨hm, hn'⟩
    · rw [hf, List.append_assoc, List.append_assoc, ← List.append_assoc] at h
      exact append_inj_of_flatten hn h (by simp [hA])
    · rw [fragment_of_ne_nil (by simp [hm]), List.append_assoc, List.singleton_append] at h
      exact absurd hA (not_flatten_eq_append hm hn' h)
  | cons w later ih =>
    have hw := hl w List.mem_cons_self
    have hl' : ∀ v ∈ later, v ∈ words := fun v hv ↦ hl v (List.mem_cons_of_mem w hv)
    rw [List.foldl_cons, cutAll_append, cutAll_append, cutAll_fragment] at h
    by_cases hc : Across w m n
    · -- The word would be a fragment, and the fragments would end inside it.
      obtain ⟨a, p, q, b, rfl, rfl, hp, hq, rfl⟩ := hc
      have hs : a ++ p ++ (q ++ b) = a ++ (p ++ q) ++ b := by simp
      rw [hs, cut_append_self (ha.ne_nil _ hw) (hu _ hw), ← List.append_assoc, List.append_assoc,
        List.cons_append, ha.foldl_cutAll_word hl' hw] at h
      refine absurd ?_ (not_flatten_eq_append hp hq h)
      rw [flatten_foldl_cutAll, List.flatten_append, flatten_cutAll, flatten_cut, hA,
        List.append_assoc]
    · obtain ⟨C, m', n', D, hm, hn', hmn⟩ := cut_append_of_not_across hc
      have hf : m = C.flatten ++ m' := by rw [← flatten_cut m w, hm]; simp
      rw [hmn] at h
      have hi := ih (P := cutAll P w ++ C) (Q := D ++ cutAll Q w) (m := m') (n := n') hl'
        (by simpa using h) (by rw [List.flatten_append, flatten_cutAll, hA, hf, List.append_assoc])
      rw [List.foldl_cons, List.foldl_cons, cutAll_append, cutAll_append, cutAll_fragment,
        cutAll_fragment, hm, hn']
      simpa using hi

theorem Apart.splitWords_append_inj {m n : Text} {A B : List Text}
    (h : (m ++ n).splitWords words = A ++ B) (hA : A.flatten = m) :
    m.splitWords words = A ∧ n.splitWords words = B := by
  have hn : ∀ f ∈ A ++ B, f ≠ [] := fun f hf ↦ ne_nil_of_mem_splitWords (h ▸ hf)
  have hi := ha.foldl_cutAll_append_inj hu (P := []) (Q := []) (fun _ hw ↦ hw) hn
    (by simpa [splitWords] using h) (by simpa using hA)
  simpa [splitWords] using hi

/-- A stretch of the fragments of a text is what its own text is cut into. -/
theorem Apart.splitWords_slice {t : Text} {A S B : List Text}
    (h : t.splitWords words = A ++ S ++ B) : splitWords S.flatten words = S := by
  have ht : t = A.flatten ++ S.flatten ++ B.flatten := by
    rw [← flatten_splitWords t words, h]
    simp
  rw [ht] at h
  have hAS := (ha.splitWords_append_inj hu h (by simp)).1
  exact (ha.splitWords_append_inj hu hAS rfl).2

end Again

end Text

theorem unbordered_allWords : ∀ w ∈ allWords, Text.Unbordered w := by decide

/-- The tokens of the text of a stretch of tokens, counted from its first line, are the stretch. -/
theorem tokenize_render_slice {t : Text} {line : Int} {before ts after : List Token} {first : Token}
    (h : tokenize t line = before ++ first :: ts ++ after) :
    tokenize (Token.render (first :: ts)) first.line = first :: ts := by
  have hs : Token.render (first :: ts) <:+: t.normalize := by
    rw [← Token.render_tokenize t line, h]
    exact Token.render_slice (List.infix_append before (first :: ts) after)
  have hw : t.normalize.splitWords allWords =
      before.map Token.text ++ (first :: ts).map Token.text ++ after.map Token.text := by
    rw [← Token.map_text_number line (t.normalize.splitWords allWords), ← List.map_append,
      ← List.map_append, ← h]
    rfl
  have hc := apart_allWords.splitWords_slice unbordered_allWords hw
  have hn := Token.number_slice h
  have hf : first.line = line + (before.map Token.text).count ['\n'] := by
    have hh := congrArg List.head? hn
    rw [List.map_cons, Token.number] at hh
    exact congrArg Token.line (Option.some.inj hh)
  unfold tokenize
  rw [Text.normalize_slice hs, Token.render, List.flatMap_def, hc, hf, ← hn]

/-- Two words stand in the text of the stretch, the end of one being the beginning of the other. -/
theorem tokenize_render_slice_where_words_overlap :
    let first : Token := ⟨['違', 'う'], 4⟩
    let ts : List Token := [⟨['な', 'ら', 'ば'], 4⟩]
    tokenize "もし\n違うならば。".toList 3 =
        [⟨['も', 'し'], 3⟩, ⟨['\n'], 3⟩] ++ first :: ts ++ [⟨['。'], 4⟩] ∧
      tokenize ['違', 'う', 'な', 'ら', 'ば'] 4 = first :: ts := by
  intro first ts
  have h : tokenize "もし\n違うならば。".toList 3 =
      [⟨['も', 'し'], 3⟩, ⟨['\n'], 3⟩] ++ first :: ts ++ [⟨['。'], 4⟩] := by decide +kernel
  have hr : tokenize (Token.render (first :: ts)) first.line = first :: ts :=
    tokenize_render_slice h
  exact ⟨h, hr⟩

end Kotoba
