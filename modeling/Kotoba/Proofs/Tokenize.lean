import Kotoba.Token

/-!
Cutting a text at a word that has no character in common with the others. Such a word is a fragment
wherever it stands, whatever other words the text is cut at, so that the texts on its two sides are
cut on their own. For tokens this gives the law of concatenation at the end of a line.
-/

namespace Kotoba

namespace Text

theorem breakOn_append_of_some {t word before after : Text}
    (h : t.breakOn word = some (before, after)) (u : Text) :
    (t ++ u).breakOn word = some (before, after ++ u) := by
  induction t generalizing before with
  | nil =>
    obtain rfl : word = [] := by
      by_cases hw : word = []
      · exact hw
      · simp [breakOn, hw] at h
    obtain ⟨rfl, rfl⟩ : [] = before ∧ [] = after := by simpa [breakOn] using h
    cases u <;> simp [breakOn]
  | cons c t ih =>
    simp only [breakOn, List.cons_append] at h ⊢
    split at h
    · next hp =>
      obtain ⟨rfl, rfl⟩ : [] = before ∧ (c :: t).drop word.length = after := by simpa using h
      have hq := List.isPrefixOf_iff_prefix.1 hp
      have hu : word.isPrefixOf (c :: (t ++ u)) :=
        List.isPrefixOf_iff_prefix.2 (hq.trans (List.prefix_append (c :: t) u))
      rw [if_pos hu, ← List.cons_append, List.drop_append_of_le_length hq.length_le]
    · next hp =>
      obtain ⟨p, hb, hp'⟩ := Option.map_eq_some_iff.1 h
      obtain ⟨rfl, rfl⟩ : c :: p.1 = before ∧ p.2 = after := by simpa using hp'
      -- The word stands in `t`, so it is too short to reach into `u` from here.
      have hl := length_of_breakOn hb
      have hn : ¬ word.isPrefixOf (c :: (t ++ u)) := by
        intro hq
        refine hp (List.isPrefixOf_iff_prefix.2 ?_)
        exact List.prefix_of_prefix_length_le (List.isPrefixOf_iff_prefix.1 hq)
          (List.prefix_append (c :: t) u) (by simp only [List.length_cons]; omega)
      rw [if_neg hn, ih hb]
      rfl

/-- A word that begins a text is in the first part of it or reaches into the second. -/
theorem prefix_append_cases {word m n : Text} (h : word <+: m ++ n) :
    word <+: m ∨ ∃ q, q ≠ [] ∧ word = m ++ q ∧ q <+: n := by
  by_cases hl : word.length ≤ m.length
  · exact .inl (List.prefix_of_prefix_length_le h (List.prefix_append m n) hl)
  · have hm : m <+: word :=
      List.prefix_of_prefix_length_le (List.prefix_append m n) h (Nat.le_of_not_le hl)
    obtain ⟨q, rfl⟩ := hm
    refine .inr ⟨q, ?_, rfl, (List.prefix_append_right_inj m).1 h⟩
    rintro rfl
    simp at hl

theorem not_prefix_append_cons {t word u : Text} {k : Char} (hk : k ∉ word)
    (h : ¬ word.isPrefixOf t) : ¬ word.isPrefixOf (t ++ k :: u) := by
  intro hp
  rcases prefix_append_cases (List.isPrefixOf_iff_prefix.1 hp) with hp | ⟨q, hn, rfl, hq⟩
  · exact h (List.isPrefixOf_iff_prefix.2 hp)
  · obtain ⟨c, q, rfl⟩ := List.exists_cons_of_ne_nil hn
    rw [List.cons_prefix_cons] at hq
    exact hk (by simp [hq.1])

theorem breakOn_append_cons_of_none {t word : Text} {k : Char} (hk : k ∉ word)
    (h : t.breakOn word = none) (u : Text) :
    (t ++ k :: u).breakOn word = (u.breakOn word).map fun p ↦ (t ++ k :: p.1, p.2) := by
  induction t with
  | nil =>
    have hw : word ≠ [] := by
      rintro rfl
      simp [breakOn] at h
    have hn : ¬ word.isPrefixOf ([] ++ k :: u) :=
      not_prefix_append_cons hk fun hp ↦ hw (by simpa using hp)
    simp only [List.nil_append, breakOn] at hn ⊢
    rw [if_neg hn]
  | cons c t ih =>
    simp only [breakOn] at h
    split at h
    · simp at h
    · next hp =>
      have hn : ¬ word.isPrefixOf (c :: t ++ k :: u) := not_prefix_append_cons hk hp
      simp only [List.cons_append, breakOn] at hn ⊢
      rw [if_neg hn, ih (by simpa using h), Option.map_map]
      rfl

/-- A text that has no character in common with the word only pushes it back. -/
theorem breakOn_append_disjoint {t m word : Text} (hm : m ≠ []) (hd : ∀ c ∈ m, c ∉ word)
    (h : t.breakOn word = none) (u : Text) :
    (t ++ m ++ u).breakOn word = (u.breakOn word).map fun p ↦ (t ++ m ++ p.1, p.2) := by
  have hn : breakOn [] word = none := by
    rw [breakOn, if_neg]
    rintro rfl
    cases t <;> simp [breakOn] at h
  induction m generalizing t with
  | nil => exact absurd rfl hm
  | cons k m ih =>
    rw [List.append_assoc, List.cons_append,
      breakOn_append_cons_of_none (hd k List.mem_cons_self) h]
    by_cases hm : m = []
    · simp [hm]
    · have hi := ih hm (fun c hc ↦ hd c (List.mem_cons_of_mem k hc)) hn
      rw [List.nil_append] at hi
      rw [hi, Option.map_map]
      simp [Function.comp_def]

/-- No end of the word but the whole is a beginning of it, so that it does not overlap with
itself. -/
def Unbordered (word : Text) : Prop := ∀ i < word.length, 0 < i → ¬ word.drop i <+: word

instance (word : Text) : Decidable (Unbordered word) :=
  inferInstanceAs (Decidable (∀ i < word.length, 0 < i → ¬ word.drop i <+: word))

theorem unbordered_cons {k : Char} {l : Text} (hk : k ∉ l) : Unbordered (k :: l) := by
  intro i hi hp h
  obtain ⟨j, rfl⟩ := Nat.exists_eq_succ_of_ne_zero (Nat.ne_of_gt hp)
  rw [List.drop_succ_cons] at h
  have hj : j < l.length := Nat.lt_of_succ_lt_succ hi
  rw [List.drop_eq_getElem_cons hj, List.cons_prefix_cons] at h
  exact hk (h.1 ▸ List.getElem_mem hj)

/-- Where a word that does not overlap with itself stands behind a text without it, it stands
first. -/
theorem breakOn_append_self {t word : Text} (hw : word ≠ []) (hu : Unbordered word)
    (h : t.breakOn word = none) (u : Text) : (t ++ word ++ u).breakOn word = some (t, u) := by
  induction t with
  | nil =>
    obtain ⟨k, l, rfl⟩ := List.exists_cons_of_ne_nil hw
    simp [breakOn]
  | cons c t ih =>
    simp only [breakOn] at h
    split at h
    · simp at h
    · next hp =>
      have hn : ¬ word.isPrefixOf (c :: (t ++ word ++ u)) := by
        intro hq
        have hq : word <+: (c :: t) ++ (word ++ u) := by
          simpa using List.isPrefixOf_iff_prefix.1 hq
        rcases prefix_append_cases hq with hq | ⟨q, hn, he, hq⟩
        · exact hp (List.isPrefixOf_iff_prefix.2 hq)
        · -- The part of it behind `t` would be an end of the word that it begins with.
          have hl := congrArg List.length he
          have hlq := List.length_pos_iff.2 hn
          rw [List.length_append, List.length_cons] at hl
          have hd : word.drop (t.length + 1) = q := by rw [he]; simp
          refine hu (t.length + 1) (by omega) (by omega) ?_
          rw [hd]
          exact List.prefix_of_prefix_length_le hq (List.prefix_append word u) (by omega)
      rw [List.cons_append, List.cons_append, breakOn, if_neg hn, ih (by simpa using h)]
      rfl

theorem cut_nil (word : Text) : cut [] word = [] := by
  unfold cut
  split
  · rfl
  · next hw =>
    split
    · rfl
    · next h => simp [breakOn, hw] at h

theorem cut_of_none {t word : Text} (h : t.breakOn word = none) : t.cut word = t.fragment := by
  unfold cut
  split
  · rfl
  · split
    · rfl
    · next h' => simp [h] at h'

theorem cut_of_some {t word before after : Text} (hw : word ≠ [])
    (h : t.breakOn word = some (before, after)) :
    t.cut word = before.fragment ++ word :: after.cut word := by
  rw [cut, dif_neg hw]
  split
  · next h' => simp [h] at h'
  · next h' =>
    rw [h] at h'
    cases h'
    rfl

theorem fragment_of_ne_nil {t : Text} (h : t ≠ []) : t.fragment = [t] := if_neg h

/-- A word cuts neither through a text with which it has no character in common nor next to it: the
last piece of the text before and the first piece of the text after are joined by it. -/
theorem cut_append_disjoint {word w : Text} (hw : w ≠ []) (hd : ∀ c ∈ w, c ∉ word) (t u : Text) :
    ∃ A m n B, t.cut word = A ++ fragment m ∧ u.cut word = fragment n ++ B ∧
      (t ++ w ++ u).cut word = A ++ (m ++ w ++ n) :: B := by
  have hne (m n : Text) : fragment (m ++ w ++ n) = [m ++ w ++ n] :=
    fragment_of_ne_nil (by simp [hw])
  fun_induction cut t word with
  | case1 t hn =>
    have hc (x : Text) : x.cut word = x.fragment := by rw [cut, dif_pos hn]
    exact ⟨[], t, u, [], by simp, by simp [hc], by simp only [hc, hne, List.nil_append]⟩
  | case2 t hn h =>
    have hb := breakOn_append_disjoint hw hd h u
    cases hu : u.breakOn word with
    | none =>
      refine ⟨[], t, u, [], by simp, by simp [cut_of_none hu], ?_⟩
      rw [cut_of_none (by rw [hb, hu]; rfl), hne]
      rfl
    | some r =>
      obtain ⟨p, q⟩ := r
      refine ⟨[], t, p, word :: q.cut word, by simp, cut_of_some hn hu, ?_⟩
      rw [cut_of_some hn (by rw [hb, hu]; rfl), hne]
      rfl
  | case3 t hn before after h ih =>
    obtain ⟨A, m, n, B, ha, hu, hc⟩ := ih
    refine ⟨before.fragment ++ word :: A, m, n, B, by simp [ha], hu, ?_⟩
    rw [List.append_assoc, cut_of_some hn (breakOn_append_of_some h (w ++ u)), ← List.append_assoc,
      hc]
    simp

theorem cut_append_self {word : Text} (hw : word ≠ []) (hu : Unbordered word) (t u : Text) :
    (t ++ word ++ u).cut word = t.cut word ++ word :: u.cut word := by
  fun_induction cut t word with
  | case1 t hn => exact absurd hn hw
  | case2 t _ h => rw [cut_of_some hw (breakOn_append_self hw hu h u)]
  | case3 t _ before after h ih =>
    rw [List.append_assoc, cut_of_some hw (breakOn_append_of_some h (word ++ u)),
      ← List.append_assoc, ih]
    simp

theorem cut_of_disjoint {t v : Text} (h : ∀ c ∈ v, c ∉ t) : t.cut v = t.fragment := by
  cases v with
  | nil => rw [cut, dif_pos rfl]
  | cons c v =>
    refine cut_of_none ?_
    cases hb : t.breakOn (c :: v) with
    | none => rfl
    | some p => exact absurd (by rw [append_of_breakOn hb]; simp) (h c List.mem_cons_self)

theorem cutAll_append (xs ys : List Text) (word : Text) :
    cutAll (xs ++ ys) word = cutAll xs word ++ cutAll ys word := List.flatMap_append

theorem cutAll_fragment (t word : Text) : cutAll t.fragment word = t.cut word := by
  by_cases h : t = []
  · subst h
    rw [cut_nil]
    rfl
  · simp [cutAll, fragment_of_ne_nil h]

theorem foldl_cutAll_append (words xs ys : List Text) :
    words.foldl cutAll (xs ++ ys) = words.foldl cutAll xs ++ words.foldl cutAll ys := by
  induction words generalizing xs ys with
  | nil => rfl
  | cons w words ih => rw [List.foldl_cons, cutAll_append, ih, List.foldl_cons, List.foldl_cons]

/-- As `cut_append_disjoint`, for words one after the other. -/
theorem foldl_cutAll_append_disjoint {words : List Text} {w : Text} (hw : w ≠ [])
    (hd : ∀ v ∈ words, ∀ c ∈ w, c ∉ v) (A : List Text) (m n : Text) (B : List Text) :
    ∃ A' m' n' B', words.foldl cutAll (A ++ m.fragment) = A' ++ fragment m' ∧
      words.foldl cutAll (n.fragment ++ B) = fragment n' ++ B' ∧
      words.foldl cutAll (A ++ (m ++ w ++ n) :: B) = A' ++ (m' ++ w ++ n') :: B' := by
  induction words generalizing A m n B with
  | nil => exact ⟨A, m, n, B, rfl, rfl, rfl⟩
  | cons v words ih =>
    obtain ⟨C, m', n', D, hm, hn, hc⟩ := cut_append_disjoint hw (hd v (by simp)) m n
    have ha : cutAll (A ++ m.fragment) v = (cutAll A v ++ C) ++ fragment m' := by
      rw [cutAll_append, cutAll_fragment, hm, List.append_assoc]
    have hb : cutAll (n.fragment ++ B) v = fragment n' ++ (D ++ cutAll B v) := by
      rw [cutAll_append, cutAll_fragment, hn, List.append_assoc]
    have hab : cutAll (A ++ (m ++ w ++ n) :: B) v =
        (cutAll A v ++ C) ++ (m' ++ w ++ n') :: (D ++ cutAll B v) := by
      rw [← List.singleton_append, cutAll_append, cutAll_append,
        ← fragment_of_ne_nil (t := m ++ w ++ n) (by simp [hw]), cutAll_fragment, hc]
      simp
    simp only [List.foldl_cons, ha, hb, hab]
    exact ih (fun u hu ↦ hd u (by simp [hu])) _ m' n' _

/-- The text is one of the words, has no character in common with the others, and does not overlap
with itself. -/
structure Solitary (w : Text) (words : List Text) : Prop where
  mem : w ∈ words
  once : ∃ k l, w = k :: l ∧ k ∉ l
  disjoint : ∀ v ∈ words, v ≠ w → ∀ c ∈ w, c ∉ v

namespace Solitary

variable {w : Text} {words : List Text} (h : Solitary w words)

include h

theorem ne_nil : w ≠ [] := by
  obtain ⟨k, l, rfl, -⟩ := h.once
  exact List.cons_ne_nil k l

theorem unbordered : Unbordered w := by
  obtain ⟨k, l, rfl, hk⟩ := h.once
  exact unbordered_cons hk

theorem cut_eq {v : Text} (hv : v ∈ words) : w.cut v = [w] := by
  by_cases he : v = w
  · have hc := cut_append_self h.ne_nil h.unbordered [] []
    rw [cut_nil] at hc
    rw [he]
    simpa using hc
  · rw [cut_of_disjoint fun c hc hm ↦ h.disjoint v hv he c hm hc, fragment_of_ne_nil h.ne_nil]

theorem foldl_cutAll_singleton {later : List Text} (hl : ∀ v ∈ later, v ∈ words) :
    later.foldl cutAll [w] = [w] := by
  induction later with
  | nil => rfl
  | cons v later ih =>
    have hc : cutAll [w] v = [w] := by
      rw [cutAll, List.flatMap_singleton, h.cut_eq (hl v List.mem_cons_self)]
    rw [List.foldl_cons, hc]
    exact ih fun u hu ↦ hl u (List.mem_cons_of_mem v hu)

/-- Such a word is a fragment wherever it stands. -/
theorem splitWords_append (t u : Text) :
    (t ++ w ++ u).splitWords words = t.splitWords words ++ w :: u.splitWords words := by
  obtain ⟨earlier, later, rfl, hn⟩ := List.eq_append_cons_of_mem h.mem
  have he : ∀ v ∈ earlier, ∀ c ∈ w, c ∉ v := fun v hv ↦
    h.disjoint v (by simp [hv]) fun hvw ↦ hn (hvw ▸ hv)
  obtain ⟨A, m, n, B, ha, hb, hc⟩ := foldl_cutAll_append_disjoint h.ne_nil he [] t u []
  have hmid : cutAll (A ++ (m ++ w ++ n) :: B) w =
      cutAll (A ++ m.fragment) w ++ ([w] ++ cutAll (n.fragment ++ B) w) := by
    rw [← List.singleton_append, cutAll_append, cutAll_append,
      ← fragment_of_ne_nil (t := m ++ w ++ n) (by simp [h.ne_nil]), cutAll_fragment,
      cut_append_self h.ne_nil h.unbordered, cutAll_append, cutAll_append, cutAll_fragment,
      cutAll_fragment]
    simp
  have hs : later.foldl cutAll [w] = [w] := h.foldl_cutAll_singleton fun v hv ↦ by simp [hv]
  simp only [List.nil_append, List.append_nil] at ha hb hc
  unfold splitWords
  rw [fragment_of_ne_nil (by simp [h.ne_nil]), List.foldl_append, List.foldl_append,
    List.foldl_append, List.foldl_cons, List.foldl_cons, List.foldl_cons, hc, hmid,
    foldl_cutAll_append, foldl_cutAll_append, hs, ← ha, ← hb]
  rfl

end Solitary

/-- Words that have `k` in them are `k` alone, and `k` is one of them. -/
def Alone (k : Char) (words : List Text) : Prop := [k] ∈ words ∧ ∀ w ∈ words, k ∈ w → w = [k]

instance (k : Char) (words : List Text) : Decidable (Alone k words) :=
  inferInstanceAs (Decidable ([k] ∈ words ∧ ∀ w ∈ words, k ∈ w → w = [k]))

theorem Alone.solitary {words : List Text} {k : Char} (h : Alone k words) : Solitary [k] words := by
  refine ⟨h.1, ⟨k, [], rfl, List.not_mem_nil⟩, ?_⟩
  intro v hv hne c hc hm
  rw [List.mem_singleton.1 hc] at hm
  exact hne (h.2 v hv hm)

theorem splitWords_append_cons {words : List Text} {k : Char} (h : Alone k words) (t u : Text) :
    (t ++ k :: u).splitWords words = t.splitWords words ++ [k] :: u.splitWords words := by
  have hs := h.solitary.splitWords_append t u
  rwa [List.append_assoc, List.singleton_append] at hs

@[simp]
theorem splitWords_nil (words : List Text) : splitWords [] words = [] := by
  show words.foldl cutAll [] = []
  induction words with
  | nil => rfl
  | cons w words ih => exact ih

/-- As many fragments are the word as the text has of its character. -/
theorem count_splitWords {words : List Text} {k : Char} (h : Alone k words) (t : Text) :
    (t.splitWords words).count [k] = t.count k := by
  induction hl : t.length using Nat.strongRecOn generalizing t with
  | _ l ih =>
    by_cases hk : k ∈ t
    · obtain ⟨a, b, rfl, -⟩ := List.eq_append_cons_of_mem hk
      simp only [List.length_append, List.length_cons] at hl
      rw [splitWords_append_cons h, List.count_append, List.count_cons_self, List.count_append,
        List.count_cons_self, ih a.length (by omega) a rfl, ih b.length (by omega) b rfl]
    · have hf : [k] ∉ t.splitWords words := fun hm ↦
        hk (flatten_splitWords t words ▸ List.mem_flatten.2 ⟨[k], hm, by simp⟩)
      rw [List.count_eq_zero.2 hf, List.count_eq_zero.2 hk]

end Text

namespace Token

theorem length_number (line : Int) (ws : List Text) : (number line ws).length = ws.length := by
  have h := congrArg List.length (map_text_number line ws)
  rwa [List.length_map] at h

theorem number_append (line : Int) (ws vs : List Text) :
    number line (ws ++ vs) = number line ws ++ number (line + ws.count ['\n']) vs := by
  induction ws generalizing line with
  | nil => simp [number]
  | cons w ws ih =>
    rw [List.cons_append, number, ih, number, List.cons_append, List.count_cons]
    by_cases h : w = ['\n']
    · simp [h, Int.add_assoc, Int.add_comm 1]
    · simp [h]

end Token

theorem toNat_ofNat_of_lt {n : Nat} (h : n < 0xD800) : (Char.ofNat n).toNat = n := by
  rw [Char.ofNat, dif_pos (Or.inl h)]
  rfl

/-- A wide character and its narrow form are letters or digits. -/
theorem isWide_bounds {c : Char} (h : isWide c = true) :
    0xFF10 ≤ c.toNat ∧ 48 ≤ (narrow c).toNat := by
  have hc : 0xFF10 ≤ c.toNat ∧ c.toNat ≤ 0xFF5A := by
    simp only [isWide, Bool.or_eq_true, Bool.and_eq_true, decide_eq_true_eq, Char.le_def,
      UInt32.le_iff_toNat_le, UInt32.reduceToNat, Char.reduceVal] at h
    unfold Char.toNat
    omega
  rw [narrow, if_pos h, toNat_ofNat_of_lt (by omega)]
  omega

/-- Folding makes no character a newline that was none. -/
theorem narrow_eq_newline {c : Char} : narrow c = '\n' ↔ c = '\n' := by
  by_cases h : isWide c
  · have hb := isWide_bounds h
    have hn : '\n'.toNat = 10 := rfl
    constructor
    · intro he
      rw [he] at hb
      omega
    · intro he
      rw [he] at hb
      omega
  · unfold narrow
    rw [if_neg h]
    split
    · next hc => subst hc; decide
    · split
      · next hc => subst hc; decide
      · exact Iff.rfl

@[simp]
theorem Text.normalize_append (t u : Text) : (t ++ u).normalize = t.normalize ++ u.normalize := by
  simp [normalize]

theorem Text.count_normalize (t : Text) : t.normalize.count '\n' = t.count '\n' := by
  rw [normalize, List.count_filter (by decide), List.count_eq_countP, List.countP_map,
    List.count_eq_countP]
  refine List.countP_congr fun c _ ↦ ?_
  simp [narrow_eq_newline]

theorem alone_newline : Text.Alone '\n' allWords := by decide

/-- A word of one character is a token wherever it stands. -/
theorem tokenize_append_cons {k : Char} (hk : Text.Alone k allWords) (hn : Text.normalize [k] = [k])
    (a b : Text) (line : Int) :
    tokenize (a ++ k :: b) line =
      tokenize a line ++ ⟨[k], line + a.count '\n'⟩ ::
        tokenize b (if k = '\n' then line + a.count '\n' + 1 else line + a.count '\n') := by
  have hs : (a ++ k :: b).normalize = a.normalize ++ k :: b.normalize := by
    rw [Text.normalize_append, ← List.singleton_append, Text.normalize_append, hn]
    rfl
  unfold tokenize
  rw [hs, Text.splitWords_append_cons hk, Token.number_append, Token.number,
    Text.count_splitWords alone_newline, Text.count_normalize]
  simp only [List.cons.injEq, and_true]

theorem alone_of_singleton_mem {k : Char} (h : [k] ∈ allWords) :
    Text.Alone k allWords ∧ Text.normalize [k] = [k] := by
  have hk : k = '\n' ∨ k = '。' ∨ k = '「' ∨ k = '」' ∨ k = '(' ∨ k = ')' ∨ k = 'を' ∨ k = '回' ∨
      k = 'を' := by
    simpa [allWords, WordClass.all, WordClass.words] using h
  rcases hk with rfl | rfl | rfl | rfl | rfl | rfl | rfl | rfl | rfl <;> decide

/-- What stands on the two sides of a word of one character, a delimiter, mark or bracket, `を` or
`回`, is cut on its own; only the lines are counted on across the word. -/
theorem tokenize_append_word {k : Char} (h : [k] ∈ allWords) (a b : Text) (line : Int) :
    let here := line + a.count '\n'
    let below := if k = '\n' then here + 1 else here
    tokenize (a ++ [k] ++ b) line = tokenize a line ++ [⟨[k], here⟩] ++ tokenize b below := by
  intro here below
  obtain ⟨ha, hn⟩ := alone_of_singleton_mem h
  rw [List.append_assoc, List.singleton_append, tokenize_append_cons ha hn, List.append_assoc,
    List.singleton_append]

/-- The parts of a longer word are kept apart by a word of one character in the middle of it. -/
theorem tokenize_append_word_inside_another :
    ['を'] ∈ allWords ∧
      tokenize "違うなら\nと".toList 3 =
        [⟨['違', 'う', 'な', 'ら'], 3⟩, ⟨['\n'], 3⟩, ⟨['と'], 4⟩] ∧
      tokenize "する\n回".toList 4 = [⟨['す', 'る'], 4⟩, ⟨['\n'], 4⟩, ⟨['回'], 5⟩] ∧
      tokenize "違うなら\nとをする\n回".toList 3 =
        tokenize "違うなら\nと".toList 3 ++ [⟨['を'], 4⟩] ++ tokenize "する\n回".toList 4 := by
  have h : ['を'] ∈ allWords := by decide
  exact ⟨h, by decide +kernel, by decide +kernel,
    tokenize_append_word h "違うなら\nと".toList "する\n回".toList 3⟩

theorem tokenize_nil (line : Int) : tokenize [] line = [] := by
  unfold tokenize
  rw [show Text.normalize [] = [] from rfl, Text.splitWords_nil]
  rfl

/-- A character that is a token wherever it stands, and ends no line. -/
def IsMark (k : Char) : Prop :=
  Text.Alone k allWords ∧ Text.normalize [k] = [k] ∧ k ≠ '\n'

instance (k : Char) : Decidable (IsMark k) :=
  inferInstanceAs (Decidable (Text.Alone k allWords ∧ Text.normalize [k] = [k] ∧ k ≠ '\n'))

theorem IsMark.tokenize_append_cons {k : Char} (hk : IsMark k) (a b : Text) (line : Int) :
    tokenize (a ++ k :: b) line =
      tokenize a line ++ ⟨[k], line + a.count '\n'⟩ :: tokenize b (line + a.count '\n') := by
  obtain ⟨ha, hn, hl⟩ := hk
  rw [Kotoba.tokenize_append_cons ha hn, if_neg hl]

/-- The tokens of a text between two marks, and of what follows. -/
theorem tokenize_enclosed {k k' : Char} (hk : IsMark k) (hk' : IsMark k') (t u : Text)
    (line : Int) :
    tokenize (k :: (t ++ k' :: u)) line =
      ⟨[k], line⟩ :: (tokenize t line ++ ⟨[k'], line + t.count '\n'⟩ ::
        tokenize u (line + t.count '\n')) := by
  have ho := hk.tokenize_append_cons [] (t ++ k' :: u) line
  rw [tokenize_nil, List.count_nil, Int.natCast_zero, Int.add_zero] at ho
  rw [← hk'.tokenize_append_cons t u line]
  exact ho

/-- The tokens of two texts, the first of which ends its last line. -/
theorem tokenize_append {s : Text} (h : s.getLast? = some '\n') (t : Text) (line : Int) :
    tokenize (s ++ t) line = tokenize s line ++ tokenize t (line + s.count '\n') := by
  obtain ⟨a, rfl⟩ := List.getLast?_eq_some_iff.1 h
  have hn : Text.normalize ['\n'] = ['\n'] := by decide
  have hs := tokenize_append_cons alone_newline hn a [] line
  have ht := tokenize_append_cons alone_newline hn a t line
  have hc : line + (a ++ ['\n']).count '\n' = line + a.count '\n' + 1 := by
    simp [Int.add_assoc]
  rw [tokenize_nil] at hs
  rw [if_pos rfl] at ht
  rw [List.append_assoc, List.singleton_append, ht, hs, hc, List.append_assoc,
    List.singleton_append]

end Kotoba
