import Kotoba.Proofs.Masking

/-!
The closed literals of a text. They are told apart from the left: one begins at the first opening
mark after the one before it and ends at the first closing mark. Hiding them replaces exactly their
characters, so a word is found in the hidden text at the first place where it stands outside them.
-/

namespace Kotoba

namespace Text

/-- Every opening mark of the text begins a literal or stands in one. -/
inductive Balanced : Text → Prop
  | plain {t : Text} : '「' ∉ t → Balanced t
  | literal {t s u : Text} :
      '「' ∉ t → '」' ∉ s → Balanced u → Balanced (t ++ s.quote ++ u)

/-- The character at the offset belongs to a closed literal. -/
def InLiteral (t : Text) (i : Nat) : Prop :=
  ∃ u s v : Text, t = u ++ s.quote ++ v ∧ Balanced u ∧ '」' ∉ s ∧
    u.length ≤ i ∧ i < (u ++ s.quote).length

/-- The word is what stands at the offset, and none of it belongs to a closed literal. -/
structure StandsAt (t word : Text) (i : Nat) : Prop where
  reads : word <+: t.drop i
  outside : ∀ j < word.length, ¬ t.InLiteral (i + j)

def FirstAt (t word : Text) (i : Nat) : Prop := t.StandsAt word i ∧ ∀ j < i, ¬ t.StandsAt word j

theorem exists_of_breakQuoted {t before literal after : Text}
    (h : t.breakQuoted = some (before, literal, after)) :
    ∃ s : Text, literal = s.quote ∧ '「' ∉ before ∧ '」' ∉ s := by
  have hn {x y z : Text} {k : Char} (hb : x.breakOn [k] = some (y, z)) : k ∉ y := by
    intro hk
    obtain ⟨p, q, rfl⟩ := List.append_of_mem hk
    exact not_infix_of_breakOn (by simp) hb ⟨p, q, by simp⟩
  rw [breakQuoted] at h
  split at h
  · cases h
  · next hb =>
    split at h
    · cases h
    · next s _ hs =>
      cases h
      exact ⟨s, rfl, hn hb, hn hs⟩

theorem breakQuoted_of_not_mem {t : Text} (h : '「' ∉ t) : t.breakQuoted = none := by
  have hn : t.breakOn ['「'] = none := breakOn_eq_none_iff.2 fun hi ↦ h (hi.subset (by simp))
  rw [breakQuoted, hn]

theorem segments_of_none {t : Text} (h : t.breakQuoted = none) : t.segments = [.plain t] := by
  rw [segments]
  split
  · rfl
  · next hb =>
    rw [h] at hb
    cases hb

theorem Balanced.exists_first {u s : Text} (hu : Balanced u) (hs : '」' ∉ s) (v : Text) :
    ∃ b l a : Text, u ++ s.quote ++ v = b ++ l.quote ++ a ∧ '「' ∉ b ∧ '」' ∉ l := by
  cases hu with
  | plain ho => exact ⟨u, s, v, rfl, ho, hs⟩
  | @literal t l w ho hl hw => exact ⟨t, l, w ++ s.quote ++ v, by simp, ho, hl⟩

theorem Balanced.segments_append {u s : Text} (hu : Balanced u) (hs : '」' ∉ s) (v : Text) :
    (u ++ s.quote ++ v).segments = u.segments ++ .quoted s.quote :: v.segments := by
  induction hu with
  | plain ho => rw [Text.segments_append ho hs, segments_of_none (breakQuoted_of_not_mem ho)]; rfl
  | @literal t l w ho hl _ ih =>
    have he : t ++ l.quote ++ w ++ s.quote ++ v = t ++ l.quote ++ (w ++ s.quote ++ v) := by simp
    rw [he, Text.segments_append ho hl, Text.segments_append ho hl, ih]
    rfl

theorem not_inLiteral_of_breakQuoted {t : Text} (h : t.breakQuoted = none) (i : Nat) :
    ¬ t.InLiteral i := by
  rintro ⟨u, s, v, rfl, hu, hs, -⟩
  obtain ⟨b, l, a, he, ho, hc⟩ := hu.exists_first hs v
  rw [he, breakQuoted_append ho hc a] at h
  cases h

theorem append_quote_inj {b b' s s' a a' : Text} (ho : '「' ∉ b) (hc : '」' ∉ s) (ho' : '「' ∉ b')
    (hc' : '」' ∉ s') (h : b ++ s.quote ++ a = b' ++ s'.quote ++ a') :
    b = b' ∧ s = s' ∧ a = a' := by
  have hb := breakQuoted_append ho hc a
  rw [h, breakQuoted_append ho' hc' a'] at hb
  simpa [quote, eq_comm] using hb

/-- An offset is in the first literal, or in one of the text after it. -/
theorem inLiteral_append_iff {b s : Text} (ho : '「' ∉ b) (hc : '」' ∉ s) (a : Text) (i : Nat) :
    (b ++ s.quote ++ a).InLiteral i ↔
      (b.length ≤ i ∧ i < (b ++ s.quote).length) ∨
        (b ++ s.quote).length ≤ i ∧ a.InLiteral (i - (b ++ s.quote).length) := by
  constructor
  · rintro ⟨u, l, v, he, hu, hl, h₁, h₂⟩
    cases hu with
    | plain hu =>
      obtain ⟨rfl, rfl, rfl⟩ := append_quote_inj ho hc hu hl he
      exact .inl ⟨h₁, h₂⟩
    | @literal t l' w ht hl' hw =>
      have he' : b ++ s.quote ++ a = t ++ l'.quote ++ (w ++ l.quote ++ v) := by simpa using he
      obtain ⟨rfl, rfl, rfl⟩ := append_quote_inj ho hc ht hl' he'
      simp only [List.length_append] at h₁ h₂ ⊢
      refine .inr ⟨by omega, w, l, v, rfl, hw, hl, by omega, ?_⟩
      rw [List.length_append]
      omega
  · rintro (⟨h₁, h₂⟩ | ⟨hi, u, l, v, rfl, hu, hl, h₁, h₂⟩)
    · exact ⟨b, s, a, rfl, .plain ho, hc, h₁, h₂⟩
    · refine ⟨b ++ s.quote ++ u, l, v, by simp, .literal ho hc hu, hl, ?_, ?_⟩
      · rw [List.length_append]
        omega
      · simp only [List.length_append] at h₁ h₂ ⊢
        omega

theorem mask_of_none {t : Text} (h : t.breakQuoted = none) : t.mask = t := by
  rw [mask, segments_of_none h]
  simp [Segment.masked]

theorem mask_quote {s : Text} (h : '」' ∉ s) :
    s.quote.mask = List.replicate s.quote.length '\x00' := by
  have hn : mask [] = [] := mask_of_none rfl
  have hm := mask_quote_append h []
  rwa [hn, List.append_nil, List.append_nil] at hm

theorem mask_append {b s : Text} (ho : '「' ∉ b) (hc : '」' ∉ s) (a : Text) :
    (b ++ s.quote ++ a).mask = b ++ List.replicate s.quote.length '\x00' ++ a.mask := by
  rw [mask, segments_append ho hc, List.flatMap_cons, List.flatMap_cons, List.append_assoc]
  rfl

/-- Induction on the closed literals of a text, from the left. -/
theorem literal_induction {motive : Text → Prop}
    (plain : ∀ t : Text, t.breakQuoted = none → motive t)
    (literal : ∀ b s a : Text, '「' ∉ b → '」' ∉ s → motive a → motive (b ++ s.quote ++ a))
    (t : Text) : motive t := by
  fun_induction segments t with
  | case1 t h => exact plain t h
  | case2 t b l a h ih =>
    obtain ⟨s, rfl, ho, hc⟩ := exists_of_breakQuoted h
    rw [(append_of_breakQuoted h).1]
    exact literal b s a ho hc ih

theorem length_mask (t : Text) : t.mask.length = t.length := by
  induction t using literal_induction with
  | plain t h => rw [mask_of_none h]
  | literal b s a ho hc ih =>
    rw [mask_append ho hc]
    simp [ih]

theorem breakQuoted_append_of_none {b t : Text} (ho : '「' ∉ b) (h : t.breakQuoted = none) :
    (b ++ t).breakQuoted = none := by
  cases hb : (b ++ t).breakQuoted with
  | none => rfl
  | some r =>
    obtain ⟨before, literal, after⟩ := r
    obtain ⟨s, rfl, hn, hc⟩ := exists_of_breakQuoted hb
    have he : b ++ t = before ++ (s.quote ++ after) := by
      rw [(append_of_breakQuoted hb).1, List.append_assoc]
    -- The literal begins at an opening mark, so not within `b`.
    rcases List.append_eq_append_iff.1 he with ⟨l, rfl, rfl⟩ | ⟨l, rfl, hl⟩
    · have hl : '「' ∉ l := fun hm ↦ hn (List.mem_append_right b hm)
      rw [← List.append_assoc, breakQuoted_append hl hc] at h
      cases h
    · cases l with
      | nil =>
        rw [List.nil_append] at hl
        rw [← hl, ← List.nil_append s.quote, breakQuoted_append List.not_mem_nil hc] at h
        cases h
      | cons k l =>
        obtain rfl : '「' = k := (List.cons.inj hl).1
        exact absurd (by simp) ho

/-- The literals after a balanced text are those of what follows. -/
theorem Balanced.mask_append {u : Text} (hu : Balanced u) (v : Text) :
    (u ++ v).mask = u.mask ++ v.mask := by
  induction hu with
  | @plain u ho =>
    rw [mask_of_none (breakQuoted_of_not_mem ho)]
    induction v using literal_induction with
    | plain v hn => rw [mask_of_none (breakQuoted_append_of_none ho hn), mask_of_none hn]
    | literal b s a hb hs _ =>
      have hub : '「' ∉ u ++ b := fun hm ↦ (List.mem_append.1 hm).elim ho hb
      rw [List.append_assoc b, ← List.append_assoc u, ← List.append_assoc (u ++ b),
        Text.mask_append hub hs, ← List.append_assoc b, Text.mask_append hb hs]
      simp
  | @literal t l w ho hl _ ih =>
    rw [List.append_assoc, Text.mask_append ho hl, Text.mask_append ho hl, ih, ← List.append_assoc]

theorem getElem?_mask (t : Text) (i : Nat) :
    (t.InLiteral i → t.mask[i]? = some '\x00') ∧ (¬ t.InLiteral i → t.mask[i]? = t[i]?) := by
  induction t using literal_induction generalizing i with
  | plain t h =>
    rw [mask_of_none h]
    exact ⟨fun hi ↦ absurd hi (not_inLiteral_of_breakQuoted h i), fun _ ↦ rfl⟩
  | literal b s a ho hc ih =>
    have hl : (b ++ List.replicate s.quote.length '\x00').length = (b ++ s.quote).length := by simp
    rw [inLiteral_append_iff ho hc, mask_append ho hc]
    by_cases hi : i < (b ++ s.quote).length
    · rw [List.getElem?_append_left (hl ▸ hi), List.getElem?_append_left hi]
      rw [List.length_append] at hi
      by_cases hb : b.length ≤ i
      · rw [List.getElem?_append_right hb, List.getElem?_replicate, if_pos (by omega)]
        refine ⟨fun _ ↦ rfl, fun hn ↦ absurd (.inl ⟨hb, ?_⟩) hn⟩
        rw [List.length_append]
        omega
      · rw [List.getElem?_append_left (by omega), List.getElem?_append_left (by omega)]
        refine ⟨?_, fun _ ↦ rfl⟩
        rw [List.length_append]
        omega
    · rw [List.getElem?_append_right (hl ▸ Nat.le_of_not_lt hi),
        List.getElem?_append_right (Nat.le_of_not_lt hi), hl]
      have h := ih (i - (b ++ s.quote).length)
      refine ⟨fun hm ↦ h.1 ?_, fun hn ↦ h.2 fun hm ↦ hn (.inr ⟨Nat.le_of_not_lt hi, hm⟩)⟩
      rcases hm with hm | hm
      · exact absurd hm.2 hi
      · exact hm.2

/-- Words without the hiding character stand in the masked text where they stand outside the
literals. -/
theorem prefix_drop_mask_iff {t word : Text} (hw : '\x00' ∉ word) (i : Nat) :
    word <+: t.mask.drop i ↔ t.StandsAt word i := by
  have hr (h : ∀ j < word.length, ¬ t.InLiteral (i + j)) :
      word <+: t.mask.drop i ↔ word <+: t.drop i := by
    simp only [List.prefix_iff_getElem?, List.getElem?_drop]
    refine forall₂_congr fun j hj ↦ ?_
    rw [(t.getElem?_mask (i + j)).2 (h j hj)]
  constructor
  · intro h
    have ho : ∀ j < word.length, ¬ t.InLiteral (i + j) := by
      intro j hj hm
      have hc := List.prefix_iff_getElem?.1 h j hj
      rw [List.getElem?_drop, (t.getElem?_mask (i + j)).1 hm] at hc
      exact hw (Option.some.inj hc ▸ List.getElem_mem hj)
    exact ⟨(hr ho).1 h, ho⟩
  · rintro ⟨h, ho⟩
    exact (hr ho).2 h

theorem find?_cons (c : Char) (t word : Text) :
    find? (c :: t) word =
      if word.isPrefixOf (c :: t) then some 0 else (t.find? word).map (· + 1) := by
  unfold find?
  rw [breakOn]
  split
  · rfl
  · rw [Option.map_map, Option.map_map]
    rfl

theorem first_eq_zero_iff {t word : Text} (h : word <+: t) (i : Nat) :
    word <+: t.drop i ∧ (∀ j < i, ¬ word <+: t.drop j) ↔ 0 = i := by
  constructor
  · intro ⟨_, hn⟩
    exact Nat.le_antisymm (Nat.zero_le i) (Nat.le_of_not_lt fun hi ↦ hn 0 hi h)
  · rintro rfl
    exact ⟨h, fun j hj ↦ absurd hj (Nat.not_lt_zero j)⟩

/-- A word is found at the first of its places. -/
theorem find?_eq_some_iff {t word : Text} {i : Nat} :
    t.find? word = some i ↔ word <+: t.drop i ∧ ∀ j < i, ¬ word <+: t.drop j := by
  induction t generalizing i with
  | nil =>
    by_cases hw : word = []
    · rw [first_eq_zero_iff (hw ▸ List.nil_prefix)]
      simp [find?, breakOn, hw]
    · simp [find?, breakOn, hw]
  | cons c t ih =>
    rw [find?_cons]
    split
    · next hp => rw [first_eq_zero_iff (List.isPrefixOf_iff_prefix.1 hp), Option.some.injEq]
    · next hp =>
      rw [List.isPrefixOf_iff_prefix] at hp
      cases i with
      | zero => simp [hp]
      | succ i =>
        have hi : (find? t word).map (· + 1) = some (i + 1) ↔ find? t word = some i := by
          simp [Option.map_eq_some_iff]
        rw [hi, ih, Nat.forall_lt_succ_left]
        simp [hp]

theorem find?_mask_eq_some_iff {t word : Text} (hw : '\x00' ∉ word) {i : Nat} :
    t.mask.find? word = some i ↔ t.FirstAt word i := by
  simp only [find?_eq_some_iff, prefix_drop_mask_iff hw]
  exact Iff.rfl

end Text

end Kotoba
