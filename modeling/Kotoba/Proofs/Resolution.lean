import Kotoba.Proofs.Literals

/-!
Which function a sentence calls. A function is eligible if its name stands somewhere outside the
closed literals, with every particle before the first such place. Of those that are eligible the one
whose name stands furthest right is called, the earliest in the table if there are several. What
stands in a literal has no part in the choice.
-/

namespace Kotoba

namespace Text

/-- A word does not stand across a text with which it has no character in common. -/
theorem infix_append_iff_of_disjoint {word t m u : Text} (hm : m ≠ []) (hd : ∀ c ∈ m, c ∉ word) :
    word <:+: t ++ m ++ u ↔ word <:+: t ∨ word <:+: u := by
  have hn {v : Text} (hv : ∀ c ∈ v, c ∈ m) (hw : ∀ c ∈ v, c ∈ word) : v = [] :=
    List.eq_nil_iff_forall_not_mem.2 fun c hc ↦ hd c (hv c hc) (hw c hc)
  constructor
  · intro h
    rw [List.append_assoc] at h
    rcases List.infix_append_iff.1 h with h | h | ⟨v, v', rfl, hs, h'⟩
    · exact .inl h
    · rcases List.infix_append_iff.1 h with h | h | ⟨v, v', rfl, h, h'⟩
      · rw [hn h.subset fun _ ↦ id]
        exact .inl List.nil_infix
      · exact .inr h
      · rw [hn h.subset fun c hc ↦ List.mem_append_left v' hc]
        exact .inr h'.isInfix
    · -- The part of the word behind `t` would begin with the first character of `m`.
      obtain ⟨k, m, rfl⟩ := List.exists_cons_of_ne_nil hm
      cases v' with
      | nil =>
        rw [List.append_nil]
        exact .inl hs.isInfix
      | cons c v' =>
        have hc : c = k := (List.cons_prefix_cons.1 h').1
        exact absurd (by simp [hc]) (hd k List.mem_cons_self)
  · rintro (h | h)
    · rw [List.append_assoc]
      exact h.trans (List.prefix_append t _).isInfix
    · exact h.trans (List.suffix_append (t ++ m) u).isInfix

theorem breakOn_append_replicate {word : Text} {k : Char} (hk : k ∉ word) (t u : Text) (n : Nat) :
    breakOn (t ++ List.replicate (n + 1) k ++ u) word =
      match t.breakOn word with
      | some p => some (p.1, p.2 ++ (List.replicate (n + 1) k ++ u))
      | none => (u.breakOn word).map fun p ↦ (t ++ List.replicate (n + 1) k ++ p.1, p.2) := by
  cases h : t.breakOn word with
  | some p =>
    rw [List.append_assoc]
    exact breakOn_append_of_some h _
  | none =>
    refine breakOn_append_disjoint (by simp) ?_ h u
    intro c hc
    rwa [List.eq_of_mem_replicate hc]

theorem hasWord_iff {t word : Text} : t.hasWord word = true ↔ word <:+: t := by
  rw [hasWord, Option.isSome_iff_ne_none, ne_eq, breakOn_eq_none_iff, Classical.not_not]

/-- A word stands in what comes before an offset if it stands somewhere and ends by then. -/
theorem infix_take_iff {t word : Text} {i : Nat} :
    word <:+: t.take i ↔ ∃ j, word <+: t.drop j ∧ j + word.length ≤ i := by
  constructor
  · rintro ⟨a, b, h⟩
    have hl := congrArg List.length h
    simp only [List.length_append, List.length_take] at hl
    refine ⟨a.length, ?_, by omega⟩
    rw [← List.take_append_drop i t, ← h, List.append_assoc, List.append_assoc, List.drop_left]
    exact List.prefix_append word _
  · rintro ⟨j, h, hj⟩
    have hp : word <+: (t.drop j).take (i - j) := List.prefix_take_iff.2 ⟨h, by omega⟩
    rw [← List.drop_take] at hp
    exact hp.isInfix.trans (List.drop_suffix j _).isInfix

end Text

namespace Builtin

/-- The function's name stands at the offset first, and each of its particles somewhere before. -/
structure EligibleAt (f : Builtin) (s : Text) (i : Nat) : Prop where
  name : s.FirstAt f.name i
  particles : ∀ p ∈ f.particles, ∃ j, s.StandsAt p j ∧ j + p.length ≤ i

theorem offset?_eq_some_iff {f : Builtin} {masked : Text} {i : Nat} :
    f.offset? masked = some i ↔
      masked.find? f.name = some i ∧ ∀ p ∈ f.particles, p <:+: masked.take i := by
  unfold offset? Text.find?
  cases hb : masked.breakOn f.name with
  | none => simp
  | some r =>
    obtain ⟨before, after⟩ := r
    have ht : masked.take before.length = before := by
      rw [Text.append_of_breakOn hb, List.append_assoc, List.take_left]
    have hp : f.particles.all before.hasWord = true ↔ ∀ p ∈ f.particles, p <:+: before := by
      simp [List.all_eq_true, Text.hasWord_iff]
    simp only [Option.map_some, Option.some.injEq]
    split
    · next hs =>
      rw [Option.some.injEq]
      refine ⟨?_, And.left⟩
      rintro rfl
      rw [ht]
      exact ⟨rfl, hp.1 hs⟩
    · next hs =>
      refine ⟨fun h ↦ (by cases h), ?_⟩
      rintro ⟨rfl, h⟩
      rw [ht] at h
      exact absurd (hp.2 h) hs

theorem name_infix_of_offset? {f : Builtin} {masked : Text} {i : Nat}
    (h : f.offset? masked = some i) : f.name <:+: masked := by
  have hp := (Text.find?_eq_some_iff.1 (offset?_eq_some_iff.1 h).1).1
  exact hp.isInfix.trans (List.drop_suffix i masked).isInfix

/-- Neither the name nor a particle has the hiding character in it. -/
def Legible (f : Builtin) : Prop := ∀ w ∈ f.name :: f.particles, '\x00' ∉ w

theorem Legible.offset?_mask {f : Builtin} (hf : f.Legible) {s : Text} {i : Nat} :
    f.offset? s.mask = some i ↔ f.EligibleAt s i := by
  rw [offset?_eq_some_iff, Text.find?_mask_eq_some_iff (hf f.name List.mem_cons_self)]
  have hp : (∀ p ∈ f.particles, p <:+: s.mask.take i) ↔
      ∀ p ∈ f.particles, ∃ j, s.StandsAt p j ∧ j + p.length ≤ i := by
    refine forall₂_congr fun p hp ↦ ?_
    simp only [Text.infix_take_iff, Text.prefix_drop_mask_iff (hf p (List.mem_cons_of_mem _ hp))]
  rw [hp]
  exact ⟨fun h ↦ ⟨h.1, h.2⟩, fun h ↦ ⟨h.name, h.particles⟩⟩

/-- The best candidate of a table: the first one that stands furthest right. -/
def Leads (masked : Text) (table : List Builtin) : Option (Builtin × Nat) → Prop
  | none => ∀ g ∈ table, g.offset? masked = none
  | some (f, i) => f.offset? masked = some i ∧ ∃ before after, table = before ++ f :: after ∧
      (∀ g ∈ before, ∀ j ∈ g.offset? masked, j < i) ∧ ∀ g ∈ after, ∀ j ∈ g.offset? masked, j ≤ i

namespace Leads

variable {masked : Text} {table : List Builtin}

theorem le {f : Builtin} {i : Nat} (h : Leads masked table (some (f, i))) :
    ∀ g ∈ table, ∀ j ∈ g.offset? masked, j ≤ i := by
  obtain ⟨hf, before, after, rfl, hb, ha⟩ := h
  intro g hg j hj
  rcases List.mem_append.1 hg with hg | hg
  · exact Nat.le_of_lt (hb g hg j hj)
  · rcases List.mem_cons.1 hg with rfl | hg
    · rw [hf] at hj
      exact Nat.le_of_eq (Option.some.inj hj).symm
    · exact ha g hg j hj

/-- A candidate that stands no further right does not take the lead. -/
theorem concat {f g : Builtin} {i : Nat} (h : Leads masked table (some (f, i)))
    (hg : ∀ j ∈ g.offset? masked, j ≤ i) : Leads masked (table ++ [g]) (some (f, i)) := by
  obtain ⟨hf, before, after, rfl, hb, ha⟩ := h
  refine ⟨hf, before, after ++ [g], by simp, hb, ?_⟩
  intro g' hm
  rcases List.mem_append.1 hm with hm | hm
  · exact ha g' hm
  · rw [List.mem_singleton.1 hm]
    exact hg

theorem furthest {best : Option (Builtin × Nat)} (h : Leads masked table best) (f : Builtin) :
    Leads masked (table ++ [f]) (furthest masked best f) := by
  unfold Builtin.furthest
  cases hf : f.offset? masked with
  | none =>
    cases best with
    | none =>
      intro g hg
      rcases List.mem_append.1 hg with hg | hg
      · exact h g hg
      · rw [List.mem_singleton.1 hg, hf]
    | some p => exact h.concat (by simp [hf])
  | some i =>
    cases best with
    | none =>
      refine ⟨hf, table, [], rfl, ?_, by simp⟩
      intro g hg j hj
      rw [h g hg] at hj
      cases hj
    | some p =>
      by_cases hi : p.2 < i
      · simp only [hi, if_true]
        refine ⟨hf, table, [], rfl, ?_, by simp⟩
        intro g hg j hj
        have := h.le g hg j hj
        omega
      · simp only [hi, if_false]
        refine h.concat ?_
        intro j hj
        rw [hf] at hj
        cases hj
        omega

end Leads

theorem leads_foldl (masked : Text) (table : List Builtin) :
    Leads masked table (table.foldl (furthest masked) none) := by
  have h (rest : List Builtin) : ∀ (done : List Builtin) (best : Option (Builtin × Nat)),
      Leads masked done best →
      Leads masked (done ++ rest) (rest.foldl (furthest masked) best) := by
    induction rest with
    | nil => simp
    | cons f rest ih =>
      intro done best hb
      have hs := ih (done ++ [f]) _ (hb.furthest f)
      rwa [List.append_assoc, List.singleton_append] at hs
  exact h table [] none (by simp [Leads])

theorem find?_eq_none_iff {table : List Builtin} {s : Text} :
    find? table s = none ↔ ∀ f ∈ table, f.offset? s.mask = none := by
  have h := leads_foldl s.mask table
  unfold find?
  rw [Option.map_eq_none_iff]
  cases hb : table.foldl (furthest s.mask) none with
  | none =>
    rw [hb] at h
    exact ⟨fun _ ↦ h, fun _ ↦ rfl⟩
  | some p =>
    rw [hb] at h
    obtain ⟨hf, before, after, rfl, -⟩ := h
    refine ⟨fun hn ↦ (by cases hn), fun hn ↦ ?_⟩
    rw [hn p.1 (by simp)] at hf
    cases hf

theorem leads_of_find? {table : List Builtin} {s : Text} {f : Builtin}
    (h : find? table s = some f) : ∃ i, Leads s.mask table (some (f, i)) := by
  obtain ⟨p, hp, rfl⟩ := Option.map_eq_some_iff.1 h
  exact ⟨p.2, hp ▸ leads_foldl s.mask table⟩

/-- Where a hidden stretch is longer, all that stands behind it is further right by as much. -/
theorem Legible.offset?_append_replicate {f : Builtin} (hf : f.Legible) (t u : Text) (m n : Nat) :
    f.offset? (t ++ List.replicate (m + n + 1) '\x00' ++ u) =
      (f.offset? (t ++ List.replicate (m + 1) '\x00' ++ u)).map fun i ↦
        if i ≤ t.length then i else i + n := by
  have hn : '\x00' ∉ f.name := hf f.name List.mem_cons_self
  unfold offset?
  rw [Text.breakOn_append_replicate hn, Text.breakOn_append_replicate hn t u m]
  cases hb : t.breakOn f.name with
  | some p =>
    have hl := Text.length_of_breakOn hb
    simp only
    split
    · rw [Option.map_some, if_pos (by omega)]
    · rfl
  | none =>
    cases u.breakOn f.name with
    | none => rfl
    | some p =>
      have hp (l : Nat) : (f.particles.all fun w ↦
          Text.hasWord (t ++ List.replicate (l + 1) '\x00' ++ p.1) w) =
          f.particles.all fun w ↦ t.hasWord w || p.1.hasWord w := by
        rw [Bool.eq_iff_iff, List.all_eq_true, List.all_eq_true]
        refine forall₂_congr fun w hw ↦ ?_
        have hd : ∀ c ∈ List.replicate (l + 1) '\x00', c ∉ w := by
          intro c hc
          rw [List.eq_of_mem_replicate hc]
          exact hf w (List.mem_cons_of_mem _ hw)
        rw [Bool.or_eq_true, Text.hasWord_iff, Text.hasWord_iff, Text.hasWord_iff,
          Text.infix_append_iff_of_disjoint (by simp) hd]
      simp only [Option.map_some]
      rw [hp (m + n), hp m]
      split
      · rw [Option.map_some, Option.some.injEq, if_neg]
        · simp only [List.length_append, List.length_replicate]
          omega
        · simp only [List.length_append, List.length_replicate]
          omega
      · rfl

theorem find?_empty_literal {table : List Builtin} (ht : ∀ f ∈ table, f.Legible) {u x : Text}
    (hu : u.Balanced) (hx : '」' ∉ x) (v : Text) :
    find? table (u ++ x.quote ++ v) = find? table (u ++ Text.quote [] ++ v) := by
  have hl : x.quote.length = 1 + x.length + 1 := by
    simp only [Text.quote, List.length_append, List.length_cons, List.length_nil]
    omega
  refine find?_eq_of_offset? (fun i ↦ if i ≤ u.mask.length then i else i + x.length) ?_ ?_
  · intro i j
    split <;> split <;> omega
  · intro f hf
    rw [List.append_assoc, List.append_assoc, hu.mask_append, hu.mask_append,
      Text.mask_quote_append hx, Text.mask_quote_append List.not_mem_nil, hl, ← List.append_assoc,
      ← List.append_assoc]
    exact (ht f hf).offset?_append_replicate u.mask v.mask 1 x.length

/-- The function that a sentence calls is eligible, stands furthest right of all that are, and is
the first in the table of those that do; there is none only if none is eligible. Another text in a
literal does not change the choice. -/
theorem find?_resolves {table : List Builtin} (ht : ∀ f ∈ table, f.Legible) :
    (∀ s, find? table s = none ↔ ∀ f ∈ table, ∀ i, ¬ f.EligibleAt s i) ∧
    (∀ s f, find? table s = some f → ∃ i before after, f.EligibleAt s i ∧
      table = before ++ f :: after ∧ (∀ g ∈ table, ∀ j, g.EligibleAt s j → j ≤ i) ∧
      ∀ g ∈ before, ∀ j, g.EligibleAt s j → j < i) ∧
    ∀ u x y v : Text, u.Balanced → '」' ∉ x → '」' ∉ y →
      find? table (u ++ x.quote ++ v) = find? table (u ++ y.quote ++ v) := by
  refine ⟨?_, ?_, ?_⟩
  · intro s
    rw [find?_eq_none_iff]
    refine forall₂_congr fun f hf ↦ ?_
    simp only [← (ht f hf).offset?_mask, Option.eq_none_iff_forall_ne_some, ne_eq]
  · intro s f h
    obtain ⟨i, hl⟩ := leads_of_find? h
    have hle := hl.le
    obtain ⟨hi, before, after, rfl, hb, -⟩ := hl
    refine ⟨i, before, after, (ht f (by simp)).offset?_mask.1 hi, rfl, ?_, ?_⟩
    · intro g hg j hj
      exact hle g hg j ((ht g hg).offset?_mask.2 hj)
    · intro g hg j hj
      exact hb g hg j ((ht g (by simp [hg])).offset?_mask.2 hj)
  · intro u x y v hu hx hy
    rw [find?_empty_literal ht hu hx, find?_empty_literal ht hu hy]

/-- One name ends with another, and both stand in a literal too, with the particles. -/
theorem find?_resolves_past_literals :
    let verySmall : Builtin := ⟨"とても小さい".toList, [['が'], ['よ', 'り']], .custom none .empty none⟩
    let table := verySmall :: standard
    let u : Text := "「1」が".toList
    let x : Text := "2より「とても小さい".toList
    let v : Text := "よりとても小さい".toList
    let small : Builtin := ⟨['小', 'さ', 'い'], [['が'], ['よ', 'り']], .less⟩
    ((∀ f ∈ table, f.Legible) ∧ u.Balanced ∧ '」' ∉ x ∧
      find? table (u ++ x.quote ++ v) = some small) ∧
      (∃ i, small.EligibleAt (u ++ x.quote ++ v) i ∧
        ∀ g ∈ table, ∀ j, g.EligibleAt (u ++ x.quote ++ v) j → j ≤ i) ∧
      find? table (u ++ Text.quote [] ++ v) = some small := by
  intro verySmall table u x v small
  have ht : ∀ f ∈ table, f.Legible := by
    unfold Legible
    decide +kernel
  have hu : u.Balanced :=
    .literal (t := []) (s := ['1']) (by decide) (by decide) (.plain (by decide))
  have hx : '」' ∉ x := by decide +kernel
  have hs : find? table (u ++ x.quote ++ v) = some small := by decide +kernel
  obtain ⟨-, hfound, hsame⟩ := find?_resolves ht
  obtain ⟨i, before, after, hi, -, hle, -⟩ := hfound _ _ hs
  refine ⟨⟨ht, hu, hx, hs⟩, ⟨i, hi, hle⟩, ?_⟩
  rw [← hsame u x [] v hu hx List.not_mem_nil]
  exact hs

end Builtin

end Kotoba
