import Kotoba.Proofs.Tokenize

/-!
What the fragments of a text are. Cutting at a word leaves that word and pieces in which it does not
stand. A later word cuts these pieces into smaller ones, in which the earlier word does not stand
either, and it does not cut a word in two as long as no word stands in another. So a fragment of the
finished cut is a word, or has none in it. For tokens this makes a newline a token of its own, by
which the lines are counted.
-/

namespace Kotoba

namespace Text

theorem breakOn_eq_none_iff {t word : Text} : t.breakOn word = none ↔ ¬ word <:+: t := by
  induction t with
  | nil => by_cases h : word = [] <;> simp [breakOn, h]
  | cons c t ih =>
    rw [List.infix_cons_iff, ← List.isPrefixOf_iff_prefix, not_or, ← ih, breakOn]
    by_cases h : word.isPrefixOf (c :: t) <;> simp [h]

/-- A word does not stand before its first place. -/
theorem not_infix_of_breakOn {t word before after : Text} (hw : word ≠ [])
    (h : t.breakOn word = some (before, after)) : ¬ word <:+: before := by
  induction t generalizing before with
  | nil => simp [breakOn, hw] at h
  | cons c t ih =>
    rw [breakOn] at h
    split at h
    · cases h
      simpa using hw
    · next hp =>
      obtain ⟨⟨inside, rest⟩, hb, he⟩ := Option.map_eq_some_iff.1 h
      cases he
      intro hi
      rcases List.infix_cons_iff.1 hi with hi | hi
      · have ht : c :: inside <+: c :: t := by
          rw [append_of_breakOn hb, List.append_assoc]
          exact List.prefix_append (c :: inside) _
        exact hp (List.isPrefixOf_iff_prefix.2 (hi.trans ht))
      · exact ih hb hi

theorem mem_fragment {t f : Text} (h : f ∈ t.fragment) : f = t := by
  unfold fragment at h
  split at h
  · cases h
  · exact List.mem_singleton.1 h

theorem mem_cut {t word f : Text} (hw : word ≠ []) (h : f ∈ t.cut word) :
    f = word ∨ f <:+: t ∧ ¬ word <:+: f := by
  fun_induction cut t word with
  | case1 t hn => exact absurd hn hw
  | case2 t _ hb =>
    rw [mem_fragment h]
    exact .inr ⟨List.infix_refl t, breakOn_eq_none_iff.1 hb⟩
  | case3 t _ before after hb ih =>
    have ht := append_of_breakOn hb
    rcases List.mem_append.1 h with h | h
    · rw [mem_fragment h]
      refine .inr ⟨?_, not_infix_of_breakOn hw hb⟩
      rw [ht, List.append_assoc]
      exact (List.prefix_append before _).isInfix
    · rcases List.mem_cons.1 h with rfl | h
      · exact .inl rfl
      · refine (ih h).imp_right fun hi ↦ ⟨hi.1.trans ?_, hi.2⟩
        rw [ht]
        exact (List.suffix_append _ after).isInfix

theorem breakOn_self {word : Text} (hw : word ≠ []) : word.breakOn word = some ([], []) := by
  obtain ⟨c, w, rfl⟩ := List.exists_cons_of_ne_nil hw
  rw [breakOn, if_pos (by simp), List.drop_length]

theorem cut_self {word : Text} (hw : word ≠ []) : word.cut word = [word] := by
  rw [cut_of_some hw (breakOn_self hw), cut_nil]
  rfl

theorem splitWords_of_not_infix {t : Text} {words : List Text} (h : ∀ w ∈ words, ¬ w <:+: t) :
    t.splitWords words = t.fragment := by
  unfold splitWords
  induction words with
  | nil => rfl
  | cons w words ih =>
    rw [List.foldl_cons, cutAll_fragment,
      cut_of_none (breakOn_eq_none_iff.2 (h w List.mem_cons_self))]
    exact ih fun v hv ↦ h v (List.mem_cons_of_mem w hv)

/-- None of the words is empty or stands in another one. -/
structure Apart (words : List Text) : Prop where
  ne_nil : ∀ w ∈ words, w ≠ []
  eq_of_infix : ∀ v ∈ words, ∀ w ∈ words, v <:+: w → v = w

theorem Apart.cut_eq {words : List Text} (ha : Apart words) {v w : Text} (hv : v ∈ words)
    (hw : w ∈ words) : v.cut w = [v] := by
  by_cases h : w <:+: v
  · rw [ha.eq_of_infix w hw v hv h]
    exact cut_self (ha.ne_nil v hv)
  · rw [cut_of_none (breakOn_eq_none_iff.2 h), fragment_of_ne_nil (ha.ne_nil v hv)]

/-- The fragment is one of the words, or none of those in `done` stands in it. -/
def Settled (words done : List Text) (f : Text) : Prop := f ∈ words ∨ ∀ w ∈ done, ¬ w <:+: f

/-- Cutting at one more word settles the fragments for that word too. -/
theorem Apart.settled_cutAll {words done fragments : List Text} (ha : Apart words) {w : Text}
    (hw : w ∈ words) (hf : ∀ f ∈ fragments, Settled words done f) :
    ∀ f ∈ cutAll fragments w, Settled words (done ++ [w]) f := by
  intro f h
  obtain ⟨g, hg, h⟩ := List.mem_flatMap.1 h
  rcases hf g hg with hm | hn
  · rw [ha.cut_eq hm hw] at h
    exact .inl (List.mem_singleton.1 h ▸ hm)
  · rcases mem_cut (ha.ne_nil w hw) h with rfl | ⟨hi, hx⟩
    · exact .inl hw
    · refine .inr fun v hv hs ↦ ?_
      rcases List.mem_append.1 hv with hv | hv
      · exact hn v hv (hs.trans hi)
      · exact hx (List.mem_singleton.1 hv ▸ hs)

theorem Apart.settled_foldl_cutAll {words done later fragments : List Text} (ha : Apart words)
    (hl : ∀ w ∈ later, w ∈ words) (hf : ∀ f ∈ fragments, Settled words done f) :
    ∀ f ∈ later.foldl cutAll fragments, Settled words (done ++ later) f := by
  induction later generalizing done fragments with
  | nil => simpa using hf
  | cons w later ih =>
    intro f h
    have hi := ih (fun v hv ↦ hl v (List.mem_cons_of_mem w hv))
      (ha.settled_cutAll (hl w List.mem_cons_self) hf) f h
    rwa [List.append_assoc, List.singleton_append] at hi

theorem Apart.settled_splitWords {words : List Text} (ha : Apart words) {t f : Text}
    (h : f ∈ t.splitWords words) : Settled words words f := by
  have hs : ∀ g ∈ t.fragment, Settled words [] g := fun _ _ ↦ .inr (by simp)
  exact ha.settled_foldl_cutAll (fun _ hw ↦ hw) hs f h

theorem Settled.eq_singleton {words : List Text} {k : Char} {f : Text} (hk : Alone k words)
    (hf : Settled words words f) (h : k ∈ f) : f = [k] := by
  rcases hf with hm | hn
  · exact hk.2 f hm h
  · obtain ⟨a, b, rfl⟩ := List.append_of_mem h
    exact absurd ⟨a, b, by simp⟩ (hn [k] hk.1)

end Text

theorem apart_allWords : Text.Apart allWords := by
  constructor <;> decide

namespace Token

/-- A token of numbered fragments stands as many lines down as there are newlines before it. -/
theorem line_of_number {line : Int} {ws : List Text} {before after : List Token} {t : Token}
    (h : number line ws = before ++ t :: after) :
    t.line = line + (before.map text).count ['\n'] := by
  have hw : ws = before.map text ++ t.text :: after.map text := by
    rw [← map_text_number line ws, h, List.map_append, List.map_cons]
  rw [hw, number_append] at h
  have hl : (number line (before.map text)).length = before.length := by
    rw [length_number, List.length_map]
  have ht := (List.append_inj h hl).2
  rw [number] at ht
  rw [← (List.cons.inj ht).1]

theorem count_newline_eq {ts : List Token} (h : ∀ t ∈ ts, '\n' ∈ t.text → t.text = ['\n']) :
    (ts.map text).count ['\n'] = (render ts).count '\n' := by
  induction ts with
  | nil => rfl
  | cons t ts ih =>
    have hi := ih fun u hu ↦ h u (List.mem_cons_of_mem t hu)
    rw [List.map_cons, List.count_cons, hi, render_cons, List.count_append, Nat.add_comm]
    congr 1
    by_cases ht : '\n' ∈ t.text
    · simp [h t List.mem_cons_self ht]
    · have hne : t.text ≠ ['\n'] := by
        rintro he
        simp [he] at ht
      rw [List.count_eq_zero.2 ht]
      simp [hne]

end Token

/-- The tokens of a text hold its normal form, none is empty, each is a word or has no word in it,
and each stands as many lines down as there are newlines, or newline tokens, before it. -/
theorem tokenize_faithful (t : Text) (line : Int) :
    Token.render (tokenize t line) = t.normalize ∧
      (∀ u ∈ tokenize t line, u.text ≠ []) ∧
      (∀ u ∈ tokenize t line, u.text ∈ allWords ∨ ∀ w ∈ allWords, ¬ w <:+: u.text) ∧
      ∀ before u after, tokenize t line = before ++ u :: after →
        t.normalize = Token.render before ++ u.text ++ Token.render after ∧
        u.line = line + (Token.render before).count '\n' ∧
        u.line = line + before.countP (·.text = ['\n']) := by
  have hm (u : Token) (hu : u ∈ tokenize t line) : u.text ∈ t.normalize.splitWords allWords := by
    rw [← Token.map_text_number line (t.normalize.splitWords allWords)]
    exact List.mem_map_of_mem hu
  refine ⟨Token.render_tokenize t line, ?_, ?_, ?_⟩
  · intro u hu
    exact Text.ne_nil_of_mem_splitWords (hm u hu)
  · intro u hu
    exact apart_allWords.settled_splitWords (hm u hu)
  · intro before u after h
    have hl := Token.line_of_number h
    have hn : ∀ v ∈ before, '\n' ∈ v.text → v.text = ['\n'] := by
      intro v hv
      have hs := apart_allWords.settled_splitWords (hm v (h ▸ List.mem_append_left _ hv))
      exact hs.eq_singleton alone_newline
    refine ⟨?_, ?_, ?_⟩
    · rw [← Token.render_tokenize t line, h, Token.render_append, Token.render_cons,
        List.append_assoc]
    · rw [hl, Token.count_newline_eq hn]
    · have hc : (before.map Token.text).count ['\n'] = before.countP (·.text = ['\n']) := by
        rw [List.count_eq_countP, List.countP_map]
        exact List.countP_congr fun v _ ↦ by simp
      rw [hl, hc]

/-- The end of one word is the beginning of another, and the one that comes first in the order of
cutting is the token. -/
theorem tokenize_faithful_where_words_overlap :
    let ts := tokenize "違うならば\nもしa".toList 3
    let before : List Token :=
      [⟨['違', 'う'], 3⟩, ⟨['な', 'ら', 'ば'], 3⟩, ⟨['\n'], 3⟩, ⟨['も', 'し'], 4⟩]
    ts = before ++ [⟨['a'], 4⟩] ∧ (∀ w ∈ allWords, ¬ w <:+: ['違', 'う']) ∧
      (4 : Int) = 3 + (Token.render before).count '\n' := by
  intro ts before
  have ht : ts = before ++ [⟨['a'], 4⟩] := by decide +kernel
  obtain ⟨-, -, hw, hl⟩ := tokenize_faithful "違うならば\nもしa".toList 3
  have hm : ⟨['違', 'う'], 3⟩ ∈ ts := by
    rw [ht]
    exact List.mem_cons_self
  have hf := hw _ hm
  exact ⟨ht, hf.resolve_left (by decide), (hl before _ [] ht).2.1⟩

end Kotoba
