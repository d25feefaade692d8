import Kotoba.Proofs.Enclosures
import Kotoba.Proofs.Sentences

/-!
What stands outside all enclosures. Tokens are closed if reading through them leaves nothing open
that has to be closed. Those that are closed and begin no conditional outside their enclosures are
self-contained: every reader passes over them to what follows, unless it finds its word in them.
-/

namespace Kotoba

/-- The tokens outside all enclosures, those in `fs` being open at first. The word that opens an
enclosure is outside it, the word that closes it is not. -/
def outer : List Frame → List Token → List Token
  | _, [] => []
  | fs, t :: ts => (if fs = [] then [t] else []) ++ outer (Frame.step fs t) ts

/-- No word of the class stands outside all enclosures. -/
def Lacks (k : WordClass) (ts : List Token) : Prop := ∀ t ∈ outer [] ts, t.isA k = false

instance (k : WordClass) (ts : List Token) : Decidable (Lacks k ts) :=
  inferInstanceAs (Decidable (∀ t ∈ outer [] ts, t.isA k = false))

/-- Reading through the tokens for a word that is none does not fail. -/
def Closed (ts : List Token) : Prop := readUntil [] [] ts = .ok none

variable {k : WordClass} {fs : List Frame} {t : Token} {ts us ds : List Token}

theorem outer_append (fs : List Frame) (ts us : List Token) :
    outer fs (ts ++ us) = outer fs ts ++ outer (ts.foldl Frame.step fs) us := by
  induction ts generalizing fs with
  | nil => rfl
  | cons t ts ih => rw [List.cons_append, outer, outer, ih, List.append_assoc, List.foldl_cons]

theorem openAfter_append (ts us : List Token) :
    openAfter (ts ++ us) = us.foldl Frame.step (openAfter ts) := by
  rw [openAfter, List.foldl_append, openAfter]

/-- A search goes on behind the tokens in which it finds nothing. -/
theorem readUntil_append {words : List Text}
    (h : ∀ t ∈ outer fs ts, words.contains t.text = false) (rest : List Token) :
    readUntil words fs (ts ++ rest) =
      (readUntil words (ts.foldl Frame.step fs) rest).map
        (Option.map fun p ↦ (ts ++ p.1, p.2)) := by
  induction ts generalizing fs with
  | nil =>
    cases hr : readUntil words fs rest with
    | error e => simp [hr, Except.map]
    | ok o => cases o <;> simp [hr, Except.map]
  | cons t ts ih =>
    have hn : ¬ (fs = [] ∧ Frame.opened? t = none ∧ words.contains t.text = true) := by
      rintro ⟨rfl, -, hw⟩
      rw [h t (by simp [outer])] at hw
      cases hw
    have ht : ∀ u ∈ outer (Frame.step fs t) ts, words.contains u.text = false := by
      intro u hu
      exact h u (by simp [outer, hu])
    rw [List.cons_append, readUntil, if_neg hn, ih ht, List.foldl_cons]
    cases readUntil words (ts.foldl Frame.step (Frame.step fs t)) rest with
    | error e => rfl
    | ok o => cases o <;> rfl

theorem Frame.fault?_eq_none_iff : fault? fs = none ↔ ∀ f ∈ fs, f.waiting = .branch := by
  have hf (f : Frame) : f.missing? = none ↔ f.waiting = .branch := by
    unfold missing?
    cases f.waiting <;> simp
  simp only [fault?, List.findSome?_eq_none_iff, Option.map_eq_none_iff, hf]

theorem closed_iff : Closed ts ↔ ∀ f ∈ openAfter ts, f.waiting = .branch := by
  have h : readUntil [] [] (ts ++ []) = _ := readUntil_append (by simp) []
  rw [List.append_nil] at h
  rw [Closed, h, ← Frame.fault?_eq_none_iff, openAfter, readUntil]
  cases Frame.fault? (ts.foldl Frame.step []) <;> simp [Except.map]

instance (ts : List Token) : Decidable (Closed ts) := decidable_of_iff _ closed_iff.symm

theorem Closed.readUntil_eq (hc : Closed ts) (hk : Lacks k ts) :
    readUntil k.words [] ts = .ok none := by
  have h : readUntil k.words [] (ts ++ []) = _ := readUntil_append hk []
  have hn : Frame.fault? (ts.foldl Frame.step []) = none :=
    Frame.fault?_eq_none_iff.2 (closed_iff.1 hc)
  rw [List.append_nil, readUntil, hn] at h
  exact h

theorem Lacks.any_head? (h : Lacks k ts) : ts.head?.any (·.isA k) = false := by
  cases ts with
  | nil => rfl
  | cons t ts => exact h t (by simp [outer])

theorem Lacks.of_append (h : Lacks k (ts ++ us)) : Lacks k ts := by
  intro t ht
  exact h t (by simp [outer_append, ht])

section Delimiters

theorem openAfter_delimiters (hd : Token.allDelimiters ds = true) : openAfter ds = [] := by
  induction ds with
  | nil => rfl
  | cons t ds ih =>
    simp only [Token.allDelimiters, List.all_cons, Bool.and_eq_true] at hd
    rw [openAfter, List.foldl_cons, Frame.step_delimiter hd.1 (by simp) (by simp)]
    exact ih hd.2

theorem Closed.of_delimiters_append (hd : Token.allDelimiters ds = true) (h : Closed (ds ++ ts)) :
    Closed ts := by
  rw [closed_iff, openAfter_append, openAfter_delimiters hd] at h
  exact closed_iff.2 h

theorem Lacks.of_delimiters_append (hd : Token.allDelimiters ds = true)
    (h : Lacks k (ds ++ ts)) : Lacks k ts := by
  have ho : ds.foldl Frame.step [] = [] := openAfter_delimiters hd
  intro t ht
  refine h t ?_
  rw [outer_append, ho]
  exact List.mem_append_right _ ht

theorem Lacks.dropDelimiters (h : Lacks k ts) : Lacks k (Token.dropDelimiters ts) := by
  obtain ⟨ds, he, hd, -⟩ := Token.exists_delimiters_append ts
  rw [he] at h
  exact h.of_delimiters_append hd

/-- A delimiter closes no more than a conditional past its `ならば`. -/
theorem Frame.branch_of_step_delimiter (ht : t.isA .delimiter = true)
    (h : ∀ f ∈ step fs t, f.waiting = .branch) : ∀ f ∈ fs, f.waiting = .branch := by
  cases fs with
  | nil => simp
  | cons f fs =>
    have ho := opened?_of_delimiter ht
    have hb : t.isA .blockClose = false := Token.isA_eq_false ht (by decide)
    have hq : t.isA .quoteClose = false := Token.isA_eq_false ht (by decide)
    have hm : t.isA .thenMark = false := Token.isA_eq_false ht (by decide)
    cases hf : f.waiting with
    | branch =>
      simp only [step, hf, ho, ht] at h
      intro g hg
      rcases List.mem_cons.1 hg with rfl | hg
      · exact hf
      · exact h g hg
    | _ => simp [step, hf, ho, hb, hq, hm] at h

theorem Closed.of_append_delimiters (hd : Token.allDelimiters ds = true)
    (h : Closed (ts ++ ds)) : Closed ts := by
  rw [closed_iff, openAfter_append] at h
  rw [closed_iff]
  generalize openAfter ts = fs at h ⊢
  induction ds generalizing fs with
  | nil => exact h
  | cons t ds ih =>
    simp only [Token.allDelimiters, List.all_cons, Bool.and_eq_true] at hd
    exact Frame.branch_of_step_delimiter hd.1 (ih hd.2 _ h)

end Delimiters

structure SelfContained (ts : List Token) : Prop where
  closed : Closed ts
  conditional : Lacks .ifMark ts

namespace Frame

/-- The outermost enclosure that is open, if any, is a quotation or a block. -/
def Firm (fs : List Frame) : Prop :=
  ∀ f, fs.getLast? = some f → f.waiting = .quotation ∨ f.waiting = .block

theorem Firm.step (h : Firm fs) (ht : fs = [] → t.isA .ifMark = false) : Firm (step fs t) := by
  rcases List.eq_nil_or_concat fs with rfl | ⟨gs, f, rfl⟩
  · have hi := ht rfl
    intro g hg
    have ho : opened? t = some g := by
      rw [Frame.step] at hg
      cases ho : opened? t <;> simp_all
    unfold opened? at ho
    split at ho
    · cases ho
      exact .inl rfl
    · split at ho
      · cases ho
        exact .inr rfl
      · simp [hi] at ho
  · rw [List.concat_eq_append] at h ⊢
    have hf := h f List.getLast?_concat
    by_cases hg : gs = []
    · subst hg
      -- The only one that is open may be closed, or stay with or without another inside it.
      have hs : Frame.step [f] t = [] ∨ Frame.step [f] t = [f] ∨
          ∃ g, Frame.step [f] t = [g, f] := by
        rcases hf with hf | hf
        · by_cases hq : t.isA .quoteClose = true <;> simp [Frame.step, hf, hq]
        · cases ho : opened? t with
          | some g => exact .inr (.inr ⟨g, by simp [Frame.step, hf, ho]⟩)
          | none => by_cases hb : t.isA .blockClose = true <;> simp [Frame.step, hf, ho, hb]
      intro g hg
      rcases hs with hs | hs | ⟨o, hs⟩ <;> simp [hs] at hg
      · rwa [← hg]
      · rwa [← hg]
    · rw [step_append hg [f] t]
      intro g hg
      rw [List.getLast?_concat] at hg
      cases hg
      exact hf

theorem firm_foldl (h : Firm fs) (hi : ∀ t ∈ outer fs ts, t.isA .ifMark = false) :
    Firm (ts.foldl Frame.step fs) := by
  induction ts generalizing fs with
  | nil => exact h
  | cons t ts ih =>
    refine ih (h.step ?_) ?_
    · rintro rfl
      exact hi t (by simp [outer])
    · intro u hu
      exact hi u (by simp [outer, hu])

theorem Firm.eq_nil (h : Firm fs) (hb : ∀ f ∈ fs, f.waiting = .branch) : fs = [] := by
  cases hl : fs.getLast? with
  | none => exact List.getLast?_eq_none_iff.1 hl
  | some f =>
    have hw := hb f (List.mem_of_getLast? hl)
    rcases h f hl with hf | hf <;> simp [hw] at hf

theorem opened?_eq_none (h : t.isA k = true) (hk : ∀ w ∈ k.words, isOpener w = false) :
    opened? t = none := by
  have hm : t.text ∈ k.words := by simpa [Token.isA] using h
  exact opened?_eq_none_iff.2 (hk t.text hm)

end Frame

namespace SelfContained

variable (h : SelfContained ts)

include h

theorem openAfter_eq_nil : openAfter ts = [] := by
  have hf : Frame.Firm (openAfter ts) := Frame.firm_foldl (fun _ hn ↦ nomatch hn) h.conditional
  exact hf.eq_nil (closed_iff.1 h.closed)

theorem readUntil_append (hk : Lacks k ts) (rest : List Token) :
    readUntil k.words [] (ts ++ rest) =
      (readUntil k.words [] rest).map (Option.map fun p ↦ (ts ++ p.1, p.2)) := by
  have ho : ts.foldl Frame.step [] = [] := h.openAfter_eq_nil
  rw [Kotoba.readUntil_append hk, ho]

theorem readUntil_word (hk : Lacks k ts) (ht : t.isA k = true)
    (hw : ∀ w ∈ k.words, isOpener w = false) (rest : List Token) :
    readUntil k.words [] (ts ++ t :: rest) = .ok (some (ts, rest)) := by
  rw [h.readUntil_append hk, readUntil, if_pos ⟨rfl, Frame.opened?_eq_none ht hw, ht⟩]
  simp [Except.map]

theorem run_capture (hk : Lacks k ts) (ht : t.isA k = true)
    (hw : ∀ w ∈ k.words, isOpener w = false) (steps : Pattern) (rest : List Token) :
    Pattern.run (.capture :: .word k.words :: steps) (ts ++ t :: rest) =
      (Pattern.run steps rest).map fun m ↦ m.map (Match.push ts) := by
  rw [Pattern.run, h.readUntil_word hk ht hw]

theorem dropDelimiters : SelfContained (Token.dropDelimiters ts) := by
  obtain ⟨ds, he, hd, -⟩ := Token.exists_delimiters_append ts
  rw [he] at h
  exact ⟨h.closed.of_delimiters_append hd, h.conditional.of_delimiters_append hd⟩

theorem outer_append (ht : Frame.opened? t = none) (us : List Token) :
    outer [] (ts ++ t :: us) = outer [] ts ++ t :: outer [] us := by
  have ho : ts.foldl Frame.step [] = [] := h.openAfter_eq_nil
  rw [Kotoba.outer_append, ho, outer, Frame.step, ht]
  rfl

theorem lacks_append (ht : Frame.opened? t = none) (hl : Lacks k ts) (htk : t.isA k = false)
    (hl' : Lacks k us) : Lacks k (ts ++ t :: us) := by
  intro u hu
  rw [h.outer_append ht, List.mem_append, List.mem_cons] at hu
  rcases hu with hu | rfl | hu
  · exact hl u hu
  · exact htk
  · exact hl' u hu

theorem append (ht : Frame.opened? t = none) (hi : t.isA .ifMark = false)
    (h' : SelfContained us) : SelfContained (ts ++ t :: us) := by
  refine ⟨?_, h.lacks_append ht h.conditional hi h'.conditional⟩
  rw [closed_iff, openAfter_append, h.openAfter_eq_nil, List.foldl_cons, Frame.step, ht]
  exact closed_iff.1 h'.closed

end SelfContained

theorem Pattern.run_word (ht : t.isA k = true) (steps : Pattern) (rest : List Token) :
    Pattern.run (.word k.words :: steps) (t :: rest) = Pattern.run steps rest := by
  have hw : k.words.contains t.text = true := ht
  rw [Pattern.run, if_pos hw]

theorem Pattern.run_capture_of_lacks (hc : Closed ts) (hk : Lacks k ts) (steps : Pattern) :
    Pattern.run (.capture :: .word k.words :: steps) ts = .ok none := by
  rw [Pattern.run, hc.readUntil_eq hk]

end Kotoba
