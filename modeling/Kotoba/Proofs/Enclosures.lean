import Kotoba.Proofs.Lines

/-!
Enclosures are passed over whole. Whoever reads for something outside all enclosures and comes to
one that closes goes on behind it as from the beginning, with what was enclosed set aside. Inside a
block the reading is that of its lines, up to the word that closes it.
-/

namespace Kotoba

variable {fs gs : List Frame} {t : Token} {ts taken rest : List Token}

theorem readClosed_cons_cases (hf : fs ≠ []) (h : readClosed fs (t :: ts) = .ok (taken, rest)) :
    ∃ more, readClosed (Frame.step fs t) ts = .ok (more, rest) ∧ taken = t :: more := by
  obtain ⟨f, fs, rfl⟩ := List.exists_cons_of_ne_nil hf
  rw [readClosed] at h
  match hr : readClosed (Frame.step (f :: fs) t) ts with
  | .error e => simp [hr, Except.map] at h
  | .ok (more, rest') =>
    rw [hr] at h
    cases h
    exact ⟨more, rfl, rfl⟩

theorem readClosed_nil_cases (hf : fs ≠ []) (h : readClosed fs [] = .ok (taken, rest)) :
    Frame.fault? fs = none ∧ taken = [] ∧ rest = [] := by
  obtain ⟨f, fs, rfl⟩ := List.exists_cons_of_ne_nil hf
  rw [readClosed] at h
  split at h
  · cases h
  · next hn =>
    cases h
    exact ⟨hn, rfl, rfl⟩

theorem append_of_readClosed (h : readClosed fs ts = .ok (taken, rest)) : ts = taken ++ rest := by
  by_cases hf : fs = []
  · subst hf
    rw [readClosed] at h
    cases h
    rfl
  · induction ts generalizing fs taken with
    | nil =>
      obtain ⟨-, rfl, rfl⟩ := readClosed_nil_cases hf h
      rfl
    | cons t ts ih =>
      obtain ⟨more, hm, rfl⟩ := readClosed_cons_cases hf h
      by_cases hs : Frame.step fs t = []
      · rw [hs, readClosed] at hm
        cases hm
        rfl
      · rw [List.cons_append, ← ih hm hs]

/-- A search outside all enclosures goes on where the open ones are closed. -/
theorem readUntil_of_readClosed (words : List Text) (h : readClosed fs ts = .ok (taken, rest)) :
    readUntil words fs ts =
      (readUntil words [] rest).map (Option.map fun p ↦ (taken ++ p.1, p.2)) := by
  induction ts generalizing fs taken with
  | nil =>
    by_cases hf : fs = []
    · subst hf
      rw [readClosed] at h
      cases h
      rfl
    · obtain ⟨hn, rfl, rfl⟩ := readClosed_nil_cases hf h
      rw [readUntil, hn]
      rfl
  | cons t ts ih =>
    by_cases hf : fs = []
    · subst hf
      rw [readClosed] at h
      cases h
      cases hr : readUntil words [] (t :: ts) with
      | error e => rfl
      | ok o => cases o <;> rfl
    · obtain ⟨more, hm, rfl⟩ := readClosed_cons_cases hf h
      rw [readUntil, if_neg fun hc ↦ hf hc.1, ih hm]
      cases hr : readUntil words [] rest with
      | error e => rfl
      | ok o => cases o <;> rfl

/-- A line goes on where the open enclosures are closed, if it is no delimiter that closes them. -/
theorem readLine_of_readClosed (h : readClosed fs ts = .ok (taken, rest))
    (hl : taken.getLast?.any (·.isA .delimiter) = false) :
    readLine fs ts = (readLine [] rest).map fun p ↦ (taken ++ p.1, p.2) := by
  induction ts generalizing fs taken with
  | nil =>
    by_cases hf : fs = []
    · subst hf
      rw [readClosed] at h
      cases h
      rfl
    · obtain ⟨hn, rfl, rfl⟩ := readClosed_nil_cases hf h
      rw [readLine, hn]
      rfl
  | cons t ts ih =>
    by_cases hf : fs = []
    · subst hf
      rw [readClosed] at h
      cases h
      cases hr : readLine [] (t :: ts) <;> rfl
    · obtain ⟨more, hm, rfl⟩ := readClosed_cons_cases hf h
      have hn : ¬ EndsLine fs t ts := by
        rintro ⟨hs, hd, -⟩
        rw [hs, readClosed] at hm
        cases hm
        simp [hd] at hl
      have hl' : more.getLast?.any (·.isA .delimiter) = false := by
        cases more with
        | nil => rfl
        | cons u us => rwa [List.getLast?_cons_cons] at hl
      rw [readLine_of_not_endsLine hn, ih hm hl']
      cases hr : readLine [] rest <;> rfl

section Word

variable {k : WordClass}

theorem readUntil_of_word (h : fs = [] ∧ Frame.opened? t = none ∧ t.isA k = true) :
    readUntil k.words fs (t :: ts) = .ok (some ([], ts)) := by
  rw [readUntil]
  exact if_pos h

theorem readUntil_of_not_word (h : ¬ (fs = [] ∧ Frame.opened? t = none ∧ t.isA k = true)) :
    readUntil k.words fs (t :: ts) =
      (readUntil k.words (Frame.step fs t) ts).map fun r ↦ r.map fun p ↦ (t :: p.1, p.2) := by
  rw [readUntil]
  exact if_neg h

end Word

section Whole

variable {f : Frame}

theorem Frame.opened?_eq_none_iff : opened? t = none ↔ isOpener t.text = false := by
  have hi : isOpener t.text = (t.isA .quoteOpen || (t.isA .blockOpen || t.isA .ifMark)) := by
    simp [isOpener, WordClass.openers, Token.isA]
  rw [hi, opened?]
  cases t.isA .quoteOpen <;> cases t.isA .blockOpen <;> cases t.isA .ifMark <;> simp

theorem Frame.step_of_opened? (h : opened? t = some f) : step [] t = [f] := by
  rw [step, h]
  rfl

theorem readUntil_enclosure (words : List Text) (ho : Frame.opened? t = some f)
    (h : readClosed [f] ts = .ok (taken, rest)) :
    readUntil words [] (t :: ts) =
      (readUntil words [] rest).map (Option.map fun p ↦ (t :: taken ++ p.1, p.2)) := by
  rw [readUntil, if_neg (by simp [ho]), Frame.step_of_opened? ho, readUntil_of_readClosed words h]
  cases readUntil words [] rest with
  | error e => rfl
  | ok o => cases o <;> rfl

theorem readLine_enclosure (ho : Frame.opened? t = some f)
    (h : readClosed [f] ts = .ok (taken, rest))
    (hl : taken.getLast?.any (·.isA .delimiter) = false) :
    readLine [] (t :: ts) = (readLine [] rest).map fun p ↦ (t :: taken ++ p.1, p.2) := by
  have hn : ¬ EndsLine [] t ts := by
    rintro ⟨hs, -, -⟩
    rw [Frame.step_of_opened? ho] at hs
    cases hs
  rw [readLine_of_not_endsLine hn, Frame.step_of_opened? ho, readLine_of_readClosed h hl]
  cases readLine [] rest <;> rfl

end Whole

/-- A quotation is closed by the first closing mark. -/
theorem readClosed_quotation (line : Int) {close : Token} (hc : close.isA .quoteClose = true)
    (hn : ∀ t ∈ ts, t.isA .quoteClose = false) (rest : List Token) :
    readClosed [⟨.quotation, line⟩] (ts ++ close :: rest) = .ok (ts ++ [close], rest) := by
  induction ts with
  | nil =>
    have hs : Frame.step [⟨.quotation, line⟩] close = [] := by simp [Frame.step, hc]
    rw [List.nil_append, readClosed, hs, readClosed]
    rfl
  | cons t ts ih =>
    have hs : Frame.step [⟨.quotation, line⟩] t = [⟨.quotation, line⟩] := by
      simp [Frame.step, hn t List.mem_cons_self]
    rw [List.cons_append, readClosed, hs, ih fun u hu ↦ hn u (List.mem_cons_of_mem t hu)]
    rfl

namespace Frame

/-- Only the innermost enclosures take part in a step. -/
theorem step_append (hg : gs ≠ []) (fs : List Frame) (t : Token) :
    step (gs ++ fs) t = step gs t ++ fs := by
  obtain ⟨g, gs, rfl⟩ := List.exists_cons_of_ne_nil hg
  simp only [List.cons_append, step]
  split
  · split <;> rfl
  · split
    · rfl
    · split
      · rfl
      · split <;> rfl
      · split <;> rfl
      · split <;> rfl

/-- The words that end the enclosure, or the condition of a conditional. -/
def awaits (f : Frame) : WordClass :=
  match f.waiting with
  | .quotation => .quoteClose
  | .block => .blockClose
  | .condition => .thenMark
  | .branch => .delimiter

/-- What is still open when such a word has come. -/
def onward (f : Frame) : List Frame := if f.waiting = .condition then [⟨.branch, f.line⟩] else []

/-- The outermost enclosure takes no part in a step but the one that ends it. -/
theorem step_outermost {f : Frame} (hf : f.waiting ≠ .quotation) (gs : List Frame) (t : Token) :
    step (gs ++ [f]) t =
      if gs = [] ∧ opened? t = none ∧ t.isA f.awaits = true then f.onward
      else step gs t ++ [f] := by
  by_cases hg : gs = []
  · subst hg
    cases ho : opened? t with
    | some g => simp [step, hf, ho]
    | none =>
      cases hw : f.waiting with
      | quotation => exact absurd hw hf
      | block => by_cases hb : t.isA .blockClose = true <;> simp [step, awaits, onward, hw, ho, hb]
      | condition =>
        by_cases hb : t.isA .thenMark = true <;> simp [step, awaits, onward, hw, ho, hb]
      | branch => by_cases hb : t.isA .delimiter = true <;> simp [step, awaits, onward, hw, ho, hb]
  · rw [step_append hg [f] t, if_neg fun h ↦ hg h.1]

theorem fault?_append_block {f : Frame} (hf : f.waiting = .block) (gs : List Frame) :
    fault? (gs ++ [f]) ≠ none := by
  intro h
  have hm := List.findSome?_eq_none_iff.1 h f (by simp)
  simp [missing?, hf] at hm

end Frame

/-- A block that closes is read up to the word that closes it. -/
theorem readUntil_of_block {f : Frame} (hf : f.waiting = .block)
    (h : readClosed (gs ++ [f]) ts = .ok (taken, rest)) :
    ∃ body close, taken = body ++ [close] ∧ close.isA .blockClose = true ∧
      readUntil WordClass.blockClose.words gs ts = .ok (some (body, rest)) := by
  induction ts generalizing gs taken with
  | nil =>
    have hn := (readClosed_nil_cases (by simp) h).1
    exact absurd hn (Frame.fault?_append_block hf gs)
  | cons t ts ih =>
    obtain ⟨more, hm, rfl⟩ := readClosed_cons_cases (by simp) h
    have hw : f.awaits = .blockClose := by rw [Frame.awaits, hf]
    rw [Frame.step_outermost (by simp [hf]), hw] at hm
    split at hm
    · next hc =>
      -- The word that closes the block.
      rw [Frame.onward, if_neg (by simp [hf]), readClosed] at hm
      cases hm
      exact ⟨[], t, rfl, hc.2.2, readUntil_of_word hc⟩
    · next hc =>
      obtain ⟨body, close, rfl, hb, hr⟩ := ih hm
      refine ⟨t :: body, close, rfl, hb, ?_⟩
      rw [readUntil_of_not_word hc, hr]
      rfl

/-- The enclosure that the first token opens ends with the last one. -/
def OneEnclosure (ts : List Token) : Prop := (Cursor.ofTokens ts).readEnclosure.1 = .ok (some ts)

instance (ts : List Token) : Decidable (OneEnclosure ts) :=
  match h : (Cursor.ofTokens ts).readEnclosure.1 with
  | .ok (some us) => decidable_of_iff (us = ts) (by simp [OneEnclosure, h])
  | .ok none => isFalse (by simp [OneEnclosure, h])
  | .error _ => isFalse (by simp [OneEnclosure, h])

theorem OneEnclosure.readClosed_eq (h : OneEnclosure (t :: ts)) :
    ∃ f, Frame.opened? t = some f ∧ readClosed [f] ts = .ok (ts, []) := by
  have hr : ∃ after, readEnclosure t ts = .ok (t :: ts, after) := by
    simp only [OneEnclosure, Cursor.readEnclosure, Cursor.readToken, Cursor.peekToken?,
      Cursor.ofTokens, Cursor.rest, List.getElem?_cons_zero, Nat.zero_add, List.drop_succ_cons,
      List.drop_zero] at h
    split at h
    · next hr =>
      cases h
      exact ⟨_, hr⟩
    · cases h
  obtain ⟨after, hr⟩ := hr
  unfold readEnclosure at hr
  split at hr
  · cases hr
  · next f hf =>
    match hc : readClosed [f] ts with
    | .error e => simp [hc, Except.map] at hr
    | .ok (taken, rest) =>
      simp only [hc, Except.map, Except.ok.injEq, Prod.mk.injEq, List.cons.injEq, true_and] at hr
      obtain ⟨rfl, rfl⟩ := hr
      have ha := append_of_readClosed hc
      obtain rfl : rest = [] := by simpa using ha
      exact ⟨f, hf, hc⟩

end Kotoba
