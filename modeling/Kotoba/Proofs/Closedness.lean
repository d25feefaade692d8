import Kotoba.Proofs.Blocks
import Kotoba.Proofs.Captures
import Kotoba.Proofs.Nesting
import Kotoba.Proofs.Partition

/-!
Closed tokens fall into closed parts. What is left when delimiters are cut off, the lines, and
whatever a form of a clause captures are closed again, and none of them fails to be read.
-/

namespace Kotoba

variable {words : List Text} {fs gs : List Frame} {f : Frame} {t : Token}
  {ts taken line rest : List Token}

theorem closed_nil : Closed [] := rfl

theorem closed_of_foldl (h : ts.foldl Frame.step [] = []) : Closed ts := by
  rw [closed_iff, openAfter, h]
  rintro f ⟨⟩

/-- What follows tokens that leave nothing open is closed if all is. -/
theorem Closed.of_append (h : Closed (ts ++ rest)) (ho : ts.foldl Frame.step [] = []) :
    Closed rest := by
  rw [closed_iff, openAfter_append, openAfter, ho] at h
  exact closed_iff.2 h

theorem Closed.trim (h : Closed ts) : Closed (Token.trim ts) := by
  obtain ⟨ds, he, hd, -⟩ := Token.exists_delimiters_append ts
  obtain ⟨ds', he', hd', -⟩ := Token.exists_delimiters_append (Token.dropDelimiters ts).reverse
  have hr : Token.dropDelimiters ts = Token.trim ts ++ ds'.reverse := by
    have hv := congrArg List.reverse he'
    rwa [List.reverse_reverse, List.reverse_append] at hv
  rw [he] at h
  have hc := h.of_delimiters_append hd
  rw [hr] at hc
  refine hc.of_append_delimiters ?_
  rwa [Token.allDelimiters, List.all_reverse]

section Lines

/-- A line leaves nothing open that has to be closed, and nothing at all if more follows. -/
theorem foldl_of_readLine (h : readLine fs ts = .ok (line, rest)) :
    (∀ f ∈ line.foldl Frame.step fs, f.waiting = .branch) ∧
      (line.foldl Frame.step fs = [] ∨ rest = []) := by
  induction ts generalizing fs line with
  | nil =>
    rw [readLine] at h
    split at h
    · cases h
    · next hf =>
      cases h
      exact ⟨Frame.fault?_eq_none_iff.1 hf, .inr rfl⟩
  | cons t ts ih =>
    rcases readLine_cons_cases h with ⟨he, rfl, rfl⟩ | ⟨-, more, hr, rfl⟩
    · rw [List.foldl_cons, List.foldl_nil, he.1]
      exact ⟨by rintro f ⟨⟩, .inl rfl⟩
    · rw [List.foldl_cons]
      exact ih hr

theorem closed_of_readLine (h : readLine [] ts = .ok (line, rest)) : Closed line :=
  closed_iff.2 (foldl_of_readLine h).1

theorem Closed.of_readLine (hc : Closed ts) (h : readLine [] ts = .ok (line, rest)) :
    Closed rest := by
  rw [append_of_readLine h] at hc
  rcases (foldl_of_readLine h).2 with ho | rfl
  · exact hc.of_append ho
  · exact closed_nil

theorem Closed.readLine_ne_error (hc : Closed ts) (e : Fault) : readLine [] ts ≠ .error e := by
  intro h
  have hf : Frame.fault? (openAfter ts) = none := Frame.fault?_eq_none_iff.2 (closed_iff.1 hc)
  cases hf.symm.trans (fault?_of_readLine h)

theorem closed_of_mem_readLines (h : line ∈ (readLines ts).1) : Closed line := by
  fun_induction readLines ts with
  | case1 => cases h
  | case2 => cases h
  | case3 t ts first rest hr r ih =>
    rcases List.mem_cons.1 h with rfl | h
    · exact closed_of_readLine hr
    · exact ih h

theorem Closed.snd_readLines (hc : Closed ts) : (readLines ts).2 = none := by
  fun_induction readLines ts with
  | case1 => rfl
  | case2 t ts e hr => exact absurd hr (hc.readLine_ne_error e)
  | case3 t ts line rest hr r ih => exact ih (hc.of_readLine hr)

theorem Closed.exists_lines (hc : Closed ts) :
    ∃ lines, (Cursor.ofTokens ts).lines.1 = .ok lines ∧ ∀ line ∈ lines, Closed line := by
  refine ⟨(readLines ts).1, ?_, fun _ ↦ closed_of_mem_readLines⟩
  have hr : (Cursor.ofTokens ts).rest = ts := rfl
  rw [Cursor.lines_eq (Nat.zero_le _), hr, hc.snd_readLines]

end Lines

section Captures

theorem foldl_of_readUntil (h : readUntil words fs ts = .ok (some (taken, rest))) :
    taken.foldl Frame.step fs = [] ∧ ∃ t, Frame.opened? t = none ∧ ts = taken ++ t :: rest := by
  induction ts generalizing fs taken with
  | nil => exact (readUntil_nil_ne_some h).elim
  | cons t ts ih =>
    rcases readUntil_cons_cases h with ⟨hf, ho, -, rfl, rfl⟩ | ⟨-, more, hr, rfl⟩
    · exact ⟨hf, t, ho, rfl⟩
    · obtain ⟨hf, u, ho, rfl⟩ := ih hr
      exact ⟨hf, u, ho, rfl⟩

theorem Closed.tail (hc : Closed (t :: ts)) (ho : Frame.opened? t = none) : Closed ts := by
  have hs : [t].foldl Frame.step [] = [] := by simp [Frame.step, ho]
  rw [← List.singleton_append] at hc
  exact hc.of_append hs

theorem Closed.of_readUntil (hc : Closed ts)
    (h : readUntil words [] ts = .ok (some (taken, rest))) : Closed taken ∧ Closed rest := by
  obtain ⟨hf, t, ho, rfl⟩ := foldl_of_readUntil h
  exact ⟨closed_of_foldl hf, (hc.of_append hf).tail ho⟩

theorem Closed.readUntil_ne_error (hc : Closed ts) (words : List Text) (e : Fault) :
    readUntil words [] ts ≠ .error e := by
  intro h
  have hf : Frame.fault? (openAfter ts) = none := Frame.fault?_eq_none_iff.2 (closed_iff.1 hc)
  cases hf.symm.trans (fault?_of_readUntil h)

/-- Where the outermost of the open enclosures has come to what it waits for, the search for that
ends inside it, and the rest goes on from there. -/
theorem readUntil_of_foldl (hq : f.waiting ≠ .quotation) (hb : f.waiting ≠ .branch)
    (h : ∀ g ∈ ts.foldl Frame.step (gs ++ [f]), g.waiting = .branch) :
    ∃ taken rest, readUntil f.awaits.words gs ts = .ok (some (taken, rest)) ∧
      ∀ g ∈ rest.foldl Frame.step f.onward, g.waiting = .branch := by
  induction ts generalizing gs with
  | nil => exact absurd (h f (by simp)) hb
  | cons t ts ih =>
    rw [List.foldl_cons, Frame.step_outermost hq] at h
    split at h
    · next hc => exact ⟨[], ts, readUntil_of_word hc, h⟩
    · next hc =>
      obtain ⟨taken, rest, hr, ho⟩ := ih h
      refine ⟨t :: taken, rest, ?_, ho⟩
      rw [readUntil_of_not_word hc, hr]
      rfl

/-- A conditional past its `ならば` around the tokens makes no difference. -/
theorem foldl_of_branch (hf : f.waiting = .branch)
    (h : ∀ g ∈ ts.foldl Frame.step (gs ++ [f]), g.waiting = .branch) :
    ∀ g ∈ ts.foldl Frame.step gs, g.waiting = .branch := by
  induction ts generalizing gs with
  | nil => exact fun g hg ↦ h g (List.mem_append_left _ hg)
  | cons t ts ih =>
    rw [List.foldl_cons, Frame.step_outermost (by simp [hf])] at h
    rw [List.foldl_cons]
    split at h
    · next hc =>
      have hn : f.onward = [] := by simp [Frame.onward, hf]
      have hs : Frame.step gs t = [] := by rw [hc.1, Frame.step, hc.2.1]; rfl
      rwa [hs, ← hn]
    · exact ih h

theorem closed_of_onward (h : ∀ g ∈ ts.foldl Frame.step f.onward, g.waiting = .branch) :
    Closed ts := by
  rw [closed_iff]
  unfold Frame.onward at h
  split at h
  · have hb : ∀ g ∈ ts.foldl Frame.step ([] ++ [⟨.branch, f.line⟩]), g.waiting = .branch := h
    exact foldl_of_branch rfl hb
  · exact h

end Captures

namespace Pattern

variable {p : Pattern} {r : Except Fault (Option Match)}

/-- There is no fault, and what a match has captured is closed. -/
def Seals (r : Except Fault (Option Match)) : Prop :=
  ∃ o, r = .ok o ∧ ∀ m, o = some m → ∀ part ∈ m.captures, Closed part

theorem seals_none : Seals (.ok none) := ⟨none, rfl, by rintro m ⟨⟩⟩

theorem Seals.push (h : Seals r) (hc : Closed taken) :
    Seals (r.map fun m ↦ m.map (Match.push taken)) := by
  obtain ⟨o, rfl, ho⟩ := h
  refine ⟨_, rfl, fun m hm part hp ↦ ?_⟩
  obtain ⟨m', rfl, rfl⟩ := Option.map_eq_some_iff.1 hm
  rcases List.mem_cons.1 hp with rfl | hp
  · exact hc
  · exact ho m' rfl part hp

/-- No word of the pattern opens an enclosure, and no two captures stand next to each other. -/
def Plain (p : Pattern) : Prop :=
  p.separated = true ∧ ∀ words ∈ p.classes, ∀ w ∈ words, isOpener w = false

instance (p : Pattern) : Decidable p.Plain := inferInstanceAs (Decidable (_ ∧ _))

theorem Plain.tail {s : Step} (h : Plain (s :: p)) : Plain p := by
  refine ⟨separated_tail h.1, fun words hm ↦ h.2 words ?_⟩
  cases s with
  | word ws => exact List.mem_cons_of_mem ws hm
  | capture => exact hm

theorem seals_run (hp : p.Plain) (hc : Closed ts) : Seals (p.run ts) := by
  fun_induction Pattern.run p ts with
  | case1 ts => exact ⟨_, rfl, by rintro m ⟨⟩ part ⟨⟩⟩
  | case2 ts =>
    refine ⟨_, rfl, ?_⟩
    rintro m ⟨⟩ part hm
    rwa [List.mem_singleton.1 hm]
  | case3 => exact absurd hp.1 Bool.false_ne_true
  | case4 words p ts e hr => exact absurd hr (hc.readUntil_ne_error words e)
  | case5 => exact seals_none
  | case6 words p ts taken rest hr ih =>
    obtain ⟨ht, hs⟩ := hc.of_readUntil hr
    exact (ih hp.tail.tail hs).push ht
  | case7 => exact seals_none
  | case8 words p t ts hw ih =>
    have ho := hp.2 words List.mem_cons_self t.text (by simpa using hw)
    exact ih hp.tail (hc.tail (Frame.opened?_eq_none_iff.2 ho))
  | case9 => exact seals_none

/-- A pattern may begin with a word that opens an enclosure, if it goes on to the word that the
enclosure waits for. -/
theorem seals_run_opener {k j : WordClass}
    (hk : ∀ t : Token, t.isA k = true → ∃ f, Frame.opened? t = some f ∧
      f.waiting ≠ .quotation ∧ f.waiting ≠ .branch ∧ f.awaits = j)
    (hp : p.Plain) (hc : Closed ts) :
    Seals (Pattern.run (.word k.words :: .capture :: .word j.words :: p) ts) := by
  cases ts with
  | nil => exact seals_none
  | cons t ts =>
    rw [Pattern.run]
    split
    · next ht =>
      obtain ⟨f, ho, hq, hb, rfl⟩ := hk t ht
      rw [closed_iff, openAfter, List.foldl_cons, Frame.step_of_opened? ho] at hc
      -- What the opener has opened is around all that follows, so that it is closed in there.
      have hf : ∀ g ∈ ts.foldl Frame.step ([] ++ [f]), g.waiting = .branch := hc
      obtain ⟨taken, rest, hr, hn⟩ := readUntil_of_foldl hq hb hf
      rw [Pattern.run, hr]
      exact (seals_run hp (closed_of_onward hn)).push (closed_of_foldl (foldl_of_readUntil hr).1)
    · exact seals_none

end Pattern

namespace Form

/-- All forms of clauses. -/
def all : List Form := conditionals ++ repetitions ++ others

theorem seals_conditional {p : Pattern} (hp : p.Plain) (hc : Closed ts) :
    Pattern.Seals (Pattern.run (.ofClass .ifMark :: .capture :: .ofClass .thenMark :: p) ts) := by
  refine Pattern.seals_run_opener (fun t ht ↦ ?_) hp hc
  refine ⟨⟨.condition, t.line⟩, ?_, by simp, by simp, rfl⟩
  have hq : t.isA .quoteOpen = false := Token.isA_eq_false ht (by decide)
  have hb : t.isA .blockOpen = false := Token.isA_eq_false ht (by decide)
  simp [Frame.opened?, hq, hb, ht]

theorem seals_block (hc : Closed ts) :
    Pattern.Seals (Pattern.run [.ofClass .blockOpen, .capture, .ofClass .blockClose] ts) := by
  have ho (t : Token) (ht : t.isA .blockOpen = true) := Frame.opened?_of_blockOpen ht
  exact Pattern.seals_run_opener (fun t ht ↦ ⟨_, ho t ht, by simp, by simp, rfl⟩) (by decide) hc

theorem seals_of_mem_all {f : Form} (hf : f ∈ all) (hc : Closed ts) :
    Pattern.Seals (f.pattern.run ts) := by
  simp only [all, conditionals, repetitions, others, List.mem_append, List.mem_cons,
    List.not_mem_nil, or_false] at hf
  rcases hf with ((rfl | rfl | rfl | rfl) | rfl | rfl) | rfl | rfl
  · exact seals_conditional (by decide) hc
  · exact seals_conditional (by decide) hc
  · exact seals_conditional (by decide) hc
  · exact seals_conditional (by decide) hc
  · exact Pattern.seals_run (by decide) hc
  · exact Pattern.seals_run (by decide) hc
  · exact Pattern.seals_run (by decide) hc
  · exact seals_block hc

theorem sound_of_mem_all {f : Form} (hf : f ∈ all) : f.Sound := by
  rcases List.mem_append.1 hf with hf | hf
  · rcases List.mem_append.1 hf with hf | hf
    · exact sound_of_mem_conditionals hf
    · exact sound_of_mem_repetitions hf
  · exact sound_of_mem_others hf

theorem first?_of_closed {fs : List Form} (hf : fs ⊆ all) (hc : Closed ts) :
    ∃ o, first? fs ts = .ok o ∧ ∀ k after, o = some (k, after) → ∀ part ∈ k.parts, Closed part := by
  induction fs with
  | nil => exact ⟨none, rfl, by rintro k after ⟨⟩⟩
  | cons f fs ih =>
    have hm : f ∈ all := hf List.mem_cons_self
    obtain ⟨o, hr, ho⟩ := seals_of_mem_all hm hc
    rw [first?, hr]
    cases o with
    | none => exact ih (List.subset_of_cons_subset hf)
    | some m =>
      refine ⟨_, rfl, ?_⟩
      rintro k after ⟨⟩ part hp
      exact ho m rfl part ((sound_of_mem_all hm).2.2 _ part hp)

end Form

namespace Clause

theorem forms_subset_all (source rest : List Token) : (forms source rest).1 ⊆ Form.all := by
  unfold forms Form.all
  split
  · exact fun f hf ↦ List.mem_append_left _ (List.mem_append_left _ hf)
  · split
    · exact fun f hf ↦ List.mem_append_left _ (List.mem_append_right _ hf)
    · exact fun f hf ↦ List.mem_append_right _ hf

variable {source after : List Token} {k : Clause}

theorem closed_of_read (hc : Closed rest) (h : read source rest = .ok (k, after)) :
    ∀ part ∈ k.parts, Closed part := by
  obtain ⟨o, hr, ho⟩ := Form.first?_of_closed (forms_subset_all source rest) hc
  rw [read, hr] at h
  cases o with
  | some r =>
    cases h
    exact ho k after rfl
  | none =>
    simp only at h
    split at h
    · cases h
    · cases h
      rintro part ⟨⟩

/-- Closed tokens are at worst no clause. -/
theorem malformed_of_read (hc : Closed rest) {e : Fault} (h : read source rest = .error e) :
    e = .onTokens (.malformed (Token.spaced source)) source := by
  obtain ⟨o, hr, -⟩ := Form.first?_of_closed (forms_subset_all source rest) hc
  rw [read, hr] at h
  cases o with
  | some r => cases h
  | none =>
    simp only at h
    split at h
    · cases h
      rfl
    · cases h

end Clause

/-- A form is matched against closed tokens without a fault, and captures closed tokens. -/
theorem Cursor.closed_of_matchPattern {f : Form} (hf : f ∈ Form.all) (hc : Closed ts)
    (saved : List Nat) :
    ∃ o, (matchPattern ⟨ts, 0, saved⟩ f.pattern).1 = .ok o ∧
      ∀ captures, o = some captures → ∀ part ∈ captures, Closed part := by
  obtain ⟨o, hr, ho⟩ := Form.seals_of_mem_all hf hc
  have hs : Cursor.rest ⟨ts, 0, saved⟩ = ts := rfl
  rw [matchPattern, hs, hr]
  cases o with
  | none => exact ⟨none, rfl, by rintro captures ⟨⟩⟩
  | some m =>
    refine ⟨_, rfl, ?_⟩
    rintro captures ⟨⟩
    exact ho m rfl

end Kotoba
