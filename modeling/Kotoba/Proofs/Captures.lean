import Kotoba.Proofs.Enclosures
import Kotoba.Proofs.Rollback
import Mathlib.Data.List.Forall2

/-!
What a match takes. The tokens between the position before a match and the one after it are the
captures with one word between them for each class of the pattern. A capture that ends before a word
consists of plain tokens, none of which could have ended it, and of enclosures, each of them whole:
a quotation up to its closing mark, a block up to the word that closes it, and a conditional through
its condition and branch up to the delimiter of its statement.
-/

namespace Kotoba

mutual

/-- A quotation, block or conditional from the word that opens it to the one that closes it. -/
inductive Enclosed : List Token → Prop
  | quotation {opening closing : Token} {body : List Token} :
      opening.isA .quoteOpen = true → (∀ t ∈ body, t.isA .quoteClose = false) →
      closing.isA .quoteClose = true → Enclosed (opening :: (body ++ [closing]))
  | block {opening closing : Token} {body : List Token} :
      opening.isA .blockOpen = true → Stretch WordClass.blockClose.words body →
      closing.isA .blockClose = true → Enclosed (opening :: (body ++ [closing]))
  | conditional {opening mark closing : Token} {condition branch : List Token} :
      opening.isA .ifMark = true → Stretch WordClass.thenMark.words condition →
      mark.isA .thenMark = true → Stretch WordClass.delimiter.words branch →
      closing.isA .delimiter = true →
      Enclosed (opening :: (condition ++ mark :: (branch ++ [closing])))

/-- Plain tokens, none of them one of the words, and whole enclosures. -/
inductive Stretch : List Text → List Token → Prop
  | nil {words : List Text} : Stretch words []
  | plain {words : List Text} {t : Token} {ts : List Token} :
      isOpener t.text = false → t.text ∉ words → Stretch words ts → Stretch words (t :: ts)
  | enclosed {words : List Text} {us ts : List Token} :
      Enclosed us → Stretch words ts → Stretch words (us ++ ts)

end

variable {words : List Text} {f : Frame} {t : Token} {ts taken rest : List Token}

theorem readUntil_cons_cases {fs : List Frame}
    (h : readUntil words fs (t :: ts) = .ok (some (taken, rest))) :
    (fs = [] ∧ Frame.opened? t = none ∧ t.text ∈ words ∧ taken = [] ∧ rest = ts) ∨
      ¬ (fs = [] ∧ Frame.opened? t = none ∧ words.contains t.text = true) ∧
        ∃ more, readUntil words (Frame.step fs t) ts = .ok (some (more, rest)) ∧
          taken = t :: more := by
  rw [readUntil] at h
  split at h
  · next hw =>
    cases h
    exact .inl ⟨hw.1, hw.2.1, by simpa using hw.2.2, rfl, rfl⟩
  · next hw =>
    cases hr : readUntil words (Frame.step fs t) ts with
    | error e => simp [hr, Except.map] at h
    | ok o =>
      rw [hr] at h
      cases o with
      | none => cases h
      | some p =>
        cases h
        exact .inr ⟨hw, p.1, rfl, rfl⟩

theorem readUntil_nil_ne_some {fs : List Frame}
    (h : readUntil words fs [] = .ok (some (taken, rest))) : False := by
  rw [readUntil] at h
  split at h <;> cases h

theorem length_of_readUntil {fs : List Frame}
    (h : readUntil words fs ts = .ok (some (taken, rest))) : rest.length < ts.length := by
  obtain ⟨t, -, rfl⟩ := append_of_readUntil h
  rw [List.length_append, List.length_cons]
  omega

/-- A search that finds a word behind an open enclosure has passed a word that ends it. -/
theorem readUntil_outermost (gs : List Frame) (hf : f.waiting ≠ .quotation)
    (h : readUntil words (gs ++ [f]) ts = .ok (some (taken, rest))) :
    ∃ body closing more after, taken = body ++ closing :: more ∧ closing.isA f.awaits = true ∧
      readUntil f.awaits.words gs ts = .ok (some (body, after)) ∧
      readUntil words f.onward after = .ok (some (more, rest)) := by
  induction ts generalizing gs taken with
  | nil => exact (readUntil_nil_ne_some h).elim
  | cons t ts ih =>
    rcases readUntil_cons_cases h with ⟨hn, -⟩ | ⟨-, more, hr, rfl⟩
    · simp at hn
    · rw [Frame.step_outermost hf] at hr
      split at hr
      · next hc => exact ⟨[], t, more, ts, rfl, hc.2.2, readUntil_of_word hc, hr⟩
      · next hc =>
        obtain ⟨body, closing, more', after, rfl, hk, hb, hm⟩ := ih _ hr
        refine ⟨t :: body, closing, more', after, rfl, hk, ?_, hm⟩
        rw [readUntil_of_not_word hc, hb]
        rfl

theorem readUntil_quotation (hf : f.waiting = .quotation)
    (h : readUntil words [f] ts = .ok (some (taken, rest))) :
    ∃ body closing more after, taken = body ++ closing :: more ∧
      (∀ t ∈ body, t.isA .quoteClose = false) ∧ closing.isA .quoteClose = true ∧
      ts = body ++ closing :: after ∧ readUntil words [] after = .ok (some (more, rest)) := by
  induction ts generalizing taken with
  | nil => exact (readUntil_nil_ne_some h).elim
  | cons t ts ih =>
    rcases readUntil_cons_cases h with ⟨hn, -⟩ | ⟨-, more, hr, rfl⟩
    · simp at hn
    · by_cases ht : t.isA .quoteClose = true
      · have hs : Frame.step [f] t = [] := by simp [Frame.step, hf, ht]
        rw [hs] at hr
        exact ⟨[], t, more, ts, rfl, by simp, ht, rfl, hr⟩
      · have hs : Frame.step [f] t = [f] := by simp [Frame.step, hf, ht]
        rw [hs] at hr
        obtain ⟨body, closing, more', after, rfl, hb, hk, rfl, hm⟩ := ih hr
        refine ⟨t :: body, closing, more', after, rfl, ?_, hk, rfl, hm⟩
        intro u hu
        rcases List.mem_cons.1 hu with rfl | hu
        · exact Bool.eq_false_iff.2 ht
        · exact hb u hu

/-- A search that finds a word behind one that opens an enclosure has passed the whole of it. -/
theorem enclosed_of_readUntil (ho : Frame.opened? t = some f)
    (h : readUntil words [f] ts = .ok (some (taken, rest)))
    (hs : ∀ {words us taken rest}, us.length ≤ ts.length →
      readUntil words [] us = .ok (some (taken, rest)) → Stretch words taken) :
    ∃ us more after, t :: taken = us ++ more ∧ Enclosed us ∧ after.length < ts.length ∧
      readUntil words [] after = .ok (some (more, rest)) := by
  rcases Frame.opened?_cases ho with ⟨ht, rfl⟩ | ⟨ht, rfl⟩ | ⟨ht, rfl⟩
  · obtain ⟨body, closing, more, after, rfl, hb, hk, rfl, hm⟩ := readUntil_quotation rfl h
    refine ⟨t :: (body ++ [closing]), more, after, by simp, .quotation ht hb hk, ?_, hm⟩
    simp only [List.length_append, List.length_cons]
    omega
  · obtain ⟨body, closing, more, after, rfl, hk, hb, hm⟩ := readUntil_outermost [] (by simp) h
    have he : Enclosed (t :: (body ++ [closing])) := .block ht (hs (Nat.le_refl _) hb) hk
    exact ⟨_, more, after, by simp, he, length_of_readUntil hb, hm⟩
  · obtain ⟨condition, mark, branch', after, rfl, hk, hb, hm⟩ :=
      readUntil_outermost [] (by simp) h
    have hl := length_of_readUntil hb
    obtain ⟨branch, closing, more, after', rfl, hk', hb', hm'⟩ :=
      readUntil_outermost [] (by simp) hm
    have he : Enclosed (t :: (condition ++ mark :: (branch ++ [closing]))) :=
      .conditional ht (hs (Nat.le_refl _) hb) hk (hs (Nat.le_of_lt hl) hb') hk'
    exact ⟨_, more, after', by simp, he, Nat.lt_trans (length_of_readUntil hb') hl, hm'⟩

/-- What a search has passed over is free of its words. -/
theorem stretch_of_readUntil (h : readUntil words [] ts = .ok (some (taken, rest))) :
    Stretch words taken := by
  -- The parts of an enclosure are searches for other words, in what follows its opening word.
  induction hn : ts.length using Nat.strongRecOn generalizing words ts taken rest with
  | _ n ih =>
    subst hn
    cases ts with
    | nil => exact (readUntil_nil_ne_some h).elim
    | cons t ts =>
      have hs : ∀ {words us taken rest}, us.length ≤ ts.length →
          readUntil words [] us = .ok (some (taken, rest)) → Stretch words taken :=
        fun hl hr ↦ ih _ (Nat.lt_succ_of_le hl) hr rfl
      rcases readUntil_cons_cases h with ⟨-, -, -, rfl, -⟩ | ⟨hw, more, hr, rfl⟩
      · exact .nil
      · cases ho : Frame.opened? t with
        | none =>
          have ht : t.text ∉ words := fun hc ↦ hw ⟨rfl, ho, by simpa using hc⟩
          rw [Frame.step, ho] at hr
          exact .plain (Frame.opened?_eq_none_iff.1 ho) ht (hs (Nat.le_refl _) hr)
        | some f =>
          rw [Frame.step_of_opened? ho] at hr
          obtain ⟨us, more', after, he, hu, hl, hm⟩ := enclosed_of_readUntil ho hr hs
          rw [he]
          exact .enclosed hu (hs (Nat.le_of_lt hl) hm)

namespace Pattern

/-- The tokens begin with the pattern, and the captures have taken these parts of them. -/
inductive Matches : Pattern → List Token → Match → Prop
  | nil (ts : List Token) : Matches [] ts ⟨[], ts⟩
  | word {words : List Text} {p : Pattern} {t : Token} {ts : List Token} {m : Match} :
      t.text ∈ words → Matches p ts m → Matches (.word words :: p) (t :: ts) m
  | capture {words : List Text} {p : Pattern} {taken rest : List Token} {t : Token} {m : Match} :
      Stretch words taken → t.text ∈ words → Matches p rest m →
      Matches (.capture :: .word words :: p) (taken ++ t :: rest) (m.push taken)
  | last (ts : List Token) : Matches [.capture] ts ⟨[ts], []⟩

variable {p : Pattern} {m : Match}

theorem matches_of_run (h : p.run ts = .ok (some m)) : p.Matches ts m := by
  fun_induction Pattern.run p ts generalizing m with
  | case1 ts =>
    cases h
    exact .nil ts
  | case2 ts =>
    cases h
    exact .last ts
  | case3 => cases h
  | case4 => cases h
  | case5 => cases h
  | case6 words p ts taken rest hr ih =>
    cases hm : Pattern.run p rest with
    | error e => simp [hm, Except.map] at h
    | ok o =>
      rw [hm] at h
      cases o with
      | none => cases h
      | some m' =>
        cases h
        obtain ⟨t, ht, rfl⟩ := append_of_readUntil hr
        exact .capture (stretch_of_readUntil hr) ht (ih hm)
  | case7 => cases h
  | case8 words p t ts hw ih => exact .word (by simpa using hw) (ih h)
  | case9 => cases h

def classes (p : Pattern) : List (List Text) := p.filterMap fun
  | .word words => some words
  | .capture => none

/-- For each capture the words that end it, if it is not the last step. -/
def bounds : Pattern → List (Option (List Text))
  | [] => []
  | .word _ :: p => bounds p
  | .capture :: .word words :: p => some words :: bounds p
  | .capture :: p => none :: bounds p

/-- The captures and the tokens of the words, each in the place of its step. -/
def weave : Pattern → List (List Token) → List Token → List Token
  | .capture :: p, taken :: captures, keywords => taken ++ weave p captures keywords
  | .word _ :: p, captures, t :: keywords => t :: weave p captures keywords
  | _, _, _ => []

/-- A capture that ends before a word is a stretch free of it, and the last one goes on to the end
of the tokens. -/
def Bounded (ts : List Token) : Option (List Text) → List Token → Prop
  | some words, taken => Stretch words taken
  | none, taken => taken <:+ ts

theorem Matches.weave_eq (h : p.Matches ts m) :
    ∃ keywords, List.Forall₂ (fun t words ↦ t.text ∈ words) keywords p.classes ∧
      p.weave m.captures keywords ++ m.rest = ts := by
  induction h with
  | nil ts => exact ⟨[], .nil, rfl⟩
  | @word words p t ts m ht _ ih =>
    obtain ⟨keywords, hk, he⟩ := ih
    exact ⟨t :: keywords, .cons ht hk, congrArg (t :: ·) he⟩
  | @capture words p taken rest t m _ ht _ ih =>
    obtain ⟨keywords, hk, he⟩ := ih
    refine ⟨t :: keywords, .cons ht hk, ?_⟩
    simp only [weave, Match.push, List.append_assoc, List.cons_append, he]
  | last ts => exact ⟨[], .nil, by simp [weave]⟩

theorem Matches.bounded (h : p.Matches ts m) : List.Forall₂ (Bounded ts) p.bounds m.captures := by
  have hmono : ∀ {us vs : List Token}, us <:+ vs → ∀ bound taken, Bounded us bound taken →
      Bounded vs bound taken := by
    intro us vs hv bound taken hb
    cases bound with
    | none => exact List.IsSuffix.trans hb hv
    | some words => exact hb
  induction h with
  | nil ts => exact .nil
  | word _ _ ih => exact ih.imp (hmono (List.suffix_cons _ _))
  | @capture words p taken rest t m hs _ _ ih =>
    refine .cons hs (ih.imp (hmono ?_))
    exact (List.suffix_cons t rest).trans (List.suffix_append taken _)
  | last ts => exact .cons (List.suffix_refl ts) .nil

theorem getLast?_of_word {words : List Text}
    (h : (.word words :: p : Pattern).getLast? = some .capture) : p.getLast? = some .capture := by
  rw [List.getLast?_cons] at h
  cases hl : p.getLast? with
  | none => simp [hl] at h
  | some s => simpa [hl] using h

theorem Matches.rest_eq_nil (h : p.Matches ts m) (hp : p.getLast? = some .capture) :
    m.rest = [] := by
  induction h with
  | nil ts => cases hp
  | word _ _ ih => exact ih (getLast?_of_word hp)
  | capture _ _ _ ih =>
    rw [List.getLast?_cons_cons] at hp
    exact ih (getLast?_of_word hp)
  | last ts => rfl

end Pattern

namespace Cursor

variable {c d : Cursor} {p : Pattern} {m : Match} {captures : List (List Token)}

theorem matchPattern_cases (h : c.matchPattern p = (.ok (some captures), d)) :
    ∃ m, p.Matches c.rest m ∧ captures = m.captures ∧
      d = ⟨c.tokens, if p = [] then c.index else c.size - m.rest.length, []⟩ := by
  unfold matchPattern at h
  split at h
  · cases h
  · cases h
  · next m hr =>
    cases h
    exact ⟨m, Pattern.matches_of_run hr, rfl, rfl⟩

/-- A match moves by the tokens it takes, also if the position is past the end. -/
theorem length_of_matches {passed : List Token} (h : p.Matches c.rest m)
    (he : passed ++ m.rest = c.rest) :
    (if p = [] then c.index else c.size - m.rest.length) - c.index = passed.length := by
  have hl := congrArg List.length he
  rw [List.length_append, length_rest] at hl
  split
  · next hp =>
    subst hp
    cases h
    rw [length_rest] at hl
    omega
  · omega

/-- The tokens passed over by a match are its captures and the words of the pattern, in their
places. Each capture is bounded by the word after it, or is all that is left, and is handed over
from its beginning, with no position saved. -/
theorem matchPattern_exact (h : c.matchPattern p = (.ok (some captures), d)) :
    (∃ keywords, List.Forall₂ (fun t words ↦ t.text ∈ words) keywords p.classes ∧
        p.weave captures keywords = (c.tokens.take d.index).drop c.index) ∧
      List.Forall₂ (Pattern.Bounded c.rest) p.bounds captures ∧
      (p.getLast? = some .capture → d.index = c.size) ∧
      d.tokens = c.tokens ∧ d.saved = [] ∧
      ∀ {α : Type} (act : List Cursor → Reading α),
        Reading.matchThen p act c =
          (some <$> act (captures.map fun taken ↦ ⟨taken, 0, []⟩) : Reading (Option α)) d := by
  have hact {α : Type} (act : List Cursor → Reading α) : Reading.matchThen p act c =
      (some <$> act (captures.map .ofTokens) : Reading (Option α)) d := by
    rw [Reading.matchThen_apply, h]
  obtain ⟨m, hm, rfl, rfl⟩ := matchPattern_cases h
  refine ⟨?_, hm.bounded, ?_, rfl, rfl, hact⟩
  · obtain ⟨keywords, hk, he⟩ := hm.weave_eq
    refine ⟨keywords, hk, ?_⟩
    rw [List.drop_take, length_of_matches hm he]
    exact List.take_left.symm.trans (congrArg (List.take _) he)
  · intro hp
    have hne : p ≠ [] := by
      rintro rfl
      cases hp
    show (if p = [] then c.index else c.size - m.rest.length) = c.size
    rw [if_neg hne, hm.rest_eq_nil hp]
    rfl

/-- The first capture takes a block with a word in it that could end it, and begins with another
such word, which opens the block and ends nothing. -/
theorem matchPattern_exact_past_block :
    let c : Cursor := ⟨tokenize "xを(aをb)をyとするz".toList 1, 2, [0]⟩
    let p : Pattern := [.capture, .word [['('], ['を']], .capture, .ofClass .valueMark, .capture]
    let block := (c.tokens.take 7).drop 2
    let d : Cursor := ⟨c.tokens, 11, []⟩
    c.matchPattern p = (.ok (some [block, [⟨['y'], 1⟩], [⟨['z'], 1⟩]]), d) ∧
      Token.render block = "(aをb)".toList ∧ Stretch [['('], ['を']] block ∧ d.index = c.size := by
  intro c p block d
  have h : c.matchPattern p = (.ok (some [block, [⟨['y'], 1⟩], [⟨['z'], 1⟩]]), d) := by
    decide +kernel
  obtain ⟨-, hb, hl, -⟩ := matchPattern_exact h
  exact ⟨h, by decide +kernel, (List.forall₂_cons.1 hb).1, hl rfl⟩

end Cursor

end Kotoba
