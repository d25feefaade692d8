import Kotoba.Proofs.Literals
import Kotoba.Proofs.Quotations

/-!
Sentences without structure. If no structuring word stands outside the literals of a text but the
mark `を`, which alone divides nothing, then the text is one line and a phrase: nothing of it opens
an enclosure or ends a line, and it is no conditional, repetition, binding or block.
-/

namespace Kotoba

namespace Token

/-- The token is no structuring word, unless it is the mark `を`. -/
def Bare (t : Token) : Prop := t.text ∈ allWords → t.text = ['を']

namespace Bare

variable {t : Token} (h : Bare t)

include h

theorem isA_eq_false {k : WordClass} (hk : ['を'] ∉ k.words) : t.isA k = false := by
  refine Bool.eq_false_iff.2 fun ht ↦ hk ?_
  have hm : t.text ∈ k.words := by simpa [isA] using ht
  have ha : t.text ∈ allWords := List.mem_flatMap.2 ⟨k, by cases k <;> decide, hm⟩
  rwa [h ha] at hm

theorem opened?_eq_none : Frame.opened? t = none := by
  have hq := h.isA_eq_false (k := .quoteOpen) (by decide)
  have hb := h.isA_eq_false (k := .blockOpen) (by decide)
  have hi := h.isA_eq_false (k := .ifMark) (by decide)
  simp [Frame.opened?, hq, hb, hi]

theorem readUntil_cons {words : List Text} (hw : t.text ∉ words) (ts : List Token) :
    readUntil words [] (t :: ts) =
      (readUntil words [] ts).map (Option.map fun p ↦ (t :: p.1, p.2)) := by
  rw [readUntil, if_neg (by simp [hw]), Frame.step, h.opened?_eq_none]
  rfl

end Bare

/-- The only structuring words among the tokens are those in quotations and the mark `を`. -/
inductive Unstructured : List Token → Prop
  | nil : Unstructured []
  | word {t : Token} {ts : List Token} : Bare t → Unstructured ts → Unstructured (t :: ts)
  | quotation {opening closing : Token} {inside ts : List Token} :
      Quoted opening inside closing → Unstructured ts →
      Unstructured (opening :: (inside ++ closing :: ts))

namespace Unstructured

variable {ts : List Token} (h : Unstructured ts)

include h

theorem readLine_eq : readLine [] ts = .ok (ts, []) := by
  induction h with
  | nil => rfl
  | @word t ts ht _ ih =>
    have hd := ht.isA_eq_false (k := .delimiter) (by decide)
    rw [readLine, Frame.step, ht.opened?_eq_none]
    simp [hd, ih, Except.map]
  | quotation hq _ ih =>
    rw [hq.readLine_append, ih]
    simp [Except.map]

theorem any_head? {k : WordClass} (hk : ['を'] ∉ k.words)
    (ho : ∀ w ∈ WordClass.quoteOpen.words, w ∉ k.words) : ts.head?.any (·.isA k) = false := by
  cases h with
  | nil => rfl
  | word ht _ => exact ht.isA_eq_false hk
  | quotation hq _ => exact Token.isA_eq_false hq.opens ho

theorem any_getLast? {k : WordClass} (hk : ['を'] ∉ k.words)
    (hc : ∀ w ∈ WordClass.quoteClose.words, w ∉ k.words) :
    ts.getLast?.any (·.isA k) = false := by
  induction h with
  | nil => rfl
  | @word t ts ht _ ih => exact any_getLast?_append (ht.isA_eq_false hk) ih []
  | quotation hq _ ih => exact hq.any_getLast? hc ih

theorem readUntil_eq_none {k : WordClass} (hk : ['を'] ∉ k.words) :
    readUntil k.words [] ts = .ok none := by
  induction h with
  | nil => rfl
  | @word t ts ht _ ih =>
    have hw : t.text ∉ k.words := by
      have hf := ht.isA_eq_false hk
      simpa [isA] using hf
    rw [ht.readUntil_cons hw, ih]
    rfl
  | quotation hq _ ih =>
    rw [hq.readUntil_append, ih]
    rfl

theorem binding_eq :
    (Form.steps [none, some .nameMark, none, some .valueMark]).run ts = .ok none := by
  induction h with
  | nil => rfl
  | @word t ts ht hts ih =>
    -- The first `を` is taken for a name mark, but then there is no value mark.
    by_cases hw : t.text ∈ WordClass.nameMark.words
    · have hu : readUntil WordClass.nameMark.words [] (t :: ts) = .ok (some ([], ts)) := by
        rw [readUntil, if_pos ⟨rfl, ht.opened?_eq_none, by simpa using hw⟩]
      have hv := hts.readUntil_eq_none (k := .valueMark) (by decide)
      simp only [Form.steps, List.map_cons, Option.elim, Step.ofClass, Pattern.run, hu, hv]
      rfl
    · exact Pattern.run_of_readUntil (ht.readUntil_cons hw ts) ih
  | quotation hq _ ih => exact hq.run_append ih

theorem trimmed (hn : ts ≠ []) : Trimmed ts :=
  trimmed_of_any hn (h.any_head? (by decide) (by decide)) (h.any_getLast? (by decide) (by decide))

theorem clause_eq (hn : ts ≠ []) : Clause.read ts ts = .ok (.phrase, ts) := by
  obtain ⟨t, us, rfl⟩ := List.exists_cons_of_ne_nil hn
  exact Clause.read_phrase rfl (h.any_head? (k := .ifMark) (by decide) (by decide))
    (h.any_head? (k := .blockOpen) (by decide) (by decide))
    (h.any_getLast? (by decide) (by decide)) h.binding_eq

end Unstructured

theorem unstructured_append {ts us : List Token} (h : ∀ t ∈ ts, Bare t)
    (hu : Unstructured us) : Unstructured (ts ++ us) := by
  induction ts with
  | nil => exact hu
  | cons t ts ih =>
    exact .word (h t List.mem_cons_self) (ih fun u hm ↦ h u (List.mem_cons_of_mem t hm))

end Token

/-- No structuring word stands outside the literals of the text but the mark `を`. -/
def Text.Simple (t : Text) : Prop := ∀ w ∈ allWords, w <:+: t.mask → w = ['を']

theorem tokenize_ne_nil {t : Text} (h : t.normalize ≠ []) (line : Int) : tokenize t line ≠ [] := by
  intro he
  have hr := Token.render_tokenize t line
  rw [he] at hr
  exact h hr.symm

theorem text_of_mem_tokenize {t : Text} {line : Int} {u : Token} (hn : t.normalize = t)
    (h : u ∈ tokenize t line) : u.text <:+: t := by
  rw [← hn, ← Token.render_tokenize t line]
  obtain ⟨before, after, hs⟩ := List.append_of_mem h
  rw [hs, Token.render_append, Token.render_cons, ← List.append_assoc]
  exact List.infix_append _ _ _

theorem Text.Simple.unstructured {t : Text} (h : t.Simple) (hn : t.normalize = t) (line : Int) :
    Token.Unstructured (tokenize t line) := by
  induction t using literal_induction generalizing line with
  | plain t hb =>
    have hw : ∀ u ∈ tokenize t line, u.Bare := by
      intro u hu hm
      refine h u.text hm ?_
      rw [mask_of_none hb]
      exact text_of_mem_tokenize hn hu
    have hu := Token.unstructured_append hw .nil
    rwa [List.append_nil] at hu
  | literal b s a ho hc ih =>
    have hm : (b ++ s.quote ++ a).mask = b ++ List.replicate s.quote.length '\x00' ++ a.mask :=
      mask_append ho hc a
    have hb : b <:+: b ++ s.quote ++ a := ⟨[], s.quote ++ a, by simp⟩
    have hnb : b.normalize = b := normalize_slice (hn.symm ▸ hb)
    have hna : a.normalize = a := normalize_slice (hn.symm ▸ (List.suffix_append _ a).isInfix)
    have hw : ∀ u ∈ tokenize b line, u.Bare := by
      intro u hu hmem
      refine h u.text hmem ?_
      rw [hm, List.append_assoc]
      exact (text_of_mem_tokenize hnb hu).trans (List.prefix_append b _).isInfix
    have ha : Simple a := by
      intro w hmem hwa
      refine h w hmem ?_
      rw [hm]
      exact hwa.trans (List.suffix_append _ a.mask).isInfix
    have he : b ++ s.quote ++ a = b ++ '「' :: (s ++ '」' :: a) := by simp [quote]
    have hopen : IsMark '「' := by decide
    have hclose : IsMark '」' := by decide
    rw [he, hopen.tokenize_append_cons, hclose.tokenize_append_cons]
    exact Token.unstructured_append hw (.quotation (quoted_tokenize hc _ _) (ih ha hna _))

end Kotoba
