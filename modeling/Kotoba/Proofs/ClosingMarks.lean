import Kotoba.Proofs.Literals
import Kotoba.Proofs.Origin
import Kotoba.Proofs.Quotations

/-!
Where a quotation ends. The tokens of a text and the text itself are read by different rules, token
by token and character by character, and both end a quotation at the first closing mark. So what is
hidden of the text is just what the quotations among its tokens cover; they can all be read if every
opening mark of the text is one of a closed literal or stands in one. A whole sentence that is read
as a literal runs to the last closing mark instead, so that it is one quotation only where there is
no other closing mark before that one.
-/

namespace Kotoba

/-- A mark of a quotation in the text of a token is the whole of the token. -/
def Token.MarksApart (ts : List Token) : Prop :=
  ∀ t ∈ ts, ('「' ∈ t.text → t.text = ['「']) ∧ ('」' ∈ t.text → t.text = ['」'])

theorem fragment_of_mem_tokenize {t : Text} {line : Int} {u : Token} (h : u ∈ tokenize t line) :
    u.text ∈ t.normalize.splitWords allWords := by
  rw [← Token.map_text_number line (t.normalize.splitWords allWords)]
  exact List.mem_map_of_mem h

theorem marksApart_tokenize (t : Text) (line : Int) : Token.MarksApart (tokenize t line) := by
  intro u hu
  have hs := apart_allWords.settled_splitWords (fragment_of_mem_tokenize hu)
  have ho : Text.Alone '「' allWords := by decide
  have hc : Text.Alone '」' allWords := by decide
  exact ⟨hs.eq_singleton ho, hs.eq_singleton hc⟩

namespace Token

variable {t : Token} {ts us : List Token}

theorem isA_quoteOpen_iff : t.isA .quoteOpen = true ↔ t.text = ['「'] := by
  simp [isA, WordClass.words]

theorem isA_quoteClose_iff : t.isA .quoteClose = true ↔ t.text = ['」'] := by
  simp [isA, WordClass.words]

namespace MarksApart

theorem subset (h : MarksApart ts) (hs : us ⊆ ts) : MarksApart us := fun u hu ↦ h u (hs hu)

theorem not_mem_text (h : MarksApart (t :: ts)) (ht : t.isA .quoteOpen = false) :
    '「' ∉ t.text := by
  intro hm
  have ho := isA_quoteOpen_iff.2 ((h t List.mem_cons_self).1 hm)
  exact absurd ho (Bool.eq_false_iff.1 ht)

theorem mem_render_iff (h : MarksApart ts) :
    '」' ∈ render ts ↔ ∃ t ∈ ts, t.isA .quoteClose = true := by
  constructor
  · intro hm
    obtain ⟨t, ht, hm⟩ := List.mem_flatMap.1 hm
    exact ⟨t, ht, isA_quoteClose_iff.2 ((h t ht).2 hm)⟩
  · rintro ⟨t, ht, hc⟩
    refine List.mem_flatMap.2 ⟨t, ht, ?_⟩
    rw [isA_quoteClose_iff.1 hc]
    exact List.mem_singleton_self '」'

/-- An opening mark is closed by the first closing mark behind it. -/
theorem exists_quoted (h : MarksApart ts) (ho : t.isA .quoteOpen = true) (hm : '」' ∈ render ts) :
    ∃ inside closing rest, Quoted t inside closing ∧ ts = inside ++ closing :: rest := by
  have hc : ∃ u ∈ ts, u.isA .quoteClose = true := h.mem_render_iff.1 hm
  obtain ⟨closing, hf⟩ := Option.isSome_iff_exists.1 (List.find?_isSome.2 hc)
  obtain ⟨hk, inside, rest, rfl, hi⟩ := List.find?_eq_some_iff_append.1 hf
  exact ⟨inside, closing, rest, ⟨ho, hk, by simpa using hi⟩, rfl⟩

end MarksApart

end Token

namespace Text

theorem balanced_append_iff {u : Text} (hu : '「' ∉ u) (v : Text) :
    Balanced (u ++ v) ↔ Balanced v := by
  constructor
  · intro h
    generalize hw : u ++ v = w at h
    cases h with
    | plain ho => exact .plain fun hm ↦ ho (hw ▸ List.mem_append_right u hm)
    | @literal t s r ht hs hr =>
      rw [List.append_assoc] at hw
      rcases List.append_eq_append_iff.1 hw with ⟨b, rfl, rfl⟩ | ⟨b, rfl, hb⟩
      · rw [← List.append_assoc]
        exact .literal (fun hm ↦ ht (List.mem_append_right u hm)) hs hr
      · cases b with
        | nil =>
          rw [List.nil_append] at hb
          rw [← hb]
          exact .literal List.not_mem_nil hs hr
        | cons c b =>
          -- The first part would reach into the literal, and so hold its opening mark.
          have hc : '「' = c := (List.cons.inj hb).1
          exact absurd (List.mem_append_right t (hc ▸ List.mem_cons_self)) hu
  · intro h
    cases h with
    | plain ho => exact .plain fun hm ↦ (List.mem_append.1 hm).elim hu ho
    | @literal t s r ht hs hr =>
      rw [← List.append_assoc, ← List.append_assoc]
      exact .literal (fun hm ↦ (List.mem_append.1 hm).elim hu ht) hs hr

theorem Balanced.mem_of_cons {u : Text} (h : Balanced ('「' :: u)) : '」' ∈ u := by
  generalize hw : '「' :: u = w at h
  cases h with
  | plain ho => exact absurd (hw ▸ List.mem_cons_self) ho
  | @literal t s r =>
    have hm : '」' ∈ '「' :: u := by simp [hw, quote]
    simpa using hm

theorem balanced_quote_append_iff {s : Text} (hs : '」' ∉ s) (v : Text) :
    Balanced (s.quote ++ v) ↔ Balanced v := by
  constructor
  · intro h
    generalize hw : s.quote ++ v = w at h
    cases h with
    | plain ho => exact absurd (by simp [← hw, quote]) ho
    | @literal t l r ht hl hr =>
      obtain ⟨-, -, rfl⟩ := append_quote_inj List.not_mem_nil hs ht hl (by rwa [List.nil_append])
      exact hr
  · intro h
    exact .literal List.not_mem_nil hs h

end Text

namespace Quoted

variable {opening closing : Token} {inside : List Token} (h : Quoted opening inside closing)

include h

theorem render_eq :
    Token.render (opening :: (inside ++ [closing])) = (Token.render inside).quote := by
  rw [Token.render_cons, Token.render_append, Token.isA_quoteOpen_iff.1 h.opens, Token.render_cons,
    Token.isA_quoteClose_iff.1 h.closes]
  rfl

theorem readEnclosure_eq (rest : List Token) :
    readEnclosure opening (inside ++ closing :: rest) =
      .ok (opening :: (inside ++ [closing]), rest) := by
  rw [readEnclosure, h.opened?_eq]
  simp only [readClosed_quotation _ h.closes h.inside rest, Except.map]

theorem cursor_readEnclosure (rest : List Token) :
    (Cursor.ofTokens (opening :: (inside ++ closing :: rest))).readEnclosure.1 =
      .ok (some (opening :: (inside ++ [closing]))) := by
  have hr := h.readEnclosure_eq rest
  simp only [Cursor.readEnclosure, Cursor.readToken, Cursor.peekToken?, Cursor.ofTokens,
    Cursor.rest, List.getElem?_cons_zero, Nat.zero_add, List.drop_succ_cons, List.drop_zero, hr]

theorem oneEnclosure_iff (rest : List Token) :
    OneEnclosure (opening :: (inside ++ closing :: rest)) ↔ rest = [] := by
  rw [OneEnclosure, h.cursor_readEnclosure]
  simp

theorem render_append (rest : List Token) :
    Token.render (opening :: (inside ++ closing :: rest)) =
      (Token.render inside).quote ++ Token.render rest := by
  rw [← h.render_eq, ← Token.render_append]
  simp

variable {rest : List Token} (hm : Token.MarksApart (opening :: (inside ++ closing :: rest)))

include hm

theorem not_mem_inside : '」' ∉ Token.render inside := by
  have hi : Token.MarksApart inside := hm.subset fun u hu ↦
    List.mem_cons_of_mem opening (List.mem_append_left _ hu)
  rw [hi.mem_render_iff]
  rintro ⟨u, hu, hc⟩
  exact absurd hc (Bool.eq_false_iff.1 (h.inside u hu))

theorem breakQuoted_eq :
    (Token.render (opening :: (inside ++ closing :: rest))).breakQuoted =
      some ([], (Token.render inside).quote, Token.render rest) := by
  rw [h.render_append]
  exact Text.breakQuoted_append List.not_mem_nil (h.not_mem_inside hm) (Token.render rest)

variable {s : Text} (hs : Token.render (opening :: (inside ++ closing :: rest)) = s.quote)

include hs

/-- A text between marks that has no closing mark in it ends with the first quotation. -/
theorem eq_inside (hc : '」' ∉ s) : s = Token.render inside ∧ Token.render rest = [] := by
  have hr : [] ++ s.quote ++ [] = [] ++ (Token.render inside).quote ++ Token.render rest := by
    rw [List.append_nil, List.nil_append, List.nil_append, ← hs, h.render_append]
  obtain ⟨-, hi, ha⟩ :=
    Text.append_quote_inj List.not_mem_nil hc List.not_mem_nil (h.not_mem_inside hm) hr
  exact ⟨hi, ha.symm⟩

theorem not_mem_iff : '」' ∉ s ↔ s = Token.render inside := by
  constructor
  · intro hc
    exact (h.eq_inside hm hs hc).1
  · rintro rfl
    exact h.not_mem_inside hm

theorem rest_eq_nil_iff (hn : ∀ t ∈ rest, t.text ≠ []) : rest = [] ↔ '」' ∉ s := by
  constructor
  · rintro rfl
    have hi : (Token.render inside).quote = s.quote := by rw [← hs, h.render_eq]
    rw [h.not_mem_iff hm hs]
    simpa [Text.quote] using hi.symm
  · intro hc
    have hr := (h.eq_inside hm hs hc).2
    exact List.eq_nil_iff_forall_not_mem.2 fun t ht ↦ hn t ht (List.flatMap_eq_nil_iff.1 hr t ht)

end Quoted

variable {t : Token} {ts q rest : List Token}

/-- An open quotation is read through the first closing mark. -/
theorem quotation_of_readClosed {line : Int}
    (h : readClosed [⟨.quotation, line⟩] ts = .ok (q, rest)) :
    ∃ inside closing, ts = inside ++ closing :: rest ∧ q = inside ++ [closing] ∧
      closing.isA .quoteClose = true ∧ ∀ t ∈ inside, t.isA .quoteClose = false := by
  induction ts generalizing q with
  | nil =>
    have hn := (readClosed_nil_cases (by simp) h).1
    simp [Frame.fault?, Frame.missing?] at hn
  | cons t ts ih =>
    obtain ⟨more, hm, rfl⟩ := readClosed_cons_cases (by simp) h
    by_cases ht : t.isA .quoteClose = true
    · have hs : Frame.step [⟨.quotation, line⟩] t = [] := by simp [Frame.step, ht]
      rw [hs, readClosed] at hm
      cases hm
      exact ⟨[], t, rfl, rfl, ht, by simp⟩
    · have hs : Frame.step [⟨.quotation, line⟩] t = [⟨.quotation, line⟩] := by
        simp [Frame.step, ht]
      rw [hs] at hm
      obtain ⟨inside, closing, rfl, rfl, hc, hi⟩ := ih hm
      refine ⟨t :: inside, closing, rfl, rfl, hc, fun u hu ↦ ?_⟩
      rcases List.mem_cons.1 hu with rfl | hu
      · exact Bool.eq_false_iff.2 ht
      · exact hi u hu

theorem quoted_of_readEnclosure (ht : t.isA .quoteOpen = true)
    (h : readEnclosure t ts = .ok (q, rest)) :
    ∃ inside closing, Quoted t inside closing ∧ ts = inside ++ closing :: rest ∧
      q = t :: (inside ++ [closing]) := by
  have ho : Frame.opened? t = some ⟨.quotation, t.line⟩ := by rw [Frame.opened?, if_pos ht]
  rw [readEnclosure, ho] at h
  cases hr : readClosed [⟨.quotation, t.line⟩] ts with
  | error e =>
    simp only [hr] at h
    cases h
  | ok p =>
    simp only [hr] at h
    cases h
    obtain ⟨inside, closing, hs, hp, hc, hi⟩ := quotation_of_readClosed hr
    exact ⟨inside, closing, ⟨ht, hc, hi⟩, hs, by rw [hp]⟩

/-- A token outside the quotations, or all tokens of one. -/
inductive Passage where
  | token (t : Token)
  | quotation (ts : List Token)
deriving DecidableEq, Repr

namespace Passage

def tokens : Passage → List Token
  | token t => [t]
  | quotation ts => ts

def masked : Passage → Text
  | token t => t.text
  | quotation ts => List.replicate (Token.width ts) '\x00'

/-- The character at the offset belongs to one of the quotations. -/
def Covers (ps : List Passage) (i : Nat) : Prop :=
  ∃ before q after, ps = before ++ quotation q :: after ∧
    Token.width (before.flatMap tokens) ≤ i ∧ i < Token.width (before.flatMap tokens ++ q)

theorem length_masked (p : Passage) : p.masked.length = Token.width p.tokens := by
  cases p <;> simp [masked, tokens]

theorem not_covers_nil (i : Nat) : ¬ Covers [] i := by
  rintro ⟨before, q, after, h, -⟩
  simp at h

theorem covers_cons_iff (p : Passage) (ps : List Passage) (i : Nat) :
    Covers (p :: ps) i ↔ ((∃ q, p = quotation q) ∧ i < Token.width p.tokens) ∨
      Token.width p.tokens ≤ i ∧ Covers ps (i - Token.width p.tokens) := by
  constructor
  · rintro ⟨before, q, after, h, h₁, h₂⟩
    cases before with
    | nil =>
      obtain ⟨rfl, rfl⟩ := List.cons.inj h
      exact .inl ⟨⟨q, rfl⟩, h₂⟩
    | cons r before =>
      obtain ⟨rfl, rfl⟩ := List.cons.inj h
      simp only [List.flatMap_cons, Token.width_append] at h₁ h₂
      refine .inr ⟨by omega, before, q, after, rfl, by omega, ?_⟩
      rw [Token.width_append]
      omega
  · rintro (⟨⟨q, rfl⟩, hi⟩ | ⟨hi, before, q, after, rfl, h₁, h₂⟩)
    · exact ⟨[], q, ps, rfl, Nat.zero_le i, hi⟩
    · rw [Token.width_append] at h₂
      refine ⟨p :: before, q, after, rfl, ?_, ?_⟩
      · rw [List.flatMap_cons, Token.width_append]
        omega
      · rw [List.flatMap_cons, Token.width_append, Token.width_append]
        omega

/-- What is masked of passages are the characters that their quotations cover. -/
theorem getElem?_flatMap_masked (ps : List Passage) (i : Nat) :
    (Covers ps i → (ps.flatMap masked)[i]? = some '\x00') ∧
      (¬ Covers ps i → (ps.flatMap masked)[i]? = (Token.render (ps.flatMap tokens))[i]?) := by
  induction ps generalizing i with
  | nil => exact ⟨fun h ↦ absurd h (not_covers_nil i), fun _ ↦ rfl⟩
  | cons p ps ih =>
    have hl := p.length_masked
    rw [covers_cons_iff, List.flatMap_cons, List.flatMap_cons, Token.render_append]
    by_cases hi : i < Token.width p.tokens
    · rw [List.getElem?_append_left (hl ▸ hi), List.getElem?_append_left hi]
      cases p with
      | token t =>
        refine ⟨?_, fun _ ↦ by simp [masked, tokens, Token.render]⟩
        rintro (⟨⟨q, hq⟩, -⟩ | ⟨hn, -⟩)
        · cases hq
        · omega
      | quotation q =>
        refine ⟨fun _ ↦ ?_, fun hn ↦ absurd (.inl ⟨⟨q, rfl⟩, hi⟩) hn⟩
        rw [masked, List.getElem?_replicate]
        exact if_pos hi
    · have hn : Token.width p.tokens ≤ i := Nat.le_of_not_lt hi
      rw [List.getElem?_append_right (hl ▸ hn), List.getElem?_append_right hn, hl]
      obtain ⟨hc, hu⟩ := ih (i - Token.width p.tokens)
      refine ⟨fun h ↦ hc ?_, fun h ↦ hu fun h' ↦ h (.inr ⟨hn, h'⟩)⟩
      rcases h with h | h
      · exact absurd h.2 hi
      · exact h.2

end Passage

/-- The tokens from the left, every quotation that is met outside the others being read whole. -/
def passages (ts : List Token) : Except Fault (List Passage) :=
  match ts with
  | [] => .ok []
  | t :: ts =>
    if _ht : t.isA .quoteOpen = true then
      match _h : readEnclosure t ts with
      | .error e => .error e
      | .ok (q, rest) => (passages rest).map (.quotation q :: ·)
    else (passages ts).map (.token t :: ·)
termination_by ts.length
decreasing_by
  · obtain ⟨inside, closing, -, h, -⟩ := quoted_of_readEnclosure _ht _h
    simp only [h, List.length_append, List.length_cons]
    omega
  · exact Nat.lt_succ_self _

/-- The tokens are those of the passages one after the other. -/
inductive Parted : List Token → List Passage → Prop
  | nil : Parted [] []
  | token {t : Token} {ts : List Token} {ps : List Passage} :
      t.isA .quoteOpen = false → Parted ts ps → Parted (t :: ts) (.token t :: ps)
  | quotation {opening closing : Token} {inside rest : List Token} {ps : List Passage} :
      Quoted opening inside closing → Parted rest ps →
      Parted (opening :: (inside ++ closing :: rest))
        (.quotation (opening :: (inside ++ [closing])) :: ps)

theorem map_cons_eq_ok_iff {r : Except Fault (List Passage)} {p : Passage} {ps : List Passage} :
    r.map (p :: ·) = .ok ps ↔ ∃ qs, r = .ok qs ∧ p :: qs = ps := by
  cases r <;> simp [Except.map]

theorem parted_of_passages {ps : List Passage} (h : passages ts = .ok ps) : Parted ts ps := by
  fun_induction passages ts generalizing ps with
  | case1 =>
    cases h
    exact .nil
  | case2 t ts ht e hr => cases h
  | case3 t ts ht q rest hr ih =>
    obtain ⟨inside, closing, hq, rfl, rfl⟩ := quoted_of_readEnclosure ht hr
    obtain ⟨qs, hp, rfl⟩ := map_cons_eq_ok_iff.1 h
    exact .quotation hq (ih hp)
  | case4 t ts ht ih =>
    obtain ⟨qs, hp, rfl⟩ := map_cons_eq_ok_iff.1 h
    exact .token (Bool.eq_false_iff.2 ht) (ih hp)

theorem exists_map_cons_iff {r : Except Fault (List Passage)} {p : Passage} :
    (∃ ps, r.map (p :: ·) = .ok ps) ↔ ∃ ps, r = .ok ps := by
  simp [map_cons_eq_ok_iff]

/-- The quotations among tokens can be read if the literals of their text take up all its opening
marks. -/
theorem exists_passages_iff (hm : Token.MarksApart ts) :
    (∃ ps, passages ts = .ok ps) ↔ (Token.render ts).Balanced := by
  fun_induction passages ts with
  | case1 => exact ⟨fun _ ↦ .plain List.not_mem_nil, fun _ ↦ ⟨[], rfl⟩⟩
  | case2 t ts ht e hr =>
    constructor
    · rintro ⟨ps, hps⟩
      cases hps
    · intro hb
      rw [Token.render_cons, Token.isA_quoteOpen_iff.1 ht] at hb
      obtain ⟨inside, closing, rest, hq, rfl⟩ :=
        (hm.subset (List.subset_cons_self t ts)).exists_quoted ht hb.mem_of_cons
      rw [hq.readEnclosure_eq] at hr
      cases hr
  | case3 t ts ht q rest hr ih =>
    obtain ⟨inside, closing, hq, rfl, rfl⟩ := quoted_of_readEnclosure ht hr
    have hi := ih (hm.subset fun u hu ↦ by simp [hu])
    rw [exists_map_cons_iff, hi, hq.render_append,
      Text.balanced_quote_append_iff (hq.not_mem_inside hm)]
  | case4 t ts ht ih =>
    have hi := ih (hm.subset (List.subset_cons_self t ts))
    rw [exists_map_cons_iff, hi, Token.render_cons,
      Text.balanced_append_iff (hm.not_mem_text (Bool.eq_false_iff.2 ht))]

namespace Parted

variable {ps : List Passage} (h : Parted ts ps)

include h

theorem flatMap_tokens : ps.flatMap Passage.tokens = ts := by
  induction h with
  | nil => rfl
  | token _ _ ih => rw [List.flatMap_cons, ih, Passage.tokens, List.singleton_append]
  | quotation _ _ ih =>
    rw [List.flatMap_cons, ih, Passage.tokens]
    simp

theorem oneEnclosure {q : List Token} (hq : .quotation q ∈ ps) : OneEnclosure q := by
  induction h with
  | nil => cases hq
  | token _ _ ih =>
    rcases List.mem_cons.1 hq with hq | hq
    · cases hq
    · exact ih hq
  | quotation ho _ ih =>
    rcases List.mem_cons.1 hq with hq | hq
    · cases hq
      exact (ho.oneEnclosure_iff []).2 rfl
    · exact ih hq

theorem mask_render (hm : Token.MarksApart ts) :
    (Token.render ts).mask = ps.flatMap Passage.masked := by
  induction h with
  | nil => exact Text.mask_of_none rfl
  | @token t ts ps ht _ ih =>
    rw [Token.render_cons, (Text.Balanced.plain (hm.not_mem_text ht)).mask_append,
      Text.mask_of_none (Text.breakQuoted_of_not_mem (hm.not_mem_text ht)),
      ih (hm.subset (List.subset_cons_self t ts))]
    rfl
  | @quotation opening closing inside rest ps hq _ ih =>
    have hr : Token.MarksApart rest := hm.subset fun u hu ↦ by simp [hu]
    rw [hq.render_append, Text.mask_quote_append (hq.not_mem_inside hm), ih hr, List.flatMap_cons,
      Passage.masked, Token.width, hq.render_eq]

end Parted

/-- Where the quotations among the tokens of a text can be read, they cover the characters that are
hidden of it, and no others. -/
theorem mask_render_of_passages {t : Text} {line : Int} {ps : List Passage}
    (h : passages (tokenize t line) = .ok ps) :
    let s := Token.render (tokenize t line)
    ps.flatMap Passage.tokens = tokenize t line ∧ (∀ q, .quotation q ∈ ps → OneEnclosure q) ∧
      s.mask.length = s.length ∧
      ∀ i, (Passage.Covers ps i → s.mask[i]? = some '\x00') ∧
        (¬ Passage.Covers ps i → s.mask[i]? = s[i]?) := by
  intro s
  have hp := parted_of_passages h
  have ht := hp.flatMap_tokens
  refine ⟨ht, fun q hq ↦ hp.oneEnclosure hq, Text.length_mask s, ?_⟩
  have hm : s.mask = ps.flatMap Passage.masked := hp.mask_render (marksApart_tokenize t line)
  have hr : s = Token.render (ps.flatMap Passage.tokens) := by rw [ht]
  rw [hm, hr]
  exact Passage.getElem?_flatMap_masked ps

/-- An opening mark inside a quotation opens nothing, and a closing mark behind it closes nothing. -/
theorem mask_render_of_passages_with_stray_marks :
    let ts := tokenize "」も「し「を\n」」回「」ｃ".toList 2
    let before : List Passage := [.token ⟨['」'], 2⟩, .token ⟨['も'], 2⟩]
    let quotation : List Token :=
      [⟨['「'], 2⟩, ⟨['し'], 2⟩, ⟨['「'], 2⟩, ⟨['を'], 2⟩, ⟨['\n'], 2⟩, ⟨['」'], 3⟩]
    let after : List Passage :=
      [.token ⟨['」'], 3⟩, .token ⟨['回'], 3⟩, .quotation [⟨['「'], 3⟩, ⟨['」'], 3⟩],
        .token ⟨['c'], 3⟩]
    let s := Token.render ts
    passages ts = .ok (before ++ .quotation quotation :: after) ∧ OneEnclosure quotation ∧
      s.mask[6]? = some '\x00' ∧ s[6]? = some '\n' ∧ s.mask[8]? = s[8]? ∧ s[8]? = some '」' := by
  intro ts before quotation after s
  have h : passages ts = .ok (before ++ .quotation quotation :: after) := by decide +kernel
  obtain ⟨-, hq, -, hm⟩ := mask_render_of_passages h
  have hc : Passage.Covers (before ++ .quotation quotation :: after) 6 :=
    ⟨before, quotation, after, rfl, by decide, by decide⟩
  have hn : ¬ Passage.Covers (before ++ .quotation quotation :: after) 8 := by
    simp [before, quotation, after, Passage.covers_cons_iff, Passage.not_covers_nil,
      Passage.tokens]
  exact ⟨h, hq quotation (by simp), (hm 6).1 hc, by decide +kernel, (hm 8).2 hn, by decide +kernel⟩

theorem Literal.eq_quote_of_quoted? {t s : Text} (h : quoted? t = some s) : t = s.quote := by
  unfold quoted? at h
  split at h
  · next u =>
    split at h
    · next hl =>
      cases h
      obtain ⟨a, rfl⟩ := List.getLast?_eq_some_iff.1 hl
      simp [Text.quote]
    · cases h
  · cases h

theorem Numeral.value_ne_text (n : Numeral) (s : Text) : n.value ≠ .ok (.text s) := by
  unfold Numeral.value
  split
  · simp
  · split <;> simp

/-- The texts that are read as a literal text. -/
theorem Literal.value?_eq_text_iff {t s : Text} :
    value? t = some (.ok (.text s)) ↔ t = s.quote := by
  constructor
  · intro h
    unfold value? at h
    split at h
    · next hq =>
      cases h
      exact eq_quote_of_quoted? hq
    · split at h
      · next n _ => exact absurd (Option.some.inj h) (n.value_ne_text s)
      · obtain ⟨v, hv, he⟩ := Option.map_eq_some_iff.1 h
        cases he
        rcases eq_of_word? hv with hv | ⟨b, hv⟩ <;> cases hv
  · rintro rfl
    exact value?_quote s

theorem Token.MarksApart.exists_quoted_of_render {ts : List Token} (hm : MarksApart ts)
    (hn : ∀ t ∈ ts, t.text ≠ []) {s : Text} (h : render ts = s.quote) :
    ∃ opening inside closing rest, Quoted opening inside closing ∧
      ts = opening :: (inside ++ closing :: rest) := by
  cases ts with
  | nil => simp [Text.quote, render] at h
  | cons t ts =>
    rw [render_cons] at h
    have ht : t.text = ['「'] := by
      obtain ⟨c, u, hc⟩ := List.exists_cons_of_ne_nil (hn t List.mem_cons_self)
      rw [hc, Text.quote] at h
      refine (hm t List.mem_cons_self).1 ?_
      rw [hc, (List.cons.inj h).1]
      exact List.mem_cons_self
    have hr : render ts = s ++ ['」'] := by
      rw [ht, Text.quote] at h
      exact (List.cons.inj h).2
    obtain ⟨inside, closing, rest, hq, rfl⟩ :=
      (hm.subset (List.subset_cons_self t ts)).exists_quoted (isA_quoteOpen_iff.2 ht) (by simp [hr])
    exact ⟨t, inside, closing, rest, hq, rfl⟩

/-- A sentence that is read as a literal text is a single quotation only if there is no closing mark
in the text. Otherwise tokens and mask both end the first quotation in it at the first mark. -/
theorem oneEnclosure_of_literal_iff {t s : Text} {line : Int}
    (h : Literal.value? (Token.render (tokenize t line)) = some (.ok (.text s))) :
    let ts := tokenize t line
    ∃ (x : Text) (q : List Token) (after : Text), '」' ∉ x ∧
      Token.render ts = s.quote ∧ Token.render ts = x.quote ++ after ∧
      (Cursor.ofTokens ts).readEnclosure.1 = .ok (some q) ∧ Token.render q = x.quote ∧
      (Token.render ts).breakQuoted = some ([], x.quote, after) ∧
      (OneEnclosure ts ↔ '」' ∉ s) ∧ ('」' ∉ s ↔ s = x) := by
  intro ts
  have hs : Token.render ts = s.quote := Literal.value?_eq_text_iff.1 h
  have hm : Token.MarksApart ts := marksApart_tokenize t line
  have hn : ∀ u ∈ ts, u.text ≠ [] := fun u hu ↦
    Text.ne_nil_of_mem_splitWords (fragment_of_mem_tokenize hu)
  obtain ⟨opening, inside, closing, rest, hq, ht⟩ := hm.exists_quoted_of_render hn hs
  clear_value ts
  subst ht
  have hr : ∀ u ∈ rest, u.text ≠ [] := fun u hu ↦ hn u (by simp [hu])
  refine ⟨Token.render inside, opening :: (inside ++ [closing]), Token.render rest,
    hq.not_mem_inside hm, hs, hq.render_append rest, hq.cursor_readEnclosure rest, hq.render_eq,
    hq.breakQuoted_eq hm, ?_, hq.not_mem_iff hm hs⟩
  rw [hq.oneEnclosure_iff, hq.rest_eq_nil_iff hm hs hr]

/-- The text between the outer marks is that of two quotations with a particle between them. -/
theorem oneEnclosure_of_literal_iff_of_two_quotations :
    let ts := tokenize "「a\n」を「b」".toList 3
    let first : Text := ['a', '\n']
    let s : Text := "a\n」を「b".toList
    Literal.value? (Token.render ts) = some (.ok (.text s)) ∧ ¬ OneEnclosure ts ∧ s ≠ first ∧
      ∃ q, (Cursor.ofTokens ts).readEnclosure.1 = .ok (some q) ∧ Token.render q = first.quote := by
  intro ts first s
  have h : Literal.value? (Token.render ts) = some (.ok (.text s)) := by decide +kernel
  obtain ⟨x, q, after, -, -, -, hq, hr, hb, ho, hs⟩ := oneEnclosure_of_literal_iff h
  have hf : (Token.render ts).breakQuoted = some ([], first.quote, "を「b」".toList) := by
    decide +kernel
  have hx : x.quote = first.quote := by
    rw [hf] at hb
    exact (Prod.mk.inj (Prod.mk.inj (Option.some.inj hb)).2).1.symm
  have hn : ¬ '」' ∉ s := by decide
  exact ⟨h, fun he ↦ hn (ho.1 he), by decide, q, hq, hr.trans hx⟩

/-- Two quotations side by side are read as one literal, with two marks in it. -/
theorem literal_past_closing_mark :
    let t : Text := "「a」「b」".toList
    let ts := tokenize t 1
    let s : Text := "a」「b".toList
    Literal.value? (Token.render ts) = some (.ok (.text s)) ∧ ¬ OneEnclosure ts ∧ '」' ∈ s ∧
      (Token.render ts).find? ['」'] = some 2 ∧ (Token.render ts).length = 6 ∧
      Run.value? (runScript t .standard) = some (.text s) := by
  decide +kernel

end Kotoba
