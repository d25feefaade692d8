import Kotoba.Proofs.Enclosures
import Kotoba.Proofs.Excerpt
import Kotoba.Proofs.Journal
import Kotoba.Proofs.Masking
import Kotoba.Proofs.Sentences
import Mathlib.Data.List.Basic

/-!
Quotations are opaque. Whatever stands in a quotation, as long as it is no closing mark, the reading
of lines and patterns passes over it, no function is looked for in it, and its value is the text
between the marks; so it is too when the quotation is an argument.
-/

namespace Kotoba

/-- Folding makes no character beyond the narrow ones. -/
theorem eq_of_narrow_eq {c k : Char} (hk : 128 ≤ k.toNat) (h : narrow c = k) : c = k := by
  by_cases hw : isWide c = true
  · have hn := toNat_narrow_lt hw
    rw [h] at hn
    omega
  · unfold narrow at h
    rw [if_neg hw] at h
    split at h
    · subst h
      exact absurd hk (by decide)
    · split at h
      · subst h
        exact absurd hk (by decide)
      · exact h

theorem Text.not_mem_normalize {t : Text} {k : Char} (hk : 128 ≤ k.toNat) (h : k ∉ t) :
    k ∉ t.normalize := by
  intro hm
  obtain ⟨c, hc, hn⟩ := List.mem_map.1 (List.mem_filter.1 hm).1
  exact h (eq_of_narrow_eq hk hn ▸ hc)

theorem Text.normalize_normalize (t : Text) : t.normalize.normalize = t.normalize :=
  normalize_slice (List.infix_refl t.normalize)

theorem Text.normalize_quote (t : Text) : t.quote.normalize = t.normalize.quote := by
  have ho : Text.normalize ['「'] = ['「'] := by decide
  have hc : Text.normalize ['」'] = ['」'] := by decide
  rw [quote, ← List.singleton_append, normalize_append, normalize_append, ho, hc]
  rfl

theorem Literal.value?_quote (t : Text) : Literal.value? t.quote = some (.ok (.text t)) := by
  have hq : quoted? t.quote = some t := by simp [Text.quote, quoted?]
  rw [Literal.value?, hq]

theorem tokenize_quote_append (s u : Text) (line : Int) :
    tokenize (s.quote ++ u) line =
      ⟨['「'], line⟩ :: (tokenize s line ++ ⟨['」'], line + s.count '\n'⟩ ::
        tokenize u (line + s.count '\n')) := by
  have hq : s.quote ++ u = '「' :: (s ++ '」' :: u) := by simp [Text.quote]
  rw [hq]
  exact tokenize_enclosed (by decide) (by decide) s u line

/-- A pattern that begins with a capture does not fit where it did not fit yet and what is passed
over now holds no word of it. -/
theorem Pattern.run_of_readUntil {words : List Text} {steps : Pattern} {ts us : List Token}
    {f : List Token → List Token}
    (h : readUntil words [] us =
      (readUntil words [] ts).map (Option.map fun p ↦ (f p.1, p.2)))
    (hr : Pattern.run (.capture :: .word words :: steps) ts = .ok none) :
    Pattern.run (.capture :: .word words :: steps) us = .ok none := by
  rw [Pattern.run] at hr ⊢
  rw [h]
  cases hu : readUntil words [] ts with
  | error e =>
    rw [hu] at hr
    cases hr
  | ok found =>
    rw [hu] at hr
    cases found with
    | none => rfl
    | some p =>
      simp only [Except.map, Option.map_some] at hr ⊢
      cases hs : Pattern.run steps p.2 with
      | error e =>
        rw [hs] at hr
        cases hr
      | ok m =>
        rw [hs] at hr
        cases m with
        | none => rfl
        | some m => cases hr

/-- Tokens that are a quotation with its marks. -/
structure Quoted (opening : Token) (inside : List Token) (closing : Token) : Prop where
  opens : opening.isA .quoteOpen = true
  closes : closing.isA .quoteClose = true
  inside : ∀ t ∈ inside, t.isA .quoteClose = false

theorem quoted_tokenize {s : Text} (hs : '」' ∉ s) (line line' : Int) :
    Quoted ⟨['「'], line⟩ (tokenize s line) ⟨['」'], line'⟩ := by
  refine ⟨rfl, rfl, fun t ht ↦ Bool.eq_false_iff.2 fun hc ↦ ?_⟩
  have hm : '」' ∈ t.text := by
    have ht : t.text = ['」'] := by simpa [Token.isA, WordClass.words] using hc
    simp [ht]
  have hr : '」' ∈ Token.render (tokenize s line) := List.mem_flatMap.2 ⟨t, ht, hm⟩
  rw [Token.render_tokenize] at hr
  exact Text.not_mem_normalize (by decide) hs hr

namespace Quoted

variable {opening closing : Token} {inside : List Token} (h : Quoted opening inside closing)

include h

theorem opened?_eq : Frame.opened? opening = some ⟨.quotation, opening.line⟩ := by
  rw [Frame.opened?, if_pos h.opens]

theorem readLine_append (rest : List Token) :
    readLine [] (opening :: (inside ++ closing :: rest)) =
      (readLine [] rest).map fun p ↦ (opening :: (inside ++ [closing]) ++ p.1, p.2) := by
  have hd : closing.isA .delimiter = false := Token.isA_eq_false h.closes (by decide)
  exact readLine_enclosure h.opened?_eq (readClosed_quotation _ h.closes h.inside rest)
    (by simp [hd])

theorem readUntil_append (words : List Text) (rest : List Token) :
    readUntil words [] (opening :: (inside ++ closing :: rest)) =
      (readUntil words [] rest).map
        (Option.map fun p ↦ (opening :: (inside ++ [closing]) ++ p.1, p.2)) :=
  readUntil_enclosure words h.opened?_eq (readClosed_quotation _ h.closes h.inside rest)

/-- A pattern that begins with a capture does not fit a sentence that begins with a quotation,
unless it fits what follows. -/
theorem run_append {words : List Text} {steps : Pattern} {rest : List Token}
    (hr : Pattern.run (.capture :: .word words :: steps) rest = .ok none) :
    Pattern.run (.capture :: .word words :: steps) (opening :: (inside ++ closing :: rest)) =
      .ok none :=
  Pattern.run_of_readUntil (h.readUntil_append words rest) hr

variable {rest : List Token}

theorem any_getLast? {k : WordClass} (hk : ∀ w ∈ WordClass.quoteClose.words, w ∉ k.words)
    (hl : rest.getLast?.any (·.isA k) = false) :
    (opening :: (inside ++ closing :: rest)).getLast?.any (·.isA k) = false :=
  Token.any_getLast?_append (Token.isA_eq_false h.closes hk) hl (opening :: inside)

theorem trimmed (hl : rest.getLast?.any (·.isA .delimiter) = false) :
    Token.Trimmed (opening :: (inside ++ closing :: rest)) :=
  Token.trimmed_of_any (List.cons_ne_nil _ _) (Token.isA_eq_false h.opens (by decide))
    (h.any_getLast? (by decide) hl)

/-- What begins with a quotation is a phrase unless what follows says otherwise. -/
theorem clause_eq (hl : rest.getLast?.any (·.isA .loopMark) = false)
    (hb : (Form.steps [none, some .nameMark, none, some .valueMark]).run rest = .ok none) :
    Clause.read (opening :: (inside ++ closing :: rest)) (opening :: (inside ++ closing :: rest)) =
      .ok (.phrase, opening :: (inside ++ closing :: rest)) :=
  Clause.read_phrase rfl (Token.isA_eq_false h.opens (by decide))
    (Token.isA_eq_false h.opens (by decide)) (h.any_getLast? (by decide) hl) (h.run_append hb)

end Quoted

/-- Tokens that after a quotation are the rest of its line, and make no more than a phrase of it. -/
structure Token.Continues (ts : List Token) : Prop where
  readLine_eq : readLine [] ts = .ok (ts, [])
  delimiter : ts.getLast?.any (·.isA .delimiter) = false
  loopMark : ts.getLast?.any (·.isA .loopMark) = false
  binding : (Form.steps [none, some .nameMark, none, some .valueMark]).run ts = .ok none

structure Text.Continues (u : Text) : Prop where
  normalize_eq : u.normalize = u
  tokens (line : Int) : Token.Continues (tokenize u line)

namespace Text.Continues

variable {s u : Text} (hs : '」' ∉ s) (h : u.Continues) (line : Int)

theorem render_eq (h : u.Continues) (s : Text) (line : Int) :
    Token.render (tokenize (s.quote ++ u) line) = s.normalize.quote ++ u := by
  rw [Token.render_tokenize, normalize_append, normalize_quote, h.normalize_eq]

include hs h

theorem trimmed : Token.Trimmed (tokenize (s.quote ++ u) line) := by
  rw [tokenize_quote_append]
  exact (quoted_tokenize hs line _).trimmed (h.tokens _).delimiter

theorem clause_eq :
    Clause.read (tokenize (s.quote ++ u) line) (tokenize (s.quote ++ u) line) =
      .ok (.phrase, tokenize (s.quote ++ u) line) := by
  rw [tokenize_quote_append]
  exact (quoted_tokenize hs line _).clause_eq (h.tokens _).loopMark (h.tokens _).binding

theorem runScript_eq (c : Context) :
    runScript (s.quote ++ u) c =
      Run.ofTokens c.functions (tokenize (s.quote ++ u) 1) c := by
  refine runTokens_of_line (h.trimmed hs 1) ?_ c
  rw [tokenize_quote_append, (quoted_tokenize hs 1 _).readLine_append,
    (h.tokens _).readLine_eq]
  simp [Except.map]

end Text.Continues

theorem continues_nil : Text.Continues [] := by
  refine ⟨rfl, fun line ↦ ?_⟩
  rw [tokenize_nil]
  exact ⟨rfl, rfl, rfl, rfl⟩

theorem Run.ofTokens_quote {s : Text} (hs : '」' ∉ s) (line : Int) {c : Context}
    (hc : c.scope.get? s.normalize.quote = none) :
    Run.ofTokens Builtin.standard (tokenize s.quote line) c =
      .ok (.text s.normalize) (c.note (.traced (.statement (tokenize s.quote line)))) := by
  have ht := continues_nil.trimmed hs line
  have hk := continues_nil.clause_eq hs line
  have hr := continues_nil.render_eq s line
  rw [List.append_nil] at ht hk hr
  rw [List.append_nil] at hr
  have hf : Builtin.find? Builtin.standard s.normalize.quote = none := by
    have hn := Builtin.find?_quote_append (Text.not_mem_normalize (by decide) hs) []
      fun _ ↦ Builtin.visible_of_mem_standard
    rw [List.append_nil] at hn
    rw [hn]
    decide +kernel
  refine ofTokens_literal ht hk ?_ ?_ ?_
  · rw [hr]
    exact hf
  · rw [hr]
    exact hc
  · rw [hr, Literal.value?_quote]

theorem Callable.call_text (f : Callable) (t : Text) (c : Context) :
    f.call (.text t) c =
      match f.failure? with
      | none => .ok () (c.note (.called f (.text t)))
      | some e => .error (.host e) (c.note (.called f (.text t))) := by
  cases f with
  | console => rfl
  | alert => rfl
  | diagnostic => rfl
  | function name failure => cases failure <;> rfl
  | object typeName failure => cases failure <;> rfl

namespace Builtin

def displaying : Builtin := ⟨['表', '示'], [['を'], ['に']], .display⟩

/-- The words after what is displayed on the console. -/
def displayWords : Text := 'を' :: (consoleName ++ ['に', '表', '示', 'す', 'る'])

theorem displaying_marking? {t : Text} (h : '」' ∉ t) :
    displaying.marking? (t.quote ++ displayWords) =
      some ⟨[(['を'], t.quote), (['に'], consoleName)], true⟩ := by
  have hv : displaying.Visible := visible_of_mem_standard List.mem_cons_self
  have hr : displaying.region displayWords = 'を' :: (consoleName ++ ['に']) := by decide +kernel
  have hp : Text.pieces? ('を' :: (consoleName ++ ['に'])) displaying.particles =
      some [['を'], consoleName, ['に']] := by decide +kernel
  have hq : displaying.particles.contains t.quote = false := by
    simp [displaying, Text.quote]
  rw [marking?, hv.region_quote_append h _ (by decide +kernel), hr, Text.pieces?_quote_append h, hp]
  simp only [Option.map_some, Marking.ofPieces, hq, List.nil_append]
  rfl

end Builtin

theorem tokenize_displayWords (line : Int) :
    tokenize Builtin.displayWords line =
      [⟨['を'], line⟩, ⟨consoleName ++ ['に', '表', '示', 'す', 'る'], line⟩] := by
  have hw : Builtin.displayWords.normalize.splitWords allWords =
      [['を'], consoleName ++ ['に', '表', '示', 'す', 'る']] := by decide +kernel
  rw [tokenize, hw]
  rfl

theorem tokenize_consoleName (line : Int) :
    tokenize consoleName line = [⟨consoleName, line⟩] := by
  have hw : consoleName.normalize.splitWords allWords = [consoleName] := by decide +kernel
  rw [tokenize, hw]
  rfl

theorem Run.ofTokens_console (line : Int) {c : Context} {v : Value}
    (hv : c.scope.get? consoleName = some v) :
    Run.ofTokens Builtin.standard (tokenize consoleName line) c =
      .ok v (c.note (.traced (.statement (tokenize consoleName line)))) := by
  rw [tokenize_consoleName]
  refine ofTokens_bound ⟨⟨_, rfl, rfl⟩, _, rfl, rfl⟩ rfl ?_ hv
  show Builtin.find? Builtin.standard consoleName = none
  decide +kernel

theorem continues_displayWords : Builtin.displayWords.Continues := by
  refine ⟨by decide +kernel, fun line ↦ ?_⟩
  rw [tokenize_displayWords]
  exact ⟨rfl, rfl, rfl, rfl⟩

theorem Run.ofNouns_display {t : Text} (ht : '」' ∉ t) (hn : t.normalize = t) (source : List Token)
    {c : Context} {output : Callable} (hc : c.scope.get? t.quote = none)
    (ho : c.scope.get? consoleName = some (.callable output)) :
    ∃ d, c.Quiet d ∧
      Run.ofNouns Builtin.standard source .displaying true
          [(['を'], t.quote), (['に'], consoleName)] [] c =
        (output.call (.text t) >>= fun _ ↦ pure .empty) d := by
  let a := c.note (.traced (.statement (Statement.nounTokens source t.quote)))
  let b := a.note (.traced (.statement (Statement.nounTokens source consoleName)))
  -- The noun is read anew; it is in normal form already, so the text is the same again.
  have hq : Run.ofTokens Builtin.standard (Statement.nounTokens source t.quote) c =
      .ok (.text t) a := by
    have hq := ofTokens_quote ht ((Token.firstLine? source).getD 1) (c := c)
    rw [hn] at hq
    exact hq hc
  have hw : Run.ofTokens Builtin.standard (Statement.nounTokens source consoleName) a =
      .ok (.callable output) b := ofTokens_console _ ho
  refine ⟨b.note (.traced (.call ['表', '示'] [['に'], ['を']])), ?_, ?_⟩
  · exact ((Context.Quiet.traced c _).trans (.traced a _)).trans (.traced b _)
  · rw [ofNouns_cons_of_ok (a := (['を'], t.quote)) hq,
      ofNouns_cons_of_ok (a := (['に'], consoleName)) hw]
    rfl

theorem Run.ofTokens_display {s : Text} (hs : '」' ∉ s) (line : Int) {c : Context}
    {output : Callable} (hc : c.scope.get? s.normalize.quote = none)
    (ho : c.scope.get? consoleName = some (.callable output)) :
    let r := Run.ofTokens Builtin.standard (tokenize (s.quote ++ Builtin.displayWords) line) c
    (output.failure? = none → Run.value? r = some .empty) ∧
      (Run.context r).events c = [.called output (.text s.normalize)] := by
  intro r
  let ts := tokenize (s.quote ++ Builtin.displayWords) line
  have hn : '」' ∉ s.normalize := Text.not_mem_normalize (by decide) hs
  have hr := continues_displayWords.render_eq s line
  have hf : Builtin.find? Builtin.standard (s.normalize.quote ++ Builtin.displayWords) =
      some .displaying := by
    rw [Builtin.find?_quote_append hn _ fun _ ↦ Builtin.visible_of_mem_standard]
    decide +kernel
  have hcall : r = c.exit (Run.ofNouns Builtin.standard ts .displaying true
      [(['を'], s.normalize.quote), (['に'], consoleName)] [] (c.enter ts)) :=
    ofTokens_call (continues_displayWords.trimmed hs line)
      (continues_displayWords.clause_eq hs line) (hr ▸ hf) (hr ▸ Builtin.displaying_marking? hn) c
  obtain ⟨d, hd, hnouns⟩ := ofNouns_display hn (Text.normalize_normalize s) ts
    (c := c.enter ts) hc ho
  -- Whether the sink fails or not, its call is noted first.
  have hq : c.Quiet d := (Context.Quiet.traced c (.statement ts)).trans hd
  have he := hq.events_note (e := .called output (.text s.normalize)) rfl
  rw [hcall, hnouns, Run.bind_apply, Callable.call_text]
  cases output.failure? with
  | none => exact ⟨fun _ ↦ rfl, he⟩
  | some e => exact ⟨fun h ↦ (by cases h), he⟩

theorem Context.get?_ofSinks_quote (output warning inspection : Callable)
    (functions : List Builtin) (t : Text) :
    (ofSinks output warning inspection functions).scope.get? t.quote = none := by
  have hc : consoleName ≠ t.quote := by simp [consoleName, Text.quote]
  have ha : alertName ≠ t.quote := by simp [alertName, Text.quote]
  simp only [ofSinks, Bindings.get?, hc, ha, if_false]

/-- In a context not yet run in, a quotation gives the text between its marks and does nothing;
displayed on the console, that text is what the sink is given, and nothing else is done. -/
theorem runScript_quotation {s : Text} (hs : '」' ∉ s) (output warning inspection : Callable) :
    let c := Context.ofSinks output warning inspection Builtin.standard
    let r := runScript s.quote c
    let shown := runScript (s.quote ++ "をコンソールに表示する".toList) c
    Run.value? r = some (.text s.normalize) ∧ (Run.context r).events c = [] ∧
      (output.failure? = none → Run.value? shown = some .empty) ∧
      (Run.context shown).events c = [.called output (.text s.normalize)] := by
  intro c r shown
  have hc := Context.get?_ofSinks_quote output warning inspection Builtin.standard s.normalize
  have hr : r = .ok (.text s.normalize)
      (c.note (.traced (.statement (tokenize s.quote 1)))) := by
    have hr := continues_nil.runScript_eq hs c
    rw [List.append_nil] at hr
    exact hr.trans (Run.ofTokens_quote hs 1 hc)
  have hd : shown = _ := continues_displayWords.runScript_eq hs c
  refine ⟨?_, ?_, ?_⟩
  · rw [hr]
    rfl
  · rw [hr]
    exact (Context.Quiet.traced c _).events_eq
  · rw [hd]
    exact Run.ofTokens_display hs 1 hc rfl

/-- A text with a block, a repetition, a binding, a function and an opening mark in it, over two
lines, is shown as it is. -/
theorem runScript_quotation_of_script :
    let s : Text := "もし(aを「1とする)ならば\nｂをコンソールに表示することを3回繰り返す".toList
    let c := Context.standard
    let r := runScript (s.quote ++ "をコンソールに表示する".toList) c
    '」' ∉ s ∧ Run.value? (runScript s.quote c) = some (.text s.normalize) ∧
      Run.value? r = some .empty ∧
      (Run.context r).events c = [.called .console (.text s.normalize)] := by
  intro s c r
  have h : '」' ∉ s := by decide +kernel
  obtain ⟨hv, -, he, ho⟩ := runScript_quotation h .console .alert .diagnostic
  exact ⟨h, hv, he rfl, ho⟩

end Kotoba
