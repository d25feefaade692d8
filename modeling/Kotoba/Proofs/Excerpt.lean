import Kotoba.Proofs.Execution
import Kotoba.Proofs.Tokenize

/-!
All that a script runs is an excerpt of it. Trimming, captures and lines take stretches of its
tokens; a noun is taken from the text of its sentence and cut into tokens again, with lines counted
from the sentence's first. So the text of every statement stands in the script, and its lines are
lines of the script.
-/

namespace Kotoba

theorem narrow_of_lt {c : Char} (h : c.toNat < 128) : narrow c = c := by
  have hw : ¬ isWide c = true := by
    intro hw
    have hb := (isWide_bounds hw).1
    omega
  have ho : c ≠ '（' := by rintro rfl; simp at h
  have hc : c ≠ '）' := by rintro rfl; simp at h
  rw [narrow, if_neg hw, if_neg ho, if_neg hc]

theorem toNat_narrow_lt {c : Char} (h : isWide c = true) : (narrow c).toNat < 128 := by
  have hc : c.toNat ≤ 0xFF5A := by
    simp only [isWide, Bool.or_eq_true, Bool.and_eq_true, decide_eq_true_eq, Char.le_def,
      UInt32.le_iff_toNat_le, UInt32.reduceToNat, Char.reduceVal] at h
    unfold Char.toNat
    omega
  rw [narrow, if_pos h, toNat_ofNat_of_lt (by omega)]
  omega

theorem narrow_narrow (c : Char) : narrow (narrow c) = narrow c := by
  by_cases hw : isWide c = true
  · exact narrow_of_lt (toNat_narrow_lt hw)
  · have hn : narrow c = '(' ∨ narrow c = ')' ∨ narrow c = c := by
      unfold narrow
      rw [if_neg hw]
      split
      · exact .inl rfl
      · split
        · exact .inr (.inl rfl)
        · exact .inr (.inr rfl)
    rcases hn with hn | hn | hn
    · rw [hn]; decide
    · rw [hn]; decide
    · rw [hn, hn]

namespace Text

theorem of_mem_normalize {t : Text} {c : Char} (h : c ∈ t.normalize) :
    narrow c = c ∧ isSpacing c = false := by
  obtain ⟨hm, hs⟩ := List.mem_filter.1 h
  obtain ⟨b, -, rfl⟩ := List.mem_map.1 hm
  exact ⟨narrow_narrow b, by simpa using hs⟩

/-- A stretch of a normal form is its own normal form. -/
theorem normalize_slice {t s : Text} (h : t <:+: s.normalize) : t.normalize = t := by
  have hm : t.map narrow = t := by
    refine (List.map_congr_left fun c hc ↦ ?_).trans (List.map_id t)
    exact (of_mem_normalize (h.subset hc)).1
  rw [normalize, hm, List.filter_eq_self]
  intro c hc
  rw [(of_mem_normalize (h.subset hc)).2]
  rfl

end Text

namespace Token

theorem firstLine?_number (line : Int) {ws : List Text} (h : ws ≠ []) :
    firstLine? (number line ws) = some line := by
  obtain ⟨w, ws, rfl⟩ := List.exists_cons_of_ne_nil h
  rfl

theorem line_of_mem_number {line : Int} {ws : List Text} {t : Token} (h : t ∈ number line ws) :
    line ≤ t.line ∧ t.line ≤ line + ws.count ['\n'] := by
  induction ws generalizing line with
  | nil => cases h
  | cons w ws ih =>
    rw [List.count_cons]
    rcases List.mem_cons.1 h with rfl | h
    · simp only
      omega
    · have hi := ih h
      by_cases hw : w = ['\n']
      · simp only [hw, if_true, beq_self_eq_true] at hi ⊢
        omega
      · simp only [hw, if_false, beq_iff_eq] at hi ⊢
        omega

theorem count_newline_le (ts : List Token) :
    (ts.map text).count ['\n'] ≤ (render ts).count '\n' := by
  induction ts with
  | nil => simp
  | cons t ts ih =>
    rw [List.map_cons, List.count_cons, render_cons, List.count_append]
    by_cases ht : t.text = ['\n']
    · simp only [ht, beq_self_eq_true, if_true, List.count_singleton_self]
      omega
    · simp only [ht, beq_iff_eq, if_false]
      omega

theorem render_slice {us ts : List Token} (h : us <:+: ts) : render us <:+: render ts := by
  obtain ⟨as, bs, rfl⟩ := h
  rw [render_append, render_append]
  exact List.infix_append _ _ _

/-- A stretch of numbered fragments is numbered on from its first line. -/
theorem number_slice {line : Int} {ws : List Text} {before ts after : List Token}
    (h : number line ws = before ++ ts ++ after) :
    ts = number (line + (before.map text).count ['\n']) (ts.map text) := by
  have hw : ws = before.map text ++ ts.map text ++ after.map text := by
    rw [← map_text_number line ws, h, List.map_append, List.map_append]
  rw [hw, number_append, number_append] at h
  have hl : (number line (before.map text) ++ number (line + (before.map text).count ['\n'])
      (ts.map text)).length = (before ++ ts).length := by
    simp only [List.length_append, length_number, List.length_map]
  have hb : (number line (before.map text)).length = before.length := by
    rw [length_number, List.length_map]
  exact (List.append_inj (List.append_inj h hl).1 hb).2.symm

/-- The text of the tokens stands in the normal form of the script, and their lines are numbered on
from one that leaves room for them in the script. -/
structure Excerpt (script : Text) (ts : List Token) : Prop where
  stands : render ts <:+: script.normalize
  numbered : ∃ first : Int, 1 ≤ first ∧ first + (render ts).count '\n' ≤ 1 + script.count '\n' ∧
    ts = number first (ts.map text)

namespace Excerpt

variable {script : Text} {ts us : List Token}

theorem tokenize (script : Text) : Excerpt script (tokenize script 1) := by
  have hr : render (Kotoba.tokenize script 1) = script.normalize := render_tokenize script 1
  have hc : (render (Kotoba.tokenize script 1)).count '\n' = script.count '\n' := by
    rw [hr, Text.count_normalize]
  refine ⟨hr ▸ List.infix_refl _, 1, by omega, by omega, ?_⟩
  unfold Kotoba.tokenize
  rw [map_text_number]

theorem slice (h : us <:+: ts) (hx : Excerpt script ts) : Excerpt script us := by
  obtain ⟨first, hf, hl, hn⟩ := hx.numbered
  refine ⟨(render_slice h).trans hx.stands, ?_⟩
  obtain ⟨as, bs, rfl⟩ := h
  have hk := count_newline_le as
  refine ⟨first + (as.map text).count ['\n'], by omega, ?_, number_slice hn.symm⟩
  simp only [render_append, List.count_append] at hl
  omega

theorem nounTokens {noun : Text} (hx : Excerpt script ts) (hn : noun <:+: render ts) :
    Excerpt script (Statement.nounTokens ts noun) := by
  have hs := hn.trans hx.stands
  have hr : render (Statement.nounTokens ts noun) = noun := by
    rw [Statement.nounTokens, render_tokenize, Text.normalize_slice hs]
  obtain ⟨first, hf, hl, hnum⟩ := hx.numbered
  have hc : noun.count '\n' ≤ (render ts).count '\n' := hn.sublist.count_le '\n'
  -- Without tokens there is no first line, and no noun either.
  have hline : ∃ line : Int, (firstLine? ts).getD 1 = line ∧ 1 ≤ line ∧
      line + noun.count '\n' ≤ 1 + script.count '\n' := by
    by_cases ht : ts.map text = []
    · have he : ts = [] := List.map_eq_nil_iff.1 ht
      subst he
      obtain rfl : noun = [] := List.infix_nil.1 hn
      exact ⟨1, rfl, by omega, by rw [List.count_nil]; omega⟩
    · refine ⟨first, ?_, hf, by omega⟩
      rw [hnum, firstLine?_number first ht]
      rfl
  obtain ⟨line, he, h1, h2⟩ := hline
  refine ⟨by rwa [hr], line, h1, by rwa [hr], ?_⟩
  unfold Statement.nounTokens Kotoba.tokenize
  rw [map_text_number, he]

/-- The lines of an excerpt are lines of the script, none before that of its first token. -/
theorem line_mem (hx : Excerpt script ts) {t : Token} (ht : t ∈ ts) :
    1 ≤ t.line ∧ t.line ≤ 1 + script.count '\n' ∧ ∀ l ∈ firstLine? ts, l ≤ t.line := by
  obtain ⟨first, hf, hl, hn⟩ := hx.numbered
  have hk := count_newline_le ts
  have hm := line_of_mem_number (hn ▸ ht)
  refine ⟨by omega, by omega, fun l hl ↦ ?_⟩
  rw [hn, firstLine?_number first (by simpa using List.ne_nil_of_mem ht)] at hl
  obtain rfl : first = l := by simpa using hl
  exact hm.1

end Excerpt

end Token

theorem Pattern.infix_of_run {p : Pattern} {ts : List Token} {m : Match}
    (h : p.run ts = .ok (some m)) : ∀ part ∈ m.captures, part <:+: ts := by
  fun_induction Pattern.run p ts generalizing m with
  | case1 ts => cases h; simp
  | case2 ts => cases h; simp
  | case3 => cases h
  | case4 => cases h
  | case5 => cases h
  | case6 words steps ts taken rest hr ih =>
    cases hm : Pattern.run steps rest with
    | error e => simp [hm, Except.map] at h
    | ok o =>
      simp only [hm, Except.map, Except.ok.injEq] at h
      obtain ⟨m', rfl, rfl⟩ := Option.map_eq_some_iff.1 h
      obtain ⟨w, -, rfl⟩ := append_of_readUntil hr
      intro part hp
      rcases List.mem_cons.1 hp with rfl | hp
      · exact (List.prefix_append _ _).isInfix
      · have hs : rest <:+ taken ++ w :: rest :=
          (List.suffix_cons w rest).trans (List.suffix_append taken _)
        exact (ih hm part hp).trans hs.isInfix
  | case7 => cases h
  | case8 words steps t ts hw ih =>
    intro part hp
    exact List.infix_cons (ih h part hp)
  | case9 => cases h

theorem Form.infix_of_first? {fs : List Form} (hf : ∀ f ∈ fs, f.Sound) {ts rest : List Token}
    {clause : Clause} (h : first? fs ts = .ok (some (clause, rest))) :
    ∀ part ∈ clause.parts, part <:+: ts := by
  induction fs with
  | nil => cases h
  | cons f fs ih =>
    unfold first? at h
    split at h
    · cases h
    · exact ih (fun g hg ↦ hf g (List.mem_cons_of_mem f hg)) h
    · next m hm =>
      cases h
      intro part hp
      exact Pattern.infix_of_run hm part ((hf f List.mem_cons_self).2.2 _ part hp)

theorem Clause.sound_of_mem_forms {source rest : List Token} :
    ∀ f ∈ (forms source rest).1, f.Sound := by
  unfold forms
  split
  · exact fun _ ↦ Form.sound_of_mem_conditionals
  · split
    · exact fun _ ↦ Form.sound_of_mem_repetitions
    · exact fun _ ↦ Form.sound_of_mem_others

theorem Clause.infix_of_read {source rest after : List Token} {clause : Clause}
    (h : read source rest = .ok (clause, after)) : ∀ part ∈ clause.parts, part <:+: rest := by
  unfold read at h
  split at h
  · cases h
  · next r hr =>
    cases h
    exact Form.infix_of_first? sound_of_mem_forms hr
  · split at h
    · cases h
    · cases h
      simp [parts]

theorem infix_of_readLine {ts line rest : List Token} (h : readLine [] ts = .ok (line, rest)) :
    line <:+: ts ∧ rest <:+: ts := by
  rw [append_of_readLine h]
  exact ⟨(List.prefix_append line rest).isInfix, (List.suffix_append line rest).isInfix⟩

/-- Nouns and their particles as they are written. -/
def Marking.spelled (marked : List (Text × Text)) : Text := marked.flatMap fun a ↦ a.2 ++ a.1

theorem Marking.spelled_front (particles : List Text) (noun : Text) (ps : List Text) :
    spelled (ofPieces particles noun ps).marked <+: noun ++ ps.flatten := by
  induction ps generalizing noun with
  | nil => exact List.nil_prefix
  | cons p ps ih =>
    rw [List.flatten_cons, ← List.append_assoc]
    unfold ofPieces
    split
    · split
      · exact List.nil_prefix
      · exact (List.prefix_append_right_inj _).2 (ih [])
    · exact ih (noun ++ p)

theorem Builtin.region_front (f : Builtin) (sentence : Text) : f.region sentence <+: sentence := by
  unfold region
  split
  · exact List.take_prefix _ _
  · exact List.dropLast_prefix sentence

theorem Builtin.spelled_front {f : Builtin} {sentence : Text} {m : Marking}
    (h : f.marking? sentence = some m) : Marking.spelled m.marked <+: sentence := by
  obtain ⟨ps, hp, rfl⟩ := Option.map_eq_some_iff.1 h
  have hs := Marking.spelled_front f.particles [] ps
  rw [List.nil_append, Text.flatten_of_pieces? hp] at hs
  exact hs.trans (f.region_front sentence)

/-- A noun stands behind the nouns before it and their particles, in front of its own particle. -/
theorem Builtin.noun_front {f : Builtin} {sentence : Text} {m : Marking}
    (h : f.marking? sentence = some m) {before after : List (Text × Text)} {a : Text × Text}
    (hm : m.marked = before ++ a :: after) :
    a.2 ++ a.1 <+: sentence.drop (Marking.spelled before).length := by
  have hs : Marking.spelled m.marked =
      Marking.spelled before ++ (a.2 ++ a.1 ++ Marking.spelled after) := by
    simp [hm, Marking.spelled]
  obtain ⟨rest, hr⟩ := spelled_front h
  rw [← hr, hs, List.append_assoc, List.drop_left, List.append_assoc]
  exact List.prefix_append _ _

theorem Builtin.infix_of_mem_marking? {f : Builtin} {sentence : Text} {m : Marking}
    {a : Text × Text} (h : f.marking? sentence = some m) (ha : a ∈ m.marked) :
    a.2 <:+: sentence := by
  obtain ⟨before, after, hm⟩ := List.append_of_mem ha
  have hn : a.2 <+: sentence.drop (Marking.spelled before).length :=
    (List.prefix_append a.2 a.1).trans (noun_front h hm)
  exact hn.isInfix.trans (List.drop_suffix _ sentence).isInfix

namespace Cursor

theorem trim_slice (code : Cursor) : code.trim.tokens <:+: code.tokens := by
  obtain ⟨us, vs, h⟩ := Token.append_trim code.tokens
  exact ⟨us, vs, h.symm⟩

theorem rest_slice (code : Cursor) : code.rest <:+: code.tokens :=
  (List.drop_suffix code.index code.tokens).isInfix

end Cursor

/-- All tokens that the task holds are excerpts of the script, and its nouns stand in their
sentence. -/
def Task.Excerpts (script : Text) : Task → Prop
  | .value _ => True
  | .evaluate code => Token.Excerpt script code.tokens
  | .clause source rest => Token.Excerpt script source ∧ Token.Excerpt script rest
  | .loop target _ | .passes target _ => Token.Excerpt script target
  | .assign name _ => Token.Excerpt script name
  | .lines ts _ => Token.Excerpt script ts
  | .arguments source _ _ nouns _ =>
    Token.Excerpt script source ∧ ∀ a ∈ nouns, a.2 <:+: Token.render source

def Move.Excerpts (script : Text) : Move → Prop
  | .halt _ => True
  | .proceed t _ => t.Excerpts script
  | .call code resume => Token.Excerpt script code.tokens ∧ ∀ v, (resume v).Excerpts script

theorem Task.excerpts_clause {script : Text} {code : Cursor}
    (h : Token.Excerpt script code.tokens) :
    (Task.clause code.trim.tokens code.trim.rest).Excerpts script := by
  have ht := h.slice code.trim_slice
  exact ⟨ht, ht.slice code.trim.rest_slice⟩

theorem Task.Moves.excerpts {table : List Builtin} {script : Text} {t : Task} {c : Context}
    {m : Move} (h : t.Moves table c m) (hx : t.Excerpts script) : m.Excerpts script := by
  cases h with
  | evaluate => exact ⟨hx, fun _ ↦ trivial⟩
  | @conditional _ _ _ condition consequent alternative _ hr =>
    have hp (part : List Token) (h : part ∈ [condition, consequent] ++ alternative.toList) :
        Token.Excerpt script part := by
      refine hx.2.slice (Clause.infix_of_read hr part ?_)
      cases alternative <;> simpa [Clause.parts] using h
    refine ⟨hp condition (by simp), fun v ↦ ?_⟩
    unfold Task.branch
    split
    · exact hp consequent (by simp)
    · cases alternative with
      | none => trivial
      | some ts => exact hp ts (by simp)
  | @repetition _ _ _ target count _ hr =>
    have hp (part : List Token) (h : part ∈ [target, count]) : Token.Excerpt script part :=
      hx.2.slice (Clause.infix_of_read hr part h)
    exact ⟨hp count (by simp), fun _ ↦ hp target (by simp)⟩
  | @binding _ _ _ name value _ hr =>
    have hp (part : List Token) (h : part ∈ [name, value]) : Token.Excerpt script part :=
      hx.2.slice (Clause.infix_of_read hr part h)
    exact ⟨hp value (by simp), fun _ ↦ hp name (by simp)⟩
  | block hr => exact hx.2.slice (Clause.infix_of_read hr _ (by simp [Clause.parts]))
  | nouns _ _ hm => exact ⟨hx.1, fun a ha ↦ Builtin.infix_of_mem_marking? hm ha⟩
  | counted => exact hx
  | pass => exact ⟨hx, fun _ ↦ hx⟩
  | blankLine hr => exact hx.slice (infix_of_readLine hr).2
  | line hr =>
    have hi := infix_of_readLine hr
    exact ⟨hx.slice hi.1, fun _ ↦ hx.slice hi.2⟩
  | @argument source _ _ a nouns =>
    obtain ⟨hs, hn⟩ := hx
    constructor
    · rw [Cursor.tokens_ofTokens]
      exact hs.nounTokens (hn a List.mem_cons_self)
    · intro _
      exact ⟨hs, fun b hb ↦ hn b (List.mem_cons_of_mem a hb)⟩
  | _ => exact True.intro

end Kotoba
