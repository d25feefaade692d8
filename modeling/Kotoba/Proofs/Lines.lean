import Kotoba.Cursor

/-!
Where lines end. A line is ended by what stands in it and by no more of what follows than the next
token, and that only if it carries on a conditional. So the delimiters of a line that are outside
all enclosures but a conditional of their own end it or stand before an alternative, and lines that
are closed are read the same whatever follows them.
-/

namespace Kotoba

/-- The token ends a line in which the enclosures `fs` are open, before the tokens `ts`. -/
def EndsLine (fs : List Frame) (t : Token) (ts : List Token) : Prop :=
  Frame.step fs t = [] ∧ t.isA .delimiter = true ∧
    (fs = [] ∨ ¬ ts.head?.any (·.isA .elseMark) = true)

theorem readLine_of_endsLine {fs : List Frame} {t : Token} {ts : List Token}
    (h : EndsLine fs t ts) : readLine fs (t :: ts) = .ok ([t], ts) := by
  rw [readLine]
  exact if_pos h

theorem readLine_of_not_endsLine {fs : List Frame} {t : Token} {ts : List Token}
    (h : ¬ EndsLine fs t ts) :
    readLine fs (t :: ts) = (readLine (Frame.step fs t) ts).map fun p ↦ (t :: p.1, p.2) := by
  rw [readLine]
  exact if_neg h

theorem readLine_cons_cases {fs : List Frame} {t : Token} {ts line rest : List Token}
    (h : readLine fs (t :: ts) = .ok (line, rest)) :
    (EndsLine fs t ts ∧ line = [t] ∧ rest = ts) ∨
      (¬ EndsLine fs t ts ∧ ∃ more, readLine (Frame.step fs t) ts = .ok (more, rest) ∧
        line = t :: more) := by
  by_cases he : EndsLine fs t ts
  · rw [readLine_of_endsLine he] at h
    cases h
    exact .inl ⟨he, rfl, rfl⟩
  · rw [readLine_of_not_endsLine he] at h
    match hr : readLine (Frame.step fs t) ts with
    | .error e => simp [hr, Except.map] at h
    | .ok (more, rest') =>
      rw [hr] at h
      cases h
      exact .inr ⟨he, more, rfl, rfl⟩

theorem Frame.opened?_cases {t : Token} {f : Frame} (h : opened? t = some f) :
    t.isA .quoteOpen = true ∧ f = ⟨.quotation, t.line⟩ ∨
      t.isA .blockOpen = true ∧ f = ⟨.block, t.line⟩ ∨
      t.isA .ifMark = true ∧ f = ⟨.condition, t.line⟩ := by
  unfold opened? at h
  split at h
  · next hq =>
    cases h
    exact .inl ⟨hq, rfl⟩
  · split at h
    · next hb =>
      cases h
      exact .inr (.inl ⟨hb, rfl⟩)
    · split at h
      · next hi =>
        cases h
        exact .inr (.inr ⟨hi, rfl⟩)
      · cases h

theorem Frame.opened?_of_delimiter {t : Token} (h : t.isA .delimiter = true) :
    opened? t = none := by
  have ht : t.text = ['\n'] ∨ t.text = ['。'] := by simpa [Token.isA, WordClass.words] using h
  rcases ht with ht | ht <;> simp [opened?, Token.isA, WordClass.words, ht]

/-- A delimiter closes a conditional that is past its `ならば` and opens nothing. -/
theorem Frame.step_delimiter {fs : List Frame} {t : Token} (h : t.isA .delimiter = true)
    (ho : ∀ f ∈ fs, f.waiting = .branch) (hl : fs.length ≤ 1) : step fs t = [] := by
  match fs with
  | [] => simp [step, opened?_of_delimiter h]
  | [f] => simp [step, opened?_of_delimiter h, ho f (by simp), h]
  | _ :: _ :: _ => simp at hl

theorem length_of_readLine {t : Token} {ts line rest : List Token}
    (h : readLine [] (t :: ts) = .ok (line, rest)) : rest.length < (t :: ts).length := by
  have hl := List.length_pos_iff.2 (ne_nil_of_readLine h)
  have ha := congrArg List.length (append_of_readLine h)
  rw [List.length_append] at ha
  omega

theorem head?_of_readLine {fs : List Frame} {ts line rest : List Token}
    (h : readLine fs ts = .ok (line, rest)) (hn : ts ≠ []) : line.head? = ts.head? := by
  cases ts with
  | nil => exact absurd rfl hn
  | cons t ts => rcases readLine_cons_cases h with ⟨-, rfl, -⟩ | ⟨-, more, -, rfl⟩ <;> rfl

/-- A delimiter of a line that is inside no enclosure, or only in a conditional past its `ならば`,
ends the line or stands before an alternative. -/
theorem delimiter_of_readLine {fs : List Frame} {ts line rest before after : List Token} {t : Token}
    (h : readLine fs ts = .ok (line, rest)) (hl : line = before ++ t :: after)
    (ht : t.isA .delimiter = true) (ho : ∀ f ∈ before.foldl Frame.step fs, f.waiting = .branch)
    (hn : (before.foldl Frame.step fs).length ≤ 1) :
    after = [] ∨ after.head?.any (·.isA .elseMark) = true := by
  induction before generalizing fs ts line with
  | nil =>
    cases ts with
    | nil => simpa [hl] using append_of_readLine h
    | cons u us =>
      rcases readLine_cons_cases h with ⟨-, rfl, -⟩ | ⟨hc, more, hr, rfl⟩
      · obtain ⟨rfl, rfl⟩ : u = t ∧ [] = after := by simpa using hl
        exact .inl rfl
      · obtain ⟨rfl, rfl⟩ : u = t ∧ more = after := by simpa using hl
        -- The line goes on after its delimiter, so an alternative is next.
        have he : us.head?.any (·.isA .elseMark) = true := by
          apply Decidable.byContradiction
          intro hne
          exact hc ⟨Frame.step_delimiter ht ho hn, ht, .inr hne⟩
        have hu : us ≠ [] := by
          rintro rfl
          simp at he
        exact .inr (head?_of_readLine hr hu ▸ he)
  | cons b before ih =>
    cases ts with
    | nil => simpa [hl] using append_of_readLine h
    | cons u us =>
      rcases readLine_cons_cases h with ⟨-, rfl, -⟩ | ⟨-, more, hr, rfl⟩
      · simp at hl
      · obtain ⟨rfl, hm⟩ : u = b ∧ more = before ++ t :: after := by simpa using hl
        exact ih hr hm ho hn

/-- The enclosures that are open after the tokens, the innermost first. -/
def openAfter (ts : List Token) : List Frame := ts.foldl Frame.step []

theorem Cursor.readLine_cases {cursor : Cursor} {line : List Token}
    (h : cursor.readLine.1 = .ok (some line)) :
    cursor.index < cursor.size ∧ (∃ rest, Kotoba.readLine [] cursor.rest = .ok (line, rest)) ∧
      cursor.readLine.2 = { cursor with index := cursor.index + line.length } := by
  unfold Cursor.readLine Cursor.peekLine? at h ⊢
  by_cases hi : cursor.isEnd = true
  · simp [hi] at h
  · simp only [hi, Bool.false_eq_true, if_false] at h ⊢
    match hr : Kotoba.readLine [] cursor.rest with
    | .error e => simp [hr, Except.map] at h
    | .ok (line', rest) =>
      simp only [hr, Except.map, Except.ok.injEq, Option.some.injEq] at h ⊢
      subst h
      exact ⟨by simpa [Cursor.isEnd] using hi, ⟨rest, rfl⟩, rfl⟩

/-- A delimiter of a line outside all quotations, blocks and conditions, and inside one conditional
at most, is the last token of the line or stands before an alternative. -/
theorem readLine_boundary {cursor : Cursor} {line before after : List Token} {t : Token}
    (h : cursor.readLine.1 = .ok (some line)) (hl : line = before ++ t :: after)
    (ht : t.isA .delimiter = true)
    (hq : ∀ f ∈ openAfter before, f.waiting ≠ .quotation ∧ f.waiting ≠ .block)
    (hc : ∀ f ∈ openAfter before, f.waiting ≠ .condition) (hn : (openAfter before).length ≤ 1) :
    after = [] ∨ after.head?.any (·.isA .elseMark) = true := by
  obtain ⟨-, ⟨rest, hr⟩, -⟩ := Cursor.readLine_cases h
  refine delimiter_of_readLine hr hl ht (fun f hf ↦ ?_) hn
  have hw := hq f hf
  have hv := hc f hf
  cases hf' : f.waiting with
  | quotation => exact absurd hf' hw.1
  | block => exact absurd hf' hw.2
  | condition => exact absurd hf' hv
  | branch => rfl

theorem readLine_boundary_before_alternative :
    let before : List Token := [⟨['も', 'し'], 1⟩, ⟨['a'], 1⟩, ⟨['な', 'ら', 'ば'], 1⟩, ⟨['b'], 1⟩]
    let after : List Token := [⟨['違', 'う', 'な', 'ら'], 2⟩, ⟨['c'], 2⟩, ⟨['\n'], 2⟩]
    let line := before ++ ⟨['\n'], 1⟩ :: after
    (Cursor.ofTokens line).readLine.1 = .ok (some line) ∧
      (after = [] ∨ after.head?.any (·.isA .elseMark) = true) := by
  intro before after line
  have hr : (Cursor.ofTokens line).readLine.1 = .ok (some line) := rfl
  have hl : line = before ++ ⟨['\n'], 1⟩ :: after := rfl
  exact ⟨hr, readLine_boundary hr hl rfl (by decide) (by decide) (by decide)⟩

/-- A condition may run over several lines, and its delimiters end nothing. -/
theorem readLine_passes_delimiter_in_condition :
    ¬ ∀ (cursor : Cursor) (line before after : List Token) (t : Token),
      cursor.readLine.1 = .ok (some line) → line = before ++ t :: after →
      t.isA .delimiter = true →
      (∀ f ∈ openAfter before, f.waiting ≠ .quotation ∧ f.waiting ≠ .block) →
      after = [] ∨ after.head?.any (·.isA .elseMark) = true := by
  intro h
  have ha := h
    (.ofTokens [⟨['も', 'し'], 1⟩, ⟨['a'], 1⟩, ⟨['\n'], 1⟩, ⟨['な', 'ら', 'ば'], 2⟩, ⟨['b'], 2⟩]) _
    [⟨['も', 'し'], 1⟩, ⟨['a'], 1⟩] [⟨['な', 'ら', 'ば'], 2⟩, ⟨['b'], 2⟩] ⟨['\n'], 1⟩ rfl rfl rfl
    (by decide)
  revert ha
  decide

theorem readLines_of_readLine {ts line rest : List Token} (hn : ts ≠ [])
    (h : readLine [] ts = .ok (line, rest)) :
    readLines ts = (line :: (readLines rest).1, (readLines rest).2) := by
  cases ts with
  | nil => exact absurd rfl hn
  | cons t ts =>
    rw [readLines]
    split
    · next he => simp [h] at he
    · next he =>
      rw [h] at he
      cases he
      rfl

theorem readLines_of_error {ts : List Token} {e : Fault} (hn : ts ≠ [])
    (h : readLine [] ts = .error e) : readLines ts = ([], some e) := by
  cases ts with
  | nil => exact absurd rfl hn
  | cons t ts =>
    rw [readLines]
    split
    · next he =>
      rw [h] at he
      cases he
      rfl
    · next he => simp [h] at he

theorem readLines_ne_nil {ts : List Token} (hn : ts ≠ []) (h : (readLines ts).2 = none) :
    (readLines ts).1 ≠ [] := by
  match hr : readLine [] ts with
  | .error e =>
    rw [readLines_of_error hn hr] at h
    cases h
  | .ok (line, rest) =>
    rw [readLines_of_readLine hn hr]
    exact List.cons_ne_nil _ _

/-- Read with one plain token more, the tokens leave that token alone on the last line, and there is
no fault. -/
def LineClosed (ts : List Token) : Prop :=
  ∃ x : Token, x.text ∉ allWords ∧ (readLines (ts ++ [x])).2 = none ∧
    (readLines (ts ++ [x])).1.getLast? = some [x]

theorem endsLine_congr {fs : List Frame} {t : Token} {us vs : List Token}
    (h : us.head?.any (·.isA .elseMark) = vs.head?.any (·.isA .elseMark)) :
    EndsLine fs t us ↔ EndsLine fs t vs := by
  unfold EndsLine
  rw [h]

/-- A line that ends before `us` ends there before any other tokens, unless these begin with an
alternative. -/
theorem readLine_append {fs : List Frame} {ts line rest us vs : List Token} (hn : ts ≠ [])
    (hu : us ≠ []) (hue : us.head?.any (·.isA .elseMark) = false)
    (hve : vs.head?.any (·.isA .elseMark) = false)
    (h : readLine fs (ts ++ us) = .ok (line, rest ++ us)) :
    readLine fs (ts ++ vs) = .ok (line, rest ++ vs) := by
  induction ts generalizing fs line with
  | nil => exact absurd rfl hn
  | cons t ts ih =>
    have hc : EndsLine fs t (ts ++ us) ↔ EndsLine fs t (ts ++ vs) := by
      apply endsLine_congr
      cases ts with
      | nil => rw [List.nil_append, List.nil_append, hue, hve]
      | cons t' ts => rfl
    rcases readLine_cons_cases h with ⟨he, rfl, hr⟩ | ⟨he, more, hr, rfl⟩
    · rw [List.cons_append, readLine_of_endsLine (hc.1 he), List.append_cancel_right hr]
    · have ht : ts ≠ [] := by
        rintro rfl
        -- Otherwise the rest of the line is empty although there is something to read.
        have ha : us = more ++ (rest ++ us) := append_of_readLine hr
        have hl := congrArg List.length ha
        simp only [List.length_append] at hl
        obtain ⟨u, us', rfl⟩ := List.exists_cons_of_ne_nil hu
        have hm := List.length_pos_iff.2 (ne_nil_of_readLine hr)
        omega
      rw [List.cons_append, readLine_of_not_endsLine fun he' ↦ he (hc.2 he'), ih ht hr]
      rfl

/-- Nothing that follows changes how closed lines are read, unless it begins with an alternative. -/
theorem LineClosed.readLines_append {ts us : List Token} (h : LineClosed ts)
    (hu : us.head?.any (·.isA .elseMark) = false) :
    readLines (ts ++ us) = ((readLines ts).1 ++ (readLines us).1, (readLines us).2) := by
  obtain ⟨x, hx, hf, hl⟩ := h
  have hxe : [x].head?.any (·.isA .elseMark) = false := by
    simp only [List.head?_cons, Option.any_some, Token.isA]
    apply Bool.eq_false_iff.2
    intro he
    exact hx (List.mem_flatMap.2 ⟨.elseMark, by decide, by simpa using he⟩)
  induction hs : ts.length using Nat.strongRecOn generalizing ts with
  | _ n ih =>
    cases ts with
    | nil => simp [readLines]
    | cons t ts =>
      cases hr : readLine [] (t :: ts ++ [x]) with
      | error e => rw [readLines_of_error (by simp) hr] at hf; cases hf
      | ok read =>
        obtain ⟨line, rest⟩ := read
        rw [readLines_of_readLine (by simp) hr] at hf hl
        have ha := append_of_readLine hr
        rcases List.eq_nil_or_concat rest with rfl | ⟨rest, y, rfl⟩
        · -- Then the first line is the last one, and it holds more than the token `x`.
          have hx' : line = [x] := by simpa [readLines] using hl
          have hlen := congrArg List.length ha
          simp [hx'] at hlen
        · rw [List.concat_eq_append] at hr hf hl ha
          obtain ⟨hts, hy⟩ := List.append_inj' (ha.trans (List.append_assoc line rest [y]).symm) rfl
          obtain rfl : x = y := by simpa using hy
          have hlast : (readLines (rest ++ [x])).1.getLast? = some [x] := by
            rw [List.getLast?_cons] at hl
            cases hm : (readLines (rest ++ [x])).1.getLast? with
            | none => exact absurd (List.getLast?_eq_none_iff.1 hm) (readLines_ne_nil (by simp) hf)
            | some l => simpa [hm] using hl
          have hlt : rest.length < n := by
            have hp := List.length_pos_iff.2 (ne_nil_of_readLine hr)
            rw [← hs, hts, List.length_append]
            omega
          have hrest := ih rest.length hlt hf hlast rfl
          have hus : readLine [] (t :: ts ++ us) = .ok (line, rest ++ us) :=
            readLine_append (by simp) (by simp) hxe hu hr
          have hnil : readLine [] (t :: ts ++ []) = .ok (line, rest ++ []) :=
            readLine_append (by simp) (by simp) hxe rfl hr
          rw [List.append_nil, List.append_nil] at hnil
          rw [readLines_of_readLine (by simp) hus, readLines_of_readLine (by simp) hnil, hrest]
          rfl

theorem LineClosed.snd_readLines {ts : List Token} (h : LineClosed ts) :
    (readLines ts).2 = none := by
  have ha : readLines (ts ++ []) = _ := h.readLines_append rfl
  rw [List.append_nil] at ha
  rw [ha, readLines]

end Kotoba
