import Kotoba.Proofs.Positions
import Kotoba.Proofs.Rollback

/-!
Lines partition the tokens. Reading line after line comes to the end, with no token lost or read
twice, or to an enclosure that is not closed; and then the fault names the token that opened it.
-/

namespace Kotoba

namespace Frame

variable {fs : List Frame} {f : Frame} {ts : List Token}

/-- An enclosure that is open, and no conditional past its `ならば`, is as one of the tokens has
opened it. -/
theorem opened_of_mem_foldl (hb : f.waiting ≠ .branch) (h : f ∈ ts.foldl step fs) :
    f ∈ fs ∨ ∃ t ∈ ts, opened? t = some f := by
  induction ts generalizing fs with
  | nil => exact .inl h
  | cons t ts ih =>
    rcases ih h with hm | ⟨u, hu, ho⟩
    · rcases mem_step hm with hm | ho | ⟨g, -, rfl⟩
      · exact .inl hm
      · exact .inr ⟨t, List.mem_cons_self, ho⟩
      · exact absurd rfl hb
    · exact .inr ⟨u, List.mem_cons_of_mem t hu, ho⟩

end Frame

/-- The fault of an enclosure that is not closed: it was opened by one of the tokens, and names the
words that would have closed it and the line of that token. -/
def Unclosed (ts : List Token) (e : Fault) : Prop :=
  ∃ t ∈ ts, ∃ f k, Frame.opened? t = some f ∧ f.missing? = some k ∧
    e = .complaint (.unclosed k) (some t.line) none

variable {ts us : List Token} {e : Fault}

theorem Unclosed.mono (h : Unclosed ts e) (hs : ts ⊆ us) : Unclosed us e := by
  obtain ⟨t, ht, hf⟩ := h
  exact ⟨t, hs ht, hf⟩

theorem unclosed_of_readLine (h : readLine [] ts = .error e) : Unclosed ts e := by
  obtain ⟨f, hf, he⟩ := List.exists_of_findSome?_eq_some (fault?_of_readLine h)
  obtain ⟨k, hk, rfl⟩ := Option.map_eq_some_iff.1 he
  have hb : f.waiting ≠ .branch := by
    intro hw
    simp [Frame.missing?, hw] at hk
  rcases Frame.opened_of_mem_foldl hb hf with hn | ⟨t, ht, ho⟩
  · cases hn
  · exact ⟨t, ht, f, k, ho, hk, by rw [Frame.line_of_opened? ho]⟩

/-- Nothing is lost between the lines, nor behind the last one if there is no fault. -/
theorem flatten_readLines (h : (readLines ts).2 = none) : (readLines ts).1.flatten = ts := by
  fun_induction readLines ts with
  | case1 => rfl
  | case2 => cases h
  | case3 t ts line rest hr r ih =>
    rw [append_of_readLine hr, List.flatten_cons, ih h]

theorem ne_nil_of_mem_readLines {line : List Token} (h : line ∈ (readLines ts).1) : line ≠ [] := by
  fun_induction readLines ts with
  | case1 => cases h
  | case2 => cases h
  | case3 t ts first rest hr r ih =>
    rcases List.mem_cons.1 h with rfl | h
    · exact ne_nil_of_readLine hr
    · exact ih h

theorem length_readLines_le (ts : List Token) : (readLines ts).1.length ≤ ts.length := by
  fun_induction readLines ts with
  | case1 => exact Nat.le_refl _
  | case2 => exact Nat.zero_le _
  | case3 t ts line rest hr r ih => exact Nat.lt_of_le_of_lt ih (length_of_readLine hr)

theorem unclosed_of_readLines (h : (readLines ts).2 = some e) : Unclosed ts e := by
  fun_induction readLines ts with
  | case1 => cases h
  | case2 t ts e' hr =>
    cases h
    exact unclosed_of_readLine hr
  | case3 t ts line rest hr r ih =>
    refine (ih h).mono ?_
    rw [append_of_readLine hr]
    exact List.subset_append_right line rest

namespace Cursor

variable {c d : Cursor}

theorem isEnd_iff (c : Cursor) : c.isEnd = true ↔ c.rest = [] := by
  rw [isEnd, decide_eq_true_iff]
  exact List.drop_eq_nil_iff.symm

/-- What each outcome of reading a line says of the tokens that were left. -/
theorem readLine_outcome (c : Cursor) :
    match c.readLine with
    | (.error e, d) => c.rest ≠ [] ∧ Kotoba.readLine [] c.rest = .error e ∧ d = c.seek c.size
    | (.ok none, d) => c.rest = [] ∧ d = c
    | (.ok (some line), d) => c.rest ≠ [] ∧ Kotoba.readLine [] c.rest = .ok (line, d.rest) ∧
        d = c.seek (c.index + line.length) := by
  rw [readLine, peekLine?]
  by_cases he : c.isEnd = true
  · rw [if_pos he]
    exact ⟨c.isEnd_iff.1 he, rfl⟩
  · have hn : c.rest ≠ [] := fun hn ↦ he (c.isEnd_iff.2 hn)
    rw [if_neg he]
    cases hr : Kotoba.readLine [] c.rest with
    | error e => exact ⟨hn, rfl, rfl⟩
    | ok p =>
      have hd : (c.seek (c.index + p.1.length)).rest = p.2 := rest_seek p.1 (append_of_readLine hr)
      refine ⟨hn, ?_, rfl⟩
      show Except.ok p = .ok (p.1, (c.seek (c.index + p.1.length)).rest)
      rw [hd]

theorem length_rest_of_readLine {line : List Token} (h : c.readLine = (.ok (some line), d)) :
    d.rest.length < c.rest.length := by
  have ho := c.readLine_outcome
  rw [h] at ho
  obtain ⟨hn, hr, -⟩ := ho
  obtain ⟨t, ts, hc⟩ := List.exists_cons_of_ne_nil hn
  rw [hc] at hr ⊢
  exact length_of_readLine hr

/-- Reads line after line until there is none, or one cannot be read. -/
def lines (c : Cursor) : Except Fault (List (List Token)) × Cursor :=
  match _h : c.readLine with
  | (.error e, d) => (.error e, d)
  | (.ok none, d) => (.ok [], d)
  | (.ok (some line), d) => (d.lines.1.map (line :: ·), d.lines.2)
termination_by c.rest.length
decreasing_by all_goals exact length_rest_of_readLine _h

theorem lines_eq (h : c.index ≤ c.size) :
    c.lines = (match (readLines c.rest).2 with
      | some e => .error e
      | none => .ok (readLines c.rest).1, c.seek c.size) := by
  fun_induction lines c with
  | case1 c e d hl =>
    have ho := c.readLine_outcome
    rw [hl] at ho
    obtain ⟨hn, hr, rfl⟩ := ho
    rw [readLines_of_error hn hr]
  | case2 c d hl =>
    have ho := c.readLine_outcome
    rw [hl] at ho
    obtain ⟨hn, hd⟩ := ho
    have hi : c.size = c.index := Nat.le_antisymm (List.drop_eq_nil_iff.1 hn) h
    rw [hd, hn, readLines, hi]
    rfl
  | case3 c line d hl ih =>
    have ho := c.readLine_outcome
    rw [hl] at ho
    obtain ⟨hn, hr, hd⟩ := ho
    have hi : d.index ≤ d.size := by
      have ha := congrArg List.length (append_of_readLine hr)
      rw [c.length_rest, List.length_append] at ha
      rw [hd]
      show c.index + line.length ≤ c.size
      omega
    have hs : d.seek d.size = c.seek c.size := by
      rw [hd]
      rfl
    rw [ih hi, readLines_of_readLine hn hr, hs]
    cases (readLines d.rest).2 <;> rfl

/-- Reading line after line, one comes to the end of the tokens, which are the lines put together,
none of them empty, or to an enclosure that is not closed. -/
theorem lines_partition (h : c.index ≤ c.size) :
    c.lines.2 = { c with index := c.size } ∧
      ((∃ lines, c.lines.1 = .ok lines ∧ lines.length ≤ c.size - c.index ∧
          (∀ line ∈ lines, line ≠ []) ∧ lines.flatten = c.tokens.drop c.index) ∨
        ∃ e, c.lines.1 = .error e ∧ Unclosed (c.tokens.drop c.index) e) := by
  rw [lines_eq h]
  refine ⟨rfl, ?_⟩
  cases hf : (readLines c.rest).2 with
  | some e => exact .inr ⟨e, rfl, unclosed_of_readLines hf⟩
  | none =>
    refine .inl ⟨_, rfl, ?_, fun _ ↦ ne_nil_of_mem_readLines, flatten_readLines hf⟩
    rw [← c.length_rest]
    exact length_readLines_le c.rest

/-- The second line is a conditional with its alternative, and the delimiter between them is in the
line. -/
theorem lines_partition_with_alternative :
    let c : Cursor := ⟨tokenize "a。もしbならばc。違うならd。e".toList 1, 1, [7]⟩
    c.index ≤ c.size ∧ c.lines.2 = ⟨c.tokens, 11, [7]⟩ ∧
      ∃ lines, c.lines.1 = .ok lines ∧ lines.length ≤ 10 ∧ (∀ line ∈ lines, line ≠ []) ∧
        lines.flatten = c.tokens.drop 1 := by
  intro c
  have hi : c.index ≤ c.size := by decide +kernel
  have hs : c.size = 11 := by decide +kernel
  have hp := lines_partition hi
  rw [hs] at hp
  obtain ⟨hc, hl | ⟨e, he, -⟩⟩ := hp
  · exact ⟨hi, hc, hl⟩
  · have hf : (readLines c.rest).2 = none := by decide +kernel
    simp [lines_eq hi, hf] at he

end Cursor

end Kotoba
