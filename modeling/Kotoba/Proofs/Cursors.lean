import Kotoba.Proofs.Excerpt
import Kotoba.Proofs.Termination

/-!
The positions of a cursor. Whatever is done with it, its position and the saved ones are positions
in the tokens it was made of. They are positions in the tokens that it holds as well, as long as it
is trimmed only when the saved ones fit what is left: trimming moves the position of the cursor but
not the saved ones.
-/

namespace Kotoba

namespace Cursor

inductive Action where
  | trim
  | save
  | restore
  | commit
  | readToken
  | peekToken
  | peekLast
  | readLine
  | peekLine
  | readRest
  | duplicate
  | matchPattern (p : Pattern)
deriving DecidableEq

/-- The cursor after an action. An action that only looks leaves it as it is, and so does asking for
a saved position if there is none. -/
def after (c : Cursor) : Action → Cursor
  | .trim => c.trim
  | .save => c.save
  | .restore => c.restore.toOption.getD c
  | .commit => c.commit
  | .readToken => c.readToken.2
  | .readLine => c.readLine.2
  | .readRest => c.readRest.2
  | .matchPattern p => (c.matchPattern p).2
  | .peekToken | .peekLast | .peekLine | .duplicate => c

def made (c : Cursor) : Action → List Cursor
  | .readLine | .peekLine =>
    match c.peekLine? with
    | .ok (some line) => [ofTokens line]
    | _ => []
  | .readRest => [ofTokens c.readRest.1]
  | .duplicate => [c]
  | .matchPattern p =>
    match (c.matchPattern p).1 with
    | .ok (some captures) => captures.map ofTokens
    | _ => []
  | _ => []

/-- A cursor that comes of one fresh on the tokens `ts`, through any actions of which trimming is
done only where it is `allowed`. -/
inductive Reachable (allowed : Cursor → Prop) (ts : List Token) : Cursor → Prop
  | fresh : Reachable allowed ts (ofTokens ts)
  | after {c : Cursor} (a : Action) : Reachable allowed ts c → (a = .trim → allowed c) →
      Reachable allowed ts (c.after a)
  | made {c d : Cursor} (a : Action) : Reachable allowed ts c → d ∈ c.made a →
      Reachable allowed ts d

/-- The position and the saved ones are at most `n`. -/
structure Within (n : Nat) (c : Cursor) : Prop where
  index : c.index ≤ n
  saved : ∀ i ∈ c.saved, i ≤ n

/-- The saved positions are no further than the tokens that trimming leaves. -/
def Fitting (c : Cursor) : Prop := ∀ i ∈ c.saved, i ≤ c.trim.size

instance (c : Cursor) : Decidable c.Fitting :=
  inferInstanceAs (Decidable (∀ i ∈ c.saved, i ≤ c.trim.size))

variable {n : Nat} {c : Cursor}

theorem within_ofTokens (n : Nat) (ts : List Token) : (ofTokens ts).Within n :=
  ⟨Nat.zero_le n, fun _ h ↦ nomatch h⟩

theorem size_trim_le (c : Cursor) : c.trim.size ≤ c.size := by
  obtain ⟨us, vs, h⟩ := Token.append_trim c.tokens
  have hl := congrArg List.length h
  simp only [List.length_append] at hl
  show (Token.trim c.tokens).length ≤ c.tokens.length
  omega

theorem index_trim_le (c : Cursor) : c.trim.index ≤ c.trim.size := Nat.min_le_right _ _

/-- Trimming keeps the positions of a cursor in its tokens just if the saved ones fit. -/
theorem within_trim_iff (c : Cursor) : c.trim.Within c.trim.size ↔ c.Fitting := by
  constructor
  · intro h
    exact h.saved
  · intro h
    exact ⟨c.index_trim_le, h⟩

theorem index_readToken_le (hi : c.index ≤ n) (hs : c.size ≤ n) : c.readToken.2.index ≤ n := by
  unfold readToken
  split
  · exact hi
  · next t ht =>
    obtain ⟨hl, -⟩ := List.getElem?_eq_some_iff.1 ht
    have hc : c.index < c.size := hl
    show c.index + 1 ≤ n
    omega

theorem index_readLine_le (hi : c.index ≤ n) (hs : c.size ≤ n) : c.readLine.2.index ≤ n := by
  match h : c.readLine.1 with
  | .ok (some line) =>
    have hl := (index_readLine h).2.2
    omega
  | .ok none =>
    unfold readLine at h ⊢
    split at h
    · cases h
    · exact hi
    · cases h
  | .error e =>
    unfold readLine at h ⊢
    split at h
    · exact hs
    · cases h
    · cases h

theorem index_matchPattern_le (p : Pattern) (hi : c.index ≤ n) (hs : c.size ≤ n) :
    (c.matchPattern p).2.index ≤ n := by
  unfold matchPattern
  split
  · exact hi
  · exact hi
  · next m _ =>
    show (if p = [] then c.index else c.size - m.rest.length) ≤ n
    split
    · exact hi
    · omega

theorem tokens_after {a : Action} (ha : a ≠ .trim) : (c.after a).tokens = c.tokens := by
  cases a with
  | trim => exact absurd rfl ha
  | restore =>
    simp only [after, restore]
    cases c.saved <;> rfl
  | readToken =>
    simp only [after, readToken]
    cases c.peekToken? <;> rfl
  | readLine =>
    simp only [after, readLine]
    split <;> rfl
  | matchPattern p =>
    simp only [after, matchPattern]
    split <;> rfl
  | _ => rfl

theorem size_after_le (c : Cursor) (a : Action) : (c.after a).size ≤ c.size := by
  by_cases ha : a = .trim
  · subst ha
    exact c.size_trim_le
  · exact Nat.le_of_eq (congrArg List.length (tokens_after ha))

/-- What an action saves is the position of the cursor, if anything. -/
theorem saved_after (c : Cursor) (a : Action) :
    ∀ i ∈ (c.after a).saved, i = c.index ∨ i ∈ c.saved := by
  intro i hi
  cases a with
  | save => exact List.mem_cons.1 hi
  | restore =>
    simp only [after, restore] at hi
    cases hs : c.saved with
    | nil => simp [hs, Except.toOption] at hi
    | cons j js =>
      simp only [hs, Except.toOption, Option.getD_some] at hi
      exact .inr (List.mem_cons_of_mem j hi)
  | commit => cases hi
  | readToken =>
    simp only [after, readToken] at hi
    split at hi <;> exact .inr hi
  | readLine =>
    simp only [after, readLine] at hi
    split at hi <;> exact .inr hi
  | matchPattern p =>
    simp only [after, matchPattern] at hi
    split at hi
    · exact .inr hi
    · exact .inr hi
    · cases hi
  | _ => exact .inr hi

theorem index_after_le (h : c.Within n) (hs : c.size ≤ n) (a : Action) :
    (c.after a).index ≤ n := by
  cases a with
  | trim => exact Nat.le_trans c.index_trim_le (Nat.le_trans c.size_trim_le hs)
  | restore =>
    simp only [after, restore]
    cases hs : c.saved with
    | nil => exact h.index
    | cons i is => exact h.saved i (by simp [hs])
  | readToken => exact index_readToken_le h.index hs
  | readLine => exact index_readLine_le h.index hs
  | readRest => exact hs
  | matchPattern p => exact index_matchPattern_le p h.index hs
  | _ => exact h.index

theorem Within.after (h : c.Within n) (hs : c.size ≤ n) (a : Action) : (c.after a).Within n := by
  refine ⟨index_after_le h hs a, ?_⟩
  intro i hi
  rcases c.saved_after a i hi with rfl | hi
  · exact h.index
  · exact h.saved i hi

theorem length_rest_le (c : Cursor) : c.rest.length ≤ c.size := by
  have hl : c.rest.length = c.size - c.index := List.length_drop
  omega

theorem eq_or_fresh_of_mem_made {d : Cursor} {a : Action} (h : d ∈ c.made a) :
    d = c ∨ ∃ us, d = ofTokens us ∧ us.length ≤ c.size := by
  have hline (h : d ∈ c.made .peekLine) : ∃ us, d = ofTokens us ∧ us.length ≤ c.size := by
    simp only [made, peekLine?] at h
    split at h
    · next line hl =>
      split at hl
      · cases hl
      · match hr : Kotoba.readLine [] c.rest with
        | .error e => simp [hr, Except.map] at hl
        | .ok (line', rest) =>
          simp only [hr, Except.map, Except.ok.injEq, Option.some.injEq] at hl
          subst hl
          refine ⟨line', List.mem_singleton.1 h, ?_⟩
          exact Nat.le_trans (infix_of_readLine hr).1.length_le c.length_rest_le
    · cases h
  cases a with
  | readLine => exact .inr (hline h)
  | peekLine => exact .inr (hline h)
  | readRest => exact .inr ⟨c.rest, List.mem_singleton.1 h, c.length_rest_le⟩
  | duplicate => exact .inl (List.mem_singleton.1 h)
  | matchPattern p =>
    simp only [made, matchPattern] at h
    match hr : p.run c.rest with
    | .error e => simp [hr] at h
    | .ok none => simp [hr] at h
    | .ok (some m) =>
      simp only [hr, List.mem_map] at h
      obtain ⟨part, hp, rfl⟩ := h
      refine .inr ⟨part, rfl, ?_⟩
      exact Nat.le_trans (Pattern.infix_of_run hr part hp).length_le c.length_rest_le
  | _ => cases h

/-- However a cursor comes of one fresh on the tokens `ts`, its positions are positions in `ts`.
They are positions in its own tokens if no trimming leaves saved ones behind. -/
theorem within_of_reachable {allowed : Cursor → Prop} {ts : List Token}
    (h : Reachable allowed ts c) :
    c.size ≤ ts.length ∧ c.Within ts.length ∧
      ((∀ d, allowed d → d.Fitting) → c.Within c.size) := by
  induction h with
  | fresh => exact ⟨Nat.le_refl _, within_ofTokens _ ts, fun _ ↦ within_ofTokens _ ts⟩
  | @after c a _ ha ih =>
    obtain ⟨hs, hw, hf⟩ := ih
    refine ⟨Nat.le_trans (c.size_after_le a) hs, hw.after hs a, fun hfit ↦ ?_⟩
    by_cases ht : a = .trim
    · subst ht
      exact c.within_trim_iff.2 (hfit c (ha rfl))
    · have he : (c.after a).size = c.size := congrArg List.length (tokens_after ht)
      rw [he]
      exact (hf hfit).after (Nat.le_refl _) a
  | @made c d a _ hd ih =>
    obtain ⟨hs, hw, hf⟩ := ih
    rcases eq_or_fresh_of_mem_made hd with rfl | ⟨us, rfl, hl⟩
    · exact ⟨hs, hw, hf⟩
    · exact ⟨Nat.le_trans hl hs, within_ofTokens _ us, fun _ ↦ within_ofTokens _ us⟩

/-- The position saved behind the delimiter in front is one of the two that a cursor trimmed to one
token has. -/
theorem within_of_reachable_with_saved :
    let ts := tokenize "\na\n".toList 1
    let c := [.readToken, .save, .readRest, .trim].foldl after (ofTokens ts)
    Reachable Fitting ts c ∧ c = ⟨[⟨['a'], 2⟩], 1, [1]⟩ ∧ c.Within c.size := by
  intro ts c
  have hf : (((ofTokens ts).after .readToken |>.after .save).after .readRest).Fitting := by
    decide +kernel
  have h : Reachable Fitting ts c := by
    refine .after .trim ?_ fun _ ↦ hf
    refine .after .readRest ?_ nofun
    refine .after .save ?_ nofun
    exact .after .readToken .fresh nofun
  exact ⟨h, by decide +kernel, (within_of_reachable h).2.2 fun _ hd ↦ hd⟩

/-- A position saved behind the last token is left behind when that token is trimmed off. -/
theorem saved_left_behind :
    ¬ ∀ (ts : List Token) (c : Cursor), Reachable (fun _ ↦ True) ts c → c.Within c.size := by
  intro h
  let ts : List Token := [⟨['\n'], 1⟩]
  have hr : Reachable (fun _ ↦ True) ts ⟨[], 0, [1]⟩ :=
    .after .trim (.after .save (.after .readToken .fresh nofun) nofun) fun _ ↦ trivial
  have hs := (h ts _ hr).saved 1 List.mem_cons_self
  exact absurd hs (by decide)

end Cursor

end Kotoba
