import Kotoba.Proofs.Excerpt
import Kotoba.Proofs.Faults
import Kotoba.Proofs.Sequencing

/-!
Where complaints are reported. An enclosure that is left open is reported at its opening word, all
else on the lines of a statement, and both are excerpts of the script. The statement around a script
does not matter: no line of the script that says something is missing, so it is never asked for.
-/

namespace Kotoba

/-- A complaint is made on lines of the script; other faults have no lines. -/
def Fault.Located (script : Text) : Fault → Prop
  | .complaint _ first last => ∃ a b : Int, first = some a ∧ last.or first = some b ∧
      1 ≤ a ∧ a ≤ b ∧ b ≤ 1 + script.count '\n'
  | _ => True

section

variable {script : Text}

theorem Fault.located_onTokens {ts : List Token} (hx : Token.Excerpt script ts) (hn : ts ≠ [])
    (cause : Complaint) : (Fault.onTokens cause ts).Located script := by
  obtain ⟨t, us, rfl⟩ := List.exists_cons_of_ne_nil hn
  have hl : (t :: us).getLast? = some ((t :: us).getLast hn) := List.getLast?_eq_some_getLast hn
  obtain ⟨-, h2, h3⟩ := hx.line_mem (List.getLast_mem hn)
  refine ⟨t.line, ((t :: us).getLast hn).line, rfl, ?_, (hx.line_mem List.mem_cons_self).1,
    h3 t.line rfl, h2⟩
  rw [Token.lastLine?, hl]
  rfl

theorem Frame.line_of_opened? {t : Token} {f : Frame} (h : opened? t = some f) :
    f.line = t.line := by
  rcases opened?_cases h with ⟨-, rfl⟩ | ⟨-, rfl⟩ | ⟨-, rfl⟩ <;> rfl

/-- A token closes the innermost enclosure, leaves it, carries a conditional on or opens another. -/
theorem Frame.step_cons_cases (f : Frame) (fs : List Frame) (t : Token) :
    step (f :: fs) t = fs ∨ step (f :: fs) t = f :: fs ∨
      step (f :: fs) t = ⟨.branch, f.line⟩ :: fs ∨
      ∃ g, opened? t = some g ∧ step (f :: fs) t = g :: f :: fs := by
  simp only [step]
  split
  · split
    · exact .inl rfl
    · exact .inr (.inl rfl)
  · cases ho : opened? t with
    | some g => exact .inr (.inr (.inr ⟨g, rfl, rfl⟩))
    | none =>
      cases f.waiting with
      | quotation => exact .inr (.inl rfl)
      | block => by_cases hb : t.isA .blockClose = true <;> simp [hb]
      | condition => by_cases hb : t.isA .thenMark = true <;> simp [hb]
      | branch => by_cases hb : t.isA .delimiter = true <;> simp [hb]

/-- An open enclosure was open before, is opened by the token, or is a conditional that it carries
on. -/
theorem Frame.mem_step {fs : List Frame} {t : Token} {g : Frame} (h : g ∈ step fs t) :
    g ∈ fs ∨ opened? t = some g ∨ ∃ f ∈ fs, g = ⟨.branch, f.line⟩ := by
  cases fs with
  | nil => exact .inr (.inl (Option.mem_toList.1 h))
  | cons f fs =>
    rcases step_cons_cases f fs t with hs | hs | hs | ⟨o, ho, hs⟩ <;> rw [hs] at h
    · exact .inl (List.mem_cons_of_mem f h)
    · exact .inl h
    · rcases List.mem_cons.1 h with rfl | h
      · exact .inr (.inr ⟨f, List.mem_cons_self, rfl⟩)
      · exact .inl (List.mem_cons_of_mem f h)
    · rcases List.mem_cons.1 h with rfl | h
      · exact .inr (.inl ho)
      · exact .inl h

/-- A statement of the script is being run. -/
def Context.Located (script : Text) (c : Context) : Prop :=
  ∃ source, c.statement = some source ∧ source ≠ [] ∧ Token.Excerpt script source

theorem Context.Located.extends {c d : Context} (hc : c.Located script) (h : c.Extends d) :
    d.Located script := by
  obtain ⟨source, hs, hx⟩ := hc
  exact ⟨source, h.statement.trans hs, hx⟩

end

namespace Run

/-- In a statement of the script, the run complains only on lines of the script. -/
def Locates (script : Text) {α : Type} (x : Run α) : Prop :=
  ∀ c : Context, c.Located script → ∀ e d, x c = .error e d → e.Located script

namespace Locates

variable {script : Text} {α β : Type}

theorem pure (a : α) : Locates script (Pure.pure a) := fun _ _ _ _ h ↦ nomatch h

theorem throw {e : Fault} (h : e.Located script) :
    Locates script (MonadExcept.throw e : Run α) := by
  intro c _ e' d he
  cases he
  exact h

theorem bind {x : Run α} {f : α → Run β} (hx : Locates script x) (he : Extending x)
    (hf : ∀ a, Locates script (f a)) : Locates script (x >>= f) := by
  intro c hc e d h
  have hd := he c
  rw [Run.bind_apply] at h
  cases hr : x c with
  | ok a c' =>
    rw [hr] at h hd
    exact hf a c' (hc.extends hd) e d h
  | error e' c' =>
    rw [hr] at h
    cases h
    exact hx c hc e d hr

theorem get_bind {f : Context → Run α}
    (hf : ∀ c : Context, c.Located script → Locates script (f c)) :
    Locates script (get >>= f) := fun c hc ↦ hf c hc c hc

theorem note (e : Effect) : Locates script (Run.note e) := fun _ _ _ _ h ↦ nomatch h

theorem complain (cause : Complaint) : Locates script (Run.complain cause : Run α) := by
  refine get_bind fun c hc ↦ throw ?_
  obtain ⟨source, hs, hn, hx⟩ := hc
  rw [hs]
  exact Fault.located_onTokens hx hn cause

theorem ofExcept {r : Except Fault α} (h : ∀ e, r = .error e → e.Located script) :
    Locates script (Run.ofExcept r) := by
  cases r with
  | ok a => exact pure a
  | error e => exact throw (h e rfl)

theorem passOn (failure : Option Text) : Locates script (Run.passOn failure) := by
  cases failure with
  | none => exact pure ()
  | some t => exact throw (e := .host t) trivial

end Locates

end Run

section

variable {script : Text}

namespace Statement

variable {source : List Token}

end Statement

end

/-- Halting with a complaint, the move makes it on lines of the script. -/
def Move.Located (script : Text) : Move → Prop
  | .halt r => ∀ e d, r = .error e d → e.Located script
  | _ => True

theorem Context.Located.enter {script : Text} {code : Cursor} (c : Context)
    (hx : Token.Excerpt script code.tokens) (hb : code.trim.isBlank = false) :
    (c.enter code.trim.tokens).Located script :=
  ⟨_, rfl, Cursor.tokens_ne_nil hb, hx.slice code.trim_slice⟩

end Kotoba
