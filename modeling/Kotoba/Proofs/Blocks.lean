import Kotoba.Proofs.Enclosures
import Kotoba.Proofs.Journal
import Kotoba.Proofs.Sentences

/-!
A block around a whole script changes nothing. The script in brackets is one line, that line is a
statement of its own, and of all forms only the block fits it; then its lines are those of the
script, on the lines where they were.
-/

namespace Kotoba

theorem Frame.opened?_of_blockOpen {t : Token} (h : t.isA .blockOpen = true) :
    opened? t = some ⟨.block, t.line⟩ := by
  have hq : t.isA .quoteOpen = false := Token.isA_eq_false h (by decide)
  simp [opened?, hq, h]

/-- The first and the last token are the marks of a block that holds all tokens between. -/
structure Bracketed (opening : Token) (body : List Token) (closing : Token) : Prop where
  opens : opening.isA .blockOpen = true
  closes : closing.isA .blockClose = true
  readClosed_eq :
    readClosed [⟨.block, opening.line⟩] (body ++ [closing]) = .ok (body ++ [closing], [])

namespace Bracketed

variable {opening closing : Token} {body : List Token}

theorem trimmed (h : Bracketed opening body closing) :
    Token.Trimmed (opening :: (body ++ [closing])) := by
  refine ⟨⟨opening, rfl, Token.isA_eq_false h.opens (by decide)⟩, closing, ?_, ?_⟩
  · rw [← List.cons_append, List.getLast?_concat]
  · exact Token.isA_eq_false h.closes (by decide)

theorem readLine_eq (h : Bracketed opening body closing) :
    readLine [] (opening :: (body ++ [closing])) = .ok (opening :: (body ++ [closing]), []) := by
  have hc : closing.isA .delimiter = false := Token.isA_eq_false h.closes (by decide)
  rw [readLine_enclosure (Frame.opened?_of_blockOpen h.opens) h.readClosed_eq (by simp [hc])]
  simp [readLine, Frame.fault?, Except.map]

theorem readUntil_eq (h : Bracketed opening body closing) (words : List Text) :
    readUntil words [] (opening :: (body ++ [closing])) = .ok none := by
  rw [readUntil_enclosure words (Frame.opened?_of_blockOpen h.opens) h.readClosed_eq]
  rfl

theorem readUntil_body_eq (h : Bracketed opening body closing) :
    readUntil WordClass.blockClose.words [] (body ++ [closing]) = .ok (some (body, [])) := by
  have hb : readClosed ([] ++ [⟨.block, opening.line⟩]) (body ++ [closing]) =
      .ok (body ++ [closing], []) := h.readClosed_eq
  obtain ⟨body', closing', he, -, hr⟩ := readUntil_of_block rfl hb
  obtain ⟨rfl, -⟩ := List.append_inj' he rfl
  exact hr

theorem clause_eq (h : Bracketed opening body closing) :
    Clause.read (opening :: (body ++ [closing])) (opening :: (body ++ [closing])) =
      .ok (.block body, []) := by
  have hi : opening.isA .ifMark = false := Token.isA_eq_false h.opens (by decide)
  have hl : closing.isA .loopMark = false := Token.isA_eq_false h.closes (by decide)
  have hf : Clause.forms (opening :: (body ++ [closing])) (opening :: (body ++ [closing])) =
      (Form.others, false) :=
    Clause.forms_of_any hi (Token.any_getLast?_append hl rfl (opening :: body))
  have ho : WordClass.blockOpen.words.contains opening.text = true := h.opens
  rw [Clause.read, hf]
  simp only [Form.others, Form.first?, Form.steps, List.map_cons, List.map_nil, Option.elim,
    Step.ofClass, Pattern.run, h.readUntil_eq, ho, if_true, h.readUntil_body_eq]
  rfl

/-- The lines of the block run as they would without it. -/
theorem agrees_runTokens (h : Bracketed opening body closing) (c : Context) :
    Run.Agrees c (runTokens body c) (runTokens (opening :: (body ++ [closing])) c) := by
  let ts := opening :: (body ++ [closing])
  let lines := Run.ofLines c.functions body .empty
  have hr : (Task.clause ts ts).run c.functions = lines := by
    simp only [Task.run, ts, h.clause_eq]
    rfl
  have hd : lines (c.enter ts) = _ := Run.detached_ofLines c.functions body .empty
    (c.note (.traced (.statement ts))) { c with statement := some ts }
  have ha : Run.Agrees c (lines c) (lines (c.note (.traced (.statement ts)))) :=
    (Run.memoryless_ofLines c.functions body .empty).agrees_note c _
  rw [runTokens_of_line h.trimmed h.readLine_eq, Run.ofTokens_of_trimmed c.functions h.trimmed, hr,
    hd]
  exact ha.exit.exit

end Bracketed

theorem tokenize_brackets (s : Text) (line : Int) :
    tokenize ('(' :: s ++ [')']) line =
      ⟨['('], line⟩ :: (tokenize s line ++ [⟨[')'], line + s.count '\n'⟩]) := by
  have h : tokenize ('(' :: (s ++ [')'])) line = _ :=
    tokenize_enclosed (by decide) (by decide) s [] line
  rwa [tokenize_nil] at h

/-- A script in brackets gives the same value or fails alike, and binds and does the same as the
script itself. -/
theorem runScript_block {s : Text} (h : OneEnclosure (tokenize ('(' :: s ++ [')']) 1))
    (c : Context) :
    let r := runScript s c
    let b := runScript ('(' :: s ++ [')']) c
    Run.value? b = Run.value? r ∧ Run.fault? b = Run.fault? r ∧
      (Run.context b).events c = (Run.context r).events c ∧
      (Run.context b).scope = (Run.context r).scope := by
  intro r b
  rw [tokenize_brackets] at h
  obtain ⟨f, hf, hc⟩ := h.readClosed_eq
  have hb : Bracketed ⟨['('], 1⟩ (tokenize s 1) ⟨[')'], 1 + s.count '\n'⟩ := by
    refine ⟨rfl, rfl, ?_⟩
    rw [Frame.opened?_of_blockOpen rfl] at hf
    cases hf
    exact hc
  have ha := hb.agrees_runTokens c
  rw [← tokenize_brackets] at ha
  exact ⟨ha.value, ha.fault, ha.events, ha.scope⟩

/-- What is bound and shown before a fault on the third line, and the fault, are those of the
bracketed script. -/
theorem runScript_block_fault_inside :
    let s : Text := "aを「)(」とする\naをコンソールに表示する\nb".toList
    let r := runScript ('(' :: s ++ [')']) Context.standard
    OneEnclosure (tokenize ('(' :: s ++ [')']) 1) ∧
      Run.fault? r = some (.complaint (.malformed ['b']) (some 3) (some 3)) ∧
      (Run.context r).events Context.standard = [.called .console (.text [')', '('])] ∧
      (Run.context r).scope.get? ['a'] = some (.text [')', '(']) := by
  intro s r
  have h : OneEnclosure (tokenize ('(' :: s ++ [')']) 1) := by decide +kernel
  obtain ⟨-, hf, he, hs⟩ := runScript_block h Context.standard
  refine ⟨h, hf.trans ?_, he.trans ?_, (congrArg (Bindings.get? · ['a']) hs).trans ?_⟩
  · decide +kernel
  · decide +kernel
  · decide +kernel

end Kotoba
