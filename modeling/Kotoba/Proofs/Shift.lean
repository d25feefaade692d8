import Kotoba.Interpreter

/-!
Reading does not depend on where in a script the tokens stand: tokens further down are read in the
same way, with the lines of what is read moved by as much.
-/

namespace Kotoba

/-- What names lines of a script. -/
class Located (α : Type) where
  /-- The same, `n` lines further down. -/
  shift : Int → α → α

export Located (shift)

section Instances

variable {α β : Type} [Located α] [Located β]

instance : Located Token := ⟨fun n t ↦ { t with line := t.line + n }⟩

instance : Located Frame := ⟨fun n f ↦ { f with line := f.line + n }⟩

instance : Located Fault where
  shift n
    | .complaint cause first last => .complaint cause (first.map (· + n)) (last.map (· + n))
    | e => e

instance : Located (List α) := ⟨fun n ↦ List.map (shift n)⟩

instance : Located (Option α) := ⟨fun n ↦ Option.map (shift n)⟩

instance : Located (α × β) := ⟨fun n p ↦ (shift n p.1, shift n p.2)⟩

instance : Located (Except Fault α) where
  shift n
    | .ok a => .ok (shift n a)
    | .error e => .error (shift n e)

instance : Located Match := ⟨fun n m ↦ ⟨shift n m.captures, shift n m.rest⟩⟩

instance : Located Clause where
  shift n
    | .conditional condition consequent alternative =>
      .conditional (shift n condition) (shift n consequent) (shift n alternative)
    | .repetition target count => .repetition (shift n target) (shift n count)
    | .binding name value => .binding (shift n name) (shift n value)
    | .block body => .block (shift n body)
    | .phrase => .phrase

instance : Located Cursor := ⟨fun n c ↦ { c with tokens := shift n c.tokens }⟩

variable (n : Int)

@[simp]
theorem shift_nil : shift n ([] : List α) = [] := rfl

@[simp]
theorem shift_cons (a : α) (as : List α) : shift n (a :: as) = shift n a :: shift n as := rfl

@[simp]
theorem shift_none : shift n (none : Option α) = none := rfl

@[simp]
theorem shift_some (a : α) : shift n (some a) = some (shift n a) := rfl

@[simp]
theorem shift_mk (a : α) (b : β) : shift n (a, b) = (shift n a, shift n b) := rfl

@[simp]
theorem shift_ok (a : α) : shift n (Except.ok a : Except Fault α) = .ok (shift n a) := rfl

theorem shift_ite (p : Prop) [Decidable p] (a b : α) :
    shift n (if p then a else b) = if p then shift n a else shift n b := apply_ite (shift n) p a b

theorem shift_list_eq_nil {as : List α} : shift n as = [] ↔ as = [] := List.map_eq_nil_iff

theorem length_shift (as : List α) : (shift n as).length = as.length := List.length_map _

theorem head?_shift (as : List α) : (shift n as).head? = as.head?.map (shift n) := List.head?_map

theorem getLast?_shift (as : List α) : (shift n as).getLast? = as.getLast?.map (shift n) :=
  List.getLast?_map

end Instances

variable (n : Int)

@[simp]
theorem text_shift (t : Token) : (shift n t).text = t.text := rfl

@[simp]
theorem isA_shift (t : Token) (k : WordClass) : (shift n t).isA k = t.isA k := rfl

theorem any_isA_shift (o : Option Token) (k : WordClass) :
    (o.map (shift n)).any (·.isA k) = o.any (·.isA k) := by
  cases o <;> rfl

namespace Token

@[simp]
theorem render_shift (ts : List Token) : render (shift n ts) = render ts :=
  List.flatMap_map _ _ ts

@[simp]
theorem spaced_shift (ts : List Token) : spaced (shift n ts) = spaced ts := by
  show Text.join [' '] ((ts.map (shift n)).map text) = Text.join [' '] (ts.map text)
  rw [List.map_map]
  rfl

theorem firstLine?_shift (ts : List Token) :
    firstLine? (shift n ts) = (firstLine? ts).map (· + n) := by
  rw [firstLine?, firstLine?, head?_shift, Option.map_map, Option.map_map]
  rfl

theorem lastLine?_shift (ts : List Token) :
    lastLine? (shift n ts) = (lastLine? ts).map (· + n) := by
  rw [lastLine?, lastLine?, getLast?_shift, Option.map_map, Option.map_map]
  rfl

theorem number_shift (line : Int) (ws : List Text) :
    number (line + n) ws = shift n (number line ws) := by
  induction ws generalizing line with
  | nil => rfl
  | cons w ws ih =>
    rw [number, number, shift_cons, ← ih]
    congr 2
    split <;> omega

theorem dropDelimiters_shift (ts : List Token) :
    dropDelimiters (shift n ts) = shift n (dropDelimiters ts) := List.dropWhile_map ..

theorem trim_shift (ts : List Token) : trim (shift n ts) = shift n (trim ts) := by
  have hr (us : List Token) : (shift n us).reverse = shift n us.reverse := List.map_reverse.symm
  rw [trim, trim, dropDelimiters_shift, hr, dropDelimiters_shift, hr]

theorem allDelimiters_shift (ts : List Token) :
    allDelimiters (shift n ts) = allDelimiters ts := List.all_map

end Token

theorem tokenize_shift (t : Text) (line : Int) :
    tokenize t (line + n) = shift n (tokenize t line) := Token.number_shift n line _

theorem Fault.onTokens_shift (cause : Complaint) (ts : List Token) :
    Fault.onTokens cause (shift n ts) = shift n (Fault.onTokens cause ts) := by
  rw [Fault.onTokens, Token.firstLine?_shift, Token.lastLine?_shift]
  rfl

namespace Frame

theorem opened?_shift (t : Token) : opened? (shift n t) = shift n (opened? t) := by
  simp only [opened?, isA_shift, shift_ite]
  rfl

theorem step_shift (fs : List Frame) (t : Token) :
    step (shift n fs) (shift n t) = shift n (step fs t) := by
  cases fs with
  | nil =>
    show (opened? (shift n t)).toList = shift n (opened? t).toList
    rw [opened?_shift]
    cases opened? t <;> rfl
  | cons f fs =>
    have hw : (shift n f).waiting = f.waiting := rfl
    simp only [shift_cons, step, hw, isA_shift, opened?_shift, shift_ite]
    split
    · rfl
    · cases opened? t with
      | some g => rfl
      | none => cases f.waiting <;> simp only [shift_none, shift_ite] <;> rfl

theorem fault?_shift (fs : List Frame) : fault? (shift n fs) = shift n (fault? fs) := by
  induction fs with
  | nil => rfl
  | cons f fs ih =>
    unfold fault? at ih ⊢
    rw [shift_cons, List.findSome?_cons, List.findSome?_cons, ih]
    rcases f with ⟨waiting, line⟩
    cases waiting <;> rfl

end Frame

theorem readUntil_shift (words : List Text) (fs : List Frame) (ts : List Token) :
    readUntil words (shift n fs) (shift n ts) = shift n (readUntil words fs ts) := by
  induction ts generalizing fs with
  | nil =>
    rw [shift_nil, readUntil, readUntil, Frame.fault?_shift]
    cases Frame.fault? fs <;> rfl
  | cons t ts ih =>
    have ho : shift n (Frame.opened? t) = none ↔ Frame.opened? t = none := Option.map_eq_none_iff
    rw [shift_cons, readUntil, readUntil, Frame.step_shift, ih, Frame.opened?_shift]
    simp only [shift_list_eq_nil, ho, text_shift]
    split
    · rfl
    · match readUntil words (Frame.step fs t) ts with
      | .error e => rfl
      | .ok none => rfl
      | .ok (some p) => rfl

theorem readLine_shift (fs : List Frame) (ts : List Token) :
    readLine (shift n fs) (shift n ts) = shift n (readLine fs ts) := by
  induction ts generalizing fs with
  | nil =>
    rw [shift_nil, readLine, readLine, Frame.fault?_shift]
    cases Frame.fault? fs <;> rfl
  | cons t ts ih =>
    rw [shift_cons, readLine, readLine, Frame.step_shift, ih, head?_shift]
    simp only [shift_list_eq_nil, isA_shift, any_isA_shift]
    split
    · rfl
    · cases readLine (Frame.step fs t) ts <;> rfl

theorem Pattern.run_shift (p : Pattern) (ts : List Token) :
    p.run (shift n ts) = shift n (p.run ts) := by
  fun_induction Pattern.run p ts with
  | case1 ts => rfl
  | case2 ts => rfl
  | case3 => rfl
  | case4 words steps ts e hr =>
    rw [Pattern.run, ← shift_nil, readUntil_shift, hr]
    rfl
  | case5 words steps ts hr =>
    rw [Pattern.run, ← shift_nil, readUntil_shift, hr]
    rfl
  | case6 words steps ts taken rest hr ih =>
    rw [Pattern.run, ← shift_nil, readUntil_shift, hr]
    simp only [shift_ok, shift_some, shift_mk, ih]
    match Pattern.run steps rest with
    | .error e => rfl
    | .ok none => rfl
    | .ok (some m) => rfl
  | case7 => rfl
  | case8 words steps t ts hw ih =>
    rw [shift_cons, Pattern.run, text_shift, if_pos hw, ih]
  | case9 words steps t ts hw =>
    rw [shift_cons, Pattern.run, text_shift, if_neg hw]
    rfl

namespace Form

/-- The form says the same of captures further down. -/
def Equivariant (f : Form) : Prop :=
  ∀ (n : Int) (captures : List (List Token)),
    f.build (shift n captures) = shift n (f.build captures)

theorem equivariant_of_mem_forms {source rest : List Token} {f : Form}
    (h : f ∈ (Clause.forms source rest).1) : f.Equivariant := by
  have hb : f.build ∈ [conditionalOf, repetitionOf, countFirstOf, bindingOf, blockOf] := by
    unfold Clause.forms at h
    split at h
    · simp only [conditionals, List.mem_cons, List.not_mem_nil, or_false] at h
      rcases h with rfl | rfl | rfl | rfl <;> simp
    · split at h
      · simp only [repetitions, List.mem_cons, List.not_mem_nil, or_false] at h
        rcases h with rfl | rfl <;> simp
      · simp only [others, List.mem_cons, List.not_mem_nil, or_false] at h
        rcases h with rfl | rfl <;> simp
  intro n captures
  simp only [List.mem_cons, List.not_mem_nil, or_false] at hb
  -- The builders tell captures apart by their number alone.
  rcases captures with _ | ⟨a, _ | ⟨b, _ | ⟨c, _ | ⟨d, captures⟩⟩⟩⟩ <;>
    rcases hb with hb | hb | hb | hb | hb <;> rw [hb] <;> rfl

theorem first?_shift {fs : List Form} (hf : ∀ f ∈ fs, f.Equivariant) (ts : List Token) :
    first? fs (shift n ts) = shift n (first? fs ts) := by
  induction fs with
  | nil => rfl
  | cons f fs ih =>
    rw [first?, first?, Pattern.run_shift]
    cases f.pattern.run ts with
    | error e => rfl
    | ok o =>
      cases o with
      | none => exact ih fun g hg ↦ hf g (List.mem_cons_of_mem f hg)
      | some m =>
        have hb := hf f List.mem_cons_self n m.captures
        simp only [shift_ok, shift_some, shift_mk, ← hb]
        rfl

end Form

namespace Clause

theorem forms_shift (source rest : List Token) :
    forms (shift n source) (shift n rest) = forms source rest := by
  simp only [forms, head?_shift, getLast?_shift, any_isA_shift]

theorem read_shift (source rest : List Token) :
    read (shift n source) (shift n rest) = shift n (read source rest) := by
  rw [read, read, forms_shift, Form.first?_shift n fun _ ↦ Form.equivariant_of_mem_forms]
  match Form.first? (forms source rest).1 rest with
  | .error e => rfl
  | .ok (some r) => rfl
  | .ok none =>
    simp only [shift_ok, shift_none, Token.spaced_shift, Fault.onTokens_shift]
    split <;> rfl

end Clause

namespace Cursor

theorem ofTokens_shift (ts : List Token) : ofTokens (shift n ts) = shift n (ofTokens ts) := rfl

theorem tokens_shift (c : Cursor) : (shift n c).tokens = shift n c.tokens := rfl

theorem size_shift (c : Cursor) : (shift n c).size = c.size := length_shift n c.tokens

theorem trim_shift (c : Cursor) : (shift n c).trim = shift n c.trim := by
  simp only [trim, size_shift, tokens_shift, Token.dropDelimiters_shift, Token.trim_shift,
    length_shift]
  rfl

theorem rest_shift (c : Cursor) : (shift n c).rest = shift n c.rest := List.map_drop.symm

theorem isBlank_shift (c : Cursor) : (shift n c).isBlank = c.isBlank := by
  show ((shift n c).size ≤ c.index || Token.allDelimiters (shift n c.tokens)) = _
  rw [size_shift, Token.allDelimiters_shift]
  rfl

end Cursor

/-- The nouns of a sentence further down stand further down too. -/
theorem Statement.nounTokens_shift {source : List Token} (h : source ≠ []) (noun : Text) :
    nounTokens (shift n source) noun = shift n (nounTokens source noun) := by
  obtain ⟨t, ts, rfl⟩ := List.exists_cons_of_ne_nil h
  exact tokenize_shift n noun t.line

end Kotoba
