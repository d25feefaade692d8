import Kotoba.Cursor

/-!
The clauses of the language. A conditional is known by its first word and a repetition by its last
one, and either must then be well formed; bindings and blocks are tried for; all else is a phrase.
-/

namespace Kotoba

inductive Clause where
  | conditional (condition consequent : List Token) (alternative : Option (List Token))
  | repetition (target count : List Token)
  | binding (name value : List Token)
  | block (body : List Token)
  | phrase
deriving DecidableEq, Repr

namespace Clause

def parts : Clause → List (List Token)
  | conditional c t none => [c, t]
  | conditional c t (some e) => [c, t, e]
  | repetition target count => [target, count]
  | binding name value => [name, value]
  | block body => [body]
  | phrase => []

end Clause

/-- A way to write a clause, and what its captures mean. -/
structure Form where
  pattern : Pattern
  build : List (List Token) → Clause

namespace Form

/-- The steps for a row of classes with a capture wherever `none` stands. -/
def steps (row : List (Option WordClass)) : Pattern :=
  row.map fun k ↦ k.elim .capture Step.ofClass

def conditionalOf : List (List Token) → Clause
  | [c, t] => .conditional c t none
  | [c, t, e] => .conditional c t (some e)
  | _ => .phrase

def repetitionOf : List (List Token) → Clause
  | [target, count] => .repetition target count
  | _ => .phrase

def countFirstOf : List (List Token) → Clause
  | [count, target] => .repetition target count
  | _ => .phrase

def bindingOf : List (List Token) → Clause
  | [name, value] => .binding name value
  | _ => .phrase

def blockOf : List (List Token) → Clause
  | [body] => .block body
  | _ => .phrase

def conditionals : List Form :=
  [⟨steps [some .ifMark, none, some .thenMark, none, some .elseMark, none, some .delimiter],
      conditionalOf⟩,
    ⟨steps [some .ifMark, none, some .thenMark, none, some .elseMark, none], conditionalOf⟩,
    ⟨steps [some .ifMark, none, some .thenMark, none, some .delimiter], conditionalOf⟩,
    ⟨steps [some .ifMark, none, some .thenMark, none], conditionalOf⟩]

def repetitions : List Form :=
  [⟨steps [none, some .loopTarget, none, some .loopCount, some .loopMark], repetitionOf⟩,
    ⟨steps [none, some .loopCount, none, some .loopTarget, some .loopMark], countFirstOf⟩]

/-- Bindings and blocks, which are phrases if they do not match. -/
def others : List Form :=
  [⟨steps [none, some .nameMark, none, some .valueMark], bindingOf⟩,
    ⟨steps [some .blockOpen, none, some .blockClose], blockOf⟩]

/-- The clause of the first form that matches, and the tokens after it. -/
def first? : List Form → List Token → Except Fault (Option (Clause × List Token))
  | [], _ => .ok none
  | f :: fs, ts =>
    match f.pattern.run ts with
    | .error e => .error e
    | .ok none => first? fs ts
    | .ok (some m) => .ok (some (f.build m.captures, m.rest))

/-- A form spends a word, and its clause has no parts but captures. -/
def Sound (f : Form) : Prop :=
  0 < f.pattern.wordCount ∧ (∀ words, .word words ∈ f.pattern → [] ∉ words) ∧
    ∀ captures, ∀ part ∈ (f.build captures).parts, part ∈ captures

theorem nil_notMem_of_mem_steps {row : List (Option WordClass)} {words : List Text}
    (h : .word words ∈ steps row) : [] ∉ words := by
  obtain ⟨k, _, hk⟩ := List.mem_map.1 h
  cases k with
  | none => cases hk
  | some k =>
    obtain rfl : k.words = words := Step.word.inj hk
    exact fun hn ↦ WordClass.ne_nil_of_mem_words hn rfl

theorem conditionalOf_parts (captures : List (List Token)) :
    ∀ part ∈ (conditionalOf captures).parts, part ∈ captures := by
  unfold conditionalOf
  split <;> simp [Clause.parts]

theorem repetitionOf_parts (captures : List (List Token)) :
    ∀ part ∈ (repetitionOf captures).parts, part ∈ captures := by
  unfold repetitionOf
  split <;> simp [Clause.parts]

theorem countFirstOf_parts (captures : List (List Token)) :
    ∀ part ∈ (countFirstOf captures).parts, part ∈ captures := by
  unfold countFirstOf
  split <;> simp [Clause.parts]

theorem bindingOf_parts (captures : List (List Token)) :
    ∀ part ∈ (bindingOf captures).parts, part ∈ captures := by
  unfold bindingOf
  split <;> simp [Clause.parts]

theorem blockOf_parts (captures : List (List Token)) :
    ∀ part ∈ (blockOf captures).parts, part ∈ captures := by
  unfold blockOf
  split <;> simp [Clause.parts]

theorem sound_of_mem_conditionals {f : Form} (h : f ∈ conditionals) : f.Sound := by
  simp only [conditionals, List.mem_cons, List.not_mem_nil, or_false] at h
  rcases h with rfl | rfl | rfl | rfl <;>
    exact ⟨by decide, fun _ ↦ nil_notMem_of_mem_steps, conditionalOf_parts⟩

theorem sound_of_mem_repetitions {f : Form} (h : f ∈ repetitions) : f.Sound := by
  simp only [repetitions, List.mem_cons, List.not_mem_nil, or_false] at h
  rcases h with rfl | rfl
  · exact ⟨by decide, fun _ ↦ nil_notMem_of_mem_steps, repetitionOf_parts⟩
  · exact ⟨by decide, fun _ ↦ nil_notMem_of_mem_steps, countFirstOf_parts⟩

theorem sound_of_mem_others {f : Form} (h : f ∈ others) : f.Sound := by
  simp only [others, List.mem_cons, List.not_mem_nil, or_false] at h
  rcases h with rfl | rfl
  · exact ⟨by decide, fun _ ↦ nil_notMem_of_mem_steps, bindingOf_parts⟩
  · exact ⟨by decide, fun _ ↦ nil_notMem_of_mem_steps, blockOf_parts⟩

theorem width_of_first? {fs : List Form} (hf : ∀ f ∈ fs, f.Sound) {ts rest : List Token}
    {clause : Clause} (h : first? fs ts = .ok (some (clause, rest))) {part : List Token}
    (hp : part ∈ clause.parts) : Token.width part < Token.width ts := by
  induction fs with
  | nil => simp [first?] at h
  | cons f fs ih =>
    unfold first? at h
    split at h
    · simp at h
    · exact ih (fun g hg ↦ hf g (by simp [hg])) h
    · next m hm =>
      simp only [Except.ok.injEq, Option.some.injEq, Prod.mk.injEq] at h
      obtain ⟨rfl, rfl⟩ := h
      obtain ⟨hw, hn, hb⟩ := hf f (by simp)
      have hr := Pattern.width_run hn hm
      have hs := Token.width_le_of_mem_flatten (hb _ _ hp)
      omega

end Form

namespace Clause

/-- The forms to try for a statement, and whether one of them has to match. -/
def forms (source rest : List Token) : List Form × Bool :=
  if rest.head?.any (·.isA .ifMark) then (Form.conditionals, true)
  else if source.getLast?.any (·.isA .loopMark) then (Form.repetitions, true)
  else (Form.others, false)

/-- Divides a statement of which `rest` is still to be read. -/
def read (source rest : List Token) : Except Fault (Clause × List Token) :=
  match Form.first? (forms source rest).1 rest with
  | .error e => .error e
  | .ok (some r) => .ok r
  | .ok none =>
    if (forms source rest).2 then .error (.onTokens (.malformed (Token.spaced source)) source)
    else .ok (.phrase, rest)

/-- Every part holds fewer characters than the statement. -/
theorem width_of_read {source rest after : List Token} {clause : Clause}
    (h : read source rest = .ok (clause, after)) {part : List Token} (hp : part ∈ clause.parts) :
    Token.width part < Token.width rest := by
  unfold read at h
  split at h
  · simp at h
  · next r hr =>
    obtain rfl := Except.ok.inj h
    refine Form.width_of_first? (fun f hf ↦ ?_) hr hp
    unfold forms at hf
    split at hf
    · exact Form.sound_of_mem_conditionals hf
    · split at hf
      · exact Form.sound_of_mem_repetitions hf
      · exact Form.sound_of_mem_others hf
  · split at h
    · simp at h
    · simp only [Except.ok.injEq, Prod.mk.injEq] at h
      obtain ⟨rfl, -⟩ := h
      simp [parts] at hp

end Clause

end Kotoba
