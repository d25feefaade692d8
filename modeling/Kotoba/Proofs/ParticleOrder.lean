import Kotoba.Proofs.Arguments
import Kotoba.Proofs.Outcomes
import Kotoba.Proofs.Phrases

/-!
The order of the particles is free. In a sentence made of two nouns, each followed by a particle,
and the name of a function, no word stands across the borders between them; so the sentence is a
phrase, the function is the only one it names, and its pieces are the nouns and the particles.
Evaluating a noun only looks it up, so it does not matter which noun comes first.
-/

namespace Kotoba

namespace Text

/-- The word does not stand across the text `m`, wherever that is put. -/
def Divides (m word : Text) : Prop :=
  ∀ t u : Text, word <:+: t ++ m ++ u ↔ word <:+: t ∨ word <:+: u

theorem divides_cons {k : Char} {l word : Text} (hw : word ≠ []) (hk : k ∉ word)
    (hl : ∀ c ∈ l, word.head? ≠ some c) : Divides (k :: l) word := by
  intro t u
  have hd : ∀ c ∈ [k], c ∉ word := by
    intro c hc
    rwa [List.mem_singleton.1 hc]
  have hu : word <:+: l ++ u ↔ word <:+: u := by
    induction l with
    | nil => rfl
    | cons c l ih =>
      obtain ⟨b, word, rfl⟩ := List.exists_cons_of_ne_nil hw
      have hp : ¬ b :: word <+: c :: (l ++ u) := by
        intro hp
        refine hl c List.mem_cons_self ?_
        rw [(List.cons_prefix_cons.1 hp).1]
        rfl
      rw [List.cons_append, List.infix_cons_iff, or_iff_right hp]
      exact ih fun c' hc ↦ hl c' (List.mem_cons_of_mem c hc)
  have he : t ++ k :: l ++ u = t ++ [k] ++ (l ++ u) := by simp
  rw [he, infix_append_iff_of_disjoint (List.cons_ne_nil k []) hd, hu]

theorem not_infix_replicate {word : Text} {k : Char} (hw : word ≠ []) (hk : k ∉ word) (n : Nat) :
    ¬ word <:+: List.replicate n k := by
  intro h
  obtain ⟨c, word, rfl⟩ := List.exists_cons_of_ne_nil hw
  have hc : c = k := List.eq_of_mem_replicate (h.subset List.mem_cons_self)
  exact hk (hc ▸ List.mem_cons_self)

end Text

theorem Bindings.sorted_pair_comm {p q : Text × Value} (h : p.1 ≠ q.1) :
    sorted [p, q] = sorted [q, p] := by
  simp only [sorted, List.foldr_cons, List.foldr_nil, insertSorted]
  by_cases hp : p.1 < q.1
  · have hq : ¬ q.1 < p.1 := List.lt_asymm hp
    rw [if_neg hq, if_pos hp]
  · by_cases hq : q.1 < p.1
    · rw [if_pos hq, if_neg hp]
    · exact absurd (List.le_antisymm hq hp) h

theorem Statement.interchangeable_finishCall (source source' : List Token) (f : Builtin)
    {p q : Text × Value} (h : p.1 ≠ q.1) :
    Run.Interchangeable (finishCall source f true [p, q]) (finishCall source' f true [q, p]) := by
  have hp {p q : Text × Value} (h : p.1 ≠ q.1) : Bindings.ofPairs [p, q] = [p, q] := by
    simp [Bindings.ofPairs, Bindings.set, h]
  unfold finishCall
  rw [hp h, hp h.symm, Bindings.sorted_pair_comm h]
  exact .bind (.traced _ _) fun _ ↦ Procedure.interchangeable_call _ _ _

theorem Statement.context_lookUp (source : List Token) (c : Context) :
    Run.context (lookUp source c) = c := by
  rw [lookUp_apply]
  cases c.scope.get? (Token.render source) with
  | some v => rfl
  | none =>
    cases Literal.value? (Token.render source) with
    | none => rfl
    | some r => cases r <;> rfl

theorem Statement.nounTokens_tokenize (t noun : Text) :
    nounTokens (tokenize t 1) noun = tokenize noun 1 := by
  have hl : (Token.firstLine? (tokenize t 1)).getD 1 = 1 := by
    unfold tokenize
    cases t.normalize.splitWords allWords <;> rfl
  rw [nounTokens, hl]

namespace Builtin

/-- A literal, or a word that has no structuring word in it, no particle of the function and no name
of a function. -/
inductive Noun (f : Builtin) : Text → Prop
  | quoted {s : Text} : '」' ∉ s → f.Noun s.quote
  | plain {t : Text} : t ≠ [] → t.normalize = t → (∀ w ∈ allWords, ¬ w <:+: t) →
      (∀ p ∈ f.particles, ¬ p <:+: t) → (∀ g ∈ standard, ¬ g.name <:+: t) → f.Noun t

/-- The words that matter for how a sentence is read. -/
def reserved : List Text := allWords ++ standard.map name

theorem of_mem_reserved : ∀ w ∈ reserved, w ≠ [] ∧ '\x00' ∉ w := by decide

theorem name_mem_reserved {g : Builtin} (hg : g ∈ standard) : g.name ∈ reserved :=
  List.mem_append_right _ (List.mem_map_of_mem hg)

theorem no_mark_of_mem_standard {f : Builtin} (hf : f ∈ standard) :
    '「' ∉ f.name ∧ ∀ p ∈ f.particles, '「' ∉ p := by
  have hs : ∀ f ∈ standard, '「' ∉ f.name ∧ ∀ p ∈ f.particles, '「' ∉ p := by decide
  exact hs f hf

/-- What makes a text a noun wherever it stands. -/
structure Inert (f : Builtin) (x : Text) : Prop where
  ne_nil : x ≠ []
  normal : x.normalize = x
  balanced : x.Balanced
  clear : ∀ w ∈ reserved, ¬ w <:+: x.mask
  piece : x.pieces f.particles = [x]
  notMem : x ∉ f.particles

theorem Noun.inert {f : Builtin} (hf : f ∈ standard) {x : Text} (h : f.Noun x) :
    f.Inert x.normalize := by
  cases h with
  | @quoted s hs =>
    have hn : '」' ∉ s.normalize := Text.not_mem_normalize (by decide) hs
    have hb : s.normalize.quote.Balanced := by
      have hl := Text.Balanced.literal List.not_mem_nil hn (.plain List.not_mem_nil)
      rwa [List.nil_append, List.append_nil] at hl
    rw [Text.normalize_quote]
    refine ⟨List.cons_ne_nil _ _, ?_, hb, ?_, ?_, ?_⟩
    · rw [Text.normalize_quote, Text.normalize_normalize]
    · intro w hw
      rw [Text.mask_quote hn]
      exact Text.not_infix_replicate (of_mem_reserved w hw).1 (of_mem_reserved w hw).2 _
    · exact Text.pieces_quote hn
    · intro hm
      exact (no_mark_of_mem_standard hf).2 _ hm List.mem_cons_self
  | plain hx hn hw hp hg =>
    have ho : '「' ∉ x := by
      intro hm
      obtain ⟨a, b, rfl⟩ := List.append_of_mem hm
      exact hw ['「'] (by decide) ⟨a, b, by simp⟩
    have hb : x.breakQuoted = none := Text.breakQuoted_of_not_mem ho
    rw [hn]
    refine ⟨hx, hn, .plain ho, ?_, ?_, ?_⟩
    · rw [Text.mask_of_none hb]
      intro w hm
      rcases List.mem_append.1 hm with hm | hm
      · exact hw w hm
      · obtain ⟨g, hgs, rfl⟩ := List.mem_map.1 hm
        exact hg g hgs
    · rw [Text.pieces_of_none hb, Text.splitWords_of_not_infix hp, Text.fragment_of_ne_nil hx]
    · intro hm
      exact hp x hm (List.infix_refl x)

namespace Inert

variable {f : Builtin} {x : Text} (h : f.Inert x)

include h

theorem simple : x.Simple := by
  intro w hw hi
  exact absurd hi (h.clear w (List.mem_append_left _ hw))

theorem find?_eq_none : find? standard x = none := by
  rw [find?_eq_none_iff]
  intro g hg
  cases ho : g.offset? x.mask with
  | none => rfl
  | some i => exact absurd (name_infix_of_offset? ho) (h.clear _ (name_mem_reserved hg))

/-- A noun by itself is looked up, and nothing else happens. -/
theorem looks (line : Int) : Run.Looks (Run.ofTokens standard (tokenize x line)) := by
  refine ⟨Run.interchangeable_ofTokens standard _, fun c ↦ ?_⟩
  have hr : Token.render (tokenize x line) = x := by rw [Token.render_tokenize, h.normal]
  have hu := h.simple.unstructured h.normal line
  have hn : tokenize x line ≠ [] := tokenize_ne_nil (h.normal.symm ▸ h.ne_nil) line
  rw [Run.ofTokens_phrase (hu.trimmed hn) (hu.clause_eq hn) (hr.symm ▸ h.find?_eq_none)]
  have ho := congrArg Prod.snd (Run.outcome_exit c
    (Statement.lookUp (tokenize x line) (c.enter (tokenize x line))))
  refine ho.trans ?_
  show (Run.context _).outward = c.outward
  rw [Statement.context_lookUp, Context.outward_enter]

end Inert

/-- No reserved word stands across a particle, but `を` is one itself. -/
theorem divides_of_mem_particles {f : Builtin} (hf : f ∈ standard) {p w : Text}
    (hp : p ∈ f.particles) (hw : w ∈ reserved) (hn : w ≠ ['を']) : p.Divides w := by
  have hs : ∀ f ∈ standard, ∀ p ∈ f.particles, ∀ w ∈ reserved, w ≠ ['を'] →
      p ≠ [] ∧ p.head?.all (!w.contains ·) ∧ p.tail.all (w.head? != some ·) := by decide
  obtain ⟨hne, hk, hl⟩ := hs f hf p hp w hw hn
  obtain ⟨k, l, rfl⟩ := List.exists_cons_of_ne_nil hne
  refine Text.divides_cons (of_mem_reserved w hw).1 (by simpa using hk) ?_
  intro c hc
  simpa using List.all_eq_true.1 hl c hc

theorem solitary_of_mem_particles {f : Builtin} (hf : f ∈ standard) {p : Text}
    (hp : p ∈ f.particles) : p.Solitary f.particles := by
  have hs : ∀ f ∈ standard, ∀ p ∈ f.particles, p ≠ [] ∧ p.head?.all (!p.tail.contains ·) := by
    decide
  obtain ⟨hne, hk⟩ := hs f hf p hp
  obtain ⟨k, l, rfl⟩ := List.exists_cons_of_ne_nil hne
  exact ⟨hp, ⟨k, l, rfl, by simpa using hk⟩, fun q hq hn ↦
    (separable_of_mem_standard hf).disjoint _ hp q hq hn.symm⟩

/-- Two nouns with the two particles of a function. -/
structure Wording (f : Builtin) (x u y v : Text) : Prop where
  standard : f ∈ standard
  particles : f.particles = [u, v] ∨ f.particles = [v, u]
  first : f.Inert x
  second : f.Inert y

/-- The sentence that calls the function on the nouns. -/
def sentence (f : Builtin) (x u y v : Text) : Text := x ++ u ++ (y ++ v ++ f.name)

theorem normalize_sentence {f : Builtin} (hf : f ∈ standard) {u v : Text} (hu : u ∈ f.particles)
    (hv : v ∈ f.particles) (x y : Text) :
    (f.sentence x u y v).normalize = f.sentence x.normalize u y.normalize v := by
  have hs : ∀ f ∈ standard, f.name.normalize = f.name ∧ ∀ p ∈ f.particles, p.normalize = p := by
    decide
  obtain ⟨hn, hp⟩ := hs f hf
  simp only [sentence, Text.normalize_append, hp u hu, hp v hv, hn]

namespace Wording

variable {f : Builtin} {x u y v : Text} (h : f.Wording x u y v)

include h

theorem swap : f.Wording y v x u := ⟨h.standard, h.particles.symm, h.second, h.first⟩

theorem mem : u ∈ f.particles := by
  rcases h.particles with hp | hp <;> simp [hp]

theorem ne : u ≠ v := by
  have hs : ∀ f ∈ Builtin.standard, f.particles.Nodup := by decide
  have hn := hs f h.standard
  rcases h.particles with hp | hp
  · simpa [hp] using hn
  · simpa [hp, eq_comm] using hn

theorem mask_eq : (f.sentence x u y v).mask = x.mask ++ u ++ (y.mask ++ v ++ f.name) := by
  obtain ⟨hn, hp⟩ := no_mark_of_mem_standard h.standard
  have hm {t : Text} (ho : '「' ∉ t) (r : Text) : (t ++ r).mask = t ++ r.mask := by
    rw [(Text.Balanced.plain ho).mask_append, Text.mask_of_none (Text.breakQuoted_of_not_mem ho)]
  rw [sentence, List.append_assoc, h.first.balanced.mask_append, hm (hp u h.mem),
    List.append_assoc y, h.second.balanced.mask_append, hm (hp v h.swap.mem),
    Text.mask_of_none (Text.breakQuoted_of_not_mem hn)]
  simp

theorem infix_name {w : Text} (hw : w ∈ reserved) (hn : w ≠ ['を'])
    (hi : w <:+: (f.sentence x u y v).mask) : w <:+: f.name := by
  rw [h.mask_eq, divides_of_mem_particles h.standard h.mem hw hn,
    divides_of_mem_particles h.standard h.swap.mem hw hn] at hi
  exact (hi.resolve_left (h.first.clear w hw)).resolve_left (h.second.clear w hw)

theorem simple : (f.sentence x u y v).Simple := by
  have hs : ∀ f ∈ Builtin.standard, ∀ w ∈ allWords, ¬ w <:+: f.name := by decide
  intro w hw hi
  by_contra hn
  exact hs f h.standard w hw (h.infix_name (List.mem_append_left _ hw) hn hi)

theorem normal : (f.sentence x u y v).normalize = f.sentence x u y v := by
  rw [normalize_sentence h.standard h.mem h.swap.mem, h.first.normal, h.second.normal]

theorem offset?_eq : f.offset? (f.sentence x u y v).mask = some (x ++ u ++ (y ++ v)).length := by
  have hs : ∀ f ∈ Builtin.standard, f.name ≠ ['を'] ∧
      ∀ p ∈ f.particles, p.all (!f.name.contains ·) := by decide
  obtain ⟨hn, hp⟩ := hs f h.standard
  have hvis := visible_of_mem_standard h.standard
  have hd : ∀ c ∈ v, c ∉ f.name := by
    intro c hc
    simpa using List.all_eq_true.1 (hp v h.swap.mem) c hc
  have hr := name_mem_reserved h.standard
  -- Before the last particle the name does not stand yet.
  have hb : Text.breakOn (x.mask ++ u ++ y.mask) f.name = none := by
    rw [Text.breakOn_eq_none_iff]
    intro hi
    have hd := divides_of_mem_particles h.standard h.mem hr hn x.mask y.mask
    exact (hd.1 hi).elim (h.first.clear _ hr) (h.second.clear _ hr)
  have he : (f.sentence x u y v).mask = x.mask ++ u ++ y.mask ++ v ++ f.name := by
    rw [h.mask_eq]
    simp
  have hl : (x.mask ++ u ++ y.mask ++ v).length = (x ++ u ++ (y ++ v)).length := by
    simp only [List.length_append, Text.length_mask]
    omega
  rw [offset?_eq_some_iff, he]
  constructor
  · rw [Text.find?, Text.breakOn_append_disjoint (hvis.particles v h.swap.mem).1 hd hb,
      Text.breakOn_self hvis.name.1]
    simp only [Option.map_some, List.append_nil, hl]
  · rw [← hl, List.take_left]
    intro p hm
    have huv : p = u ∨ p = v := by
      rcases h.particles with hp | hp <;> simpa [hp, or_comm] using hm
    rcases huv with rfl | rfl
    · exact ⟨x.mask, y.mask ++ v, by simp⟩
    · exact (List.suffix_append _ p).isInfix

/-- No other function is named, and the one that is has its particles before the name. -/
theorem find?_eq : find? Builtin.standard (f.sentence x u y v) = some f := by
  have hs : ∀ f ∈ Builtin.standard, f.particles.length = 2 → ∀ g ∈ Builtin.standard,
      g.name <:+: f.name → g = f := by decide
  have hn : ∀ g ∈ Builtin.standard, g.name ≠ ['を'] := by decide
  have ht : f.particles.length = 2 := by rcases h.particles with hp | hp <;> rw [hp] <;> rfl
  cases hg : find? Builtin.standard (f.sentence x u y v) with
  | none =>
    have hf := find?_eq_none_iff.1 hg f h.standard
    rw [h.offset?_eq] at hf
    cases hf
  | some g =>
    obtain ⟨i, ho, before, after, he, -⟩ := leads_of_find? hg
    have hm : g ∈ Builtin.standard := by simp [he]
    have hi := h.infix_name (name_mem_reserved hm) (hn g hm) (name_infix_of_offset? ho)
    rw [hs f h.standard ht g hm hi]

theorem region_eq : f.region (f.sentence x u y v) = x ++ u ++ (y ++ v) := by
  have hw : f.sentence x u y v = x ++ u ++ (y ++ v) ++ f.name := by simp [sentence]
  have hi := (offset?_eq_some_iff.1 h.offset?_eq).1
  rw [region, hi]
  simp only
  rw [hw, List.take_left]

theorem marking?_eq : f.marking? (f.sentence x u y v) = some ⟨[(u, x), (v, y)], true⟩ := by
  have ho := (no_mark_of_mem_standard h.standard).2
  have hn := (visible_of_mem_standard h.standard).nil_notMem
  have hp : Text.pieces (x ++ u ++ (y ++ v)) f.particles = [x, u, y, v] := by
    have hu := solitary_of_mem_particles h.standard h.mem
    have hv := solitary_of_mem_particles h.standard h.swap.mem
    have hy := h.second.balanced.pieces_append_word hv (ho v h.swap.mem) []
    rw [List.append_nil, Text.pieces_nil, h.second.piece] at hy
    rw [h.first.balanced.pieces_append_word hu (ho u h.mem), h.first.piece, hy]
    rfl
  rw [marking?, h.region_eq, Text.pieces?_eq hn, hp]
  simp [Marking.ofPieces, h.first.notMem, h.second.notMem, h.first.ne_nil, h.second.ne_nil, h.mem,
    h.swap.mem]

theorem runScript_eq {c : Context} (hc : c.functions = Builtin.standard) :
    runScript (f.sentence x u y v) c =
      Run.within (tokenize (f.sentence x u y v) 1)
        (Run.ofTokens Builtin.standard (tokenize x 1) >>= fun a ↦
          Run.ofTokens Builtin.standard (tokenize y 1) >>= fun b ↦
            Statement.finishCall (tokenize (f.sentence x u y v) 1) f true [(u, a), (v, b)]) c := by
  have hr : Token.render (tokenize (f.sentence x u y v) 1) = f.sentence x u y v := by
    rw [Token.render_tokenize, h.normal]
  have hu := h.simple.unstructured h.normal 1
  have hw : f.sentence x u y v ≠ [] := by simp [sentence, h.first.ne_nil]
  have hn : tokenize (f.sentence x u y v) 1 ≠ [] := tokenize_ne_nil (h.normal.symm ▸ hw) 1
  have hcall := Run.ofTokens_call (hu.trimmed hn) (hu.clause_eq hn) (hr.symm ▸ h.find?_eq)
    (hr.symm ▸ h.marking?_eq) c
  rw [Run.within_apply]
  refine (runTokens_of_line (hu.trimmed hn) hu.readLine_eq c).trans ?_
  rw [hc, hcall]
  simp only [Run.ofNouns_cons, Statement.nounTokens_tokenize]
  rfl

/-- The two ways in which a sentence can name its arguments come to the same. -/
theorem outcome_eq {c : Context} (hc : c.functions = Builtin.standard) :
    Run.outcome (runScript (f.sentence x u y v) c) =
      Run.outcome (runScript (f.sentence y v x u) c) := by
  rw [h.runScript_eq hc, h.swap.runScript_eq hc]
  refine Run.Interchangeable.within _ _ (.swap (h.first.looks 1) (h.second.looks 1) ?_) c c rfl
  intro a b
  exact Statement.interchangeable_finishCall _ _ f h.ne

end Wording

end Builtin

theorem runScript_normalize (t : Text) : runScript t = runScript t.normalize := by
  unfold runScript tokenize
  rw [Text.normalize_normalize]

/-- For each function with two particles, the nouns with their particles may change places: the
sentence has the same value or none, does the same and binds the same. -/
theorem runScript_particle_order {f : Builtin} (hf : f ∈ Builtin.standard) {p q : Text}
    (hp : f.particles = [p, q]) {a b : Text} (ha : f.Noun a) (hb : f.Noun b) {c : Context}
    (hc : c.functions = Builtin.standard) :
    let r := runScript (a ++ p ++ b ++ q ++ f.name) c
    let r' := runScript (b ++ q ++ a ++ p ++ f.name) c
    Run.value? r = Run.value? r' ∧ (Run.context r).scope = (Run.context r').scope ∧
      (Run.context r).events c = (Run.context r').events c := by
  intro r r'
  have hw : f.Wording a.normalize p b.normalize q := ⟨hf, .inl hp, ha.inert hf, hb.inert hf⟩
  have hr : r = runScript (f.sentence a.normalize p b.normalize q) c := by
    rw [← Builtin.normalize_sentence hf hw.mem hw.swap.mem, ← runScript_normalize]
    simp [r, Builtin.sentence]
  have hr' : r' = runScript (f.sentence b.normalize q a.normalize p) c := by
    rw [← Builtin.normalize_sentence hf hw.swap.mem hw.mem, ← runScript_normalize]
    simp [r', Builtin.sentence]
  have ho : Run.outcome r = Run.outcome r' := by rw [hr, hr', hw.outcome_eq hc]
  obtain ⟨hv, hd⟩ := Prod.mk.inj ho
  have hs : (Run.context r).outward.scope = (Run.context r').outward.scope := by rw [hd]
  obtain ⟨calls, hx⟩ := exists_executes_runTokens (tokenize (a ++ p ++ b ++ q ++ f.name) 1) c
  obtain ⟨calls', hx'⟩ := exists_executes_runTokens (tokenize (b ++ q ++ a ++ p ++ f.name) 1) c
  exact ⟨hv, hs, Context.events_eq_of_outward hx.extends hx'.extends hd⟩

/-- What is shown is a literal with structuring words, the particles and the name in it. -/
theorem runScript_particle_order_of_display :
    let f : Builtin := ⟨['表', '示'], [['を'], ['に']], .display⟩
    let s : Text := "aを2とする。\nもしaに表示".toList
    let c := Context.standard
    let r := runScript (s.quote ++ ['を'] ++ consoleName ++ ['に'] ++ f.name) c
    let r' := runScript (consoleName ++ ['に'] ++ s.quote ++ ['を'] ++ f.name) c
    (f ∈ Builtin.standard ∧ f.Noun s.quote ∧ f.Noun consoleName) ∧
      Run.value? r = Run.value? r' ∧ Run.value? r' = some .empty ∧
      (Run.context r').scope = c.scope ∧
      (Run.context r').events c = [.called .console (.text s)] := by
  intro f s c r r'
  have hf : f ∈ Builtin.standard := by decide
  have hs : f.Noun s.quote := .quoted (by decide +kernel)
  have hn : f.Noun consoleName := .plain (by decide) (by decide) (by decide) (by decide) (by decide)
  obtain ⟨hv, hc, he⟩ := runScript_particle_order hf rfl hs hn (c := c) rfl
  refine ⟨⟨hf, hs, hn⟩, hv, ?_, ?_, ?_⟩
  · rw [← hv]
    decide +kernel
  · rw [← hc]
    decide +kernel
  · rw [← he]
    decide +kernel

end Kotoba
