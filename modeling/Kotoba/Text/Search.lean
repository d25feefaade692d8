/-!
Text as a list of code points, and words in it: the first place where a word stands, and the
pieces that remain when a text is cut at every place of a word.
-/

namespace Kotoba

/-- A text is the list of its code points. -/
abbrev Text := List Char

namespace Text

/-- What stands before and after the first occurrence of `word`. -/
def breakOn (t word : Text) : Option (Text × Text) :=
  match t with
  | [] => if word = [] then some ([], []) else none
  | c :: rest =>
    if word.isPrefixOf (c :: rest) then some ([], (c :: rest).drop word.length)
    else (breakOn rest word).map fun p ↦ (c :: p.1, p.2)

def find? (t word : Text) : Option Nat := (t.breakOn word).map fun p ↦ p.1.length

def hasWord (t word : Text) : Bool := (t.breakOn word).isSome

theorem append_of_breakOn {t word before after : Text}
    (h : t.breakOn word = some (before, after)) : t = before ++ word ++ after := by
  induction t generalizing before with
  | nil =>
    simp only [breakOn] at h
    split at h <;> simp_all
  | cons c rest ih =>
    simp only [breakOn] at h
    split at h
    · next hp =>
      obtain ⟨tail, ht⟩ := List.isPrefixOf_iff_prefix.1 hp
      obtain ⟨rfl, rfl⟩ : [] = before ∧ (c :: rest).drop word.length = after := by simpa using h
      simp [← ht]
    · obtain ⟨p, hb, hp⟩ := Option.map_eq_some_iff.1 h
      obtain ⟨rfl, rfl⟩ : c :: p.1 = before ∧ p.2 = after := by simpa using hp
      rw [ih hb]
      rfl

theorem length_of_breakOn {t word before after : Text}
    (h : t.breakOn word = some (before, after)) :
    t.length = before.length + word.length + after.length := by
  simp only [append_of_breakOn h, List.length_append]

/-- A piece of text as a fragment, the empty piece being none. -/
def fragment (t : Text) : List Text := if t = [] then [] else [t]

@[simp]
theorem flatten_fragment (t : Text) : t.fragment.flatten = t := by
  by_cases h : t = [] <;> simp [fragment, h]

theorem ne_nil_of_mem_fragment {t f : Text} (h : f ∈ t.fragment) : f ≠ [] := by
  unfold fragment at h
  split at h <;> simp_all

/-- Cuts a text at every occurrence of `word`, from the left. The occurrences stay as fragments
of their own and no other fragment is empty. Nothing is cut at the empty word. -/
def cut (t word : Text) : List Text :=
  if _hw : word = [] then t.fragment
  else
    match _h : t.breakOn word with
    | none => t.fragment
    | some (before, after) => before.fragment ++ word :: cut after word
termination_by t.length
decreasing_by
  have := length_of_breakOn _h
  have := List.length_pos_iff.2 _hw
  omega

def cutAll (fragments : List Text) (word : Text) : List Text := fragments.flatMap fun t ↦ t.cut word

/-- Cuts at each word in turn, so that an earlier word wins where two overlap. -/
def splitWords (t : Text) (words : List Text) : List Text := words.foldl cutAll t.fragment

/-- Cutting at the empty word is refused as soon as there is something to cut. -/
def splitWords? (t : Text) (words : List Text) : Option (List Text) :=
  if t ≠ [] ∧ words.contains [] then none else some (t.splitWords words)

theorem flatten_cut (t word : Text) : (t.cut word).flatten = t := by
  fun_induction cut t word with
  | case1 => simp
  | case2 => simp
  | case3 t word before after h ih =>
    simp only [List.flatten_append, flatten_fragment, List.flatten_cons, ih, append_of_breakOn h,
      List.append_assoc]

theorem flatten_cutAll (fragments : List Text) (word : Text) :
    (cutAll fragments word).flatten = fragments.flatten := by
  induction fragments with
  | nil => rfl
  | cons f fs ih =>
    rw [cutAll, List.flatMap_cons, List.flatten_append, flatten_cut, ← cutAll, ih,
      List.flatten_cons]

theorem flatten_foldl_cutAll (words fragments : List Text) :
    (words.foldl cutAll fragments).flatten = fragments.flatten := by
  induction words generalizing fragments with
  | nil => rfl
  | cons w ws ih => rw [List.foldl_cons, ih, flatten_cutAll]

/-- Splitting loses and adds nothing. -/
@[simp]
theorem flatten_splitWords (t : Text) (words : List Text) : (t.splitWords words).flatten = t := by
  rw [splitWords, flatten_foldl_cutAll, flatten_fragment]

theorem ne_nil_of_mem_cut {t word f : Text} (h : f ∈ t.cut word) : f ≠ [] := by
  fun_induction cut t word with
  | case1 t => exact ne_nil_of_mem_fragment h
  | case2 t => exact ne_nil_of_mem_fragment h
  | case3 t hw before after _ ih =>
    rcases List.mem_append.1 h with h | h
    · exact ne_nil_of_mem_fragment h
    · rcases List.mem_cons.1 h with rfl | h
      · exact hw
      · exact ih h

theorem ne_nil_of_mem_foldl_cutAll {words fragments : List Text} (hf : ∀ g ∈ fragments, g ≠ [])
    {f : Text} (h : f ∈ words.foldl cutAll fragments) : f ≠ [] := by
  induction words generalizing fragments with
  | nil => exact hf f h
  | cons w ws ih =>
    refine ih (fun g hg ↦ ?_) h
    obtain ⟨_, _, hg⟩ := List.mem_flatMap.1 hg
    exact ne_nil_of_mem_cut hg

theorem ne_nil_of_mem_splitWords {t f : Text} {words : List Text} (h : f ∈ t.splitWords words) :
    f ≠ [] :=
  ne_nil_of_mem_foldl_cutAll (fun _ hg ↦ ne_nil_of_mem_fragment hg) h

end Text

/-- Texts in order, with `separator` between each two. -/
def Text.join (separator : Text) : List Text → Text
  | [] => []
  | [t] => t
  | t :: ts => t ++ separator ++ join separator ts

end Kotoba
