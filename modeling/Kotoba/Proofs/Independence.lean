import Kotoba.Proofs.Comparison

/-!
What a script cannot tell. It cannot tell an array from the element of it, and it cannot tell how a
name is bound, or whether it is, unless the name stands in the script. Both are comparisons of two
runs, the one through the values, the other through the names.
-/

namespace Kotoba

namespace Effect

/-- The effect with arrays replaced by their elements. -/
def unwrap : Effect → Effect
  | called f v => called f v.unwrap
  | invoked name arguments => invoked name (arguments.map fun p ↦ (p.1, p.2.unwrap))
  | traced step => traced step

end Effect

namespace Comparison

/-- Runs that may differ in the names that do not stand in the script. -/
def ofMentioned (script : Text) (c d : Context) : Comparison where
  script := script
  left := c
  right := d
  Like := Eq
  unwrap_eq := congrArg Value.unwrap
  made _ := rfl

variable {k : Comparison}

end Comparison

/-- A script does the same whatever a name is bound to that does not stand in it, and leaves that
name as it was. -/
theorem runScript_unmentioned {script x : Text} (hx : ¬ x <:+: script.normalize) {c : Context}
    {scope : Bindings} (hf : c.functions = Builtin.standard)
    (hs : ∀ name, name ≠ x → scope.get? name = c.scope.get? name) :
    let r := runScript script c
    let s := runScript script { c with scope := scope }
    Run.value? r = Run.value? s ∧ Run.fault? r = Run.fault? s ∧
      (Run.context r).since c = (Run.context s).since c ∧
      (∀ name, name ≠ x →
        (Run.context r).scope.get? name = (Run.context s).scope.get? name) ∧
      (Run.context r).scope.get? x = c.scope.get? x ∧
      (Run.context s).scope.get? x = scope.get? x := by
  intro r s
  let k := Comparison.ofMentioned script c { c with scope := scope }
  have hrel {o o' : Option Value} (h : Option.Rel k.Like o o') : o = o' := by
    cases h with
    | none => rfl
    | some hv => exact congrArg some hv
  have ha : k.AlikeResults k.Like r s := by
    refine k.alike_runScript hf hf rfl rfl fun name hn ↦ ?_
    have hne : name ≠ x := by
      rintro rfl
      exact hx hn
    show Option.Rel Eq (c.scope.get? name) (scope.get? name)
    rw [hs name hne]
    cases c.scope.get? name with
    | none => exact .none
    | some v => exact .some rfl
  have he : (Run.context r).since c = (Run.context s).since c := by
    rw [← List.forall₂_eq_eq_eq]
    refine ha.context.since.imp fun e f hef ↦ ?_
    cases hef with
    | called hv => exact congrArg (Effect.called _) hv
    | traced => rfl
  refine ⟨hrel ha.value?, ha.fault?_eq, he, fun name hne ↦ ?_,
    (ha.context.unmentioned x hx).1, (ha.context.unmentioned x hx).2⟩
  by_cases hn : name <:+: script.normalize
  · exact hrel (ha.context.mentioned name hn)
  · obtain ⟨hl, hr⟩ := ha.context.unmentioned name hn
    rw [hl, hr]
    exact (hs name hne).symm

/-- A name is bound to something foreign around a script that fails for want of another. -/
theorem runScript_unmentioned_beside_fault :
    let script : Text := "aを「b」とする\naをコンソールに表示する\nc".toList
    let foreign : Value := .foreign ⟨['l'], ['z']⟩
    let d : Context := { Context.standard with scope := (['z'], foreign) :: Context.standard.scope }
    let s := runScript script d
    ¬ ['z'] <:+: script.normalize ∧
      Run.fault? s = some (.complaint (.malformed ['c']) (some 3) (some 3)) ∧
      ((Run.context s).since d).flatMap Effect.output = ['b', '\n'] ∧
      (Run.context s).scope.get? ['a'] = some (.text ['b']) ∧
      (Run.context s).scope.get? ['z'] = some foreign := by
  intro script foreign d s
  have hx : ¬ ['z'] <:+: script.normalize := by decide +kernel
  have hs : ∀ name, name ≠ ['z'] → d.scope.get? name = Context.standard.scope.get? name := by
    intro name hn
    exact if_neg hn.symm
  obtain ⟨-, hf, he, hb, -, hz⟩ := runScript_unmentioned hx (rfl : Context.standard.functions = _) hs
  refine ⟨hx, hf.symm.trans ?_, ?_, (hb ['a'] (by decide)).symm.trans ?_, hz⟩
  · decide +kernel
  · have ho : ((Run.context (runScript script Context.standard)).since
        Context.standard).flatMap Effect.output = ['b', '\n'] := by decide +kernel
    exact (congrArg (List.flatMap Effect.output) he).symm.trans ho
  · decide +kernel

end Kotoba
