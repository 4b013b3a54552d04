/-
  Xvr.Backend.EmissionPaths — the way of an emission that reports no error.

  Proved, of each statement: the function and the condition were there, the condition was
  boolean, and these are the steps that were taken (`emitIfStatement_silent`,
  `emitWhile_silent`, `emitFor_silent`, `emitBreak_silent`, `emitContinue_silent`).
-/

import Xvr.Backend.EmissionFrame

namespace Xvr.Backend

open Xvr.Runtime Xvr.Lib

variable {clean : Prop} {s : Codegen}

@[simp] theorem clearError_blocks (s : Codegen) : s.clearError.blocks = s.blocks := rfl

theorem clearError_grows (hs : s.Standing) : Grows s s.clearError :=
  have he : Emitted False [] s s := .refl hs
  he.clearError.grows

theorem emitCondition_some {what : String} {condition : Action} {value : Value} {s₁ : Codegen} :
    emitCondition what condition s = (some value, s₁) ↔ condition s = (some value, s₁) ∧ value.isBoolean = true := by
  unfold emitCondition
  rcases condition s with ⟨_ | v, s'⟩
  · simp
  · by_cases hb : v.isBoolean = true
    · simp only [hb, if_true, Prod.mk.injEq, Option.some.injEq]
      constructor
      · rintro ⟨rfl, rfl⟩
        exact ⟨⟨rfl, rfl⟩, hb⟩
      · exact And.left
    · simp only [hb, Bool.false_eq_true, if_false, Prod.mk.injEq, reduceCtorEq, false_and, Option.some.injEq, false_iff]
      rintro ⟨⟨rfl, rfl⟩, hv⟩
      exact hb hv

theorem silent_setError {t : Codegen} (h : Grows s t) {message : String} {hint : Option String}
    (hs : Silent s (t.setError message hint)) : False :=
  setError_not_silent h message hint hs

theorem emitIfStatement_silent {condition thenPath elsePath : Action} (hk : condition.Keeps clean) (hs : s.Standing)
    (h : Silent s (emitIfStatement condition thenPath elsePath s).2) :
    ∃ fn value s₁, s.fnEmitter.currentFunction = some fn ∧ condition s = (some value, s₁) ∧ value.isBoolean = true ∧
      (emitIfStatement condition thenPath elsePath s).2 =
        (elsePath ((thenPath (s₁.openIf fn value ifNames)).2.closePart (s₁.blocks.length + 2) (s₁.blocks.length + 1))).2.closePart
          (s₁.blocks.length + 2) (s₁.blocks.length + 2) := by
  have hnone := emitCondition_none hk hs "if statement"
  unfold emitIfStatement at h ⊢
  split at h
  · exact (silent_setError (.refl hs) h).elim
  · rename_i fn hfn
    rw [hfn]
    rcases hr : emitCondition "if statement" condition s with ⟨_ | value, s₁⟩
    · rw [hr] at h hnone
      exact absurd h (hnone rfl)
    · obtain ⟨hc, hb⟩ := emitCondition_some.mp hr
      exact ⟨fn, value, s₁, rfl, hc, hb, rfl⟩

theorem emitLoop_silent {what : String} {loop : Value → Codegen → Bool × Codegen} (hs : s.Standing)
    (h : Silent s (emitLoop what loop s).2) :
    ∃ fn, s.fnEmitter.currentFunction = some fn ∧ s.controlFlow.loops.length < maxLoopNesting ∧
      emitLoop what loop s = loop fn s.clearError := by
  have hg := clearError_grows hs
  unfold emitLoop at h ⊢
  dsimp only at h ⊢
  split at h
  · exact (silent_setError hg h).elim
  · rename_i fn hfn
    split at h
    · exact (silent_setError hg h).elim
    · rename_i hlt
      exact ⟨fn, hfn, Nat.lt_of_not_le hlt, if_neg hlt⟩

theorem emitWhile_silent {condition thenPath : Action} (hk : condition.Keeps clean) (hs : s.Standing)
    (h : Silent s (emitWhile condition thenPath s).2) :
    ∃ fn value s₁, s.fnEmitter.currentFunction = some fn ∧ condition (s.clearError.openWhile fn) = (some value, s₁) ∧
      value.isBoolean = true ∧
      (emitWhile condition thenPath s).2 =
        ((thenPath (s₁.testLoop value (s.blocks.length + 1) (s.blocks.length + 2))).2.closePart s.blocks.length
          (s.blocks.length + 2)).popLoop := by
  obtain ⟨fn, hfn, -, heq⟩ := emitLoop_silent hs h
  have ho : Emitted clean _ s (s.clearError.openWhile fn) := (Emitted.refl hs).clearError.openWhile hfn
  have hnone := emitCondition_none hk ho.grows.standing "while statement"
  have hg := (emitCondition_keeps hk "while statement" _ ho.grows.standing).1.grows
  rw [emitWhile] at h ⊢
  rw [heq] at h ⊢
  dsimp only at h ⊢
  rcases hr : emitCondition "while statement" condition (s.clearError.openWhile fn) with ⟨_ | value, s₁⟩
  · rw [hr] at h hnone hg
    exact absurd (ho.grows.silent hg h).2 (hnone rfl)
  · obtain ⟨hc, hb⟩ := emitCondition_some.mp hr
    exact ⟨fn, value, s₁, hfn, hc, hb, rfl⟩

theorem emitFor_silent {preClause condition postClause thenPath : Action} (hp : preClause.Keeps clean)
    (hk : condition.Keeps clean) (hs : s.Standing)
    (h : Silent s (emitFor preClause condition postClause thenPath s).2) :
    ∃ fn value s₁, s.fnEmitter.currentFunction = some fn ∧
      emitForCondition condition ((preClause (s.clearError.openFor fn)).2.closePart s.blocks.length s.blocks.length) =
        (some value, s₁) ∧
      (emitFor preClause condition postClause thenPath s).2 =
        ((postClause ((thenPath (s₁.testLoop value (s.blocks.length + 1) (s.blocks.length + 3))).2.closePart
          (s.blocks.length + 2) (s.blocks.length + 2))).2.closePart s.blocks.length (s.blocks.length + 3)).popLoop := by
  obtain ⟨fn, hfn, -, heq⟩ := emitLoop_silent hs h
  have ho : Emitted clean _ s (s.clearError.openFor fn) := (Emitted.refl hs).clearError.openFor hfn
  let start := (preClause (s.clearError.openFor fn)).2.closePart s.blocks.length s.blocks.length
  have hpre : Emitted clean _ s start := (ho.run hp).closePart s.blocks.length
  have hnone := emitForCondition_none hk hpre.grows.standing
  have hg := (emitForCondition_keeps hk _ hpre.grows.standing).1.grows
  rw [emitFor] at h ⊢
  rw [heq] at h ⊢
  dsimp only [clearError_blocks] at h ⊢
  rcases hr : emitForCondition condition start with ⟨_ | value, s₁⟩
  · rw [hr] at h hnone hg
    exact absurd (hpre.grows.silent hg h).2 (hnone rfl)
  · exact ⟨fn, value, s₁, hfn, hr, rfl⟩

theorem emitBreak_silent (hs : s.Standing) (h : Silent s (emitBreak s).2) :
    ∃ endBlock condBlock rest, s.controlFlow.loops = (endBlock, condBlock) :: rest ∧
      (emitBreak s).2 = s.clearError.append (.br endBlock) := by
  have hg := clearError_grows hs
  unfold emitBreak at h ⊢
  dsimp only at h ⊢
  split at h
  · exact (silent_setError hg h).elim
  · rename_i endBlock condBlock rest hl
    exact ⟨endBlock, condBlock, rest, hl, rfl⟩

theorem emitContinue_silent (hs : s.Standing) (h : Silent s (emitContinue s).2) :
    ∃ endBlock condBlock rest, s.controlFlow.loops = (endBlock, condBlock) :: rest ∧
      (emitContinue s).2 = s.clearError.append (.br condBlock) := by
  have hg := clearError_grows hs
  unfold emitContinue at h ⊢
  dsimp only at h ⊢
  split at h
  · exact (silent_setError hg h).elim
  · rename_i endBlock condBlock rest hl
    exact ⟨endBlock, condBlock, rest, hl, rfl⟩

end Xvr.Backend
