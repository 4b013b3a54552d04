/-
  Xvr.Backend.Terminators — the blocks that statements leave behind.

  Every emitter of a part appends its own branch behind the part. When the part ended in a
  break or continue the block has one already, and gets a second terminator.

  Proved, for statements over expressions of any shape and any nesting:
  - `well_formed_iff`: the blocks of an emission that reports no error all end in their only
    terminator, the current one aside, exactly when no break or continue was emitted.
  - `break_leaves_two_terminators`: the body of `while (true) { break; }` ends in two branches.
-/

import Xvr.Backend.EmissionPaths

namespace Xvr.Backend

open Xvr.Runtime Xvr.Lib
open Xvr.Frontend (Opcode Node)

/-- Every block but the current one has exactly one terminator, at its end. -/
def WellFormed (s : Codegen) : Prop := ∀ b, b < s.blocks.length → b ≠ s.here → Terminated (s.code b)

mutual

/-- Break and continue stand only where a statement does. -/
def atStatements : Node → Bool
  | .block nodes => atStatementsAll nodes
  | .pathIf condition thenPath elsePath _ false =>
    !jumps condition && atStatements thenPath && atStatements elsePath
  | .pathWhile condition thenPath => !jumps condition && atStatements thenPath
  | .pathFor preClause condition postClause thenPath =>
    !jumps preClause && !jumps condition && !jumps postClause && atStatements thenPath
  | .pathBreak | .pathContinue => true
  | node => !jumps node

def atStatementsAll : List Node → Bool
  | [] => true
  | node :: nodes => atStatements node && atStatementsAll nodes

end

/-! ## A block with something behind a terminator -/

/-- Something follows a terminator. -/
def Broken (code : List Instr) : Prop := ∃ before i after, code = before ++ i :: after ∧ isTerminator i = true ∧ after ≠ []

theorem Broken.not_terminated {code : List Instr} (h : Broken code) : ¬ Terminated code := by
  obtain ⟨before, i, after, rfl, hi, hne⟩ := h
  intro ⟨body, j, heq, hbody, hj⟩
  obtain ⟨rest, k, rfl⟩ : ∃ rest k, after = rest ++ [k] := ⟨_, _, (List.dropLast_append_getLast hne).symm⟩
  have hsplit : before ++ i :: rest = body := by
    have happ : (before ++ i :: rest) ++ [k] = body ++ [j] := by simpa using heq
    exact (List.append_inj' happ rfl).1
  have hun := hbody i (by rw [← hsplit]; simp)
  rw [hi] at hun
  cases hun

theorem Broken.mono {code code' : List Instr} (h : Broken code) (hp : code <+: code') : Broken code' := by
  obtain ⟨before, i, after, rfl, hi, hne⟩ := h
  obtain ⟨more, rfl⟩ := hp
  exact ⟨before, i, after ++ more, by simp, hi, by simp [hne]⟩

/-- What is written behind a terminator breaks the block. -/
theorem broken_of_longer {code code' : List Instr} (h : ¬ Unterminated code) (hp : code <+: code') (hne : code' ≠ code) :
    Broken code' := by
  obtain ⟨i, hi, hterm⟩ : ∃ i ∈ code, isTerminator i = true := by
    unfold Unterminated at h
    push Not at h
    obtain ⟨i, hi, ht⟩ := h
    exact ⟨i, hi, by simpa using ht⟩
  obtain ⟨before, after, rfl⟩ := List.append_of_mem hi
  obtain ⟨more, rfl⟩ := hp
  refine ⟨before, i, after ++ more, by simp, hterm, ?_⟩
  intro hnil
  have hmore : more = [] := (List.append_eq_nil_iff.mp hnil).2
  exact hne (by simp [hmore])

/-- A block the builder has left is broken. -/
def Spoiled (s : Codegen) : Prop := ∃ b, b < s.blocks.length ∧ b ≠ s.here ∧ Broken (s.code b)

/-- Or the current one has its terminator already. -/
def Doomed (s : Codegen) : Prop := Spoiled s ∨ ¬ Unterminated (s.code s.here)

theorem Spoiled.not_wellFormed {s : Codegen} (h : Spoiled s) : ¬ WellFormed s := by
  obtain ⟨b, hlt, hne, hb⟩ := h
  intro hw
  exact hb.not_terminated (hw b hlt hne)

section

variable {s t : Codegen}

theorem Spoiled.grows (h : Spoiled s) (hg : Grows s t) : Spoiled t := by
  obtain ⟨b, hlt, hne, hb⟩ := h
  refine ⟨b, hlt.trans_le hg.length, ?_, (hg.others b hlt hne) ▸ hb⟩
  rcases hg.place with hp | hp
  · rw [hp]
    exact hne
  · omega

theorem Doomed.grows (h : Doomed s) (hs : s.Standing) (hg : Grows s t) : Doomed t := by
  rcases h with h | h
  · exact .inl (h.grows hg)
  · by_cases hp : t.here = s.here
    · refine .inr fun hun => h fun i hi => hun i ?_
      rw [hp]
      exact hg.current.subset hi
    · exact .inl ⟨s.here, hs.2.trans_le hg.length, Ne.symm hp, broken_of_longer h hg.current (hg.moved hp)⟩

/-- A branch behind a doomed part spoils the module. -/
theorem Doomed.leave {clean : Prop} {waiting : List Nat} {next : Nat} {u : Codegen} (h : Doomed t)
    (he : Emitted clean (next :: waiting) u t) (i : Instr) : Spoiled ((t.append i).setInsertPoint next) := by
  obtain ⟨-, hlt, hne, hempty⟩ := he.waits.2 next (List.mem_cons_self ..)
  have hlength : ((t.append i).setInsertPoint next).blocks.length = t.blocks.length := Codegen.append_length t i
  have hstand := he.grows.standing
  rcases h with ⟨b, hb, hbne, hbroken⟩ | h
  · refine ⟨b, hlength ▸ hb, ?_, ?_⟩
    · intro heq
      have hbn : b = next := heq
      rw [hbn, hempty] at hbroken
      obtain ⟨before, i, after, hnil, -⟩ := hbroken
      simp at hnil
    · exact (Codegen.append_code_ne t i hbne) ▸ hbroken
  · refine ⟨t.here, hlength ▸ hstand.2, Ne.symm hne, ?_⟩
    have hcode : ((t.append i).setInsertPoint next).code t.here = t.code t.here ++ [i] := Codegen.append_code_here hstand i
    rw [hcode]
    exact broken_of_longer h (List.prefix_append _ _) (by simp)

end

/-! ## A part with a jump in it -/

/-- The jump has spoiled a block, or it was the last thing and a loop is open. -/
def Trapped (s t : Codegen) : Prop :=
  Spoiled t ∨ (s.controlFlow.loops ≠ [] ∧ ¬ Unterminated (t.code t.here))

theorem Trapped.doomed {s t : Codegen} (h : Trapped s t) : Doomed t := by
  rcases h with h | ⟨-, h⟩
  · exact .inl h
  · exact .inr h

def Action.Traps (action : Action) : Prop := ∀ s : Codegen, s.Standing → Silent s (action s).2 → Trapped s (action s).2

section

variable {s t : Codegen}

theorem silent_closePart {target next : Nat} (h : Silent s (t.closePart target next)) : Silent s t := by
  have hcf : (t.closePart target next).controlFlow = t.controlFlow := Codegen.append_controlFlow t _
  rwa [Silent, hcf] at h

theorem branch_not_unterminated (hs : s.Standing) (target : Nat) :
    ¬ Unterminated ((s.append (.br target)).code (s.append (.br target)).here) := by
  intro hun
  rw [Codegen.append_here, Codegen.append_code_here hs] at hun
  have hbr := hun (.br target) (by simp)
  cases hbr

theorem emitBreak_traps : (emitStatement emitBreak).Traps := by
  intro s hs hsilent
  obtain ⟨endBlock, condBlock, rest, hl, heq⟩ := emitBreak_silent hs hsilent
  refine .inr ⟨by simp [hl], ?_⟩
  show ¬ Unterminated ((emitBreak s).2.code (emitBreak s).2.here)
  rw [heq]
  exact branch_not_unterminated (s := s.clearError) hs endBlock

theorem emitContinue_traps : (emitStatement emitContinue).Traps := by
  intro s hs hsilent
  obtain ⟨endBlock, condBlock, rest, hl, heq⟩ := emitContinue_silent hs hsilent
  refine .inr ⟨by simp [hl], ?_⟩
  show ¬ Unterminated ((emitContinue s).2.code (emitContinue s).2.here)
  rw [heq]
  exact branch_not_unterminated (s := s.clearError) hs condBlock

theorem runAll_traps {actions : List Action} (hk : ∀ a ∈ actions, a.Keeps False) (ht : ∃ a ∈ actions, a.Traps)
    (hs : s.Standing) (hsilent : Silent s (runAll actions s)) : Trapped s (runAll actions s) := by
  induction actions generalizing s with
  | nil =>
    obtain ⟨a, ha, -⟩ := ht
    cases ha
  | cons a rest ih =>
    have hfirst := hk a (List.mem_cons_self ..)
    have hmore := fun b hb => hk b (List.mem_cons_of_mem a hb)
    have h := (hfirst s hs).1
    have hrest := (runAll_keeps hmore (.refl h.grows.standing)).1
    obtain ⟨hsa, hsr⟩ := h.grows.silent hrest.grows hsilent
    have hloops := (hfirst s hs).2
    obtain ⟨b, hb, htb⟩ := ht
    rcases List.mem_cons.mp hb with rfl | hb
    · rcases htb s hs hsa with hsp | ⟨hl, hun⟩
      · exact .inl (hsp.grows hrest.grows)
      · rcases Doomed.grows (.inr hun) h.grows.standing hrest.grows with hsp | hun
        · exact .inl hsp
        · exact .inr ⟨hl, hun⟩
    · rcases ih hmore ⟨b, hb, htb⟩ h.grows.standing hsr with hsp | ⟨hl, hun⟩
      · exact .inl hsp
      · exact .inr ⟨hloops ▸ hl, hun⟩

theorem emitBlock_traps {actions : List Action} (hk : ∀ a ∈ actions, a.Keeps False) (ht : ∃ a ∈ actions, a.Traps) :
    (emitBlock actions).Traps := by
  intro s hs hsilent
  have hne : actions.isEmpty = false := by
    obtain ⟨a, ha, -⟩ := ht
    cases actions with
    | nil => cases ha
    | cons _ _ => rfl
  unfold emitBlock at hsilent ⊢
  rw [if_neg (by simp [hne])] at hsilent ⊢
  exact runAll_traps (s := { s with fnEmitter := s.fnEmitter.enterScope }) hk ht hs hsilent

theorem emitIfStatement_traps {condition thenPath elsePath expression : Action} (hc : condition.Keeps False)
    (hkt : thenPath.Keeps False) (hke : elsePath.Keeps False) (h : thenPath.Traps ∨ elsePath.Traps) :
    (emitStatement (emitIf false (emitIfStatement condition thenPath elsePath) expression)).Traps := by
  intro s hs hsilent
  have hs' : s.clearError.Standing := hs
  change Silent s.clearError (emitIfStatement condition thenPath elsePath s.clearError).2 at hsilent
  show Trapped s.clearError (emitIfStatement condition thenPath elsePath s.clearError).2
  generalize s.clearError = s at *
  obtain ⟨fn, value, s₁, hfn, hval, -, heq⟩ := emitIfStatement_silent hc hs' hsilent
  rw [heq] at hsilent ⊢
  have e₁ := (hc s hs').1
  rw [hval] at e₁
  have e₂ := e₁.openIf (e₁.grows.function.trans hfn) value ifNames
  have e₃ := e₂.run hkt
  have e₄ := e₃.closePart (s₁.blocks.length + 2)
  have e₅ := e₄.run hke
  obtain ⟨hs₄, hs₅⟩ := e₄.grows.silent (hke _ e₄.grows.standing).1.grows (silent_closePart hsilent)
  refine .inl ?_
  rcases h with ht | he
  · have hs₃ := (e₂.grows.silent (hkt _ e₂.grows.standing).1.grows (silent_closePart hs₄)).2
    have hsp := (ht _ e₂.grows.standing hs₃).doomed.leave e₃ (.br (s₁.blocks.length + 2))
    exact Doomed.leave (.inl (hsp.grows (hke _ e₄.grows.standing).1.grows)) e₅ _
  · exact (he _ e₄.grows.standing hs₅).doomed.leave e₅ _

theorem emitWhile_traps {condition thenPath : Action} (hc : condition.Keeps False) (hk : thenPath.Keeps False)
    (ht : thenPath.Traps) : (emitStatement (emitWhile condition thenPath)).Traps := by
  intro s hs hsilent
  change Silent s (emitWhile condition thenPath s).2 at hsilent
  show Trapped s (emitWhile condition thenPath s).2
  obtain ⟨fn, value, s₁, hfn, hval, -, heq⟩ := emitWhile_silent hc hs hsilent
  rw [heq] at hsilent ⊢
  have e₁ := ((Emitted.refl hs).clearError.openWhile hfn).run hc
  rw [hval] at e₁
  have e₂ := e₁.testLoop value (s.blocks.length + 2)
  have hs₃ := (e₂.grows.silent (hk _ e₂.grows.standing).1.grows (silent_closePart hsilent)).2
  exact .inl ((ht _ e₂.grows.standing hs₃).doomed.leave (e₂.run hk) _)

theorem emitFor_traps {preClause condition postClause thenPath : Action} (hp : preClause.Keeps False)
    (hc : condition.Keeps False) (hpost : postClause.Keeps False) (hk : thenPath.Keeps False) (ht : thenPath.Traps) :
    (emitStatement (emitFor preClause condition postClause thenPath)).Traps := by
  intro s hs hsilent
  change Silent s (emitFor preClause condition postClause thenPath s).2 at hsilent
  show Trapped s (emitFor preClause condition postClause thenPath s).2
  obtain ⟨fn, value, s₁, hfn, hval, heq⟩ := emitFor_silent hp hc hs hsilent
  rw [heq] at hsilent ⊢
  have e₁ := (((Emitted.refl hs).clearError.openFor hfn).run hp).closePart s.blocks.length
  have e₂ := e₁.run (emitForCondition_keeps hc)
  rw [show s.clearError.blocks.length = s.blocks.length from rfl, hval] at e₂
  have e₃ := e₂.testLoop value (s.blocks.length + 3)
  have e₄ := e₃.run hk
  have e₅ := e₄.closePart (s.blocks.length + 2)
  have e₆ := e₅.run hpost
  have hs₅ := (e₅.grows.silent (hpost _ e₅.grows.standing).1.grows (silent_closePart hsilent)).1
  have hs₄ := (e₃.grows.silent (hk _ e₃.grows.standing).1.grows (silent_closePart hs₅)).2
  have hsp := (ht _ e₃.grows.standing hs₄).doomed.leave e₄ (.br (s.blocks.length + 2))
  exact .inl (Doomed.leave (.inl (hsp.grows (hpost _ e₅.grows.standing).1.grows)) e₆ _)

end

/-! ## Statements -/

section

variable (library : Library Value)

mutual

theorem emit_traps (node : Node) (hn : atStatements node = true) (hj : jumps node = true) : (emit library node).Traps := by
  cases node with
  | pathBreak =>
    rw [emit]
    exact emitBreak_traps
  | pathContinue =>
    rw [emit]
    exact emitContinue_traps
  | block nodes =>
    rw [emit]
    exact emitBlock_traps (emitAll_keeps library nodes False.elim) (emitAll_traps nodes hn hj)
  | pathIf condition thenPath elsePath typeWord isExpression =>
    cases isExpression with
    | true =>
      simp [atStatements, hj] at hn
    | false =>
      simp only [atStatements, Bool.and_eq_true, Bool.not_eq_true'] at hn
      simp only [jumps, hn.1.1, Bool.false_or, Bool.or_eq_true] at hj
      have hpart : (emit library thenPath).Traps ∨ (emit library elsePath).Traps := by
        rcases hj with hj | hj
        · exact .inl (emit_traps thenPath hn.1.2 hj)
        · exact .inr (emit_traps elsePath hn.2 hj)
      rw [emit]
      exact emitIfStatement_traps (emit_frame library condition) (emit_frame library thenPath) (emit_frame library elsePath)
        hpart
  | pathWhile condition thenPath =>
    simp only [atStatements, Bool.and_eq_true, Bool.not_eq_true'] at hn
    simp only [jumps, hn.1, Bool.false_or] at hj
    rw [emit]
    exact emitWhile_traps (emit_frame library condition) (emit_frame library thenPath) (emit_traps thenPath hn.2 hj)
  | pathFor preClause condition postClause thenPath =>
    simp only [atStatements, Bool.and_eq_true, Bool.not_eq_true'] at hn
    simp only [jumps, hn.1.1.1, hn.1.1.2, hn.1.2, Bool.false_or] at hj
    rw [emit]
    exact emitFor_traps (emit_frame library preClause) (emit_frame library condition) (emit_frame library postClause)
      (emit_frame library thenPath) (emit_traps thenPath hn.2 hj)
  | _ => simp [atStatements, hj] at hn

theorem emitAll_traps (nodes : List Node) (hn : atStatementsAll nodes = true) (hj : jumpsAny nodes = true) :
    ∃ a ∈ emitAll library nodes, a.Traps := by
  cases nodes with
  | nil => cases hj
  | cons node nodes =>
    simp only [atStatementsAll, Bool.and_eq_true] at hn
    simp only [jumpsAny, Bool.or_eq_true] at hj
    rw [emitAll]
    rcases hj with hj | hj
    · exact ⟨_, List.mem_cons_self .., emit_traps node hn.1 hj⟩
    · obtain ⟨a, ha, ht⟩ := emitAll_traps nodes hn.2 hj
      exact ⟨a, List.mem_cons_of_mem _ ha, ht⟩

end

/-- Reporting nothing at all, it reports nothing from control flow. -/
theorem silent_of_quiet {s t : Codegen} (hg : Grows s t) (h : s.quiet t = true) : Silent s t := by
  simp only [Codegen.quiet, Bool.and_eq_true, decide_eq_true_eq] at h
  exact (hg.reported.eq_of_length h.1.symm).symm

/-- From well-formed blocks and outside of any loop, statements leave well-formed blocks
    exactly when no break or continue was emitted. -/
theorem well_formed_iff (node : Node) (hn : atStatements node = true) (s : Codegen) (hs : s.Standing)
    (hopen : Unterminated (s.code s.here)) (hw : WellFormed s) (hl : s.controlFlow.loops = [])
    (hq : s.quiet (emit library node s).2 = true) : WellFormed (emit library node s).2 ↔ jumps node = false := by
  have hsilent := silent_of_quiet (emit_frame library node s hs).1.grows hq
  constructor
  · intro hwf
    by_contra hj
    rcases emit_traps library node hn (eq_true_of_ne_false hj) s hs hsilent with hsp | ⟨hne, -⟩
    · exact hsp.not_wellFormed hwf
    · exact hne hl
  · intro hj b hb hne
    have hk : (emit library node).Keeps True := emit_keeps library node fun _ => hj
    have he := (hk s hs).1
    have hsettled := (he.settles trivial hsilent hopen).2
    by_cases hnew : b = s.here ∨ s.blocks.length ≤ b
    · exact hsettled b (by omega) hne nofun
    · rw [he.grows.others b (by omega) (by omega)]
      exact hw b (by omega) (by omega)

end

theorem atEntry_wellFormed : WellFormed .atEntry := by
  intro b hb hne
  exact absurd (Nat.lt_one_iff.mp hb) hne

theorem well_formed_iff_empty_loop :
    WellFormed (emit .nothing (.pathWhile (.literal (.boolean true)) (.block [])) .atEntry).2 :=
  (well_formed_iff .nothing (.pathWhile (.literal (.boolean true)) (.block [])) rfl .atEntry atEntry_standing
    atEntry_unterminated atEntry_wellFormed rfl (by decide +kernel)).mpr rfl

/-- `while (true) { break; }`: the body ends in the branch of the break and the branch back. -/
theorem break_leaves_two_terminators :
    let node := Node.pathWhile (.literal (.boolean true)) (.block [.pathBreak])
    atStatements node = true ∧ Codegen.atEntry.quiet (emit .nothing node .atEntry).2 = true ∧
      ¬ WellFormed (emit .nothing node .atEntry).2 := by
  refine ⟨rfl, by decide +kernel, ?_⟩
  have hcode : (emit .nothing (.pathWhile (.literal (.boolean true)) (.block [.pathBreak])) .atEntry).2.code 2 =
      [.br 3, .br 1] := by decide +kernel
  refine Spoiled.not_wellFormed ⟨2, by decide +kernel, by decide +kernel, ?_⟩
  rw [hcode]
  exact ⟨[], .br 3, [.br 1], rfl, rfl, by simp⟩

end Xvr.Backend
