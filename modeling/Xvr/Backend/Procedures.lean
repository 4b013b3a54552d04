/-
  Xvr.Backend.Procedures — what emitting a procedure is made of.

  Proved:
  - `openFunction_emitted`: the function begins with an entry block of its own, and nothing
    else is written.
  - `emitStatements_actions`: behind it the emission of the body is the emission of its
    statements and of the expressions of its returns, up to an error.
-/

import Xvr.Backend.EmissionFrame
import Xvr.Backend.TopLevel

namespace Xvr.Backend

open Xvr.Runtime Xvr.Lib
open Xvr.Frontend (Node)

/-! ## The entry of a function -/

theorem enterFunction_standing (s : Codegen) (fn : Value) : (s.enterFunction fn).Standing := by
  refine ⟨rfl, ?_⟩
  show s.blocks.length < (s.createBlock fn "entry").blocks.length
  rw [Codegen.createBlock_length]
  exact Nat.lt_succ_self _

/-- The function starts without code. -/
theorem enterFunction_code (s : Codegen) (fn : Value) {b : Nat} (h : s.blocks.length ≤ b) : (s.enterFunction fn).code b = [] :=
  (Codegen.createBlock_code s fn "entry" b).trans (Codegen.code_outside h)

/-- The state at the entry, before the parameters. -/
def entered (name : List Char) (returnType : LlvmType) (params : List Parameter) (s : Codegen) : Codegen :=
  let cleared : Codegen := { s with fnEmitter := s.fnEmitter.clearLocalVars }
  ((cleared.addFunction name returnType (params.map fun p => typeMapperGetType p.type)).setCurrentFunction
    (.function s.functions.length)).enterFunction (.function s.functions.length)

section

variable (name : List Char) (returnType : LlvmType) (params : List Parameter) (s : Codegen)

theorem entered_standing : (entered name returnType params s).Standing := enterFunction_standing _ _

theorem entered_length : (entered name returnType params s).blocks.length = s.blocks.length + 1 :=
  Codegen.createBlock_length ..

theorem entered_code {b : Nat} (h : s.blocks.length ≤ b) : (entered name returnType params s).code b = [] :=
  enterFunction_code _ _ h

/-- The blocks there were are as they were. -/
theorem entered_code_lt {b : Nat} : (entered name returnType params s).code b = s.code b :=
  Codegen.createBlock_code _ _ "entry" b

theorem entered_parent_lt {b : Nat} (h : b < s.blocks.length) : (entered name returnType params s).parent b = s.parent b :=
  Codegen.createBlock_parent_lt _ _ "entry" h

/-- The new block is the function's. -/
theorem entered_parent : (entered name returnType params s).parent s.blocks.length = some (.function s.functions.length) :=
  Codegen.createBlock_parent _ _ "entry"

end

theorem addEntry_function {V : Type} (v : Variable V) (e : FunctionEmitter V) :
    (e.addEntry v).currentFunction = e.currentFunction := by
  unfold FunctionEmitter.addEntry
  split <;> rfl

theorem emitParameters_emitted {clean : Prop} {s t : Codegen} (ps : List Parameter) (i : Nat) (h : Emitted clean [] s t) :
    Emitted clean [] s (emitParameters ps i t) := by
  induction ps generalizing i t with
  | nil => exact h
  | cons p ps ih =>
    exact ih _ (((h.build _).build _).quiet rfl rfl (addEntry_function _ _) List.prefix_rfl List.prefix_rfl)

theorem openFunction_emitted (clean : Prop) (name : List Char) (returnType : LlvmType) (params : List Parameter)
    (s : Codegen) : Emitted clean [] (entered name returnType params s) (openFunction name returnType params s) :=
  emitParameters_emitted params 0 (.refl (entered_standing ..))

/-- A return evaluates its expression, if it has one. -/
theorem returnValue_cases (library : Library Value) (returns : Node) (value : Option Value) :
    (∃ node, returnValue library returns value = emit library node) ∨
      returnValue library returns value = fun s => (value, s) := by
  unfold returnValue
  split
  · exact .inr rfl
  · exact .inr rfl
  · exact .inl ⟨_, rfl⟩
  · exact .inl ⟨_, rfl⟩

theorem returnValue_keeps (library : Library Value) {clean : Prop} (hclean : ¬ clean) (returns : Node) (value : Option Value) :
    (returnValue library returns value).Keeps clean := by
  rcases returnValue_cases library returns value with ⟨node, heq⟩ | heq
  · rw [heq]
    exact emit_keeps library node fun hc => absurd hc hclean
  · rw [heq]
    exact fun s hs => ⟨.refl hs, rfl⟩

/-! ## The statements of a body -/

/-- What the emission of a body is made of. -/
inductive BodyAction (library : Library Value) (statements : List Node) : Action → Prop where
  | statement {statement : Node} (h : statement ∈ statements) (hne : ∀ returns, statement ≠ .fnReturn returns) :
      BodyAction library statements (emit library statement)
  | returned {returns : Node} (h : .fnReturn returns ∈ statements) (value : Option Value) :
      BodyAction library statements (returnValue library returns value)
  | failed (message : String) : BodyAction library statements fun s => (none, s.setContextError message)

section

variable {library : Library Value} {returnType : LlvmType} {name : List Char} {statements : List Node}

theorem BodyAction.cons {first : Node} {action : Action} (h : BodyAction library statements action) :
    BodyAction library (first :: statements) action := by
  cases h with
  | statement h hne => exact .statement (List.mem_cons_of_mem _ h) hne
  | returned h value => exact .returned (List.mem_cons_of_mem _ h) value
  | failed message => exact .failed message

theorem setContextError_hasError (message : String) (s : Codegen) : (s.setContextError message).hasError = true := by
  unfold Codegen.hasError Codegen.setContextError
  simp

theorem runAll_append (first second : List Action) (s : Codegen) :
    runAll (first ++ second) s = runAll second (runAll first s) := by
  induction first generalizing s with
  | nil => rfl
  | cons a first ih => exact ih _

variable (library returnType name) in
/-- A return is emitted by its expression, and by an error when it is refused. -/
theorem emitReturn_actions (returns : Node) (rest : List Node) (value : Option Value) (s : Codegen) :
    ∃ actions : List Action, (∀ a ∈ actions, BodyAction library (.fnReturn returns :: rest) a) ∧
      (emitReturn library returnType name returns value s).2 = runAll actions s ∧
        ((emitReturn library returnType name returns value s).1 = none →
          (emitReturn library returnType name returns value s).2.hasError = true) := by
  have hreturned : BodyAction library (.fnReturn returns :: rest) (returnValue library returns value) :=
    .returned (List.mem_cons_self ..) value
  have hvalue : ∀ a ∈ [returnValue library returns value], BodyAction library (.fnReturn returns :: rest) a := by
    intro a ha
    rw [List.mem_singleton.mp ha]
    exact hreturned
  have hrefused (message : String) : ∀ a ∈ [returnValue library returns value, fun s => (none, s.setContextError message)],
      BodyAction library (.fnReturn returns :: rest) a := by
    intro a ha
    rcases List.mem_cons.mp ha with rfl | ha
    · exact hreturned
    · rw [List.mem_singleton.mp ha]
      exact .failed message
  unfold emitReturn
  dsimp only
  by_cases herror : (returnValue library returns value s).2.hasError = true
  · rw [if_pos herror]
    exact ⟨_, hvalue, rfl, fun _ => herror⟩
  · rw [if_neg herror]
    split
    · exact ⟨_, hvalue, rfl, fun h => absurd h (Option.some_ne_none _)⟩
    · rename_i v _
      by_cases hvoid : returnType = .void
      · rw [if_pos hvoid]
        exact ⟨_, hrefused _, rfl, fun _ => setContextError_hasError _ _⟩
      · rw [if_neg hvoid]
        unfold checkReturnType
        by_cases hkind : (returnType = .void || returnType.sameKind v.typeOf) = true
        · rw [if_pos hkind]
          exact ⟨_, hvalue, rfl, fun h => absurd h (Option.some_ne_none _)⟩
        · rw [if_neg hkind]
          exact ⟨_, hrefused _, rfl, fun _ => setContextError_hasError _ _⟩

variable (library returnType name statements) in
/-- A body is emitted by such actions, and given up with an error. -/
theorem emitStatements_actions (value : Option Value) (found : Bool) (s : Codegen) :
    ∃ actions : List Action, (∀ a ∈ actions, BodyAction library statements a) ∧
      (emitStatements library returnType name statements value found s).2 = runAll actions s ∧
        ((emitStatements library returnType name statements value found s).1 = none →
          (emitStatements library returnType name statements value found s).2.hasError = true) := by
  induction statements generalizing value found s with
  | nil => exact ⟨[], fun _ ha => absurd ha List.not_mem_nil, rfl, fun h => absurd h (Option.some_ne_none _)⟩
  | cons statement rest ih =>
    by_cases hreturn : ∃ returns, statement = .fnReturn returns
    · obtain ⟨returns, rfl⟩ := hreturn
      obtain ⟨first, hfirst, hstate, herror⟩ := emitReturn_actions library returnType name returns rest value s
      rw [emitStatements]
      generalize emitReturn library returnType name returns value s = r at *
      rcases r with ⟨_ | kept, s₁⟩
      · exact ⟨first, hfirst, hstate, fun _ => herror rfl⟩
      · obtain ⟨more, hmore, hrun, hfail⟩ := ih kept true s₁
        dsimp only at hstate
        subst hstate
        refine ⟨first ++ more, ?_, hrun.trans (runAll_append first more s).symm, hfail⟩
        intro a ha
        rcases List.mem_append.mp ha with ha | ha
        · exact hfirst a ha
        · exact (hmore a ha).cons
    · have hne : ∀ returns, statement ≠ .fnReturn returns := fun returns heq => hreturn ⟨returns, heq⟩
      have hmem : statement ∈ statement :: rest := List.mem_cons_self ..
      rw [emitStatements]
      · dsimp only
        by_cases herror : (emit library statement s).2.hasError = true
        · rw [if_pos herror]
          refine ⟨[emit library statement], ?_, rfl, fun _ => herror⟩
          intro a ha
          rw [List.mem_singleton.mp ha]
          exact .statement hmem hne
        · rw [if_neg herror]
          obtain ⟨more, hmore, hrun, hfail⟩ := ih (if rest.isEmpty && !found then
            implicitValue returnType value (emit library statement s).1 else value) found (emit library statement s).2
          refine ⟨emit library statement :: more, ?_, hrun, hfail⟩
          intro a ha
          rcases List.mem_cons.mp ha with rfl | ha
          · exact .statement hmem hne
          · exact (hmore a ha).cons
      · exact hne

theorem BodyAction.keeps {clean : Prop} (hclean : ¬ clean) {action : Action} (h : BodyAction library statements action) :
    action.Keeps clean := by
  cases h with
  | statement h => exact emit_keeps library _ fun hc => absurd hc hclean
  | returned h value => exact returnValue_keeps library hclean _ value
  | failed message => exact fun s hs => ⟨(Emitted.refl hs).quiet rfl rfl rfl List.prefix_rfl (List.prefix_append _ _), rfl⟩

/-! ## The whole procedure -/

/-- An accepted body ends as it is, or in a return. -/
theorem finishBody_emitted {value : Option Value} {found : Bool} {s t : Codegen} (he : Emitted False [] s t)
    (h : (finishBody returnType name value found t).1 = true) :
    Emitted False [] s (finishBody returnType name value found t).2 ∧
      (finishBody returnType name value found t).2.functions = t.functions ∧
        (finishBody returnType name value found t).2.fnEmitter = t.fnEmitter := by
  have hret (v : Option Value) : Emitted False [] s (t.createRet v) ∧ (t.createRet v).functions = t.functions ∧
      (t.createRet v).fnEmitter = t.fnEmitter := by
    exact ⟨he.put _ False.elim, Codegen.append_functions _ _, Codegen.append_fnEmitter _ _⟩
  unfold finishBody at h ⊢
  by_cases hvoid : returnType = .void
  · rw [if_pos hvoid] at h ⊢
    split at h
    · cases h
    · rename_i hnone
      rw [if_neg hnone]
      exact hret none
  · rw [if_neg hvoid] at h ⊢
    cases value with
    | some v => exact hret (some v)
    | none =>
      dsimp only at h ⊢
      split at h
      · rename_i hfound
        rw [if_pos hfound]
        exact ⟨he, rfl, rfl⟩
      · cases h

theorem finishBody_refused {value : Option Value} {found : Bool} {s : Codegen}
    (h : (finishBody returnType name value found s).1 = false) :
    (finishBody returnType name value found s).2.hasError = true := by
  unfold finishBody at h ⊢
  by_cases hvoid : returnType = .void
  · rw [if_pos hvoid] at h ⊢
    split at h
    · rename_i hsome
      rw [if_pos hsome]
      exact setContextError_hasError _ _
    · cases h
  · rw [if_neg hvoid] at h ⊢
    cases value with
    | some v => cases h
    | none =>
      dsimp only at h ⊢
      split at h
      · cases h
      · rename_i hfound
        rw [if_neg hfound]
        exact setContextError_hasError _ _

/-- A procedure that is given up leaves an error. -/
theorem emitFunctionBody_refused {identifier : Literal} {arguments returns body : Node} {s : Codegen}
    (h : (emitFunctionBody library identifier arguments returns body s).1 = false) :
    (emitFunctionBody library identifier arguments returns body s).2.hasError = true := by
  unfold emitFunctionBody at h ⊢
  split
  · rename_i statements
    obtain ⟨actions, -, -, hfail⟩ := emitStatements_actions library (returnTypeOf returns)
      (functionName identifier) statements none false
      (openFunction (functionName identifier) (returnTypeOf returns) (parameters arguments) s)
    dsimp only at h ⊢
    split
    · rename_i heq
      rw [heq] at hfail
      exact hfail rfl
    · rename_i value found t heq
      rw [heq] at h
      exact finishBody_refused h
  · exact setContextError_hasError _ _

end

end Xvr.Backend
