/-
  Xvr.Backend.ProcedureFrame — what emitting a procedure leaves of the blocks and of the table
  of variables.

  Proved:
  - `framed_stable`: a node closes the scopes it opens, and leaves an entry only by a
    declaration outside them.
  - `emitFunctionBody_declared`: an accepted procedure without parameters and such
    declarations writes into blocks of its own and leaves the table empty.
-/

import Xvr.Backend.EmissionSteps
import Xvr.Backend.Procedures

namespace Xvr.Backend

open Xvr.Runtime Xvr.Lib
open Xvr.Frontend (Node)

/-! ## The table of variables -/

/-- What a node may do to the table: its scopes are closed again, and without a declaration
    outside them it has as many entries as before. -/
structure Balanced (u : ScopeUse) (e e' : FunctionEmitter Value) : Prop where
  shallow : e'.scopeDepth.val ≤ e.scopeDepth.val
  depth : e.scopeDepth.val + u.1 ≤ maxScopes → e'.scopeDepth.val = e.scopeDepth.val
  saved : e.scopeDepth.val + u.1 ≤ maxScopes → ∀ i, i < e.scopeDepth.val → e'.scopeStack[i]? = e.scopeStack[i]?
  count : e.scopeDepth.val + u.1 ≤ maxScopes → u.2 = false → e'.localVarCount = e.localVarCount

namespace Balanced

variable {u v : ScopeUse} {e e' e'' : FunctionEmitter Value}

theorem refl (u : ScopeUse) (e : FunctionEmitter Value) : Balanced u e e :=
  ⟨Nat.le_refl _, fun _ => rfl, fun _ _ _ => rfl, fun _ _ => rfl⟩

theorem trans (h : Balanced u e e') (h' : Balanced u e' e'') : Balanced u e e'' where
  shallow := h'.shallow.trans h.shallow
  depth hle := by
    have hd := h.depth hle
    exact (h'.depth (hd ▸ hle)).trans hd
  saved hle i hi := by
    have hd := h.depth hle
    exact (h'.saved (hd ▸ hle) i (hd ▸ hi)).trans (h.saved hle i hi)
  count hle hu := by
    have hd := h.depth hle
    exact (h'.count (hd ▸ hle) hu).trans (h.count hle hu)

theorem widen (hle : u ≤ v) (h : Balanced u e e') : Balanced v e e' := by
  have hnesting : u.1 ≤ v.1 := hle.1
  have hdeclares (hv : v.2 = false) : u.2 = false := by
    have := hle.2
    rw [hv] at this
    exact Bool.eq_false_of_le_false this
  exact ⟨h.shallow, fun hv => h.depth (by omega), fun hv => h.saved (by omega), fun hv hd => h.count (by omega) (hdeclares hd)⟩

theorem declare (name : Option (List Char)) (alloca : Option Value) (varType : LiteralType) (arrayCount : Int)
    (e : FunctionEmitter Value) : Balanced ScopeUse.none.declaring e (e.addLocalVar name alloca varType arrayCount) := by
  have hsame : (e.addLocalVar name alloca varType arrayCount).scopeDepth = e.scopeDepth ∧
      (e.addLocalVar name alloca varType arrayCount).scopeStack = e.scopeStack := by
    unfold FunctionEmitter.addLocalVar FunctionEmitter.addEntry
    split
    · exact ⟨rfl, rfl⟩
    · split <;> exact ⟨rfl, rfl⟩
  obtain ⟨hdepth, hstack⟩ := hsame
  refine ⟨(congrArg Fin.val hdepth).le, fun _ => congrArg Fin.val hdepth, fun _ i _ => by rw [hstack], ?_⟩
  intro _ h
  cases h

theorem exitScope_shallow (e : FunctionEmitter Value) : e.exitScope.scopeDepth.val ≤ e.scopeDepth.val - 1 := by
  unfold FunctionEmitter.exitScope
  split
  · exact Nat.le_refl _
  · omega

/-- What leaving a scope restores. -/
theorem exitScope_saved {e : FunctionEmitter Value} {d : Nat} (h : e.scopeDepth.val = d + 1) :
    e.exitScope.scopeDepth.val = d ∧ e.exitScope.scopeStack = e.scopeStack ∧
      e.scopeStack[d]? = some e.exitScope.localVarCount := by
  have hlt : d < maxScopes := by
    have := e.scopeDepth.isLt
    omega
  have hindex : e.scopeDepth.val - 1 = d := by omega
  unfold FunctionEmitter.exitScope
  rw [dif_pos (by omega)]
  refine ⟨hindex, rfl, ?_⟩
  simp only [hindex, Fin.getElem_fin]
  exact Vector.getElem?_eq_getElem hlt

/-- A scope that fits the stack shows behind it what was visible before. -/
theorem scope (h : Balanced u e.enterScope e') : Balanced u.inScope e e'.exitScope := by
  have hexit := exitScope_shallow e'
  by_cases hd : e.scopeDepth.val < maxScopes
  · have henter : e.enterScope = { e with scopeStack := e.scopeStack.set e.scopeDepth e.localVarCount hd,
                                          scopeDepth := ⟨e.scopeDepth + 1, by omega⟩ } := by
      unfold FunctionEmitter.enterScope
      exact dif_pos hd
    have hdepth : e.enterScope.scopeDepth.val = e.scopeDepth.val + 1 := by rw [henter]
    have hstack : e.enterScope.scopeStack = e.scopeStack.set e.scopeDepth e.localVarCount hd := by rw [henter]
    have hshallow := h.shallow
    have hfits (hle : e.scopeDepth.val + u.inScope.1 ≤ maxScopes) : e.enterScope.scopeDepth.val + u.1 ≤ maxScopes := by
      have huse : u.inScope.1 = u.1 + 1 := rfl
      omega
    have hinside (hle : e.scopeDepth.val + u.inScope.1 ≤ maxScopes) := exitScope_saved ((h.depth (hfits hle)).trans hdepth)
    refine ⟨by omega, fun hle => (hinside hle).1, ?_, ?_⟩
    · intro hle i hi
      rw [(hinside hle).2.1, h.saved (hfits hle) i (by omega), hstack, Vector.getElem?_set_ne hd (by omega)]
    · intro hle _
      have hsaved := (hinside hle).2.2
      rw [h.saved (hfits hle) _ (by omega), hstack, Vector.getElem?_set_self] at hsaved
      exact (Option.some.inj hsaved).symm
  · have huse : u.inScope.1 = u.1 + 1 := rfl
    have henter : e.enterScope = e := by
      unfold FunctionEmitter.enterScope
      exact dif_neg hd
    have hshallow := h.shallow
    rw [henter] at hshallow
    refine ⟨by omega, ?_, ?_, ?_⟩
    · intro hle
      omega
    · intro hle
      omega
    · intro hle
      omega

end Balanced

/-- What a node leaves of the functions and of the table. -/
structure Framed (u : ScopeUse) (s t : Codegen) : Prop where
  functions : t.functions = s.functions
  table : Balanced u s.fnEmitter t.fnEmitter

theorem framed_stable : Stable Framed where
  trans h h' := ⟨h'.functions.trans h.functions, h.table.trans h'.table⟩
  widen hle h := ⟨h.functions, h.table.widen hle⟩
  quiet _ hf he _ := ⟨hf, he ▸ .refl _ _⟩
  append {_ s i} _ := ⟨Codegen.append_functions _ _, by rw [Codegen.append_fnEmitter]; exact .refl _ _⟩
  createBlock := ⟨rfl, .refl _ _⟩
  declare s name alloca varType arrayCount :=
    ⟨rfl, Balanced.declare (some name) (some alloca) varType arrayCount s.fnEmitter⟩
  scope h := ⟨h.functions, h.table.scope⟩

/-! ## Procedures that leave no variable -/

def returnUse : Node → ScopeUse
  | .null | .fnCollection [] => .none
  | .fnCollection (node :: _) => scopeUse node
  | node => scopeUse node

/-- The use of scopes of a statement of a body. -/
def statementUse : Node → ScopeUse
  | .fnReturn returns => returnUse returns
  | node => scopeUse node

/-- The procedure has no parameter and no declaration outside a block, and its blocks fit the
    stack of scopes. -/
def leavesNothing : Node → Bool
  | .fnDecl _ arguments _ (.block statements) _ =>
    (parameters arguments).isEmpty &&
      statements.all fun statement => (statementUse statement).1 ≤ maxScopes && !(statementUse statement).2
  | _ => true

/-- At the top level: no scope is open, and no variable visible. -/
structure Empty (e : FunctionEmitter Value) : Prop where
  depth : e.scopeDepth.val = 0
  count : e.localVarCount.val = 0

theorem Empty.find {e : FunctionEmitter Value} (h : Empty e) (name : List Char) : e.find name = none := by
  rw [FunctionEmitter.find, h.count]
  rfl

theorem Empty.balanced {u : ScopeUse} {e e' : FunctionEmitter Value} (h : Empty e) (hb : Balanced u e e')
    (hu : u.1 ≤ maxScopes) (hd : u.2 = false) : Empty e' := by
  have hfits : e.scopeDepth.val + u.1 ≤ maxScopes := by
    have := h.depth
    omega
  exact ⟨(hb.depth hfits).trans h.depth, (congrArg Fin.val (hb.count hfits hd)).trans h.count⟩

section

variable {library : Library Value}

theorem returnValue_framed (hl : library.Undeclaring) (returns : Node) (value : Option Value) :
    (returnValue library returns value).Within Framed (returnUse returns) := by
  have hemit (node : Node) : (emit library node).Within Framed (scopeUse node) := emit_within framed_stable (.inr hl) node
  cases returns with
  | null => exact fun s => framed_stable.refl _ s
  | fnCollection nodes =>
    cases nodes with
    | nil => exact fun s => framed_stable.refl _ s
    | cons node nodes => exact hemit node
  | _ => exact hemit _

/-- The table stays empty. -/
theorem bodyAction_empty (hl : library.Undeclaring) {statements : List Node} {action : Action}
    (ha : BodyAction library statements action)
    (hfits : ∀ statement ∈ statements, (statementUse statement).1 ≤ maxScopes ∧ (statementUse statement).2 = false)
    {s : Codegen} (h : Empty s.fnEmitter) : Empty (action s).2.fnEmitter ∧ (action s).2.functions = s.functions := by
  cases ha with
  | @statement statement hmem hne =>
    have hf := emit_within framed_stable (.inr hl) statement s
    have huse : statementUse statement = scopeUse statement := by
      cases statement with
      | fnReturn returns => exact absurd rfl (hne returns)
      | _ => rfl
    obtain ⟨hu, hd⟩ := hfits statement hmem
    rw [huse] at hu hd
    exact ⟨h.balanced hf.table hu hd, hf.functions⟩
  | @returned returns hmem value =>
    have hf := returnValue_framed hl returns value s
    obtain ⟨hu, hd⟩ := hfits _ hmem
    exact ⟨h.balanced hf.table hu hd, hf.functions⟩
  | failed message => exact ⟨h, rfl⟩

theorem body_empty (hl : library.Undeclaring) {statements : List Node} {actions : List Action}
    (ha : ∀ a ∈ actions, BodyAction library statements a)
    (hfits : ∀ statement ∈ statements, (statementUse statement).1 ≤ maxScopes ∧ (statementUse statement).2 = false)
    {s : Codegen} (h : Empty s.fnEmitter) : Empty (runAll actions s).fnEmitter ∧ (runAll actions s).functions = s.functions := by
  induction actions generalizing s with
  | nil => exact ⟨h, rfl⟩
  | cons action actions ih =>
    obtain ⟨hfirst, hfunctions⟩ := bodyAction_empty hl (ha action (List.mem_cons_self ..)) hfits h
    obtain ⟨hall, hmore⟩ := ih (fun a hmem => ha a (List.mem_cons_of_mem _ hmem)) hfirst
    exact ⟨hall, hmore.trans hfunctions⟩

/-! ## A procedure beside main -/

/-- What an emitted procedure is beside what there was. -/
structure Declared (name : List Char) (s t : Codegen) : Prop where
  standing : t.Standing
  length : s.blocks.length ≤ t.blocks.length
  code : ∀ b, b < s.blocks.length → t.code b = s.code b
  parents : ∀ b, b < s.blocks.length → t.parent b = s.parent b
  owned : ∀ b, s.blocks.length ≤ b → b < t.blocks.length → t.parent b = some (.function s.functions.length)
  place : s.blocks.length ≤ t.here
  functions : ∃ f, t.functions = s.functions ++ [f] ∧ f.name = s.uniqueName name
  empty : Empty t.fnEmitter

/-- Whatever is emitted from the entry of a function on is the function's. -/
theorem declared_of_emitted {clean : Prop} {name : List Char} {returnType : LlvmType} {params : List Parameter}
    {s t : Codegen} (h : Emitted clean [] (entered name returnType params s) t)
    (hfunctions : t.functions = (entered name returnType params s).functions) (hempty : Empty t.fnEmitter) :
    Declared name s t := by
  have hg := h.grows
  have hlength := entered_length name returnType params s
  have hle := hg.length
  rw [hlength] at hle
  have hentry : (entered name returnType params s).here = s.blocks.length := rfl
  refine ⟨hg.standing, by omega, ?_, ?_, ?_, ?_, ⟨_, hfunctions, rfl⟩, hempty⟩
  · intro b hb
    rw [hg.others b (by omega) (by omega), entered_code_lt]
  · intro b hb
    rw [hg.parents b (by omega), entered_parent_lt _ _ _ _ hb]
  · intro b hle hlt
    by_cases hb : b = s.blocks.length
    · rw [hb, hg.parents _ (by omega)]
      exact entered_parent ..
    · exact hg.owned b (by omega) hlt
  · rcases hg.place with hp | hp
    · omega
    · omega

theorem emitFunctionBody_declared (hl : library.Undeclaring) {identifier : Literal} {arguments returns body : Node} (line : Nat)
    {s : Codegen} (haccepted : (emitFunctionBody library identifier arguments returns body s).1 = true)
    (hleaves : leavesNothing (.fnDecl identifier arguments returns body line) = true)
    (hdepth : s.fnEmitter.scopeDepth.val = 0) :
    Declared (functionName identifier) s (emitFunctionBody library identifier arguments returns body s).2 := by
  unfold emitFunctionBody at haccepted ⊢
  split at haccepted
  · rename_i statements
    obtain ⟨hparams, hfits⟩ := (Bool.and_eq_true_iff.mp hleaves)
    have hfits : ∀ statement ∈ statements, (statementUse statement).1 ≤ maxScopes ∧ (statementUse statement).2 = false := by
      intro statement hmem
      simpa using List.all_eq_true.mp hfits statement hmem
    have hnone : parameters arguments = [] := List.isEmpty_iff.mp hparams
    dsimp only at haccepted ⊢
    have he := openFunction_emitted False (functionName identifier) (returnTypeOf returns) (parameters arguments) s
    obtain ⟨actions, hactions, hrun, -⟩ := emitStatements_actions library (returnTypeOf returns)
      (functionName identifier) statements none false
      (openFunction (functionName identifier) (returnTypeOf returns) (parameters arguments) s)
    have hopen : openFunction (functionName identifier) (returnTypeOf returns) (parameters arguments) s =
        entered (functionName identifier) (returnTypeOf returns) [] s := by
      rw [hnone]
      rfl
    obtain ⟨hempty, hfunctions⟩ := body_empty hl hactions hfits
      (s := openFunction (functionName identifier) (returnTypeOf returns) (parameters arguments) s)
      (by rw [hopen]; exact ⟨hdepth, rfl⟩)
    have hbody := (runAll_keeps (fun a ha => (hactions a ha).keeps not_false) he).1
    rw [← hrun] at hempty hfunctions hbody
    split at haccepted
    · cases haccepted
    · rename_i value found t heq
      rw [heq] at hempty hfunctions hbody
      obtain ⟨hend, hsame, htable⟩ := finishBody_emitted hbody haccepted
      refine declared_of_emitted hend ?_ (htable ▸ hempty)
      rw [hsame, hfunctions, hopen, hnone]
  · cases haccepted

end

end Xvr.Backend
