/-
  Xvr.Backend.LocalVars — the function emitter's table of local variables
  (`xvr_llvm_function_emitter.cpp`).

  The table is an array of 64 entries and a count; a scope is the count saved on a stack
  of 32 entries when it was entered. An entry past the count keeps what it held.
-/

import Mathlib.Data.Vector.Basic
import Xvr.Runtime.Literal

namespace Xvr.Backend

open Xvr.Runtime

/-- `MAX_LOCAL_VARS`. -/
abbrev maxLocalVars : Nat := 64

/-- The length of `scope_stack`. -/
abbrev maxScopes : Nat := 32

/-- `Xvr_LLVMVariable`, over the type of LLVM's values; `none` is the null pointer. -/
structure Variable (V : Type) where
  name : Option (List Char)
  value : Option V
  type : LiteralType
  arrayCount : Int
  deriving DecidableEq, Repr

/-- What `calloc` leaves in an entry. -/
def Variable.blank {V : Type} : Variable V := ⟨none, none, .null, 0⟩

/-- `Xvr_LLVMFunctionEmitter`, as far as it changes. -/
structure FunctionEmitter (V : Type) where
  localVars : Vector (Variable V) maxLocalVars
  localVarCount : Fin (maxLocalVars + 1)
  scopeStack : Vector (Fin (maxLocalVars + 1)) maxScopes
  scopeDepth : Fin (maxScopes + 1)
  currentFunction : Option V

namespace FunctionEmitter

variable {V : Type}

/-- `Xvr_LLVMFunctionEmitterCreate`. -/
def create : FunctionEmitter V where
  localVars := Vector.replicate maxLocalVars .blank
  localVarCount := 0
  scopeStack := Vector.replicate maxScopes 0
  scopeDepth := 0
  currentFunction := none

/-- `clear_local_vars`. -/
def clearLocalVars (e : FunctionEmitter V) : FunctionEmitter V :=
  { e with localVarCount := 0, currentFunction := none }

/-- `add_local_var`: a full table is left as it is. -/
def addEntry (v : Variable V) (e : FunctionEmitter V) : FunctionEmitter V :=
  if h : e.localVarCount < maxLocalVars then
    { e with localVars := e.localVars.set e.localVarCount v h, localVarCount := ⟨e.localVarCount + 1, by omega⟩ }
  else e

/-- The loop of the lookups, from entry `i - 1` down. -/
def search (vars : Vector (Variable V) maxLocalVars) (name : List Char) : Nat → Option (Variable V)
  | 0 => none
  | i + 1 =>
    match vars[i]? with
    | some v => if v.name = some name then some v else search vars name i
    | none => search vars name i

def find (e : FunctionEmitter V) (name : List Char) : Option (Variable V) := search e.localVars name e.localVarCount

/-- `lookup_local_var`. -/
def lookupVar (e : FunctionEmitter V) (name : List Char) : Option V := (e.find name).bind (·.value)

/-- `Xvr_LLVMFunctionEmitterLookupVarWithType`: the type is written when the name is found. -/
def lookupVarWithType (e : FunctionEmitter V) (name : List Char) : Option V × Option LiteralType :=
  ((e.find name).bind (·.value), (e.find name).map (·.type))

/-- `Xvr_LLVMFunctionEmitterLookupVarArrayCount`. -/
def lookupVarArrayCount (e : FunctionEmitter V) (name : List Char) : Int :=
  match e.find name with
  | some v => v.arrayCount
  | none => 0

/-- `Xvr_LLVMFunctionEmitterAddLocalVar`. -/
def addLocalVar (name : Option (List Char)) (alloca : Option V) (varType : LiteralType) (arrayCount : Int)
    (e : FunctionEmitter V) : FunctionEmitter V :=
  if name.isNone || alloca.isNone then e else e.addEntry ⟨name, alloca, varType, arrayCount⟩

/-- `Xvr_LLVMFunctionEmitterEnterScope`: past the stack's end nothing is saved. -/
def enterScope (e : FunctionEmitter V) : FunctionEmitter V :=
  if h : e.scopeDepth < maxScopes then
    { e with scopeStack := e.scopeStack.set e.scopeDepth e.localVarCount h, scopeDepth := ⟨e.scopeDepth + 1, by omega⟩ }
  else e

/-- `Xvr_LLVMFunctionEmitterExitScope`. -/
def exitScope (e : FunctionEmitter V) : FunctionEmitter V :=
  if h : 0 < e.scopeDepth.val then
    let depth : Fin maxScopes := ⟨e.scopeDepth - 1, by omega⟩
    { e with localVarCount := e.scopeStack[depth], scopeDepth := depth.castSucc }
  else e

/-! ## The function -/

@[simp] theorem addLocalVar_function (name : Option (List Char)) (alloca : Option V) (varType : LiteralType)
    (arrayCount : Int) (e : FunctionEmitter V) :
    (e.addLocalVar name alloca varType arrayCount).currentFunction = e.currentFunction := by
  unfold addLocalVar addEntry
  split
  · rfl
  · split <;> rfl

@[simp] theorem enterScope_function (e : FunctionEmitter V) : e.enterScope.currentFunction = e.currentFunction := by
  unfold enterScope
  split <;> rfl

@[simp] theorem exitScope_function (e : FunctionEmitter V) : e.exitScope.currentFunction = e.currentFunction := by
  unfold exitScope
  split <;> rfl

/-! ## What the table shows -/

/-- The entries a lookup sees, in the order it sees them. -/
def visible (e : FunctionEmitter V) : List (Variable V) := (e.localVars.toList.take e.localVarCount).reverse

theorem length_visible (e : FunctionEmitter V) : e.visible.length = e.localVarCount := by
  have := e.localVarCount.isLt
  simp [visible]
  omega

/-- A variable that fits is what the next lookup sees first. -/
theorem visible_addEntry (v : Variable V) {e : FunctionEmitter V} (room : e.localVarCount.val < maxLocalVars) :
    (e.addEntry v).visible = v :: e.visible := by
  have hadd : e.addEntry v = { e with localVars := e.localVars.set e.localVarCount v room,
                                      localVarCount := ⟨e.localVarCount + 1, by omega⟩ } := dif_pos room
  have hlen : e.localVarCount.val < (e.localVars.toList.set e.localVarCount v).length := by simpa using room
  rw [hadd]
  simp only [visible, Vector.toList_set, List.take_succ_eq_append_getElem hlen]
  rw [List.take_set, List.set_eq_of_length_le (by simp), List.getElem_set_self]
  simp

theorem addEntry_scopes (v : Variable V) (e : FunctionEmitter V) :
    (e.addEntry v).scopeDepth = e.scopeDepth ∧ (e.addEntry v).scopeStack = e.scopeStack := by
  unfold addEntry
  split <;> exact ⟨rfl, rfl⟩

theorem search_eq (vars : Vector (Variable V) maxLocalVars) (name : List Char) {n : Nat} (hn : n ≤ maxLocalVars) :
    search vars name n = (vars.toList.take n).reverse.find? (fun v => v.name = some name) := by
  induction n with
  | zero => rfl
  | succ n ih =>
    have hlt : n < vars.toList.length := by simpa using Nat.lt_of_succ_le hn
    rw [search, List.take_succ_eq_append_getElem hlt, List.reverse_append, List.reverse_singleton, List.singleton_append,
      List.find?_cons, ih (by omega)]
    simp only [Vector.getElem_toList]
    rw [Vector.getElem?_eq_getElem (by omega)]
    by_cases h : vars[n].name = some name <;> simp [h]

/-- A lookup answers for the newest visible entry of the name. -/
theorem find_eq (e : FunctionEmitter V) (name : List Char) : e.find name = e.visible.find? (fun v => v.name = some name) :=
  search_eq _ _ (Nat.le_of_lt_succ e.localVarCount.isLt)

/-! ## What holds of every entry -/

/-- Of every entry of the array, past the count too. -/
def Holds (P : Variable V → Prop) (e : FunctionEmitter V) : Prop := ∀ v ∈ e.localVars.toList, P v

theorem Holds.find {P : Variable V → Prop} {e : FunctionEmitter V} (h : e.Holds P) {name : List Char} {v : Variable V}
    (hv : e.find name = some v) : P v := by
  rw [find_eq] at hv
  have hmem := List.mem_reverse.mp (List.mem_of_find?_eq_some hv)
  exact h v (List.mem_of_mem_take hmem)

theorem Holds.addLocalVar {P : Variable V → Prop} {e : FunctionEmitter V} (h : e.Holds P) (name : List Char) (alloca : V)
    (varType : LiteralType) (arrayCount : Int) (hv : P ⟨some name, some alloca, varType, arrayCount⟩) :
    (e.addLocalVar (some name) (some alloca) varType arrayCount).Holds P := by
  show (e.addEntry ⟨some name, some alloca, varType, arrayCount⟩).Holds P
  unfold addEntry
  split
  · intro v hmem
    rw [Vector.toList_set] at hmem
    rcases List.mem_or_eq_of_mem_set hmem with hmem | rfl
    · exact h v hmem
    · exact hv
  · exact h

theorem Holds.enterScope {P : Variable V → Prop} {e : FunctionEmitter V} (h : e.Holds P) : e.enterScope.Holds P := by
  unfold FunctionEmitter.enterScope
  split <;> exact h

theorem Holds.exitScope {P : Variable V → Prop} {e : FunctionEmitter V} (h : e.Holds P) : e.exitScope.Holds P := by
  unfold FunctionEmitter.exitScope
  split <;> exact h

end FunctionEmitter

end Xvr.Backend
