/-
  Xvr.Backend.LexicalScopes — the table of local variables beside a lexical environment.

  Proved:
  - `calls_refine`: as long as the table has room for every variable and the stack for
    every scope, every lookup answers for the innermost binding, and leaving a scope
    shows what was visible when it was entered.
  - `full_table_drops`, `full_stack_forgets`: past either limit the call does nothing.
-/

import Xvr.Lib.Scopes
import Xvr.Backend.LocalVars

namespace Xvr.Backend

open Xvr.Runtime Xvr.Lib

variable {V : Type}

/-! ## Calls -/

/-- The functions of the emitter's interface. -/
inductive TableCall (V : Type) where
  | enterScope
  | addLocalVar (name : Option (List Char)) (alloca : Option V) (varType : LiteralType) (arrayCount : Int)
  | lookupVar (name : List Char)
  | lookupVarWithType (name : List Char)
  | lookupVarArrayCount (name : List Char)
  | exitScope

inductive TableAnswer (V : Type) where
  | nothing
  | value (value : Option V)
  | typed (value : Option V) (varType : Option LiteralType)
  | count (n : Int)
  deriving DecidableEq, Repr

namespace FunctionEmitter

def call (e : FunctionEmitter V) : TableCall V → FunctionEmitter V
  | .enterScope => e.enterScope
  | .addLocalVar name alloca varType arrayCount => e.addLocalVar name alloca varType arrayCount
  | .exitScope => e.exitScope
  | _ => e

def answer (e : FunctionEmitter V) : TableCall V → TableAnswer V
  | .lookupVar name => .value (e.lookupVar name)
  | .lookupVarWithType name => .typed (e.lookupVarWithType name).1 (e.lookupVarWithType name).2
  | .lookupVarArrayCount name => .count (e.lookupVarArrayCount name)
  | _ => .nothing

def run (e : FunctionEmitter V) (calls : List (TableCall V)) : FunctionEmitter V := calls.foldl call e

/-- What each call answers. -/
def answers (e : FunctionEmitter V) : List (TableCall V) → List (TableAnswer V)
  | [] => []
  | c :: calls => e.answer c :: (e.call c).answers calls

end FunctionEmitter

/-! ## The environment the table stands for -/

/-- A call binds a name only when it has a name and a value. -/
def TableCall.move : TableCall V → Option (Scopes.Move (Variable V))
  | .enterScope => some .opens
  | .addLocalVar (some name) (some alloca) varType arrayCount => some (.binds ⟨name, alloca, varType, arrayCount⟩)
  | .exitScope => some .closes
  | _ => none

def moves (calls : List (TableCall V)) : List (Scopes.Move (Variable V)) := calls.filterMap TableCall.move

namespace Lexical

def call (s : Scopes (Variable V)) (c : TableCall V) : Scopes (Variable V) :=
  match c.move with
  | some move => s.step move
  | none => s

def find (s : Scopes (Variable V)) (name : List Char) : Option (Variable V) :=
  s.visible.find? (fun v => v.name = some name)

/-- The lookups of the environment: the innermost binding, or nothing. -/
def answer (s : Scopes (Variable V)) : TableCall V → TableAnswer V
  | .lookupVar name => .value ((find s name).bind (·.value))
  | .lookupVarWithType name => .typed ((find s name).bind (·.value)) ((find s name).map (·.type))
  | .lookupVarArrayCount name => .count (((find s name).map (·.arrayCount)).getD 0)
  | _ => .nothing

def run (s : Scopes (Variable V)) (calls : List (TableCall V)) : Scopes (Variable V) := calls.foldl call s

def answers (s : Scopes (Variable V)) : List (TableCall V) → List (TableAnswer V)
  | [] => []
  | c :: calls => answer s c :: answers (call s c) calls

/-- Every scope that is exited was entered. -/
def wellNested (d : Nat) (calls : List (TableCall V)) : Bool := (Scopes.nesting d (moves calls)).isSome

/-- A call stays inside the emitter's two limits. -/
def within (s : Scopes (Variable V)) (c : TableCall V) : Bool :=
  match c.move with
  | some .opens => s.depth < maxScopes
  | some (.binds _) => s.visible.length < maxLocalVars
  | _ => true

/-- Every call of the run does. -/
def fits (s : Scopes (Variable V)) : List (TableCall V) → Bool
  | [] => true
  | c :: calls => within s c && fits (call s c) calls

end Lexical

/-! ## Refinement -/

/-- The counts the emitter saved, outermost scope first. -/
def savedCounts : List (List (Variable V)) → List Nat
  | [] => []
  | current :: enclosing => savedCounts enclosing ++ [(current ++ enclosing.flatten).length]

theorem length_savedCounts (l : List (List (Variable V))) : (savedCounts l).length = l.length := by
  induction l with
  | nil => rfl
  | cons _ _ ih => simp [savedCounts, ih]

/-- The table shows the environment. -/
structure Shows (e : FunctionEmitter V) (s : Scopes (Variable V)) : Prop where
  visible : e.visible = s.visible
  depth : e.scopeDepth.val = s.depth
  saved : (e.scopeStack.toList.take s.depth).map Fin.val = savedCounts s.enclosing

theorem Shows.count {e : FunctionEmitter V} {s : Scopes (Variable V)} (h : Shows e s) :
    e.localVarCount.val = s.visible.length := by
  rw [← h.visible, FunctionEmitter.length_visible]

theorem shows_create : Shows (FunctionEmitter.create : FunctionEmitter V) Scopes.empty :=
  ⟨rfl, rfl, rfl⟩

theorem shows_find {e : FunctionEmitter V} {s : Scopes (Variable V)} (h : Shows e s) (name : List Char) :
    e.find name = Lexical.find s name := by
  rw [FunctionEmitter.find_eq, h.visible]
  rfl

theorem shows_answer {e : FunctionEmitter V} {s : Scopes (Variable V)} (h : Shows e s) (c : TableCall V) :
    e.answer c = Lexical.answer s c := by
  cases c with
  | lookupVar name => simp only [FunctionEmitter.answer, FunctionEmitter.lookupVar, Lexical.answer, shows_find h]
  | lookupVarWithType name =>
    simp only [FunctionEmitter.answer, FunctionEmitter.lookupVarWithType, Lexical.answer, shows_find h]
  | lookupVarArrayCount name =>
    simp only [FunctionEmitter.answer, FunctionEmitter.lookupVarArrayCount, Lexical.answer, shows_find h]
    cases Lexical.find s name <;> rfl
  | enterScope | addLocalVar | exitScope => rfl

theorem shows_enterScope {e : FunctionEmitter V} {s : Scopes (Variable V)} (h : Shows e s) (hroom : s.depth < maxScopes) :
    Shows e.enterScope s.opened := by
  have hlt : e.scopeDepth.val < maxScopes := by rw [h.depth]; exact hroom
  have henter : e.enterScope = { e with scopeStack := e.scopeStack.set e.scopeDepth e.localVarCount hlt,
                                        scopeDepth := ⟨e.scopeDepth + 1, by omega⟩ } := dif_pos hlt
  rw [henter]
  refine ⟨h.visible, by simp [h.depth], ?_⟩
  have hlen : s.depth < (e.scopeStack.toList.set s.depth e.localVarCount).length := by simpa using hroom
  simp only [Vector.toList_set, h.depth, Scopes.depth_opened, List.take_succ_eq_append_getElem hlen]
  simp only [List.take_set, List.getElem_set_self, List.map_append, List.map_cons, List.map_nil]
  rw [List.set_eq_of_length_le (by simp), h.saved, h.count]
  rfl

theorem shows_addEntry {e : FunctionEmitter V} {s : Scopes (Variable V)} (h : Shows e s) (v : Variable V)
    (hroom : s.visible.length < maxLocalVars) : Shows (e.addEntry v) (s.bind v) := by
  have hlt : e.localVarCount.val < maxLocalVars := by rw [h.count]; exact hroom
  obtain ⟨hdepth, hstack⟩ := e.addEntry_scopes v
  refine ⟨?_, by rw [hdepth]; exact h.depth, by rw [hstack]; exact h.saved⟩
  rw [Scopes.visible_bind, ← h.visible, e.visible_addEntry v hlt]

theorem shows_exitScope {e : FunctionEmitter V} {current next : List (Variable V)} {enclosing : List (List (Variable V))}
    (h : Shows e ⟨current, next :: enclosing⟩) : Shows e.exitScope ⟨next, enclosing⟩ := by
  have hdepth : e.scopeDepth.val = enclosing.length + 1 := h.depth
  have hpos : 0 < e.scopeDepth.val := by omega
  have hle := e.scopeDepth.isLt
  have hlt' : enclosing.length < maxScopes := by omega
  have hlt : enclosing.length < e.scopeStack.toList.length := by simpa using hlt'
  have hsaved := h.saved
  simp only [Scopes.depth, List.length_cons, List.take_succ_eq_append_getElem hlt, List.map_append, savedCounts] at hsaved
  obtain ⟨hrest, hlast⟩ := List.append_inj hsaved (by simp [length_savedCounts]; omega)
  simp only [List.map_cons, List.map_nil, List.cons.injEq, and_true, Vector.getElem_toList] at hlast
  have hexit : e.exitScope = { e with localVarCount := e.scopeStack[enclosing.length],
                                      scopeDepth := ⟨enclosing.length, by omega⟩ } := by
    rw [FunctionEmitter.exitScope, dif_pos hpos]
    simp [hdepth]
  rw [hexit]
  refine ⟨?_, rfl, hrest⟩
  have hvisible := congrArg List.reverse h.visible
  simp only [FunctionEmitter.visible, Scopes.visible, List.flatten_cons, List.reverse_reverse] at hvisible ⊢
  rw [List.reverse_append] at hvisible
  have hcount := h.count
  simp only [Scopes.visible, List.flatten_cons, List.length_append] at hcount
  have hkept : e.localVars.toList.take (next ++ enclosing.flatten).length = (next ++ enclosing.flatten).reverse := by
    have hle : (next ++ enclosing.flatten).length ≤ e.localVarCount.val := by
      rw [List.length_append, hcount]
      omega
    rw [← Nat.min_eq_left hle, ← List.take_take, hvisible, List.take_left' List.length_reverse]
  rw [hlast, hkept, List.reverse_reverse]

/-- One call, within the limits, is the environment's step. -/
theorem shows_call {e : FunctionEmitter V} {s : Scopes (Variable V)} (h : Shows e s) {c : TableCall V}
    (hnested : Lexical.wellNested s.depth [c]) (hroom : Lexical.within s c) : Shows (e.call c) (Lexical.call s c) := by
  cases c with
  | enterScope => exact shows_enterScope h (of_decide_eq_true hroom)
  | addLocalVar name alloca varType arrayCount =>
    cases name with
    | none => exact h
    | some name =>
      cases alloca with
      | none => exact h
      | some alloca => exact shows_addEntry h _ (of_decide_eq_true hroom)
  | exitScope =>
    obtain ⟨current, _ | ⟨next, enclosing⟩⟩ := s
    · cases hnested
    · exact shows_exitScope h
  | lookupVar | lookupVarWithType | lookupVarArrayCount => exact h

theorem wellNested_cons {s : Scopes (Variable V)} {c : TableCall V} {calls : List (TableCall V)}
    (h : Lexical.wellNested s.depth (c :: calls)) :
    Lexical.wellNested s.depth [c] ∧ Lexical.wellNested (Lexical.call s c).depth calls := by
  unfold Lexical.wellNested Lexical.call moves at *
  rw [List.filterMap_cons] at h ⊢
  cases hmove : c.move with
  | none =>
    rw [hmove] at h
    exact ⟨rfl, h⟩
  | some move =>
    rw [hmove] at h
    cases move with
    | opens | binds b => exact ⟨rfl, h⟩
    | closes =>
      obtain ⟨current, _ | ⟨next, enclosing⟩⟩ := s
      · cases h
      · exact ⟨rfl, h⟩

/-- Every state a run reaches shows the environment the calls so far built. -/
theorem shows_reached {e : FunctionEmitter V} {s : Scopes (Variable V)} (h : Shows e s) (calls : List (TableCall V))
    {rest : List (TableCall V)} (hnested : Lexical.wellNested s.depth (calls ++ rest)) (hfits : Lexical.fits s (calls ++ rest)) :
    Shows (e.run calls) (Lexical.run s calls) := by
  induction calls generalizing e s with
  | nil => exact h
  | cons c calls ih =>
    obtain ⟨hc, hrest⟩ := wellNested_cons hnested
    obtain ⟨hroom, hfits⟩ := Bool.and_eq_true_iff.mp hfits
    exact ih (shows_call h hc hroom) hrest hfits

theorem answers_run {e : FunctionEmitter V} {s : Scopes (Variable V)} (h : Shows e s) {calls : List (TableCall V)}
    (hnested : Lexical.wellNested s.depth calls) (hfits : Lexical.fits s calls) :
    e.answers calls = Lexical.answers s calls := by
  induction calls generalizing e s with
  | nil => rfl
  | cons c calls ih =>
    obtain ⟨hc, hrest⟩ := wellNested_cons hnested
    obtain ⟨hroom, hfits⟩ := Bool.and_eq_true_iff.mp hfits
    rw [FunctionEmitter.answers, Lexical.answers, shows_answer h, ih (shows_call h hc hroom) hrest hfits]

theorem moves_append (calls rest : List (TableCall V)) : moves (calls ++ rest) = moves calls ++ moves rest :=
  List.filterMap_append

theorem run_moves (s : Scopes (Variable V)) (calls : List (TableCall V)) : Lexical.run s calls = s.run (moves calls) := by
  induction calls generalizing s with
  | nil => rfl
  | cons c calls ih =>
    change Lexical.run (Lexical.call s c) calls = _
    rw [ih]
    unfold Lexical.call moves
    rw [List.filterMap_cons]
    cases c.move <;> rfl

/-! ## Main results -/

/-- Inside the limits the table is a lexical environment: its lookups answer for the
    innermost binding of the name, and leaving a scope shows what entering it saw. -/
theorem calls_refine (calls : List (TableCall V)) (hnested : Lexical.wellNested 0 calls)
    (hfits : Lexical.fits Scopes.empty calls) :
    FunctionEmitter.create.answers calls = Lexical.answers Scopes.empty calls ∧
      ∀ before inside after, calls = before ++ .enterScope :: inside ++ .exitScope :: after →
        Scopes.nesting 0 (moves inside) = some 0 →
          (FunctionEmitter.create.run (before ++ .enterScope :: inside ++ [.exitScope])).visible =
            (FunctionEmitter.create.run before).visible := by
  refine ⟨answers_run shows_create hnested hfits, ?_⟩
  intro before inside after hcalls hinside
  have hthrough : calls = (before ++ .enterScope :: inside ++ [.exitScope]) ++ after := by simp [hcalls]
  have hup : calls = before ++ (.enterScope :: inside ++ .exitScope :: after) := by simp [hcalls]
  have hleft := shows_reached shows_create _ (hthrough ▸ hnested) (hthrough ▸ hfits)
  have hentered := shows_reached shows_create _ (hup ▸ hnested) (hup ▸ hfits)
  rw [hleft.visible, hentered.visible, run_moves, run_moves, List.append_assoc, moves_append, Scopes.run_append]
  have hscope : moves (.enterScope :: inside ++ [.exitScope]) = .opens :: moves inside ++ [.closes] := by
    change .opens :: moves (inside ++ [.exitScope]) = _
    rw [moves_append]
    rfl
  rw [hscope, Scopes.run_closed _ hinside]

/-- `x` is bound again in an inner scope. -/
def shadowing : List (TableCall Nat) :=
  [.addLocalVar (some ['x']) (some 1) .integer 0, .enterScope, .addLocalVar (some ['x']) (some 2) .int8 0,
    .lookupVarWithType ['x'], .exitScope, .lookupVar ['x'], .lookupVarArrayCount ['z']]

theorem calls_refine_shadowing :
    FunctionEmitter.create.answers shadowing = Lexical.answers Scopes.empty shadowing :=
  (calls_refine shadowing rfl rfl).1

/-- `x` is the 65th variable. -/
def overfull : List (TableCall Nat) :=
  List.replicate 64 (.addLocalVar (some ['y']) (some 0) .integer 0) ++
    [.addLocalVar (some ['x']) (some 1) .integer 0, .lookupVar ['x']]

/-- The 65th variable is not found. -/
theorem full_table_loses_binding :
    Lexical.wellNested 0 overfull ∧ FunctionEmitter.create.answers overfull ≠ Lexical.answers Scopes.empty overfull :=
  ⟨rfl, by decide +kernel⟩

/-! ## Past the limits -/

/-- A variable that does not fit is dropped. -/
theorem full_table_drops {e : FunctionEmitter V} (h : e.visible.length = maxLocalVars) (name : Option (List Char))
    (alloca : Option V) (varType : LiteralType) (arrayCount : Int) : e.addLocalVar name alloca varType arrayCount = e := by
  have hfull : ¬ e.localVarCount.val < maxLocalVars := by
    rw [← FunctionEmitter.length_visible, h]
    omega
  simp [FunctionEmitter.addLocalVar, FunctionEmitter.addEntry, hfull]

/-- A scope that does not fit is not entered; the exit that matches it leaves the scope around it. -/
theorem full_stack_forgets {e : FunctionEmitter V} (h : e.scopeDepth.val = maxScopes) : e.enterScope = e := by
  simp [FunctionEmitter.enterScope, h]

end Xvr.Backend
