/-
  Xvr.Backend.ParameterSlots — the parameters of a procedure, from its declaration to the
  variables its body finds.

  The emitter goes through the declared parameters twice: into arrays of 32 entries for the
  function's type, then into the table of variables for the allocas that hold the arguments.

  Proved:
  - `find_kept`: whatever the table is asked to do, but to add a variable of the name, with no
    scope open at the start, the name is found as before.
  - `emitParameters_code`, `emitParameters_visible`: one alloca and one store a parameter, in
    order, each alloca in an entry of its own.
  - `parameters_bound_iff`: every parameter is bound exactly when there are at most 32.
  - `emitProgram_depth`: at the top level, where procedures are declared, no scope is open.
-/

import Xvr.Backend.LexicalScopes
import Xvr.Backend.ProcedureFrame

namespace Xvr.Backend

open Xvr.Runtime Xvr.Lib
open Xvr.Frontend (Node)

/-! ## A name the table is not asked to add -/

section

variable {V : Type}

/-- The call adds no variable of the name. -/
def TableCall.spares (name : List Char) : TableCall V → Bool
  | .addLocalVar (some added) _ _ _ => added ≠ name
  | _ => true

/-- In the outermost scope the environment ends in `base`, and nothing before it has the name. -/
def Under (name : List Char) (base : List (Variable V)) (s : Scopes (Variable V)) : Prop :=
  ∃ inner own, s.current :: s.enclosing = inner ++ [own ++ base] ∧ ∀ v ∈ inner.flatten ++ own, v.name ≠ some name

theorem Under.find {name : List Char} {base : List (Variable V)} {s : Scopes (Variable V)} (h : Under name base s) :
    Lexical.find s name = base.find? fun v => v.name = some name := by
  obtain ⟨inner, own, hs, hnone⟩ := h
  have hvisible : s.visible = (inner.flatten ++ own) ++ base := by
    show (s.current :: s.enclosing).flatten = _
    rw [hs]
    simp
  rw [Lexical.find, hvisible, List.find?_append, List.find?_eq_none.mpr (by simpa using hnone), Option.none_or]

theorem Under.opened {name : List Char} {base : List (Variable V)} {s : Scopes (Variable V)} (h : Under name base s) :
    Under name base s.opened := by
  obtain ⟨inner, own, hs, hnone⟩ := h
  exact ⟨[] :: inner, own, congrArg (List.cons []) hs, hnone⟩

theorem Under.bind {name : List Char} {base : List (Variable V)} {s : Scopes (Variable V)} (h : Under name base s)
    {v : Variable V} (hv : v.name ≠ some name) : Under name base (s.bind v) := by
  obtain ⟨inner, own, hs, hnone⟩ := h
  cases inner with
  | nil =>
    obtain ⟨hcurrent, henclosing⟩ := List.cons.inj hs
    refine ⟨[], v :: own, ?_, ?_⟩
    · show (v :: s.current) :: s.enclosing = _
      rw [hcurrent, henclosing]
      rfl
    · simpa [hv] using hnone
  | cons current inner =>
    obtain ⟨hcurrent, henclosing⟩ := List.cons.inj hs
    refine ⟨(v :: current) :: inner, own, ?_, ?_⟩
    · show (v :: s.current) :: s.enclosing = _
      rw [hcurrent, henclosing]
      rfl
    · simpa [hv] using hnone

theorem Under.closed {name : List Char} {base : List (Variable V)} {current next : List (Variable V)}
    {enclosing : List (List (Variable V))} (h : Under name base ⟨current, next :: enclosing⟩) :
    Under name base ⟨next, enclosing⟩ := by
  obtain ⟨inner, own, hs, hnone⟩ := h
  cases inner with
  | nil => exact absurd (List.cons.inj hs).2 (by simp)
  | cons innermost inner =>
    refine ⟨inner, own, (List.cons.inj hs).2, fun v hv => hnone v ?_⟩
    rw [List.flatten_cons, List.append_assoc]
    exact List.mem_append_right _ hv

/-- A call that spares the name leaves it to the outermost scope. Past the limits it does
    nothing, and no exit goes further out than the start. -/
theorem under_call {name : List Char} {base : List (Variable V)} {e : FunctionEmitter V} {s : Scopes (Variable V)}
    (h : Shows e s) (hu : Under name base s) {c : TableCall V} (hc : c.spares name = true) :
    ∃ s', Shows (e.call c) s' ∧ Under name base s' := by
  cases c with
  | enterScope =>
    by_cases hroom : s.depth < maxScopes
    · exact ⟨_, shows_enterScope h hroom, hu.opened⟩
    · have hfull : e.scopeDepth.val = maxScopes := by
        have := e.scopeDepth.isLt
        have := h.depth
        omega
      exact ⟨s, by rw [FunctionEmitter.call, full_stack_forgets hfull]; exact h, hu⟩
  | addLocalVar added alloca varType arrayCount =>
    cases added with
    | none => exact ⟨s, h, hu⟩
    | some added =>
      cases alloca with
      | none => exact ⟨s, h, hu⟩
      | some alloca =>
        have hne : added ≠ name := of_decide_eq_true hc
        by_cases hroom : s.visible.length < maxLocalVars
        · exact ⟨_, shows_addEntry h _ hroom, hu.bind (fun heq => hne (Option.some.inj heq))⟩
        · have hfull : e.visible.length = maxLocalVars := by
            have := e.localVarCount.isLt
            rw [FunctionEmitter.length_visible]
            have := h.count
            omega
          exact ⟨s, by rw [FunctionEmitter.call, full_table_drops hfull]; exact h, hu⟩
  | exitScope =>
    obtain ⟨current, _ | ⟨next, enclosing⟩⟩ := s
    · have hdepth : e.scopeDepth.val = 0 := h.depth
      refine ⟨_, ?_, hu⟩
      rw [FunctionEmitter.call, FunctionEmitter.exitScope, dif_neg (by omega)]
      exact h
    · exact ⟨_, shows_exitScope h, hu.closed⟩
  | lookupVar | lookupVarWithType | lookupVarArrayCount => exact ⟨s, h, hu⟩

theorem under_run {name : List Char} {base : List (Variable V)} {e : FunctionEmitter V} {s : Scopes (Variable V)}
    (h : Shows e s) (hu : Under name base s) {calls : List (TableCall V)} (hc : ∀ c ∈ calls, c.spares name = true) :
    ∃ s', Shows (e.run calls) s' ∧ Under name base s' := by
  induction calls generalizing e s with
  | nil => exact ⟨s, h, hu⟩
  | cons c calls ih =>
    obtain ⟨s', hs', hu'⟩ := under_call h hu (hc c List.mem_cons_self)
    exact ih hs' hu' fun c hmem => hc c (List.mem_cons_of_mem _ hmem)

/-- The table beside the environment of one scope. -/
theorem shows_visible {e : FunctionEmitter V} (h : e.scopeDepth.val = 0) : Shows e ⟨e.visible, []⟩ :=
  ⟨(List.append_nil _).symm, h, rfl⟩

theorem find_kept {e : FunctionEmitter V} (h : e.scopeDepth.val = 0) {name : List Char} {calls : List (TableCall V)}
    (hc : ∀ c ∈ calls, c.spares name = true) : (e.run calls).find name = e.find name := by
  have hu : Under name e.visible ⟨e.visible, []⟩ := ⟨[], [], rfl, List.forall_mem_nil _⟩
  obtain ⟨s, hs, hunder⟩ := under_run (shows_visible h) hu hc
  rw [shows_find hs, hunder.find, FunctionEmitter.find_eq]

end

/-! ## The entry of a procedure -/

/-- The variable a parameter becomes; `id` is the number of its alloca. -/
def Parameter.entry (p : Parameter) (id : Nat) : Variable Value :=
  ⟨some p.name, some (.alloca id (typeMapperGetType p.type)), p.type, 0⟩

/-- Its alloca, and the store of the argument. -/
def Parameter.code (p : Parameter) (i id : Nat) : List Instr :=
  [.op ⟨id, .alloca (typeMapperGetType p.type)⟩,
    .op ⟨id + 1, .store (.parameter i (typeMapperGetType p.type)) (.alloca id (typeMapperGetType p.type))⟩]

def parameterEntries : List Parameter → Nat → List (Variable Value)
  | [], _ => []
  | p :: ps, id => p.entry id :: parameterEntries ps (id + 2)

def parameterCode : List Parameter → Nat → Nat → List Instr
  | [], _, _ => []
  | p :: ps, i, id => p.code i id ++ parameterCode ps (i + 1) (id + 2)

theorem getElem?_parameterEntries (ps : List Parameter) (id i : Nat) :
    (parameterEntries ps id)[i]? = ps[i]?.map fun p => p.entry (id + 2 * i) := by
  induction ps generalizing id i with
  | nil => rfl
  | cons p ps ih =>
    cases i with
    | zero => rfl
    | succ i =>
      rw [parameterEntries, List.getElem?_cons_succ, List.getElem?_cons_succ, ih]
      congr 2
      funext p
      congr 1
      omega

/-- The two instructions of a parameter, where they stand. -/
theorem parameterCode_at {ps : List Parameter} {i : Nat} {p : Parameter} (h : ps[i]? = some p) (first id : Nat) :
    ∃ before after, parameterCode ps first id = before ++ p.code (first + i) (id + 2 * i) ++ after ∧ before.length = 2 * i := by
  induction ps generalizing i first id with
  | nil => exact absurd h (by simp)
  | cons q ps ih =>
    cases i with
    | zero =>
      obtain rfl := Option.some.inj h
      exact ⟨[], parameterCode ps (first + 1) (id + 2), rfl, rfl⟩
    | succ i =>
      obtain ⟨before, after, hcode, hlength⟩ := ih (i := i) (by simpa using h) (first + 1) (id + 2)
      refine ⟨q.code first id ++ before, after, ?_, ?_⟩
      · rw [parameterCode, hcode]
        have hfirst : first + 1 + i = first + (i + 1) := by omega
        have hid : id + 2 + 2 * i = id + 2 * (i + 1) := by omega
        rw [hfirst, hid, List.append_assoc, List.append_assoc, List.append_assoc]
      · rw [List.length_append, hlength, Parameter.code]
        simp
        omega

section

variable {s : Codegen}

/-- The state behind the two instructions of a parameter and its entry. -/
def bindParameter (p : Parameter) (i : Nat) (s : Codegen) : Codegen :=
  let type := typeMapperGetType p.type
  let s' := ((s.build (.alloca type)).2.build (.store (.parameter i type) (.alloca s.nextId type))).2
  { s' with fnEmitter := s'.fnEmitter.addEntry (p.entry s.nextId) }

theorem emitParameters_cons (p : Parameter) (ps : List Parameter) (i : Nat) (s : Codegen) :
    emitParameters (p :: ps) i s = emitParameters ps (i + 1) (bindParameter p i s) := rfl

theorem bindParameter_nextId (p : Parameter) (i : Nat) (s : Codegen) : (bindParameter p i s).nextId = s.nextId + 2 := rfl

theorem bindParameter_emitter (p : Parameter) (i : Nat) (s : Codegen) :
    (bindParameter p i s).fnEmitter = s.fnEmitter.addEntry (p.entry s.nextId) := by
  simp [bindParameter, Codegen.build]

theorem bindParameter_functions (p : Parameter) (i : Nat) (s : Codegen) :
    (bindParameter p i s).functions = s.functions := by
  simp [bindParameter, Codegen.build]

theorem bindParameter_here (p : Parameter) (i : Nat) (s : Codegen) : (bindParameter p i s).here = s.here := by
  rw [Codegen.here_congr]
  simp [bindParameter, Codegen.build]

theorem bindParameter_standing (h : s.Standing) (p : Parameter) (i : Nat) : (bindParameter p i s).Standing := by
  refine ⟨?_, ?_⟩
  · rw [bindParameter_here]
    simpa [bindParameter, Codegen.build] using h.1
  · rw [bindParameter_here]
    simpa [bindParameter, Codegen.build] using h.2

theorem bindParameter_code (h : s.Standing) (p : Parameter) (i : Nat) :
    (bindParameter p i s).code s.here = s.code s.here ++ p.code i s.nextId := by
  have hbuild (op : Op Value) {t : Codegen} (ht : t.Standing) :
      (t.build op).2.code t.here = t.code t.here ++ [.op ⟨t.nextId, op⟩] :=
    (Codegen.code_congr rfl _).trans (Codegen.append_code_here ht _)
  have hstanding : (s.build (.alloca (typeMapperGetType p.type))).2.Standing :=
    ⟨by simpa [Codegen.build, Codegen.here] using h.1, by simpa [Codegen.build, Codegen.here] using h.2⟩
  have hhere : (s.build (.alloca (typeMapperGetType p.type))).2.here = s.here :=
    Codegen.here_congr (by simp [Codegen.build])
  have hsecond := hbuild (.store (.parameter i (typeMapperGetType p.type)) (.alloca s.nextId (typeMapperGetType p.type)))
    hstanding
  rw [hhere, hbuild _ h, List.append_assoc] at hsecond
  exact hsecond

theorem emitParameters_code (h : s.Standing) (ps : List Parameter) (i : Nat) :
    (emitParameters ps i s).code s.here = s.code s.here ++ parameterCode ps i s.nextId := by
  induction ps generalizing i s with
  | nil => exact (List.append_nil _).symm
  | cons p ps ih =>
    have hrest := ih (bindParameter_standing h p i) (i + 1)
    rw [bindParameter_here, bindParameter_code h, bindParameter_nextId, List.append_assoc] at hrest
    exact hrest

theorem emitParameters_here (ps : List Parameter) (i : Nat) (s : Codegen) : (emitParameters ps i s).here = s.here := by
  induction ps generalizing i s with
  | nil => rfl
  | cons p ps ih => rw [emitParameters_cons, ih, bindParameter_here]

theorem emitParameters_functions (ps : List Parameter) (i : Nat) (s : Codegen) :
    (emitParameters ps i s).functions = s.functions := by
  induction ps generalizing i s with
  | nil => rfl
  | cons p ps ih => rw [emitParameters_cons, ih, bindParameter_functions]

theorem emitParameters_depth (ps : List Parameter) (i : Nat) (s : Codegen) :
    (emitParameters ps i s).fnEmitter.scopeDepth = s.fnEmitter.scopeDepth := by
  induction ps generalizing i s with
  | nil => rfl
  | cons p ps ih =>
    rw [emitParameters_cons, ih, bindParameter_emitter]
    exact (FunctionEmitter.addEntry_scopes _ _).1

/-- While the table has room, every parameter gets an entry. -/
theorem emitParameters_visible (ps : List Parameter) (i : Nat) (s : Codegen)
    (room : s.fnEmitter.localVarCount.val + ps.length ≤ maxLocalVars) :
    (emitParameters ps i s).fnEmitter.visible = (parameterEntries ps s.nextId).reverse ++ s.fnEmitter.visible := by
  induction ps generalizing i s with
  | nil => rfl
  | cons p ps ih =>
    rw [List.length_cons] at room
    have hlt : s.fnEmitter.localVarCount.val < maxLocalVars := by omega
    have hvisible : (bindParameter p i s).fnEmitter.visible = p.entry s.nextId :: s.fnEmitter.visible := by
      rw [bindParameter_emitter, FunctionEmitter.visible_addEntry _ hlt]
    have hcount := congrArg List.length hvisible
    rw [FunctionEmitter.length_visible, List.length_cons, FunctionEmitter.length_visible] at hcount
    rw [emitParameters_cons, ih _ _ (by omega), hvisible, bindParameter_nextId, parameterEntries, List.reverse_cons,
      List.append_assoc]
    rfl

/-- Of entries with distinct names, whichever is asked for is found. -/
theorem find_parameterEntries {ps : List Parameter} (hnames : (ps.map Parameter.name).Nodup) (id : Nat) {i : Nat}
    {p : Parameter} (h : ps[i]? = some p) :
    (parameterEntries ps id).reverse.find? (fun v => v.name = some p.name) = some (p.entry (id + 2 * i)) := by
  have hentry : (parameterEntries ps id)[i]? = some (p.entry (id + 2 * i)) := by
    rw [getElem?_parameterEntries, h]
    rfl
  cases hfind : (parameterEntries ps id).reverse.find? fun v => v.name = some p.name with
  | none =>
    have hnone := List.find?_eq_none.mp hfind _ (List.mem_reverse.mpr (List.mem_of_getElem? hentry))
    exact absurd (by simp [Parameter.entry]) hnone
  | some v =>
    have hname := List.find?_some hfind
    obtain ⟨j, hj⟩ := List.mem_iff_getElem?.mp (List.mem_reverse.mp (List.mem_of_find?_eq_some hfind))
    rw [getElem?_parameterEntries, Option.map_eq_some_iff] at hj
    obtain ⟨q, hq, rfl⟩ := hj
    have hsame : q.name = p.name := Option.some.inj (of_decide_eq_true hname)
    have hij : j = i := by
      have hi' : (ps.map Parameter.name)[i]? = some p.name := by rw [List.getElem?_map, h]; rfl
      have hj' : (ps.map Parameter.name)[j]? = some p.name := by rw [List.getElem?_map, hq, ← hsame]; rfl
      have hlt := (List.getElem?_eq_some_iff.mp hj').1
      exact (List.getElem?_inj hlt hnames).mp (hj'.trans hi'.symm)
    subst hij
    rw [Option.some.inj (h.symm.trans hq)]

end

/-! ## What no node changes -/

/-- No node adds a function. -/
def SameFunctions (s t : Codegen) : Prop := t.functions = s.functions

/-- No node leaves a scope open. -/
def Shallower (s t : Codegen) : Prop := t.fnEmitter.scopeDepth.val ≤ s.fnEmitter.scopeDepth.val

theorem sameFunctions_stable : Stable fun _ => SameFunctions where
  trans h h' := Eq.trans h' h
  widen _ h := h
  quiet _ hf _ _ := hf
  append _ := Codegen.append_functions _ _
  createBlock := rfl
  declare _ _ _ _ _ := rfl
  scope h := h

theorem shallower_declares (u : ScopeUse) : Declares (fun _ => Shallower) u := fun s name alloca varType arrayCount =>
  (Balanced.declare (some name) (some alloca) varType arrayCount s.fnEmitter).shallow

theorem shallower_stable : Stable fun _ => Shallower where
  trans h h' := Nat.le_trans h' h
  widen _ h := h
  quiet {u s t} _ _ he _ := by
    show t.fnEmitter.scopeDepth.val ≤ s.fnEmitter.scopeDepth.val
    rw [he]
  append {u s i} _ := by
    show (s.append i).fnEmitter.scopeDepth.val ≤ _
    rw [Codegen.append_fnEmitter]
  createBlock := Nat.le_refl _
  declare := shallower_declares _
  scope {u s t} h := by
    have hexit := Balanced.exitScope_shallow t.fnEmitter
    have henter : s.fnEmitter.enterScope.scopeDepth.val ≤ s.fnEmitter.scopeDepth.val + 1 := by
      unfold FunctionEmitter.enterScope
      split
      · exact Nat.le_refl _
      · exact Nat.le_succ _
    have hinside : t.fnEmitter.scopeDepth.val ≤ s.fnEmitter.enterScope.scopeDepth.val := h
    show t.fnEmitter.exitScope.scopeDepth.val ≤ s.fnEmitter.scopeDepth.val
    omega

section

variable {library : Library Value} {R : Codegen → Codegen → Prop} (hR : Stable fun _ => R)
  (hd : ∀ u, Declares (fun _ => R) u)

include hR hd

theorem emit_related (node : Node) (s : Codegen) : R s (emit library node s).2 := emit_within hR (.inl hd) node s

theorem bodyAction_related {statements : List Node} {action : Action} (h : BodyAction library statements action)
    (s : Codegen) : R s (action s).2 := by
  cases h with
  | statement => exact emit_related hR hd _ s
  | @returned returns _ value =>
    rcases returnValue_cases library returns value with ⟨node, heq⟩ | heq
    · rw [heq]
      exact emit_related hR hd node s
    · rw [heq]
      exact hR.refl ScopeUse.none s
  | failed message => exact hR.quiet (u := ScopeUse.none) rfl rfl rfl rfl

theorem body_related {statements : List Node} {actions : List Action}
    (h : ∀ a ∈ actions, BodyAction library statements a) (s : Codegen) : R s (runAll actions s) := by
  induction actions generalizing s with
  | nil => exact hR.refl ScopeUse.none s
  | cons action actions ih =>
    exact hR.trans (u := ScopeUse.none) (bodyAction_related hR hd (h action List.mem_cons_self) s)
      (ih (fun a ha => h a (List.mem_cons_of_mem _ ha)) _)

end

section

variable {library : Library Value}

/-- What an accepted procedure is, behind its entry. -/
theorem emitFunctionBody_opened {identifier : Literal} {arguments returns body : Node} {s : Codegen}
    (haccepted : (emitFunctionBody library identifier arguments returns body s).1 = true) :
    Emitted False [] (openFunction (functionName identifier) (returnTypeOf returns) (parameters arguments) s)
        (emitFunctionBody library identifier arguments returns body s).2 ∧
      (emitFunctionBody library identifier arguments returns body s).2.functions =
        (openFunction (functionName identifier) (returnTypeOf returns) (parameters arguments) s).functions := by
  unfold emitFunctionBody at haccepted ⊢
  split at haccepted
  · rename_i statements
    dsimp only at haccepted ⊢
    have hopen := openFunction_emitted False (functionName identifier) (returnTypeOf returns) (parameters arguments) s
    obtain ⟨actions, hactions, hrun, -⟩ := emitStatements_actions library (returnTypeOf returns)
      (functionName identifier) statements none false
      (openFunction (functionName identifier) (returnTypeOf returns) (parameters arguments) s)
    have hbody := (runAll_keeps (fun a ha => (hactions a ha).keeps not_false) (.refl hopen.grows.standing)).1
    have hfunctions : SameFunctions _ _ := body_related sameFunctions_stable (fun _ _ _ _ _ _ => rfl) hactions
      (openFunction (functionName identifier) (returnTypeOf returns) (parameters arguments) s)
    rw [← hrun] at hbody hfunctions
    split at haccepted
    · cases haccepted
    · rename_i value found t heq
      rw [heq] at hbody hfunctions
      obtain ⟨hend, hsame, -⟩ := finishBody_emitted hbody haccepted
      exact ⟨hend, hsame.trans hfunctions⟩
  · cases haccepted

end

/-! ## All parameters are bound -/

/-- A parameter with a name and a type, as it is declared. -/
structure ParameterDecl where
  name : List Char
  typeOf : LiteralType
  constant : Bool
  subtypes : List Literal
  line : Nat

namespace ParameterDecl

def node (p : ParameterDecl) : Node := .varDecl (.identifier p.name) (.type p.typeOf p.constant p.subtypes) .null p.line

def parameter (p : ParameterDecl) : Parameter := ⟨p.name, p.typeOf⟩

def llvmType (p : ParameterDecl) : LlvmType := typeMapperGetType p.typeOf

end ParameterDecl

/-- In the entry block the `i`-th argument is stored in the slot as soon as there is one. -/
def Initialised (t : Codegen) (entry i : Nat) (type : LlvmType) (slot : Value) : Prop :=
  ∃ before id after, t.code entry =
      before ++ [.op ⟨id, .alloca type⟩, .op ⟨id + 1, .store (.parameter i type) slot⟩] ++ after ∧
    before.length = 2 * i ∧ slot = .alloca id type

/-- What a procedure emitted from `s` to `t`, whose body begins at `opened`, makes of its
    parameters. With no scope open before it, the table answers the same until it is asked to
    add a variable of the name. -/
structure ParametersBound (decls : List ParameterDecl) (s opened t : Codegen) : Prop where
  function : ∃ f, t.functions = s.functions ++ [f] ∧ f.parameters = decls.map (·.llvmType)
  slots : ∀ i p, decls[i]? = some p → ∃ slot, Initialised t s.blocks.length i p.llvmType slot ∧
    opened.fnEmitter.lookupVar p.name = some slot ∧
    (s.fnEmitter.scopeDepth.val = 0 → ∀ calls : List (TableCall Value), (∀ c ∈ calls, c.spares p.name = true) →
      (opened.fnEmitter.run calls).lookupVar p.name = some slot)

/-- The first parameters are those the emitter takes over. -/
theorem parameters_decls (decls : List ParameterDecl) :
    parameters (.fnCollection (decls.map ParameterDecl.node)) = (decls.take maxParameters).map ParameterDecl.parameter := by
  rw [parameters, ← List.map_take, List.filterMap_map]
  exact congrFun List.filterMap_eq_map _

section

variable (name : List Char) (returnType : LlvmType) (params : List Parameter) (s : Codegen)

theorem openFunction_eq : openFunction name returnType params s = emitParameters params 0 (entered name returnType params s) :=
  rfl

theorem openFunction_functions : (openFunction name returnType params s).functions =
    s.functions ++ [⟨s.uniqueName name, returnType, params.map fun p => typeMapperGetType p.type⟩] := by
  rw [openFunction_eq, emitParameters_functions]
  rfl

theorem openFunction_here : (openFunction name returnType params s).here = s.blocks.length := by
  rw [openFunction_eq, emitParameters_here]
  rfl

theorem openFunction_depth :
    (openFunction name returnType params s).fnEmitter.scopeDepth = s.fnEmitter.scopeDepth := by
  rw [openFunction_eq, emitParameters_depth]
  rfl

theorem openFunction_code :
    (openFunction name returnType params s).code s.blocks.length = parameterCode params 0 s.nextId := by
  have hcode := emitParameters_code (entered_standing name returnType params s) params 0
  rw [show (entered name returnType params s).here = s.blocks.length from rfl,
    entered_code _ _ _ _ (Nat.le_refl _), List.nil_append] at hcode
  exact hcode

theorem openFunction_visible (h : params.length ≤ maxLocalVars) :
    (openFunction name returnType params s).fnEmitter.visible = (parameterEntries params s.nextId).reverse := by
  have hcount : (entered name returnType params s).fnEmitter.localVarCount.val = 0 := rfl
  rw [openFunction_eq, emitParameters_visible _ _ _ (by omega)]
  exact List.append_nil _

end

/-- Every parameter is bound exactly when they fit the emitter's arrays. -/
theorem parameters_bound_iff (library : Library Value) (identifier : Literal) (decls : List ParameterDecl)
    (hnames : (decls.map ParameterDecl.name).Nodup) (returns body : Node) (s : Codegen)
    (haccepted : (emitFunctionBody library identifier (.fnCollection (decls.map ParameterDecl.node)) returns body s).1 = true) :
    ParametersBound decls s
        (openFunction (functionName identifier) (returnTypeOf returns)
          (parameters (.fnCollection (decls.map ParameterDecl.node))) s)
        (emitFunctionBody library identifier (.fnCollection (decls.map ParameterDecl.node)) returns body s).2 ↔
      decls.length ≤ maxParameters := by
  obtain ⟨hemitted, hfunctions⟩ := emitFunctionBody_opened haccepted
  rw [openFunction_functions, parameters_decls, List.map_map] at hfunctions
  constructor
  · rintro ⟨⟨f, hf, htypes⟩, -⟩
    -- the function has as many parameters as were taken over
    rw [hfunctions] at hf
    have hlast := (List.append_inj' hf rfl).2
    rw [← List.singleton_inj.mp hlast] at htypes
    have hlength := congrArg List.length htypes
    simp only [List.length_map, List.length_take] at hlength
    omega
  · intro hfits
    have hall : parameters (.fnCollection (decls.map ParameterDecl.node)) = decls.map ParameterDecl.parameter := by
      rw [parameters_decls, List.take_of_length_le hfits]
    rw [List.take_of_length_le hfits] at hfunctions
    rw [hall] at hemitted ⊢
    refine ⟨⟨_, hfunctions, rfl⟩, ?_⟩
    intro i p hp
    have hparam : (decls.map ParameterDecl.parameter)[i]? = some p.parameter := by rw [List.getElem?_map, hp]; rfl
    have hnames' : ((decls.map ParameterDecl.parameter).map Parameter.name).Nodup := by
      rw [List.map_map]
      exact hnames
    have hroom : (decls.map ParameterDecl.parameter).length ≤ maxLocalVars := by
      rw [List.length_map]
      exact Nat.le_trans hfits (by decide)
    have hfind : (openFunction (functionName identifier) (returnTypeOf returns) (decls.map ParameterDecl.parameter) s).fnEmitter.find
        p.name = some (p.parameter.entry (s.nextId + 2 * i)) := by
      rw [FunctionEmitter.find_eq, openFunction_visible _ _ _ _ hroom]
      exact find_parameterEntries hnames' s.nextId hparam
    refine ⟨.alloca (s.nextId + 2 * i) p.llvmType, ?_, ?_, ?_⟩
    · -- the body writes only behind what the entry block begins with
      obtain ⟨before, after, hcode, hlength⟩ := parameterCode_at hparam 0 s.nextId
      obtain ⟨rest, hrest⟩ := hemitted.grows.current
      rw [openFunction_here, openFunction_code, hcode, Nat.zero_add] at hrest
      exact ⟨before, s.nextId + 2 * i, after ++ rest, by rw [← hrest, List.append_assoc _ after]; rfl, hlength, rfl⟩
    · rw [FunctionEmitter.lookupVar, hfind]
      rfl
    · intro hdepth calls hcalls
      have hopen := openFunction_depth (functionName identifier) (returnTypeOf returns)
        (decls.map ParameterDecl.parameter) s
      rw [FunctionEmitter.lookupVar, find_kept (by rw [hopen]; exact hdepth) hcalls, hfind]
      rfl

/-- `proc second(a: int, b: int): int { return b; }`. -/
theorem parameters_bound_second :
    ParametersBound [⟨['a'], .integer, false, [], 1⟩, ⟨['b'], .integer, false, [], 1⟩] Codegen.create
      (openFunction (functionName (.identifier "second".toList))
        (returnTypeOf (.fnCollection [.literal (.type .integer false [])]))
        (parameters (.fnCollection ([⟨['a'], .integer, false, [], 1⟩, ⟨['b'], .integer, false, [], 1⟩].map
          ParameterDecl.node))) Codegen.create)
      (emitFunctionBody .nothing (.identifier "second".toList)
        (.fnCollection ([⟨['a'], .integer, false, [], 1⟩, ⟨['b'], .integer, false, [], 1⟩].map ParameterDecl.node))
        (.fnCollection [.literal (.type .integer false [])])
        (.block [.fnReturn (.fnCollection [.literal (.identifier ['b'])])]) Codegen.create).2 :=
  (parameters_bound_iff .nothing (.identifier "second".toList)
    [⟨['a'], .integer, false, [], 1⟩, ⟨['b'], .integer, false, [], 1⟩] (by decide)
    (.fnCollection [.literal (.type .integer false [])])
    (.block [.fnReturn (.fnCollection [.literal (.identifier ['b'])])]) Codegen.create rfl).mpr (by decide)

/-- As many parameters as said, with names of one letter repeated. -/
def manyParameters (n : Nat) : List ParameterDecl :=
  (List.range n).map fun i => ⟨List.replicate (i + 1) 'a', .integer, false, [], 1⟩

/-- Of 33 parameters the function has 32. -/
theorem last_parameter_dropped : ¬ ∀ (library : Library Value) (identifier : Literal) (decls : List ParameterDecl),
    (decls.map ParameterDecl.name).Nodup → ∀ (returns body : Node) (s : Codegen),
      (emitFunctionBody library identifier (.fnCollection (decls.map ParameterDecl.node)) returns body s).1 = true →
        ParametersBound decls s
          (openFunction (functionName identifier) (returnTypeOf returns)
            (parameters (.fnCollection (decls.map ParameterDecl.node))) s)
          (emitFunctionBody library identifier (.fnCollection (decls.map ParameterDecl.node)) returns body s).2 := by
  intro h
  obtain ⟨⟨f, hf, htypes⟩, -⟩ := h .nothing (.identifier ['f']) (manyParameters 33) (by decide)
    (.fnCollection [.literal (.type .void false [])]) (.block []) Codegen.create rfl
  have hcount : (emitFunctionBody .nothing (.identifier ['f']) (.fnCollection ((manyParameters 33).map ParameterDecl.node))
      (.fnCollection [.literal (.type .void false [])]) (.block []) Codegen.create).2.functions.map
        (·.parameters.length) = [32] := rfl
  rw [hf] at hcount
  have hlength := congrArg List.length htypes
  have : (manyParameters 33).length = 33 := rfl
  simp [Codegen.create] at hcount hlength
  omega

/-! ## The top level -/

section

variable {library : Library Value}

theorem openFunction_shallower (name : List Char) (returnType : LlvmType) (params : List Parameter) (s : Codegen) :
    Shallower s (openFunction name returnType params s) := by
  show (openFunction name returnType params s).fnEmitter.scopeDepth.val ≤ _
  rw [openFunction_depth]

theorem finishBody_emitter (returnType : LlvmType) (name : List Char) (value : Option Value) (found : Bool) (s : Codegen) :
    (finishBody returnType name value found s).2.fnEmitter = s.fnEmitter := by
  unfold finishBody
  split
  · split
    · rfl
    · exact Codegen.append_fnEmitter _ _
  · split
    · exact Codegen.append_fnEmitter _ _
    · split <;> rfl

theorem emitFunctionBody_shallower (identifier : Literal) (arguments returns body : Node) (s : Codegen) :
    Shallower s (emitFunctionBody library identifier arguments returns body s).2 := by
  unfold emitFunctionBody
  split
  · rename_i statements
    obtain ⟨actions, hactions, hrun, -⟩ := emitStatements_actions library (returnTypeOf returns)
      (functionName identifier) statements none false
      (openFunction (functionName identifier) (returnTypeOf returns) (parameters arguments) s)
    have hopen := openFunction_shallower (functionName identifier) (returnTypeOf returns) (parameters arguments) s
    have hbody := shallower_stable.trans (u := ScopeUse.none) hopen
      (body_related shallower_stable shallower_declares hactions _)
    rw [← hrun] at hbody
    dsimp only
    split
    · rename_i heq
      rw [heq] at hbody
      exact hbody
    · rename_i heq
      rw [heq] at hbody
      show (finishBody _ _ _ _ _).2.fnEmitter.scopeDepth.val ≤ _
      rw [finishBody_emitter]
      exact hbody
  · exact Nat.le_refl _

theorem emitProcedure_shallower (node : Node) (s : Codegen) : Shallower s (emitProcedure library node s).2 := by
  cases node with
  | fnDecl identifier arguments returns body line => exact emitFunctionBody_shallower identifier arguments returns body s
  | _ => exact Nat.le_refl _

theorem emitCollection_shallower (nodes : List Node) (s : Codegen) : Shallower s (emitCollection library nodes s).2 := by
  induction nodes generalizing s with
  | nil => exact Nat.le_refl _
  | cons node nodes ih =>
    have hfirst : Shallower s (emitProcedure library node s).2 := emitProcedure_shallower node s
    rw [emitCollection]
    split
    · rename_i heq
      rw [heq] at hfirst
      exact hfirst
    · rename_i heq
      rw [heq] at hfirst
      exact shallower_stable.trans (u := ScopeUse.none) hfirst (ih _)

theorem ensureMainFunction_shallower (s : Codegen) : Shallower s (ensureMainFunction s) := by
  unfold ensureMainFunction
  split
  · exact Nat.le_refl _
  · split
    · split <;> exact Nat.le_refl _
    · exact Nat.le_refl _

theorem thenMain_shallower {s : Codegen} {result : Bool × Codegen} (h : Shallower s result.2) :
    Shallower s (thenMain result).2 := by
  unfold thenMain
  split
  · exact shallower_stable.trans (u := ScopeUse.none) h (ensureMainFunction_shallower _)
  · exact h

/-- At the top level of a program no scope is open, if the imports leave none open. -/
theorem emitProgram_depth {importModule : Literal → Codegen → Bool × Codegen}
    (himport : ∀ identifier s, Shallower s (importModule identifier s).2) (nodes : List Node) {s : Codegen}
    (h : s.fnEmitter.scopeDepth.val = 0) : (emitProgram library importModule nodes s).fnEmitter.scopeDepth.val = 0 := by
  induction nodes generalizing s with
  | nil => exact h
  | cons node nodes ih =>
    have hnode : Shallower s (emitAST library importModule node s).2 := by
      unfold emitAST
      split
      · exact Nat.le_refl _
      · split
        · exact himport _ _
        · exact thenMain_shallower (emitCollection_shallower _ _)
        · exact thenMain_shallower (emitProcedure_shallower _ _)
        · exact shallower_stable.trans (u := ScopeUse.none) (ensureMainFunction_shallower s)
            (emit_related shallower_stable shallower_declares _ _)
    exact ih (Nat.le_zero.mp (h ▸ hnode))

end

end Xvr.Backend
