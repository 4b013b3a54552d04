/-
  Xvr.Backend.MainFunction — main beside the procedures (`Xvr_LLVMCodegenEmitAST`).

  A procedure empties the one table of variables, leaves its own in it, and takes the
  builder; behind it the builder goes to the entry block of main.

  Proved, for every list of top-level nodes:
  - `main_undisturbed`: as long as no variable is visible where a procedure is declared, the
    procedure leaves none, and main has not left its entry block, main's variables and its
    position are the same behind the procedure as before it, and main executes its
    statements in the order of the source.
  - `procedure_disturbs_main`: a variable of main is gone behind a procedure, and so is the
    block behind an if.
-/

import Xvr.Backend.ProcedureFrame
import Xvr.Backend.Structured

namespace Xvr.Backend

open Xvr.Runtime Xvr.Lib
open Xvr.Frontend (Node)

/-! ## Where main is -/

/-- Main with its entry block; the builder stands in it, with no scope open. -/
structure InMain (fn : Value) (entry : Nat) (s : Codegen) : Prop where
  main : s.getFunction mainName = some fn
  entry : s.entryBlock fn = some entry
  standing : s.Standing
  place : s.parent s.here = some fn
  current : s.fnEmitter.currentFunction = some fn
  depth : s.fnEmitter.scopeDepth.val = 0

section

variable {fn : Value} {entry : Nat} {s t : Codegen}

theorem parent_getElem {b : Nat} (h : b < s.blocks.length) : s.parent b = some s.blocks[b].parent := by
  rw [Codegen.parent, List.getElem?_eq_getElem h]
  rfl

theorem parent_lt {b : Nat} {owner : Value} (h : s.parent b = some owner) : b < s.blocks.length := by
  by_contra hb
  rw [Codegen.parent, List.getElem?_eq_none (Nat.le_of_not_lt hb)] at h
  cases h

/-- A function is entered at its first block. -/
theorem entryBlock_eq : s.entryBlock fn = some entry ↔
    s.parent entry = some fn ∧ ∀ b, b < entry → s.parent b ≠ some fn := by
  rw [Codegen.entryBlock, List.findIdx?_eq_some_iff_getElem]
  constructor
  · intro ⟨hlt, hfn, hfirst⟩
    constructor
    · rw [parent_getElem hlt, of_decide_eq_true hfn]
    · intro b hb heq
      rw [parent_getElem (hb.trans hlt)] at heq
      exact hfirst b hb (decide_eq_true (Option.some.inj heq))
  · intro ⟨hfn, hfirst⟩
    have hlt := parent_lt hfn
    rw [parent_getElem hlt] at hfn
    refine ⟨hlt, decide_eq_true (Option.some.inj hfn), ?_⟩
    intro b hb heq
    exact hfirst b hb (by rw [parent_getElem (hb.trans hlt), of_decide_eq_true heq])

/-- More blocks do not change where a function is entered. -/
theorem entryBlock_mono (h : s.entryBlock fn = some entry) (hparents : ∀ b, b < s.blocks.length → t.parent b = s.parent b) :
    t.entryBlock fn = some entry := by
  obtain ⟨hfn, hfirst⟩ := entryBlock_eq.mp h
  have hlt := parent_lt hfn
  refine entryBlock_eq.mpr ⟨by rw [hparents entry hlt, hfn], ?_⟩
  intro b hb
  rw [hparents b (hb.trans hlt)]
  exact hfirst b hb

theorem getFunction_mono {f : Function} (h : s.getFunction mainName = some fn) (hf : t.functions = s.functions ++ [f]) :
    t.getFunction mainName = some fn := by
  obtain ⟨m, hm, rfl⟩ := Option.map_eq_some_iff.mp h
  rw [Codegen.getFunction, hf, List.findIdx?_append, hm]
  rfl

theorem getFunction_lt {m : Nat} (h : s.getFunction mainName = some (.function m)) : m < s.functions.length := by
  obtain ⟨m', hm, heq⟩ := Option.map_eq_some_iff.mp h
  cases heq
  exact (List.findIdx?_eq_some_iff_getElem.mp hm).1

theorem getFunction_index (h : s.getFunction mainName = some fn) : ∃ m, fn = .function m ∧ m < s.functions.length := by
  obtain ⟨m, hm, rfl⟩ := Option.map_eq_some_iff.mp h
  exact ⟨m, rfl, getFunction_lt h⟩

theorem isInside_eq (hs : s.Standing) : s.isInside fn = true ↔ s.parent s.here = some fn := by
  rw [Codegen.isInside, hs.1]
  dsimp only
  rw [List.getElem?_eq_getElem hs.2, parent_getElem hs.2]
  simp

/-- In main nothing needs to be done. -/
theorem ensureMain_inside (h : InMain fn entry s) : ensureMainFunction s = s := by
  unfold ensureMainFunction
  rw [h.main]
  dsimp only
  rw [h.entry]
  dsimp only
  rw [if_pos ((isInside_eq h.standing).mpr h.place)]

/-- From another function the builder goes to the entry of main. -/
theorem ensureMain_outside (hm : s.getFunction mainName = some fn) (he : s.entryBlock fn = some entry) (hs : s.Standing)
    (hout : s.parent s.here ≠ some fn) :
    ensureMainFunction s = { (s.setInsertPoint entry).setCurrentFunction fn with mainCreated := true } := by
  unfold ensureMainFunction
  rw [hm]
  dsimp only
  rw [he]
  dsimp only
  rw [if_neg fun h => hout ((isInside_eq hs).mp h)]

/-- Without main, it gets an entry block. -/
theorem ensureMain_none (h : s.getFunction mainName = none) :
    ensureMainFunction s =
      { ((s.addFunction mainName (.integer 32) []).enterFunction (.function s.functions.length)).setCurrentFunction
          (.function s.functions.length) with mainCreated := true } := by
  unfold ensureMainFunction
  rw [h]

/-- A statement of main leaves the builder in main. -/
theorem statement_inMain {library : Library Value} (hl : library.Undeclaring) (node : Node) (h : InMain fn entry s) :
    InMain fn entry (emit library node s).2 := by
  have hg := (emit_frame library node s h.standing).1.grows
  have hf := emit_within framed_stable (.inr hl) node s
  refine ⟨?_, entryBlock_mono h.entry hg.parents, hg.standing, ?_, hg.function.trans h.current, ?_⟩
  · rw [Codegen.getFunction, hf.functions]
    exact h.main
  · rcases hg.place with hp | hp
    · rw [hp, hg.parents _ h.standing.2]
      exact h.place
    · rw [hg.owned _ hp hg.standing.2]
      exact h.current
  · have hdepth := hf.table.shallow
    rw [h.depth] at hdepth
    exact Nat.le_zero.mp hdepth

/-- Behind a procedure that leaves nothing the builder is at the entry of main, and nothing is
    visible. -/
theorem procedure_inMain {name : List Char} (h : InMain fn entry s) (hd : Declared name s t) :
    InMain fn entry (ensureMainFunction t) ∧ (ensureMainFunction t).insertBlock = some entry ∧
      (ensureMainFunction t).blocks = t.blocks ∧ ∀ name, (ensureMainFunction t).fnEmitter.find name = none := by
  obtain ⟨f, hf, -⟩ := hd.functions
  have hentry := entryBlock_mono h.entry hd.parents
  have hmain := getFunction_mono h.main hf
  have hout : t.parent t.here ≠ some fn := by
    obtain ⟨m, rfl, hm⟩ := getFunction_index h.main
    rw [hd.owned _ hd.place hd.standing.2]
    intro heq
    cases heq
    omega
  obtain ⟨hfn, hfirst⟩ := entryBlock_eq.mp hentry
  rw [ensureMain_outside hmain hentry hd.standing hout]
  exact ⟨⟨hmain, hentry, ⟨rfl, parent_lt hfn⟩, hfn, rfl, hd.empty.depth⟩, rfl, rfl, hd.empty.find⟩

theorem getFunction_none (h : s.getFunction mainName = none) : s.uniqueName mainName = mainName := by
  have hall := List.findIdx?_eq_none_iff.mp (Option.map_eq_none_iff.mp h)
  unfold Codegen.uniqueName
  rw [if_neg]
  intro hany
  obtain ⟨f, hmem, hname⟩ := List.any_eq_true.mp hany
  rw [hall f hmem] at hname
  cases hname

/-- A function with main's name is main when there was none. -/
theorem getFunction_concat {f : Function} (h : s.getFunction mainName = none) (hf : t.functions = s.functions ++ [f]) :
    t.getFunction mainName = if f.name = mainName then some (.function s.functions.length) else none := by
  have hnone := Option.map_eq_none_iff.mp h
  rw [Codegen.getFunction, hf, List.findIdx?_append, hnone]
  by_cases hname : f.name = mainName
  · simp [List.findIdx?_cons, hname]
  · simp [List.findIdx?_cons, hname]

/-- Main made where nothing of it was. -/
theorem made_inMain (hnone : s.getFunction mainName = none)
    (hparents : ∀ b, b < s.blocks.length → s.parent b ≠ some (.function s.functions.length))
    (hdepth : s.fnEmitter.scopeDepth.val = 0) :
    InMain (.function s.functions.length) s.blocks.length (ensureMainFunction s) ∧
      (ensureMainFunction s).insertBlock = some s.blocks.length ∧ (∀ b, (ensureMainFunction s).code b = s.code b) ∧
        ∀ name, (ensureMainFunction s).fnEmitter.find name = s.fnEmitter.find name := by
  rw [ensureMain_none hnone]
  have hstands : (s.createBlock (.function s.functions.length) "entry").parent s.blocks.length =
      some (.function s.functions.length) := Codegen.createBlock_parent _ _ "entry"
  refine ⟨⟨?_, ?_, enterFunction_standing _ _, hstands, rfl, hdepth⟩, rfl, fun b => ?_, fun _ => rfl⟩
  · refine (getFunction_concat hnone rfl).trans ?_
    rw [getFunction_none hnone, if_pos rfl]
  · refine entryBlock_eq.mpr ⟨hstands, ?_⟩
    intro b hb
    have hold : (s.createBlock (.function s.functions.length) "entry").parent b = s.parent b :=
      Codegen.createBlock_parent_lt _ _ "entry" hb
    intro heq
    exact hparents b hb (hold.symm.trans heq)
  · exact Codegen.createBlock_code _ _ "entry" b

end

/-! ## The nodes of a program -/

def isProcedure : Node → Bool
  | .fnDecl _ _ _ _ _ => true
  | _ => false

/-- An ordinary statement: no declaration of procedures and no import. -/
def isStatement : Node → Bool
  | .fnDecl _ _ _ _ _ | .fnCollection _ | .importNode _ _ => false
  | _ => true

def procedureName : Node → List Char
  | .fnDecl identifier _ _ _ _ => functionName identifier
  | _ => []

/-- Where a procedure does no harm: no variable is visible, main has not left its entry block,
    and the procedure leaves no variable and does not take main's name. -/
structure Harmless (s : Codegen) (node : Node) : Prop where
  unseen : ∀ name, s.fnEmitter.find name = none
  atEntry : ∀ fn, s.getFunction mainName = some fn → s.insertBlock = s.entryBlock fn
  named : s.getFunction mainName = none → procedureName node ≠ mainName
  leaves : leavesNothing node = true

/-- Main is behind a procedure what it was before it: every lookup has the same answer, no code
    was added to a block there was, and the builder is where it was, or at main's entry when
    main was not there. -/
structure Undisturbed (s t : Codegen) : Prop where
  visible : ∀ name, t.fnEmitter.find name = s.fnEmitter.find name
  code : ∀ b, b < s.blocks.length → t.code b = s.code b
  place : ∀ fn, s.getFunction mainName = some fn → t.insertBlock = s.insertBlock
  start : s.getFunction mainName = none → ∃ fn entry, InMain fn entry t ∧ t.insertBlock = some entry ∧ t.code entry = []

section

variable {library : Library Value} {importModule : Literal → Codegen → Bool × Codegen} {node : Node} {nodes : List Node}
  {s : Codegen}

theorem emitAST_error (h : s.hasError = true) : emitAST library importModule node s = (false, s) := by
  unfold emitAST
  exact if_pos h

theorem emitProgram_error (h : s.hasError = true) : emitProgram library importModule nodes s = s := by
  induction nodes with
  | nil => rfl
  | cons node nodes ih => rw [emitProgram, emitAST_error h, ih]

theorem emitProgram_append (first second : List Node) (s : Codegen) :
    emitProgram library importModule (first ++ second) s =
      emitProgram library importModule second (emitProgram library importModule first s) := by
  induction first generalizing s with
  | nil => rfl
  | cons node first ih => exact ih _

variable (library importModule) in
theorem emitAST_statement (h : isStatement node = true) (hs : s.hasError = false) :
    (emitAST library importModule node s).2 = (emit library node (ensureMainFunction s)).2 := by
  unfold emitAST
  rw [if_neg (ne_true_of_eq_false hs)]
  cases node <;> first | rfl | cases h

theorem emitAST_procedure {identifier : Literal} {arguments returns body : Node} {line : Nat} (hs : s.hasError = false) :
    emitAST library importModule (.fnDecl identifier arguments returns body line) s =
      thenMain (emitFunctionBody library identifier arguments returns body s) := by
  unfold emitAST
  rw [if_neg (ne_true_of_eq_false hs)]
  rfl

/-- A procedure that is given up leaves an error. -/
theorem procedure_refused (hp : isProcedure node = true) (h : (emitAST library importModule node s).1 = false) :
    (emitAST library importModule node s).2.hasError = true := by
  cases hs : s.hasError with
  | true =>
    rw [emitAST_error hs]
    exact hs
  | false =>
    cases node with
    | fnDecl identifier arguments returns body line =>
      rw [emitAST_procedure hs] at h ⊢
      unfold thenMain at h ⊢
      split
      · rename_i haccepted
        rw [if_pos haccepted] at h
        cases h
      · rename_i hrefused
        exact emitFunctionBody_refused (eq_false_of_ne_true hrefused)
    | _ => cases hp

/-- A procedure in the middle of main. -/
theorem procedure_step (hl : library.Undeclaring) {fn : Value} {entry : Nat} (h : InMain fn entry s)
    (hp : isProcedure node = true) (hharmless : Harmless s node) (hok : (emitAST library importModule node s).1 = true) :
    InMain fn entry (emitAST library importModule node s).2 ∧ Undisturbed s (emitAST library importModule node s).2 := by
  cases hs : s.hasError with
  | true =>
    rw [emitAST_error hs] at hok
    cases hok
  | false =>
    cases node with
    | fnDecl identifier arguments returns body line =>
      rw [emitAST_procedure hs] at hok ⊢
      unfold thenMain at hok ⊢
      split
      · rename_i haccepted
        have hd := emitFunctionBody_declared hl line haccepted hharmless.leaves h.depth
        obtain ⟨hmain, hplace, hblocks, hfind⟩ := procedure_inMain h hd
        refine ⟨hmain, ?_, ?_, ?_, ?_⟩
        · intro name
          rw [hfind, hharmless.unseen]
        · intro b hb
          rw [Codegen.code_congr hblocks, hd.code b hb]
        · intro fn' hfn'
          rw [hharmless.atEntry fn h.main, h.entry]
          exact hplace
        · intro hnone
          rw [h.main] at hnone
          cases hnone
      · rename_i hrefused
        rw [if_neg hrefused] at hok
        exact absurd hok hrefused
    | _ => cases hp

/-- A procedure before anything else. -/
theorem first_procedure_step (hl : library.Undeclaring) (hp : isProcedure node = true) (hharmless : Harmless .create node)
    (hok : (emitAST library importModule node .create).1 = true) :
    Undisturbed .create (emitAST library importModule node .create).2 := by
  cases node with
  | fnDecl identifier arguments returns body line =>
    rw [emitAST_procedure rfl] at hok ⊢
    unfold thenMain at hok ⊢
    split
    · rename_i haccepted
      have hd := emitFunctionBody_declared hl line haccepted hharmless.leaves rfl
      obtain ⟨f, hf, hname⟩ := hd.functions
      have hnone : (emitFunctionBody library identifier arguments returns body .create).2.getFunction mainName = none := by
        rw [getFunction_concat rfl hf, hname, if_neg]
        exact hharmless.named rfl
      obtain ⟨hmain, hplace, hcode, hfind⟩ := made_inMain hnone (fun b hb => by
        rw [hd.owned b (Nat.zero_le _) hb, hf]
        nofun) hd.empty.depth
      refine ⟨?_, ?_, ?_, ?_⟩
      · intro name
        exact ((hfind name).trans (hd.empty.find name)).trans (hharmless.unseen name).symm
      · intro b hb
        cases hb
      · intro fn hfn
        cases hfn
      · intro _
        exact ⟨_, _, hmain, hplace, (hcode _).trans (Codegen.code_outside (Nat.le_refl _))⟩
    · rename_i hrefused
      rw [if_neg hrefused] at hok
      exact absurd hok hrefused
  | _ => cases hp

/-! ## Runs -/

/-- Nothing was emitted yet, or the builder is in main. -/
inductive AtTop : Codegen → Prop where
  | start : AtTop .create
  | inMain {fn : Value} {entry : Nat} {s : Codegen} (h : InMain fn entry s) : AtTop s

/-- Main is made by the first statement. -/
theorem create_inMain : InMain (.function 0) 0 (ensureMainFunction .create) :=
  (made_inMain (s := .create) rfl (fun _ hb => absurd hb (Nat.not_lt_zero _)) rfl).1

theorem ensureMain_inMain (h : AtTop s) : ∃ fn entry, InMain fn entry (ensureMainFunction s) := by
  cases h with
  | start => exact ⟨_, _, create_inMain⟩
  | inMain h => exact ⟨_, _, (ensureMain_inside h).symm ▸ h⟩

/-- A list of procedure declarations and ordinary statements. -/
def TopLevel (nodes : List Node) : Prop := ∀ node ∈ nodes, isProcedure node = true ∨ isStatement node = true

variable (library importModule) in
/-- Every procedure of the run is declared where it does no harm. -/
def AllHarmless : List Node → Codegen → Prop
  | [], _ => True
  | node :: nodes, s =>
    (isProcedure node = true → Harmless s node) ∧ AllHarmless nodes (emitAST library importModule node s).2

variable (importModule) in
theorem node_atTop (hl : library.Undeclaring) (h : AtTop s) (hnode : isProcedure node = true ∨ isStatement node = true)
    (hharmless : isProcedure node = true → Harmless s node) :
    (emitAST library importModule node s).2.hasError = true ∨ AtTop (emitAST library importModule node s).2 := by
  cases hs : s.hasError with
  | true =>
    rw [emitAST_error hs]
    exact .inl hs
  | false =>
    rcases hnode with hp | hstatement
    · cases hok : (emitAST library importModule node s).1 with
      | false => exact .inl (procedure_refused hp hok)
      | true =>
        right
        cases h with
        | start =>
          obtain ⟨fn, entry, hmain, -⟩ := (first_procedure_step hl hp (hharmless hp) hok).start rfl
          exact .inMain hmain
        | inMain h => exact .inMain (procedure_step hl h hp (hharmless hp) hok).1
    · right
      obtain ⟨fn, entry, hmain⟩ := ensureMain_inMain h
      rw [emitAST_statement _ _ hstatement hs]
      exact .inMain (statement_inMain hl node hmain)

/-- As far as no error was reported, the builder is in main between the nodes. -/
theorem run_atTop (hl : library.Undeclaring) (h : AtTop s) (hnodes : TopLevel nodes)
    (hharmless : AllHarmless library importModule nodes s) :
    (emitProgram library importModule nodes s).hasError = true ∨ AtTop (emitProgram library importModule nodes s) := by
  induction nodes generalizing s with
  | nil => exact .inr h
  | cons node nodes ih =>
    rcases node_atTop importModule hl h (hnodes node (List.mem_cons_self ..)) hharmless.1 with herror | htop
    · left
      rw [emitProgram, emitProgram_error herror]
      exact herror
    · exact ih htop (fun n hn => hnodes n (List.mem_cons_of_mem _ hn)) hharmless.2

theorem allHarmless_append {first second : List Node} (h : AllHarmless library importModule (first ++ second) s) :
    AllHarmless library importModule first s ∧
      AllHarmless library importModule second (emitProgram library importModule first s) := by
  induction first generalizing s with
  | nil => exact ⟨True.intro, h⟩
  | cons node first ih =>
    obtain ⟨hfirst, hsecond⟩ := ih h.2
    exact ⟨⟨h.1, hfirst⟩, hsecond⟩

/-- Every procedure of the run leaves main undisturbed. -/
theorem run_undisturbed (hl : library.Undeclaring) {before after : List Node} (hnodes : TopLevel (before ++ node :: after))
    (hharmless : AllHarmless library importModule (before ++ node :: after) .create) (hp : isProcedure node = true)
    (hok : (emitAST library importModule node (emitProgram library importModule before .create)).1 = true) :
    Undisturbed (emitProgram library importModule before .create)
      (emitAST library importModule node (emitProgram library importModule before .create)).2 := by
  obtain ⟨hbefore, hhere⟩ := allHarmless_append hharmless
  rcases run_atTop hl .start (fun n hn => hnodes n (List.mem_append_left _ hn)) hbefore with herror | htop
  · rw [emitAST_error herror] at hok
    cases hok
  · generalize emitProgram library importModule before .create = s at *
    cases htop with
    | start => exact first_procedure_step hl hp (hhere.1 hp) hok
    | inMain h => exact (procedure_step hl h hp (hhere.1 hp) hok).2

/-! ## The order of the statements -/

variable (library importModule) in
/-- The statements of main as a tree, without the procedures. -/
def outlineProgram : List Node → Codegen → Option Tree
  | [], _ => some .skip
  | node :: nodes, s =>
    if isProcedure node then outlineProgram nodes (emitAST library importModule node s).2
    else
      match outline library node (ensureMainFunction s), outlineProgram nodes (emitAST library importModule node s).2 with
      | some first, some rest => some (.seq first rest)
      | _, _ => none

/-- A procedure changes nothing of the blocks that main has, and the builder is at the same
    position behind it. -/
theorem Undisturbed.position {fn : Value} {entry : Nat} {t : Codegen} (h : InMain fn entry s) (hu : Undisturbed s t) :
    t.position = s.position ∧ ∀ b, s.code b <+: t.code b := by
  have hhere : t.here = s.here := Codegen.here_congr (hu.place fn h.main)
  have hcode := hu.code s.here h.standing.2
  constructor
  · rw [Codegen.position, hhere, hcode]
    rfl
  · intro b
    by_cases hb : b < s.blocks.length
    · rw [hu.code b hb]
    · rw [Codegen.code_outside (Nat.le_of_not_lt hb)]
      exact List.nil_prefix

variable (nodes) in
theorem no_error_before (h : (emitProgram library importModule nodes s).hasError = false) : s.hasError = false := by
  cases hs : s.hasError with
  | false => rfl
  | true =>
    rw [emitProgram_error hs, hs] at h
    cases h

theorem run_realises (hl : library.Undeclaring) {fn : Value} {entry : Nat} (h : InMain fn entry s) (hnodes : TopLevel nodes)
    (hharmless : AllHarmless library importModule nodes s)
    (hquiet : (emitProgram library importModule nodes s).hasError = false) {tree : Tree}
    (htree : outlineProgram library importModule nodes s = some tree) :
    InMain fn entry (emitProgram library importModule nodes s) ∧
      (∀ b, s.code b <+: (emitProgram library importModule nodes s).code b) ∧
        Flow.Realises (emitProgram library importModule nodes s).graph tree s.position
          (emitProgram library importModule nodes s).position := by
  induction nodes generalizing s tree with
  | nil =>
    cases htree
    exact ⟨h, fun b => List.prefix_rfl, .skip _⟩
  | cons node nodes ih =>
    have hmore := fun n hn => hnodes n (List.mem_cons_of_mem _ hn)
    rw [emitProgram] at hquiet ⊢
    rw [outlineProgram] at htree
    have hs : s.hasError = false := no_error_before (node :: nodes) hquiet
    have ht := no_error_before _ hquiet
    split at htree
    · rename_i hp
      have hok : (emitAST library importModule node s).1 = true := by
        cases hok : (emitAST library importModule node s).1 with
        | true => rfl
        | false =>
          rw [procedure_refused hp hok] at ht
          cases ht
      obtain ⟨hmain, hu⟩ := procedure_step hl h hp (hharmless.1 hp) hok
      obtain ⟨hpos, hsame⟩ := hu.position h
      obtain ⟨hend, hcode, hreal⟩ := ih hmain hmore hharmless.2 hquiet htree
      rw [hpos] at hreal
      exact ⟨hend, fun b => (hsame b).trans (hcode b), hreal⟩
    · rename_i hnp
      have hstatement : isStatement node = true := (hnodes node (List.mem_cons_self ..)).resolve_left hnp
      rw [ensureMain_inside h] at htree
      split at htree
      · rename_i first rest hfirst hrest
        cases htree
        have hstate := emitAST_statement library importModule hstatement hs
        rw [ensureMain_inside h] at hstate
        have hmain : InMain fn entry (emitAST library importModule node s).2 := hstate ▸ statement_inMain hl node h
        obtain ⟨hend, hcode, hreal⟩ := ih hmain hmore hharmless.2 hquiet hrest
        have hg := (emit_frame library node s h.standing).1.grows
        have hnode := outline_realises library node h.standing hfirst
        rw [← hstate] at hg hnode
        exact ⟨hend, fun b => (hg.code_prefix b).trans (hcode b), .seq (hnode.mono hcode) hreal⟩
      · cases htree

theorem position_at {entry : Nat} {t : Codegen} (hplace : t.insertBlock = some entry) (hcode : t.code entry = []) :
    t.position = ⟨entry, 0⟩ := by
  rw [Codegen.position, Codegen.here_of_eq hplace, hcode]
  rfl

/-- From its entry on main goes through its statements. -/
theorem main_realises (hl : library.Undeclaring) (hne : nodes ≠ []) (hnodes : TopLevel nodes)
    (hharmless : AllHarmless library importModule nodes .create)
    (hquiet : (emitProgram library importModule nodes .create).hasError = false) {tree : Tree}
    (htree : outlineProgram library importModule nodes .create = some tree) :
    ∃ fn entry, InMain fn entry (emitProgram library importModule nodes .create) ∧
      Flow.Realises (emitProgram library importModule nodes .create).graph tree ⟨entry, 0⟩
        (emitProgram library importModule nodes .create).position := by
  cases nodes with
  | nil => exact absurd rfl hne
  | cons node nodes =>
    have hmore := fun n hn => hnodes n (List.mem_cons_of_mem _ hn)
    by_cases hp : isProcedure node = true
    · rw [emitProgram] at hquiet ⊢
      rw [outlineProgram, if_pos hp] at htree
      have ht := no_error_before _ hquiet
      have hok : (emitAST library importModule node .create).1 = true := by
        cases hok : (emitAST library importModule node .create).1 with
        | true => rfl
        | false =>
          rw [procedure_refused hp hok] at ht
          cases ht
      obtain ⟨fn, entry, hmain, hplace, hcode⟩ := (first_procedure_step hl hp (hharmless.1 hp) hok).start rfl
      obtain ⟨hend, -, hreal⟩ := run_realises hl hmain hmore hharmless.2 hquiet htree
      rw [position_at hplace hcode] at hreal
      exact ⟨fn, entry, hend, hreal⟩
    · have hstatement : isStatement node = true := (hnodes node (List.mem_cons_self ..)).resolve_left hp
      have hmain := create_inMain
      have hsame : (emitAST library importModule node (ensureMainFunction .create)).2 =
          (emitAST library importModule node .create).2 := by
        rw [emitAST_statement _ _ hstatement rfl, emitAST_statement _ _ hstatement rfl, ensureMain_inside hmain]
      have hrun : emitProgram library importModule (node :: nodes) (ensureMainFunction .create) =
          emitProgram library importModule (node :: nodes) .create := by
        rw [emitProgram, emitProgram, hsame]
      have houtline : outlineProgram library importModule (node :: nodes) (ensureMainFunction .create) =
          outlineProgram library importModule (node :: nodes) .create := by
        rw [outlineProgram, outlineProgram, hsame, ensureMain_inside hmain]
      have hall : AllHarmless library importModule (node :: nodes) (ensureMainFunction .create) :=
        ⟨fun h => absurd h hp, hsame ▸ hharmless.2⟩
      rw [← hrun] at hquiet ⊢
      rw [← houtline] at htree
      obtain ⟨hend, -, hreal⟩ := run_realises hl hmain hnodes hall hquiet htree
      exact ⟨_, 0, hend, hreal⟩

/-- Where every procedure is declared where it does no harm, each leaves main undisturbed, and
    main executes its statements in the order of the source. -/
theorem main_undisturbed (library : Library Value) (importModule : Literal → Codegen → Bool × Codegen)
    (hl : library.Undeclaring) (nodes : List Node) (hnodes : TopLevel nodes)
    (hharmless : AllHarmless library importModule nodes .create) :
    (∀ before node after, nodes = before ++ node :: after → isProcedure node = true →
        (emitAST library importModule node (emitProgram library importModule before .create)).1 = true →
          Undisturbed (emitProgram library importModule before .create)
            (emitProgram library importModule (before ++ [node]) .create)) ∧
      (nodes ≠ [] → (emitProgram library importModule nodes .create).hasError = false →
        ∀ tree, outlineProgram library importModule nodes .create = some tree →
          ∃ fn entry, (emitProgram library importModule nodes .create).getFunction mainName = some fn ∧
            (emitProgram library importModule nodes .create).entryBlock fn = some entry ∧
              ∀ (o : Flow.Outcome Built Value) (h h' : Flow.History Built Value),
                (Flow.Reaches o tree h h' ↔
                    ∃ p, Flow.Leads (emitProgram library importModule nodes .create).graph o ⟨⟨entry, 0⟩, h⟩ ⟨p, h'⟩) ∧
                  (Flow.Runs o tree h h' ↔
                    Flow.Leads (emitProgram library importModule nodes .create).graph o ⟨⟨entry, 0⟩, h⟩
                      ⟨(emitProgram library importModule nodes .create).position, h'⟩)) := by
  constructor
  · rintro before node after rfl hp hok
    rw [emitProgram_append]
    exact run_undisturbed hl hnodes hharmless hp hok
  · intro hne hquiet tree htree
    obtain ⟨fn, entry, hmain, hreal⟩ := main_realises hl hne hnodes hharmless hquiet htree
    have hend : (emitProgram library importModule nodes .create).graph.code
        (emitProgram library importModule nodes .create).position = none :=
      List.getElem?_eq_none (Nat.le_refl _)
    exact ⟨fn, entry, hmain.main, hmain.entry, fun o h h' => ⟨hreal.reaches_iff hend h h', hreal.arrives_iff hend h h'⟩⟩

end

/-! ## Programs -/

/-- A procedure that returns a number. -/
def answer : Node :=
  .fnDecl (.identifier "answer".toList) (.fnCollection []) (.fnCollection [])
    (.block [.fnReturn (.fnCollection [.literal (.integer 42)])]) 1

def importNothing (_ : Literal) (s : Codegen) : Bool × Codegen := (true, s)

theorem nothing_undeclaring : (Library.nothing : Library Value).Undeclaring :=
  ⟨fun _ => True.intro, fun _ _ => True.intro, fun _ _ => True.intro, fun _ => True.intro⟩

/-- `var x = 1;` -/
def declareX : Node := .varDecl (.identifier "x".toList) .null (.literal (.integer 1)) 1

/-- `if (1 < 2) { var x = 1; }` -/
def branchX : Node :=
  .pathIf (.binary .compareLess (.literal (.integer 1)) (.literal (.integer 2))) (.block [declareX]) .null 0 false

def runProgram (nodes : List Node) : Codegen := emitProgram .nothing importNothing nodes .create

/-- A procedure between `7;` and `var x = 1;`. -/
theorem main_undisturbed_between :
    Undisturbed (runProgram [.literal (.integer 7)]) (runProgram [.literal (.integer 7), answer]) :=
  (main_undisturbed .nothing importNothing nothing_undeclaring [.literal (.integer 7), answer, declareX]
    (by unfold TopLevel; decide)
    ⟨nofun, fun _ => ⟨(Empty.mk (by decide +kernel) (by decide +kernel)).find, fun fn hfn => by
      have hmain : (runProgram [.literal (.integer 7)]).getFunction mainName = some (.function 0) := by decide +kernel
      cases hmain.symm.trans hfn
      decide +kernel, fun h => absurd h (by decide +kernel), by decide +kernel⟩, nofun, True.intro⟩).1
    [.literal (.integer 7)] answer [declareX] rfl rfl (by decide +kernel)

/-- Behind a procedure main's variable is gone, and the builder has left the block behind an
    if for main's entry. -/
theorem procedure_disturbs_main :
    (¬ Undisturbed (runProgram [declareX]) (runProgram [declareX, answer])) ∧
      ¬ Undisturbed (runProgram [branchX]) (runProgram [branchX, answer]) := by
  constructor
  · intro h
    have hvisible := h.visible "x".toList
    revert hvisible
    decide +kernel
  · intro h
    have hplace := h.place (.function 0) (by decide +kernel)
    revert hplace
    decide +kernel

end Xvr.Backend
