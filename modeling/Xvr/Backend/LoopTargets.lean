/-
  Xvr.Backend.LoopTargets — where break and continue go (`xvr_llvm_control_flow.cpp`).

  The emitter keeps the targets of the open loops on a stack that every loop pushes and
  pops around the emission of its parts. `emitInside` is the emission without a stack: the
  targets of the loops around a node are an argument, a loop hands its own to all of its
  parts, a break or a continue goes to the first, and where there is none it is an error.

  Proved:
  - `emit_inside`: with a stack the emission is the same, whether it succeeds or fails, and
    the stack is left as it was found.
-/

import Mathlib.Data.List.Forall2
import Xvr.Backend.EmissionFrame

namespace Xvr.Backend

open Xvr.Runtime
open Xvr.Frontend (Opcode Node)

/-! ## The targets as an argument -/

/-- The blocks behind the loops around a node and those they go on with, innermost first. -/
abbrev Targets := List (Nat × Nat)

/-- The blocks of a while loop, and the builder at the condition. -/
def Codegen.whileBlocks (fn : Value) (s : Codegen) : Codegen :=
  let n := s.blocks.length
  (((s.createBlock fn "while_cond").createBlock fn "while_body").createBlock fn "while_end").closePart n n

def Codegen.forBlocks (fn : Value) (s : Codegen) : Codegen :=
  (((s.createBlock fn "for_cond").createBlock fn "for_body").createBlock fn "for_inc").createBlock fn "for_end"

def loopInside (what : String) (targets : Targets) (loop : Value → Codegen → Bool × Codegen) (s : Codegen) :
    Bool × Codegen :=
  let s := s.clearError
  match s.fnEmitter.currentFunction with
  | none => (false, s.setError s!"internal error: no current function for {what} statement" none)
  | some fn =>
    if maxLoopNesting ≤ targets.length then
      (false, s.setError s!"maximum loop nesting depth ({maxLoopNesting}) exceeded" none)
    else loop fn s

/-- Out of a while loop goes its end, on goes its condition. -/
def whileInside (condition thenPath : Targets → Action) (targets : Targets) : Codegen → Bool × Codegen :=
  loopInside "while" targets fun fn s =>
    let n := s.blocks.length
    let inner := (n + 2, n) :: targets
    match emitCondition "while statement" (condition inner) (s.whileBlocks fn) with
    | (none, s) => (false, s)
    | (some value, s) => (true, (thenPath inner (s.testLoop value (n + 1) (n + 2))).2.closePart n (n + 2))

/-- Out of a for loop goes its end, on goes its increment. -/
def forInside (preClause condition postClause thenPath : Targets → Action) (targets : Targets) :
    Codegen → Bool × Codegen :=
  loopInside "for" targets fun fn s =>
    let n := s.blocks.length
    let inner := (n + 3, n + 2) :: targets
    match emitForCondition (condition inner) ((preClause inner (s.forBlocks fn)).2.closePart n n) with
    | (none, s) => (false, s)
    | (some value, s) =>
      let s := (thenPath inner (s.testLoop value (n + 1) (n + 3))).2.closePart (n + 2) (n + 2)
      (true, (postClause inner s).2.closePart n (n + 3))

def breakInside (targets : Targets) (s : Codegen) : Bool × Codegen :=
  let s := s.clearError
  match targets with
  | [] =>
    (false, s.setError "break statement must be inside a loop"
      (some "place the 'break' statement inside a 'while' or 'for' loop"))
  | (endBlock, _) :: _ => (true, s.createBr endBlock)

def continueInside (targets : Targets) (s : Codegen) : Bool × Codegen :=
  let s := s.clearError
  match targets with
  | [] =>
    (false, s.setError "continue statement must be inside a loop"
      (some "place the 'continue' statement inside a 'while' or 'for' loop"))
  | (_, condBlock) :: _ => (true, s.createBr condBlock)

section

variable (library : Library Value)

mutual

/-- What is emitted for a node inside the loops of these targets. -/
def emitInside : Node → Targets → Action
  | .null, _ | .wild, _ => .null
  | .pathWhile condition thenPath, targets =>
    emitStatement (whileInside (emitInside condition) (emitInside thenPath) targets)
  | .pathFor preClause condition postClause thenPath, targets =>
    emitStatement (forInside (emitInside preClause) (emitInside condition) (emitInside postClause) (emitInside thenPath)
      targets)
  | .pathBreak, targets => emitStatement (breakInside targets)
  | .pathContinue, targets => emitStatement (continueInside targets)
  | .pathIf condition thenPath elsePath typeWord isExpression, targets =>
    emitStatement (emitIf isExpression
      (emitIfStatement (emitInside condition targets) (emitInside thenPath targets) (emitInside elsePath targets))
      (emitIfExpression (emitInside condition targets)
        (emitArm (statementsInside thenPath targets) (emitInside thenPath targets))
        ((elseIfInside elsePath targets).getD (emitArm (statementsInside elsePath targets) (emitInside elsePath targets)))
        typeWord))
  | .block nodes, targets => emitBlock (emitAllInside nodes targets)
  | .ternary condition thenPath elsePath, targets =>
    if condition.isNull || thenPath.isNull || elsePath.isNull then .null
    else emitTernary (emitInside condition targets) (emitInside thenPath targets) (emitInside elsePath targets)
  | .unary opcode child, targets => (nodePlan Value.values library (.unary opcode child)).emit [emitInside child targets]
  | .binary opcode left right, targets =>
    (nodePlan Value.values library (.binary opcode left right)).emit
      (emitInside left targets :: emitInside right targets ::
        (argumentsInside left targets ++ argumentsInside right targets))
  | .grouping child, targets => (nodePlan Value.values library (.grouping child)).emit [emitInside child targets]
  | .cast targetType expression, targets =>
    (nodePlan Value.values library (.cast targetType expression)).emit [emitInside expression targets]
  | .varDecl identifier typeLiteral expression line, targets =>
    (nodePlan Value.values library (.varDecl identifier typeLiteral expression line)).emit
      (emitInside expression targets :: argumentsInside expression targets)
  | .index first second third, targets =>
    (nodePlan Value.values library (.index first second third)).emit
      [emitInside first targets, emitInside second targets, emitInside third targets]
  | .compound literalType nodes, targets =>
    (nodePlan Value.values library (.compound literalType nodes)).emit (emitAllInside nodes targets)
  | .fnCall args count, targets => (nodePlan Value.values library (.fnCall args count)).emit (argumentsInside args targets)
  | node, _ => (nodePlan Value.values library node).emit []

def emitAllInside : List Node → Targets → List Action
  | [], _ => []
  | node :: nodes, targets => emitInside node targets :: emitAllInside nodes targets

def statementsInside : Node → Targets → List Action
  | .block nodes, targets => emitAllInside nodes targets
  | _, _ => []

def elseIfInside : Node → Targets → Option Action
  | .pathIf condition thenPath elsePath typeWord _, targets =>
    some (emitIfExpression (emitInside condition targets)
      (emitArm (statementsInside thenPath targets) (emitInside thenPath targets))
      ((elseIfInside elsePath targets).getD (emitArm (statementsInside elsePath targets) (emitInside elsePath targets)))
      typeWord)
  | _, _ => none

def argumentsInside : Node → Targets → List Action
  | .compound _ nodes, targets | .fnCollection nodes, targets => emitAllInside nodes targets
  | .fnCall args _, targets => argumentsInside args targets
  | .binary _ left right, targets => argumentsInside left targets ++ argumentsInside right targets
  | .index first second third, targets =>
    [emitInside first targets, emitInside second targets, emitInside third targets]
  | _, _ => []

end

end

/-! ## Another stack -/

namespace Codegen

def withLoops (loops : Targets) (s : Codegen) : Codegen := { s with controlFlow := { s.controlFlow with loops } }

variable (loops : Targets) (s : Codegen)

@[simp] theorem withLoops_fnEmitter : (s.withLoops loops).fnEmitter = s.fnEmitter := rfl
@[simp] theorem withLoops_blocks : (s.withLoops loops).blocks = s.blocks := rfl
@[simp] theorem withLoops_insertBlock : (s.withLoops loops).insertBlock = s.insertBlock := rfl
@[simp] theorem withLoops_getFunction (name : List Char) : (s.withLoops loops).getFunction name = s.getFunction name := rfl
@[simp] theorem withLoops_self : s.withLoops s.controlFlow.loops = s := rfl
@[simp] theorem withLoops_withLoops (loops' : Targets) : (s.withLoops loops').withLoops loops = s.withLoops loops := rfl

theorem append_withLoops (i : Instr) : (s.withLoops loops).append i = (s.append i).withLoops loops := by
  unfold append
  rw [withLoops_insertBlock]
  split <;> rfl

theorem build_withLoops (op : Op Value) :
    (s.withLoops loops).build op = ((s.build op).1, (s.build op).2.withLoops loops) := by
  unfold build
  rw [append_withLoops]
  rfl

theorem closePart_withLoops (target next : Nat) :
    (s.withLoops loops).closePart target next = (s.closePart target next).withLoops loops := by
  unfold closePart createBr
  rw [append_withLoops]
  rfl

theorem testLoop_withLoops (condition : Value) (bodyBlock endBlock : Nat) :
    (s.withLoops loops).testLoop condition bodyBlock endBlock = (s.testLoop condition bodyBlock endBlock).withLoops loops := by
  unfold testLoop createCondBr
  rw [append_withLoops]
  rfl

theorem openIf_withLoops (fn condition : Value) (names : String × String × String) :
    (s.withLoops loops).openIf fn condition names = (s.openIf fn condition names).withLoops loops := by
  have happend := append_withLoops loops (((s.createBlock fn names.1).createBlock fn names.2.1).createBlock fn names.2.2)
    (.condBr condition s.blocks.length (s.blocks.length + 1))
  exact congrArg (setInsertPoint s.blocks.length) happend

end Codegen

/-! ## Following -/

/-- From a state whose stack holds the targets, `a` does what `b` does beside any stack, and
    leaves the stack. -/
def Follows {α : Type} (targets : Targets) (a b : Codegen → α × Codegen) : Prop :=
  ∀ loops s, s.controlFlow.loops = targets →
    b (s.withLoops loops) = ((a s).1, (a s).2.withLoops loops) ∧ (a s).2.controlFlow.loops = targets

/-- The same of two lists of operands. -/
def FollowsAll (targets : Targets) (as bs : List Action) : Prop := List.Forall₂ (Follows targets) as bs

section

variable {targets : Targets} {a b a₁ a₂ a₃ b₁ b₂ b₃ : Action} {as bs : List Action}

theorem null_follows : Follows targets Action.null Action.null := fun _ _ hs => ⟨rfl, hs⟩

theorem FollowsAll.getD (h : FollowsAll targets as bs) (i : Nat) :
    Follows targets (as[i]?.getD .null) (bs[i]?.getD .null) := by
  induction h generalizing i with
  | nil => exact null_follows
  | cons hab _ ih =>
    cases i with
    | zero => exact hab
    | succ i => exact ih i

theorem plan_follows (h : FollowsAll targets as bs) (plan : Plan Value) : Follows targets (plan.emit as) (plan.emit bs) := by
  intro loops s hs
  induction plan generalizing s with
  | done value => exact ⟨rfl, hs⟩
  | operand index next ih =>
    obtain ⟨heq, hl⟩ := h.getD index loops s hs
    simp only [Plan.emit, heq]
    exact ih _ _ hl
  | build op next ih =>
    simp only [Plan.emit, Codegen.build_withLoops]
    refine ih _ _ ?_
    rw [Codegen.build_controlFlow]
    exact hs
  | lookup name next ih => exact ih _ s hs
  | declare name alloca varType arrayCount next ih =>
    exact ih { s with fnEmitter := s.fnEmitter.addLocalVar (some name) (some alloca) varType arrayCount } hs
  | getFunction name next ih => exact ih _ s hs
  | setError message next ih => exact ih (s.setContextError message) hs

theorem runAll_follows (h : FollowsAll targets as bs) (loops : Targets) (s : Codegen) (hs : s.controlFlow.loops = targets) :
    runAll bs (s.withLoops loops) = (runAll as s).withLoops loops ∧ (runAll as s).controlFlow.loops = targets := by
  induction h generalizing s with
  | nil => exact ⟨rfl, hs⟩
  | cons hab _ ih =>
    obtain ⟨heq, hl⟩ := hab loops s hs
    simp only [runAll, heq]
    exact ih _ hl

theorem runLast_follows (h : FollowsAll targets as bs) : Follows targets (runLast as) (runLast bs) := by
  induction h with
  | nil => exact null_follows
  | @cons a b as bs hab hrest ih =>
    cases hrest with
    | nil => exact hab
    | cons hab' hrest' =>
      intro loops s hs
      obtain ⟨heq, hl⟩ := hab loops s hs
      simp only [runLast, heq]
      exact ih loops _ hl

theorem FollowsAll.isEmpty (h : FollowsAll targets as bs) : bs.isEmpty = as.isEmpty := by
  cases h <;> rfl

theorem emitArm_follows (h : FollowsAll targets as bs) (hw : Follows targets a b) :
    Follows targets (emitArm as a) (emitArm bs b) := by
  unfold emitArm
  rw [h.isEmpty]
  split
  · exact hw
  · exact runLast_follows h

theorem emitBlock_follows (h : FollowsAll targets as bs) : Follows targets (emitBlock as) (emitBlock bs) := by
  intro loops s hs
  unfold emitBlock
  rw [h.isEmpty]
  split
  · exact ⟨rfl, hs⟩
  · obtain ⟨heq, hl⟩ := runAll_follows h loops { s with fnEmitter := s.fnEmitter.enterScope } hs
    constructor
    · exact congrArg (fun t : Codegen => (none, { t with fnEmitter := t.fnEmitter.exitScope })) heq
    · exact hl

theorem emitStatement_follows {a b : Codegen → Bool × Codegen} (h : Follows targets a b) :
    Follows targets (emitStatement a) (emitStatement b) := by
  intro loops s hs
  obtain ⟨heq, hl⟩ := h loops s hs
  unfold emitStatement
  rw [heq]
  exact ⟨rfl, hl⟩

theorem emitCondition_follows (h : Follows targets a b) (what : String) :
    Follows targets (emitCondition what a) (emitCondition what b) := by
  intro loops s hs
  obtain ⟨heq, hl⟩ := h loops s hs
  unfold emitCondition
  rw [heq]
  generalize a s = r at *
  rcases r with ⟨_ | value, s₁⟩
  · exact ⟨rfl, hl⟩
  · dsimp only
    split
    · exact ⟨rfl, hl⟩
    · exact ⟨rfl, hl⟩

theorem emitForCondition_follows (h : Follows targets a b) :
    Follows targets (emitForCondition a) (emitForCondition b) := by
  intro loops s hs
  obtain ⟨heq, hl⟩ := h loops s hs
  unfold emitForCondition
  rw [heq]
  generalize a s = r at *
  rcases r with ⟨_ | value, s₁⟩
  · exact ⟨rfl, hl⟩
  · dsimp only
    split
    · exact ⟨rfl, hl⟩
    · exact ⟨rfl, hl⟩

/-! ### If -/

/-- The two arms behind the branch, each with the branch behind it. -/
theorem arms_follow (h₂ : Follows targets a₂ b₂) (h₃ : Follows targets a₃ b₃) {s : Codegen}
    (hs : s.controlFlow.loops = targets) (loops : Targets) (fn value : Value) (n : Nat) :
    b₂ ((s.withLoops loops).openIf fn value ifNames) =
        ((a₂ (s.openIf fn value ifNames)).1, (a₂ (s.openIf fn value ifNames)).2.withLoops loops) ∧
      b₃ ((a₂ (s.openIf fn value ifNames)).2.withLoops loops |>.closePart (n + 2) (n + 1)) =
        ((a₃ ((a₂ (s.openIf fn value ifNames)).2.closePart (n + 2) (n + 1))).1,
          (a₃ ((a₂ (s.openIf fn value ifNames)).2.closePart (n + 2) (n + 1))).2.withLoops loops) ∧
      (a₃ ((a₂ (s.openIf fn value ifNames)).2.closePart (n + 2) (n + 1))).2.controlFlow.loops = targets := by
  obtain ⟨heq₂, hl₂⟩ := h₂ loops (s.openIf fn value ifNames) ((openIf_loops ..).trans hs)
  obtain ⟨heq₃, hl₃⟩ := h₃ loops _ ((closePart_loops _ (n + 2) (n + 1)).trans hl₂)
  refine ⟨?_, ?_, hl₃⟩
  · rw [Codegen.openIf_withLoops, heq₂]
  · rw [Codegen.closePart_withLoops, heq₃]

theorem emitIfStatement_follows (h₁ : Follows targets a₁ b₁) (h₂ : Follows targets a₂ b₂) (h₃ : Follows targets a₃ b₃) :
    Follows targets (emitIfStatement a₁ a₂ a₃) (emitIfStatement b₁ b₂ b₃) := by
  intro loops s hs
  obtain ⟨heq, hl⟩ := emitCondition_follows h₁ "if statement" loops s hs
  unfold emitIfStatement
  rw [Codegen.withLoops_fnEmitter]
  split
  · exact ⟨rfl, hs⟩
  · rename_i fn _
    rw [heq]
    generalize emitCondition "if statement" a₁ s = r at *
    rcases r with ⟨_ | value, s₁⟩
    · exact ⟨rfl, hl⟩
    · obtain ⟨heq₂, heq₃, hl₃⟩ := arms_follow h₂ h₃ hl loops fn value s₁.blocks.length
      dsimp only [Codegen.withLoops_blocks]
      rw [heq₂]
      dsimp only
      rw [heq₃]
      exact ⟨congrArg (Prod.mk true) (Codegen.closePart_withLoops ..), (closePart_loops ..).trans hl₃⟩

theorem emitIfExpression_follows (h₁ : Follows targets a₁ b₁) (h₂ : Follows targets a₂ b₂) (h₃ : Follows targets a₃ b₃)
    (typeWord : BitVec 32) : Follows targets (emitIfExpression a₁ a₂ a₃ typeWord) (emitIfExpression b₁ b₂ b₃ typeWord) := by
  intro loops s hs
  obtain ⟨heq, hl⟩ := emitCondition_follows h₁ "if expression" loops s hs
  unfold emitIfExpression
  rw [Codegen.withLoops_fnEmitter]
  split
  · exact ⟨rfl, hs⟩
  · rename_i fn _
    rw [heq]
    generalize emitCondition "if expression" a₁ s = r at *
    rcases r with ⟨_ | value, s₁⟩
    · exact ⟨rfl, hl⟩
    · obtain ⟨heq₂, heq₃, hl₃⟩ := arms_follow h₂ h₃ hl loops fn value s₁.blocks.length
      dsimp only [Codegen.withLoops_blocks]
      rw [heq₂]
      dsimp only
      rw [heq₃]
      dsimp only [Codegen.withLoops_insertBlock]
      rw [Codegen.closePart_withLoops, Codegen.build_withLoops]
      refine ⟨rfl, ?_⟩
      show (Codegen.build _ _).2.controlFlow.loops = targets
      rw [Codegen.build_controlFlow, closePart_loops]
      exact hl₃

theorem emitIf_follows {sa sb : Codegen → Bool × Codegen} (hs : Follows targets sa sb) (he : Follows targets a b)
    (isExpression : Bool) : Follows targets (emitIf isExpression sa a) (emitIf isExpression sb b) := by
  intro loops s hl
  unfold emitIf
  split
  · obtain ⟨heq, hl'⟩ := he loops s.clearError hl
    refine ⟨?_, hl'⟩
    show ((b (s.clearError.withLoops loops)).1.isSome, (b (s.clearError.withLoops loops)).2) = _
    rw [heq]
  · exact hs loops s.clearError hl

theorem emitTernary_follows (h₁ : Follows targets a₁ b₁) (h₂ : Follows targets a₂ b₂) (h₃ : Follows targets a₃ b₃) :
    Follows targets (emitTernary a₁ a₂ a₃) (emitTernary b₁ b₂ b₃) := by
  intro loops s hs
  obtain ⟨heq, hl⟩ := h₁ loops s hs
  unfold emitTernary
  rw [heq]
  generalize a₁ s = r at *
  rcases r with ⟨_ | value, s₁⟩
  · exact ⟨rfl, hl⟩
  · obtain ⟨heq₂, hl₂⟩ := h₂ loops s₁ hl
    obtain ⟨heq₃, hl₃⟩ := h₃ loops _ hl₂
    dsimp only
    split
    · rw [heq₂]
      dsimp only
      rw [heq₃]
      generalize a₃ (a₂ s₁).2 = r at *
      rcases r with ⟨elseValue, s₃⟩
      dsimp only [Codegen.withLoops_fnEmitter]
      split
      · rw [Codegen.openIf_withLoops, Codegen.withLoops_blocks, Codegen.closePart_withLoops, Codegen.closePart_withLoops,
          Codegen.build_withLoops]
        refine ⟨rfl, ?_⟩
        rw [Codegen.build_controlFlow, closePart_loops, closePart_loops, openIf_loops]
        exact hl₃
      · exact ⟨rfl, hl₃⟩
    · exact ⟨rfl, hl⟩

/-! ### Loops -/

theorem emitLoop_follows (what : String) {la lb : Value → Codegen → Bool × Codegen} (h : ∀ fn, Follows targets (la fn) (lb fn)) :
    Follows targets (emitLoop what la) (loopInside what targets lb) := by
  intro loops s hs
  unfold emitLoop loopInside
  dsimp only
  have hfn : (s.withLoops loops).clearError.fnEmitter = s.clearError.fnEmitter := rfl
  have hdepth : s.clearError.controlFlow.loops = targets := hs
  rw [hfn, hdepth]
  cases s.clearError.fnEmitter.currentFunction with
  | none => exact ⟨rfl, hs⟩
  | some fn =>
    by_cases hdeep : maxLoopNesting ≤ targets.length
    · simp only [hdeep, if_true]
      exact ⟨rfl, hs⟩
    · simp only [hdeep, if_false]
      exact h fn loops s.clearError hs

theorem whileBlocks_withLoops (loops : Targets) (fn : Value) (s : Codegen) :
    (s.withLoops loops).whileBlocks fn = (s.openWhile fn).withLoops loops := by
  let made := ((s.createBlock fn "while_cond").createBlock fn "while_body").createBlock fn "while_end"
  let n := s.blocks.length
  exact Codegen.closePart_withLoops loops (made.pushLoop (n + 2) n) n n

/-- The parts of a while loop find its targets on the stack. -/
theorem emitWhile_follows {condition thenPath : Targets → Action} (h₁ : ∀ inner, Follows inner a₁ (condition inner))
    (h₂ : ∀ inner, Follows inner a₂ (thenPath inner)) :
    Follows targets (emitWhile a₁ a₂) (whileInside condition thenPath targets) := by
  refine emitLoop_follows "while" fun fn loops s hs => ?_
  let inner := (s.blocks.length + 2, s.blocks.length) :: targets
  have hopen : (s.openWhile fn).controlFlow.loops = inner := by rw [openWhile_loops, hs]
  obtain ⟨heq, hl⟩ := emitCondition_follows (h₁ inner) "while statement" loops (s.openWhile fn) hopen
  dsimp only [Codegen.withLoops_blocks]
  rw [whileBlocks_withLoops, heq]
  generalize emitCondition "while statement" a₁ (s.openWhile fn) = r at *
  rcases r with ⟨_ | value, s₁⟩
  · refine ⟨rfl, ?_⟩
    show s₁.controlFlow.loops.tail = targets
    rw [hl]
    rfl
  · obtain ⟨heq₂, hl₂⟩ := h₂ inner loops (s₁.testLoop value (s.blocks.length + 1) (s.blocks.length + 2))
      ((testLoop_loops ..).trans hl)
    dsimp only
    rw [Codegen.testLoop_withLoops, heq₂, Codegen.closePart_withLoops]
    refine ⟨rfl, ?_⟩
    show (Codegen.closePart _ _ _).controlFlow.loops.tail = targets
    rw [closePart_loops, hl₂]
    rfl

/-- So do those of a for loop, its increment and its first clause among them. -/
theorem emitFor_follows {a₄ : Action} {preClause condition postClause thenPath : Targets → Action}
    (h₁ : ∀ inner, Follows inner a₁ (preClause inner)) (h₂ : ∀ inner, Follows inner a₂ (condition inner))
    (h₃ : ∀ inner, Follows inner a₃ (postClause inner)) (h₄ : ∀ inner, Follows inner a₄ (thenPath inner)) :
    Follows targets (emitFor a₁ a₂ a₃ a₄) (forInside preClause condition postClause thenPath targets) := by
  refine emitLoop_follows "for" fun fn loops s hs => ?_
  let n := s.blocks.length
  let inner := (n + 3, n + 2) :: targets
  have hopen : (s.openFor fn).controlFlow.loops = inner := by rw [openFor_loops, hs]
  have hblocks : (s.withLoops loops).forBlocks fn = (s.openFor fn).withLoops loops := rfl
  obtain ⟨heq₁, hl₁⟩ := h₁ inner loops (s.openFor fn) hopen
  obtain ⟨heq₂, hl₂⟩ := emitForCondition_follows (h₂ inner) loops _ ((closePart_loops _ n n).trans hl₁)
  dsimp only [Codegen.withLoops_blocks]
  rw [hblocks, heq₁]
  dsimp only
  rw [Codegen.closePart_withLoops, heq₂]
  generalize emitForCondition a₂ ((a₁ (s.openFor fn)).2.closePart n n) = r at *
  rcases r with ⟨_ | value, s₂⟩
  · refine ⟨rfl, ?_⟩
    show s₂.controlFlow.loops.tail = targets
    rw [hl₂]
    rfl
  · obtain ⟨heq₃, hl₃⟩ := h₄ inner loops (s₂.testLoop value (n + 1) (n + 3)) ((testLoop_loops ..).trans hl₂)
    obtain ⟨heq₄, hl₄⟩ := h₃ inner loops _ ((closePart_loops _ (n + 2) (n + 2)).trans hl₃)
    dsimp only
    rw [Codegen.testLoop_withLoops, heq₃]
    dsimp only
    rw [Codegen.closePart_withLoops, heq₄, Codegen.closePart_withLoops]
    refine ⟨rfl, ?_⟩
    show (Codegen.closePart _ _ _).controlFlow.loops.tail = targets
    rw [closePart_loops, hl₄]
    rfl

theorem emitBreak_follows : Follows targets emitBreak (breakInside targets) := by
  intro loops s hs
  have hl : s.clearError.controlFlow.loops = targets := hs
  unfold emitBreak breakInside
  dsimp only
  rw [hl]
  split
  · exact ⟨rfl, hs⟩
  · refine ⟨congrArg (Prod.mk true) (Codegen.append_withLoops loops s.clearError _), ?_⟩
    exact (congrArg ControlFlow.loops (Codegen.append_controlFlow s.clearError _)).trans hl

theorem emitContinue_follows : Follows targets emitContinue (continueInside targets) := by
  intro loops s hs
  have hl : s.clearError.controlFlow.loops = targets := hs
  unfold emitContinue continueInside
  dsimp only
  rw [hl]
  split
  · exact ⟨rfl, hs⟩
  · refine ⟨congrArg (Prod.mk true) (Codegen.append_withLoops loops s.clearError _), ?_⟩
    exact (congrArg ControlFlow.loops (Codegen.append_controlFlow s.clearError _)).trans hl

end

/-! ## Every node -/

section

variable (library : Library Value)

theorem one_follows {targets : Targets} {a b : Action} (h : Follows targets a b) : FollowsAll targets [a] [b] := .cons h .nil

mutual

theorem emit_follows (node : Node) (targets : Targets) : Follows targets (emit library node) (emitInside library node targets) := by
  cases node with
  | pathIf condition thenPath elsePath typeWord isExpression =>
    have hc := emit_follows condition targets
    have ht := emit_follows thenPath targets
    have he := emit_follows elsePath targets
    have hthen := emitArm_follows (statements_follow thenPath targets) ht
    have helse := elseIf_follows elsePath targets (emitArm_follows (statements_follow elsePath targets) he)
    rw [emit, emitInside]
    exact emitStatement_follows (emitIf_follows (emitIfStatement_follows hc ht he)
      (emitIfExpression_follows hc hthen helse typeWord) isExpression)
  | pathWhile condition thenPath =>
    rw [emit, emitInside]
    exact emitStatement_follows (emitWhile_follows (emit_follows condition) (emit_follows thenPath))
  | pathFor preClause condition postClause thenPath =>
    rw [emit, emitInside]
    exact emitStatement_follows (emitFor_follows (emit_follows preClause) (emit_follows condition)
      (emit_follows postClause) (emit_follows thenPath))
  | pathBreak =>
    rw [emit, emitInside]
    exact emitStatement_follows emitBreak_follows
  | pathContinue =>
    rw [emit, emitInside]
    exact emitStatement_follows emitContinue_follows
  | block nodes =>
    rw [emit, emitInside]
    exact emitBlock_follows (emitAll_follows nodes targets)
  | ternary condition thenPath elsePath =>
    rw [emit, emitInside]
    split
    · exact null_follows
    · exact emitTernary_follows (emit_follows condition targets) (emit_follows thenPath targets) (emit_follows elsePath targets)
  | unary opcode child =>
    rw [emit, emitInside]
    exact plan_follows (one_follows (emit_follows child targets)) _
  | binary opcode left right =>
    rw [emit, emitInside]
    have harguments := List.rel_append (arguments_follow left targets) (arguments_follow right targets)
    exact plan_follows (.cons (emit_follows left targets) (.cons (emit_follows right targets) harguments)) _
  | grouping child =>
    rw [emit, emitInside]
    exact plan_follows (one_follows (emit_follows child targets)) _
  | cast targetType expression =>
    rw [emit, emitInside]
    exact plan_follows (one_follows (emit_follows expression targets)) _
  | varDecl identifier typeLiteral expression line =>
    rw [emit, emitInside]
    exact plan_follows (.cons (emit_follows expression targets) (arguments_follow expression targets)) _
  | index first second third =>
    rw [emit, emitInside]
    exact plan_follows (.cons (emit_follows first targets) (.cons (emit_follows second targets)
      (one_follows (emit_follows third targets)))) _
  | compound literalType nodes =>
    rw [emit, emitInside]
    exact plan_follows (emitAll_follows nodes targets) _
  | fnCall args count =>
    rw [emit, emitInside]
    exact plan_follows (arguments_follow args targets) _
  | null => exact null_follows
  | wild => exact null_follows
  | _ => exact plan_follows .nil _

theorem emitAll_follows (nodes : List Node) (targets : Targets) :
    FollowsAll targets (emitAll library nodes) (emitAllInside library nodes targets) := by
  cases nodes with
  | nil => exact .nil
  | cons node nodes =>
    rw [emitAll, emitAllInside]
    exact .cons (emit_follows node targets) (emitAll_follows nodes targets)

theorem statements_follow (node : Node) (targets : Targets) :
    FollowsAll targets (statements library node) (statementsInside library node targets) := by
  cases node with
  | block nodes =>
    rw [statements, statementsInside]
    exact emitAll_follows nodes targets
  | _ => exact .nil

theorem elseIf_follows (node : Node) (targets : Targets) {a b : Action} (h : Follows targets a b) :
    Follows targets ((elseIf library node).getD a) ((elseIfInside library node targets).getD b) := by
  cases node with
  | pathIf condition thenPath elsePath typeWord isExpression =>
    have hc := emit_follows condition targets
    have hthen := emitArm_follows (statements_follow thenPath targets) (emit_follows thenPath targets)
    have harm := emitArm_follows (statements_follow elsePath targets) (emit_follows elsePath targets)
    rw [elseIf, elseIfInside]
    exact emitIfExpression_follows hc hthen (elseIf_follows elsePath targets harm) typeWord
  | _ => exact h

theorem arguments_follow (node : Node) (targets : Targets) :
    FollowsAll targets (arguments library node) (argumentsInside library node targets) := by
  cases node with
  | compound literalType nodes =>
    rw [arguments, argumentsInside]
    exact emitAll_follows nodes targets
  | fnCollection nodes =>
    rw [arguments, argumentsInside]
    exact emitAll_follows nodes targets
  | fnCall args count =>
    rw [arguments, argumentsInside]
    exact arguments_follow args targets
  | binary opcode left right =>
    rw [arguments, argumentsInside]
    exact List.rel_append (arguments_follow left targets) (arguments_follow right targets)
  | index first second third =>
    rw [arguments, argumentsInside]
    exact .cons (emit_follows first targets) (.cons (emit_follows second targets) (one_follows (emit_follows third targets)))
  | _ => exact .nil

end

/-- The stack holds the targets of the loops around every node, and comes back as it was. -/
theorem emit_inside (node : Node) (s : Codegen) :
    emit library node s = emitInside library node s.controlFlow.loops s ∧
      (emit library node s).2.controlFlow.loops = s.controlFlow.loops := by
  obtain ⟨heq, hl⟩ := emit_follows library node s.controlFlow.loops s.controlFlow.loops s rfl
  refine ⟨?_, hl⟩
  rw [Codegen.withLoops_self] at heq
  rw [heq]
  show emit library node s = ((emit library node s).1, (emit library node s).2.withLoops s.controlFlow.loops)
  rw [← hl]
  rfl

end

end Xvr.Backend
