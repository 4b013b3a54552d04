/-
  Xvr.Backend.ControlFlow — if, while, for, break and continue
  (`xvr_llvm_control_flow.cpp`), and the ternary operator, over what is emitted for their
  parts.
-/

import Xvr.Backend.IRBuilder

namespace Xvr.Backend

open Xvr.Runtime Xvr.Lib

/-- `MAX_LOOP_NESTING`. -/
def maxLoopNesting : Nat := 64

/-- `LLVMPrintTypeToString`. -/
def LlvmType.print : LlvmType → String
  | .void => "void"
  | .float => "float"
  | .double => "double"
  | .pointer => "ptr"
  | .integer width => s!"i{width}"
  | .array element count => s!"[{count} x {element.print}]"

namespace Codegen

/-! ## Errors -/

def setError (message : String) (hint : Option String) (s : Codegen) : Codegen :=
  { s with controlFlow := { s.controlFlow with error := some ⟨message, hint⟩,
                                               reported := s.controlFlow.reported ++ [⟨message, hint⟩] } }

/-- `Xvr_LLVMControlFlowClearError`. -/
def clearError (s : Codegen) : Codegen := { s with controlFlow := { s.controlFlow with error := none } }

/-! ## The loop stack -/

def pushLoop (endBlock condBlock : Nat) (s : Codegen) : Codegen :=
  { s with controlFlow := { s.controlFlow with loops := (endBlock, condBlock) :: s.controlFlow.loops } }

def popLoop (s : Codegen) : Codegen :=
  { s with controlFlow := { s.controlFlow with loops := s.controlFlow.loops.tail } }

/-! ## The steps of an if -/

/-- Three blocks, the conditional branch, and the builder in the first one. -/
def openIf (fn condition : Value) (names : String × String × String) (s : Codegen) : Codegen :=
  let n := s.blocks.length
  (((s.createBlock fn names.1).createBlock fn names.2.1).createBlock fn names.2.2).createCondBr condition n (n + 1)
    |>.setInsertPoint n

/-- The branch behind a part, and the builder in the next block. -/
def closePart (target next : Nat) (s : Codegen) : Codegen := (s.createBr target).setInsertPoint next

/-! ## The steps of a loop -/

/-- The blocks of a while loop, its targets, and the builder at the condition. -/
def openWhile (fn : Value) (s : Codegen) : Codegen :=
  let n := s.blocks.length
  (((s.createBlock fn "while_cond").createBlock fn "while_body").createBlock fn "while_end").pushLoop (n + 2) n
    |>.closePart n n

/-- The blocks of a for loop and its targets. -/
def openFor (fn : Value) (s : Codegen) : Codegen :=
  let n := s.blocks.length
  ((((s.createBlock fn "for_cond").createBlock fn "for_body").createBlock fn "for_inc").createBlock fn "for_end").pushLoop
    (n + 3) (n + 2)

/-- The test of a loop, and the builder in its body. -/
def testLoop (condition : Value) (bodyBlock endBlock : Nat) (s : Codegen) : Codegen :=
  (s.createCondBr condition bodyBlock endBlock).setInsertPoint bodyBlock

end Codegen

def booleanHint : String :=
  "use a comparison operator (e.g., 'x > 0') or wrap the condition with 'bool()'"

def forHint : String :=
  "use a comparison operator (e.g., 'i < 10') or wrap the condition with 'bool()'"

/-- The condition of `what`, which must have a value and be boolean. -/
def emitCondition (what : String) (condition : Action) : Action := fun s =>
  let (value, s) := condition s
  match value with
  | none => (none, s.setError s!"failed to evaluate condition of {what}" none)
  | some value =>
    if value.isBoolean then (some value, s)
    else (none, s.setError s!"condition of {what} must be boolean, got '{value.typeOf.print}'" (some booleanHint))

def ifNames : String × String × String := ("then", "else", "ifcont")

def ternaryNames : String × String × String := ("ternary_then", "ternary_else", "ternary_cont")

/-- The statement form of `Xvr_LLVMControlFlowEmitIf`. -/
def emitIfStatement (condition thenPath elsePath : Action) (s : Codegen) : Bool × Codegen :=
  match s.fnEmitter.currentFunction with
  | none => (false, s.setError "internal error: no current function for if statement" none)
  | some fn =>
    match emitCondition "if statement" condition s with
    | (none, s) => (false, s)
    | (some value, s) =>
      let n := s.blocks.length
      let s := (thenPath (s.openIf fn value ifNames)).2.closePart (n + 2) (n + 1)
      (true, (elsePath s).2.closePart (n + 2) (n + 2))

/-- The type of an if expression: the enumerator as `Xvr_LLVMTypeMapperGetType` reads it. -/
def resultType (typeWord : BitVec 32) : LlvmType :=
  match [LiteralType.void, .boolean, .integer, .float, .int8, .int16, .int32, .int64, .uint8, .uint16, .uint32, .uint64,
    .float16, .float32, .float64].find? (·.ctorIdx = typeWord.toNat) with
  | some varType => typeMapperGetType varType
  | none => .pointer

/-- `emit_if_expression`. The arms come in from the blocks the builder ended in. -/
def emitIfExpression (condition thenPath elsePath : Action) (typeWord : BitVec 32) : Action := fun s =>
  match s.fnEmitter.currentFunction with
  | none => (none, s)
  | some fn =>
    match emitCondition "if expression" condition s with
    | (none, s) => (none, s)
    | (some value, s) =>
      let n := s.blocks.length
      let (thenValue, s) := thenPath (s.openIf fn value ifNames)
      let thenEnd := s.insertBlock.getD n
      let (elseValue, s) := elsePath (s.closePart (n + 2) (n + 1))
      let elseEnd := s.insertBlock.getD (n + 1)
      let type := resultType typeWord
      let null := Value.constant type 0
      let (phi, s) := (s.closePart (n + 2) (n + 2)).build
        (.phi type [(thenValue.getD null, thenEnd), (elseValue.getD null, elseEnd)])
      (some phi, { s with controlFlow := { s.controlFlow with lastExpressionResult := some phi } })

/-- `Xvr_LLVMControlFlowEmitIf`. -/
def emitIf (isExpression : Bool) (statement : Codegen → Bool × Codegen) (expression : Action) (s : Codegen) :
    Bool × Codegen :=
  if isExpression then
    let (value, s) := expression s.clearError
    (value.isSome, s)
  else statement s.clearError

/-- What every loop checks before it makes its blocks. -/
def emitLoop (what : String) (loop : Value → Codegen → Bool × Codegen) (s : Codegen) : Bool × Codegen :=
  let s := s.clearError
  match s.fnEmitter.currentFunction with
  | none => (false, s.setError s!"internal error: no current function for {what} statement" none)
  | some fn =>
    if maxLoopNesting ≤ s.controlFlow.loops.length then
      (false, s.setError s!"maximum loop nesting depth ({maxLoopNesting}) exceeded" none)
    else loop fn s

/-- `Xvr_LLVMControlFlowEmitWhile`. -/
def emitWhile (condition thenPath : Action) : Codegen → Bool × Codegen :=
  emitLoop "while" fun fn s =>
    let n := s.blocks.length
    match emitCondition "while statement" condition (s.openWhile fn) with
    | (none, s) => (false, s.popLoop)
    | (some value, s) =>
      (true, ((thenPath (s.testLoop value (n + 1) (n + 2))).2.closePart n (n + 2)).popLoop)

/-- The condition of a for loop: constantly true when it has no value. -/
def emitForCondition (condition : Action) : Action := fun s =>
  let (value, s) := condition s
  match value with
  | none => (some (.constant (.integer 1) 1), s)
  | some value =>
    if value.isBoolean then (some value, s)
    else
      (none, s.setError s!"condition of for statement must be boolean, got '{value.typeOf.print}'" (some forHint))

/-- `Xvr_LLVMControlFlowEmitFor`. -/
def emitFor (preClause condition postClause thenPath : Action) : Codegen → Bool × Codegen :=
  emitLoop "for" fun fn s =>
    let n := s.blocks.length
    match emitForCondition condition ((preClause (s.openFor fn)).2.closePart n n) with
    | (none, s) => (false, s.popLoop)
    | (some value, s) =>
      let s := (thenPath (s.testLoop value (n + 1) (n + 3))).2.closePart (n + 2) (n + 2)
      (true, ((postClause s).2.closePart n (n + 3)).popLoop)

/-- `Xvr_LLVMControlFlowEmitBreak`. -/
def emitBreak (s : Codegen) : Bool × Codegen :=
  let s := s.clearError
  match s.controlFlow.loops with
  | [] =>
    (false, s.setError "break statement must be inside a loop"
      (some "place the 'break' statement inside a 'while' or 'for' loop"))
  | (endBlock, _) :: _ => (true, s.createBr endBlock)

/-- `Xvr_LLVMControlFlowEmitContinue`. -/
def emitContinue (s : Codegen) : Bool × Codegen :=
  let s := s.clearError
  match s.controlFlow.loops with
  | [] =>
    (false, s.setError "continue statement must be inside a loop"
      (some "place the 'continue' statement inside a 'while' or 'for' loop"))
  | (_, condBlock) :: _ => (true, s.createBr condBlock)

/-- The ternary case of `Xvr_LLVMExpressionEmitterEmit`: both arms are emitted before the
    branch. -/
def emitTernary (condition thenPath elsePath : Action) : Action := fun s =>
  match condition s with
  | (none, s) => (none, s)
  | (some value, s) =>
    if value.isBoolean then
      let (thenValue, s) := thenPath s
      let (elseValue, s) := elsePath s
      match thenValue, elseValue, s.fnEmitter.currentFunction with
      | some thenValue, some elseValue, some fn =>
        let n := s.blocks.length
        let s := ((s.openIf fn value ternaryNames).closePart (n + 2) (n + 1)).closePart (n + 2) (n + 2)
        let (phi, s) := s.build (.phi thenValue.typeOf [(thenValue, n), (elseValue, n + 1)])
        (some phi, s)
      | _, _, _ => (none, s)
    else (none, s)

end Xvr.Backend
