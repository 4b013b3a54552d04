/-
  Xvr.Backend.Emission — `Xvr_LLVMExpressionEmitterEmit`: what is emitted for a syntax tree.
-/

import Xvr.Backend.ControlFlow

namespace Xvr.Backend

open Xvr.Runtime
open Xvr.Frontend (Opcode Node)

/-- The statements of a block, in a scope of their own; an empty block opens none. -/
def emitBlock (actions : List Action) : Action := fun s =>
  if actions.isEmpty then (none, s)
  else
    let s := runAll actions { s with fnEmitter := s.fnEmitter.enterScope }
    (none, { s with fnEmitter := s.fnEmitter.exitScope })

/-- A statement that yields no value. -/
def emitStatement (statement : Codegen → Bool × Codegen) : Action := fun s => (none, (statement s).2)

/-- An arm of an if expression: the statements of a block, without a scope, and the value of
    the last one; anything else is emitted whole. -/
def emitArm (statements : List Action) (whole : Action) : Action :=
  if statements.isEmpty then whole else runLast statements

variable (library : Library Value)

mutual

/-- `Xvr_LLVMExpressionEmitterEmit`. -/
def emit : Node → Action
  | .null | .wild => .null
  | .pathIf condition thenPath elsePath typeWord isExpression =>
    emitStatement (emitIf isExpression (emitIfStatement (emit condition) (emit thenPath) (emit elsePath))
      (emitIfExpression (emit condition) (emitArm (statements thenPath) (emit thenPath))
        ((elseIf elsePath).getD (emitArm (statements elsePath) (emit elsePath))) typeWord))
  | .pathWhile condition thenPath => emitStatement (emitWhile (emit condition) (emit thenPath))
  | .pathFor preClause condition postClause thenPath =>
    emitStatement (emitFor (emit preClause) (emit condition) (emit postClause) (emit thenPath))
  | .pathBreak => emitStatement emitBreak
  | .pathContinue => emitStatement emitContinue
  | .block nodes => emitBlock (emitAll nodes)
  | .ternary condition thenPath elsePath =>
    if condition.isNull || thenPath.isNull || elsePath.isNull then .null
    else emitTernary (emit condition) (emit thenPath) (emit elsePath)
  | .unary opcode child => (nodePlan Value.values library (.unary opcode child)).emit [emit child]
  | .binary opcode left right =>
    (nodePlan Value.values library (.binary opcode left right)).emit
      (emit left :: emit right :: (arguments left ++ arguments right))
  | .grouping child => (nodePlan Value.values library (.grouping child)).emit [emit child]
  | .cast targetType expression =>
    (nodePlan Value.values library (.cast targetType expression)).emit [emit expression]
  | .varDecl identifier typeLiteral expression line =>
    (nodePlan Value.values library (.varDecl identifier typeLiteral expression line)).emit
      (emit expression :: arguments expression)
  | .index first second third =>
    (nodePlan Value.values library (.index first second third)).emit [emit first, emit second, emit third]
  | .compound literalType nodes => (nodePlan Value.values library (.compound literalType nodes)).emit (emitAll nodes)
  | .fnCall args count => (nodePlan Value.values library (.fnCall args count)).emit (arguments args)
  | node => (nodePlan Value.values library node).emit []

def emitAll : List Node → List Action
  | [] => []
  | node :: nodes => emit node :: emitAll nodes

/-- The nodes of a block. -/
def statements : Node → List Action
  | .block nodes => emitAll nodes
  | _ => []

/-- An else path that is an if, as an expression. -/
def elseIf : Node → Option Action
  | .pathIf condition thenPath elsePath typeWord _ =>
    some (emitIfExpression (emit condition) (emitArm (statements thenPath) (emit thenPath))
      ((elseIf elsePath).getD (emitArm (statements elsePath) (emit elsePath))) typeWord)
  | _ => none

/-- The operands below a node: its elements or arguments. -/
def arguments : Node → List Action
  | .compound _ nodes | .fnCollection nodes => emitAll nodes
  | .fnCall args _ => arguments args
  | .binary _ left right => arguments left ++ arguments right
  | .index first second third => [emit first, emit second, emit third]
  | _ => []

end

/-- A function with its entry block. -/
def Codegen.atEntry : Codegen :=
  { Codegen.create with
    functions := [⟨"main".toList, .integer 32, []⟩]
    blocks := [⟨.function 0, "entry", []⟩]
    insertBlock := some 0
    fnEmitter := { FunctionEmitter.create with currentFunction := some (.function 0) } }

end Xvr.Backend
