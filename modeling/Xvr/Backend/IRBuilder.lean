/-
  Xvr.Backend.IRBuilder — the module under construction: its functions and blocks, the
  insertion point (`xvr_llvm_ir_builder.cpp`), and the state of the emitters that share it.

  An instruction goes to the end of the block the builder stands at, whatever ends that
  block already.
-/

import Xvr.Backend.Plans
import Xvr.Lib.Flow

namespace Xvr.Backend

open Xvr.Runtime Xvr.Lib

/-! ## Values -/

/-- `LLVMValueRef`. An instruction's result is known by the number of the instruction. -/
inductive Value where
  | constant (type : LlvmType) (bits : BitVec 64)
  | globalString (text : List Char)
  | result (id : Nat) (type : LlvmType)
  | alloca (id : Nat) (type : LlvmType)
  | function (index : Nat)
  | parameter (index : Nat) (type : LlvmType)
  deriving DecidableEq, Repr

namespace Value

def typeOf : Value → LlvmType
  | .constant type _ | .result _ type | .parameter _ type => type
  | .globalString _ | .alloca _ _ | .function _ => .pointer

def allocatedType : Value → Option LlvmType
  | .alloca _ type => some type
  | _ => none

/-- `is_boolean_type`. -/
def isBoolean (value : Value) : Bool := value.typeOf = .integer 1

def values : Values Value := ⟨.constant, .globalString, typeOf, allocatedType⟩

end Value

/-- The instruction with its number. -/
structure Built where
  id : Nat
  op : Op Value
  deriving DecidableEq, Repr

/-- What an instruction yields. -/
def resultOf (id : Nat) : Op Value → Value
  | .alloca type => .alloca id type
  | .load type _ => .result id type
  | .store _ _ => .result id .void
  | .binary (.icmp _) _ _ => .result id (.integer 1)
  | .binary _ lhs _ => .result id lhs.typeOf
  | .call _ _ type => .result id type
  | .convert _ type => .result id type
  | .phi type _ => .result id type

abbrev Instr := Flow.Instr Built Value

def isTerminator : Instr → Bool
  | .op _ => false
  | _ => true

/-! ## The module and the emitters -/

structure Block where
  parent : Value
  name : String
  code : List Instr
  deriving DecidableEq, Repr

structure Function where
  name : List Char
  returnType : LlvmType
  parameters : List LlvmType
  deriving DecidableEq, Repr

/-- An error message and its hint. -/
structure Diagnostic where
  message : String
  hint : Option String
  deriving DecidableEq, Repr

/-- `Xvr_LLVMControlFlow`: the targets of break and continue of the open loops, innermost
    first, and the last error. `reported` keeps the errors that were cleared since. -/
structure ControlFlow where
  loops : List (Nat × Nat)
  error : Option Diagnostic
  reported : List Diagnostic
  lastExpressionResult : Option Value
  deriving DecidableEq, Repr

/-- `Xvr_LLVMCodegen` with the parts its emitters share. -/
structure Codegen where
  functions : List Function
  blocks : List Block
  /-- `LLVMGetInsertBlock`. -/
  insertBlock : Option Nat
  nextId : Nat
  fnEmitter : FunctionEmitter Value
  controlFlow : ControlFlow
  /-- The errors set on the context, the last of which is its message. -/
  contextErrors : List String
  mainCreated : Bool

namespace Codegen

/-- `Xvr_LLVMCodegenCreate`. -/
def create : Codegen := ⟨[], [], none, 0, .create, ⟨[], none, [], none⟩, [], false⟩

/-- Nothing was reported on the way from one state to another. -/
def quiet (s t : Codegen) : Bool :=
  t.controlFlow.reported.length = s.controlFlow.reported.length && t.contextErrors.length = s.contextErrors.length

/-! ## The builder -/

/-- Appends to the current block. -/
def append (instr : Instr) (s : Codegen) : Codegen :=
  match s.insertBlock with
  | none => s
  | some b => { s with blocks := s.blocks.modify b fun block => { block with code := block.code ++ [instr] } }

def setInsertPoint (b : Nat) (s : Codegen) : Codegen := { s with insertBlock := some b }

/-- `Xvr_LLVMIRBuilderCreateBlockInFunction`. -/
def createBlock (parent : Value) (name : String) (s : Codegen) : Codegen :=
  { s with blocks := s.blocks ++ [⟨parent, name, []⟩] }

def createBr (target : Nat) (s : Codegen) : Codegen := s.append (.br target)

def createCondBr (condition : Value) (thenBlock elseBlock : Nat) (s : Codegen) : Codegen :=
  s.append (.condBr condition thenBlock elseBlock)

def createRet (value : Option Value) (s : Codegen) : Codegen := s.append (.ret value)

/-- Builds an instruction. -/
def build (op : Op Value) (s : Codegen) : Value × Codegen :=
  (resultOf s.nextId op, { s.append (.op ⟨s.nextId, op⟩) with nextId := s.nextId + 1 })

/-- `Xvr_LLVMContextSetError`. -/
def setContextError (message : String) (s : Codegen) : Codegen :=
  { s with contextErrors := s.contextErrors ++ [message] }

/-- `LLVMGetNamedFunction`. -/
def getFunction (name : List Char) (s : Codegen) : Option Value :=
  (s.functions.findIdx? (·.name = name)).map .function

end Codegen

/-! ## Emitting a plan -/

/-- What an emitter does: the value it returns, and the new state. -/
abbrev Action := Codegen → Option Value × Codegen

/-- The NULL node. -/
def Action.null : Action := fun s => (none, s)

def Plan.emit (operands : List Action) : Plan Value → Action
  | .done value => fun s => (value, s)
  | .operand index next => fun s =>
    let (value, s) := (operands[index]?.getD .null) s
    (next value).emit operands s
  | .build op next => fun s =>
    let (value, s) := s.build op
    (next value).emit operands s
  | .lookup name next => fun s => (next (s.fnEmitter.find name)).emit operands s
  | .declare name alloca varType arrayCount next => fun s =>
    next.emit operands { s with fnEmitter := s.fnEmitter.addLocalVar (some name) (some alloca) varType arrayCount }
  | .getFunction name next => fun s => (next (s.getFunction name)).emit operands s
  | .setError message next => fun s => next.emit operands (s.setContextError message)

/-- One action after the other. -/
def runAll : List Action → Codegen → Codegen
  | [], s => s
  | action :: actions, s => runAll actions (action s).2

/-- The value of the last action. -/
def runLast : List Action → Action
  | [] => .null
  | [action] => action
  | action :: actions => fun s => runLast actions (action s).2

end Xvr.Backend
