/-
  Xvr.Backend.Plans — what the expression emitter asks of LLVM for one node
  (`xvr_llvm_expression_emitter.cpp`).

  A plan is the emitter's straight path through a node: it emits operands, builds
  instructions and looks variables up, and depends on what these answer. It is written over
  any type of LLVM values, so that it can be emitted as well as executed. The calls (the
  standard library, user functions, arrays, casts, string concatenation) are a parameter.
-/

import Xvr.Backend.Types
import Xvr.Backend.LocalVars

namespace Xvr.Backend

open Xvr.Runtime Xvr.Lib
open Xvr.Frontend (Opcode Node)

/-! ## Instructions and values -/

/-- The instructions that neither end a block nor merge two. -/
inductive Op (V : Type) where
  | alloca (type : LlvmType)
  | load (type : LlvmType) (pointer : V)
  | store (value pointer : V)
  | binary (instruction : Instruction) (lhs rhs : V)
  | call (callee : List Char) (arguments : List V) (type : LlvmType)
  /-- A conversion or an address computation. -/
  | convert (value : V) (type : LlvmType)
  | phi (type : LlvmType) (incoming : List (V × Nat))
  deriving DecidableEq, Repr

/-- Stores and calls are what a program shows of itself. -/
def Op.hasEffect {V : Type} : Op V → Bool
  | .store _ _ | .call _ _ _ => true
  | _ => false

/-- What the emitter asks LLVM about its values. -/
structure Values (V : Type) where
  constant : LlvmType → BitVec 64 → V
  globalString : List Char → V
  typeOf : V → LlvmType
  /-- `LLVMGetAllocatedType`; an opaque pointer has no element type. -/
  allocatedType : V → Option LlvmType

/-! ## Plans -/

inductive Plan (V : Type) where
  | done (value : Option V)
  /-- `Xvr_LLVMExpressionEmitterEmit` on one of the node's operands. -/
  | operand (index : Nat) (next : Option V → Plan V)
  | build (op : Op V) (next : V → Plan V)
  | lookup (name : List Char) (next : Option (Variable V) → Plan V)
  | declare (name : List Char) (alloca : V) (varType : LiteralType) (arrayCount : Int) (next : Plan V)
  | getFunction (name : List Char) (next : Option V → Plan V)
  /-- `Xvr_LLVMContextSetError`. -/
  | setError (message : String) (next : Plan V)

namespace Plan

variable {V : Type}

/-- An operand that must not be NULL. -/
def need (index : Nat) (next : V → Plan V) : Plan V :=
  .operand index fun
    | none => .done none
    | some value => next value

/-- A variable that must be found: `lookup_var_with_type`. -/
def needVariable (name : List Char) (next : V → LiteralType → Plan V) : Plan V :=
  .lookup name fun found =>
    match found with
    | some v =>
      match v.value with
      | some pointer => next pointer v.type
      | none => .done none
    | none => .done none

end Plan

/-- What is emitted for the nodes that are not modelled here. -/
structure Library (V : Type) where
  node : Node → Plan V
  cast : Literal → V → Plan V
  stringConcat : V → V → Plan V
  print : V → Plan V

/-- A library that emits nothing. -/
def Library.nothing {V : Type} : Library V :=
  ⟨fun _ => .done none, fun _ value => .done (some value), fun _ _ => .done none, fun _ => .done none⟩

section

variable {V : Type} (values : Values V) (library : Library V)

/-! ## Literals and identifiers -/

/-- `emit_literal_value`. -/
def literalValue (literal : Literal) : V :=
  match literal with
  | .null => values.constant .pointer 0
  | .boolean b => values.constant (.integer 1) (if b then 1 else 0)
  | .integer v => values.constant (.integer 32) (v.signExtend 64)
  | .int8 v => values.constant (.integer 8) (v.signExtend 64)
  | .int16 v => values.constant (.integer 16) (v.signExtend 64)
  | .int32 v => values.constant (.integer 32) (v.signExtend 64)
  | .int64 v => values.constant (.integer 64) v
  | .uint8 v => values.constant (.integer 8) (v.zeroExtend 64)
  | .uint16 v => values.constant (.integer 16) (v.zeroExtend 64)
  | .uint32 v => values.constant (.integer 32) (v.zeroExtend 64)
  | .uint64 v => values.constant (.integer 64) v
  | .float bits => values.constant .float (bits.zeroExtend 64)
  | .float16 bits => values.constant (.integer 16) (bits.zeroExtend 64)
  | .float32 bits => values.constant .float (bits.zeroExtend 64)
  | .float64 bits => values.constant .double bits
  | .string text => values.globalString text
  | _ => values.constant (.integer 8) 0

def LlvmType.isArray : LlvmType → Bool
  | .array _ _ => true
  | _ => false

/-- The type an identifier is loaded with. -/
def identifierType (pointer : V) (varType : LiteralType) : LlvmType :=
  if varType ≠ .any ∧ varType ≠ .array then typeMapperGetType varType
  else (values.allocatedType pointer).getD (.integer 32)

/-- `Xvr_LLVMExpressionEmitterEmitIdentifier`: an array is not loaded. -/
def identifierPlan (name : List Char) : Plan V :=
  .needVariable name fun pointer varType =>
    let loaded := identifierType values pointer varType
    if loaded.isArray then .done (some pointer)
    else .build (.load loaded pointer) fun value => .done (some value)

/-- `Xvr_LLVMExpressionEmitterEmitLiteral`. -/
def literalPlan (literal : Literal) : Plan V :=
  match literal with
  | .identifier name => identifierPlan values name
  | literal => .done (some (literalValue values literal))

/-! ## Operators -/

def isFloatType (type : LlvmType) : Bool := type = .float || type = .double

/-- The instruction `emit_binary_op` builds. -/
def binaryInstruction (opcode : Opcode) (isFloat : Bool) : Option Instruction :=
  match opcode with
  | .addition => some (if isFloat then .fadd else .add)
  | .subtraction => some (if isFloat then .fsub else .sub)
  | .multiplication => some (if isFloat then .fmul else .mul)
  | .division => some (if isFloat then .fdiv else .sdiv)
  | .modulo => some (if isFloat then .frem else .srem)
  | .and => some .and
  | .or => some .or
  | .compareLess => some (.icmp .lt)
  | .compareLessEqual => some (.icmp .le)
  | .compareGreater => some (.icmp .gt)
  | .compareGreaterEqual => some (.icmp .ge)
  | .compareEqual => some (.icmp .eq)
  | .compareNotEqual => some (.icmp .ne)
  | _ => none

/-- `emit_binary_op`. -/
def binaryOp (opcode : Opcode) (lhs rhs : V) : Plan V :=
  let isFloat := isFloatType (values.typeOf lhs) || isFloatType (values.typeOf rhs)
  if opcode = .addition ∧ isFloat = false ∧ values.typeOf lhs = .pointer ∧ values.typeOf rhs = .pointer then
    library.stringConcat lhs rhs
  else
    match binaryInstruction opcode isFloat with
    | some instruction => .build (.binary instruction lhs rhs) fun value => .done (some value)
    | none => .done none

/-- `emit_unary_op`. -/
def unaryOp (opcode : Opcode) (operand : V) : Plan V :=
  match opcode with
  | .invert => .build (.binary (.icmp .ne) operand (values.constant (.integer 1) 0)) fun value => .done (some value)
  | .negate => .build (.binary .sub (values.constant (.integer 32) 0) operand) fun value => .done (some value)
  | .print => library.print operand
  | _ => .done none

/-- `Xvr_LLVMExpressionEmitterEmitUnary`. -/
def unaryPlan (opcode : Opcode) : Plan V := .need 0 fun operand => unaryOp values library opcode operand

/-! ## Assignments -/

/-- The instruction of a compound assignment; `none` for any other opcode. -/
def compoundInstruction : Opcode → Option Instruction
  | .varAdditionAssign => some .add
  | .varSubtractionAssign => some .sub
  | .varMultiplicationAssign => some .mul
  | .varDivisionAssign => some .sdiv
  | .varModuloAssign => some .srem
  | _ => none

def isAssignment (opcode : Opcode) : Bool := opcode = .varAssign || (compoundInstruction opcode).isSome

/-- An assignment to a variable: the right side is emitted first, and a compound assignment
    loads an `i32`, the element type of the pointer being unavailable. -/
def assignPlan (opcode : Opcode) (name : List Char) : Plan V :=
  .needVariable name fun pointer _ =>
    .need 1 fun rhs =>
      match compoundInstruction opcode with
      | none => .build (.store rhs pointer) fun _ => .done (some rhs)
      | some instruction =>
        .build (.load (.integer 32) pointer) fun current =>
          .build (.binary instruction current rhs) fun value =>
            .build (.store value pointer) fun _ => .done (some value)

/-- The nodes whose operands are not the two sides. -/
def isLibraryBinary (opcode : Opcode) (left : Node) : Bool :=
  match opcode with
  | .printf | .fnCall | .dot => true
  | opcode =>
    match left with
    | .index _ _ _ => isAssignment opcode
    | _ => false

/-- `Xvr_LLVMExpressionEmitterEmitBinary`. -/
def binaryPlan (opcode : Opcode) (left right : Node) : Plan V :=
  if isLibraryBinary opcode left then library.node (.binary opcode left right)
  else if isAssignment opcode then
    match left with
    | .literal (.identifier name) => assignPlan opcode name
    | _ => .done none
  else
    .need 0 fun lhs => .need 1 fun rhs => binaryOp values library opcode lhs rhs

/-- The four increment and decrement cases. The one is an `i32`. -/
def incrementPlan (instruction : Instruction) (isPrefix : Bool) (identifier : Literal) : Plan V :=
  match identifier with
  | .identifier name =>
    .needVariable name fun pointer _ =>
      match values.allocatedType pointer with
      | none => .done none
      | some type =>
        .build (.load type pointer) fun oldValue =>
          .build (.binary instruction oldValue (values.constant (.integer 32) 1)) fun newValue =>
            .build (.store newValue pointer) fun _ => .done (some (if isPrefix then newValue else oldValue))
  | _ => .done none

/-! ## Variable declarations -/

/-- The declared type, an integer when there is none. -/
def declaredType : Literal → LiteralType
  | .type typeOf _ _ => typeOf
  | _ => .integer

/-- The elements of an array literal. -/
def arrayLiteralCount : Node → Option Nat
  | .compound literalType nodes => if literalType = .array ∨ literalType = .any then some nodes.length else none
  | _ => none

/-- Each element is emitted again and inserted; a NULL element is left out. -/
def insertElements (array : V) : Nat → Nat → Plan V → Plan V
  | _, 0, next => next
  | i, n + 1, next =>
    .operand (1 + i) fun
      | none => insertElements array (i + 1) n next
      | some element =>
        .build (.call "xvr_array_insert_int".toList [array, element] .void) fun _ =>
          insertElements array (i + 1) n next

/-- The storage of a variable, its initial value and its entry in the table. -/
def declareVariable (name : List Char) (varType : LiteralType) (arrayCount : Nat) (init : Option V) : Plan V :=
  let allocType :=
    if varType = .array then .pointer
    else
      match init with
      | some value => values.typeOf value
      | none => .integer 32
  .build (.alloca allocType) fun alloca =>
    match init with
    | some value =>
      .build (.store value alloca) fun _ => .declare name alloca varType arrayCount (.done none)
    | none => .declare name alloca varType arrayCount (.done none)

/-- The variable declaration case of `Xvr_LLVMExpressionEmitterEmit`. -/
def varDeclPlan (identifier typeLiteral : Literal) (expression : Node) : Plan V :=
  match identifier with
  | .identifier name =>
    .operand 0 fun init =>
      let count := if init.isSome then arrayLiteralCount expression else none
      let varType := if count.isSome then .array else declaredType typeLiteral
      if varType = .array then
        .build (.call "xvr_array_create_int".toList [] .pointer) fun array =>
          insertElements array 0 (count.getD 0) (declareVariable values name varType (count.getD 0) (some array))
      else declareVariable values name varType 0 init
  | _ => .done none

/-! ## The plan of a node -/

/-- The cases of `Xvr_LLVMExpressionEmitterEmit` that stay in one block. -/
def nodePlan (node : Node) : Plan V :=
  match node with
  | .literal literal => literalPlan values literal
  | .unary opcode _ => unaryPlan values library opcode
  | .binary opcode left right => binaryPlan values library opcode left right
  | .grouping _ => .operand 0 .done
  | .cast targetType _ => .need 0 fun value => library.cast targetType value
  | .varDecl identifier typeLiteral expression _ => varDeclPlan values identifier typeLiteral expression
  | .prefixIncrement identifier => incrementPlan values .add true identifier
  | .postfixIncrement identifier => incrementPlan values .add false identifier
  | .prefixDecrement identifier => incrementPlan values .sub true identifier
  | .postfixDecrement identifier => incrementPlan values .sub false identifier
  | .index _ _ _ | .compound _ _ | .fnCall _ _ => library.node node
  | _ => .done none

end

end Xvr.Backend
