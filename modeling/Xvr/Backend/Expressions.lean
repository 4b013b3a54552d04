/-
  Xvr.Backend.Expressions — constants and binary operators of the expression emitter
  (`emit_literal_value`, `emit_binary_op` of `xvr_llvm_expression_emitter.cpp`).

  `Llvm` is the part of LLVM they call: what it builds is its own, what a value yields
  when the program runs is what LLVM documents. The emitter's variables and its string
  concatenation are parameters too.
-/

import Xvr.Lib.Words
import Xvr.Frontend.AstNode

namespace Xvr.Backend

open Xvr.Runtime Xvr.Lib
open Xvr.Frontend (Opcode)

/-! ## LLVM -/

inductive TypeKind where
  | integer | float | double | pointer | other
  deriving DecidableEq, Repr

/-- The instructions with two operands. -/
inductive Instruction where
  | add | sub | mul | sdiv | srem | and | or
  | fadd | fsub | fmul | fdiv | frem
  | icmp (predicate : Comparison)
  deriving DecidableEq, Repr

/-- What an instruction yields on two integers of one width. Nothing is promised for a
    zero divisor, for a quotient that does not fit, and for a float instruction. -/
def Instruction.execute {w : Nat} (instruction : Instruction) (a b : BitVec w) : Option Word :=
  match instruction with
  | .add => some ⟨w, a + b⟩
  | .sub => some ⟨w, a - b⟩
  | .mul => some ⟨w, a * b⟩
  | .sdiv => if b = 0 ∨ a = BitVec.intMin w ∧ b = -1 then none else some ⟨w, a.sdiv b⟩
  | .srem => if b = 0 ∨ a = BitVec.intMin w ∧ b = -1 then none else some ⟨w, a.srem b⟩
  | .and => some ⟨w, a &&& b⟩
  | .or => some ⟨w, a ||| b⟩
  | .icmp predicate => some ⟨1, BitVec.ofBool (predicate.signed a b)⟩
  | .fadd | .fsub | .fmul | .fdiv | .frem => none

/-- The values LLVM builds. `run` is what a value yields when it is an integer. -/
structure Llvm where
  Value : Type
  constInt : Nat → BitVec 64 → Bool → Value
  constFloat : BitVec 32 → Value
  constDouble : BitVec 64 → Value
  constNullPointer : Value
  constNullByte : Value
  buildGlobalStringPtr : List Char → Value
  build : Instruction → Value → Value → Value
  typeKind : Value → TypeKind
  run : Value → Option Word
  /-- A constant is its number's low bits. -/
  run_constInt : ∀ width n signExtend, width ≤ 64 → run (constInt width n signExtend) = some ⟨width, n.truncate width⟩
  typeKind_constInt : ∀ width n signExtend, typeKind (constInt width n signExtend) = .integer
  /-- An instruction yields what it computes from what its operands yield. -/
  run_build : ∀ instruction lhs rhs w (a b : BitVec w), run lhs = some ⟨w, a⟩ → run rhs = some ⟨w, b⟩ →
    run (build instruction lhs rhs) = instruction.execute a b

/-! ## The emitter -/

/-- The emitter's own parts that integers do not reach. -/
structure Emitter where
  llvm : Llvm
  emitIdentifier : List Char → llvm.Value
  emitStringConcat : llvm.Value → llvm.Value → llvm.Value

variable (e : Emitter)

/-- `emit_literal_value`. -/
def emitLiteralValue (literal : Literal) : e.llvm.Value :=
  match literal with
  | .null => e.llvm.constNullPointer
  | .boolean b => e.llvm.constInt 1 (if b then 1 else 0) false
  | .integer v => e.llvm.constInt 32 (v.signExtend 64) true
  | .int8 v => e.llvm.constInt 8 (v.signExtend 64) true
  | .int16 v => e.llvm.constInt 16 (v.signExtend 64) true
  | .int32 v => e.llvm.constInt 32 (v.signExtend 64) true
  | .int64 v => e.llvm.constInt 64 v true
  | .uint8 v => e.llvm.constInt 8 (v.zeroExtend 64) false
  | .uint16 v => e.llvm.constInt 16 (v.zeroExtend 64) false
  | .uint32 v => e.llvm.constInt 32 (v.zeroExtend 64) false
  | .uint64 v => e.llvm.constInt 64 v false
  | .float bits => e.llvm.constFloat bits
  | .float16 bits => e.llvm.constInt 16 (bits.zeroExtend 64) false
  | .float32 bits => e.llvm.constFloat bits
  | .float64 bits => e.llvm.constDouble bits
  | .string text => e.llvm.buildGlobalStringPtr text
  | .identifier name => e.emitIdentifier name
  | _ => e.llvm.constNullByte

def isFloatKind (value : e.llvm.Value) : Bool := e.llvm.typeKind value == .float || e.llvm.typeKind value == .double

/-- `is_pointer_type`. -/
def isPointerType (value : e.llvm.Value) : Bool := e.llvm.typeKind value == .pointer

/-- `emit_binary_op`: `none` is `NULL`. The comparisons and the logical operators do not
    ask for floats. -/
def emitBinaryOp (opcode : Opcode) (lhs rhs : e.llvm.Value) : Option e.llvm.Value :=
  let isFloat := isFloatKind e lhs || isFloatKind e rhs
  match opcode with
  -- arithmetic operations
  | .addition =>
    if isFloat then some (e.llvm.build .fadd lhs rhs)
    else if isPointerType e lhs && isPointerType e rhs then some (e.emitStringConcat lhs rhs)
    else some (e.llvm.build .add lhs rhs)
  | .subtraction => some (e.llvm.build (if isFloat then .fsub else .sub) lhs rhs)
  | .multiplication => some (e.llvm.build (if isFloat then .fmul else .mul) lhs rhs)
  | .division => some (e.llvm.build (if isFloat then .fdiv else .sdiv) lhs rhs)
  | .modulo => some (e.llvm.build (if isFloat then .frem else .srem) lhs rhs)
  -- logical operations
  | .and => some (e.llvm.build .and lhs rhs)
  | .or => some (e.llvm.build .or lhs rhs)
  -- comparison operations (signed)
  | .compareLess => some (e.llvm.build (.icmp .lt) lhs rhs)
  | .compareLessEqual => some (e.llvm.build (.icmp .le) lhs rhs)
  | .compareGreater => some (e.llvm.build (.icmp .gt) lhs rhs)
  | .compareGreaterEqual => some (e.llvm.build (.icmp .ge) lhs rhs)
  | .compareEqual => some (e.llvm.build (.icmp .eq) lhs rhs)
  | .compareNotEqual => some (e.llvm.build (.icmp .ne) lhs rhs)
  | _ => none

end Xvr.Backend
