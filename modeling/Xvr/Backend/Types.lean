/-
  Xvr.Backend.Types — the types of the language (`core/types/xvr_type.cpp`) and the LLVM
  types they are mapped to (`xvr_llvm_type_mapper.cpp`).
-/

import Xvr.Backend.Expressions

namespace Xvr.Backend

open Xvr.Runtime Xvr.Lib

/-! ## The language's types -/

/-- A `Xvr_Type *`: NULL, or a type by its kind. No sign is an unknown one. -/
inductive XvrType where
  | null | void | bool | string
  | pointer (pointee : XvrType)
  | integer (sizeBits : Nat) (signedness : Option Sign)
  | float (sizeBits : Nat)
  deriving DecidableEq, Repr

namespace XvrType

/-- `Xvr_TypeGetFromLiteral`. -/
def getFromLiteral : LiteralType → XvrType
  | .boolean => .bool
  | .integer => .integer 32 (some .signed)
  | .int8 => .integer 8 (some .signed)
  | .int16 => .integer 16 (some .signed)
  | .int32 => .integer 32 (some .signed)
  | .int64 => .integer 64 (some .signed)
  | .uint8 => .integer 8 (some .unsigned)
  | .uint16 => .integer 16 (some .unsigned)
  | .uint32 => .integer 32 (some .unsigned)
  | .uint64 => .integer 64 (some .unsigned)
  | .float => .float 32
  | .float16 => .float 16
  | .float32 => .float 32
  | .float64 => .float 64
  | .string => .string
  | _ => .null

/-- `Xvr_TypeGetSizeBits`. -/
def getSizeBits : XvrType → Nat
  | .integer sizeBits _ => sizeBits
  | .float sizeBits => sizeBits
  | .bool => 8
  | .pointer _ => 64
  | _ => 0

/-- `Xvr_TypeGetSignedness`; `none` is unknown. -/
def getSignedness : XvrType → Option Sign
  | .integer _ signedness => signedness
  | _ => none

def isBool : XvrType → Bool
  | .bool => true
  | _ => false

def isInteger : XvrType → Bool
  | .integer _ _ => true
  | _ => false

def isFloat : XvrType → Bool
  | .float _ => true
  | _ => false

def isPointer : XvrType → Bool
  | .pointer _ => true
  | _ => false

end XvrType

/-! ## LLVM's types -/

inductive LlvmType where
  | void | float | double | pointer
  | integer (width : Nat)
  | array (element : LlvmType) (count : Nat)
  deriving DecidableEq, Repr

/-- LLVM with the types of its values. -/
structure TypedLlvm extends Llvm where
  typeOf : Value → LlvmType
  constNull : LlvmType → Value
  /-- A value yields words of its type. -/
  typeOf_run : ∀ value w (a : BitVec w), run value = some ⟨w, a⟩ → typeOf value = .integer w
  run_constNull : ∀ w, run (constNull (.integer w)) = some ⟨w, 0⟩

/-- `Xvr_LLVMTypeMapperGetType`. -/
def typeMapperGetType : LiteralType → LlvmType
  | .void => .void
  | .boolean => .integer 1
  | .integer | .int32 | .uint32 => .integer 32
  | .int8 | .uint8 => .integer 8
  | .int16 | .uint16 | .float16 => .integer 16
  | .int64 | .uint64 => .integer 64
  | .float | .float32 => .float
  | .float64 => .double
  | _ => .pointer

/-- An integer type has the width its values are stored in. -/
theorem typeMapperGetType_integer {kind : LiteralType} {w : Nat} {s : Option Sign}
    (h : XvrType.getFromLiteral kind = .integer w s) : typeMapperGetType kind = .integer w := by
  cases kind <;> cases h <;> rfl

end Xvr.Backend
