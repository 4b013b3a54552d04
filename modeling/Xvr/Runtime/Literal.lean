/-
  Xvr.Runtime.Literal — the dynamic value (`Xvr_Literal`, `Xvr_LiteralType`) and the
  layout of the dictionary it can hold (`Xvr_private_entry`, `Xvr_LiteralDictionary`).

  The C union is one constructor per kind, each with the payload that kind stores; a
  payload read at another width than it was stored with goes through `word`, the first
  eight bytes of the union. A string is its bytes, one character each; an identifier's
  hash is computed where it is built, so it is not stored. A pointer the runtime only
  carries (an opaque value, a native function) is a number.
-/

namespace Xvr.Runtime

/-- `Xvr_LiteralType`. -/
inductive LiteralType where
  | null | void | boolean | integer | float | string | array | dictionary | function | identifier | type
  | opaquePtr | any
  | int8 | int16 | int32 | int64 | uint8 | uint16 | uint32 | uint64
  | float16 | float32 | float64
  | typeIntermediate | arrayIntermediate | dictionaryIntermediate | functionIntermediate
  | functionArgRest | functionNative | functionHook | indexBlank
  deriving DecidableEq, Repr

/-- `Xvr_private_entry`: a null key with a null value is a slot never used, a null key
    with any other value a tombstone. -/
structure Entry (α : Type) where
  key : α
  value : α
  deriving DecidableEq, Repr

/-- `Xvr_LiteralDictionary`. `contains` counts insertions into unused slots, `count` the
    keys held. -/
structure LiteralDictionary (α : Type) where
  entries : List (Entry α)
  count : Int
  contains : Nat
  deriving DecidableEq, Repr

/-- The capacity is the length of the allocated array. -/
def LiteralDictionary.capacity {α : Type} (d : LiteralDictionary α) : Nat := d.entries.length

/-- `Xvr_Literal`. -/
inductive Literal where
  | null
  | boolean (value : Bool)
  | integer (value : BitVec 32)
  | float (bits : BitVec 32)
  | int8 (value : BitVec 8)
  | int16 (value : BitVec 16)
  | int32 (value : BitVec 32)
  | int64 (value : BitVec 64)
  | uint8 (value : BitVec 8)
  | uint16 (value : BitVec 16)
  | uint32 (value : BitVec 32)
  | uint64 (value : BitVec 64)
  | float16 (bits : BitVec 16)
  | float32 (bits : BitVec 32)
  | float64 (bits : BitVec 64)
  | string (text : List Char)
  | identifier (name : List Char)
  | array (elements : List Literal)
  | dictionary (held : LiteralDictionary Literal)
  | type (typeOf : LiteralType) (constant : Bool) (subtypes : List Literal)
  | opaquePtr (ptr : Nat) (tag : BitVec 32)
  | function (bytecode : List (BitVec 8))
  | functionIntermediate (compiler : Nat)
  | functionNative (native : Nat)
  | functionHook (hook : Nat)
  | indexBlank
  | arrayIntermediate (elements : List Literal)
  | dictionaryIntermediate (elements : List Literal)
  | typeIntermediate (elements : List Literal)
  deriving Repr

namespace Literal

/-- The `type` tag. -/
def kind : Literal → LiteralType
  | .null => .null
  | .boolean _ => .boolean
  | .integer _ => .integer
  | .float _ => .float
  | .int8 _ => .int8
  | .int16 _ => .int16
  | .int32 _ => .int32
  | .int64 _ => .int64
  | .uint8 _ => .uint8
  | .uint16 _ => .uint16
  | .uint32 _ => .uint32
  | .uint64 _ => .uint64
  | .float16 _ => .float16
  | .float32 _ => .float32
  | .float64 _ => .float64
  | .string _ => .string
  | .identifier _ => .identifier
  | .array _ => .array
  | .dictionary _ => .dictionary
  | .type _ _ _ => .type
  | .opaquePtr _ _ => .opaquePtr
  | .function _ => .function
  | .functionIntermediate _ => .functionIntermediate
  | .functionNative _ => .functionNative
  | .functionHook _ => .functionHook
  | .indexBlank => .indexBlank
  | .arrayIntermediate _ => .arrayIntermediate
  | .dictionaryIntermediate _ => .dictionaryIntermediate
  | .typeIntermediate _ => .typeIntermediate

def isNull (l : Literal) : Bool := l.kind == .null
def isBoolean (l : Literal) : Bool := l.kind == .boolean
def isString (l : Literal) : Bool := l.kind == .string
def isFunction (l : Literal) : Bool := l.kind == .function
def isFunctionNative (l : Literal) : Bool := l.kind == .functionNative
def isFunctionHook (l : Literal) : Bool := l.kind == .functionHook
def isOpaque (l : Literal) : Bool := l.kind == .opaquePtr

/-- `XVR_IS_INTEGER`: the plain kind and all eight fixed widths. -/
def isInteger (l : Literal) : Bool :=
  match l.kind with
  | .integer | .int8 | .int16 | .int32 | .int64 | .uint8 | .uint16 | .uint32 | .uint64 => true
  | _ => false

/-- `XVR_IS_FLOAT`. -/
def isFloat (l : Literal) : Bool :=
  match l.kind with
  | .float | .float16 | .float32 | .float64 => true
  | _ => false

/-- The first eight bytes of the union. Every constructor macro zeroes the union before
    it stores, so a narrow payload is zero-extended. Pointers are never read as numbers. -/
def word : Literal → BitVec 64
  | .boolean b => if b then 1 else 0
  | .integer v => v.zeroExtend 64
  | .float v => v.zeroExtend 64
  | .int8 v => v.zeroExtend 64
  | .int16 v => v.zeroExtend 64
  | .int32 v => v.zeroExtend 64
  | .int64 v => v
  | .uint8 v => v.zeroExtend 64
  | .uint16 v => v.zeroExtend 64
  | .uint32 v => v.zeroExtend 64
  | .uint64 v => v
  | .float16 v => v.zeroExtend 64
  | .float32 v => v.zeroExtend 64
  | .float64 v => v
  | _ => 0

/-- `XVR_AS_INTEGER`: the `int` member, whatever was stored. -/
def asInteger (l : Literal) : BitVec 32 := l.word.truncate 32

/-- `XVR_AS_FLOAT`: the `float` member, whatever was stored. -/
def asFloat (l : Literal) : Float32 := Float32.ofBits ⟨l.word.truncate 32⟩

theorem isNull_iff {l : Literal} : l.isNull = true ↔ l = .null := by
  cases l <;> simp [isNull, kind]

@[simp] theorem isNull_null : (Literal.null).isNull = true := rfl

end Literal

abbrev Dictionary := LiteralDictionary Literal

end Xvr.Runtime
