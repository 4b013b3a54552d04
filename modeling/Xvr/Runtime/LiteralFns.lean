/-
  Xvr.Runtime.LiteralFns — `Xvr_literalsAreEqual`, `Xvr_hashLiteral` and `Xvr_copyLiteral`.

  The three call each other and the dictionary, on strictly smaller literals. Each is
  written once over the functions it calls (`LiteralFns`); `literalFns n` is right on
  literals nested less than `n` deep, and the source's functions take `n` from their
  arguments.

  Not modelled: a function literal's scope (copying the function copies the scope
  handle), and the diagnostics printed for kinds that cannot be compared or hashed.
-/

import Xvr.Runtime.Dictionary

namespace Xvr.Runtime

/-! ## Strings and hashes -/

/-- `strncmp(lhs, rhs, length) == 0` on two texts of one length: nothing after a NUL counts. -/
def strncmpEqual : List Char → List Char → Bool
  | a :: as, b :: bs => a == b && (a == '\x00' || strncmpEqual as bs)
  | _, _ => true

/-- `Xvr_equalsRefString`. -/
def equalsRefString (lhs rhs : List Char) : Bool := lhs.length == rhs.length && strncmpEqual lhs rhs

/-- A `char` as an operand of 32-bit arithmetic. -/
def charToInt (c : Char) : BitVec 32 := (BitVec.ofNat 8 c.toNat).signExtend 32

def hashString (string : List Char) : BitVec 32 :=
  string.foldl (fun hash c => (hash * charToInt c) ^^^ 16777619) 2166136261

def hashUInt (x : BitVec 32) : BitVec 32 :=
  let x := ((x >>> 16) ^^^ x) * 0x45d9f3b
  let x := ((x >>> 16) ^^^ x) * 0x45d9f3b
  (x >>> 16) ^^^ x

/-- The two halves of a 64-bit payload, folded. -/
def foldWord (v : BitVec 64) : BitVec 32 := (v ^^^ (v >>> 32)).truncate 32

/-! ## Equality -/

/-- The `float` an INTEGER or FLOAT operand of a mixed comparison is read as. -/
def comparedAs (l : Literal) : Float32 :=
  if l.isInteger then (Int32.ofBitVec l.asInteger).toFloat32 else l.asFloat

section Bodies

variable (F : LiteralFns)

def elementsAreEqual (lhs rhs : List Literal) : Bool :=
  lhs.length == rhs.length && (lhs.zip rhs).all fun p => F.equal p.1 p.2

/-- Every key of `lhs` is in `rhs` with an equal value; `rhs` may hold more. -/
def dictionariesAreEqual (lhs rhs : Dictionary) : Bool :=
  lhs.entries.all fun e => e.key.isNull ||
    (existsLiteralDictionary F rhs e.key).getD false && F.equal e.value (getLiteralDictionary F rhs e.key)

def equalOfKind : Literal → Literal → Bool
  | .null, .null => true
  | .boolean a, .boolean b => a == b
  | .integer a, .integer b => a == b
  | .int8 a, .int8 b => a == b
  | .int16 a, .int16 b => a == b
  | .int32 a, .int32 b => a == b
  | .int64 a, .int64 b => a == b
  | .uint8 a, .uint8 b => a == b
  | .uint16 a, .uint16 b => a == b
  | .uint32 a, .uint32 b => a == b
  | .uint64 a, .uint64 b => a == b
  | .float a, .float b => Float32.ofBits ⟨a⟩ == Float32.ofBits ⟨b⟩
  | .float16 a, .float16 b => a == b
  | .float32 a, .float32 b => Float32.ofBits ⟨a⟩ == Float32.ofBits ⟨b⟩
  | .float64 a, .float64 b => Float.ofBits ⟨a⟩ == Float.ofBits ⟨b⟩
  | .string a, .string b => equalsRefString a b
  | .array a, .array b => elementsAreEqual F a b
  | .arrayIntermediate a, .arrayIntermediate b => elementsAreEqual F a b
  | .dictionaryIntermediate a, .dictionaryIntermediate b => elementsAreEqual F a b
  | .typeIntermediate a, .typeIntermediate b => elementsAreEqual F a b
  | .dictionary a, .dictionary b => dictionariesAreEqual F a b
  | .identifier a, .identifier b => hashString a == hashString b && equalsRefString a b
  | .type t c as, .type u d bs =>
    t == u && c == d && as.length == bs.length &&
      (if t = .array ∨ t = .dictionary then elementsAreEqual F as bs else true)
  -- functions, opaque values, blank indices and intermediate functions are never equal
  | _, _ => false

def equalBody (lhs rhs : Literal) : Bool :=
  if lhs.kind ≠ rhs.kind then
    (lhs.isInteger || lhs.isFloat) && (rhs.isInteger || rhs.isFloat) && comparedAs lhs == comparedAs rhs
  else equalOfKind F lhs rhs

/-! ## Hash and copy -/

def hashBody : Literal → BitVec 32
  | .null => 0
  | .boolean b => if b then 1 else 0
  | .integer v | .int32 v | .uint32 v | .float v | .float32 v => hashUInt v
  | .int8 v => hashUInt (v.signExtend 32)
  | .int16 v => hashUInt (v.signExtend 32)
  | .uint8 v => hashUInt (v.zeroExtend 32)
  | .uint16 v | .float16 v => hashUInt (v.zeroExtend 32)
  | .int64 v | .uint64 v | .float64 v => hashUInt (foldWord v)
  | .string s => hashString s
  | .array es => hashUInt (es.foldl (fun res e => res + F.hash e) 0)
  | .dictionary d =>
    hashUInt ((d.entries.filter Entry.live).foldl (fun res e => res + F.hash e.key + F.hash e.value) 0)
  | .identifier s => hashString s
  | .type t _ _ => BitVec.ofNat 32 t.ctorIdx
  | .opaquePtr _ _ => -1
  | _ => 0

/-- The dictionary a copied dictionary literal holds: every live entry set again. -/
def copyDictionary (d : Dictionary) : Dictionary :=
  (d.entries.filter Entry.live).foldl
    (fun copy e => (setLiteralDictionary F copy e.key e.value).getD copy) initLiteralDictionary

def copyBody : Literal → Literal
  | .array es => .array (es.map F.copy)
  | .dictionary d => .dictionary (copyDictionary F d)
  | .type t c subtypes => .type t c (subtypes.map F.copy)
  -- an intermediate is copied element by element, and the push copies once more
  | .arrayIntermediate es => .arrayIntermediate (es.map fun e => F.copy (F.copy e))
  | .dictionaryIntermediate es => .dictionaryIntermediate (es.map fun e => F.copy (F.copy e))
  | .typeIntermediate es => .typeIntermediate (es.map fun e => F.copy (F.copy e))
  | original => original

end Bodies

/-! ## The functions themselves -/

mutual

/-- How deep a literal is nested. -/
def Literal.depth : Literal → Nat
  | .array es | .arrayIntermediate es | .dictionaryIntermediate es | .typeIntermediate es => depthList es + 1
  | .type _ _ subtypes => depthList subtypes + 1
  | .dictionary d => depthDictionary d + 1
  | _ => 0

def depthList : List Literal → Nat
  | [] => 0
  | l :: ls => max l.depth (depthList ls)

def depthDictionary : LiteralDictionary Literal → Nat
  | ⟨entries, _, _⟩ => depthEntries entries

def depthEntries : List (Entry Literal) → Nat
  | [] => 0
  | e :: es => max (depthEntry e) (depthEntries es)

def depthEntry : Entry Literal → Nat
  | ⟨key, value⟩ => max key.depth value.depth

end

/-- The functions on literals nested less than the given depth. -/
def literalFns : Nat → LiteralFns
  | 0 => ⟨fun _ _ => false, fun _ => 0, id⟩
  | n + 1 => ⟨equalBody (literalFns n), hashBody (literalFns n), copyBody (literalFns n)⟩

def literalsAreEqual (lhs rhs : Literal) : Bool := (literalFns (max lhs.depth rhs.depth + 1)).equal lhs rhs

def hashLiteral (l : Literal) : BitVec 32 := (literalFns (l.depth + 1)).hash l

def copyLiteral (l : Literal) : Literal := (literalFns (l.depth + 1)).copy l

/-- What the interpreter's dictionaries run on. -/
def realFns : LiteralFns := ⟨literalsAreEqual, hashLiteral, copyLiteral⟩

/-! ## What the dictionary relies on -/

theorem equalBody_rejected (F : LiteralFns) {key other : Literal} (h : rejectedKey key = true)
    (ho : other.isNull = false) : equalBody F key other = false := by
  cases key <;> simp [rejectedKey, Literal.isNull, Literal.isFunction, Literal.isFunctionNative,
    Literal.isFunctionHook, Literal.isOpaque, Literal.kind] at h <;>
  cases other <;> simp_all [equalBody, equalOfKind, Literal.isNull, Literal.kind, Literal.isInteger, Literal.isFloat]

theorem copyBody_kind (F : LiteralFns) (l : Literal) : (copyBody F l).kind = l.kind := by
  cases l <;> rfl

theorem literalsAreEqual_rejected {key other : Literal} (h : rejectedKey key = true) (ho : other.isNull = false) :
    literalsAreEqual key other = false := equalBody_rejected _ h ho

theorem copyLiteral_kind (l : Literal) : (copyLiteral l).kind = l.kind := copyBody_kind _ l

end Xvr.Runtime
