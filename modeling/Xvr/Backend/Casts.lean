/-
  Xvr.Backend.Casts — cast expressions: the cast case of the expression emitter and the
  cast emitter (`xvr_cast_emit.cpp`).

  The expression emitter makes up the source type from the width of the operand's LLVM
  type, so every operand counts as signed.

  Proved:
  - `cast_respects_iff`: the cast yields the value modulo the target's width exactly for a
    signed source, a target that is not wider, or a value with a clear top bit.
  - `widening_changes_uint8`: `int32(x)` of the `uint8` 200 yields -56.
-/

import Xvr.Backend.UnaryOps

namespace Xvr.Backend

open Xvr.Runtime Xvr.Lib

/-! ## LLVM's casts -/

inductive CastInstruction where
  | zext | sext | trunc | uiToFP | siToFP | fpToUI | fpToSI | fpCast | intToPtr | ptrToInt | bitCast
  deriving DecidableEq, Repr

/-- What a cast between integers yields, as far as LLVM promises it. -/
def CastInstruction.execute {w : Nat} (instruction : CastInstruction) (a : BitVec w) (v : Nat) : Option Word :=
  match instruction with
  | .zext => if w < v then some ⟨v, a.setWidth v⟩ else none
  | .sext => if w < v then some ⟨v, a.signExtend v⟩ else none
  | .trunc => if v < w then some ⟨v, a.setWidth v⟩ else none
  | _ => none

structure CastLlvm extends TypedLlvm where
  buildCast : CastInstruction → Value → LlvmType → Value
  buildFCmpONE : Value → Value → Value
  /-- A cast yields what it computes from what its operand yields. -/
  run_buildCast : ∀ instruction value w (a : BitVec w) v word, run value = some ⟨w, a⟩ →
    instruction.execute a v = some word → run (buildCast instruction value (.integer v)) = some word

variable (llvm : CastLlvm)

/-! ## The cast emitter -/

/-- `Xvr_LLVMCastType`. -/
inductive CastType where
  | intToInt | intToFloat | floatToInt | floatToFloat | intToPtr | ptrToInt | ptrToPtr
  | boolToInt | intToBool | boolToFloat | floatToBool | invalid
  deriving DecidableEq, Repr

/-- `Xvr_CastEmitterClassify`. -/
def classify (source target : XvrType) : CastType :=
  if source.isBool && target.isInteger then .boolToInt
  else if source.isBool && target.isFloat then .boolToFloat
  else if source.isInteger && target.isBool then .intToBool
  else if source.isFloat && target.isBool then .floatToBool
  else if source.isInteger && target.isInteger then .intToInt
  else if source.isInteger && target.isFloat then .intToFloat
  else if source.isFloat && target.isInteger then .floatToInt
  else if source.isFloat && target.isFloat then .floatToFloat
  else if source.isInteger && target.isPointer then .intToPtr
  else if source.isPointer && target.isInteger then .ptrToInt
  else if source.isPointer && target.isPointer then .ptrToPtr
  else .invalid

/-- The float type of a size. -/
def floatType (sizeBits : Nat) : LlvmType := if sizeBits = 64 then .double else .float

def emitIntToInt (value : llvm.Value) (source target : XvrType) : llvm.Value :=
  if source.getSizeBits = target.getSizeBits then value
  else if target.getSizeBits > source.getSizeBits then
    if source.getSignedness = some .unsigned then llvm.buildCast .zext value (.integer target.getSizeBits)
    else llvm.buildCast .sext value (.integer target.getSizeBits)
  else llvm.buildCast .trunc value (.integer target.getSizeBits)

def emitIntToFloat (value : llvm.Value) (source target : XvrType) : llvm.Value :=
  let instruction := if source.getSignedness = some .unsigned then .uiToFP else .siToFP
  llvm.buildCast instruction value (floatType target.getSizeBits)

def emitFloatToInt (value : llvm.Value) (target : XvrType) : llvm.Value :=
  let instruction := if target.getSignedness = some .unsigned then .fpToUI else .fpToSI
  llvm.buildCast instruction value (.integer target.getSizeBits)

def emitFloatToFloat (value : llvm.Value) (source target : XvrType) : llvm.Value :=
  if source.getSizeBits = target.getSizeBits then value
  else llvm.buildCast .fpCast value (floatType target.getSizeBits)

def emitIntToPtr (value : llvm.Value) : llvm.Value := llvm.buildCast .intToPtr value .pointer

def emitPtrToInt (value : llvm.Value) (target : XvrType) : llvm.Value :=
  llvm.buildCast .ptrToInt value (.integer target.getSizeBits)

def emitPtrToPtr (value : llvm.Value) : llvm.Value := llvm.buildCast .bitCast value .pointer

def emitBoolCast (value : llvm.Value) (source target : XvrType) : Option llvm.Value :=
  if source.isBool && target.isBool then some value
  else if source.isBool && target.isInteger then some (llvm.buildCast .zext value (.integer target.getSizeBits))
  else if source.isBool && target.isFloat then some (llvm.buildCast .uiToFP value (floatType target.getSizeBits))
  else if source.isInteger && target.isBool then
    some (llvm.build (.icmp .ne) value (llvm.constNull (llvm.typeOf value)))
  else if source.isFloat && target.isBool then some (llvm.buildFCmpONE value (llvm.constNull (llvm.typeOf value)))
  else none

/-- `Xvr_EmitCast`: `none` is `NULL`. -/
def emitCast (value : llvm.Value) (source target : XvrType) : Option llvm.Value :=
  match classify source target with
  | .invalid => none
  | .boolToInt | .boolToFloat | .intToBool | .floatToBool => emitBoolCast llvm value source target
  | .intToInt => some (emitIntToInt llvm value source target)
  | .intToFloat => some (emitIntToFloat llvm value source target)
  | .floatToInt => some (emitFloatToInt llvm value target)
  | .floatToFloat => some (emitFloatToFloat llvm value source target)
  | .intToPtr => some (emitIntToPtr llvm value)
  | .ptrToInt => some (emitPtrToInt llvm value target)
  | .ptrToPtr => some (emitPtrToPtr llvm value)

/-! ## The cast case of the expression emitter -/

/-- The source type, made up from the operand's LLVM type. -/
def sourceLiteralType : LlvmType → LiteralType
  | .integer bits =>
    if bits = 1 then .boolean
    else if bits = 8 then .int8
    else if bits = 16 then .int16
    else if bits = 32 then .int32
    else if bits = 64 then .int64
    else .integer
  | .float => .float32
  | .double => .float64
  | .pointer => .string
  | _ => .integer

def targetLiteralType : Literal → LiteralType
  | .type typeOf _ _ => typeOf
  | literal => literal.kind

/-- The cast case of `Xvr_LLVMExpressionEmitterEmit`, `operand` being what it emitted for
    the expression. -/
def emitCastNode (targetType : Literal) (operand : Option llvm.Value) : Option llvm.Value :=
  match operand with
  | none => none
  | some value =>
    let source := XvrType.getFromLiteral (sourceLiteralType (llvm.typeOf value))
    let target := XvrType.getFromLiteral (targetLiteralType targetType)
    if source = .null ∨ target = .null then none else emitCast llvm value source target

/-! ## Integer casts -/

variable {llvm}

/-- An integer type of the language. -/
def IntegerType (kind : LiteralType) (w : Nat) (s : Sign) : Prop := XvrType.getFromLiteral kind = .integer w (some s)

/-- The made-up source type has the operand's width and is signed. -/
theorem getFromLiteral_source {kind : LiteralType} {w : Nat} {s : Sign} (h : IntegerType kind w s) :
    XvrType.getFromLiteral (sourceLiteralType (.integer w)) = .integer w (some .signed) := by
  cases kind <;> cases h <;> rfl

/-- What the emitted cast yields: a wider result is sign-extended. -/
theorem run_castNode {kind : LiteralType} {targetType : Literal} {w v : Nat} {s t : Sign} (hsource : IntegerType kind w s)
    (htarget : IntegerType (targetLiteralType targetType) v t) {value : llvm.Value} {a : BitVec w}
    (hrun : llvm.run value = some ⟨w, a⟩) :
    ∃ result, emitCastNode llvm targetType (some value) = some result ∧
      llvm.run result = some ⟨v, if w < v then a.signExtend v else a.setWidth v⟩ := by
  refine ⟨emitIntToInt llvm value (.integer w (some .signed)) (.integer v (some t)), ?_, ?_⟩
  · simp only [emitCastNode, llvm.typeOf_run _ _ _ hrun, getFromLiteral_source hsource]
    rw [show XvrType.getFromLiteral (targetLiteralType targetType) = .integer v (some t) from htarget, if_neg (by simp)]
    rfl
  · unfold emitIntToInt XvrType.getSizeBits XvrType.getSignedness
    by_cases heq : w = v
    · subst heq
      simp [hrun]
    · by_cases hlt : w < v
      · simp only [heq, hlt, if_false, if_true, Option.some.injEq, reduceCtorEq]
        exact llvm.run_buildCast .sext _ _ _ _ _ hrun (if_pos hlt)
      · simp only [heq, hlt, if_false]
        exact llvm.run_buildCast .trunc _ _ _ _ _ hrun (if_pos (by omega))

/-- The cast of `a`, read with the source's sign, yields it modulo the target's width, read
    with the target's sign. -/
def CastRespects (llvm : CastLlvm) (source : Sign) (targetType : Literal) (target : Sign) (v : Nat) (value : llvm.Value)
    {w : Nat} (a : BitVec w) : Prop :=
  ∃ result b, emitCastNode llvm targetType (some value) = some result ∧ llvm.run result = some ⟨v, b⟩ ∧
    target.read b = target.reduce v (source.read a)

/-- Casting respects the source's type exactly where the source's sign does not show. -/
theorem cast_respects_iff (llvm : CastLlvm) {kind : LiteralType} {targetType : Literal} {w v : Nat} {s t : Sign}
    (hsource : IntegerType kind w s) (htarget : IntegerType (targetLiteralType targetType) v t) {value : llvm.Value}
    {a : BitVec w} (hrun : llvm.run value = some ⟨w, a⟩) :
    CastRespects llvm s targetType t v value a ↔ s = .signed ∨ v ≤ w ∨ a.msb = false := by
  obtain ⟨result, hresult, hword⟩ := run_castNode hsource htarget hrun
  have hrespects : CastRespects llvm s targetType t v value a ↔
      (if w < v then a.signExtend v else a.setWidth v) = BitVec.ofInt v (s.read a) := by
    rw [← Sign.read_eq_reduce_iff t]
    constructor
    · intro ⟨result', b, hresult', hb, hread⟩
      rw [hresult] at hresult'
      cases hresult'
      rw [hword, Option.some_inj, Word.mk_inj] at hb
      rw [hb]
      exact hread
    · intro hread
      exact ⟨result, _, hresult, hword, hread⟩
  rw [hrespects]
  by_cases hlt : w < v
  · have hnot : ¬ v ≤ w := by omega
    cases s with
    | signed => simp [hlt, Sign.ofInt_read_signed]
    | unsigned => simp [hlt, hnot, Sign.ofInt_read_unsigned, signExtend_eq_setWidth_iff hlt]
  · have hle : v ≤ w := by omega
    cases s with
    | signed => simp [hlt, Sign.ofInt_read_signed, BitVec.signExtend_eq_setWidth_of_le _ hle]
    | unsigned => simp [hlt, hle, Sign.ofInt_read_unsigned]

/-! ## A cast of a constant -/

/-- LLVM folds a cast of a constant. -/
def castFolder : CastLlvm where
  toTypedLlvm := typedFolder
  buildCast instruction value
    | .integer v => .integer (value.run.bind fun word => instruction.execute word.bits v)
    | .float => .float 0
    | .double => .double 0
    | _ => .pointer
  buildFCmpONE _ _ := .integer none
  run_buildCast instruction value w a v word hrun hexec := by
    show (value.run.bind fun word => instruction.execute word.bits v) = some word
    rw [show value.run = some ⟨w, a⟩ from hrun]
    exact hexec

/-- `int32(x)` of the `uint8` 200 yields -56. -/
theorem widening_changes_uint8 :
    ¬ CastRespects castFolder .unsigned (.type .int32 false []) .signed 32 (.integer (some ⟨8, 200⟩)) (200 : BitVec 8) := by
  rintro ⟨result, b, hresult, hb, hread⟩
  cases hresult
  cases hb
  revert hread
  decide

/-- `uint16(x)` of the `uint8` 100 keeps the value. -/
theorem cast_respects_iff_uint8 :
    CastRespects castFolder .unsigned (.type .uint16 false []) .unsigned 16 (.integer (some ⟨8, 100⟩)) (100 : BitVec 8) ↔
      Sign.unsigned = .signed ∨ 16 ≤ 8 ∨ (100 : BitVec 8).msb = false :=
  cast_respects_iff castFolder (show IntegerType .uint8 8 .unsigned from rfl)
    (show IntegerType (targetLiteralType (.type .uint16 false [])) 16 .unsigned from rfl) rfl

end Xvr.Backend
