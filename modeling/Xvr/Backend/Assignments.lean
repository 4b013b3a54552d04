/-
  Xvr.Backend.Assignments — `x op= e`, `x++`, `++x`, `x--` and `--x` beside `x = x op e`.

  A compound assignment loads an `i32` whatever the variable's type, after the right side was
  executed, and builds the integer instruction; the increments load the type of the alloca and
  add an `i32` one. A plain assignment loads the declared type, before the right side.

  Proved, for a variable of any integer or floating type over storage of any type:
  - `assignments_agree_iff`: a compound assignment leaves what the plain one leaves exactly
    when the type is 32 bits of integer and what `e` does to `x` makes no difference; an
    increment exactly when the storage is an `i32` and the type an integer type, a floating
    sum that happens to be the integer one aside.
  - `byte_not_added`: `x += 1u8` has no meaning for a `uint8`.
-/

import Xvr.Backend.Execution
import Xvr.Frontend.Arithmetic

namespace Xvr.Backend

open Xvr.Runtime Xvr.Lib
open Xvr.Frontend (Opcode Node)
open Xvr.Frontend.Parse (ArithOp)

/-! ## The two forms -/

namespace Arith

/-- `op=`. -/
def assignOpcode : ArithOp → Opcode
  | .add => .varAdditionAssign
  | .sub => .varSubtractionAssign
  | .mul => .varMultiplicationAssign
  | .div => .varDivisionAssign
  | .mod => .varModuloAssign

/-- The integer instruction. -/
def instruction : ArithOp → Instruction
  | .add => .add
  | .sub => .sub
  | .mul => .mul
  | .div => .sdiv
  | .mod => .srem

def floatInstruction : ArithOp → Instruction
  | .add => .fadd
  | .sub => .fsub
  | .mul => .fmul
  | .div => .fdiv
  | .mod => .frem

end Arith

open Arith

theorem compoundInstruction_assignOpcode (op : ArithOp) :
    compoundInstruction (assignOpcode op) = some (instruction op) := by cases op <;> rfl

theorem binaryInstruction_opcode (op : ArithOp) (isFloat : Bool) :
    binaryInstruction op.opcode isFloat = some (if isFloat then floatInstruction op else instruction op) := by
  cases op <;> rfl

section

variable (target : Target) (library : Library Datum) (name : List Char)

/-- Executing `x`. -/
def execIdentifier : Exec := (identifierPlan target.values name).exec target []

/-- Executing `x op e`. -/
def execBinary (op : ArithOp) (right : Node) (e : Exec) : Exec :=
  (binaryPlan target.values library op.opcode (.literal (.identifier name)) right).exec target [execIdentifier target name, e]

/-- Executing `x = x op e`. -/
def execPlain (op : ArithOp) (right : Node) (e : Exec) : Exec :=
  (binaryPlan target.values library .varAssign (.literal (.identifier name))
    (.binary op.opcode (.literal (.identifier name)) right)).exec target
    [execIdentifier target name, execBinary target library name op right e]

/-- Executing `x op= e`. -/
def execCompound (op : ArithOp) (right : Node) (e : Exec) : Exec :=
  (binaryPlan target.values library (assignOpcode op) (.literal (.identifier name)) right).exec target
    [execIdentifier target name, e]

/-- The literal 1 of a type. -/
def one : LiteralType → Literal
  | .int8 => .int8 1
  | .int16 => .int16 1
  | .int32 => .int32 1
  | .int64 => .int64 1
  | .uint8 => .uint8 1
  | .uint16 => .uint16 1
  | .uint32 => .uint32 1
  | .uint64 => .uint64 1
  | .float => .float 0x3F800000#32
  | .float16 => .float16 0x3C00#16
  | .float32 => .float32 0x3F800000#32
  | .float64 => .float64 0x3FF0000000000000#64
  | _ => .integer 1

/-- Executing the 1 of a type. -/
def execOne (kind : LiteralType) : Exec := (literalPlan target.values (one kind)).exec target []

/-- Executing `x++`, `++x`, `x--` or `--x`. -/
def execIncrement (op : ArithOp) (isPrefix : Bool) : Exec :=
  (incrementPlan target.values (instruction op) isPrefix (.identifier name)).exec target []

end

/-! ## The arithmetic of integers -/

/-- What an operator yields on words of one width. -/
def onBits (op : ArithOp) {w : Nat} (a b : BitVec w) : Option (BitVec w) :=
  match op with
  | .add => some (a + b)
  | .sub => some (a - b)
  | .mul => some (a * b)
  | .div => if b = 0 ∨ a = BitVec.intMin w ∧ b = -1 then none else some (a.sdiv b)
  | .mod => if b = 0 ∨ a = BitVec.intMin w ∧ b = -1 then none else some (a.srem b)

theorem execute_instruction (op : ArithOp) {w : Nat} (a b : BitVec w) :
    (instruction op).execute a b = (onBits op a b).map (Word.mk w) := by
  cases op with
  | div => unfold instruction Instruction.execute onBits; dsimp only; split <;> rfl
  | mod => unfold instruction Instruction.execute onBits; dsimp only; split <;> rfl
  | _ => rfl

theorem executeTyped_integer (target : Target) (op : ArithOp) (w : Nat) (a b : BitVec 64) :
    executeTyped target (instruction op) (.integer w) a b =
      (onBits op (a.setWidth w) (b.setWidth w)).map fun r => .scalar (.integer w) (r.setWidth 64) := by
  rw [executeTyped, execute_instruction, Option.map_map]
  rfl

/-! ## The types -/

/-- An integer or floating type. -/
def isNumeric (kind : LiteralType) : Bool :=
  match XvrType.getFromLiteral kind with
  | .integer _ _ | .float _ => true
  | _ => false

def isIntegerKind (kind : LiteralType) : Bool :=
  match XvrType.getFromLiteral kind with
  | .integer _ _ => true
  | _ => false

/-- A number's LLVM type. -/
inductive Numeric : LlvmType → Prop where
  | integer (width : Nat) : Numeric (.integer width)
  | float : Numeric .float
  | double : Numeric .double

theorem isNumeric_type {kind : LiteralType} (h : isNumeric kind = true) : Numeric (typeMapperGetType kind) := by
  cases kind <;> first | exact .integer _ | exact .float | exact .double | cases h

theorem isNumeric_loaded {kind : LiteralType} (h : isNumeric kind = true) : kind ≠ .any ∧ kind ≠ .array := by
  constructor <;> (rintro rfl; cases h)

/-! ## A variable -/

/-- The bits a value of the type is read as from an alloca. -/
def Machine.read (type : LlvmType) (slot : Nat) (m : Machine) : Option (BitVec 64) :=
  type.width.map fun width => ((m.memory slot).setWidth width).setWidth 64

section

variable {target : Target} {library : Library Datum} {name : List Char} {m m₁ : Machine} {v : Variable Datum} {slot : Nat}
  {allocated : LlvmType}

variable (target) in
theorem exec_identifier (hx : m.table.find name = some v) (hv : v.value = some (.storage slot allocated))
    (hkind : isNumeric v.type = true) :
    execIdentifier target name m = (accessWidth (typeMapperGetType v.type) allocated).map fun width =>
      (some (.scalar (typeMapperGetType v.type) (((m.memory slot).setWidth width).setWidth 64)), m) := by
  have hnum := isNumeric_type hkind
  rw [execIdentifier, identifierPlan, exec_needVariable target hx hv, identifierType, if_pos (isNumeric_loaded hkind)]
  generalize typeMapperGetType v.type = type at *
  have harray : type.isArray = false := by cases hnum <;> rfl
  dsimp only
  simp only [harray, Bool.false_eq_true, if_false, Plan.exec, execute_load]
  cases accessWidth type allocated with
  | none => rfl
  | some width => rfl

/-- The instruction of a plain operator. -/
def typedInstruction (op : ArithOp) (type : LlvmType) : Instruction :=
  if isFloatType type then floatInstruction op else instruction op

theorem exec_binary (hx : m.table.find name = some v) (hv : v.value = some (.storage slot allocated))
    (hkind : isNumeric v.type = true) {op : ArithOp} {right : Node} {e : Exec} {bits : BitVec 64}
    (he : e m = some (some (.scalar (typeMapperGetType v.type) bits), m₁)) :
    execBinary target library name op right e m =
      (accessWidth (typeMapperGetType v.type) allocated).bind fun width =>
        (executeTyped target (typedInstruction op (typeMapperGetType v.type)) (typeMapperGetType v.type)
          (((m.memory slot).setWidth width).setWidth 64) bits).map fun value => (some value, m₁) := by
  have hplan : binaryPlan target.values library op.opcode (.literal (.identifier name)) right =
      .need 0 fun lhs => .need 1 fun rhs => binaryOp target.values library op.opcode lhs rhs := by
    cases op <;> rfl
  have hnum := isNumeric_type hkind
  have hident := exec_identifier target hx hv hkind
  rw [execBinary, hplan]
  generalize typeMapperGetType v.type = type at *
  simp only [Plan.need, Plan.exec, List.getElem?_cons_zero, hident]
  cases haccess : accessWidth type allocated with
  | none => rfl
  | some width =>
    have hpointer : type ≠ .pointer := by rintro rfl; cases hnum
    simp only [Option.map_some, Option.bind_some, List.getElem?_cons_succ, List.getElem?_cons_zero, he, binaryOp,
      Target.values, Datum.typeOf, hpointer, and_false, if_false, binaryInstruction_opcode, Bool.or_self, Plan.exec, execute_binary,
      executeBinary, if_true, typedInstruction]
    cases executeTyped target (if isFloatType type then floatInstruction op else instruction op) type _ bits with
    | none => rfl
    | some value => rfl

/-- A store into the variable. -/
theorem execute_stored {type : LlvmType} {width : Nat} (hw : accessWidth type allocated = some width) (bits : BitVec 64) :
    execute target (.store (.scalar type bits) (.storage slot allocated)) m =
      some (.scalar .void 0, m.write slot width bits) := by
  rw [execute_store, hw, Option.map_some]

theorem exec_plain (hx : m.table.find name = some v) (hv : v.value = some (.storage slot allocated))
    (hkind : isNumeric v.type = true) {op : ArithOp} {right : Node} {e : Exec} {bits : BitVec 64}
    (he : e m = some (some (.scalar (typeMapperGetType v.type) bits), m₁)) :
    execPlain target library name op right e m =
      (accessWidth (typeMapperGetType v.type) allocated).bind fun width =>
        (executeTyped target (typedInstruction op (typeMapperGetType v.type)) (typeMapperGetType v.type)
          (((m.memory slot).setWidth width).setWidth 64) bits).bind fun value =>
            (execute target (.store value (.storage slot allocated)) m₁).map fun stored => (some value, stored.2) := by
  have hplan : binaryPlan target.values library .varAssign (.literal (.identifier name))
      (.binary op.opcode (.literal (.identifier name)) right) = assignPlan .varAssign name := rfl
  rw [execPlain, hplan, assignPlan, exec_needVariable target hx hv]
  simp only [Plan.need, Plan.exec, List.getElem?_cons_succ, List.getElem?_cons_zero, exec_binary hx hv hkind he]
  cases accessWidth (typeMapperGetType v.type) allocated with
  | none => rfl
  | some width =>
    simp only [Option.bind_some]
    cases executeTyped target (typedInstruction op (typeMapperGetType v.type)) (typeMapperGetType v.type) _ bits with
    | none => rfl
    | some value =>
      simp only [Option.map_some, Option.bind_some, compoundInstruction, Plan.exec]
      cases execute target (.store value (.storage slot allocated)) m₁ with
      | none => rfl
      | some stored => rfl

variable (target library) in
theorem exec_compound (op : ArithOp) (right : Node) (hx : m.table.find name = some v)
    (hv : v.value = some (.storage slot allocated)) {e : Exec} {value : Datum} (he : e m = some (some value, m₁)) :
    execCompound target library name op right e m =
      (accessWidth (.integer 32) allocated).bind fun width =>
        (executeBinary target (instruction op) (.scalar (.integer 32) (((m₁.memory slot).setWidth width).setWidth 64))
          value).bind fun value =>
            (execute target (.store value (.storage slot allocated)) m₁).map fun stored => (some value, stored.2) := by
  have hplan : binaryPlan target.values library (assignOpcode op) (.literal (.identifier name)) right =
      assignPlan (assignOpcode op) name := by cases op <;> rfl
  rw [execCompound, hplan, assignPlan, exec_needVariable target hx hv]
  simp only [Plan.need, Plan.exec, List.getElem?_cons_succ, List.getElem?_cons_zero, he, compoundInstruction_assignOpcode]
  rw [execute_load]
  cases accessWidth (.integer 32) allocated with
  | none => rfl
  | some width =>
    simp only [Option.map_some, Option.bind_some, execute_binary]
    cases executeBinary target (instruction op) (.scalar (.integer 32) _) value with
    | none => rfl
    | some value =>
      simp only [Option.map_some, Option.bind_some]
      cases execute target (.store value (.storage slot allocated)) m₁ with
      | none => rfl
      | some stored => rfl

theorem exec_increment (hx : m.table.find name = some v) (hv : v.value = some (.storage slot allocated)) (op : ArithOp)
    (isPrefix : Bool) :
    execIncrement target name op isPrefix m =
      (accessWidth allocated allocated).bind fun width =>
        let old := Datum.scalar allocated (((m.memory slot).setWidth width).setWidth 64)
        (executeBinary target (instruction op) old (.scalar (.integer 32) 1)).bind fun value =>
          (execute target (.store value (.storage slot allocated)) m).map fun stored =>
            (some (if isPrefix then value else old), stored.2) := by
  rw [execIncrement, incrementPlan, exec_needVariable target hx hv]
  simp only [Target.values, Datum.allocatedType, Plan.exec]
  rw [execute_load]
  cases accessWidth allocated allocated with
  | none => rfl
  | some width =>
    simp only [Option.map_some, Option.bind_some, execute_binary]
    cases executeBinary target (instruction op) (.scalar allocated _) (.scalar (.integer 32) 1) with
    | none => rfl
    | some value =>
      simp only [Option.map_some, Option.bind_some]
      cases execute target (.store value (.storage slot allocated)) m with
      | none => rfl
      | some stored => rfl

/-! ## What is left in the variable -/

theorem read_write {type : LlvmType} {width written : Nat} (hw : type.width = some width) (hle : width ≤ written)
    (h64 : written ≤ 64) (bits : BitVec 64) :
    (m.write slot written bits).read type slot = some ((bits.setWidth width).setWidth 64) := by
  rw [Machine.read, hw, Option.map_some, Machine.write]
  simp only [Function.update_self]
  rw [setWidth_overlay hle h64]

theorem write_other {width : Nat} {bits : BitVec 64} {other : Nat} (h : other ≠ slot) :
    (m.write slot width bits).memory other = m.memory other := Function.update_of_ne h _ _

/-- A word read from memory, cut to its width again. -/
theorem setWidth_cut {w n : Nat} (h : w ≤ n) (a : BitVec n) : ((a.setWidth w).setWidth n).setWidth w = a.setWidth w := by
  rw [BitVec.setWidth_setWidth_of_le _ h, BitVec.setWidth_eq]

/-- Words that look alike when widened are equal. -/
theorem setWidth_inj {w n : Nat} (h : w ≤ n) {a b : BitVec w} (hab : a.setWidth n = b.setWidth n) : a = b := by
  have hcut := congrArg (BitVec.setWidth w) hab
  rwa [BitVec.setWidth_setWidth_of_le _ h, BitVec.setWidth_setWidth_of_le _ h, BitVec.setWidth_eq, BitVec.setWidth_eq] at hcut

/-- The code leaves in the variable what `after` has there, and the others as they are there. -/
def LeavesSame (type : LlvmType) (slot : Nat) (result : Option (Option Datum × Machine)) (after : Machine) : Prop :=
  ∃ value m', result = some (value, m') ∧ m'.read type slot = after.read type slot ∧
    ∀ other, other ≠ slot → m'.memory other = after.memory other

theorem accessWidth_integer {width : Nat} {w : Nat} (h : accessWidth (.integer width) allocated = some w) :
    w = width ∧ width ≤ 64 := by
  unfold accessWidth LlvmType.width at h
  split at h
  · rename_i a b ha hb
    cases ha
    split at h
    · rename_i hle
      cases h
      exact ⟨rfl, hle.1.trans hle.2⟩
    · cases h
  · cases h

/-- What a plain assignment to an integer variable leaves. -/
theorem plain_integer (hx : m.table.find name = some v) (hv : v.value = some (.storage slot allocated))
    (hkind : isNumeric v.type = true) {op : ArithOp} {right : Node} {e : Exec} {bits : BitVec 64} {width : Nat}
    (htype : typeMapperGetType v.type = .integer width)
    (he : e m = some (some (.scalar (.integer width) bits), m₁)) {result : Option Datum} {after : Machine}
    (hplain : execPlain target library name op right e m = some (result, after)) :
    accessWidth (.integer width) allocated = some width ∧
      ∃ r, onBits op ((m.memory slot).setWidth width) (bits.setWidth width) = some r ∧
        after = m₁.write slot width (r.setWidth 64) := by
  have hinstr : typedInstruction op (.integer width) = instruction op := rfl
  rw [exec_plain hx hv hkind (by rw [htype]; exact he), htype, hinstr] at hplain
  obtain ⟨w, hw, hplain⟩ := Option.bind_eq_some_iff.mp hplain
  obtain ⟨rfl, h64⟩ := accessWidth_integer hw
  obtain ⟨value, hvalue, hplain⟩ := Option.bind_eq_some_iff.mp hplain
  rw [executeTyped_integer, setWidth_cut h64] at hvalue
  obtain ⟨r, hr, rfl⟩ := Option.map_eq_some_iff.mp hvalue
  rw [execute_stored hw] at hplain
  cases hplain
  exact ⟨hw, r, hr, rfl⟩

/-- A compound assignment loads and computes on 32 bits, behind the right side. -/
theorem compound_agrees (hx : m.table.find name = some v) (hv : v.value = some (.storage slot allocated))
    (hkind : isNumeric v.type = true) {op : ArithOp} {right : Node} {e : Exec} {bits : BitVec 64}
    (he : e m = some (some (.scalar (typeMapperGetType v.type) bits), m₁)) {result : Option Datum} {after : Machine}
    (hplain : execPlain target library name op right e m = some (result, after)) :
    LeavesSame (typeMapperGetType v.type) slot (execCompound target library name op right e m) after ↔
      typeMapperGetType v.type = .integer 32 ∧
        onBits op ((m₁.memory slot).setWidth 32) (bits.setWidth 32) =
          onBits op ((m.memory slot).setWidth 32) (bits.setWidth 32) := by
  by_cases htype : typeMapperGetType v.type = .integer 32
  · rw [htype] at he ⊢
    obtain ⟨hw, r, hr, rfl⟩ := plain_integer hx hv hkind htype he hplain
    have hcompound := exec_compound target library op right hx hv he
    simp only [hw, Option.bind_some, executeBinary, if_true, executeTyped_integer, setWidth_cut (by decide : 32 ≤ 64)] at hcompound
    rw [hcompound, hr]
    simp only [true_and]
    cases honBits : onBits op ((m₁.memory slot).setWidth 32) (bits.setWidth 32) with
    | none =>
      constructor
      · intro ⟨_, _, hnone, _⟩
        cases hnone
      · nofun
    | some r' =>
      simp only [Option.map_some, Option.bind_some, execute_stored hw]
      have hread (r : BitVec 32) : (m₁.write slot 32 (r.setWidth 64)).read (.integer 32) slot = some (r.setWidth 64) := by
        rw [read_write rfl (Nat.le_refl 32) (by decide), BitVec.setWidth_setWidth_of_le r (by decide : 32 ≤ 64),
          BitVec.setWidth_eq]
      constructor
      · intro ⟨_, m', hm', hsame, _⟩
        cases hm'
        rw [hread, hread, Option.some_inj] at hsame
        rw [setWidth_inj (by decide) hsame]
      · intro heq
        cases heq
        exact ⟨_, _, rfl, rfl, fun _ _ => rfl⟩
  · constructor
    · intro ⟨value, m', hcompound, _⟩
      rw [exec_compound _ _ _ _ hx hv he] at hcompound
      obtain ⟨w, -, hcompound⟩ := Option.bind_eq_some_iff.mp hcompound
      rw [executeBinary, if_neg (Ne.symm htype)] at hcompound
      cases hcompound
    · intro h
      exact absurd h.1 htype

/-! ## Increments -/

/-- The bits of 1. -/
def oneBits : LiteralType → BitVec 64
  | .float | .float32 => 0x3F800000#64
  | .float16 => 0x3C00#64
  | .float64 => 0x3FF0000000000000#64
  | _ => 1

theorem exec_one (target : Target) (m : Machine) {kind : LiteralType} (h : isNumeric kind = true) :
    execOne target kind m = some (some (.scalar (typeMapperGetType kind) (oneBits kind)), m) := by
  cases kind <;> first | rfl | cases h

/-- The operator of an increment or decrement. -/
def IsStep (op : ArithOp) : Prop := op = .add ∨ op = .sub

/-- The word behind a step, which is defined and the same on fewer bits. -/
theorem onBits_step {op : ArithOp} (h : IsStep op) {w n : Nat} (hw : w ≤ n) (a b : BitVec n) :
    ∃ r, onBits op a b = some r ∧ onBits op (a.setWidth w) (b.setWidth w) = some (r.setWidth w) := by
  rcases h with rfl | rfl
  · exact ⟨a + b, rfl, by rw [onBits, BitVec.setWidth_add _ _ hw]⟩
  · refine ⟨a - b, rfl, ?_⟩
    have hadd := BitVec.setWidth_add (a - b) b hw
    rw [BitVec.sub_add_cancel] at hadd
    rw [onBits, hadd, BitVec.add_sub_cancel]

/-- An increment loads the type of the alloca and adds an `i32`. -/
theorem increment_result (hx : m.table.find name = some v) (hv : v.value = some (.storage slot allocated)) {op : ArithOp}
    {isPrefix : Bool} {value : Option Datum} {m' : Machine}
    (h : execIncrement target name op isPrefix m = some (value, m')) :
    allocated = .integer 32 ∧
      ∃ r, onBits op ((m.memory slot).setWidth 32) 1 = some r ∧ m' = m.write slot 32 (r.setWidth 64) := by
  rw [exec_increment hx hv] at h
  obtain ⟨width, hw, h⟩ := Option.bind_eq_some_iff.mp h
  obtain ⟨result, hresult, h⟩ := Option.bind_eq_some_iff.mp h
  have htype : allocated = .integer 32 := by
    by_contra hne
    rw [executeBinary, if_neg hne] at hresult
    cases hresult
  subst htype
  obtain ⟨rfl, -⟩ := accessWidth_integer hw
  rw [executeBinary, if_pos rfl, executeTyped_integer, setWidth_cut (by decide)] at hresult
  obtain ⟨r, hr, rfl⟩ := Option.map_eq_some_iff.mp hresult
  rw [execute_stored hw] at h
  cases h
  exact ⟨rfl, r, hr, rfl⟩

variable (target) in
/-- On an `i32` it takes its step. -/
theorem increment_steps (hx : m.table.find name = some v) (hv : v.value = some (.storage slot (.integer 32))) {op : ArithOp}
    (isPrefix : Bool) {r : BitVec 32} (hr : onBits op ((m.memory slot).setWidth 32) 1 = some r) :
    ∃ value, execIncrement target name op isPrefix m = some (value, m.write slot 32 (r.setWidth 64)) := by
  have hw : accessWidth (.integer 32) (.integer 32) = some 32 := rfl
  have hone : (1 : BitVec 64).setWidth 32 = 1 := rfl
  rw [exec_increment hx hv]
  simp only [hw, Option.bind_some, executeBinary, if_true, executeTyped_integer, setWidth_cut (by decide : 32 ≤ 64), hone, hr,
    Option.map_some, execute_stored hw]
  exact ⟨_, rfl⟩

/-- The step on the bits of an `i32` is the step of the type: always for an integer type, for a
    floating one when its sum comes out like that. -/
def StepFits (target : Target) (op : ArithOp) (kind : LiteralType) (stored : BitVec 64) : Prop :=
  isIntegerKind kind = true ∨
    (typeMapperGetType kind = .float ∧
      ∃ bits, target.float (floatInstruction op) .float ((stored.setWidth 32).setWidth 64) (oneBits kind) = some bits ∧
        onBits op (stored.setWidth 32) 1 = some (bits.setWidth 32))

theorem oneBits_integer {kind : LiteralType} (h : isIntegerKind kind = true) : oneBits kind = 1 := by
  cases kind <;> first | rfl | cases h

/-- Only the half floats have an integer as their LLVM type. -/
theorem integer_type_not_integer {kind : LiteralType} {width : Nat} (hkind : isNumeric kind = true)
    (htype : typeMapperGetType kind = .integer width) (h : isIntegerKind kind = false) : kind = .float16 := by
  cases kind <;> first | rfl | (cases hkind; done) | (cases htype; done) | cases h

/-- A step of a half float's bits is not the half float's step. -/
theorem step_not_half {op : ArithOp} (h : IsStep op) (a : BitVec 16) : onBits op a 1 ≠ onBits op a 0x3C00#16 := by
  intro heq
  rcases h with rfl | rfl
  · have hone : (1 : BitVec 16) = 0x3C00#16 := (BitVec.add_right_inj a).mp (Option.some.inj heq)
    exact absurd hone (by decide)
  · have hone : (1 : BitVec 16) = 0x3C00#16 := by
      have hsub : a - 1 = a - 0x3C00#16 := Option.some.inj heq
      bv_omega
    exact absurd hone (by decide)

theorem read_word {w : Nat} (hw : w ≤ 32) (r : BitVec 32) :
    (m.write slot 32 (r.setWidth 64)).read (.integer w) slot = some ((r.setWidth w).setWidth 64) := by
  rw [read_write rfl hw (by decide), BitVec.setWidth_setWidth_of_le r (by omega : w ≤ 64)]

theorem accessWidth_word {width w : Nat} (h : accessWidth (.integer width) (.integer 32) = some w) : width ≤ 32 := by
  by_contra hgt
  simp [accessWidth, LlvmType.width, hgt] at h

/-- The step of an `i32` is, on its low bits, the step of a narrower integer. -/
theorem step_narrow {op : ArithOp} (hop : IsStep op) {width : Nat} (hle : width ≤ 32) {stored : BitVec 64} {r : BitVec 32}
    (hr : onBits op (stored.setWidth 32) 1 = some r) :
    onBits op (stored.setWidth width) ((1 : BitVec 64).setWidth width) = some (r.setWidth width) := by
  obtain ⟨r', hr', hnarrow⟩ := onBits_step hop hle (stored.setWidth 32) (1 : BitVec 32)
  rw [hr] at hr'
  cases hr'
  rw [BitVec.setWidth_setWidth_of_le _ hle] at hnarrow
  rw [← hnarrow]
  congr 1
  apply BitVec.eq_of_toNat_eq
  simp

/-- What it leaves, on an `i32`, is the word behind the step. -/
theorem increment_leaves (hx : m.table.find name = some v) (hv : v.value = some (.storage slot (.integer 32)))
    {op : ArithOp} (isPrefix : Bool) {r : BitVec 32} (hr : onBits op ((m.memory slot).setWidth 32) 1 = some r)
    (type : LlvmType) (after : Machine) :
    LeavesSame type slot (execIncrement target name op isPrefix m) after ↔
      (m.write slot 32 (r.setWidth 64)).read type slot = after.read type slot ∧
        ∀ other, other ≠ slot → m.memory other = after.memory other := by
  obtain ⟨value, hinc⟩ := increment_steps target hx hv isPrefix hr
  rw [hinc]
  constructor
  · intro ⟨_, m', heq, hsame, hothers⟩
    cases heq
    exact ⟨hsame, fun other hne => (write_other hne).symm.trans (hothers other hne)⟩
  · intro ⟨hsame, hothers⟩
    exact ⟨_, _, rfl, hsame, fun other hne => (write_other hne).trans (hothers other hne)⟩

section Step

variable (hx : m.table.find name = some v) (hv : v.value = some (.storage slot (.integer 32)))
  (hkind : isNumeric v.type = true) {op : ArithOp} (hop : IsStep op) (isPrefix : Bool) {right : Node}
  {result : Option Datum} {after : Machine}
  (hplain : execPlain target library name op right (execOne target v.type) m = some (result, after))

include hx hv hkind hop hplain

/-- Among the types that are an integer for LLVM only a half float steps otherwise. -/
theorem step_same_integer {width : Nat} (htype : typeMapperGetType v.type = .integer width) :
    LeavesSame (.integer width) slot (execIncrement target name op isPrefix m) after ↔
      StepFits target op v.type (m.memory slot) := by
  obtain ⟨r, hr, -⟩ := onBits_step hop (Nat.le_refl 32) ((m.memory slot).setWidth 32) (1 : BitVec 32)
  have hone := exec_one target m hkind
  rw [htype] at hone
  obtain ⟨hw, r', hr', rfl⟩ := plain_integer hx hv hkind htype hone hplain
  have hle : width ≤ 32 := accessWidth_word hw
  have hnarrow := step_narrow hop hle hr
  have hread : (m.write slot width (r'.setWidth 64)).read (.integer width) slot = some (r'.setWidth 64) := by
    rw [read_write rfl (Nat.le_refl width) (by omega), BitVec.setWidth_setWidth_of_le r' (by omega : width ≤ 64),
      BitVec.setWidth_eq]
  rw [increment_leaves hx hv isPrefix hr, read_word hle, hread, Option.some_inj]
  by_cases hint : isIntegerKind v.type = true
  · rw [oneBits_integer hint, hnarrow] at hr'
    cases hr'
    exact ⟨fun _ => .inl hint, fun _ => ⟨rfl, fun other hne => (write_other hne).symm⟩⟩
  · have hhalf := integer_type_not_integer hkind htype (eq_false_of_ne_true hint)
    rw [hhalf] at hr' htype ⊢
    cases htype
    constructor
    · intro ⟨hsame, _⟩
      rw [← setWidth_inj (by decide) hsame] at hr'
      exact absurd (hnarrow.trans hr'.symm) (step_not_half hop _)
    · rintro (hbad | ⟨hbad, -⟩)
      · cases hbad
      · cases hbad

/-- A float steps like its bits when its sum comes out like that. -/
theorem step_same_float (htype : typeMapperGetType v.type = .float) :
    LeavesSame .float slot (execIncrement target name op isPrefix m) after ↔
      StepFits target op v.type (m.memory slot) := by
  obtain ⟨r, hr, -⟩ := onBits_step hop (Nat.le_refl 32) ((m.memory slot).setWidth 32) (1 : BitVec 32)
  have hw : accessWidth .float (.integer 32) = some 32 := rfl
  rw [exec_plain hx hv hkind (exec_one target m hkind), htype] at hplain
  simp only [hw, Option.bind_some] at hplain
  obtain ⟨sum, hsum, hplain⟩ := Option.bind_eq_some_iff.mp hplain
  have hinstr : executeTyped target (typedInstruction op .float) .float (((m.memory slot).setWidth 32).setWidth 64)
      (oneBits v.type) = (target.float (floatInstruction op) .float (((m.memory slot).setWidth 32).setWidth 64)
        (oneBits v.type)).map (.scalar .float) := by
    rcases hop with rfl | rfl <;> rfl
  rw [hinstr] at hsum
  obtain ⟨bits, hbits, rfl⟩ := Option.map_eq_some_iff.mp hsum
  rw [execute_stored hw] at hplain
  cases hplain
  have hint : ¬ isIntegerKind v.type = true := by
    intro h
    revert htype h
    cases v.type <;> nofun
  rw [increment_leaves hx hv isPrefix hr, read_write rfl (Nat.le_refl 32) (by decide),
    read_write rfl (Nat.le_refl 32) (by decide), Option.some_inj,
    BitVec.setWidth_setWidth_of_le r (by decide : 32 ≤ 64), BitVec.setWidth_eq]
  constructor
  · intro ⟨hsame, _⟩
    exact .inr ⟨htype, bits, hbits, by rw [hr, setWidth_inj (by decide) hsame]⟩
  · rintro (h | ⟨-, bits', hbits', hstep⟩)
    · exact absurd h hint
    · rw [hbits] at hbits'
      cases hbits'
      rw [hr] at hstep
      cases hstep
      exact ⟨rfl, fun other hne => (write_other hne).symm⟩

theorem step_same :
    LeavesSame (typeMapperGetType v.type) slot (execIncrement target name op isPrefix m) after ↔
      StepFits target op v.type (m.memory slot) := by
  have hnum := isNumeric_type hkind
  generalize htype : typeMapperGetType v.type = type at hnum
  cases hnum with
  | integer width => exact step_same_integer hx hv hkind hop isPrefix hplain htype
  | float => exact step_same_float hx hv hkind hop isPrefix hplain htype
  | double =>
    rw [exec_plain hx hv hkind (exec_one target m hkind), htype] at hplain
    cases hplain

end Step

/-- An increment agrees with the assignment of the sum with 1 exactly on an `i32` that takes
    the type's step. -/
theorem increment_agrees (hx : m.table.find name = some v) (hv : v.value = some (.storage slot allocated))
    (hkind : isNumeric v.type = true) {op : ArithOp} (hop : IsStep op) (isPrefix : Bool) {right : Node}
    {result : Option Datum} {after : Machine}
    (hplain : execPlain target library name op right (execOne target v.type) m = some (result, after)) :
    LeavesSame (typeMapperGetType v.type) slot (execIncrement target name op isPrefix m) after ↔
      allocated = .integer 32 ∧ StepFits target op v.type (m.memory slot) := by
  by_cases htype : allocated = .integer 32
  · subst htype
    rw [step_same hx hv hkind hop isPrefix hplain]
    exact ⟨fun h => ⟨rfl, h⟩, And.right⟩
  · constructor
    · intro ⟨value, m', hinc, _⟩
      exact absurd (increment_result hx hv hinc).1 htype
    · intro h
      exact absurd h.1 htype

/-- Compound assignments and increments beside the plain assignment, for every run of it that
    leaves a value. -/
theorem assignments_agree_iff (target : Target) (library : Library Datum) (name : List Char) (m : Machine)
    (v : Variable Datum) (slot : Nat) (allocated : LlvmType) (hx : m.table.find name = some v)
    (hv : v.value = some (.storage slot allocated)) (hkind : isNumeric v.type = true) :
    (∀ (op : ArithOp) (right : Node) (e : Exec) (bits : BitVec 64) (m₁ : Machine) (result : Option Datum) (after : Machine),
        e m = some (some (.scalar (typeMapperGetType v.type) bits), m₁) →
        execPlain target library name op right e m = some (result, after) →
        (LeavesSame (typeMapperGetType v.type) slot (execCompound target library name op right e m) after ↔
          typeMapperGetType v.type = .integer 32 ∧
            onBits op ((m₁.memory slot).setWidth 32) (bits.setWidth 32) =
              onBits op ((m.memory slot).setWidth 32) (bits.setWidth 32))) ∧
      ∀ (op : ArithOp) (isPrefix : Bool) (result : Option Datum) (after : Machine), IsStep op →
        execPlain target library name op (.literal (one v.type)) (execOne target v.type) m = some (result, after) →
        (LeavesSame (typeMapperGetType v.type) slot (execIncrement target name op isPrefix m) after ↔
          allocated = .integer 32 ∧ StepFits target op v.type (m.memory slot)) := by
  constructor
  · intro op right e bits m₁ result after he hplain
    exact compound_agrees hx hv hkind he hplain
  · intro op isPrefix result after hop hplain
    exact increment_agrees hx hv hkind hop isPrefix hplain

end

/-! ## Two variables -/

/-- A machine without floats and calls. -/
def Target.integers : Target := ⟨fun _ _ _ _ => none, fun _ => .scalar .pointer 0, fun _ => none, fun _ _ => none⟩

/-- A variable `x` that holds 5. -/
def variableX (kind : LiteralType) (allocated : LlvmType) : Variable Datum :=
  ⟨some "x".toList, some (.storage 0 allocated), kind, 0⟩

def machineX (kind : LiteralType) (allocated : LlvmType) : Machine :=
  ⟨FunctionEmitter.create.addEntry (variableX kind allocated), fun _ => 5, 1⟩

theorem machineX_find (kind : LiteralType) (allocated : LlvmType) :
    (machineX kind allocated).table.find "x".toList = some (variableX kind allocated) := rfl

/-- `x = x + 3` for an `int`. -/
theorem plain_three :
    execPlain .integers .nothing "x".toList .add (.literal (.integer 3))
        (fun m => some (some (.scalar (.integer 32) 3), m)) (machineX .integer (.integer 32)) =
      some (some (.scalar (.integer 32) 8), (machineX .integer (.integer 32)).write 0 32 8) := by
  rw [exec_plain (machineX_find _ _) rfl rfl rfl]
  rfl

/-- `x += 3` for an `int`. -/
theorem assignments_agree_iff_int :
    LeavesSame (.integer 32) 0
      (execCompound .integers .nothing "x".toList .add (.literal (.integer 3))
        (fun m => some (some (.scalar (.integer 32) 3), m)) (machineX .integer (.integer 32)))
      ((machineX .integer (.integer 32)).write 0 32 8) :=
  ((assignments_agree_iff .integers .nothing "x".toList (machineX .integer (.integer 32))
    (variableX .integer (.integer 32)) 0 (.integer 32) (machineX_find _ _) rfl rfl).1 .add (.literal (.integer 3))
    (fun m => some (some (.scalar (.integer 32) 3), m)) 3 _ _ _ rfl plain_three).mpr ⟨rfl, rfl⟩

/-- `x += 1u8` for a `uint8`: `x = x + 1u8` leaves 6. -/
theorem byte_not_added :
    execPlain .integers .nothing "x".toList .add (.literal (one .uint8)) (execOne .integers .uint8)
        (machineX .uint8 (.integer 8)) =
          some (some (.scalar (.integer 8) 6), (machineX .uint8 (.integer 8)).write 0 8 6) ∧
      ((machineX .uint8 (.integer 8)).write 0 8 6).read (.integer 8) 0 = some 6 ∧
      ¬ LeavesSame (.integer 8) 0 (execCompound .integers .nothing "x".toList .add (.literal (one .uint8))
        (execOne .integers .uint8) (machineX .uint8 (.integer 8))) ((machineX .uint8 (.integer 8)).write 0 8 6) := by
  have hone : execOne .integers .uint8 (machineX .uint8 (.integer 8)) =
      some (some (.scalar (.integer 8) 1), machineX .uint8 (.integer 8)) := rfl
  refine ⟨?_, by decide, ?_⟩
  · rw [exec_plain (machineX_find _ _) rfl rfl hone]
    rfl
  · intro ⟨value, m', hcompound, _⟩
    rw [exec_compound _ _ _ _ (machineX_find _ _) rfl hone] at hcompound
    cases hcompound

end Xvr.Backend
