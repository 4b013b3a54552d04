/-
  Xvr.Backend.Execution — plans executed.

  The plans are written over any type of values, so that beside being emitted they can be
  executed: every instruction takes effect as it is built. Memory is a word for each alloca.
  An instruction whose operands' types do not fit it, or an access beyond its alloca, has no
  meaning.
-/

import Xvr.Backend.Plans

namespace Xvr.Backend

open Xvr.Runtime Xvr.Lib
open Xvr.Frontend (Opcode Node)

/-! ## Values and memory -/

/-- A value at run time: bits of a type, or the address of an alloca. -/
inductive Datum where
  | scalar (type : LlvmType) (bits : BitVec 64)
  | storage (slot : Nat) (type : LlvmType)
  deriving DecidableEq, Repr

namespace Datum

def typeOf : Datum → LlvmType
  | .scalar type _ => type
  | .storage _ _ => .pointer

def allocatedType : Datum → Option LlvmType
  | .storage _ type => some type
  | .scalar _ _ => none

end Datum

/-- The width of a type's values in memory. -/
def LlvmType.width : LlvmType → Option Nat
  | .integer width => some width
  | .float => some 32
  | .double | .pointer => some 64
  | _ => none

/-- The width of an access to an alloca, which must not go beyond it. -/
def accessWidth (type allocated : LlvmType) : Option Nat :=
  match type.width, allocated.width with
  | some width, some size => if width ≤ size ∧ size ≤ 64 then some width else none
  | _, _ => none

structure Machine where
  table : FunctionEmitter Datum
  memory : Nat → BitVec 64
  /-- The number of the next alloca. -/
  next : Nat

def Machine.write (slot width : Nat) (bits : BitVec 64) (m : Machine) : Machine :=
  { m with memory := Function.update m.memory slot (overlay width (m.memory slot) bits) }

/-- What the machine does for the instructions that are not executed here, the float
    instructions among them. -/
structure Target where
  float : Instruction → LlvmType → BitVec 64 → BitVec 64 → Option (BitVec 64)
  globalString : List Char → Datum
  getFunction : List Char → Option Datum
  other : Op Datum → Machine → Option (Datum × Machine)

variable (target : Target)

def Target.values : Values Datum := ⟨.scalar, target.globalString, Datum.typeOf, Datum.allocatedType⟩

/-! ## Instructions -/

def Instruction.isFloat : Instruction → Bool
  | .fadd | .fsub | .fmul | .fdiv | .frem => true
  | _ => false

/-- On two values of one type. -/
def executeTyped (instruction : Instruction) (type : LlvmType) (a b : BitVec 64) : Option Datum :=
  match type with
  | .integer width =>
    (instruction.execute (a.setWidth width) (b.setWidth width)).map fun word =>
      .scalar (.integer word.width) (word.bits.setWidth 64)
  | .float | .double =>
    if instruction.isFloat then (target.float instruction type a b).map (.scalar type) else none
  | _ => none

/-- The operands must be of one type. -/
def executeBinary (instruction : Instruction) : Datum → Datum → Option Datum
  | .scalar lhs a, .scalar rhs b => if lhs = rhs then executeTyped target instruction lhs a b else none
  | _, _ => none

def execute (op : Op Datum) (m : Machine) : Option (Datum × Machine) :=
  match op with
  | .alloca type => some (.storage m.next type, { m with next := m.next + 1 })
  | .load type (.storage slot allocated) =>
    (accessWidth type allocated).map fun width => (.scalar type (((m.memory slot).setWidth width).setWidth 64), m)
  | .store (.scalar type bits) (.storage slot allocated) =>
    (accessWidth type allocated).map fun width => (.scalar .void 0, m.write slot width bits)
  | .binary instruction lhs rhs => (executeBinary target instruction lhs rhs).map (·, m)
  | op => target.other op m

/-! What the instructions on an alloca and on two values do. -/

theorem execute_load (type : LlvmType) (slot : Nat) (allocated : LlvmType) (m : Machine) :
    execute target (.load type (.storage slot allocated)) m =
      (accessWidth type allocated).map fun width => (.scalar type (((m.memory slot).setWidth width).setWidth 64), m) := rfl

theorem execute_store (type : LlvmType) (bits : BitVec 64) (slot : Nat) (allocated : LlvmType) (m : Machine) :
    execute target (.store (.scalar type bits) (.storage slot allocated)) m =
      (accessWidth type allocated).map fun width => (.scalar .void 0, m.write slot width bits) := rfl

theorem execute_binary (instruction : Instruction) (lhs rhs : Datum) (m : Machine) :
    execute target (.binary instruction lhs rhs) m = (executeBinary target instruction lhs rhs).map (·, m) := rfl

/-! ## Plans -/

/-- What executing an expression does: `none` where the code has no meaning. -/
abbrev Exec := Machine → Option (Option Datum × Machine)

def Plan.exec (operands : List Exec) : Plan Datum → Exec
  | .done value => fun m => some (value, m)
  | .operand index next => fun m =>
    match operands[index]? with
    | none => (next none).exec operands m
    | some action =>
      match action m with
      | none => none
      | some (value, m) => (next value).exec operands m
  | .build op next => fun m =>
    match execute target op m with
    | none => none
    | some (value, m) => (next value).exec operands m
  | .lookup name next => fun m => (next (m.table.find name)).exec operands m
  | .declare name alloca varType arrayCount next => fun m =>
    next.exec operands { m with table := m.table.addLocalVar (some name) (some alloca) varType arrayCount }
  | .getFunction name next => fun m => (next (target.getFunction name)).exec operands m
  | .setError _ next => fun m => next.exec operands m

/-- A variable that is in the table needs no error. -/
theorem exec_needVariable {m : Machine} {name : List Char} {v : Variable Datum} {slot : Nat} {allocated : LlvmType}
    (hx : m.table.find name = some v) (hv : v.value = some (.storage slot allocated))
    (next : Datum → LiteralType → Plan Datum) (operands : List Exec) :
    (Plan.needVariable name next).exec target operands m = (next (.storage slot allocated) v.type).exec target operands m := by
  simp only [Plan.needVariable, Plan.exec, hx, hv]

end Xvr.Backend
