/-
  Xvr.Backend.Arrays — arrays: the runtime's arrays of integers (`xvr_runtime.cpp`), and what
  the expression emitter asks of LLVM for array literals, `len` and `insert`
  (`xvr_llvm_expression_emitter.cpp`).
-/

import Xvr.Backend.Plans

namespace Xvr.Backend

open Xvr.Runtime Xvr.Lib
open Xvr.Frontend (Opcode Node)

/-! ## The runtime -/

/-- `XvrArrayInt`, over what stands for an integer. Its `size` is the number of elements, and
    memory does not run out. -/
structure ArrayInt (α : Type) where
  data : List α
  capacity : Nat
  fits : data.length ≤ capacity

namespace ArrayInt

variable {α : Type}

/-- `xvr_array_create_int`. -/
def create : ArrayInt α := ⟨[], 0, Nat.le_refl 0⟩

/-- The capacity with room for one more. -/
def grown (a : ArrayInt α) : Nat :=
  if a.data.length < a.capacity then a.capacity else if a.capacity = 0 then 4 else 2 * a.capacity

theorem lt_grown (a : ArrayInt α) : a.data.length < a.grown := by
  have := a.fits
  unfold grown
  split
  · assumption
  · split <;> omega

/-- `xvr_array_insert_int`. -/
def insert (a : ArrayInt α) (value : α) : ArrayInt α where
  data := a.data ++ [value]
  capacity := a.grown
  fits := by
    rw [List.length_append]
    exact a.lt_grown

/-- `xvr_array_len`. -/
def len (a : ArrayInt α) : Nat := a.data.length

@[simp] theorem create_data : (create : ArrayInt α).data = [] := rfl

@[simp] theorem insert_data (a : ArrayInt α) (value : α) : (a.insert value).data = a.data ++ [value] := rfl

@[simp] theorem create_len : (create : ArrayInt α).len = 0 := rfl

@[simp] theorem insert_len (a : ArrayInt α) (value : α) : (a.insert value).len = a.len + 1 := List.length_append

theorem foldl_insert_data (values : List α) (a : ArrayInt α) : (values.foldl insert a).data = a.data ++ values := by
  induction values generalizing a with
  | nil => exact (List.append_nil _).symm
  | cons value values ih => rw [List.foldl_cons, ih, insert_data, List.append_assoc, List.singleton_append]

end ArrayInt

def createName : List Char := "xvr_array_create_int".toList

def insertName : List Char := "xvr_array_insert_int".toList

def lenName : List Char := "xvr_array_len".toList

/-! ## The emitter -/

section

variable {V : Type} (values : Values V) (constArray : LlvmType → List V → V) (library : Library V)

/-- The elements of a literal behind the first, which gives the type. -/
def elementsPlan (type : LlvmType) : List V → Nat → Nat → Plan V
  | elements, _, 0 => .done (some (constArray type elements))
  | elements, i, n + 1 => .need i fun element => elementsPlan type (elements ++ [element]) (i + 1) n

/-- The compound case of `Xvr_LLVMExpressionEmitterEmit`; a dictionary has no value. -/
def compoundPlan (literalType : LiteralType) (count : Nat) : Plan V :=
  match count with
  | 0 => .done none
  | n + 1 =>
    if literalType = .array ∨ literalType = .any then
      .need 0 fun first => elementsPlan constArray (values.typeOf first) [first] 1 n
    else .done none

/-- `len` of a variable: a count in the table answers for an array, else the runtime does.
    Anything but an array is left to `other`. -/
def lenPlan (name : List Char) (other : Plan V) : Plan V :=
  .lookup name fun found =>
    match found with
    | some ⟨_, some pointer, .array, arrayCount⟩ =>
      if 0 < arrayCount then .done (some (values.constant (.integer 32) (BitVec.ofInt 64 arrayCount)))
      else
        match values.allocatedType pointer with
        | some (.array _ count) => .done (some (values.constant (.integer 32) (BitVec.ofNat 64 count)))
        | _ =>
          .build (.load .pointer pointer) fun array =>
            .build (.call lenName [array] (.integer 32)) fun value => .done (some value)
    | _ => other

/-- `insert` on a variable. The table keeps its count. Without a value to insert the two sides
    are emitted like those of any operator. -/
def insertPlan (name : List Char) (hasArgument : Bool) : Plan V :=
  let sides : Plan V := .need 0 fun lhs => .need 1 fun rhs => binaryOp values library .dot lhs rhs
  .lookup name fun found =>
    match found.bind (·.value) with
    | none => .done none
    | some pointer =>
      if hasArgument then
        .operand 2 fun argument =>
          match argument with
          | none => sides
          | some argument =>
            .build (.load .pointer pointer) fun array =>
              .build (.call insertName [array, argument] .void) fun _ => .done (some argument)
      else sides

/-- The calls that are about arrays. -/
def arrayNode : Node → Plan V
  | .compound literalType nodes => compoundPlan values constArray literalType nodes.length
  | .binary .fnCall left right =>
    match left, right with
    | .literal (.identifier f), .fnCall (.fnCollection (.literal (.identifier name) :: _)) _ =>
      let other := library.node (.binary .fnCall left right)
      if f = "len".toList then lenPlan values name other else other
    | _, _ => library.node (.binary .fnCall left right)
  | .binary .dot left right =>
    match left, right with
    | .literal (.identifier name), .binary .dot (.literal (.identifier method)) (.fnCall arguments _) =>
      let other := library.node (.binary .dot left right)
      if method = "insert".toList then
        insertPlan values library name (match arguments with | .fnCollection (_ :: _) => true | _ => false)
      else other
    | _, _ => library.node (.binary .dot left right)
  | node => library.node node

/-- The library with arrays, over one for everything else. `constArray` is `LLVMConstArray`. -/
def arrayLibrary : Library V := { library with node := arrayNode values constArray library }

end

end Xvr.Backend
