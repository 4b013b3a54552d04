/-
  Xvr.Backend.TypedEmission — the types of what is emitted for operators on literals.

  `emit_binary_op` picks its instruction from the types of both operands and converts
  neither: one float operand is enough for a float instruction, and the comparisons and
  the logical operators use the integer ones whatever they are given. `HasType` are the
  typing rules under which that goes well.

  Proved:
  - `operators_typed_iff`: a value is always returned, and every instruction emitted for it
    has operands of one type that it works on exactly when the tree has a type.
-/

import Xvr.Frontend.TreeFolding
import Xvr.Backend.EmissionFrame
import Xvr.Backend.Execution

namespace Xvr.Backend

open Xvr.Runtime Xvr.Lib
open Xvr.Frontend (Opcode Node)
open Xvr.Frontend.Parse (ArithOp CompareOp FoldOp)

/-! ## Trees of operators -/

/-- The arithmetic, comparison and logical operators. -/
inductive TreeOp where
  | fold (op : FoldOp)
  | and
  | or
  deriving DecidableEq, Repr

/-- A literal with a number or a truth value. -/
structure Operand where
  literal : Literal
  plain : (literal.isInteger || literal.isFloat || literal.isBoolean) = true

inductive OperandTree where
  | literal (operand : Operand)
  | binary (op : TreeOp) (left right : OperandTree)

namespace TreeOp

def opcode : TreeOp → Opcode
  | .fold op => op.opcode
  | .and => .and
  | .or => .or

/-- The type of the result on two operands of one type. -/
def result : TreeOp → LlvmType → Option LlvmType
  | .fold (.arith _), .float => some .float
  | .fold (.arith _), .double => some .double
  | .fold (.arith _), .integer width => some (.integer width)
  | .fold (.compare _), .integer _ => some (.integer 1)
  | .and, .integer width => some (.integer width)
  | .or, .integer width => some (.integer width)
  | _, _ => none

end TreeOp

namespace OperandTree

def toNode : OperandTree → Node
  | .literal operand => .literal operand.literal
  | .binary op left right => .binary op.opcode left.toNode right.toNode

/-- Both operands of an operator have one type that it works on. -/
inductive HasType : OperandTree → LlvmType → Prop
  | literal (operand : Operand) : HasType (.literal operand) (typeMapperGetType operand.literal.kind)
  | binary {op : TreeOp} {left right : OperandTree} {type result : LlvmType} : HasType left type →
      HasType right type → op.result type = some result → HasType (.binary op left right) result

end OperandTree

/-! ## Well-typed instructions -/

def isIntegerType : LlvmType → Bool
  | .integer _ => true
  | _ => false

/-- Operands of one type: a float one under a float instruction, an integer one under any
    other. -/
def Instruction.Fits (instruction : Instruction) (lhs rhs : LlvmType) : Prop :=
  lhs = rhs ∧ (if instruction.isFloat then isFloatType lhs else isIntegerType lhs) = true

instance (instruction : Instruction) (lhs rhs : LlvmType) : Decidable (instruction.Fits lhs rhs) :=
  inferInstanceAs (Decidable (_ ∧ _))

/-- The type of what it yields on operands of a type. -/
def Instruction.yields : Instruction → LlvmType → LlvmType
  | .icmp _, _ => .integer 1
  | _, type => type

theorem resultOf_type (id : Nat) (instruction : Instruction) (lhs rhs : Value) :
    (resultOf id (.binary instruction lhs rhs)).typeOf = instruction.yields lhs.typeOf := by
  cases instruction <;> rfl

/-- An instruction with two operands that fit it. -/
def WellTyped (i : Instr) : Prop :=
  ∃ id instruction lhs rhs, i = .op ⟨id, .binary instruction lhs rhs⟩ ∧ instruction.Fits lhs.typeOf rhs.typeOf

theorem wellTyped_binary {id : Nat} {instruction : Instruction} {lhs rhs : Value} :
    WellTyped (.op ⟨id, .binary instruction lhs rhs⟩) ↔ instruction.Fits lhs.typeOf rhs.typeOf := by
  constructor
  · intro ⟨_, _, _, _, heq, h⟩
    cases heq
    exact h
  · intro h
    exact ⟨id, instruction, lhs, rhs, rfl, h⟩

/-- What `t` has behind the code of a block in `s`. -/
def Codegen.added (s t : Codegen) (b : Nat) : List Instr := (t.code b).drop (s.code b).length

/-! ## The instruction for two types -/

theorem literalValue_type (operand : Operand) :
    (literalValue Value.values operand.literal).typeOf = typeMapperGetType operand.literal.kind := by
  obtain ⟨literal, h⟩ := operand
  cases literal with
  | boolean | integer | float | int8 | int16 | int32 | int64 | uint8 | uint16 | uint32 | uint64 | float16 | float32
  | float64 => rfl
  | _ => cases h

theorem operand_type_ne_pointer (operand : Operand) : typeMapperGetType operand.literal.kind ≠ .pointer := by
  obtain ⟨literal, h⟩ := operand
  cases literal with
  | boolean | integer | float | int8 | int16 | int32 | int64 | uint8 | uint16 | uint32 | uint64 | float16 | float32
  | float64 => exact LlvmType.noConfusion
  | _ => cases h

namespace TreeOp

theorem picks (op : TreeOp) (isFloat : Bool) : ∃ instruction, binaryInstruction op.opcode isFloat = some instruction := by
  cases op with
  | fold op => rcases op with op | op <;> cases op <;> exact ⟨_, rfl⟩
  | and => exact ⟨_, rfl⟩
  | or => exact ⟨_, rfl⟩

/-- The opcodes whose operands are the two sides. -/
theorem plan_opcode (op : TreeOp) (left : Node) :
    isLibraryBinary op.opcode left = false ∧ isAssignment op.opcode = false := by
  cases op with
  | fold op => rcases op with op | op <;> cases op <;> cases left <;> exact ⟨rfl, rfl⟩
  | and => cases left <;> exact ⟨rfl, rfl⟩
  | or => cases left <;> exact ⟨rfl, rfl⟩

/-- The instruction picked for two types fits them exactly when they are one type that the
    operator works on. -/
theorem fits_iff (op : TreeOp) {lhs rhs : LlvmType} {instruction : Instruction}
    (h : binaryInstruction op.opcode (isFloatType lhs || isFloatType rhs) = some instruction) (result : LlvmType) :
    instruction.Fits lhs rhs ∧ instruction.yields lhs = result ↔ lhs = rhs ∧ op.result lhs = some result := by
  by_cases hsame : lhs = rhs
  · subst hsame
    simp only [Instruction.Fits, true_and]
    rcases op with (op | op) | _ | _
    · cases op <;> cases lhs <;> cases h <;>
        simp [TreeOp.result, Instruction.yields, Instruction.isFloat, isFloatType, isIntegerType]
    · cases op <;> cases lhs <;> cases h <;> simp [TreeOp.result, Instruction.yields, Instruction.isFloat, isIntegerType]
    · cases lhs <;> cases h <;> simp [TreeOp.result, Instruction.yields, Instruction.isFloat, isIntegerType]
    · cases lhs <;> cases h <;> simp [TreeOp.result, Instruction.yields, Instruction.isFloat, isIntegerType]
  · simp [Instruction.Fits, hsame]

end TreeOp

/-! ## What a tree emits -/

/-- From `s` to `t` only the block the builder stands at got anything, which is `new`. -/
structure Adds (new : List Instr) (s t : Codegen) : Prop where
  standing : t.Standing
  here : t.here = s.here
  code : t.code s.here = s.code s.here ++ new
  others : ∀ b, b ≠ s.here → t.code b = s.code b

namespace Adds

variable {s t u : Codegen} {new : List Instr}

theorem refl (hs : s.Standing) : Adds [] s s := ⟨hs, rfl, (List.append_nil _).symm, fun _ _ => rfl⟩

theorem trans {more : List Instr} (h : Adds new s t) (h' : Adds more t u) : Adds (new ++ more) s u := by
  refine ⟨h'.standing, h'.here.trans h.here, ?_, ?_⟩
  · rw [← List.append_assoc, ← h.code, ← h.here]
    exact h'.code
  · intro b hb
    rw [h'.others b (h.here ▸ hb), h.others b hb]

theorem build (hs : s.Standing) (op : Op Value) : Adds [.op ⟨s.nextId, op⟩] s (s.build op).2 := by
  refine ⟨⟨?_, ?_⟩, Codegen.append_here s _, Codegen.append_code_here hs _, fun b hb => Codegen.append_code_ne s _ hb⟩
  · show (s.append _).insertBlock = some (s.append _).here
    rw [Codegen.append_insertBlock, Codegen.append_here, hs.1]
  · show (s.append _).here < (s.append _).blocks.length
    rw [Codegen.append_here, Codegen.append_length]
    exact hs.2

/-- What was added, block by block. -/
theorem added (h : Adds new s t) (b : Nat) : s.added t b = if b = s.here then new else [] := by
  by_cases hb : b = s.here
  · rw [if_pos hb, hb, Codegen.added, h.code, List.drop_left]
  · rw [if_neg hb, Codegen.added, h.others b hb, List.drop_length]

end Adds

variable (library : Library Value)

theorem emit_literal (operand : Operand) (s : Codegen) :
    emit library (.literal operand.literal) s = (some (literalValue Value.values operand.literal), s) := by
  obtain ⟨literal, h⟩ := operand
  cases literal with
  | identifier => cases h
  | _ => rfl

/-- Both operands, and the instruction for their types. -/
theorem emit_operator (op : TreeOp) {left right : Node} {s t u : Codegen} {lhs rhs : Value}
    (hl : emit library left s = (some lhs, t)) (hr : emit library right t = (some rhs, u))
    (hptr : lhs.typeOf ≠ .pointer) {instruction : Instruction}
    (hi : binaryInstruction op.opcode (isFloatType lhs.typeOf || isFloatType rhs.typeOf) = some instruction) :
    emit library (.binary op.opcode left right) s =
      (some (u.build (.binary instruction lhs rhs)).1, (u.build (.binary instruction lhs rhs)).2) := by
  obtain ⟨hlib, hassign⟩ := op.plan_opcode left
  rw [emit]
  show (binaryPlan Value.values library op.opcode left right).emit _ s = _
  unfold binaryPlan
  rw [hlib, hassign]
  simp [Plan.emit, Plan.need, hl, hr, binaryOp, hi, hptr, Value.values]

/-- A tree gives a value, which is no pointer; what it adds is well typed and the value has
    a type exactly when the tree has that type. -/
theorem emit_tree (tree : OperandTree) (s : Codegen) (hs : s.Standing) :
    ∃ value t new, emit library tree.toNode s = (some value, t) ∧ Adds new s t ∧ value.typeOf ≠ .pointer ∧
      ∀ type, (∀ i ∈ new, WellTyped i) ∧ value.typeOf = type ↔ tree.HasType type := by
  induction tree generalizing s with
  | literal operand =>
    refine ⟨_, s, [], emit_literal library operand s, .refl hs, ?_, ?_⟩
    · rw [literalValue_type]
      exact operand_type_ne_pointer operand
    · intro type
      rw [literalValue_type]
      constructor
      · intro ⟨_, h⟩
        subst h
        exact .literal operand
      · intro h
        cases h
        exact ⟨fun _ h => (List.not_mem_nil h).elim, rfl⟩
  | binary op left right ihl ihr =>
    obtain ⟨lhs, t, first, hl, hadds, hptr, htypes⟩ := ihl s hs
    obtain ⟨rhs, u, second, hr, hadds', -, htypes'⟩ := ihr t hadds.standing
    obtain ⟨instruction, hi⟩ := op.picks (isFloatType lhs.typeOf || isFloatType rhs.typeOf)
    have hbuild := Adds.build hadds'.standing (.binary instruction lhs rhs)
    refine ⟨_, _, _, emit_operator library op hl hr hptr hi, (hadds.trans hadds').trans hbuild, ?_, ?_⟩
    · rw [Codegen.build, resultOf_type]
      cases instruction <;> first | exact hptr | exact LlvmType.noConfusion
    · intro type
      rw [Codegen.build, resultOf_type]
      constructor
      · intro ⟨hall, htype⟩
        have hfits := wellTyped_binary.mp (hall _ (List.mem_append_right _ (List.mem_singleton_self _)))
        obtain ⟨hsame, hresult⟩ := (op.fits_iff hi type).mp ⟨hfits, htype⟩
        have hleft : left.HasType lhs.typeOf :=
          (htypes _).mp ⟨fun i h => hall i (List.mem_append_left _ (List.mem_append_left _ h)), rfl⟩
        have hright : right.HasType lhs.typeOf :=
          (htypes' _).mp ⟨fun i h => hall i (List.mem_append_left _ (List.mem_append_right _ h)), hsame.symm⟩
        exact .binary hleft hright hresult
      · intro h
        cases h with
        | binary hleft hright hresult =>
          obtain ⟨hfirst, rfl⟩ := (htypes _).mpr hleft
          obtain ⟨hsecond, hsame⟩ := (htypes' _).mpr hright
          obtain ⟨hfits, htype⟩ := (op.fits_iff hi type).mpr ⟨hsame.symm, hresult⟩
          refine ⟨?_, htype⟩
          intro i hmem
          rcases List.mem_append.mp hmem with hmem | hmem
          · rcases List.mem_append.mp hmem with hmem | hmem
            · exact hfirst i hmem
            · exact hsecond i hmem
          · rw [List.mem_singleton.mp hmem]
            exact wellTyped_binary.mpr hfits

/-- A value is always returned, and all that is emitted for it is well typed exactly when the
    tree has a type. -/
theorem operators_typed_iff (tree : OperandTree) (s : Codegen) (hs : s.Standing) :
    (emit library tree.toNode s).1.isSome = true ∧
      ((∀ b, ∀ i ∈ s.added (emit library tree.toNode s).2 b, WellTyped i) ↔ ∃ type, tree.HasType type) := by
  obtain ⟨value, t, new, heq, hadds, -, htypes⟩ := emit_tree library tree s hs
  rw [heq]
  refine ⟨rfl, ?_⟩
  constructor
  · intro h
    have hnew := h s.here
    rw [hadds.added, if_pos rfl] at hnew
    exact ⟨_, (htypes _).mp ⟨hnew, rfl⟩⟩
  · intro ⟨type, h⟩ b i hmem
    rw [hadds.added] at hmem
    split at hmem
    · exact ((htypes type).mpr h).1 i hmem
    · exact (List.not_mem_nil hmem).elim

/-- `1 + 2 < 3`. -/
theorem operators_typed_sum :
    let sum := OperandTree.binary (.fold (.arith .add)) (.literal ⟨.integer 1, rfl⟩) (.literal ⟨.integer 2, rfl⟩)
    let tree := OperandTree.binary (.fold (.compare .less)) sum (.literal ⟨.integer 3, rfl⟩)
    ∀ b, ∀ i ∈ Codegen.atEntry.added (emit .nothing tree.toNode .atEntry).2 b, WellTyped i :=
  (operators_typed_iff .nothing _ .atEntry atEntry_standing).2.mpr
    ⟨.integer 1, .binary (.binary (.literal _) (.literal _) rfl) (.literal _) rfl⟩

/-- `true + 1` adds an `i32` to an `i1`. -/
theorem boolean_added :
    let tree := OperandTree.binary (.fold (.arith .add)) (.literal ⟨.boolean true, rfl⟩) (.literal ⟨.integer 1, rfl⟩)
    (emit .nothing tree.toNode .atEntry).1.isSome = true ∧
      ¬ ∀ b, ∀ i ∈ Codegen.atEntry.added (emit .nothing tree.toNode .atEntry).2 b, WellTyped i := by
  intro tree
  refine ⟨rfl, ?_⟩
  intro h
  have hmem : Flow.Instr.op ⟨0, .binary .add (.constant (.integer 1) 1) (.constant (.integer 32) 1)⟩ ∈
      Codegen.atEntry.added (emit .nothing tree.toNode .atEntry).2 0 := List.mem_singleton_self _
  exact absurd (wellTyped_binary.mp (h 0 _ hmem)) (by decide)

end Xvr.Backend
