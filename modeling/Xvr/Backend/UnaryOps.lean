/-
  Xvr.Backend.UnaryOps — `!` and `-`: the instructions the emitter chooses
  (`emit_unary_op`) beside the parser's folding of a literal.

  `!` compares its operand with false for inequality, which is the operand again; `-`
  subtracts from a 32-bit zero, whatever the operand's type.

  Proved:
  - `unary_agrees_iff`: `!` never inverts, `-` negates exactly 32-bit integers, and a nest
    of `!` agrees with the folded literal exactly when it is even.
  - `invert_yields_operand`: `!x` yields true for a true `x`.
-/

import Xvr.Backend.Types
import Xvr.Backend.FoldAgrees
import Xvr.Frontend.ArithmeticRuns

namespace Xvr.Backend

open Xvr.Runtime Xvr.Lib Xvr.Frontend.Parse
open Xvr.Frontend (Opcode Node Token TokenType)

/-! ## The emitter -/

section

variable (llvm : TypedLlvm)

/-- The instruction of `emit_unary_op` and its operands. -/
def unaryInstruction (opcode : Opcode) (operand : llvm.Value) : Option (Instruction × llvm.Value × llvm.Value) :=
  match opcode with
  -- boolean NOT: compare operand to zero
  | .invert => some (.icmp .ne, operand, llvm.constNull (.integer 1))
  -- arithmetic negation: 0 - operand
  | .negate => some (.sub, llvm.constNull (.integer 32), operand)
  | _ => none

/-- `emit_unary_op`, with what it does for a print as a parameter. -/
def emitUnaryOp (emitPrint : llvm.Value → Option llvm.Value) (opcode : Opcode) (operand : llvm.Value) : Option llvm.Value :=
  match opcode with
  | .print => emitPrint operand
  | opcode => (unaryInstruction llvm opcode operand).map fun (instruction, lhs, rhs) => llvm.build instruction lhs rhs

/-- `Xvr_LLVMExpressionEmitterEmitUnary`, `operand` being what was emitted for the child. -/
def emitUnary (emitPrint : llvm.Value → Option llvm.Value) (opcode : Opcode) (operand : Option llvm.Value) :
    Option llvm.Value :=
  match operand with
  | none => none
  | some operand => emitUnaryOp llvm emitPrint opcode operand

/-- What is emitted for `n` inversions of an operand. -/
def emitInverts (emitPrint : llvm.Value → Option llvm.Value) (operand : llvm.Value) : Nat → Option llvm.Value
  | 0 => some operand
  | n + 1 => emitUnary llvm emitPrint .invert (emitInverts emitPrint operand n)

end

variable {llvm : TypedLlvm} {emitPrint : llvm.Value → Option llvm.Value}

/-! ## What the instructions yield -/

theorem ne_zero_self (b : Bool) : BitVec.ofBool (Comparison.signed .ne (BitVec.ofBool b) 0) = BitVec.ofBool b := by
  cases b <;> decide

/-- The inversion of a boolean is the boolean. -/
theorem run_invert {operand : llvm.Value} {b : Bool} (h : llvm.run operand = some ⟨1, BitVec.ofBool b⟩) :
    llvm.run (llvm.build (.icmp .ne) operand (llvm.constNull (.integer 1))) = some ⟨1, BitVec.ofBool b⟩ := by
  rw [llvm.run_build _ _ _ 1 _ _ h (llvm.run_constNull 1), Instruction.execute, ne_zero_self]

theorem run_inverts (emitPrint : llvm.Value → Option llvm.Value) {operand : llvm.Value} {b : Bool}
    (h : llvm.run operand = some ⟨1, BitVec.ofBool b⟩) (n : Nat) :
    ∃ result, emitInverts llvm emitPrint operand n = some result ∧ llvm.run result = some ⟨1, BitVec.ofBool b⟩ := by
  induction n with
  | zero => exact ⟨operand, rfl, h⟩
  | succ n ih =>
    obtain ⟨result, hresult, hrun⟩ := ih
    refine ⟨_, ?_, run_invert hrun⟩
    rw [emitInverts, hresult]
    rfl

/-- `!e` yields the logical negation of e's value. -/
def Inverts (llvm : TypedLlvm) (emitPrint : llvm.Value → Option llvm.Value) (operand : llvm.Value) (b : Bool) : Prop :=
  ∃ result, emitUnary llvm emitPrint .invert (some operand) = some result ∧
    llvm.run result = some ⟨1, BitVec.ofBool !b⟩

theorem not_inverts {operand : llvm.Value} {b : Bool} (h : llvm.run operand = some ⟨1, BitVec.ofBool b⟩) :
    ¬ Inverts llvm emitPrint operand b := by
  intro ⟨result, hresult, hrun⟩
  cases hresult
  rw [run_invert h, Option.some_inj, Word.mk_inj] at hrun
  revert hrun
  cases b <;> decide

/-- The instruction emitted for `-e` has operands of one type, and yields the negation of
    an integer modulo its width. -/
def Negates (llvm : TypedLlvm) (operand : llvm.Value) : Prop :=
  ∃ instruction lhs rhs, unaryInstruction llvm .negate operand = some (instruction, lhs, rhs) ∧
    llvm.typeOf lhs = llvm.typeOf rhs ∧
    ∀ w (a : BitVec w), llvm.run operand = some ⟨w, a⟩ → llvm.run (llvm.build instruction lhs rhs) = some ⟨w, -a⟩

theorem negates_iff (operand : llvm.Value) : Negates llvm operand ↔ llvm.typeOf operand = .integer 32 := by
  have hzero : llvm.typeOf (llvm.constNull (.integer 32)) = .integer 32 := llvm.typeOf_run _ _ _ (llvm.run_constNull 32)
  constructor
  · intro ⟨instruction, lhs, rhs, hemit, htypes, _⟩
    cases hemit
    rw [← htypes, hzero]
  · intro htype
    refine ⟨_, _, _, rfl, by rw [hzero, htype], ?_⟩
    intro w a hrun
    have hw := llvm.typeOf_run _ _ _ hrun
    rw [htype] at hw
    cases hw
    rw [llvm.run_build _ _ _ 32 _ _ (llvm.run_constNull 32) hrun]
    simp [Instruction.execute]

/-! ## The parser's inversions -/

/-- A `true` or a `false`. -/
structure Flag where
  token : Token
  value : Bool
  isLiteral : token.type = if value then .literalTrue else .literalFalse

theorem Flag.scanned (flag : Flag) : tokenLiteral flag.token = some (.boolean flag.value) := by
  unfold tokenLiteral
  rw [flag.isLiteral]
  cases flag.value <;> rfl

/-- What `n` inversions make of a boolean. -/
def inverted (b : Bool) : Nat → Bool
  | 0 => b
  | n + 1 => !(inverted b n)

theorem inverted_eq_iff (b : Bool) (n : Nat) : inverted b n = b ↔ n % 2 = 0 := by
  induction n with
  | zero => simp [inverted]
  | succ n ih =>
    rw [inverted, Bool.not_eq_eq_eq_not]
    have hnot : inverted b n = !b ↔ ¬ inverted b n = b := by cases b <;> cases inverted _ n <;> decide
    rw [hnot, ih]
    omega

def invertTokens (nots : List (Mark .not)) (flag : Flag) : List Token := nots.map (·.token) ++ [flag.token]

/-- Behind any number of `!` the literal is folded. -/
theorem parse_inverts (z : Parser → Node → Bool) (nots : List (Mark .not)) (flag : Flag) {tail : TokenStream} (n : Nat)
    {rule : PrecedenceRule} (handle : Node) {p : Parser} (hrule : rule ≤ .call) (hstop : Stops rule tail)
    (hn : nots.length < n) (hp : Before p (tail.prepend (invertTokens nots flag))) :
    ∃ q, parsePrecedence (recAt z n) handle rule p = .ok (.literal (.boolean (inverted flag.value nots.length))) q ∧
      Before q tail := by
  induction nots generalizing n rule handle p with
  | nil =>
    obtain ⟨n, rfl⟩ : ∃ n', n = n' + 1 := ⟨n - 1, by omega⟩
    have hat : At p flag.token (tail.prepend []) := hp
    have hatomic : atomic handle (advanced p) = .ok (.eof, .literal (.boolean flag.value)) (advanced p) := by
      unfold atomic
      rw [bind_get, advanced_previous, hat.current, flag.scanned]
      rfl
    refine ⟨advanced p, (parse_by_rule (f := atomic) ?_ hatomic).trans ?_, advanced_before hat⟩
    · rw [hat.current, flag.isLiteral]
      cases flag.value <;> rfl
    · exact expression_end (advanced_before hat) hstop
  | cons mark nots ih =>
    obtain ⟨n, rfl⟩ : ∃ n', n = n' + 1 := ⟨n - 1, by omega⟩
    have hat : At p mark.token (tail.prepend (invertTokens nots flag)) := hp
    obtain ⟨q, hrun, hq⟩ := ih n .null (Nat.le_refl _) (hstop.mono hrule) (by simpa using hn)
      (advanced_before hat)
    have hprev : (advanced p).previous.type = .not := by rw [advanced_previous, hat.current, mark.isType]
    have hunary : unary (recAt z (n + 1)) handle (advanced p) =
        .ok (.eof, .literal (.boolean (inverted flag.value (mark :: nots).length))) q := by
      unfold unary
      rw [bind_get, if_neg (by rw [hprev]; decide), if_pos hprev]
      exact bind_ok hrun
    refine ⟨q, (parse_by_rule ?_ hunary).trans ?_, hq⟩
    · rw [hat.current, mark.isType]
      rfl
    · exact expression_end hq hstop

theorem inverts_fuel {nots : List (Mark .not)} {flag : Flag} {tail : TokenStream} {p : Parser}
    (hp : Before p (tail.prepend (invertTokens nots flag))) : nots.length + 1 < fuelFor p := by
  unfold fuelFor remaining
  rw [hp.lexer]
  cases nots with
  | nil => simp [invertTokens, scanLexer, TokenStream.prepend]
  | cons mark nots => simp [invertTokens, scanLexer, TokenStream.prepend]; omega

/-! ## Main results -/

/-- Where the two implementations of `!` and `-` are right. -/
theorem unary_agrees_iff (llvm : TypedLlvm) (emitPrint : llvm.Value → Option llvm.Value)
    (emitIdentifier : List Char → llvm.Value) (emitStringConcat : llvm.Value → llvm.Value → llvm.Value) :
    (∀ operand b, llvm.run operand = some ⟨1, BitVec.ofBool b⟩ → ¬ Inverts llvm emitPrint operand b) ∧
      (∀ operand kind, llvm.typeOf operand = typeMapperGetType kind →
        (Negates llvm operand ↔ typeMapperGetType kind = .integer 32)) ∧
      ∀ (z : Parser → Node → Bool) nots flag tail rule handle p operand, rule ≤ PrecedenceRule.call → Stops rule tail →
        Before p (tail.prepend (invertTokens nots flag)) → llvm.run operand = some ⟨1, BitVec.ofBool flag.value⟩ →
          ∃ folded q result, (recAt z (fuelFor p)).parsePrecedence handle rule p = .ok (.literal folded) q ∧
            emitInverts llvm emitPrint operand nots.length = some result ∧
            (llvm.run result = llvm.run (emitLiteralValue ⟨llvm.toLlvm, emitIdentifier, emitStringConcat⟩ folded) ↔
              nots.length % 2 = 0) := by
  refine ⟨fun _ _ => not_inverts, fun operand kind htype => by rw [negates_iff, htype], ?_⟩
  intro z nots flag tail rule handle p operand hrule hstop hp hrun
  have hfuel := inverts_fuel hp
  obtain ⟨n, hn⟩ : ∃ n, fuelFor p = n + 1 := ⟨fuelFor p - 1, by omega⟩
  obtain ⟨q, hparse, -⟩ := parse_inverts z nots flag n handle hrule hstop (by omega) hp
  obtain ⟨result, hresult, hvalue⟩ := run_inverts emitPrint hrun nots.length
  refine ⟨_, q, result, by rw [hn]; exact hparse, hresult, ?_⟩
  have hliteral := run_resultWord (e := ⟨llvm.toLlvm, emitIdentifier, emitStringConcat⟩)
    (l := .boolean (inverted flag.value nots.length)) rfl
  rw [hvalue, hliteral, ← inverted_eq_iff flag.value, Option.some_inj, Word.mk_inj]
  have hbool (x y : Bool) : BitVec.ofBool x = BitVec.ofBool y ↔ y = x := by cases x <;> cases y <;> decide
  exact hbool _ _

/-! ## A backend that folds constants -/

def Constant.typeOf : Constant → LlvmType
  | .integer (some word) => .integer word.width
  | .float _ => .float
  | .double _ => .double
  | _ => .pointer

def typedFolder : TypedLlvm where
  toLlvm := constantFolder
  typeOf := Constant.typeOf
  constNull
    | .integer w => .integer (some ⟨w, 0⟩)
    | .float => .float 0
    | .double => .double 0
    | _ => .pointer
  typeOf_run value w a h := by
    cases value <;> cases h
    rfl
  run_constNull _ := rfl

/-- `!x` yields true for a true `x`. -/
theorem invert_yields_operand : ¬ Inverts typedFolder (fun _ => none) (.integer (some ⟨1, 1⟩)) true := by
  rintro ⟨result, hresult, hrun⟩
  cases hresult
  revert hrun
  decide

def notMark : Mark .not := ⟨⟨.not, "!".toList, 1⟩, rfl⟩
def trueFlag : Flag := ⟨⟨.literalTrue, "true".toList, 1⟩, true, rfl⟩

/-- The parser in front of `!!true;`. -/
def invertedTwice : Parser := initParser ((tokensOf [.semicolon]).prepend (invertTokens [notMark, notMark] trueFlag))

/-- `-x` of an `int32`, and `!!x` beside `!!true`. -/
theorem unary_agrees_iff_samples :
    (Negates typedFolder (.integer (some ⟨32, 5⟩)) ↔ typeMapperGetType .int32 = .integer 32) ∧
      ∃ folded q result, (recAt neverZero (fuelFor invertedTwice)).parsePrecedence .null .call invertedTwice =
          .ok (.literal folded) q ∧
        emitInverts typedFolder (fun _ => none) (.integer (some ⟨1, 1⟩)) 2 = some result ∧
        (typedFolder.run result = typedFolder.run (emitLiteralValue constantEmitter folded) ↔ 2 % 2 = 0) := by
  have hagrees := unary_agrees_iff typedFolder (fun _ => none) (fun _ => .pointer) (fun _ _ => .pointer)
  refine ⟨hagrees.2.1 _ .int32 rfl, ?_⟩
  exact hagrees.2.2 neverZero [notMark, notMark] trueFlag (tokensOf [.semicolon]) .call .null invertedTwice _
    (Nat.le_refl _) (by unfold Stops; decide) ⟨rfl, rfl⟩ rfl

end Xvr.Backend
