/-
  Xvr.Backend.FoldAgrees — compile-time folding beside the code for the unfolded node.

  The parser folds every integer kind in C's `int`: a narrow operand is zero-extended, a
  wide one loses its high half, and arithmetic leaves a plain INTEGER. The backend works
  at the operands' own width, and compares signed.

  Proved:
  - `fold_agrees_iff`: a folded literal's constant is what the instruction yields exactly
    at 32 bits, and elsewhere for the comparisons that do not see the difference.
  - `fold_disagrees_int8`: `100i8 + 100i8` is folded into 200 at 32 bits, and adds to -56.
-/

import Xvr.Backend.Expressions
import Xvr.Frontend.ArithmeticFolds

namespace Xvr.Backend

open Xvr.Runtime Xvr.Lib Xvr.Frontend.Parse
open Xvr.Frontend (Opcode Node)

/-! ## Integer literals -/

/-- What an integer literal stores. -/
def payload : Literal → Option Word
  | .integer v | .int32 v | .uint32 v => some ⟨32, v⟩
  | .int8 v | .uint8 v => some ⟨8, v⟩
  | .int16 v | .uint16 v => some ⟨16, v⟩
  | .int64 v | .uint64 v => some ⟨64, v⟩
  | _ => none

theorem payload_isSome (l : Literal) : (payload l).isSome = l.isInteger := by
  cases l <;> rfl

/-- The parser reads the payload's low 32 bits. -/
theorem payload_asInteger {l : Literal} {w : Nat} {a : BitVec w} (h : payload l = some ⟨w, a⟩) :
    l.asInteger = a.setWidth 32 := by
  cases l <;> cases h <;> simp [Literal.asInteger, Literal.word]

variable {e : Emitter}

/-- The backend's constant is the payload. -/
theorem run_payload {l : Literal} {w : Nat} {a : BitVec w} (h : payload l = some ⟨w, a⟩) :
    e.llvm.run (emitLiteralValue e l) = some ⟨w, a⟩ ∧ e.llvm.typeKind (emitLiteralValue e l) = .integer := by
  cases l <;> cases h <;> refine ⟨?_, e.llvm.typeKind_constInt _ _ _⟩ <;>
    refine (e.llvm.run_constInt _ _ _ (by decide)).trans ?_ <;> simp [setWidth_signExtend]

/-! ## Folding integers -/

def comparison : Opcode → Option Comparison
  | .compareEqual => some .eq
  | .compareNotEqual => some .ne
  | .compareLess => some .lt
  | .compareLessEqual => some .le
  | .compareGreater => some .gt
  | .compareGreaterEqual => some .ge
  | _ => none

/-- The word a folded literal's constant is. -/
def resultWord : Literal → Option Word
  | .integer v => some ⟨32, v⟩
  | .boolean b => some ⟨1, BitVec.ofBool b⟩
  | _ => none

theorem run_resultWord {l : Literal} {word : Word} (h : resultWord l = some word) :
    e.llvm.run (emitLiteralValue e l) = some word := by
  cases l with
  | integer v => cases h; exact (run_payload (e := e) (l := .integer v) rfl).1
  | boolean b =>
    cases h
    refine (e.llvm.run_constInt _ _ _ (by decide)).trans ?_
    cases b <;> rfl
  | _ => cases h

/-- A division the parser does not perform. -/
def Refused (opcode : Opcode) (a b : BitVec 32) : Prop :=
  (opcode = .division ∨ opcode = .modulo) ∧ (b = 0 ∨ quotientFits a b = false)

/-- The instruction an opcode gets on integers. -/
def instruction : Opcode → Instruction
  | .addition => .add
  | .subtraction => .sub
  | .multiplication => .mul
  | .division => .sdiv
  | .modulo => .srem
  | opcode => .icmp ((comparison opcode).getD .eq)

/-- The parser refuses a division, or computes what the instruction yields at 32 bits. -/
theorem foldIntegers_executes {opcode : Opcode} (hop : foldable opcode = true) (a b : BitVec 32) (p : Parser) :
    (Refused opcode a b ∧ ∀ l q, foldIntegers opcode a b p ≠ .ok (some l) q) ∨
      ¬ Refused opcode a b ∧ ∃ l word q, foldIntegers opcode a b p = .ok (some l) q ∧ resultWord l = some word ∧
        (instruction opcode).execute a b = some word := by
  have hdivide (hd : opcode = .division ∨ opcode = .modulo) (v : BitVec 32)
      (hfold : ∃ message, foldIntegers opcode a b = if b = 0 then foldError message else do
        access (.divide a b)
        pure (some (.integer v)))
      (hexec : (instruction opcode).execute a b = if b = 0 ∨ a = BitVec.intMin 32 ∧ b = -1 then none else some ⟨32, v⟩) :
      (Refused opcode a b ∧ ∀ l q, foldIntegers opcode a b p ≠ .ok (some l) q) ∨
        ¬ Refused opcode a b ∧ ∃ l word q, foldIntegers opcode a b p = .ok (some l) q ∧ resultWord l = some word ∧
          (instruction opcode).execute a b = some word := by
    obtain ⟨message, hfold⟩ := hfold
    by_cases hb : b = 0
    · refine Or.inl ⟨⟨hd, Or.inl hb⟩, fun l q h => ?_⟩
      rw [hfold, if_pos hb] at h
      cases h
    · cases hq : quotientFits a b with
      | false =>
        refine Or.inl ⟨⟨hd, Or.inr hq⟩, fun l q h => ?_⟩
        rw [hfold, if_neg hb] at h
        simp only [bind, EStateM.bind, access_undefined (show (Access.divide a b).defined = false from hq)] at h
        cases h
      | true =>
        have hfits : ¬ (b = 0 ∨ a = BitVec.intMin 32 ∧ b = -1) := by
          rintro (h | ⟨h₁, h₂⟩)
          · exact hb h
          · simp [quotientFits, h₁, h₂] at hq
        refine Or.inr ⟨?_, .integer v, ⟨32, v⟩, accessed (.divide a b) p, ?_, rfl, ?_⟩
        · rintro ⟨-, h | h⟩
          · exact hb h
          · rw [hq] at h; cases h
        · rw [hfold, if_neg hb, bind_ok (access_defined (show (Access.divide a b).defined = true from hq))]
          rfl
        · rw [hexec, if_neg hfits]
  cases opcode with
  | division => exact hdivide (Or.inl rfl) (a.sdiv b) ⟨_, rfl⟩ rfl
  | modulo => exact hdivide (Or.inr rfl) (a.srem b) ⟨_, rfl⟩ rfl
  | addition | subtraction | multiplication | compareEqual | compareNotEqual | compareLess | compareLessEqual
  | compareGreater | compareGreaterEqual =>
    refine Or.inr ⟨?_, _, _, p, rfl, rfl, rfl⟩
    rintro ⟨h | h, -⟩ <;> cases h
  | _ => cases hop

theorem resultWord_not_null {l : Literal} {word : Word} (h : resultWord l = some word) : l.isNull = false := by
  cases l <;> first | rfl | cases h

/-- Two integer literals are folded in their low words. -/
theorem foldLiterals_eq {lhs rhs : Literal} (opcode : Opcode) (hl : lhs.isInteger = true) (hr : rhs.isInteger = true) :
    foldLiterals opcode lhs rhs = foldIntegers opcode lhs.asInteger rhs.asInteger := by
  have hfloat (l : Literal) (h : l.isInteger = true) : l.isFloat = false := by cases l <;> first | rfl | cases h
  have hcoerce (l other : Literal) (h : other.isInteger = true) : coerceBeside other l = l := by
    unfold coerceBeside
    rw [hfloat other h]
    rfl
  have hstring : lhs.isString = false := by cases lhs <;> first | rfl | cases hl
  unfold foldLiterals
  simp only [hstring, Bool.false_and, Bool.false_eq_true, if_false, hcoerce _ _ hl, hcoerce _ _ hr, hl, hr, Bool.and_self,
    if_true]

/-- Where the parser folds, it leaves the literal `foldIntegers` computes. -/
theorem calcStatic_folded {opcode : Opcode} {lhs rhs l : Literal} {word : Word} {p q : Parser} (hop : foldable opcode = true)
    (hl : lhs.isInteger = true) (hr : rhs.isInteger = true) (hword : resultWord l = some word)
    (hfold : foldIntegers opcode lhs.asInteger rhs.asInteger p = .ok (some l) q) :
    ∃ q', calcStaticBinaryArithmetic (.binary opcode (.literal lhs) (.literal rhs)) p = .ok (true, .literal l) q' := by
  rw [← foldLiterals_eq opcode hl hr] at hfold
  rw [calcStatic_literals hop]
  exact ⟨_, foldNode_folded (resultWord_not_null hword) hfold⟩

theorem calcStatic_refused {opcode : Opcode} {lhs rhs folded : Literal} {p q : Parser} (hop : foldable opcode = true)
    (hl : lhs.isInteger = true) (hr : rhs.isInteger = true)
    (hfold : ∀ l q, foldIntegers opcode lhs.asInteger rhs.asInteger p ≠ .ok (some l) q) :
    calcStaticBinaryArithmetic (.binary opcode (.literal lhs) (.literal rhs)) p ≠ .ok (true, .literal folded) q := by
  rw [calcStatic_literals hop]
  rw [← foldLiterals_eq opcode hl hr] at hfold
  intro h
  cases hrun : foldLiterals opcode lhs rhs p with
  | error stop q' =>
    unfold foldNode at h
    simp only [bind, EStateM.bind, hrun] at h
    cases h
  | ok result q' =>
    cases result with
    | none =>
      rw [foldNode_refused hrun] at h
      cases h
    | some l => exact hfold l q' hrun

/-! ## The two computations -/

/-- The folded literal's constant is what the instruction yields. -/
def FoldAgrees (e : Emitter) (opcode : Opcode) (lhs rhs : Literal) (p : Parser) : Prop :=
  ∀ folded q, calcStaticBinaryArithmetic (.binary opcode (.literal lhs) (.literal rhs)) p = .ok (true, .literal folded) q →
    ∃ value word, emitBinaryOp e opcode (emitLiteralValue e lhs) (emitLiteralValue e rhs) = some value ∧
      e.llvm.run value = some word ∧ e.llvm.run (emitLiteralValue e folded) = some word

/-- Where the folding width does not show. -/
def WidthHidden (opcode : Opcode) {w : Nat} (a b : BitVec w) : Prop :=
  w = 32 ∨
    match comparison opcode with
    | none => Refused opcode (a.setWidth 32) (b.setWidth 32)
    | some c =>
      if w < 32 then c.ordered = true → a.msb = b.msb
      else c.signed (a.setWidth 32) (b.setWidth 32) = c.signed a b

theorem emitBinaryOp_integers {opcode : Opcode} {lhs rhs : Literal} {w : Nat} {a b : BitVec w} (hop : foldable opcode = true)
    (hl : payload lhs = some ⟨w, a⟩) (hr : payload rhs = some ⟨w, b⟩) :
    ∃ value, emitBinaryOp e opcode (emitLiteralValue e lhs) (emitLiteralValue e rhs) = some value ∧
      e.llvm.run value = (instruction opcode).execute a b := by
  obtain ⟨hrl, hkl⟩ := run_payload (e := e) hl
  obtain ⟨hrr, hkr⟩ := run_payload (e := e) hr
  refine ⟨e.llvm.build (instruction opcode) (emitLiteralValue e lhs) (emitLiteralValue e rhs), ?_,
    e.llvm.run_build _ _ _ _ _ _ hrl hrr⟩
  cases opcode <;> first
    | (cases hop; done)
    | simp [emitBinaryOp, isFloatKind, isPointerType, hkl, hkr, instruction, comparison]

/-- Arithmetic stays at its width. -/
theorem execute_width {opcode : Opcode} {w : Nat} {a b : BitVec w} {word : Word} (hop : foldable opcode = true)
    (hc : comparison opcode = none) (h : (instruction opcode).execute a b = some word) : word.width = w := by
  cases opcode with
  | addition | subtraction | multiplication =>
    cases h
    rfl
  | division | modulo =>
    simp only [instruction, Instruction.execute] at h
    split at h
    · cases h
    · cases h
      rfl
  | compareEqual | compareNotEqual | compareLess | compareLessEqual | compareGreater | compareGreaterEqual => cases hc
  | _ => cases hop

theorem execute_comparison {opcode : Opcode} {c : Comparison} (hc : comparison opcode = some c) {w : Nat} (a b : BitVec w) :
    (instruction opcode).execute a b = some ⟨1, BitVec.ofBool (c.signed a b)⟩ := by
  cases opcode <;> cases hc <;> rfl

/-- Two comparisons of one pair agree when the order does not see the width. -/
theorem comparison_hidden (c : Comparison) {w : Nat} (hw : w < 32) (a b : BitVec w) :
    c.signed (a.setWidth 32) (b.setWidth 32) = c.signed a b ↔ (c.ordered = true → a.msb = b.msb) := by
  rw [c.signed_setWidth hw]
  cases hc : c.ordered with
  | false => simp [Comparison.signed_eq_unsigned hc]
  | true => simp [Comparison.signed_eq_unsigned_iff hc]

/-- The two widths' instructions agree exactly where the width does not show. -/
theorem execute_widthHidden {opcode : Opcode} (hop : foldable opcode = true) {w : Nat} {a b : BitVec w} {word : Word}
    (hrefused : ¬ Refused opcode (a.setWidth 32) (b.setWidth 32))
    (hword : (instruction opcode).execute (a.setWidth 32) (b.setWidth 32) = some word) :
    (instruction opcode).execute a b = some word ↔ WidthHidden opcode a b := by
  unfold WidthHidden
  by_cases hw : w = 32
  · subst hw
    rw [BitVec.setWidth_eq, BitVec.setWidth_eq] at hword
    simp [hword]
  · cases hc : comparison opcode with
    | none =>
      simp only [hw, hrefused, or_self, iff_false]
      intro h
      exact hw ((execute_width hop hc h).symm.trans (execute_width hop hc hword))
    | some c =>
      rw [execute_comparison hc] at hword ⊢
      rw [← hword, Option.some_inj, Word.mk_inj]
      have hbool (x y : Bool) : BitVec.ofBool x = BitVec.ofBool y ↔ x = y := by cases x <;> cases y <;> decide
      rw [hbool, eq_comm]
      simp only [hw, false_or]
      split
      · rename_i hlt
        exact comparison_hidden c hlt a b
      · rfl

/-- Folding agrees with the emitted code exactly where the width does not show. -/
theorem fold_agrees_iff (e : Emitter) {opcode : Opcode} {lhs rhs : Literal} {w : Nat} {a b : BitVec w}
    (hop : foldable opcode = true) (hl : payload lhs = some ⟨w, a⟩) (hr : payload rhs = some ⟨w, b⟩) (p : Parser) :
    FoldAgrees e opcode lhs rhs p ↔ WidthHidden opcode a b := by
  have hli : lhs.isInteger = true := by rw [← payload_isSome, hl]; rfl
  have hri : rhs.isInteger = true := by rw [← payload_isSome, hr]; rfl
  have houtcome := foldIntegers_executes hop lhs.asInteger rhs.asInteger p
  obtain ⟨value, hvalue, hrun⟩ := emitBinaryOp_integers (e := e) hop hl hr
  rcases houtcome with ⟨hrefused, hfold⟩ | ⟨hrefused, l, word, q, hfold, hword, hexec⟩
  · constructor
    · intro _
      rw [payload_asInteger hl, payload_asInteger hr] at hrefused
      have hc : comparison opcode = none := by
        rcases hrefused.1 with rfl | rfl <;> rfl
      unfold WidthHidden
      rw [hc]
      exact Or.inr hrefused
    · intro _ folded q h
      exact absurd h (calcStatic_refused hop hli hri hfold)
  · obtain ⟨q', hrunfold⟩ := calcStatic_folded hop hli hri hword hfold
    rw [payload_asInteger hl, payload_asInteger hr] at hrefused hexec
    rw [← execute_widthHidden hop hrefused hexec, ← hrun]
    constructor
    · intro h
      obtain ⟨value', word', hvalue', hrun', hconst⟩ := h l q' hrunfold
      rw [hvalue] at hvalue'
      rw [run_resultWord hword] at hconst
      cases hvalue'
      cases hconst
      exact hrun'
    · intro h folded q'' hfolded
      rw [hrunfold] at hfolded
      cases hfolded
      exact ⟨value, word, hvalue, h, run_resultWord hword⟩

/-! ## A backend that folds constants -/

inductive Constant where
  | integer (word : Option Word)
  | float (bits : BitVec 32)
  | double (bits : BitVec 64)
  | pointer

def Constant.run : Constant → Option Word
  | .integer word => word
  | _ => none

def Constant.typeKind : Constant → TypeKind
  | .integer _ => .integer
  | .float _ => .float
  | .double _ => .double
  | .pointer => .pointer

/-- Two words of one width. -/
def onWords (f : {w : Nat} → BitVec w → BitVec w → Option Word) : Option Word → Option Word → Option Word
  | some ⟨w, a⟩, some ⟨v, b⟩ => if h : v = w then f a (h ▸ b) else none
  | _, _ => none

def constantFolder : Llvm where
  Value := Constant
  constInt width n _ := .integer (some ⟨width, n.truncate width⟩)
  constFloat := .float
  constDouble := .double
  constNullPointer := .pointer
  constNullByte := .integer (some ⟨8, 0⟩)
  buildGlobalStringPtr _ := .pointer
  build instruction lhs rhs := .integer (onWords instruction.execute lhs.run rhs.run)
  typeKind := Constant.typeKind
  run := Constant.run
  run_constInt _ _ _ _ := rfl
  typeKind_constInt _ _ _ := rfl
  run_build instruction lhs rhs w a b hl hr := by
    show onWords instruction.execute lhs.run rhs.run = _
    rw [hl, hr]
    simp [onWords]

def constantEmitter : Emitter := ⟨constantFolder, fun _ => .pointer, fun _ _ => .pointer⟩

/-- `100i8 + 100i8` is folded into the 32-bit 200, and adds to the 8-bit -56. -/
theorem fold_disagrees_int8 :
    ¬ FoldAgrees constantEmitter .addition (.int8 100) (.int8 100) (initParser (tokensOf [.semicolon])) := by
  intro h
  obtain ⟨value, word, hvalue, hrun, hconst⟩ := h (.integer 200) _ rfl
  cases hvalue
  cases hconst
  revert hrun
  decide

/-- `1u8 < 2u8` does not see the width. -/
theorem fold_agrees_iff_uint8 :
    FoldAgrees constantEmitter .compareLess (.uint8 1) (.uint8 2) (initParser (tokensOf [.semicolon])) ↔
      WidthHidden .compareLess (1 : BitVec 8) 2 :=
  fold_agrees_iff constantEmitter rfl rfl rfl _

end Xvr.Backend
