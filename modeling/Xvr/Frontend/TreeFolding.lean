/-
  Xvr.Frontend.TreeFolding — what folding makes of a whole tree of integers.

  An `IntTree` is any tree of plain integer literals under the operators that fold. `eval`
  is its value over the unbounded integers: division truncates, and nothing is behind a
  zero divisor or an operand that is not an integer. `folded` is the tree with every
  subtree that has a value replaced by the value's literal.

  Proved:
  - `foldable_iff`: the operators are exactly the opcodes that fold.
  - `tree_folded`: with no overflow, folding makes `folded` of the tree, and raises exactly
    when a zero divides an integer.
-/

import Xvr.Frontend.ArithmeticFolds

namespace Xvr.Frontend.Parse

open Xvr.Runtime Xvr.Lib

/-! ## Integer trees -/

inductive CompareOp where
  | equal | notEqual | less | lessEqual | greater | greaterEqual
  deriving DecidableEq, Repr

namespace CompareOp

def opcode : CompareOp → Opcode
  | .equal => .compareEqual
  | .notEqual => .compareNotEqual
  | .less => .compareLess
  | .lessEqual => .compareLessEqual
  | .greater => .compareGreater
  | .greaterEqual => .compareGreaterEqual

def onInt : CompareOp → Int → Int → Bool
  | .equal, a, b => a = b
  | .notEqual, a, b => a ≠ b
  | .less, a, b => a < b
  | .lessEqual, a, b => a ≤ b
  | .greater, a, b => b < a
  | .greaterEqual, a, b => b ≤ a

end CompareOp

/-- The operators that fold. -/
inductive FoldOp where
  | arith (op : ArithOp)
  | compare (op : CompareOp)
  deriving DecidableEq, Repr

inductive TreeValue where
  | int (v : Int)
  | bool (b : Bool)
  deriving DecidableEq, Repr

def TreeValue.literal : TreeValue → Literal
  | .int v => .integer (BitVec.ofInt 32 v)
  | .bool b => .boolean b

/-- The exact value, whatever its size. -/
def ArithOp.exact : ArithOp → Int → Int → Option Int
  | .add, a, b => some (a + b)
  | .sub, a, b => some (a - b)
  | .mul, a, b => some (a * b)
  | .div, a, b => if b = 0 then none else some (a.tdiv b)
  | .mod, a, b => if b = 0 then none else some (a.tmod b)

namespace FoldOp

def opcode : FoldOp → Opcode
  | .arith op => op.opcode
  | .compare op => op.opcode

def apply : FoldOp → Int → Int → Option TreeValue
  | .arith op, a, b => (op.exact a b).map .int
  | .compare op, a, b => some (.bool (op.onInt a b))

def divides (op : FoldOp) : Bool := op = .arith .div || op = .arith .mod

end FoldOp

theorem foldable_iff (opcode : Opcode) : foldable opcode = true ↔ ∃ op : FoldOp, op.opcode = opcode := by
  constructor
  · intro h
    cases opcode with
    | addition => exact ⟨.arith .add, rfl⟩
    | subtraction => exact ⟨.arith .sub, rfl⟩
    | multiplication => exact ⟨.arith .mul, rfl⟩
    | division => exact ⟨.arith .div, rfl⟩
    | modulo => exact ⟨.arith .mod, rfl⟩
    | compareEqual => exact ⟨.compare .equal, rfl⟩
    | compareNotEqual => exact ⟨.compare .notEqual, rfl⟩
    | compareLess => exact ⟨.compare .less, rfl⟩
    | compareLessEqual => exact ⟨.compare .lessEqual, rfl⟩
    | compareGreater => exact ⟨.compare .greater, rfl⟩
    | compareGreaterEqual => exact ⟨.compare .greaterEqual, rfl⟩
    | _ => cases h
  · rintro ⟨op, rfl⟩
    rcases op with op | op <;> cases op <;> rfl

inductive IntTree where
  | literal (v : BitVec 32)
  | node (op : FoldOp) (left right : IntTree)
  deriving DecidableEq, Repr

/-- A value of the language's `int`. -/
def InRange (v : Int) : Prop := -2 ^ 31 ≤ v ∧ v < 2 ^ 31

instance (v : Int) : Decidable (InRange v) := inferInstanceAs (Decidable (_ ∧ _))

/-- Two integers to fold. -/
def intOperands : Option TreeValue → Option TreeValue → Option (Int × Int)
  | some (.int a), some (.int b) => some (a, b)
  | _, _ => none

/-- No overflow, and no division or remainder of the smallest integer by -1. -/
def FoldOp.Safe (op : FoldOp) (a b : Int) : Prop :=
  (∀ v, op.apply a b = some (.int v) → InRange v) ∧ ¬ (op.divides = true ∧ a = -2 ^ 31 ∧ b = -1)

namespace IntTree

def toNode : IntTree → Node
  | .literal v => .literal (.integer v)
  | .node op left right => .binary op.opcode left.toNode right.toNode

def eval : IntTree → Option TreeValue
  | .literal v => some (.int v.toInt)
  | .node op left right => (intOperands left.eval right.eval).bind fun o => op.apply o.1 o.2

def folded : IntTree → Node
  | .literal v => .literal (.integer v)
  | .node op left right =>
    match (IntTree.node op left right).eval with
    | some v => .literal v.literal
    | none => .binary op.opcode left.folded right.folded

def Safe : IntTree → Prop
  | .literal _ => True
  | .node op left right => left.Safe ∧ right.Safe ∧ ∀ o, intOperands left.eval right.eval = some o → op.Safe o.1 o.2

/-- Some division or remainder has two integer operands, the right one zero. -/
def DividesByZero : IntTree → Prop
  | .literal _ => False
  | .node op left right => left.DividesByZero ∨ right.DividesByZero ∨
    (op.divides = true ∧ ∃ a, intOperands left.eval right.eval = some (a, 0))

end IntTree

/-! ## Integers as words -/

theorem toInt_inRange (v : BitVec 32) : InRange v.toInt := by
  have := BitVec.le_toInt v
  have := BitVec.toInt_lt (x := v)
  unfold InRange
  omega

theorem toInt_ofInt_inRange {v : Int} (h : InRange v) : (BitVec.ofInt 32 v).toInt = v := by
  unfold InRange at h
  rw [BitVec.toInt_ofInt]
  exact Int.bmod_eq_of_le (by omega) (by omega)

theorem ofInt_inj_inRange {a b : Int} (ha : InRange a) (hb : InRange b) :
    BitVec.ofInt 32 a = BitVec.ofInt 32 b ↔ a = b := by
  rw [← BitVec.toInt_inj, toInt_ofInt_inRange ha, toInt_ofInt_inRange hb]

theorem ofInt_eq_zero {b : Int} (hb : InRange b) : BitVec.ofInt 32 b = 0 ↔ b = 0 :=
  ofInt_inj_inRange hb (show InRange 0 by decide)

theorem ofInt_sub (a b : Int) : BitVec.ofInt 32 (a - b) = BitVec.ofInt 32 a - BitVec.ofInt 32 b := by
  rw [Int.sub_eq_add_neg, BitVec.ofInt_add, BitVec.ofInt_neg, BitVec.sub_eq_add_neg]

theorem ofInt_sdiv {a b : Int} (ha : InRange a) (hb : InRange b) :
    (BitVec.ofInt 32 a).sdiv (BitVec.ofInt 32 b) = BitVec.ofInt 32 (a.tdiv b) := by
  apply BitVec.eq_of_toInt_eq
  rw [BitVec.toInt_sdiv, toInt_ofInt_inRange ha, toInt_ofInt_inRange hb, BitVec.toInt_ofInt]

theorem ofInt_srem {a b : Int} (ha : InRange a) (hb : InRange b) (hv : InRange (a.tmod b)) :
    (BitVec.ofInt 32 a).srem (BitVec.ofInt 32 b) = BitVec.ofInt 32 (a.tmod b) := by
  apply BitVec.eq_of_toInt_eq
  rw [BitVec.toInt_srem, toInt_ofInt_inRange hv, toInt_ofInt_inRange ha, toInt_ofInt_inRange hb]

theorem quotientFits_ofInt {a b : Int} (ha : InRange a) (hb : InRange b) (h : ¬ (a = -2 ^ 31 ∧ b = -1)) :
    quotientFits (BitVec.ofInt 32 a) (BitVec.ofInt 32 b) = true := by
  have hmin : BitVec.ofInt 32 a = BitVec.ofInt 32 (-2 ^ 31) ↔ a = -2 ^ 31 := ofInt_inj_inRange ha (by decide)
  have hone : BitVec.ofInt 32 b = BitVec.ofInt 32 (-1) ↔ b = -1 := ofInt_inj_inRange hb (by decide)
  rw [← hmin, ← hone] at h
  cases hq : quotientFits (BitVec.ofInt 32 a) (BitVec.ofInt 32 b) with
  | true => rfl
  | false =>
    rw [quotientFits, Bool.not_eq_false', Bool.and_eq_true, beq_iff_eq, beq_iff_eq] at hq
    exact absurd hq h

/-! ## One fold -/

theorem FoldOp.apply_div (a b : Int) :
    FoldOp.apply (.arith .div) a b = if b = 0 then none else some (.int (a.tdiv b)) := by
  show (if b = 0 then none else some (a.tdiv b)).map TreeValue.int = _
  split <;> rfl

theorem FoldOp.apply_mod (a b : Int) :
    FoldOp.apply (.arith .mod) a b = if b = 0 then none else some (.int (a.tmod b)) := by
  show (if b = 0 then none else some (a.tmod b)).map TreeValue.int = _
  split <;> rfl

/-- What a fold does to the error flags: a zero divisor raises, unless the parser panics. -/
structure Reported (zero : Prop) (p q : Parser) : Prop where
  panic : q.panic = true ↔ p.panic = true ∨ zero
  error : q.error = true ↔ p.error = true ∨ (¬ p.panic = true ∧ zero)

theorem Reported.refl (p : Parser) : Reported False p p := ⟨by simp, by simp⟩

theorem Reported.trans {zero zero' : Prop} {p q r : Parser} (h : Reported zero p q) (h' : Reported zero' q r) :
    Reported (zero ∨ zero') p r := by
  constructor
  · rw [h'.panic, h.panic, or_assoc]
  · rw [h'.error, h.error, h.panic]
    tauto

theorem Reported.congr {zero zero' : Prop} {p q : Parser} (h : Reported zero p q) (hz : zero ↔ zero') :
    Reported zero' p q := by rwa [← propext hz]

theorem Reported.accessed {zero : Prop} {a : Access} {p q : Parser} (h : Reported zero p q) :
    Reported zero p (accessed a q) := ⟨h.panic, h.error⟩

theorem Reported.raised (token : Token) (message : String) (p : Parser) : Reported True p (raise token message p) := by
  constructor
  · simp [raise_panic]
  · unfold raise
    cases hp : p.panic <;> simp

/-- What folding two integers answers: the value's literal, or a refusal with an error. -/
def FoldsTo (op : FoldOp) (a b : Int) (p : Parser) : Prop :=
  ∃ q, foldIntegers op.opcode (BitVec.ofInt 32 a) (BitVec.ofInt 32 b) p =
      .ok ((op.apply a b).map TreeValue.literal) q ∧ Reported (op.divides = true ∧ b = 0) p q

/-- A division is refused by its divisor, or goes through. -/
theorem foldsTo_division {op : FoldOp} {a b v : Int} {w : BitVec 32} {message : String} (hd : op.divides = true)
    (ha : InRange a) (hb : InRange b) (hsafe : op.Safe a b)
    (happly : op.apply a b = if b = 0 then none else some (.int v)) (hw : b ≠ 0 → w = BitVec.ofInt 32 v)
    (hfold : foldIntegers op.opcode (BitVec.ofInt 32 a) (BitVec.ofInt 32 b) =
      if BitVec.ofInt 32 b = 0 then foldError message else do
        access (.divide (BitVec.ofInt 32 a) (BitVec.ofInt 32 b))
        pure (some (.integer w))) (p : Parser) : FoldsTo op a b p := by
  unfold FoldsTo
  rw [hfold, happly]
  by_cases hb0 : b = 0
  · rw [if_pos ((ofInt_eq_zero hb).mpr hb0), if_pos hb0]
    exact ⟨_, rfl, (Reported.raised p.previous message p).congr (by simp [hd, hb0])⟩
  · have hdef : (Access.divide (BitVec.ofInt 32 a) (BitVec.ofInt 32 b)).defined = true :=
      quotientFits_ofInt ha hb fun h => hsafe.2 ⟨hd, h⟩
    rw [if_neg (mt (ofInt_eq_zero hb).mp hb0), if_neg hb0, bind_ok (access_defined hdef), hw hb0]
    exact ⟨_, rfl, (Reported.refl p).accessed.congr (by simp [hb0])⟩

theorem foldsTo_pure {op : FoldOp} {a b : Int} {v : TreeValue} {l : Literal} (hd : op.divides = false)
    (happly : op.apply a b = some v) (hl : l = v.literal)
    (hfold : foldIntegers op.opcode (BitVec.ofInt 32 a) (BitVec.ofInt 32 b) = pure (some l)) (p : Parser) :
    FoldsTo op a b p := by
  unfold FoldsTo
  rw [hfold, happly, hl]
  exact ⟨p, rfl, (Reported.refl p).congr (by simp [hd])⟩

theorem foldIntegers_compare (op : CompareOp) (a b : BitVec 32) :
    foldIntegers op.opcode a b = pure (some (.boolean (op.onInt a.toInt b.toInt))) := by
  have heq : (a == b) = decide (a.toInt = b.toInt) := by
    rw [← decide_eq_decide.mpr (BitVec.toInt_inj (x := a) (y := b)).symm]
    rfl
  cases op with
  | equal => exact congrArg (fun c => pure (some (Literal.boolean c))) heq
  | notEqual => exact congrArg (fun c => pure (some (Literal.boolean c))) (by simp [bne, heq, CompareOp.onInt])
  | less | lessEqual | greater | greaterEqual =>
    simp [CompareOp.opcode, foldIntegers, CompareOp.onInt, BitVec.slt_eq_decide, BitVec.sle_eq_decide]

theorem foldsTo_compare (op : CompareOp) {a b : Int} (ha : InRange a) (hb : InRange b) (p : Parser) :
    FoldsTo (.compare op) a b p := by
  have hfold := foldIntegers_compare op (BitVec.ofInt 32 a) (BitVec.ofInt 32 b)
  rw [toInt_ofInt_inRange ha, toInt_ofInt_inRange hb] at hfold
  exact @foldsTo_pure (.compare op) a b _ (.boolean (op.onInt a b)) rfl rfl rfl hfold p

theorem foldsTo (op : FoldOp) {a b : Int} (ha : InRange a) (hb : InRange b) (hsafe : op.Safe a b) (p : Parser) :
    FoldsTo op a b p := by
  rcases op with op | op
  · cases op with
    | add => exact foldsTo_pure rfl rfl (congrArg Literal.integer (BitVec.ofInt_add a b).symm) rfl p
    | sub => exact foldsTo_pure rfl rfl (congrArg Literal.integer (ofInt_sub a b).symm) rfl p
    | mul => exact foldsTo_pure rfl rfl (congrArg Literal.integer (BitVec.ofInt_mul a b).symm) rfl p
    | div => exact foldsTo_division rfl ha hb hsafe (FoldOp.apply_div a b) (fun _ => ofInt_sdiv ha hb) rfl p
    | mod =>
      refine foldsTo_division rfl ha hb hsafe (FoldOp.apply_mod a b) (fun hb0 => ?_) rfl p
      have hv := FoldOp.apply_mod a b
      rw [if_neg hb0] at hv
      exact ofInt_srem ha hb (hsafe.1 _ hv)
  · exact foldsTo_compare op ha hb p

theorem foldLiterals_ints (op : FoldOp) (a b : BitVec 32) :
    foldLiterals op.opcode (.integer a) (.integer b) = foldIntegers op.opcode a b := by
  have h : foldLiterals op.opcode (.integer a) (.integer b) =
      foldIntegers op.opcode (Literal.integer a).asInteger (Literal.integer b).asInteger := by
    rcases op with op | op <;> cases op <;> rfl
  rw [h, asInteger_integer, asInteger_integer]

/-- Beside a boolean nothing is folded. -/
theorem foldLiterals_mixed (op : FoldOp) {x y : TreeValue} (h : intOperands (some x) (some y) = none) :
    foldLiterals op.opcode x.literal y.literal = pure (some .null) := by
  cases x with
  | int a =>
    cases y with
    | int b => cases h
    | bool b => rcases op with op | op <;> cases op <;> rfl
  | bool a => cases y <;> rcases op with op | op <;> cases op <;> rfl

/-! ## Whole trees -/

namespace IntTree

theorem folded_some {t : IntTree} {v : TreeValue} (h : t.eval = some v) : t.folded = .literal v.literal := by
  cases t with
  | literal w =>
    cases h
    show _ = Node.literal (.integer (BitVec.ofInt 32 w.toInt))
    rw [BitVec.ofInt_toInt]
    rfl
  | node op left right =>
    unfold folded
    rw [h]

theorem folded_none {op : FoldOp} {left right : IntTree} (h : (IntTree.node op left right).eval = none) :
    (IntTree.node op left right).folded = .binary op.opcode left.folded right.folded := by
  rw [folded, h]

theorem folded_notLiteral {t : IntTree} (h : t.eval = none) (l : Literal) : t.folded ≠ .literal l := by
  cases t with
  | literal w => cases h
  | node op left right =>
    rw [folded_none h]
    nofun

theorem operands_some {left right : Option TreeValue} {a b : Int} (h : intOperands left right = some (a, b)) :
    left = some (.int a) ∧ right = some (.int b) := by
  unfold intOperands at h
  split at h
  · cases h
    exact ⟨rfl, rfl⟩
  · cases h

theorem eval_inRange {t : IntTree} {v : Int} (hs : t.Safe) (h : t.eval = some (.int v)) : InRange v := by
  cases t with
  | literal w =>
    cases h
    exact toInt_inRange w
  | node op left right =>
    obtain ⟨o, ho, hv⟩ := Option.bind_eq_some_iff.mp h
    exact (hs.2.2 o ho).1 v hv

end IntTree

theorem foldNode_null {opcode : Opcode} {lhs rhs : Literal} (h : foldLiterals opcode lhs rhs = pure (some .null)) (p : Parser) :
    foldNode opcode (.literal lhs) (.literal rhs) p = .ok (true, .binary opcode (.literal lhs) (.literal rhs)) p := by
  have hrun : foldLiterals opcode lhs rhs p = .ok (some .null) p := by rw [h]; rfl
  exact bind_ok hrun

/-- Without two integers, folding leaves the node. -/
theorem foldNode_notInts (op : FoldOp) {left right : IntTree} (h : intOperands left.eval right.eval = none) (p : Parser) :
    foldNode op.opcode left.folded right.folded p = .ok (true, .binary op.opcode left.folded right.folded) p := by
  cases hl : left.eval with
  | none => exact foldNode_kept (Or.inl (IntTree.folded_notLiteral hl)) p
  | some x =>
    cases hr : right.eval with
    | none => exact foldNode_kept (Or.inr (IntTree.folded_notLiteral hr)) p
    | some y =>
      rw [IntTree.folded_some hl, IntTree.folded_some hr]
      rw [hl, hr] at h
      exact foldNode_null (foldLiterals_mixed op h) p

/-- What the evaluation of a node leaves, once its children are folded. -/
theorem foldNode_folds (op : FoldOp) {left right : IntTree} (hs : (IntTree.node op left right).Safe) (p : Parser) :
    ∃ ok q, foldNode op.opcode left.folded right.folded p = .ok (ok, (IntTree.node op left right).folded) q ∧
      Reported (op.divides = true ∧ ∃ a, intOperands left.eval right.eval = some (a, 0)) p q := by
  cases hops : intOperands left.eval right.eval with
  | none =>
    have heval : (IntTree.node op left right).eval = none := by rw [IntTree.eval, hops]; rfl
    rw [IntTree.folded_none heval]
    exact ⟨true, p, foldNode_notInts op hops p, (Reported.refl p).congr (by simp)⟩
  | some o =>
    obtain ⟨a, b⟩ := o
    obtain ⟨hl, hr⟩ := IntTree.operands_some hops
    have heval : (IntTree.node op left right).eval = op.apply a b := by rw [IntTree.eval, hops]; rfl
    have ha := IntTree.eval_inRange hs.1 hl
    have hb := IntTree.eval_inRange hs.2.1 hr
    obtain ⟨q, hrun, hq⟩ := foldsTo op ha hb (hs.2.2 _ hops) p
    rw [← foldLiterals_ints] at hrun
    have hzero : (op.divides = true ∧ b = 0) ↔ (op.divides = true ∧ ∃ c, some (a, b) = some (c, 0)) := by simp
    cases hv : op.apply a b with
    | none =>
      rw [hv] at hrun heval
      rw [IntTree.folded_none heval, IntTree.folded_some hl, IntTree.folded_some hr]
      exact ⟨false, q, foldNode_refused hrun, hq.congr hzero⟩
    | some v =>
      rw [hv] at hrun heval
      rw [IntTree.folded_some heval, IntTree.folded_some hl, IntTree.folded_some hr]
      have hnull : v.literal.isNull = false := by cases v <;> rfl
      exact ⟨true, _, foldNode_folded hnull hrun, hq.accessed.accessed.congr hzero⟩

theorem toNode_isNode (t : IntTree) : t.toNode.isNode = true := by cases t <;> rfl

/-- A child is folded before its parent, and its answer is dropped. -/
def ChildFolds (t : IntTree) : Prop :=
  ∀ p, ∃ q, (if t.toNode.isBinary then do pure (← calcStaticBinaryArithmetic t.toNode).2 else pure t.toNode : P Node) p =
    .ok t.folded q ∧ Reported t.DividesByZero p q

/-- A node is evaluated behind its children. -/
theorem node_reported (op : FoldOp) {left right : IntTree} (hl : ChildFolds left) (hr : ChildFolds right)
    (hs : (IntTree.node op left right).Safe) (p : Parser) :
    ∃ ok q, calcStaticBinaryArithmetic (IntTree.node op left right).toNode p =
      .ok (ok, (IntTree.node op left right).folded) q ∧ Reported (IntTree.node op left right).DividesByZero p q := by
  obtain ⟨q₁, hrun₁, hq₁⟩ := hl p
  obtain ⟨q₂, hrun₂, hq₂⟩ := hr q₁
  obtain ⟨ok, q₃, hrun₃, hq₃⟩ := foldNode_folds op hs q₂
  have hchildren := calcStatic_children ((foldable_iff _).mpr ⟨op, rfl⟩) (toNode_isNode left) (toNode_isNode right) hrun₁ hrun₂
  exact ⟨ok, q₃, hchildren.trans hrun₃, hq₁.trans (hq₂.trans hq₃)⟩

theorem child_folds (t : IntTree) (hs : t.Safe) : ChildFolds t := by
  intro p
  induction t generalizing p with
  | literal v => exact ⟨p, rfl, Reported.refl p⟩
  | node op left right ihl ihr =>
    obtain ⟨ok, q, hrun, hq⟩ := node_reported op (ihl hs.1) (ihr hs.2.1) hs p
    exact ⟨q, bind_ok hrun, hq⟩

/-- Folding a tree of integers is evaluating it. -/
theorem tree_folded (op : FoldOp) (left right : IntTree) (p : Parser) (hp : p.panic = false)
    (hs : (IntTree.node op left right).Safe) :
    ∃ ok q, calcStaticBinaryArithmetic (IntTree.node op left right).toNode p =
        .ok (ok, (IntTree.node op left right).folded) q ∧
      (q.error = true ↔ p.error = true ∨ (IntTree.node op left right).DividesByZero) := by
  obtain ⟨ok, q, hrun, hq⟩ := node_reported op (child_folds left hs.1) (child_folds right hs.2.1) hs p
  refine ⟨ok, q, hrun, ?_⟩
  rw [hq.error]
  simp [hp]

/-- `7 / 2 * 3 < 9 == 5 % 0`, grouped from the left. -/
def mixedTree : IntTree :=
  .node (.compare .equal)
    (.node (.compare .less) (.node (.arith .mul) (.node (.arith .div) (.literal 7) (.literal 2)) (.literal 3)) (.literal 9))
    (.node (.arith .mod) (.literal 5) (.literal 0))

theorem mixedTree_safe : mixedTree.Safe := by
  simp [mixedTree, IntTree.Safe, IntTree.eval, intOperands, FoldOp.Safe, FoldOp.apply, FoldOp.divides, ArithOp.exact,
    CompareOp.onInt, InRange]

/-- The remainder stays and raises; the comparison beside it is folded. -/
theorem tree_folded_mixed :
    ∃ ok q, calcStaticBinaryArithmetic mixedTree.toNode (initParser (tokensOf [])) =
        .ok (ok, .binary .compareEqual (.literal (.boolean false))
          (.binary .modulo (.literal (.integer 5)) (.literal (.integer 0)))) q ∧
      (q.error = true ↔ false = true ∨ mixedTree.DividesByZero) :=
  tree_folded (.compare .equal) _ _ _ rfl mixedTree_safe

end Xvr.Frontend.Parse
