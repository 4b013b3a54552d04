/-
  Xvr.Frontend.Arithmetic — arithmetic expressions, as their tokens stand.

  An `Expr` is any sequence of integer literals, `+ - * / %`, unary minus and
  parentheses: a primary and what follows it, or a minus and everything behind it.
  `terms` is the value of the first term and of what follows it, when every level groups
  to the right and a minus takes all that follows. `evalNode` is the value of a tree.

  Proved:
  - `leftover_terms`: what is left behind the first term's factors is worth the rest.
-/

import Xvr.Frontend.ParserRuns

namespace Xvr.Frontend.Parse

open Xvr.Runtime Xvr.Lib

/-! ## Arithmetic -/

inductive ArithOp where
  | add | sub | mul | div | mod
  deriving DecidableEq, Repr

namespace ArithOp

def tokenType : ArithOp → TokenType
  | .add => .plus
  | .sub => .minus
  | .mul => .multiply
  | .div => .divide
  | .mod => .modulo

def opcode : ArithOp → Opcode
  | .add => .addition
  | .sub => .subtraction
  | .mul => .multiplication
  | .div => .division
  | .mod => .modulo

def level : ArithOp → PrecedenceRule
  | .add | .sub => .term
  | .mul | .div | .mod => .factor

/-- On integers: nothing behind a zero divisor or outside 32 bits. -/
def onInt (op : ArithOp) (a b : Int) : Option Int :=
  let value :=
    match op with
    | .add => some (a + b)
    | .sub => some (a - b)
    | .mul => some (a * b)
    | .div => if b = 0 then none else some (a.tdiv b)
    | .mod => if b = 0 then none else some (a.tmod b)
  value.filter fun v => -2 ^ 31 ≤ v && v < 2 ^ 31

/-- On 32-bit words: nothing behind a zero divisor. -/
def onWord (op : ArithOp) (a b : BitVec 32) : Option (BitVec 32) :=
  match op with
  | .add => some (a + b)
  | .sub => some (a - b)
  | .mul => some (a * b)
  | .div => if b = 0 then none else some (a.sdiv b)
  | .mod => if b = 0 then none else some (a.srem b)

end ArithOp

/-- The operator an opcode stands for. -/
def arithOp : Opcode → Option ArithOp
  | .addition => some .add
  | .subtraction => some .sub
  | .multiplication => some .mul
  | .division => some .div
  | .modulo => some .mod
  | _ => none

@[simp] theorem arithOp_opcode (op : ArithOp) : arithOp op.opcode = some op := by cases op <;> rfl

/-- The 32-bit value of an integer expression's tree. -/
def evalNode : Node → Option (BitVec 32)
  | .literal (.integer v) => some v
  | .grouping child => evalNode child
  | .unary .negate child => (evalNode child).map Neg.neg
  | .binary opcode left right => do (← arithOp opcode).onWord (← evalNode left) (← evalNode right)
  | _ => none

theorem evalNode_binary (op : ArithOp) (left right : Node) :
    evalNode (.binary op.opcode left right) = (evalNode left).bind fun a => (evalNode right).bind (op.onWord a) := by
  simp [evalNode]

/-! ## Expressions -/

/-- A plain integer literal whose value fits. -/
structure Operand where
  token : Token
  isInteger : token.type = .literalInteger
  fits : leadingDecimal (removeChar token.lexeme '_') < 2 ^ 31

structure Operator where
  op : ArithOp
  token : Token
  isOperator : token.type = op.tokenType

/-- A token of one type. -/
structure Mark (type : TokenType) where
  token : Token
  isType : token.type = type

mutual

inductive Expr where
  | literal (a : Operand) (rest : Rest)
  | group (left : Mark .parenLeft) (inner : Expr) (right : Mark .parenRight) (rest : Rest)
  | negated (minus : Mark .minus) (operand : Expr)

/-- What follows a primary. -/
inductive Rest where
  | stop
  | link (operator : Operator) (right : Expr)

end

mutual

def Expr.tokens : Expr → List Token
  | .literal a rest => a.token :: rest.tokens
  | .group left inner right rest => left.token :: (inner.tokens ++ right.token :: rest.tokens)
  | .negated minus operand => minus.token :: operand.tokens

def Rest.tokens : Rest → List Token
  | .stop => []
  | .link operator right => operator.token :: right.tokens

end

namespace Operand

def value (a : Operand) : Int := leadingDecimal (removeChar a.token.lexeme '_')

def word (a : Operand) : BitVec 32 := BitVec.ofNat 32 (leadingDecimal (removeChar a.token.lexeme '_'))

def node (a : Operand) : Node := .literal (.integer a.word)

theorem scanned (a : Operand) : scanSigned 32 (removeChar a.token.lexeme '_') = a.word := rfl

theorem word_ne_intMin (a : Operand) : a.word ≠ BitVec.intMin 32 := by
  intro h
  have hn := congrArg BitVec.toNat h
  have := a.fits
  rw [word, BitVec.toNat_ofNat, Nat.mod_eq_of_lt (by omega)] at hn
  simp only [BitVec.toNat_intMin] at hn
  omega

end Operand

/-! ## Values -/

/-- The value of the first term, and the first `+` or `-` with the value of what follows
    it. A value is missing behind a zero divisor. -/
structure Terms where
  first : Option (BitVec 32)
  rest : Option (ArithOp × Option (BitVec 32))

def Terms.value (t : Terms) : Option (BitVec 32) :=
  match t.rest with
  | none => t.first
  | some (op, rest) => t.first.bind fun a => rest.bind (op.onWord a)

mutual

def Expr.terms : Expr → Terms
  | .literal a rest => rest.terms (some a.word)
  | .group _ inner _ rest => rest.terms inner.terms.value
  | .negated _ operand => ⟨operand.terms.value.map Neg.neg, none⟩

/-- Behind a primary of value `x`. -/
def Rest.terms (x : Option (BitVec 32)) : Rest → Terms
  | .stop => ⟨x, none⟩
  | .link operator right =>
    if operator.op.level = .term then ⟨x, some (operator.op, right.terms.value)⟩
    else ⟨x.bind fun a => right.terms.first.bind (operator.op.onWord a), right.terms.rest⟩

end

mutual

/-- What stands behind the factors of the first term. -/
def Expr.leftover : Expr → Rest
  | .literal _ rest => rest.leftover
  | .group _ _ _ rest => rest.leftover
  | .negated _ _ => .stop

def Rest.leftover : Rest → Rest
  | .stop => .stop
  | .link operator right => if operator.op.level = .term then .link operator right else right.leftover

end

mutual

theorem Expr.leftover_terms (x : Option (BitVec 32)) : (e : Expr) → e.leftover.terms x = ⟨x, e.terms.rest⟩
  | .literal a rest => by
    unfold Expr.leftover Expr.terms
    exact rest.leftover_terms x (some a.word)
  | .group _ inner _ rest => by
    unfold Expr.leftover Expr.terms
    exact rest.leftover_terms x inner.terms.value
  | .negated _ operand => by
    unfold Expr.leftover Expr.terms Rest.terms
    rfl

theorem Rest.leftover_terms (x y : Option (BitVec 32)) : (r : Rest) → r.leftover.terms x = ⟨x, (r.terms y).rest⟩
  | .stop => rfl
  | .link operator right => by
    unfold Rest.leftover
    by_cases h : operator.op.level = .term
    · simp only [Rest.terms, h, if_true]
    · rw [if_neg h, right.leftover_terms x]
      simp only [Rest.terms, h, if_false]

end

/-- The operator in front of what is left is a `+` or a `-`. -/
def Rest.AtTerm (r : Rest) : Prop := ∀ operator right, r = .link operator right → operator.op.level = .term

mutual

theorem Expr.leftover_atTerm : (e : Expr) → e.leftover.AtTerm
  | .literal _ rest => rest.leftover_atTerm
  | .group _ _ _ rest => rest.leftover_atTerm
  | .negated _ _ => nofun

theorem Rest.leftover_atTerm : (r : Rest) → r.leftover.AtTerm
  | .stop => nofun
  | .link operator right => by
    unfold Rest.leftover
    by_cases h : operator.op.level = .term
    · rw [if_pos h]
      intro operator' right' heq
      cases heq
      exact h
    · rw [if_neg h]
      exact right.leftover_atTerm

end

end Xvr.Frontend.Parse
