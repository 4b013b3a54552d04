/-
  Xvr.Frontend.UnaryMinus — how far a minus reaches.

  `unary` parses its operand at TERM, so a minus negates the whole expression behind it,
  and not its first operand. In front of a product that is the same value; in front of a
  sum it also negates what follows the first `+` or `-`.

  Proved:
  - `unary_minus_iff`: `-a …` and `(-a) …` have one value exactly when no `+` or `-`
    follows, or what follows it is its own negative, or there is no value at all.
  - `sum_negated`: `-1 + 1` is -2, and `(-1) + 1` is 0.
-/

import Xvr.Frontend.Grouping

namespace Xvr.Frontend.Parse

open Xvr.Runtime Xvr.Lib

/-! ## Negated values -/

theorem neg_srem {w : Nat} {x : BitVec w} (y : BitVec w) (h : x ≠ BitVec.intMin w) : (-x).srem y = -x.srem y := by
  by_cases hx : x = 0#w
  · subst hx
    simp
  · have hmsb : (-x).msb = !x.msb := by
      rw [BitVec.msb_neg_of_ne_intMin_of_ne_zero h hx]
    unfold BitVec.srem
    rw [hmsb]
    cases x.msb <;> cases y.msb <;> simp

theorem onWord_neg {op : ArithOp} (hop : op.level = .factor) {a : BitVec 32} (ha : a ≠ BitVec.intMin 32) (b : BitVec 32) :
    op.onWord (-a) b = (op.onWord a b).map Neg.neg := by
  cases op with
  | add | sub => cases hop
  | mul => exact congrArg some (BitVec.neg_mul a b)
  | div =>
    show (if b = 0 then none else some ((-a).sdiv b)) = (if b = 0 then none else some (a.sdiv b)).map Neg.neg
    split
    · rfl
    · exact congrArg some (BitVec.neg_sdiv ha)
  | mod =>
    show (if b = 0 then none else some ((-a).srem b)) = (if b = 0 then none else some (a.srem b)).map Neg.neg
    split
    · rfl
    · exact congrArg some (neg_srem b ha)

/-- A negated operand negates the first term, and leaves the rest. -/
theorem terms_neg (r : Rest) {a : BitVec 32} (ha : a ≠ BitVec.intMin 32) :
    r.terms (some (-a)) = ⟨(r.terms (some a)).first.map Neg.neg, (r.terms (some a)).rest⟩ := by
  cases r with
  | stop => rfl
  | link operator right =>
    unfold Rest.terms
    rcases operator.op.level_cases with hop | hop
    · rw [if_pos hop, if_pos hop]
      rfl
    · have hterm : ¬ operator.op.level = .term := by rw [hop]; nofun
      rw [if_neg hterm, if_neg hterm]
      cases right.terms.first with
      | none => rfl
      | some b => exact congrArg (Terms.mk · right.terms.rest) (onWord_neg hop ha b)

/-- What follows the first term stands behind a `+` or a `-`. -/
theorem terms_rest_level {r : Rest} {x rest : Option (BitVec 32)} {op : ArithOp} (h : (r.terms x).rest = some (op, rest)) :
    op.level = .term := by
  have hleft := r.leftover_terms x x
  have hat := r.leftover_atTerm
  rw [h] at hleft
  cases hl : r.leftover with
  | stop => rw [hl] at hleft; cases hleft
  | link operator right =>
    have hop := hat operator right hl
    rw [hl] at hleft
    unfold Rest.terms at hleft
    rw [if_pos hop] at hleft
    cases hleft
    exact hop

theorem neg_sum_iff (x r : BitVec 32) : -(x + r) = -x + r ↔ r + r = 0 := by grind

theorem neg_difference_iff (x r : BitVec 32) : -(x - r) = -x - r ↔ r + r = 0 := by grind

/-- Negating a sum negates its first term alone when the other is its own negative. -/
theorem onWord_neg_iff {op : ArithOp} (hop : op.level = .term) (x r : BitVec 32) :
    (op.onWord x r).map Neg.neg = op.onWord (-x) r ↔ r + r = 0 := by
  cases op with
  | add => exact Option.some_inj.trans (neg_sum_iff x r)
  | sub => exact Option.some_inj.trans (neg_difference_iff x r)
  | mul | div | mod => cases hop

/-- Negating the whole is negating its first term. -/
def NegatesFirst (t : Terms) : Prop :=
  ∀ x op r, t.first = some x → t.rest = some (op, some r) → r + r = 0

theorem negatesFirst_iff (r : Rest) {a : BitVec 32} (ha : a ≠ BitVec.intMin 32) :
    (r.terms (some a)).value.map Neg.neg = (r.terms (some (-a))).value ↔ NegatesFirst (r.terms (some a)) := by
  rw [terms_neg r ha]
  unfold Terms.value NegatesFirst
  cases hrest : (r.terms (some a)).rest with
  | none => simp
  | some rest =>
    obtain ⟨op, value⟩ := rest
    have hop := terms_rest_level hrest
    cases (r.terms (some a)).first with
    | none => simp
    | some x =>
      cases value with
      | none => simp
      | some y =>
        constructor
        · intro h x' op' r' _ hr'
          cases hr'
          exact (onWord_neg_iff hop x y).mp h
        · intro h
          exact (onWord_neg_iff hop x y).mpr (h x op y rfl rfl)

/-! ## The parser's minus -/

/-- `-a …`, and the same with `(-a)`. -/
def minusExpr (minus : Mark .minus) (a : Operand) (rest : Rest) : Expr := .negated minus (.literal a rest)

def groupedMinusExpr (left : Mark .parenLeft) (minus : Mark .minus) (a : Operand) (right : Mark .parenRight) (rest : Rest) :
    Expr := .group left (minusExpr minus a .stop) right rest

theorem unary_minus_iff (z : Parser → Node → Bool) {rule : PrecedenceRule} {tail : TokenStream} {handle : Node}
    {left : Mark .parenLeft} {minus : Mark .minus} {a : Operand} {right : Mark .parenRight} {rest : Rest} {p₁ p₂ : Parser}
    (hrule : rule ≤ .term) (hstop : Stops rule tail) (h₁ : Before p₁ (tail.prepend (minusExpr minus a rest).tokens))
    (h₂ : Before p₂ (tail.prepend (groupedMinusExpr left minus a right rest).tokens)) :
    ∃ node₁ q₁ node₂ q₂, (recAt z (fuelFor p₁)).parsePrecedence handle rule p₁ = .ok node₁ q₁ ∧
      (recAt z (fuelFor p₂)).parsePrecedence handle rule p₂ = .ok node₂ q₂ ∧
      (evalNode node₁ = evalNode node₂ ↔ NegatesFirst (rest.terms (some a.word))) := by
  obtain ⟨node₁, q₁, hrun₁, hval₁⟩ := parse_expr z handle hrule hstop h₁
  obtain ⟨node₂, q₂, hrun₂, hval₂⟩ := parse_expr z handle hrule hstop h₂
  refine ⟨node₁, q₁, node₂, q₂, hrun₁, hrun₂, ?_⟩
  have hminus : (minusExpr minus a rest).terms.value = (rest.terms (some a.word)).value.map Neg.neg := rfl
  have hgrouped : (groupedMinusExpr left minus a right rest).terms.value = (rest.terms (some (-a.word))).value := rfl
  rw [hval₁, hval₂, hminus, hgrouped]
  exact negatesFirst_iff rest a.word_ne_intMin

/-! ## Short expressions -/

/-- `-1 + 1` is -2, and `(-1) + 1` is 0. -/
theorem sum_negated :
    ¬ ∃ node₁ q₁ node₂ q₂, parsed (minusExpr minusMark one (.link plusSign (.literal one .stop))) = .ok node₁ q₁ ∧
      parsed (groupedMinusExpr leftMark minusMark one rightMark (.link plusSign (.literal one .stop))) = .ok node₂ q₂ ∧
      evalNode node₁ = evalNode node₂ := by
  rintro ⟨node₁, q₁, node₂, q₂, hrun₁, hrun₂, hval⟩
  have hne : parsedValue (minusExpr minusMark one (.link plusSign (.literal one .stop))) ≠
      parsedValue (groupedMinusExpr leftMark minusMark one rightMark (.link plusSign (.literal one .stop))) := by decide
  exact hne (((parsedValue_ok hrun₁).trans hval).trans (parsedValue_ok hrun₂).symm)

/-- Nothing but a product follows in `-2 * 3`. -/
theorem unary_minus_iff_product :
    ∃ node₁ q₁ node₂ q₂, parsed (minusExpr minusMark two (.link timesSign (.literal three .stop))) = .ok node₁ q₁ ∧
      parsed (groupedMinusExpr leftMark minusMark two rightMark (.link timesSign (.literal three .stop))) = .ok node₂ q₂ ∧
      (evalNode node₁ = evalNode node₂ ↔
        NegatesFirst ((Rest.link timesSign (.literal three .stop)).terms (some two.word))) :=
  unary_minus_iff neverZero (by decide) semicolon_stops ⟨rfl, rfl⟩ ⟨rfl, rfl⟩

end Xvr.Frontend.Parse
