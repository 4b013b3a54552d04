/-
  Xvr.Frontend.Grouping — what an operator of the chain belongs to.

  `binary` parses its right side at the operator's own level, so a chain of one level is
  grouped to the right. Over `+` and `-` this flips the sign of every operand with an odd
  number of `-` before its own operator (`flipped`).

  Proved:
  - `leftGrouped_iff`: the parser's answer has the value of the left grouping exactly when
    the flipped operands sum to a multiple of 2^31, or, for `*`, `/` and `%`, when the two
    groupings have one value.
  - `subtractions_grouped_right`: `1 - 2 - 3` is 2.
-/

import Xvr.Frontend.ArithmeticRuns

namespace Xvr.Frontend.Parse

open Xvr.Runtime Xvr.Lib

/-! ## Chains -/

/-- Operators with plain integer literals. -/
abbrev Chain := List (Operator × Operand)

def chainRest : Chain → Rest
  | [] => .stop
  | (operator, b) :: chain => .link operator (.literal b (chainRest chain))

def chainExpr (a : Operand) (chain : Chain) : Expr := .literal a (chainRest chain)

/-- `((a op b) op c) …` on integers. -/
def leftGrouped (a : Int) (chain : Chain) : Option Int :=
  chain.foldlM (fun value link => link.1.op.onInt value link.2.value) a

/-- `a op (b op (c …))` on words. -/
def rightGrouped (a : BitVec 32) : Chain → Option (BitVec 32)
  | [] => some a
  | (operator, b) :: chain => (rightGrouped b.word chain).bind (operator.op.onWord a)

abbrev OneLevel (level : PrecedenceRule) (chain : Chain) : Prop := ∀ link ∈ chain, link.1.op.level = level

theorem OneLevel.tail {level : PrecedenceRule} {link : Operator × Operand} {chain : Chain} (h : OneLevel level (link :: chain)) :
    OneLevel level chain := fun l hl => h l (List.mem_cons_of_mem _ hl)

theorem factors_terms (chain : Chain) :
    ∀ a : BitVec 32, OneLevel .factor chain → (chainRest chain).terms (some a) = ⟨rightGrouped a chain, none⟩ := by
  induction chain with
  | nil => intro a _; rfl
  | cons link chain ih =>
    intro a hlevel
    obtain ⟨operator, b⟩ := link
    have hop : ¬ operator.op.level = .term := by rw [hlevel _ (List.mem_cons_self ..)]; nofun
    unfold chainRest Rest.terms
    rw [if_neg hop]
    unfold Expr.terms
    rw [ih b.word hlevel.tail]
    rfl

theorem sum_value (chain : Chain) :
    ∀ a : BitVec 32, OneLevel .term chain → ((chainRest chain).terms (some a)).value = rightGrouped a chain := by
  induction chain with
  | nil => intro a _; rfl
  | cons link chain ih =>
    intro a hlevel
    obtain ⟨operator, b⟩ := link
    unfold chainRest Rest.terms
    rw [if_pos (hlevel _ (List.mem_cons_self ..))]
    show ((chainRest chain).terms (some b.word)).value.bind (operator.op.onWord a) = _
    rw [ih b.word hlevel.tail]
    rfl

/-- A chain of one level is grouped to the right. -/
theorem chain_value {level : PrecedenceRule} {chain : Chain} (a : Operand) (hlevel : OneLevel level chain) :
    (chainExpr a chain).terms.value = rightGrouped a.word chain := by
  unfold chainExpr Expr.terms
  cases chain with
  | nil => rfl
  | cons link chain =>
    have hop := hlevel link (List.mem_cons_self ..)
    rcases link.1.op.level_cases with h | h
    · exact sum_value _ _ ((hop.symm.trans h) ▸ hlevel)
    · rw [factors_terms _ _ ((hop.symm.trans h) ▸ hlevel)]
      rfl

/-! ## Sums -/

/-- The sign an operator gives what follows it. -/
def ArithOp.sign : ArithOp → Int
  | .sub => -1
  | _ => 1

/-- What a chain of `+` and `-` adds to its first operand. -/
def leftSum : Chain → Int
  | [] => 0
  | (operator, b) :: chain => operator.op.sign * b.value + leftSum chain

/-- The same, grouped to the right. -/
def rightSum : Chain → Int
  | [] => 0
  | (operator, b) :: chain => operator.op.sign * (b.value + rightSum chain)

/-- The signed sum of the operands with an odd number of `-` before their own operator:
    `odd` says whether those before the chain are. -/
def flipped (odd : Bool) : Chain → Int
  | [] => 0
  | (operator, b) :: chain =>
    (if odd then operator.op.sign * b.value else 0) + flipped (odd != (operator.op == .sub)) chain

theorem leftSum_eq (chain : Chain) :
    ∀ odd : Bool, leftSum chain = (if odd then -rightSum chain else rightSum chain) + 2 * flipped odd chain := by
  induction chain with
  | nil => simp [leftSum, rightSum, flipped]
  | cons link chain ih =>
    intro odd
    obtain ⟨operator, b⟩ := link
    have h := ih (odd != (operator.op == .sub))
    cases hop : operator.op <;> cases odd <;> simp_all [leftSum, rightSum, flipped, ArithOp.sign] <;> omega

theorem onInt_term {op : ArithOp} {a b v : Int} (hop : op.level = .term) (h : op.onInt a b = some v) :
    v = a + op.sign * b := by
  obtain ⟨hval, -⟩ := Option.filter_eq_some_iff.mp h
  cases op with
  | add | sub =>
    have := Option.some.inj hval
    simp only [ArithOp.sign]
    omega
  | mul | div | mod => cases hop

theorem onWord_term {op : ArithOp} (hop : op.level = .term) (a b : Int) :
    op.onWord (BitVec.ofInt 32 a) (BitVec.ofInt 32 b) = some (BitVec.ofInt 32 (a + op.sign * b)) := by
  cases op <;> simp_all [ArithOp.level, ArithOp.onWord, ArithOp.sign, BitVec.ofInt_add, BitVec.ofInt_neg, BitVec.sub_eq_add_neg]

theorem Operand.word_eq (a : Operand) : a.word = BitVec.ofInt 32 a.value := (BitVec.ofInt_natCast 32 _).symm

theorem leftGrouped_term (chain : Chain) :
    ∀ a v : Int, OneLevel .term chain → leftGrouped a chain = some v → v = a + leftSum chain := by
  induction chain with
  | nil =>
    intro a v _ h
    simp [leftGrouped, leftSum] at h ⊢
    exact h.symm
  | cons link chain ih =>
    intro a v hlevel h
    obtain ⟨operator, b⟩ := link
    unfold leftGrouped at h
    rw [List.foldlM_cons] at h
    obtain ⟨w, hw, hrest⟩ := Option.bind_eq_some_iff.mp h
    have hop : w = a + operator.op.sign * b.value := onInt_term (hlevel _ (List.mem_cons_self ..)) hw
    have hv := ih w v (fun l hl => hlevel l (List.mem_cons_of_mem _ hl)) hrest
    simp only [leftSum]
    omega

theorem rightGrouped_term (chain : Chain) :
    ∀ a : Int, OneLevel .term chain → rightGrouped (BitVec.ofInt 32 a) chain = some (BitVec.ofInt 32 (a + rightSum chain)) := by
  induction chain with
  | nil =>
    intro a _
    simp [rightGrouped, rightSum]
  | cons link chain ih =>
    intro a hlevel
    obtain ⟨operator, b⟩ := link
    unfold rightGrouped
    rw [b.word_eq, ih b.value fun l hl => hlevel l (List.mem_cons_of_mem _ hl)]
    exact onWord_term (hlevel _ (List.mem_cons_self ..)) _ _

theorem ofInt_eq_iff (x y : Int) : BitVec.ofInt 32 x = BitVec.ofInt 32 y ↔ (2 ^ 32 : Int) ∣ y - x := by
  rw [← BitVec.toNat_inj, BitVec.toNat_ofInt, BitVec.toNat_ofInt]
  omega

/-! ## The parser's grouping -/

/-- When the grouping does not show. -/
def GroupsAlike (level : PrecedenceRule) (a : Operand) (chain : Chain) : Prop :=
  if level = .term then (2 ^ 31 : Int) ∣ flipped false chain
  else rightGrouped a.word chain = (leftGrouped a.value chain).map (BitVec.ofInt 32)

instance (level : PrecedenceRule) (a : Operand) (chain : Chain) : Decidable (GroupsAlike level a chain) :=
  inferInstanceAs (Decidable (if level = .term then (2 ^ 31 : Int) ∣ flipped false chain
    else rightGrouped a.word chain = (leftGrouped a.value chain).map (BitVec.ofInt 32)))

theorem groupsAlike_iff {level : PrecedenceRule} {a : Operand} {chain : Chain} {v : Int} (hlevel : OneLevel level chain)
    (hv : leftGrouped a.value chain = some v) :
    GroupsAlike level a chain ↔ rightGrouped a.word chain = some (BitVec.ofInt 32 v) := by
  unfold GroupsAlike
  by_cases ht : level = .term
  · subst ht
    have hleft := leftGrouped_term chain a.value v hlevel hv
    have hsum : leftSum chain = rightSum chain + 2 * flipped false chain := leftSum_eq chain false
    have hright := rightGrouped_term chain a.value hlevel
    rw [if_pos rfl, a.word_eq, hright, Option.some.injEq, ofInt_eq_iff]
    omega
  · rw [if_neg ht, hv]
    rfl

/-- The parser's answer is the chain's value exactly when the grouping does not show. -/
theorem leftGrouped_iff (z : Parser → Node → Bool) {level rule : PrecedenceRule} {a : Operand} {chain : Chain}
    {tail : TokenStream} {p : Parser} {handle : Node} {v : Int} (hlevel : OneLevel level chain) (hrule : rule ≤ .term)
    (hstop : Stops rule tail) (hp : Before p (tail.prepend (chainExpr a chain).tokens))
    (hv : leftGrouped a.value chain = some v) :
    (∃ node q, (recAt z (fuelFor p)).parsePrecedence handle rule p = .ok node q ∧
      evalNode node = some (BitVec.ofInt 32 v)) ↔ GroupsAlike level a chain := by
  obtain ⟨node, q, hrun, hval⟩ := parse_expr z handle hrule hstop hp
  rw [groupsAlike_iff hlevel hv, ← chain_value a hlevel, ← hval]
  constructor
  · rintro ⟨node', q', hrun', hval'⟩
    rw [hrun] at hrun'
    cases hrun'
    exact hval'
  · intro hval'
    exact ⟨node, q, hrun, hval'⟩

/-! ## Short expressions -/

/-- The parser in front of an expression and a semicolon. -/
def parserBefore (e : Expr) : Parser := initParser ((tokensOf [.semicolon]).prepend e.tokens)

/-- The node an expression statement gets. -/
def parsed (e : Expr) : EStateM.Result Stop Parser Node :=
  (recAt neverZero (fuelFor (parserBefore e))).parsePrecedence .null .assignment (parserBefore e)

def parsedValue (e : Expr) : Option (BitVec 32) :=
  match parsed e with
  | .ok node _ => evalNode node
  | .error _ _ => none

theorem parsedValue_ok {e : Expr} {node : Node} {q : Parser} (h : parsed e = .ok node q) : parsedValue e = evalNode node := by
  unfold parsedValue
  rw [h]

theorem semicolon_stops : Stops .assignment (tokensOf [.semicolon]) := by
  unfold Stops
  decide

def one : Operand := ⟨⟨.literalInteger, "1".toList, 1⟩, rfl, by decide⟩
def two : Operand := ⟨⟨.literalInteger, "2".toList, 1⟩, rfl, by decide⟩
def three : Operand := ⟨⟨.literalInteger, "3".toList, 1⟩, rfl, by decide⟩
def plusSign : Operator := ⟨.add, ⟨.plus, "+".toList, 1⟩, rfl⟩
def minusSign : Operator := ⟨.sub, ⟨.minus, "-".toList, 1⟩, rfl⟩
def timesSign : Operator := ⟨.mul, ⟨.multiply, "*".toList, 1⟩, rfl⟩

def minusMark : Mark .minus := ⟨⟨.minus, "-".toList, 1⟩, rfl⟩
def leftMark : Mark .parenLeft := ⟨⟨.parenLeft, "(".toList, 1⟩, rfl⟩
def rightMark : Mark .parenRight := ⟨⟨.parenRight, ")".toList, 1⟩, rfl⟩

/-- `1 - 2 - 3` is 2. -/
theorem subtractions_grouped_right :
    ¬ ∀ v, leftGrouped one.value [(minusSign, two), (minusSign, three)] = some v →
      ∃ node q, parsed (chainExpr one [(minusSign, two), (minusSign, three)]) = .ok node q ∧
        evalNode node = some (BitVec.ofInt 32 v) := by
  intro h
  obtain ⟨node, q, hrun, hval⟩ := h (-4) (by decide)
  have hne : parsedValue (chainExpr one [(minusSign, two), (minusSign, three)]) ≠ some (BitVec.ofInt 32 (-4)) := by decide
  exact hne ((parsedValue_ok hrun).trans hval)

/-- Nothing is flipped in `1 + 2 - 3`. -/
theorem leftGrouped_iff_add_sub :
    (∃ node q, parsed (chainExpr one [(plusSign, two), (minusSign, three)]) = .ok node q ∧
      evalNode node = some (BitVec.ofInt 32 0)) ↔ GroupsAlike .term one [(plusSign, two), (minusSign, three)] :=
  leftGrouped_iff neverZero (by decide) (by decide) semicolon_stops ⟨rfl, rfl⟩ (by decide)

end Xvr.Frontend.Parse
