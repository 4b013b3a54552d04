/-
  Xvr.Frontend.ArithmeticRuns — the parser on arithmetic expressions.

  A subexpression is read with the parentheses around it still open (`Outer`). Reading
  ends behind it; without a value, a refused fold may have ended it early, at another
  place behind a primary, with at least as many parentheses to close (`ReadTo`).

  Proved:
  - `reads`: `parsePrecedence` and its loop, on every expression at every level; by the
    number of tokens ahead, over what stands next.
  - `parse_expr`: a whole expression gives a node of its value.
-/

import Xvr.Frontend.ArithmeticFolds

namespace Xvr.Frontend.Parse

open Xvr.Runtime Xvr.Lib

/-! ## What a rule reads -/

/-- A rule up to TERM reads every term, FACTOR the first one. -/
def Terms.upto (rule : PrecedenceRule) (t : Terms) : Option (BitVec 32) := if rule ≤ .term then t.value else t.first

def Rest.upto (rule : PrecedenceRule) (r : Rest) : Rest := if rule ≤ .term then .stop else r.leftover

def Expr.upto (rule : PrecedenceRule) (e : Expr) : Rest := if rule ≤ .term then .stop else e.leftover

theorem Expr.upto_atTerm (rule : PrecedenceRule) (e : Expr) : (e.upto rule).AtTerm := by
  unfold Expr.upto
  split
  · nofun
  · exact e.leftover_atTerm

theorem Rest.AtTerm.leftover {r : Rest} (h : r.AtTerm) : r.leftover = r := by
  cases r with
  | stop => rfl
  | link operator right => exact if_pos (h _ _ rfl)

/-- Behind no value there is none. -/
theorem Rest.terms_none (rule : PrecedenceRule) (r : Rest) : (r.terms none).upto rule = none := by
  have hfirst : (r.terms none).first = none := by
    cases r with
    | stop => rfl
    | link operator right =>
      unfold Rest.terms
      split <;> rfl
  unfold Terms.upto Terms.value
  rw [hfirst]
  split
  · split <;> rfl
  · rfl

/-- A place behind a primary where the rule reads nothing more. -/
def Rest.Ended (rule : PrecedenceRule) : Rest → Prop
  | .stop => True
  | .link operator _ => ¬ rule ≤ operator.op.level

theorem ArithOp.level_cases (op : ArithOp) : op.level = .term ∨ op.level = .factor := by
  cases op <;> simp [ArithOp.level]

/-- An operator a FACTOR does not read is a `+` or a `-`. -/
theorem ended_level {rule : PrecedenceRule} {op : ArithOp} (hlow : rule ≤ .factor) (h : ¬ rule ≤ op.level) :
    op.level = .term ∧ ¬ rule ≤ .term := by
  rcases op.level_cases with hop | hop
  · exact ⟨hop, hop ▸ h⟩
  · exact absurd hlow (hop ▸ h)

theorem Rest.Ended.upto {rule : PrecedenceRule} {r : Rest} (hlow : rule ≤ .factor) (h : r.Ended rule) :
    r.upto rule = r := by
  unfold Rest.upto
  cases r with
  | stop => split <;> rfl
  | link operator right =>
    obtain ⟨hop, hrule⟩ := ended_level hlow h
    rw [if_neg hrule]
    exact if_pos hop

theorem Rest.Ended.terms {rule : PrecedenceRule} {r : Rest} (hlow : rule ≤ .factor) (h : r.Ended rule)
    (x : Option (BitVec 32)) : (r.terms x).upto rule = x := by
  unfold Terms.upto
  cases r with
  | stop => split <;> rfl
  | link operator right =>
    obtain ⟨hop, hrule⟩ := ended_level hlow h
    rw [if_neg hrule]
    unfold Rest.terms
    rw [if_pos hop]

/-- Reading on behind an operator's right side is reading the operator. -/
theorem link_upto {rule : PrecedenceRule} {operator : Operator} {right : Expr} (hrule : rule ≤ operator.op.level) :
    (right.upto operator.op.level).upto rule = (Rest.link operator right).upto rule := by
  unfold Rest.upto Expr.upto
  by_cases hr : rule ≤ .term
  · rw [if_pos hr, if_pos hr]
  · rcases operator.op.level_cases with hop | hop
    · exact absurd (hop ▸ hrule) hr
    · rw [if_neg hr, if_neg hr, hop, if_neg (by decide), right.leftover_atTerm.leftover]
      unfold Rest.leftover
      rw [hop, if_neg (by decide)]

theorem link_terms {rule : PrecedenceRule} {operator : Operator} {right : Expr} (left : Option (BitVec 32))
    (hrule : rule ≤ operator.op.level) :
    ((right.upto operator.op.level).terms (operator.op.apply left (right.terms.upto operator.op.level))).upto rule =
      ((Rest.link operator right).terms left).upto rule := by
  rcases operator.op.level_cases with hop | hop
  · have hr : rule ≤ .term := hop ▸ hrule
    rw [hop]
    simp only [Rest.terms, Expr.upto, Terms.upto, Terms.value, hop, if_true, if_pos hr,
      if_pos (show PrecedenceRule.term ≤ PrecedenceRule.term by decide)]
    rfl
  · have hfactor : ¬ PrecedenceRule.factor ≤ PrecedenceRule.term := by decide
    rw [hop]
    simp only [Rest.terms, Expr.upto, Terms.upto, hop, if_neg hfactor, right.leftover_terms, reduceCtorEq, if_false]
    rfl

/-! ## Where reading ends -/

/-- The parentheses still open, innermost first, with what follows each. -/
abbrev Outer := List (Mark .parenRight × Rest)

def outerTokens : Outer → List Token
  | [] => []
  | (right, rest) :: outer => right.token :: (rest.tokens ++ outerTokens outer)

section

variable (z : Parser → Node → Bool) (tail : TokenStream)

/-- From `p` the text up to `rest` was read, or what it is worth is missing. -/
def ReadTo (p : Parser) (rest : Rest) (outer : Outer) (size : Nat) (node : Node) (value : Option (BitVec 32))
    (q : Parser) : Prop :=
  Held node value q ∧ (p.panic = true → q.panic = true) ∧
    ∃ rest' outer', Before q (tail.prepend (rest'.tokens ++ outerTokens outer')) ∧
    outer.length ≤ outer'.length ∧ (rest'.tokens ++ outerTokens outer').length ≤ size ∧
    (value ≠ none → rest' = rest ∧ outer' = outer)

/-- The rule stops inside every parenthesis, and at the tail. -/
structure Ready (rule : PrecedenceRule) (outer : Outer) : Prop where
  low : rule ≤ .factor
  high : ¬ rule ≤ .none
  stops : outer = [] → Stops rule tail

variable {z tail}

theorem Ready.mono {rule : PrecedenceRule} {outer outer' : Outer} (h : Ready tail rule outer)
    (hlen : outer.length ≤ outer'.length) : Ready tail rule outer' :=
  ⟨h.low, h.high, fun hnil => h.stops (List.eq_nil_of_length_eq_zero (by rw [hnil] at hlen; exact Nat.le_zero.mp hlen))⟩

theorem ready_op (hterm : Stops .term tail) (op : ArithOp) (outer : Outer) : Ready tail op.level outer := by
  rcases op.level_cases with hop | hop
  · rw [hop]
    exact ⟨by decide, by decide, fun _ => hterm⟩
  · rw [hop]
    exact ⟨by decide, by decide, fun _ => hterm.mono (by decide)⟩

/-- What ended stops the rule. -/
theorem ended_stops {rule : PrecedenceRule} {r : Rest} {outer : Outer} (h : Ready tail rule outer) (he : r.Ended rule) :
    Stops rule (tail.prepend (r.tokens ++ outerTokens outer)) := by
  cases r with
  | stop =>
    cases outer with
    | nil => exact h.stops rfl
    | cons o outer =>
      show ¬ rule ≤ levelOf o.1.token.type
      rw [o.1.isType]
      exact h.high
  | link operator right =>
    show ¬ rule ≤ levelOf operator.token.type
    rw [operator.isOperator, levelOf_op]
    exact he

variable (z tail) in
/-- `parsePrecedence` reads every expression with at most `m` tokens ahead. -/
def ReadsExpr (m : Nat) : Prop :=
  ∀ (e : Expr) (outer : Outer) (n : Nat) (rule : PrecedenceRule) (handle : Node) (p : Parser),
    (e.tokens ++ outerTokens outer).length ≤ m → (e.tokens ++ outerTokens outer).length + 2 ≤ n →
    Ready tail rule outer → Before p (tail.prepend (e.tokens ++ outerTokens outer)) →
    ∃ node q, (recAt z n).parsePrecedence handle rule p = .ok node q ∧
      ReadTo tail p (e.upto rule) outer (e.tokens ++ outerTokens outer).length node (e.terms.upto rule) q

variable (z tail) in
/-- The loop reads on behind every primary with at most `m` tokens ahead. -/
def ReadsRest (m : Nat) : Prop :=
  ∀ (r : Rest) (outer : Outer) (n k : Nat) (rule : PrecedenceRule) (lhs : Node) (left : Option (BitVec 32)) (p : Parser),
    (r.tokens ++ outerTokens outer).length ≤ m → (r.tokens ++ outerTokens outer).length + 2 ≤ n →
    (r.tokens ++ outerTokens outer).length + 1 ≤ k → Ready tail rule outer →
    Before p (tail.prepend (r.tokens ++ outerTokens outer)) → Held lhs left p →
    (∀ w, lhs = .literal (.integer w) → r.AtTerm ∨ w ≠ BitVec.intMin 32) →
    ∃ node q, (loop .outOfFuel (prattTurn (recAt z n) rule) k lhs >>= endExpression rule) p = .ok node q ∧
      ReadTo tail p (r.upto rule) outer (r.tokens ++ outerTokens outer).length node ((r.terms left).upto rule) q

/-- Reading on from where reading ended. -/
theorem ReadTo.then {m n k size : Nat} {rule : PrecedenceRule} {rest target : Rest} {outer : Outer} {node : Node}
    {value final : Option (BitVec 32)} {p q : Parser} (ih : ReadsRest z tail m) (h : ReadTo tail p rest outer size node value q)
    (hsize : size ≤ m) (hn : size + 2 ≤ n) (hk : size + 1 ≤ k) (hready : Ready tail rule outer)
    (hrest : ∀ w, node = .literal (.integer w) → rest.AtTerm) (htarget : rest.upto rule = target)
    (hfinal : (rest.terms value).upto rule = final) (hnone : value = none → final = none) :
    ∃ node' q', (loop .outOfFuel (prattTurn (recAt z n) rule) k node >>= endExpression rule) q = .ok node' q' ∧
      ReadTo tail p target outer size node' final q' := by
  obtain ⟨hheld, hpanic, rest', outer', hq, hlen, hle, hexact⟩ := h
  have hsafe : ∀ w, node = .literal (.integer w) → rest'.AtTerm ∨ w ≠ BitVec.intMin 32 := by
    rintro w rfl
    obtain ⟨rfl, rfl⟩ := hexact (by rw [hheld.literal]; nofun)
    exact Or.inl (hrest w rfl)
  obtain ⟨node', q', hrun, hheld', hpanic', rest'', outer'', hq', hlen', hle', hexact'⟩ :=
    ih rest' outer' n k rule node value q (Nat.le_trans hle hsize) (by omega) (by omega) (hready.mono hlen) hq hheld hsafe
  have hvalue : (rest'.terms value).upto rule = final := by
    cases value with
    | none => rw [rest'.terms_none rule, hnone rfl]
    | some v =>
      obtain ⟨rfl, rfl⟩ := hexact nofun
      exact hfinal
  refine ⟨node', q', hrun, hvalue ▸ hheld', fun hp => hpanic' (hpanic hp), rest'', outer'', hq',
    Nat.le_trans hlen hlen', Nat.le_trans hle' hle, ?_⟩
  intro hsome
  have hv : value ≠ none := fun hv => hsome (hnone hv)
  obtain ⟨rfl, rfl⟩ := hexact hv
  obtain ⟨rfl, rfl⟩ := hexact' (hvalue ▸ hsome)
  exact ⟨htarget, rfl⟩

/-- The first token is stepped over. -/
theorem ReadTo.behind {size : Nat} {rest : Rest} {outer : Outer} {node : Node} {value : Option (BitVec 32)} {p q : Parser}
    (h : ReadTo tail (advanced p) rest outer size node value q) : ReadTo tail p rest outer size node value q :=
  ⟨h.1, fun hp => h.2.1 ((advanced_step p).panic hp), h.2.2⟩

/-! ## One step of reading -/

/-- Where the rule reads nothing more, the loop ends. -/
theorem ended_reads {r : Rest} {outer : Outer} {n k : Nat} {rule : PrecedenceRule} {lhs : Node}
    {left : Option (BitVec 32)} {p : Parser} (hready : Ready tail rule outer) (he : r.Ended rule)
    (hp : Before p (tail.prepend (r.tokens ++ outerTokens outer))) (hl : Held lhs left p) :
    ∃ node q, (loop .outOfFuel (prattTurn (recAt z n) rule) (k + 1) lhs >>= endExpression rule) p = .ok node q ∧
      ReadTo tail p (r.upto rule) outer (r.tokens ++ outerTokens outer).length node ((r.terms left).upto rule) q := by
  refine ⟨lhs, p, expression_end hp (ended_stops hready he), ?_, id, r, outer, hp, Nat.le_refl _, Nat.le_refl _, ?_⟩
  · rw [he.terms hready.low]
    exact hl
  · intro _
    exact ⟨(he.upto hready.low).symm, rfl⟩

/-- Otherwise the operator's right side is read at its own level, and then what is left. -/
theorem link_reads {m : Nat} (ihe : ReadsExpr z tail m) (ihr : ReadsRest z tail m) (hterm : Stops .term tail)
    {operator : Operator} {right : Expr} {outer : Outer} {n k : Nat} {rule : PrecedenceRule} {lhs : Node}
    {left : Option (BitVec 32)} {p : Parser} (hm : (right.tokens ++ outerTokens outer).length ≤ m)
    (hn : (right.tokens ++ outerTokens outer).length + 2 ≤ n) (hk : (right.tokens ++ outerTokens outer).length + 1 ≤ k)
    (hready : Ready tail rule outer) (hrule : rule ≤ operator.op.level)
    (hp : At p operator.token (tail.prepend (right.tokens ++ outerTokens outer))) (hl : Held lhs left p)
    (hsafe : ∀ w, lhs = .literal (.integer w) → Safe operator.op w) :
    ∃ node q, (loop .outOfFuel (prattTurn (recAt z n) rule) (k + 1) lhs >>= endExpression rule) p = .ok node q ∧
      ReadTo tail p ((Rest.link operator right).upto rule) outer (right.tokens ++ outerTokens outer).length node
        (((Rest.link operator right).terms left).upto rule) q := by
  obtain ⟨rhs, q, hrhs, hheld, hpanic, rest', outer', hq, hlen, hle, hexact⟩ :=
    ihe right outer n operator.op.level .null (advanced p) hm hn (ready_op hterm _ outer) (advanced_before hp)
  have hpq : p.panic = true → q.panic = true := fun h => hpanic ((advanced_step p).panic h)
  have hloop : loop .outOfFuel (prattTurn (recAt z n) rule) (k + 1) lhs p = _ :=
    pratt_binary _ (hp.current ▸ operator.isOperator) hrule hrhs
  obtain ⟨node, q', hq', hheld', hpanic', hturn⟩ := binaryTurn_held operator.op hsafe hq (hl.later hpq) hheld
  have hnone : operator.op.apply left (right.terms.upto operator.op.level) = none →
      ((Rest.link operator right).terms left).upto rule = none := by
    intro h
    rw [← link_terms left hrule, h, Rest.terms_none]
  have hread : ReadTo tail p (right.upto operator.op.level) outer (right.tokens ++ outerTokens outer).length node
      (operator.op.apply left (right.terms.upto operator.op.level)) q' := by
    refine ⟨hheld', fun h => hpanic' (hpq h), rest', outer', hq', hlen, hle, fun hsome => hexact ?_⟩
    intro h
    rw [h] at hsome
    cases left <;> exact hsome rfl
  rcases hturn with hturn | ⟨hturn, hv⟩
  · obtain ⟨node', q'', hrun, hread'⟩ := hread.then ihr hm hn hk hready (fun _ _ => right.upto_atTerm _) (link_upto hrule)
      (link_terms left hrule) hnone
    exact ⟨node', q'', (bind_run (hloop.trans (bind_ok hturn))).trans hrun, hread'⟩
  · -- a refused fold returns at once
    refine ⟨node, q', (bind_run (hloop.trans (bind_ok hturn))).trans rfl, ?_, fun h => hpanic' (hpq h), rest', outer', hq',
      hlen, hle, fun hsome => absurd (hnone hv) hsome⟩
    rw [hnone hv, ← hv]
    exact hheld'

theorem recAt_fuel (n : Nat) : (recAt z n).fuel = n := by cases n <;> rfl

theorem literal_reads (handle : Node) {m : Nat} (ihr : ReadsRest z tail m) {a : Operand} {rest : Rest} {outer : Outer} {n : Nat}
    {rule : PrecedenceRule} {p : Parser} (hm : (rest.tokens ++ outerTokens outer).length ≤ m)
    (hn : (rest.tokens ++ outerTokens outer).length + 2 ≤ n) (hready : Ready tail rule outer)
    (hp : At p a.token (tail.prepend (rest.tokens ++ outerTokens outer))) :
    ∃ node q, parsePrecedence (recAt z n) handle rule p = .ok node q ∧
      ReadTo tail p (rest.upto rule) outer (rest.tokens ++ outerTokens outer).length node
        ((rest.terms (some a.word)).upto rule) q := by
  obtain ⟨node, q, hrun, hread⟩ := ihr rest outer n n rule a.node (some a.word) (advanced p) hm hn (by omega)
    hready (advanced_before hp) (.integer _ _) (fun w hw => Or.inr (Literal.integer.inj (Node.literal.inj hw) ▸ a.word_ne_intMin))
  refine ⟨node, q, (parse_operand hp.current).trans ?_, hread.behind⟩
  rw [recAt_fuel]
  exact hrun

/-- Behind a parenthesised expression its parenthesis is closed, or the next one is. -/
theorem close_reads {p q : Parser} {right : Mark .parenRight} {rest : Rest} {outer : Outer} {size : Nat} {node : Node}
    {value : Option (BitVec 32)} (h : ReadTo tail p .stop ((right, rest) :: outer) size node value q) :
    ∃ q', consume .parenRight "Expected ')' at end of grouping" q = .ok () q' ∧
      ReadTo tail p rest outer size (.grouping node) value q' := by
  obtain ⟨hheld, hpanic, rest', outer', hq, hlen, hle, hexact⟩ := h
  have hnode (q' : Parser) : Held (.grouping node) value q' := .steady (Steady.grouping node) hheld.value
  have hrun : consume .parenRight "Expected ')' at end of grouping" q =
      (if q.current.type ≠ .parenRight then error q.current "Expected ')' at end of grouping" else advance : P Unit) q := rfl
  cases rest' with
  | stop =>
    cases outer' with
    | nil => exact absurd hlen (by simp)
    | cons o outer' =>
      have hat : At q o.1.token (tail.prepend (o.2.tokens ++ outerTokens outer')) := hq
      have hcur : ¬ q.current.type ≠ .parenRight := by rw [hat.current, o.1.isType]; simp
      refine ⟨advanced q, ?_, hnode _, fun hp => (advanced_step q).panic (hpanic hp), o.2, outer', advanced_before hat,
        Nat.le_of_succ_le_succ hlen, ?_, fun hsome => ?_⟩
      · rw [hrun, if_neg hcur]
        exact advance_eq q
      · simp only [Rest.tokens, outerTokens, List.nil_append, List.length_cons] at hle
        omega
      · obtain ⟨-, heq⟩ := hexact hsome
        cases heq
        exact ⟨rfl, rfl⟩
  | link operator e =>
    have hat : At q operator.token (tail.prepend (e.tokens ++ outerTokens outer')) := hq
    have hcur : q.current.type ≠ .parenRight := by
      rw [hat.current, operator.isOperator]
      cases operator.op <;> nofun
    refine ⟨raise q.current "Expected ')' at end of grouping" q, ?_, hnode _, fun hp => raise_panic _ _ _, .link operator e,
      outer', raise_before hq, Nat.le_of_succ_le hlen, hle, fun hsome => ?_⟩
    · rw [hrun, if_pos hcur]
      rfl
    · obtain ⟨heq, -⟩ := hexact hsome
      cases heq

theorem group_reads (handle : Node) {m : Nat} (ihe : ReadsExpr z tail m) (ihr : ReadsRest z tail m)
    {left : Mark .parenLeft} {inner : Expr} {right : Mark .parenRight} {rest : Rest} {outer : Outer} {n : Nat}
    {rule : PrecedenceRule} {p : Parser}
    (hm : (inner.tokens ++ outerTokens ((right, rest) :: outer)).length ≤ m)
    (hn : (inner.tokens ++ outerTokens ((right, rest) :: outer)).length + 2 ≤ n) (hready : Ready tail rule outer)
    (hp : At p left.token (tail.prepend (inner.tokens ++ outerTokens ((right, rest) :: outer)))) :
    ∃ node q, parsePrecedence (recAt z n) handle rule p = .ok node q ∧
      ReadTo tail p (rest.upto rule) outer (inner.tokens ++ outerTokens ((right, rest) :: outer)).length node
        ((rest.terms inner.terms.value).upto rule) q := by
  have hprev : (advanced p).previous.type = .parenLeft := by rw [advanced_previous, hp.current, left.isType]
  obtain ⟨node, q, hrun, hread⟩ := ihe inner ((right, rest) :: outer) n .ternary handle (advanced p) hm hn
    ⟨by decide, by decide, nofun⟩ (advanced_before hp)
  obtain ⟨q', hclose, hread'⟩ := close_reads hread
  have hgroup : grouping (recAt z n) handle (advanced p) = .ok (.eof, .grouping node) q' := by
    unfold grouping
    show (if (advanced p).previous.type = .parenLeft then do
      let node ← (recAt z n).parsePrecedence handle .ternary
      consume .parenRight "Expected ')' at end of grouping"
      pure (.eof, .grouping node)
      else _ : P (Opcode × Node)) (advanced p) = _
    rw [if_pos hprev]
    exact (bind_ok hrun).trans (bind_ok hclose)
  obtain ⟨node', q'', hloop, hread''⟩ := hread'.then (n := n) (k := n) ihr hm hn (by omega) hready nofun rfl rfl
    (fun h => by rw [h]; exact rest.terms_none rule)
  refine ⟨node', q'', (parse_by_rule ?_ hgroup).trans ?_, hread''.behind⟩
  · rw [hp.current, left.isType]
    rfl
  · rw [recAt_fuel]
    exact hloop

theorem negate_held (handle : Node) {node : Node} {value : Option (BitVec 32)} {rec : Rec} {p q : Parser}
    (hrun : rec.parsePrecedence .null .term p = .ok node q) (h : Held node value q) :
    ∃ node', unaryMinus rec handle p = .ok (.eof, node') q ∧ Held node' (value.map Neg.neg) q := by
  have hunary (hn : ∀ l, node ≠ .literal l) : ∃ node', unaryMinus rec handle p = .ok (.eof, node') q ∧
      Held node' (value.map Neg.neg) q := by
    refine ⟨.unary .negate node, ?_, .steady (Steady.negate node) ?_⟩
    · unfold unaryMinus
      rw [bind_ok hrun]
      cases node <;> first | rfl | exact absurd rfl (hn _)
    · rw [← h.value]
      rfl
  cases node with
  | literal l =>
    obtain ⟨w, rfl⟩ := h.integral l rfl
    refine ⟨.literal (.integer (-w)), ?_, ?_⟩
    · unfold unaryMinus
      rw [bind_ok hrun]
      show (pure (.eof, .literal (.integer (-(Literal.integer w).asInteger))) : P (Opcode × Node)) q = _
      rw [asInteger_integer]
      rfl
    · rw [h.literal]
      exact .integer _ _
  | _ => exact hunary nofun

/-- A minus negates everything behind it. -/
theorem negated_reads (handle : Node) {m : Nat} (ihe : ReadsExpr z tail m) (ihr : ReadsRest z tail m) (hterm : Stops .term tail)
    {minus : Mark .minus} {operand : Expr} {outer : Outer} {n : Nat} {rule : PrecedenceRule} {p : Parser}
    (hm : (operand.tokens ++ outerTokens outer).length ≤ m) (hn : (operand.tokens ++ outerTokens outer).length + 2 ≤ n)
    (hready : Ready tail rule outer) (hp : At p minus.token (tail.prepend (operand.tokens ++ outerTokens outer))) :
    ∃ node q, parsePrecedence (recAt z n) handle rule p = .ok node q ∧
      ReadTo tail p (Rest.stop.upto rule) outer (operand.tokens ++ outerTokens outer).length node
        ((Rest.stop.terms (operand.terms.value.map Neg.neg)).upto rule) q := by
  obtain ⟨node, q, hrun, hheld, hread⟩ := ihe operand outer n .term .null (advanced p) hm hn
    (ready_op hterm .add outer) (advanced_before hp)
  obtain ⟨node', hminus, hheld'⟩ := negate_held handle hrun hheld
  have hprev : (advanced p).previous.type = .minus := by rw [advanced_previous, hp.current, minus.isType]
  have hunary : unary (recAt z n) handle (advanced p) = .ok (.eof, node') q := by
    unfold unary
    show (if (advanced p).previous.type = .minus then unaryMinus (recAt z n) handle else _ : P (Opcode × Node)) (advanced p) = _
    rw [if_pos hprev]
    exact hminus
  have hread' : ReadTo tail (advanced p) .stop outer (operand.tokens ++ outerTokens outer).length node'
      (operand.terms.value.map Neg.neg) q := by
    obtain ⟨hpanic, rest', outer', hq, hlen, hle, hexact⟩ := hread
    refine ⟨hheld', hpanic, rest', outer', hq, hlen, hle, fun hsome => hexact fun h => ?_⟩
    rw [show operand.terms.value = none from h] at hsome
    exact hsome rfl
  obtain ⟨node'', q', hloop, hread''⟩ := hread'.then (n := n) (k := n) ihr hm hn (by omega) hready
    (fun _ _ => nofun) rfl rfl (fun h => by rw [h]; exact Rest.stop.terms_none rule)
  refine ⟨node'', q', (parse_by_rule ?_ hunary).trans ?_, hread''.behind⟩
  · rw [hp.current, minus.isType]
    rfl
  · rw [recAt_fuel]
    exact hloop

/-! ## The whole reading -/

theorem group_tokens (left : Mark .parenLeft) (inner : Expr) (right : Mark .parenRight) (rest : Rest) (outer : Outer) :
    (Expr.group left inner right rest).tokens ++ outerTokens outer =
      left.token :: (inner.tokens ++ outerTokens ((right, rest) :: outer)) := by
  simp [Expr.tokens, outerTokens]

theorem ReadTo.mono {size size' : Nat} {rest : Rest} {outer : Outer} {node : Node} {value : Option (BitVec 32)} {p q : Parser}
    (h : ReadTo tail p rest outer size node value q) (hle : size ≤ size') :
    ReadTo tail p rest outer size' node value q := by
  obtain ⟨hheld, hpanic, rest', outer', hq, hlen, hsize, hexact⟩ := h
  exact ⟨hheld, hpanic, rest', outer', hq, hlen, Nat.le_trans hsize hle, hexact⟩

theorem readsExpr_succ {m : Nat} (hterm : Stops .term tail) (ihe : ReadsExpr z tail m) (ihr : ReadsRest z tail m) :
    ReadsExpr z tail (m + 1) := by
  intro e outer n rule handle p hm hn hready hp
  obtain ⟨n, rfl⟩ : ∃ n', n = n' + 1 := ⟨n - 1, by omega⟩
  cases e with
  | literal a rest =>
    have hsize : ((Expr.literal a rest).tokens ++ outerTokens outer).length = (rest.tokens ++ outerTokens outer).length + 1 := rfl
    have hat : At p a.token (tail.prepend (rest.tokens ++ outerTokens outer)) := hp
    obtain ⟨node, q, hrun, hread⟩ := literal_reads handle (n := n) ihr (by omega) (by omega) hready hat
    exact ⟨node, q, hrun, hread.mono (by omega)⟩
  | group left inner right rest =>
    rw [group_tokens] at hm hn hp ⊢
    rw [List.length_cons] at hm hn ⊢
    have hat : At p left.token (tail.prepend (inner.tokens ++ outerTokens ((right, rest) :: outer))) := hp
    obtain ⟨node, q, hrun, hread⟩ := group_reads handle (n := n) ihe ihr (by omega) (by omega) hready hat
    exact ⟨node, q, hrun, hread.mono (by omega)⟩
  | negated minus operand =>
    have hsize : ((Expr.negated minus operand).tokens ++ outerTokens outer).length =
      (operand.tokens ++ outerTokens outer).length + 1 := rfl
    have hat : At p minus.token (tail.prepend (operand.tokens ++ outerTokens outer)) := hp
    obtain ⟨node, q, hrun, hread⟩ := negated_reads handle (n := n) ihe ihr hterm (by omega) (by omega) hready hat
    exact ⟨node, q, hrun, hread.mono (by omega)⟩

theorem readsRest_succ {m : Nat} (hterm : Stops .term tail) (ihe : ReadsExpr z tail m) (ihr : ReadsRest z tail m) :
    ReadsRest z tail (m + 1) := by
  intro r outer n k rule lhs left p hm hn hk hready hp hl hsafe
  obtain ⟨k, rfl⟩ : ∃ k', k = k' + 1 := ⟨k - 1, by omega⟩
  cases r with
  | stop => exact ended_reads hready trivial hp hl
  | link operator right =>
    by_cases hrule : rule ≤ operator.op.level
    · have hsize : ((Rest.link operator right).tokens ++ outerTokens outer).length =
        (right.tokens ++ outerTokens outer).length + 1 := rfl
      have hsafe' : ∀ w, lhs = .literal (.integer w) → Safe operator.op w := by
        intro w hw hop
        rcases hsafe w hw with h | h
        · rw [h operator right rfl] at hop
          cases hop
        · exact h
      have hat : At p operator.token (tail.prepend (right.tokens ++ outerTokens outer)) := hp
      obtain ⟨node, q, hrun, hread⟩ :=
        link_reads (n := n) (k := k) ihe ihr hterm (by omega) (by omega) (by omega) hready hrule hat hl hsafe'
      exact ⟨node, q, hrun, hread.mono (by omega)⟩
    · exact ended_reads hready hrule hp hl

theorem reads (hterm : Stops .term tail) (m : Nat) : ReadsExpr z tail m ∧ ReadsRest z tail m := by
  induction m with
  | zero =>
    refine ⟨?_, ?_⟩
    · intro e outer n rule handle p hm
      cases e <;> simp [Expr.tokens] at hm
    · intro r outer n k rule lhs left p hm hn hk hready hp hl _
      obtain ⟨k, rfl⟩ : ∃ k', k = k' + 1 := ⟨k - 1, by omega⟩
      cases r with
      | stop => exact ended_reads hready trivial hp hl
      | link operator right => simp [Rest.tokens] at hm
  | succ m ih => exact ⟨readsExpr_succ hterm ih.1 ih.2, readsRest_succ hterm ih.1 ih.2⟩

theorem Expr.tokens_pos (e : Expr) : 0 < e.tokens.length := by
  cases e <;> simp [Expr.tokens]

/-- There is fuel for every token read. -/
theorem fuel_of_tokens {tokens : List Token} {p : Parser} (hpos : 0 < tokens.length) (hp : Before p (tail.prepend tokens)) :
    tokens.length + 2 ≤ fuelFor p := by
  unfold fuelFor remaining
  rw [hp.lexer]
  cases tokens with
  | nil => cases hpos
  | cons token tokens =>
    simp only [scanLexer, TokenStream.prepend, List.cons_append, List.length_append, List.length_cons]
    omega

/-- A whole expression is parsed, and its node has its value. -/
theorem parse_expr (z : Parser → Node → Bool) {tail : TokenStream} {rule : PrecedenceRule} (handle : Node) {e : Expr}
    {p : Parser} (hrule : rule ≤ .term) (hstop : Stops rule tail) (hp : Before p (tail.prepend e.tokens)) :
    ∃ node q, (recAt z (fuelFor p)).parsePrecedence handle rule p = .ok node q ∧ evalNode node = e.terms.value := by
  have hhigh : ¬ rule ≤ .none := fun h => hstop (Nat.le_trans h (Nat.zero_le _))
  have hready : Ready tail rule [] := ⟨Nat.le_trans hrule (by decide), hhigh, fun _ => hstop⟩
  have hlen : (e.tokens ++ outerTokens []).length = e.tokens.length := by rw [outerTokens, List.append_nil]
  have hp' : Before p (tail.prepend (e.tokens ++ outerTokens [])) := by rw [outerTokens, List.append_nil]; exact hp
  have hfuel : e.tokens.length + 2 ≤ fuelFor p := fuel_of_tokens e.tokens_pos hp
  obtain ⟨node, q, hrun, hheld, -⟩ := (reads (z := z) (hstop.mono hrule) e.tokens.length).1 e [] (fuelFor p) rule handle p
    (by rw [hlen]) (by rw [hlen]; exact hfuel) hready hp'
  refine ⟨node, q, hrun, hheld.value.trans ?_⟩
  unfold Terms.upto
  rw [if_pos hrule]

end

end Xvr.Frontend.Parse
