/-
  Xvr.Frontend.ArithmeticFolds — one operator of an arithmetic expression.

  `Before` and `At` say where the parser stands. What it holds for an expression (`Held`)
  has the expression's value and, when nothing is wrong, is a literal or a node that
  folding leaves alone.

  Proved:
  - `binaryTurn_held`: behind an operator's right side the parser holds the operator's
    value, folded or not; only a refused fold returns early, and then there is no value.
  - `expression_end`: where the next token is below the rule, an expression ends.
-/

import Xvr.Frontend.Arithmetic

namespace Xvr.Frontend.Parse

open Xvr.Runtime Xvr.Lib

/-! ## Where the parser stands -/

def TokenStream.prepend (tokens : List Token) (tail : TokenStream) : TokenStream :=
  { tail with tokens := tokens ++ tail.tokens }

/-- The parser is about to read `token`, and then the stream. -/
structure At (p : Parser) (token : Token) (lexer : TokenStream) : Prop where
  current : p.current = token
  lexer : p.lexer = lexer

/-- The parser is about to read the stream. -/
def Before (p : Parser) (lexer : TokenStream) : Prop := At p (scanLexer lexer).1 (scanLexer lexer).2

theorem raise_lexer (token : Token) (message : String) (p : Parser) : (raise token message p).lexer = p.lexer := by
  unfold raise
  split <;> rfl

theorem advanced_before {p : Parser} {token : Token} {lexer : TokenStream} (h : At p token lexer) :
    Before (advanced p) lexer := by
  unfold advanced
  obtain ⟨_, rfl⟩ := h
  split
  · exact ⟨raise_current _ _ _, raise_lexer _ _ _⟩
  · exact ⟨rfl, rfl⟩

/-- An access leaves the parser where it stands. -/
theorem accessed_before {p : Parser} {lexer : TokenStream} {a : Access} (h : Before p lexer) :
    Before (accessed a p) lexer := ⟨h.current, h.lexer⟩

/-! ## Running -/

theorem bind_ok {α β : Type} {m : P α} {f : α → P β} {p q : Parser} {a : α} (h : m p = .ok a q) :
    (m >>= f) p = f a q := by
  simp only [bind, EStateM.bind, h]

theorem bind_run {α β : Type} {m m' : P α} {f : α → P β} {p q : Parser} (h : m p = m' q) :
    (m >>= f) p = (m' >>= f) q := by
  simp only [bind, EStateM.bind, h]

theorem bind_get {α : Type} {f : Parser → P α} {p : Parser} : (get >>= f) p = f p p := rfl

/-- The level of a token does not depend on what its rules call. -/
def levelOf (t : TokenType) : PrecedenceRule := (getRule (recAt neverZero 0) t).precedence

theorem getRule_precedence (rec : Rec) (t : TokenType) : (getRule rec t).precedence = levelOf t := by
  cases t <;> rfl

@[simp] theorem levelOf_op (op : ArithOp) : levelOf op.tokenType = op.level := by cases op <;> rfl

theorem getRule_op (rec : Rec) (op : ArithOp) : (getRule rec op.tokenType).infixRule = some (binary rec) := by
  cases op <;> rfl

theorem binaryOperator_op (op : ArithOp) : binaryOperator op.tokenType = some (op.level, op.opcode) := by
  cases op <;> rfl

/-- A parser that stands in front of a token below the rule's level stops there. -/
theorem pratt_stop {rec : Rec} {rule : PrecedenceRule} {n : Nat} {node : Node} {p : Parser}
    (h : ¬ rule ≤ levelOf p.current.type) : loop .outOfFuel (prattTurn rec rule) (n + 1) node p = .ok (.loopEnd node) p := by
  have hturn : prattTurn rec rule node p = .ok (.inr (.loopEnd node)) p := by
    unfold prattTurn
    show (if rule ≤ (getRule rec p.current.type).precedence then _ else pure (Sum.inr (.loopEnd node)) : P (Node ⊕ PrattEnd)) p = _
    rw [getRule_precedence, if_neg h]
    rfl
  rw [loop_succ, bind_ok hturn]
  rfl

/-- In front of an operator of its level or above, the loop parses the right side at the
    operator's own level. -/
theorem pratt_binary (rec : Rec) {rule : PrecedenceRule} {n : Nat} {node rhs : Node} {p q : Parser} {op : ArithOp}
    (hop : p.current.type = op.tokenType) (hrule : rule ≤ op.level)
    (hrhs : rec.parsePrecedence .null op.level (advanced p) = .ok rhs q) :
    loop .outOfFuel (prattTurn rec rule) (n + 1) node p =
      (binaryTurn node rhs op.opcode >>= loopNext .outOfFuel (prattTurn rec rule) n) q := by
  have hoperator : binary rec .null p = .ok (op.opcode, rhs) q := by
    unfold binary
    rw [bind_ok (advance_eq p), bind_get, advanced_previous, hop, binaryOperator_op]
    exact bind_ok hrhs
  have hturn : prattTurn rec rule node p = binaryTurn node rhs op.opcode q := by
    unfold prattTurn
    rw [bind_get, getRule_precedence, hop, levelOf_op, if_pos hrule, getRule_op]
    refine (bind_ok hoperator).trans ?_
    cases op <;> rfl
  rw [loop_succ]
  simp only [bind, EStateM.bind, hturn]

/-- Behind the prefix rule comes the loop. -/
theorem parse_by_rule {rec : Rec} {handle node : Node} {opcode : Opcode} {rule : PrecedenceRule} {f : ParseFn} {p q : Parser}
    (hfirst : (getRule rec p.current.type).prefixRule = some f) (hrun : f handle (advanced p) = .ok (opcode, node) q) :
    parsePrecedence rec handle rule p = (loop .outOfFuel (prattTurn rec rule) rec.fuel node >>= endExpression rule) q := by
  unfold parsePrecedence
  rw [bind_ok (advance_eq p), bind_get, advanced_previous, hfirst]
  exact bind_ok hrun

/-- A literal operand is read at once. -/
theorem parse_operand {rec : Rec} {handle : Node} {rule : PrecedenceRule} {p : Parser} {a : Operand}
    (h : p.current = a.token) : parsePrecedence rec handle rule p =
      (loop .outOfFuel (prattTurn rec rule) rec.fuel a.node >>= endExpression rule) (advanced p) := by
  have hatomic : atomic handle (advanced p) = .ok (.eof, a.node) (advanced p) := by
    have hlit : tokenLiteral a.token = some (.integer a.word) := by
      unfold tokenLiteral
      rw [a.isInteger, ← a.scanned]
    unfold atomic
    rw [bind_get, advanced_previous, h, hlit]
    rfl
  exact parse_by_rule (by rw [h, a.isInteger]; rfl) hatomic

/-- A rule above assignment, or a token that is not `=`, leaves nothing to check. -/
theorem checkAssignment_stop {rule : PrecedenceRule} {p : Parser} (h : ¬ rule ≤ levelOf p.current.type) :
    checkAssignment rule p = .ok () p := by
  unfold checkAssignment
  by_cases hr : rule ≤ .assignment
  · have hne : p.current.type ≠ .assign := fun he => h (by rw [he]; exact hr)
    have hmatch := matchToken_eq .assign p
    rw [if_neg hne] at hmatch
    rw [if_pos hr, bind_ok hmatch]
    rfl
  · rw [if_neg hr]
    rfl

/-! ## One fold -/

/-- A node that folding leaves as it is, and keeps what is built on it from folding. -/
structure Steady (node : Node) : Prop where
  isNode : node.isNode = true
  notLiteral : ∀ l, node ≠ .literal l
  kept : node.isBinary = true → ∀ p, calcStaticBinaryArithmetic node p = .ok (true, node) p

/-- What an expression leaves when nothing is wrong. -/
def Inert (node : Node) : Prop := (∃ w, node = .literal (.integer w)) ∨ Steady node

/-- What the parser holds for an expression of some value. -/
structure Held (node : Node) (value : Option (BitVec 32)) (p : Parser) : Prop where
  value : evalNode node = value
  integral : ∀ l, node = .literal l → ∃ w, l = .integer w
  quiet : p.panic = false → Inert node

theorem Held.panicking {node : Node} {value : Option (BitVec 32)} {p : Parser} (h : p.panic = true)
    (hn : ∀ l, node ≠ .literal l) (hv : evalNode node = value) : Held node value p :=
  ⟨hv, fun l hl => absurd hl (hn l), fun hp => absurd (h.symm.trans hp) nofun⟩

theorem Held.steady {node : Node} {value : Option (BitVec 32)} {p : Parser} (h : Steady node)
    (hv : evalNode node = value) : Held node value p :=
  ⟨hv, fun l hl => absurd hl (h.notLiteral l), fun _ => Or.inr h⟩

/-- What is held stays held while a panic stays one. -/
theorem Held.later {node : Node} {value : Option (BitVec 32)} {p q : Parser} (h : Held node value p)
    (hpanic : p.panic = true → q.panic = true) : Held node value q := by
  refine ⟨h.value, h.integral, fun hq => h.quiet ?_⟩
  cases hp : p.panic with
  | false => rfl
  | true => rw [hpanic hp] at hq; cases hq

theorem Held.integer (w : BitVec 32) (p : Parser) : Held (.literal (.integer w)) (some w) p :=
  ⟨rfl, fun _ hl => ⟨w, (Node.literal.inj hl).symm⟩, fun _ => Or.inl ⟨w, rfl⟩⟩

theorem Held.literal {w : BitVec 32} {value : Option (BitVec 32)} {p : Parser}
    (h : Held (.literal (.integer w)) value p) : value = some w := h.value.symm

@[simp] theorem asInteger_integer (v : BitVec 32) : (Literal.integer v).asInteger = v := by
  simp [Literal.asInteger, Literal.word]

theorem foldLiterals_integers (op : ArithOp) (a b : BitVec 32) :
    foldLiterals op.opcode (.integer a) (.integer b) = foldIntegers op.opcode a b := by
  have h : foldLiterals op.opcode (.integer a) (.integer b) =
      foldIntegers op.opcode (Literal.integer a).asInteger (Literal.integer b).asInteger := by
    cases op <;> rfl
  rw [h, asInteger_integer, asInteger_integer]

theorem raise_before {token : Token} {message : String} {p : Parser} {lexer : TokenStream} (h : Before p lexer) :
    Before (raise token message p) lexer :=
  ⟨(raise_current _ _ _).trans h.current, (raise_lexer _ _ _).trans h.lexer⟩

/-- A division by the smallest integer's bad luck aside, an operator can be folded. -/
def Safe (op : ArithOp) (a : BitVec 32) : Prop := op.level = .factor → a ≠ BitVec.intMin 32

/-- What folding an operator answers, and where it leaves the parser. -/
def Folds (op : ArithOp) (a b : BitVec 32) (p : Parser) (lexer : TokenStream) : Prop :=
  (∃ w q, op.onWord a b = some w ∧ foldIntegers op.opcode a b p = .ok (some (.integer w)) q ∧
    Before q lexer ∧ q.panic = p.panic) ∨
  (∃ q, op.onWord a b = none ∧ foldIntegers op.opcode a b p = .ok none q ∧ Before q lexer ∧ q.panic = true)

/-- A division is refused by its divisor, or goes through. -/
theorem folds_division {op : ArithOp} {a b w : BitVec 32} {p : Parser} {lexer : TokenStream} {message : String}
    (ha : a ≠ BitVec.intMin 32) (hp : Before p lexer) (hop : op.onWord a b = if b = 0 then none else some w)
    (hfold : foldIntegers op.opcode a b = if b = 0 then foldError message else do
      access (.divide a b)
      pure (some (.integer w))) : Folds op a b p lexer := by
  have hdef : (Access.divide a b).defined = true := by simp [Access.defined, quotientFits, ha]
  by_cases hb : b = 0
  · rw [if_pos hb] at hop hfold
    refine Or.inr ⟨raise p.previous message p, hop, ?_, raise_before hp, raise_panic _ _ _⟩
    rw [hfold]
    rfl
  · rw [if_neg hb] at hop hfold
    refine Or.inl ⟨w, accessed (.divide a b) p, hop, ?_, accessed_before hp, rfl⟩
    rw [hfold, bind_ok (access_defined hdef)]
    rfl

theorem folds_op (op : ArithOp) {a b : BitVec 32} {p : Parser} {lexer : TokenStream} (ha : Safe op a)
    (hp : Before p lexer) : Folds op a b p lexer := by
  cases op with
  | add | sub | mul => exact Or.inl ⟨_, p, rfl, rfl, hp, rfl⟩
  | div | mod => exact folds_division (ha rfl) hp rfl rfl

theorem foldNode_refused {opcode : Opcode} {lhs rhs : Literal} {p q : Parser} (h : foldLiterals opcode lhs rhs p = .ok none q) :
    foldNode opcode (.literal lhs) (.literal rhs) p = .ok (false, .binary opcode (.literal lhs) (.literal rhs)) q :=
  bind_ok h

theorem foldNode_folded {opcode : Opcode} {lhs rhs l : Literal} {p q : Parser} (hl : l.isNull = false)
    (h : foldLiterals opcode lhs rhs p = .ok (some l) q) : foldNode opcode (.literal lhs) (.literal rhs) p =
      .ok (true, .literal l) (accessed (.free (.literal rhs)) (accessed (.free (.literal lhs)) q)) := by
  refine (bind_ok h).trans ?_
  show (if l.isNull = true then _ else _ : P (Bool × Node)) q = _
  rw [hl]
  rfl

/-- A node that is not two literals stays. -/
theorem foldNode_kept {opcode : Opcode} {left right : Node} (h : (∀ l, left ≠ .literal l) ∨ ∀ l, right ≠ .literal l)
    (p : Parser) : foldNode opcode left right p = .ok (true, .binary opcode left right) p := by
  unfold foldNode
  split
  case h_1 lhs rhs =>
    rcases h with h | h
    · exact absurd rfl (h lhs)
    · exact absurd rfl (h rhs)
  case h_2 => rfl

/-- Two literals are folded, or their division by zero is refused. -/
theorem foldNode_literals (op : ArithOp) {a b : BitVec 32} {p : Parser} {lexer : TokenStream}
    (ha : Safe op a) (hp : Before p lexer) :
    ∃ ok node q, foldNode op.opcode (.literal (.integer a)) (.literal (.integer b)) p = .ok (ok, node) q ∧
      Before q lexer ∧ Held node (op.onWord a b) q ∧ (ok = false → op.onWord a b = none) := by
  rcases folds_op op (b := b) ha hp with ⟨w, q, hw, hrun, hq, hpan⟩ | ⟨q, hw, hrun, hq, hpan⟩
  · rw [← foldLiterals_integers] at hrun
    exact ⟨true, .literal (.integer w), _, foldNode_folded rfl hrun, accessed_before (accessed_before hq),
      hw ▸ .integer w _, nofun⟩
  · rw [← foldLiterals_integers] at hrun
    refine ⟨false, .binary op.opcode (.literal (.integer a)) (.literal (.integer b)), q, foldNode_refused hrun, hq,
      .panicking hpan nofun ?_, fun _ => hw⟩
    rw [evalNode_binary, hw]
    exact hw

theorem foldable_opcode (op : ArithOp) : foldable op.opcode = true := by cases op <;> rfl

theorem deref_node {node : Node} (h : node.isNode = true) (p : Parser) : deref node p = .ok () p := by
  unfold deref
  rw [if_pos h]
  rfl

/-- The folding of a child: a literal stays. -/
def foldChild (node : Node) : P Node :=
  if node.isBinary then do pure (← calcStaticBinaryArithmetic node).2 else pure node

/-- The children are folded first, then the node. -/
theorem calcStatic_children {opcode : Opcode} (hop : foldable opcode = true) {left right l r : Node} {p q₁ q₂ : Parser}
    (hnl : left.isNode = true) (hnr : right.isNode = true) (hl : foldChild left p = .ok l q₁)
    (hr : foldChild right q₁ = .ok r q₂) :
    calcStaticBinaryArithmetic (.binary opcode left right) p = foldNode opcode l r q₂ := by
  unfold calcStaticBinaryArithmetic
  rw [if_pos hop]
  refine (bind_ok (deref_node hnl p)).trans ((bind_ok hl).trans ?_)
  exact (bind_ok (deref_node hnr q₁)).trans (bind_ok hr)

theorem calcStatic_literals {opcode : Opcode} (hop : foldable opcode = true) (lhs rhs : Literal) (p : Parser) :
    calcStaticBinaryArithmetic (.binary opcode (.literal lhs) (.literal rhs)) p =
      foldNode opcode (.literal lhs) (.literal rhs) p :=
  calcStatic_children hop rfl rfl rfl rfl

theorem Inert.isNode {node : Node} (h : Inert node) : node.isNode = true := by
  rcases h with ⟨w, rfl⟩ | h
  · rfl
  · exact h.isNode

/-- A child that does not fold is left as it is. -/
theorem foldChild_inert {node : Node} (h : Inert node) (p : Parser) : foldChild node p = .ok node p := by
  rcases h with ⟨w, rfl⟩ | h
  · rfl
  · unfold foldChild
    cases hb : node.isBinary with
    | true => exact bind_ok (h.kept hb p)
    | false => rfl

/-- Beside a node that does not fold, nothing is folded. -/
theorem calcStatic_steady (op : ArithOp) {left right : Node} (hl : Inert left) (hr : Inert right)
    (h : Steady left ∨ Steady right) (p : Parser) :
    calcStaticBinaryArithmetic (.binary op.opcode left right) p = .ok (true, .binary op.opcode left right) p := by
  rw [calcStatic_children (foldable_opcode op) hl.isNode hr.isNode (foldChild_inert hl p) (foldChild_inert hr p)]
  exact foldNode_kept (h.imp Steady.notLiteral Steady.notLiteral) p

theorem Steady.binary (op : ArithOp) {left right : Node} (hl : Inert left) (hr : Inert right)
    (h : Steady left ∨ Steady right) : Steady (.binary op.opcode left right) :=
  ⟨rfl, nofun, fun _ => calcStatic_steady op hl hr h⟩

theorem Steady.grouping (child : Node) : Steady (.grouping child) := ⟨rfl, nofun, nofun⟩

theorem Steady.negate (child : Node) : Steady (.unary .negate child) := ⟨rfl, nofun, nofun⟩

/-- The value an operator makes of its two sides. -/
def ArithOp.apply (op : ArithOp) (left right : Option (BitVec 32)) : Option (BitVec 32) :=
  left.bind fun a => right.bind (op.onWord a)

theorem binaryTurn_panic {lhs rhs : Node} {opcode : Opcode} {p : Parser} (h : p.panic = true) :
    binaryTurn lhs rhs opcode p = .ok (.inl (.binary opcode lhs rhs)) p := by
  unfold binaryTurn
  rw [bind_get, if_pos h]
  rfl

theorem binaryTurn_quiet {lhs rhs node : Node} {opcode : Opcode} {ok : Bool} {p q : Parser} (h : p.panic = false)
    (hrun : calcStaticBinaryArithmetic (.binary opcode lhs rhs) p = .ok (ok, node) q) :
    binaryTurn lhs rhs opcode p = .ok (if ok then .inl node else .inr (.returned node)) q := by
  unfold binaryTurn
  rw [bind_get, if_neg (by simp [h])]
  refine (bind_ok hrun).trans ?_
  cases ok <;> rfl

/-- What a turn of the loop leaves of an operator: a node of its value, or an early return
    without one. -/
def Combines (lhs rhs : Node) (opcode : Opcode) (value : Option (BitVec 32)) (lexer : TokenStream) (p : Parser) : Prop :=
  ∃ node q, Before q lexer ∧ Held node value q ∧ (p.panic = true → q.panic = true) ∧
    (binaryTurn lhs rhs opcode p = .ok (.inl node) q ∨
      binaryTurn lhs rhs opcode p = .ok (.inr (.returned node)) q ∧ value = none)

/-- The new node's value is its operator's, whether it is folded or not. -/
theorem binaryTurn_held (op : ArithOp) {lhs rhs : Node} {left right : Option (BitVec 32)} {p : Parser}
    {lexer : TokenStream} (hsafe : ∀ w, lhs = .literal (.integer w) → Safe op w) (hp : Before p lexer)
    (hl : Held lhs left p) (hr : Held rhs right p) : Combines lhs rhs op.opcode (op.apply left right) lexer p := by
  have heval : evalNode (.binary op.opcode lhs rhs) = op.apply left right := by
    rw [evalNode_binary, hl.value, hr.value]
    rfl
  cases hpan : p.panic with
  | true =>
    exact ⟨.binary op.opcode lhs rhs, p, hp, .panicking hpan nofun heval, id, Or.inl (binaryTurn_panic hpan)⟩
  | false =>
    have hvac (q : Parser) (h : p.panic = true) : q.panic = true := by
      rw [hpan] at h
      cases h
    have unfolded (h : Steady lhs ∨ Steady rhs) : Combines lhs rhs op.opcode (op.apply left right) lexer p := by
      have hli := hl.quiet hpan
      have hri := hr.quiet hpan
      exact ⟨_, p, hp, .steady (Steady.binary op hli hri h) heval, id,
        Or.inl (binaryTurn_quiet hpan (calcStatic_steady op hli hri h p))⟩
    rcases hl.quiet hpan with ⟨a, rfl⟩ | hs
    · rcases hr.quiet hpan with ⟨b, rfl⟩ | hs
      · obtain ⟨ok, node, q, hnode, hq, hv, hok⟩ := foldNode_literals op (b := b) (hsafe a rfl) hp
        have hval : op.apply left right = op.onWord a b := by
          rw [hl.literal, hr.literal]
          rfl
        have hturn := binaryTurn_quiet hpan ((calcStatic_literals (foldable_opcode op) _ _ p).trans hnode)
        refine ⟨node, q, hq, hval ▸ hv, hvac q, ?_⟩
        cases ok with
        | true => exact Or.inl hturn
        | false => exact Or.inr ⟨hturn, hval.trans (hok rfl)⟩
      · exact unfolded (Or.inr hs)
    · exact unfolded (Or.inl hs)

/-! ## Stopping -/

/-- The stop an expression needs: the token behind it is below the rule. -/
def Stops (rule : PrecedenceRule) (lexer : TokenStream) : Prop := ¬ rule ≤ levelOf (scanLexer lexer).1.type

theorem Stops.mono {rule rule' : PrecedenceRule} {lexer : TokenStream} (h : Stops rule lexer) (hle : rule ≤ rule') :
    Stops rule' lexer := fun h' => h (Nat.le_trans hle h')

/-- At its stop an expression is whole. -/
theorem expression_end {rec : Rec} {rule : PrecedenceRule} {n : Nat} {node : Node} {p : Parser} {lexer : TokenStream}
    (hp : Before p lexer) (hs : Stops rule lexer) :
    (loop .outOfFuel (prattTurn rec rule) (n + 1) node >>= endExpression rule) p = .ok node p := by
  have hstop : ¬ rule ≤ levelOf p.current.type := by rw [hp.current]; exact hs
  rw [bind_ok (pratt_stop hstop)]
  exact bind_ok (checkAssignment_stop hstop)

end Xvr.Frontend.Parse
