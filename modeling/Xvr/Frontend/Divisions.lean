/-
  Xvr.Frontend.Divisions — the divisions that folding performs in the parser itself.

  An `IntExpr` is what the parser comes to build: integer literals of any kind and value,
  operators, and minus signs. `build` makes its node with the parser's own steps behind the
  operands (`unaryMinus`, `binaryTurn`). `eval` is its value in 32-bit words, operands
  before operators and the left one first; it stops where something is wrong: at a zero
  divisor and at a negated boolean, both of which the parser reports, and at a quotient
  that does not fit, which it does not ask about.

  Proved:
  - `divisions_defined_iff`: every division the parser performs is defined exactly when it
    is panicking already, or evaluation comes to no smallest integer divided by -1.
  - `smallest_divided`: the source `2147483648 / -1` gets there.
-/

import Xvr.Frontend.TreeFolding

namespace Xvr.Frontend.Parse

open Xvr.Runtime Xvr.Lib

/-! ## Expressions -/

inductive IntExpr where
  | literal (l : Literal) (isInteger : l.isInteger = true)
  | negated (operand : IntExpr)
  | binary (opcode : Opcode) (left right : IntExpr)

/-- What the Pratt loop makes of an operator's two sides. -/
def operatorNode (lhs rhs : Node) (opcode : Opcode) : P Node := do
  match ← binaryTurn lhs rhs opcode with
  | .inl node => pure node
  | .inr (.loopEnd node) => pure node
  | .inr (.returned node) => pure node

/-- A minus sign asks for its operand, and the parser answers it. -/
def operandRec (operand : P Node) : Rec := { recAt neverZero 0 with parsePrecedence := fun _ _ => operand }

def IntExpr.build : IntExpr → P Node
  | .literal l _ => pure (emitASTNodeLiteral l)
  | .negated operand => do
    let (_, node) ← unaryMinus (operandRec operand.build) .null
    pure node
  | .binary opcode left right => do
    let lhs ← left.build
    let rhs ← right.build
    operatorNode lhs rhs opcode

/-! ## The reference -/

/-- What folding makes of an expression: an integer literal, a boolean one, or a node. -/
inductive Worth where
  | word (w : BitVec 32)
  | bool (b : Bool)
  | node

/-- Where evaluation stops. -/
inductive Trouble where
  /-- A zero divisor, or a negated boolean. -/
  | reported
  /-- The smallest integer divided by -1. -/
  | overflow

/-- The operator that folds, which an opcode stands for. -/
def foldOp : Opcode → Option FoldOp
  | .compareEqual => some (.compare .equal)
  | .compareNotEqual => some (.compare .notEqual)
  | .compareLess => some (.compare .less)
  | .compareLessEqual => some (.compare .lessEqual)
  | .compareGreater => some (.compare .greater)
  | .compareGreaterEqual => some (.compare .greaterEqual)
  | opcode => (arithOp opcode).map .arith

def FoldOp.onWords : FoldOp → BitVec 32 → BitVec 32 → Except Trouble Worth
  | .arith op, a, b =>
    if (op = .div ∨ op = .mod) ∧ a = BitVec.intMin 32 ∧ b = -1 then .error .overflow
    else
      match op.onWord a b with
      | some w => .ok (.word w)
      | none => .error .reported
  | .compare op, a, b => .ok (.bool (op.onInt a.toInt b.toInt))

def evalWords (opcode : Opcode) (a b : BitVec 32) : Except Trouble Worth :=
  match foldOp opcode with
  | some op => op.onWords a b
  | none => .ok .node

def Worth.combine (opcode : Opcode) : Worth → Worth → Except Trouble Worth
  | .word a, .word b => evalWords opcode a b
  | _, _ => .ok .node

def Worth.negate : Worth → Except Trouble Worth
  | .word w => .ok (.word (-w))
  | .bool _ => .error .reported
  | .node => .ok .node

def IntExpr.eval : IntExpr → Except Trouble Worth
  | .literal l _ => .ok (.word l.asInteger)
  | .negated operand => do (← operand.eval).negate
  | .binary opcode left right => do
    let x ← left.eval
    let y ← right.eval
    x.combine opcode y

/-! ## The claim's side -/

/-- The parser at the end of a run. -/
def finalParser {α : Type} : EStateM.Result Stop Parser α → Parser
  | .ok _ q => q
  | .error _ q => q

/-- The accesses made since `p`. -/
def accessesSince (p q : Parser) : List Access := q.accesses.take (q.accesses.length - p.accesses.length)

/-- A host division of 32-bit integers is defined. -/
def DivisionDefined (a b : BitVec 32) : Prop := b ≠ 0 ∧ ¬ (a = BitVec.intMin 32 ∧ b = -1)

/-- Every division that building the expression performs is defined. -/
def DivisionsDefined (e : IntExpr) (p : Parser) : Prop :=
  ∀ a b, Access.divide a b ∈ accessesSince p (finalParser (e.build p)) → DivisionDefined a b

theorem bind_stops {α β : Type} {m : P α} {f : α → P β} {p q : Parser} {e : Stop} (h : m p = .error e q) :
    (m >>= f) p = .error e q := by
  simp only [bind, EStateM.bind, h]

/-! ## A minus sign -/

section Minus

variable {operand : P Node} {handle node : Node} {p q : Parser}

/-- What the rule does with its operand. -/
def negated (handle : Node) (l : Literal) : P (Opcode × Node) :=
  if l.isInteger || l.isFloat then pure (.eof, .literal (negateLiteral l))
  else if l.isBoolean then do
    let p ← get
    error p.previous "Negative booleans are not allowed"
    pure (.eof, handle)
  else pure (.eof, .unary .negate (.literal l))

theorem unaryMinus_literal {l : Literal} (h : operand p = .ok (.literal l) q) :
    unaryMinus (operandRec operand) handle p = negated handle l q := bind_ok h

theorem unaryMinus_node (h : operand p = .ok node q) (hn : ∀ l, node ≠ .literal l) :
    unaryMinus (operandRec operand) handle p = .ok (.eof, .unary .negate node) q := by
  refine (bind_ok h).trans ?_
  split
  · exact absurd rfl (hn _)
  · rfl

theorem raise_panicking {token : Token} {message : String} (h : p.panic = true) : raise token message p = p := by
  unfold raise
  rw [if_pos h]

theorem negated_panicking (l : Literal) (h : q.panic = true) : ∃ r, negated handle l q = .ok r q := by
  unfold negated
  split
  · exact ⟨_, rfl⟩
  · split
    · refine ⟨(.eof, handle), ?_⟩
      show EStateM.Result.ok (Opcode.eof, handle) (raise q.previous "Negative booleans are not allowed" q) = _
      rw [raise_panicking h]
    · exact ⟨_, rfl⟩

/-- While the parser panics, a minus sign changes nothing of it. -/
theorem unaryMinus_panicking (handle : Node) (h : operand p = .ok node q) (hq : q.panic = true) :
    ∃ r, unaryMinus (operandRec operand) handle p = .ok r q := by
  cases node with
  | literal l =>
    rw [unaryMinus_literal h]
    exact negated_panicking l hq
  | _ => exact ⟨_, unaryMinus_node h nofun⟩

end Minus

/-! ## Panic -/

theorem operatorNode_panicking {lhs rhs : Node} {opcode : Opcode} {p : Parser} (h : p.panic = true) :
    operatorNode lhs rhs opcode p = .ok (.binary opcode lhs rhs) p := bind_ok (binaryTurn_panic h)

/-- While the parser panics, nothing is folded. -/
theorem build_panicking (e : IntExpr) {p : Parser} (h : p.panic = true) : ∃ node, e.build p = .ok node p := by
  induction e with
  | literal l hl => exact ⟨_, rfl⟩
  | negated operand ih =>
    obtain ⟨node, hrun⟩ := ih
    obtain ⟨r, hminus⟩ := unaryMinus_panicking .null hrun h
    exact ⟨r.2, bind_ok hminus⟩
  | binary opcode left right ihl ihr =>
    obtain ⟨lhs, hl⟩ := ihl
    obtain ⟨rhs, hr⟩ := ihr
    refine ⟨.binary opcode lhs rhs, ?_⟩
    unfold IntExpr.build
    rw [bind_ok hl, bind_ok hr, operatorNode_panicking h]

/-! ## One step -/

/-- The parser made sound accesses only. -/
def Sound (p q : Parser) : Prop :=
  ∃ l, q.accesses = l ++ p.accesses ∧ ∀ a b, Access.divide a b ∈ l → DivisionDefined a b

/-- Its last access divides the smallest integer by -1. -/
def Overflowed (p q : Parser) : Prop := ∃ l, q.accesses = .divide (BitVec.intMin 32) (-1) :: l ++ p.accesses

theorem Sound.refl (p : Parser) : Sound p p := ⟨[], rfl, nofun⟩

theorem Sound.trans {p q r : Parser} (h : Sound p q) (h' : Sound q r) : Sound p r := by
  obtain ⟨l, hl, hsound⟩ := h
  obtain ⟨l', hl', hsound'⟩ := h'
  refine ⟨l' ++ l, by rw [hl', hl, List.append_assoc], fun a b hab => ?_⟩
  rcases List.mem_append.mp hab with hab | hab
  · exact hsound' a b hab
  · exact hsound a b hab

theorem Sound.overflowed {p q r : Parser} (h : Sound p q) (h' : Overflowed q r) : Overflowed p r := by
  obtain ⟨l, hl, -⟩ := h
  obtain ⟨l', hl'⟩ := h'
  exact ⟨l' ++ l, by rw [hl', hl]; simp⟩

theorem Sound.raised (token : Token) (message : String) (p : Parser) : Sound p (raise token message p) := by
  refine ⟨[], ?_, nofun⟩
  unfold raise
  split <;> rfl

theorem Sound.freed (node : Node) (p : Parser) : Sound p (accessed (.free node) p) := by
  refine ⟨[.free node], rfl, fun a b hab => ?_⟩
  cases List.mem_singleton.mp hab

theorem Sound.divided {a b : BitVec 32} (h : DivisionDefined a b) (p : Parser) : Sound p (accessed (.divide a b) p) := by
  refine ⟨[.divide a b], rfl, fun a' b' hab => ?_⟩
  cases List.mem_singleton.mp hab
  exact h

/-- What the parser holds for an expression. -/
inductive Shows : Node → Worth → Prop
  | word {l : Literal} (h : l.isInteger = true) : Shows (.literal l) (.word l.asInteger)
  | bool (b : Bool) : Shows (.literal (.boolean b)) (.bool b)
  | node {n : Node} (h : Steady n) : Shows n .node

/-- How a run ends, by what the expression is worth. -/
inductive Builds (p : Parser) (run : EStateM.Result Stop Parser Node) : Except Trouble Worth → Prop
  | value {node : Node} {q : Parser} {x : Worth} (ok : run = .ok node q) (quiet : q.panic = false) (sound : Sound p q)
      (shows : Shows node x) : Builds p run (.ok x)
  | reported {node : Node} {q : Parser} (ok : run = .ok node q) (panics : q.panic = true) (sound : Sound p q) :
      Builds p run (.error .reported)
  | overflow {q : Parser} (stops : run = .error .undefined q) (overflowed : Overflowed p q) :
      Builds p run (.error .overflow)

theorem Builds.after {p q : Parser} {run : EStateM.Result Stop Parser Node} {r : Except Trouble Worth} (h : Sound p q)
    (hr : Builds q run r) : Builds p run r := by
  cases hr with
  | value ok quiet sound shows => exact .value ok quiet (h.trans sound) shows
  | reported ok panics sound => exact .reported ok panics (h.trans sound)
  | overflow stops overflowed => exact .overflow stops (h.overflowed overflowed)

theorem shows_integer (w : BitVec 32) : Shows (.literal (.integer w)) (.word w) := by
  have h := Shows.word (l := .integer w) rfl
  rwa [asInteger_integer] at h

theorem minus_builds {operand : P Node} {node : Node} {x : Worth} {p q : Parser} (h : operand p = .ok node q)
    (hq : q.panic = false) (hs : Shows node x) :
    Builds q ((unaryMinus (operandRec operand) .null >>= fun r => pure r.2) p) x.negate := by
  cases hs with
  | word hl =>
    rename_i l
    have hneg : negated .null l q = .ok (.eof, .literal (.integer (-l.asInteger))) q := by
      unfold negated negateLiteral
      rw [if_pos (by simp [hl]), if_pos hl]
      rfl
    exact .value (bind_ok ((unaryMinus_literal h).trans hneg)) hq (.refl q) (shows_integer _)
  | bool b =>
    exact .reported (bind_ok (unaryMinus_literal h)) (raise_panic q.previous "Negative booleans are not allowed" q) (.raised _ _ q)
  | node hn => exact .value (bind_ok (unaryMinus_node h hn.notLiteral)) hq (.refl q) (.node (Steady.negate node))

/-! ## One operator -/

/-- How folding two integers ends. -/
inductive Folded (p : Parser) (run : EStateM.Result Stop Parser (Option Literal)) : Except Trouble Worth → Prop
  | literal {l : Literal} {q : Parser} {x : Worth} (ok : run = .ok (some l) q) (notNull : l.isNull = false)
      (panic : q.panic = p.panic) (sound : Sound p q) (shows : Shows (.literal l) x) : Folded p run (.ok x)
  | refused {q : Parser} (ok : run = .ok none q) (panics : q.panic = true) (sound : Sound p q) :
      Folded p run (.error .reported)
  | overflow {q : Parser} (stops : run = .error .undefined q) (overflowed : Overflowed p q) :
      Folded p run (.error .overflow)

theorem onWords_arith (op : ArithOp) (a b : BitVec 32) : (FoldOp.arith op).onWords a b =
    if (op = .div ∨ op = .mod) ∧ a = BitVec.intMin 32 ∧ b = -1 then .error .overflow
    else
      match op.onWord a b with
      | some w => .ok (.word w)
      | none => .error .reported := rfl

theorem division_folded {op : ArithOp} {a b w : BitVec 32} {message : String} (hd : op = .div ∨ op = .mod)
    (hop : op.onWord a b = if b = 0 then none else some w)
    (hfold : foldIntegers op.opcode a b = if b = 0 then foldError message else do
      access (.divide a b)
      pure (some (.integer w))) (p : Parser) :
    Folded p (foldIntegers op.opcode a b p) ((FoldOp.arith op).onWords a b) := by
  rw [onWords_arith, hfold, hop]
  by_cases hb : b = 0
  · rw [if_pos hb, if_pos hb, if_neg (by rintro ⟨-, -, h⟩; rw [hb] at h; cases h)]
    exact .refused rfl (raise_panic p.previous message p) (.raised _ _ p)
  · rw [if_neg hb, if_neg hb]
    by_cases hov : a = BitVec.intMin 32 ∧ b = -1
    · have hdef : (Access.divide a b).defined = false := by simp [Access.defined, quotientFits, hov.1, hov.2]
      rw [if_pos ⟨hd, hov⟩]
      exact .overflow (bind_stops (access_undefined hdef)) ⟨[], by rw [hov.1, hov.2]; rfl⟩
    · have hdef : (Access.divide a b).defined = true := by
        cases hq : (Access.divide a b).defined with
        | true => rfl
        | false =>
          rw [Access.defined, quotientFits, Bool.not_eq_false', Bool.and_eq_true, beq_iff_eq, beq_iff_eq] at hq
          exact absurd hq hov
      rw [if_neg fun h => hov h.2]
      exact .literal (bind_ok (access_defined hdef)) rfl rfl (.divided ⟨hb, hov⟩ p) (shows_integer w)

theorem foldIntegers_folded (op : FoldOp) (a b : BitVec 32) (p : Parser) :
    Folded p (foldIntegers op.opcode a b p) (op.onWords a b) := by
  rcases op with op | op
  · cases op with
    | add | sub | mul => exact .literal rfl rfl rfl (.refl p) (shows_integer _)
    | div => exact division_folded (Or.inl rfl) rfl rfl p
    | mod => exact division_folded (Or.inr rfl) rfl rfl p
  · refine .literal (l := .boolean (op.onInt a.toInt b.toInt)) ?_ rfl rfl (.refl p) (.bool _)
    show foldIntegers op.opcode a b p = _
    rw [foldIntegers_compare]
    rfl

theorem foldOp_some {opcode : Opcode} {op : FoldOp} (h : foldOp opcode = some op) : op.opcode = opcode := by
  cases opcode <;> cases h <;> rfl

theorem foldOp_none {opcode : Opcode} (h : foldOp opcode = none) : foldable opcode = false := by
  cases opcode <;> first | rfl | cases h

/-- Neither a float nor a string. -/
def Plain (l : Literal) : Prop := l.isFloat = false ∧ l.isString = false

theorem plain_isInteger {l : Literal} (h : l.isInteger = true) : Plain l := by
  cases l <;> first | exact ⟨rfl, rfl⟩ | cases h

theorem coerceBeside_plain {l r : Literal} (h : Plain r) : coerceBeside r l = l := by
  unfold coerceBeside
  rw [h.1]
  rfl

/-- Without floats and strings, only two integers fold. -/
theorem foldLiterals_plain (opcode : Opcode) {l r : Literal} (hl : Plain l) (hr : Plain r) :
    foldLiterals opcode l r =
      if l.isInteger && r.isInteger then foldIntegers opcode l.asInteger r.asInteger else pure (some .null) := by
  unfold foldLiterals
  rw [coerceBeside_plain hl, coerceBeside_plain hr]
  simp [hl.1, hl.2, hr.1]

theorem calcStatic_unfoldable {opcode : Opcode} {lhs rhs : Node} (h : foldable opcode = false) (p : Parser) :
    calcStaticBinaryArithmetic (.binary opcode lhs rhs) p = .ok (true, .binary opcode lhs rhs) p := by
  unfold calcStaticBinaryArithmetic
  rw [h]
  rfl

theorem Shows.isNode {n : Node} {x : Worth} (h : Shows n x) : n.isNode = true := by
  cases h with
  | word hl => rfl
  | bool b => rfl
  | node hn => exact hn.isNode

theorem foldChild_shown {n : Node} {x : Worth} (h : Shows n x) (p : Parser) : foldChild n p = .ok n p := by
  cases h with
  | word hl => rfl
  | bool b => rfl
  | node hn => exact foldChild_inert (Or.inr hn) p

/-- The children are as they were; the node itself is evaluated. -/
theorem calcStatic_shown (op : FoldOp) {lhs rhs : Node} {x y : Worth} (hl : Shows lhs x) (hr : Shows rhs y) (p : Parser) :
    calcStaticBinaryArithmetic (.binary op.opcode lhs rhs) p = foldNode op.opcode lhs rhs p :=
  calcStatic_children ((foldable_iff _).mpr ⟨op, rfl⟩) hl.isNode hr.isNode (foldChild_shown hl p) (foldChild_shown hr p)

def Worth.isWord : Worth → Bool
  | .word _ => true
  | _ => false

theorem Shows.isWord {l : Literal} {x : Worth} (h : Shows (.literal l) x) : Plain l ∧ l.isInteger = x.isWord := by
  cases h with
  | word hl => exact ⟨plain_isInteger hl, hl⟩
  | bool b => exact ⟨⟨rfl, rfl⟩, rfl⟩
  | node hn => exact absurd rfl (hn.notLiteral l)

theorem Shows.literal_or_steady {n : Node} {x : Worth} (h : Shows n x) : (∃ l, n = .literal l) ∨ Steady n := by
  cases h with
  | word _ => exact Or.inl ⟨_, rfl⟩
  | bool b => exact Or.inl ⟨_, rfl⟩
  | node hn => exact Or.inr hn

/-- Unless both sides are integers, the node stays. -/
theorem calcStatic_keeps (opcode : Opcode) {lhs rhs : Node} {x y : Worth} (hl : Shows lhs x) (hr : Shows rhs y)
    (hxy : (x.isWord && y.isWord) = false) (p : Parser) :
    calcStaticBinaryArithmetic (.binary opcode lhs rhs) p = .ok (true, .binary opcode lhs rhs) p := by
  cases hop : foldOp opcode with
  | none => exact calcStatic_unfoldable (foldOp_none hop) p
  | some op =>
    rw [← foldOp_some hop, calcStatic_shown op hl hr p]
    rcases hl.literal_or_steady with ⟨l, rfl⟩ | hn
    · rcases hr.literal_or_steady with ⟨r, rfl⟩ | hn
      · refine foldNode_null ?_ p
        obtain ⟨hpl, hil⟩ := hl.isWord
        obtain ⟨hpr, hir⟩ := hr.isWord
        rw [foldLiterals_plain _ hpl hpr, hil, hir, hxy]
        rfl
      · exact foldNode_kept (Or.inr hn.notLiteral) p
    · exact foldNode_kept (Or.inl hn.notLiteral) p

theorem operatorNode_quiet {lhs rhs node : Node} {opcode : Opcode} {ok : Bool} {p q : Parser} (hp : p.panic = false)
    (hrun : calcStaticBinaryArithmetic (.binary opcode lhs rhs) p = .ok (ok, node) q) :
    operatorNode lhs rhs opcode p = .ok node q := by
  refine (bind_ok (binaryTurn_quiet hp hrun)).trans ?_
  cases ok <;> rfl

theorem operatorNode_stops {lhs rhs : Node} {opcode : Opcode} {p q : Parser} (hp : p.panic = false)
    (hrun : calcStaticBinaryArithmetic (.binary opcode lhs rhs) p = .error .undefined q) :
    operatorNode lhs rhs opcode p = .error .undefined q := by
  have hturn : binaryTurn lhs rhs opcode p = .error .undefined q := by
    unfold binaryTurn
    rw [bind_get, if_neg (by simp [hp])]
    exact bind_stops hrun
  exact bind_stops hturn

/-- Two integers under an operator that folds. -/
theorem operatorNode_words (op : FoldOp) {l r : Literal} (hl : l.isInteger = true) (hr : r.isInteger = true) {p : Parser}
    (hp : p.panic = false) :
    Builds p (operatorNode (.literal l) (.literal r) op.opcode p) (op.onWords l.asInteger r.asInteger) := by
  have hfold : foldLiterals op.opcode l r p = foldIntegers op.opcode l.asInteger r.asInteger p := by
    rw [foldLiterals_plain _ (plain_isInteger hl) (plain_isInteger hr), hl, hr]
    rfl
  have hcalc := calcStatic_shown op (.word hl) (.word hr) p
  have hends := foldIntegers_folded op l.asInteger r.asInteger p
  generalize op.onWords l.asInteger r.asInteger = worth at hends ⊢
  cases hends with
  | literal ok notNull panic sound shows =>
    have hnode := hcalc.trans (foldNode_folded notNull (hfold.trans ok))
    refine .value (operatorNode_quiet hp hnode) (panic.trans hp) ?_ shows
    exact sound.trans ((Sound.freed _ _).trans (Sound.freed _ _))
  | refused ok panics sound =>
    exact .reported (operatorNode_quiet hp (hcalc.trans (foldNode_refused (hfold.trans ok)))) panics sound
  | overflow stops overflowed =>
    exact .overflow (operatorNode_stops hp (hcalc.trans (bind_stops (hfold.trans stops)))) overflowed

theorem operatorNode_keeps (opcode : Opcode) {lhs rhs : Node} {p : Parser} (hp : p.panic = false)
    (hkeeps : ∀ q, calcStaticBinaryArithmetic (.binary opcode lhs rhs) q = .ok (true, .binary opcode lhs rhs) q) :
    Builds p (operatorNode lhs rhs opcode p) (.ok .node) :=
  .value (operatorNode_quiet hp (hkeeps p)) hp (.refl p) (.node ⟨rfl, nofun, fun _ => hkeeps⟩)

theorem operatorNode_builds (opcode : Opcode) {lhs rhs : Node} {x y : Worth} (hl : Shows lhs x) (hr : Shows rhs y) {p : Parser}
    (hp : p.panic = false) : Builds p (operatorNode lhs rhs opcode p) (x.combine opcode y) := by
  cases hxy : x.isWord && y.isWord with
  | false =>
    have hnode : x.combine opcode y = .ok .node := by
      cases x <;> cases y <;> first | rfl | cases hxy
    rw [hnode]
    exact operatorNode_keeps opcode hp (calcStatic_keeps opcode hl hr hxy)
  | true =>
    cases hl with
    | word hl' =>
      cases hr with
      | word hr' =>
        show Builds p _ (evalWords opcode _ _)
        unfold evalWords
        cases hop : foldOp opcode with
        | none => exact operatorNode_keeps opcode hp (calcStatic_unfoldable (foldOp_none hop))
        | some op =>
          rw [← foldOp_some hop]
          exact operatorNode_words op hl' hr' hp
      | _ => cases hxy
    | _ => cases hxy

/-! ## Whole expressions -/

/-- The induction on the expression: once it is wrong, it stays so. -/
theorem build_builds (e : IntExpr) {p : Parser} (hp : p.panic = false) : Builds p (e.build p) e.eval := by
  induction e generalizing p with
  | literal l hl =>
    have hcopy : emitASTNodeLiteral l = .literal l := by cases l <;> first | rfl | cases hl
    have hshows : Shows (.literal l) _ := .word hl
    refine .value ?_ hp (.refl p) hshows
    rw [IntExpr.build, hcopy]
    rfl
  | negated operand ih =>
    unfold IntExpr.build IntExpr.eval
    generalize operand.eval = r at ih
    cases ih hp with
    | value ok quiet sound shows => exact (minus_builds ok quiet shows).after sound
    | reported ok panics sound =>
      obtain ⟨r, hminus⟩ := unaryMinus_panicking .null ok panics
      exact .reported (bind_ok hminus) panics sound
    | overflow stops overflowed =>
      have hminus : unaryMinus (operandRec operand.build) .null p = .error .undefined _ := bind_stops stops
      exact .overflow (bind_stops hminus) overflowed
  | binary opcode left right ihl ihr =>
    unfold IntExpr.build IntExpr.eval
    generalize left.eval = rl at ihl
    generalize right.eval = rr at ihr
    cases ihl hp with
    | value ok quiet sound shows =>
      rw [bind_ok ok]
      refine Builds.after sound ?_
      cases ihr quiet with
      | value ok' quiet' sound' shows' =>
        rw [bind_ok ok']
        exact (operatorNode_builds opcode shows shows' quiet').after sound'
      | reported ok' panics sound' =>
        rw [bind_ok ok']
        exact .reported (operatorNode_panicking panics) panics sound'
      | overflow stops overflowed =>
        exact .overflow (bind_stops stops) overflowed
    | reported ok panics sound =>
      rw [bind_ok ok]
      obtain ⟨rhs, hr⟩ := build_panicking right panics
      rw [bind_ok hr]
      exact .reported (operatorNode_panicking panics) panics sound
    | overflow stops overflowed =>
      exact .overflow (bind_stops stops) overflowed

theorem accessesSince_append {p q : Parser} {l : List Access} (h : q.accesses = l ++ p.accesses) : accessesSince p q = l := by
  unfold accessesSince
  rw [h, List.length_append, Nat.add_sub_cancel, List.take_left]

theorem Sound.divisionsDefined {e : IntExpr} {p : Parser} (h : Sound p (finalParser (e.build p))) : DivisionsDefined e p := by
  obtain ⟨l, hl, hsound⟩ := h
  intro a b hab
  rw [accessesSince_append hl] at hab
  exact hsound a b hab

theorem overflow_undefined {e : IntExpr} {p : Parser} (hp : p.panic = false) (he : e.eval = .error .overflow) :
    ¬ DivisionsDefined e p := by
  intro h
  have hends := build_builds e hp
  rw [he] at hends
  cases hends with
  | overflow stops overflowed =>
    obtain ⟨l, hl⟩ := overflowed
    have hmem : Access.divide (BitVec.intMin 32) (-1) ∈ accessesSince p (finalParser (e.build p)) := by
      rw [stops, finalParser, accessesSince_append (l := .divide (BitVec.intMin 32) (-1) :: l) hl]
      exact List.mem_cons_self
    exact (h _ _ hmem).2 ⟨rfl, rfl⟩

/-- The parser asks for a zero divisor, and for nothing else. -/
theorem divisions_defined_iff (e : IntExpr) (p : Parser) :
    DivisionsDefined e p ↔ p.panic = true ∨ e.eval ≠ .error .overflow := by
  constructor
  · intro h
    cases hp : p.panic with
    | true => exact Or.inl rfl
    | false => exact Or.inr fun he => overflow_undefined hp he h
  · intro h
    cases hp : p.panic with
    | true =>
      obtain ⟨node, hrun⟩ := build_panicking e hp
      exact Sound.divisionsDefined (by rw [hrun]; exact .refl p)
    | false =>
      have he := h.resolve_left (by simp [hp])
      have hends := build_builds e hp
      generalize e.eval = r at he hends
      cases hends with
      | value ok quiet sound shows => exact Sound.divisionsDefined (by rw [ok]; exact sound)
      | reported ok panics sound => exact Sound.divisionsDefined (by rw [ok]; exact sound)
      | overflow stops overflowed => exact absurd rfl he

/-! ## A source -/

/-- The tokens of `2147483648 / -1;`. -/
def smallestTokens : TokenStream :=
  { tokensOf [] with
    tokens := [⟨.literalInteger, "2147483648".toList, 1⟩, ⟨.divide, "/".toList, 1⟩, ⟨.minus, "-".toList, 1⟩,
      ⟨.literalInteger, "1".toList, 1⟩, ⟨.semicolon, ";".toList, 1⟩] }

def smallestExpr : IntExpr :=
  .binary .division (.literal (.integer (scanSigned 32 "2147483648".toList)) rfl) (.negated (.literal (.integer 1) rfl))

/-- The literal reads as the smallest integer, and nothing stops its division by -1. -/
theorem smallest_divided :
    ¬ DivisionsDefined smallestExpr (initParser smallestTokens) ∧
      ∃ q, (recAt neverZero (fuelFor (initParser smallestTokens))).parsePrecedence .null .assignment
        (initParser smallestTokens) = .error .undefined q :=
  ⟨overflow_undefined rfl rfl, ⟨_, rfl⟩⟩

end Xvr.Frontend.Parse
