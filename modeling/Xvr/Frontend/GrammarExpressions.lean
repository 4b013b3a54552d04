/-
  Xvr.Frontend.GrammarExpressions — the grammar's expression rules, one by one, as the
  Pratt parser follows them.

  `Brings`: in front of a token below its reach, an operand brings the Pratt loop at its
  rule to its node. `ReadsBelow`: an expression is read as its node there. Each rule of the
  grammar is one lemma about these two; what is read inside it is a hypothesis.

  Proved: `Brings.begins`, `Brings.extends_` (a prefix rule, an infix rule), and from them
  a lemma for each rule of the table.
-/

import Xvr.Frontend.Grammar
import Xvr.Frontend.StringLiterals

namespace Xvr.Frontend.Parse

open Xvr.Runtime Xvr.Lib

variable (z : Parser → Node → Bool)

/-- In front of a token below the reach, the tokens bring the loop to the node. -/
def Brings (rule : PrecedenceRule) (reach : Nat) (tokens : List Token) (node : Node) : Prop :=
  ∀ tail n handle p, Clean tail → Below reach tail → 8 * tokens.length + 7 ≤ n → Poised p (tail.prepend tokens) →
    ∃ k q, n ≤ k + tokens.length ∧ Poised q tail ∧ parsePrecedence (recAt z n) handle rule p =
      (loop .outOfFuel (prattTurn (recAt z n) rule) k node >>= endExpression rule) q

/-- In front of a token below the reach, the tokens are read as the node. -/
def ReadsBelow (rule : PrecedenceRule) (reach : Nat) (tokens : List Token) (node : Node) : Prop :=
  ∀ tail n handle p, Clean tail → Below reach tail → 8 * tokens.length + 7 ≤ n → Poised p (tail.prepend tokens) →
    ∃ q, parsePrecedence (recAt z n) handle rule p = .ok node q ∧ Poised q tail

variable {z} {rule : PrecedenceRule} {reach : Nat} {tokens : List Token} {node : Node}

/-! ## What is read -/

theorem ReadsBelow.reads (h : ReadsBelow z rule reach tokens node) (hle : rule.level ≤ reach) : Reads z rule tokens node :=
  fun tail n handle p hclean hstop hn hp => h tail n handle p hclean (((stops_iff rule tail).mp hstop).mono hle) hn hp

/-- An operand is read where its rule's loop ends. -/
theorem Brings.ended (h : Brings z rule reach tokens node) : ReadsBelow z rule (min rule.level reach) tokens node := by
  intro tail n handle p hclean hbelow hn hp
  obtain ⟨k, q, hk, hq, hrun⟩ := h tail n handle p hclean (hbelow.mono (Nat.min_le_right _ _)) hn hp
  obtain ⟨k, rfl⟩ : ∃ k', k = k' + 1 := ⟨k - 1, by omega⟩
  have hstop : Stops rule tail := (stops_iff rule tail).mpr (hbelow.mono (Nat.min_le_left _ _))
  exact ⟨q, hrun.trans (expression_end hq.before hstop), hq⟩

theorem below_end {reach : Nat} (h : 1 ≤ reach) : Below reach (tokensOf []) := h

/-- An expression read where nothing follows. -/
theorem ReadsBelow.run (h : ReadsBelow z rule reach tokens node) (hreach : 1 ≤ reach) : ∃ q,
    parsePrecedence (recAt z (8 * tokens.length + 7)) .null rule (standing ((tokensOf []).prepend tokens)) = .ok node q ∧
      q.panic = false := by
  obtain ⟨q, hrun, hq⟩ := h _ _ .null _ endless_clean (below_end hreach) (Nat.le_refl _) (standing_poised _)
  exact ⟨q, hrun, hq.quiet⟩

/-- The tokens start with a prefix rule. -/
theorem ReadsBelow.starts (h : ReadsBelow z rule reach tokens node) (hreach : 1 ≤ reach) :
    ∃ t ts, tokens = t :: ts ∧ startsExpression t.type = true := by
  obtain ⟨q, hrun, hq⟩ := h.run hreach
  have hfalse (hstart : startsExpression (standing ((tokensOf []).prepend tokens)).current.type = false) : False := by
    rw [parse_refused _ _ hstart] at hrun
    cases hrun
    rw [raise_panic] at hq
    cases hq
  cases tokens with
  | nil => exact (hfalse rfl).elim
  | cons t ts =>
    cases hstart : startsExpression t.type with
    | false => exact (hfalse hstart).elim
    | true => exact ⟨t, ts, rfl, hstart⟩

/-- The node is a real one. -/
theorem ReadsBelow.solid (h : ReadsBelow z rule reach tokens node) (hreach : 1 ≤ reach) : Solid node := by
  obtain ⟨q, hrun, hq⟩ := h.run hreach
  have hremaining : remaining (standing ((tokensOf []).prepend tokens)) ≤ tokens.length := by
    unfold remaining
    cases tokens with
    | nil => exact Nat.le_refl _
    | cons t ts =>
      show (ts ++ []).length + (if t.type = .eof then 0 else 1) ≤ ts.length + 1
      rw [List.append_nil]
      split <;> omega
  have hspec := (recAt_spec z (8 * tokens.length + 8)).parsePrecedence .null rule (standing ((tokensOf []).prepend tokens)) (by omega)
  exact (Meets.ok hspec hrun).2.ruled.solid hq

theorem clean_of_starts {t : Token} {ts : List Token} (h : startsExpression t.type = true) (tail : TokenStream) :
    Clean (tail.prepend (t :: ts)) := clean_starts tail h

/-- In front of an expression the parser stands clean. -/
theorem ReadsBelow.clean (h : ReadsBelow z rule reach tokens node) (hreach : 1 ≤ reach) (ts : List Token)
    (tail : TokenStream) : Clean (tail.prepend (tokens ++ ts)) := by
  obtain ⟨t, ts', rfl, hstart⟩ := h.starts hreach
  exact clean_of_starts hstart tail

/-- Read up to a token behind it, one level of fuel up. -/
theorem ReadsBelow.read_to (h : ReadsBelow z rule reach tokens node) {t : Token} (ht : t.type ≠ .error)
    (hlevel : (levelOf t.type).level < reach) (handle : Node) {n : Nat} (hn : 8 * tokens.length + 7 ≤ n) {p : Parser}
    {ts : List Token} {tail : TokenStream} (hp : Poised p (tail.prepend (tokens ++ t :: ts))) :
    ∃ q, (recAt z (n + 1)).parsePrecedence handle rule p = .ok node q ∧ Poised q (tail.prepend (t :: ts)) := by
  rw [prepend_append] at hp
  exact h (tail.prepend (t :: ts)) n handle p ht hlevel hn hp

/-! ## Beginning and going on -/

/-- A prefix rule and what it reads. -/
theorem Brings.begins {t : Token} {ys : List Token} (f : Rec → ParseFn)
    (hrule : ∀ rec, (getRule rec t.type).prefixRule = some (f rec))
    (hclean : ∀ tail, Clean tail → Clean (tail.prepend ys))
    (hrun : ∀ tail n handle p, Clean tail → Below reach tail → 8 * ys.length + 14 ≤ n → p.previous = t →
      Poised p (tail.prepend ys) → ∃ opcode q, f (recAt z (n + 1)) handle p = .ok (opcode, node) q ∧ Poised q tail) :
    Brings z rule reach (t :: ys) node := by
  intro tail n handle p hcleantail hbelow hn hp
  have hat := hp.at_head
  rw [List.length_cons] at hn
  obtain ⟨n, rfl⟩ : ∃ n', n = n' + 1 := ⟨n - 1, by omega⟩
  have hprev : (advanced p).previous = t := by rw [advanced_previous, hat.current]
  obtain ⟨opcode, q, hf, hq⟩ := hrun tail n handle (advanced p) hcleantail hbelow (by omega) hprev
    (hp.advanced (hclean tail hcleantail))
  refine ⟨n + 1, q, Nat.le_add_right _ _, hq, ?_⟩
  rw [parse_by_rule (by rw [hat.current]; exact hrule _) hf, recAt_fuel]

/-- An infix rule behind an operand. -/
theorem Brings.extends_ {reach' : Nat} {xs ys : List Token} {x : Node} {t : Token} (h : Brings z rule reach xs x)
    (ht : t.type ≠ .error) (hreach : (levelOf t.type).level < reach)
    (hrun : ∀ tail n p, Clean tail → Below reach' tail → 8 * ys.length + 14 ≤ n → Poised p (tail.prepend (t :: ys)) →
      ∃ q, prattTurn (recAt z (n + 1)) rule x p = .ok (.inl node) q ∧ Poised q tail) :
    Brings z rule reach' (xs ++ t :: ys) node := by
  intro tail n handle p hclean hbelow hn hp
  rw [List.length_append, List.length_cons] at hn
  rw [prepend_append] at hp
  obtain ⟨k, q, hk, hq, hparse⟩ := h (tail.prepend (t :: ys)) n handle p ht hreach (by omega) hp
  obtain ⟨k, rfl⟩ : ∃ k', k = k' + 1 := ⟨k - 1, by omega⟩
  obtain ⟨n, rfl⟩ : ∃ n', n = n' + 1 := ⟨n - 1, by omega⟩
  obtain ⟨q', hturn, hq'⟩ := hrun tail n q hclean hbelow (by omega) hq
  refine ⟨k, q', ?_, hq', hparse.trans (loop_turn hturn)⟩
  rw [List.length_append, List.length_cons]
  omega

/-- One token with a rule that reads no further. -/
theorem brings_token {t : Token} {f : ParseFn} (hrule : ∀ rec, (getRule rec t.type).prefixRule = some f)
    (hrun : ∀ handle p, p.previous = t → f handle p = .ok (.eof, node) p) : Brings z rule endless [t] node :=
  .begins (fun _ => f) hrule (fun _ h => h) fun _ _ handle p _ _ _ hprev hp => ⟨.eof, p, hrun handle p hprev, hp⟩

/-- A mark behind which the tail stands clean is consumed. -/
theorem consume_poised {type : TokenType} (m : Mark type) (message : String) {p : Parser} {ts : List Token} {tail : TokenStream}
    (hclean : Clean (tail.prepend ts)) (hp : Poised p (tail.prepend (m.token :: ts))) :
    consume type message p = .ok () (advanced p) ∧ Poised (advanced p) (tail.prepend ts) :=
  ⟨consume_mark m message hp, hp.advanced hclean⟩

/-- The same where it is the last of the tokens. -/
theorem consume_last {type : TokenType} (m : Mark type) (message : String) {p : Parser} {tail : TokenStream}
    (hclean : Clean tail) (hp : Poised p (tail.prepend [m.token])) :
    consume type message p = .ok () (advanced p) ∧ Poised (advanced p) tail :=
  ⟨consume_mark m message hp, hp.advanced hclean⟩

/-! ## Operands of one token -/

theorem Opens.brings (h : Opens z rule tokens node) (reach : Nat) : Brings z rule reach tokens node :=
  fun tail n handle p hclean _ hn hp => h tail n handle p hclean hn hp

theorem unescape_ok {lexeme text : List Char} (h : unescaped lexeme = some text) (p : Parser) :
    unescape lexeme p = .ok text p := by
  induction lexeme using unescaped.induct generalizing text with
  | case1 =>
    cases h
    rfl
  | case2 c cs ih =>
    rw [unescaped, Option.bind_eq_bind, Option.bind_eq_some_iff] at h
    obtain ⟨e, he, h⟩ := h
    rw [Option.bind_eq_bind, Option.bind_eq_some_iff] at h
    obtain ⟨rest, hrest, h⟩ := h
    cases h
    rw [unescape_known he]
    exact bind_ok (ih hrest)
  | case3 =>
    cases h
    rw [unescape_last]
    rfl
  | case4 c cs hescape hlast ih =>
    rw [unescaped, Option.bind_eq_bind, Option.bind_eq_some_iff] at h
    · obtain ⟨rest, hrest, h⟩ := h
      cases h
      rw [unescape_plain]
      · exact bind_ok (ih hrest)
      · rintro rfl
        cases cs with
        | nil => exact hlast rfl rfl
        | cons d ds => exact hescape d ds rfl rfl
    · exact hescape
    · exact hlast

theorem brings_string (rule : PrecedenceRule) (m : Mark .literalString) {text : List Char}
    (h : unescaped m.token.lexeme = some text) (hlen : text.length ≤ maxStringLength) :
    Brings z rule endless [m.token] (emitASTNodeLiteral (.string text)) := by
  refine brings_token (f := string) (fun rec => by rw [m.isType]; rfl) fun handle p hp => ?_
  have hshort : decide (text.length > maxStringLength) = false := by simpa using hlen
  unfold string errorIf
  rw [bind_get, hp, if_pos m.isType, bind_ok (unescape_ok h p), hshort, List.take_of_length_le hlen]
  rfl

theorem brings_keyword (rule : PrecedenceRule) (m : Mark .print_) :
    Brings z rule endless [m.token] (.literal (.identifier (m.token.lexeme.take maxIdentifierLength))) := by
  refine brings_token (f := identifierOrKeyword) (fun rec => by rw [m.isType]; rfl) fun handle p hp => ?_
  unfold identifierOrKeyword
  rw [bind_get, hp]
  rfl

theorem identifier_name (name : NameToken) (handle : Node) {p : Parser} (h : p.previous = name.token) :
    identifier handle p = .ok (.eof, .literal name.literal) p := by
  have hname : identifierLiteral name.token p = .ok name.literal p := by
    unfold identifierLiteral errorIf
    rw [bind_get, if_neg (by simpa using name.fits), List.take_of_length_le name.fits]
    rfl
  unfold identifier
  rw [bind_get, h, if_neg (not_not.mpr name.isType)]
  exact bind_ok hname

theorem casting_rule {t : TokenType} (h : getTypeFromToken t ≠ .null) (rec : Rec) :
    (getRule rec t).prefixRule = some (castingPrefix rec) := by
  cases t <;> first | rfl | exact absurd rfl h

/-- A type's name is the type where no parenthesis follows. -/
theorem brings_typeName (rule : PrecedenceRule) {t : Token} (h : getTypeFromToken t.type ≠ .null) :
    Brings z rule PrecedenceRule.call.level [t] (.literal (.type (getTypeFromToken t.type) false [])) := by
  refine .begins castingPrefix (casting_rule h) (fun _ hclean => hclean) fun tail n handle p _ hbelow _ hprev hp => ?_
  have hparen : p.current.type ≠ .parenLeft := by
    intro hparen
    have hcurrent : p.current = (scanLexer tail).1 := hp.before.current
    have hlevel : (levelOf (scanLexer tail).1.type).level < PrecedenceRule.call.level := hbelow
    rw [← hcurrent, hparen] at hlevel
    exact absurd hlevel (by decide)
  refine ⟨.eof, p, ?_, hp⟩
  unfold castingPrefix
  rw [bind_get, if_neg hparen, hprev, if_neg h]
  rfl

/-! ## Operands around an expression -/

section Around

variable {xs : List Token} {x : Node}

theorem brings_cast (rule : PrecedenceRule) {t : Token} (ht : getTypeFromToken t.type ≠ .null) (left : Mark .parenLeft)
    (right : Mark .parenRight) (h : ReadsBelow z .assignment reach xs x) (hreach : 1 ≤ reach) :
    Brings z rule endless (t :: left.token :: (xs ++ [right.token]))
      (emitASTNodeCast (.type (getTypeFromToken t.type) false []) x) := by
  refine .begins castingPrefix (casting_rule ht) (fun tail _ => mark_clean left nofun _ tail)
    fun tail n handle p hclean _ hn hprev hp => ?_
  simp only [List.length_cons, List.length_append, List.length_nil] at hn
  have hparen : p.current.type = .parenLeft := by rw [hp.at_head.current, left.isType]
  obtain ⟨hconsume, hq⟩ := consume_poised left "Expected '(' after type" (h.clean hreach _ tail) hp
  obtain ⟨q, hrun, hq'⟩ := h.read_to (t := right.token) (by rw [right.isType]; nofun) (by rw [right.isType]; exact hreach) .null
    (by omega : 8 * xs.length + 7 ≤ n) hq
  obtain ⟨hclose, hq''⟩ := consume_last right "Expected ')' after expression" hclean hq'
  refine ⟨.cast, advanced q, ?_, hq''⟩
  unfold castingPrefix
  rw [bind_get, if_pos hparen, hprev, bind_ok hconsume]
  refine (bind_ok hrun).trans ?_
  rw [bind_get, hq'.quiet, (h.solid hreach).not_null]
  exact bind_ok hclose

theorem brings_group (rule : PrecedenceRule) (left : Mark .parenLeft) (right : Mark .parenRight)
    (h : ReadsBelow z .ternary reach xs x) (hreach : 1 ≤ reach) :
    Brings z rule endless (left.token :: (xs ++ [right.token])) (.grouping x) := by
  refine .begins grouping (fun rec => by rw [left.isType]; rfl) (fun tail _ => h.clean hreach _ tail)
    fun tail n handle p hclean _ hn hprev hp => ?_
  rw [List.length_append] at hn
  obtain ⟨q, hrun, hq⟩ := h.read_to (t := right.token) (by rw [right.isType]; nofun) (by rw [right.isType]; exact hreach) handle
    (by omega : 8 * xs.length + 7 ≤ n) hp
  obtain ⟨hclose, hq'⟩ := consume_last right "Expected ')' at end of grouping" hclean hq
  refine ⟨.eof, advanced q, ?_, hq'⟩
  unfold grouping
  rw [bind_get, hprev, if_pos left.isType, bind_ok hrun]
  exact bind_ok hclose

theorem brings_minus (rule : PrecedenceRule) (m : Mark .minus) (h : ReadsBelow z .term reach xs x) (hreach : 1 ≤ reach)
    (hnode : minusNode x = some node) : Brings z rule reach (m.token :: xs) node := by
  have hclean (tail : TokenStream) : Clean (tail.prepend xs) := by
    simpa using h.clean hreach [] tail
  refine .begins unary (fun rec => by rw [m.isType]; rfl) (fun tail _ => hclean tail)
    fun tail n handle p hclean hbelow hn hprev hp => ?_
  obtain ⟨q, hrun, hq⟩ := h tail n .null p hclean hbelow (by omega) hp
  refine ⟨.eof, q, ?_, hq⟩
  unfold unary unaryMinus
  rw [bind_get, hprev, if_pos m.isType]
  refine (bind_ok hrun).trans ?_
  cases x with
  | literal l =>
    rw [minusNode] at hnode
    show (if (l.isInteger || l.isFloat) = true then _ else if l.isBoolean = true then _ else _ : P (Opcode × Node)) q = _
    by_cases hnumber : (l.isInteger || l.isFloat) = true
    · rw [if_pos hnumber] at hnode ⊢
      cases hnode
      rfl
    · rw [if_neg hnumber] at hnode ⊢
      by_cases hboolean : l.isBoolean = true
      · rw [if_pos hboolean] at hnode
        cases hnode
      · rw [if_neg hboolean] at hnode ⊢
        cases hnode
        rfl
  | _ =>
    cases hnode
    rfl

theorem brings_not (rule : PrecedenceRule) (m : Mark .not) (h : ReadsBelow z .call reach xs x) (hreach : 1 ≤ reach) :
    Brings z rule reach (m.token :: xs) (notNode x) := by
  have hclean (tail : TokenStream) : Clean (tail.prepend xs) := by
    simpa using h.clean hreach [] tail
  refine .begins unary (fun rec => by rw [m.isType]; rfl) (fun tail _ => hclean tail)
    fun tail n handle p hclean hbelow hn hprev hp => ?_
  obtain ⟨q, hrun, hq⟩ := h tail n .null p hclean hbelow (by omega) hp
  refine ⟨.eof, q, ?_, hq⟩
  unfold unary unaryNot
  rw [bind_get, hprev, if_neg (by rw [m.isType]; nofun), if_pos m.isType]
  refine (bind_ok hrun).trans ?_
  cases x with
  | literal l => cases l <;> rfl
  | _ => rfl

theorem brings_typeOf (rule : PrecedenceRule) (m : Mark .typeof_) (h : ReadsBelow z .ternary reach xs x) (hreach : 1 ≤ reach) :
    Brings z rule reach (m.token :: xs) (.unary .typeOf x) := by
  have hclean (tail : TokenStream) : Clean (tail.prepend xs) := by
    simpa using h.clean hreach [] tail
  refine .begins typeOf (fun rec => by rw [m.isType]; rfl) (fun tail _ => hclean tail)
    fun tail n handle p hclean hbelow hn _ hp => ?_
  obtain ⟨q, hrun, hq⟩ := h tail n .null p hclean hbelow (by omega) hp
  exact ⟨.eof, q, bind_ok hrun, hq⟩

end Around

theorem steppedIdentifier_name (name : NameToken) {p : Parser} (hprev : p.previous = name.token) (hquiet : p.panic = false) :
    steppedIdentifier p = .ok (some name.literal) p := by
  unfold steppedIdentifier
  rw [bind_ok (identifier_name name .null hprev)]
  show (if (p.panic || (Node.literal name.literal).isNull) = true then _ else _ : P (Option Literal)) p = _
  rw [hquiet]
  rfl

theorem name_clean (name : NameToken) (ts : List Token) (tail : TokenStream) : Clean (tail.prepend (name.token :: ts)) :=
  mark_clean name.toMark nofun ts tail

/-- `++` or `--` before a name. -/
theorem stepPrefix_name {emit : Literal → Node} (name : NameToken) (handle : Node) {p : Parser} {tail : TokenStream}
    (hclean : Clean tail) (hp : Poised p (tail.prepend [name.token])) :
    ∃ q, stepPrefix emit handle p = .ok (.eof, emit name.literal) q ∧ Poised q tail := by
  have hq : Poised (advanced p) tail := hp.advanced hclean
  have hprev : (advanced p).previous = name.token := by rw [advanced_previous, hp.at_head.current]
  have hfree : freeASTNode (.literal name.literal) (advanced p) = .ok () (accessed (.free (.literal name.literal)) (advanced p)) :=
    access_defined rfl
  refine ⟨_, ?_, hq.accessed (.free (.literal name.literal))⟩
  unfold stepPrefix
  rw [bind_ok (advance_eq p), bind_ok (steppedIdentifier_name name hprev hq.quiet)]
  exact bind_ok hfree

theorem brings_increment (rule : PrecedenceRule) (m : Mark .plusPlus) (name : NameToken) :
    Brings z rule endless [m.token, name.token] (emitASTNodePrefixIncrement name.literal) :=
  .begins (fun _ => incrementPrefix) (fun rec => by rw [m.isType]; rfl) (fun tail _ => name_clean name [] tail)
    fun _ _ handle _ hclean _ _ _ hp => ⟨.eof, stepPrefix_name name handle hclean hp⟩

theorem brings_decrement (rule : PrecedenceRule) (m : Mark .minusMinus) (name : NameToken) :
    Brings z rule endless [m.token, name.token] (emitASTNodePrefixDecrement name.literal) :=
  .begins (fun _ => decrementPrefix) (fun rec => by rw [m.isType]; rfl) (fun tail _ => name_clean name [] tail)
    fun _ _ handle _ hclean _ _ _ hp => ⟨.eof, stepPrefix_name name handle hclean hp⟩

/-! ## Behind an operand -/

theorem ReadsBelow.mono {reach' : Nat} (h : ReadsBelow z rule reach tokens node) (hle : reach' ≤ reach) :
    ReadsBelow z rule reach' tokens node :=
  fun tail n handle p hclean hbelow hn hp => h tail n handle p hclean (hbelow.mono hle) hn hp

/-- What the table says of a binary operator's token. -/
theorem operator_rule {t : TokenType} {level : PrecedenceRule} {opcode : Opcode} (h : binaryOperator t = some (level, opcode))
    (rec : Rec) : (getRule rec t).infixRule = some (binary rec) ∧ levelOf t = level ∧ t ≠ .error ∧ 1 ≤ level.level ∧
      opcode ≠ .eof ∧ opcode ≠ .dot ∧ opcode ≠ .ternary ∧ opcode ≠ .index := by
  cases t <;> cases h <;> exact ⟨rfl, rfl, nofun, by decide, nofun, nofun, nofun, nofun⟩

/-- An opcode without a case of its own makes a BINARY node. -/
theorem combine_binary {lhs rhs : Node} {opcode : Opcode} (h : opcode ≠ .eof ∧ opcode ≠ .dot ∧ opcode ≠ .ternary ∧ opcode ≠ .index) :
    combine lhs opcode rhs = binaryTurn lhs rhs opcode := by
  obtain ⟨heof, hdot, hternary, hindex⟩ := h
  cases opcode <;> first | rfl | contradiction

section Behind

variable {reach' : Nat} {xs ys : List Token} {x y : Node}

theorem brings_operator {level : PrecedenceRule} {opcode : Opcode} {t : Token} (hx : Brings z rule reach xs x)
    (hop : binaryOperator t.type = some (level, opcode)) (hrule : rule.level ≤ level.level) (hreach : level.level < reach)
    (hy : ReadsBelow z level reach' ys y) (hreach' : 1 ≤ reach') (hfold : folded opcode x y = some node) :
    Brings z rule reach' (xs ++ t :: ys) node := by
  obtain ⟨-, hlevel, hclean, -, hcases⟩ := operator_rule hop (recAt z 0)
  refine hx.extends_ hclean (by rw [hlevel]; exact hreach) fun tail n p htail hbelow hn hp => ?_
  have hcurrent : p.current = t := hp.at_head.current
  have hys : Clean (tail.prepend ys) := by simpa using hy.clean hreach' [] tail
  obtain ⟨q, hrun, hq⟩ := hy tail n .null (advanced p) htail hbelow (by omega) (hp.advanced hys)
  have hbinary : binary (recAt z (n + 1)) .null p = .ok (opcode, y) q := by
    unfold binary
    rw [bind_ok (advance_eq p), bind_get, advanced_previous, hcurrent, hop]
    exact bind_ok hrun
  obtain ⟨q', hturn, hq'⟩ := binaryTurn_folded hfold hq
  refine ⟨q', ?_, hq'⟩
  rw [turn_operator (by rw [hcurrent, hlevel]; exact hrule) (by rw [hcurrent]; exact (operator_rule hop _).1) hbinary,
    combine_binary hcases]
  exact hturn

theorem brings_ternary {reach₁ : Nat} {zs : List Token} {c : Node} (question : Mark .question) (colon : Mark .colon)
    (hc : Brings z rule reach xs c) (hrule : rule.level ≤ PrecedenceRule.ternary.level)
    (hreach : PrecedenceRule.ternary.level < reach) (hx : ReadsBelow z .ternary reach₁ ys x) (hreach₁ : 1 ≤ reach₁)
    (hy : ReadsBelow z .ternary reach' zs y) (hreach' : 1 ≤ reach') :
    Brings z rule reach' (xs ++ question.token :: (ys ++ colon.token :: zs)) (.ternary c x y) := by
  refine hc.extends_ (by rw [question.isType]; nofun) (by rw [question.isType]; exact hreach)
    fun tail n p htail hbelow hn hp => ?_
  rw [List.length_append, List.length_cons] at hn
  have hcurrent : p.current.type = .question := by rw [hp.at_head.current, question.isType]
  have hzs : Clean (tail.prepend zs) := by simpa using hy.clean hreach' [] tail
  obtain ⟨q, hrun, hq⟩ := hx.read_to (t := colon.token) (by rw [colon.isType]; nofun) (by rw [colon.isType]; exact hreach₁) .null
    (by omega : 8 * ys.length + 7 ≤ n) (hp.advanced (hx.clean hreach₁ _ tail))
  obtain ⟨hcolon, hq'⟩ := consume_poised colon "Expected ':' in ternary expression" hzs hq
  obtain ⟨q', hrun', hq''⟩ := hy tail n .null (advanced q) htail hbelow (by omega) hq'
  have hquestion : Parse.question (recAt z (n + 1)) .null p = .ok (.ternary, .ternary .null x y) q' := by
    unfold Parse.question
    rw [bind_ok (advance_eq p)]
    exact (bind_ok hrun).trans ((bind_ok hcolon).trans (bind_ok hrun'))
  refine ⟨q', ?_, hq''⟩
  rw [turn_operator (by rw [hcurrent]; exact hrule) (by rw [hcurrent]; rfl) hquestion]
  rfl

/-- The right side of a dot is a BINARY node, whose right side is no null pointer. -/
theorem brings_dot {t : Token} {left right : Node} {opcode : Opcode} (hx : Brings z rule reach xs x)
    (ht : t.type = .dot ∨ t.type = .colonColon) (hrule : rule.level ≤ PrecedenceRule.call.level)
    (hreach : PrecedenceRule.call.level < reach) (hy : ReadsBelow z .call reach' ys (.binary opcode left right))
    (hreach' : 1 ≤ reach') :
    Brings z rule reach' (xs ++ t :: ys) (.binary .dot x (dotted (.binary opcode left right))) := by
  have htable (rec : Rec) : levelOf t.type = .call ∧ t.type ≠ .error ∧ (getRule rec t.type).infixRule = some (dot rec) := by
    rcases ht with ht | ht <;> rw [ht] <;> exact ⟨rfl, nofun, rfl⟩
  obtain ⟨hlevel, hclean, -⟩ := htable (recAt z 0)
  have hsolid := hy.solid hreach'
  refine hx.extends_ hclean (by rw [hlevel]; exact hreach) fun tail n p htail hbelow hn hp => ?_
  have hcurrent : p.current = t := hp.at_head.current
  have hys : Clean (tail.prepend ys) := by simpa using hy.clean hreach' [] tail
  obtain ⟨q, hrun, hq⟩ := hy tail n .null (advanced p) htail hbelow (by omega) (hp.advanced hys)
  have hdot : dot (recAt z (n + 1)) .null p = .ok (.dot, .binary opcode left right) q := by
    unfold dot
    rw [bind_ok (advance_eq p)]
    refine (bind_ok hrun).trans ?_
    show (if (false || right.isNull) = true then _ else _ : P (Opcode × Node)) q = _
    rw [hsolid.2.not_null]
    rfl
  obtain ⟨q', hwalk, hq'⟩ := dottify_dotted _ hsolid q tail hq
  refine ⟨q', ?_, hq'⟩
  rw [turn_operator (by rw [hcurrent, hlevel]; exact hrule) (by rw [hcurrent]; exact (htable _).2.2) hdot]
  exact (bind_ok hwalk).trans (binaryTurn_unfolded rfl _ _ _)

theorem brings_call (left : Mark .parenLeft) (arguments : Arguments z) (right : Mark .parenRight)
    (hx : Brings z rule reach xs x) (hrule : rule.level ≤ PrecedenceRule.call.level)
    (hreach : PrecedenceRule.call.level < reach) :
    Brings z rule endless (xs ++ left.token :: (arguments.tokens ++ [right.token])) (.binary .fnCall x arguments.callNode) := by
  refine hx.extends_ (by rw [left.isType]; nofun) (by rw [left.isType]; exact hreach) fun tail n p htail _ hn hp => ?_
  rw [List.length_append] at hn
  have hcurrent : p.current.type = .parenLeft := by rw [hp.at_head.current, left.isType]
  obtain ⟨q, hcall, hq⟩ := fnCall_reads left arguments right .null (by omega : 8 * arguments.tokens.length + 7 ≤ n) htail hp
  refine ⟨q, ?_, hq⟩
  rw [turn_operator (by rw [hcurrent]; exact hrule) (by rw [hcurrent]; rfl) hcall]
  exact binaryTurn_unfolded rfl _ _ _

theorem brings_indexed (form : IndexForm z) (hx : Brings z rule reach xs x) (hrule : rule.level ≤ PrecedenceRule.call.level)
    (hreach : PrecedenceRule.call.level < reach) : Brings z rule endless (xs ++ form.tokens) (form.onto x) := by
  refine hx.extends_ (by rw [form.left.isType]; nofun) (by rw [form.left.isType]; exact hreach) fun tail n p htail _ hn hp => ?_
  have hcurrent : p.current.type = .bracketLeft := by rw [hp.at_head.current, form.left.isType]
  obtain ⟨q, haccess, hq⟩ := indexAccess_reads form .null (by omega : 8 * form.inner.length + 7 ≤ n) htail hp
  refine ⟨q, ?_, hq⟩
  rw [turn_operator (by rw [hcurrent]; exact hrule) (by rw [hcurrent]; rfl) haccess]
  rfl

theorem castingInfix_juxtaposed {t : Token} (h : Juxtaposed t y) (handle : Node) {p : Parser} (hp : p.current = t) :
    castingInfix handle p = .ok (.typeCast, y) (advanced p) := by
  have hprev : (advanced p).previous = t := by rw [advanced_previous, hp]
  unfold castingInfix
  rw [bind_ok (advance_eq p), bind_get, hprev]
  cases h with
  | name name =>
    rw [name.isType]
    exact bind_ok (identifier_name name handle hprev)
  | @literal _ l ht hl =>
    have hatomic : atomic handle (advanced p) = .ok (.eof, emitASTNodeLiteral l) (advanced p) := atomic_literal (by rw [hprev, hl])
    rcases ht with ht | ht | ht | ht <;> rw [ht] <;> exact bind_ok hatomic

theorem brings_juxtaposed {t : Token} (hx : Brings z rule endless xs x) (hrule : rule.level ≤ PrecedenceRule.primary.level)
    (h : Juxtaposed t y) : Brings z rule endless (xs ++ [t]) (.binary .typeCast x y) := by
  have htable (rec : Rec) : levelOf t.type = .primary ∧ t.type ≠ .error ∧ (getRule rec t.type).infixRule = some castingInfix := by
    cases h with
    | name name =>
      rw [name.isType]
      exact ⟨rfl, nofun, rfl⟩
    | literal ht _ => rcases ht with ht | ht | ht | ht <;> rw [ht] <;> exact ⟨rfl, nofun, rfl⟩
  obtain ⟨hlevel, hclean, -⟩ := htable (recAt z 0)
  refine hx.extends_ hclean (by rw [hlevel]; decide) fun tail n p htail _ hn hp => ?_
  have hcurrent : p.current = t := hp.at_head.current
  refine ⟨advanced p, ?_, hp.advanced htail⟩
  rw [turn_operator (by rw [hcurrent, hlevel]; exact hrule) (by rw [hcurrent]; exact (htable _).2.2)
    (castingInfix_juxtaposed h .null hcurrent)]
  exact binaryTurn_unfolded rfl _ _ _

/-- Behind a name `++` and `--` end the expression at once. -/
theorem readsBelow_step {emit : Literal → Node} {type : TokenType} (htype : levelOf type = .call ∧ type ≠ .error)
    (hsteps : ∀ rec, (getRule rec type).infixRule = some (stepInfix emit)) (name : NameToken) (m : Mark type)
    (hrule : rule.level ≤ PrecedenceRule.call.level) :
    ReadsBelow z rule endless [name.token, m.token] (emit name.literal) := by
  intro tail n handle p hclean _ hn hp
  have hname : p.current.type = .identifier := by rw [hp.at_head.current, name.isType]
  have hq : Poised (advanced p) (tail.prepend [m.token]) := hp.advanced (mark_clean m htype.2 [] tail)
  have hprev : (advanced p).previous = name.token := by rw [advanced_previous, hp.at_head.current]
  have hcurrent : (advanced p).current.type = type := by rw [hq.at_head.current, m.isType]
  have hq' : Poised (advanced (advanced p)) tail := hq.advanced hclean
  have hfree (p : Parser) : freeASTNode (.literal name.literal) p = .ok () (accessed (.free (.literal name.literal)) p) :=
    access_defined rfl
  have hstep : stepInfix emit .null (advanced p) =
      .ok (.eof, emit name.literal) (accessed (.free (.literal name.literal)) (advanced (advanced p))) := by
    unfold stepInfix
    rw [bind_ok (steppedIdentifier_name name hprev hq.quiet)]
    exact (bind_ok (advance_eq _)).trans (bind_ok (hfree _))
  have hturn : prattTurn (recAt z n) rule (.literal name.literal) (advanced p) =
      .ok (.inr (.returned (emit name.literal)))
        (accessed (.free (.literal name.literal)) (accessed (.free (.literal name.literal)) (advanced (advanced p)))) := by
    rw [turn_operator (by rw [hcurrent, htype.1]; exact hrule) (by rw [hcurrent]; exact hsteps _) hstep]
    exact bind_ok (hfree _)
  obtain ⟨n, rfl⟩ : ∃ n', n = n' + 1 := ⟨n - 1, by omega⟩
  refine ⟨_, ?_, (hq'.accessed (.free (.literal name.literal))).accessed (.free (.literal name.literal))⟩
  rw [parse_by_rule (by rw [hname]; rfl) (identifier_name name handle hprev), recAt_fuel, loop_succ]
  exact (bind_run (bind_ok hturn)).trans rfl

end Behind

end Xvr.Frontend.Parse
