/-
  Xvr.Frontend.SubExpressions — any expression, by how `parsePrecedence` reads it.

  `Reads` says of tokens that they are read as one node wherever they stand, up to a token
  that ends them; `Opens` that they bring the Pratt loop to one node, whatever follows.
  Which expressions these are is left open.

  Proved:
  - `Opens.reads`: what the loop has come to is what is read where it ends.
  - `Reads.starts`, `Reads.solid`, `Reads.given`: the tokens start with a prefix rule, and the
    node is a real one.
  - `Reads.parse`: the whole parser reads an expression where it stands.
  - `turn_operator`, `loop_turn`: one turn of the loop.
  - `opens_token`, `opens_literal`, `opens_name`: one token with a rule that reads no further.
-/

import Xvr.Frontend.ArithmeticRuns
import Xvr.Frontend.Blanks
import Xvr.Frontend.NumberValues

namespace Xvr.Frontend.Parse

open Xvr.Runtime Xvr.Lib

/-! ## Standing in front of tokens -/

/-- The first token is not one of the lexer's errors. -/
def Clean (s : TokenStream) : Prop := (scanLexer s).1.type ≠ .error

/-- The parser is about to read the stream, and nothing is wrong. -/
structure Poised (p : Parser) (s : TokenStream) : Prop where
  before : Before p s
  quiet : p.panic = false

theorem prepend_append (tail : TokenStream) (xs ys : List Token) : tail.prepend (xs ++ ys) = (tail.prepend ys).prepend xs := by
  simp [TokenStream.prepend]

theorem Poised.at_head {p : Parser} {t : Token} {ts : List Token} {tail : TokenStream} (h : Poised p (tail.prepend (t :: ts))) :
    At p t (tail.prepend ts) := h.before

theorem Poised.advanced {p : Parser} {t : Token} {ts : List Token} {tail : TokenStream} (h : Poised p (tail.prepend (t :: ts)))
    (hclean : Clean (tail.prepend ts)) : Poised (advanced p) (tail.prepend ts) := by
  have hat := h.at_head
  refine ⟨advanced_before hat, ?_⟩
  have hshift : ¬ (shift p).current.type = .error := by
    show ¬ (scanLexer p.lexer).1.type = .error
    rw [hat.lexer]
    exact hclean
  unfold Parse.advanced
  rw [if_neg hshift]
  exact h.quiet

theorem Poised.accessed {p : Parser} {s : TokenStream} (h : Poised p s) (a : Access) : Poised (accessed a p) s :=
  ⟨accessed_before h.before, h.quiet⟩

/-- A parser in front of a stream. -/
def standing (s : TokenStream) : Parser :=
  { blankParser s with current := (scanLexer s).1, lexer := (scanLexer s).2 }

theorem standing_poised (s : TokenStream) : Poised (standing s) s := ⟨⟨rfl, rfl⟩, rfl⟩

/-! ## Expressions -/

variable (z : Parser → Node → Bool)

/-- In front of a token that ends them, the tokens are read as the node. -/
def Reads (rule : PrecedenceRule) (tokens : List Token) (node : Node) : Prop :=
  ∀ tail n handle p, Clean tail → Stops rule tail → 8 * tokens.length + 7 ≤ n → Poised p (tail.prepend tokens) →
    ∃ q, parsePrecedence (recAt z n) handle rule p = .ok node q ∧ Poised q tail

/-- In front of any token, the tokens bring the loop to the node. -/
def Opens (rule : PrecedenceRule) (tokens : List Token) (node : Node) : Prop :=
  ∀ tail n handle p, Clean tail → 8 * tokens.length + 7 ≤ n → Poised p (tail.prepend tokens) →
    ∃ k q, n ≤ k + tokens.length ∧ Poised q tail ∧ parsePrecedence (recAt z n) handle rule p =
      (loop .outOfFuel (prattTurn (recAt z n) rule) k node >>= endExpression rule) q

variable {z} {rule : PrecedenceRule} {tokens : List Token} {node : Node}

/-- What the loop has come to is what is read where it ends. -/
theorem Opens.reads (h : Opens z rule tokens node) : Reads z rule tokens node := by
  intro tail n handle p hclean hstop hn hp
  obtain ⟨k, q, hk, hq, hrun⟩ := h tail n handle p hclean hn hp
  obtain ⟨k, rfl⟩ : ∃ k', k = k' + 1 := ⟨k - 1, by omega⟩
  exact ⟨q, hrun.trans (expression_end hq.before hstop), hq⟩

/-- The token has a prefix rule. -/
def startsExpression (t : TokenType) : Bool := (getRule (recAt neverZero 0) t).prefixRule.isSome

theorem prefixRule_isSome (rec : Rec) (t : TokenType) : (getRule rec t).prefixRule.isSome = startsExpression t := by
  cases t <;> rfl

theorem parse_refused (rec : Rec) (handle : Node) {p : Parser} (h : startsExpression p.current.type = false) :
    parsePrecedence rec handle rule p = .ok .null (raise (advanced p).previous "Expected expression" (advanced p)) := by
  have hnone : (getRule rec p.current.type).prefixRule = none := by
    have hsome := prefixRule_isSome rec p.current.type
    rw [h] at hsome
    exact Option.isSome_eq_false_iff.mp hsome |> Option.isNone_iff_eq_none.mp
  unfold parsePrecedence
  rw [bind_ok (advance_eq p), bind_get, advanced_previous, hnone]
  rfl

/-- An end of every expression. -/
theorem endless_clean : Clean (tokensOf []) := by
  unfold Clean
  decide

theorem reads_run (h : Reads z rule tokens node) (hrule : rule ≠ .none) : ∃ q,
    parsePrecedence (recAt z (8 * tokens.length + 7)) .null rule (standing ((tokensOf []).prepend tokens)) = .ok node q ∧
      q.panic = false := by
  have hstop : Stops rule (tokensOf []) := by
    cases rule <;> first | exact absurd rfl hrule | (unfold Stops; decide)
  obtain ⟨q, hrun, hq⟩ := h _ _ .null _ endless_clean hstop (Nat.le_refl _) (standing_poised _)
  exact ⟨q, hrun, hq.quiet⟩

/-- The tokens start with a prefix rule. -/
theorem Reads.starts (h : Reads z rule tokens node) (hrule : rule ≠ .none) :
    ∃ t ts, tokens = t :: ts ∧ startsExpression t.type = true := by
  obtain ⟨q, hrun, hq⟩ := reads_run h hrule
  have hfalse (hstart : startsExpression (standing ((tokensOf []).prepend tokens)).current.type = false) : False := by
    rw [parse_refused _ _ hstart] at hrun
    cases hrun
    rw [raise_panic] at hq
    cases hq
  cases tokens with
  | nil => exact (hfalse rfl).elim
  | cons t ts =>
    refine ⟨t, ts, rfl, ?_⟩
    cases hstart : startsExpression t.type with
    | false => exact (hfalse hstart).elim
    | true => rfl

/-- The node is a real one. -/
theorem Reads.solid (h : Reads z rule tokens node) (hrule : rule ≠ .none) : Solid node := by
  obtain ⟨q, hrun, hq⟩ := reads_run h hrule
  have hremaining : remaining (standing ((tokensOf []).prepend tokens)) ≤ tokens.length := by
    unfold remaining
    cases tokens with
    | nil => exact Nat.le_refl _
    | cons t ts =>
      show (ts ++ []).length + (if t.type = .eof then 0 else 1) ≤ ts.length + 1
      rw [List.append_nil]
      split <;> omega
  have hspec := (recAt_spec z (8 * tokens.length + 8)).parsePrecedence .null rule (standing ((tokensOf []).prepend tokens)) (by omega)
  exact (Meets.ok hspec hrun).2.ruled.solid hq

theorem Reads.given (h : Reads z rule tokens node) (hrule : rule ≠ .none) : Given node := by
  obtain ⟨q, hrun, -⟩ := reads_run h hrule
  have hnull : Given .null := nofun
  exact parse_given z _ hnull hrun

theorem stops_none {tail : TokenStream} (h : Stops rule tail) : rule ≠ .none := by
  rintro rfl
  exact h (Nat.zero_le _)

theorem fuel_of_head {t : Token} {ts : List Token} {tail : TokenStream} {p : Parser} (ht : t.type ≠ .eof)
    (hp : Poised p (tail.prepend (t :: ts))) : 8 * (t :: ts).length + 8 ≤ fuelFor p := by
  have hat := hp.at_head
  unfold fuelFor remaining
  rw [if_neg (by rw [hat.current]; exact ht), hat.lexer]
  simp only [TokenStream.prepend, List.length_append, List.length_cons]
  omega

/-- The whole parser reads an expression where it stands. -/
theorem Reads.parse (h : Reads z rule tokens node) (handle : Node) {tail : TokenStream} (hclean : Clean tail)
    (hstop : Stops rule tail) {p : Parser} (hp : Poised p (tail.prepend tokens)) :
    ∃ q, (recAt z (fuelFor p)).parsePrecedence handle rule p = .ok node q ∧ Poised q tail := by
  obtain ⟨t, ts, rfl, hstart⟩ := h.starts (stops_none hstop)
  have hfuel := fuel_of_head (by rintro heof; rw [heof] at hstart; cases hstart) hp
  obtain ⟨n, hn⟩ : ∃ n, fuelFor p = n + 1 := ⟨fuelFor p - 1, by omega⟩
  rw [hn]
  exact h tail n handle p hclean hstop (by omega) hp

/-- In front of an expression the parser stands clean. -/
theorem clean_starts {t : Token} {ts : List Token} (tail : TokenStream) (h : startsExpression t.type = true) :
    Clean (tail.prepend (t :: ts)) := by
  intro herror
  rw [show (scanLexer (tail.prepend (t :: ts))).1 = t from rfl] at herror
  rw [herror] at h
  cases h

/-- In front of an infix rule of its level or above, a turn of the loop is that rule's. -/
theorem turn_operator {rec : Rec} {f : ParseFn} {opcode : Opcode} {lhs rhs : Node} {p q : Parser}
    (hrule : rule ≤ levelOf p.current.type) (hoperator : (getRule rec p.current.type).infixRule = some f)
    (hrun : f .null p = .ok (opcode, rhs) q) : prattTurn rec rule lhs p = combine lhs opcode rhs q := by
  unfold prattTurn
  rw [bind_get, getRule_precedence, if_pos hrule, hoperator]
  exact bind_ok hrun

/-- A turn that goes on brings the loop to what it makes of the node. -/
theorem loop_turn {rec : Rec} {k : Nat} {lhs next : Node} {p q : Parser} (h : prattTurn rec rule lhs p = .ok (.inl next) q) :
    (loop .outOfFuel (prattTurn rec rule) (k + 1) lhs >>= endExpression rule) p =
      (loop .outOfFuel (prattTurn rec rule) k next >>= endExpression rule) q := by
  rw [loop_succ]
  exact bind_run (bind_ok h)

/-- One token with a rule that reads no further. -/
theorem opens_token {t : Token} {f : ParseFn} (hrule : ∀ rec, (getRule rec t.type).prefixRule = some f)
    (hrun : ∀ handle p, p.previous = t → f handle p = .ok (.eof, node) p) : Opens z rule [t] node := by
  intro tail n handle p hclean hn hp
  have hat := hp.at_head
  refine ⟨n, advanced p, by simp, hp.advanced hclean, ?_⟩
  have hprev : (advanced p).previous = t := by rw [advanced_previous, hat.current]
  rw [parse_by_rule (by rw [hat.current]; exact hrule _) (hrun handle _ hprev), recAt_fuel]

/-- A literal's token. -/
theorem opens_literal {t : Token} {l : Literal} (h : tokenLiteral t = some l) : Opens z rule [t] (emitASTNodeLiteral l) := by
  refine opens_token (f := atomic) (fun rec => ?_) fun handle p hp => atomic_literal (by rw [hp, h])
  unfold tokenLiteral at h
  split at h
  all_goals first
    | (rename_i htype; rw [htype]; rfl)
    | cases h

/-- A name. -/
theorem opens_name {t : Token} (h : t.type = .identifier) (hlen : t.lexeme.length ≤ maxIdentifierLength) :
    Opens z rule [t] (.literal (.identifier t.lexeme)) := by
  refine opens_token (f := identifier) (fun rec => by rw [h]; rfl) fun handle p hp => ?_
  have hname : identifierLiteral t p = .ok (.identifier t.lexeme) p := by
    unfold identifierLiteral errorIf
    rw [bind_get, if_neg (by simpa using hlen), List.take_of_length_le hlen]
    rfl
  unfold identifier
  rw [bind_get, hp, if_neg (not_not.mpr h)]
  exact bind_ok hname

end Xvr.Frontend.Parse
