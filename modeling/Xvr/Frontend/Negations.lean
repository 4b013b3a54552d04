/-
  Xvr.Frontend.Negations — minus signs in front of an integer literal (`unary` of
  `xvr_parser.cpp`).

  The rule asks only whether its operand is some integer. It then reads the 32-bit member
  of the union, whatever was stored there, and answers with the plain INTEGER kind.

  Proved:
  - `negated_value_iff`: the number held is negated unless it is too wide for that member
    or a negative one too narrow for it.
  - `negations_iff`: minus signs keep the kind and negate the number by their parity
    exactly when the kind is INTEGER.
  - `byte_negated`: `-5i8` is no INT8.
-/

import Xvr.Frontend.Grouping
import Xvr.Frontend.NumberValues

namespace Xvr.Frontend.Parse

open Xvr.Runtime Xvr.Lib

/-! ## Negated literals -/

/-- A signed kind can hold the number. -/
def IntKind.Represents (k : IntKind) (v : Int) : Prop := -2 ^ (k.width - 1) ≤ v ∧ v < 2 ^ (k.width - 1)

instance (k : IntKind) (v : Int) : Decidable (k.Represents v) := inferInstanceAs (Decidable (_ ∧ _))

/-- What a number becomes under so many minus signs. -/
def byParity (n : Nat) (v : Int) : Int := if n % 2 = 0 then v else -v

theorem negateLiteral_integer {l : Literal} (h : l.isInteger = true) : negateLiteral l = .integer (-l.asInteger) := by
  unfold negateLiteral
  rw [if_pos h]

theorem integerValue_isInteger {l : Literal} {v : Int} (h : integerValue l = some v) : l.isInteger = true := by
  cases l <;> first | rfl | cases h

/-- Minus signs leave some integer. -/
theorem negations_isInteger {l : Literal} (h : l.isInteger = true) (n : Nat) : (negateLiteral^[n] l).isInteger = true := by
  cases n with
  | zero => exact h
  | succ n =>
    induction n with
    | zero =>
      show (negateLiteral l).isInteger = true
      rw [negateLiteral_integer h]
      rfl
    | succ n ih =>
      rw [Function.iterate_succ_apply', negateLiteral_integer ih]
      rfl

/-- Behind a minus sign the kind is INTEGER. -/
theorem negations_kind {l : Literal} (h : l.isInteger = true) (n : Nat) : (negateLiteral^[n + 1] l).kind = .integer := by
  rw [Function.iterate_succ_apply', negateLiteral_integer (negations_isInteger h n)]
  rfl

/-- On plain integers, minus signs go by their parity. -/
theorem negations_integer (w : BitVec 32) (n : Nat) :
    negateLiteral^[n] (.integer w) = .integer (if n % 2 = 0 then w else -w) := by
  induction n with
  | zero => rfl
  | succ n ih =>
    rw [Function.iterate_succ_apply', ih, negateLiteral_integer rfl, asInteger_integer]
    rcases Nat.mod_two_eq_zero_or_one n with h | h
    · rw [if_pos h, if_neg (by omega)]
    · rw [if_neg (by omega), if_pos (by omega), BitVec.neg_neg]

theorem negations_value {w : BitVec 32} (h : w ≠ BitVec.intMin 32) (n : Nat) :
    integerValue (negateLiteral^[n] (.integer w)) = some (byParity n w.toInt) := by
  rw [negations_integer, integerValue, byParity]
  split
  · rfl
  · rw [BitVec.toInt_neg_of_ne_intMin h]

theorem negated_word (l : Literal) : (-l.asInteger).toInt = (-(l.word.toNat : Int)).bmod (2 ^ 32) := by
  have h : l.asInteger = BitVec.ofInt 32 l.word.toNat := by
    rw [BitVec.ofInt_natCast, Literal.asInteger, BitVec.truncate_eq_setWidth]
    exact (BitVec.ofNat_toNat 32 l.word).symm
  rw [h, ← BitVec.ofInt_neg, BitVec.toInt_ofInt]

/-- One minus sign negates the number, unless it is too wide for the 32-bit member, or a
    negative one that was stored narrower. -/
theorem negated_value_iff {l : Literal} {t : TokenType} {k : IntKind} {v : Int} (ht : integerKind t = some k)
    (hk : l.kind = k.type) (hs : k.isSigned = true) (hv : integerValue l = some v) (hneg : k.Represents (-v)) :
    integerValue (negateLiteral l) = some (-v) ↔ (0 ≤ v ∨ 32 ≤ k.width) ∧ -2 ^ 31 < v ∧ v ≤ 2 ^ 31 := by
  rw [negateLiteral_integer (integerValue_isInteger hv), integerValue, Option.some_inj, negated_word]
  unfold integerKind at ht
  unfold IntKind.Represents at hneg
  split at ht <;> cases ht <;> try cases hs
  all_goals
    cases l <;> cases hk
    cases hv
    rename_i w
    have hlt := w.isLt
    simp only [Literal.word, BitVec.toInt_eq_toNat_bmod, BitVec.truncate_eq_setWidth, BitVec.toNat_setWidth, Int.bmod] at *
    omega

/-! ## Parsed minus signs -/

def minusTokens (minuses : List (Mark .minus)) : List Token := minuses.map Mark.token

/-- A literal token below the next operator is read as its literal. -/
theorem parse_literal {rec : Rec} {handle : Node} {rule : PrecedenceRule} {n : Nat} {t : Token} {l : Literal} {f : ParseFn}
    {tail : TokenStream} {p : Parser} (hfuel : rec.fuel = n + 1) (hrule : (getRule rec t.type).prefixRule = some f)
    (hf : f handle (advanced p) = .ok (.eof, .literal l) (advanced p)) (hstop : Stops rule tail) (hp : At p t tail) :
    parsePrecedence rec handle rule p = .ok (.literal l) (advanced p) := by
  rw [parse_by_rule (by rw [hp.current]; exact hrule) hf, hfuel]
  exact expression_end (advanced_before hp) hstop

theorem integer_rule (rec : Rec) {t : TokenType} {k : IntKind} (h : integerKind t = some k) :
    (getRule rec t).prefixRule = some atomic := by
  unfold integerKind at h
  split at h <;> first | rfl | cases h

/-- A minus in front of an integer literal negates it at once. -/
theorem unary_integer {rec : Rec} (handle : Node) {l : Literal} {p q : Parser} (hprev : p.previous.type = .minus)
    (hrun : rec.parsePrecedence .null .term p = .ok (.literal l) q) (h : l.isInteger = true) :
    unary rec handle p = .ok (.eof, .literal (negateLiteral l)) q := by
  unfold unary
  rw [bind_get, if_pos hprev]
  unfold unaryMinus
  rw [bind_ok hrun]
  show (if l.isInteger || l.isFloat then _ else _ : P (Opcode × Node)) q = _
  rw [h]
  rfl

/-- Minus signs in front of an integer literal are read as so many negations of it. -/
theorem negations_read (z : Parser → Node → Bool) {t : Token} {k : IntKind} (ht : integerKind t.type = some k) {l : Literal}
    (hl : tokenLiteral t = some l) {tail : TokenStream} (hterm : Stops .term tail) (minuses : List (Mark .minus)) (n : Nat)
    (handle : Node) {rule : PrecedenceRule} (hstop : Stops rule tail) {p : Parser}
    (hp : Before p (tail.prepend (minusTokens minuses ++ [t]))) :
    ∃ q, parsePrecedence (recAt z (minuses.length + n + 1)) handle rule p = .ok (.literal (negateLiteral^[minuses.length] l)) q ∧
      Before q tail := by
  induction minuses generalizing n handle rule p with
  | nil =>
    have hat : At p t (tail.prepend []) := hp
    have hatomic : atomic handle (advanced p) = .ok (.eof, .literal l) (advanced p) := by
      obtain ⟨l', hl', -, hcopy, -⟩ := tokenLiteral_integer ht
      cases hl.symm.trans hl'
      rw [atomic_literal (by rw [advanced_previous, hat.current]; exact hl), emitASTNodeLiteral, hcopy]
    exact ⟨advanced p, parse_literal (recAt_fuel _) (integer_rule _ ht) hatomic hstop hat, advanced_before hat⟩
  | cons minus minuses ih =>
    have hat : At p minus.token (tail.prepend (minusTokens minuses ++ [t])) := hp
    obtain ⟨q, hrun, hq⟩ := ih n .null hterm (advanced_before hat)
    have hint : (negateLiteral^[minuses.length] l).isInteger = true := by
      obtain ⟨l', hl', -, -, hvalue⟩ := tokenLiteral_integer ht
      cases hl.symm.trans hl'
      exact negations_isInteger (integerValue_isInteger hvalue) _
    have hprev : (advanced p).previous.type = .minus := by rw [advanced_previous, hat.current, minus.isType]
    have hsize : (minus :: minuses).length + n + 1 = (minuses.length + n + 1) + 1 := by
      rw [List.length_cons]
      omega
    refine ⟨q, ?_, hq⟩
    rw [hsize, parse_by_rule (by rw [hat.current, minus.isType]; rfl) (unary_integer handle hprev hrun hint), recAt_fuel]
    rw [List.length_cons, Function.iterate_succ_apply']
    exact expression_end hq hstop

/-- The node is a literal of the kind that holds the number. -/
def IsNumber (k : IntKind) (v : Int) (node : Node) : Prop :=
  ∃ l, node = .literal l ∧ l.kind = k.type ∧ integerValue l = some v

/-- Minus signs in front of an integer literal keep its kind and negate its number by
    their parity exactly when there are none or the kind is INTEGER. -/
theorem negations_iff (z : Parser → Node → Bool) {t : Token} {k : IntKind} (ht : integerKind t.type = some k)
    (hs : k.isSigned = true) {l : Literal} (hl : tokenLiteral t = some l) {v : Int} (hv : integerValue l = some v)
    (hneg : k.Represents (-v)) (minuses : List (Mark .minus)) (handle : Node) {rule : PrecedenceRule} {tail : TokenStream}
    (hterm : Stops .term tail) (hstop : Stops rule tail) {p : Parser}
    (hp : Before p (tail.prepend (minusTokens minuses ++ [t]))) :
    ∃ node q, (recAt z (fuelFor p)).parsePrecedence handle rule p = .ok node q ∧
      (IsNumber k (byParity minuses.length v) node ↔ minuses = [] ∨ k.type = .integer) := by
  have hfuel : minuses.length + 1 + 2 ≤ fuelFor p := by
    have h := fuel_of_tokens (by simp) hp
    rwa [List.length_append, minusTokens, List.length_map] at h
  obtain ⟨n, hn⟩ := Nat.exists_eq_add_of_le hfuel
  obtain ⟨q, hrun, -⟩ := negations_read z ht hl hterm minuses (n + 1) handle hstop hp
  have hsize : fuelFor p = (minuses.length + (n + 1) + 1) + 1 := by omega
  refine ⟨_, q, by rw [hsize]; exact hrun, ?_⟩
  have hkind : l.kind = k.type := by
    obtain ⟨l', hl', hkind, -⟩ := tokenLiteral_integer ht
    cases hl.symm.trans hl'
    exact hkind
  constructor
  · rintro ⟨l', hnode, hkind', -⟩
    cases hnode
    cases minuses with
    | nil => exact Or.inl rfl
    | cons minus minuses => exact Or.inr (hkind'.symm.trans (negations_kind (integerValue_isInteger hv) _))
  · intro h
    by_cases hnil : minuses = []
    · subst hnil
      exact ⟨l, rfl, hkind, hv⟩
    · have hinteger := h.resolve_left hnil
      rw [hinteger] at hkind
      cases l <;> cases hkind
      rename_i w
      have hk : k.width = 32 := by
        unfold integerKind at ht
        split at ht <;> cases ht <;> first | rfl | cases hinteger
      have hw : w ≠ BitVec.intMin 32 := by
        rintro rfl
        cases hv
        unfold IntKind.Represents at hneg
        rw [hk] at hneg
        exact absurd hneg (by decide)
      cases hv
      refine ⟨_, rfl, ?_, negations_value hw _⟩
      rw [negations_integer]
      exact hinteger.symm

def byteFive : Token := ⟨.literalInt8, "5i8".toList, 1⟩

def minusByte : Parser := initParser ((tokensOf [.semicolon]).prepend [minusMark.token, byteFive])

/-- `-5i8` is the INTEGER -5. -/
theorem byte_negated :
    ¬ ∃ node q, (recAt neverZero (fuelFor minusByte)).parsePrecedence .null .assignment minusByte = .ok node q ∧
      IsNumber ⟨.int8, true, 8⟩ (byParity 1 5) node := by
  rintro ⟨node, q, hrun, l, rfl, hkind, -⟩
  have hparsed : ∃ q, (recAt neverZero (fuelFor minusByte)).parsePrecedence .null .assignment minusByte =
      .ok (.literal (.integer (-5))) q := ⟨_, rfl⟩
  obtain ⟨q', hparsed⟩ := hparsed
  rw [hparsed] at hrun
  cases hrun
  cases hkind

/-- `- -1;` -/
theorem negations_iff_two :
    ∃ node q, (recAt neverZero (fuelFor (initParser ((tokensOf [.semicolon]).prepend
        (minusTokens [minusMark, minusMark] ++ [one.token]))))).parsePrecedence .null .assignment
        (initParser ((tokensOf [.semicolon]).prepend (minusTokens [minusMark, minusMark] ++ [one.token]))) = .ok node q ∧
      (IsNumber ⟨.integer, true, 32⟩ (byParity 2 1) node ↔ [minusMark, minusMark] = [] ∨ LiteralType.integer = .integer) :=
  negations_iff neverZero (t := one.token) (l := .integer 1) rfl rfl rfl rfl (by decide) [minusMark, minusMark] .null
    (semicolon_stops.mono (by decide)) semicolon_stops ⟨rfl, rfl⟩

end Xvr.Frontend.Parse
