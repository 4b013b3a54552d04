/-
  Xvr.Frontend.NumberValues — the value the parser reads from an integer token (`removeChar`,
  `atomic` of `xvr_parser.cpp`).

  Every kind has its own `sscanf`; none of them asks whether the number fits the kind.

  Proved:
  - `scanned_number`: what is scanned is the number the digits spell.
  - `integer_value_iff`: an integer token gives the number it spells, of its kind, exactly
    when that kind can hold it.
  - `byte_wraps`: `300i8` is 44.
-/

import Xvr.Frontend.NumberTokens
import Xvr.Frontend.ArithmeticFolds

namespace Xvr.Frontend.Parse

open Xvr.Runtime Lexer

/-! ## Kinds of integers -/

structure IntKind where
  type : LiteralType
  isSigned : Bool
  width : Nat

/-- The kind a token of an integer literal names. -/
def integerKind : TokenType → Option IntKind
  | .literalInteger => some ⟨.integer, true, 32⟩
  | .literalInt8 => some ⟨.int8, true, 8⟩
  | .literalInt16 => some ⟨.int16, true, 16⟩
  | .literalInt32 => some ⟨.int32, true, 32⟩
  | .literalInt64 => some ⟨.int64, true, 64⟩
  | .literalUint8 => some ⟨.uint8, false, 8⟩
  | .literalUint16 => some ⟨.uint16, false, 16⟩
  | .literalUint32 => some ⟨.uint32, false, 32⟩
  | .literalUint64 => some ⟨.uint64, false, 64⟩
  | _ => none

/-- The kind can hold the number. -/
def IntKind.Holds (k : IntKind) (n : Nat) : Prop := n < if k.isSigned then 2 ^ (k.width - 1) else 2 ^ k.width

/-- The number a word of the kind's width stands for. -/
def IntKind.read (k : IntKind) (word : BitVec k.width) : Int := if k.isSigned then word.toInt else word.toNat

/-- The number an integer literal holds. -/
def integerValue : Literal → Option Int
  | .integer v => some v.toInt
  | .int8 v => some v.toInt
  | .int16 v => some v.toInt
  | .int32 v => some v.toInt
  | .int64 v => some v.toInt
  | .uint8 v => some v.toNat
  | .uint16 v => some v.toNat
  | .uint32 v => some v.toNat
  | .uint64 v => some v.toNat
  | _ => none

theorem integerKind_pos {t : TokenType} {k : IntKind} (h : integerKind t = some k) : 0 < k.width := by
  unfold integerKind at h
  split at h <;> cases h <;> decide

/-- Stored at the width of its kind, a number stays what it is when the kind can hold it. -/
theorem read_iff {k : IntKind} (hk : 0 < k.width) (n : Nat) : k.read (BitVec.ofNat k.width n) = n ↔ k.Holds n := by
  have hpow : 2 ^ k.width = 2 * 2 ^ (k.width - 1) := by
    rw [← Nat.pow_succ', Nat.succ_eq_add_one, Nat.sub_add_cancel hk]
  have hpos := Nat.two_pow_pos k.width
  unfold IntKind.read IntKind.Holds
  cases k.isSigned with
  | false =>
    simp only [Bool.false_eq_true, if_false, BitVec.toNat_ofNat]
    rw [Int.ofNat_inj]
    exact Nat.mod_eq_iff_lt hpos.ne'
  | true =>
    simp only [if_true, BitVec.toInt_ofNat']
    constructor
    · intro h
      have hlt := Int.bmod_lt (x := n) (m := 2 ^ k.width) hpos
      rw [h] at hlt
      omega
    · intro h
      refine Int.bmod_eq_of_le ?_ ?_ <;> omega

/-! ## The number spelled -/

/-- The number the digits at the start of a text spell, underscores left out. -/
def spelled (text : List Char) : Nat := decimalValue ((text.takeWhile isNumeral).filter (· != '_'))

/-- What is scanned is the number the digits spell. -/
theorem scanned_number (text : List Char) : leadingDecimal (removeChar text '_') = spelled text := by
  unfold leadingDecimal spelled removeChar
  congr 1
  induction text with
  | nil => rfl
  | cons c cs ih =>
    by_cases hscore : c = '_'
    · subst hscore
      simpa [isNumeral] using ih
    · have hkeep : (c != '_') = true := by simpa using hscore
      rw [List.filter_cons_of_pos (p := (· != '_')) hkeep]
      by_cases hdigit : isDecimal c = true
      · have hnumeral : isNumeral c = true := isNumeral_of_digit hdigit
        rw [List.takeWhile_cons_of_pos hdigit, List.takeWhile_cons_of_pos hnumeral,
          List.filter_cons_of_pos (p := (· != '_')) hkeep, ih]
      · have hnumeral : ¬ isNumeral c = true := by
          have hdigit : ¬ isDigitChar c = true := hdigit
          simp [isNumeral, hdigit, hscore]
        rw [List.takeWhile_cons_of_neg hdigit, List.takeWhile_cons_of_neg hnumeral]
        rfl

theorem spelled_number {number tail : List Char} (h : ∀ c ∈ number, isNumeral c = true)
    (htail : isNumeral (tail.headD '\x00') = false) : spelled (number ++ tail) = decimalValue (removeChar number '_') := by
  rw [spelled, takeWhile_run h htail]
  rfl

/-! ## What the parser reads -/

theorem tokenLiteral_integer {t : Token} {k : IntKind} (h : integerKind t.type = some k) :
    ∃ literal, tokenLiteral t = some literal ∧ literal.kind = k.type ∧ copyLiteral literal = literal ∧
      integerValue literal = some (k.read (BitVec.ofNat k.width (spelled t.lexeme))) := by
  rw [← scanned_number]
  unfold integerKind at h
  split at h <;> cases h
  all_goals
    rename_i htype
    refine ⟨_, by rw [tokenLiteral, htype], rfl, rfl, rfl⟩

theorem atomic_literal {handle : Node} {p : Parser} {literal : Literal} (h : tokenLiteral p.previous = some literal) :
    atomic handle p = .ok (.eof, emitASTNodeLiteral literal) p := by
  unfold atomic
  rw [bind_get, h]
  rfl

/-- The rule gave a literal of the kind that holds the number, or raised an error. -/
def ExactOrRefused (handle : Node) (p : Parser) (k : IntKind) (n : Nat) : Prop :=
  (∃ literal q, atomic handle p = .ok (.eof, .literal literal) q ∧ literal.kind = k.type ∧
      integerValue literal = some (n : Int)) ∨
    ∃ r q, atomic handle p = .ok r q ∧ p.errors.length < q.errors.length

theorem atomic_exact_iff {p : Parser} {k : IntKind} (h : integerKind p.previous.type = some k) (handle : Node) :
    ExactOrRefused handle p k (spelled p.previous.lexeme) ↔ k.Holds (spelled p.previous.lexeme) := by
  obtain ⟨literal, htoken, hkind, hcopy, hvalue⟩ := tokenLiteral_integer h
  have hrun : atomic handle p = .ok (.eof, .literal literal) p := by
    rw [atomic_literal htoken, emitASTNodeLiteral, hcopy]
  rw [← read_iff (integerKind_pos h)]
  unfold ExactOrRefused
  constructor
  · intro hspec
    rcases hspec with ⟨literal', q, hrun', -, hvalue'⟩ | ⟨r, q, hrun', hlt⟩
    · rw [hrun] at hrun'
      cases hrun'
      exact Option.some.inj (hvalue.symm.trans hvalue')
    · rw [hrun] at hrun'
      cases hrun'
      exact absurd hlt (Nat.lt_irrefl _)
  · intro hread
    exact Or.inl ⟨literal, p, hrun, hkind, hvalue.trans (congrArg some hread)⟩

/-! ## Integer tokens -/

/-- Digits and underscores, alone or before an integer suffix. -/
inductive IntegerText where
  | plain (number : List Char) (isNumber : NumberText false number)
  | suffixed (s : Suffixed) (isWhole : s.isFloat = false)

namespace IntegerText

def number : IntegerText → List Char
  | .plain number _ => number
  | .suffixed s _ => s.number

def text : IntegerText → List Char
  | .plain number _ => number
  | .suffixed s _ => s.text

/-- What follows is not part of the token. -/
def Ends (tail : List Char) : IntegerText → Prop
  | .plain _ _ => EndsNumber tail
  | .suffixed _ _ => isDigitChar (tail.headD '\x00') = false

/-- The decimal number the digits spell. -/
def value (i : IntegerText) : Nat := decimalValue (removeChar i.number '_')

theorem spelled_text (i : IntegerText) : spelled i.text = i.value := by
  cases i with
  | plain number h =>
    have hspelled : spelled (number ++ []) = decimalValue (removeChar number '_') := spelled_number h.numerals (by decide)
    rwa [List.append_nil] at hspelled
  | suffixed s h => exact spelled_number (NumberText.numerals (h ▸ s.isNumber)) (not_numeral_suffix s).1

/-- The lexer's token is the whole text, unless it refuses the suffix. -/
theorem lexed (i : IntegerText) {l : Lexer} (hs : AtStart l) {tail : List Char} (hr : rest l = i.text ++ tail)
    (htail : i.Ends tail) {fuel : Nat} (hf : (rest l).length < fuel) :
    ∃ t l', makeIntegerOrFloat fuel l = some (t, l') ∧ (t.type ≠ .error → t.lexeme = i.text) := by
  cases i with
  | plain number h =>
    obtain ⟨l', hm, hrun⟩ := makeIntegerOrFloat_plain h hr htail hf
    exact ⟨_, l', hrun, fun _ => slice_moves hm hs⟩
  | suffixed s h =>
    obtain ⟨l', hm, -, hrun⟩ := makeIntegerOrFloat_suffixed s hr htail hf
    refine ⟨_, l', hrun, fun haccepted => ?_⟩
    cases htype : suffixType s.suffix (BitVec.ofNat 32 (decimalValue s.run)) with
    | inl type => exact slice_moves hm hs
    | inr msg =>
      rw [htype] at haccepted
      exact absurd rfl haccepted

end IntegerText

/-- An integer token gives the number its digits spell, of its kind, exactly when that kind
    can hold it. -/
theorem integer_value_iff (i : IntegerText) {l : Lexer} (hs : AtStart l) {tail : List Char} (hr : rest l = i.text ++ tail)
    (htail : i.Ends tail) {fuel : Nat} (hf : (rest l).length < fuel) :
    ∃ t l', makeIntegerOrFloat fuel l = some (t, l') ∧ ∀ k, integerKind t.type = some k →
      ∀ handle p, p.previous = t → (ExactOrRefused handle p k i.value ↔ k.Holds i.value) := by
  obtain ⟨t, l', hrun, hlexeme⟩ := i.lexed hs hr htail hf
  refine ⟨t, l', hrun, fun k hk handle p hp => ?_⟩
  have haccepted : t.type ≠ .error := by
    intro h
    rw [h] at hk
    cases hk
  subst hp
  rw [← i.spelled_text, ← hlexeme haccepted]
  exact atomic_exact_iff hk handle

/-- A parser that has just stepped over a token. -/
def behindToken (t : Token) : Parser := { blankParser (tokensOf []) with previous := t }

/-- `300i8` is 44. -/
theorem byte_wraps :
    ∃ t l', makeIntegerOrFloat 6 (initLexer ⟨"300i8".toList, by decide⟩) = some (t, l') ∧
      integerKind t.type = some ⟨.int8, true, 8⟩ ∧ ¬ ExactOrRefused .null (behindToken t) ⟨.int8, true, 8⟩ 300 := by
  refine ⟨_, _, rfl, rfl, ?_⟩
  rintro (⟨literal, q, hrun, -, hvalue⟩ | ⟨r, q, hrun, hlt⟩)
  · cases hrun
    exact absurd hvalue (by decide)
  · cases hrun
    exact absurd hlt (by decide)

/-- `1_27i8` is 127. -/
theorem integer_value_iff_byte :
    ∃ t l', makeIntegerOrFloat 7 (initLexer ⟨"1_27i8".toList, by decide⟩) = some (t, l') ∧
      ∀ k, integerKind t.type = some k → ∀ handle p, p.previous = t → (ExactOrRefused handle p k 127 ↔ k.Holds 127) :=
  have hs : AtStart (initLexer ⟨"1_27i8".toList, by decide⟩) := rfl
  integer_value_iff
    (.suffixed ⟨false, "1_27".toList, 'i', ['8'], .whole (by decide) (List.all_eq_true.mp (by decide)), by decide,
      List.all_eq_true.mp (by decide)⟩ rfl)
    hs (List.append_nil _).symm rfl (by decide)

end Xvr.Frontend.Parse
