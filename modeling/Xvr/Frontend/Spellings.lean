/-
  Xvr.Frontend.Spellings — which texts spell a token, and in front of what.

  `Spells type text lexeme tail`: in front of `tail`, `text` is one whole token. It is the
  longest there is: a word ends where no letter or digit follows, a number where nothing
  follows that belongs to it, an operator where no longer one fits, a string at its closing
  quote, which is not the last character of a source.

  Proved, about the part of a call behind the blanks:
  - `spells_scanned`: a spelled token is what it answers.
  - `scanned_spells`: what it answers is spelled, unless it is an error.
-/

import Xvr.Frontend.Keywords
import Xvr.Frontend.NumberTokens
import Xvr.Frontend.StringTokens
import Mathlib.Tactic.FinCases

namespace Xvr.Frontend.Lexer

open Xvr.Lib.Loop Parse

/-! ## Operators -/

/-- The characters that are a token whatever follows. -/
def singles : List (Char × TokenType) := [
  ('(', .parenLeft), (')', .parenRight), ('{', .braceLeft), ('}', .braceRight), ('[', .bracketLeft),
  (']', .bracketRight), ('?', .question), (';', .semicolon), (',', .comma)]

/-- A character, the one that may follow it, the token of both and the token of the first. -/
def doubles : List (Char × Char × TokenType × TokenType) := [
  ('*', '=', .multiplyAssign, .multiply), ('/', '=', .divideAssign, .divide), ('%', '=', .moduloAssign, .modulo),
  ('!', '=', .notEqual, .not), ('=', '=', .equal, .assign), ('<', '=', .lessEqual, .less),
  ('>', '=', .greaterEqual, .greater), ('|', '|', .or, .pipe), (':', ':', .colonColon, .colon)]

/-- The characters that may be followed by `=` or by themselves, with the three tokens. -/
def triples : List (Char × TokenType × TokenType × TokenType) := [
  ('+', .plusAssign, .plusPlus, .plus), ('-', .minusAssign, .minusMinus, .minus)]

/-- Every operator there is. -/
def operators : List (TokenType × List Char) :=
  singles.map (fun s => (s.2, [s.1])) ++
    doubles.flatMap (fun d => [(d.2.2.1, [d.1, d.2.1]), (d.2.2.2, [d.1])]) ++
    triples.flatMap (fun t => [(t.2.1, [t.1, '=']), (t.2.2.1, [t.1, t.1]), (t.2.2.2, [t.1])]) ++
    [(.and, ['&', '&']), (.rest, ['.', '.', '.']), (.dot, ['.'])]

/-- What begins a comment. -/
def openers : List (List Char) := [['/', '/'], ['/', '*']]

/-- What would make a longer operator of a text, or a comment. -/
def extensions (text : List Char) : List (List Char) :=
  ((operators.map (·.2) ++ openers).filter fun o => text.isPrefixOf o && o != text).map (·.drop text.length)

/-! ## Spellings -/

def isWordChar (c : Char) : Bool := isDigitChar c || isAlphaChar c

/-- What may not follow a number without a suffix: more of it, a fraction if it has none, a suffix. -/
structure EndsPlain (isFloat : Bool) (tail : List Char) : Prop where
  numeral : isNumeral (tail.headD '\x00') = false
  point : isFloat = false → tail.headD '\x00' = '.' → isDigitChar (tail.tail.headD '\x00') = false
  suffix : tail.headD '\x00' ∉ ['i', 'u', 'f']

inductive Spells : TokenType → List Char → List Char → List Char → Prop
  | word (w : Word) {tail : List Char} : isWordChar (tail.headD '\x00') = false → Spells (lexedType w.text) w.text w.text tail
  | number {isFloat : Bool} {number tail : List Char} : NumberText isFloat number → EndsPlain isFloat tail →
      Spells (if isFloat then .literalFloat else .literalInteger) number number tail
  | suffixed (s : Suffixed) {type : TokenType} {tail : List Char} :
      suffixType s.suffix (BitVec.ofNat 32 (decimalValue s.run)) = .inl type →
      isDigitChar (tail.headD '\x00') = false → Spells type s.text s.text tail
  | string {body tail : List Char} : closing (body ++ '"' :: tail) = some (body, tail) → tail ≠ [] →
      Spells .literalString ('"' :: body ++ ['"']) body tail
  | operator {type : TokenType} {text tail : List Char} : (type, text) ∈ operators → (∀ e ∈ extensions text, ¬ e <+: tail) →
      Spells type text text tail

/-- The part of a call behind the blanks, where the source is not over. -/
def scanToken (fuel : Nat) (l : Lexer) : Option (Token × Lexer) :=
  if isDigit l then makeIntegerOrFloat fuel l
  else if isAlpha l then makeKeywordOrIdentifier fuel l
  else scanOperator fuel (advance l).1 (skip l)

/-- The answer is the token of `text`. -/
def AnswersText (l : Lexer) (r : Option (Token × Lexer)) (type : TokenType) (text lexeme : List Char) : Prop :=
  ∃ l', r = some (⟨type, lexeme, l'.line⟩, l') ∧ Moves l l' text

theorem spanToken_text {l l' : Lexer} {text : List Char} (h : Moves l l' text) (hs : AtStart l) (type : TokenType) :
    makeSpanToken l' type = ⟨type, text, l'.line⟩ := by
  rw [makeSpanToken, slice_moves h hs]

theorem makeToken_text {l l' : Lexer} {text : List Char} (h : Moves l l' text) (hs : AtStart l) (type : TokenType) :
    makeToken l' type = ⟨type, text, l'.line⟩ := by
  rw [makeToken_eq h hs, spanToken_text h hs]

/-! ## The switch -/

theorem scanOperator_single : ∀ s ∈ singles, ∀ fuel l, scanOperator fuel s.1 l = some (makeToken l s.2, l) := by
  intro s hs fuel l
  fin_cases hs <;> rfl

theorem scanOperator_double : ∀ d ∈ doubles, ∀ fuel l,
    scanOperator fuel d.1 l = some (oneOrTwo l d.2.1 d.2.2.1 d.2.2.2) := by
  intro d hd fuel l
  fin_cases hd <;> rfl

theorem scanOperator_triple : ∀ t ∈ triples, ∀ fuel l,
    scanOperator fuel t.1 l = some (oneOrTwoOf l '=' t.2.1 t.1 t.2.2.1 t.2.2.2) := by
  intro t ht fuel l
  fin_cases ht <;> rfl

/-- The characters the switch knows. -/
def switched : List Char := singles.map (·.1) ++ doubles.map (·.1) ++ triples.map (·.1) ++ ['&', '.', '"']

theorem scanOperator_other {c : Char} (hc : c ∉ switched) (fuel : Nat) (l : Lexer) :
    scanOperator fuel c l = some (makeErrorToken l ("Unexpected token: ".toList ++ [c]), l) := by
  have hne {d : Char} (hd : d ∈ switched) : ¬ (c == d) = true := fun h => hc (beq_iff_eq.mp h ▸ hd)
  rw [scanOperator]
  repeat rw [if_neg (hne (by decide))]

theorem matchChar_found {l : Lexer} {c : Char} {cs : List Char} (hr : rest l = c :: cs) :
    matchChar l c = (true, skip l) := by
  rw [matchChar, isAtEnd_cons hr, peek_cons hr]
  simp

theorem matchChar_other {l : Lexer} {c : Char} (hr : ¬ [c] <+: rest l) : matchChar l c = (false, l) := by
  rw [matchChar]
  rcases hl : rest l with _ | ⟨d, ds⟩
  · rw [if_pos ((isAtEnd_iff l).mpr hl)]
  · rw [isAtEnd_cons hl, peek_cons hl, if_neg Bool.false_ne_true]
    have hne : d ≠ c := by
      rintro rfl
      exact hr (hl ▸ List.prefix_append [d] ds)
    simp [hne]

theorem oneOrTwo_two {l : Lexer} {second : Char} {cs : List Char} (hr : rest l = second :: cs) (two one : TokenType) :
    oneOrTwo l second two one = (makeToken (skip l) two, skip l) := by
  rw [oneOrTwo, matchChar_found hr]
  rfl

theorem oneOrTwo_one {l : Lexer} {second : Char} (hr : ¬ [second] <+: rest l) (two one : TokenType) :
    oneOrTwo l second two one = (makeToken l one, l) := by
  rw [oneOrTwo, matchChar_other hr]
  rfl

theorem oneOrTwoOf_assign {l : Lexer} {assign : Char} {cs : List Char} (hr : rest l = assign :: cs) (type : TokenType)
    (again : Char) (againType one : TokenType) :
    oneOrTwoOf l assign type again againType one = (makeToken (skip l) type, skip l) := by
  rw [oneOrTwoOf, matchChar_found hr]
  rfl

theorem oneOrTwoOf_other {l : Lexer} {assign : Char} (hr : ¬ [assign] <+: rest l) (type : TokenType) (again : Char)
    (againType one : TokenType) : oneOrTwoOf l assign type again againType one = oneOrTwo l again againType one := by
  rw [oneOrTwoOf, matchChar_other hr]
  rfl

theorem scanOperator_and (fuel : Nat) (l : Lexer) :
    scanOperator fuel '&' l = if (advance l).1 != '&' then some (makeErrorToken (skip l) "Unexpected '&'".toList, skip l)
      else some (makeToken (skip l) .and, skip l) := rfl

theorem scanOperator_dot (fuel : Nat) (l : Lexer) :
    scanOperator fuel '.' l = if peek l == '.' && peekNext l == '.' then
      some (makeToken (skip (skip l)) .rest, skip (skip l)) else some (makeToken l .dot, l) := rfl

theorem two_dots_iff (l : Lexer) : (peek l == '.' && peekNext l == '.') = true ↔ ['.', '.'] <+: rest l := by
  rw [Bool.and_eq_true, beq_iff_eq, beq_iff_eq]
  constructor
  · rintro ⟨h₁, h₂⟩
    obtain ⟨cs, hr⟩ := rest_of_peek h₁ (by decide)
    rw [peekNext_cons hr] at h₂
    rcases cs with _ | ⟨d, ds⟩
    · exact absurd h₂ (by decide)
    · have hd : d = '.' := h₂
      rw [hr, hd]
      exact List.prefix_append ['.', '.'] ds
  · rintro ⟨ds, hds⟩
    have hr : rest l = '.' :: '.' :: ds := hds.symm
    exact ⟨peek_cons hr, peekNext_cons hr⟩

/-! ## What the tables leave open -/

theorem singles_closed : ∀ s ∈ singles, (s.2, [s.1]) ∈ operators ∧ extensions [s.1] = [] := by decide

theorem doubles_open : ∀ d ∈ doubles, [d.2.1] ∈ extensions [d.1] ∧
    ∀ e ∈ extensions [d.1], e = [d.2.1] ∨ d.1 :: e ∈ openers := by decide

theorem doubles_operators : ∀ d ∈ doubles, (d.2.2.1, [d.1, d.2.1]) ∈ operators ∧ (d.2.2.2, [d.1]) ∈ operators ∧
    extensions [d.1, d.2.1] = [] := by decide

theorem triples_open : ∀ t ∈ triples, ['='] ∈ extensions [t.1] ∧ [t.1] ∈ extensions [t.1] ∧
    ∀ e ∈ extensions [t.1], e = ['='] ∨ e = [t.1] := by decide

theorem triples_operators : ∀ t ∈ triples, (t.2.1, [t.1, '=']) ∈ operators ∧ (t.2.2.1, [t.1, t.1]) ∈ operators ∧
    (t.2.2.2, [t.1]) ∈ operators ∧ extensions [t.1, '='] = [] ∧ extensions [t.1, t.1] = [] := by decide

/-! ## Spelled operators -/

theorem AnswersText.token {l l' : Lexer} {text : List Char} (hm : Moves l l' text) (hs : AtStart l) (type : TokenType) :
    AnswersText l (some (makeToken l' type, l')) type text text :=
  ⟨l', by rw [makeToken_text hm hs], hm⟩

theorem moves_two {l : Lexer} {a b : Char} {cs : List Char} (hr : rest l = a :: b :: cs) :
    Moves l (skip (skip l)) [a, b] := (skip_cons hr).trans (skip_cons (skip_rest hr))

section

variable {l : Lexer} (hs : AtStart l) {tail : List Char} (fuel : Nat)
include hs

theorem double_scanned {d : Char × Char × TokenType × TokenType} (hd : d ∈ doubles) {type : TokenType} {text : List Char}
    (ho : (type, text) ∈ [(d.2.2.1, [d.1, d.2.1]), (d.2.2.2, [d.1])]) (hr : rest l = text ++ tail)
    (hlong : ∀ e ∈ extensions text, ¬ e <+: tail) : AnswersText l (scanOperator fuel d.1 (skip l)) type text text := by
  rw [scanOperator_double d hd]
  rcases List.mem_cons.mp ho with ho | ho
  · obtain ⟨rfl, rfl⟩ := Prod.ext_iff.mp ho
    rw [oneOrTwo_two (skip_rest hr)]
    exact .token (moves_two hr) hs _
  · obtain ⟨rfl, rfl⟩ := Prod.ext_iff.mp (List.mem_singleton.mp ho)
    have hnone : ¬ [d.2.1] <+: rest (skip l) := by
      rw [skip_rest hr]
      exact hlong _ (doubles_open d hd).1
    rw [oneOrTwo_one hnone]
    exact .token (skip_cons hr) hs _

theorem triple_scanned {t : Char × TokenType × TokenType × TokenType} (ht : t ∈ triples) {type : TokenType}
    {text : List Char} (ho : (type, text) ∈ [(t.2.1, [t.1, '=']), (t.2.2.1, [t.1, t.1]), (t.2.2.2, [t.1])])
    (hr : rest l = text ++ tail) (hlong : ∀ e ∈ extensions text, ¬ e <+: tail) :
    AnswersText l (scanOperator fuel t.1 (skip l)) type text text := by
  obtain ⟨hassign, hagain, -⟩ := triples_open t ht
  rw [scanOperator_triple t ht]
  simp only [List.mem_cons, Prod.mk.injEq, List.not_mem_nil, or_false] at ho
  obtain ⟨rfl, rfl⟩ | ⟨rfl, rfl⟩ | ⟨rfl, rfl⟩ := ho
  · rw [oneOrTwoOf_assign (skip_rest hr)]
    exact .token (moves_two hr) hs _
  · have hne : ∀ t ∈ triples, t.1 ≠ '=' := by decide
    have hnone : ¬ ['='] <+: rest (skip l) := by
      rw [skip_rest hr]
      exact fun h => hne t ht (List.cons_prefix_cons.mp h).1.symm
    rw [oneOrTwoOf_other hnone, oneOrTwo_two (skip_rest hr)]
    exact .token (moves_two hr) hs _
  · rw [oneOrTwoOf_other (by rw [skip_rest hr]; exact hlong _ hassign),
      oneOrTwo_one (by rw [skip_rest hr]; exact hlong _ hagain)]
    exact .token (skip_cons hr) hs _

/-- An operator that no longer one fits is what the switch answers. -/
theorem operator_scanned {type : TokenType} {c : Char} {cs : List Char} (ho : (type, c :: cs) ∈ operators)
    (hr : rest l = c :: cs ++ tail) (hlong : ∀ e ∈ extensions (c :: cs), ¬ e <+: tail) :
    AnswersText l (scanOperator fuel c (skip l)) type (c :: cs) (c :: cs) := by
  rw [operators, List.mem_append, List.mem_append, List.mem_append] at ho
  obtain ((ho | ho) | ho) | ho := ho
  · obtain ⟨s, hsingle, heq⟩ := List.mem_map.mp ho
    obtain ⟨rfl, ⟨rfl, rfl⟩⟩ : s.2 = type ∧ s.1 = c ∧ [] = cs := by simpa using heq
    rw [scanOperator_single s hsingle]
    exact .token (skip_cons hr) hs _
  · obtain ⟨d, hd, ho⟩ := List.mem_flatMap.mp ho
    have hc : c = d.1 := by
      simp only [List.mem_cons, Prod.mk.injEq, List.cons.injEq, List.not_mem_nil, or_false] at ho
      exact ho.elim (·.2.1) (·.2.1)
    subst hc
    exact double_scanned hs fuel hd ho hr hlong
  · obtain ⟨t, ht, ho⟩ := List.mem_flatMap.mp ho
    have hc : c = t.1 := by
      simp only [List.mem_cons, Prod.mk.injEq, List.cons.injEq, List.not_mem_nil, or_false] at ho
      exact ho.elim (·.2.1) (·.elim (·.2.1) (·.2.1))
    subst hc
    exact triple_scanned hs fuel ht ho hr hlong
  · simp only [List.mem_cons, Prod.mk.injEq, List.cons.injEq, List.not_mem_nil, or_false] at ho
    obtain ⟨rfl, rfl, rfl⟩ | ⟨rfl, rfl, rfl⟩ | ⟨rfl, rfl, rfl⟩ := ho
    · rw [scanOperator_and, (advance_cons (skip_rest hr)).1, if_neg (by decide)]
      exact .token (moves_two hr) hs _
    · have hdots := (two_dots_iff (skip l)).mpr (by rw [skip_rest hr]; exact List.prefix_append ['.', '.'] tail)
      rw [scanOperator_dot, if_pos hdots]
      have hlast := skip_cons (skip_rest (skip_rest hr))
      exact .token ((moves_two hr).trans hlast) hs _
    · have hdots : ¬ (peek (skip l) == '.' && peekNext (skip l) == '.') = true := by
        rw [two_dots_iff, skip_rest hr]
        exact hlong ['.', '.'] (by decide)
      rw [scanOperator_dot, if_neg hdots]
      exact .token (skip_cons hr) hs _

end

/-! ## Nothing else -/

/-- The answer is an error, or the token of a spelled text. -/
def Spelled (l : Lexer) (r : Option (Token × Lexer)) : Prop :=
  ∀ t l', r = some (t, l') → t.type ≠ .error → ∃ text, Spells t.type text t.lexeme (rest l') ∧ Moves l l' text

theorem Spelled.error (l l' : Lexer) (msg : List Char) : Spelled l (some (makeErrorToken l' msg, l')) := by
  rintro t l'' heq herror
  cases heq
  exact absurd rfl herror

theorem AnswersText.spelled {l : Lexer} {r : Option (Token × Lexer)} {type : TokenType} {text lexeme : List Char}
    (h : AnswersText l r type text lexeme) {tail : List Char} (hr : rest l = text ++ tail)
    (hspells : Spells type text lexeme tail) : Spelled l r := by
  rintro t l'' heq -
  obtain ⟨l', hl', hm⟩ := h
  rw [hl', Option.some.injEq, Prod.mk.injEq] at heq
  obtain ⟨rfl, rfl⟩ := heq
  have htail : rest l' = tail := List.append_cancel_left (hm.text.symm.trans hr)
  exact ⟨text, htail ▸ hspells, hm⟩

section

variable {l : Lexer} (hs : AtStart l) (fuel : Nat)
include hs

/-- What the switch answers is an operator, if nothing longer fits behind what it took. -/
theorem operator_spelled {c : Char} {cs tail : List Char} {type : TokenType} (ho : (type, c :: cs) ∈ operators)
    (hr : rest l = c :: cs ++ tail) (hlong : ∀ e ∈ extensions (c :: cs), ¬ e <+: tail) :
    Spelled l (scanOperator fuel c (skip l)) :=
  (operator_scanned hs fuel ho hr hlong).spelled hr (.operator ho hlong)

theorem single_spelled {e : Char × TokenType} (he : e ∈ singles) {cs : List Char} (hr : rest l = e.1 :: cs) :
    Spelled l (scanOperator fuel e.1 (skip l)) := by
  obtain ⟨ho, hclosed⟩ := singles_closed e he
  exact operator_spelled hs fuel ho hr (by rw [hclosed]; exact nofun)

theorem double_spelled {d : Char × Char × TokenType × TokenType} (hd : d ∈ doubles) {cs : List Char}
    (hr : rest l = d.1 :: cs) (hopen : ∀ o ∈ openers, ¬ o <+: rest l) : Spelled l (scanOperator fuel d.1 (skip l)) := by
  obtain ⟨htwo, hone, hclosed⟩ := doubles_operators d hd
  by_cases hsecond : [d.2.1] <+: cs
  · obtain ⟨tail, htail⟩ := hsecond
    exact operator_spelled hs fuel htwo (by rw [hr, ← htail]; rfl) (by rw [hclosed]; exact nofun)
  · have hlong : ∀ e ∈ extensions [d.1], ¬ e <+: cs := by
      intro e he hprefix
      rcases (doubles_open d hd).2 e he with rfl | hcomment
      · exact hsecond hprefix
      · exact hopen _ hcomment (by rw [hr]; exact List.cons_prefix_cons.mpr ⟨rfl, hprefix⟩)
    exact operator_spelled hs fuel hone hr hlong

theorem triple_spelled {t : Char × TokenType × TokenType × TokenType} (ht : t ∈ triples) {cs : List Char}
    (hr : rest l = t.1 :: cs) : Spelled l (scanOperator fuel t.1 (skip l)) := by
  obtain ⟨hassign, hagain, hone, hclosed, hclosed'⟩ := triples_operators t ht
  by_cases heq : ['='] <+: cs
  · obtain ⟨tail, htail⟩ := heq
    exact operator_spelled hs fuel hassign (by rw [hr, ← htail]; rfl) (by rw [hclosed]; exact nofun)
  by_cases hsame : [t.1] <+: cs
  · obtain ⟨tail, htail⟩ := hsame
    exact operator_spelled hs fuel hagain (by rw [hr, ← htail]; rfl) (by rw [hclosed']; exact nofun)
  have hlong : ∀ e ∈ extensions [t.1], ¬ e <+: cs := by
    intro e he
    rcases (triples_open t ht).2.2 e he with rfl | rfl
    · exact heq
    · exact hsame
  exact operator_spelled hs fuel hone hr hlong

theorem and_spelled {cs : List Char} (hr : rest l = '&' :: cs) : Spelled l (scanOperator fuel '&' (skip l)) := by
  by_cases hand : ['&'] <+: cs
  · obtain ⟨tail, rfl⟩ := hand
    have hclosed : extensions ['&', '&'] = [] := by decide
    have ho : (.and, ['&', '&']) ∈ operators := by decide
    exact operator_spelled hs fuel ho hr (by rw [hclosed]; exact nofun)
  · have hnext : (advance (skip l)).1 ≠ '&' := by
      rcases hl : rest (skip l) with _ | ⟨d, ds⟩
      · rw [advance, if_pos ((isAtEnd_iff _).mpr hl)]
        exact ne_of_beq_false rfl
      · rw [(advance_cons hl).1]
        rintro rfl
        rw [skip_rest hr] at hl
        exact hand (hl ▸ List.prefix_append ['&'] ds)
    rw [scanOperator_and, if_pos (by simpa using hnext)]
    exact .error _ _ _

theorem dot_spelled {cs : List Char} (hr : rest l = '.' :: cs) : Spelled l (scanOperator fuel '.' (skip l)) := by
  by_cases hdots : ['.', '.'] <+: cs
  · obtain ⟨tail, rfl⟩ := hdots
    have hclosed : extensions ['.', '.', '.'] = [] := by decide
    have ho : (.rest, ['.', '.', '.']) ∈ operators := by decide
    exact operator_spelled hs fuel ho hr (by rw [hclosed]; exact nofun)
  · have ho : (.dot, ['.']) ∈ operators := by decide
    have hone : ∀ e ∈ extensions ['.'], e = ['.', '.'] := by decide
    exact operator_spelled hs fuel ho hr fun e he => hone e he ▸ hdots

/-- Where no comment begins, the switch answers an operator or an error, but for strings. -/
theorem switch_spelled {c : Char} {cs : List Char} (hr : rest l = c :: cs) (hopen : ∀ o ∈ openers, ¬ o <+: rest l)
    (hquote : c ≠ '"') : Spelled l (scanOperator fuel c (skip l)) := by
  by_cases hc : c ∈ switched
  · simp only [switched, List.mem_append, List.mem_map] at hc
    obtain ((⟨e, he, rfl⟩ | ⟨d, hd, rfl⟩) | ⟨t, ht, rfl⟩) | hc := hc
    · exact single_spelled hs fuel he hr
    · exact double_spelled hs fuel hd hr hopen
    · exact triple_spelled hs fuel ht hr
    · simp only [List.mem_cons, hquote, List.not_mem_nil, or_false] at hc
      obtain rfl | rfl := hc
      · exact and_spelled hs fuel hr
      · exact dot_spelled hs fuel hr
  · rw [scanOperator_other hc]
    exact .error _ _ _

end

/-! ## Words -/

theorem headD_dropWhile (p : Char → Bool) (hp : p '\x00' = false) (cs : List Char) :
    p ((cs.dropWhile p).headD '\x00') = false := by
  induction cs with
  | nil => exact hp
  | cons c cs ih =>
    by_cases hc : p c = true
    · rwa [List.dropWhile_cons_of_pos hc]
    · rw [List.dropWhile_cons_of_neg hc]
      simpa using hc

section

variable {l : Lexer} (hs : AtStart l) {fuel : Nat} (hf : (rest l).length < fuel)
include hs hf

theorem word_scanned (w : Word) {tail : List Char} (htail : isWordChar (tail.headD '\x00') = false)
    (hr : rest l = w.text ++ tail) :
    AnswersText l (makeKeywordOrIdentifier fuel l) (lexedType w.text) w.text w.text := by
  have hr : rest l = w.first :: (w.others ++ tail) := hr
  have hlen : (rest (skip l)).length < fuel := by
    rw [hr, List.length_cons] at hf
    rw [skip_rest hr]
    omega
  have hcond (l : Lexer) : (isDigit l || isAlpha l) = isWordChar (peek l) := rfl
  obtain ⟨l', hloop, hm, -⟩ := skipWhile_reads isWordChar (by decide) hcond (skip_rest hr) w.alnum htail hlen
  have hmoves : Moves l l' w.text := (skip_cons hr).trans hm
  refine ⟨l', ?_, hmoves⟩
  rw [makeKeywordOrIdentifier, hloop, Option.bind_eq_bind, Option.bind_some, slice_moves hmoves hs]
  show some (makeSpanToken l' (lexedType w.text), l') = _
  rw [spanToken_text hmoves hs]

theorem word_spelled {c : Char} {cs : List Char} (hr : rest l = c :: cs) (hc : isAlphaChar c = true) :
    Spelled l (makeKeywordOrIdentifier fuel l) := by
  have hall : ∀ d ∈ cs.takeWhile isWordChar, isWordChar d = true := fun d hd => List.mem_takeWhile_imp hd
  have htext : rest l = (⟨c, cs.takeWhile isWordChar, hc, hall⟩ : Word).text ++ cs.dropWhile isWordChar := by
    rw [hr, Word.text, List.cons_append, List.takeWhile_append_dropWhile]
  have htail := headD_dropWhile isWordChar (by decide) cs
  exact (word_scanned hs hf _ htail htext).spelled htext (.word _ htail)

/-! ## Numbers -/

theorem number_scanned {isFloat : Bool} {number tail : List Char} (h : NumberText isFloat number)
    (htail : EndsPlain isFloat tail) (hr : rest l = number ++ tail) :
    AnswersText l (makeIntegerOrFloat fuel l) (if isFloat then .literalFloat else .literalInteger) number number := by
  cases h with
  | whole hd hds =>
    obtain ⟨l', hm, hrun⟩ := makeIntegerOrFloat_plain (.whole hd hds) hr ⟨htail.numeral, htail.point rfl, htail.suffix⟩ hf
    exact ⟨l', by rw [hrun, spanToken_text hm hs]; rfl, hm⟩
  | @fraction whole d ds hwhole hd hds =>
    rw [List.append_assoc] at hr
    obtain ⟨l₁, hrun, hm, hl₁⟩ := eatDigits_reads hr hwhole.numerals rfl hf
    have hl₁ : rest l₁ = '.' :: ((d :: ds) ++ tail) := hl₁
    have hlen : (rest (skip l₁)).length < fuel := by
      have := hm.length
      rw [hl₁, List.length_cons] at this
      rw [skip_rest hl₁]
      omega
    obtain ⟨l₂, hrun₂, hm₂, hl₂⟩ :=
      eatDigits_reads (skip_rest hl₁) (NumberText.whole hd hds).numerals htail.numeral hlen
    have hmoves : Moves l l₂ (whole ++ '.' :: d :: ds) := hm.trans ((skip_cons hl₁).trans hm₂)
    have hpoint : (peek l₁ == '.' && isDigitChar (peekNext l₁)) = true := by
      rw [peek_cons hl₁, peekNext_cons hl₁]
      exact hd
    have hletter : (peek l₂ == 'i' || peek l₂ == 'u' || peek l₂ == 'f') = false := by
      rw [peek_eq, hl₂]
      simpa [and_assoc] using htail.suffix
    refine ⟨l₂, ?_, hmoves⟩
    simp only [makeIntegerOrFloat, hrun, Option.bind_eq_bind, Option.bind_some, hpoint, if_true, hrun₂, hletter,
      Bool.false_eq_true, if_false, Option.pure_def, spanToken_text hmoves hs]

theorem suffixed_scanned (s : Suffixed) {type : TokenType} {tail : List Char}
    (htype : suffixType s.suffix (BitVec.ofNat 32 (decimalValue s.run)) = .inl type)
    (htail : isDigitChar (tail.headD '\x00') = false) (hr : rest l = s.text ++ tail) :
    AnswersText l (makeIntegerOrFloat fuel l) type s.text s.text := by
  obtain ⟨l', hm, -, hrun⟩ := makeIntegerOrFloat_suffixed s hr htail hf
  rw [htype] at hrun
  refine ⟨l', hrun.trans ?_, hm⟩
  show some (makeSpanToken l' type, l') = _
  rw [spanToken_text hm hs]

/-- A suffix no type has is an error. -/
theorem suffixed_spelled (s : Suffixed) {tail : List Char} (htail : isDigitChar (tail.headD '\x00') = false)
    (hr : rest l = s.text ++ tail) : Spelled l (makeIntegerOrFloat fuel l) := by
  rcases htype : suffixType s.suffix (BitVec.ofNat 32 (decimalValue s.run)) with type | msg
  · exact (suffixed_scanned hs hf s htype htail hr).spelled hr (.suffixed s htype htail)
  · obtain ⟨l', -, -, hrun⟩ := makeIntegerOrFloat_suffixed s hr htail hf
    rw [hrun, htype]
    exact .error _ _ _

omit hs in
/-- So is `f` without a fraction before it. -/
theorem wholeF_spelled {number cs : List Char} (h : NumberText false number) (hr : rest l = number ++ 'f' :: cs) :
    Spelled l (makeIntegerOrFloat fuel l) := by
  obtain ⟨l₁, l₂, hrun₁, hpeek, hrun₂, -, hl₂⟩ := number_reads h hr (by decide) (by decide) hf
  have herror : makeIntegerOrFloat fuel l = some (makeErrorToken l₂ "Invalid float suffix without decimal".toList, l₂) := by
    simp only [makeIntegerOrFloat, hrun₁, Option.bind_eq_bind, Option.bind_some, hpeek, hrun₂, peek_cons hl₂, makeSuffix]
    rfl
  rw [herror]
  exact .error _ _ _

end

/-- A text that begins with a digit begins with a number, up to what does not belong to it. -/
theorem number_split {c : Char} (hc : isDigitChar c = true) (cs : List Char) :
    ∃ isFloat number tail, c :: cs = number ++ tail ∧ NumberText isFloat number ∧
      isNumeral (tail.headD '\x00') = false ∧
      (isFloat = false → tail.headD '\x00' = '.' → isDigitChar (tail.tail.headD '\x00') = false) := by
  have hwhole : NumberText false (c :: cs.takeWhile isNumeral) := .whole hc fun d hd => List.mem_takeWhile_imp hd
  have hsplit : cs.takeWhile isNumeral ++ cs.dropWhile isNumeral = cs := List.takeWhile_append_dropWhile
  have hend := headD_dropWhile isNumeral (by decide) cs
  by_cases hpoint : ∃ d ds, cs.dropWhile isNumeral = '.' :: d :: ds ∧ isDigitChar d = true
  · obtain ⟨d, ds, hdrop, hd⟩ := hpoint
    have hds : ∀ e ∈ ds.takeWhile isNumeral, isNumeral e = true := fun e he => List.mem_takeWhile_imp he
    refine ⟨true, _, ds.dropWhile isNumeral, ?_, .fraction hwhole hd hds, headD_dropWhile isNumeral (by decide) ds, nofun⟩
    rw [List.append_assoc, List.cons_append, List.cons_append, List.cons_append, List.takeWhile_append_dropWhile, ← hdrop,
      hsplit]
  · refine ⟨false, _, cs.dropWhile isNumeral, by rw [List.cons_append, hsplit], hwhole, hend, fun _ hdot => ?_⟩
    rcases hdrop : cs.dropWhile isNumeral with _ | ⟨e, _ | ⟨d, ds⟩⟩
    · rfl
    · rfl
    · rw [hdrop] at hdot
      have he : e = '.' := hdot
      rw [← Bool.not_eq_true]
      exact fun hd => hpoint ⟨d, ds, by rw [hdrop, he], hd⟩

theorem number_spelled {l : Lexer} (hs : AtStart l) {fuel : Nat} (hf : (rest l).length < fuel) {c : Char} {cs : List Char}
    (hr : rest l = c :: cs) (hc : isDigitChar c = true) : Spelled l (makeIntegerOrFloat fuel l) := by
  obtain ⟨isFloat, number, tail, htext, hnumber, hnumeral, hpoint⟩ := number_split hc cs
  have hr : rest l = number ++ tail := hr.trans htext
  by_cases hsuffix : tail.headD '\x00' ∉ ['i', 'u', 'f']
  · have hends : EndsPlain isFloat tail := ⟨hnumeral, hpoint, hsuffix⟩
    exact (number_scanned hs hf hnumber hends hr).spelled hr (.number hnumber hends)
  rw [not_not] at hsuffix
  rcases tail with _ | ⟨d, ds⟩
  · exact absurd hsuffix (by decide)
  by_cases hwhole : d = 'f' ∧ isFloat = false
  · obtain ⟨rfl, rfl⟩ := hwhole
    exact wholeF_spelled hf hnumber hr
  · have hletter : d = 'i' ∨ d = 'u' ∨ d = 'f' ∧ isFloat = true := by
      simp only [List.headD_cons, List.mem_cons, List.not_mem_nil, or_false] at hsuffix
      rcases hsuffix with h | h | h
      · exact .inl h
      · exact .inr (.inl h)
      · exact .inr (.inr ⟨h, by simpa [h] using hwhole⟩)
    have hrun : ∀ e ∈ ds.takeWhile isDigitChar, isDigitChar e = true := fun e he => List.mem_takeWhile_imp he
    have hend := headD_dropWhile isDigitChar (by decide) ds
    refine suffixed_spelled hs hf ⟨isFloat, number, d, _, hnumber, hletter, hrun⟩ hend ?_
    rw [hr, Suffixed.text, List.append_assoc, List.cons_append, List.takeWhile_append_dropWhile]

/-! ## Strings -/

section

variable {l : Lexer} (hs : AtStart l) {fuel : Nat} (hf : (rest l).length < fuel)
include hs hf

theorem string_scanned {body tail : List Char} (hclosing : closing (body ++ '"' :: tail) = some (body, tail))
    (htail : tail ≠ []) (hr : rest l = '"' :: body ++ ['"'] ++ tail) :
    AnswersText l (makeString fuel (skip l) '"') .literalString ('"' :: body ++ ['"']) body := by
  have hr : rest l = '"' :: (body ++ '"' :: tail) := by rw [hr]; simp
  have hlen : (rest (skip l)).length < fuel := by
    rw [hr, List.length_cons] at hf
    rw [skip_rest hr]
    omega
  obtain ⟨t, l', w, hrun, hscanned⟩ := makeString_scanned (skip_cons hr) hs hlen
  obtain ⟨t', l'', hrun', hcases⟩ := makeString_token hs hr hf
  cases hrun.symm.trans hrun'
  rcases hcases with ⟨body', behind, hclosing', -, htype, hlexeme, hm, -⟩ | ⟨hnone | ⟨body', hlast⟩, -⟩
  · cases hclosing.symm.trans hclosing'
    refine ⟨l', ?_, hm⟩
    rw [hrun, ← hscanned.line, ← htype, ← hlexeme]
  · cases hclosing.symm.trans hnone
  · cases hclosing.symm.trans hlast
    exact absurd rfl htail

theorem string_spelled {cs : List Char} (hr : rest l = '"' :: cs) : Spelled l (makeString fuel (skip l) '"') := by
  obtain ⟨t, l', hrun, ⟨body, behind, hclosing, hbehind, htype, hlexeme, hm, hrest⟩ | ⟨-, herror⟩⟩ := makeString_token hs hr hf
  · have hcs : cs = body ++ '"' :: behind := by
      have htext := hm.text
      rw [hr, hrest] at htext
      simpa using htext
    rw [hcs] at hclosing
    rintro t' l'' heq -
    obtain ⟨rfl, rfl⟩ := Prod.mk.inj (Option.some.inj (hrun.symm.trans heq))
    refine ⟨_, ?_, hm⟩
    rw [htype, hlexeme, hrest]
    exact .string hclosing hbehind
  · rintro t' l'' heq hne
    obtain ⟨rfl, rfl⟩ := Prod.mk.inj (Option.some.inj (hrun.symm.trans heq))
    exact absurd herror hne

end

/-! ## The whole token -/

theorem operators_heads : ∀ o ∈ operators, o.2 ≠ [] ∧ isDigitChar (o.2.headD '\x00') = false ∧
    isAlphaChar (o.2.headD '\x00') = false := by decide

theorem NumberText.head {isFloat : Bool} {number : List Char} (h : NumberText isFloat number) :
    ∃ d ds, number = d :: ds ∧ isDigitChar d = true := by
  induction h with
  | whole hd _ => exact ⟨_, _, rfl, hd⟩
  | fraction _ _ _ ih =>
    obtain ⟨d, ds, rfl, hd⟩ := ih
    exact ⟨d, _, rfl, hd⟩

theorem scanToken_digit {l : Lexer} {c : Char} {cs : List Char} (hr : rest l = c :: cs) (hc : isDigitChar c = true)
    (fuel : Nat) : scanToken fuel l = makeIntegerOrFloat fuel l := by
  rw [scanToken, isDigit, peek_cons hr, if_pos hc]

theorem scanToken_alpha {l : Lexer} {c : Char} {cs : List Char} (hr : rest l = c :: cs) (hc : isAlphaChar c = true)
    (fuel : Nat) : scanToken fuel l = makeKeywordOrIdentifier fuel l := by
  rw [scanToken, isDigit, isAlpha, peek_cons hr, alpha_not_digit hc, hc]
  rfl

theorem scanToken_switch {l : Lexer} {c : Char} {cs : List Char} (hr : rest l = c :: cs) (hd : isDigitChar c = false)
    (ha : isAlphaChar c = false) (fuel : Nat) : scanToken fuel l = scanOperator fuel c (skip l) := by
  rw [scanToken, isDigit, isAlpha, peek_cons hr, hd, ha, (advance_cons hr).1]
  rfl

/-- A spelled text is scanned as its token. -/
theorem spells_scanned {type : TokenType} {text lexeme tail : List Char} (h : Spells type text lexeme tail) {l : Lexer}
    (hs : AtStart l) (hr : rest l = text ++ tail) {fuel : Nat} (hf : (rest l).length < fuel) :
    AnswersText l (scanToken fuel l) type text lexeme := by
  cases h with
  | word w htail =>
    rw [scanToken_alpha hr w.alpha]
    exact word_scanned hs hf w htail hr
  | number hnumber htail =>
    obtain ⟨d, ds, rfl, hd⟩ := hnumber.head
    rw [scanToken_digit hr hd]
    exact number_scanned hs hf hnumber htail hr
  | suffixed s htype htail =>
    obtain ⟨d, ds, hnumber, hd⟩ := s.isNumber.head
    have hhead : rest l = d :: (ds ++ s.suffix :: s.run ++ tail) := by rw [hr, Suffixed.text, hnumber]; simp
    rw [scanToken_digit hhead hd]
    exact suffixed_scanned hs hf s htype htail hr
  | string hclosing htail =>
    rw [scanToken_switch hr rfl rfl]
    exact string_scanned hs hf hclosing htail hr
  | operator ho hlong =>
    obtain ⟨hne, hd, ha⟩ := operators_heads _ ho
    obtain ⟨c, cs, rfl⟩ := List.exists_cons_of_ne_nil hne
    rw [scanToken_switch hr hd ha]
    exact operator_scanned hs fuel ho hr hlong

/-- Where no comment begins, a token that is scanned is spelled, unless it is an error. -/
theorem scanned_spells {l : Lexer} (hs : AtStart l) (hne : rest l ≠ []) (hopen : ∀ o ∈ openers, ¬ o <+: rest l)
    {fuel : Nat} (hf : (rest l).length < fuel) : Spelled l (scanToken fuel l) := by
  obtain ⟨c, cs, hr⟩ := List.exists_cons_of_ne_nil hne
  by_cases hd : isDigitChar c = true
  · rw [scanToken_digit hr hd]
    exact number_spelled hs hf hr hd
  by_cases ha : isAlphaChar c = true
  · rw [scanToken_alpha hr ha]
    exact word_spelled hs hf hr ha
  rw [scanToken_switch hr (by simpa using hd) (by simpa using ha)]
  by_cases hquote : c = '"'
  · subst hquote
    exact string_spelled hs hf hr
  · exact switch_spelled hs fuel hr hopen hquote

end Xvr.Frontend.Lexer
