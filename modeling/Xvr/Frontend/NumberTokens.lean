/-
  Xvr.Frontend.NumberTokens — number tokens with a suffix (`makeIntegerOrFloat` of
  `xvr_lexer.cpp`).

  The width behind a suffix letter is added up in an `int`, which wraps, and only then
  compared with the widths there are.

  Proved:
  - `makeIntegerOrFloat_suffixed`: the token of a number with a suffix.
  - `suffix_accepted_iff`: a suffix is accepted exactly for the widths there are, unless its
    number is one of them only modulo 2^32.
  - `wrapped_width_accepted`: `1i4294967304` is an 8-bit integer.
-/

import Xvr.Frontend.Atoms
import Xvr.Frontend.LexerRuns

namespace Xvr.Frontend.Lexer

open Xvr.Lib.Loop Parse

/-! ## Number texts -/

/-- What may stand in a number behind its first digit. -/
def isNumeral (c : Char) : Bool := isDigitChar c || c == '_'

/-- The text of a number before its suffix, without a fraction or with one. -/
inductive NumberText : Bool → List Char → Prop
  | whole {d : Char} {ds : List Char} : isDigitChar d = true → (∀ c ∈ ds, isNumeral c = true) → NumberText false (d :: ds)
  | fraction {whole : List Char} {d : Char} {ds : List Char} : NumberText false whole → isDigitChar d = true →
      (∀ c ∈ ds, isNumeral c = true) → NumberText true (whole ++ '.' :: d :: ds)

/-- A number, a suffix letter and a run of digits; `f` stands behind a fraction. -/
structure Suffixed where
  isFloat : Bool
  number : List Char
  suffix : Char
  run : List Char
  isNumber : NumberText isFloat number
  isSuffix : suffix = 'i' ∨ suffix = 'u' ∨ suffix = 'f' ∧ isFloat = true
  isRun : ∀ c ∈ run, isDigitChar c = true

def Suffixed.text (s : Suffixed) : List Char := s.number ++ s.suffix :: s.run

/-- The widths a suffix letter may name. -/
def widths (suffix : Char) : List Nat := if suffix = 'f' then [16, 32, 64] else [8, 16, 32, 64]

theorem isNumeral_of_digit {c : Char} (h : isDigitChar c = true) : isNumeral c = true := by
  rw [isNumeral, h, Bool.true_or]

theorem not_numeral_suffix (s : Suffixed) : isNumeral s.suffix = false ∧ s.suffix ≠ '.' := by
  rcases s.isSuffix with h | h | ⟨h, -⟩ <;> rw [h] <;> decide

/-! ## Exact loops -/

theorem takeWhile_run {p : Char → Bool} {w t : List Char} (hw : ∀ c ∈ w, p c = true)
    (ht : p (t.headD '\x00') = false) : (w ++ t).takeWhile p = w := by
  rw [List.takeWhile_append_of_pos hw]
  cases t with
  | nil => simp
  | cons c cs =>
    rw [List.takeWhile_cons_of_neg (by simpa using ht), List.append_nil]

/-- A skipping loop stops behind the characters of its kind. -/
theorem skipWhile_reads (p : Char → Bool) (hp : p '\x00' = false) {c : Lexer → Bool} (hc : ∀ l, c l = p (peek l))
    {l : Lexer} {w t : List Char} (hr : rest l = w ++ t) (hw : ∀ x ∈ w, p x = true) (ht : p (t.headD '\x00') = false)
    {fuel : Nat} (hf : (rest l).length < fuel) :
    ∃ l', whileLoop c skip fuel l = some l' ∧ Moves l l' w ∧ rest l' = t := by
  obtain ⟨w', l', hrun, hm, hw', hend⟩ := skipWhile_moves p hp hc hf
  rw [peek_eq] at hend
  have htext : w' ++ rest l' = w ++ t := hm.text.symm.trans hr
  have hsame : w' = w := by rw [← takeWhile_run hw' hend, htext, takeWhile_run hw ht]
  subst hsame
  exact ⟨l', hrun, hm, List.append_cancel_left htext⟩

theorem eatDigits_reads {l : Lexer} {w t : List Char} (hr : rest l = w ++ t) (hw : ∀ c ∈ w, isNumeral c = true)
    (ht : isNumeral (t.headD '\x00') = false) {fuel : Nat} (hf : (rest l).length < fuel) :
    ∃ l', eatDigits fuel l = some l' ∧ Moves l l' w ∧ rest l' = t :=
  skipWhile_reads isNumeral (by decide) (fun _ => rfl) hr hw ht hf

/-- Inside the loop over a suffix's digits: the accumulator is what was read, modulo 2^32. -/
def WidthRead (l : Lexer) (run tail : List Char) (s : BitVec 32 × Lexer) : Prop :=
  ∃ w v, run = w ++ v ∧ Moves l s.2 w ∧ rest s.2 = v ++ tail ∧ s.1 = BitVec.ofNat 32 (decimalValue w)

theorem decimalValue_snoc (w : List Char) (c : Char) :
    decimalValue (w ++ [c]) = decimalValue w * 10 + (c.toNat - '0'.toNat) := by
  simp [decimalValue, List.foldl_append]

/-- One more digit, in the accumulator and in the number. -/
theorem accumulate_digit {c : Char} (h : isDigitChar c = true) (n : Nat) :
    BitVec.ofNat 32 n * 10 + (BitVec.ofNat 32 c.toNat - BitVec.ofNat 32 '0'.toNat) =
      BitVec.ofNat 32 (n * 10 + (c.toNat - '0'.toNat)) := by
  have hle : '0'.toNat ≤ c.toNat := by
    have : '0' ≤ c := by simpa using (Bool.and_eq_true_iff.mp h).1
    exact this
  obtain ⟨k, hk⟩ := Nat.exists_eq_add_of_le' hle
  rw [hk, Nat.add_sub_cancel, BitVec.ofNat_add, BitVec.ofNat_add, BitVec.ofNat_mul, BitVec.add_sub_cancel]
  rfl

theorem eatBitWidth_reads {l : Lexer} {run tail : List Char} (hr : rest l = run ++ tail)
    (hrun : ∀ c ∈ run, isDigitChar c = true) (htail : isDigitChar (tail.headD '\x00') = false) {fuel : Nat}
    (hf : (rest l).length < fuel) :
    ∃ l', eatBitWidth fuel l = some (BitVec.ofNat 32 (decimalValue run), l') ∧ Moves l l' run ∧ rest l' = tail := by
  have hstep : ∀ s : BitVec 32 × Lexer, WidthRead l run tail s → isDigit s.2 = true →
      WidthRead l run tail (s.1 * 10 + (BitVec.ofNat 32 (peek s.2).toNat - BitVec.ofNat 32 '0'.toNat), skip s.2) ∧
        (rest (skip s.2)).length < (rest s.2).length := by
    intro s ⟨w, v, hwv, hm, hs, hk⟩ hd
    cases v with
    | nil =>
      rw [isDigit, peek_eq, hs, List.nil_append, htail] at hd
      cases hd
    | cons c v =>
      have hc : isDigitChar c = true := hrun c (by simp [hwv])
      refine ⟨⟨w ++ [c], v, by simp [hwv], hm.trans (skip_cons hs), skip_rest hs, ?_⟩, by simp [skip_rest hs, hs]⟩
      rw [peek_cons hs, hk, accumulate_digit hc, decimalValue_snoc]
  have hstart : WidthRead l run tail (0, l) := ⟨[], run, rfl, Moves.refl l, hr, rfl⟩
  obtain ⟨⟨k, l'⟩, hl, ⟨w, v, hwv, hm, hs, hk⟩, hend⟩ :=
    whileLoop_total _ (fun s => (rest s.2).length) hstep hstart hf
  have hv : v = [] := by
    cases v with
    | nil => rfl
    | cons c v =>
      rw [isDigit, peek_cons hs, hrun c (by simp [hwv])] at hend
      cases hend
  rw [hv, List.append_nil] at hwv
  rw [hv, List.nil_append] at hs
  subst hwv
  exact ⟨l', by rw [eatBitWidth, hl, ← hk], hm, hs⟩

/-! ## Whole tokens -/

theorem NumberText.numerals {number : List Char} (h : NumberText false number) : ∀ c ∈ number, isNumeral c = true := by
  intro c hc
  cases h with
  | whole hd hds =>
    rcases List.mem_cons.mp hc with rfl | hc
    · exact isNumeral_of_digit hd
    · exact hds c hc

/-- A number is read up to what does not belong to it. -/
theorem number_reads {isFloat : Bool} {number : List Char} (h : NumberText isFloat number) {l : Lexer} {c : Char}
    {tail : List Char} (hr : rest l = number ++ c :: tail) (hc : isNumeral c = false) (hpoint : c ≠ '.') {fuel : Nat}
    (hf : (rest l).length < fuel) :
    ∃ l₁ l₂, eatDigits fuel l = some l₁ ∧ (peek l₁ == '.' && isDigitChar (peekNext l₁)) = isFloat ∧
      (if isFloat then eatDigits fuel (skip l₁) else some l₁) = some l₂ ∧ Moves l l₂ number ∧ rest l₂ = c :: tail := by
  cases h with
  | whole hd hds =>
    obtain ⟨l₁, hrun, hm, hl₁⟩ := eatDigits_reads hr (NumberText.whole hd hds).numerals (by simpa using hc) hf
    exact ⟨l₁, l₁, hrun, by simp [peek_cons hl₁, hpoint], rfl, hm, hl₁⟩
  | @fraction whole d ds hw hd hds =>
    rw [List.append_assoc] at hr
    obtain ⟨l₁, hrun, hm, hl₁⟩ := eatDigits_reads hr hw.numerals rfl hf
    have hl₁ : rest l₁ = '.' :: ((d :: ds) ++ c :: tail) := hl₁
    have hds : ∀ x ∈ d :: ds, isNumeral x = true := (NumberText.whole hd hds).numerals
    have hlen : (rest (skip l₁)).length < fuel := by
      have := hm.length
      rw [hl₁, List.length_cons] at this
      rw [skip_rest hl₁]
      omega
    obtain ⟨l₂, hrun₂, hm₂, hl₂⟩ := eatDigits_reads (skip_rest hl₁) hds (by simpa using hc) hlen
    refine ⟨l₁, l₂, hrun, ?_, hrun₂, ?_, hl₂⟩
    · rw [peek_cons hl₁, peekNext_cons hl₁]
      exact hd
    · have := hm.trans ((skip_cons hl₁).trans hm₂)
      simpa using this

/-- The token of a number with a suffix. -/
theorem makeIntegerOrFloat_suffixed (s : Suffixed) {l : Lexer} {tail : List Char} (hr : rest l = s.text ++ tail)
    (htail : isDigitChar (tail.headD '\x00') = false) {fuel : Nat} (hf : (rest l).length < fuel) :
    ∃ l', Moves l l' s.text ∧ rest l' = tail ∧ makeIntegerOrFloat fuel l =
      some (match suffixType s.suffix (BitVec.ofNat 32 (decimalValue s.run)) with
        | .inl type => makeSpanToken l' type
        | .inr msg => makeErrorToken l' msg, l') := by
  have hr : rest l = s.number ++ s.suffix :: (s.run ++ tail) := by rw [hr, Suffixed.text]; simp
  obtain ⟨hnumeral, hpoint⟩ := not_numeral_suffix s
  obtain ⟨l₁, l₂, hrun₁, hpeek, hrun₂, hm, hl₂⟩ := number_reads s.isNumber hr hnumeral hpoint hf
  have hlen : (rest (skip l₂)).length < fuel := by
    have := hm.length
    rw [hl₂, List.length_cons] at this
    rw [skip_rest hl₂]
    omega
  obtain ⟨l₃, hwidth, hm₃, hl₃⟩ := eatBitWidth_reads (skip_rest hl₂) s.isRun htail hlen
  refine ⟨l₃, ?_, hl₃, ?_⟩
  · have := hm.trans ((skip_cons hl₂).trans hm₃)
    simpa [Suffixed.text] using this
  · have hsuffix : (s.suffix == 'i' || s.suffix == 'u' || s.suffix == 'f') = true := by
      rcases s.isSuffix with h | h | ⟨h, -⟩ <;> rw [h] <;> rfl
    have hfloat : (s.suffix == 'f' && !s.isFloat) = false := by
      rcases s.isSuffix with h | h | ⟨h, hfl⟩
      · rw [h]; rfl
      · rw [h]; rfl
      · rw [hfl]; simp
    simp only [makeIntegerOrFloat, hrun₁, Option.bind_eq_bind, Option.bind_some, hpeek, hrun₂, peek_cons hl₂, hsuffix,
      if_true, makeSuffix, hfloat, if_false, hwidth, Bool.false_eq_true]
    cases suffixType s.suffix (BitVec.ofNat 32 (decimalValue s.run)) <;> rfl

/-- What may not follow a number without a suffix: more of the number, a fraction, a suffix. -/
def EndsNumber (tail : List Char) : Prop :=
  isNumeral (tail.headD '\x00') = false ∧ (tail.headD '\x00' = '.' → isDigitChar (tail.tail.headD '\x00') = false) ∧
    tail.headD '\x00' ∉ ['i', 'u', 'f']

/-- The token of a number without a suffix and without a fraction. -/
theorem makeIntegerOrFloat_plain {number : List Char} (h : NumberText false number) {l : Lexer} {tail : List Char}
    (hr : rest l = number ++ tail) (htail : EndsNumber tail) {fuel : Nat} (hf : (rest l).length < fuel) :
    ∃ l', Moves l l' number ∧ makeIntegerOrFloat fuel l = some (makeSpanToken l' .literalInteger, l') := by
  obtain ⟨hnumeral, hpoint, hsuffix⟩ := htail
  obtain ⟨l', hrun, hm, hl'⟩ := eatDigits_reads hr h.numerals hnumeral hf
  have hfraction : (peek l' == '.' && isDigitChar (peekNext l')) = false := by
    rcases tail with _ | ⟨c, cs⟩
    · rw [peek_nil hl']
      rfl
    · rw [peek_cons hl', peekNext_cons hl']
      by_cases hc : c = '.'
      · simpa [hc] using hpoint hc
      · simp [hc]
  have hletter : (peek l' == 'i' || peek l' == 'u' || peek l' == 'f') = false := by
    rw [peek_eq, hl']
    simpa [and_assoc] using hsuffix
  refine ⟨l', hm, ?_⟩
  simp only [makeIntegerOrFloat, hrun, Option.bind_eq_bind, Option.bind_some, hfraction, hletter, Bool.false_eq_true, if_false,
    Option.pure_def]

/-! ## Accepted suffixes -/

/-- A suffix names a type for the widths there are. -/
theorem suffixType_iff (s : Suffixed) (width : BitVec 32) :
    (suffixType s.suffix width).isLeft = true ↔ width ∈ (widths s.suffix).map (BitVec.ofNat 32) := by
  by_cases hw : width = 8#32 ∨ width = 16#32 ∨ width = 32#32 ∨ width = 64#32
  · rcases s.isSuffix with h | h | ⟨h, -⟩
    all_goals
      rw [h]
      rcases hw with rfl | rfl | rfl | rfl <;> decide
  · simp only [not_or] at hw
    have hnone : (width != 8 && width != 16 && width != 32 && width != 64) = true := by simp [hw]
    refine iff_of_false (by rw [suffixType, if_pos hnone]; exact Bool.false_ne_true) ?_
    unfold widths
    split <;> simp [hw]

theorem widths_small {suffix : Char} : ∀ k ∈ widths suffix, k < 2 ^ 32 := by
  unfold widths
  split <;> decide

theorem mem_widths_iff (suffix : Char) (n : Nat) :
    BitVec.ofNat 32 n ∈ (widths suffix).map (BitVec.ofNat 32) ↔ n % 2 ^ 32 ∈ widths suffix := by
  rw [List.mem_map]
  constructor
  · intro ⟨k, hk, heq⟩
    have hn := congrArg BitVec.toNat heq
    rw [BitVec.toNat_ofNat, BitVec.toNat_ofNat, Nat.mod_eq_of_lt (widths_small k hk)] at hn
    rwa [← hn]
  · intro h
    refine ⟨_, h, BitVec.eq_of_toNat_eq ?_⟩
    rw [BitVec.toNat_ofNat, BitVec.toNat_ofNat, Nat.mod_mod]

/-- A suffix is accepted exactly for the widths there are, unless its number is one of them
    only modulo 2^32. -/
theorem suffix_accepted_iff (s : Suffixed) {l : Lexer} {tail : List Char} (hr : rest l = s.text ++ tail)
    (htail : isDigitChar (tail.headD '\x00') = false) {fuel : Nat} (hf : (rest l).length < fuel) :
    ∃ t l', makeIntegerOrFloat fuel l = some (t, l') ∧
      ((t.type ≠ .error ↔ decimalValue s.run ∈ widths s.suffix) ↔
        ¬ (2 ^ 32 ≤ decimalValue s.run ∧ decimalValue s.run % 2 ^ 32 ∈ widths s.suffix)) := by
  obtain ⟨l', -, -, hrun⟩ := makeIntegerOrFloat_suffixed s hr htail hf
  refine ⟨_, l', hrun, ?_⟩
  have haccepted : (match suffixType s.suffix (BitVec.ofNat 32 (decimalValue s.run)) with
      | .inl type => makeSpanToken l' type
      | .inr msg => makeErrorToken l' msg).type ≠ .error ↔ decimalValue s.run % 2 ^ 32 ∈ widths s.suffix := by
    rw [← mem_widths_iff, ← suffixType_iff]
    cases htype : suffixType s.suffix (BitVec.ofNat 32 (decimalValue s.run)) with
    | inl type => simpa [makeSpanToken] using (suffixType_plain htype).2.1
    | inr msg => simp [makeErrorToken]
  rw [haccepted]
  by_cases hlt : decimalValue s.run < 2 ^ 32
  · rw [Nat.mod_eq_of_lt hlt]
    refine iff_of_true Iff.rfl fun h => ?_
    omega
  · have hnot : decimalValue s.run ∉ widths s.suffix := fun h => hlt (widths_small _ h)
    rw [iff_false_right hnot]
    refine not_congr ?_
    rw [and_iff_right (Nat.le_of_not_lt hlt)]

/-- The source `1i4294967304`. -/
def wideSuffix : Source := ⟨"1i4294967304".toList, by decide⟩

/-- 4294967304 is 8 modulo 2^32. -/
theorem wrapped_width_accepted :
    ¬ ((∃ t l', makeIntegerOrFloat 13 (initLexer wideSuffix) = some (t, l') ∧ t.type ≠ .error) ↔
      decimalValue "4294967304".toList ∈ widths 'i') := by
  intro h
  have hin := h.mp ⟨_, _, rfl, by decide⟩
  exact absurd hin (by decide)

/-- `1u16` is an unsigned 16-bit integer. -/
theorem suffix_accepted_iff_u16 :
    ∃ t l', makeIntegerOrFloat 5 (initLexer ⟨"1u16".toList, by decide⟩) = some (t, l') ∧
      ((t.type ≠ .error ↔ decimalValue "16".toList ∈ widths 'u') ↔
        ¬ (2 ^ 32 ≤ decimalValue "16".toList ∧ decimalValue "16".toList % 2 ^ 32 ∈ widths 'u')) :=
  suffix_accepted_iff ⟨false, ['1'], 'u', "16".toList, .whole (by decide) (List.forall_mem_nil _), by decide,
      List.all_eq_true.mp (by decide)⟩
    (show rest (initLexer ⟨"1u16".toList, by decide⟩) = "1u16".toList ++ [] from rfl) rfl (by decide)

end Xvr.Frontend.Lexer
