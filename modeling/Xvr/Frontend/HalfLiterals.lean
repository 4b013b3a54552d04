/-
  Xvr.Frontend.HalfLiterals — a half-precision literal, stored by the parser and read back
  (`atomic` of `xvr_parser.cpp`, `halfToFloat`).

  `frexp` puts the leading one behind the point, an IEEE format in front of it. The parser
  adds the format's bias to the exponent of `frexp` all the same, so what it stores is one
  exponent too large.

  Proved:
  - `toFloat_half`: scanning and casting change nothing.
  - `halfBits_half`: the exponent stored is one too large.
  - `half_doubled`: what is read back is twice the number, or an infinity.
  - `half_never_kept`: no normal half is read back.
-/

import Xvr.Frontend.Atoms
import Xvr.Runtime.HalfFloats

namespace Xvr.Frontend.Parse

open Xvr.Runtime Xvr.Lib.Floats

/-! ## Normal halves -/

/-- A positive normal half: its exponent and mantissa. -/
structure NormalHalf where
  exponent : Nat
  mantissa : Nat
  positive : 0 < exponent
  finite : exponent < 31
  fits : mantissa < 1024

namespace NormalHalf

variable (h : NormalHalf)

def number : ℚ := (1024 + h.mantissa) * 2 ^ (h.exponent - 25 : ℤ)

theorem bits_value : ieeeValue 5 10 (halfOf h.exponent h.mantissa).toNat = some h.number := by
  rw [halfOf_toNat (Nat.lt_succ_of_lt h.finite) h.fits, show h.exponent * 1024 = h.exponent * 2 ^ 10 from rfl,
    ieeeValue_normal h.positive h.finite h.fits, number,
    show (h.exponent : ℤ) - bias 5 - (10 : Nat) = h.exponent - 25 by simp [bias]; omega]
  norm_num

theorem number_pos : 0 < h.number := mul_pos (by positivity) (zpow_pos (by norm_num) _)

/-- The mantissa with its hidden bit, as `frexp` scales it. -/
def fraction : ℚ := (1024 + h.mantissa) / 2048

theorem fraction_pos : 0 < h.fraction := by
  unfold fraction
  positivity

theorem number_eq : h.number = h.fraction * 2 ^ (h.exponent - 14 : ℤ) := by
  have hscale : (2 : ℚ) ^ (h.exponent - 14 : ℤ) = 2 ^ (h.exponent - 25 : ℤ) * 2 ^ 11 := by
    rw [← zpow_natCast, ← zpow_add₀ (by norm_num)]
    congr 1
    omega
  rw [number, fraction, hscale]
  ring

theorem mantissa_lt : (h.mantissa : ℚ) < 1024 := by exact_mod_cast h.fits

theorem frexp_number : frexp h.number = (h.fraction, (h.exponent : ℤ) - 14) := by
  have hlt := h.mantissa_lt
  have hnonneg : (0 : ℚ) ≤ h.mantissa := Nat.cast_nonneg _
  rw [number_eq]
  refine frexp_eq ?_ ?_
  · rw [abs_of_pos h.fraction_pos, fraction]
    linarith
  · rw [abs_of_pos h.fraction_pos, fraction]
    linarith

/-- It is a number of any format with so many digits and such units. -/
theorem holds {f : Format} (hdigits : 11 ≤ f.precision) (hunit : f.smallest ≤ -24) (hbound : 16 ≤ f.bound) :
    f.Holds h.number (1024 + h.mantissa) (h.exponent - 25) := by
  have hfits := h.fits
  have hfinite := h.finite
  have hpositive := h.positive
  refine ⟨?_, ?_, by omega, ?_⟩
  · rw [number]
    push_cast
    rfl
  · have hpow : (2 : ℤ) ^ 11 ≤ 2 ^ f.precision := pow_le_pow_right₀ (by norm_num) hdigits
    rw [abs_of_pos (by omega)]
    omega
  · rw [abs_of_pos h.number_pos, number_eq]
    have hfraction : h.fraction < 1 := by
      have hlt := h.mantissa_lt
      rw [fraction]
      linarith
    calc h.fraction * 2 ^ (h.exponent - 14 : ℤ)
      _ < 2 ^ (h.exponent - 14 : ℤ) := mul_lt_of_lt_one_left (zpow_pos (by norm_num) _) hfraction
      _ ≤ 2 ^ f.bound := zpow_le_zpow_right₀ (by norm_num) (by omega)

end NormalHalf

/-! ## Storing and reading -/

/-- Scanning and casting change nothing. -/
theorem toFloat_half (h : NormalHalf) : toFloat h.number = some h.number := by
  unfold toFloat
  rw [Format.round_exact (h.holds (f := double) (by decide) (by decide) (by decide))]
  exact Format.round_exact (h.holds (f := single) (by decide) (by decide) (by decide))

theorem packed_half (exponent : Nat) {mantissa : Nat} (h : mantissa < 1024) :
    ((if false = true then (1 : BitVec 16) else 0) <<< 15 ||| BitVec.ofInt 16 ((exponent : ℤ) * 1024)) |||
      BitVec.ofInt 16 mantissa = halfOf exponent mantissa := by
  have hfields : exponent * 1024 + mantissa = exponent * 1024 ||| mantissa := by
    have := Nat.two_pow_add_eq_or_of_lt (i := 10) h exponent
    rwa [Nat.mul_comm] at this
  have hexp : (exponent : ℤ) * 1024 = ((exponent * 1024 : Nat) : ℤ) := by push_cast; rfl
  rw [halfOf, hfields, hexp, BitVec.ofInt_natCast, BitVec.ofInt_natCast, BitVec.ofNat_or]
  simp

/-- The exponent stored is one too large. -/
theorem halfBits_half (h : NormalHalf) : halfBits (some h.number) = halfOf (h.exponent + 1) h.mantissa := by
  have hpos := h.number_pos
  have hfits := h.fits
  have hmantissa : ⌊(|h.fraction| - 1 / 2) * 2048⌋ = (h.mantissa : ℤ) := by
    rw [abs_of_pos h.fraction_pos, NormalHalf.fraction,
      show ((1024 + h.mantissa : ℚ) / 2048 - 1 / 2) * 2048 = ((h.mantissa : ℤ) : ℚ) by push_cast; ring, Int.floor_intCast]
  have hsign : (some h.number).any (· < 0) = false := by simp [hpos.le]
  have hexp : (h.exponent : ℤ) - 14 + 15 = ((h.exponent + 1 : Nat) : ℤ) := by
    push_cast
    ring
  unfold halfBits
  simp only [hsign, if_neg hpos.ne', h.frexp_number, hmantissa, hexp]
  exact packed_half _ hfits

/-- A literal's bits, read back. -/
def readBack (x : ℚ) : Option ℚ := ieeeValue 8 23 (halfToFloat (halfBits (toFloat x))).toNat

/-- What is read back is twice the number, or an infinity. -/
theorem half_doubled (h : NormalHalf) : readBack h.number = if h.exponent = 30 then none else some (2 * h.number) := by
  unfold readBack
  rw [toFloat_half, halfBits_half]
  have hfinite := h.finite
  by_cases hlast : h.exponent = 30
  · rw [if_pos hlast, hlast, halfToFloat_inf h.fits]
    rfl
  · let next : NormalHalf := ⟨h.exponent + 1, h.mantissa, Nat.succ_pos _, by omega, h.fits⟩
    have hnext : next.number = 2 * h.number := by
      show (1024 + (h.mantissa : ℚ)) * 2 ^ ((h.exponent + 1 : Nat) - 25 : ℤ) = _
      rw [NormalHalf.number, show ((h.exponent + 1 : Nat) - 25 : ℤ) = (h.exponent - 25) + 1 by push_cast; ring,
        zpow_add_one₀ (by norm_num)]
      ring
    rw [if_neg hlast, halfToFloat_normal (Nat.succ_pos _) next.finite h.fits, ← hnext]
    exact next.bits_value

theorem half_lost (h : NormalHalf) : readBack h.number ≠ some h.number := by
  have hpos := h.number_pos
  rw [half_doubled]
  split
  · nofun
  · intro heq
    injection heq with heq
    linarith

/-- No normal half is read back, however a FLOAT16 token spells it. -/
theorem half_never_kept (h : NormalHalf) :
    readBack h.number ≠ some h.number ∧
      ∀ t : Token, t.type = .literalFloat16 → scanNumber (removeChar t.lexeme '_') = h.number →
        ∃ bits, tokenLiteral t = some (.float16 bits) ∧ ieeeValue 8 23 (halfToFloat bits).toNat ≠ some h.number := by
  refine ⟨half_lost h, fun t htype hspelled => ⟨halfBits (toFloat h.number), ?_, half_lost h⟩⟩
  unfold tokenLiteral
  rw [htype, ← hspelled]

/-- `1.0f16`, and the half it spells. -/
def oneToken : Token := ⟨.literalFloat16, "1.0f16".toList, 1⟩

def NormalHalf.one : NormalHalf := ⟨15, 0, by decide, by decide, by decide⟩

theorem scanNumber_one : scanNumber (removeChar oneToken.lexeme '_') = NormalHalf.one.number := by
  have hscan : scanDecimal (removeChar oneToken.lexeme '_') = (10, 1) := by decide
  rw [scanNumber, hscan]
  norm_num [NormalHalf.number, NormalHalf.one]

/-- `1.0f16` is read back as 2. -/
theorem one_read_as_two :
    ¬ ∀ bits, tokenLiteral oneToken = some (.float16 bits) → ieeeValue 8 23 (halfToFloat bits).toNat = some 1 := by
  intro h
  have hone : NormalHalf.one.number = 1 := by norm_num [NormalHalf.number, NormalHalf.one]
  have hread := h (halfBits (toFloat NormalHalf.one.number)) (by rw [← scanNumber_one]; rfl)
  have hlost := half_lost .one
  rw [readBack, hone] at hlost
  rw [hone] at hread
  exact hlost hread

theorem half_never_kept_one :
    readBack NormalHalf.one.number ≠ some NormalHalf.one.number ∧
      ∃ bits, tokenLiteral oneToken = some (.float16 bits) ∧
        ieeeValue 8 23 (halfToFloat bits).toNat ≠ some NormalHalf.one.number :=
  ⟨(half_never_kept .one).1, (half_never_kept .one).2 oneToken rfl scanNumber_one⟩

end Xvr.Frontend.Parse
