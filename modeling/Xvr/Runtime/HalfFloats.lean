/-
  Xvr.Runtime.HalfFloats — `halfToFloat` of `xvr_literal.cpp`, as the bits of the `float`.

  Proved:
  - `normalise_hidden`: the loop ends, with the leading one in the hidden bit's place.
  - `halfToFloat_normal`, `halfToFloat_inf`: a normal half becomes the `float` of the same
    value, and the greatest exponent an infinity.
-/

import Xvr.Lib.Floats
import Mathlib.Data.BitVec
import Mathlib.Data.Nat.Bitwise

namespace Xvr.Runtime

open Xvr.Lib.Floats

/-- The `do` loop: shifts until the hidden bit is reached. Ten turns are enough for a
    mantissa that is not 0. -/
def normalise : Nat → Int → Nat → Int × Nat
  | 0, e, mantissa => (e, mantissa)
  | n + 1, e, mantissa =>
    let e := e + 1
    let mantissa := mantissa * 2
    if mantissa &&& 0x400 = 0 then normalise n e mantissa else (e, mantissa)

/-- `__builtin_huge_valf`. -/
def hugeVal : BitVec 32 := 0x7F800000#32

/-- The `float` of a sign, an exponent and a mantissa of ten bits. -/
def assemble (sign : Nat) (exp : Int) (mantissa : Nat) : BitVec 32 :=
  (BitVec.ofNat 32 sign <<< 31) ||| (BitVec.ofInt 32 (exp + 127) <<< 23) ||| (BitVec.ofNat 32 mantissa <<< 13)

def halfToFloat (half : BitVec 16) : BitVec 32 :=
  let sign := ((half >>> 15) &&& 1).toNat
  let exp := ((half >>> 10) &&& 0x1F).toNat
  let mantissa := (half &&& 0x3FF).toNat
  if exp = 0 then
    if mantissa = 0 then BitVec.ofNat 32 sign <<< 31
    else
      let (e, mantissa) := normalise 10 (-1) mantissa
      let exp := e + 1 - 15
      assemble sign (if exp < -126 then -126 else exp) (mantissa &&& 0x3FF)
  -- an infinity has no sign
  else if exp = 0x1F then hugeVal
  else assemble sign ((exp : Int) - 15) mantissa

/-! ## Shifting -/

theorem hidden_bit {m : Nat} (h : m < 2048) : m &&& 0x400 = 0 ↔ m < 1024 := by
  rw [Nat.and_comm, show (0x400 : Nat) = 2 ^ 10 from rfl, Nat.two_pow_and, Nat.testBit_eq_decide_div_mod_eq]
  simp
  omega

/-- The loop ends in time, with the leading one in the hidden bit's place. -/
theorem normalise_hidden {n : Nat} (e : Int) {mantissa : Nat} (hlow : mantissa < 1024) (hfuel : 1024 ≤ mantissa * 2 ^ n) :
    1024 ≤ (normalise n e mantissa).2 ∧ (normalise n e mantissa).2 < 2048 := by
  induction n generalizing e mantissa with
  | zero => omega
  | succ n ih =>
    unfold normalise
    by_cases h : mantissa * 2 &&& 0x400 = 0
    · simp only [if_pos h]
      refine ih (e + 1) ((hidden_bit (by omega)).mp h) ?_
      rwa [Nat.mul_assoc, ← Nat.pow_succ']
    · simp only [if_neg h]
      rw [hidden_bit (by omega)] at h
      omega

/-! ## Normal numbers -/

/-- A positive half's fields. -/
def halfOf (exponent mantissa : Nat) : BitVec 16 := BitVec.ofNat 16 (exponent * 1024 + mantissa)

theorem halfOf_toNat {exponent mantissa : Nat} (hexponent : exponent < 32) (hmantissa : mantissa < 1024) :
    (halfOf exponent mantissa).toNat = exponent * 1024 + mantissa := by
  rw [halfOf, BitVec.toNat_ofNat]
  exact Nat.mod_eq_of_lt (by omega)

theorem halfOf_fields {exponent mantissa : Nat} (hexponent : exponent < 32) (hmantissa : mantissa < 1024) :
    ((halfOf exponent mantissa >>> 15) &&& 1).toNat = 0 ∧ ((halfOf exponent mantissa >>> 10) &&& 0x1F).toNat = exponent ∧
      (halfOf exponent mantissa &&& 0x3FF).toNat = mantissa := by
  simp only [BitVec.toNat_and, BitVec.toNat_ushiftRight, halfOf_toNat hexponent hmantissa, Nat.shiftRight_eq_div_pow]
  refine ⟨?_, ?_, ?_⟩
  · show _ &&& (2 ^ 1 - 1) = 0
    rw [Nat.and_two_pow_sub_one_eq_mod]
    omega
  · show _ &&& (2 ^ 5 - 1) = exponent
    rw [Nat.and_two_pow_sub_one_eq_mod]
    omega
  · show _ &&& (2 ^ 10 - 1) = mantissa
    rw [Nat.and_two_pow_sub_one_eq_mod]
    omega

theorem assemble_toNat {exp mantissa : Nat} (hexp : exp < 256) (hmantissa : mantissa < 1024) :
    (assemble 0 ((exp : Int) - 127) mantissa).toNat = exp * 2 ^ 23 + mantissa * 2 ^ 13 := by
  have hexp' : exp % 2 ^ 32 = exp := Nat.mod_eq_of_lt (by omega)
  have hmantissa' : mantissa % 2 ^ 32 = mantissa := Nat.mod_eq_of_lt (by omega)
  have hhigh : exp * 2 ^ 23 % 2 ^ 32 = 2 ^ 23 * exp := by
    rw [Nat.mul_comm]
    exact Nat.mod_eq_of_lt (by norm_num; omega)
  have hlow : mantissa * 2 ^ 13 % 2 ^ 32 = mantissa * 2 ^ 13 := Nat.mod_eq_of_lt (by norm_num; omega)
  unfold assemble
  rw [show (exp : Int) - 127 + 127 = exp by omega, BitVec.ofInt_natCast]
  simp only [BitVec.toNat_or, BitVec.toNat_shiftLeft, BitVec.toNat_ofNat, Nat.shiftLeft_eq, hexp', hmantissa', hhigh, hlow]
  rw [Nat.zero_or, ← Nat.two_pow_add_eq_or_of_lt (by omega), Nat.mul_comm]

/-- A normal half becomes the `float` of the same value. -/
theorem halfToFloat_normal {exponent mantissa : Nat} (hpos : 0 < exponent) (hexponent : exponent < 31)
    (hmantissa : mantissa < 1024) :
    ieeeValue 8 23 (halfToFloat (halfOf exponent mantissa)).toNat = ieeeValue 5 10 (halfOf exponent mantissa).toNat := by
  obtain ⟨hsign, hexp, hmant⟩ := halfOf_fields (Nat.lt_succ_of_lt hexponent) hmantissa
  have hrun : halfToFloat (halfOf exponent mantissa) = assemble 0 (((exponent + 112 : Nat) : Int) - 127) mantissa := by
    unfold halfToFloat
    simp only [hsign, hexp, hmant]
    rw [if_neg (by omega), if_neg (by omega)]
    congr 1
    omega
  rw [hrun, assemble_toNat (by omega) hmantissa, halfOf_toNat (by omega) hmantissa,
    ieeeValue_normal (by omega) (by norm_num; omega) (by omega),
    show exponent * 1024 = exponent * 2 ^ 10 from rfl, ieeeValue_normal hpos (by omega) hmantissa]
  have hscale : (2 : ℚ) ^ ((exponent + 112 : Nat) - bias 8 - (23 : Nat)) * 2 ^ 13 = 2 ^ (exponent - bias 5 - (10 : Nat)) := by
    rw [← zpow_natCast, ← zpow_add₀ (by norm_num)]
    congr 1
    simp [bias]
    omega
  rw [← hscale]
  push_cast
  congr 1
  ring

/-- The greatest exponent becomes an infinity. -/
theorem halfToFloat_inf {mantissa : Nat} (hmantissa : mantissa < 1024) : halfToFloat (halfOf 31 mantissa) = hugeVal := by
  obtain ⟨-, hexp, -⟩ := halfOf_fields (by decide : 31 < 32) hmantissa
  unfold halfToFloat
  simp only [hexp]
  rfl

end Xvr.Runtime
