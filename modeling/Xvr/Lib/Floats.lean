/-
  Xvr.Lib.Floats — binary floating-point numbers and the rationals they stand for.

  A format has so many digits, a smallest unit and a bound. `round` is rounding to nearest,
  ties to even; what reaches the bound overflows.

  - `frexp_eq`: a number is split one way into a fraction of at least a half and a power
    of two.
  - `round_exact`: a number of the format rounds to itself.
  - `below_power_iff`, `numbers_mono`, `bound_lt`: which integers a format has, and when one format has
    every number of another.
  - `ieeeValue_normal`: the number a word of sign, exponent and mantissa stands for.
-/

import Mathlib.Data.Int.Log
import Mathlib.Data.Rat.Floor
import Mathlib.Tactic.Linarith
import Mathlib.Tactic.Ring
import Mathlib.Tactic.FieldSimp
import Mathlib.Tactic.Positivity

namespace Xvr.Lib.Floats

/-! ## Splitting -/

/-- The number as a fraction in `[1/2, 1)`, up to its sign, times a power of two. -/
def frexp (x : ℚ) : ℚ × ℤ :=
  if x = 0 then (0, 0)
  else
    let e := Int.log 2 |x| + 1
    (x / 2 ^ e, e)

theorem log_fraction {m : ℚ} {e : ℤ} (hlow : 1 / 2 ≤ |m|) (hhigh : |m| < 1) : Int.log 2 |m * 2 ^ e| = e - 1 := by
  have hpow : (0 : ℚ) < 2 ^ e := zpow_pos (by norm_num) e
  have habs : |m * 2 ^ e| = |m| * 2 ^ e := by rw [abs_mul, abs_of_pos hpow]
  have hpos : 0 < |m * 2 ^ e| := by
    rw [habs]
    exact mul_pos (lt_of_lt_of_le (by norm_num) hlow) hpow
  have hpred : (2 : ℚ) ^ (e - 1) = 1 / 2 * 2 ^ e := by
    rw [zpow_sub_one₀ (by norm_num : (2 : ℚ) ≠ 0)]
    ring
  apply le_antisymm
  · have h : |m * 2 ^ e| < ((2 : ℕ) : ℚ) ^ e := by
      rw [habs]
      push_cast
      exact mul_lt_of_lt_one_left hpow hhigh
    have := (Int.lt_zpow_iff_log_lt (by norm_num) hpos).mp h
    omega
  · refine (Int.zpow_le_iff_le_log (by norm_num) hpos).mp ?_
    push_cast
    rw [hpred, habs]
    exact mul_le_mul_of_nonneg_right hlow hpow.le

/-- The split is the only one. -/
theorem frexp_eq {m : ℚ} {e : ℤ} (hlow : 1 / 2 ≤ |m|) (hhigh : |m| < 1) : frexp (m * 2 ^ e) = (m, e) := by
  have hpow : (2 : ℚ) ^ e ≠ 0 := zpow_ne_zero e (by norm_num)
  have hm : m ≠ 0 := by
    rintro rfl
    norm_num at hlow
  unfold frexp
  simp only [if_neg (mul_ne_zero hm hpow), log_fraction hlow hhigh, sub_add_cancel, mul_div_cancel_right₀ m hpow]

/-! ## Rounding -/

/-- To the nearest integer, ties to even. -/
def roundEven (x : ℚ) : ℤ :=
  if Int.fract x < 1 / 2 then ⌊x⌋
  else if 1 / 2 < Int.fract x then ⌊x⌋ + 1
  else if ⌊x⌋ % 2 = 0 then ⌊x⌋
  else ⌊x⌋ + 1

@[simp] theorem roundEven_int (n : ℤ) : roundEven n = n := by
  unfold roundEven
  rw [Int.fract_intCast, if_pos (by norm_num), Int.floor_intCast]

/-- The numbers `n * 2 ^ e` with `|n| < 2 ^ precision` and `smallest ≤ e`, below
    `2 ^ bound`. -/
structure Format where
  precision : ℕ
  smallest : ℤ
  bound : ℤ

def half : Format := ⟨11, -24, 16⟩

def single : Format := ⟨24, -149, 128⟩

def double : Format := ⟨53, -1074, 1024⟩

/-- `none` is an overflow. -/
def Format.round (f : Format) (x : ℚ) : Option ℚ :=
  let unit : ℚ := 2 ^ max (Int.log 2 |x| + 1 - f.precision) f.smallest
  let y := roundEven (x / unit) * unit
  if |y| < 2 ^ f.bound then some y else none

/-- A number of the format. -/
structure Format.Holds (f : Format) (x : ℚ) (n e : ℤ) : Prop where
  value : x = n * 2 ^ e
  digits : |n| < 2 ^ f.precision
  unit : f.smallest ≤ e
  bounded : |x| < 2 ^ f.bound

/-- The unit of a number of the format is no greater than the one it is written with. -/
theorem Format.unit_le {f : Format} {x : ℚ} {n e : ℤ} (h : f.Holds x n e) (hx : x ≠ 0) :
    max (Int.log 2 |x| + 1 - f.precision) f.smallest ≤ e := by
  have hpow : (0 : ℚ) < 2 ^ e := zpow_pos (by norm_num) e
  have hlt : |x| < ((2 : ℕ) : ℚ) ^ (f.precision + e : ℤ) := by
    rw [h.value, abs_mul, abs_of_pos hpow]
    push_cast
    rw [zpow_add₀ (by norm_num), zpow_natCast]
    refine mul_lt_mul_of_pos_right ?_ hpow
    exact_mod_cast h.digits
  have hlog := (Int.lt_zpow_iff_log_lt (by norm_num) (abs_pos.mpr hx)).mp hlt
  exact max_le (by omega) h.unit

/-- A number of the format rounds to itself. -/
theorem Format.round_exact {f : Format} {x : ℚ} {n e : ℤ} (h : f.Holds x n e) : f.round x = some x := by
  have hpow (u : ℤ) : (2 : ℚ) ^ u ≠ 0 := zpow_ne_zero u (by norm_num)
  have hexact (u : ℤ) (hu : max (Int.log 2 |x| + 1 - f.precision) f.smallest = u) (k : ℤ) (hk : x / 2 ^ u = k) :
      f.round x = some x := by
    unfold Format.round
    simp only [hu, hk, roundEven_int]
    rw [← hk, div_mul_cancel₀ x (hpow u), if_pos h.bounded]
  by_cases hx : x = 0
  · exact hexact _ rfl 0 (by simp [hx])
  · have hle := Format.unit_le h hx
    generalize hu : max (Int.log 2 |x| + 1 - f.precision) f.smallest = u at hle
    obtain ⟨k, hk⟩ := Int.eq_ofNat_of_zero_le (sub_nonneg.mpr hle)
    refine hexact u hu (n * 2 ^ k) ?_
    rw [h.value, show e = u + k by omega, zpow_add₀ (by norm_num), zpow_natCast]
    push_cast
    rw [div_eq_iff (hpow u)]
    ring

/-! ## The numbers of a format -/

/-- All of them. -/
def Format.numbers (f : Format) : Set ℚ := {x | ∃ n e, f.Holds x n e}

/-- The precision is within the range, so the integers it reaches are numbers of the format. -/
structure Format.Usual (f : Format) : Prop where
  digits : 0 < f.precision
  unit : f.smallest ≤ 0
  range : (f.precision : ℤ) < f.bound

theorem half_usual : half.Usual := ⟨by decide, by decide, by decide⟩

theorem single_usual : single.Usual := ⟨by decide, by decide, by decide⟩

theorem double_usual : double.Usual := ⟨by decide, by decide, by decide⟩

/-- Integers with no more digits than the precision. -/
theorem Format.integer_mem {f : Format} (h : f.Usual) {z : ℤ} (hz : |z| < 2 ^ f.precision) : (z : ℚ) ∈ f.numbers := by
  refine ⟨z, 0, by simp, hz, h.unit, ?_⟩
  have hz' : |(z : ℚ)| < 2 ^ f.precision := by exact_mod_cast hz
  rw [← zpow_natCast] at hz'
  exact hz'.trans (zpow_lt_zpow_right₀ (by norm_num) h.range)

/-- And the next power of two. -/
theorem Format.power_mem {f : Format} (h : f.Usual) : (-2 ^ f.precision : ℚ) ∈ f.numbers := by
  refine ⟨-1, f.precision, by simp, ?_, h.unit.trans (by omega), ?_⟩
  · have := Nat.one_lt_two_pow h.digits.ne'
    rw [abs_neg, abs_one]
    exact_mod_cast this
  · rw [abs_neg, abs_of_pos (by positivity), ← zpow_natCast]
    exact zpow_lt_zpow_right₀ (by norm_num) h.range

/-- An odd integer needs all of its digits. -/
theorem Format.odd_digits {f : Format} {z : ℤ} (hodd : z % 2 = 1) (hz : (z : ℚ) ∈ f.numbers) : |z| < 2 ^ f.precision := by
  obtain ⟨n, e, hvalue, hdigits, -, -⟩ := hz
  by_cases he : 0 < e
  · -- a positive power of two makes the number even
    obtain ⟨k, rfl⟩ := Int.eq_succ_of_zero_lt he
    have heven : z = n * 2 ^ (k + 1) := by
      rw [show (k : ℤ) + 1 = ((k + 1 : ℕ) : ℤ) by push_cast; rfl, zpow_natCast] at hvalue
      exact_mod_cast hvalue
    rw [heven, pow_succ, ← mul_assoc, Int.mul_emod_left] at hodd
    cases hodd
  · have hle : |(z : ℚ)| ≤ |(n : ℚ)| := by
      rw [hvalue, abs_mul, abs_of_pos (zpow_pos (by norm_num : (0 : ℚ) < 2) e)]
      exact mul_le_of_le_one_right (abs_nonneg _) (zpow_le_one_of_nonpos₀ (by norm_num) (by omega))
    have hle' : |z| ≤ |n| := by exact_mod_cast hle
    exact hle'.trans_lt hdigits

/-- The integers below a power of two are numbers of the format exactly when the precision
    reaches it. -/
theorem Format.below_power_iff {f : Format} (h : f.Usual) (k : ℕ) :
    (∀ z : ℤ, 0 ≤ z → z < 2 ^ k → (z : ℚ) ∈ f.numbers) ↔ k ≤ f.precision := by
  constructor
  · intro hall
    by_contra hk
    have hdouble : (2 : ℤ) ^ (f.precision + 1) ≤ 2 ^ k := pow_le_pow_right₀ (by norm_num) (by omega)
    have hone : (2 : ℤ) ≤ 2 ^ f.precision := by
      have := pow_le_pow_right₀ (by norm_num : (1 : ℤ) ≤ 2) h.digits
      simpa using this
    have heven : (2 : ℤ) ^ f.precision % 2 = 0 := by
      obtain ⟨p, hp⟩ := Nat.exists_eq_add_of_lt h.digits
      rw [hp, pow_succ, Int.mul_emod_left]
    rw [pow_succ] at hdouble
    -- the first integer that needs one digit more
    have hmem := hall (2 ^ f.precision + 1) (by omega) (by omega)
    have hlt := Format.odd_digits (by omega) hmem
    rw [abs_of_pos (by omega)] at hlt
    omega
  · intro hk z hz hlt
    refine Format.integer_mem h ?_
    rw [abs_of_nonneg hz]
    exact hlt.trans_le (pow_le_pow_right₀ (by norm_num) hk)

/-- A format with more digits, a smaller unit and a greater bound has every number. -/
theorem Format.numbers_mono {f g : Format} (hdigits : f.precision ≤ g.precision) (hunit : g.smallest ≤ f.smallest)
    (hbound : f.bound ≤ g.bound) : f.numbers ⊆ g.numbers := by
  rintro x ⟨n, e, h⟩
  refine ⟨n, e, h.value, h.digits.trans_le ?_, hunit.trans h.unit, h.bounded.trans_le ?_⟩
  · exact pow_le_pow_right₀ (by norm_num) hdigits
  · exact zpow_le_zpow_right₀ (by norm_num) hbound

/-- A greater bound is reached by a number of the format. -/
theorem Format.bound_lt {f g : Format} (hf : f.Usual) (hg : g.Usual) (hbound : g.bound < f.bound) :
    ¬ f.numbers ⊆ g.numbers := by
  intro h
  have hmem : (2 : ℚ) ^ g.bound ∈ f.numbers := by
    refine ⟨1, g.bound, by simp, ?_, ?_, ?_⟩
    · have := Nat.one_lt_two_pow hf.digits.ne'
      rw [abs_one]
      exact_mod_cast this
    · have := hf.unit
      have := hg.range
      omega
    · rw [abs_of_pos (zpow_pos (by norm_num) _)]
      exact zpow_lt_zpow_right₀ (by norm_num) hbound
  obtain ⟨n, e, -, -, -, hlt⟩ := h hmem
  rw [abs_of_pos (zpow_pos (by norm_num) _)] at hlt
  exact lt_irrefl _ hlt

/-! ## Words -/

def bias (exponentBits : ℕ) : ℤ := 2 ^ (exponentBits - 1) - 1

/-- The number a word of so many exponent and mantissa bits stands for; `none` is an
    infinity or no number. -/
def ieeeValue (exponentBits mantissaBits word : ℕ) : Option ℚ :=
  let mantissa := word % 2 ^ mantissaBits
  let exponent := word / 2 ^ mantissaBits % 2 ^ exponentBits
  let sign : ℚ := if word / 2 ^ (exponentBits + mantissaBits) % 2 = 1 then -1 else 1
  if exponent = 2 ^ exponentBits - 1 then none
  else if exponent = 0 then some (sign * mantissa * 2 ^ (1 - bias exponentBits - mantissaBits))
  else some (sign * (2 ^ mantissaBits + mantissa) * 2 ^ (exponent - bias exponentBits - mantissaBits))

/-- A positive normal word: the mantissa with its hidden bit, scaled by the exponent. -/
theorem ieeeValue_normal {exponentBits mantissaBits exponent mantissa : ℕ} (hpos : 0 < exponent)
    (hexponent : exponent < 2 ^ exponentBits - 1) (hmantissa : mantissa < 2 ^ mantissaBits) :
    ieeeValue exponentBits mantissaBits (exponent * 2 ^ mantissaBits + mantissa) =
      some (((2 : ℚ) ^ mantissaBits + mantissa) * 2 ^ (exponent - bias exponentBits - mantissaBits)) := by
  have hfields : (exponent * 2 ^ mantissaBits + mantissa) / 2 ^ mantissaBits = exponent := by
    rw [Nat.mul_comm, Nat.mul_add_div (Nat.two_pow_pos _), Nat.div_eq_of_lt hmantissa, Nat.add_zero]
  have hlow : (exponent * 2 ^ mantissaBits + mantissa) % 2 ^ mantissaBits = mantissa := by
    rw [Nat.mul_comm, Nat.mul_add_mod, Nat.mod_eq_of_lt hmantissa]
  have hsign : (exponent * 2 ^ mantissaBits + mantissa) / 2 ^ (exponentBits + mantissaBits) = 0 := by
    rw [Nat.add_comm exponentBits, Nat.pow_add, ← Nat.div_div_eq_div_mul, hfields]
    exact Nat.div_eq_of_lt (by omega)
  unfold ieeeValue
  simp only [hfields, hlow, hsign, Nat.mod_eq_of_lt (show exponent < 2 ^ exponentBits by omega)]
  rw [if_neg (by omega), if_neg (by omega), if_neg (by omega), one_mul]

end Xvr.Lib.Floats
