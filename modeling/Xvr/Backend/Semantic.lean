/-
  Xvr.Backend.Semantic — which casts the semantic analysis takes for safe
  (`core/semantic/xvr_semantic.cpp`, `Xvr_TypeEquals`), and which lose something.

  A numeric type is the set of the numbers its values stand for: an integer type has its
  range, a float type the finite numbers of its format (an infinity or NaN is one in every
  format).

  Proved:
  - `castKind_numeric`: a numeric cast is a widening by the widths, else a narrowing.
  - `safe_cast_iff`: what is a widening or may be cast implicitly keeps every number exactly
    where it is a cast to floats with digits enough, or between integers whose ranges contain
    one another, and never in other cases but for those that are refused.
-/

import Xvr.Backend.Types
import Xvr.Lib.Floats

namespace Xvr.Backend.Semantic

open Xvr.Lib Xvr.Lib.Floats

/-! ## The source's functions -/

/-- `Xvr_CastKind`. -/
inductive CastKind where
  | widening | narrowing | invalid
  deriving DecidableEq, Repr

/-- `Xvr_CastResult`. -/
inductive CastResult where
  | ok | invalid | implicitNarrowing | signConversion
  deriving DecidableEq, Repr

def typeEquals : XvrType → XvrType → Bool
  | .integer n s, .integer m t => n == m && s == t
  | .float n, .float m => n == m
  | .bool, .bool | .string, .string | .void, .void => true
  | .pointer a, .pointer b => typeEquals a b
  | _, _ => false

def typeIsNumeric : XvrType → Bool
  | .integer _ _ | .float _ => true
  | _ => false

def isWidening : XvrType → XvrType → Bool
  | .integer n _, .integer m _ => n ≤ m
  | .float n, .float m => n ≤ m
  | .integer n _, .float m => n ≤ m
  | _, _ => false

def isNarrowing (source target : XvrType) : Bool :=
  !isWidening source target && typeIsNumeric source && typeIsNumeric target

def getCastKind (source target : XvrType) : CastKind :=
  if source = .null ∨ target = .null then .invalid
  else if typeEquals source target then .widening
  else if isWidening source target then .widening
  else if isNarrowing source target then .narrowing
  else .invalid

def canCast (source target : XvrType) (isExplicit : Bool) : CastResult :=
  if source = .null ∨ target = .null then .invalid
  else if typeEquals source target then .ok
  else
    match source, target with
    | .integer n s, .integer m t => if n = m ∧ s ≠ t then .signConversion else .ok
    | .float _, .float _ => .ok
    | .integer _ _, .float _ => .ok
    | .float _, .integer _ _ => if isExplicit then .ok else .implicitNarrowing
    | .bool, .integer _ _ | .bool, .float _ => .ok
    | .integer _ _, .bool | .float _, .bool => .ok
    | .pointer _, .pointer _ => .ok
    | .integer _ _, .pointer _ => if isExplicit then .ok else .implicitNarrowing
    | _, _ => .invalid

def canImplicitCast (source target : XvrType) : Bool := canCast source target false == .ok

/-! ## Numeric types and their numbers -/

inductive FloatSize where
  | half | single | double
  deriving DecidableEq, Repr

namespace FloatSize

def bits : FloatSize → Nat
  | half => 16
  | single => 32
  | double => 64

def format : FloatSize → Format
  | half => Floats.half
  | single => Floats.single
  | double => Floats.double

theorem format_mono : ∀ size size' : FloatSize, size.bits ≤ size'.bits →
    size.format.precision ≤ size'.format.precision ∧ size'.format.smallest ≤ size.format.smallest ∧
      size.format.bound ≤ size'.format.bound
  | half, half | half, single | half, double | single, single | single, double | double, double => by decide
  | single, half | double, half | double, single => by decide

theorem bound_mono : ∀ size size' : FloatSize, size'.bits < size.bits → size'.format.bound < size.format.bound
  | half, half | half, single | half, double | single, single | single, double | double, double => by decide
  | single, half | double, half | double, single => by decide

theorem usual (size : FloatSize) : size.format.Usual := by
  cases size
  · exact half_usual
  · exact single_usual
  · exact double_usual

end FloatSize

inductive NumericType where
  | integer (bits : Nat) (positive : 0 < bits) (sign : Sign)
  | float (size : FloatSize)

namespace NumericType

def ref : NumericType → XvrType
  | integer bits _ sign => .integer bits (some sign)
  | float size => .float size.bits

/-- The range of an integer type. -/
def range (bits : Nat) : Sign → Set ℤ
  | .signed => {z | -2 ^ (bits - 1) ≤ z ∧ z < 2 ^ (bits - 1)}
  | .unsigned => {z | 0 ≤ z ∧ z < 2 ^ bits}

def numbers : NumericType → Set ℚ
  | integer bits _ sign => (fun z : ℤ => (z : ℚ)) '' range bits sign
  | float size => size.format.numbers

/-- Taken for safe: a widening, or a cast that needs not be written. -/
def TakenSafe (source target : NumericType) : Prop :=
  isWidening source.ref target.ref = true ∨ canImplicitCast source.ref target.ref = true

/-- The target is large enough, by the widths and signs alone; floats are never taken to be
    integers. -/
def Fits : NumericType → NumericType → Prop
  | integer n _ s, integer m _ t => s = t ∧ n ≤ m ∨ s = .unsigned ∧ t = .signed ∧ n < m
  | integer n _ .signed, float size => n ≤ size.format.precision + 1
  | integer n _ .unsigned, float size => n ≤ size.format.precision
  | float size, float size' => size.bits ≤ size'.bits
  | float _, integer _ _ _ => True

/-! ## What is taken for safe -/

/-- Everything but a cast of floats to integers. -/
theorem takenSafe_iff (source target : NumericType) :
    TakenSafe source target ↔
      ¬ ∃ size bits positive sign, source = .float size ∧ target = .integer bits positive sign := by
  unfold TakenSafe
  cases source with
  | integer n hn s =>
    cases target with
    | integer m hm t =>
      refine iff_of_true ?_ (by simp)
      by_cases hnm : n = m
      · exact .inl (by simp [ref, isWidening, hnm])
      · exact .inr (by simp [ref, canImplicitCast, canCast, typeEquals, hnm])
    | float size => exact iff_of_true (.inr (by simp [ref, canImplicitCast, canCast, typeEquals])) (by simp)
  | float size =>
    cases target with
    | integer m hm t => simp [ref, isWidening, canImplicitCast, canCast, typeEquals, hm.ne']
    | float size' =>
      refine iff_of_true (.inr ?_) (by simp)
      by_cases heq : size.bits = size'.bits <;> simp [ref, canImplicitCast, canCast, typeEquals, heq]

/-- The kind of a cast between numeric types goes by the widths, and what it calls a narrowing
    may still be taken for safe. -/
theorem castKind_numeric (source target : NumericType) :
    getCastKind source.ref target.ref = if isWidening source.ref target.ref then .widening else .narrowing := by
  have hequal : typeEquals source.ref target.ref = true → isWidening source.ref target.ref = true := by
    cases source <;> cases target <;> simp_all [ref, typeEquals, isWidening]
  have hnumeric (t : NumericType) : typeIsNumeric t.ref = true ∧ t.ref ≠ .null := by
    cases t <;> exact ⟨rfl, by simp [ref]⟩
  cases hwide : isWidening source.ref target.ref with
  | true => simp [getCastKind, hwide, hnumeric]
  | false =>
    have hne : typeEquals source.ref target.ref = false := by simpa [hwide] using hequal
    simp [getCastKind, isNarrowing, hwide, hne, hnumeric]

/-! ## Which ranges contain one another -/

theorem pow_le_iff {n m : Nat} : (2 : ℤ) ^ n ≤ 2 ^ m ↔ n ≤ m := pow_le_pow_iff_right₀ (by norm_num)

theorem range_subset_iff {n m : Nat} (hn : 0 < n) (hm : 0 < m) (s t : Sign) :
    range n s ⊆ range m t ↔ s = t ∧ n ≤ m ∨ s = .unsigned ∧ t = .signed ∧ n < m := by
  have hpos (k : Nat) : (0 : ℤ) < 2 ^ k := by positivity
  cases s <;> cases t
  · -- both signed: the least number decides
    constructor
    · intro h
      have hleast := h (show -2 ^ (n - 1) ∈ range n .signed from ⟨le_rfl, by have := hpos (n - 1); omega⟩)
      have hle := pow_le_iff.mp (neg_le_neg_iff.mp hleast.1)
      exact .inl ⟨rfl, by omega⟩
    · rintro (⟨-, hle⟩ | ⟨h, -⟩)
      · have hpow : (2 : ℤ) ^ (n - 1) ≤ 2 ^ (m - 1) := pow_le_iff.mpr (by omega)
        exact fun z hz => ⟨(neg_le_neg hpow).trans hz.1, hz.2.trans_le hpow⟩
      · cases h
  · -- -1 is no unsigned number
    refine iff_of_false (fun h => ?_) (by simp)
    have hminus := h (show -1 ∈ range n .signed from ⟨by have := hpos (n - 1); omega, by have := hpos (n - 1); omega⟩)
    exact absurd hminus.1 (by decide)
  · -- the greatest number decides
    constructor
    · intro h
      have hgreatest := h (show 2 ^ n - 1 ∈ range n .unsigned from ⟨by have := hpos n; omega, by omega⟩)
      have hle : (2 : ℤ) ^ n ≤ 2 ^ (m - 1) := by have := hgreatest.2; omega
      have := pow_le_iff.mp hle
      exact .inr ⟨rfl, rfl, by omega⟩
    · rintro (⟨h, -⟩ | ⟨-, -, hlt⟩)
      · cases h
      · have hpow : (2 : ℤ) ^ n ≤ 2 ^ (m - 1) := pow_le_iff.mpr (by omega)
        exact fun z hz => ⟨(neg_nonpos.mpr (hpos _).le).trans hz.1, hz.2.trans_le hpow⟩
  · constructor
    · intro h
      have hgreatest := h (show 2 ^ n - 1 ∈ range n .unsigned from ⟨by have := hpos n; omega, by omega⟩)
      have hle : (2 : ℤ) ^ n ≤ 2 ^ m := by have := hgreatest.2; omega
      exact .inl ⟨rfl, pow_le_iff.mp hle⟩
    · rintro (⟨-, hle⟩ | ⟨-, h, -⟩)
      · exact fun z hz => ⟨hz.1, hz.2.trans_le (pow_le_iff.mpr hle)⟩
      · cases h

theorem unsigned_subset_iff {n : Nat} (size : FloatSize) :
    (fun z : ℤ => (z : ℚ)) '' range n .unsigned ⊆ size.format.numbers ↔ n ≤ size.format.precision := by
  rw [Set.image_subset_iff, ← Format.below_power_iff size.usual]
  exact ⟨fun h z hz hlt => h ⟨hz, hlt⟩, fun h z hz => h z hz.1 hz.2⟩

theorem signed_subset_iff {n : Nat} (size : FloatSize) :
    (fun z : ℤ => (z : ℚ)) '' range n .signed ⊆ size.format.numbers ↔ n ≤ size.format.precision + 1 := by
  have husual := size.usual
  have hpred : n ≤ size.format.precision + 1 ↔ n - 1 ≤ size.format.precision := by omega
  rw [Set.image_subset_iff, hpred]
  constructor
  · intro h
    rw [← Format.below_power_iff husual]
    exact fun z hz hlt => h ⟨by have : (0 : ℤ) < 2 ^ (n - 1) := by positivity
                                omega, hlt⟩
  · intro hn z hz
    have hpow : (2 : ℤ) ^ (n - 1) ≤ 2 ^ size.format.precision := pow_le_iff.mpr hn
    by_cases hleast : z = -2 ^ size.format.precision
    · subst hleast
      have hmem := Format.power_mem husual
      simpa using hmem
    · refine Format.integer_mem husual (abs_lt.mpr ⟨?_, hz.2.trans_le hpow⟩)
      have := (neg_le_neg hpow).trans hz.1
      omega

theorem float_subset_iff (size size' : FloatSize) :
    size.format.numbers ⊆ size'.format.numbers ↔ size.bits ≤ size'.bits := by
  constructor
  · intro h
    by_contra hlt
    exact Format.bound_lt size.usual size'.usual (size.bound_mono size' (Nat.lt_of_not_le hlt)) h
  · intro h
    obtain ⟨hdigits, hunit, hbound⟩ := size.format_mono size' h
    exact Format.numbers_mono hdigits hunit hbound

/-- A cast between integers, or to floats, keeps every number exactly when the target fits. -/
theorem subset_iff_fits (source target : NumericType) (h : TakenSafe source target) :
    source.numbers ⊆ target.numbers ↔ Fits source target := by
  cases source with
  | integer n hn s =>
    cases target with
    | integer m hm t =>
      rw [numbers, numbers, Set.image_subset_image_iff Int.cast_injective]
      exact range_subset_iff hn hm s t
    | float size =>
      cases s with
      | signed => exact signed_subset_iff size
      | unsigned => exact unsigned_subset_iff size
  | float size =>
    cases target with
    | integer m hm t => exact absurd ⟨size, m, hm, t, rfl, rfl⟩ ((takenSafe_iff _ _).mp h)
    | float size' => exact float_subset_iff size size'

/-- What is taken for safe keeps every number exactly when the target fits. -/
theorem safe_cast_iff (source target : NumericType) :
    (TakenSafe source target → source.numbers ⊆ target.numbers) ↔ Fits source target := by
  constructor
  · intro h
    by_cases hsafe : TakenSafe source target
    · exact (subset_iff_fits source target hsafe).mp (h hsafe)
    · rw [takenSafe_iff, not_not] at hsafe
      obtain ⟨size, bits, positive, sign, rfl, rfl⟩ := hsafe
      exact trivial
  · exact fun h hsafe => (subset_iff_fits source target hsafe).mpr h

/-- A 64-bit integer may be cast to one of 8 bits without being asked to. -/
theorem narrowing_taken_safe : ¬ ∀ source target : NumericType, TakenSafe source target → source.numbers ⊆ target.numbers := by
  intro h
  have hsafe : TakenSafe (.integer 64 (by decide) .signed) (.integer 8 (by decide) .signed) := .inr rfl
  have hfits := (subset_iff_fits _ _ hsafe).mp (h _ _ hsafe)
  simp [Fits] at hfits

end NumericType

end Xvr.Backend.Semantic
