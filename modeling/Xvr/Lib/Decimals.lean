/-
  Xvr.Lib.Decimals — numbers as `printf` writes them: `%d`, `%.1f` and `%g`.

  A number is rounded to the digits asked for, to nearest with ties to even, and these are laid
  out around the point. `%g` has six significant digits and no zeros behind the last other one.

  Proved:
  - `signed_numeral`, `fixed_numeral`, `general_numeral`: only digits, signs, a point and an `e`
    are written.
-/

import Xvr.Lib.Floats
import Mathlib.Data.List.DropRight

namespace Xvr.Lib.Decimals

open Xvr.Lib.Floats

/-- The digits of a number, at least so many. -/
def digits (least n : ℕ) : List Char := (Nat.toDigits 10 n).leftpad least '0'

def signed (negative : Bool) (text : List Char) : List Char := if negative then '-' :: text else text

/-- `%d`. -/
def integer (z : ℤ) : List Char := signed (z < 0) (digits 1 z.natAbs)

/-- A point in front of the fraction, if there is one. -/
def pointed (whole fraction : List Char) : List Char := if fraction = [] then whole else whole ++ '.' :: fraction

/-- The digits in front of the last so many, and these. -/
def splitDigits (decimals n : ℕ) : List Char × List Char :=
  let ds := digits (decimals + 1) n
  (ds.take (ds.length - decimals), ds.drop (ds.length - decimals))

/-- `%.nf` of a number that is not negative. -/
def fixed (decimals : ℕ) (x : ℚ) : List Char :=
  let (whole, fraction) := splitDigits decimals (roundEven (x * 10 ^ decimals)).toNat
  pointed whole fraction

/-- The exponent of a positive number rounded to six significant digits, and these as a number. -/
def significant (x : ℚ) : ℤ × ℕ :=
  let e := Int.log 10 x
  let m := (roundEven (x / 10 ^ (e - 5))).toNat
  -- nines may round up to the next power of ten
  if m = 10 ^ 6 then (e + 1, 10 ^ 5) else (e, m)

/-- The digits with so many of them behind the point, but for zeros at the end. -/
def trimmedDigits (decimals n : ℕ) : List Char :=
  let (whole, fraction) := splitDigits decimals n
  pointed whole (fraction.rdropWhile (· == '0'))

/-- `%g` of a positive number. -/
def general (x : ℚ) : List Char :=
  let (e, m) := significant x
  if -4 ≤ e ∧ e < 6 then trimmedDigits (5 - e).toNat m
  else trimmedDigits 5 m ++ 'e' :: (if e < 0 then '-' else '+') :: digits 2 e.natAbs

/-! ## The characters written -/

/-- The characters of numbers. -/
def isNumeral (c : Char) : Bool := c.isDigit || c ∈ ['.', '-', '+', 'e']

def Numeral (text : List Char) : Prop := ∀ c ∈ text, isNumeral c = true

theorem Numeral.cons {c : Char} {text : List Char} (hc : isNumeral c = true) (h : Numeral text) : Numeral (c :: text) :=
  List.forall_mem_cons.mpr ⟨hc, h⟩

theorem Numeral.append {as bs : List Char} (ha : Numeral as) (hb : Numeral bs) : Numeral (as ++ bs) :=
  List.forall_mem_append.mpr ⟨ha, hb⟩

theorem Numeral.subset {as bs : List Char} (h : Numeral bs) (hsub : as ⊆ bs) : Numeral as := fun c hc => h c (hsub hc)

theorem digits_numeral (least n : ℕ) : Numeral (digits least n) := by
  intro c hc
  rw [digits, List.leftpad, List.mem_append] at hc
  rcases hc with hc | hc
  · rw [List.eq_of_mem_replicate hc]
    rfl
  · rw [isNumeral, Nat.isDigit_of_mem_toDigits (by decide) (by decide) hc]
    rfl

theorem signed_numeral {negative : Bool} {text : List Char} (h : Numeral text) : Numeral (signed negative text) := by
  cases negative
  · exact h
  · exact h.cons rfl

theorem integer_numeral (z : ℤ) : Numeral (integer z) := signed_numeral (digits_numeral 1 _)

theorem pointed_numeral {whole fraction : List Char} (hw : Numeral whole) (hf : Numeral fraction) :
    Numeral (pointed whole fraction) := by
  unfold pointed
  split
  · exact hw
  · exact hw.append (hf.cons rfl)

theorem splitDigits_numeral (decimals n : ℕ) :
    Numeral (splitDigits decimals n).1 ∧ Numeral (splitDigits decimals n).2 :=
  ⟨(digits_numeral _ n).subset (List.take_subset ..), (digits_numeral _ n).subset (List.drop_subset ..)⟩

theorem fixed_numeral (decimals : ℕ) (x : ℚ) : Numeral (fixed decimals x) :=
  have h := splitDigits_numeral decimals (roundEven (x * 10 ^ decimals)).toNat
  pointed_numeral h.1 h.2

theorem trimmedDigits_numeral (decimals n : ℕ) : Numeral (trimmedDigits decimals n) :=
  have h := splitDigits_numeral decimals n
  pointed_numeral h.1 (h.2.subset (List.rdropWhile_prefix _ _).subset)

theorem general_numeral (x : ℚ) : Numeral (general x) := by
  unfold general
  dsimp only
  split
  · exact trimmedDigits_numeral _ _
  · refine (trimmedDigits_numeral 5 _).append (Numeral.cons rfl (Numeral.cons ?_ (digits_numeral 2 _)))
    split <;> rfl

end Xvr.Lib.Decimals
