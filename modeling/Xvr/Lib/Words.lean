/-
  Xvr.Lib.Words — machine words of any width, and their comparisons.

  Proved:
  - `setWidth_overlay`: low bits written over a word are read back.
  - `setWidth_signExtend`: what sign extension adds can be cut off.
  - `Comparison.signed_setWidth`: zero-extended operands compare as unsigned ones.
  - `Comparison.signed_eq_unsigned_iff`: an order is the same signed and unsigned exactly
    when the operands' sign bits are.
  - `Sign.read_eq_reduce_iff`: the word that reads as a number reduced modulo its width.
  - `signExtend_eq_setWidth_iff`: the two extensions agree exactly on a clear top bit.
-/

import Mathlib.Data.BitVec

namespace Xvr.Lib

/-- Bits with their width. -/
structure Word where
  width : Nat
  bits : BitVec width
  deriving DecidableEq, Repr

theorem Word.mk_inj {w : Nat} {a b : BitVec w} : (⟨w, a⟩ : Word) = ⟨w, b⟩ ↔ a = b := by
  simp

/-- A sign extension is cut off again. -/
theorem setWidth_signExtend {w v : Nat} (h : w ≤ v) (a : BitVec w) : (a.signExtend v).setWidth w = a := by
  ext i hi
  rw [BitVec.getElem_setWidth, BitVec.getLsbD_signExtend]
  simp [hi, show i < v by omega]

/-! ## Writing the low bits -/

/-- The low `w` bits of one word over another. -/
def overlay {n : Nat} (w : Nat) (old new : BitVec n) : BitVec n := (old >>> w) <<< w ||| (new.setWidth w).setWidth n

theorem getLsbD_overlay {n : Nat} (w : Nat) (old new : BitVec n) {i : Nat} (hi : i < n) :
    (overlay w old new).getLsbD i = if i < w then new.getLsbD i else old.getLsbD i := by
  rw [overlay, BitVec.getLsbD_or, BitVec.getLsbD_shiftLeft, BitVec.getLsbD_setWidth, BitVec.getLsbD_setWidth,
    BitVec.getLsbD_ushiftRight]
  by_cases h : i < w
  · simp [h, hi]
  · simp [h, hi, Nat.add_sub_cancel' (Nat.le_of_not_lt h)]

/-- What was written is read back. -/
theorem setWidth_overlay {n w v : Nat} (hv : v ≤ w) (hn : w ≤ n) (old new : BitVec n) :
    (overlay w old new).setWidth v = new.setWidth v := by
  ext i hi
  rw [BitVec.getElem_setWidth, BitVec.getElem_setWidth, getLsbD_overlay w old new (by omega), if_pos (by omega)]

/-! ## Reading a word as a number -/

inductive Sign where
  | signed | unsigned
  deriving DecidableEq, Repr

namespace Sign

def read {w : Nat} : Sign → BitVec w → Int
  | signed, a => a.toInt
  | unsigned, a => a.toNat

/-- A number reduced modulo `2 ^ w`, in the range the sign reads. -/
def reduce (w : Nat) : Sign → Int → Int
  | signed, v => v.bmod (2 ^ w)
  | unsigned, v => v % 2 ^ w

theorem read_eq_reduce_iff (s : Sign) {w : Nat} (a : BitVec w) (v : Int) :
    s.read a = s.reduce w v ↔ a = BitVec.ofInt w v := by
  cases s with
  | signed =>
    rw [read, reduce, ← BitVec.toInt_ofInt]
    exact BitVec.toInt_inj
  | unsigned =>
    have hofInt : ((BitVec.ofInt w v).toNat : Int) = v % 2 ^ w := by
      have hpow : ((2 ^ w : Nat) : Int) = 2 ^ w := Int.natCast_pow 2 w
      have hpos : (2 ^ w : Int) ≠ 0 := Int.pow_ne_zero (by decide)
      rw [BitVec.toNat_ofInt, hpow, Int.toNat_of_nonneg (Int.emod_nonneg _ hpos)]
    rw [read, reduce, ← hofInt, Int.natCast_inj]
    exact BitVec.toNat_inj

/-- The word of `v` bits that a word's number is, read signed. -/
theorem ofInt_read_signed {w : Nat} (v : Nat) (a : BitVec w) : BitVec.ofInt v (signed.read a) = a.signExtend v := rfl

theorem ofInt_read_unsigned {w : Nat} (v : Nat) (a : BitVec w) : BitVec.ofInt v (unsigned.read a) = a.setWidth v := by
  apply BitVec.eq_of_toNat_eq
  rw [read, BitVec.ofInt_natCast, BitVec.toNat_ofNat, BitVec.toNat_setWidth]

end Sign

theorem signExtend_eq_setWidth_iff {w v : Nat} (h : w < v) (a : BitVec w) :
    a.signExtend v = a.setWidth v ↔ a.msb = false := by
  constructor
  · intro heq
    have hmsb := congrArg BitVec.msb heq
    rw [BitVec.msb_signExtend, BitVec.msb_setWidth] at hmsb
    simpa [show ¬ v ≤ w by omega, BitVec.getLsbD_of_ge a (v - 1) (by omega), show 0 < v by omega] using hmsb
  · exact BitVec.signExtend_eq_setWidth_of_msb_false

/-! ## Comparisons -/

inductive Comparison where
  | eq | ne | lt | le | gt | ge
  deriving DecidableEq, Repr

namespace Comparison

variable {w v : Nat}

def signed : Comparison → BitVec w → BitVec w → Bool
  | eq, a, b => a == b
  | ne, a, b => a != b
  | lt, a, b => a.slt b
  | le, a, b => a.sle b
  | gt, a, b => b.slt a
  | ge, a, b => b.sle a

def unsigned : Comparison → BitVec w → BitVec w → Bool
  | eq, a, b => a == b
  | ne, a, b => a != b
  | lt, a, b => a.ult b
  | le, a, b => a.ule b
  | gt, a, b => b.ult a
  | ge, a, b => b.ule a

def ordered : Comparison → Bool
  | eq | ne => false
  | _ => true

theorem toInt_setWidth_of_lt (h : w < v) (a : BitVec w) : (a.setWidth v).toInt = a.toNat := by
  have hpow : 2 ^ w ≤ 2 ^ (v - 1) := Nat.pow_le_pow_right (by omega) (by omega)
  have hsucc : 2 ^ v = 2 * 2 ^ (v - 1) := by rw [← Nat.pow_succ']; congr 1; omega
  have hlt := a.isLt
  have hmod : a.toNat % 2 ^ v = a.toNat := Nat.mod_eq_of_lt (by omega)
  rw [BitVec.toInt_eq_toNat_of_lt] <;> rw [BitVec.toNat_setWidth, hmod]
  omega

/-- Zero-extended, the operands are not negative. -/
theorem signed_setWidth (c : Comparison) (h : w < v) (a b : BitVec w) :
    c.signed (a.setWidth v) (b.setWidth v) = c.unsigned a b := by
  have heq : (a.setWidth v == b.setWidth v) = (a == b) := by
    rw [Bool.eq_iff_iff, beq_iff_eq, beq_iff_eq]
    refine ⟨fun hab => BitVec.eq_of_toNat_eq ?_, fun hab => by rw [hab]⟩
    have hint := congrArg BitVec.toInt hab
    rw [toInt_setWidth_of_lt h, toInt_setWidth_of_lt h] at hint
    omega
  cases c with
  | eq => exact heq
  | ne => exact congrArg not heq
  | lt | le | gt | ge =>
    simp only [signed, unsigned, BitVec.slt_eq_decide, BitVec.sle_eq_decide, BitVec.ult, BitVec.ule, toInt_setWidth_of_lt h]
    simp

/-- Equality does not see the sign. -/
theorem signed_eq_unsigned {c : Comparison} (hc : c.ordered = false) (a b : BitVec w) : c.unsigned a b = c.signed a b := by
  cases c with
  | eq | ne => rfl
  | lt | le | gt | ge => cases hc

theorem signed_eq_unsigned_iff {c : Comparison} (hc : c.ordered = true) (a b : BitVec w) :
    c.unsigned a b = c.signed a b ↔ a.msb = b.msb := by
  cases c with
  | eq | ne => cases hc
  | lt => simp only [signed, unsigned, BitVec.slt_eq_ult]; grind
  | le => simp only [signed, unsigned, BitVec.sle_eq_ule]; grind
  | gt => simp only [signed, unsigned, BitVec.slt_eq_ult]; grind
  | ge => simp only [signed, unsigned, BitVec.sle_eq_ule]; grind

end Comparison

end Xvr.Lib
