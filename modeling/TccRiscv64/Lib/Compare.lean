import TccRiscv64.Ieee.Order
import TccRiscv64.Lib.F3

set_option autoImplicit false

/-! # Comparing `long double`s

All six comparison routines of `lib-arm64.c` look at one comparison of sign and magnitude, which
has a code of its own for operands that are not ordered. -/

namespace TccRiscv64.Lib

open Ieee

/-! ## The routines -/

/-- The sign bit as an `int`. -/
def U128.sign (x : U128) : BitVec 32 := (x.x1 >>> 63).setWidth 32

/-- The sign bit, doubled. -/
def U128.twiceSign (x : U128) : BitVec 32 := (x.x1 >>> 63 <<< 1).setWidth 32

/-- `x.x1 << 1 >> 49 == 0x7fff && (x.x0 | x.x1 << 16)`. -/
def U128.isNaN (x : U128) : Bool :=
  x.x1 <<< 1 >>> 49 == 0x7fff#64 && x.x0 ||| x.x1 <<< 16 != 0#64

def f3Cmp (fa fb : BitVec 128) : BitVec 32 :=
  let a := U128.ofBits fa
  let b := U128.ofBits fb
  if a.x0 ||| a.x1 <<< 1 ||| b.x0 ||| b.x1 <<< 1 = 0#64 then 0#32
  else if a.isNaN || b.isNaN then 2#32
  else if a.x1 >>> 63 ≠ b.x1 >>> 63 then b.sign - a.sign
  else if a.x1 < b.x1 then a.twiceSign - 1#32
  else if a.x1 > b.x1 then 1#32 - a.twiceSign
  else if a.x0 < b.x0 then a.twiceSign - 1#32
  else if b.x0 < a.x0 then 1#32 - a.twiceSign
  else 0#32

/-- `!!x`. -/
def notNot (x : BitVec 32) : BitVec 32 := if x = 0#32 then 0#32 else 1#32

def eqtf2 (a b : BitVec 128) : BitVec 32 := notNot (f3Cmp a b)
def netf2 (a b : BitVec 128) : BitVec 32 := notNot (f3Cmp a b)
def lttf2 (a b : BitVec 128) : BitVec 32 := f3Cmp a b
def letf2 (a b : BitVec 128) : BitVec 32 := f3Cmp a b
def gttf2 (a b : BitVec 128) : BitVec 32 := -f3Cmp b a
def getf2 (a b : BitVec 128) : BitVec 32 := -f3Cmp b a

/-! ## What the comparison computes -/

section Spec

variable {f : BitVec 128}

theorem ofBits_x0 (f : BitVec 128) : (U128.ofBits f).x0.toNat = f.toNat % 2 ^ 64 := by
  simp [U128.ofBits, BitVec.extractLsb'_toNat]

theorem ofBits_x1 (f : BitVec 128) : (U128.ofBits f).x1.toNat = f.toNat / 2 ^ 64 := by
  have hf := f.isLt
  simp only [U128.ofBits, BitVec.extractLsb'_toNat, Nat.shiftRight_eq_div_pow]
  omega

theorem ofBits_sign (f : BitVec 128) :
    ((U128.ofBits f).x1 >>> 63).toNat = f.toNat / 2 ^ 127 := by
  rw [BitVec.toNat_ushiftRight, ofBits_x1, Nat.shiftRight_eq_div_pow, Nat.div_div_eq_div_mul,
    ← pow_add]

/-- The magnitude bits are those other than the sign. -/
theorem ofBits_eq_zero_iff (f : BitVec 128) :
    (U128.ofBits f).x0 = 0#64 ∧ (U128.ofBits f).x1 <<< 1 = 0#64 ↔
      binary128.magBits f.toNat = 0 := by
  have hf := f.isLt
  have hmag : binary128.magBits f.toNat = f.toNat % 2 ^ 127 := rfl
  rw [← BitVec.toNat_inj, ← BitVec.toNat_inj, BitVec.toNat_shiftLeft, ofBits_x0, ofBits_x1, hmag,
    Nat.shiftLeft_eq]
  simp only [BitVec.toNat_ofNat]
  omega

theorem ofBits_isNaN_iff (f : BitVec 128) :
    (U128.ofBits f).isNaN = true ↔ binary128.isNaN f.toNat := by
  have hf := f.isLt
  have hnan : binary128.isNaN f.toNat ↔ 0x7fff * 2 ^ 112 < f.toNat % 2 ^ 127 := Iff.rfl
  rw [hnan, U128.isNaN, Bool.and_eq_true, beq_iff_eq, bne_iff_ne, ne_eq, BitVec.or_eq_zero_iff,
    ← BitVec.toNat_inj, ← BitVec.toNat_inj, ← BitVec.toNat_inj, BitVec.toNat_ushiftRight,
    BitVec.toNat_shiftLeft, BitVec.toNat_shiftLeft, ofBits_x0, ofBits_x1, Nat.shiftLeft_eq,
    Nat.shiftLeft_eq, Nat.shiftRight_eq_div_pow]
  simp only [BitVec.toNat_ofNat]
  omega

/-- The sign as a number. -/
theorem key_eq (f : BitVec 128) : binary128.key f.toNat =
    if f.toNat / 2 ^ 127 = 0 then (f.toNat : ℤ) else -(f.toNat - 2 ^ 127 : ℤ) := by
  have hf := f.isLt
  have hneg : binary128.neg f.toNat = true ↔ 2 ^ 127 ≤ f.toNat := decide_eq_true_iff
  have hmag : binary128.magBits f.toNat = f.toNat % 2 ^ 127 := rfl
  rw [Format.key, hmag]
  by_cases h : 2 ^ 127 ≤ f.toNat
  · rw [if_pos (hneg.2 h), if_neg (by omega)]
    omega
  · rw [if_neg (mt hneg.1 h), if_pos (by omega)]
    omega

/-- Operands of which one is a NaN. -/
theorem f3Cmp_of_isNaN {a b : BitVec 128} (h : binary128.isNaN a.toNat ∨ binary128.isNaN b.toNat) :
    f3Cmp a b = 2#32 := by
  have hzero : ¬ ((U128.ofBits a).x0 ||| (U128.ofBits a).x1 <<< 1 ||| (U128.ofBits b).x0 |||
      (U128.ofBits b).x1 <<< 1 = 0#64) := by
    rw [BitVec.or_eq_zero_iff, BitVec.or_eq_zero_iff, BitVec.or_eq_zero_iff, ofBits_eq_zero_iff,
      and_assoc, ofBits_eq_zero_iff]
    rintro ⟨hza, hzb⟩
    rcases h with h | h
    · rw [Format.isNaN, hza] at h
      exact absurd h (Nat.not_lt_zero _)
    · rw [Format.isNaN, hzb] at h
      exact absurd h (Nat.not_lt_zero _)
  have hnan : ((U128.ofBits a).isNaN || (U128.ofBits b).isNaN) = true := by
    rw [Bool.or_eq_true, ofBits_isNaN_iff, ofBits_isNaN_iff]
    exact h
  rw [f3Cmp, if_neg hzero, if_pos hnan]

theorem sign_eq (f : BitVec 128) : (U128.ofBits f).sign = BitVec.ofNat 32 (f.toNat / 2 ^ 127) := by
  apply BitVec.eq_of_toNat_eq
  rw [U128.sign, BitVec.toNat_setWidth, ofBits_sign, BitVec.toNat_ofNat]

theorem twiceSign_eq (f : BitVec 128) :
    (U128.ofBits f).twiceSign = BitVec.ofNat 32 (2 * (f.toNat / 2 ^ 127)) := by
  have hf := f.isLt
  apply BitVec.eq_of_toNat_eq
  rw [U128.twiceSign, BitVec.toNat_setWidth, BitVec.toNat_shiftLeft, ofBits_sign,
    BitVec.toNat_ofNat, Nat.shiftLeft_eq]
  omega

/-- Operands of the same sign are compared like their limbs. -/
theorem f3Cmp_limbs (a b : BitVec 128) (s : BitVec 32) :
    (if (U128.ofBits a).x1 < (U128.ofBits b).x1 then s - 1#32
      else if (U128.ofBits a).x1 > (U128.ofBits b).x1 then 1#32 - s
      else if (U128.ofBits a).x0 < (U128.ofBits b).x0 then s - 1#32
      else if (U128.ofBits b).x0 < (U128.ofBits a).x0 then 1#32 - s else 0#32) =
    if a.toNat < b.toNat then s - 1#32 else if b.toNat < a.toNat then 1#32 - s else 0#32 := by
  simp only [gt_iff_lt, BitVec.lt_def, ofBits_x0, ofBits_x1]
  split_ifs <;> first | rfl | omega

/-- Ordered operands: the sign of the result is that of their difference. -/
theorem f3Cmp_of_ordered {a b : BitVec 128} (ha : ¬ binary128.isNaN a.toNat)
    (hb : ¬ binary128.isNaN b.toNat) :
    f3Cmp a b = if binary128.key a.toNat < binary128.key b.toNat then -1#32
      else if binary128.key b.toNat < binary128.key a.toNat then 1#32 else 0#32 := by
  have hnan : ¬ ((U128.ofBits a).isNaN || (U128.ofBits b).isNaN) = true := by
    rw [Bool.or_eq_true, ofBits_isNaN_iff, ofBits_isNaN_iff]
    exact not_or.2 ⟨ha, hb⟩
  have hlta := a.isLt
  have hltb := b.isLt
  have hmag (f : BitVec 128) : binary128.magBits f.toNat = f.toNat % 2 ^ 127 := rfl
  have hsigns : (U128.ofBits a).x1 >>> 63 ≠ (U128.ofBits b).x1 >>> 63 ↔
      a.toNat / 2 ^ 127 ≠ b.toNat / 2 ^ 127 := by
    rw [ne_eq, ← BitVec.toNat_inj, ofBits_sign, ofBits_sign]
  rw [f3Cmp, key_eq a, key_eq b]
  by_cases hzero : (U128.ofBits a).x0 ||| (U128.ofBits a).x1 <<< 1 ||| (U128.ofBits b).x0 |||
      (U128.ofBits b).x1 <<< 1 = 0#64
  · rw [if_pos hzero]
    rw [BitVec.or_eq_zero_iff, BitVec.or_eq_zero_iff, BitVec.or_eq_zero_iff, ofBits_eq_zero_iff,
      and_assoc, ofBits_eq_zero_iff, hmag, hmag] at hzero
    rw [if_neg (by split_ifs <;> omega), if_neg (by split_ifs <;> omega)]
  · rw [if_neg hzero, if_neg hnan]
    rw [BitVec.or_eq_zero_iff, BitVec.or_eq_zero_iff, BitVec.or_eq_zero_iff, ofBits_eq_zero_iff,
      and_assoc, ofBits_eq_zero_iff, hmag, hmag] at hzero
    simp only [hsigns, f3Cmp_limbs, sign_eq, twiceSign_eq]
    rcases (by omega : a.toNat / 2 ^ 127 = 0 ∨ a.toNat / 2 ^ 127 = 1) with hsa | hsa <;>
      rcases (by omega : b.toNat / 2 ^ 127 = 0 ∨ b.toNat / 2 ^ 127 = 1) with hsb | hsb <;>
      rw [hsa, hsb]
    · simp
    · rw [if_pos Nat.zero_ne_one, if_pos rfl, if_neg Nat.one_ne_zero, if_neg (by omega),
        if_pos (by omega)]
      rfl
    · rw [if_pos Nat.one_ne_zero, if_pos rfl, if_neg Nat.one_ne_zero, if_pos (by omega)]
      rfl
    · simp
      split_ifs <;> first | rfl | omega

end Spec

end TccRiscv64.Lib
