import Mathlib.Algebra.Group.Action.Defs
import Mathlib.Algebra.Order.BigOperators.Group.List
import TccRiscv64.Isa.BitTricks

set_option autoImplicit false

/-! # `__builtin_ffs` and its companions

The functions of `lib/builtin.c`; `long` is 64 bits wide. -/

namespace TccRiscv64.Lib

open Isa

/-! ## The functions -/

def table132 : List ℕ :=
  [0,  1, 28,  2, 29, 14, 24,  3, 30, 22, 20, 15, 25, 17,  4,  8,
   31, 27, 13, 23, 21, 19, 16,  7, 26, 12, 18,  6, 11,  5, 10,  9]

def table232 : List ℕ :=
  [31, 22, 30, 21, 18, 10, 29,  2, 20, 17, 15, 13,  9,  6, 28,  1,
   23, 19, 11,  3, 16, 14,  7, 24, 12,  4,  8, 25,  5, 26, 27,  0]

def table164 : List ℕ :=
  [0,  1,  2, 53,  3,  7, 54, 27,  4, 38, 41,  8, 34, 55, 48, 28,
   62,  5, 39, 46, 44, 42, 22,  9, 24, 35, 59, 56, 49, 18, 29, 11,
   63, 52,  6, 26, 37, 40, 33, 47, 61, 45, 43, 21, 23, 58, 17, 10,
   51, 25, 36, 32, 60, 20, 57, 16, 50, 31, 19, 15, 30, 14, 13, 12]

def table264 : List ℕ :=
  [63, 16, 62,  7, 15, 36, 61,  3,  6, 14, 22, 26, 35, 47, 60,  2,
   9,  5, 28, 11, 13, 21, 42, 19, 25, 31, 34, 40, 46, 52, 59,  1,
   17,  8, 37,  4, 23, 27, 48, 10, 29, 12, 43, 20, 32, 41, 53, 18,
   38, 24, 49, 30, 44, 33, 54, 39, 50, 45, 55, 51, 56, 57, 58,  0]

/-- `CTZI` -/
def ctzI (x : BitVec 32) : ℕ := table132.getD (((x &&& -x) * 0x077cb531#32) >>> 27).toNat 0

/-- `CTZL` -/
def ctzL (x : BitVec 64) : ℕ :=
  table164.getD (((x &&& -x) * 0x022fdd63cc95386d#64) >>> 58).toNat 0

/-- `FFSI` -/
def ffsI (x : BitVec 32) : ℕ :=
  table132.getD (((x &&& -x) * 0x077cb531#32) >>> 27).toNat 0 + if x ≠ 0#32 then 1 else 0

/-- `FFSL` -/
def ffsL (x : BitVec 64) : ℕ :=
  table164.getD (((x &&& -x) * 0x022fdd63cc95386d#64) >>> 58).toNat 0 + if x ≠ 0#64 then 1 else 0

/-- `CLZI`; `shr` is the right shift of the type of `x`. -/
def clzI (shr : BitVec 32 → ℕ → BitVec 32) (x : BitVec 32) : ℕ :=
  let x := x ||| shr x 1
  let x := x ||| shr x 2
  let x := x ||| shr x 4
  let x := x ||| shr x 8
  let x := x ||| shr x 16
  table232.getD ((x * 0x07c4acdd#32) >>> 27).toNat 0

/-- `CLZL` -/
def clzL (shr : BitVec 64 → ℕ → BitVec 64) (x : BitVec 64) : ℕ :=
  let x := x ||| shr x 1
  let x := x ||| shr x 2
  let x := x ||| shr x 4
  let x := x ||| shr x 8
  let x := x ||| shr x 16
  let x := x ||| shr x 32
  table264.getD ((x * 0x03f79d71b4cb0a89#64) >>> 58).toNat 0

/-- `POPCOUNTI` -/
def popcountI (x m : BitVec 32) : ℕ :=
  let x := x - (x >>> 1 &&& 0x55555555#32)
  let x := (x &&& 0x33333333#32) + (x >>> 2 &&& 0x33333333#32)
  let x := (x + x >>> 4) &&& 0x0f0f0f0f#32
  ((x * 0x01010101#32) >>> 24 &&& m).toNat

/-- `POPCOUNTL` -/
def popcountL (x m : BitVec 64) : ℕ :=
  let x := x - (x >>> 1 &&& 0x5555555555555555#64)
  let x := (x &&& 0x3333333333333333#64) + (x >>> 2 &&& 0x3333333333333333#64)
  let x := (x + x >>> 4) &&& 0x0f0f0f0f0f0f0f0f#64
  ((x * 0x0101010101010101#64) >>> 56 &&& m).toNat

def builtinFfs (x : BitVec 32) : ℕ := ffsI x
def builtinFfsll (x : BitVec 64) : ℕ := ffsL x
def builtinFfsl : BitVec 64 → ℕ := builtinFfsll

def builtinClz (x : BitVec 32) : ℕ := clzI BitVec.ushiftRight x
def builtinClzll (x : BitVec 64) : ℕ := clzL BitVec.ushiftRight x
def builtinClzl : BitVec 64 → ℕ := builtinClzll

def builtinCtz (x : BitVec 32) : ℕ := ctzI x
def builtinCtzll (x : BitVec 64) : ℕ := ctzL x
def builtinCtzl : BitVec 64 → ℕ := builtinCtzll

def builtinClrsb (x : BitVec 32) : ℕ :=
  let x := if x.msb then ~~~x else x
  clzI BitVec.sshiftRight (x <<< 1)

def builtinClrsbll (x : BitVec 64) : ℕ :=
  let x := if x.msb then ~~~x else x
  clzL BitVec.sshiftRight (x <<< 1)

def builtinClrsbl : BitVec 64 → ℕ := builtinClrsbll

def builtinPopcount (x : BitVec 32) : ℕ := popcountI x 0x3f
def builtinPopcountll (x : BitVec 64) : ℕ := popcountL x 0x7f
def builtinPopcountl : BitVec 64 → ℕ := builtinPopcountll

def builtinParity (x : BitVec 32) : ℕ := popcountI x 0x01
def builtinParityll (x : BitVec 64) : ℕ := popcountL x 0x01
def builtinParityl : BitVec 64 → ℕ := builtinParityll

/-! ## What they are to return -/

section Spec

variable {w : ℕ} (x : BitVec w) (r : ℕ)

/-- One more than the index of the lowest set bit, or zero. -/
def IsFfs : Prop := (x = 0#w ∧ r = 0) ∨ ∃ t, IsLowest x t ∧ r = t + 1

/-- The number of zeros below the lowest set bit. -/
def IsCtz : Prop := IsLowest x r

/-- The number of zeros above the highest set bit. -/
def IsClz : Prop := ∃ t, IsHighest x t ∧ r + t + 1 = w

/-- The number of bits behind the sign bit that are equal to it. -/
def IsClrsb : Prop :=
  r < w ∧ (∀ j < r, x.getLsbD (w - 2 - j) = x.msb) ∧
    (r + 1 < w → x.getLsbD (w - 2 - r) ≠ x.msb)

/-- The number of ones. -/
def IsPopcount : Prop := r = (List.range w).countP x.getLsbD

/-- The number of ones, modulo 2. -/
def IsParity : Prop := r = (List.range w).countP x.getLsbD % 2

end Spec

/-! ## Tables -/

theorem table132_eq : ∀ t < 32,
    table132.getD ((BitVec.twoPow 32 t * 0x077cb531#32) >>> 27).toNat 0 = t := by decide +kernel

theorem table164_eq : ∀ t < 64,
    table164.getD ((BitVec.twoPow 64 t * 0x022fdd63cc95386d#64) >>> 58).toNat 0 = t := by
  decide +kernel

theorem table232_eq : ∀ t < 32,
    table232.getD ((BitVec.ofNat 32 (2 ^ (t + 1) - 1) * 0x07c4acdd#32) >>> 27).toNat 0 =
      31 - t := by decide +kernel

theorem table264_eq : ∀ t < 64,
    table264.getD ((BitVec.ofNat 64 (2 ^ (t + 1) - 1) * 0x03f79d71b4cb0a89#64) >>> 58).toNat 0 =
      63 - t := by decide +kernel

/-! ## Lowest and highest bits -/

theorem ctzI_eq {x : BitVec 32} {t : ℕ} (h : IsLowest x t) : ctzI x = t := by
  rw [ctzI, and_neg_eq h, table132_eq t h.lt]

theorem ctzL_eq {x : BitVec 64} {t : ℕ} (h : IsLowest x t) : ctzL x = t := by
  rw [ctzL, and_neg_eq h, table164_eq t h.lt]

section Lowest

variable {w : ℕ} {x : BitVec w} {n : ℕ}

theorem isCtz_of_isLowest (h : x ≠ 0#w) (hn : ∀ t, IsLowest x t → n = t) : IsCtz x n := by
  obtain ⟨t, ht⟩ := exists_isLowest h
  rw [IsCtz, hn t ht]
  exact ht

theorem isFfs_of_isLowest (hzero : x = 0#w → n = 0) (hn : ∀ t, IsLowest x t → n = t) :
    IsFfs x (n + if x ≠ 0#w then 1 else 0) := by
  by_cases h : x = 0#w
  · rw [if_neg (not_not_intro h), hzero h]
    exact .inl ⟨h, rfl⟩
  · obtain ⟨t, ht⟩ := exists_isLowest h
    rw [if_pos h, hn t ht]
    exact .inr ⟨t, ht, rfl⟩

end Lowest

theorem builtinCtz_right {x : BitVec 32} (h : x ≠ 0#32) : IsCtz x (builtinCtz x) :=
  isCtz_of_isLowest h fun _ => ctzI_eq

theorem builtinCtzll_right {x : BitVec 64} (h : x ≠ 0#64) : IsCtz x (builtinCtzll x) :=
  isCtz_of_isLowest h fun _ => ctzL_eq

theorem builtinFfs_right (x : BitVec 32) : IsFfs x (builtinFfs x) :=
  isFfs_of_isLowest (n := ctzI x) (by rintro rfl; rfl) fun _ => ctzI_eq

theorem builtinFfsll_right (x : BitVec 64) : IsFfs x (builtinFfsll x) :=
  isFfs_of_isLowest (n := ctzL x) (by rintro rfl; rfl) fun _ => ctzL_eq

/-- A shift for `clzI` and `clzL` that smears. -/
def Smears {w : ℕ} (shr : BitVec w → ℕ → BitVec w) : Prop :=
  ∀ (n : ℕ) (x y : BitVec w), Smeared n x y → Smeared (2 * n) x (y ||| shr y n)

theorem smears_ushiftRight (w : ℕ) : Smears (BitVec.ushiftRight : BitVec w → ℕ → BitVec w) :=
  fun _ _ _ h => h.double

theorem smears_sshiftRight (w : ℕ) : Smears (BitVec.sshiftRight : BitVec w → ℕ → BitVec w) :=
  fun _ _ _ h => h.double_signed

theorem clzI_eq {shr : BitVec 32 → ℕ → BitVec 32} (hshr : Smears shr) {x : BitVec 32} {t : ℕ}
    (h : IsHighest x t) : clzI shr x = 31 - t := by
  have h1 := hshr 1 x _ (smeared_one x)
  have h2 := hshr 2 x _ h1
  have h4 := hshr 4 x _ h2
  have h8 := hshr 8 x _ h4
  have h16 := hshr 16 x _ h8
  have hall := h16.eq_below (Nat.le_refl 32) h
  rw [clzI]
  rw [hall, table232_eq t h.lt]

theorem clzL_eq {shr : BitVec 64 → ℕ → BitVec 64} (hshr : Smears shr) {x : BitVec 64} {t : ℕ}
    (h : IsHighest x t) : clzL shr x = 63 - t := by
  have h1 := hshr 1 x _ (smeared_one x)
  have h2 := hshr 2 x _ h1
  have h4 := hshr 4 x _ h2
  have h8 := hshr 8 x _ h4
  have h16 := hshr 16 x _ h8
  have h32 := hshr 32 x _ h16
  have hall := h32.eq_below (Nat.le_refl 64) h
  rw [clzL]
  rw [hall, table264_eq t h.lt]

theorem isClz_of_isHighest {w : ℕ} {x : BitVec w} {n : ℕ} (h : x ≠ 0#w)
    (hn : ∀ t, IsHighest x t → n = w - 1 - t) : IsClz x n := by
  obtain ⟨t, ht⟩ := exists_isHighest h
  have hlt := ht.lt
  refine ⟨t, ht, ?_⟩
  rw [hn t ht]
  omega

theorem builtinClz_right {x : BitVec 32} (h : x ≠ 0#32) : IsClz x (builtinClz x) :=
  isClz_of_isHighest h fun _ => clzI_eq (smears_ushiftRight 32)

theorem builtinClzll_right {x : BitVec 64} (h : x ≠ 0#64) : IsClz x (builtinClzll x) :=
  isClz_of_isHighest h fun _ => clzL_eq (smears_ushiftRight 64)

/-! ## Redundant sign bits -/

section Clrsb

variable {w : ℕ} {x : BitVec w}

/-- The argument of the count: the bits that differ from the sign bit, one place up. -/
theorem getLsbD_differing (x : BitVec w) {j : ℕ} (hj : j + 1 < w) :
    ((if x.msb then ~~~x else x) <<< 1).getLsbD (j + 1) = (x.getLsbD j ^^ x.msb) := by
  rw [BitVec.getLsbD_shiftLeft, decide_eq_true hj, Nat.add_sub_cancel,
    decide_eq_false (show ¬j + 1 < 1 by omega), Bool.not_false, Bool.true_and, Bool.true_and]
  cases hmsb : x.msb with
  | false => rw [if_neg Bool.false_ne_true, Bool.xor_false]
  | true =>
    rw [if_pos rfl, BitVec.getLsbD_not, decide_eq_true (show j < w by omega), Bool.true_and,
      Bool.xor_true]

theorem isClrsb_of_zero (hw : 0 < w) (h : (if x.msb then ~~~x else x) <<< 1 = 0#w) :
    IsClrsb x (w - 1) := by
  refine ⟨by omega, fun j hj => ?_, fun hlt => by omega⟩
  have hbit := getLsbD_differing x (show w - 2 - j + 1 < w by omega)
  rw [h, BitVec.getLsbD_zero] at hbit
  simpa using hbit.symm

theorem isClrsb_of_isHighest {t : ℕ} (h : IsHighest ((if x.msb then ~~~x else x) <<< 1) t) :
    IsClrsb x (w - 1 - t) := by
  have hlt := h.lt
  have hpos : 0 < t := by
    by_contra hzero
    obtain rfl : t = 0 := by omega
    have hset := h.1
    rw [BitVec.getLsbD_shiftLeft, decide_eq_true Nat.one_pos, Bool.not_true, Bool.and_false,
      Bool.false_and] at hset
    cases hset
  refine ⟨by omega, fun j hj => ?_, fun _ => ?_⟩
  · have hbit := getLsbD_differing x (show w - 2 - j + 1 < w by omega)
    rw [h.2 (w - 2 - j + 1) (by omega)] at hbit
    simpa using hbit.symm
  · have hbit := getLsbD_differing x (show t - 1 + 1 < w by omega)
    rw [show t - 1 + 1 = t by omega, h.1] at hbit
    rw [show w - 2 - (w - 1 - t) = t - 1 by omega]
    intro heq
    rw [heq, Bool.xor_self] at hbit
    cases hbit

/-- What counts the zeros above the highest differing bit, and `w - 1` if there is none, counts the
redundant sign bits. -/
theorem isClrsb_of_clz {n : BitVec w → ℕ} (hw : 0 < w) (hzero : n 0#w = w - 1)
    (hn : ∀ y t, IsHighest y t → n y = w - 1 - t) :
    IsClrsb x (n ((if x.msb then ~~~x else x) <<< 1)) := by
  by_cases h : (if x.msb then ~~~x else x) <<< 1 = 0#w
  · rw [h, hzero]
    exact isClrsb_of_zero hw h
  · obtain ⟨t, ht⟩ := exists_isHighest h
    rw [hn _ t ht]
    exact isClrsb_of_isHighest ht

end Clrsb

theorem builtinClrsb_right (x : BitVec 32) : IsClrsb x (builtinClrsb x) :=
  isClrsb_of_clz (by decide) (by decide) fun _ _ => clzI_eq (smears_sshiftRight 32)

theorem builtinClrsbll_right (x : BitVec 64) : IsClrsb x (builtinClrsbll x) :=
  isClrsb_of_clz (by decide) (by decide) fun _ _ => clzL_eq (smears_sshiftRight 64)

/-! ## Ones -/

/-- The words of the three steps stay within the word. -/
theorem toNat_swar {w k mask1 mask2 mask4 : ℕ} (x : BitVec w) (h1 : rep 0x55 k = mask1)
    (h2 : rep 0x33 k = mask2) (h4 : rep 0x0f k = mask4) (hmask1 : mask1 < 2 ^ w)
    (hmask2 : 3 * mask2 < 2 ^ w) (hmask4 : mask4 < 2 ^ w) :
    let x₁ := x - (x >>> 1 &&& BitVec.ofNat w mask1)
    let x₂ := (x₁ &&& BitVec.ofNat w mask2) + (x₁ >>> 2 &&& BitVec.ofNat w mask2)
    ((x₂ + x₂ >>> 4) &&& BitVec.ofNat w mask4).toNat = swar k x.toNat := by
  intro x₁ x₂
  have hx₁ : x₁.toNat = pairSums k x.toNat := by
    have hand : (x >>> 1 &&& BitVec.ofNat w mask1).toNat = x.toNat / 2 &&& mask1 := by
      rw [BitVec.toNat_and, BitVec.toNat_ushiftRight, BitVec.toNat_ofNat, Nat.mod_eq_of_lt hmask1,
        Nat.shiftRight_eq_div_pow, Nat.pow_one]
    have hle : (x >>> 1 &&& BitVec.ofNat w mask1) ≤ x := by
      rw [BitVec.le_def, hand]
      exact Nat.and_le_left.trans (Nat.div_le_self _ 2)
    rw [BitVec.toNat_sub_of_le hle, hand, pairSums, h1]
  have hlt : mask2 < 2 ^ w := by omega
  have hx₂ : x₂.toNat = nibbleSums k x₁.toNat ∧ x₂.toNat ≤ 2 * mask2 := by
    have hlow : (x₁ &&& BitVec.ofNat w mask2).toNat = x₁.toNat &&& mask2 := by
      rw [BitVec.toNat_and, BitVec.toNat_ofNat, Nat.mod_eq_of_lt hlt]
    have hhigh : (x₁ >>> 2 &&& BitVec.ofNat w mask2).toNat = x₁.toNat / 4 &&& mask2 := by
      rw [BitVec.toNat_and, BitVec.toNat_ushiftRight, BitVec.toNat_ofNat, Nat.mod_eq_of_lt hlt,
        Nat.shiftRight_eq_div_pow]
    have hle : x₁.toNat &&& mask2 ≤ mask2 := Nat.and_le_right
    have hle' : x₁.toNat / 4 &&& mask2 ≤ mask2 := Nat.and_le_right
    have hadd : x₂.toNat = (x₁.toNat &&& mask2) + (x₁.toNat / 4 &&& mask2) := by
      rw [BitVec.toNat_add, hlow, hhigh, Nat.mod_eq_of_lt (by omega)]
    exact ⟨by rw [hadd, nibbleSums, h2], by omega⟩
  have hsum : (x₂ + x₂ >>> 4).toNat = x₂.toNat + x₂.toNat / 16 := by
    have hle := hx₂.2
    rw [BitVec.toNat_add, BitVec.toNat_ushiftRight, Nat.shiftRight_eq_div_pow,
      Nat.mod_eq_of_lt (by omega)]
  rw [BitVec.toNat_and, hsum, BitVec.toNat_ofNat, Nat.mod_eq_of_lt hmask4, hx₂.1, hx₁, swar,
    byteSums, h4]

theorem sum_le {counts : List ℕ} (hle : ∀ n ∈ counts, n ≤ 8) : counts.sum ≤ 8 * counts.length := by
  have h := List.sum_le_card_nsmul counts 8 hle
  rwa [smul_eq_mul, Nat.mul_comm] at h

theorem popcountI_eq (x m : BitVec 32) :
    popcountI x m = (List.range 32).countP x.getLsbD &&& m.toNat := by
  obtain ⟨counts, hlength, hle, hswar, hones⟩ := exists_counts 4 x.toNat
  have hones' : (List.range 32).countP x.getLsbD = counts.sum := hones
  have hword := toNat_swar x (show rep 0x55 4 = 0x55555555 from rfl)
    (show rep 0x33 4 = 0x33333333 from rfl) (show rep 0x0f 4 = 0x0f0f0f0f from rfl)
    (by decide) (by decide) (by decide)
  dsimp only at hword
  have hsum := sum_le hle
  rw [popcountI, BitVec.toNat_and, hones', BitVec.toNat_ushiftRight, BitVec.toNat_mul, hword, hswar,
    Nat.shiftRight_eq_div_pow]
  exact congrArg (· &&& m.toNat) (sum_of_product (k := 3) hlength (by omega))

theorem popcountL_eq (x m : BitVec 64) :
    popcountL x m = (List.range 64).countP x.getLsbD &&& m.toNat := by
  obtain ⟨counts, hlength, hle, hswar, hones⟩ := exists_counts 8 x.toNat
  have hones' : (List.range 64).countP x.getLsbD = counts.sum := hones
  have hword := toNat_swar x (show rep 0x55 8 = 0x5555555555555555 from rfl)
    (show rep 0x33 8 = 0x3333333333333333 from rfl)
    (show rep 0x0f 8 = 0x0f0f0f0f0f0f0f0f from rfl) (by decide) (by decide) (by decide)
  dsimp only at hword
  have hsum := sum_le hle
  rw [popcountL, BitVec.toNat_and, hones', BitVec.toNat_ushiftRight, BitVec.toNat_mul, hword, hswar,
    Nat.shiftRight_eq_div_pow]
  exact congrArg (· &&& m.toNat) (sum_of_product (k := 7) hlength (by omega))

theorem builtinPopcount_right (x : BitVec 32) : IsPopcount x (builtinPopcount x) := by
  have hle : (List.range 32).countP x.getLsbD ≤ 32 := ones_le 32 x.toNat
  rw [IsPopcount, builtinPopcount, popcountI_eq, show (0x3f : BitVec 32).toNat = 2 ^ 6 - 1 from rfl,
    Nat.and_two_pow_sub_one_eq_mod]
  omega

theorem builtinPopcountll_right (x : BitVec 64) : IsPopcount x (builtinPopcountll x) := by
  have hle : (List.range 64).countP x.getLsbD ≤ 64 := ones_le 64 x.toNat
  rw [IsPopcount, builtinPopcountll, popcountL_eq,
    show (0x7f : BitVec 64).toNat = 2 ^ 7 - 1 from rfl, Nat.and_two_pow_sub_one_eq_mod]
  omega

theorem builtinParity_right (x : BitVec 32) : IsParity x (builtinParity x) := by
  rw [IsParity, builtinParity, popcountI_eq, show (0x01 : BitVec 32).toNat = 1 from rfl,
    Nat.and_one_is_mod]

theorem builtinParityll_right (x : BitVec 64) : IsParity x (builtinParityll x) := by
  rw [IsParity, builtinParityll, popcountL_eq, show (0x01 : BitVec 64).toNat = 1 from rfl,
    Nat.and_one_is_mod]

/-! ## All of them -/

/-- The functions on `int` and on `long long`, of which those on `long` are aliases, return what
their names promise. -/
theorem builtins_correct (x : BitVec 32) (y : BitVec 64) :
    (IsFfs x (builtinFfs x) ∧ IsFfs y (builtinFfsll y) ∧ IsFfs y (builtinFfsl y)) ∧
    (x ≠ 0#32 → IsClz x (builtinClz x)) ∧
    (y ≠ 0#64 → IsClz y (builtinClzll y) ∧ IsClz y (builtinClzl y)) ∧
    (x ≠ 0#32 → IsCtz x (builtinCtz x)) ∧
    (y ≠ 0#64 → IsCtz y (builtinCtzll y) ∧ IsCtz y (builtinCtzl y)) ∧
    (IsClrsb x (builtinClrsb x) ∧ IsClrsb y (builtinClrsbll y) ∧ IsClrsb y (builtinClrsbl y)) ∧
    (IsPopcount x (builtinPopcount x) ∧ IsPopcount y (builtinPopcountll y) ∧
      IsPopcount y (builtinPopcountl y)) ∧
    (IsParity x (builtinParity x) ∧ IsParity y (builtinParityll y) ∧
      IsParity y (builtinParityl y)) :=
  ⟨⟨builtinFfs_right x, builtinFfsll_right y, builtinFfsll_right y⟩,
    builtinClz_right, fun h => ⟨builtinClzll_right h, builtinClzll_right h⟩,
    builtinCtz_right, fun h => ⟨builtinCtzll_right h, builtinCtzll_right h⟩,
    ⟨builtinClrsb_right x, builtinClrsbll_right y, builtinClrsbll_right y⟩,
    ⟨builtinPopcount_right x, builtinPopcountll_right y, builtinPopcountll_right y⟩,
    ⟨builtinParity_right x, builtinParityll_right y, builtinParityll_right y⟩⟩

theorem builtins_correct_twelve :
    builtinClz 12#32 = 28 ∧ IsClz 12#32 (builtinClz 12#32) ∧ IsCtz 12#32 (builtinCtz 12#32) ∧
      IsClz 12#64 (builtinClzl 12#64) ∧ IsCtz 12#64 (builtinCtzl 12#64) := by
  have h := builtins_correct 12#32 12#64
  exact ⟨by decide, h.2.1 (by decide), h.2.2.2.1 (by decide), (h.2.2.1 (by decide)).2,
    (h.2.2.2.2.1 (by decide)).2⟩

end TccRiscv64.Lib
