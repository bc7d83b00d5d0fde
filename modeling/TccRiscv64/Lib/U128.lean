import Mathlib

set_option autoImplicit false

/-! # Two-limb 128-bit words

`u128_t` of `lib/lib-arm64.c`: two `uint64_t` limbs, the low one first, as `memcpy` between the
struct and a `long double` lays them out. The limb-wise shifts, the addition with carry and the
subtraction with borrow that the library spells out at every use are given names here, each with
its meaning on the 128-bit number the limbs denote. -/

namespace TccRiscv64.Lib

structure U128 where
  x0 : BitVec 64
  x1 : BitVec 64
deriving DecidableEq, Repr

namespace U128

/-- `memcpy(&f, &x, 16)`. -/
def toBits (x : U128) : BitVec 128 := x.x1 ++ x.x0

/-- `memcpy(&x, &f, 16)`. -/
def ofBits (f : BitVec 128) : U128 := ⟨f.extractLsb' 0 64, f.extractLsb' 64 64⟩

/-- The number denoted by the limbs. -/
def toNat (x : U128) : ℕ := x.x1.toNat * 2 ^ 64 + x.x0.toNat

/-- `x1 << s | x0 >> (64 - s)` over `x0 << s`. -/
def shl (x : U128) (s : ℕ) : U128 := ⟨x.x0 <<< s, x.x1 <<< s ||| x.x0 >>> (64 - s)⟩

/-- `x1 >> s` over `x0 >> s | x1 << (64 - s)`. -/
def shr (x : U128) (s : ℕ) : U128 := ⟨x.x0 >>> s ||| x.x1 <<< (64 - s), x.x1 >>> s⟩

/-- `x0 = a.x0 + b.x0; x1 = a.x1 + b.x1 + (x0 < a.x0)`. -/
def add (a b : U128) : U128 :=
  let x0 := a.x0 + b.x0
  ⟨x0, a.x1 + b.x1 + (if x0 < a.x0 then 1#64 else 0#64)⟩

/-- `x0 = a.x0 - b.x0; x1 = a.x1 - b.x1 - (x0 > a.x0)`. -/
def sub (a b : U128) : U128 :=
  let x0 := a.x0 - b.x0
  ⟨x0, a.x1 - b.x1 - (if x0 > a.x0 then 1#64 else 0#64)⟩

/-- `x0 = -x0; x1 = -x1 - !!x0`. -/
def neg (x : U128) : U128 :=
  let x0 := -x.x0
  ⟨x0, -x.x1 - (if x0 ≠ 0#64 then 1#64 else 0#64)⟩

/-- `x0 | x1`, tested for zero. -/
def isZero (x : U128) : Bool := x.x0 ||| x.x1 == 0#64

/-! ## Meaning on numbers -/

theorem toNat_toBits (x : U128) : x.toBits.toNat = x.toNat := by
  simp only [toBits, toNat, BitVec.toNat_append]
  rw [← Nat.shiftLeft_add_eq_or_of_lt x.x0.isLt, Nat.shiftLeft_eq]

theorem toNat_lt (x : U128) : x.toNat < 2 ^ 128 := by
  rw [← toNat_toBits]; exact x.toBits.isLt

theorem toNat_inj {x y : U128} (h : x.toNat = y.toNat) : x = y := by
  have h0 := x.x0.isLt
  have h1 := y.x0.isLt
  unfold toNat at h
  obtain ⟨x0, x1⟩ := x
  obtain ⟨y0, y1⟩ := y
  have e0 : x0 = y0 := BitVec.eq_of_toNat_eq (by dsimp only at *; omega)
  have e1 : x1 = y1 := BitVec.eq_of_toNat_eq (by dsimp only at *; omega)
  rw [e0, e1]

theorem toBits_shl (x : U128) {s : ℕ} (hs : s < 64) : (x.shl s).toBits = x.toBits <<< s := by
  apply BitVec.eq_of_getLsbD_eq
  intro i hi
  simp only [toBits, shl, BitVec.getLsbD_append, BitVec.getLsbD_or, BitVec.getLsbD_shiftLeft,
    BitVec.getLsbD_ushiftRight]
  by_cases h1 : i < 64
  · grind
  · grind

theorem toBits_shr (x : U128) {s : ℕ} (hs : s ≤ 64) : (x.shr s).toBits = x.toBits >>> s := by
  apply BitVec.eq_of_getLsbD_eq
  intro i hi
  simp only [toBits, shr, BitVec.getLsbD_append, BitVec.getLsbD_or, BitVec.getLsbD_shiftLeft,
    BitVec.getLsbD_ushiftRight]
  by_cases h1 : i < 64
  · grind
  · grind

theorem toNat_shl (x : U128) {s : ℕ} (hs : s < 64) :
    (x.shl s).toNat = x.toNat * 2 ^ s % 2 ^ 128 := by
  rw [← toNat_toBits, toBits_shl x hs, BitVec.toNat_shiftLeft, toNat_toBits, Nat.shiftLeft_eq]

/-- A left shift that loses no bit. -/
theorem toNat_shl_of_lt (x : U128) {s : ℕ} (hs : s < 64) (hx : x.toNat * 2 ^ s < 2 ^ 128) :
    (x.shl s).toNat = x.toNat * 2 ^ s := by
  rw [toNat_shl x hs, Nat.mod_eq_of_lt hx]

theorem toNat_shr (x : U128) {s : ℕ} (hs : s ≤ 64) : (x.shr s).toNat = x.toNat / 2 ^ s := by
  rw [← toNat_toBits, toBits_shr x hs, BitVec.toNat_ushiftRight, toNat_toBits,
    Nat.shiftRight_eq_div_pow]

theorem toNat_add (a b : U128) : (a.add b).toNat = (a.toNat + b.toNat) % 2 ^ 128 := by
  have := a.x0.isLt
  have := b.x0.isLt
  have := a.x1.isLt
  have := b.x1.isLt
  simp only [add, toNat, BitVec.lt_def]
  split <;> simp only [BitVec.toNat_add, BitVec.toNat_ofNat] at * <;> omega

theorem toNat_add_of_lt (a b : U128) (h : a.toNat + b.toNat < 2 ^ 128) :
    (a.add b).toNat = a.toNat + b.toNat := by
  rw [toNat_add, Nat.mod_eq_of_lt h]

theorem toNat_sub (a b : U128) :
    (a.sub b).toNat = (2 ^ 128 + a.toNat - b.toNat) % 2 ^ 128 := by
  have := a.x0.isLt
  have := b.x0.isLt
  have := a.x1.isLt
  have := b.x1.isLt
  simp only [sub, toNat, GT.gt, BitVec.lt_def]
  split <;> simp only [BitVec.toNat_sub, BitVec.toNat_ofNat] at * <;> omega

theorem toNat_sub_of_le (a b : U128) (h : b.toNat ≤ a.toNat) :
    (a.sub b).toNat = a.toNat - b.toNat := by
  have := a.toNat_lt
  rw [toNat_sub]; omega

theorem toNat_neg (x : U128) : x.neg.toNat = (2 ^ 128 - x.toNat) % 2 ^ 128 := by
  have := x.x0.isLt
  have := x.x1.isLt
  have hne : ∀ y : BitVec 64, y ≠ 0#64 ↔ y.toNat ≠ 0 := fun y => by
    rw [ne_eq, ne_eq, ← BitVec.toNat_inj]; rfl
  simp only [neg, toNat, hne]
  split <;> simp only [BitVec.toNat_neg, BitVec.toNat_sub, BitVec.toNat_ofNat] at * <;> omega

theorem isZero_iff (x : U128) : x.isZero = true ↔ x.toNat = 0 := by
  have h0 : ∀ y : BitVec 64, y = 0#64 ↔ y.toNat = 0 := fun y => by
    rw [← BitVec.toNat_inj]; rfl
  simp only [isZero, beq_iff_eq, BitVec.or_eq_zero_iff]
  rw [h0, h0, toNat]
  omega

end U128

end TccRiscv64.Lib
