import TccRiscv64.Ieee.ToInt
import TccRiscv64.Lib.F3Spec

set_option autoImplicit false

/-! # Conversions between `long double` and integers

The four conversions of `lib-arm64.c` to an integer type and the four from one. -/

namespace TccRiscv64.Lib

open Ieee

/-! ## To integers -/

def fixtfsi (fa : BitVec 128) : BitVec 32 :=
  let (sgn, exp, a) := f3Unpack fa
  if exp < 16369 then 0#32
  else if exp > 16413 then if sgn then -0x80000000#32 else 0x7fffffff#32
  else
    let x := (a.x1 >>> (16431 - exp).toNat).setWidth 32
    if sgn then -x else x

def fixtfdi (fa : BitVec 128) : BitVec 64 :=
  let (sgn, exp, a) := f3Unpack fa
  if exp < 16383 then 0#64
  else if exp > 16445 then if sgn then -0x8000000000000000#64 else 0x7fffffffffffffff#64
  else
    let x := (a.x1 <<< 15 ||| a.x0 >>> 49) >>> (16446 - exp).toNat
    if sgn then -x else x

def fixunstfsi (fa : BitVec 128) : BitVec 32 :=
  let (sgn, exp, a) := f3Unpack fa
  if sgn ∨ exp < 16369 then 0#32
  else if exp > 16414 then -1#32
  else (a.x1 >>> (16431 - exp).toNat).setWidth 32

def fixunstfdi (fa : BitVec 128) : BitVec 64 :=
  let (sgn, exp, a) := f3Unpack fa
  if sgn ∨ exp < 16383 then 0#64
  else if exp > 16446 then -1#64
  else (a.x1 <<< 15 ||| a.x0 >>> 49) >>> (16446 - exp).toNat

/-! ## From integers -/

/-- One round of `for (i = …; i; i >>= 1)`. -/
def leadStep {w : ℕ} (s : BitVec w × ℤ) (i : ℕ) : BitVec w × ℤ :=
  if s.1 >>> (w - i) = 0#w then (s.1 <<< i, s.2 - i) else s

/-- The rounds from `i = 2 ^ (n - 1)` on. -/
def leadLoop {w : ℕ} : ℕ → BitVec w × ℤ → BitVec w × ℤ
  | 0, s => s
  | n + 1, s => leadLoop n (leadStep s (2 ^ n))

/-- The conversions from 32 bits, with the sign already taken off. -/
def float32 (sgn : Bool) (a : BitVec 32) : BitVec 128 :=
  let (mnt, exp) := leadLoop 5 (a, 16414)
  (U128.mk 0#64 (sgnWord sgn ||| BitVec.ofInt 64 exp <<< 48 |||
    (mnt <<< 1).setWidth 64 <<< 16)).toBits

/-- The conversions from 64 bits. -/
def float64 (sgn : Bool) (a : BitVec 64) : BitVec 128 :=
  let (mnt, exp) := leadLoop 6 (a, 16446)
  (U128.mk (mnt <<< 49) (sgnWord sgn ||| BitVec.ofInt 64 exp <<< 48 |||
    mnt <<< 1 >>> 16)).toBits

def floatsitf (a : BitVec 32) : BitVec 128 :=
  if a = 0#32 then 0#128
  else if a.slt 0#32 then float32 true (-a) else float32 false a

def floatditf (a : BitVec 64) : BitVec 128 :=
  if a = 0#64 then 0#128
  else if a.slt 0#64 then float64 true (-a) else float64 false a

def floatunsitf (a : BitVec 32) : BitVec 128 :=
  if a = 0#32 then 0#128 else float32 false a

def floatunditf (a : BitVec 64) : BitVec 128 :=
  if a = 0#64 then 0#128 else float64 false a

/-! ## The integer part of a magnitude -/

section Floor

variable {n : ℕ}

theorem floor_mag_lt {k : ℕ} (h : unpackedExp n ≤ 16382 + k) : ⌊binary128.mag n⌋ < 2 ^ k := by
  rw [Int.floor_lt, mag_eq_significand]
  have hsig : (binary128.significand n : ℚ) < 2 ^ 113 := by exact_mod_cast significand_lt n
  calc (binary128.significand n : ℚ) * 2 ^ (unpackedExp n - 16495)
      < 2 ^ 113 * 2 ^ (unpackedExp n - 16495) := by gcongr
    _ = 2 ^ (unpackedExp n - 16382) := by
      rw [← zpow_natCast, ← zpow_add₀ two_ne_zero]
      congr 1
      push_cast
      ring
    _ ≤ 2 ^ (k : ℤ) := zpow_le_zpow_right₀ one_le_two (by omega)
    _ = ((2 ^ k : ℤ) : ℚ) := by push_cast; rfl

theorem le_floor_mag {k : ℕ} (h1 : 1 < unpackedExp n) (h : 16383 + k ≤ unpackedExp n) :
    2 ^ k ≤ ⌊binary128.mag n⌋ := by
  rw [Int.le_floor, mag_eq_significand]
  have hsig : (2 : ℚ) ^ 112 ≤ binary128.significand n := by
    exact_mod_cast significand_of_lt_exp h1
  calc ((2 ^ k : ℤ) : ℚ) = 2 ^ (k : ℤ) := by push_cast; rfl
    _ ≤ 2 ^ (unpackedExp n - 16383) := zpow_le_zpow_right₀ one_le_two (by omega)
    _ = 2 ^ 112 * 2 ^ (unpackedExp n - 16495) := by
      rw [← zpow_natCast, ← zpow_add₀ two_ne_zero]
      congr 1
      push_cast
      ring
    _ ≤ binary128.significand n * 2 ^ (unpackedExp n - 16495) := by gcongr

/-- The bits of the significand above the binary point. -/
theorem floor_mag_eq {s : ℕ} (h : unpackedExp n + s = 16495) :
    ⌊binary128.mag n⌋ = (binary128.significand n / 2 ^ s : ℕ) := by
  have hexp : unpackedExp n - 16495 = -(s : ℤ) := by omega
  rw [mag_eq_significand, hexp, zpow_neg, zpow_natCast, ← div_eq_mul_inv]
  have hcast : (binary128.significand n : ℚ) / 2 ^ s =
      ((binary128.significand n : ℕ) : ℚ) / ((2 ^ s : ℕ) : ℚ) := by push_cast; rfl
  rw [hcast, ← Int.natCast_floor_eq_floor (by positivity), Nat.floor_div_eq_div]

/-- The bounds of the integer types are finite. -/
theorem le_mag_infBits : (2 : ℚ) ^ 64 ≤ binary128.mag binary128.infBits := by
  have hlt : binary128.infBits < 2 ^ 127 := by
    have hinf : binary128.infBits = 32767 * 2 ^ 112 := rfl
    rw [hinf]
    norm_num
  have hexp : unpackedExp binary128.infBits = 32767 := (unpackedExp_eq_iff hlt).2 le_rfl
  have hfloor : 2 ^ 64 ≤ ⌊binary128.mag binary128.infBits⌋ :=
    le_floor_mag (by omega) (by omega)
  calc (2 : ℚ) ^ 64 = ((2 ^ 64 : ℤ) : ℚ) := by push_cast; rfl
    _ ≤ ⌊binary128.mag binary128.infBits⌋ := Int.cast_le.2 hfloor
    _ ≤ binary128.mag binary128.infBits := Int.floor_le _

theorem toInt_eq {lo hi : ℤ} (hle : lo ≤ hi) (hlo : -2 ^ 64 ≤ lo) (hhi : hi ≤ 2 ^ 64) (b : ℕ) :
    binary128.toInt lo hi b = clamp lo hi (if binary128.neg b
      then -⌊binary128.mag (binary128.magBits b)⌋ else ⌊binary128.mag (binary128.magBits b)⌋) := by
  have hinf := le_mag_infBits
  have hlo' : (-2 ^ 64 : ℚ) ≤ lo := by exact_mod_cast hlo
  have hhi' : (hi : ℚ) ≤ 2 ^ 64 := by exact_mod_cast hhi
  exact Format.toInt_eq_clamp hle (by linarith) (by linarith) b

/-- The upper limb, shifted. -/
theorem shift_x1 (m : U128) (k : ℕ) : (m.x1 >>> k).toNat = m.toNat / 2 ^ (64 + k) := by
  have h0 := m.x0.isLt
  have h1 : m.toNat / 2 ^ 64 = m.x1.toNat := by
    rw [U128.toNat]
    omega
  rw [BitVec.toNat_ushiftRight, Nat.shiftRight_eq_div_pow, pow_add, ← Nat.div_div_eq_div_mul, h1]

/-- The upper 64 of 113 bits, shifted. -/
theorem shift_limbs {m : U128} (hm : m.toNat < 2 ^ 113) (k : ℕ) :
    ((m.x1 <<< 15 ||| m.x0 >>> 49) >>> k).toNat = m.toNat / 2 ^ (49 + k) := by
  have h0 := m.x0.isLt
  rw [U128.toNat] at hm
  have hx1 : m.x1.toNat < 2 ^ 49 := by omega
  have hhigh : m.x1.toNat * 2 ^ 15 < 2 ^ 64 := by
    calc m.x1.toNat * 2 ^ 15 < 2 ^ 49 * 2 ^ 15 := by gcongr
      _ = 2 ^ 64 := by norm_num
  have hlow : m.x0.toNat / 2 ^ 49 < 2 ^ 15 := by omega
  have hor := Nat.two_pow_add_eq_or_of_lt hlow m.x1.toNat
  rw [BitVec.toNat_ushiftRight, BitVec.toNat_or, BitVec.toNat_shiftLeft, BitVec.toNat_ushiftRight,
    Nat.shiftRight_eq_div_pow, Nat.shiftRight_eq_div_pow, Nat.shiftLeft_eq,
    Nat.mod_eq_of_lt hhigh, Nat.mul_comm, ← hor, pow_add, ← Nat.div_div_eq_div_mul]
  congr 1
  rw [U128.toNat]
  omega

end Floor

/-! ## What the conversions to integers return -/

section Fix

variable {n : ℕ}

theorem floor_mag_nonneg (n : ℕ) : 0 ≤ ⌊binary128.mag n⌋ :=
  Int.floor_nonneg.2 (binary128.mag_nonneg n)

theorem floor_mag_eq_zero (h : unpackedExp n ≤ 16382) : ⌊binary128.mag n⌋ = 0 := by
  have hlt : ⌊binary128.mag n⌋ < 2 ^ 0 := floor_mag_lt (by omega)
  have hge := floor_mag_nonneg n
  omega

/-- A magnitude with its sign, where it fits. -/
theorem toInt_signed {w : ℕ} {x : BitVec (w + 1)} {t : ℤ} (hx : (x.toNat : ℤ) = t)
    (ht : t < 2 ^ w) (sgn : Bool) : (if sgn then -x else x).toInt = if sgn then -t else t := by
  have hlt : x.toNat < 2 ^ w := by
    rw [← hx] at ht
    exact_mod_cast ht
  have hpos : x.toInt = t := by
    rw [BitVec.toInt_eq_toNat_of_lt (by rw [pow_succ]; omega), hx]
  cases sgn with
  | false => exact hpos
  | true =>
    have hne : x ≠ BitVec.intMin (w + 1) := by
      rintro rfl
      rw [BitVec.toNat_intMin, Nat.add_sub_cancel, Nat.mod_eq_of_lt (by gcongr <;> omega)] at hlt
      exact absurd hlt (lt_irrefl _)
    exact (BitVec.toInt_neg_of_ne_intMin hne).trans (congrArg Neg.neg hpos)

/-- A magnitude with its sign, between the bounds of a signed type. -/
theorem clamp_signed {w : ℕ} {t : ℤ} (h0 : 0 ≤ t) (ht : t < 2 ^ w) (sgn : Bool) :
    clamp (-2 ^ w) (2 ^ w - 1) (if sgn then -t else t) = if sgn then -t else t := by
  cases sgn with
  | false => exact clamp_of_mem (by simp; omega) (by simp; omega)
  | true => exact clamp_of_mem (by simp; omega) (by simp; omega)

theorem clamp_signed_of_ge {w : ℕ} {t : ℤ} (ht : 2 ^ w ≤ t) (sgn : Bool) :
    clamp (-2 ^ w) (2 ^ w - 1) (if sgn then -t else t) = if sgn then -2 ^ w else 2 ^ w - 1 := by
  have hpos : (0 : ℤ) < 2 ^ w := by positivity
  cases sgn with
  | false => exact clamp_of_ge (by omega) (by simp; omega)
  | true => exact clamp_of_le (by simp; omega)

/-- A conversion to a signed type: small values, large ones, and those that are shifted. -/
theorem signed_toInt {w : ℕ} {lo hi : ℤ} {x least greatest : BitVec (w + 1)} (sgn : Bool)
    (hlo : lo ≤ 16383) (hhi : hi = 16382 + w) (hleast : least.toInt = -2 ^ w)
    (hgreatest : greatest.toInt = 2 ^ w - 1)
    (hx : lo ≤ unpackedExp n → unpackedExp n ≤ hi → ⌊binary128.mag n⌋ < 2 ^ w →
      (x.toNat : ℤ) = ⌊binary128.mag n⌋) :
    (if unpackedExp n < lo then 0#(w + 1)
      else if unpackedExp n > hi then if sgn then least else greatest
      else if sgn then -x else x).toInt
      = clamp (-2 ^ w) (2 ^ w - 1)
        (if sgn then -⌊binary128.mag n⌋ else ⌊binary128.mag n⌋) := by
  have hnonneg := floor_mag_nonneg n
  by_cases hlow : unpackedExp n < lo
  · rw [if_pos hlow, floor_mag_eq_zero (by omega), clamp_signed (le_refl 0) (by positivity),
      BitVec.toInt_zero]
    cases sgn <;> rfl
  · rw [if_neg hlow]
    by_cases hhigh : unpackedExp n > hi
    · have hge : 2 ^ w ≤ ⌊binary128.mag n⌋ := le_floor_mag (by omega) (by omega)
      rw [if_pos hhigh, clamp_signed_of_ge hge]
      cases sgn with
      | false => exact hgreatest
      | true => exact hleast
    · have hlt : ⌊binary128.mag n⌋ < 2 ^ w := floor_mag_lt (by omega)
      rw [if_neg hhigh, clamp_signed hnonneg hlt]
      exact toInt_signed (hx (by omega) (by omega) hlt) hlt sgn

/-- A conversion to an unsigned type. -/
theorem unsigned_toNat {w : ℕ} {lo hi : ℤ} {x : BitVec w} (sgn : Bool) (hlo : lo ≤ 16383)
    (hhi : hi = 16382 + w) (hw : 0 < w)
    (hx : lo ≤ unpackedExp n → unpackedExp n ≤ hi → ⌊binary128.mag n⌋ < 2 ^ w →
      (x.toNat : ℤ) = ⌊binary128.mag n⌋) :
    ((if sgn = true ∨ unpackedExp n < lo then 0#w
      else if unpackedExp n > hi then -1#w else x).toNat : ℤ)
      = clamp 0 (2 ^ w - 1) (if sgn then -⌊binary128.mag n⌋ else ⌊binary128.mag n⌋) := by
  have hnonneg := floor_mag_nonneg n
  have hpos : (1 : ℤ) ≤ 2 ^ w := by exact_mod_cast Nat.one_le_two_pow
  cases sgn with
  | true =>
    rw [if_pos (Or.inl rfl), clamp_of_le (by simp; omega)]
    rfl
  | false =>
    simp only [Bool.false_eq_true, false_or, if_false]
    by_cases hlow : unpackedExp n < lo
    · rw [if_pos hlow, floor_mag_eq_zero (by omega), clamp_of_mem (le_refl 0) (by omega)]
      rfl
    · rw [if_neg hlow]
      by_cases hhigh : unpackedExp n > hi
      · have hge : 2 ^ w ≤ ⌊binary128.mag n⌋ := le_floor_mag (by omega) (by omega)
        rw [if_pos hhigh, clamp_of_ge (by omega) (by omega), BitVec.neg_one_eq_allOnes,
          BitVec.toNat_allOnes]
        push_cast [Nat.one_le_two_pow]
        rfl
      · have hlt : ⌊binary128.mag n⌋ < 2 ^ w := floor_mag_lt (by omega)
        rw [if_neg hhigh, clamp_of_mem hnonneg (by omega)]
        exact hx (by omega) (by omega) hlt

/-- The upper word of the significand, shifted to a value of 32 bits at most. -/
theorem toNat_shiftedWord {m : U128} (hm : m.toNat = binary128.significand n) {w : ℕ} (hw : w ≤ 32)
    (hexp : unpackedExp n ≤ 16382 + w) (hlt : ⌊binary128.mag n⌋ < 2 ^ w) :
    (((m.x1 >>> (16431 - unpackedExp n).toNat).setWidth 32).toNat : ℤ) = ⌊binary128.mag n⌋ := by
  have hle : (2 : ℕ) ^ w ≤ 2 ^ 32 := Nat.pow_le_pow_right (by decide) hw
  have hsum : unpackedExp n + (64 + (16431 - unpackedExp n).toNat : ℕ) = 16495 := by omega
  rw [floor_mag_eq hsum] at hlt ⊢
  have hlt' : binary128.significand n / 2 ^ (64 + (16431 - unpackedExp n).toNat) < 2 ^ w := by
    exact_mod_cast hlt
  rw [BitVec.toNat_setWidth, shift_x1, hm, Nat.mod_eq_of_lt (hlt'.trans_le hle)]

/-- The upper 64 bits of the significand, shifted. -/
theorem toNat_shiftedLimbs {m : U128} (hm : m.toNat = binary128.significand n)
    (hexp : unpackedExp n ≤ 16446) :
    (((m.x1 <<< 15 ||| m.x0 >>> 49) >>> (16446 - unpackedExp n).toNat).toNat : ℤ)
      = ⌊binary128.mag n⌋ := by
  have hsum : unpackedExp n + (49 + (16446 - unpackedExp n).toNat : ℕ) = 16495 := by omega
  rw [floor_mag_eq hsum, shift_limbs (hm ▸ significand_lt n), hm]

theorem fixtfsi_toInt (f : BitVec 128) :
    (fixtfsi f).toInt = binary128.toInt (-2 ^ 31) (2 ^ 31 - 1) f.toNat := by
  obtain ⟨m, hunpack, hm⟩ := f3Unpack_spec f
  rw [toInt_eq (by norm_num) (by norm_num) (by norm_num), fixtfsi, hunpack]
  exact signed_toInt _ (by decide) rfl (by decide) (by decide) fun _ hhigh hlt =>
    toNat_shiftedWord hm (w := 31) (by decide) hhigh hlt

theorem fixtfdi_toInt (f : BitVec 128) :
    (fixtfdi f).toInt = binary128.toInt (-2 ^ 63) (2 ^ 63 - 1) f.toNat := by
  obtain ⟨m, hunpack, hm⟩ := f3Unpack_spec f
  rw [toInt_eq (by norm_num) (by norm_num) (by norm_num), fixtfdi, hunpack]
  exact signed_toInt _ (by decide) rfl (by decide) (by decide) fun _ hhigh _ =>
    toNat_shiftedLimbs hm (by omega)

theorem fixunstfsi_toNat (f : BitVec 128) :
    ((fixunstfsi f).toNat : ℤ) = binary128.toInt 0 (2 ^ 32 - 1) f.toNat := by
  obtain ⟨m, hunpack, hm⟩ := f3Unpack_spec f
  rw [toInt_eq (by norm_num) (by norm_num) (by norm_num), fixunstfsi, hunpack]
  exact unsigned_toNat _ (by decide) rfl (by decide) fun _ hhigh hlt =>
    toNat_shiftedWord hm (w := 32) (by decide) hhigh hlt

theorem fixunstfdi_toNat (f : BitVec 128) :
    ((fixunstfdi f).toNat : ℤ) = binary128.toInt 0 (2 ^ 64 - 1) f.toNat := by
  obtain ⟨m, hunpack, hm⟩ := f3Unpack_spec f
  rw [toInt_eq (by norm_num) (by norm_num) (by norm_num), fixunstfdi, hunpack]
  exact unsigned_toNat _ (by decide) rfl (by decide) fun _ hhigh _ => toNat_shiftedLimbs hm hhigh

end Fix

/-! ## What the conversions from integers return -/

section Float

/-- The loop brings the leading bit to the top. -/
theorem leadLoop_spec {w : ℕ} (k : ℕ) (hk : 2 ^ k ≤ w) (m : BitVec w) (e : ℤ)
    (hm : 2 ^ (w - 2 ^ k) ≤ m.toNat) :
    ∃ (s : ℕ) (m' : BitVec w), leadLoop k (m, e) = (m', e - s) ∧ m'.toNat = m.toNat * 2 ^ s ∧
      2 ^ (w - 1) ≤ m'.toNat := by
  induction k generalizing m e with
  | zero => exact ⟨0, m, by simp [leadLoop], by simp, by simpa using hm⟩
  | succ k ih =>
    rw [pow_succ] at hk hm
    have hzero : m >>> (w - 2 ^ k) = 0#w ↔ m.toNat < 2 ^ (w - 2 ^ k) := by
      rw [← BitVec.toNat_inj, BitVec.toNat_ushiftRight, Nat.shiftRight_eq_div_pow]
      exact Nat.div_eq_zero_iff_lt (by positivity)
    rw [leadLoop, leadStep]
    split
    · next h =>
      rw [hzero] at h
      -- the upper `2 ^ k` bits are clear
      have hshift : (m <<< 2 ^ k).toNat = m.toNat * 2 ^ 2 ^ k := by
        rw [BitVec.toNat_shiftLeft, Nat.shiftLeft_eq, Nat.mod_eq_of_lt]
        calc m.toNat * 2 ^ 2 ^ k < 2 ^ (w - 2 ^ k) * 2 ^ 2 ^ k := by gcongr
          _ = 2 ^ w := by rw [← pow_add, Nat.sub_add_cancel (by omega)]
      have hlow : 2 ^ (w - 2 ^ k) ≤ (m <<< 2 ^ k).toNat := by
        rw [hshift]
        calc 2 ^ (w - 2 ^ k) = 2 ^ (w - 2 ^ k * 2) * 2 ^ 2 ^ k := by
              rw [← pow_add]
              congr 1
              omega
          _ ≤ m.toNat * 2 ^ 2 ^ k := by gcongr
      obtain ⟨s, m', hloop, hm', htop⟩ := ih (by omega) (m <<< 2 ^ k) (e - (2 ^ k : ℕ)) hlow
      refine ⟨2 ^ k + s, m', ?_, ?_, htop⟩
      · rw [hloop]
        congr 1
        push_cast
        ring
      · rw [hm', hshift, pow_add, Nat.mul_assoc]
    · next h =>
      rw [hzero, not_lt] at h
      exact ih (by omega) m e h

/-- Sign, exponent and fraction for an integer whose leading bit has been found. -/
theorem isInt_pack (sgn : Bool) {e a : ℕ} {x : U128} (he : 1 ≤ e) (he' : e ≤ 16495) (ha : 0 < a)
    (hx : x.toNat < 2 ^ 112) (h : a * 2 ^ (16495 - e) = 2 ^ 112 + x.toNat) :
    binary128.IsInt (if sgn then -a else a)
      (U128.mk x.x0 (sgnWord sgn ||| BitVec.ofInt 64 e <<< 48 ||| x.x1)).toBits.toNat := by
  have hx1 : x.x1 <<< 16 >>> 16 = x.x1 := by
    apply BitVec.eq_of_toNat_eq
    rw [U128.toNat] at hx
    rw [BitVec.toNat_ushiftRight, BitVec.toNat_shiftLeft, Nat.shiftLeft_eq,
      Nat.shiftRight_eq_div_pow]
    omega
  have hpack := pack_toNat sgn e (by omega) x
  rw [hx1, Nat.mod_eq_of_lt hx] at hpack
  have hcomm : sgnWord sgn ||| BitVec.ofInt 64 e <<< 48 ||| x.x1 =
      x.x1 ||| BitVec.ofInt 64 e <<< 48 ||| sgnWord sgn := by
    rw [BitVec.or_comm _ x.x1, BitVec.or_comm (sgnWord sgn), BitVec.or_assoc]
  rw [hcomm, hpack]
  have hlt : e * 2 ^ 112 + x.toNat < 2 ^ 127 := by omega
  have hmagBits : binary128.magBits (sgn.toNat * 2 ^ 127 + (e * 2 ^ 112 + x.toNat)) =
      e * 2 ^ 112 + x.toNat := by
    have hdef (b : ℕ) : binary128.magBits b = b % 2 ^ 127 := rfl
    rw [hdef]
    omega
  have hneg : binary128.neg (sgn.toNat * 2 ^ 127 + (e * 2 ^ 112 + x.toNat)) = sgn := by
    have hiff := neg_iff (sgn.toNat * 2 ^ 127 + (e * 2 ^ 112 + x.toNat))
    cases sgn with
    | false => exact Bool.eq_false_iff.2 fun h => absurd (hiff.1 h) (by simp; omega)
    | true => exact hiff.2 (by simp)
  have hmag : binary128.mag (e * 2 ^ 112 + x.toNat) = a := by
    have hq : binary128.quantum e = -((16495 - e : ℕ) : ℤ) := by
      simp only [Format.quantum, Format.bias, binary128]
      omega
    have hcast : (2 : ℚ) ^ 112 + x.toNat = a * 2 ^ (16495 - e) := by exact_mod_cast h.symm
    have hsplit := binary128.mag_split e x.toNat hx
    rw [if_neg (by omega)] at hsplit
    refine hsplit.trans ?_
    rw [hq, zpow_neg, zpow_natCast]
    have hfrac : (2 : ℚ) ^ binary128.fracBits = 2 ^ 112 := rfl
    rw [hfrac, hcast, mul_assoc, mul_inv_cancel₀ (by positivity), mul_one]
  refine ⟨?_, ?_, ?_⟩
  · have hinf : binary128.infBits = 32767 * 2 ^ 112 := rfl
    rw [Format.isFinite, hmagBits, hinf]
    omega
  · rw [Format.value, hneg, hmagBits, hmag]
    cases sgn <;> simp
  · rw [hneg]
    cases sgn with
    | false => exact (decide_eq_false (by simp)).symm
    | true => exact (decide_eq_true (by simpa using ha)).symm

/-- The loop over all bits of a value that is not zero. -/
theorem leadLoop_all {k : ℕ} {a : BitVec (2 ^ k)} (ha : a ≠ 0#(2 ^ k)) (e : ℤ) :
    ∃ (s : ℕ) (m : BitVec (2 ^ k)), leadLoop k (a, e) = (m, e - s) ∧
      m.toNat = a.toNat * 2 ^ s ∧ 2 ^ (2 ^ k - 1) ≤ m.toNat ∧ s < 2 ^ k ∧ 0 < a.toNat := by
  have hpos : 0 < a.toNat := by
    rw [Nat.pos_iff_ne_zero, ne_eq, ← BitVec.toNat_inj] at *
    exact ha
  obtain ⟨s, m, hloop, hm, htop⟩ := leadLoop_spec k (le_refl _) a e (by
    rw [Nat.sub_self, pow_zero]
    exact hpos)
  refine ⟨s, m, hloop, hm, htop, ?_, hpos⟩
  have hle : 2 ^ s ≤ m.toNat := by
    rw [hm]
    exact Nat.le_mul_of_pos_left _ hpos
  exact (Nat.pow_lt_pow_iff_right (by decide)).1 (hle.trans_lt m.isLt)

theorem float32_isInt (sgn : Bool) {a : BitVec 32} (ha : a ≠ 0#32) :
    binary128.IsInt (if sgn then -a.toNat else a.toNat) (float32 sgn a).toNat := by
  obtain ⟨s, m, hloop, hm, htop, hs, hpos⟩ := leadLoop_all (k := 5) ha 16414
  have hlt : m.toNat < 2 ^ 32 := m.isLt
  have hx : (U128.mk 0#64 ((m <<< 1).setWidth 64 <<< 16)).toNat = (m.toNat - 2 ^ 31) * 2 ^ 81 := by
    rw [U128.toNat, BitVec.toNat_shiftLeft, BitVec.toNat_setWidth, BitVec.toNat_shiftLeft,
      Nat.shiftLeft_eq, Nat.shiftLeft_eq]
    simp only [BitVec.toNat_ofNat]
    omega
  have hexp : (16414 : ℤ) - s = (16414 - s : ℕ) := by omega
  rw [float32, hloop, hexp]
  refine isInt_pack sgn (x := ⟨0#64, (m <<< 1).setWidth 64 <<< 16⟩) (by omega) (by omega) hpos
    (by rw [hx]; omega) ?_
  have hshift : 16495 - (16414 - s) = s + 81 := by omega
  rw [hx, hshift, pow_add, ← Nat.mul_assoc, ← hm]
  omega

theorem float64_isInt (sgn : Bool) {a : BitVec 64} (ha : a ≠ 0#64) :
    binary128.IsInt (if sgn then -a.toNat else a.toNat) (float64 sgn a).toNat := by
  obtain ⟨s, m, hloop, hm, htop, hs, hpos⟩ := leadLoop_all (k := 6) ha 16446
  have hlt : m.toNat < 2 ^ 64 := m.isLt
  have hx : (U128.mk (m <<< 49) (m <<< 1 >>> 16)).toNat = (m.toNat - 2 ^ 63) * 2 ^ 49 := by
    rw [U128.toNat, BitVec.toNat_shiftLeft, BitVec.toNat_ushiftRight, BitVec.toNat_shiftLeft,
      Nat.shiftLeft_eq, Nat.shiftLeft_eq, Nat.shiftRight_eq_div_pow]
    omega
  have hexp : (16446 : ℤ) - s = (16446 - s : ℕ) := by omega
  rw [float64, hloop, hexp]
  refine isInt_pack sgn (x := ⟨m <<< 49, m <<< 1 >>> 16⟩) (by omega) (by omega) hpos
    (by rw [hx]; omega) ?_
  have hshift : 16495 - (16446 - s) = s + 49 := by omega
  rw [hx, hshift, pow_add, ← Nat.mul_assoc, ← hm]
  omega

theorem slt_zero {w : ℕ} (a : BitVec w) : a.slt 0#w = decide (a.toInt < 0) := by
  rw [BitVec.slt_eq_decide, BitVec.toInt_zero]

/-- The magnitude of a negative number. -/
theorem toNat_neg_of_lt {w : ℕ} {a : BitVec w} (h : a.toInt < 0) : ((-a).toNat : ℤ) = -a.toInt := by
  have hlt := a.isLt
  rw [BitVec.toInt_eq_toNat_cond] at h ⊢
  rw [BitVec.toNat_neg]
  split at h
  · omega
  · next hge =>
    rw [if_neg hge, Nat.mod_eq_of_lt (by omega)]
    push_cast [hlt.le]
    ring

theorem isInt_zero : binary128.IsInt 0 0 where
  finite := by decide
  value := by
    have hneg : binary128.neg 0 = false := by decide
    have hmag : binary128.magBits 0 = 0 := by decide
    rw [Format.value, hneg, hmag, Format.mag_zero]
    rfl
  sign := by decide

/-- A signed integer is converted by its magnitude. -/
theorem isInt_signed {w : ℕ} {f : Bool → BitVec w → BitVec 128} (hf : ∀ sgn a, a ≠ 0#w →
      binary128.IsInt (if sgn then -a.toNat else a.toNat) (f sgn a).toNat) (a : BitVec w) :
    binary128.IsInt a.toInt
      (if a = 0#w then 0#128 else if a.slt 0#w then f true (-a) else f false a).toNat := by
  split
  · next h =>
    rw [h, BitVec.toInt_zero]
    exact isInt_zero
  · next h =>
    rw [slt_zero]
    split
    · next hneg =>
      have hne : -a ≠ 0#w := by simpa using h
      have hint := hf true (-a) hne
      rw [if_pos rfl, toNat_neg_of_lt (of_decide_eq_true hneg), neg_neg] at hint
      exact hint
    · next hneg =>
      have hge : 0 ≤ a.toInt := not_lt.1 fun hlt => hneg (decide_eq_true hlt)
      have hint := hf false a h
      rw [if_neg Bool.false_ne_true, ← BitVec.toInt_eq_toNat_of_lt (BitVec.toInt_pos_iff.1 hge)]
        at hint
      exact hint

theorem isInt_unsigned {w : ℕ} {f : Bool → BitVec w → BitVec 128} (hf : ∀ sgn a, a ≠ 0#w →
      binary128.IsInt (if sgn then -a.toNat else a.toNat) (f sgn a).toNat) (a : BitVec w) :
    binary128.IsInt a.toNat (if a = 0#w then 0#128 else f false a).toNat := by
  split
  · next h =>
    rw [h, BitVec.toNat_ofNat, Nat.zero_mod]
    exact isInt_zero
  · next h => exact hf false a h

theorem floatsitf_isInt (a : BitVec 32) : binary128.IsInt a.toInt (floatsitf a).toNat :=
  isInt_signed (fun sgn _ => float32_isInt sgn) a

theorem floatditf_isInt (a : BitVec 64) : binary128.IsInt a.toInt (floatditf a).toNat :=
  isInt_signed (fun sgn _ => float64_isInt sgn) a

theorem floatunsitf_isInt (a : BitVec 32) : binary128.IsInt a.toNat (floatunsitf a).toNat :=
  isInt_unsigned (fun sgn _ => float32_isInt sgn) a

theorem floatunditf_isInt (a : BitVec 64) : binary128.IsInt a.toNat (floatunditf a).toNat :=
  isInt_unsigned (fun sgn _ => float64_isInt sgn) a

end Float

/-! ## There and back -/

section RoundTrip

theorem fixtfsi_floatsitf (a : BitVec 32) : fixtfsi (floatsitf a) = a := by
  have hlo := a.le_two_mul_toInt
  have hhi := a.two_mul_toInt_lt
  apply BitVec.eq_of_toInt_eq
  rw [fixtfsi_toInt]
  exact (floatsitf_isInt a).toInt_eq (by omega) (by omega)

theorem fixtfdi_floatditf (a : BitVec 64) : fixtfdi (floatditf a) = a := by
  have hlo := a.le_two_mul_toInt
  have hhi := a.two_mul_toInt_lt
  apply BitVec.eq_of_toInt_eq
  rw [fixtfdi_toInt]
  exact (floatditf_isInt a).toInt_eq (by omega) (by omega)

theorem fixunstfsi_floatunsitf (a : BitVec 32) : fixunstfsi (floatunsitf a) = a := by
  have hlt := a.isLt
  apply BitVec.eq_of_toNat_eq
  have hfix := fixunstfsi_toNat (floatunsitf a)
  rw [(floatunsitf_isInt a).toInt_eq (by omega) (by omega)] at hfix
  exact_mod_cast hfix

theorem fixunstfdi_floatunditf (a : BitVec 64) : fixunstfdi (floatunditf a) = a := by
  have hlt := a.isLt
  apply BitVec.eq_of_toNat_eq
  have hfix := fixunstfdi_toNat (floatunditf a)
  rw [(floatunditf_isInt a).toInt_eq (by omega) (by omega)] at hfix
  exact_mod_cast hfix

end RoundTrip

/-- **The conversions between `long double` and integers.** From an integer the result is exactly
that integer; to an integer it is the integer part, or the nearest bound; and there and back again
no integer changes. -/
theorem integer_conversions :
    (∀ a : BitVec 32, binary128.IsInt a.toInt (floatsitf a).toNat) ∧
    (∀ a : BitVec 64, binary128.IsInt a.toInt (floatditf a).toNat) ∧
    (∀ a : BitVec 32, binary128.IsInt a.toNat (floatunsitf a).toNat) ∧
    (∀ a : BitVec 64, binary128.IsInt a.toNat (floatunditf a).toNat) ∧
    (∀ x : BitVec 128, ¬ binary128.isNaN x.toNat →
      (fixtfsi x).toInt = binary128.toInt (-2 ^ 31) (2 ^ 31 - 1) x.toNat ∧
      (fixtfdi x).toInt = binary128.toInt (-2 ^ 63) (2 ^ 63 - 1) x.toNat ∧
      (fixunstfsi x).toNat = binary128.toInt 0 (2 ^ 32 - 1) x.toNat ∧
      (fixunstfdi x).toNat = binary128.toInt 0 (2 ^ 64 - 1) x.toNat) ∧
    (∀ a : BitVec 32, fixtfsi (floatsitf a) = a ∧ fixunstfsi (floatunsitf a) = a) ∧
    (∀ a : BitVec 64, fixtfdi (floatditf a) = a ∧ fixunstfdi (floatunditf a) = a) :=
  ⟨floatsitf_isInt, floatditf_isInt, floatunsitf_isInt, floatunditf_isInt,
    fun x _ => ⟨fixtfsi_toInt x, fixtfdi_toInt x, fixunstfsi_toNat x, fixunstfdi_toNat x⟩,
    fun a => ⟨fixtfsi_floatsitf a, fixunstfsi_floatunsitf a⟩,
    fun a => ⟨fixtfdi_floatditf a, fixunstfdi_floatunditf a⟩⟩

end TccRiscv64.Lib
