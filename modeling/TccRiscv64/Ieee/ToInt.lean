import TccRiscv64.Ieee.Order

set_option autoImplicit false

/-! # Conversion to integers

A number is converted to an integer by cutting off its fraction; what does not fit becomes the
nearest bound. -/

namespace TccRiscv64.Ieee

/-- The integer part. -/
def towardZero (x : ℚ) : ℤ := if x < 0 then ⌈x⌉ else ⌊x⌋

theorem towardZero_intCast (n : ℤ) : towardZero n = n := by
  unfold towardZero
  split
  · exact Int.ceil_intCast n
  · exact Int.floor_intCast n

theorem towardZero_neg {x : ℚ} (h : 0 ≤ x) : towardZero (-x) = -⌊x⌋ := by
  unfold towardZero
  split
  · exact Int.ceil_neg
  · next hneg =>
    have hzero : x = 0 := by linarith
    rw [hzero, neg_zero, Int.floor_zero, neg_zero]

theorem towardZero_of_nonneg {x : ℚ} (h : 0 ≤ x) : towardZero x = ⌊x⌋ := if_neg (not_lt.2 h)

/-- `n`, if it lies between the bounds, and the nearest bound otherwise. -/
def clamp (lo hi n : ℤ) : ℤ := max lo (min hi n)

theorem clamp_of_mem {lo hi n : ℤ} (hlo : lo ≤ n) (hhi : n ≤ hi) : clamp lo hi n = n := by
  rw [clamp, min_eq_right hhi, max_eq_right hlo]

theorem clamp_of_ge {lo hi n : ℤ} (hle : lo ≤ hi) (h : hi ≤ n) : clamp lo hi n = hi := by
  rw [clamp, min_eq_left h, max_eq_right hle]

theorem clamp_of_le {lo hi n : ℤ} (h : n ≤ lo) : clamp lo hi n = lo := by
  rw [clamp]
  exact max_eq_left ((min_le_right hi n).trans h)

namespace Format

variable (F : Format)

/-- The integer that a number is converted to. -/
def toInt (lo hi : ℤ) (b : ℕ) : ℤ :=
  if F.isInf b then if F.neg b then lo else hi
  else clamp lo hi (towardZero (F.value b))

/-- The integer part of the magnitude, with the sign. -/
def signedFloor (b : ℕ) : ℤ :=
  if F.neg b then -⌊F.mag (F.magBits b)⌋ else ⌊F.mag (F.magBits b)⌋

variable {F}

/-- Infinities are beyond all bounds, as the number that their encodings would stand for is. -/
theorem toInt_eq_clamp {lo hi : ℤ} (hle : lo ≤ hi) (hlo : -(F.mag F.infBits) ≤ lo)
    (hhi : hi ≤ F.mag F.infBits) (b : ℕ) : F.toInt lo hi b = clamp lo hi (F.signedFloor b) := by
  unfold toInt signedFloor
  by_cases hinf : F.isInf b
  · have hmag : F.magBits b = F.infBits := hinf
    rw [if_pos hinf, hmag]
    split
    · refine (clamp_of_le ?_).symm
      have hfloor : -lo ≤ ⌊F.mag F.infBits⌋ := by
        rw [Int.le_floor]
        push_cast
        linarith
      omega
    · exact (clamp_of_ge hle (Int.le_floor.2 hhi)).symm
  · rw [if_neg hinf, value]
    split
    · rw [towardZero_neg (F.mag_nonneg _)]
    · rw [towardZero_of_nonneg (F.mag_nonneg _)]

/-- The encoding stands for exactly the integer `n`; zero is positive. -/
structure IsInt (F : Format) (n : ℤ) (b : ℕ) : Prop where
  finite : F.isFinite b
  value : F.value b = n
  sign : F.neg b = decide (n < 0)

theorem IsInt.toInt_eq {n : ℤ} {b : ℕ} (h : F.IsInt n b) {lo hi : ℤ} (hlo : lo ≤ n)
    (hhi : n ≤ hi) : F.toInt lo hi b = n := by
  have hinf : ¬ F.isInf b := h.finite.ne
  rw [toInt, if_neg hinf, h.value, towardZero_intCast, clamp_of_mem hlo hhi]

end Format

end TccRiscv64.Ieee
