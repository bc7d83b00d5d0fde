import TccRiscv64.Ieee.Format

set_option autoImplicit false

/-! # The 80-bit extended format

The double extended format stores the integer bit of the significand: 64 significand bits, 15
exponent bits and the sign, with the bias of `binary128`. Every finite number of the format is a
number of `binary128`; `toBinary128` is its magnitude there. -/

namespace TccRiscv64.Ieee

namespace Extended

/-- The 64-bit significand, integer bit included. -/
def significand (b : ℕ) : ℕ := b % 2 ^ 64

/-- The biased exponent. -/
def exponent (b : ℕ) : ℕ := b / 2 ^ 64 % 2 ^ 15

/-- The sign bit. -/
def neg (b : ℕ) : Bool := decide (b / 2 ^ 79 % 2 = 1)

/-- A finite number in the encoding that arithmetic produces: the integer bit is set exactly in
the normal numbers. -/
def isFinite (b : ℕ) : Prop :=
  exponent b < 2 ^ 15 - 1 ∧ (2 ^ 63 ≤ significand b ↔ 0 < exponent b)

instance (b : ℕ) : Decidable (isFinite b) := inferInstanceAs (Decidable (_ ∧ _))

/-- The magnitude of a finite number. -/
def mag (b : ℕ) : ℚ := significand b * 2 ^ (max (exponent b : ℤ) 1 - 16383 - 63)

/-- The signed value of a finite number. -/
def value (b : ℕ) : ℚ := if neg b then -mag b else mag b

/-- The magnitude bits of the same number in `binary128`. -/
def toBinary128 (b : ℕ) : ℕ := exponent b * 2 ^ 112 + significand b % 2 ^ 63 * 2 ^ 49

/-- The conversion to `binary128` is exact. -/
theorem mag_toBinary128 {b : ℕ} (h : isFinite b) : binary128.mag (toBinary128 b) = mag b := by
  have hsig : significand b < 2 ^ 64 := Nat.mod_lt _ (by norm_num)
  have hfrac : significand b % 2 ^ 63 * 2 ^ 49 < 2 ^ binary128.fracBits := by
    have : significand b % 2 ^ 63 < 2 ^ 63 := Nat.mod_lt _ (by norm_num)
    simp only [binary128]
    omega
  have hquantum : binary128.quantum (exponent b) = max (exponent b : ℤ) 1 - 16383 - 63 - 49 := by
    simp only [Format.quantum, Format.bias, binary128]
    norm_num
    ring
  have hscale : ∀ q : ℤ, (2 : ℚ) ^ (q - 49) * 2 ^ 49 = 2 ^ q := by
    intro q
    rw [zpow_sub₀ (by norm_num)]
    norm_num
  rw [toBinary128, show (2 : ℕ) ^ 112 = 2 ^ binary128.fracBits from rfl,
    binary128.mag_split _ _ hfrac, mag, hquantum, ← hscale (max (exponent b : ℤ) 1 - 16383 - 63)]
  by_cases he : exponent b = 0
  · have hlow : significand b < 2 ^ 63 := by
      have := h.2
      omega
    rw [if_pos he, Nat.mod_eq_of_lt hlow]
    push_cast
    ring
  · have hhigh : 2 ^ 63 ≤ significand b := h.2.2 (by omega)
    have hsplit : significand b = 2 ^ 63 + significand b % 2 ^ 63 := by omega
    have hcast : (significand b : ℚ) = 2 ^ 63 + (significand b % 2 ^ 63 : ℕ) := by
      exact_mod_cast congrArg (Nat.cast (R := ℚ)) hsplit
    rw [if_neg he, hcast]
    simp only [binary128]
    push_cast
    ring

end Extended

end TccRiscv64.Ieee
