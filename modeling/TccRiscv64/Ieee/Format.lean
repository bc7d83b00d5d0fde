import Mathlib

set_option autoImplicit false

/-! # Binary floating-point formats and round-to-nearest-even

A parameterised account of the IEEE 754 binary interchange formats, over `ℚ`. A format is given by
the number of stored fraction bits and of exponent bits; an encoding is the natural number its bit
string denotes. Dropping the sign bit leaves the *magnitude bits* `n = exponent · 2^fracBits +
fraction`, and the order of these numbers is the order of the magnitudes they encode: this is
what makes rounding a statement about two neighbouring naturals (`roundsTo_of_bracket`). -/

namespace TccRiscv64.Ieee

/-- A binary interchange format: stored fraction bits and exponent bits. -/
structure Format where
  fracBits : ℕ
  expBits : ℕ

/-- The format of `float`. -/
def binary32 : Format := ⟨23, 8⟩

/-- The format of `double`. -/
def binary64 : Format := ⟨52, 11⟩

/-- The format of `long double` on riscv64. -/
def binary128 : Format := ⟨112, 15⟩

namespace Format

variable (F : Format)

/-- The exponent bias `2^(expBits - 1) - 1`. -/
def bias : ℤ := 2 ^ (F.expBits - 1) - 1

/-- Magnitude bits of infinity: all exponent bits set, fraction zero. -/
def infBits : ℕ := (2 ^ F.expBits - 1) * 2 ^ F.fracBits

/-- The sign bit's weight, i.e. the number of magnitude encodings. -/
def signBit : ℕ := 2 ^ F.expBits * 2 ^ F.fracBits

/-- Weight (as a power of two) of the last fraction bit of encodings with exponent field `e`.
    Subnormals (`e = 0`) share the weight of the smallest normal binade. -/
def quantum (e : ℕ) : ℤ := max (e : ℤ) 1 - F.bias - F.fracBits

/-- The integer significand: the fraction, with the hidden bit of a normal number. -/
def significand (n : ℕ) : ℕ :=
  if n / 2 ^ F.fracBits = 0 then n % 2 ^ F.fracBits else 2 ^ F.fracBits + n % 2 ^ F.fracBits

/-- The magnitude encoded by `n`. At `infBits` this is the value the next binade would start
    with, `2^(emax + 1)`, which is what overflow is measured against. -/
def mag (n : ℕ) : ℚ := F.significand n * 2 ^ F.quantum (n / 2 ^ F.fracBits)

/-! ## Reading a full encoding -/

/-- The sign bit of an encoding. -/
def neg (b : ℕ) : Bool := decide (F.signBit ≤ b)

/-- The encoding without its sign bit. -/
def magBits (b : ℕ) : ℕ := b % F.signBit

/-- All exponent bits set and a nonzero fraction. -/
def isNaN (b : ℕ) : Prop := F.infBits < F.magBits b

def isInf (b : ℕ) : Prop := F.magBits b = F.infBits

def isFinite (b : ℕ) : Prop := F.magBits b < F.infBits

instance (b : ℕ) : Decidable (F.isNaN b) := inferInstanceAs (Decidable (_ < _))
instance (b : ℕ) : Decidable (F.isInf b) := inferInstanceAs (Decidable (_ = _))
instance (b : ℕ) : Decidable (F.isFinite b) := inferInstanceAs (Decidable (_ < _))

/-- The signed value of a finite encoding. -/
def value (b : ℕ) : ℚ := if F.neg b then -F.mag (F.magBits b) else F.mag (F.magBits b)

/-! ## Magnitudes are ordered like their encodings -/

theorem mag_split (e f : ℕ) (hf : f < 2 ^ F.fracBits) :
    F.mag (e * 2 ^ F.fracBits + f)
      = (if e = 0 then (f : ℚ) else 2 ^ F.fracBits + f) * 2 ^ F.quantum e := by
  have hpos : 0 < 2 ^ F.fracBits := by positivity
  have hdiv : (e * 2 ^ F.fracBits + f) / 2 ^ F.fracBits = e := by
    rw [Nat.mul_comm, Nat.mul_add_div hpos, Nat.div_eq_of_lt hf, Nat.add_zero]
  have hmod : (e * 2 ^ F.fracBits + f) % 2 ^ F.fracBits = f := by
    rw [Nat.mul_comm, Nat.mul_add_mod, Nat.mod_eq_of_lt hf]
  unfold mag significand
  rw [hdiv, hmod]
  split <;> push_cast <;> rfl

/-- Consecutive encodings differ by one unit in the last place. -/
theorem mag_succ (n : ℕ) :
    F.mag (n + 1) = F.mag n + 2 ^ F.quantum (n / 2 ^ F.fracBits) := by
  have hpos : 0 < 2 ^ F.fracBits := by positivity
  obtain ⟨e, f, hf, rfl⟩ : ∃ e f, f < 2 ^ F.fracBits ∧ n = e * 2 ^ F.fracBits + f :=
    ⟨n / 2 ^ F.fracBits, n % 2 ^ F.fracBits, Nat.mod_lt _ hpos, (Nat.div_add_mod' _ _).symm⟩
  have hdiv : (e * 2 ^ F.fracBits + f) / 2 ^ F.fracBits = e := by
    rw [Nat.mul_comm, Nat.mul_add_div hpos, Nat.div_eq_of_lt hf, Nat.add_zero]
  rw [hdiv, F.mag_split e f hf]
  rcases Nat.lt_or_ge (f + 1) (2 ^ F.fracBits) with hlt | hge
  · rw [Nat.add_assoc, F.mag_split e (f + 1) hlt]
    split <;> push_cast <;> ring
  · -- the fraction overflows: the next encoding starts the next binade
    have hf1 : f + 1 = 2 ^ F.fracBits := by omega
    have hnext : e * 2 ^ F.fracBits + f + 1 = (e + 1) * 2 ^ F.fracBits + 0 := by
      rw [Nat.add_assoc, hf1]; ring
    have hfq : (f : ℚ) = 2 ^ F.fracBits - 1 := by
      have : ((f + 1 : ℕ) : ℚ) = 2 ^ F.fracBits := by rw [hf1]; push_cast; rfl
      push_cast at this; linarith
    rw [hnext, F.mag_split (e + 1) 0 hpos, if_neg (Nat.succ_ne_zero e), hfq]
    by_cases he : e = 0
    · subst he
      have hq : F.quantum (0 + 1) = F.quantum 0 := by simp [quantum]
      rw [if_pos rfl, hq]; push_cast; ring
    · have hq : F.quantum (e + 1) = F.quantum e + 1 := by
        unfold quantum
        have h1 : (1 : ℤ) ≤ e := by omega
        push_cast
        rw [max_eq_left (by omega), max_eq_left h1]; ring
      rw [if_neg he, hq, zpow_add_one₀ (by norm_num : (2 : ℚ) ≠ 0)]; push_cast; ring

theorem mag_strictMono : StrictMono F.mag := by
  apply strictMono_nat_of_lt_succ
  intro n
  rw [F.mag_succ n]
  have : (0 : ℚ) < 2 ^ F.quantum (n / 2 ^ F.fracBits) := by positivity
  linarith

@[simp] theorem mag_zero : F.mag 0 = 0 := by
  simp [mag, significand]

theorem mag_nonneg (n : ℕ) : 0 ≤ F.mag n := by
  have := F.mag_strictMono.monotone (Nat.zero_le n)
  simpa using this

theorem mag_eq_zero_iff {n : ℕ} : F.mag n = 0 ↔ n = 0 := by
  rw [← F.mag_zero]; exact F.mag_strictMono.injective.eq_iff

/-! ## Round to nearest, ties to even -/

/-- `n` encodes the magnitude that the exact magnitude `x` rounds to under roundTiesToEven. The
    candidates are all finite magnitudes and infinity, the latter standing at `2^(emax + 1)`, so
    that `x` overflows exactly from half a unit above the largest finite number on. The last bit of
    `n` is the last bit of the fraction. -/
structure RoundsTo (x : ℚ) (n : ℕ) : Prop where
  le_inf : n ≤ F.infBits
  nearest : ∀ k ≤ F.infBits, |x - F.mag n| ≤ |x - F.mag k|
  tie_even : ∀ k ≤ F.infBits, k ≠ n → |x - F.mag k| = |x - F.mag n| → Even n

variable {F}

/-- A magnitude rounds to one encoding only. -/
theorem RoundsTo.unique {x : ℚ} {n k : ℕ} (hn : F.RoundsTo x n) (hk : F.RoundsTo x k) :
    n = k := by
  wlog hlt : n < k generalizing n k
  · rcases Nat.lt_or_eq_of_le (not_lt.mp hlt) with h | h
    · exact (this hk hn h).symm
    · exact h.symm
  exfalso
  have htie : |x - F.mag k| = |x - F.mag n| :=
    le_antisymm (hk.nearest n hn.le_inf) (hn.nearest k hk.le_inf)
  have hne : n ≠ k := by omega
  have hen : Even n := hn.tie_even k hk.le_inf hne.symm htie
  have hek : Even k := hk.tie_even n hn.le_inf hne htie.symm
  -- both even, so `n + 1` encodes a magnitude strictly between the two: it is closer
  have hbetween : n + 1 < k := by
    rcases hen with ⟨i, hi⟩
    rcases hek with ⟨j, hj⟩
    omega
  have h1 : F.mag n < F.mag (n + 1) := F.mag_strictMono (Nat.lt_succ_self n)
  have h2 : F.mag (n + 1) < F.mag k := F.mag_strictMono hbetween
  have hnear := hn.nearest (n + 1) (by have := hk.le_inf; omega)
  have hmid : x - F.mag n = F.mag k - x := by
    rcases abs_eq_abs.mp htie with h | h
    · linarith
    · linarith
  have hpos : 0 < x - F.mag n := by linarith
  rw [abs_of_pos hpos] at hnear
  rcases abs_cases (x - F.mag (n + 1)) with ⟨h, _⟩ | ⟨h, _⟩ <;> linarith

/-- Everything from `2^(emax + 1)` on rounds to infinity. -/
theorem roundsTo_infBits {x : ℚ} (hx : F.mag F.infBits ≤ x) : F.RoundsTo x F.infBits where
  le_inf := le_rfl
  nearest k hk := by
    have hmono := F.mag_strictMono.monotone hk
    rw [abs_of_nonneg (by linarith), abs_of_nonneg (by linarith)]
    linarith
  tie_even k hk hne htie := by
    have hlt := F.mag_strictMono (lt_of_le_of_ne hk hne)
    rw [abs_of_nonneg (by linarith), abs_of_nonneg (by linarith)] at htie
    linarith

/-- Rounding decided between two neighbouring encodings: `x` lies between the magnitudes of `n` and
    `n + 1`, and `r` is the closer of the two, or the even one when `x` is the midpoint. -/
theorem roundsTo_of_bracket {x : ℚ} {n r : ℕ} (hn : n < F.infBits)
    (hlo : F.mag n ≤ x) (hhi : x ≤ F.mag (n + 1))
    (hr : (r = n ∧ (2 * x < F.mag n + F.mag (n + 1) ∨
            (2 * x = F.mag n + F.mag (n + 1) ∧ Even n))) ∨
          (r = n + 1 ∧ (F.mag n + F.mag (n + 1) < 2 * x ∨
            (2 * x = F.mag n + F.mag (n + 1) ∧ Even (n + 1))))) :
    F.RoundsTo x r := by
  have below : ∀ k, k ≤ n → F.mag k ≤ F.mag n := fun k hk => F.mag_strictMono.monotone hk
  have above : ∀ k, n < k → F.mag (n + 1) ≤ F.mag k := fun k hk => F.mag_strictMono.monotone hk
  rcases hr with ⟨rfl, hclose⟩ | ⟨rfl, hclose⟩
  · refine ⟨by omega, ?_, ?_⟩
    · intro k _
      rw [abs_of_nonneg (by linarith : 0 ≤ x - F.mag r)]
      rcases Nat.lt_or_ge r k with h | h
      · have := above k h
        have h2 := neg_abs_le (x - F.mag k)
        rcases hclose with hc | ⟨hc, _⟩ <;> linarith
      · have := below k h
        have h2 := le_abs_self (x - F.mag k)
        linarith
    · intro k _ hne htie
      rw [abs_of_nonneg (by linarith : 0 ≤ x - F.mag r)] at htie
      rcases hclose with hc | ⟨_, he⟩
      · exfalso
        rcases Nat.lt_or_ge r k with h | h
        · have := above k h
          have h2 := neg_abs_le (x - F.mag k)
          linarith
        · have := F.mag_strictMono (lt_of_le_of_ne h hne)
          have h2 := le_abs_self (x - F.mag k)
          linarith
      · exact he
  · refine ⟨by omega, ?_, ?_⟩
    · intro k _
      rw [abs_of_nonpos (by linarith : x - F.mag (n + 1) ≤ 0)]
      rcases Nat.lt_or_ge n k with h | h
      · have := above k h
        have h2 := neg_abs_le (x - F.mag k)
        linarith
      · have := below k h
        have h2 := le_abs_self (x - F.mag k)
        rcases hclose with hc | ⟨hc, _⟩ <;> linarith
    · intro k _ hne htie
      rw [abs_of_nonpos (by linarith : x - F.mag (n + 1) ≤ 0)] at htie
      rcases hclose with hc | ⟨_, he⟩
      · exfalso
        rcases Nat.lt_or_ge n k with h | h
        · have := F.mag_strictMono (lt_of_le_of_ne h (Ne.symm hne))
          have h2 := neg_abs_le (x - F.mag k)
          linarith
        · have := below k h
          have h2 := le_abs_self (x - F.mag k)
          linarith
      · exact he

/-- A representable magnitude rounds to itself. -/
theorem roundsTo_mag {n : ℕ} (hn : n ≤ F.infBits) : F.RoundsTo (F.mag n) n where
  le_inf := hn
  nearest k _ := by simp
  tie_even k _ hne htie := by
    rw [sub_self, abs_zero, abs_eq_zero, sub_eq_zero] at htie
    exact absurd (F.mag_strictMono.injective htie).symm hne

end Format

end TccRiscv64.Ieee
