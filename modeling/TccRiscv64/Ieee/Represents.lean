import TccRiscv64.Ieee.Convert

set_option autoImplicit false

/-! # The numbers of a format

Each magnitude can be rounded, and a magnitude rounds to a number that has the same value exactly if
the format has such a number. -/

namespace TccRiscv64.Ieee.Format

variable {F : Format}

/-- Each magnitude can be rounded. -/
theorem exists_roundsTo {x : ℚ} (hx : 0 ≤ x) : ∃ n, F.RoundsTo x n := by
  classical
  by_cases hbig : F.mag F.infBits ≤ x
  · exact ⟨_, roundsTo_infBits hbig⟩
  · have hlt : x < F.mag F.infBits := not_le.1 hbig
    have hex : ∃ n, x < F.mag n := ⟨_, hlt⟩
    have hspec := Nat.find_spec hex
    obtain ⟨n, hn⟩ : ∃ n, Nat.find hex = n + 1 := by
      refine Nat.exists_eq_succ_of_ne_zero fun h0 => ?_
      rw [h0, mag_zero] at hspec
      exact absurd hx (not_le.2 hspec)
    have hlo : F.mag n ≤ x := not_lt.1 (Nat.find_min hex (by omega))
    have hinf : n < F.infBits := by
      have := Nat.find_min' hex hlt
      omega
    rw [hn] at hspec
    rcases lt_trichotomy (2 * x) (F.mag n + F.mag (n + 1)) with h | h | h
    · exact ⟨n, roundsTo_of_bracket hinf hlo hspec.le (.inl ⟨rfl, .inl h⟩)⟩
    · rcases Nat.even_or_odd n with he | ho
      · exact ⟨n, roundsTo_of_bracket hinf hlo hspec.le (.inl ⟨rfl, .inr ⟨h, he⟩⟩)⟩
      · exact ⟨n + 1, roundsTo_of_bracket hinf hlo hspec.le (.inr ⟨rfl, .inr ⟨h, ho.add_one⟩⟩)⟩
    · exact ⟨n + 1, roundsTo_of_bracket hinf hlo hspec.le (.inr ⟨rfl, .inl h⟩)⟩

/-- A number of the format. -/
def Represents (F : Format) (x : ℚ) : Prop := ∃ n < F.infBits, F.mag n = x

/-- Each magnitude is a significand with a power of two. -/
theorem mag_eq_significand (n : ℕ) :
    ∃ k : ℤ, F.significand n < 2 ^ (F.fracBits + 1) ∧ F.mag n = F.significand n * 2 ^ k := by
  refine ⟨_, ?_, rfl⟩
  have hlt : n % 2 ^ F.fracBits < 2 ^ F.fracBits := Nat.mod_lt _ (by positivity)
  rw [significand, pow_succ]
  split <;> omega

/-- The natural numbers with at most 53 bits, shifted, are `double`s. -/
theorem binary64_represents {s j : ℕ} (hs : s < 2 ^ 53) (hj : j ≤ 64) :
    binary64.Represents (s * 2 ^ j) := by
  rcases Nat.eq_zero_or_pos s with rfl | hpos
  · exact ⟨0, by decide, by simp⟩
  · have hsize : s.size ≤ 53 := Nat.size_le.2 hs
    have hlo : 2 ^ (s.size - 1) ≤ s := Nat.lt_size.1 (by have := Nat.size_pos.2 hpos; omega)
    have hhi : s < 2 ^ s.size := Nat.lt_size_self s
    have hsize1 : 1 ≤ s.size := Nat.size_pos.2 hpos
    -- the significand with its leading bit in place
    have hscale : s * 2 ^ (53 - s.size) < 2 ^ 53 := by
      calc s * 2 ^ (53 - s.size) < 2 ^ s.size * 2 ^ (53 - s.size) :=
            Nat.mul_lt_mul_of_pos_right hhi (by positivity)
        _ = 2 ^ 53 := by rw [← pow_add, Nat.add_sub_cancel' hsize]
    have hlead : 2 ^ 52 ≤ s * 2 ^ (53 - s.size) := by
      calc 2 ^ 52 = 2 ^ (s.size - 1) * 2 ^ (53 - s.size) := by
            rw [← pow_add]
            congr 1
            omega
        _ ≤ s * 2 ^ (53 - s.size) := Nat.mul_le_mul_right _ hlo
    refine ⟨(1021 + j + s.size) * 2 ^ 52 + s * 2 ^ (53 - s.size), ?_, ?_⟩
    · have hinf : binary64.infBits = 2047 * 2 ^ 52 := rfl
      rw [hinf]
      omega
    · have hpack := mag_pack binary64 (e := 1021 + j + s.size) hscale fun _ => hlead
      rw [show binary64.fracBits = 52 from rfl] at hpack
      rw [hpack, show binary64.bias = 1023 from rfl]
      push_cast
      rw [mul_assoc, ← zpow_natCast, ← zpow_natCast, ← zpow_add₀ two_ne_zero]
      congr 2
      omega

/-- What a magnitude rounds to has its value exactly if some number has. -/
theorem mag_of_roundsTo_iff {x : ℚ} {n : ℕ} (h : F.RoundsTo x n) (hx : x < F.mag F.infBits) :
    F.mag n = x ↔ F.Represents x := by
  constructor
  · intro heq
    rw [← heq] at hx
    exact ⟨n, F.mag_strictMono.lt_iff_lt.1 hx, heq⟩
  · rintro ⟨k, hk, rfl⟩
    rw [h.unique (roundsTo_mag hk.le)]

end TccRiscv64.Ieee.Format
