import TccRiscv64.Lib.F3Spec

set_option autoImplicit false

/-! # The contract of `f3_round`

`f3_round` is right for a significand with its top bit set, and for zero as long as the exponent is
not positive: the encoding of a positive exponent has the leading bit of a normal number, which zero
does not have. The routines handle zero before they round. -/

namespace TccRiscv64.Lib

open Ieee

theorem jam_zero (s : ℕ) : jam s 0 = 0 := by
  rw [jam, Nat.zero_div, Nat.zero_mod, if_pos rfl]
  rfl

/-- Zero stays zero where the number would be subnormal. -/
theorem f3Round_zero (sgn : Bool) {exp : ℤ} {x : U128} (hx : x.toNat = 0) (hexp : exp ≤ 0) :
    (f3Round sgn exp x).toNat = sgn.toNat * 2 ^ 127 := by
  obtain ⟨s, hs⟩ : ∃ s : ℕ, 14 - exp = s := ⟨(14 - exp).toNat, by omega⟩
  have hz : (f3StickyShift (14 - exp) x).toNat = 0 := by
    rw [hs, f3StickyShift_toNat, hx, jam_zero]
  rw [f3Round, if_neg (by omega)]
  have h := @f3RoundBits_spec sgn 0 (f3StickyShift (14 - exp) x) (by decide)
    (fun _ => by rw [hz]; decide) (fun h => absurd h (lt_irrefl 0))
  have hnone : preRound 0 (0 / 4) + roundUp 0 = 0 := by decide
  rwa [hz, hnone, Nat.add_zero] at h

/-- **The two building blocks.** The sticky shift is a division by a power of two that remembers in
the last bit whether anything was lost. `f3_round` encodes the magnitude `q · 2^(exp - 16510)`,
rounded to nearest even, where `x` is `q` with a sticky last bit and has its top bit set, or is zero
with an exponent that is not positive. -/
theorem f3Round_f3StickyShift_correct (sgn : Bool) (exp : ℤ) (sh : ℕ) (x : U128) :
    (f3StickyShift sh x).toNat =
        x.toNat / 2 ^ sh ||| (if x.toNat % 2 ^ sh = 0 then 0 else 1) ∧
      ((2 ^ 127 ≤ x.toNat ∨ (x.toNat = 0 ∧ exp ≤ 0)) → ∀ q : ℚ, Sticky x.toNat q →
        ∃ n, binary128.RoundsTo (q * 2 ^ (exp - 16510)) n ∧
          (f3Round sgn exp x).toNat = sgn.toNat * 2 ^ 127 + n) := by
  refine ⟨f3StickyShift_toNat sh x, ?_⟩
  rintro (hx | ⟨hx, hexp⟩) q hq
  · exact f3Round_spec sgn exp x (Nat.zero_le 13) hx (stickyAt_zero.2 hq)
  · have hzero := Format.roundsTo_mag (F := binary128) (Nat.zero_le _)
    rw [Format.mag_zero] at hzero
    rw [hq.eq_zero_iff.1 hx, zero_mul]
    exact ⟨0, hzero, (f3Round_zero sgn hx hexp).trans (Nat.add_zero _).symm⟩

theorem f3Round_f3StickyShift_correct_top :
    (f3StickyShift (1 : ℕ) ⟨3#64, 1#64 <<< 63⟩).toNat = 2 ^ 126 + 1 ∧
      ∃ n, binary128.RoundsTo ((2 ^ 127 + 3 : ℕ) * 2 ^ ((5 : ℤ) - 16510)) n ∧
        (f3Round true 5 ⟨3#64, 1#64 <<< 63⟩).toNat = true.toNat * 2 ^ 127 + n := by
  have h := f3Round_f3StickyShift_correct true 5 1 ⟨3#64, 1#64 <<< 63⟩
  exact ⟨h.1.trans (by decide), h.2 (.inl (by decide)) _ (.inl rfl)⟩

/-- With exponent 1, zero becomes the smallest normal number. -/
theorem f3Round_one_zero_not_roundsTo : Sticky (U128.mk 0#64 0#64).toNat 0 ∧
    ¬ ∃ n, binary128.RoundsTo (0 * 2 ^ ((1 : ℤ) - 16510)) n ∧
      (f3Round false 1 ⟨0#64, 0#64⟩).toNat = false.toNat * 2 ^ 127 + n := by
  have hcode : (f3Round false 1 ⟨0#64, 0#64⟩).toNat = 2 ^ 112 := by decide
  refine ⟨.inl rfl, ?_⟩
  rintro ⟨n, hround, hn⟩
  have hzero := Format.roundsTo_mag (F := binary128) (Nat.zero_le _)
  rw [Format.mag_zero] at hzero
  rw [zero_mul] at hround
  obtain rfl := hround.unique hzero
  rw [hcode] at hn
  exact absurd hn (by decide)

end TccRiscv64.Lib
