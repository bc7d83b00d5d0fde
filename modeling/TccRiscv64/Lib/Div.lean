import TccRiscv64.Lib.Mul

set_option autoImplicit false

/-! # `__divtf3`

A shift-and-subtract division over two limbs. The invariant of its loop relates the dividend,
scaled by the number of rounds, to quotient and remainder (`DivInv`); it bounds the remainder by
twice the divisor, so that no limb overflows, and after 116 rounds leaves a quotient of at least 115
bits, whose last bit takes the remainder as a sticky bit. -/

namespace TccRiscv64.Lib

open Ieee

theorem geLimbs_iff (a b : U128) : geLimbs a b = true ↔ b.toNat ≤ a.toNat := by
  have h0 := a.x0.isLt
  have h1 := b.x0.isLt
  simp only [geLimbs, U128.toNat, Bool.or_eq_true, Bool.and_eq_true, decide_eq_true_eq,
    beq_iff_eq, GT.gt, GE.ge, BitVec.lt_def, BitVec.le_def, ← BitVec.toNat_inj]
  omega

theorem subLimbs_toNat (a b : U128) (h : b.toNat ≤ a.toNat) :
    (subLimbs a b).toNat = a.toNat - b.toNat := by
  have := a.x0.isLt
  have := b.x0.isLt
  have := a.x1.isLt
  have := b.x1.isLt
  simp only [U128.toNat, subLimbs, BitVec.lt_def] at h ⊢
  split <;> simp only [BitVec.toNat_sub, BitVec.toNat_ofNat] at * <;> omega

/-- The loop invariant after `i` rounds dividing `n` by `d`: `s` is the doubled remainder and the
    quotient. -/
structure DivInv (n d i : ℕ) (s : U128 × U128) : Prop where
  scaled : n * 2 ^ i = 2 * s.2.toNat * d + s.1.toNat
  remainder : s.1.toNat < 2 * d
  quotient : s.2.toNat < 2 ^ i

theorem divStep_inv {n i : ℕ} {b : U128} {s : U128 × U128} (hb : b.toNat < 2 ^ 127)
    (hi : i < 127) (h : DivInv n b.toNat i s) : DivInv n b.toNat (i + 1) (divStep b s) := by
  obtain ⟨a, x⟩ := s
  obtain ⟨hscaled, hrem, hquot⟩ := h
  dsimp only at hscaled hrem hquot
  have hpow : 2 ^ i ≤ 2 ^ 126 := Nat.pow_le_pow_right (by decide) (by omega)
  have hx2 : (x.shl 1).toNat = x.toNat * 2 ^ 1 :=
    U128.toNat_shl_of_lt x (by decide) (by omega)
  unfold divStep
  dsimp only
  by_cases hge : b.toNat ≤ a.toNat
  · rw [if_pos ((geLimbs_iff a b).mpr hge)]
    dsimp only
    have hsub := subLimbs_toNat a b hge
    have ha2 : ((subLimbs a b).shl 1).toNat = (subLimbs a b).toNat * 2 ^ 1 :=
      U128.toNat_shl_of_lt _ (by decide) (by omega)
    have hor : (U128.mk ((x.shl 1).x0 ||| 1#64) (x.shl 1).x1).toNat = x.toNat * 2 ^ 1 + 1 := by
      have h := toNat_or_boolWord (x.shl 1) 1#64
      rw [if_neg (by decide), hx2, lor_one, if_pos (by omega)] at h
      exact h
    refine ⟨?_, ?_, ?_⟩
    · rw [hor, ha2, hsub, pow_succ, ← Nat.mul_assoc, hscaled]
      obtain ⟨r, hr⟩ := Nat.exists_eq_add_of_le hge
      rw [hr, Nat.add_sub_cancel_left]
      ring
    · rw [ha2, hsub]; omega
    · rw [hor, pow_succ]; omega
  · rw [if_neg (mt (geLimbs_iff a b).mp hge)]
    dsimp only
    have ha2 : (a.shl 1).toNat = a.toNat * 2 ^ 1 :=
      U128.toNat_shl_of_lt _ (by decide) (by omega)
    refine ⟨?_, ?_, ?_⟩
    · rw [hx2, ha2, pow_succ, ← Nat.mul_assoc, hscaled]
      ring
    · rw [ha2]; omega
    · rw [hx2, pow_succ]; omega

theorem divLoop_inv {n : ℕ} {b a : U128} (hb : b.toNat < 2 ^ 127) (ha : a.toNat = n)
    (hlt : n < 2 * b.toNat) (i : ℕ) (hi : i ≤ 126) :
    DivInv n b.toNat i (divLoop b i (a, ⟨0, 0⟩)) := by
  induction i with
  | zero =>
      refine ⟨?_, ?_, ?_⟩
      · simp [divLoop, U128.toNat, ← ha]
      · simp only [divLoop]; omega
      · simp [divLoop, U128.toNat]
  | succ i ih => exact divStep_inv hb (by omega) (ih (by omega))

/-- The quotient of two significands of equal length, with its sticky bit. -/
theorem divQuotient_spec {a b : U128} (ha : a.toNat < 2 ^ 127) (hb : b.toNat < 2 ^ 127)
    (ha' : 2 ^ 126 ≤ a.toNat) (hb' : 2 ^ 126 ≤ b.toNat) :
    Sticky (divQuotient a b).toNat (((a.toNat * 2 ^ 116 : ℕ) : ℚ) / ((2 * b.toNat : ℕ) : ℚ)) ∧
      2 ^ 114 ≤ (divQuotient a b).toNat := by
  have hinv := divLoop_inv hb rfl (by omega : a.toNat < 2 * b.toNat) 116 (by decide)
  unfold divQuotient
  generalize divLoop b 116 (a, ⟨0, 0⟩) = s at *
  obtain ⟨hscaled, hrem, hquot⟩ := hinv
  have hor := toNat_or_boolWord s.2 (s.1.x0 ||| s.1.x1)
  have hr0 : (s.1.x0 ||| s.1.x1).toNat = 0 ↔ s.1.toNat = 0 := by
    rw [← U128.isZero_iff, U128.isZero, beq_iff_eq, ← BitVec.toNat_inj]; rfl
  simp only [hr0] at hor
  have hq : 2 ^ 114 ≤ s.2.toNat := by
    by_contra hlt
    have h1 : s.2.toNat * (2 * b.toNat) ≤ (2 ^ 114 - 1) * (2 * b.toNat) :=
      Nat.mul_le_mul_right _ (by omega)
    have h2 : 2 * s.2.toNat * b.toNat = s.2.toNat * (2 * b.toNat) := by ring
    omega
  constructor
  · rw [hor]
    exact sticky_of_remainder (by omega) (by rw [hscaled]; ring) hrem
  · rw [hor]
    exact le_trans hq Nat.left_le_or

/-! ## The finite case -/

/-- `__divtf3` on finite nonzero operands. -/
theorem divFinite_spec (sgn : Bool) {na nb : ℕ} (hna : na ≠ 0) (hnb : nb ≠ 0) {a b : U128}
    (ha : a.toNat = binary128.significand na) (hb : b.toNat = binary128.significand nb) :
    binary128.Rounded sgn (binary128.mag na / binary128.mag nb)
      (divFinite sgn (unpackedExp na) a (unpackedExp nb) b).toNat := by
  obtain ⟨hma, htopA, hlowA⟩ := f3Normalise_mag hna ha
  obtain ⟨hmb, htopB, hlowB⟩ := f3Normalise_mag hnb hb
  unfold divFinite
  dsimp only
  generalize f3Normalise (unpackedExp na) a = x at *
  generalize f3Normalise (unpackedExp nb) b = y at *
  have hxlt := x.2.toNat_lt
  have hylt := y.2.toNat_lt
  have hshA : (x.2.shr 1).toNat = x.2.toNat / 2 ^ 1 := U128.toNat_shr _ (by decide)
  have hshB : (y.2.shr 1).toNat = y.2.toNat / 2 ^ 1 := U128.toNat_shr _ (by decide)
  obtain ⟨hsticky, hp⟩ := divQuotient_spec (a := x.2.shr 1) (b := y.2.shr 1) (by omega) (by omega)
    (by omega) (by omega)
  generalize divQuotient (x.2.shr 1) (y.2.shr 1) = p at *
  generalize (x.2.shr 1).toNat = A at *
  generalize (y.2.shr 1).toNat = B at *
  have hxA : x.2.toNat = A * 2 := by omega
  have hyB : y.2.toNat = B * 2 := by omega
  have hBQ : (B : ℚ) ≠ 0 := by exact_mod_cast (by omega : B ≠ 0)
  obtain ⟨n, hn, hr⟩ := roundable_round sgn (x.1 - y.1 + 16395) 0 p (by omega)
    ⟨hsticky, Or.inr hp⟩
  rw [add_zero] at hr
  refine rounded_of_toNat ?_ hr
  have he : x.1 - y.1 + 16395 + 0 - 16510 = (x.1 - 16495) + (-(y.1 - 16495)) + (-115) := by ring
  rw [he, zpow_add₀ (by norm_num), zpow_add₀ (by norm_num), zpow_neg _ (y.1 - 16495)] at hn
  rw [hma, hmb, hxA, hyB]
  convert hn using 1
  have hu : (2 : ℚ) ^ (y.1 - 16495) ≠ 0 := by positivity
  generalize (2 : ℚ) ^ (x.1 - 16495) = u at *
  generalize (2 : ℚ) ^ (y.1 - 16495) = v at *
  push_cast
  field_simp
  norm_num
  ring

/-! ## The whole operation -/

/-- **`__divtf3` is correctly rounded division.** -/
theorem divtf3_isQuotient (fa fb : BitVec 128) :
    binary128.IsQuotient (binary128.neg fa.toNat) (binary128.magBits fa.toNat)
      (binary128.neg fb.toNat) (binary128.magBits fb.toNat) (divtf3 fa fb).toNat := by
  obtain ⟨a, hua, ha⟩ := f3Unpack_spec fa
  obtain ⟨b, hub, hb⟩ := f3Unpack_spec fb
  have hdet := fp3DetectNaNs_spec ha hb (binary128.neg fa.toNat) (binary128.neg fb.toNat)
  have hza := U128.isZero_iff a
  have hzb := U128.isZero_iff b
  rw [ha, significand_eq_zero_iff] at hza
  rw [hb, significand_eq_zero_iff] at hzb
  unfold divtf3
  rw [hua, hub]
  dsimp only
  unfold Format.isNaN at hdet
  have hinf : binary128.infBits = 32767 * 2 ^ 112 := rfl
  have hltA : binary128.magBits fa.toNat < 2 ^ 127 := Nat.mod_lt _ (by decide)
  have hltB : binary128.magBits fb.toNat < 2 ^ 127 := Nat.mod_lt _ (by decide)
  generalize binary128.neg fa.toNat = sa at *
  generalize binary128.neg fb.toNat = sb at *
  generalize binary128.magBits fa.toNat = na at *
  generalize binary128.magBits fb.toNat = nb at *
  have hea := unpackedExp_eq_iff hltA
  have heb := unpackedExp_eq_iff hltB
  revert hdet
  cases fp3DetectNaNs sa (unpackedExp na) a sb (unpackedExp nb) b with
  | some fx =>
      intro hdet
      obtain ⟨hnan, hop⟩ := hdet
      exact ⟨iff_of_true hnan (by tauto), fun _ => by omega, fun _ _ => by omega,
        fun _ _ _ => by omega⟩
  | none =>
      intro hdet
      obtain ⟨hnotA, hnotB⟩ := hdet
      dsimp only
      simp only [hza, hzb, hea, heb]
      split_ifs with h1 h2 h3
      · -- infinity over infinity or zero over zero
        exact ⟨iff_of_true f3NaN_isNaN (by omega), fun _ => by omega, fun _ _ => by omega,
          fun _ _ _ => by omega⟩
      · obtain ⟨hri, hrs⟩ := @rounded_inf (xor sa sb)
        exact ⟨iff_of_false (by rw [Format.isNaN, hri]; omega) (by omega), fun _ => ⟨hri, hrs⟩,
          fun _ _ => by omega, fun _ _ _ => by omega⟩
      · obtain ⟨hrm, hrs⟩ := @rounded_zero (xor sa sb)
        refine ⟨iff_of_false (by rw [Format.isNaN, hrm]; omega) (by omega), fun _ => by omega,
          fun _ _ => ⟨hrm, hrs⟩, fun _ hb' _ => ⟨?_, hrs⟩⟩
        have hna : na = 0 := by omega
        have := Format.roundsTo_mag (F := binary128) (Nat.zero_le _)
        rwa [Format.mag_zero, ← zero_div (binary128.mag nb), ← hrm, ← Format.mag_zero, ← hna] at this
      · have hspec := divFinite_spec (xor sa sb) (by omega) (by omega) ha hb
        have hle := hspec.mag.le_inf
        exact ⟨iff_of_false (by unfold Format.isNaN; omega) (by omega), fun _ => by omega,
          fun _ _ => by omega, fun _ _ _ => hspec⟩

end TccRiscv64.Lib
