import TccRiscv64.Ieee.Sticky
import TccRiscv64.Lib.F3

set_option autoImplicit false

/-! # What the building blocks of the binary128 routines compute

One lemma per helper of `lib-arm64.c`, each on the numbers its limbs denote: unpacking reads sign,
exponent and significand off the encoding, normalising scales by a power of two, the sticky shift
is `jam`, and `f3_round` encodes the round-to-nearest-even of the magnitude its arguments stand
for (`f3Round_spec`). -/

namespace TccRiscv64.Lib

open Ieee

/-! ## Words and flags -/

theorem boolWord_toNat (w : BitVec 64) : (boolWord w).toNat = if w.toNat = 0 then 0 else 1 := by
  unfold boolWord
  have h : w = 0#64 ↔ w.toNat = 0 := by rw [← BitVec.toNat_inj]; rfl
  simp only [h]
  split <;> rfl

theorem sgnWord_toNat (sgn : Bool) : (sgnWord sgn).toNat = sgn.toNat * 2 ^ 63 := by
  cases sgn <;> rfl

/-- Or-ing a flag into the low limb. -/
theorem toNat_or_boolWord (x : U128) (w : BitVec 64) :
    (U128.mk (x.x0 ||| boolWord w) x.x1).toNat
      = x.toNat ||| (if w.toNat = 0 then 0 else 1) := by
  simp only [U128.toNat, BitVec.toNat_or, boolWord_toNat]
  split
  · simp
  · rw [lor_one, lor_one]
    have : (x.x1.toNat * 2 ^ 64 + x.x0.toNat) % 2 = x.x0.toNat % 2 := by omega
    rw [this]
    split <;> omega

/-! ## The special encodings -/

theorem f3Zero_toNat (sgn : Bool) : (f3Zero sgn).toNat = sgn.toNat * 2 ^ 127 := by
  cases sgn <;> rfl

theorem f3Infinity_toNat (sgn : Bool) :
    (f3Infinity sgn).toNat = sgn.toNat * 2 ^ 127 + binary128.infBits := by
  cases sgn <;> rfl

theorem f3NaN_isNaN : binary128.isNaN f3NaN.toNat := by decide

/-! ## Unpacking -/

theorem neg_iff (b : ℕ) : binary128.neg b = true ↔ 2 ^ 127 ≤ b := by
  unfold Format.neg
  rw [decide_eq_true_iff]
  exact Iff.rfl

/-- The biased exponent that `f3_unpack` reports for magnitude bits `n`. -/
def unpackedExp (n : ℕ) : ℤ := max ((n / 2 ^ 112 : ℕ) : ℤ) 1

theorem f3Unpack_spec (f : BitVec 128) :
    ∃ m : U128, f3Unpack f
        = (binary128.neg f.toNat, unpackedExp (binary128.magBits f.toNat), m) ∧
      m.toNat = binary128.significand (binary128.magBits f.toNat) := by
  have hf := f.isLt
  have hx0 : (U128.ofBits f).x0.toNat = f.toNat % 2 ^ 64 := by
    simp [U128.ofBits, BitVec.extractLsb'_toNat]
  have hx1 : (U128.ofBits f).x1.toNat = f.toNat / 2 ^ 64 := by
    simp only [U128.ofBits, BitVec.extractLsb'_toNat, Nat.shiftRight_eq_div_pow]
    omega
  set x := U128.ofBits f
  have hsgn : (x.x1 >>> 63 != 0#64) = binary128.neg f.toNat := by
    have h : x.x1 >>> 63 = 0#64 ↔ f.toNat < 2 ^ 127 := by
      rw [← BitVec.toNat_inj, BitVec.toNat_ushiftRight, hx1, Nat.shiftRight_eq_div_pow]
      simp only [BitVec.toNat_ofNat]
      omega
    rw [Bool.eq_iff_iff, bne_iff_ne, ne_eq, h, neg_iff, Nat.not_lt]
  have hexp : (x.x1 >>> 48 &&& 32767#64).toNat = f.toNat / 2 ^ 112 % 2 ^ 15 := by
    rw [BitVec.toNat_and, BitVec.toNat_ushiftRight, hx1, Nat.shiftRight_eq_div_pow,
      Nat.div_div_eq_div_mul]
    exact Nat.and_two_pow_sub_one_eq_mod _ 15
  have hfrac : (x.x1 <<< 16 >>> 16).toNat = f.toNat / 2 ^ 64 % 2 ^ 48 := by
    rw [BitVec.toNat_ushiftRight, BitVec.toNat_shiftLeft, hx1, Nat.shiftLeft_eq,
      Nat.shiftRight_eq_div_pow]
    omega
  have hmag : binary128.magBits f.toNat = f.toNat % 2 ^ 127 := rfl
  have hsig : binary128.significand (binary128.magBits f.toNat)
      = if f.toNat % 2 ^ 127 / 2 ^ 112 = 0 then f.toNat % 2 ^ 112
        else 2 ^ 112 + f.toNat % 2 ^ 112 := by
    rw [hmag]
    simp only [Format.significand, binary128]
    have : f.toNat % 2 ^ 127 % 2 ^ 112 = f.toNat % 2 ^ 112 := by omega
    rw [this]
    rfl
  have hquot : f.toNat / 2 ^ 112 % 2 ^ 15 = f.toNat % 2 ^ 127 / 2 ^ 112 := by omega
  rw [hsig]
  by_cases hz : f.toNat % 2 ^ 127 / 2 ^ 112 = 0
  · refine ⟨⟨x.x0, x.x1 <<< 16 >>> 16⟩, ?_, ?_⟩
    · unfold f3Unpack
      rw [if_neg (by rw [hexp, hquot, hz]; decide), hsgn, unpackedExp, hmag, hz]
      rfl
    · rw [if_pos hz, U128.toNat, hx0, hfrac]
      omega
  · refine ⟨⟨x.x0, x.x1 <<< 16 >>> 16 ||| 1#64 <<< 48⟩, ?_, ?_⟩
    · unfold f3Unpack
      rw [if_pos (by rw [hexp, hquot]; exact_mod_cast hz), hsgn, unpackedExp, hmag]
      rw [hexp, hquot, max_eq_left (by omega)]
    · have hor : (x.x1 <<< 16 >>> 16 ||| 1#64 <<< 48).toNat = f.toNat / 2 ^ 64 % 2 ^ 48 + 2 ^ 48 := by
        rw [BitVec.toNat_or, hfrac, Nat.or_comm]
        have h := Nat.two_pow_add_eq_or_of_lt (i := 48) (b := f.toNat / 2 ^ 64 % 2 ^ 48)
          (Nat.mod_lt _ (by norm_num)) 1
        rw [Nat.mul_one] at h
        rw [Nat.add_comm]
        exact h.symm
      rw [if_neg hz, U128.toNat, hx0, hor]
      omega

/-- The significand of an unpacked operand, as a magnitude. -/
theorem mag_eq_significand (n : ℕ) :
    binary128.mag n = binary128.significand n * 2 ^ (unpackedExp n - 16495) := by
  have hq : binary128.quantum (n / 2 ^ binary128.fracBits) = unpackedExp n - 16495 := by
    simp only [Format.quantum, Format.bias, binary128, unpackedExp]
    norm_num
    ring
  rw [Format.mag, hq]

theorem binary128_significand (n : ℕ) : binary128.significand n
    = if n / 2 ^ 112 = 0 then n % 2 ^ 112 else 2 ^ 112 + n % 2 ^ 112 := rfl

theorem significand_lt (n : ℕ) : binary128.significand n < 2 ^ 113 := by
  rw [binary128_significand]
  split <;> omega

theorem significand_eq_zero_iff (n : ℕ) : binary128.significand n = 0 ↔ n = 0 := by
  rw [binary128_significand]
  split <;> omega

/-- A significand below the hidden bit belongs to the smallest exponent. -/
theorem significand_of_lt_exp {n : ℕ} (h : 1 < unpackedExp n) :
    2 ^ 112 ≤ binary128.significand n := by
  unfold unpackedExp at h
  rw [binary128_significand]
  split <;> omega

/-- The exponent field that marks infinities and NaNs. -/
theorem unpackedExp_eq_iff {n : ℕ} (hn : n < 2 ^ 127) :
    unpackedExp n = 32767 ↔ binary128.infBits ≤ n := by
  have hinf : binary128.infBits = 32767 * 2 ^ 112 := rfl
  rw [unpackedExp, hinf]
  omega

/-! ## NaN operands -/

theorem isNaNPattern_iff (n : ℕ) (hn : n < 2 ^ 127) (m : U128)
    (hm : m.toNat = binary128.significand n) :
    isNaNPattern (unpackedExp n) m = true ↔ binary128.infBits < n := by
  have h0 := m.x0.isLt
  have h1 := m.x1.isLt
  have hword : m.x0 ||| m.x1 <<< 16 = 0#64 ↔ m.x0.toNat = 0 ∧ m.x1.toNat % 2 ^ 48 = 0 := by
    rw [BitVec.or_eq_zero_iff, ← BitVec.toNat_inj, ← BitVec.toNat_inj (x := m.x1 <<< 16),
      BitVec.toNat_shiftLeft, Nat.shiftLeft_eq]
    simp only [BitVec.toNat_ofNat]
    omega
  have hinf : binary128.infBits = 32767 * 2 ^ 112 := rfl
  simp only [isNaNPattern, Bool.and_eq_true, beq_iff_eq, bne_iff_ne, ne_eq, hword, hinf,
    unpackedExp]
  rw [binary128_significand, U128.toNat] at hm
  split at hm <;> omega

theorem fp3ConvertNaN_isNaN (sgn : Bool) (m : U128) :
    binary128.isNaN (fp3ConvertNaN sgn m).toNat := by
  set w := m.x1 ||| 0x7fff800000000000#64 ||| sgnWord sgn with hw
  have hbits : w &&& 0x7fffffffffffffff#64 &&& 0x7fff800000000000#64 = 0x7fff800000000000#64 := by
    rw [BitVec.and_assoc, show 0x7fffffffffffffff#64 &&& 0x7fff800000000000#64
      = 0x7fff800000000000#64 from rfl]
    apply BitVec.eq_of_getLsbD_eq
    intro i _
    simp only [hw, BitVec.getLsbD_and, BitVec.getLsbD_or]
    cases BitVec.getLsbD 0x7fff800000000000#64 i <;> simp
  have hle : 0x7fff800000000000 ≤ w.toNat % 2 ^ 63 := by
    have h := congrArg BitVec.toNat hbits
    rw [BitVec.toNat_and, BitVec.toNat_and] at h
    have hmod : w.toNat &&& (0x7fffffffffffffff#64).toNat = w.toNat % 2 ^ 63 :=
      Nat.and_two_pow_sub_one_eq_mod w.toNat 63
    rw [hmod] at h
    calc 0x7fff800000000000 = w.toNat % 2 ^ 63 &&& (0x7fff800000000000#64).toNat := h.symm
      _ ≤ w.toNat % 2 ^ 63 := Nat.and_le_left
  have hmag : binary128.magBits (fp3ConvertNaN sgn m).toNat
      = (w.toNat * 2 ^ 64 + m.x0.toNat) % 2 ^ 127 := by
    rw [fp3ConvertNaN, U128.toNat_toBits]
    rfl
  have hinf : binary128.infBits = 32767 * 2 ^ 112 := rfl
  have h0 := m.x0.isLt
  rw [Format.isNaN, hmag, hinf]
  omega

/-- With a NaN operand the operations return a NaN; without one they go on. -/
theorem fp3DetectNaNs_spec {fa fb : BitVec 128} {ma mb : U128}
    (ha : ma.toNat = binary128.significand (binary128.magBits fa.toNat))
    (hb : mb.toNat = binary128.significand (binary128.magBits fb.toNat)) (sa sb : Bool) :
    match fp3DetectNaNs sa (unpackedExp (binary128.magBits fa.toNat)) ma
      sb (unpackedExp (binary128.magBits fb.toNat)) mb with
    | some fx => binary128.isNaN fx.toNat ∧
        (binary128.isNaN fa.toNat ∨ binary128.isNaN fb.toNat)
    | none => ¬binary128.isNaN fa.toNat ∧ ¬binary128.isNaN fb.toNat := by
  have hlt : ∀ f : BitVec 128, binary128.magBits f.toNat < 2 ^ 127 :=
    fun f => Nat.mod_lt _ (by decide)
  have hA := isNaNPattern_iff _ (hlt fa) ma ha
  have hB := isNaNPattern_iff _ (hlt fb) mb hb
  unfold fp3DetectNaNs Format.isNaN
  simp only [Bool.and_eq_true, hA, hB]
  split_ifs with h1 h2 h3 h4
  · exact ⟨fp3ConvertNaN_isNaN _ _, Or.inl h1.1⟩
  · exact ⟨fp3ConvertNaN_isNaN _ _, Or.inr h2.1⟩
  · exact ⟨fp3ConvertNaN_isNaN _ _, Or.inl h3⟩
  · exact ⟨fp3ConvertNaN_isNaN _ _, Or.inr h4⟩
  · exact ⟨h3, h4⟩

/-! ## Normalising -/

/-- One halving step: from the top bit being among the top `2 sh` bits to the top `sh`. -/
theorem f3NormaliseStep_spec (s : ℤ × U128) (sh : ℕ) (h1 : 0 < sh) (h2 : sh < 64)
    (hs : 2 ^ (128 - 2 * sh) ≤ s.2.toNat) :
    ∃ k : ℕ, (f3NormaliseStep s sh).1 = s.1 - k ∧
      (f3NormaliseStep s sh).2.toNat = s.2.toNat * 2 ^ k ∧
      2 ^ (128 - sh) ≤ (f3NormaliseStep s sh).2.toNat := by
  have htop : s.2.x1 >>> (64 - sh) = 0#64 ↔ s.2.toNat < 2 ^ (128 - sh) := by
    have h0 := s.2.x0.isLt
    have hsplit : 2 ^ (128 - sh) = 2 ^ (64 - sh) * 2 ^ 64 := by
      rw [← pow_add]; congr 1; omega
    rw [← BitVec.toNat_inj, BitVec.toNat_ushiftRight, Nat.shiftRight_eq_div_pow,
      BitVec.toNat_ofNat, Nat.zero_mod, Nat.div_eq_zero_iff_lt (by positivity), hsplit,
      U128.toNat]
    constructor
    · intro h; nlinarith
    · intro h
      by_contra hge
      have : 2 ^ (64 - sh) * 2 ^ 64 ≤ s.2.x1.toNat * 2 ^ 64 := Nat.mul_le_mul_right _ (by omega)
      omega
  unfold f3NormaliseStep
  split
  · next hz =>
      have hlt := htop.mp hz
      have hfit : s.2.toNat * 2 ^ sh < 2 ^ 128 := by
        calc s.2.toNat * 2 ^ sh < 2 ^ (128 - sh) * 2 ^ sh :=
              Nat.mul_lt_mul_of_pos_right hlt (by positivity)
          _ = 2 ^ 128 := by rw [← pow_add]; congr 1; omega
      refine ⟨sh, rfl, U128.toNat_shl_of_lt _ h2 hfit, ?_⟩
      rw [U128.toNat_shl_of_lt _ h2 hfit]
      calc 2 ^ (128 - sh) = 2 ^ (128 - 2 * sh) * 2 ^ sh := by rw [← pow_add]; congr 1; omega
        _ ≤ s.2.toNat * 2 ^ sh := Nat.mul_le_mul_right _ hs
  · next hz => exact ⟨0, by simp, by simp, not_lt.mp (mt htop.mpr hz)⟩

/-- The loop of `f3_normalise` brings a significand with a bit in the upper limb to the top. -/
theorem f3Normalise_loop (s : ℤ × U128) (hs : 2 ^ 64 ≤ s.2.toNat) :
    ∃ k : ℕ, ([32, 16, 8, 4, 2, 1].foldl f3NormaliseStep s).1 = s.1 - k ∧
      ([32, 16, 8, 4, 2, 1].foldl f3NormaliseStep s).2.toNat = s.2.toNat * 2 ^ k ∧
      2 ^ 127 ≤ ([32, 16, 8, 4, 2, 1].foldl f3NormaliseStep s).2.toNat := by
  obtain ⟨k1, e1, m1, t1⟩ := f3NormaliseStep_spec s 32 (by decide) (by decide) hs
  obtain ⟨k2, e2, m2, t2⟩ := f3NormaliseStep_spec _ 16 (by decide) (by decide) t1
  obtain ⟨k3, e3, m3, t3⟩ := f3NormaliseStep_spec _ 8 (by decide) (by decide) t2
  obtain ⟨k4, e4, m4, t4⟩ := f3NormaliseStep_spec _ 4 (by decide) (by decide) t3
  obtain ⟨k5, e5, m5, t5⟩ := f3NormaliseStep_spec _ 2 (by decide) (by decide) t4
  obtain ⟨k6, e6, m6, t6⟩ := f3NormaliseStep_spec _ 1 (by decide) (by decide) t5
  refine ⟨k1 + k2 + k3 + k4 + k5 + k6, ?_, ?_, t6⟩
  · simp only [List.foldl_cons, List.foldl_nil, e6, e5, e4, e3, e2, e1]
    push_cast; ring
  · simp only [List.foldl_cons, List.foldl_nil, m6, m5, m4, m3, m2, m1]
    ring

/-- A nonzero significand is scaled so that its top bit is set, the exponent following. -/
theorem f3Normalise_spec (exp : ℤ) (m : U128) (hm : m.toNat ≠ 0) :
    ∃ k : ℕ, (f3Normalise exp m).1 = exp - k ∧
      (f3Normalise exp m).2.toNat = m.toNat * 2 ^ k ∧ 2 ^ 127 ≤ (f3Normalise exp m).2.toNat := by
  unfold f3Normalise
  rw [if_neg (by rw [U128.isZero_iff]; exact hm)]
  by_cases hx1 : m.x1 = 0#64
  · have hm0 : m.toNat = m.x0.toNat := by rw [U128.toNat, hx1]; simp
    have hn : (U128.mk 0#64 m.x0).toNat = m.toNat * 2 ^ 64 := by
      rw [hm0, U128.toNat]; simp
    obtain ⟨k, e, h, t⟩ := f3Normalise_loop (exp - 64, ⟨0#64, m.x0⟩) (by
      dsimp only
      rw [hn]
      exact Nat.le_mul_of_pos_left _ (Nat.pos_of_ne_zero hm))
    refine ⟨64 + k, ?_, ?_, ?_⟩
    · simp only [if_pos hx1, e]; push_cast; ring
    · simp only [if_pos hx1, h, hn]; ring
    · simp only [if_pos hx1]; exact t
  · have hx1' : m.x1.toNat ≠ 0 := fun h => hx1 (BitVec.eq_of_toNat_eq h)
    obtain ⟨k, e, h, t⟩ := f3Normalise_loop (exp, m) (by dsimp only [U128.toNat]; omega)
    refine ⟨k, ?_, ?_, ?_⟩
    · simp only [if_neg hx1, e]
    · simp only [if_neg hx1, h]
    · simp only [if_neg hx1]; exact t

/-! ## The sticky shift -/

/-- The step of `f3_sticky_shift` below one limb. -/
private theorem stickyShift_limb (x : U128) {s : ℕ} (hs : s < 64) (hpos : 0 < s) :
    (U128.mk (x.x0 >>> s ||| x.x1 <<< (64 - s) ||| boolWord (x.x0 <<< (64 - s))) (x.x1 >>> s)).toNat
      = jam s x.toNat := by
  have h := toNat_or_boolWord (x.shr s) (x.x0 <<< (64 - s))
  have hlost : (x.x0 <<< (64 - s)).toNat = 0 ↔ x.toNat % 2 ^ s = 0 := by
    have hpow : 2 ^ 64 = 2 ^ s * 2 ^ (64 - s) := by rw [← pow_add]; congr 1; omega
    have hlow : x.toNat % 2 ^ s = x.x0.toNat % 2 ^ s := by
      rw [U128.toNat, hpow, ← Nat.mul_assoc, Nat.mul_right_comm, Nat.mul_comm _ (2 ^ s),
        Nat.mul_add_mod]
    rw [BitVec.toNat_shiftLeft, Nat.shiftLeft_eq, hlow, hpow, Nat.mul_mod_mul_right,
      Nat.mul_eq_zero]
    simp
  simp only [hlost] at h
  rw [U128.toNat_shr x (by omega)] at h
  exact h

/-- `f3_sticky_shift` is jamming, for every shift count. -/
theorem f3StickyShift_toNat (s : ℕ) (x : U128) : (f3StickyShift s x).toNat = jam s x.toNat := by
  have h0 := x.x0.isLt
  have hx := x.toNat_lt
  unfold f3StickyShift
  split
  · next hs =>
      have hs' : 128 ≤ s := by omega
      have hlt : x.toNat < 2 ^ s := lt_of_lt_of_le hx (Nat.pow_le_pow_right (by decide) hs')
      have hz : (x.x0 ||| x.x1).toNat = 0 ↔ x.toNat = 0 := by
        rw [← U128.isZero_iff, U128.isZero, beq_iff_eq, ← BitVec.toNat_inj]; rfl
      rw [jam, Nat.div_eq_of_lt hlt, Nat.mod_eq_of_lt hlt, Nat.zero_or, U128.toNat,
        boolWord_toNat]
      simp only [hz]
      simp
  · next hs =>
      by_cases h64 : 64 ≤ s
      · have hhigh : (U128.mk (x.x1 ||| boolWord x.x0) 0#64).toNat = jam 64 x.toNat := by
          have h := toNat_or_boolWord ⟨x.x1, 0#64⟩ x.x0
          have hdiv : x.toNat / 2 ^ 64 = x.x1.toNat := by rw [U128.toNat]; omega
          have hmod : x.toNat % 2 ^ 64 = x.x0.toNat := by rw [U128.toNat]; omega
          rw [jam, hdiv, hmod]
          simpa [U128.toNat] using h
        have hcast : (s : ℤ) - 64 = ((s - 64 : ℕ) : ℤ) := by omega
        rw [if_pos (by omega), hcast]
        dsimp only
        split
        · next hp =>
            have h := stickyShift_limb ⟨x.x1 ||| boolWord x.x0, 0#64⟩ (s := s - 64)
              (by omega) (by omega)
            rw [hhigh, jam_jam, Nat.add_sub_cancel' h64] at h
            exact h
        · next hp =>
            rw [hhigh]
            congr 1; omega
      · rw [if_neg (by omega)]
        dsimp only
        split
        · next hp => rw [Int.toNat_natCast, stickyShift_limb _ (by omega) (by omega)]
        · next hp =>
            obtain rfl : s = 0 := by omega
            simp [jam, Nat.mod_one]

/-! ## Rounding and encoding -/

/-- Packing sign, exponent and fraction. -/
theorem pack_toNat (sgn : Bool) (exp : ℕ) (he : exp < 2 ^ 15) (x : U128) :
    (U128.mk x.x0 (x.x1 <<< 16 >>> 16 ||| BitVec.ofInt 64 exp <<< 48 ||| sgnWord sgn)).toBits.toNat
      = sgn.toNat * 2 ^ 127 + (exp * 2 ^ 112 + x.toNat % 2 ^ 112) := by
  have h0 := x.x0.isLt
  have hs : sgn.toNat ≤ 1 := Bool.toNat_le sgn
  have hfrac : (x.x1 <<< 16 >>> 16).toNat = x.x1.toNat % 2 ^ 48 := by
    rw [BitVec.toNat_ushiftRight, BitVec.toNat_shiftLeft, Nat.shiftLeft_eq,
      Nat.shiftRight_eq_div_pow]
    omega
  have hexp : (BitVec.ofInt 64 exp <<< 48).toNat = exp * 2 ^ 48 := by
    rw [BitVec.toNat_shiftLeft, BitVec.ofInt_natCast, BitVec.toNat_ofNat, Nat.shiftLeft_eq]
    omega
  have hor1 : x.x1.toNat % 2 ^ 48 ||| exp * 2 ^ 48 = exp * 2 ^ 48 + x.x1.toNat % 2 ^ 48 := by
    rw [Nat.or_comm, Nat.mul_comm]
    exact (Nat.two_pow_add_eq_or_of_lt (Nat.mod_lt _ (by positivity)) exp).symm
  have hor2 : (exp * 2 ^ 48 + x.x1.toNat % 2 ^ 48) ||| sgn.toNat * 2 ^ 63
      = sgn.toNat * 2 ^ 63 + (exp * 2 ^ 48 + x.x1.toNat % 2 ^ 48) := by
    rw [Nat.or_comm, Nat.mul_comm]
    exact (Nat.two_pow_add_eq_or_of_lt (by omega) sgn.toNat).symm
  rw [U128.toNat_toBits, U128.toNat, BitVec.toNat_or, BitVec.toNat_or, hfrac, hexp, hor1,
    sgnWord_toNat, hor2, U128.toNat]
  dsimp only
  omega

/-- The increment of a rounded significand, by the carry it produces. -/
theorem f3Increment_spec (exp : ℤ) (x : U128) (hx : x.toNat < 2 ^ 113) :
    (x.toNat + 1 = 2 ^ 112 ∧ (f3Increment exp x).1 = 1 ∧
        (f3Increment exp x).2.toNat = 2 ^ 112) ∨
    (x.toNat + 1 = 2 ^ 113 ∧ (f3Increment exp x).1 = exp + 1 ∧
        (f3Increment exp x).2.toNat = 2 ^ 112) ∨
    (x.toNat + 1 ≠ 2 ^ 112 ∧ x.toNat + 1 ≠ 2 ^ 113 ∧ (f3Increment exp x).1 = exp ∧
        (f3Increment exp x).2.toNat = x.toNat + 1) := by
  have h0 := x.x0.isLt
  have h1 := x.x1.isLt
  have hinc : (x.x0 + 1#64).toNat = (x.x0.toNat + 1) % 2 ^ 64 := BitVec.toNat_add _ _
  have hx1 : (x.x1 + 1#64).toNat = (x.x1.toNat + 1) % 2 ^ 64 := BitVec.toNat_add _ _
  have e0 : x.x0 + 1#64 = 0#64 ↔ x.x0.toNat + 1 = 2 ^ 64 := by
    rw [← BitVec.toNat_inj, hinc, BitVec.toNat_ofNat]; omega
  have e48 : x.x1 + 1#64 = 1#64 <<< 48 ↔ (x.x1.toNat + 1) % 2 ^ 64 = 2 ^ 48 := by
    rw [← BitVec.toNat_inj, hx1]; rfl
  have e49 : x.x1 + 1#64 = 1#64 <<< 49 ↔ (x.x1.toNat + 1) % 2 ^ 64 = 2 ^ 49 := by
    rw [← BitVec.toNat_inj, hx1]; rfl
  rw [U128.toNat] at hx
  unfold f3Increment
  simp only [e0, e48, e49]
  split_ifs with hc h48 h49
  · left
    refine ⟨by rw [U128.toNat]; omega, rfl, ?_⟩
    simp only [U128.toNat, hinc, hx1]; omega
  · right; left
    refine ⟨by rw [U128.toNat]; omega, rfl, ?_⟩
    rw [U128.toNat_shr _ (by decide)]
    simp only [U128.toNat, hinc, hx1]; omega
  · right; right
    refine ⟨by rw [U128.toNat]; omega, by rw [U128.toNat]; omega, rfl, ?_⟩
    simp only [U128.toNat, hinc, hx1]; omega
  · right; right
    refine ⟨by rw [U128.toNat]; omega, by rw [U128.toNat]; omega, rfl, ?_⟩
    simp only [U128.toNat, hinc]; omega

/-- The increment condition of `f3_round` is `roundUp` of the significand with its extra bits. -/
theorem f3RoundBits_up (x : U128) :
    (x.x0 &&& 3#64 = 3#64 ∨ (x.x0 &&& 3#64 = 2#64 ∧ (x.shr 2).x0 &&& 1#64 = 1#64)) ↔
      roundUp x.toNat = 1 := by
  have h2 : (x.x0 &&& 3#64).toNat = x.toNat % 4 := by
    have hm : x.x0.toNat &&& 3 = x.x0.toNat % 4 := Nat.and_two_pow_sub_one_eq_mod _ 2
    rw [BitVec.toNat_and, show (3#64).toNat = 3 from rfl, hm, U128.toNat]
    omega
  have h1 : ((x.shr 2).x0 &&& 1#64).toNat = x.toNat / 4 % 2 := by
    have hs : (x.shr 2).x0.toNat % 2 = (x.shr 2).toNat % 2 := by
      have := (x.shr 2).x0.isLt
      rw [U128.toNat]; omega
    have hm : (x.shr 2).x0.toNat &&& 1 = (x.shr 2).x0.toNat % 2 := Nat.and_one_is_mod _
    rw [U128.toNat_shr x (by decide)] at hs
    rw [BitVec.toNat_and, show (1#64).toNat = 1 from rfl, hm, hs]
    norm_num
  have e3 : x.x0 &&& 3#64 = 3#64 ↔ x.toNat % 4 = 3 := by
    rw [← BitVec.toNat_inj, h2]; rfl
  have e2 : x.x0 &&& 3#64 = 2#64 ↔ x.toNat % 4 = 2 := by
    rw [← BitVec.toNat_inj, h2]; rfl
  have e1 : (x.shr 2).x0 &&& 1#64 = 1#64 ↔ x.toNat / 4 % 2 = 1 := by
    rw [← BitVec.toNat_inj, h1]; rfl
  rw [e3, e2, e1, roundUp]
  split <;> simp_all

/-- The encoding before rounding: exponent and significand run into each other so that a carry out
    of the significand is a carry into the exponent. -/
def preRound (exp : ℕ) (s : ℕ) : ℕ := if exp = 0 then s else (exp - 1) * 2 ^ 112 + s

/-- `f3_round` after its sticky shift, for exponents below the overflow threshold: the significand
    is a full 113 bits in the normal case and shorter in the subnormal one. -/
theorem f3RoundBits_spec (sgn : Bool) {exp : ℕ} (x : U128) (he : exp < 32767)
    (hsub : exp = 0 → x.toNat / 4 < 2 ^ 112)
    (hnorm : 0 < exp → 2 ^ 112 ≤ x.toNat / 4 ∧ x.toNat / 4 < 2 ^ 113) :
    (f3RoundBits sgn exp x).toNat
      = sgn.toNat * 2 ^ 127 + (preRound exp (x.toNat / 4) + roundUp x.toNat) := by
  have hs : (x.shr 2).toNat = x.toNat / 4 := U128.toNat_shr x (by decide)
  have hlt : (x.shr 2).toNat < 2 ^ 113 := by
    rw [hs]; rcases Nat.eq_zero_or_pos exp with h | h
    · have := hsub h; omega
    · exact (hnorm h).2
  have hinf : binary128.infBits = 32767 * 2 ^ 112 := rfl
  unfold f3RoundBits preRound
  simp only [f3RoundBits_up]
  by_cases hup : roundUp x.toNat = 1
  · rw [if_pos hup, hup]
    have hspec := f3Increment_spec exp (x.shr 2) hlt
    rw [hs] at hspec
    rcases hspec with ⟨h, he', hm⟩ | ⟨h, he', hm⟩ | ⟨hne, hne', he', hm⟩
    · -- the largest subnormal becomes the smallest normal number
      have h0 : exp = 0 := by by_contra hne; have := hnorm (by omega); omega
      rw [he', if_neg (by decide)]
      have hp := pack_toNat sgn 1 (by decide) (f3Increment exp (x.shr 2)).2
      rw [hm] at hp
      rw [if_pos h0, h]
      exact hp
    · -- the significand overflows into the next binade, possibly infinity
      have h0 : exp ≠ 0 := fun h0 => by have := hsub h0; omega
      rw [he', if_neg h0]
      split
      · next hov =>
          rw [f3Infinity_toNat, hinf]
          have : exp = 32766 := by omega
          subst this; omega
      · next hov =>
          have hp := pack_toNat sgn (exp + 1) (by omega) (f3Increment exp (x.shr 2)).2
          rw [hm] at hp
          push_cast at hp
          rw [hp]
          obtain ⟨e, rfl⟩ := Nat.exists_eq_succ_of_ne_zero h0
          simp only [Nat.succ_eq_add_one, Nat.add_sub_cancel]
          omega
    · rw [he', if_neg (by omega), pack_toNat sgn _ (by omega), hm]
      split
      · next h0 =>
          have := hsub h0
          subst h0
          omega
      · next h0 =>
          have := hnorm (by omega)
          obtain ⟨e, rfl⟩ := Nat.exists_eq_succ_of_ne_zero h0
          simp only [Nat.succ_eq_add_one, Nat.add_sub_cancel]
          omega
  · have h0 : roundUp x.toNat = 0 := by
      unfold roundUp at hup ⊢
      split at hup <;> simp_all
    rw [if_neg hup, h0]
    dsimp only
    rw [if_neg (by omega), pack_toNat sgn _ (by omega), hs]
    split
    · next h0 =>
        have := hsub h0
        subst h0
        omega
    · next h0 =>
        have := hnorm (by omega)
        obtain ⟨e, rfl⟩ := Nat.exists_eq_succ_of_ne_zero h0
        simp only [Nat.succ_eq_add_one, Nat.add_sub_cancel]
        omega

/-- Above the overflow threshold the result is infinity whatever the significand. -/
theorem f3RoundBits_overflow (sgn : Bool) {exp : ℤ} (x : U128) (he : 32767 ≤ exp)
    (hnorm : 2 ^ 112 ≤ x.toNat / 4 ∧ x.toNat / 4 < 2 ^ 113) :
    (f3RoundBits sgn exp x).toNat = sgn.toNat * 2 ^ 127 + binary128.infBits := by
  have hs : (x.shr 2).toNat = x.toNat / 4 := U128.toNat_shr x (by decide)
  unfold f3RoundBits
  dsimp only
  split
  · have hspec := f3Increment_spec exp (x.shr 2) (by rw [hs]; exact hnorm.2)
    rw [hs] at hspec
    rcases hspec with ⟨h, _⟩ | ⟨_, he', _⟩ | ⟨_, _, he', _⟩
    · omega
    · rw [if_pos (by rw [he']; omega), f3Infinity_toNat]
    · rw [if_pos (by rw [he']; omega), f3Infinity_toNat]
  · exact f3Infinity_toNat sgn

/-- The magnitude before rounding and the unit in its last place. -/
theorem mag_preRound {exp s : ℕ} (hsub : exp = 0 → s < 2 ^ 112)
    (hnorm : 0 < exp → 2 ^ 112 ≤ s ∧ s < 2 ^ 113) :
    binary128.mag (preRound exp s) = s * 2 ^ (max (exp : ℤ) 1 - 16495) ∧
    binary128.mag (preRound exp s + 1)
      = binary128.mag (preRound exp s) + 2 ^ (max (exp : ℤ) 1 - 16495) := by
  have hquot : preRound exp s / 2 ^ 112 = exp := by
    unfold preRound
    rcases Nat.eq_zero_or_pos exp with h0 | hpos
    · have := hsub h0
      rw [if_pos h0]; omega
    · have := hnorm hpos
      obtain ⟨e, rfl⟩ : ∃ e, exp = e + 1 := ⟨exp - 1, by omega⟩
      rw [if_neg (Nat.succ_ne_zero e), Nat.add_sub_cancel]
      omega
  have hunpacked : unpackedExp (preRound exp s) = max (exp : ℤ) 1 := by
    rw [unpackedExp, hquot]
  have hsig : binary128.significand (preRound exp s) = s := by
    rw [binary128_significand, hquot]
    unfold preRound
    rcases Nat.eq_zero_or_pos exp with h0 | hpos
    · have := hsub h0
      rw [if_pos h0, if_pos h0]; omega
    · have := hnorm hpos
      obtain ⟨e, rfl⟩ : ∃ e, exp = e + 1 := ⟨exp - 1, by omega⟩
      rw [if_neg (Nat.succ_ne_zero e), if_neg (Nat.succ_ne_zero e), Nat.add_sub_cancel]
      omega
  have hq : binary128.quantum (preRound exp s / 2 ^ binary128.fracBits)
      = max (exp : ℤ) 1 - 16495 := by
    rw [show binary128.fracBits = 112 from rfl, hquot]
    simp only [Format.quantum, Format.bias, binary128]
    norm_num
    ring
  constructor
  · rw [mag_eq_significand, hsig, hunpacked]
  · rw [Format.mag_succ, hq]

/-- **`f3_round` rounds to nearest even.** The arguments stand for the magnitude
    `q · 2^(exp - 16510)` where `x` is `q` up to a sticky bit and up to 13 bits of padding below it:
    the smallest shift the function makes drops exactly that many bits. -/
theorem f3Round_spec (sgn : Bool) (exp : ℤ) (x : U128) {k : ℕ} {q : ℚ} (hk : k ≤ 13)
    (hx : 2 ^ 127 ≤ x.toNat) (hq : StickyAt k x.toNat q) :
    ∃ n, binary128.RoundsTo (q * 2 ^ (exp - 16510)) n ∧
      (f3Round sgn exp x).toNat = sgn.toNat * 2 ^ 127 + n := by
  have hxlt := x.toNat_lt
  have hinf : binary128.infBits = 32767 * 2 ^ 112 := rfl
  unfold f3Round
  by_cases hpos : 0 < exp
  · rw [if_pos hpos]
    have hz : (f3StickyShift 13 x).toNat = jam 13 x.toNat := f3StickyShift_toNat 13 x
    have hlo : 2 ^ 114 ≤ jam 13 x.toNat := le_jam hx
    have hhi : jam 13 x.toNat < 2 ^ 115 := jam_lt (by decide) hxlt
    have hnorm : 2 ^ 112 ≤ (f3StickyShift 13 x).toNat / 4 ∧
        (f3StickyShift 13 x).toNat / 4 < 2 ^ 113 := by rw [hz]; omega
    by_cases hover : 32767 ≤ exp
    · refine ⟨binary128.infBits, Format.roundsTo_infBits ?_, f3RoundBits_overflow sgn _ hover hnorm⟩
      have hmag : binary128.mag binary128.infBits = 2 ^ (127 : ℕ) * 2 ^ (16257 : ℤ) := by
        have hs : binary128.significand (32767 * 2 ^ 112) = 2 ^ 112 := rfl
        have hu : unpackedExp (32767 * 2 ^ 112) = 32767 := rfl
        rw [mag_eq_significand, hinf, hs, hu, show (32767 : ℤ) - 16495 = 15 + 16257 by norm_num,
          zpow_add₀ (by norm_num), ← mul_assoc]
        congr 1
        norm_num
      rw [hmag]
      have hqle : (2 : ℚ) ^ 127 ≤ q := hq.two_pow_le (by omega) hx
      exact mul_le_mul hqle (zpow_le_zpow_right₀ (by norm_num) (by omega)) (by positivity)
        (le_trans (by positivity) hqle)
    · obtain ⟨e, rfl⟩ : ∃ e : ℕ, exp = e := ⟨exp.toNat, by omega⟩
      have hsub : e = 0 → (f3StickyShift 13 x).toNat / 4 < 2 ^ 112 := fun h => by omega
      refine ⟨_, ?_, f3RoundBits_spec sgn _ (by omega) hsub fun _ => hnorm⟩
      obtain ⟨hm, hm1⟩ := mag_preRound hsub fun _ => hnorm
      have hmax : max (e : ℤ) 1 = e := max_eq_left (by omega)
      have he1 : e ≠ 0 := by omega
      have hpre : ∀ s, preRound e s = (e - 1) * 2 ^ 112 + s := fun s => if_neg he1
      rw [hmax] at hm hm1
      refine Sticky.roundsTo (t := q / 2 ^ 13) ?_ (by positivity) hm hm1 ?_ ?_ ?_
      · rw [hpre, hinf]; omega
      · rw [show ((e : ℤ) - 16510) = (e - 16495) + (-15) by ring, zpow_add₀ (by norm_num)]
        norm_num
        ring
      · rw [hz]; exact hq.jam hk
      · rw [hpre]; omega
  · rw [if_neg hpos]
    obtain ⟨s, hs⟩ : ∃ s : ℕ, 14 - exp = s := ⟨(14 - exp).toNat, by omega⟩
    have hs14 : 14 ≤ s := by omega
    have hz : (f3StickyShift (14 - exp) x).toNat = jam s x.toNat := by
      rw [hs]; exact f3StickyShift_toNat s x
    have hhi : jam s x.toNat < 2 ^ 114 :=
      jam_lt (by decide) (lt_of_lt_of_le hxlt (Nat.pow_le_pow_right (by decide) (by omega)))
    have hsub : (0 : ℕ) = 0 → (f3StickyShift (14 - exp) x).toNat / 4 < 2 ^ 112 :=
      fun _ => by rw [hz]; omega
    have hnorm : 0 < 0 → 2 ^ 112 ≤ (f3StickyShift (14 - exp) x).toNat / 4 ∧
        (f3StickyShift (14 - exp) x).toNat / 4 < 2 ^ 113 := fun h => absurd h (lt_irrefl 0)
    refine ⟨_, ?_, f3RoundBits_spec sgn _ (by decide) hsub hnorm⟩
    obtain ⟨hm, hm1⟩ := mag_preRound hsub hnorm
    have hpre : ∀ s, preRound 0 s = s := fun s => if_pos rfl
    refine Sticky.roundsTo (t := q / 2 ^ s) ?_ (by positivity) hm hm1 ?_ ?_ ?_
    · rw [hpre, hinf, hz]; omega
    · have he : exp - 16510 = (max ((0 : ℕ) : ℤ) 1 - 16495) + (-2) + (-(s : ℤ)) := by
        rw [← hs]; norm_num; ring
      rw [he, zpow_add₀ (by norm_num), zpow_add₀ (by norm_num), zpow_neg _ (s : ℤ), zpow_natCast]
      generalize (2 : ℚ) ^ (max ((0 : ℕ) : ℤ) 1 - 16495) = ulp
      norm_num
      ring
    · rw [hz]; exact hq.jam (by omega)
    · rw [hpre]

end TccRiscv64.Lib
