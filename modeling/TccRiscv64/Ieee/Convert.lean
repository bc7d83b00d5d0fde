import TccRiscv64.Ieee.Arith
import TccRiscv64.Ieee.Sticky

set_option autoImplicit false

/-! # Conversion between formats

A conversion to a format that has all the numbers of the first is exact, one to any other format
rounds to nearest even. Both keep the sign, infinities and being a NaN. Truncating what was
extended gives the original encoding back (`IsRounding.of_isExact`). -/

namespace TccRiscv64.Ieee.Format

variable (F G : Format)

/-- `r` encodes in `G` the number that `b` encodes in `F`. -/
structure IsExact (b r : ℕ) : Prop where
  isNaN_iff : G.isNaN r ↔ F.isNaN b
  inf : F.isInf b → G.isInf r
  finite : F.isFinite b → G.isFinite r ∧ G.mag (G.magBits r) = F.mag (F.magBits b)
  sign : G.neg r = F.neg b

/-- `r` encodes in `G` the number that `b` encodes in `F`, rounded to nearest even. -/
structure IsRounding (b r : ℕ) : Prop where
  isNaN_iff : G.isNaN r ↔ F.isNaN b
  inf : F.isInf b → G.isInf r
  finite : F.isFinite b → G.RoundsTo (F.mag (F.magBits b)) (G.magBits r)
  sign : G.neg r = F.neg b

variable {F G}

/-- Sign and magnitude bits make up the encoding. -/
theorem eq_neg_magBits {b : ℕ} (hb : b < 2 * F.signBit) :
    b = (F.neg b).toNat * F.signBit + F.magBits b := by
  unfold neg magBits
  by_cases hs : F.signBit ≤ b
  · rw [decide_eq_true hs, Nat.mod_eq_sub_mod hs, Nat.mod_eq_of_lt (by omega), Bool.toNat_true]
    omega
  · rw [decide_eq_false hs, Nat.mod_eq_of_lt (by omega), Bool.toNat_false]
    omega

/-- Rounding back what was converted exactly gives the encoding itself, unless it is a NaN. -/
theorem IsRounding.of_isExact {b r c : ℕ} (hr : F.IsExact G b r) (hc : G.IsRounding F r c)
    (hb : b < 2 * F.signBit) (hc2 : c < 2 * F.signBit) (hnan : ¬F.isNaN b) : c = b := by
  have hsign : F.neg c = F.neg b := by rw [hc.sign, hr.sign]
  have hmag : F.magBits c = F.magBits b := by
    rcases Nat.lt_or_eq_of_le (not_lt.mp hnan) with hfin | hinf
    · obtain ⟨hfin', heq⟩ := hr.finite hfin
      have hround := hc.finite hfin'
      rw [heq] at hround
      exact hround.unique (roundsTo_mag (le_of_lt hfin))
    · have h : F.magBits c = F.infBits := hc.inf (hr.inf hinf)
      rw [h, hinf]
  rw [eq_neg_magBits hc2, eq_neg_magBits hb, hsign, hmag]

/-- Sign and magnitude bits of an encoding put together from them. -/
theorem neg_magBits_of_eq {b n : ℕ} {sgn : Bool} (hn : n < F.signBit)
    (hb : b = sgn.toNat * F.signBit + n) : F.neg b = sgn ∧ F.magBits b = n := by
  subst hb
  cases sgn with
  | false =>
      rw [Bool.toNat_false, Nat.zero_mul, Nat.zero_add]
      exact ⟨decide_eq_false (by omega), Nat.mod_eq_of_lt hn⟩
  | true =>
      rw [Bool.toNat_true, Nat.one_mul]
      refine ⟨decide_eq_true (by omega), ?_⟩
      rw [magBits, Nat.add_mod_left, Nat.mod_eq_of_lt hn]

/-- A rounding conversion from its sign and magnitude bits. -/
theorem isRounding_of_eq {b r n : ℕ} (hn : n < G.signBit)
    (hr : r = (F.neg b).toNat * G.signBit + n) (hnan : F.infBits < F.magBits b → G.infBits < n)
    (hinf : F.magBits b = F.infBits → n = G.infBits)
    (hfin : F.magBits b < F.infBits → G.RoundsTo (F.mag (F.magBits b)) n) :
    F.IsRounding G b r := by
  obtain ⟨hneg, hmag⟩ := G.neg_magBits_of_eq hn hr
  refine ⟨?_, ?_, ?_, hneg⟩
  · rw [isNaN, isNaN, hmag]
    constructor
    · intro h
      rcases lt_trichotomy (F.magBits b) F.infBits with hlt | heq | hgt
      · exact absurd (hfin hlt).le_inf (by omega)
      · exact absurd (hinf heq) (by omega)
      · exact hgt
    · exact hnan
  · intro hb
    rw [isInf, hmag]
    exact hinf hb
  · intro hb
    rw [hmag]
    exact hfin hb

/-! ## Encodings from exponent and significand -/

/-- Exponent and significand run into each other: a significand with its hidden bit raises the
    exponent by one. -/
theorem mag_pack (F : Format) {e s : ℕ} (hs : s < 2 ^ (F.fracBits + 1))
    (he : e ≠ 0 → 2 ^ F.fracBits ≤ s) :
    F.mag (e * 2 ^ F.fracBits + s) = s * 2 ^ ((e : ℤ) + 1 - F.bias - F.fracBits) := by
  rcases Nat.lt_or_ge s (2 ^ F.fracBits) with hlt | hge
  · have h0 : e = 0 := by
      by_contra hne
      exact absurd (he hne) (by omega)
    rw [F.mag_split e s hlt, if_pos h0, h0]
    rfl
  · obtain ⟨f, rfl⟩ := Nat.exists_eq_add_of_le hge
    have hf : f < 2 ^ F.fracBits := by rw [pow_succ] at hs; omega
    have hnext : e * 2 ^ F.fracBits + (2 ^ F.fracBits + f) = (e + 1) * 2 ^ F.fracBits + f := by ring
    have hq : F.quantum (e + 1) = (e : ℤ) + 1 - F.bias - F.fracBits := by
      unfold quantum
      push_cast
      rw [max_eq_left (by omega)]
    rw [hnext, F.mag_split (e + 1) f hf, if_neg (Nat.succ_ne_zero e), hq]
    push_cast
    rfl

theorem mag_pack_succ (F : Format) {e s : ℕ} (hs : s < 2 ^ (F.fracBits + 1))
    (he : e ≠ 0 → 2 ^ F.fracBits ≤ s) :
    F.mag (e * 2 ^ F.fracBits + s + 1)
      = F.mag (e * 2 ^ F.fracBits + s) + 2 ^ ((e : ℤ) + 1 - F.bias - F.fracBits) := by
  have hpos : 0 < 2 ^ F.fracBits := by positivity
  have hq : F.quantum ((e * 2 ^ F.fracBits + s) / 2 ^ F.fracBits)
      = (e : ℤ) + 1 - F.bias - F.fracBits := by
    have hdiv : (e * 2 ^ F.fracBits + s) / 2 ^ F.fracBits = e + s / 2 ^ F.fracBits := by
      rw [Nat.mul_comm, Nat.mul_add_div hpos]
    rw [hdiv, quantum]
    rcases Nat.lt_or_ge s (2 ^ F.fracBits) with hlt | hge
    · have h0 : e = 0 := by
        by_contra hne
        exact absurd (he hne) (by omega)
      rw [Nat.div_eq_of_lt hlt, h0]
      rfl
    · have h1 : s / 2 ^ F.fracBits = 1 := by
        apply Nat.div_eq_of_lt_le
        · omega
        · rw [pow_succ] at hs; omega
      rw [h1]
      push_cast
      rw [max_eq_left (by omega)]
  rw [F.mag_succ, hq]

/-! ## Extension -/

/-- A normal number of `F` in a format with `d` more fraction bits. -/
theorem mag_extend_normal {d B e f : ℕ} (hd : G.fracBits = F.fracBits + d)
    (hB : G.bias = F.bias + B) (he : 0 < e) (hf : f < 2 ^ F.fracBits) :
    G.mag ((e + B) * 2 ^ G.fracBits + f * 2 ^ d) = F.mag (e * 2 ^ F.fracBits + f) := by
  have hf' : f * 2 ^ d < 2 ^ G.fracBits := by
    rw [hd, pow_add]
    exact Nat.mul_lt_mul_of_pos_right hf (by positivity)
  have hq : F.quantum e = G.quantum (e + B) + d := by
    simp only [quantum, hd, hB]
    push_cast
    rw [max_eq_left (by omega), max_eq_left (by omega)]
    ring
  rw [G.mag_split _ _ hf', F.mag_split _ _ hf, if_neg (by omega), if_neg (by omega), hq,
    zpow_add₀ (by norm_num), hd, zpow_natCast]
  push_cast
  ring

/-- A subnormal number of `F` normalised by a left shift `a`: its leading bit becomes the hidden
    bit. -/
theorem mag_extend_subnormal {d B a f g : ℕ} (hd : G.fracBits = F.fracBits + d)
    (hB : G.bias = F.bias + B) (ha : a ≤ B) (hf : f < 2 ^ F.fracBits)
    (hg : f * 2 ^ a = 2 ^ F.fracBits + g) (hg' : g < 2 ^ F.fracBits) :
    G.mag ((B - a + 1) * 2 ^ G.fracBits + g * 2 ^ d) = F.mag f := by
  have hg2 : g * 2 ^ d < 2 ^ G.fracBits := by
    rw [hd, pow_add]
    exact Nat.mul_lt_mul_of_pos_right hg' (by positivity)
  have hq : F.quantum 0 = G.quantum (B - a + 1) + (d + a) := by
    simp only [quantum, hd, hB]
    push_cast [Nat.cast_sub ha]
    rw [max_eq_right (by omega), max_eq_left (by omega)]
    ring
  have hgQ : (f : ℚ) * 2 ^ a = 2 ^ F.fracBits + g := by exact_mod_cast hg
  have hzero := F.mag_split 0 f hf
  rw [Nat.zero_mul, Nat.zero_add, if_pos rfl] at hzero
  rw [G.mag_split _ _ hg2, hzero, if_neg (Nat.succ_ne_zero _), hq, zpow_add₀ (by norm_num),
    zpow_add₀ (by norm_num), hd, zpow_natCast, zpow_natCast]
  push_cast
  calc ((2 : ℚ) ^ (F.fracBits + d) + g * 2 ^ d) * 2 ^ G.quantum (B - a + 1)
      = (2 ^ F.fracBits + g) * 2 ^ d * 2 ^ G.quantum (B - a + 1) := by ring
    _ = f * (2 ^ G.quantum (B - a + 1) * (2 ^ d * 2 ^ a)) := by rw [← hgQ]; ring

/-! ## Truncation -/

/-- What overflow is measured against. -/
theorem mag_infBits (F : Format) (he : 0 < F.expBits) :
    F.mag F.infBits = 2 ^ ((2 : ℤ) ^ F.expBits - 1 - F.bias) := by
  have h2 : 2 ≤ 2 ^ F.expBits := by
    calc 2 = 2 ^ 1 := rfl
      _ ≤ 2 ^ F.expBits := Nat.pow_le_pow_right (by decide) he
  have hsplit := F.mag_split (2 ^ F.expBits - 1) 0 (by positivity)
  have hq : F.quantum (2 ^ F.expBits - 1) = (2 : ℤ) ^ F.expBits - 1 - F.bias - F.fracBits := by
    rw [quantum, Nat.cast_sub (by omega)]
    push_cast
    rw [max_eq_left]
    have : (2 : ℤ) ≤ 2 ^ F.expBits := by exact_mod_cast h2
    omega
  rw [Nat.add_zero, if_neg (by omega), hq, Nat.cast_zero, add_zero, ← zpow_natCast,
    ← zpow_add₀ (by norm_num)] at hsplit
  rw [infBits, hsplit]
  congr 1
  ring

/-- The smallest subnormal. -/
theorem mag_one (F : Format) (hf : 0 < F.fracBits) : F.mag 1 = 2 ^ (1 - F.bias - F.fracBits) := by
  have h := F.mag_split 0 1 (Nat.one_lt_two_pow hf.ne')
  rw [Nat.zero_mul, Nat.zero_add, if_pos rfl, Nat.cast_one, one_mul] at h
  rw [h]
  rfl

/-- Below half the smallest subnormal everything rounds to zero. -/
theorem roundsTo_zero {x : ℚ} (hpos : 0 < F.infBits) (h0 : 0 ≤ x) (h : 2 * x < F.mag 1) :
    F.RoundsTo x 0 := by
  refine roundsTo_of_bracket hpos ?_ ?_ (Or.inl ⟨rfl, Or.inl ?_⟩)
  · rw [F.mag_zero]; exact h0
  · have := F.mag_nonneg 1
    linarith
  · rw [F.mag_zero]; linarith

/-- A sticky significand with two extra bits, packed under its exponent, rounds by `roundUp`. -/
theorem roundsTo_pack {e z : ℕ} {t : ℚ} (hf : 0 < F.fracBits) (hz : z / 4 < 2 ^ (F.fracBits + 1))
    (he : e ≠ 0 → 2 ^ F.fracBits ≤ z / 4) (hn : e * 2 ^ F.fracBits + z / 4 < F.infBits)
    (ht : Sticky z t) :
    F.RoundsTo (t / 4 * 2 ^ ((e : ℤ) + 1 - F.bias - F.fracBits))
      (e * 2 ^ F.fracBits + z / 4 + roundUp z) := by
  refine Sticky.roundsTo hn (by positivity) (F.mag_pack hz he) (F.mag_pack_succ hz he) rfl ht ?_
  obtain ⟨k, hk⟩ : ∃ k, F.fracBits = k + 1 := ⟨F.fracBits - 1, by omega⟩
  rw [hk, pow_succ, ← Nat.mul_assoc]
  omega

end TccRiscv64.Ieee.Format
