import TccRiscv64.Lib.Add

set_option autoImplicit false

/-! # `__multf3`

The normalised significands are cut into digits of 30 bits (32 for the top one), and the sixteen
partial products are accumulated in seven columns. Every column is an exact sum: nothing wraps
(`columns_exact`), the last one because it is the top of a product below `2^244`. Collecting the
columns again yields the top 128 bits of the product with a sticky bit, `jam 116`. -/

namespace TccRiscv64.Lib

open Ieee

/-! ## Digits -/

/-- The number denoted by base-`2^30` digits. -/
def Digits.toNat (d : Digits) : ℕ :=
  d.a3.toNat * 2 ^ 90 + d.a2.toNat * 2 ^ 60 + d.a1.toNat * 2 ^ 30 + d.a0.toNat

/-- (32, 30, 30, 30) bits. -/
structure Digits.Bounded (d : Digits) : Prop where
  a0 : d.a0.toNat < 2 ^ 30
  a1 : d.a1.toNat < 2 ^ 30
  a2 : d.a2.toNat < 2 ^ 30
  a3 : d.a3.toNat < 2 ^ 32

theorem digits_spec (a : U128) : (digits a).Bounded ∧ (digits a).toNat = a.toNat / 2 ^ 6 := by
  have h0 := a.x0.isLt
  have h1 := a.x1.isLt
  have e0 : (digits a).a0.toNat = a.x0.toNat / 2 ^ 6 % 2 ^ 30 := by
    simp only [digits, BitVec.toNat_ushiftRight, BitVec.toNat_shiftLeft, Nat.shiftLeft_eq,
      Nat.shiftRight_eq_div_pow]
    omega
  have e1 : (digits a).a1.toNat = a.x1.toNat % 4 * 2 ^ 28 + a.x0.toNat / 2 ^ 36 := by
    simp only [digits, BitVec.toNat_or, BitVec.toNat_ushiftRight, BitVec.toNat_shiftLeft,
      Nat.shiftLeft_eq, Nat.shiftRight_eq_div_pow]
    have hhi : a.x1.toNat * 2 ^ 62 % 2 ^ 64 / 2 ^ 34 = 2 ^ 28 * (a.x1.toNat % 4) := by omega
    rw [hhi, Nat.or_comm, ← Nat.two_pow_add_eq_or_of_lt (by omega)]
    ring
  have e2 : (digits a).a2.toNat = a.x1.toNat / 2 ^ 2 % 2 ^ 30 := by
    simp only [digits, BitVec.toNat_ushiftRight, BitVec.toNat_shiftLeft, Nat.shiftLeft_eq,
      Nat.shiftRight_eq_div_pow]
    omega
  have e3 : (digits a).a3.toNat = a.x1.toNat / 2 ^ 32 := by
    simp only [digits, BitVec.toNat_ushiftRight, Nat.shiftRight_eq_div_pow]
  refine ⟨⟨by omega, by omega, by omega, by omega⟩, ?_⟩
  rw [Digits.toNat, e0, e1, e2, e3, U128.toNat]
  omega

/-! ## Columns -/

/-- `y0`..`y6` are the exact sums of each column's partial products and of the carry into it. -/
structure ExactColumns (a b : Digits) (y0 y1 y2 y3 y4 y5 y6 : ℕ) : Prop where
  col0 : y0 = a.a0.toNat * b.a0.toNat
  col1 : y1 = y0 / 2 ^ 30 + a.a0.toNat * b.a1.toNat + a.a1.toNat * b.a0.toNat
  col2 : y2 = y1 / 2 ^ 30 + a.a0.toNat * b.a2.toNat + a.a1.toNat * b.a1.toNat
    + a.a2.toNat * b.a0.toNat
  col3 : y3 = y2 / 2 ^ 30 + a.a0.toNat * b.a3.toNat + a.a1.toNat * b.a2.toNat
    + a.a2.toNat * b.a1.toNat + a.a3.toNat * b.a0.toNat
  col4 : y4 = y3 / 2 ^ 30 + a.a1.toNat * b.a3.toNat + a.a2.toNat * b.a2.toNat
    + a.a3.toNat * b.a1.toNat
  col5 : y5 = y4 / 2 ^ 30 + a.a2.toNat * b.a3.toNat + a.a3.toNat * b.a2.toNat
  col6 : y6 = y5 / 2 ^ 30 + a.a3.toNat * b.a3.toNat

/-- The 64-bit columns hold the exact sums. -/
def Columns.Exact (a b : Digits) (x : Columns) : Prop :=
  ExactColumns a b x.x0.toNat x.x1.toNat x.x2.toNat x.x3.toNat x.x4.toNat x.x5.toNat x.x6.toNat

/-- The product collected from its columns. -/
theorem ExactColumns.collect {a b : Digits} {y0 y1 y2 y3 y4 y5 y6 : ℕ}
    (h : ExactColumns a b y0 y1 y2 y3 y4 y5 y6) :
    a.toNat * b.toNat = y6 * 2 ^ 180 + y5 % 2 ^ 30 * 2 ^ 150 + y4 % 2 ^ 30 * 2 ^ 120
      + y3 % 2 ^ 30 * 2 ^ 90 + y2 % 2 ^ 30 * 2 ^ 60 + y1 % 2 ^ 30 * 2 ^ 30 + y0 % 2 ^ 30 := by
  obtain ⟨h0, h1, h2, h3, h4, h5, h6⟩ := h
  have hprod : a.toNat * b.toNat
      = a.a0.toNat * b.a0.toNat
        + (a.a0.toNat * b.a1.toNat + a.a1.toNat * b.a0.toNat) * 2 ^ 30
        + (a.a0.toNat * b.a2.toNat + a.a1.toNat * b.a1.toNat + a.a2.toNat * b.a0.toNat) * 2 ^ 60
        + (a.a0.toNat * b.a3.toNat + a.a1.toNat * b.a2.toNat + a.a2.toNat * b.a1.toNat
            + a.a3.toNat * b.a0.toNat) * 2 ^ 90
        + (a.a1.toNat * b.a3.toNat + a.a2.toNat * b.a2.toNat + a.a3.toNat * b.a1.toNat) * 2 ^ 120
        + (a.a2.toNat * b.a3.toNat + a.a3.toNat * b.a2.toNat) * 2 ^ 150
        + a.a3.toNat * b.a3.toNat * 2 ^ 180 := by
    unfold Digits.toNat; ring
  rw [hprod]
  omega

theorem Digits.Bounded.lt {d : Digits} (h : d.Bounded) : d.toNat < 2 ^ 122 := by
  obtain ⟨h0, h1, h2, h3⟩ := h
  unfold Digits.toNat
  omega

/-- A partial product of two words below `2^i` and `2^j`. -/
private theorem mul_le_of_lt {x y : BitVec 64} (i j : ℕ) (hx : x.toNat < 2 ^ i)
    (hy : y.toNat < 2 ^ j) : x.toNat * y.toNat ≤ (2 ^ i - 1) * (2 ^ j - 1) :=
  Nat.mul_le_mul (by omega) (by omega)

/-- **No 64-bit partial sum of the multiplication overflows.** -/
theorem columns_exact {a b : Digits} (ha : a.Bounded) (hb : b.Bounded) :
    (columns a b).Exact a b := by
  have p00 := mul_le_of_lt 30 30 ha.a0 hb.a0
  have p01 := mul_le_of_lt 30 30 ha.a0 hb.a1
  have p10 := mul_le_of_lt 30 30 ha.a1 hb.a0
  have p02 := mul_le_of_lt 30 30 ha.a0 hb.a2
  have p11 := mul_le_of_lt 30 30 ha.a1 hb.a1
  have p20 := mul_le_of_lt 30 30 ha.a2 hb.a0
  have p03 := mul_le_of_lt 30 32 ha.a0 hb.a3
  have p12 := mul_le_of_lt 30 30 ha.a1 hb.a2
  have p21 := mul_le_of_lt 30 30 ha.a2 hb.a1
  have p30 := mul_le_of_lt 32 30 ha.a3 hb.a0
  have p13 := mul_le_of_lt 30 32 ha.a1 hb.a3
  have p22 := mul_le_of_lt 30 30 ha.a2 hb.a2
  have p31 := mul_le_of_lt 32 30 ha.a3 hb.a1
  have p23 := mul_le_of_lt 30 32 ha.a2 hb.a3
  have p32 := mul_le_of_lt 32 30 ha.a3 hb.a2
  have e0 : (columns a b).x0.toNat = a.a0.toNat * b.a0.toNat := by
    simp only [columns, BitVec.toNat_mul]
    omega
  have e1 : (columns a b).x1.toNat
      = (columns a b).x0.toNat / 2 ^ 30 + a.a0.toNat * b.a1.toNat + a.a1.toNat * b.a0.toNat := by
    have h : (columns a b).x1 = ((columns a b).x0 >>> 30) + a.a0 * b.a1 + a.a1 * b.a0 := rfl
    rw [h]
    simp only [BitVec.toNat_add, BitVec.toNat_mul, BitVec.toNat_ushiftRight,
      Nat.shiftRight_eq_div_pow]
    omega
  have e2 : (columns a b).x2.toNat = (columns a b).x1.toNat / 2 ^ 30 + a.a0.toNat * b.a2.toNat
      + a.a1.toNat * b.a1.toNat + a.a2.toNat * b.a0.toNat := by
    have h : (columns a b).x2
        = ((columns a b).x1 >>> 30) + a.a0 * b.a2 + a.a1 * b.a1 + a.a2 * b.a0 := rfl
    rw [h]
    simp only [BitVec.toNat_add, BitVec.toNat_mul, BitVec.toNat_ushiftRight,
      Nat.shiftRight_eq_div_pow]
    omega
  have e3 : (columns a b).x3.toNat = (columns a b).x2.toNat / 2 ^ 30 + a.a0.toNat * b.a3.toNat
      + a.a1.toNat * b.a2.toNat + a.a2.toNat * b.a1.toNat + a.a3.toNat * b.a0.toNat := by
    have h : (columns a b).x3 = ((columns a b).x2 >>> 30) + a.a0 * b.a3 + a.a1 * b.a2
        + a.a2 * b.a1 + a.a3 * b.a0 := rfl
    rw [h]
    simp only [BitVec.toNat_add, BitVec.toNat_mul, BitVec.toNat_ushiftRight,
      Nat.shiftRight_eq_div_pow]
    omega
  have e4 : (columns a b).x4.toNat = (columns a b).x3.toNat / 2 ^ 30 + a.a1.toNat * b.a3.toNat
      + a.a2.toNat * b.a2.toNat + a.a3.toNat * b.a1.toNat := by
    have h : (columns a b).x4
        = ((columns a b).x3 >>> 30) + a.a1 * b.a3 + a.a2 * b.a2 + a.a3 * b.a1 := rfl
    rw [h]
    simp only [BitVec.toNat_add, BitVec.toNat_mul, BitVec.toNat_ushiftRight,
      Nat.shiftRight_eq_div_pow]
    omega
  have e5 : (columns a b).x5.toNat = (columns a b).x4.toNat / 2 ^ 30 + a.a2.toNat * b.a3.toNat
      + a.a3.toNat * b.a2.toNat := by
    have h : (columns a b).x5 = ((columns a b).x4 >>> 30) + a.a2 * b.a3 + a.a3 * b.a2 := rfl
    rw [h]
    simp only [BitVec.toNat_add, BitVec.toNat_mul, BitVec.toNat_ushiftRight,
      Nat.shiftRight_eq_div_pow]
    omega
  -- the top column is the product without its low 180 bits, and the product is below `2^244`
  have htop : (columns a b).x5.toNat / 2 ^ 30 + a.a3.toNat * b.a3.toNat < 2 ^ 64 := by
    have hcollect := ExactColumns.collect ⟨e0, e1, e2, e3, e4, e5, rfl⟩
    have hlt : a.toNat * b.toNat < 2 ^ 122 * 2 ^ 122 :=
      Nat.mul_lt_mul'' ha.lt hb.lt
    omega
  have e6 : (columns a b).x6.toNat
      = (columns a b).x5.toNat / 2 ^ 30 + a.a3.toNat * b.a3.toNat := by
    have h : (columns a b).x6 = ((columns a b).x5 >>> 30) + a.a3 * b.a3 := rfl
    rw [h]
    simp only [BitVec.toNat_add, BitVec.toNat_mul, BitVec.toNat_ushiftRight,
      Nat.shiftRight_eq_div_pow]
    omega
  exact ⟨e0, e1, e2, e3, e4, e5, e6⟩

/-- The recombined columns are the top of the product with a sticky bit. -/
theorem topBits_spec {a b : Digits} {x : Columns} (h : x.Exact a b) :
    (topBits x).toNat = jam 116 (a.toNat * b.toNat) := by
  have hprod := ExactColumns.collect h
  set P := a.toNat * b.toNat
  have h6 := x.x6.isLt
  have hhigh : (x.x5 <<< 34 ||| x.x4 <<< 34 >>> 30 ||| x.x3 <<< 34 >>> 60).toNat
      = x.x5.toNat % 2 ^ 30 * 2 ^ 34 + x.x4.toNat % 2 ^ 30 * 2 ^ 4 + x.x3.toNat % 2 ^ 30 / 2 ^ 26 := by
    have e5 : (x.x5 <<< 34).toNat = 2 ^ 34 * (x.x5.toNat % 2 ^ 30) := by
      rw [BitVec.toNat_shiftLeft, Nat.shiftLeft_eq]; omega
    have e4 : (x.x4 <<< 34 >>> 30).toNat = 2 ^ 4 * (x.x4.toNat % 2 ^ 30) := by
      rw [BitVec.toNat_ushiftRight, BitVec.toNat_shiftLeft, Nat.shiftLeft_eq,
        Nat.shiftRight_eq_div_pow]
      omega
    have e3 : (x.x3 <<< 34 >>> 60).toNat = x.x3.toNat % 2 ^ 30 / 2 ^ 26 := by
      rw [BitVec.toNat_ushiftRight, BitVec.toNat_shiftLeft, Nat.shiftLeft_eq,
        Nat.shiftRight_eq_div_pow]
      omega
    have hlow := Nat.two_pow_add_eq_or_of_lt (i := 4) (b := x.x3.toNat % 2 ^ 30 / 2 ^ 26)
      (by omega) (x.x4.toNat % 2 ^ 30)
    have hor := Nat.two_pow_add_eq_or_of_lt (i := 34)
      (b := 2 ^ 4 * (x.x4.toNat % 2 ^ 30) + x.x3.toNat % 2 ^ 30 / 2 ^ 26)
      (by omega) (x.x5.toNat % 2 ^ 30)
    rw [BitVec.toNat_or, BitVec.toNat_or, e5, e4, e3, Nat.or_assoc, ← hlow, ← hor]
    ring
  have hlost : (x.x3 <<< 38 ||| (x.x2 ||| x.x1 ||| x.x0) <<< 34).toNat = 0 ↔ P % 2 ^ 116 = 0 := by
    have hzero : ∀ (w : BitVec 64) (k : ℕ), k ≤ 64 → (w <<< k = 0#64 ↔ w.toNat % 2 ^ (64 - k) = 0) := by
      intro w k hk
      have hpow : 2 ^ 64 = 2 ^ (64 - k) * 2 ^ k := by rw [← pow_add]; congr 1; omega
      rw [← BitVec.toNat_inj, BitVec.toNat_shiftLeft, Nat.shiftLeft_eq, hpow,
        Nat.mul_mod_mul_right, BitVec.toNat_ofNat, Nat.zero_mod, Nat.mul_eq_zero]
      simp
    rw [show (0 : ℕ) = (0#64).toNat from rfl, BitVec.toNat_inj, BitVec.shiftLeft_or_distrib,
      BitVec.shiftLeft_or_distrib]
    simp only [BitVec.or_eq_zero_iff]
    rw [hzero _ 38 (by decide), hzero _ 34 (by decide), hzero _ 34 (by decide),
      hzero _ 34 (by decide), hprod]
    simp only [Nat.reduceSub, BitVec.toNat_ofNat]
    omega
  have hor := toNat_or_boolWord
    ⟨x.x5 <<< 34 ||| x.x4 <<< 34 >>> 30 ||| x.x3 <<< 34 >>> 60, x.x6⟩
    (x.x3 <<< 38 ||| (x.x2 ||| x.x1 ||| x.x0) <<< 34)
  have hdiv : (U128.mk (x.x5 <<< 34 ||| x.x4 <<< 34 >>> 30 ||| x.x3 <<< 34 >>> 60) x.x6).toNat
      = P / 2 ^ 116 := by
    rw [U128.toNat, hhigh, hprod]
    dsimp only
    omega
  rw [hdiv] at hor
  simp only [hlost] at hor
  exact hor

/-! ## The finite case -/

/-- Normalising keeps the magnitude: the exponent makes up for the shift. The padding below the
    113 significant bits is long enough for the digits to lose nothing. -/
theorem f3Normalise_mag {n : ℕ} (hn : n ≠ 0) {m : U128} (hm : m.toNat = binary128.significand n) :
    binary128.mag n = (f3Normalise (unpackedExp n) m).2.toNat
        * 2 ^ ((f3Normalise (unpackedExp n) m).1 - 16495) ∧
      2 ^ 127 ≤ (f3Normalise (unpackedExp n) m).2.toNat ∧
      (f3Normalise (unpackedExp n) m).2.toNat % 2 ^ 6 = 0 := by
  have hsig : m.toNat ≠ 0 := by rw [hm]; exact mt (significand_eq_zero_iff n).mp hn
  obtain ⟨k, he, hx, htop⟩ := f3Normalise_spec (unpackedExp n) m hsig
  refine ⟨?_, htop, ?_⟩
  · rw [he, hx, mag_eq_significand, hm]
    push_cast
    rw [mul_assoc, ← zpow_natCast (2 : ℚ) k, ← zpow_add₀ (by norm_num)]
    congr 2; ring
  · have hlt := significand_lt n
    have hk : 6 ≤ k := by
      by_contra hk
      rw [hx, hm] at htop
      have : 2 ^ k ≤ 2 ^ 5 := Nat.pow_le_pow_right (by decide) (by omega)
      have : binary128.significand n * 2 ^ k ≤ binary128.significand n * 2 ^ 5 :=
        Nat.mul_le_mul_left _ this
      omega
    obtain ⟨j, rfl⟩ := Nat.exists_eq_add_of_le hk
    rw [hx, pow_add, Nat.mul_left_comm, Nat.mul_mod_right]

/-- `__multf3` on finite nonzero operands. -/
theorem mulFinite_spec (sgn : Bool) {na nb : ℕ} (hna : na ≠ 0) (hnb : nb ≠ 0) {a b : U128}
    (ha : a.toNat = binary128.significand na) (hb : b.toNat = binary128.significand nb) :
    binary128.Rounded sgn (binary128.mag na * binary128.mag nb)
      (mulFinite sgn (unpackedExp na) a (unpackedExp nb) b).toNat := by
  obtain ⟨hma, htopA, hlowA⟩ := f3Normalise_mag hna ha
  obtain ⟨hmb, htopB, hlowB⟩ := f3Normalise_mag hnb hb
  unfold mulFinite
  dsimp only
  generalize f3Normalise (unpackedExp na) a = x at *
  generalize f3Normalise (unpackedExp nb) b = y at *
  have hxlt := x.2.toNat_lt
  have hylt := y.2.toNat_lt
  obtain ⟨hbx, hdx⟩ := digits_spec x.2
  obtain ⟨hby, hdy⟩ := digits_spec y.2
  have htop := topBits_spec (columns_exact hbx hby)
  rw [hdx, hdy] at htop
  set p := topBits (columns (digits x.2) (digits y.2))
  -- the significands without their six zero bits
  set A := x.2.toNat / 2 ^ 6 with hA
  set B := y.2.toNat / 2 ^ 6 with hB
  have hxA : x.2.toNat = A * 2 ^ 6 := by omega
  have hyB : y.2.toNat = B * 2 ^ 6 := by omega
  have hlow : 2 ^ 242 ≤ A * B := by
    calc 2 ^ 242 = 2 ^ 121 * 2 ^ 121 := by norm_num
      _ ≤ A * B := Nat.mul_le_mul (by omega) (by omega)
  have hsticky : Sticky p.toNat (((A * B : ℕ) : ℚ) / 2 ^ 116) := by
    rw [htop]; exact sticky_jam 116 _
  have hplow : 2 ^ 126 ≤ p.toNat := by rw [htop]; exact le_jam hlow
  have hmag : binary128.mag na * binary128.mag nb
      = ((A * B : ℕ) : ℚ) / 2 ^ 116 * 2 ^ (x.1 + y.1 - 16352 - 16510) := by
    have he : x.1 + y.1 - 16352 - 16510 = (x.1 - 16495) + (y.1 - 16495) + 128 := by ring
    rw [hma, hmb, hxA, hyB, he, zpow_add₀ (by norm_num), zpow_add₀ (by norm_num)]
    push_cast
    generalize (2 : ℚ) ^ (x.1 - 16495) = u
    generalize (2 : ℚ) ^ (y.1 - 16495) = v
    norm_num
    ring
  rw [hmag]
  have hbit : p.x1 >>> 63 = 0#64 ↔ p.toNat < 2 ^ 127 := by
    have h0 := p.x0.isLt
    rw [← BitVec.toNat_inj, BitVec.toNat_ushiftRight, Nat.shiftRight_eq_div_pow,
      BitVec.toNat_ofNat, U128.toNat]
    omega
  by_cases hz : p.x1 >>> 63 = 0#64
  · -- the top bit is zero: one more bit of padding below the sticky bit
    have hlt := hbit.mp hz
    rw [if_pos hz]
    have hshl : (p.shl 1).toNat = p.toNat * 2 ^ 1 :=
      U128.toNat_shl_of_lt p (by decide) (by omega)
    have hat := hsticky.shiftLeft 1
    rw [← hshl] at hat
    obtain ⟨n, hn, hr⟩ := f3Round_spec sgn (x.1 + y.1 - 16352 - 1) (p.shl 1) (by decide)
      (by rw [hshl]; omega) hat
    refine rounded_of_toNat ?_ hr
    have he : x.1 + y.1 - 16352 - 1 - 16510 = (x.1 + y.1 - 16352 - 16510) + (-1) := by ring
    rw [he, zpow_add₀ (by norm_num)] at hn
    convert hn using 1
    generalize (2 : ℚ) ^ (x.1 + y.1 - 16352 - 16510) = u
    norm_num
    ring
  · rw [if_neg hz]
    obtain ⟨n, hn, hr⟩ := f3Round_spec sgn (x.1 + y.1 - 16352) p (k := 0) (by decide)
      (not_lt.mp (mt hbit.mpr hz)) (stickyAt_zero.mpr hsticky)
    exact rounded_of_toNat hn hr

/-! ## The whole operation -/

theorem multf3_isProduct (fa fb : BitVec 128) :
    binary128.IsProduct (binary128.neg fa.toNat) (binary128.magBits fa.toNat)
      (binary128.neg fb.toNat) (binary128.magBits fb.toNat) (multf3 fa fb).toNat := by
  obtain ⟨a, hua, ha⟩ := f3Unpack_spec fa
  obtain ⟨b, hub, hb⟩ := f3Unpack_spec fb
  have hdet := fp3DetectNaNs_spec ha hb (binary128.neg fa.toNat) (binary128.neg fb.toNat)
  have hza := U128.isZero_iff a
  have hzb := U128.isZero_iff b
  rw [ha, significand_eq_zero_iff] at hza
  rw [hb, significand_eq_zero_iff] at hzb
  unfold multf3
  rw [hua, hub]
  dsimp only
  unfold Format.isNaN at hdet
  have hinf : binary128.infBits = 32767 * 2 ^ 112 := rfl
  have hltA : binary128.magBits fa.toNat < 2 ^ 127 := Nat.mod_lt _ (by decide)
  have hltB : binary128.magBits fb.toNat < 2 ^ 127 := Nat.mod_lt _ (by decide)
  generalize binary128.neg fa.toNat = sa at *
  generalize binary128.neg fb.toNat = sb at *
  generalize binary128.magBits fa.toNat = na at *
  generalize binary128.magBits fb.toNat = nb at *
  have hea := unpackedExp_eq_iff hltA
  have heb := unpackedExp_eq_iff hltB
  revert hdet
  cases fp3DetectNaNs sa (unpackedExp na) a sb (unpackedExp nb) b with
  | some fx =>
      intro hdet
      obtain ⟨hnan, hop⟩ := hdet
      exact ⟨iff_of_true hnan (by tauto), fun _ _ _ => by omega, fun _ _ => by omega⟩
  | none =>
      intro hdet
      obtain ⟨hnotA, hnotB⟩ := hdet
      dsimp only
      simp only [hza, hzb, hea, heb, Bool.or_eq_true]
      split_ifs with h1 h2 h3
      · -- infinity times zero
        exact ⟨iff_of_true f3NaN_isNaN (by omega), fun _ _ _ => by omega, fun _ _ => by omega⟩
      · obtain ⟨hri, hrs⟩ := @rounded_inf (xor sa sb)
        exact ⟨iff_of_false (by rw [Format.isNaN, hri]; omega) (by omega), fun _ _ _ => ⟨hri, hrs⟩,
          fun _ _ => by omega⟩
      · obtain ⟨hrm, hrs⟩ := @rounded_zero (xor sa sb)
        have hprod : binary128.mag na * binary128.mag nb = 0 := by
          rw [mul_eq_zero, Format.mag_eq_zero_iff, Format.mag_eq_zero_iff]; exact h3
        refine ⟨iff_of_false (by rw [Format.isNaN, hrm]; omega) (by omega), fun _ _ _ => by omega,
          fun _ _ => ⟨?_, hrs⟩⟩
        have := Format.roundsTo_mag (F := binary128) (Nat.zero_le _)
        rwa [Format.mag_zero, ← hrm, ← hprod] at this
      · have hspec := mulFinite_spec (xor sa sb) (by omega) (by omega) ha hb
        have hle := hspec.mag.le_inf
        exact ⟨iff_of_false (by unfold Format.isNaN; omega) (by omega), fun _ _ _ => by omega,
          fun _ _ => hspec⟩

/-- **`__multf3` is correctly rounded multiplication, and its column sums are exact.** -/
theorem multf3_correct :
    (∀ a b : BitVec 128, binary128.IsProduct (binary128.neg a.toNat) (binary128.magBits a.toNat)
      (binary128.neg b.toNat) (binary128.magBits b.toNat) (multf3 a b).toNat) ∧
    ∀ a b : U128, (columns (digits a) (digits b)).Exact (digits a) (digits b) :=
  ⟨multf3_isProduct, fun a b => columns_exact (digits_spec a).1 (digits_spec b).1⟩

end TccRiscv64.Lib
