import TccRiscv64.Ieee.Arith
import TccRiscv64.Lib.F3Spec

set_option autoImplicit false

/-! # `__addtf3` and `__subtf3`

The operand with the smaller exponent is shifted right under a sticky bit, three extra bits having
been appended to both first. `Aligned` is what holds of the two integers afterwards: only the
shifted one can be inexact, and then the other exceeds it so far that the difference keeps all but
one of its leading bits. The sticky bit therefore survives the normalising shift inside the 13 bits
that `f3_round` drops at least, for every exponent gap and every amount of cancellation. -/

namespace TccRiscv64.Lib

open Ieee

/-! ## Aligned significands -/

/-- The integers `a`, `b` stand for the magnitudes `α`, `β` in one common unit, `a` having been
    shifted under a sticky bit. -/
structure Aligned (a b : ℕ) (α β : ℚ) : Prop where
  sticky : Sticky a α
  exact : β = b
  even : b % 2 = 0
  gap : α = a ∨ a + 2 ^ 114 ≤ b

/-- A magnitude known up to a sticky bit that normalising keeps within 13 bits. -/
def Roundable (x : ℕ) (ξ : ℚ) : Prop := Sticky x ξ ∧ (ξ = x ∨ 2 ^ 114 ≤ x)

theorem Aligned.add {a b : ℕ} {α β : ℚ} (h : Aligned a b α β) : Roundable (a + b) (α + β) := by
  obtain ⟨hs, rfl, heven, hgap⟩ := h
  constructor
  · rcases hs with rfl | ⟨hodd, hlo, hhi⟩
    · left; push_cast; rfl
    · right
      refine ⟨by omega, ?_, ?_⟩ <;> push_cast <;> linarith
  · rcases hgap with rfl | hgap
    · left; push_cast; rfl
    · right; omega

/-- The difference, with the sign that the integers already show. -/
theorem Aligned.sub {a b : ℕ} {α β : ℚ} (h : Aligned a b α β) :
    (a < b ∧ α < β ∧ Roundable (b - a) (β - α)) ∨ (b ≤ a ∧ β ≤ α ∧ Roundable (a - b) (α - β)) := by
  obtain ⟨hs, rfl, heven, hgap⟩ := h
  rcases hs with rfl | ⟨hodd, hlo, hhi⟩
  · rcases Nat.lt_or_ge a b with hab | hab
    · left
      refine ⟨hab, by exact_mod_cast hab, Or.inl ?_, Or.inl ?_⟩ <;> rw [Nat.cast_sub hab.le]
    · right
      refine ⟨hab, by exact_mod_cast hab, Or.inl ?_, Or.inl ?_⟩ <;> rw [Nat.cast_sub hab]
  · rcases hgap with rfl | hgap
    · -- odd but exact
      rcases Nat.lt_or_ge a b with hab | hab
      · left
        refine ⟨hab, by exact_mod_cast hab, Or.inl ?_, Or.inl ?_⟩ <;> rw [Nat.cast_sub hab.le]
      · right
        refine ⟨hab, by exact_mod_cast hab, Or.inl ?_, Or.inl ?_⟩ <;> rw [Nat.cast_sub hab]
    · left
      have hab : a + 1 ≤ b := by omega
      have habQ : (a : ℚ) + 1 ≤ b := by exact_mod_cast hab
      refine ⟨by omega, by linarith, Or.inr ⟨by omega, ?_, ?_⟩, Or.inr (by omega)⟩
      · rw [Nat.cast_sub (by omega)]; linarith
      · rw [Nat.cast_sub (by omega)]; linarith

/-- Aligning: the significand with the smaller exponent is shifted right by the gap `d`. The
    other one belongs to a normal number as soon as the gap is positive. -/
theorem aligned_of_shift {a b d : ℕ} (ha : a < 2 ^ 113) (hb : 0 < d → 2 ^ 112 ≤ b) :
    Aligned (jam d (a * 8)) (b * 8) ((a : ℚ) * 8 / 2 ^ d) ((b : ℚ) * 8) := by
  have hs := sticky_jam d (a * 8)
  push_cast at hs
  refine ⟨hs, by push_cast; rfl, by omega, ?_⟩
  rcases Nat.lt_or_ge d 4 with hd | hd
  · -- at most three bits are shifted out, and those are the appended zeros
    left
    have hpow : (8 : ℕ) = 2 ^ (3 - d) * 2 ^ d := by
      calc 8 = 2 ^ 3 := rfl
        _ = 2 ^ (3 - d + d) := by congr 1; omega
        _ = 2 ^ (3 - d) * 2 ^ d := pow_add _ _ _
    have hdvd : a * 8 % 2 ^ d = 0 := by
      rw [hpow, ← Nat.mul_assoc, Nat.mul_mod_left]
    have hdiv : a * 8 / 2 ^ d * 2 ^ d = a * 8 :=
      Nat.div_mul_cancel (Nat.dvd_of_mod_eq_zero hdvd)
    rw [jam, if_pos hdvd, Nat.or_zero, div_eq_iff (by positivity)]
    exact_mod_cast hdiv.symm
  · right
    have hlt : jam d (a * 8) < 2 ^ 112 := by
      refine jam_lt (by decide) ?_
      calc a * 8 < 2 ^ 116 := by omega
        _ ≤ 2 ^ (d + 112) := Nat.pow_le_pow_right (by decide) (by omega)
    have := hb (by omega)
    omega

/-- Normalising a nonzero significand and rounding it, with a fixed offset `c` on the exponent. -/
theorem roundable_round (sgn : Bool) (exp c : ℤ) (x : U128) {ξ : ℚ} (hx : x.toNat ≠ 0)
    (h : Roundable x.toNat ξ) :
    ∃ n, binary128.RoundsTo (ξ * 2 ^ (exp + c - 16510)) n ∧
      (f3Round sgn ((f3Normalise exp x).1 + c) (f3Normalise exp x).2).toNat
        = sgn.toNat * 2 ^ 127 + n := by
  obtain ⟨k, hexp, hval, htop⟩ := f3Normalise_spec exp x hx
  have hscale : ∀ y : ℚ, y * 2 ^ k * 2 ^ (exp - k + c - 16510) = y * 2 ^ (exp + c - 16510) := by
    intro y
    rw [mul_assoc, ← zpow_natCast (2 : ℚ) k, ← zpow_add₀ (by norm_num)]
    congr 2; ring
  obtain ⟨hsticky, hexact | hbig⟩ := h
  · obtain ⟨n, hn, hr⟩ := f3Round_spec sgn (exp - k + c) (f3Normalise exp x).2 (k := 0)
      (by decide) htop (stickyAt_exact 0 _)
    refine ⟨n, ?_, by rw [hexp]; exact hr⟩
    rw [hval] at hn
    push_cast at hn
    rwa [hscale, ← hexact] at hn
  · have hk : k ≤ 13 := by
      by_contra hk
      have hlt := (f3Normalise exp x).2.toNat_lt
      rw [hval] at hlt
      have : 2 ^ 114 * 2 ^ 14 ≤ x.toNat * 2 ^ k :=
        Nat.mul_le_mul hbig (Nat.pow_le_pow_right (by decide) (by omega))
      omega
    have hat := hsticky.shiftLeft k
    rw [← hval] at hat
    obtain ⟨n, hn, hr⟩ := f3Round_spec sgn (exp - k + c) (f3Normalise exp x).2 hk htop hat
    refine ⟨n, ?_, by rw [hexp]; exact hr⟩
    rwa [hscale] at hn

/-! ## The finite case -/

/-- The sign of the signed sum of two magnitudes and its absolute value. -/
theorem addSigned_spec (sa sb : Bool) (a b : U128) (ha : a.toNat < 2 ^ 117) (hb : b.toNat < 2 ^ 117) :
    (sa = sb ∧ (addSigned sa a sb b).1 = sa ∧
        (addSigned sa a sb b).2.toNat = a.toNat + b.toNat) ∨
    (sa ≠ sb ∧ b.toNat ≤ a.toNat ∧ (addSigned sa a sb b).1 = sa ∧
        (addSigned sa a sb b).2.toNat = a.toNat - b.toNat) ∨
    (sa ≠ sb ∧ a.toNat < b.toNat ∧ (addSigned sa a sb b).1 = sb ∧
        (addSigned sa a sb b).2.toNat = b.toNat - a.toNat) := by
  unfold addSigned
  by_cases hs : sa = sb
  · left
    rw [if_pos hs]
    exact ⟨hs, rfl, U128.toNat_add_of_lt a b (by omega)⟩
  · right
    rw [if_neg hs]
    dsimp only
    have hsub := U128.toNat_sub a b
    have htop : (a.sub b).x1 >>> 63 ≠ 0#64 ↔ 2 ^ 127 ≤ (a.sub b).toNat := by
      have h0 := (a.sub b).x0.isLt
      rw [ne_eq, ← BitVec.toNat_inj, BitVec.toNat_ushiftRight, Nat.shiftRight_eq_div_pow,
        BitVec.toNat_ofNat, U128.toNat]
      omega
    simp only [htop]
    rcases Nat.lt_or_ge a.toNat b.toNat with hlt | hge
    · right
      rw [if_pos (by omega)]
      refine ⟨hs, hlt, ?_, ?_⟩
      · cases sa <;> cases sb <;> simp_all
      · rw [U128.toNat_neg]; omega
    · left
      rw [if_neg (by omega)]
      exact ⟨hs, hge, rfl, by dsimp only; omega⟩

/-- A magnitude known as a sign and an absolute value. -/
theorem rounded_of_toNat {sgn : Bool} {x : ℚ} {n : ℕ} {r : BitVec 128}
    (hn : binary128.RoundsTo x n) (hr : r.toNat = sgn.toNat * 2 ^ 127 + n) :
    binary128.Rounded sgn x r.toNat := by
  have hle : n ≤ 32767 * 2 ^ 112 := hn.le_inf
  have hmag : binary128.magBits r.toNat = r.toNat % 2 ^ 127 := rfl
  constructor
  · have hmod : r.toNat % 2 ^ 127 = n := by
      rw [hr]
      cases sgn <;> simp only [Bool.toNat_true, Bool.toNat_false] <;> omega
    rw [hmag, hmod]
    exact hn
  · rw [Bool.eq_iff_iff, neg_iff, hr]
    cases sgn <;> simp only [Bool.toNat_true, Bool.toNat_false, reduceCtorEq, iff_false, iff_true]
      <;> omega

/-- Either operand may be the shifted one. -/
def AlignedPair (a b : ℕ) (α β : ℚ) : Prop := Aligned a b α β ∨ Aligned b a β α

theorem AlignedPair.add {a b : ℕ} {α β : ℚ} (h : AlignedPair a b α β) :
    Roundable (a + b) (α + β) := by
  rcases h with h | h
  · exact h.add
  · rw [Nat.add_comm, add_comm α]; exact h.add

theorem AlignedPair.sub {a b : ℕ} {α β : ℚ} (h : AlignedPair a b α β) :
    (a < b ∧ α ≤ β ∧ Roundable (b - a) (β - α)) ∨ (b ≤ a ∧ β ≤ α ∧ Roundable (a - b) (α - β)) := by
  rcases h with h | h
  · rcases h.sub with ⟨h1, h2, h3⟩ | h1
    · exact Or.inl ⟨h1, h2.le, h3⟩
    · exact Or.inr h1
  · rcases h.sub with ⟨h1, h2, h3⟩ | ⟨h1, h2, h3⟩
    · exact Or.inr ⟨h1.le, h2.le, h3⟩
    · rcases Nat.lt_or_eq_of_le h1 with hlt | heq
      · exact Or.inl ⟨hlt, h2, h3⟩
      · -- equal integers: the difference is exactly zero either way round
        have hz : β - α = 0 := h3.1.eq_zero_iff.mp (by omega)
        have hswap : a - b = b - a := by omega
        refine Or.inr ⟨by omega, by linarith, ?_⟩
        rw [hswap, show α - β = β - α by linarith]
        exact h3

/-- A value written as sign and absolute value. -/
theorem abs_sign {s : Bool} {v w : ℚ} (hw : 0 ≤ w) (hv : v = if s then -w else w) :
    |v| = w ∧ (v ≠ 0 → s = decide (v < 0)) := by
  cases s
  · simp only [Bool.false_eq_true, if_false] at hv
    subst hv
    exact ⟨abs_of_nonneg hw, fun _ => (decide_eq_false (not_lt.mpr hw)).symm⟩
  · simp only [if_true] at hv
    subst hv
    refine ⟨by rw [abs_neg, abs_of_nonneg hw], fun hne => (decide_eq_true ?_).symm⟩
    exact lt_of_le_of_ne (by linarith) hne

/-- Whatever the branch, the limbs hold the absolute value of the exact signed sum up to a sticky
    bit, with its sign. -/
theorem addSigned_roundable (sa sb : Bool) (a b : U128) {α β : ℚ}
    (h : AlignedPair a.toNat b.toNat α β) (ha : a.toNat < 2 ^ 117) (hb : b.toNat < 2 ^ 117)
    (hα : 0 ≤ α) (hβ : 0 ≤ β) (hne : ¬(α = 0 ∧ β = 0)) {v : ℚ}
    (hv : v = (if sa then -α else α) + (if sb then -β else β)) :
    Roundable (addSigned sa a sb b).2.toNat |v| ∧
      (v ≠ 0 → (addSigned sa a sb b).1 = decide (v < 0)) ∧ (v = 0 → (sa && sb) = false) := by
  rcases addSigned_spec sa sb a b ha hb with
    ⟨hs', hs, hx⟩ | ⟨hs', hle, hs, hx⟩ | ⟨hs', hlt, hs, hx⟩
  · have hval : v = if sa then -(α + β) else α + β := by
      rw [hv, hs']; cases sb
      · simp
      · simp; ring
    obtain ⟨habs, hsign⟩ := abs_sign (by linarith) hval
    refine ⟨by rw [hx, habs]; exact h.add, by rw [hs]; exact hsign, fun hv0 => ?_⟩
    rw [hv0, abs_zero] at habs
    exact absurd ⟨by linarith, by linarith⟩ hne
  · obtain ⟨hr, hge⟩ : Roundable (a.toNat - b.toNat) (α - β) ∧ β ≤ α := by
      rcases h.sub with ⟨h1, _⟩ | ⟨_, h2, h3⟩
      · omega
      · exact ⟨h3, h2⟩
    have hval : v = if sa then -(α - β) else α - β := by
      rw [hv]; cases sa <;> cases sb <;> simp_all <;> ring
    obtain ⟨habs, hsign⟩ := abs_sign (by linarith) hval
    refine ⟨by rw [hx, habs]; exact hr, by rw [hs]; exact hsign, fun _ => ?_⟩
    cases sa <;> cases sb <;> simp_all
  · obtain ⟨hr, hge⟩ : Roundable (b.toNat - a.toNat) (β - α) ∧ α ≤ β := by
      rcases h.sub with ⟨_, h2, h3⟩ | ⟨h1, _⟩
      · exact ⟨h3, h2⟩
      · omega
    have hval : v = if sb then -(β - α) else β - α := by
      rw [hv]; cases sa <;> cases sb <;> simp_all <;> ring
    obtain ⟨habs, hsign⟩ := abs_sign (by linarith) hval
    refine ⟨by rw [hx, habs]; exact hr, by rw [hs]; exact hsign, fun _ => ?_⟩
    cases sa <;> cases sb <;> simp_all

/-- `f3_add` after the alignment: `α` and `β` are the magnitudes the limbs stand for, in units of
    `2^(exp - 16498)`. -/
theorem f3AddAligned_spec (exp : ℤ) (sa sb : Bool) (a b : U128) {α β : ℚ}
    (h : AlignedPair a.toNat b.toNat α β) (ha : a.toNat < 2 ^ 117) (hb : b.toNat < 2 ^ 117)
    (hα : 0 ≤ α) (hβ : 0 ≤ β) (hne : ¬(α = 0 ∧ β = 0)) {v : ℚ}
    (hv : v = (if sa then -α else α) + (if sb then -β else β)) :
    binary128.Rounded (if v = 0 then sa && sb else decide (v < 0)) (|v| * 2 ^ (exp - 16498))
      (f3AddAligned exp sa a sb b).toNat := by
  obtain ⟨hround, hsign, hzero⟩ := addSigned_roundable sa sb a b h ha hb hα hβ hne hv
  unfold f3AddAligned
  dsimp only
  by_cases hx : (addSigned sa a sb b).2.toNat = 0
  · have hv0 : v = 0 := abs_eq_zero.mp (hround.1.eq_zero_iff.mp hx)
    rw [if_pos ((U128.isZero_iff _).mpr hx), if_pos hv0, hzero hv0, hv0, abs_zero, zero_mul]
    refine rounded_of_toNat (n := 0) ?_ (f3Zero_toNat false)
    have := Format.roundsTo_mag (F := binary128) (Nat.zero_le _)
    rwa [Format.mag_zero] at this
  · have hv0 : v ≠ 0 := fun h0 => hx (hround.1.eq_zero_iff.mpr (by rw [h0, abs_zero]))
    rw [if_neg (mt (U128.isZero_iff _).mp hx), if_neg hv0, ← hsign hv0]
    obtain ⟨n, hn, hr⟩ := roundable_round (addSigned sa a sb b).1 exp 12 _ hx hround
    rw [show exp + 12 - 16510 = exp - 16498 by ring] at hn
    exact rounded_of_toNat hn hr

/-- The operand with the smaller exponent, scaled to the unit of the larger one. -/
theorem mag_shifted {n : ℕ} {e : ℤ} {d : ℕ} (hd : e - unpackedExp n = d) :
    binary128.mag n
      = (binary128.significand n : ℚ) * 8 / 2 ^ d * 2 ^ (e - 16498) := by
  have he : e - 16498 = (unpackedExp n - 16495) + (-3) + (d : ℤ) := by rw [← hd]; ring
  rw [mag_eq_significand, he, zpow_add₀ (by norm_num), zpow_add₀ (by norm_num),
    zpow_natCast (2 : ℚ) d]
  generalize (2 : ℚ) ^ (unpackedExp n - 16495) = u
  have : (2 : ℚ) ^ d ≠ 0 := by positivity
  field_simp
  norm_num

theorem one_le_unpackedExp (n : ℕ) : 1 ≤ unpackedExp n := le_max_right _ _

/-- Either branch of the alignment, for operands scaled to the unit `2^(e - 16498)`. -/
theorem f3AddAligned_signed (sa sb : Bool) {na nb : ℕ} (hne : ¬(na = 0 ∧ nb = 0)) {e : ℤ}
    {a b : U128} {α β : ℚ} (h : AlignedPair a.toNat b.toNat α β) (ha : a.toNat < 2 ^ 117)
    (hb : b.toNat < 2 ^ 117) (hα : binary128.mag na = α * 2 ^ (e - 16498))
    (hβ : binary128.mag nb = β * 2 ^ (e - 16498)) :
    binary128.Rounded
      (if binary128.signed sa na + binary128.signed sb nb = 0 then sa && sb
        else decide (binary128.signed sa na + binary128.signed sb nb < 0))
      |binary128.signed sa na + binary128.signed sb nb| (f3AddAligned e sa a sb b).toNat := by
  have hu : (0 : ℚ) < 2 ^ (e - 16498) := by positivity
  have hα0 : 0 ≤ α := nonneg_of_mul_nonneg_left (hα ▸ binary128.mag_nonneg na) hu
  have hβ0 : 0 ≤ β := nonneg_of_mul_nonneg_left (hβ ▸ binary128.mag_nonneg nb) hu
  have hne' : ¬(α = 0 ∧ β = 0) := by
    rintro ⟨rfl, rfl⟩
    rw [zero_mul, Format.mag_eq_zero_iff] at hα hβ
    exact hne ⟨hα, hβ⟩
  have hspec := f3AddAligned_spec e sa sb a b h ha hb hα0 hβ0 hne' rfl
  set v := (if sa then -α else α) + (if sb then -β else β) with hv
  have hsum : binary128.signed sa na + binary128.signed sb nb = v * 2 ^ (e - 16498) := by
    rw [hv, Format.signed, Format.signed, hα, hβ]
    split <;> split <;> ring
  have hzero : v * 2 ^ (e - 16498) = 0 ↔ v = 0 := by
    rw [mul_eq_zero]; exact or_iff_left hu.ne'
  have hneg : v * 2 ^ (e - 16498) < 0 ↔ v < 0 :=
    ⟨fun h => lt_of_mul_lt_mul_right (by rwa [zero_mul]) hu.le,
      fun h => mul_neg_of_neg_of_pos h hu⟩
  rw [hsum, abs_mul, abs_of_pos hu]
  simp only [hzero, hneg]
  exact hspec

/-- `f3_add` on finite operands that are not both zero. -/
theorem f3AddFinite_spec (sa sb : Bool) {na nb : ℕ} (hne : ¬(na = 0 ∧ nb = 0)) {a b : U128}
    (ha : a.toNat = binary128.significand na) (hb : b.toNat = binary128.significand nb) :
    binary128.Rounded
      (if binary128.signed sa na + binary128.signed sb nb = 0 then sa && sb
        else decide (binary128.signed sa na + binary128.signed sb nb < 0))
      |binary128.signed sa na + binary128.signed sb nb|
      (f3AddFinite sa (unpackedExp na) a sb (unpackedExp nb) b).toNat := by
  have hA := significand_lt na
  have hB := significand_lt nb
  have h1a := one_le_unpackedExp na
  have h1b := one_le_unpackedExp nb
  have shl3 : ∀ (x : U128) (m : ℕ), x.toNat = m → m < 2 ^ 113 → (x.shl 3).toNat = m * 8 :=
    fun x m hx hm => by
      rw [U128.toNat_shl_of_lt x (by decide) (by rw [hx]; omega), hx]
      rfl
  have hjam : ∀ d m, m < 2 ^ 113 → jam d (m * 8) < 2 ^ 117 := fun d m hm =>
    jam_lt (by decide) (lt_of_lt_of_le (by omega : m * 8 < 2 ^ 117)
      (Nat.pow_le_pow_right (by decide) (by omega)))
  unfold f3AddFinite
  dsimp only
  by_cases hle : unpackedExp na ≤ unpackedExp nb
  · rw [if_pos hle]
    obtain ⟨d, hd⟩ : ∃ d : ℕ, unpackedExp nb - unpackedExp na = d :=
      ⟨(unpackedExp nb - unpackedExp na).toNat, by omega⟩
    have hsh := f3StickyShift_toNat d (a.shl 3)
    rw [shl3 a _ ha hA, ← hd] at hsh
    have hal := aligned_of_shift (b := binary128.significand nb) hA (d := d)
      (fun _ => significand_of_lt_exp (by omega))
    rw [← hsh, ← shl3 b _ hb hB] at hal
    have hmb := mag_shifted (e := unpackedExp nb) (n := nb) (d := 0) (by simp)
    rw [pow_zero, div_one] at hmb
    exact f3AddAligned_signed sa sb hne (Or.inl hal) (by rw [hsh]; exact hjam _ _ hA)
      (by rw [shl3 b _ hb hB]; omega) (mag_shifted hd) hmb
  · rw [if_neg hle]
    obtain ⟨d, hd⟩ : ∃ d : ℕ, unpackedExp na - unpackedExp nb = d :=
      ⟨(unpackedExp na - unpackedExp nb).toNat, by omega⟩
    have hsh := f3StickyShift_toNat d (b.shl 3)
    rw [shl3 b _ hb hB, ← hd] at hsh
    have hal := aligned_of_shift (b := binary128.significand na) hB (d := d)
      (fun _ => significand_of_lt_exp (by omega))
    rw [← hsh, ← shl3 a _ ha hA] at hal
    have hma := mag_shifted (e := unpackedExp na) (n := na) (d := 0) (by simp)
    rw [pow_zero, div_one] at hma
    exact f3AddAligned_signed sa sb hne (Or.inr hal) (by rw [shl3 a _ ha hA]; omega)
      (by rw [hsh]; exact hjam _ _ hB) hma (mag_shifted hd)

/-! ## The whole operation -/

theorem rounded_inf {sgn : Bool} :
    binary128.isInf (f3Infinity sgn).toNat ∧ binary128.neg (f3Infinity sgn).toNat = sgn := by
  cases sgn <;> decide

theorem rounded_zero {sgn : Bool} :
    binary128.magBits (f3Zero sgn).toNat = 0 ∧ binary128.neg (f3Zero sgn).toNat = sgn := by
  cases sgn <;> decide

/-- `f3_add` adds, the sign of the second operand flipped if `neg` is set. -/
theorem f3Add_isSum (fa fb : BitVec 128) (neg : Bool) :
    binary128.IsSum (binary128.neg fa.toNat) (binary128.magBits fa.toNat)
      (xor (binary128.neg fb.toNat) neg) (binary128.magBits fb.toNat) (f3Add fa fb neg).toNat := by
  obtain ⟨a, hua, ha⟩ := f3Unpack_spec fa
  obtain ⟨b, hub, hb⟩ := f3Unpack_spec fb
  have hdet := fp3DetectNaNs_spec ha hb (binary128.neg fa.toNat) (binary128.neg fb.toNat)
  have hza := U128.isZero_iff a
  have hzb := U128.isZero_iff b
  rw [ha, significand_eq_zero_iff] at hza
  rw [hb, significand_eq_zero_iff] at hzb
  unfold f3Add
  rw [hua, hub]
  dsimp only
  unfold Format.isNaN at hdet
  have hinf : binary128.infBits = 32767 * 2 ^ 112 := rfl
  have hltA : binary128.magBits fa.toNat < 2 ^ 127 := Nat.mod_lt _ (by decide)
  have hltB : binary128.magBits fb.toNat < 2 ^ 127 := Nat.mod_lt _ (by decide)
  generalize binary128.neg fa.toNat = sa at *
  generalize xor (binary128.neg fb.toNat) neg = sb at *
  generalize binary128.magBits fa.toNat = na at *
  generalize binary128.magBits fb.toNat = nb at *
  have hea := unpackedExp_eq_iff hltA
  have heb := unpackedExp_eq_iff hltB
  revert hdet
  cases fp3DetectNaNs sa (unpackedExp na) a (binary128.neg fb.toNat) (unpackedExp nb) b with
  | some fx =>
      intro hdet
      obtain ⟨hnan, hop⟩ := hdet
      exact ⟨iff_of_true hnan (by tauto), fun _ _ _ => by omega, fun _ _ => by omega,
        fun _ _ => by omega⟩
  | none =>
      intro hdet
      obtain ⟨hnotA, hnotB⟩ := hdet
      dsimp only
      split_ifs with h1 h2 h3 h4
      · -- opposite infinities
        obtain ⟨hxa, hxb, hs⟩ := h1
        have hna : na = binary128.infBits := by have := hea.mp hxa; omega
        have hnb : nb = binary128.infBits := by have := heb.mp hxb; omega
        exact ⟨iff_of_true f3NaN_isNaN (Or.inr (Or.inr ⟨hna, hnb, hs⟩)),
          fun _ _ hs' => absurd (hs' hnb) hs, fun _ _ => by omega, fun _ _ => by omega⟩
      · obtain ⟨hri, hrs⟩ := @rounded_inf sa
        refine ⟨iff_of_false (by rw [Format.isNaN, hri]; omega) ?_, fun _ _ _ => ⟨hri, hrs⟩,
          fun _ _ => by omega, fun _ _ => by omega⟩
        rintro (h | h | ⟨_, h, hs⟩)
        · omega
        · omega
        · exact h1 ⟨h2, heb.mpr h.ge, hs⟩
      · obtain ⟨hri, hrs⟩ := @rounded_inf sb
        exact ⟨iff_of_false (by rw [Format.isNaN, hri]; omega) (by omega), fun _ _ _ => by omega,
          fun _ _ => ⟨hri, hrs⟩, fun _ _ => by omega⟩
      · -- two zeros
        rw [Bool.and_eq_true, hza, hzb] at h4
        obtain ⟨rfl, rfl⟩ := h4
        obtain ⟨hrm, hrs⟩ := @rounded_zero (sa && sb)
        have hsum : binary128.signed sa 0 + binary128.signed sb 0 = 0 := by
          simp [Format.signed]
        refine ⟨iff_of_false (by rw [Format.isNaN, hrm]; omega) (by omega), fun _ _ _ => by omega,
          fun _ _ => by omega, fun _ _ => ?_⟩
        rw [hsum, if_pos rfl, abs_zero]
        refine ⟨?_, hrs⟩
        have := Format.roundsTo_mag (F := binary128) (Nat.zero_le _)
        rwa [Format.mag_zero, ← hrm] at this
      · rw [Bool.and_eq_true, hza, hzb] at h4
        have hspec := f3AddFinite_spec sa sb h4 ha hb
        have hle := hspec.mag.le_inf
        exact ⟨iff_of_false (by unfold Format.isNaN; omega) (by omega), fun _ _ _ => by omega,
          fun _ _ => by omega, fun _ _ => hspec⟩

/-- **`__addtf3` is correctly rounded addition, `__subtf3` correctly rounded subtraction.** -/
theorem addtf3_subtf3_correct (a b : BitVec 128) :
    binary128.IsSum (binary128.neg a.toNat) (binary128.magBits a.toNat)
        (binary128.neg b.toNat) (binary128.magBits b.toNat) (addtf3 a b).toNat ∧
      binary128.IsSum (binary128.neg a.toNat) (binary128.magBits a.toNat)
        (!binary128.neg b.toNat) (binary128.magBits b.toNat) (subtf3 a b).toNat := by
  have hadd := f3Add_isSum a b false
  have hsub := f3Add_isSum a b true
  rw [Bool.xor_false] at hadd
  rw [Bool.xor_true] at hsub
  exact ⟨hadd, hsub⟩

end TccRiscv64.Lib
