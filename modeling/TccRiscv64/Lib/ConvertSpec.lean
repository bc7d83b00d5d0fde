import TccRiscv64.Ieee.Convert
import TccRiscv64.Lib.Convert
import TccRiscv64.Lib.F3Spec

set_option autoImplicit false

/-! # Conversions are exact or correctly rounded

`__extendsftf2` and `__extenddftf2` keep the number, `__trunctfsf2` and `__trunctfdf2` round it to
nearest even, so that truncating an extended number gives it back. -/

namespace TccRiscv64.Lib

open Ieee

/-! ## Extension -/

/-- The words of an encoding: sign, exponent and upper fraction in the high one. -/
theorem packWords_toNat (sgn : Bool) {e fr : BitVec 64} (x0 : BitVec 64) (he : e.toNat < 2 ^ 15)
    (hfr : fr.toNat < 2 ^ 48) :
    (U128.mk x0 (sgnWord sgn ||| e <<< 48 ||| fr)).toBits.toNat
      = sgn.toNat * 2 ^ 127 + (e.toNat * 2 ^ 112 + (fr.toNat * 2 ^ 64 + x0.toNat)) := by
  have h0 := x0.isLt
  have hp := pack_toNat sgn _ he ⟨x0, fr⟩
  have hself : fr <<< 16 >>> 16 = fr := by
    apply BitVec.eq_of_toNat_eq
    rw [BitVec.toNat_ushiftRight, BitVec.toNat_shiftLeft, Nat.shiftLeft_eq,
      Nat.shiftRight_eq_div_pow]
    omega
  have hword : fr ||| BitVec.ofInt 64 e.toNat <<< 48 ||| sgnWord sgn
      = sgnWord sgn ||| e <<< 48 ||| fr := by
    rw [BitVec.ofInt_natCast, BitVec.ofNat_toNat, BitVec.setWidth_eq, BitVec.or_comm _ (sgnWord sgn),
      BitVec.or_comm fr, BitVec.or_assoc]
  dsimp only at hp
  rw [hself, hword, U128.toNat] at hp
  rw [hp]
  dsimp only
  omega

/-- The search for the leading bit stops with that bit at position `sh`. -/
theorem adjLoop_spec {w : ℕ} {m : BitVec w} (hm : m.toNat ≠ 0) (sh : ℕ)
    (hlt : m.toNat < 2 ^ (sh + 1)) :
    adjLoop m sh ≤ sh ∧ 2 ^ sh ≤ m.toNat * 2 ^ adjLoop m sh ∧
      m.toNat * 2 ^ adjLoop m sh < 2 ^ (sh + 1) := by
  induction sh with
  | zero => simp only [adjLoop, pow_zero, Nat.mul_one]; omega
  | succ sh ih =>
      have hzero : m >>> (sh + 1) = 0#w ↔ m.toNat < 2 ^ (sh + 1) := by
        rw [← BitVec.toNat_inj, BitVec.toNat_ushiftRight, Nat.shiftRight_eq_div_pow]
        exact Nat.div_eq_zero_iff_lt (by positivity)
      rw [adjLoop]
      split
      · next h =>
          obtain ⟨hle, hlo, hhi⟩ := ih (hzero.mp h)
          rw [pow_succ, pow_succ 2 (adjLoop m sh), pow_succ 2 (sh + 1), ← Nat.mul_assoc]
          exact ⟨by omega, by omega, by omega⟩
      · next h =>
          rw [hzero, Nat.not_lt] at h
          rw [pow_zero, Nat.mul_one]
          exact ⟨Nat.zero_le _, h, hlt⟩

/-- The fraction word of a NaN with the quiet bit added vanishes only where the fraction does. -/
theorem or_quiet_spec {fr q : BitVec 64} (hfr : fr.toNat < 2 ^ 48) :
    (fr ||| boolWord q <<< 47).toNat < 2 ^ 48 ∧
      ((fr ||| boolWord q <<< 47).toNat = 0 ↔ fr.toNat = 0 ∧ q.toNat = 0) := by
  have hq : (boolWord q <<< 47).toNat = if q.toNat = 0 then 0 else 2 ^ 47 := by
    rw [BitVec.toNat_shiftLeft, boolWord_toNat]
    split <;> rfl
  rw [BitVec.toNat_or, hq, Nat.or_eq_zero_iff]
  constructor
  · apply Nat.or_lt_two_pow hfr
    split <;> norm_num
  · split <;> simp_all

/-- What the magnitude bits `m` made of `n` must satisfy. -/
structure ExtendsMag (F : Format) (n m : ℕ) : Prop where
  lt : m < 2 ^ 127
  finite : n < F.infBits → m < binary128.infBits ∧ binary128.mag m = F.mag n
  inf : n = F.infBits → m = binary128.infBits
  nan : F.infBits < n → binary128.infBits < m

theorem ExtendsMag.isExact {F : Format} {b m : ℕ} {r : BitVec 128}
    (h : ExtendsMag F (F.magBits b) m) (hr : r.toNat = (F.neg b).toNat * 2 ^ 127 + m) :
    F.IsExact binary128 b r.toNat := by
  obtain ⟨hneg, hmag⟩ := binary128.neg_magBits_of_eq h.lt hr
  have hcases := lt_trichotomy (F.magBits b) F.infBits
  refine ⟨?_, ?_, ?_, hneg⟩
  · rw [Format.isNaN, Format.isNaN, hmag]
    constructor
    · intro hm
      rcases hcases with hlt | heq | hgt
      · exact absurd (h.finite hlt).1 (by omega)
      · exact absurd (h.inf heq) (by omega)
      · exact hgt
    · exact h.nan
  · intro hb
    rw [Format.isInf, hmag]
    exact h.inf hb
  · intro hb
    rw [Format.isFinite, hmag]
    exact h.finite hb

theorem extendsMag_zero {F : Format} (hF : 0 < F.infBits) : ExtendsMag F 0 0 where
  lt := by norm_num
  finite _ := ⟨by decide, by rw [Format.mag_zero, Format.mag_zero]⟩
  inf h := by omega
  nan h := by omega

/-- Infinities and NaNs, with the fraction `g` of the result. -/
theorem extendsMag_special {F : Format} {n g : ℕ} (hn : F.infBits ≤ n) (hg : g < 2 ^ 112)
    (hzero : g = 0 ↔ n = F.infBits) : ExtendsMag F n (32767 * 2 ^ 112 + g) := by
  have hinf : binary128.infBits = 32767 * 2 ^ 112 := rfl
  refine ⟨by omega, fun h => by omega, fun h => ?_, fun h => ?_⟩
  · rw [hzero.mpr h, hinf, Nat.add_zero]
  · have : g ≠ 0 := fun h0 => by have := hzero.mp h0; omega
    omega

/-- Subnormal numbers, `g` being the fraction left of the leading bit. -/
theorem extendsMag_subnormal {F : Format} {d B a n g : ℕ} (hd : 112 = F.fracBits + d)
    (hB : binary128.bias = F.bias + B) (hB2 : B < 32766) (ha : a ≤ B) (hF : 0 < F.expBits)
    (hn : n < 2 ^ F.fracBits) (hg : n * 2 ^ a = 2 ^ F.fracBits + g) (hg' : g < 2 ^ F.fracBits) :
    ExtendsMag F n ((B - a + 1) * 2 ^ 112 + g * 2 ^ d) := by
  have hg2 : g * 2 ^ d < 2 ^ 112 := by
    rw [hd, pow_add]
    exact Nat.mul_lt_mul_of_pos_right hg' (by positivity)
  have hinf : binary128.infBits = 32767 * 2 ^ 112 := rfl
  have hfin : 2 ^ F.fracBits ≤ F.infBits :=
    Nat.le_mul_of_pos_left _ (Nat.sub_pos_of_lt (Nat.one_lt_two_pow hF.ne'))
  refine ⟨by omega, fun _ => ⟨by omega, ?_⟩, fun h => by omega, fun h => by omega⟩
  exact Format.mag_extend_subnormal hd hB ha hn hg hg'

/-- Normal numbers. -/
theorem extendsMag_normal {F : Format} {d B k f : ℕ} (hd : 112 = F.fracBits + d)
    (hB : binary128.bias = F.bias + B) (hk : 0 < k) (hk2 : k < 2 ^ F.expBits - 1)
    (hB2 : k + B < 32767) (hf : f < 2 ^ F.fracBits) :
    ExtendsMag F (k * 2 ^ F.fracBits + f) ((k + B) * 2 ^ 112 + f * 2 ^ d) := by
  have hf2 : f * 2 ^ d < 2 ^ 112 := by
    rw [hd, pow_add]
    exact Nat.mul_lt_mul_of_pos_right hf (by positivity)
  have hinf : binary128.infBits = 32767 * 2 ^ 112 := rfl
  have hfin : k * 2 ^ F.fracBits + f < F.infBits := by
    calc k * 2 ^ F.fracBits + f < (k + 1) * 2 ^ F.fracBits := by
          rw [Nat.add_mul, Nat.one_mul]
          exact Nat.add_lt_add_left hf _
      _ ≤ F.infBits := Nat.mul_le_mul_right _ hk2
  refine ⟨by omega, fun _ => ⟨by omega, ?_⟩, fun h => by omega, fun h => by omega⟩
  exact Format.mag_extend_normal hd hB hk hf

section Words

/-! The four branches both functions have, on the words they assemble: `fr` and `x0` hold the
fraction, moved up by the `d` bits that `binary128` has more. -/

variable {F : Format} {b : ℕ} {e fr q x0 : BitVec 64}

theorem isExact_zero (hext : ExtendsMag F (F.magBits b) 0) :
    F.IsExact binary128 b (U128.mk 0 (sgnWord (F.neg b))).toBits.toNat := by
  apply hext.isExact
  rw [Nat.add_zero]
  exact f3Zero_toNat _

/-- Infinities and NaNs: the quiet bit is or-ed in. -/
theorem isExact_special (hb : F.infBits ≤ F.magBits b) (hfr : fr.toNat < 2 ^ 48)
    (hq : q.toNat = 0 ↔ F.magBits b = F.infBits)
    (hzero : fr.toNat * 2 ^ 64 + x0.toNat = 0 ↔ F.magBits b = F.infBits) :
    F.IsExact binary128 b
      (U128.mk x0 (0x7fff000000000000#64 ||| sgnWord (F.neg b) ||| fr |||
        boolWord q <<< 47)).toBits.toNat := by
  have h0 := x0.isLt
  obtain ⟨hlt, hfr0⟩ := or_quiet_spec (q := q) hfr
  set fr' := fr ||| boolWord q <<< 47 with hfr'
  have hword : 0x7fff000000000000#64 ||| sgnWord (F.neg b) ||| fr ||| boolWord q <<< 47
      = sgnWord (F.neg b) ||| 32767#64 <<< 48 ||| fr' := by
    rw [hfr', show 0x7fff000000000000#64 = 32767#64 <<< 48 from rfl,
      BitVec.or_comm _ (sgnWord _), BitVec.or_assoc (_ ||| _)]
  have hzero' : fr'.toNat * 2 ^ 64 + x0.toNat = 0 ↔ F.magBits b = F.infBits := by
    generalize F.magBits b = F.infBits at *
    grind
  apply (extendsMag_special hb (by omega) hzero').isExact
  rw [hword]
  exact packWords_toNat _ _ (by decide) hlt

/-- Zero exponent or not, a number with magnitude bits `m` assembled from exponent and fraction. -/
theorem isExact_words {m : ℕ} (hext : ExtendsMag F (F.magBits b) m) (hfr : fr.toNat < 2 ^ 48)
    (he : e.toNat < 2 ^ 15) (hm : e.toNat * 2 ^ 112 + (fr.toNat * 2 ^ 64 + x0.toNat) = m) :
    F.IsExact binary128 b (U128.mk x0 (sgnWord (F.neg b) ||| e <<< 48 ||| fr)).toBits.toNat := by
  apply hext.isExact
  rw [packWords_toNat _ _ he hfr, hm]

end Words

/-- The sign word of the result is the top bit of the operand. -/
theorem sgnWord_of_top {w : BitVec 64} {s : Bool} (h : w.toNat = s.toNat) :
    w <<< 63 = sgnWord s := by
  have hw : w = BitVec.ofNat 64 s.toNat := by
    rw [← h, BitVec.ofNat_toNat, BitVec.setWidth_eq]
  rw [hw, sgnWord]

/-- Sign and leading bit of a normalised subnormal number are shifted out together, and the
    fraction behind them comes to the top. -/
theorem toNat_shl_subnormal {w : BitVec 64} {s n p c a g k : ℕ} (hp : p + k = 64)
    (hw : w.toNat = s * 2 ^ (p + c) + n) (hg : n * 2 ^ a = 2 ^ p + g) (hg' : g < 2 ^ p) :
    (w <<< a <<< k).toNat = g * 2 ^ k := by
  have hsplit : w.toNat * 2 ^ (a + k) = 2 ^ (p + k) * (s * 2 ^ (c + a) + 1) + g * 2 ^ k := by
    calc w.toNat * 2 ^ (a + k)
        = 2 ^ (p + k) * (s * 2 ^ (c + a)) + n * 2 ^ a * 2 ^ k := by rw [hw]; ring
      _ = 2 ^ (p + k) * (s * 2 ^ (c + a) + 1) + g * 2 ^ k := by rw [hg]; ring
  have hlt : g * 2 ^ k < 2 ^ 64 := by
    rw [← hp, pow_add]
    exact Nat.mul_lt_mul_of_pos_right hg' (by positivity)
  rw [← BitVec.shiftLeft_add, BitVec.toNat_shiftLeft, Nat.shiftLeft_eq, hsplit, hp,
    Nat.mul_add_mod, Nat.mod_eq_of_lt hlt]

/-- An exponent word of the subnormal branch. -/
theorem exponentWord_toNat (B adj : ℕ) (hB : B < 2 ^ 15) (ha : adj ≤ B) :
    (BitVec.ofNat 64 B - BitVec.ofNat 64 adj + 1#64).toNat = B - adj + 1 := by
  simp only [BitVec.toNat_add, BitVec.toNat_sub, BitVec.toNat_ofNat]
  omega

/-! ### From `float` -/

section Float

variable {f : BitVec 32} {s : Bool} {n : ℕ}

theorem float_sgn (hf : f.toNat = s.toNat * 2 ^ 31 + n) (hn : n < 2 ^ 31) :
    f.setWidth 64 >>> 31 <<< 63 = sgnWord s := by
  apply sgnWord_of_top
  rw [BitVec.toNat_ushiftRight, BitVec.toNat_setWidth, Nat.shiftRight_eq_div_pow]
  omega

theorem float_shl (hf : f.toNat = s.toNat * 2 ^ 31 + n) (hn : n < 2 ^ 31) :
    (f <<< 1).toNat = n * 2 := by
  rw [BitVec.toNat_shiftLeft, Nat.shiftLeft_eq]
  omega

theorem float_exp (hf : f.toNat = s.toNat * 2 ^ 31 + n) (hn : n < 2 ^ 31) :
    (f <<< 1 >>> 24).toNat = n / 2 ^ 23 := by
  rw [BitVec.toNat_ushiftRight, float_shl hf hn, Nat.shiftRight_eq_div_pow]
  omega

theorem float_mag (hf : f.toNat = s.toNat * 2 ^ 31 + n) (hn : n < 2 ^ 31) :
    (f <<< 1 >>> 1).toNat = n := by
  rw [BitVec.toNat_ushiftRight, float_shl hf hn, Nat.shiftRight_eq_div_pow]
  omega

theorem float_frac (hf : f.toNat = s.toNat * 2 ^ 31 + n) :
    (f.setWidth 64 <<< 41 >>> 16).toNat = n % 2 ^ 23 * 2 ^ 25 := by
  have := f.isLt
  rw [BitVec.toNat_ushiftRight, BitVec.toNat_shiftLeft, BitVec.toNat_setWidth, Nat.shiftLeft_eq,
    Nat.shiftRight_eq_div_pow]
  omega

theorem float_quiet (hf : f.toNat = s.toNat * 2 ^ 31 + n) :
    ((f <<< 9).setWidth 64).toNat = n % 2 ^ 23 * 2 ^ 9 := by
  rw [BitVec.toNat_setWidth, BitVec.toNat_shiftLeft, Nat.shiftLeft_eq]
  omega

theorem float_expWord (hf : f.toNat = s.toNat * 2 ^ 31 + n) (hn : n < 2 ^ 31) :
    ((f.setWidth 64 >>> 23 &&& 255#64) + 16256#64).toNat = n / 2 ^ 23 + 16256 := by
  have := f.isLt
  have hand : (f.setWidth 64 >>> 23 &&& 255#64).toNat = n / 2 ^ 23 := by
    rw [BitVec.toNat_and, BitVec.toNat_ushiftRight, BitVec.toNat_setWidth,
      Nat.shiftRight_eq_div_pow, show (255#64).toNat = 2 ^ 8 - 1 from rfl,
      Nat.and_two_pow_sub_one_eq_mod]
    omega
  rw [BitVec.toNat_add, hand, BitVec.toNat_ofNat]
  omega

theorem float_zero (hf : f.toNat = s.toNat * 2 ^ 31 + n) (h0 : n = 0) :
    f.setWidth 64 <<< 32 = sgnWord s := by
  apply BitVec.eq_of_toNat_eq
  rw [sgnWord_toNat, BitVec.toNat_shiftLeft, BitVec.toNat_setWidth, Nat.shiftLeft_eq]
  omega

/-- The search and the two shifts of the subnormal branch. -/
theorem float_subnormal (hf : f.toNat = s.toNat * 2 ^ 31 + n) (hn : n < 2 ^ 23) (h0 : n ≠ 0) :
    adjLoop (f <<< 1 >>> 1) 23 ≤ 23 ∧ ∃ g < 2 ^ 23,
      n * 2 ^ adjLoop (f <<< 1 >>> 1) 23 = 2 ^ 23 + g ∧
      (f.setWidth 64 <<< adjLoop (f <<< 1 >>> 1) 23 <<< 41 >>> 16).toNat = g * 2 ^ 25 := by
  have hb := f.isLt
  have hmag := float_mag hf (by omega)
  obtain ⟨hle, hlo, hhi⟩ :=
    adjLoop_spec (m := f <<< 1 >>> 1) (by rw [hmag]; exact h0) 23 (by omega)
  rw [hmag] at hlo hhi
  generalize adjLoop (f <<< 1 >>> 1) 23 = adj at *
  obtain ⟨g, hg⟩ := Nat.exists_eq_add_of_le hlo
  have hg' : g < 2 ^ 23 := by omega
  have hw : (f.setWidth 64).toNat = s.toNat * 2 ^ (23 + 8) + n := by
    rw [BitVec.toNat_setWidth, Nat.mod_eq_of_lt (by omega), hf]
  have hshl := toNat_shl_subnormal (k := 41) rfl hw hg hg'
  refine ⟨hle, g, hg', hg, ?_⟩
  rw [BitVec.toNat_ushiftRight, hshl, Nat.shiftRight_eq_div_pow]
  omega

end Float

theorem extendsftf2_isExact (f : BitVec 32) :
    binary32.IsExact binary128 f.toNat (extendsftf2 f).toNat := by
  have hf : f.toNat = (binary32.neg f.toNat).toNat * 2 ^ 31 + binary32.magBits f.toNat :=
    Format.eq_neg_magBits (F := binary32) f.isLt
  have hn : binary32.magBits f.toNat < 2 ^ 31 := Nat.mod_lt _ (by decide)
  have hexp := float_exp hf hn
  have hfrac := float_frac hf
  unfold extendsftf2
  dsimp only
  rw [float_sgn hf hn]
  generalize hm : binary32.magBits f.toNat = n at *
  split
  · next h =>
      have h0 : n = 0 := by
        have := congrArg BitVec.toNat h
        rw [float_shl hf hn, BitVec.toNat_ofNat] at this
        omega
      rw [float_zero hf h0]
      apply isExact_zero
      rw [hm, h0]
      exact extendsMag_zero (by decide)
  · next hne =>
      have hn0 : n ≠ 0 := by
        intro h0
        refine hne (BitVec.eq_of_toNat_eq ?_)
        rw [float_shl hf hn, h0]
        rfl
      split
      · -- infinity or a NaN
        next h =>
          have he : n / 2 ^ 23 = 255 := by rw [← hexp, h]; rfl
          have hinf : binary32.infBits = 255 * 2 ^ 23 := rfl
          refine isExact_special (by omega) (by omega) ?_ ?_
          · rw [float_quiet hf]; omega
          · rw [hfrac, hm, show (0 : BitVec 64).toNat = 0 from rfl]; omega
      · next hne255 =>
          have hne255' : n / 2 ^ 23 ≠ 255 := by
            rw [← hexp]; exact fun h => hne255 (BitVec.eq_of_toNat_eq h)
          split
          · -- subnormal
            next h =>
              have he : n / 2 ^ 23 = 0 := by rw [← hexp, h]; rfl
              have hn23 : n < 2 ^ 23 := by omega
              obtain ⟨hle, g, hg', hg, hfr⟩ := float_subnormal hf hn23 hn0
              generalize adjLoop (f <<< 1 >>> 1) 23 = adj at *
              have hew := exponentWord_toNat 16256 adj (by norm_num) (by omega)
              have hext := extendsMag_subnormal (F := binary32) (d := 89) (B := 16256) rfl
                (by decide) (by decide) (show adj ≤ 16256 by omega) (by decide) hn23 hg hg'
              refine isExact_words (hm ▸ hext) (by omega) (by omega) ?_
              rw [hew, hfr, show (0 : BitVec 64).toNat = 0 from rfl]
              omega
          · -- normal
            next h =>
              have he : n / 2 ^ 23 ≠ 0 := by
                rw [← hexp]; exact fun h' => h (BitVec.eq_of_toNat_eq h')
              have hew := float_expWord hf hn
              have hext := extendsMag_normal (F := binary32) (d := 89) (B := 16256)
                (k := n / 2 ^ 23) (f := n % 2 ^ 23) rfl (by decide) (by omega)
                (show _ < 2 ^ 8 - 1 by omega) (by omega) (show _ < 2 ^ 23 by omega)
              rw [show n / 2 ^ 23 * 2 ^ binary32.fracBits + n % 2 ^ 23 = n from
                Nat.div_add_mod' n (2 ^ 23)] at hext
              refine isExact_words (hm ▸ hext) (by omega) (by omega) ?_
              rw [hew, hfrac, show (0 : BitVec 64).toNat = 0 from rfl]
              omega

/-! ### From `double` -/

section Double

variable {f : BitVec 64} {s : Bool} {n : ℕ}

theorem double_sgn (hf : f.toNat = s.toNat * 2 ^ 63 + n) (hn : n < 2 ^ 63) :
    f >>> 63 <<< 63 = sgnWord s := by
  apply sgnWord_of_top
  rw [BitVec.toNat_ushiftRight, Nat.shiftRight_eq_div_pow]
  omega

theorem double_shl (hf : f.toNat = s.toNat * 2 ^ 63 + n) (hn : n < 2 ^ 63) :
    (f <<< 1).toNat = n * 2 := by
  rw [BitVec.toNat_shiftLeft, Nat.shiftLeft_eq]
  omega

theorem double_exp (hf : f.toNat = s.toNat * 2 ^ 63 + n) (hn : n < 2 ^ 63) :
    (f <<< 1 >>> 53).toNat = n / 2 ^ 52 := by
  rw [BitVec.toNat_ushiftRight, double_shl hf hn, Nat.shiftRight_eq_div_pow]
  omega

theorem double_mag (hf : f.toNat = s.toNat * 2 ^ 63 + n) (hn : n < 2 ^ 63) :
    (f <<< 1 >>> 1).toNat = n := by
  rw [BitVec.toNat_ushiftRight, double_shl hf hn, Nat.shiftRight_eq_div_pow]
  omega

/-- The upper 48 fraction bits. -/
theorem double_frac (hf : f.toNat = s.toNat * 2 ^ 63 + n) :
    (f <<< 12 >>> 16).toNat = n % 2 ^ 52 / 2 ^ 4 := by
  rw [BitVec.toNat_ushiftRight, BitVec.toNat_shiftLeft, Nat.shiftLeft_eq,
    Nat.shiftRight_eq_div_pow]
  omega

/-- The lower 4 fraction bits. -/
theorem double_low (hf : f.toNat = s.toNat * 2 ^ 63 + n) :
    (f <<< 60).toNat = n % 2 ^ 52 % 2 ^ 4 * 2 ^ 60 := by
  rw [BitVec.toNat_shiftLeft, Nat.shiftLeft_eq]
  omega

theorem double_quiet (hf : f.toNat = s.toNat * 2 ^ 63 + n) :
    (f <<< 12).toNat = n % 2 ^ 52 * 2 ^ 12 := by
  rw [BitVec.toNat_shiftLeft, Nat.shiftLeft_eq]
  omega

theorem double_expWord (hf : f.toNat = s.toNat * 2 ^ 63 + n) (hn : n < 2 ^ 63) :
    ((f >>> 52 &&& 2047#64) + 15360#64).toNat = n / 2 ^ 52 + 15360 := by
  have hand : (f >>> 52 &&& 2047#64).toNat = n / 2 ^ 52 := by
    rw [BitVec.toNat_and, BitVec.toNat_ushiftRight, Nat.shiftRight_eq_div_pow,
      show (2047#64).toNat = 2 ^ 11 - 1 from rfl, Nat.and_two_pow_sub_one_eq_mod]
    omega
  rw [BitVec.toNat_add, hand, BitVec.toNat_ofNat]
  omega

theorem double_zero (hf : f.toNat = s.toNat * 2 ^ 63 + n) (h0 : n = 0) :
    f = sgnWord s ∧ f <<< 60 = 0 := by
  constructor
  · apply BitVec.eq_of_toNat_eq
    rw [sgnWord_toNat, hf, h0, Nat.add_zero]
  · apply BitVec.eq_of_toNat_eq
    rw [double_low hf, h0]
    rfl

/-- The search and the three shifts of the subnormal branch. -/
theorem double_subnormal (hf : f.toNat = s.toNat * 2 ^ 63 + n) (hn : n < 2 ^ 52) (h0 : n ≠ 0) :
    adjLoop (f <<< 1 >>> 1) 52 ≤ 52 ∧ ∃ g < 2 ^ 52,
      n * 2 ^ adjLoop (f <<< 1 >>> 1) 52 = 2 ^ 52 + g ∧
      (f <<< adjLoop (f <<< 1 >>> 1) 52 <<< 12 >>> 16).toNat = g / 2 ^ 4 ∧
      (f <<< 60 <<< adjLoop (f <<< 1 >>> 1) 52).toNat = g % 2 ^ 4 * 2 ^ 60 := by
  have hmag := double_mag hf (by omega)
  obtain ⟨hle, hlo, hhi⟩ :=
    adjLoop_spec (m := f <<< 1 >>> 1) (by rw [hmag]; exact h0) 52 (by omega)
  rw [hmag] at hlo hhi
  generalize adjLoop (f <<< 1 >>> 1) 52 = adj at *
  obtain ⟨g, hg⟩ := Nat.exists_eq_add_of_le hlo
  have hg' : g < 2 ^ 52 := by omega
  have hshl := toNat_shl_subnormal (c := 11) (k := 12) rfl hf hg hg'
  refine ⟨hle, g, hg', hg, ?_, ?_⟩
  · rw [BitVec.toNat_ushiftRight, hshl, Nat.shiftRight_eq_div_pow]
    omega
  · have hcomm : f <<< 60 <<< adj = f <<< adj <<< 12 <<< 48 := by
      rw [← BitVec.shiftLeft_add, ← BitVec.shiftLeft_add, ← BitVec.shiftLeft_add]
      congr 1
      omega
    rw [hcomm, BitVec.toNat_shiftLeft, hshl, Nat.shiftLeft_eq]
    omega

end Double

theorem extenddftf2_isExact (f : BitVec 64) :
    binary64.IsExact binary128 f.toNat (extenddftf2 f).toNat := by
  have hf : f.toNat = (binary64.neg f.toNat).toNat * 2 ^ 63 + binary64.magBits f.toNat :=
    Format.eq_neg_magBits (F := binary64) f.isLt
  have hn : binary64.magBits f.toNat < 2 ^ 63 := Nat.mod_lt _ (by decide)
  have hexp := double_exp hf hn
  have hfrac := double_frac hf
  have hlow := double_low hf
  unfold extenddftf2
  dsimp only
  rw [double_sgn hf hn]
  generalize hm : binary64.magBits f.toNat = n at *
  split
  · next h =>
      have h0 : n = 0 := by
        have := congrArg BitVec.toNat h
        rw [double_shl hf hn, BitVec.toNat_ofNat] at this
        omega
      obtain ⟨hword, hlow0⟩ := double_zero hf h0
      have hext : ExtendsMag binary64 (binary64.magBits f.toNat) 0 := by
        rw [hm, h0]
        exact extendsMag_zero (by decide)
      have hexact := isExact_zero hext
      rw [← hword] at hexact
      rw [hlow0]
      exact hexact
  · next hne =>
      have hn0 : n ≠ 0 := by
        intro h0
        refine hne (BitVec.eq_of_toNat_eq ?_)
        rw [double_shl hf hn, h0]
        rfl
      split
      · -- infinity or a NaN
        next h =>
          have he : n / 2 ^ 52 = 2047 := by rw [← hexp, h]; rfl
          have hinf : binary64.infBits = 2047 * 2 ^ 52 := rfl
          refine isExact_special (by omega) (by omega) ?_ ?_
          · rw [double_quiet hf]; omega
          · rw [hfrac, hlow, hm]; omega
      · next hne2047 =>
          have hne2047' : n / 2 ^ 52 ≠ 2047 := by
            rw [← hexp]; exact fun h => hne2047 (BitVec.eq_of_toNat_eq h)
          split
          · -- subnormal
            next h =>
              have he : n / 2 ^ 52 = 0 := by rw [← hexp, h]; rfl
              have hn52 : n < 2 ^ 52 := by omega
              obtain ⟨hle, g, hg', hg, hfr, hlw⟩ := double_subnormal hf hn52 hn0
              generalize adjLoop (f <<< 1 >>> 1) 52 = adj at *
              have hew := exponentWord_toNat 15360 adj (by norm_num) (by omega)
              have hext := extendsMag_subnormal (F := binary64) (d := 60) (B := 15360) rfl
                (by decide) (by decide) (show adj ≤ 15360 by omega) (by decide) hn52 hg hg'
              refine isExact_words (hm ▸ hext) (by omega) (by omega) ?_
              rw [hew, hfr, hlw]
              omega
          · -- normal
            next h =>
              have he : n / 2 ^ 52 ≠ 0 := by
                rw [← hexp]; exact fun h' => h (BitVec.eq_of_toNat_eq h')
              have hew := double_expWord hf hn
              have hext := extendsMag_normal (F := binary64) (d := 60) (B := 15360)
                (k := n / 2 ^ 52) (f := n % 2 ^ 52) rfl (by decide) (by omega)
                (show _ < 2 ^ 11 - 1 by omega) (by omega) (show _ < 2 ^ 52 by omega)
              rw [show n / 2 ^ 52 * 2 ^ binary64.fracBits + n % 2 ^ 52 = n from
                Nat.div_add_mod' n (2 ^ 52)] at hext
              refine isExact_words (hm ▸ hext) (by omega) (by omega) ?_
              rw [hew, hfrac, hlow]
              omega

/-! ## Truncation -/

section Round

variable {w : ℕ}

/-- The denormalising shift is jamming. -/
theorem shiftSticky_toNat (x : BitVec w) {s : ℕ} (hs : s ≤ w) (hw : 0 < w) :
    (shiftSticky x s).toNat = jam s x.toNat := by
  have hlost : x <<< (w - s) = 0#w ↔ x.toNat % 2 ^ s = 0 := by
    have hpow : 2 ^ w = 2 ^ s * 2 ^ (w - s) := by rw [← pow_add]; congr 1; omega
    rw [← BitVec.toNat_inj, BitVec.toNat_shiftLeft, Nat.shiftLeft_eq, hpow,
      Nat.mul_mod_mul_right, BitVec.toNat_zero, Nat.mul_eq_zero]
    simp
  have hone : (1#w).toNat = 1 := BitVec.toNat_one hw
  unfold shiftSticky jam
  rw [BitVec.toNat_or, BitVec.toNat_ushiftRight, Nat.shiftRight_eq_div_pow]
  simp only [hlost]
  split
  · rw [BitVec.toNat_zero]
  · rw [hone]

/-- Adding the half unit before the shift is rounding after it. -/
theorem addHalf_toNat {x : BitVec w} (hw : 3 ≤ w) (hx : x.toNat + 4 < 2 ^ w) :
    (addHalf x >>> 2).toNat = x.toNat / 4 + roundUp x.toNat := by
  have h8 : 2 ^ 3 ≤ 2 ^ w := Nat.pow_le_pow_right (by decide) hw
  have lit : ∀ k, k < 8 → (BitVec.ofNat w k).toNat = k := fun k hk => by
    rw [BitVec.toNat_ofNat, Nat.mod_eq_of_lt (by omega)]
  have h3 : x &&& 3#w = 3#w ↔ x.toNat % 4 = 3 := by
    rw [← BitVec.toNat_inj, BitVec.toNat_and, lit 3 (by decide),
      show 3 = 2 ^ 2 - 1 from rfl, Nat.and_two_pow_sub_one_eq_mod]
  have h6 : x &&& 7#w = 6#w ↔ x.toNat % 8 = 6 := by
    rw [← BitVec.toNat_inj, BitVec.toNat_and, lit 7 (by decide), lit 6 (by decide),
      show 7 = 2 ^ 3 - 1 from rfl, Nat.and_two_pow_sub_one_eq_mod]
  rw [BitVec.toNat_ushiftRight, Nat.shiftRight_eq_div_pow]
  unfold addHalf roundUp
  simp only [h3, h6]
  by_cases hup : x.toNat % 4 = 3 ∨ x.toNat % 8 = 6
  · rw [if_pos hup, if_pos (by omega), BitVec.toNat_add, lit 4 (by decide), Nat.mod_eq_of_lt hx]
    omega
  · rw [if_neg hup, if_neg (by omega)]
    omega

/-- **The rounding case of both functions.** The word holds the significand, hidden bit and two
    extra bits included, and stands for `t` up to its sticky last bit. -/
theorem truncRound_spec {F : Format} {exp : ℤ} {x : BitVec w} {t : ℚ} (hf : 0 < F.fracBits)
    (hw : w = F.expBits + F.fracBits + 1) (he : 3 ≤ F.expBits) (hlo : 2 ^ (F.fracBits + 2) ≤ x.toNat)
    (hhi : x.toNat < 2 ^ (F.fracBits + 3)) (hmax : exp + 2 < 2 ^ F.expBits) (hmin : -w ≤ exp)
    (ht : Sticky x.toNat t) :
    F.RoundsTo (t / 4 * 2 ^ (exp + 1 - F.bias - F.fracBits))
      (truncRound F.fracBits exp x).toNat := by
  have hsplit : 2 ^ w = 2 * F.signBit := by rw [hw, Format.signBit, pow_succ, pow_add]; ring
  have hf3 : 2 ^ (F.fracBits + 3) = 8 * 2 ^ F.fracBits := by rw [pow_add]; ring
  have hf2 : 2 ^ (F.fracBits + 2) = 4 * 2 ^ F.fracBits := by rw [pow_add]; ring
  have hf1 : 2 ^ (F.fracBits + 1) = 2 * 2 ^ F.fracBits := pow_succ' _ _
  have h16 : 16 * 2 ^ F.fracBits ≤ 2 ^ w := by
    calc 16 * 2 ^ F.fracBits = 2 ^ (F.fracBits + 4) := by rw [pow_add]; ring
      _ ≤ 2 ^ w := Nat.pow_le_pow_right (by decide) (by omega)
  have hinf : F.infBits + 2 ^ F.fracBits = F.signBit := by
    have hpos : 0 < 2 ^ F.expBits := by positivity
    rw [Format.infBits, Format.signBit, ← Nat.succ_mul, Nat.succ_eq_add_one,
      Nat.sub_add_cancel hpos]
  have hfpos : 2 ≤ 2 ^ F.fracBits := by
    calc 2 = 2 ^ 1 := rfl
      _ ≤ 2 ^ F.fracBits := Nat.pow_le_pow_right (by decide) hf
  have hup : ∀ z, roundUp z ≤ 1 := fun z => by unfold roundUp; split <;> omega
  unfold truncRound
  by_cases hneg : exp < 0
  · -- a subnormal result: the exponent field is zero
    obtain ⟨s, hs⟩ : ∃ s : ℕ, -exp = s := ⟨(-exp).toNat, by omega⟩
    have hz : (shiftSticky x s).toNat = jam s x.toNat := shiftSticky_toNat x (by omega) (by omega)
    have hzlt : jam s x.toNat < 2 ^ (F.fracBits + 2) := by
      apply jam_lt (by omega)
      exact lt_of_lt_of_le hhi (Nat.pow_le_pow_right (by decide) (by omega))
    have hpack := Format.roundsTo_pack (F := F) (e := 0) (z := jam s x.toNat) (t := t / 2 ^ s) hf
      (by omega) (fun h => absurd rfl h) (by omega) ((stickyAt_zero.mpr ht).jam (Nat.zero_le s))
    rw [if_pos hneg, hs, Int.toNat_natCast]
    dsimp only
    have hword : BitVec.ofInt w 0 <<< F.fracBits = 0#w := by
      rw [show BitVec.ofInt w 0 = 0#w from BitVec.ofInt_natCast w 0, BitVec.zero_shiftLeft]
    rw [hword, BitVec.add_zero, addHalf_toNat (by omega) (by rw [hz]; omega), hz]
    have hscale : t / 4 * 2 ^ (exp + 1 - F.bias - F.fracBits)
        = t / 2 ^ s / 4 * 2 ^ (((0 : ℕ) : ℤ) + 1 - F.bias - F.fracBits) := by
      rw [show exp + 1 - F.bias - F.fracBits
          = (((0 : ℕ) : ℤ) + 1 - F.bias - F.fracBits) + -(s : ℤ) by rw [← hs]; push_cast; ring,
        zpow_add₀ (by norm_num), zpow_neg, zpow_natCast]
      ring
    rw [hscale]
    rw [Nat.zero_mul, Nat.zero_add] at hpack
    exact hpack
  · obtain ⟨e, rfl⟩ : ∃ e : ℕ, exp = e := ⟨exp.toNat, by omega⟩
    have he2 : e + 2 < 2 ^ F.expBits := by exact_mod_cast hmax
    have hE : (e + 2) * 2 ^ F.fracBits ≤ F.infBits := Nat.mul_le_mul_right _ (by omega)
    rw [Nat.add_mul] at hE
    have hle : e ≤ e * 2 ^ F.fracBits := Nat.le_mul_of_pos_right _ (by omega)
    have hpack := Format.roundsTo_pack (F := F) (e := e) (z := x.toNat) (t := t) hf
      (by omega) (fun _ => by omega) (by omega) ht
    have hword : (BitVec.ofInt w e <<< F.fracBits).toNat = e * 2 ^ F.fracBits := by
      rw [BitVec.ofInt_natCast, BitVec.toNat_shiftLeft, BitVec.toNat_ofNat, Nat.shiftLeft_eq,
        Nat.mod_eq_of_lt (a := e) (by omega), Nat.mod_eq_of_lt (by omega)]
    have hround := hup x.toNat
    rw [if_neg hneg]
    dsimp only
    rw [BitVec.toNat_add, addHalf_toNat (by omega) (by omega), hword, Nat.mod_eq_of_lt (by omega),
      Nat.add_comm, ← Nat.add_assoc]
    exact hpack

end Round

/-- The sign goes above the magnitude. -/
theorem or_sign_toNat {w : ℕ} {m : BitVec (w + 1)} (sgn : Bool) (hm : m.toNat < 2 ^ w) :
    (m ||| BitVec.ofNat (w + 1) sgn.toNat <<< w).toNat = sgn.toNat * 2 ^ w + m.toNat := by
  have hs : (BitVec.ofNat (w + 1) sgn.toNat <<< w).toNat = 2 ^ w * sgn.toNat := by
    have hw : 0 < 2 ^ w := by positivity
    have hle := Bool.toNat_le sgn
    have hlt : sgn.toNat * 2 ^ w < 2 ^ (w + 1) := by
      rw [pow_succ']
      exact lt_of_le_of_lt (Nat.mul_le_mul_right _ hle) (by omega)
    rw [BitVec.toNat_shiftLeft, BitVec.toNat_ofNat, Nat.shiftLeft_eq,
      Nat.mod_eq_of_lt (a := sgn.toNat) (by rw [pow_succ']; omega), Nat.mod_eq_of_lt hlt,
      Nat.mul_comm]
  rw [BitVec.toNat_or, hs, Nat.or_comm, ← Nat.two_pow_add_eq_or_of_lt hm, Nat.mul_comm]

/-! ### To `float` and to `double` -/

/-- The kept bits of a significand with the rest flagged: the two-limb form of jamming. -/
theorem floatWord_toNat {m : U128} (hm : m.toNat < 2 ^ 113) :
    ((m.x1 >>> 23 ||| boolWord (m.x0 ||| m.x1 <<< 41)).setWidth 32).toNat = jam 87 m.toNat := by
  have h0 := m.x0.isLt
  have hx : m.toNat = m.x1.toNat * 2 ^ 64 + m.x0.toNat := rfl
  have hlost : (m.x0 ||| m.x1 <<< 41).toNat = 0 ↔ m.toNat % 2 ^ 87 = 0 := by
    rw [BitVec.toNat_or, Nat.or_eq_zero_iff, BitVec.toNat_shiftLeft, Nat.shiftLeft_eq, hx]
    omega
  have hword : (m.x1 >>> 23 ||| boolWord (m.x0 ||| m.x1 <<< 41)).toNat = jam 87 m.toNat := by
    rw [BitVec.toNat_or, boolWord_toNat, BitVec.toNat_ushiftRight, Nat.shiftRight_eq_div_pow, jam,
      show m.toNat / 2 ^ 87 = m.x1.toNat / 2 ^ 23 by omega]
    simp only [hlost]
  rw [BitVec.toNat_setWidth, hword, Nat.mod_eq_of_lt]
  exact lt_of_lt_of_le (jam_lt (j := 26) (by decide) hm) (by decide)

theorem doubleWord_toNat {m : U128} (hm : m.toNat < 2 ^ 113) :
    (m.x1 <<< 6 ||| m.x0 >>> 58 ||| boolWord (m.x0 <<< 6)).toNat = jam 58 m.toNat := by
  have h0 := m.x0.isLt
  have hx : m.toNat = m.x1.toNat * 2 ^ 64 + m.x0.toNat := rfl
  have hlost : (m.x0 <<< 6).toNat = 0 ↔ m.toNat % 2 ^ 58 = 0 := by
    rw [BitVec.toNat_shiftLeft, Nat.shiftLeft_eq, hx]
    omega
  have hkept : m.x1.toNat * 2 ^ 6 % 2 ^ 64 ||| m.x0.toNat / 2 ^ 58 = m.toNat / 2 ^ 58 := by
    rw [Nat.mod_eq_of_lt (by omega), Nat.mul_comm,
      ← Nat.two_pow_add_eq_or_of_lt (i := 6) (by omega), hx]
    omega
  rw [BitVec.toNat_or, BitVec.toNat_or, boolWord_toNat, BitVec.toNat_ushiftRight,
    BitVec.toNat_shiftLeft, Nat.shiftRight_eq_div_pow, Nat.shiftLeft_eq, hkept, jam]
  simp only [hlost]

/-- Exponents below `k` are magnitudes below a power of two. -/
theorem mag_lt_of_exp {n : ℕ} {k : ℤ} (h : unpackedExp n < k) :
    binary128.mag n < 2 ^ (k - 16383 : ℤ) := by
  have hs : (binary128.significand n : ℚ) < 2 ^ (113 : ℤ) := by exact_mod_cast significand_lt n
  calc binary128.mag n = binary128.significand n * 2 ^ (unpackedExp n - 16495) :=
        mag_eq_significand n
    _ < 2 ^ (113 : ℤ) * 2 ^ (unpackedExp n - 16495) := mul_lt_mul_of_pos_right hs (by positivity)
    _ = 2 ^ (113 + (unpackedExp n - 16495)) := (zpow_add₀ (by norm_num) _ _).symm
    _ ≤ 2 ^ (k - 16383 : ℤ) := zpow_le_zpow_right₀ (by norm_num) (by omega)

/-- Exponents from `k` on are magnitudes from that power of two on. -/
theorem le_mag_of_exp {n : ℕ} {k : ℤ} (h1 : 1 < k) (h : k ≤ unpackedExp n) :
    2 ^ (k - 16383 : ℤ) ≤ binary128.mag n := by
  have hs : (2 : ℚ) ^ (112 : ℤ) ≤ binary128.significand n := by
    exact_mod_cast significand_of_lt_exp (n := n) (by omega)
  calc (2 : ℚ) ^ (k - 16383 : ℤ) ≤ 2 ^ (112 + (unpackedExp n - 16495)) :=
        zpow_le_zpow_right₀ (by norm_num) (by omega)
    _ = 2 ^ (112 : ℤ) * 2 ^ (unpackedExp n - 16495) := zpow_add₀ (by norm_num) _ _
    _ ≤ binary128.significand n * 2 ^ (unpackedExp n - 16495) :=
        mul_le_mul_of_nonneg_right hs (by positivity)
    _ = binary128.mag n := (mag_eq_significand n).symm

/-- The rounding branch, for the `c` bits of the significand that the narrower format drops. -/
theorem truncRound_mag {F : Format} {w c n : ℕ} {x : BitVec w} {k : ℤ} {m : U128}
    (hf : 0 < F.fracBits) (hw : w = F.expBits + F.fracBits + 1) (he : 3 ≤ F.expBits)
    (hc : c + F.fracBits = 110) (hk : k = 16384 - F.bias)
    (hm : m.toNat = binary128.significand n) (hx : x.toNat = jam c m.toNat)
    (hexp : 1 < unpackedExp n) (hmax : unpackedExp n - k + 2 < 2 ^ F.expBits)
    (hmin : -w ≤ unpackedExp n - k) :
    F.RoundsTo (binary128.mag n) (truncRound F.fracBits (unpackedExp n - k) x).toNat := by
  have hlo : 2 ^ (F.fracBits + 2) ≤ x.toNat := by
    rw [hx, hm]
    apply le_jam
    rw [show c + (F.fracBits + 2) = 112 by omega]
    exact significand_of_lt_exp hexp
  have hhi : x.toNat < 2 ^ (F.fracBits + 3) := by
    rw [hx, hm]
    apply jam_lt (by omega)
    rw [show c + (F.fracBits + 3) = 113 by omega]
    exact significand_lt n
  have hround := truncRound_spec hf hw he hlo hhi hmax hmin (hx ▸ sticky_jam c m.toNat)
  have hscale : binary128.mag n
      = (m.toNat : ℚ) / 2 ^ c / 4 * 2 ^ (unpackedExp n - k + 1 - F.bias - F.fracBits) := by
    have hexpo : unpackedExp n - k + 1 - F.bias - F.fracBits
        = (unpackedExp n - 16495) + ((c : ℤ) + 2) := by
      have : (c : ℤ) + F.fracBits = 110 := by exact_mod_cast hc
      omega
    rw [mag_eq_significand, hm, hexpo, zpow_add₀ (by norm_num), zpow_add₀ (by norm_num),
      zpow_natCast]
    have hpos : (2 : ℚ) ^ c ≠ 0 := by positivity
    field_simp
    norm_num
  rw [hscale]
  exact hround

/-- What the magnitude bits `r` truncated from `n` must satisfy. -/
structure TruncatesMag (F : Format) (n r : ℕ) : Prop where
  lt : r < F.signBit
  nan : binary128.infBits < n → F.infBits < r
  inf : n = binary128.infBits → r = F.infBits
  finite : n < binary128.infBits → F.RoundsTo (binary128.mag n) r

theorem TruncatesMag.isRounding {F : Format} {b r : ℕ} {c : BitVec 128}
    (h : TruncatesMag F (binary128.magBits c.toNat) r)
    (hb : b = (binary128.neg c.toNat).toNat * F.signBit + r) :
    binary128.IsRounding F c.toNat b :=
  Format.isRounding_of_eq h.lt hb h.nan h.inf h.finite

section Branches

/-! The four branches both functions have. -/

variable {F : Format} {n : ℕ}

theorem infBits_lt_signBit (F : Format) : F.infBits < F.signBit := by
  have hpos : 0 < 2 ^ F.expBits := by positivity
  exact Nat.mul_lt_mul_of_pos_right (Nat.sub_lt hpos Nat.one_pos) (by positivity)

theorem truncatesMag_nan {r : ℕ} (hn : binary128.infBits < n) (hlt : r < F.signBit)
    (hr : F.infBits < r) : TruncatesMag F n r where
  lt := hlt
  nan _ := hr
  inf h := absurd hn (by rw [h]; exact lt_irrefl _)
  finite h := absurd h (by omega)

/-- Infinities and everything that overflows. -/
theorem truncatesMag_overflow (hn : ¬binary128.infBits < n) (he : 0 < F.expBits)
    {k : ℤ} (hk : (2 : ℤ) ^ F.expBits - 1 - F.bias = k - 16383)
    (hk1 : 1 < k) (hexp : k ≤ unpackedExp n) :
    TruncatesMag F n F.infBits where
  lt := infBits_lt_signBit F
  nan h := absurd h hn
  inf _ := rfl
  finite _ := by
    apply Format.roundsTo_infBits
    rw [F.mag_infBits he, hk]
    exact le_mag_of_exp hk1 hexp

/-- Everything below half the smallest subnormal. -/
theorem truncatesMag_underflow (hn : n < binary128.infBits) (hf : 0 < F.fracBits)
    (he : 0 < F.expBits) {k : ℤ} (hk : 1 - F.bias - F.fracBits = k - 16382)
    (hexp : unpackedExp n < k) : TruncatesMag F n 0 where
  lt := lt_of_le_of_lt (Nat.zero_le _) (infBits_lt_signBit F)
  nan h := by omega
  inf h := by omega
  finite _ := by
    have hpos : 0 < F.infBits :=
      Nat.mul_pos (Nat.sub_pos_of_lt (Nat.one_lt_two_pow he.ne')) (by positivity)
    apply Format.roundsTo_zero hpos (binary128.mag_nonneg n)
    rw [F.mag_one hf, hk, show k - 16382 = (k - 16383) + 1 by ring, zpow_add_one₀ (by norm_num)]
    linarith [mag_lt_of_exp hexp]

theorem truncatesMag_round {r : ℕ} (hn : n < binary128.infBits)
    (hr : F.RoundsTo (binary128.mag n) r) : TruncatesMag F n r where
  lt := lt_of_le_of_lt hr.le_inf (infBits_lt_signBit F)
  nan h := by omega
  inf h := by omega
  finite _ := hr

end Branches

/-- A quiet NaN stays one whatever payload is or-ed in. -/
theorem quiet_or {w k : ℕ} {q fr : BitVec w} (hq : q.toNat < 2 ^ k) (hfr : fr.toNat < 2 ^ k) :
    (q ||| fr).toNat < 2 ^ k ∧ q.toNat ≤ (q ||| fr).toNat := by
  rw [BitVec.toNat_or]
  exact ⟨Nat.or_lt_two_pow hq hfr, Nat.left_le_or⟩

theorem trunctfsf2_isRounding (f : BitVec 128) :
    binary128.IsRounding binary32 f.toNat (trunctfsf2 f).toNat := by
  obtain ⟨m, hu, hm⟩ := f3Unpack_spec f
  have hlt : binary128.magBits f.toNat < 2 ^ 127 := Nat.mod_lt _ (by decide)
  have hnan := isNaNPattern_iff _ hlt m hm
  have hspecial := unpackedExp_eq_iff hlt
  -- every branch ors the sign over its magnitude bits
  have finish : ∀ r : BitVec 32,
      TruncatesMag binary32 (binary128.magBits f.toNat) r.toNat →
      binary128.IsRounding binary32 f.toNat
        (r ||| BitVec.ofNat 32 (binary128.neg f.toNat).toNat <<< 31).toNat :=
    fun r hr => hr.isRounding (or_sign_toNat (w := 31) _ hr.lt)
  unfold trunctfsf2
  rw [hu]
  dsimp only
  split
  · next h =>
      have hfr : ((m.x1 >>> 25 &&& 0x007fffff#64).setWidth 32).toNat < 2 ^ 31 := by
        rw [BitVec.toNat_setWidth]
        have : (m.x1 >>> 25 &&& 0x007fffff#64).toNat ≤ 0x007fffff := by
          rw [BitVec.toNat_and]
          exact Nat.and_le_right
        omega
      rw [BitVec.or_assoc, BitVec.or_comm (BitVec.ofNat 32 _ <<< 31), ← BitVec.or_assoc]
      obtain ⟨hlt31, hgt⟩ := quiet_or (q := 0x7fc00000#32) (k := 31) (by decide) hfr
      exact finish _ (truncatesMag_nan (hnan.mp h) hlt31 (lt_of_lt_of_le (by decide) hgt))
  · next h =>
      rw [hnan] at h
      split
      · exact finish _ (truncatesMag_overflow (k := 16511) h (by decide) (by decide) (by decide)
          (by omega))
      · next hover =>
          have hfin : binary128.magBits f.toNat < binary128.infBits := by
            by_contra hge
            have := hspecial.mpr (by omega)
            omega
          split
          · next hunder =>
              have := finish 0#32 (truncatesMag_underflow (k := 16233) hfin (by decide) (by decide)
                (by decide) hunder)
              rw [BitVec.zero_or] at this
              exact this
          · next hunder =>
              refine finish _ (truncatesMag_round hfin ?_)
              exact truncRound_mag (F := binary32) (by decide) rfl (by decide) rfl (by decide) hm
                (floatWord_toNat (hm ▸ significand_lt _)) (by omega)
                (show _ < (2 : ℤ) ^ 8 by norm_num; omega) (by push_cast; omega)

theorem trunctfdf2_isRounding (f : BitVec 128) :
    binary128.IsRounding binary64 f.toNat (trunctfdf2 f).toNat := by
  obtain ⟨m, hu, hm⟩ := f3Unpack_spec f
  have hlt : binary128.magBits f.toNat < 2 ^ 127 := Nat.mod_lt _ (by decide)
  have hnan := isNaNPattern_iff _ hlt m hm
  have hspecial := unpackedExp_eq_iff hlt
  have finish : ∀ r : BitVec 64,
      TruncatesMag binary64 (binary128.magBits f.toNat) r.toNat →
      binary128.IsRounding binary64 f.toNat (r ||| sgnWord (binary128.neg f.toNat)).toNat :=
    fun r hr => hr.isRounding (or_sign_toNat (w := 63) _ hr.lt)
  unfold trunctfdf2
  rw [hu]
  dsimp only
  split
  · next h =>
      have hhigh : (m.x1 <<< 16 >>> 12).toNat < 2 ^ 63 := by
        have := (m.x1 <<< 16).isLt
        rw [BitVec.toNat_ushiftRight, Nat.shiftRight_eq_div_pow]
        omega
      have hlow : (m.x0 >>> 60).toNat < 2 ^ 63 := by
        have := m.x0.isLt
        rw [BitVec.toNat_ushiftRight, Nat.shiftRight_eq_div_pow]
        omega
      have hfr : (m.x1 <<< 16 >>> 12 ||| m.x0 >>> 60).toNat < 2 ^ 63 := by
        rw [BitVec.toNat_or]
        exact Nat.or_lt_two_pow hhigh hlow
      rw [BitVec.or_assoc, BitVec.or_assoc, BitVec.or_comm (sgnWord _), ← BitVec.or_assoc]
      obtain ⟨hlt63, hgt⟩ := quiet_or (q := 0x7ff8000000000000#64) (k := 63) (by decide) hfr
      exact finish _ (truncatesMag_nan (hnan.mp h) hlt63 (lt_of_lt_of_le (by decide) hgt))
  · next h =>
      rw [hnan] at h
      split
      · exact finish _ (truncatesMag_overflow (k := 17407) h (by decide) (by decide) (by decide)
          (by omega))
      · next hover =>
          have hfin : binary128.magBits f.toNat < binary128.infBits := by
            by_contra hge
            have := hspecial.mpr (by omega)
            omega
          split
          · next hunder =>
              have := finish 0#64 (truncatesMag_underflow (k := 15308) hfin (by decide) (by decide)
                (by decide) hunder)
              rw [BitVec.zero_or] at this
              exact this
          · next hunder =>
              refine finish _ (truncatesMag_round hfin ?_)
              exact truncRound_mag (F := binary64) (by decide) rfl (by decide) rfl (by decide) hm
                (doubleWord_toNat (hm ▸ significand_lt _)) (by omega)
                (show _ < (2 : ℤ) ^ 11 by norm_num; omega) (by push_cast; omega)

/-! ## All four -/

/-- **Extension is exact, truncation rounds to nearest even, and truncating undoes extending.** -/
theorem convert_correct :
    (∀ x : BitVec 32, binary32.IsExact binary128 x.toNat (extendsftf2 x).toNat) ∧
    (∀ x : BitVec 64, binary64.IsExact binary128 x.toNat (extenddftf2 x).toNat) ∧
    (∀ x : BitVec 128, binary128.IsRounding binary32 x.toNat (trunctfsf2 x).toNat) ∧
    (∀ x : BitVec 128, binary128.IsRounding binary64 x.toNat (trunctfdf2 x).toNat) ∧
    (∀ x : BitVec 32, ¬binary32.isNaN x.toNat → trunctfsf2 (extendsftf2 x) = x) ∧
    (∀ x : BitVec 64, ¬binary64.isNaN x.toNat → trunctfdf2 (extenddftf2 x) = x) := by
  refine ⟨extendsftf2_isExact, extenddftf2_isExact, trunctfsf2_isRounding, trunctfdf2_isRounding,
    ?_, ?_⟩
  · intro x hx
    apply BitVec.eq_of_toNat_eq
    exact Format.IsRounding.of_isExact (extendsftf2_isExact x) (trunctfsf2_isRounding _) x.isLt
      (trunctfsf2 _).isLt hx
  · intro x hx
    apply BitVec.eq_of_toNat_eq
    exact Format.IsRounding.of_isExact (extenddftf2_isExact x) (trunctfdf2_isRounding _) x.isLt
      (trunctfdf2 _).isLt hx

end TccRiscv64.Lib
