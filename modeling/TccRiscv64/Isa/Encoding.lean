import Mathlib

set_option autoImplicit false

/-! # Instruction formats of RV64

The immediate layouts of the 32-bit formats I, S, B, U, J and of the compressed formats CB and CJ,
with the mask of the bits each immediate occupies, and the lemmas that relate a displacement to the
sign-extended field that can hold it. -/

namespace TccRiscv64.Isa

/-! ## Immediate layouts -/

/-- Immediate of the I format (loads, `jalr`, register-immediate arithmetic). -/
def immI (w : BitVec 32) : BitVec 64 :=
  (w.extractLsb' 20 12).signExtend 64

/-- Immediate of the S format (stores). -/
def immS (w : BitVec 32) : BitVec 64 :=
  (w.extractLsb' 25 7 ++ w.extractLsb' 7 5).signExtend 64

/-- Immediate of the B format (conditional branches). -/
def immB (w : BitVec 32) : BitVec 64 :=
  (w.extractLsb' 31 1 ++ w.extractLsb' 7 1 ++ w.extractLsb' 25 6 ++ w.extractLsb' 8 4 ++
    0#1).signExtend 64

/-- Immediate of the U format (`lui`, `auipc`). -/
def immU (w : BitVec 32) : BitVec 64 :=
  (w.extractLsb' 12 20 ++ 0#12).signExtend 64

/-- Immediate of the J format (`jal`). -/
def immJ (w : BitVec 32) : BitVec 64 :=
  (w.extractLsb' 31 1 ++ w.extractLsb' 12 8 ++ w.extractLsb' 20 1 ++ w.extractLsb' 21 10 ++
    0#1).signExtend 64

/-- Immediate of the compressed CB format (`c.beqz`, `c.bnez`). -/
def immCB (h : BitVec 16) : BitVec 64 :=
  (h.extractLsb' 12 1 ++ h.extractLsb' 5 2 ++ h.extractLsb' 2 1 ++ h.extractLsb' 10 2 ++
    h.extractLsb' 3 2 ++ 0#1).signExtend 64

/-- Immediate of the compressed CJ format (`c.j`). -/
def immCJ (h : BitVec 16) : BitVec 64 :=
  (h.extractLsb' 12 1 ++ h.extractLsb' 8 1 ++ h.extractLsb' 9 2 ++ h.extractLsb' 6 1 ++
    h.extractLsb' 7 1 ++ h.extractLsb' 2 1 ++ h.extractLsb' 11 1 ++ h.extractLsb' 3 3 ++
    0#1).signExtend 64

/-! ## Bits an immediate occupies -/

def maskI : BitVec 32 := 0xfff00000#32
def maskS : BitVec 32 := 0xfe000f80#32
def maskB : BitVec 32 := 0xfe000f80#32
def maskU : BitVec 32 := 0xfffff000#32
def maskJ : BitVec 32 := 0xfffff000#32
def maskCB : BitVec 16 := 0x1c7c#16
def maskCJ : BitVec 16 := 0x1ffc#16

/-- `w` and `w'` differ at most in the bits of the field `mask`. -/
def SameOutside {n : Nat} (mask w w' : BitVec n) : Prop :=
  w' &&& ~~~mask = w &&& ~~~mask

instance {n : Nat} (mask w w' : BitVec n) : Decidable (SameOutside mask w w') :=
  inferInstanceAs (Decidable (_ = _))

/-! ## What an executed instruction computes from its immediate -/

/-- Target of a taken conditional branch at `pc`. -/
def branchTarget (pc : BitVec 64) (w : BitVec 32) : BitVec 64 := pc + immB w

/-- Target of `jal` at `pc`. -/
def jalTarget (pc : BitVec 64) (w : BitVec 32) : BitVec 64 := pc + immJ w

/-- Target of a taken compressed branch at `pc`. -/
def cbTarget (pc : BitVec 64) (h : BitVec 16) : BitVec 64 := pc + immCB h

/-- Target of a compressed jump at `pc`. -/
def cjTarget (pc : BitVec 64) (h : BitVec 16) : BitVec 64 := pc + immCJ h

/-- Value `auipc` at `pc` leaves in its destination register. -/
def auipcValue (pc : BitVec 64) (w : BitVec 32) : BitVec 64 := pc + immU w

/-- Target of `jalr` with base register value `base`; the lowest bit is cleared. -/
def jalrTarget (base : BitVec 64) (w : BitVec 32) : BitVec 64 := (base + immI w) &&& ~~~1#64

/-- Address (or sum) an I-format instruction forms from the base register. -/
def addrI (base : BitVec 64) (w : BitVec 32) : BitVec 64 := base + immI w

/-- Address an S-format instruction forms from the base register. -/
def addrS (base : BitVec 64) (w : BitVec 32) : BitVec 64 := base + immS w

/-! ## Displacements that fit a signed field -/

/-- `x`, read as a signed number, fits `n` bits. -/
def FitsSigned (n : Nat) (x : BitVec 64) : Prop :=
  -(2 ^ (n - 1) : Int) ≤ x.toInt ∧ x.toInt < 2 ^ (n - 1)

instance (n : Nat) (x : BitVec 64) : Decidable (FitsSigned n x) :=
  inferInstanceAs (Decidable (_ ∧ _))

/-- Biasing turns the signed range into an unsigned one. -/
theorem add_bias_lt_iff {n : Nat} (hn : n < 63) (x : BitVec 64) :
    (x + BitVec.ofNat 64 (2 ^ n)).toNat < 2 ^ (n + 1) ↔ FitsSigned (n + 1) x := by
  have hpow : 2 ^ n < 2 ^ 63 := Nat.pow_lt_pow_right (by decide) hn
  have hp : 2 ^ (n + 1) = 2 * 2 ^ n := by rw [pow_succ, Nat.mul_comm]
  have hc : (2 ^ n : Int) = ((2 ^ n : Nat) : Int) := by push_cast; rfl
  have hx := x.isLt
  rw [FitsSigned, Nat.add_sub_cancel, hc, hp, BitVec.toInt_eq_toNat_cond, BitVec.toNat_add,
    BitVec.toNat_ofNat]
  generalize 2 ^ n = b at *
  split <;> omega

/-- A mask of the shape `2 ^ (n + 1) - 2` keeps bits 1 to `n`. -/
theorem and_not_mask_eq_zero_iff {n w : Nat} (hw : 0 < w) (y : BitVec w) :
    y &&& ~~~BitVec.ofNat w (2 ^ (n + 1) - 2) = 0#w
      ↔ y.getLsbD 0 = false ∧ y.toNat < 2 ^ (n + 1) := by
  have hmask : ∀ i < w, (BitVec.ofNat w (2 ^ (n + 1) - 2)).getLsbD i = decide (1 ≤ i ∧ i ≤ n) := by
    intro i hi
    have hsub : 2 ^ (n + 1) - 2 = 2 * (2 ^ n - 1) := by rw [pow_succ]; omega
    rw [BitVec.getLsbD_ofNat, decide_eq_true hi, Bool.true_and, hsub]
    rcases i with _ | i
    · simp
    · rw [Nat.testBit_succ, Nat.mul_div_cancel_left _ (by decide), Nat.testBit_two_pow_sub_one]
      exact decide_eq_decide.2 (by omega)
  constructor
  · intro h
    have hbit : ∀ i < w, (y.getLsbD i && !decide (1 ≤ i ∧ i ≤ n)) = false := by
      intro i hi
      have hand := congrArg (fun z => z.getLsbD i) h
      simp only [BitVec.getLsbD_and, BitVec.getLsbD_not, hmask i hi, decide_eq_true hi,
        Bool.true_and, BitVec.getLsbD_zero] at hand
      exact hand
    constructor
    · simpa using hbit 0 hw
    · apply Nat.lt_pow_two_of_testBit
      intro i hi
      by_cases hlt : i < w
      · have := hbit i hlt
        rw [decide_eq_false (by omega), Bool.not_false, Bool.and_true] at this
        exact this
      · exact BitVec.getLsbD_of_ge y i (by omega)
  · rintro ⟨h0, hlt⟩
    apply BitVec.eq_of_getLsbD_eq
    intro i hi
    rw [BitVec.getLsbD_and, BitVec.getLsbD_not, hmask i hi, decide_eq_true hi]
    rcases i with _ | i
    · simp only [h0, Bool.false_and, BitVec.getLsbD_zero]
    · by_cases hin : i + 1 ≤ n
      · simp [hin]
      · have : y.getLsbD (i + 1) = false :=
          Nat.testBit_lt_two_pow (hlt.trans_le (Nat.pow_le_pow_right (by decide) (by omega)))
        rw [this, Bool.false_and, BitVec.getLsbD_zero]

/-- A displacement survives truncation to `n` bits and sign extension exactly when it fits. -/
theorem signExtend_setWidth_eq_iff {n : Nat} (hn : 0 < n) (hn' : n ≤ 64) (x : BitVec 64) :
    (x.setWidth n).signExtend 64 = x ↔ FitsSigned n x := by
  obtain ⟨k, rfl⟩ : ∃ k, n = k + 1 := ⟨n - 1, by omega⟩
  have hdvd : 2 ^ (k + 1) ∣ 2 ^ 64 := Nat.pow_dvd_pow 2 hn'
  have hx : Int.bmod x.toNat (2 ^ (k + 1)) = Int.bmod x.toInt (2 ^ (k + 1)) := by
    rw [BitVec.toInt_eq_toNat_bmod, Int.bmod_bmod_of_dvd hdvd]
  rw [← BitVec.toInt_inj, BitVec.toInt_signExtend_of_le hn', BitVec.toInt_setWidth, hx,
    Int.bmod_eq_iff (Nat.two_pow_pos _)]
  unfold FitsSigned
  have hp : (2 ^ (k + 1) : Nat) = 2 * 2 ^ k := by rw [pow_succ, Nat.mul_comm]
  have hc : (2 ^ k : Int) = ((2 ^ k : Nat) : Int) := by push_cast; rfl
  rw [hp, Nat.add_sub_cancel, hc]
  push_cast
  constructor
  · rintro ⟨hlo, hhi, -⟩
    omega
  · rintro ⟨hlo, hhi⟩
    exact ⟨by omega, by omega, by simp⟩

/-- A field that leaves bit 0 out is the whole low part of an even number. -/
theorem extractLsb'_append_zero {n : Nat} (x : BitVec 64) (h0 : x.getLsbD 0 = false) :
    x.extractLsb' 1 n ++ 0#1 = x.setWidth (n + 1) := by
  apply BitVec.eq_of_getLsbD_eq
  intro i hi
  simp only [BitVec.getLsbD_append, BitVec.getLsbD_extractLsb', BitVec.getLsbD_setWidth,
    BitVec.getLsbD_zero]
  grind

/-- An `n`-bit field that leaves bit 0 out holds a displacement exactly when that is even and
fits `n + 1` bits. -/
theorem signExtend_even_eq_iff {n : Nat} (hn : n < 64) (x : BitVec 64) :
    (x.extractLsb' 1 n ++ 0#1).signExtend 64 = x ↔ x.getLsbD 0 = false ∧ FitsSigned (n + 1) x := by
  constructor
  · intro h
    have h0 : x.getLsbD 0 = false := by
      rw [← h, BitVec.getLsbD_signExtend, BitVec.getLsbD_append]
      simp
    rw [extractLsb'_append_zero x h0] at h
    exact ⟨h0, (signExtend_setWidth_eq_iff (by omega) (by omega) x).1 h⟩
  · rintro ⟨h0, hfit⟩
    rw [extractLsb'_append_zero x h0]
    exact (signExtend_setWidth_eq_iff (by omega) (by omega) x).2 hfit

/-! ## The upper/lower split of a 32-bit displacement -/

/-- The upper 20 bits and the lower 12 bits, put together, are the sign-extended low word. -/
theorem upper_add_lower (y : BitVec 64) :
    (y.extractLsb' 12 20 ++ 0#12).signExtend 64 + (y.setWidth 12).setWidth 64
      = (y.setWidth 32).signExtend 64 := by
  rw [BitVec.add_eq_or_of_and_eq_zero]
  · apply BitVec.eq_of_getLsbD_eq
    intro i hi
    simp only [BitVec.getLsbD_or, BitVec.getLsbD_signExtend, BitVec.getLsbD_append,
      BitVec.getLsbD_extractLsb', BitVec.getLsbD_setWidth, BitVec.getLsbD_zero,
      BitVec.msb_eq_getLsbD_last]
    grind
  · apply BitVec.eq_of_getLsbD_eq
    intro i hi
    simp only [BitVec.getLsbD_and, BitVec.getLsbD_signExtend, BitVec.getLsbD_append,
      BitVec.getLsbD_setWidth, BitVec.getLsbD_zero]
    grind

/-- The signed low 12 bits are the low 12 bits after rounding to the nearest `0x1000`, less the
`0x800` that the rounding adds. -/
theorem signExtend_lower (x : BitVec 64) :
    (x.setWidth 12).signExtend 64 + 0x800#64 = ((x + 0x800#64).setWidth 12).setWidth 64 := by
  apply BitVec.eq_of_toNat_eq
  have hx := x.isLt
  rw [BitVec.toNat_add, BitVec.toNat_signExtend]
  simp only [BitVec.toNat_setWidth, BitVec.toNat_add, BitVec.toNat_ofNat, BitVec.msb_eq_decide,
    decide_eq_true_eq]
  split <;> omega

/-- `auipc` with the rounded upper part, followed by an instruction with the signed lower part,
spans a displacement exactly when that, rounded, fits 32 bits. -/
theorem upper_add_signed_lower_eq_iff (x : BitVec 64) :
    ((x + 0x800#64).extractLsb' 12 20 ++ 0#12).signExtend 64 + (x.setWidth 12).signExtend 64 = x
      ↔ FitsSigned 32 (x + 0x800#64) := by
  rw [← signExtend_setWidth_eq_iff (by decide) (by decide), ← upper_add_lower, ← signExtend_lower,
    ← BitVec.add_assoc]
  constructor
  · intro h
    rw [h]
  · intro h
    exact add_right_cancel h

/-- The pair spans the displacement or misses it by a multiple of `2 ^ 32`, never by one. -/
theorem upper_add_signed_lower_ne_add_one (x : BitVec 64) :
    ((x + 0x800#64).extractLsb' 12 20 ++ 0#12).signExtend 64 + (x.setWidth 12).signExtend 64
      ≠ x + 1#64 := by
  intro h
  have hsum : ((x + 0x800#64).setWidth 32).signExtend 64 = (x + 0x800#64) + 1#64 := by
    rw [← upper_add_lower, ← signExtend_lower, ← BitVec.add_assoc, h]
    ring
  generalize x + 0x800#64 = y at hsum
  have hround : ((y.setWidth 32).signExtend 64).setWidth 32 = y.setWidth 32 := by
    apply BitVec.eq_of_getLsbD_eq
    intro i hi
    simp only [BitVec.getLsbD_setWidth, BitVec.getLsbD_signExtend]
    grind
  rw [hsum, BitVec.setWidth_add _ _ (by decide), add_eq_left] at hround
  exact absurd hround (by decide)

/-! ## Clearing the lowest bit -/

/-- A number with bit 0 clear is its own rounding. -/
theorem and_not_one_of_even {v : BitVec 64} (h0 : v.getLsbD 0 = false) : v &&& ~~~1#64 = v := by
  apply BitVec.eq_of_getLsbD_eq
  intro i hi
  rw [BitVec.getLsbD_and, BitVec.getLsbD_not, BitVec.getLsbD_one]
  rcases i with _ | i
  · rw [h0, Bool.false_and]
  · simp [hi]

/-- Rounding down to an even number moves by at most one. -/
theorem and_not_one_eq {t v : BitVec 64} (h : t &&& ~~~1#64 = v) :
    v.getLsbD 0 = false ∧ (t = v ∨ t = v + 1#64) := by
  subst h
  have heven : (t &&& ~~~1#64).getLsbD 0 = false := by
    rw [BitVec.getLsbD_and, BitVec.getLsbD_not, BitVec.getLsbD_one]
    simp
  refine ⟨heven, ?_⟩
  cases h0 : t.getLsbD 0 with
  | false =>
    left
    exact (and_not_one_of_even h0).symm
  | true =>
    right
    rw [BitVec.add_eq_or_of_and_eq_zero]
    · apply BitVec.eq_of_getLsbD_eq
      intro i hi
      rw [BitVec.getLsbD_or, BitVec.getLsbD_and, BitVec.getLsbD_not, BitVec.getLsbD_one]
      rcases i with _ | i
      · simpa using h0
      · simp [hi]
    · rw [BitVec.and_assoc, BitVec.and_comm (~~~1#64), BitVec.and_not_self]
      exact BitVec.and_zero

/-- `auipc` and `jalr` with the two parts of a displacement go to the target exactly when the rounded
displacement fits 32 bits and the target is even. -/
theorem jalr_pair_eq_iff (pc val : BitVec 64) :
    (pc + ((val - pc + 0x800#64).extractLsb' 12 20 ++ 0#12).signExtend 64 +
        ((val - pc).setWidth 12).signExtend 64) &&& ~~~1#64 = val
      ↔ FitsSigned 32 (val - pc + 0x800#64) ∧ val.getLsbD 0 = false := by
  rw [add_assoc]
  have hpair := upper_add_signed_lower_eq_iff (val - pc)
  have hoff := upper_add_signed_lower_ne_add_one (val - pc)
  generalize ((val - pc + 0x800#64).extractLsb' 12 20 ++ 0#12).signExtend 64 +
    ((val - pc).setWidth 12).signExtend 64 = spanned at hpair hoff ⊢
  rw [← hpair]
  constructor
  · intro h
    obtain ⟨heven, heq | heq⟩ := and_not_one_eq h
    · exact ⟨eq_sub_of_add_eq' heq, heven⟩
    · refine absurd ?_ hoff
      rw [sub_add_eq_add_sub, ← heq, add_sub_cancel_left]
  · rintro ⟨heq, heven⟩
    rw [heq, add_sub_cancel, and_not_one_of_even heven]

end TccRiscv64.Isa
