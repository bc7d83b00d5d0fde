import TccRiscv64.Gen.Registers

set_option autoImplicit false

/-! # Loading constants

What the code that `load` emits for a constant leaves in the register, and which address it loads
from when the constant is an address. -/

namespace TccRiscv64.Gen

open TccRiscv64.Isa

/-! ## Numbers in a register -/

theorem ofInt_shiftLeft (a : Int) (k : Nat) :
    BitVec.ofInt 64 a <<< k = BitVec.ofInt 64 (a * 2 ^ k) := by
  have htwo : BitVec.ofInt 64 (2 ^ k) = BitVec.twoPow 64 k := by
    apply BitVec.eq_of_toNat_eq
    rw [BitVec.toNat_twoPow, show (2 : Int) ^ k = ((2 ^ k : Nat) : Int) by push_cast; rfl,
      BitVec.ofInt_natCast, BitVec.toNat_ofNat]
  rw [BitVec.shiftLeft_eq_mul_twoPow, BitVec.ofInt_mul, htwo]

theorem ofInt_eq_iff {a b : Int} :
    BitVec.ofInt 64 a = BitVec.ofInt 64 b ↔ a % 2 ^ 64 = b % 2 ^ 64 := by
  rw [← BitVec.toNat_inj, BitVec.toNat_ofInt, BitVec.toNat_ofInt]
  have ha := Int.emod_nonneg a (show ((2 ^ 64 : Nat) : Int) ≠ 0 by decide)
  have hb := Int.emod_nonneg b (show ((2 ^ 64 : Nat) : Int) ≠ 0 by decide)
  push_cast at *
  omega

theorem emod_add_congr {a b n : Int} (h : a % n = b % n) (x : Int) :
    (a + x) % n = (b + x) % n := by
  rw [Int.add_emod, h, ← Int.add_emod]

/-- A constant, by its halves. -/
theorem const_eq_ofInt (c : BitVec 64) : c = BitVec.ofInt 64
    ((c.extractLsb' 32 32).toNat * 2 ^ 32 + (lowWord c).toInt +
      (if (lowWord c).toInt < 0 then 1 else 0) * 2 ^ 32) := by
  apply BitVec.eq_of_toNat_eq
  have hlow : (lowWord c).toNat = c.toNat % 2 ^ 32 := BitVec.toNat_setWidth ..
  have hhigh : (c.extractLsb' 32 32).toNat = c.toNat / 2 ^ 32 % 2 ^ 32 := by
    rw [BitVec.extractLsb'_toNat, Nat.shiftRight_eq_div_pow]
  have hlt := c.isLt
  rw [BitVec.toNat_ofInt, BitVec.toInt_eq_toNat_cond, hlow, hhigh]
  push_cast
  split <;> split <;> omega

theorem fits12_of_toInt {x : BitVec 32} (hlo : -2048 ≤ x.toInt) (hhi : x.toInt < 2048) :
    Fits12 x := by
  have := x.isLt
  rw [fits12_iff]
  apply BitVec.eq_of_toNat_eq
  rw [toNat_low12]
  rw [BitVec.toInt_eq_toNat_cond] at hlo hhi
  split at hlo <;> split <;> omega

theorem toInt_low12 (x : BitVec 32) : ∃ k : Int, (low12 x).toInt = x.toInt - 4096 * k ∧
    -2048 ≤ (low12 x).toInt ∧ (low12 x).toInt < 2048 := by
  have := x.isLt
  rw [BitVec.toInt_eq_toNat_cond, BitVec.toInt_eq_toNat_cond, toNat_low12]
  refine ⟨((if 2 * x.toNat < 2 ^ 32 then (x.toNat : Int) else (x.toNat : Int) - (2 ^ 32 : Nat)) +
    2048) / 4096, ?_⟩
  split <;> split <;> split <;> omega

theorem fits12_low12 (x : BitVec 32) : Fits12 (low12 x) := by
  obtain ⟨_, -, hlo, hhi⟩ := toInt_low12 x
  exact fits12_of_toInt hlo hhi

theorem immediate_eq_ofInt {imm : BitVec 32} (h : Fits12 imm) :
    (imm.setWidth 12).signExtend 64 = BitVec.ofInt 64 imm.toInt := by
  rw [fits12_iff] at h
  have hext : (imm.setWidth 12).signExtend 64 = (low12 imm).signExtend 64 := by
    unfold low12
    apply BitVec.eq_of_getLsbD_eq
    intro i hi
    simp only [BitVec.getLsbD_signExtend, BitVec.msb_signExtend]
    grind
  rw [hext, h]
  rfl

/-! ## Code that makes a number -/

/-- The code leaves the number in the register, and changes nothing else. -/
def Makes (rr : XReg) (ws : List Word) (a : Int) : Prop :=
  ∀ m, ∃ m', run ws m = some m' ∧ SameBut rr m m' ∧ m'.reg rr = BitVec.ofInt 64 a

section Makes

variable {rr : XReg} {ws : List Word} {a : Int}

theorem ei_of_fits12 {opcode : BitVec 7} {func3 : BitVec 3} {rd rs1 : XReg} {imm : BitVec 32}
    (h : Fits12 imm) :
    ei opcode func3 rd rs1 imm = some (eiu opcode func3 rd rs1 imm) := if_pos h

theorem makes_lui (hrr : rr ≠ 0#5) (fc : BitVec 32) :
    Makes rr [oLui rr fc] ((0x800#32 + fc) &&& 0xfffff000#32).toInt := fun m =>
  ⟨_, (run_singleton _ m).trans (execWord_oLui m rr fc), sameBut_setReg .., by
    rw [Machine.reg_setReg_self m hrr]
    rfl⟩

theorem Makes.addi (h : Makes rr ws a) (hrr : rr ≠ 0#5) {imm : BitVec 32} (himm : Fits12 imm) :
    Makes rr (ws ++ [eiu 0x13#7 0#3 rr rr imm]) (a + imm.toInt) := by
  intro m
  obtain ⟨m1, hrun, hsame, hreg⟩ := h m
  refine ⟨_, run_snoc hrun (execWord_addi m1 false rr rr imm),
    hsame.trans (sameBut_setReg m1 rr _), ?_⟩
  rw [Machine.reg_setReg_self _ hrr, immediate_eq_ofInt himm, hreg, BitVec.ofInt_add]
  rfl

theorem Makes.slli (h : Makes rr ws a) (hrr : rr ≠ 0#5) (imm : BitVec 32) (himm : imm.toNat < 64) :
    Makes rr (ws ++ [eiu 0x13#7 1#3 rr rr imm]) (a * 2 ^ imm.toNat) := by
  intro m
  obtain ⟨m1, hrun, hsame, hreg⟩ := h m
  refine ⟨_, run_snoc hrun (execWord_slli m1 false rr rr himm),
    hsame.trans (sameBut_setReg m1 rr _), ?_⟩
  rw [Machine.reg_setReg_self _ hrr, hreg, ← ofInt_shiftLeft]
  simp only [AluOp.result, Bool.false_eq_true, if_false, AluOp.eval]
  congr 1
  rw [BitVec.toNat_setWidth]
  omega

end Makes

/-! ## `load_large_constant` -/

/-- Rounding to a multiple of `1 << 20` overflows: `fc + (1 << 19)`. -/
def RoundsUp (fc : BitVec 32) : Prop := 0x7ff80000 ≤ fc.toInt

instance (fc : BitVec 32) : Decidable (RoundsUp fc) := inferInstanceAs (Decidable (_ ≤ _))

/-- The upper part of the low word, `(fc + (1 << 19)) >> 20`. -/
theorem toInt_upperPart (fc : BitVec 32) :
    ((fc + 0x80000#32).sshiftRight 20).toInt =
      (fc.toInt + 2 ^ 19) / 2 ^ 20 - (if RoundsUp fc then 1 else 0) * 2 ^ 12 := by
  have hsum : (fc + 0x80000#32).toInt = fc.toInt + 2 ^ 19 - if RoundsUp fc then 2 ^ 32 else 0 := by
    have := fc.isLt
    by_cases h : RoundsUp fc
    · rw [if_pos h]
      unfold RoundsUp at h
      rw [BitVec.toInt_eq_toNat_cond] at h ⊢
      rw [BitVec.toInt_eq_toNat_cond, BitVec.toNat_add]
      simp only [BitVec.toNat_ofNat]
      split at h <;> split <;> omega
    · rw [if_neg h]
      unfold RoundsUp at h
      rw [BitVec.toInt_eq_toNat_cond] at h ⊢
      rw [BitVec.toInt_eq_toNat_cond, BitVec.toNat_add]
      simp only [BitVec.toNat_ofNat]
      split at h <;> split <;> omega
  rw [BitVec.toInt_sshiftRight, hsum, Int.shiftRight_eq_div_pow]
  push_cast
  split <;> omega

/-- The lower part of the low word, `fc << 12 >> 12 >> 8`. -/
theorem toInt_lowerPart (fc : BitVec 32) :
    (((fc <<< 12).sshiftRight 12).sshiftRight 8).toInt =
      ((fc.toInt + 2 ^ 19) % 2 ^ 20 - 2 ^ 19) / 2 ^ 8 := by
  have := fc.isLt
  have hshift : (fc <<< 12).toInt = ((fc.toInt + 2 ^ 19) % 2 ^ 20 - 2 ^ 19) * 2 ^ 12 := by
    rw [BitVec.toInt_eq_toNat_cond, BitVec.toInt_eq_toNat_cond, BitVec.toNat_shiftLeft,
      Nat.shiftLeft_eq]
    push_cast
    split <;> split <;> omega
  rw [BitVec.toInt_sshiftRight, BitVec.toInt_sshiftRight, hshift, Int.shiftRight_eq_div_pow,
    Int.shiftRight_eq_div_pow]
  push_cast
  omega

theorem fits12_upperPart (fc : BitVec 32) : Fits12 ((fc + 0x80000#32).sshiftRight 20) := by
  have hfc := BitVec.le_toInt fc
  have hfc' := BitVec.toInt_lt (x := fc)
  have hupper := toInt_upperPart fc
  by_cases h : RoundsUp fc
  · rw [if_pos h] at hupper
    unfold RoundsUp at h
    exact fits12_of_toInt (by omega) (by omega)
  · rw [if_neg h] at hupper
    unfold RoundsUp at h
    exact fits12_of_toInt (by omega) (by omega)

theorem fits12_lowerPart (fc : BitVec 32) :
    Fits12 (((fc <<< 12).sshiftRight 12).sshiftRight 8) := by
  have hlower := toInt_lowerPart fc
  refine fits12_of_toInt ?_ ?_ <;> rw [hlower] <;> omega

theorem exists_loadLargeConstant (rr : XReg) (fc pi : BitVec 32) :
    ∃ ws, loadLargeConstant rr fc pi = some ws := by
  unfold loadLargeConstant
  simp only [ei_of_fits12 (fits12_low12 _), ei_of_fits12 (show Fits12 12#32 by decide),
    ei_of_fits12 (show Fits12 8#32 by decide), ei_of_fits12 (fits12_upperPart fc),
    ei_of_fits12 (fits12_lowerPart fc)]
  exact ⟨_, rfl⟩

/-- What `load_large_constant` leaves in the register: all but the lowest byte, and one less in the
high word if rounding overflows. -/
def largeValue (fc pi : BitVec 32) : Int :=
  (pi.toNat + (if fc.toInt < 0 then 1 else 0) - if RoundsUp fc then 1 else 0) * 2 ^ 32 +
    (fc.toInt - fc.toInt % 2 ^ 8)

theorem loadLargeConstant_makes {rr : XReg} (hrr : rr ≠ 0#5) (fc pi : BitVec 32) :
    ∃ ws a, loadLargeConstant rr fc pi = some ws ∧ Makes rr ws a ∧
      a % 2 ^ 64 = largeValue fc pi % 2 ^ 64 := by
  have hupper := toInt_upperPart fc
  have hlower := toInt_lowerPart fc
  -- `pi`, and one more if the low word is negative
  generalize hpi' : (if fc.msb then pi + 1#32 else pi) = pi'
  have hpi : (pi'.toInt - (pi.toNat + if fc.toInt < 0 then 1 else 0)) % 2 ^ 32 = 0 := by
    have := pi.isLt
    rw [← hpi', BitVec.msb_eq_toInt, BitVec.toInt_eq_toNat_cond]
    simp only [decide_eq_true_eq]
    by_cases h : fc.toInt < 0
    · rw [if_pos h, if_pos h, BitVec.toNat_add]
      simp only [BitVec.toNat_ofNat]
      split <;> omega
    · rw [if_neg h, if_neg h]
      split <;> omega
  have hsum : ((((0x800#32 + pi') &&& 0xfffff000#32).toInt + (low12 pi').toInt) - pi'.toInt) %
      2 ^ 32 = 0 := by
    have h := congrArg BitVec.toInt (upper_add_low12 pi')
    rw [BitVec.toInt_add] at h
    have hmod := Int.bmod_emod (x := ((0x800#32 + pi') &&& 0xfffff000#32).toInt +
      (low12 pi').toInt) (m := 2 ^ 32)
    rw [h] at hmod
    push_cast at hmod
    omega
  have hmakes := (((((((makes_lui hrr pi').addi hrr (fits12_low12 pi')).slli hrr
    12#32 (by decide)).addi hrr (fits12_upperPart fc)).slli hrr 12#32 (by decide)).addi hrr
    (fits12_lowerPart fc)).slli hrr 8#32 (by decide))
  refine ⟨_, _, ?_, hmakes, ?_⟩
  · unfold loadLargeConstant
    rw [hpi']
    simp only [ei_of_fits12 (fits12_low12 pi'), ei_of_fits12 (show Fits12 12#32 by decide),
      ei_of_fits12 (show Fits12 8#32 by decide), ei_of_fits12 (fits12_upperPart fc),
      ei_of_fits12 (fits12_lowerPart fc)]
    rfl
  · rw [hupper, hlower]
    unfold largeValue
    generalize ((0x800#32 + pi') &&& 0xfffff000#32).toInt + (low12 pi').toInt = base at *
    generalize (if fc.toInt < 0 then (1 : Int) else 0) = carry at *
    obtain ⟨k, hk⟩ : ∃ k : Int, base = pi.toNat + carry + 2 ^ 32 * k :=
      ⟨(base - (pi.toNat + carry)) / 2 ^ 32, by omega⟩
    have hparts : (fc.toInt + 2 ^ 19) / 2 ^ 20 * 2 ^ 20 +
        ((fc.toInt + 2 ^ 19) % 2 ^ 20 - 2 ^ 19) / 2 ^ 8 * 2 ^ 8 = fc.toInt - fc.toInt % 2 ^ 8 := by
      omega
    generalize (if RoundsUp fc then (1 : Int) else 0) = up at *
    rw [← hparts, hk]
    have hring : ∀ p k u l up : Int,
        (((p + 2 ^ 32 * k) * 2 ^ 12 + (u - up * 2 ^ 12)) * 2 ^ 12 + l) * 2 ^ 8 =
          (p - up) * 2 ^ 32 + (u * 2 ^ 20 + l * 2 ^ 8) + 2 ^ 64 * k := fun p k u l up => by ring
    exact (congrArg (· % 2 ^ 64) (hring _ _ _ _ _)).trans (Int.add_mul_emod_self_left _ _ _)

theorem toInt_lowByte (fc : BitVec 32) : (fc &&& 0xff#32).toInt = fc.toInt % 2 ^ 8 := by
  have := fc.isLt
  have hand : (fc &&& 0xff#32).toNat = fc.toNat % 2 ^ 8 := by
    rw [BitVec.toNat_and]
    exact Nat.and_two_pow_sub_one_eq_mod _ 8
  rw [BitVec.toInt_eq_toNat_cond, BitVec.toInt_eq_toNat_cond, hand]
  split <;> split <;> omega

theorem fits12_lowByte (fc : BitVec 32) : Fits12 (fc &&& 0xff#32) := by
  have := toInt_lowByte fc
  exact fits12_of_toInt (by omega) (by omega)

/-- The constant that a high word and a low word make, if rounding does not overflow. -/
def largeConst (c : BitVec 64) : BitVec 64 := if RoundsUp (lowWord c) then c - 0x100000000#64 else c

/-- The code of `load_large_constant`, with the lowest byte added. -/
theorem largeValue_add_lowByte (c : BitVec 64) {a : Int}
    (ha : a % 2 ^ 64 = largeValue (lowWord c) (c.extractLsb' 32 32) % 2 ^ 64) :
    BitVec.ofInt 64 (a + (lowWord c &&& 0xff#32).toInt) = largeConst c := by
  have hc := const_eq_ofInt c
  have hvalue : ((c.extractLsb' 32 32).toNat * 2 ^ 32 + (lowWord c).toInt +
      (if (lowWord c).toInt < 0 then 1 else 0) * 2 ^ 32 +
        -((if RoundsUp (lowWord c) then 1 else 0) * 2 ^ 32)) =
      largeValue (lowWord c) (c.extractLsb' 32 32) + (lowWord c).toInt % 2 ^ 8 := by
    unfold largeValue
    ring
  have hsum : BitVec.ofInt 64 (a + (lowWord c &&& 0xff#32).toInt) = BitVec.ofInt 64
      ((c.extractLsb' 32 32).toNat * 2 ^ 32 + (lowWord c).toInt +
        (if (lowWord c).toInt < 0 then 1 else 0) * 2 ^ 32 +
          -((if RoundsUp (lowWord c) then 1 else 0) * 2 ^ 32)) := by
    rw [ofInt_eq_iff, hvalue, toInt_lowByte]
    exact emod_add_congr ha _
  rw [hsum, BitVec.ofInt_add, ← hc]
  unfold largeConst
  split
  · rw [BitVec.sub_eq_add_neg, show BitVec.ofInt 64 (-(1 * 2 ^ 32)) = -0x100000000#64 by decide]
  · exact BitVec.add_zero c

/-! ## Constants -/

/-- What `load` leaves in the register for a constant. -/
def loadedConst (t : IntType) (c : BitVec 64) : BitVec 64 :=
  if Canonical c then c
  else if c.extractLsb' 32 32 ≠ 0#32 then largeConst c
  else if t.isLlong then c
  else (lowWord c).signExtend 64

theorem exists_loadLow (rr : XReg) (fc : BitVec 32) : ∃ ws, loadLow rr 0#5 8#7 fc = some ws := by
  simp only [loadLow, ne_eq, BitVec.reduceEq, not_false_eq_true, or_true, if_true]
  rw [ei_of_fits12 (fits12_low12 fc)]
  exact ⟨_, rfl⟩

theorem setWidth_lowWord {c : BitVec 64} (h : c.extractLsb' 32 32 = 0#32) :
    (lowWord c).setWidth 64 = c := by
  apply BitVec.eq_of_toNat_eq
  have hhigh := congrArg BitVec.toNat h
  rw [BitVec.extractLsb'_toNat, Nat.shiftRight_eq_div_pow] at hhigh
  have := c.isLt
  unfold lowWord
  rw [BitVec.toNat_setWidth, BitVec.toNat_setWidth]
  simp only [BitVec.toNat_ofNat] at hhigh
  omega

/-- `slli` and `srli` by 32 extend the low word with zeros. -/
theorem zext_word (fc : BitVec 32) : (fc.signExtend 64 <<< 32) >>> 32 = fc.setWidth 64 := by
  apply BitVec.eq_of_getLsbD_eq
  intro i hi
  simp only [BitVec.getLsbD_ushiftRight, BitVec.getLsbD_shiftLeft, BitVec.getLsbD_signExtend,
    BitVec.getLsbD_setWidth]
  grind

theorem loadConst_loads {rr : XReg} (hrr : rr ≠ 0#5) (t : IntType) (c : BitVec 64) :
    ∃ ws, loadConst rr t c = some ws ∧
      ∀ m, ∃ m', run ws m = some m' ∧ SameBut rr m m' ∧ m'.reg rr = loadedConst t c := by
  obtain ⟨wsLow, hlow⟩ := exists_loadLow rr (lowWord c)
  have hword := loadLow_word hrr hlow
  unfold loadConst loadedConst
  by_cases hcanon : Canonical c
  · rw [if_pos hcanon, if_pos (show (c.setWidth 32).signExtend 64 = c from hcanon)]
    rw [show (lowWord c).signExtend 64 = c from hcanon] at hword
    exact ⟨wsLow, hlow, hword⟩
  rw [if_neg hcanon, if_neg (show ¬ (c.setWidth 32).signExtend 64 = c from hcanon)]
  by_cases hhigh : c.extractLsb' 32 32 ≠ 0#32
  · rw [if_pos hhigh, if_pos hhigh]
    obtain ⟨ws, a, hlarge, hmakes, ha⟩ := loadLargeConstant_makes hrr (lowWord c)
      (c.extractLsb' 32 32)
    have hadd := hmakes.addi hrr (fits12_lowByte (lowWord c))
    rw [show c.setWidth 32 = lowWord c from rfl, hlarge]
    simp only [Option.bind_eq_bind, Option.bind_some]
    unfold loadLow
    rw [if_pos (fits12_lowByte _), if_pos (fits12_lowByte _),
      (fits12_iff _).mp (fits12_lowByte (lowWord c))]
    rw [← largeValue_add_lowByte c ha]
    by_cases hbyte : (lowWord c &&& 0xff#32) = 0#32
    · rw [hbyte, if_neg (by simp)]
      refine ⟨_, congrArg some (List.append_nil ws), ?_⟩
      rw [show (0#32).toInt = 0 from rfl, Int.add_zero]
      exact hmakes
    · rw [if_pos (.inl hbyte), show (0x13#7 ||| 0#7) = 0x13#7 by decide,
        ei_of_fits12 (fits12_lowByte _)]
      exact ⟨_, rfl, hadd⟩
  rw [if_neg hhigh, if_neg hhigh]
  by_cases hllong : t.isLlong = true
  · -- The word is extended with zeros.
    rw [if_pos hllong, if_pos hllong, show c.setWidth 32 = lowWord c from rfl, hlow,
      ei_of_fits12 (show Fits12 32#32 by decide)]
    refine ⟨_, rfl, fun m => ?_⟩
    obtain ⟨m1, hrun, hsame, hreg⟩ := hword m
    have hslli := @execWord_slli m1 false rr rr 32#32 (by decide)
    have hsrli := @execWord_srli (m1.setReg rr (AluOp.sll.result false (m1.reg rr)
      ((32#32).setWidth 64))) false rr rr 32#32 (by decide)
    refine ⟨_, run_append_of hrun (run_append_of ((run_singleton _ _).trans hslli)
      ((run_singleton _ _).trans hsrli)),
      (hsame.trans (sameBut_setReg m1 rr _)).trans (sameBut_setReg _ rr _), ?_⟩
    rw [Machine.reg_setReg_self _ hrr, Machine.reg_setReg_self _ hrr, hreg]
    exact (zext_word _).trans (setWidth_lowWord (not_not.mp hhigh))
  · rw [if_neg hllong, if_neg hllong]
    exact ⟨wsLow, hlow, hword⟩

/-! ## Which constants are loaded correctly -/

/-- The integer registers that a value can be loaded into, `is_ireg`. -/
inductive IReg
  /-- `a0` to `a7` -/
  | arg (r : Reg)
  /-- `TREG_RA` -/
  | ra
  /-- `TREG_SP` -/
  | sp

/-- `ireg` -/
def IReg.xreg : IReg → XReg
  | arg r => ireg r
  | ra => 1#5
  | sp => 2#5

theorem IReg.xreg_ne_zero (d : IReg) : d.xreg ≠ 0#5 := by
  cases d with
  | arg r => exact ireg_ne_zero r
  | ra => decide
  | sp => decide

/-- `load` of a value in memory at a constant address. -/
def loadLvalConst (rr : XReg) (t : IntType) (c : BitVec 64) : Option (List Word) := do
  let fc := c.setWidth 32
  let si := c.extractLsb' 32 32
  if si ≠ 0#32 then
    let ws ← loadLargeConstant rr fc si
    some (ws ++ [← ei 0x03#7 (loadFunc3 t) rr rr (fc &&& 0xff#32)])
  else
    some [oLui rr fc, ← ei 0x03#7 (loadFunc3 t) rr rr (low12 fc)]

/-- A constant converted to a type of 64 bits, or of at most 32 bits. -/
def constValue (t : IntType) (c : BitVec 64) : BitVec 64 :=
  if t.isWide then c else (lowWord c).signExtend 64

/-- The code leaves the constant in the register, whatever the registers were. -/
def LoadsConst (d : IReg) (t : IntType) (c : BitVec 64) : Prop :=
  ∃ ws, loadConst d.xreg t c = some ws ∧
    ∀ m, ∃ m', run ws m = some m' ∧ m'.reg d.xreg = constValue t c

/-- The last word of the code is a load of the size of the type, from the constant address. -/
def LoadsFrom (d : IReg) (t : IntType) (c : BitVec 64) : Prop :=
  ∃ ws w, loadLvalConst d.xreg t c = some (ws ++ [w]) ∧ opcodeOf w = 0x03#7 ∧
    accessBytes (func3Of w) = t.size ∧
    ∀ m, ∃ m', run ws m = some m' ∧ addrI (m'.reg (rs1Of w)) w = c

/-- The address that `load` loads from. -/
def loadedAddr (c : BitVec 64) : BitVec 64 :=
  if c.extractLsb' 32 32 ≠ 0#32 then largeConst c
  else ((0x800#32 + lowWord c) &&& 0xfffff000#32).signExtend 64 + (low12 (lowWord c)).signExtend 64

theorem addrI_eiu (base : BitVec 64) (func3 : BitVec 3) (rd rs1 : XReg) {imm : BitVec 32}
    (h : Fits12 imm) :
    addrI base (eiu 0x03#7 func3 rd rs1 imm) = base + BitVec.ofInt 64 imm.toInt := by
  unfold addrI
  rw [immI_eiu, immediate_eq_ofInt h]

theorem accessBytes_loadFunc3 (t : IntType) : accessBytes (loadFunc3 t) = t.size := by
  rcases t with _ | (_ | _) | (_ | _) | (_ | _) | (_ | _) | _ <;> decide

theorem loadLvalConst_loads {rr : XReg} (hrr : rr ≠ 0#5) (t : IntType) (c : BitVec 64) :
    ∃ ws imm, loadLvalConst rr t c = some (ws ++ [eiu 0x03#7 (loadFunc3 t) rr rr imm]) ∧
      ∀ m, ∃ m', run ws m = some m' ∧ SameBut rr m m' ∧
        addrI (m'.reg rr) (eiu 0x03#7 (loadFunc3 t) rr rr imm) = loadedAddr c := by
  unfold loadLvalConst loadedAddr
  by_cases hhigh : c.extractLsb' 32 32 ≠ 0#32
  · obtain ⟨ws, a, hlarge, hmakes, ha⟩ := loadLargeConstant_makes hrr (lowWord c)
      (c.extractLsb' 32 32)
    refine ⟨ws, lowWord c &&& 0xff#32, ?_, fun m => ?_⟩
    · simp only [if_pos hhigh, show c.setWidth 32 = lowWord c from rfl, hlarge,
        ei_of_fits12 (fits12_lowByte _), Option.bind_eq_bind, Option.bind_some]
    · obtain ⟨m', hrun, hsame, hreg⟩ := hmakes m
      refine ⟨m', hrun, hsame, ?_⟩
      rw [if_pos hhigh, addrI_eiu _ _ _ _ (fits12_lowByte _), hreg, ← BitVec.ofInt_add]
      exact largeValue_add_lowByte c ha
  · refine ⟨[oLui rr (lowWord c)], low12 (lowWord c), ?_, fun m => ?_⟩
    · simp only [if_neg hhigh, show c.setWidth 32 = lowWord c from rfl,
        ei_of_fits12 (fits12_low12 _), Option.bind_eq_bind, Option.bind_some]
      rfl
    · obtain ⟨m', hrun, hsame, hreg⟩ := makes_lui hrr (lowWord c) m
      refine ⟨m', hrun, hsame, ?_⟩
      rw [if_neg hhigh, addrI_eiu _ _ _ _ (fits12_low12 _), hreg]
      rfl

/-- The constants that are loaded as they are in their type. -/
def ConstFits (t : IntType) (c : BitVec 64) : Prop :=
  Canonical c ∨ c.extractLsb' 32 32 = 0#32 ∧ t ≠ .ptr ∨
    c.extractLsb' 32 32 ≠ 0#32 ∧
      if t.isWide then ¬ RoundsUp (lowWord c)
      else c.extractLsb' 32 32 = 1#32 ∧ RoundsUp (lowWord c)

/-- The addresses that are loaded from as they are. -/
def AddrFits (c : BitVec 64) : Prop :=
  if c.extractLsb' 32 32 ≠ 0#32 then ¬ RoundsUp (lowWord c) else c.toNat < 0x7ffff800

theorem largeConst_eq_self_iff (c : BitVec 64) : largeConst c = c ↔ ¬ RoundsUp (lowWord c) := by
  unfold largeConst
  split
  · rename_i h
    refine iff_of_false (fun heq => ?_) (not_not.mpr h)
    have hsum : c = c + 0x100000000#64 := BitVec.sub_eq_iff_eq_add.mp heq
    exact absurd (left_eq_add.mp hsum) (by decide)
  · rename_i h
    exact iff_of_true rfl h

theorem largeConst_eq_word_iff {c : BitVec 64} (hcanon : ¬ Canonical c) :
    largeConst c = (lowWord c).signExtend 64 ↔
      c.extractLsb' 32 32 = 1#32 ∧ RoundsUp (lowWord c) := by
  unfold largeConst
  split
  · rename_i h
    have hc := const_eq_ofInt c
    have hge : 0x7ff80000 ≤ (lowWord c).toInt := h
    have hlt := BitVec.toInt_lt (x := lowWord c)
    rw [if_neg (by omega)] at hc
    rw [and_iff_left h, BitVec.sub_eq_iff_eq_add, ← BitVec.toNat_inj (x := BitVec.extractLsb' _ _ c)]
    have hword : (lowWord c).signExtend 64 + 0x100000000#64 =
        BitVec.ofInt 64 ((lowWord c).toInt + 2 ^ 32) := by
      rw [BitVec.ofInt_add, show BitVec.ofInt 64 (2 ^ 32) = 0x100000000#64 by decide]
      rfl
    have hhigh := (c.extractLsb' 32 32).isLt
    have hiff := ofInt_eq_iff (a := (c.extractLsb' 32 32).toNat * 2 ^ 32 + (lowWord c).toInt +
      0 * 2 ^ 32) (b := (lowWord c).toInt + 2 ^ 32)
    rw [← hc] at hiff
    rw [hword, hiff]
    generalize (lowWord c).toInt = low at *
    generalize (c.extractLsb' 32 32).toNat = high at *
    rw [show (1#32).toNat = 1 from rfl]
    omega
  · rename_i h
    exact iff_of_false (fun heq => hcanon heq.symm) fun hand => h hand.2

theorem loadedConst_eq_iff (t : IntType) (c : BitVec 64) :
    loadedConst t c = constValue t c ↔ ConstFits t c := by
  unfold loadedConst constValue ConstFits
  by_cases hcanon : Canonical c
  · rw [if_pos hcanon, show (lowWord c).signExtend 64 = c from hcanon, ite_self]
    exact iff_of_true rfl (.inl hcanon)
  rw [if_neg hcanon, or_iff_right hcanon]
  by_cases hhigh : c.extractLsb' 32 32 ≠ 0#32
  · rw [if_pos hhigh, and_iff_right hhigh, or_iff_right fun h => hhigh h.1]
    split
    · exact largeConst_eq_self_iff c
    · exact largeConst_eq_word_iff hcanon
  · have hzero := not_not.mp hhigh
    rw [if_neg hhigh, and_iff_right hzero, or_iff_left fun h => hhigh h.1]
    cases t with
    | llong u => exact iff_of_true rfl (by simp)
    | ptr => exact iff_of_false (fun heq => hcanon heq) (not_not.mpr rfl)
    | bool => exact iff_of_true rfl (by simp)
    | byte u => exact iff_of_true rfl (by simp)
    | short u => exact iff_of_true rfl (by simp)
    | int u => exact iff_of_true rfl (by simp)

theorem loadedAddr_eq_iff (c : BitVec 64) : loadedAddr c = c ↔ AddrFits c := by
  unfold loadedAddr AddrFits
  split
  · exact largeConst_eq_self_iff c
  · rename_i hhigh
    have hlow : (lowWord c).toNat = c.toNat := by
      have := congrArg BitVec.toNat (setWidth_lowWord (not_not.mp hhigh))
      rw [BitVec.toNat_setWidth] at this
      omega
    have hc : c = BitVec.ofInt 64 c.toNat := by
      rw [BitVec.ofInt_natCast, BitVec.ofNat_toNat, BitVec.setWidth_eq]
    have hlt := (lowWord c).isLt
    have hsum : ((0x800#32 + lowWord c) &&& 0xfffff000#32).signExtend 64 +
        (low12 (lowWord c)).signExtend 64 = BitVec.ofInt 64
          (((0x800#32 + lowWord c) &&& 0xfffff000#32).toInt + (low12 (lowWord c)).toInt) :=
      (BitVec.ofInt_add _ _).symm
    have hiff := ofInt_eq_iff (b := c.toNat) (a :=
      ((0x800#32 + lowWord c) &&& 0xfffff000#32).toInt + (low12 (lowWord c)).toInt)
    rw [← hc] at hiff
    rw [hsum, hiff, BitVec.toInt_eq_toNat_cond, BitVec.toInt_eq_toNat_cond, toNat_and_upper,
      toNat_low12, BitVec.toNat_add, hlow]
    rw [hlow] at hlt
    simp only [BitVec.toNat_ofNat]
    generalize c.toNat = n at *
    push_cast
    split_ifs <;> omega

theorem loadsConst_iff (d : IReg) (t : IntType) (c : BitVec 64) :
    LoadsConst d t c ↔ ConstFits t c := by
  obtain ⟨ws, hws, hrun⟩ := loadConst_loads d.xreg_ne_zero t c
  rw [← loadedConst_eq_iff]
  constructor
  · rintro ⟨ws', hws', hrun'⟩
    obtain rfl := Option.some.inj (hws.symm.trans hws')
    obtain ⟨m, hm, -, hreg⟩ := hrun ⟨fun _ => 0, fun _ => 0⟩
    obtain ⟨m', hm', hreg'⟩ := hrun' ⟨fun _ => 0, fun _ => 0⟩
    obtain rfl := Option.some.inj (hm.symm.trans hm')
    exact hreg.symm.trans hreg'
  · intro heq
    refine ⟨ws, hws, fun m => ?_⟩
    obtain ⟨m', hm', -, hreg⟩ := hrun m
    exact ⟨m', hm', hreg.trans heq⟩

theorem loadsFrom_iff (d : IReg) (t : IntType) (c : BitVec 64) :
    LoadsFrom d t c ↔ AddrFits c := by
  obtain ⟨ws, imm, hws, hrun⟩ := loadLvalConst_loads d.xreg_ne_zero t c
  rw [← loadedAddr_eq_iff]
  constructor
  · rintro ⟨ws', w, hws', -, -, hrun'⟩
    obtain ⟨rfl, hw⟩ := List.append_inj' (Option.some.inj (hws.symm.trans hws')) rfl
    obtain rfl := (List.cons.inj hw).1
    obtain ⟨m, hm, -, haddr⟩ := hrun ⟨fun _ => 0, fun _ => 0⟩
    obtain ⟨m', hm', haddr'⟩ := hrun' ⟨fun _ => 0, fun _ => 0⟩
    obtain rfl := Option.some.inj (hm.symm.trans hm')
    rw [rs1Of_eiu] at haddr'
    exact haddr.symm.trans haddr'
  · intro heq
    refine ⟨ws, _, hws, opcodeOf_eiu .., ?_, fun m => ?_⟩
    · rw [func3Of_eiu, accessBytes_loadFunc3]
    · obtain ⟨m', hm', -, haddr⟩ := hrun m
      refine ⟨m', hm', ?_⟩
      rw [rs1Of_eiu, haddr, heq]

/-- A constant is loaded as it is in its type, and a value is loaded from a constant address, exactly
if rounding does not overflow and the extensions of the low word do not matter. -/
theorem constant_loaded_iff (d : IReg) (t : IntType) (c : BitVec 64) :
    (LoadsConst d t c ↔ ConstFits t c) ∧ (LoadsFrom d t c ↔ AddrFits c) :=
  ⟨loadsConst_iff d t c, loadsFrom_iff d t c⟩

/-- The constant `0x17fffffffLL` is loaded as `0x7fffffff`. -/
theorem large_constant_not_loaded : ¬ LoadsConst (.arg 0) (.llong false) 0x17fffffff#64 := by
  rw [loadsConst_iff]
  unfold ConstFits
  decide

end TccRiscv64.Gen
