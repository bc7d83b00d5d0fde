import TccRiscv64.Asm.BaseCorrect
import TccRiscv64.Asm.Compressed

set_option autoImplicit false

/-! # The assembler: the words of compressed instructions

The parts that a compressed word is put together from, the fields of the listings in each of them,
and for which operands the assembler emits the word of the listing or rejects them. -/

namespace TccRiscv64.Asm

open Isa

/-! ## Registers -/

/-- `f0` to `f31`. -/
def IsF (r : BitVec 6) : Prop := 32#6 ≤ r

/-- `x8` to `x15`. -/
def IsXc (r : BitVec 6) : Prop := 8#6 ≤ r ∧ r < 16#6

/-- `f8` to `f15`. -/
def IsFc (r : BitVec 6) : Prop := 40#6 ≤ r ∧ r < 48#6

instance (r : BitVec 6) : Decidable (IsF r) := inferInstanceAs (Decidable (_ ≤ _))
instance (r : BitVec 6) : Decidable (IsXc r) := inferInstanceAs (Decidable (_ ∧ _))
instance (r : BitVec 6) : Decidable (IsFc r) := inferInstanceAs (Decidable (_ ∧ _))

theorem ofArg_f_eq_iff (r : BitVec 6) :
    Operand.ofArg (.f (r.setWidth 5)) = .reg r ↔ IsF r := by
  have h : ∀ r : BitVec 6, 1#1 ++ r.setWidth 5 = r ↔ 32#6 ≤ r := by decide
  simp only [Operand.ofArg, Operand.reg.injEq]
  exact h r

theorem ofArg_xc_eq_iff (r : BitVec 6) :
    Operand.ofArg (.x (1#2 ++ r.setWidth 3)) = .reg r ↔ IsXc r := by
  have h : ∀ r : BitVec 6, 0#1 ++ (1#2 ++ r.setWidth 3) = r ↔ 8#6 ≤ r ∧ r < 16#6 := by decide
  simp only [Operand.ofArg, Operand.reg.injEq]
  exact h r

theorem minus8_le_iff (r : BitVec 6) : ¬7#8 < minus8 r ↔ IsXc r := by
  have h : ∀ r : BitVec 6, ¬7#8 < minus8 r ↔ 8#6 ≤ r ∧ r < 16#6 := by decide
  exact h r

/-! ## Immediates -/

theorem toNat_extract_append (n k : Nat) (v : BitVec 64) :
    (v.extractLsb' k n ++ 0#k).toNat = 2 ^ k * (v.toNat / 2 ^ k % 2 ^ n) := by
  rw [BitVec.toNat_append, BitVec.extractLsb'_toNat, BitVec.toNat_ofNat, Nat.zero_mod, Nat.or_zero,
    Nat.shiftRight_eq_div_pow, Nat.shiftLeft_eq, Nat.mul_comm]

/-- The bits from `k` on are all of the low bits of `v` if those below are zero. -/
theorem extract_append_eq_iff (n k : Nat) (v : BitVec 64) :
    v.extractLsb' k n ++ 0#k = v.setWidth (n + k) ↔ v.toNat % 2 ^ k = 0 := by
  rw [← BitVec.toNat_inj, toNat_extract_append, BitVec.toNat_setWidth, Nat.add_comm n k, pow_add,
    Nat.mod_mul]
  omega

/-- A field of unsigned multiples of `2 ^ k` holds an immediate exactly if it is one of them. -/
theorem setWidth_extract_eq_iff {n k : Nat} (hnk : n + k ≤ 64) (v : BitVec 64) :
    (v.extractLsb' k n ++ 0#k).setWidth 64 = v
      ↔ v.toNat < 2 ^ (n + k) ∧ v.toNat % 2 ^ k = 0 := by
  constructor
  · intro h
    have hlow : v.extractLsb' k n ++ 0#k = v.setWidth (n + k) := by
      have hcut := congrArg (BitVec.setWidth (n + k)) h
      rwa [BitVec.setWidth_setWidth_of_le _ hnk, BitVec.setWidth_eq] at hcut
    refine ⟨(setWidth_setWidth_eq_iff v).1 ?_, (extract_append_eq_iff n k v).1 hlow⟩
    rw [← hlow, h]
  · rintro ⟨hlt, hmod⟩
    rw [(extract_append_eq_iff n k v).2 hmod, setWidth_setWidth_eq_iff]
    exact hlt

theorem setWidth_signExtend_self {w : Nat} (hw : w ≤ 64) (x : BitVec w) :
    (x.signExtend 64).setWidth w = x := by
  apply BitVec.eq_of_getLsbD_eq
  intro i hi
  simp only [BitVec.getLsbD_setWidth, BitVec.getLsbD_signExtend, hi, if_true, decide_true,
    Bool.true_and]
  simp only [show i < 64 by omega, decide_true, Bool.true_and]

/-- The same for signed multiples. -/
theorem signExtend_extract_eq_iff {n k : Nat} (hn : 0 < n) (hnk : n + k ≤ 64) (v : BitVec 64) :
    (v.extractLsb' k n ++ 0#k).signExtend 64 = v
      ↔ FitsSigned (n + k) v ∧ v.toNat % 2 ^ k = 0 := by
  have hpos : 0 < n + k := by omega
  constructor
  · intro h
    have hlow : v.extractLsb' k n ++ 0#k = v.setWidth (n + k) := by
      have hcut := congrArg (BitVec.setWidth (n + k)) h
      rwa [setWidth_signExtend_self hnk] at hcut
    refine ⟨(signExtend_setWidth_eq_iff hpos hnk v).1 ?_, (extract_append_eq_iff n k v).1 hlow⟩
    rw [← hlow, h]
  · rintro ⟨hfits, hmod⟩
    rw [(extract_append_eq_iff n k v).2 hmod]
    exact (signExtend_setWidth_eq_iff hpos hnk v).2 hfits

/-! ## Words of the formats -/

/-- A register in bits 7 to 11. -/
def rdPart (r : BitVec 5) : HalfWord := r.setWidth 16 <<< 7

/-- A register in bits 2 to 6. -/
def rs2Part (r : BitVec 5) : HalfWord := r.setWidth 16 <<< 2

/-- A register `x8` to `x15` in bits 7 to 9. -/
def rs1'Part (r : BitVec 3) : HalfWord := r.setWidth 16 <<< 7

/-- A register `x8` to `x15` in bits 2 to 4. -/
def rs2'Part (r : BitVec 3) : HalfWord := r.setWidth 16 <<< 2

theorem rdPart_masked (r : BitVec 5) : rdPart r &&& 0x0f80#16 = rdPart r := by
  revert r
  decide

theorem rs2Part_masked (r : BitVec 5) : rs2Part r &&& 0x007c#16 = rs2Part r := by
  revert r
  decide

theorem rs1'Part_masked (r : BitVec 3) : rs1'Part r &&& 0x0380#16 = rs1'Part r := by
  revert r
  decide

theorem rs2'Part_masked (r : BitVec 3) : rs2'Part r &&& 0x001c#16 = rs2'Part r := by
  revert r
  decide

theorem extractLsb'_rdPart (r : BitVec 5) : (rdPart r).extractLsb' 7 5 = r := by
  revert r
  decide

theorem extractLsb'_rs2Part (r : BitVec 5) : (rs2Part r).extractLsb' 2 5 = r := by
  revert r
  decide

theorem extractLsb'_rs1'Part (r : BitVec 3) : (rs1'Part r).extractLsb' 7 3 = r := by
  revert r
  decide

theorem extractLsb'_rs2'Part (r : BitVec 3) : (rs2'Part r).extractLsb' 2 3 = r := by
  revert r
  decide

/-- The word of a format with two parts besides the fixed bits. -/
def word3 (o x y : HalfWord) : HalfWord := o ||| x ||| y

section Word3

variable {o x y mo mx my mask : HalfWord} (ho : o &&& mo = o) (hx : x &&& mx = x)
  (hy : y &&& my = y)

include ho hx hy

theorem word3_and_fixed (h1 : mo &&& mask = mo) (h2 : mx &&& mask = 0#16)
    (h3 : my &&& mask = 0#16) : word3 o x y &&& mask = o := by
  have ho' : o &&& mask = o := by rw [← ho, BitVec.and_assoc, h1]
  simp only [word3, BitVec.and_or_distrib_right, ho', and_eq_zero hx h2, and_eq_zero hy h3,
    BitVec.or_zero]

theorem word3_and_snd (h1 : mo &&& mask = 0#16) (h2 : mx &&& mask = mx)
    (h3 : my &&& mask = 0#16) : word3 o x y &&& mask = x := by
  have hx' : x &&& mask = x := by rw [← hx, BitVec.and_assoc, h2]
  simp only [word3, BitVec.and_or_distrib_right, hx', and_eq_zero ho h1, and_eq_zero hy h3,
    BitVec.or_zero, BitVec.zero_or]

theorem word3_and_thd (h1 : mo &&& mask = 0#16) (h2 : mx &&& mask = 0#16)
    (h3 : my &&& mask = my) : word3 o x y &&& mask = y := by
  have hy' : y &&& mask = y := by rw [← hy, BitVec.and_assoc, h3]
  simp only [word3, BitVec.and_or_distrib_right, hy', and_eq_zero ho h1, and_eq_zero hx h2,
    BitVec.zero_or]

end Word3

theorem cRd_of {h : HalfWord} {r : BitVec 5} (hr : h &&& 0x0f80#16 = rdPart r) : cRd h = r := by
  have hcut : (h &&& 0x0f80#16).extractLsb' 7 5 = h.extractLsb' 7 5 := by
    rw [BitVec.extractLsb'_and]
    exact BitVec.and_allOnes
  rw [cRd, ← hcut, hr, extractLsb'_rdPart]

theorem cRs2_of {h : HalfWord} {r : BitVec 5} (hr : h &&& 0x007c#16 = rs2Part r) : cRs2 h = r := by
  have hcut : (h &&& 0x007c#16).extractLsb' 2 5 = h.extractLsb' 2 5 := by
    rw [BitVec.extractLsb'_and]
    exact BitVec.and_allOnes
  rw [cRs2, ← hcut, hr, extractLsb'_rs2Part]

theorem cRs1'_of {h : HalfWord} {r : BitVec 3} (hr : h &&& 0x0380#16 = rs1'Part r) :
    cRs1' h = 1#2 ++ r := by
  have hcut : (h &&& 0x0380#16).extractLsb' 7 3 = h.extractLsb' 7 3 := by
    rw [BitVec.extractLsb'_and]
    exact BitVec.and_allOnes
  rw [cRs1', ← hcut, hr, extractLsb'_rs1'Part]

theorem cRs2'_of {h : HalfWord} {r : BitVec 3} (hr : h &&& 0x001c#16 = rs2'Part r) :
    cRs2' h = 1#2 ++ r := by
  have hcut : (h &&& 0x001c#16).extractLsb' 2 3 = h.extractLsb' 2 3 := by
    rw [BitVec.extractLsb'_and]
    exact BitVec.and_allOnes
  rw [cRs2', ← hcut, hr, extractLsb'_rs2'Part]

/-! ## Immediates of the formats -/

/-- Bit `i` of a field at bit `p` of a word. -/
def bitAt {n : Nat} (x : BitVec n) (i p : Nat) : HalfWord :=
  ((x.setWidth 16 >>> i) &&& 1#16) <<< p

/-- An immediate of 6 bits in the CI and CB formats. -/
def imm6Part (x : BitVec 6) : HalfWord :=
  bitAt x 0 2 ||| bitAt x 1 3 ||| bitAt x 2 4 ||| bitAt x 3 5 ||| bitAt x 4 6 ||| bitAt x 5 12

def addi16spPart (x : BitVec 6) : HalfWord :=
  bitAt x 0 6 ||| bitAt x 1 2 ||| bitAt x 2 5 ||| bitAt x 3 3 ||| bitAt x 4 4 ||| bitAt x 5 12

def lwspPart (x : BitVec 6) : HalfWord :=
  bitAt x 0 4 ||| bitAt x 1 5 ||| bitAt x 2 6 ||| bitAt x 3 12 ||| bitAt x 4 2 ||| bitAt x 5 3

def ldspPart (x : BitVec 6) : HalfWord :=
  bitAt x 0 5 ||| bitAt x 1 6 ||| bitAt x 2 12 ||| bitAt x 3 2 ||| bitAt x 4 3 ||| bitAt x 5 4

def addi4spnPart (x : BitVec 8) : HalfWord :=
  bitAt x 0 6 ||| bitAt x 1 5 ||| bitAt x 2 11 ||| bitAt x 3 12 ||| bitAt x 4 7 ||| bitAt x 5 8 |||
    bitAt x 6 9 ||| bitAt x 7 10

def cjPart (x : BitVec 11) : HalfWord :=
  bitAt x 0 3 ||| bitAt x 1 4 ||| bitAt x 2 5 ||| bitAt x 3 11 ||| bitAt x 4 2 ||| bitAt x 5 7 |||
    bitAt x 6 6 ||| bitAt x 7 9 ||| bitAt x 8 10 ||| bitAt x 9 8 ||| bitAt x 10 12

def lwPart (x : BitVec 5) : HalfWord :=
  bitAt x 0 6 ||| bitAt x 1 10 ||| bitAt x 2 11 ||| bitAt x 3 12 ||| bitAt x 4 5

def ldPart (x : BitVec 5) : HalfWord :=
  bitAt x 0 10 ||| bitAt x 1 11 ||| bitAt x 2 12 ||| bitAt x 3 5 ||| bitAt x 4 6

def swspPart (x : BitVec 6) : HalfWord :=
  bitAt x 0 9 ||| bitAt x 1 10 ||| bitAt x 2 11 ||| bitAt x 3 12 ||| bitAt x 4 7 ||| bitAt x 5 8

def sdspPart (x : BitVec 6) : HalfWord :=
  bitAt x 0 10 ||| bitAt x 1 11 ||| bitAt x 2 12 ||| bitAt x 3 7 ||| bitAt x 4 8 ||| bitAt x 5 9

theorem imm6Part_masked (x : BitVec 6) : imm6Part x &&& 0x107c#16 = imm6Part x := by
  revert x
  decide

theorem addi16spPart_masked (x : BitVec 6) : addi16spPart x &&& 0x107c#16 = addi16spPart x := by
  revert x
  decide

theorem lwspPart_masked (x : BitVec 6) : lwspPart x &&& 0x107c#16 = lwspPart x := by
  revert x
  decide

theorem ldspPart_masked (x : BitVec 6) : ldspPart x &&& 0x107c#16 = ldspPart x := by
  revert x
  decide

theorem addi4spnPart_masked (x : BitVec 8) : addi4spnPart x &&& 0x1fe0#16 = addi4spnPart x := by
  revert x
  decide +kernel

theorem cjPart_masked (x : BitVec 11) : cjPart x &&& 0x1ffc#16 = cjPart x := by
  apply BitVec.eq_of_getLsbD_eq
  intro i hi
  simp only [cjPart, bitAt, BitVec.getLsbD_or, BitVec.getLsbD_and, BitVec.getLsbD_shiftLeft,
    BitVec.getLsbD_ushiftRight, BitVec.getLsbD_setWidth]
  interval_cases i <;> simp

theorem lwPart_masked (x : BitVec 5) : lwPart x &&& 0x1c60#16 = lwPart x := by
  revert x
  decide

theorem ldPart_masked (x : BitVec 5) : ldPart x &&& 0x1c60#16 = ldPart x := by
  revert x
  decide

theorem swspPart_masked (x : BitVec 6) : swspPart x &&& 0x1f80#16 = swspPart x := by
  revert x
  decide

theorem sdspPart_masked (x : BitVec 6) : sdspPart x &&& 0x1f80#16 = sdspPart x := by
  revert x
  decide

/-- An immediate depends on the bits of its fields only. -/
theorem cImm6_and (h : HalfWord) : cImm6 (h &&& 0x107c#16) = cImm6 h := by
  unfold cImm6
  simp only [BitVec.extractLsb'_and]
  congr
  all_goals exact BitVec.and_allOnes

theorem cImmAddi4spn_and (h : HalfWord) : cImmAddi4spn (h &&& 0x1fe0#16) = cImmAddi4spn h := by
  unfold cImmAddi4spn
  simp only [BitVec.extractLsb'_and]
  congr
  all_goals exact BitVec.and_allOnes

theorem cImmAddi16sp_and (h : HalfWord) : cImmAddi16sp (h &&& 0x107c#16) = cImmAddi16sp h := by
  unfold cImmAddi16sp
  simp only [BitVec.extractLsb'_and]
  congr
  all_goals exact BitVec.and_allOnes

theorem cImmLw_and (h : HalfWord) : cImmLw (h &&& 0x1c60#16) = cImmLw h := by
  unfold cImmLw
  simp only [BitVec.extractLsb'_and]
  congr
  all_goals exact BitVec.and_allOnes

theorem cImmLd_and (h : HalfWord) : cImmLd (h &&& 0x1c60#16) = cImmLd h := by
  unfold cImmLd
  simp only [BitVec.extractLsb'_and]
  congr
  all_goals exact BitVec.and_allOnes

theorem cImmLwsp_and (h : HalfWord) : cImmLwsp (h &&& 0x107c#16) = cImmLwsp h := by
  unfold cImmLwsp
  simp only [BitVec.extractLsb'_and]
  congr
  all_goals exact BitVec.and_allOnes

theorem cImmLdsp_and (h : HalfWord) : cImmLdsp (h &&& 0x107c#16) = cImmLdsp h := by
  unfold cImmLdsp
  simp only [BitVec.extractLsb'_and]
  congr
  all_goals exact BitVec.and_allOnes

theorem cImmSwsp_and (h : HalfWord) : cImmSwsp (h &&& 0x1f80#16) = cImmSwsp h := by
  unfold cImmSwsp
  simp only [BitVec.extractLsb'_and]
  congr
  all_goals exact BitVec.and_allOnes

theorem cImmSdsp_and (h : HalfWord) : cImmSdsp (h &&& 0x1f80#16) = cImmSdsp h := by
  unfold cImmSdsp
  simp only [BitVec.extractLsb'_and]
  congr
  all_goals exact BitVec.and_allOnes

theorem immCJ_and (h : HalfWord) : immCJ (h &&& 0x1ffc#16) = immCJ h := by
  unfold immCJ
  simp only [BitVec.extractLsb'_and]
  congr
  all_goals exact BitVec.and_allOnes

theorem immCB_and (h : HalfWord) : immCB (h &&& 0x1c7c#16) = immCB h := by
  unfold immCB
  simp only [BitVec.extractLsb'_and]
  congr
  all_goals exact BitVec.and_allOnes

theorem cImm6_of {h : HalfWord} {x : BitVec 6} (hx : h &&& 0x107c#16 = imm6Part x) :
    cImm6 h = x := by
  have hpart : ∀ x : BitVec 6, cImm6 (imm6Part x) = x := by decide
  rw [← cImm6_and, hx, hpart]

theorem imm6Part_cImm6 (h : HalfWord) : imm6Part (cImm6 h) = h &&& 0x107c#16 := by
  apply BitVec.eq_of_getLsbD_eq
  intro i hi
  simp only [imm6Part, bitAt, cImm6, BitVec.getLsbD_or, BitVec.getLsbD_and,
    BitVec.getLsbD_shiftLeft, BitVec.getLsbD_ushiftRight, BitVec.getLsbD_setWidth,
    BitVec.getLsbD_append, BitVec.getLsbD_extractLsb']
  interval_cases i <;> simp

theorem cImmAddi16sp_of {h : HalfWord} {x : BitVec 6} (hx : h &&& 0x107c#16 = addi16spPart x) :
    cImmAddi16sp h = (x ++ 0#4).signExtend 64 := by
  have hpart : ∀ x : BitVec 6, cImmAddi16sp (addi16spPart x) = (x ++ 0#4).signExtend 64 := by decide
  rw [← cImmAddi16sp_and, hx, hpart]

theorem cImmLwsp_of {h : HalfWord} {x : BitVec 6} (hx : h &&& 0x107c#16 = lwspPart x) :
    cImmLwsp h = (x ++ 0#2).setWidth 64 := by
  have hpart : ∀ x : BitVec 6, cImmLwsp (lwspPart x) = (x ++ 0#2).setWidth 64 := by decide
  rw [← cImmLwsp_and, hx, hpart]

theorem cImmLdsp_of {h : HalfWord} {x : BitVec 6} (hx : h &&& 0x107c#16 = ldspPart x) :
    cImmLdsp h = (x ++ 0#3).setWidth 64 := by
  have hpart : ∀ x : BitVec 6, cImmLdsp (ldspPart x) = (x ++ 0#3).setWidth 64 := by decide
  rw [← cImmLdsp_and, hx, hpart]

theorem cImmAddi4spn_of {h : HalfWord} {x : BitVec 8} (hx : h &&& 0x1fe0#16 = addi4spnPart x) :
    cImmAddi4spn h = (x ++ 0#2).setWidth 64 := by
  have hpart : ∀ x : BitVec 8, cImmAddi4spn (addi4spnPart x) = (x ++ 0#2).setWidth 64 := by decide +kernel
  rw [← cImmAddi4spn_and, hx, hpart]

theorem immCJ_cjPart (x : BitVec 11) : immCJ (cjPart x) = (x ++ 0#1).signExtend 64 := by
  refine congrArg (BitVec.signExtend 64) (BitVec.eq_of_getLsbD_eq fun i hi => ?_)
  simp only [cjPart, bitAt, BitVec.getLsbD_append, BitVec.getLsbD_extractLsb', BitVec.getLsbD_or,
    BitVec.getLsbD_and, BitVec.getLsbD_shiftLeft, BitVec.getLsbD_ushiftRight,
    BitVec.getLsbD_setWidth]
  interval_cases i <;> simp

theorem immCJ_of {h : HalfWord} {x : BitVec 11} (hx : h &&& 0x1ffc#16 = cjPart x) :
    immCJ h = (x ++ 0#1).signExtend 64 := by
  rw [← immCJ_and, hx, immCJ_cjPart]

theorem cImmLw_of {h : HalfWord} {x : BitVec 5} (hx : h &&& 0x1c60#16 = lwPart x) :
    cImmLw h = (x ++ 0#2).setWidth 64 := by
  have hpart : ∀ x : BitVec 5, cImmLw (lwPart x) = (x ++ 0#2).setWidth 64 := by decide
  rw [← cImmLw_and, hx, hpart]

theorem cImmLd_of {h : HalfWord} {x : BitVec 5} (hx : h &&& 0x1c60#16 = ldPart x) :
    cImmLd h = (x ++ 0#3).setWidth 64 := by
  have hpart : ∀ x : BitVec 5, cImmLd (ldPart x) = (x ++ 0#3).setWidth 64 := by decide
  rw [← cImmLd_and, hx, hpart]

theorem cImmSwsp_of {h : HalfWord} {x : BitVec 6} (hx : h &&& 0x1f80#16 = swspPart x) :
    cImmSwsp h = (x ++ 0#2).setWidth 64 := by
  have hpart : ∀ x : BitVec 6, cImmSwsp (swspPart x) = (x ++ 0#2).setWidth 64 := by decide
  rw [← cImmSwsp_and, hx, hpart]

theorem cImmSdsp_of {h : HalfWord} {x : BitVec 6} (hx : h &&& 0x1f80#16 = sdspPart x) :
    cImmSdsp h = (x ++ 0#3).setWidth 64 := by
  have hpart : ∀ x : BitVec 6, cImmSdsp (sdspPart x) = (x ++ 0#3).setWidth 64 := by decide
  rw [← cImmSdsp_and, hx, hpart]

/-! ## The parts that the assembler emits -/

theorem genLe16_or (x y : BitVec 32) : genLe16 (x ||| y) = genLe16 x ||| genLe16 y :=
  BitVec.setWidth_or

theorem emit_imm6 (v : BitVec 64) :
    genLe16 ((v.setWidth 32 &&& 0x1f#32) <<< 2 ||| nthBit (v.setWidth 32) 5 <<< 12)
      = imm6Part (v.setWidth 6) := by
  apply BitVec.eq_of_getLsbD_eq
  intro i hi
  simp only [genLe16, nthBit, imm6Part, bitAt, BitVec.getLsbD_setWidth, BitVec.getLsbD_or,
    BitVec.getLsbD_and, BitVec.getLsbD_shiftLeft, BitVec.getLsbD_ushiftRight]
  interval_cases i <;> simp

theorem emit_lui (v : BitVec 64) :
    genLe16 ((v.setWidth 32 >>> 12 &&& 0x1f#32) <<< 2 ||| nthBit (v.setWidth 32) 17 <<< 12)
      = imm6Part (v.extractLsb' 12 6) := by
  apply BitVec.eq_of_getLsbD_eq
  intro i hi
  simp only [genLe16, nthBit, imm6Part, bitAt, BitVec.getLsbD_setWidth, BitVec.getLsbD_or,
    BitVec.getLsbD_and, BitVec.getLsbD_shiftLeft, BitVec.getLsbD_ushiftRight,
    BitVec.getLsbD_extractLsb']
  interval_cases i <;> simp

theorem emit_addi16sp (v : BitVec 64) :
    genLe16 (nthBit (v.setWidth 32) 5 <<< 2 ||| (v.setWidth 32 >>> 7 &&& 3#32) <<< 3
      ||| nthBit (v.setWidth 32) 6 <<< 5 ||| nthBit (v.setWidth 32) 4 <<< 6 ||| nthBit (v.setWidth 32) 9 <<< 12)
      = addi16spPart (v.extractLsb' 4 6) := by
  apply BitVec.eq_of_getLsbD_eq
  intro i hi
  simp only [genLe16, nthBit, addi16spPart, bitAt, BitVec.getLsbD_setWidth, BitVec.getLsbD_or,
    BitVec.getLsbD_and, BitVec.getLsbD_shiftLeft, BitVec.getLsbD_ushiftRight,
    BitVec.getLsbD_extractLsb']
  interval_cases i <;> simp

/-- Bit 3 of the offset is lost. -/
theorem emit_ldsp (v : BitVec 64) :
    genLe16 ((v.setWidth 32 >>> 6 &&& 7#32) <<< 2 ||| (v.setWidth 32 >>> 3 &&& 2#32) <<< 5
      ||| nthBit (v.setWidth 32) 5 <<< 12)
      = ldspPart (v.extractLsb' 4 5 ++ 0#1) := by
  apply BitVec.eq_of_getLsbD_eq
  intro i hi
  simp only [genLe16, nthBit, ldspPart, bitAt, BitVec.getLsbD_setWidth, BitVec.getLsbD_or,
    BitVec.getLsbD_and, BitVec.getLsbD_shiftLeft, BitVec.getLsbD_ushiftRight,
    BitVec.getLsbD_append, BitVec.getLsbD_extractLsb']
  interval_cases i <;> simp

theorem emit_lwsp (v : BitVec 64) :
    genLe16 ((v.setWidth 32 >>> 6 &&& 3#32) <<< 2 ||| (v.setWidth 32 >>> 2 &&& 7#32) <<< 4
      ||| nthBit (v.setWidth 32) 5 <<< 12)
      = lwspPart (v.extractLsb' 2 6) := by
  apply BitVec.eq_of_getLsbD_eq
  intro i hi
  simp only [genLe16, nthBit, lwspPart, bitAt, BitVec.getLsbD_setWidth, BitVec.getLsbD_or,
    BitVec.getLsbD_and, BitVec.getLsbD_shiftLeft, BitVec.getLsbD_ushiftRight,
    BitVec.getLsbD_extractLsb']
  interval_cases i <;> simp

theorem emit_addi4spn (v : BitVec 64) :
    genLe16 ((nthBit (v.setWidth 32) 3 ||| nthBit (v.setWidth 32) 2 <<< 1 |||
      (v.setWidth 32 >>> 6 &&& 0xf#32) <<< 2 ||| (v.setWidth 32 >>> 4 &&& 3#32) <<< 6) <<< 5)
      = addi4spnPart (v.extractLsb' 2 8) := by
  apply BitVec.eq_of_getLsbD_eq
  intro i hi
  simp only [genLe16, nthBit, addi4spnPart, bitAt, BitVec.getLsbD_setWidth, BitVec.getLsbD_or,
    BitVec.getLsbD_and, BitVec.getLsbD_shiftLeft, BitVec.getLsbD_ushiftRight,
    BitVec.getLsbD_extractLsb']
  interval_cases i <;> simp

theorem emit_cj (v : BitVec 64) :
    genLe16 (nthBit (v.setWidth 32) 5 <<< 2 ||| (v.setWidth 32 >>> 1 &&& 7#32) <<< 3
      ||| nthBit (v.setWidth 32) 7 <<< 6 ||| nthBit (v.setWidth 32) 6 <<< 7 ||| nthBit (v.setWidth 32) 10 <<< 8
      ||| (v.setWidth 32 >>> 8 &&& 3#32) <<< 9 ||| nthBit (v.setWidth 32) 4 <<< 11 ||| nthBit (v.setWidth 32) 11 <<< 12)
      = cjPart (v.extractLsb' 1 11) := by
  apply BitVec.eq_of_getLsbD_eq
  intro i hi
  simp only [genLe16, nthBit, cjPart, bitAt, BitVec.getLsbD_setWidth, BitVec.getLsbD_or,
    BitVec.getLsbD_and, BitVec.getLsbD_shiftLeft, BitVec.getLsbD_ushiftRight,
    BitVec.getLsbD_extractLsb']
  interval_cases i <;> simp

theorem emit_lw (v : BitVec 64) :
    genLe16 (nthBit (v.setWidth 32) 6 <<< 5 ||| nthBit (v.setWidth 32) 2 <<< 6
      ||| (v.setWidth 32 >>> 3 &&& 7#32) <<< 10)
      = lwPart (v.extractLsb' 2 5) := by
  apply BitVec.eq_of_getLsbD_eq
  intro i hi
  simp only [genLe16, nthBit, lwPart, bitAt, BitVec.getLsbD_setWidth, BitVec.getLsbD_or,
    BitVec.getLsbD_and, BitVec.getLsbD_shiftLeft, BitVec.getLsbD_ushiftRight,
    BitVec.getLsbD_extractLsb']
  interval_cases i <;> simp

theorem emit_ld (v : BitVec 64) :
    genLe16 ((v.setWidth 32 >>> 6 &&& 3#32) <<< 5 ||| (v.setWidth 32 >>> 3 &&& 7#32) <<< 10)
      = ldPart (v.extractLsb' 3 5) := by
  apply BitVec.eq_of_getLsbD_eq
  intro i hi
  simp only [genLe16, ldPart, bitAt, BitVec.getLsbD_setWidth, BitVec.getLsbD_or,
    BitVec.getLsbD_and, BitVec.getLsbD_shiftLeft, BitVec.getLsbD_ushiftRight,
    BitVec.getLsbD_extractLsb']
  interval_cases i <;> simp

theorem emit_swsp (v : BitVec 64) :
    genLe16 ((v.setWidth 32 >>> 6 &&& 3#32) <<< 7 ||| (v.setWidth 32 >>> 2 &&& 0xf#32) <<< 9)
      = swspPart (v.extractLsb' 2 6) := by
  apply BitVec.eq_of_getLsbD_eq
  intro i hi
  simp only [genLe16, swspPart, bitAt, BitVec.getLsbD_setWidth, BitVec.getLsbD_or,
    BitVec.getLsbD_and, BitVec.getLsbD_shiftLeft, BitVec.getLsbD_ushiftRight,
    BitVec.getLsbD_extractLsb']
  interval_cases i <;> simp

theorem emit_sdsp (v : BitVec 64) :
    genLe16 ((v.setWidth 32 >>> 6 &&& 7#32) <<< 7 ||| (v.setWidth 32 >>> 3 &&& 7#32) <<< 10)
      = sdspPart (v.extractLsb' 3 6) := by
  apply BitVec.eq_of_getLsbD_eq
  intro i hi
  simp only [genLe16, sdspPart, bitAt, BitVec.getLsbD_setWidth, BitVec.getLsbD_or,
    BitVec.getLsbD_and, BitVec.getLsbD_shiftLeft, BitVec.getLsbD_ushiftRight,
    BitVec.getLsbD_extractLsb']
  interval_cases i <;> simp

/-- The offset of a branch: its bit 8 goes where bit 3 goes. -/
def cbPart (x : BitVec 8) : HalfWord :=
  bitAt x 0 3 ||| bitAt x 1 4 ||| bitAt x 2 10 ||| bitAt x 3 11 ||| bitAt x 4 2 ||| bitAt x 5 5 |||
    bitAt x 6 6 ||| bitAt x 7 12

theorem emit_cb (v : BitVec 64) :
    genLe16 ((nthBit (v.setWidth 32) 5 ||| ((v.setWidth 32 >>> 1 &&& 3#32) <<< 1) |||
        ((v.setWidth 32 >>> 6 &&& 3#32) <<< 3)) <<< 2
      ||| ((v.setWidth 32 >>> 3 &&& 3#32) ||| nthBit (v.setWidth 32) 8) <<< 10)
      = cbPart ((v.extractLsb' 1 7 ||| (v.extractLsb' 8 1).setWidth 7 <<< 2).setWidth 8) := by
  apply BitVec.eq_of_getLsbD_eq
  intro i hi
  simp only [genLe16, nthBit, cbPart, bitAt, BitVec.getLsbD_setWidth, BitVec.getLsbD_or,
    BitVec.getLsbD_and, BitVec.getLsbD_shiftLeft, BitVec.getLsbD_ushiftRight,
    BitVec.getLsbD_extractLsb']
  interval_cases i <;> simp

theorem immCB_of {h : HalfWord} {x : BitVec 8} (hx : h &&& 0x1c7c#16 = cbPart x) :
    immCB h = (x ++ 0#1).signExtend 64 := by
  have hpart : ∀ x : BitVec 8, immCB (cbPart x) = (x ++ 0#1).signExtend 64 := by decide +kernel
  rw [← immCB_and, hx, hpart]

theorem genLe16_encodeRd (r : BitVec 6) : genLe16 (encodeRd r) = rdPart (r.setWidth 5) := by
  revert r
  decide

theorem genLe16_cEncodeRs1 (r : BitVec 6) :
    genLe16 (cEncodeRs1 (r.setWidth 8)) = rdPart (r.setWidth 5) := by
  revert r
  decide

theorem genLe16_cEncodeRs2 (r : BitVec 6) :
    genLe16 (cEncodeRs2 (r.setWidth 8)) = rs2Part (r.setWidth 5) := by
  revert r
  decide

/-- The field of `rs2` is above bit 16. -/
theorem genLe16_encodeRs2 (r : BitVec 6) : genLe16 (encodeRs2 r) = 0#16 := by
  revert r
  decide

theorem genLe16_cEncodeRs1_minus8 {r : BitVec 6} (hr : IsXc r) :
    genLe16 (cEncodeRs1 (minus8 r)) = rs1'Part (r.setWidth 3) := by
  revert r
  decide

theorem genLe16_cEncodeRs2_minus8 {r : BitVec 6} (hr : IsXc r) :
    genLe16 (cEncodeRs2 (minus8 r)) = rs2'Part (r.setWidth 3) := by
  revert r
  decide

end TccRiscv64.Asm
