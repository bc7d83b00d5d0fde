import TccRiscv64.Isa.Rv64

set_option autoImplicit false

/-! # Emitting instruction words

The helpers of the code generator that put an instruction word together from its fields, and what
the words they make do when executed. -/

namespace TccRiscv64.Gen

open TccRiscv64.Isa

/-- `EIu`. -/
def eiu (opcode : BitVec 7) (func3 : BitVec 3) (rd rs1 : XReg) (imm : BitVec 32) : Word :=
  opcode.setWidth 32 ||| func3.setWidth 32 <<< 12 ||| rd.setWidth 32 <<< 7 |||
    rs1.setWidth 32 <<< 15 ||| imm <<< 20

/-- The test that a number fits 12 signed bits: `!((imm + (1 << 11)) >> 12)`. -/
def Fits12 (imm : BitVec 32) : Prop := (imm + 0x800#32) >>> 12 = 0#32

instance (imm : BitVec 32) : Decidable (Fits12 imm) := inferInstanceAs (Decidable (_ = _))

/-- `EI`, which asserts that the immediate fits. -/
def ei (opcode : BitVec 7) (func3 : BitVec 3) (rd rs1 : XReg) (imm : BitVec 32) : Option Word :=
  if Fits12 imm then some (eiu opcode func3 rd rs1 imm) else none

/-- `ER`. -/
def er (opcode : BitVec 7) (func3 : BitVec 3) (rd rs1 rs2 : XReg) (func7 : BitVec 7) : Word :=
  opcode.setWidth 32 ||| func3.setWidth 32 <<< 12 ||| rd.setWidth 32 <<< 7 |||
    rs1.setWidth 32 <<< 15 ||| rs2.setWidth 32 <<< 20 ||| func7.setWidth 32 <<< 25

/-- The word that `ES` puts together. -/
def esu (opcode : BitVec 7) (func3 : BitVec 3) (rs1 rs2 : XReg) (imm : BitVec 32) : Word :=
  opcode.setWidth 32 ||| func3.setWidth 32 <<< 12 ||| (imm &&& 0x1f#32) <<< 7 |||
    rs1.setWidth 32 <<< 15 ||| rs2.setWidth 32 <<< 20 ||| (imm >>> 5) <<< 25

/-- `ES`, which asserts that the immediate fits. -/
def es (opcode : BitVec 7) (func3 : BitVec 3) (rs1 rs2 : XReg) (imm : BitVec 32) : Option Word :=
  if Fits12 imm then some (esu opcode func3 rs1 rs2 imm) else none

/-- `o(0x37 | (rr << 7) | ((0x800 + fc) & 0xfffff000))`: `lui` with the rounded upper part. -/
def oLui (rr : XReg) (fc : BitVec 32) : Word :=
  0x37#32 ||| rr.setWidth 32 <<< 7 ||| ((0x800#32 + fc) &&& 0xfffff000#32)

/-- `o(0x63 | (op ^ 1) << 12 | a << 15 | b << 20 | 8 << 7)`: the inverted branch over one
instruction. -/
def oBranchOver (op : BitVec 3) (a b : XReg) : Word :=
  0x63#32 ||| (op ^^^ 1#3).setWidth 32 <<< 12 ||| a.setWidth 32 <<< 15 ||| b.setWidth 32 <<< 20 |||
    8#32 <<< 7

/-! ## The fields of the words -/

section Fields

variable (opcode : BitVec 7) (func3 : BitVec 3) (rd rs1 rs2 : XReg) (imm : BitVec 32)
  (func7 : BitVec 7)

@[simp] theorem opcodeOf_eiu : opcodeOf (eiu opcode func3 rd rs1 imm) = opcode := by
  apply BitVec.eq_of_getLsbD_eq
  intro i hi
  simp only [opcodeOf, eiu, BitVec.getLsbD_extractLsb', BitVec.getLsbD_or, BitVec.getLsbD_shiftLeft,
    BitVec.getLsbD_setWidth]
  grind

@[simp] theorem rdOf_eiu : rdOf (eiu opcode func3 rd rs1 imm) = rd := by
  apply BitVec.eq_of_getLsbD_eq
  intro i hi
  simp only [rdOf, eiu, BitVec.getLsbD_extractLsb', BitVec.getLsbD_or, BitVec.getLsbD_shiftLeft,
    BitVec.getLsbD_setWidth]
  grind

@[simp] theorem func3Of_eiu : func3Of (eiu opcode func3 rd rs1 imm) = func3 := by
  apply BitVec.eq_of_getLsbD_eq
  intro i hi
  simp only [func3Of, eiu, BitVec.getLsbD_extractLsb', BitVec.getLsbD_or, BitVec.getLsbD_shiftLeft,
    BitVec.getLsbD_setWidth]
  grind

@[simp] theorem rs1Of_eiu : rs1Of (eiu opcode func3 rd rs1 imm) = rs1 := by
  apply BitVec.eq_of_getLsbD_eq
  intro i hi
  simp only [rs1Of, eiu, BitVec.getLsbD_extractLsb', BitVec.getLsbD_or, BitVec.getLsbD_shiftLeft,
    BitVec.getLsbD_setWidth]
  grind

/-- The bits from 20 on hold the immediate. -/
theorem extractLsb'_eiu {start len : Nat} (hstart : 20 ≤ start) (hlen : start + len ≤ 32) :
    (eiu opcode func3 rd rs1 imm).extractLsb' start len = imm.extractLsb' (start - 20) len := by
  apply BitVec.eq_of_getLsbD_eq
  intro i hi
  simp only [eiu, BitVec.getLsbD_extractLsb', BitVec.getLsbD_or, BitVec.getLsbD_shiftLeft,
    BitVec.getLsbD_setWidth]
  grind

@[simp] theorem opcodeOf_er : opcodeOf (er opcode func3 rd rs1 rs2 func7) = opcode := by
  apply BitVec.eq_of_getLsbD_eq
  intro i hi
  simp only [opcodeOf, er, BitVec.getLsbD_extractLsb', BitVec.getLsbD_or, BitVec.getLsbD_shiftLeft,
    BitVec.getLsbD_setWidth]
  grind

@[simp] theorem rdOf_er : rdOf (er opcode func3 rd rs1 rs2 func7) = rd := by
  apply BitVec.eq_of_getLsbD_eq
  intro i hi
  simp only [rdOf, er, BitVec.getLsbD_extractLsb', BitVec.getLsbD_or, BitVec.getLsbD_shiftLeft,
    BitVec.getLsbD_setWidth]
  grind

@[simp] theorem func3Of_er : func3Of (er opcode func3 rd rs1 rs2 func7) = func3 := by
  apply BitVec.eq_of_getLsbD_eq
  intro i hi
  simp only [func3Of, er, BitVec.getLsbD_extractLsb', BitVec.getLsbD_or, BitVec.getLsbD_shiftLeft,
    BitVec.getLsbD_setWidth]
  grind

@[simp] theorem rs1Of_er : rs1Of (er opcode func3 rd rs1 rs2 func7) = rs1 := by
  apply BitVec.eq_of_getLsbD_eq
  intro i hi
  simp only [rs1Of, er, BitVec.getLsbD_extractLsb', BitVec.getLsbD_or, BitVec.getLsbD_shiftLeft,
    BitVec.getLsbD_setWidth]
  grind

@[simp] theorem rs2Of_er : rs2Of (er opcode func3 rd rs1 rs2 func7) = rs2 := by
  apply BitVec.eq_of_getLsbD_eq
  intro i hi
  simp only [rs2Of, er, BitVec.getLsbD_extractLsb', BitVec.getLsbD_or, BitVec.getLsbD_shiftLeft,
    BitVec.getLsbD_setWidth]
  grind

@[simp] theorem func7Of_er : func7Of (er opcode func3 rd rs1 rs2 func7) = func7 := by
  apply BitVec.eq_of_getLsbD_eq
  intro i hi
  simp only [func7Of, er, BitVec.getLsbD_extractLsb', BitVec.getLsbD_or, BitVec.getLsbD_shiftLeft,
    BitVec.getLsbD_setWidth]
  grind

@[simp] theorem opcodeOf_esu : opcodeOf (esu opcode func3 rs1 rs2 imm) = opcode := by
  apply BitVec.eq_of_getLsbD_eq
  intro i hi
  simp only [opcodeOf, esu, BitVec.getLsbD_extractLsb', BitVec.getLsbD_or, BitVec.getLsbD_shiftLeft,
    BitVec.getLsbD_setWidth]
  grind

@[simp] theorem func3Of_esu : func3Of (esu opcode func3 rs1 rs2 imm) = func3 := by
  apply BitVec.eq_of_getLsbD_eq
  intro i hi
  simp only [func3Of, esu, BitVec.getLsbD_extractLsb', BitVec.getLsbD_or, BitVec.getLsbD_and,
    BitVec.getLsbD_shiftLeft, BitVec.getLsbD_setWidth]
  interval_cases i <;> simp

@[simp] theorem rs1Of_esu : rs1Of (esu opcode func3 rs1 rs2 imm) = rs1 := by
  apply BitVec.eq_of_getLsbD_eq
  intro i hi
  simp only [rs1Of, esu, BitVec.getLsbD_extractLsb', BitVec.getLsbD_or, BitVec.getLsbD_and,
    BitVec.getLsbD_shiftLeft, BitVec.getLsbD_setWidth]
  interval_cases i <;> simp

@[simp] theorem rs2Of_esu : rs2Of (esu opcode func3 rs1 rs2 imm) = rs2 := by
  apply BitVec.eq_of_getLsbD_eq
  intro i hi
  simp only [rs2Of, esu, BitVec.getLsbD_extractLsb', BitVec.getLsbD_or, BitVec.getLsbD_and,
    BitVec.getLsbD_shiftLeft, BitVec.getLsbD_setWidth]
  interval_cases i <;> simp

theorem immS_esu : immS (esu opcode func3 rs1 rs2 imm) = (imm.setWidth 12).signExtend 64 := by
  rw [immS]
  congr 1
  apply BitVec.eq_of_getLsbD_eq
  intro i hi
  simp only [esu, BitVec.getLsbD_append, BitVec.getLsbD_extractLsb', BitVec.getLsbD_or,
    BitVec.getLsbD_and, BitVec.getLsbD_shiftLeft, BitVec.getLsbD_ushiftRight,
    BitVec.getLsbD_setWidth]
  interval_cases i <;> simp

@[simp] theorem opcodeOf_oLui (fc : BitVec 32) : opcodeOf (oLui rd fc) = 0x37#7 := by
  apply BitVec.eq_of_getLsbD_eq
  intro i hi
  simp only [opcodeOf, oLui, BitVec.getLsbD_extractLsb', BitVec.getLsbD_or, BitVec.getLsbD_and,
    BitVec.getLsbD_shiftLeft, BitVec.getLsbD_setWidth]
  interval_cases i <;> simp

@[simp] theorem rdOf_oLui (fc : BitVec 32) : rdOf (oLui rd fc) = rd := by
  apply BitVec.eq_of_getLsbD_eq
  intro i hi
  simp only [rdOf, oLui, BitVec.getLsbD_extractLsb', BitVec.getLsbD_or, BitVec.getLsbD_and,
    BitVec.getLsbD_shiftLeft, BitVec.getLsbD_setWidth]
  interval_cases i <;> simp

@[simp] theorem immU_oLui (fc : BitVec 32) :
    immU (oLui rd fc) = ((0x800#32 + fc) &&& 0xfffff000#32).signExtend 64 := by
  rw [immU]
  congr 1
  apply BitVec.eq_of_getLsbD_eq
  intro i hi
  simp only [oLui, BitVec.getLsbD_append, BitVec.getLsbD_extractLsb', BitVec.getLsbD_or,
    BitVec.getLsbD_and, BitVec.getLsbD_shiftLeft, BitVec.getLsbD_setWidth]
  interval_cases i <;> simp

end Fields

/-! ## What the words do -/

/-- The bit that turns an opcode into that of the 32-bit form. -/
def wordBit (word : Bool) : BitVec 7 := if word then 8#7 else 0#7

theorem execWord_oLui (m : Machine) (rr : XReg) (fc : BitVec 32) :
    execWord m (oLui rr fc)
      = some (m.setReg rr (((0x800#32 + fc) &&& 0xfffff000#32).signExtend 64)) := by
  simp [execWord, decode, Instr.exec]

/-- The operation of a register-immediate instruction other than a shift. -/
def immOp (func3 : BitVec 3) : AluOp :=
  match func3 with
  | 0#3 => .add
  | 2#3 => .slt
  | 3#3 => .sltu
  | 4#3 => .xor
  | 6#3 => .or
  | _ => .and

theorem immI_eiu (opcode : BitVec 7) (func3 : BitVec 3) (rd rs1 : XReg) (imm : BitVec 32) :
    immI (eiu opcode func3 rd rs1 imm) = (imm.setWidth 12).signExtend 64 := by
  rw [immI, extractLsb'_eiu _ _ _ _ _ (by decide) (by decide)]
  rfl

/-- `addi[w]`. -/
theorem execWord_addi (m : Machine) (word : Bool) (rd rs1 : XReg) (imm : BitVec 32) :
    execWord m (eiu (0x13#7 ||| wordBit word) 0#3 rd rs1 imm)
      = some (m.setReg rd
          (AluOp.add.result word (m.reg rs1) ((imm.setWidth 12).signExtend 64))) := by
  cases word <;>
    simp [execWord, decode, wordBit, decodeImm, immI_eiu, Instr.exec, AluOp.hasWordForm]

/-- `slti`, `sltiu`, `xori`, `ori` and `andi`. -/
theorem execWord_imm (m : Machine) {func3 : BitVec 3} (rd rs1 : XReg) (imm : BitVec 32)
    (h1 : func3 ≠ 1#3) (h5 : func3 ≠ 5#3) :
    execWord m (eiu 0x13#7 func3 rd rs1 imm)
      = some (m.setReg rd ((immOp func3).result false (m.reg rs1)
          ((imm.setWidth 12).signExtend 64))) := by
  have hall : ∀ f : BitVec 3, f = 0 ∨ f = 1 ∨ f = 2 ∨ f = 3 ∨ f = 4 ∨ f = 5 ∨ f = 6 ∨ f = 7 := by
    decide
  rcases hall func3 with rfl | rfl | rfl | rfl | rfl | rfl | rfl | rfl <;>
    first
    | exact absurd rfl h1
    | exact absurd rfl h5
    | simp [execWord, decode, decodeImm, immI_eiu, Instr.exec, immOp]

/-- The fields of an immediate that holds a shift amount below `2 ^ k`. -/
theorem shift_fields {imm : BitVec 32} {k : Nat} (h : imm.toNat < 2 ^ k) :
    imm.extractLsb' k (12 - k) = 0#(12 - k) ∧
      (imm.extractLsb' 0 k).setWidth 64 = imm.setWidth 64 := by
  constructor
  · apply BitVec.eq_of_toNat_eq
    rw [BitVec.extractLsb'_toNat, Nat.shiftRight_eq_div_pow, Nat.div_eq_of_lt h]
    simp
  · apply BitVec.eq_of_toNat_eq
    rw [BitVec.toNat_setWidth, BitVec.toNat_setWidth, BitVec.extractLsb'_toNat,
      Nat.shiftRight_zero, Nat.mod_eq_of_lt h]

/-- The same with the bit set that marks an arithmetic shift. -/
theorem sra_fields {imm : BitVec 32} {k : Nat} (hk : k ≤ 6) (h : imm.toNat < 2 ^ k) :
    (1024#32 ||| imm).extractLsb' k (12 - k) = BitVec.ofNat (12 - k) (2 ^ (10 - k)) ∧
      ((1024#32 ||| imm).extractLsb' 0 k).setWidth 64 = imm.setWidth 64 := by
  have hbits : ∀ i, k ≤ i → imm.getLsbD i = false := fun i hi =>
    Nat.testBit_lt_two_pow (h.trans_le (Nat.pow_le_pow_right (by decide) hi))
  constructor
  · apply BitVec.eq_of_getLsbD_eq
    intro i hi
    rw [BitVec.getLsbD_extractLsb', BitVec.getLsbD_or, hbits _ (by omega), BitVec.getLsbD_ofNat,
      BitVec.getLsbD_ofNat, Nat.testBit_two_pow, show 1024 = 2 ^ 10 by rfl, Nat.testBit_two_pow]
    grind
  · apply BitVec.eq_of_getLsbD_eq
    intro i hi
    rw [BitVec.getLsbD_setWidth, BitVec.getLsbD_setWidth, BitVec.getLsbD_extractLsb',
      BitVec.getLsbD_or, BitVec.getLsbD_ofNat, show 1024 = 2 ^ 10 by rfl, Nat.testBit_two_pow]
    by_cases hik : i < k
    · rw [decide_eq_false (by omega : ¬ 10 = 0 + i)]
      simp [hik]
    · rw [hbits i (by omega)]
      simp [hik]

/-- The number of bits of a shift amount. -/
def shiftBits (word : Bool) : Nat := if word then 5 else 6

/-- `slli[w]`. -/
theorem execWord_slli (m : Machine) (word : Bool) (rd rs1 : XReg) {imm : BitVec 32}
    (h : imm.toNat < 2 ^ shiftBits word) :
    execWord m (eiu (0x13#7 ||| wordBit word) 1#3 rd rs1 imm)
      = some (m.setReg rd (AluOp.sll.result word (m.reg rs1) (imm.setWidth 64))) := by
  cases word with
  | false =>
    have h : imm.toNat < 2 ^ 6 := h
    obtain ⟨hhigh, hlow⟩ := shift_fields h
    simp [execWord, decode, wordBit, decodeImm, extractLsb'_eiu, hhigh, hlow, Instr.exec]
  | true =>
    have h : imm.toNat < 2 ^ 5 := h
    obtain ⟨hhigh, hlow⟩ := shift_fields h
    simp [execWord, decode, wordBit, decodeImm, func7Of, extractLsb'_eiu, hhigh, hlow, Instr.exec,
      AluOp.hasWordForm]

/-- `srli[w]`. -/
theorem execWord_srli (m : Machine) (word : Bool) (rd rs1 : XReg) {imm : BitVec 32}
    (h : imm.toNat < 2 ^ shiftBits word) :
    execWord m (eiu (0x13#7 ||| wordBit word) 5#3 rd rs1 imm)
      = some (m.setReg rd (AluOp.srl.result word (m.reg rs1) (imm.setWidth 64))) := by
  cases word with
  | false =>
    have h : imm.toNat < 2 ^ 6 := h
    obtain ⟨hhigh, hlow⟩ := shift_fields h
    simp [execWord, decode, wordBit, decodeImm, extractLsb'_eiu, hhigh, hlow, Instr.exec]
  | true =>
    have h : imm.toNat < 2 ^ 5 := h
    obtain ⟨hhigh, hlow⟩ := shift_fields h
    simp [execWord, decode, wordBit, decodeImm, func7Of, extractLsb'_eiu, hhigh, hlow, Instr.exec,
      AluOp.hasWordForm]

/-- `srai[w]`. -/
theorem execWord_srai (m : Machine) (word : Bool) (rd rs1 : XReg) {imm : BitVec 32}
    (h : imm.toNat < 2 ^ shiftBits word) :
    execWord m (eiu (0x13#7 ||| wordBit word) 5#3 rd rs1 (1024#32 ||| imm))
      = some (m.setReg rd (AluOp.sra.result word (m.reg rs1) (imm.setWidth 64))) := by
  cases word with
  | false =>
    have h : imm.toNat < 2 ^ 6 := h
    obtain ⟨hhigh, hlow⟩ := sra_fields (by decide) h
    simp [execWord, decode, wordBit, decodeImm, extractLsb'_eiu, hhigh, hlow, Instr.exec]
  | true =>
    have h : imm.toNat < 2 ^ 5 := h
    obtain ⟨hhigh, hlow⟩ := sra_fields (by decide) h
    simp [execWord, decode, wordBit, decodeImm, func7Of, extractLsb'_eiu, hhigh, hlow, Instr.exec,
      AluOp.hasWordForm]

/-- The register-register instructions of the base instruction set. -/
theorem execWord_er_alu (m : Machine) (word : Bool) (rd rs1 rs2 : XReg) {func3 : BitVec 3}
    {func7 : BitVec 7} {op : AluOp} (hop : aluOpOf func3 func7 = some op)
    (hword : word = true → op.hasWordForm = true) :
    execWord m (er (0x33#7 ||| wordBit word) func3 rd rs1 rs2 func7)
      = some (m.setReg rd (op.result word (m.reg rs1) (m.reg rs2))) := by
  have h7 : func7 ≠ 1#7 := by
    rintro rfl
    rw [show aluOpOf func3 1#7 = none from rfl] at hop
    cases hop
  cases word <;>
    simp_all [execWord, decode, wordBit, decodeReg, Instr.exec]

/-- Multiplication and division. -/
theorem execWord_er_mul (m : Machine) (word : Bool) (rd rs1 rs2 : XReg) {func3 : BitVec 3}
    {op : MulOp} (hop : mulOpOf func3 = some op) :
    execWord m (er (0x33#7 ||| wordBit word) func3 rd rs1 rs2 1#7)
      = some (m.setReg rd (op.result word (m.reg rs1) (m.reg rs2))) := by
  cases word <;> simp [execWord, decode, wordBit, decodeReg, hop, Instr.exec]

/-- The width of the access of a load or store, and whether a load extends the sign. -/
def accessBytes (func3 : BitVec 3) : Nat := 2 ^ (func3.extractLsb' 0 2).toNat
def accessSigned (func3 : BitVec 3) : Bool := !func3.getLsbD 2

/-- The loads. -/
theorem execWord_load (m : Machine) {func3 : BitVec 3} (rd rs1 : XReg) (imm : BitVec 32)
    (h7 : func3 ≠ 7#3) :
    execWord m (eiu 0x03#7 func3 rd rs1 imm)
      = some (m.setReg rd (m.mem.loadExt (m.reg rs1 + (imm.setWidth 12).signExtend 64)
          (accessBytes func3) (accessSigned func3))) := by
  have hall : ∀ f : BitVec 3, f = 0 ∨ f = 1 ∨ f = 2 ∨ f = 3 ∨ f = 4 ∨ f = 5 ∨ f = 6 ∨ f = 7 := by
    decide
  rcases hall func3 with rfl | rfl | rfl | rfl | rfl | rfl | rfl | rfl <;>
    first
    | exact absurd rfl h7
    | simp only [execWord, decode, opcodeOf_eiu, decodeLoad, func3Of_eiu, rdOf_eiu, rs1Of_eiu,
        immI_eiu, Instr.exec]
      rfl

/-- The stores. -/
theorem execWord_store (m : Machine) {func3 : BitVec 3} (rs1 rs2 : XReg) (imm : BitVec 32)
    (h4 : accessSigned func3 = true) :
    execWord m (esu 0x23#7 func3 rs1 rs2 imm)
      = some (m.setMem (m.mem.store (m.reg rs1 + (imm.setWidth 12).signExtend 64)
          (accessBytes func3) (m.reg rs2))) := by
  have hall : ∀ f : BitVec 3, f = 0 ∨ f = 1 ∨ f = 2 ∨ f = 3 ∨ f = 4 ∨ f = 5 ∨ f = 6 ∨ f = 7 := by
    decide
  rcases hall func3 with rfl | rfl | rfl | rfl | rfl | rfl | rfl | rfl <;>
    first
    | exact absurd h4 (by decide)
    | simp only [execWord, decode, opcodeOf_esu, decodeStore, func3Of_esu, rs1Of_esu, rs2Of_esu,
        immS_esu, Instr.exec]
      rfl

end TccRiscv64.Gen
