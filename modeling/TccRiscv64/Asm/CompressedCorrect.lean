import TccRiscv64.Asm.CompressedFormats

set_option autoImplicit false

/-! # The assembler: compressed instructions and the listings

For which operands a mnemonic of the C extension is assembled to its word, or rejected where the
listings have no word. -/

namespace TccRiscv64.Asm

open Isa

/-! ## Numbers and kinds of operands -/

def Operand.isReg : Operand → Bool
  | .reg _ => true
  | .imm _ => false

/-- The kinds of the operands of a mnemonic. -/
def shape (m : Rvc) : List Bool := (m.args 0#16).map fun a => (Operand.ofArg a).isReg

theorem shape_args (m : Rvc) (h : HalfWord) :
    ((m.args h).map Operand.ofArg).map Operand.isReg = shape m := by
  cases m <;> rfl

theorem not_legal_of_shape {m : Rvc} {ops : List Operand} (h : ops.map Operand.isReg ≠ shape m) :
    ¬Legal m ops := by
  rintro ⟨w, hw⟩
  exact h (by rw [← (decodesTo_iff.1 hw).2, shape_args])

section Shapes

variable {m : Rvc} {opcode : BitVec 32} {a b c : Operand}

theorem asmEmitCa_shape (h : [a, b].map Operand.isReg ≠ [true, true]) :
    ∃ e, asmEmitCa opcode a b = .error e := by
  cases a <;> cases b <;> first | exact absurd rfl h | exact ⟨_, rfl⟩

theorem asmEmitCr_shape (h : [a, b].map Operand.isReg ≠ [true, true]) :
    ∃ e, asmEmitCr opcode a b = .error e := by
  cases a <;> cases b <;> first | exact absurd rfl h | exact ⟨_, rfl⟩

theorem asmEmitCb_shape (h : [a, b].map Operand.isReg ≠ [true, false]) :
    ∃ e, asmEmitCb m opcode a b = .error e := by
  cases a <;> cases b <;> first | exact absurd rfl h | exact ⟨_, rfl⟩

theorem asmEmitCi_shape (h : [a, b].map Operand.isReg ≠ [true, false]) :
    ∃ e, asmEmitCi m opcode a b = .error e := by
  cases a <;> cases b <;> first | exact absurd rfl h | exact ⟨_, rfl⟩

theorem asmEmitCiw_shape (h : [a, b].map Operand.isReg ≠ [true, false]) :
    ∃ e, asmEmitCiw opcode a b = .error e := by
  cases a <;> cases b <;> first | exact absurd rfl h | exact ⟨_, rfl⟩

theorem asmEmitCss_shape (h : [a, b].map Operand.isReg ≠ [true, false]) :
    ∃ e, asmEmitCss m opcode a b = .error e := by
  cases a <;> cases b <;> first | exact absurd rfl h | exact ⟨_, rfl⟩

theorem asmEmitCj_shape (h : [a].map Operand.isReg ≠ [false]) :
    ∃ e, asmEmitCj opcode a = .error e := by
  cases a <;> first | exact absurd rfl h | exact ⟨_, rfl⟩

theorem asmEmitCl_shape (h : [a, b, c].map Operand.isReg ≠ [true, true, false]) :
    ∃ e, asmEmitCl m opcode a b c = .error e := by
  cases a <;> cases b <;> cases c <;> first | exact absurd rfl h | exact ⟨_, rfl⟩

theorem asmEmitCs_shape (h : [a, b, c].map Operand.isReg ≠ [true, true, false]) :
    ∃ e, asmEmitCs m opcode a b c = .error e := by
  cases a <;> cases b <;> cases c <;> first | exact absurd rfl h | exact ⟨_, rfl⟩

theorem asmEmitCr_unary_shape (h : [a].map Operand.isReg ≠ [true]) :
    ∃ e, asmEmitCr opcode a (.reg 0) = .error e := by
  cases a <;> first | exact absurd rfl h | exact ⟨_, rfl⟩

end Shapes

/-- Operands of the wrong number or kind are rejected. -/
theorem asmOpcodeC_of_shape {m : Rvc} {ops : List Operand}
    (h : ops.map Operand.isReg ≠ shape m) : ∃ e, asmOpcodeC m ops = .error e := by
  unfold asmOpcodeC
  dsimp only
  split
  all_goals first
    | exact absurd rfl h
    | exact asmEmitCa_shape h
    | exact asmEmitCr_shape h
    | exact asmEmitCb_shape h
    | exact asmEmitCi_shape h
    | exact asmEmitCiw_shape h
    | exact asmEmitCss_shape h
    | exact asmEmitCj_shape h
    | exact asmEmitCl_shape h
    | exact asmEmitCs_shape h
    | exact asmEmitCr_unary_shape h
    | exact ⟨_, rfl⟩

/-! ## The operands that are treated correctly -/

/-- The value that the assembler compares with the bounds of an offset. -/
def low (v : BitVec 64) : Nat := v.toNat % 2 ^ 32

/-- When a compressed instruction is assembled as listed, or rejected because no word of the listing
has its operands. -/
def AssemblesWellC (m : Rvc) (ops : List Operand) : Prop :=
  match m, ops with
  -- the registers of the CR format are not checked
  | .add, [.reg a, .reg b] | .mv, [.reg a, .reg b] => IsX a ∧ IsX b ∧ b ≠ 0#6
  | .jr, [.reg r] | .jalr, [.reg r] => IsX r ∧ r ≠ 0#6
  -- neither are the operands of the CI format
  | .addi, [.reg r, .imm v] | .addiw, [.reg r, .imm v] => IsX r ∧ r ≠ 0#6 ∧ FitsSigned 6 v
  | .li, [.reg r, .imm v] => IsX r ∧ FitsSigned 6 v
  | .slli, [.reg r, .imm v] => IsX r ∧ v ≠ 0#64 ∧ v.toNat < 64
  | .addi16sp, [.reg r, .imm v] =>
    r = 2#6 ∧ v ≠ 0#64 ∧ FitsSigned 10 v ∧ v.toNat % 16 = 0
  | .lui, [.reg r, .imm v] =>
    IsX r ∧ r ≠ 2#6 ∧ v ≠ 0#64 ∧ FitsSigned 18 v ∧ v.toNat % 4096 = 0
  | .lwsp, [.reg r, .imm v] => (IsX r ∧ r ≠ 0#6) ∧ v.toNat < 256 ∧ v.toNat % 4 = 0
  | .flwsp, [.reg r, .imm v] => IsF r ∧ v.toNat < 256 ∧ v.toNat % 4 = 0
  -- bit 3 of the offset is lost
  | .ldsp, [.reg r, .imm v] => (IsX r ∧ r ≠ 0#6) ∧ v.toNat < 512 ∧ v.toNat % 16 = 0
  | .fldsp, [.reg r, .imm v] => IsF r ∧ v.toNat < 512 ∧ v.toNat % 16 = 0
  -- every immediate of the CB format has to be even
  | .andi, [.reg r, .imm v] => IsXc r → (FitsSigned 6 v ↔ v.toNat % 2 = 0)
  | .srai, [.reg r, .imm v] | .srli, [.reg r, .imm v] =>
    IsXc r → ((v ≠ 0#64 ∧ v.toNat < 64) ↔ v.toNat % 2 = 0)
  -- bit 8 of the offset goes where bit 3 goes
  | .beqz, [.reg r, .imm v] | .bnez, [.reg r, .imm v] =>
    IsXc r → v.toNat % 2 = 0 → v.toNat < 256
  -- the register is lost
  | .addi4spn, [.reg r, .imm v] =>
    IsXc r → low v ≤ 0x3fc → v.toNat % 4 = 0 → r = 8#6 ∧ v ≠ 0#64 ∧ v.toNat < 1024
  | .j, [.imm v] | .jal, [.imm v] => isIm12s v → v.toNat % 2 = 0 → FitsSigned 12 v
  -- offsets up to 255 are accepted for words and for doublewords
  | .lw, [.reg a, .reg b, .imm v] =>
    IsXc a → IsXc b → low v ≤ 255 → v.toNat % 4 = 0 → v.toNat < 128
  | .ld, [.reg a, .reg b, .imm v] =>
    IsXc a → IsXc b → low v ≤ 255 → v.toNat % 4 = 0 → v.toNat < 256 ∧ v.toNat % 8 = 0
  -- and the two registers of a store are swapped
  | .sw, [.reg a, .reg b, .imm v] =>
    IsXc a → IsXc b → low v ≤ 255 → v.toNat % 4 = 0 → b = a ∧ v.toNat < 128
  | .sd, [.reg a, .reg b, .imm v] =>
    IsXc a → IsXc b → low v ≤ 255 → v.toNat % 4 = 0 → b = a ∧ v.toNat < 256 ∧ v.toNat % 8 = 0
  -- floating point registers are rejected, integer registers accepted in their place
  | .flw, [.reg a, .reg b, .imm v] | .fsw, [.reg a, .reg b, .imm v] =>
    ¬(IsXc a ∧ IsXc b ∧ low v ≤ 255 ∧ v.toNat % 4 = 0)
    ∧ ¬(IsFc a ∧ IsXc b ∧ v.toNat < 128 ∧ v.toNat % 4 = 0)
  | .fld, [.reg a, .reg b, .imm v] | .fsd, [.reg a, .reg b, .imm v] =>
    ¬(IsXc a ∧ IsXc b ∧ low v ≤ 255 ∧ v.toNat % 4 = 0)
    ∧ ¬(IsFc a ∧ IsXc b ∧ v.toNat < 256 ∧ v.toNat % 8 = 0)
  -- the register of the CSS format is lost, and offsets from 256 on are rejected
  | .swsp, [.reg r, .imm v] => low v ≤ 255 → v.toNat % 4 = 0 → r = 0#6 ∧ v.toNat < 256
  | .fswsp, [.reg r, .imm v] => low v ≤ 255 → v.toNat % 4 = 0 → r = 32#6 ∧ v.toNat < 256
  | .sdsp, [.reg r, .imm v] =>
    (low v ≤ 255 → v.toNat % 4 = 0 → r = 0#6 ∧ v.toNat < 256 ∧ v.toNat % 8 = 0)
    ∧ ¬(IsX r ∧ 256 ≤ v.toNat ∧ v.toNat < 512 ∧ v.toNat % 8 = 0)
  | .fsdsp, [.reg r, .imm v] =>
    (low v ≤ 255 → v.toNat % 4 = 0 → r = 32#6 ∧ v.toNat < 256 ∧ v.toNat % 8 = 0)
    ∧ ¬(IsF r ∧ 256 ≤ v.toNat ∧ v.toNat < 512 ∧ v.toNat % 8 = 0)
  | _, _ => True

theorem assemblesWellC_of_shape {m : Rvc} {ops : List Operand}
    (h : ops.map Operand.isReg ≠ shape m) : AssemblesWellC m ops := by
  unfold AssemblesWellC
  split
  all_goals first
    | exact trivial
    | exact absurd rfl h

/-! ## Results for the mnemonics -/

section Mnemonics

variable {m : Rvc} (a b : BitVec 6) (v : BitVec 64)

theorem correctC_cr_iff (hm : m = .add ∨ m = .mv) {opcode : BitVec 32}
    (hopcode : genLe16 opcode = m.fixed.2) :
    CorrectC m [.reg a, .reg b] (asmEmitCr opcode (.reg a) (.reg b))
      ↔ IsX a ∧ IsX b ∧ b ≠ 0#6 := by
  have ho : m.fixed.2 &&& 0xf003#16 = m.fixed.2 := by rcases hm with rfl | rfl <;> decide
  rw [asmEmitCr_reg, hopcode]
  exact decodesTo_add a b hm (crFields ho _ _)

theorem correctC_jr_iff (hm : m = .jr ∨ m = .jalr) {opcode : BitVec 32}
    (hopcode : genLe16 opcode = m.fixed.2) :
    CorrectC m [.reg a] (asmEmitCr opcode (.reg a) (.reg 0)) ↔ IsX a ∧ a ≠ 0#6 := by
  have ho : m.fixed.2 &&& 0xf003#16 = m.fixed.2 := by rcases hm with rfl | rfl <;> decide
  rw [asmEmitCr_reg, hopcode]
  exact decodesTo_jr a hm (crFields ho _ _)

theorem correctC_addi_iff (hm : m = .addi ∨ m = .addiw) {opcode : BitVec 32}
    (hopcode : genLe16 opcode = m.fixed.2) :
    CorrectC m [.reg a, .imm v] (asmEmitCi m opcode (.reg a) (.imm v))
      ↔ IsX a ∧ a ≠ 0#6 ∧ FitsSigned 6 v := by
  have ho : m.fixed.2 &&& 0xe003#16 = m.fixed.2 := by rcases hm with rfl | rfl <;> decide
  have himm : m = .addi ∨ m = .addiw ∨ m = .li ∨ m = .slli := by
    rcases hm with rfl | rfl <;> simp
  rw [asmEmitCi_imm6 a v himm, hopcode]
  exact decodesTo_addi a v hm (ciFields ho (imm6Part_masked _) _)

theorem correctC_li_iff :
    CorrectC .li [.reg a, .imm v] (asmOpcodeC .li [.reg a, .imm v]) ↔ IsX a ∧ FitsSigned 6 v := by
  rw [show asmOpcodeC .li [.reg a, .imm v] = _ from asmEmitCi_imm6 (m := .li) a v (by simp)]
  exact decodesTo_li a v (ciFields (by decide) (imm6Part_masked _) _)

theorem correctC_slli_iff :
    CorrectC .slli [.reg a, .imm v] (asmOpcodeC .slli [.reg a, .imm v])
      ↔ IsX a ∧ v ≠ 0#64 ∧ v.toNat < 64 := by
  rw [show asmOpcodeC .slli [.reg a, .imm v] = _ from asmEmitCi_imm6 (m := .slli) a v (by simp)]
  exact decodesTo_slli a v (ciFields (by decide) (imm6Part_masked _) _)

theorem correctC_addi16sp_iff :
    CorrectC .addi16sp [.reg a, .imm v] (asmOpcodeC .addi16sp [.reg a, .imm v])
      ↔ a = 2#6 ∧ v ≠ 0#64 ∧ FitsSigned 10 v ∧ v.toNat % 16 = 0 := by
  rw [show asmOpcodeC .addi16sp [.reg a, .imm v] = _ from asmEmitCi_addi16sp a v]
  exact decodesTo_addi16sp a v (ciFields (by decide) (addi16spPart_masked _) _)

theorem correctC_lui_iff :
    CorrectC .lui [.reg a, .imm v] (asmOpcodeC .lui [.reg a, .imm v])
      ↔ IsX a ∧ a ≠ 2#6 ∧ v ≠ 0#64 ∧ FitsSigned 18 v ∧ v.toNat % 4096 = 0 := by
  rw [show asmOpcodeC .lui [.reg a, .imm v] = _ from asmEmitCi_lui a v]
  exact decodesTo_lui a v (ciFields (by decide) (imm6Part_masked _) _)

theorem correctC_lwsp_iff :
    CorrectC .lwsp [.reg a, .imm v] (asmOpcodeC .lwsp [.reg a, .imm v])
      ↔ (IsX a ∧ a ≠ 0#6) ∧ v.toNat < 256 ∧ v.toNat % 4 = 0 := by
  rw [show asmOpcodeC .lwsp [.reg a, .imm v] = _ from asmEmitCi_lwsp a v (Or.inl rfl)]
  exact decodesTo_lwsp a v (ciFields (by decide) (lwspPart_masked _) _)

theorem correctC_flwsp_iff :
    CorrectC .flwsp [.reg a, .imm v] (asmOpcodeC .flwsp [.reg a, .imm v])
      ↔ IsF a ∧ v.toNat < 256 ∧ v.toNat % 4 = 0 := by
  rw [show asmOpcodeC .flwsp [.reg a, .imm v] = _ from asmEmitCi_lwsp a v (Or.inr rfl)]
  exact decodesTo_flwsp a v (ciFields (by decide) (lwspPart_masked _) _)

theorem correctC_ldsp_iff :
    CorrectC .ldsp [.reg a, .imm v] (asmOpcodeC .ldsp [.reg a, .imm v])
      ↔ (IsX a ∧ a ≠ 0#6) ∧ v.toNat < 512 ∧ v.toNat % 16 = 0 := by
  rw [show asmOpcodeC .ldsp [.reg a, .imm v] = _ from asmEmitCi_ldsp a v (Or.inl rfl)]
  exact decodesTo_ldsp a v (ciFields (by decide) (ldspPart_masked _) _)

theorem correctC_fldsp_iff :
    CorrectC .fldsp [.reg a, .imm v] (asmOpcodeC .fldsp [.reg a, .imm v])
      ↔ IsF a ∧ v.toNat < 512 ∧ v.toNat % 16 = 0 := by
  rw [show asmOpcodeC .fldsp [.reg a, .imm v] = _ from asmEmitCi_ldsp a v (Or.inr rfl)]
  exact decodesTo_fldsp a v (ciFields (by decide) (ldspPart_masked _) _)

/-! The ranges of the listings are among those that the assembler accepts. -/

theorem offsetAccepted_of_lt {v : BitVec 64} (hlt : v.toNat < 256) (hmod : v.toNat % 4 = 0) :
    OffsetAccepted v := by
  refine ⟨?_, hmod⟩
  omega

theorem correctC_lw_iff :
    CorrectC .lw [.reg a, .reg b, .imm v] (asmOpcodeC .lw [.reg a, .reg b, .imm v])
      ↔ (IsXc a → IsXc b → low v ≤ 255 → v.toNat % 4 = 0 → v.toNat < 128) := by
  refine (correctC_load_iff a b v (by decide) (by decide)).trans ?_
  simp only [MemAccepted, OffsetAccepted, IsData, MemRange, isFloat, isDouble, Bool.false_eq_true,
    if_false, low]
  constructor
  · intro h ha hb hlow hmod
    exact (h.1 ⟨ha, hb, hlow, hmod⟩).2.2.1
  · intro h
    constructor
    · rintro ⟨ha, hb, hlow, hmod⟩
      exact ⟨ha, hb, h ha hb hlow hmod, hmod⟩
    · rintro ⟨ha, hb, hlt, hmod⟩
      exact ⟨ha, hb, offsetAccepted_of_lt (by omega) hmod⟩

theorem correctC_ld_iff :
    CorrectC .ld [.reg a, .reg b, .imm v] (asmOpcodeC .ld [.reg a, .reg b, .imm v])
      ↔ (IsXc a → IsXc b → low v ≤ 255 → v.toNat % 4 = 0 →
        v.toNat < 256 ∧ v.toNat % 8 = 0) := by
  refine (correctC_load_iff a b v (by decide) (by decide)).trans ?_
  simp only [MemAccepted, OffsetAccepted, IsData, MemRange, isFloat, isDouble, Bool.false_eq_true,
    if_false, if_true, low]
  constructor
  · intro h ha hb hlow hmod
    exact (h.1 ⟨ha, hb, hlow, hmod⟩).2.2
  · intro h
    constructor
    · rintro ⟨ha, hb, hlow, hmod⟩
      exact ⟨ha, hb, h ha hb hlow hmod⟩
    · rintro ⟨ha, hb, hlt, hmod⟩
      exact ⟨ha, hb, offsetAccepted_of_lt hlt (by omega)⟩

theorem correctC_sw_iff :
    CorrectC .sw [.reg a, .reg b, .imm v] (asmOpcodeC .sw [.reg a, .reg b, .imm v])
      ↔ (IsXc a → IsXc b → low v ≤ 255 → v.toNat % 4 = 0 → b = a ∧ v.toNat < 128) := by
  refine (correctC_store_iff (by decide) (by decide) a b v).trans ?_
  simp only [MemAccepted, OffsetAccepted, IsData, MemRange, isFloat, isDouble, Bool.false_eq_true,
    if_false, low]
  constructor
  · rintro ⟨h, heq⟩ ha hb hlow hmod
    exact ⟨heq ⟨ha, hb, hlow, hmod⟩, (h.1 ⟨ha, hb, hlow, hmod⟩).2.2.1⟩
  · intro h
    refine ⟨⟨?_, ?_⟩, fun hc => (h hc.1 hc.2.1 hc.2.2.1 hc.2.2.2).1⟩
    · rintro ⟨ha, hb, hlow, hmod⟩
      exact ⟨ha, hb, (h ha hb hlow hmod).2, hmod⟩
    · rintro ⟨ha, hb, hlt, hmod⟩
      exact ⟨ha, hb, offsetAccepted_of_lt (by omega) hmod⟩

theorem correctC_sd_iff :
    CorrectC .sd [.reg a, .reg b, .imm v] (asmOpcodeC .sd [.reg a, .reg b, .imm v])
      ↔ (IsXc a → IsXc b → low v ≤ 255 → v.toNat % 4 = 0 →
        b = a ∧ v.toNat < 256 ∧ v.toNat % 8 = 0) := by
  refine (correctC_store_iff (by decide) (by decide) a b v).trans ?_
  simp only [MemAccepted, OffsetAccepted, IsData, MemRange, isFloat, isDouble, Bool.false_eq_true,
    if_false, if_true, low]
  constructor
  · rintro ⟨h, heq⟩ ha hb hlow hmod
    exact ⟨heq ⟨ha, hb, hlow, hmod⟩, (h.1 ⟨ha, hb, hlow, hmod⟩).2.2⟩
  · intro h
    refine ⟨⟨?_, ?_⟩, fun hc => (h hc.1 hc.2.1 hc.2.2.1 hc.2.2.2).1⟩
    · rintro ⟨ha, hb, hlow, hmod⟩
      exact ⟨ha, hb, (h ha hb hlow hmod).2⟩
    · rintro ⟨ha, hb, hlt, hmod⟩
      exact ⟨ha, hb, offsetAccepted_of_lt hlt (by omega)⟩

/-- No register is both integer and floating point. -/
theorem not_isFc_of_isXc {r : BitVec 6} (hx : IsXc r) : ¬IsFc r := by
  revert r
  decide

/-- Two properties that exclude each other are equivalent if neither holds. -/
theorem iff_iff_not_and_not {p q : Prop} (h : p → ¬q) : (p ↔ q) ↔ ¬p ∧ ¬q := by
  tauto

theorem memAccepted_not_float {P : Prop} {a b : BitVec 6} {v : BitVec 64}
    (h : MemAccepted a b v) : ¬(IsFc a ∧ IsXc b ∧ P) :=
  fun h' => not_isFc_of_isXc h.1 h'.1

theorem correctC_fload_iff (hm : m = .flw ∨ m = .fld) {opcode : BitVec 32}
    (hopcode : genLe16 opcode = m.fixed.2) :
    CorrectC m [.reg a, .reg b, .imm v] (asmEmitCl m opcode (.reg a) (.reg b) (.imm v))
      ↔ ¬MemAccepted a b v ∧ ¬(IsFc a ∧ IsXc b ∧ MemRange m v) := by
  have hload : m ∈ [Rvc.lw, .flw, .ld, .fld] := by rcases hm with rfl | rfl <;> decide
  have hdata : IsData m a = IsFc a := by rcases hm with rfl | rfl <;> rfl
  rw [correctC_load_iff a b v hload hopcode, hdata, iff_iff_not_and_not memAccepted_not_float]

theorem correctC_fstore_iff (hm : m = .fsw ∨ m = .fsd) {opcode : BitVec 32}
    (hopcode : genLe16 opcode = m.fixed.2) :
    CorrectC m [.reg a, .reg b, .imm v] (asmEmitCs m opcode (.reg a) (.reg b) (.imm v))
      ↔ ¬MemAccepted a b v ∧ ¬(IsFc a ∧ IsXc b ∧ MemRange m v) := by
  have hstore : m ∈ [Rvc.sw, .fsw, .sd, .fsd] := by rcases hm with rfl | rfl <;> decide
  have hdata : IsData m a = IsFc a := by rcases hm with rfl | rfl <;> rfl
  rw [correctC_store_iff hstore hopcode, hdata, iff_iff_not_and_not memAccepted_not_float]
  refine and_iff_left_of_imp fun h h' => absurd h' h.1

theorem spData_x_zero_iff (r : BitVec 6) : Operand.ofArg (.x 0#5) = .reg r ↔ r = 0#6 := by
  rw [Operand.ofArg, Operand.reg.injEq, eq_comm]
  rfl

theorem spData_f_zero_iff (r : BitVec 6) : Operand.ofArg (.f 0#5) = .reg r ↔ r = 32#6 := by
  rw [Operand.ofArg, Operand.reg.injEq, eq_comm]
  rfl

theorem exists_x_iff (r : BitVec 6) : (∃ y, Operand.ofArg (.x y) = .reg r) ↔ IsX r := by
  have h : ∀ y : BitVec 5, IsX (0#1 ++ y) := by decide
  constructor
  · rintro ⟨y, hy⟩
    simp only [Operand.ofArg, Operand.reg.injEq] at hy
    rw [← hy]
    exact h y
  · intro hx
    exact ⟨_, (ofArg_x_eq_iff r).2 hx⟩

theorem exists_f_iff (r : BitVec 6) : (∃ y, Operand.ofArg (.f y) = .reg r) ↔ IsF r := by
  have h : ∀ y : BitVec 5, IsF (1#1 ++ y) := by decide
  constructor
  · rintro ⟨y, hy⟩
    simp only [Operand.ofArg, Operand.reg.injEq] at hy
    rw [← hy]
    exact h y
  · intro hf
    exact ⟨_, (ofArg_f_eq_iff r).2 hf⟩

/-- The stores of words: every offset of the listing is accepted. -/
theorem css_word_iff {zero some : Prop} :
    ((OffsetAccepted v → zero ∧ v.toNat < 256 ∧ v.toNat % 4 = 0)
        ∧ (¬OffsetAccepted v → ¬(some ∧ v.toNat < 256 ∧ v.toNat % 4 = 0)))
      ↔ (low v ≤ 255 → v.toNat % 4 = 0 → zero ∧ v.toNat < 256) := by
  constructor
  · rintro ⟨h, -⟩ hlow hmod
    obtain ⟨hz, hlt, -⟩ := h ⟨hlow, hmod⟩
    exact ⟨hz, hlt⟩
  · intro h
    refine ⟨fun ⟨hlow, hmod⟩ => ?_, fun hn ⟨_, hlt, hmod⟩ => hn (offsetAccepted_of_lt hlt hmod)⟩
    exact ⟨(h hlow hmod).1, (h hlow hmod).2, hmod⟩

/-- The stores of doublewords: the offsets from 256 on are not. -/
theorem css_double_iff {zero some : Prop} :
    ((OffsetAccepted v → zero ∧ v.toNat < 512 ∧ v.toNat % 8 = 0)
        ∧ (¬OffsetAccepted v → ¬(some ∧ v.toNat < 512 ∧ v.toNat % 8 = 0)))
      ↔ (low v ≤ 255 → v.toNat % 4 = 0 → zero ∧ v.toNat < 256 ∧ v.toNat % 8 = 0)
        ∧ ¬(some ∧ 256 ≤ v.toNat ∧ v.toNat < 512 ∧ v.toNat % 8 = 0) := by
  constructor
  · rintro ⟨hacc, hrej⟩
    constructor
    · intro hlow hmod
      obtain ⟨hz, hlt, hmod8⟩ := hacc ⟨hlow, hmod⟩
      unfold low at hlow
      exact ⟨hz, by omega, hmod8⟩
    · rintro ⟨hs, hge, hlt, hmod⟩
      refine hrej (fun h => ?_) ⟨hs, hlt, hmod⟩
      have hlow := h.1
      omega
  · rintro ⟨hacc, hrej⟩
    constructor
    · rintro ⟨hlow, hmod⟩
      obtain ⟨hz, hlt, hmod8⟩ := hacc hlow hmod
      exact ⟨hz, by omega, hmod8⟩
    · rintro hn ⟨hs, hlt, hmod⟩
      refine hrej ⟨hs, ?_, hlt, hmod⟩
      by_contra hge
      exact hn (offsetAccepted_of_lt (by omega) (by omega))

theorem correctC_swsp_iff :
    CorrectC .swsp [.reg a, .imm v] (asmOpcodeC .swsp [.reg a, .imm v])
      ↔ (low v ≤ 255 → v.toNat % 4 = 0 → a = 0#6 ∧ v.toNat < 256) := by
  refine (correctC_css_iff a v (by decide) (by decide)).trans ?_
  simp only [spData, SpRange, isDoubleSp, Bool.false_eq_true, if_false, spData_x_zero_iff]
  exact css_word_iff v

theorem correctC_fswsp_iff :
    CorrectC .fswsp [.reg a, .imm v] (asmOpcodeC .fswsp [.reg a, .imm v])
      ↔ (low v ≤ 255 → v.toNat % 4 = 0 → a = 32#6 ∧ v.toNat < 256) := by
  refine (correctC_css_iff a v (by decide) (by decide)).trans ?_
  simp only [spData, SpRange, isDoubleSp, Bool.false_eq_true, if_false, spData_f_zero_iff]
  exact css_word_iff v

theorem correctC_sdsp_iff :
    CorrectC .sdsp [.reg a, .imm v] (asmOpcodeC .sdsp [.reg a, .imm v])
      ↔ (low v ≤ 255 → v.toNat % 4 = 0 → a = 0#6 ∧ v.toNat < 256 ∧ v.toNat % 8 = 0)
        ∧ ¬(IsX a ∧ 256 ≤ v.toNat ∧ v.toNat < 512 ∧ v.toNat % 8 = 0) := by
  refine (correctC_css_iff a v (by decide) (by decide)).trans ?_
  simp only [spData, SpRange, isDoubleSp, if_true, spData_x_zero_iff, exists_x_iff]
  exact css_double_iff v

theorem correctC_fsdsp_iff :
    CorrectC .fsdsp [.reg a, .imm v] (asmOpcodeC .fsdsp [.reg a, .imm v])
      ↔ (low v ≤ 255 → v.toNat % 4 = 0 → a = 32#6 ∧ v.toNat < 256 ∧ v.toNat % 8 = 0)
        ∧ ¬(IsF a ∧ 256 ≤ v.toNat ∧ v.toNat < 512 ∧ v.toNat % 8 = 0) := by
  refine (correctC_css_iff a v (by decide) (by decide)).trans ?_
  simp only [spData, SpRange, isDoubleSp, if_true, spData_f_zero_iff, exists_f_iff]
  exact css_double_iff v

end Mnemonics

/-! ## The whole listing -/

section Kinds

variable {ops : List Operand}

theorem eq_nil_of_kinds (h : ops.map Operand.isReg = []) : ops = [] := List.map_eq_nil_iff.1 h

theorem isReg_eq_true {a : Operand} (h : a.isReg = true) : ∃ r, a = .reg r := by
  cases a with
  | reg r => exact ⟨r, rfl⟩
  | imm v => cases h

theorem isReg_eq_false {a : Operand} (h : a.isReg = false) : ∃ v, a = .imm v := by
  cases a with
  | reg r => cases h
  | imm v => exact ⟨v, rfl⟩

theorem kinds_cons {k : Bool} {ks : List Bool} (h : ops.map Operand.isReg = k :: ks) :
    ∃ a ops', ops = a :: ops' ∧ a.isReg = k ∧ ops'.map Operand.isReg = ks := by
  cases ops with
  | nil => cases h
  | cons a ops' =>
    injection h with ha hops
    exact ⟨a, ops', rfl, ha, hops⟩

theorem kinds_reg (h : ops.map Operand.isReg = [true]) : ∃ r, ops = [.reg r] := by
  obtain ⟨a, ops', rfl, ha, hops⟩ := kinds_cons h
  obtain ⟨r, rfl⟩ := isReg_eq_true ha
  exact ⟨r, by rw [eq_nil_of_kinds hops]⟩

theorem kinds_imm (h : ops.map Operand.isReg = [false]) : ∃ v, ops = [.imm v] := by
  obtain ⟨a, ops', rfl, ha, hops⟩ := kinds_cons h
  obtain ⟨v, rfl⟩ := isReg_eq_false ha
  exact ⟨v, by rw [eq_nil_of_kinds hops]⟩

theorem kinds_reg_reg (h : ops.map Operand.isReg = [true, true]) :
    ∃ r s, ops = [.reg r, .reg s] := by
  obtain ⟨a, ops', rfl, ha, hops⟩ := kinds_cons h
  obtain ⟨r, rfl⟩ := isReg_eq_true ha
  obtain ⟨s, rfl⟩ := kinds_reg hops
  exact ⟨r, s, rfl⟩

theorem kinds_reg_imm (h : ops.map Operand.isReg = [true, false]) :
    ∃ r v, ops = [.reg r, .imm v] := by
  obtain ⟨a, ops', rfl, ha, hops⟩ := kinds_cons h
  obtain ⟨r, rfl⟩ := isReg_eq_true ha
  obtain ⟨v, rfl⟩ := kinds_imm hops
  exact ⟨r, v, rfl⟩

theorem kinds_reg_reg_imm (h : ops.map Operand.isReg = [true, true, false]) :
    ∃ r s v, ops = [.reg r, .reg s, .imm v] := by
  obtain ⟨a, ops', rfl, ha, hops⟩ := kinds_cons h
  obtain ⟨r, rfl⟩ := isReg_eq_true ha
  obtain ⟨s, v, rfl⟩ := kinds_reg_imm hops
  exact ⟨r, s, v, rfl⟩

end Kinds

/-- For every compressed mnemonic and all operands: the assembler emits the word of the listing, or
rejects operands that no word has, exactly under the condition above. -/
theorem correctC_asmOpcodeC_iff (m : Rvc) (ops : List Operand) :
    CorrectC m ops (asmOpcodeC m ops) ↔ AssemblesWellC m ops := by
  by_cases hshape : ops.map Operand.isReg = shape m
  · cases m
    case ebreak =>
      obtain rfl := eq_nil_of_kinds hshape
      exact iff_of_true ⟨[], by decide, rfl⟩ trivial
    case nop =>
      obtain rfl := eq_nil_of_kinds hshape
      exact iff_of_true ⟨[], by decide, rfl⟩ trivial
    case add =>
      obtain ⟨a, b, rfl⟩ := kinds_reg_reg hshape
      exact correctC_cr_iff a b (Or.inl rfl) (by decide)
    case mv =>
      obtain ⟨a, b, rfl⟩ := kinds_reg_reg hshape
      exact correctC_cr_iff a b (Or.inr rfl) (by decide)
    case jr =>
      obtain ⟨a, rfl⟩ := kinds_reg hshape
      exact correctC_jr_iff a (Or.inl rfl) (by decide)
    case jalr =>
      obtain ⟨a, rfl⟩ := kinds_reg hshape
      exact correctC_jr_iff a (Or.inr rfl) (by decide)
    case sub | xor | or | and | subw | addw =>
      obtain ⟨a, b, rfl⟩ := kinds_reg_reg hshape
      exact iff_of_true (correctC_ca (by decide) (by decide) a b) trivial
    case addi =>
      obtain ⟨a, v, rfl⟩ := kinds_reg_imm hshape
      exact correctC_addi_iff a v (Or.inl rfl) (by decide)
    case addiw =>
      obtain ⟨a, v, rfl⟩ := kinds_reg_imm hshape
      exact correctC_addi_iff a v (Or.inr rfl) (by decide)
    case li =>
      obtain ⟨a, v, rfl⟩ := kinds_reg_imm hshape
      exact correctC_li_iff a v
    case slli =>
      obtain ⟨a, v, rfl⟩ := kinds_reg_imm hshape
      exact correctC_slli_iff a v
    case addi16sp =>
      obtain ⟨a, v, rfl⟩ := kinds_reg_imm hshape
      exact correctC_addi16sp_iff a v
    case lui =>
      obtain ⟨a, v, rfl⟩ := kinds_reg_imm hshape
      exact correctC_lui_iff a v
    case lwsp =>
      obtain ⟨a, v, rfl⟩ := kinds_reg_imm hshape
      exact correctC_lwsp_iff a v
    case flwsp =>
      obtain ⟨a, v, rfl⟩ := kinds_reg_imm hshape
      exact correctC_flwsp_iff a v
    case ldsp =>
      obtain ⟨a, v, rfl⟩ := kinds_reg_imm hshape
      exact correctC_ldsp_iff a v
    case fldsp =>
      obtain ⟨a, v, rfl⟩ := kinds_reg_imm hshape
      exact correctC_fldsp_iff a v
    case andi =>
      obtain ⟨a, v, rfl⟩ := kinds_reg_imm hshape
      exact correctC_andi_iff a v (by decide)
    case srai =>
      obtain ⟨a, v, rfl⟩ := kinds_reg_imm hshape
      exact correctC_srai_iff a v (Or.inl rfl) (by decide)
    case srli =>
      obtain ⟨a, v, rfl⟩ := kinds_reg_imm hshape
      exact correctC_srai_iff a v (Or.inr rfl) (by decide)
    case beqz =>
      obtain ⟨a, v, rfl⟩ := kinds_reg_imm hshape
      exact correctC_beqz_iff a v (Or.inl rfl) (by decide)
    case bnez =>
      obtain ⟨a, v, rfl⟩ := kinds_reg_imm hshape
      exact correctC_beqz_iff a v (Or.inr rfl) (by decide)
    case addi4spn =>
      obtain ⟨a, v, rfl⟩ := kinds_reg_imm hshape
      exact correctC_addi4spn_iff a v (by decide)
    case j =>
      obtain ⟨v, rfl⟩ := kinds_imm hshape
      exact correctC_j_iff v (Or.inl rfl) (by decide)
    case jal =>
      obtain ⟨v, rfl⟩ := kinds_imm hshape
      exact correctC_j_iff v (Or.inr rfl) (by decide)
    case lw =>
      obtain ⟨a, b, v, rfl⟩ := kinds_reg_reg_imm hshape
      exact correctC_lw_iff a b v
    case ld =>
      obtain ⟨a, b, v, rfl⟩ := kinds_reg_reg_imm hshape
      exact correctC_ld_iff a b v
    case sw =>
      obtain ⟨a, b, v, rfl⟩ := kinds_reg_reg_imm hshape
      exact correctC_sw_iff a b v
    case sd =>
      obtain ⟨a, b, v, rfl⟩ := kinds_reg_reg_imm hshape
      exact correctC_sd_iff a b v
    case flw =>
      obtain ⟨a, b, v, rfl⟩ := kinds_reg_reg_imm hshape
      exact correctC_fload_iff a b v (Or.inl rfl) (by decide)
    case fld =>
      obtain ⟨a, b, v, rfl⟩ := kinds_reg_reg_imm hshape
      exact correctC_fload_iff a b v (Or.inr rfl) (by decide)
    case fsw =>
      obtain ⟨a, b, v, rfl⟩ := kinds_reg_reg_imm hshape
      exact correctC_fstore_iff a b v (Or.inl rfl) (by decide)
    case fsd =>
      obtain ⟨a, b, v, rfl⟩ := kinds_reg_reg_imm hshape
      exact correctC_fstore_iff a b v (Or.inr rfl) (by decide)
    case swsp =>
      obtain ⟨a, v, rfl⟩ := kinds_reg_imm hshape
      exact correctC_swsp_iff a v
    case fswsp =>
      obtain ⟨a, v, rfl⟩ := kinds_reg_imm hshape
      exact correctC_fswsp_iff a v
    case sdsp =>
      obtain ⟨a, v, rfl⟩ := kinds_reg_imm hshape
      exact correctC_sdsp_iff a v
    case fsdsp =>
      obtain ⟨a, v, rfl⟩ := kinds_reg_imm hshape
      exact correctC_fsdsp_iff a v
  · obtain ⟨e, he⟩ := asmOpcodeC_of_shape hshape
    rw [he]
    exact iff_of_true (not_legal_of_shape hshape) (assemblesWellC_of_shape hshape)

/-- `c.sdsp a0, 8` loses its register, although there is a word for it. -/
theorem asmOpcodeC_sdsp :
    ¬CorrectC .sdsp [.reg 10, .imm 8] (asmOpcodeC .sdsp [.reg 10, .imm 8])
      ∧ asmOpcodeC .sdsp [.reg 10, .imm 8] = .ok 0xe402#16 ∧ Legal .sdsp [.reg 10, .imm 8] := by
  refine ⟨fun h => ?_, rfl, 0xe42a#16, [.x 10, .imm 8], by decide, rfl⟩
  have hzero := ((correctC_sdsp_iff 10 8).1 h).1 (by decide) (by decide)
  exact absurd hzero.1 (by decide)

end TccRiscv64.Asm
