import TccRiscv64.Asm.CompressedFields

set_option autoImplicit false

/-! # The assembler: compressed formats

For each format the fields of its words, and the operands with which a word decodes to its
mnemonics. -/

namespace TccRiscv64.Asm

open Isa

/-! ## Decoding -/

/-- A word decodes to the mnemonic with these operands, in the listing that has it. -/
def DecodesTo (m : Rvc) (h : HalfWord) (ops : List Operand) : Prop :=
  ∃ args, decodeRvc m.xlen h = some (m, args) ∧ args.map Operand.ofArg = ops

/-- Operands are legal for a mnemonic if some word has them. -/
def Legal (m : Rvc) (ops : List Operand) : Prop := ∃ h, DecodesTo m h ops

/-- Legal operands give the word that has them, and others are rejected. -/
def CorrectC (m : Rvc) (ops : List Operand) : Except String HalfWord → Prop
  | .ok h => DecodesTo m h ops
  | .error _ => ¬Legal m ops

theorem decodesTo_iff {m : Rvc} {h : HalfWord} {ops : List Operand} :
    DecodesTo m h ops ↔ m.Matches h ∧ (m.args h).map Operand.ofArg = ops := by
  unfold DecodesTo
  constructor
  · rintro ⟨args, hdecode, hargs⟩
    obtain ⟨hm, rfl⟩ := (decodeRvc_eq_iff m.listed_xlen).1 hdecode
    exact ⟨hm, hargs⟩
  · rintro ⟨hm, hargs⟩
    exact ⟨_, (decodeRvc_eq_iff m.listed_xlen).2 ⟨hm, rfl⟩, hargs⟩

/-! ## The CI format -/

section Ci

variable {m : Rvc} {opcode : BitVec 32} {o p : HalfWord} (rd : BitVec 6) (v : BitVec 64)

theorem asmEmitCi_imm6 (hm : m = .addi ∨ m = .addiw ∨ m = .li ∨ m = .slli) :
    asmEmitCi m opcode (.reg rd) (.imm v)
      = .ok (word3 (genLe16 opcode) (rdPart (rd.setWidth 5)) (imm6Part (v.setWidth 6))) := by
  rw [← emit_imm6, ← genLe16_encodeRd, word3, ← genLe16_or, ← genLe16_or]
  rcases hm with rfl | rfl | rfl | rfl
  all_goals
    simp only [asmEmitCi, expectReg, expectImm, Except.bind, bind, pure, Except.pure]
    congr 2
    ac_rfl

theorem asmEmitCi_addi16sp :
    asmEmitCi .addi16sp opcode (.reg rd) (.imm v)
      = .ok (word3 (genLe16 opcode) (rdPart (rd.setWidth 5))
        (addi16spPart (v.extractLsb' 4 6))) := by
  rw [← emit_addi16sp, ← genLe16_encodeRd, word3, ← genLe16_or, ← genLe16_or]
  simp only [asmEmitCi, expectReg, expectImm, Except.bind, bind, pure, Except.pure]
  congr 2
  ac_rfl

theorem asmEmitCi_lui :
    asmEmitCi .lui opcode (.reg rd) (.imm v)
      = .ok (word3 (genLe16 opcode) (rdPart (rd.setWidth 5))
        (imm6Part (v.extractLsb' 12 6))) := by
  rw [← emit_lui, ← genLe16_encodeRd, word3, ← genLe16_or, ← genLe16_or]
  simp only [asmEmitCi, expectReg, expectImm, Except.bind, bind, pure, Except.pure]
  congr 2
  ac_rfl

theorem asmEmitCi_ldsp (hm : m = .ldsp ∨ m = .fldsp) :
    asmEmitCi m opcode (.reg rd) (.imm v)
      = .ok (word3 (genLe16 opcode) (rdPart (rd.setWidth 5))
        (ldspPart (v.extractLsb' 4 5 ++ 0#1))) := by
  rw [← emit_ldsp, ← genLe16_encodeRd, word3, ← genLe16_or, ← genLe16_or]
  rcases hm with rfl | rfl
  all_goals
    simp only [asmEmitCi, expectReg, expectImm, Except.bind, bind, pure, Except.pure]
    congr 2
    ac_rfl

theorem asmEmitCi_lwsp (hm : m = .lwsp ∨ m = .flwsp) :
    asmEmitCi m opcode (.reg rd) (.imm v)
      = .ok (word3 (genLe16 opcode) (rdPart (rd.setWidth 5)) (lwspPart (v.extractLsb' 2 6))) := by
  rw [← emit_lwsp, ← genLe16_encodeRd, word3, ← genLe16_or, ← genLe16_or]
  rcases hm with rfl | rfl
  all_goals
    simp only [asmEmitCi, expectReg, expectImm, Except.bind, bind, pure, Except.pure]
    congr 2
    ac_rfl

/-- The fields of a word of the CI format. -/
structure CiFields (h o : HalfWord) (r : BitVec 5) (p : HalfWord) : Prop where
  fixed : h &&& 0xe003#16 = o
  rd : h &&& 0x0f80#16 = rdPart r
  imm : h &&& 0x107c#16 = p

theorem ciFields (ho : o &&& 0xe003#16 = o) (hp : p &&& 0x107c#16 = p) (r : BitVec 5) :
    CiFields (word3 o (rdPart r) p) o r p where
  fixed := word3_and_fixed ho (rdPart_masked r) hp (by decide) (by decide) (by decide)
  rd := word3_and_snd ho (rdPart_masked r) hp (by decide) (by decide) (by decide)
  imm := word3_and_thd ho (rdPart_masked r) hp (by decide) (by decide) (by decide)

theorem rdPart_eq_zero_iff (r : BitVec 5) : rdPart r = 0#16 ↔ r = 0#5 := by
  revert r
  decide

theorem setWidth_eq_zero_iff {r : BitVec 6} (hr : IsX r) : r.setWidth 5 = 0#5 ↔ r = 0#6 := by
  revert r
  decide

/-- `c.addi` and `c.addiw`. -/
theorem decodesTo_addi (hm : m = .addi ∨ m = .addiw) {h : HalfWord}
    (hf : CiFields h m.fixed.2 (rd.setWidth 5) (imm6Part (v.setWidth 6))) :
    DecodesTo m h [.reg rd, .imm v] ↔ IsX rd ∧ rd ≠ 0#6 ∧ FitsSigned 6 v := by
  have hfields : (m.args h).map Operand.ofArg = [.reg rd, .imm v]
      ↔ IsX rd ∧ FitsSigned 6 v := by
    rcases hm with rfl | rfl
    all_goals
      simp only [Rvc.args, cRd_of hf.rd, cImm6_of hf.imm, List.map_cons, List.map_nil,
        List.cons.injEq, ofArg_x_eq_iff, ofArg_imm_eq_iff,
        signExtend_setWidth_eq_iff (show 0 < 6 by decide) (show 6 ≤ 64 by decide), and_true]
  have hmatch : m.Matches h ↔ rd.setWidth 5 ≠ 0#5 := by
    rcases hm with rfl | rfl
    all_goals
      simp only [Rvc.Matches, Rvc.excluded, List.forall_mem_cons, List.not_mem_nil, false_implies,
        implies_true, and_true, hf.rd, ne_eq, rdPart_eq_zero_iff]
      exact and_iff_right hf.fixed
  rw [decodesTo_iff, hfields, hmatch]
  constructor
  · rintro ⟨hne, hx, hv⟩
    exact ⟨hx, fun h => hne ((setWidth_eq_zero_iff hx).2 h), hv⟩
  · rintro ⟨hx, hne, hv⟩
    exact ⟨fun h => hne ((setWidth_eq_zero_iff hx).1 h), hx, hv⟩

/-- `c.li`. -/
theorem decodesTo_li {h : HalfWord}
    (hf : CiFields h 0x4001#16 (rd.setWidth 5) (imm6Part (v.setWidth 6))) :
    DecodesTo .li h [.reg rd, .imm v] ↔ IsX rd ∧ FitsSigned 6 v := by
  have hmatch : Rvc.li.Matches h := ⟨hf.fixed, by simp [Rvc.excluded]⟩
  rw [decodesTo_iff, and_iff_right hmatch]
  simp only [Rvc.args, cRd_of hf.rd, cImm6_of hf.imm, List.map_cons, List.map_nil,
    List.cons.injEq, ofArg_x_eq_iff, ofArg_imm_eq_iff,
    signExtend_setWidth_eq_iff (show 0 < 6 by decide) (show 6 ≤ 64 by decide), and_true]

theorem imm6Part_eq_zero_iff (x : BitVec 6) : imm6Part x = 0#16 ↔ x = 0#6 := by
  revert x
  decide

/-- `c.slli`. -/
theorem decodesTo_slli {h : HalfWord}
    (hf : CiFields h 0x0002#16 (rd.setWidth 5) (imm6Part (v.setWidth 6))) :
    DecodesTo .slli h [.reg rd, .imm v] ↔ IsX rd ∧ v ≠ 0#64 ∧ v.toNat < 64 := by
  have hmatch : Rvc.slli.Matches h ↔ v.setWidth 6 ≠ 0#6 := by
    simp only [Rvc.Matches, Rvc.excluded, List.forall_mem_cons, List.not_mem_nil, false_implies,
      implies_true, and_true, hf.imm, ne_eq, imm6Part_eq_zero_iff]
    exact and_iff_right hf.fixed
  rw [decodesTo_iff, hmatch]
  simp only [Rvc.args, cRd_of hf.rd, cImm6_of hf.imm, List.map_cons, List.map_nil,
    List.cons.injEq, ofArg_x_eq_iff, ofArg_imm_eq_iff, and_true]
  constructor
  · rintro ⟨hne, hx, hv⟩
    exact ⟨hx, fun h0 => hne (by rw [h0]; rfl), (setWidth_setWidth_eq_iff v).1 hv⟩
  · rintro ⟨hx, hne, hlt⟩
    have hv := (setWidth_setWidth_eq_iff (n := 6) v).2 hlt
    exact ⟨fun h0 => hne (by rw [← hv, h0]; rfl), hx, hv⟩

/-- `c.lui`. -/
theorem decodesTo_lui {h : HalfWord}
    (hf : CiFields h 0x6001#16 (rd.setWidth 5) (imm6Part (v.extractLsb' 12 6))) :
    DecodesTo .lui h [.reg rd, .imm v]
      ↔ IsX rd ∧ rd ≠ 2#6 ∧ v ≠ 0#64 ∧ FitsSigned 18 v ∧ v.toNat % 2 ^ 12 = 0 := by
  have hrd2 : ∀ r : BitVec 5, rdPart r = 0x0100#16 ↔ r = 2#5 := by decide
  have hmatch : Rvc.lui.Matches h ↔ rd.setWidth 5 ≠ 2#5 ∧ v.extractLsb' 12 6 ≠ 0#6 := by
    simp only [Rvc.Matches, Rvc.excluded, List.forall_mem_cons, List.not_mem_nil, false_implies,
      implies_true, and_true, hf.rd, hf.imm, ne_eq, imm6Part_eq_zero_iff, hrd2]
    exact and_iff_right hf.fixed
  have htwo : ∀ r : BitVec 6, r < 32#6 → (r.setWidth 5 = 2#5 ↔ r = 2#6) := by decide
  rw [decodesTo_iff, hmatch]
  simp only [Rvc.args, cRd_of hf.rd, cImm6_of hf.imm, List.map_cons, List.map_nil,
    List.cons.injEq, ofArg_x_eq_iff, ofArg_imm_eq_iff, and_true]
  rw [← signExtend_extract_eq_iff (n := 6) (k := 12) (by decide) (by decide) v]
  constructor
  · rintro ⟨⟨hne, himm⟩, hx, hv⟩
    exact ⟨hx, fun h2 => hne ((htwo rd hx).2 h2), fun h0 => himm (by rw [h0]; rfl), hv⟩
  · rintro ⟨hx, hne, h0, hv⟩
    refine ⟨⟨fun h2 => hne ((htwo rd hx).1 h2), fun himm => h0 ?_⟩, hx, hv⟩
    rw [← hv, himm]
    rfl

/-- `c.addi16sp`, whose register is `sp`. -/
theorem decodesTo_addi16sp {h : HalfWord}
    (hf : CiFields h 0x6001#16 (rd.setWidth 5) (addi16spPart (v.extractLsb' 4 6))) :
    DecodesTo .addi16sp h [.reg rd, .imm v]
      ↔ rd = 2#6 ∧ v ≠ 0#64 ∧ FitsSigned 10 v ∧ v.toNat % 2 ^ 4 = 0 := by
  have hrd2 : ∀ r : BitVec 5, 0x6001#16 ||| rdPart r = 0x6101#16 ↔ r = 2#5 := by decide
  have hzero : ∀ x : BitVec 6, addi16spPart x = 0#16 ↔ x = 0#6 := by decide
  have hfixed : h &&& 0xef83#16 = 0x6001#16 ||| rdPart (rd.setWidth 5) := by
    rw [show 0xef83#16 = 0xe003#16 ||| 0x0f80#16 by decide, BitVec.and_or_distrib_left, hf.fixed,
      hf.rd]
  have hmatch : Rvc.addi16sp.Matches h ↔ rd.setWidth 5 = 2#5 ∧ v.extractLsb' 4 6 ≠ 0#6 := by
    simp only [Rvc.Matches, Rvc.excluded, Rvc.fixed, List.forall_mem_cons, List.not_mem_nil,
      false_implies, implies_true, and_true, hf.imm, ne_eq, hzero, hfixed, hrd2]
  have htwo : ∀ r : BitVec 6, r.setWidth 5 = 2#5 ∧ r < 32#6 ↔ r = 2#6 := by decide
  rw [decodesTo_iff, hmatch]
  simp only [Rvc.args, cRd_of hf.rd, cImmAddi16sp_of hf.imm, List.map_cons, List.map_nil,
    List.cons.injEq, ofArg_x_eq_iff, ofArg_imm_eq_iff, and_true]
  rw [← signExtend_extract_eq_iff (n := 6) (k := 4) (by decide) (by decide) v, ← htwo rd]
  constructor
  · rintro ⟨⟨hrd, himm⟩, hx, hv⟩
    exact ⟨⟨hrd, hx⟩, fun h0 => himm (by rw [h0]; rfl), hv⟩
  · rintro ⟨⟨hrd, hx⟩, h0, hv⟩
    refine ⟨⟨hrd, fun himm => h0 ?_⟩, hx, hv⟩
    rw [← hv, himm]
    rfl

/-- A word of `c.lwsp` or `c.ldsp` has a register other than `x0`. -/
theorem matches_lwsp_iff (hm : m = .lwsp ∨ m = .ldsp) {h : HalfWord}
    (hf : CiFields h m.fixed.2 (rd.setWidth 5) p) : m.Matches h ↔ rd.setWidth 5 ≠ 0#5 := by
  rcases hm with rfl | rfl
  all_goals
    simp only [Rvc.Matches, Rvc.excluded, List.forall_mem_cons, List.not_mem_nil, false_implies,
      implies_true, and_true, hf.rd, ne_eq, rdPart_eq_zero_iff]
    exact and_iff_right hf.fixed

theorem isX_and_ne_iff : rd.setWidth 5 ≠ 0#5 ∧ IsX rd ↔ IsX rd ∧ rd ≠ 0#6 := by
  revert rd
  decide

/-- `c.lwsp`. -/
theorem decodesTo_lwsp {h : HalfWord}
    (hf : CiFields h 0x4002#16 (rd.setWidth 5) (lwspPart (v.extractLsb' 2 6))) :
    DecodesTo .lwsp h [.reg rd, .imm v]
      ↔ (IsX rd ∧ rd ≠ 0#6) ∧ v.toNat < 2 ^ 8 ∧ v.toNat % 2 ^ 2 = 0 := by
  rw [decodesTo_iff, matches_lwsp_iff rd (Or.inl rfl) hf]
  simp only [Rvc.args, cRd_of hf.rd, cImmLwsp_of hf.imm, List.map_cons, List.map_nil,
    List.cons.injEq, ofArg_x_eq_iff, ofArg_imm_eq_iff, and_true]
  rw [setWidth_extract_eq_iff (n := 6) (k := 2) (by decide) v, ← and_assoc, isX_and_ne_iff]

/-- `c.flwsp`. -/
theorem decodesTo_flwsp {h : HalfWord}
    (hf : CiFields h 0x6002#16 (rd.setWidth 5) (lwspPart (v.extractLsb' 2 6))) :
    DecodesTo .flwsp h [.reg rd, .imm v]
      ↔ IsF rd ∧ v.toNat < 2 ^ 8 ∧ v.toNat % 2 ^ 2 = 0 := by
  have hmatch : Rvc.flwsp.Matches h := ⟨hf.fixed, by simp [Rvc.excluded]⟩
  rw [decodesTo_iff, and_iff_right hmatch]
  simp only [Rvc.args, cRd_of hf.rd, cImmLwsp_of hf.imm, List.map_cons, List.map_nil,
    List.cons.injEq, ofArg_f_eq_iff, ofArg_imm_eq_iff, and_true]
  rw [setWidth_extract_eq_iff (n := 6) (k := 2) (by decide) v]

theorem setWidth_ldsp_eq_iff :
    (v.extractLsb' 4 5 ++ 0#1 ++ 0#3).setWidth 64 = v
      ↔ v.toNat < 2 ^ 9 ∧ v.toNat % 2 ^ 4 = 0 := by
  have hzero : ∀ x : BitVec 5, (x ++ 0#1 ++ 0#3).setWidth 64 = (x ++ 0#4).setWidth 64 := by decide
  rw [hzero, setWidth_extract_eq_iff (n := 5) (k := 4) (by decide) v]

/-- `c.ldsp`. -/
theorem decodesTo_ldsp {h : HalfWord}
    (hf : CiFields h 0x6002#16 (rd.setWidth 5) (ldspPart (v.extractLsb' 4 5 ++ 0#1))) :
    DecodesTo .ldsp h [.reg rd, .imm v]
      ↔ (IsX rd ∧ rd ≠ 0#6) ∧ v.toNat < 2 ^ 9 ∧ v.toNat % 2 ^ 4 = 0 := by
  rw [decodesTo_iff, matches_lwsp_iff rd (Or.inr rfl) hf]
  simp only [Rvc.args, cRd_of hf.rd, cImmLdsp_of hf.imm, List.map_cons, List.map_nil,
    List.cons.injEq, ofArg_x_eq_iff, ofArg_imm_eq_iff, and_true]
  rw [setWidth_ldsp_eq_iff, ← and_assoc, isX_and_ne_iff]

/-- `c.fldsp`. -/
theorem decodesTo_fldsp {h : HalfWord}
    (hf : CiFields h 0x2002#16 (rd.setWidth 5) (ldspPart (v.extractLsb' 4 5 ++ 0#1))) :
    DecodesTo .fldsp h [.reg rd, .imm v]
      ↔ IsF rd ∧ v.toNat < 2 ^ 9 ∧ v.toNat % 2 ^ 4 = 0 := by
  have hmatch : Rvc.fldsp.Matches h := ⟨hf.fixed, by simp [Rvc.excluded]⟩
  rw [decodesTo_iff, and_iff_right hmatch]
  simp only [Rvc.args, cRd_of hf.rd, cImmLdsp_of hf.imm, List.map_cons, List.map_nil,
    List.cons.injEq, ofArg_f_eq_iff, ofArg_imm_eq_iff, and_true]
  rw [setWidth_ldsp_eq_iff]

end Ci

/-! ## The CR format -/

section Cr

variable {m : Rvc} {opcode : BitVec 32} {o : HalfWord} (rd rs2 : BitVec 6)

theorem asmEmitCr_reg :
    asmEmitCr opcode (.reg rd) (.reg rs2)
      = .ok (word3 (genLe16 opcode) (rdPart (rd.setWidth 5)) (rs2Part (rs2.setWidth 5))) := by
  rw [← genLe16_cEncodeRs1, ← genLe16_cEncodeRs2, word3, ← genLe16_or, ← genLe16_or]
  rfl

/-- The fields of a word of the CR format. -/
structure CrFields (h o : HalfWord) (r s : BitVec 5) : Prop where
  fixed : h &&& 0xf003#16 = o
  rd : h &&& 0x0f80#16 = rdPart r
  rs2 : h &&& 0x007c#16 = rs2Part s

theorem crFields (ho : o &&& 0xf003#16 = o) (r s : BitVec 5) :
    CrFields (word3 o (rdPart r) (rs2Part s)) o r s where
  fixed :=
    word3_and_fixed ho (rdPart_masked r) (rs2Part_masked s) (by decide) (by decide) (by decide)
  rd := word3_and_snd ho (rdPart_masked r) (rs2Part_masked s) (by decide) (by decide) (by decide)
  rs2 := word3_and_thd ho (rdPart_masked r) (rs2Part_masked s) (by decide) (by decide) (by decide)

theorem rs2Part_eq_zero_iff (r : BitVec 5) : rs2Part r = 0#16 ↔ r = 0#5 := by
  revert r
  decide

/-- `c.add` and `c.mv`. -/
theorem decodesTo_add (hm : m = .add ∨ m = .mv) {h : HalfWord}
    (hf : CrFields h m.fixed.2 (rd.setWidth 5) (rs2.setWidth 5)) :
    DecodesTo m h [.reg rd, .reg rs2] ↔ IsX rd ∧ IsX rs2 ∧ rs2 ≠ 0#6 := by
  have hfields : (m.args h).map Operand.ofArg = [.reg rd, .reg rs2] ↔ IsX rd ∧ IsX rs2 := by
    rcases hm with rfl | rfl
    all_goals
      simp only [Rvc.args, cRd_of hf.rd, cRs2_of hf.rs2, List.map_cons, List.map_nil,
        List.cons.injEq, ofArg_x_eq_iff, and_true]
  have hmatch : m.Matches h ↔ rs2.setWidth 5 ≠ 0#5 := by
    rcases hm with rfl | rfl
    all_goals
      simp only [Rvc.Matches, Rvc.excluded, List.forall_mem_cons, List.not_mem_nil, false_implies,
        implies_true, and_true, hf.rs2, ne_eq, rs2Part_eq_zero_iff]
      exact and_iff_right hf.fixed
  rw [decodesTo_iff, hfields, hmatch, ← isX_and_ne_iff, ← and_assoc, ← and_assoc,
    and_comm (a := rs2.setWidth 5 ≠ 0#5)]

/-- `c.jr` and `c.jalr`, which have `x0` as their second register. -/
theorem decodesTo_jr (hm : m = .jr ∨ m = .jalr) {h : HalfWord}
    (hf : CrFields h m.fixed.2 (rd.setWidth 5) 0#5) :
    DecodesTo m h [.reg rd] ↔ IsX rd ∧ rd ≠ 0#6 := by
  have hfixed : h &&& 0xf07f#16 = m.fixed.2 := by
    rw [show 0xf07f#16 = 0xf003#16 ||| 0x007c#16 by decide, BitVec.and_or_distrib_left, hf.fixed,
      hf.rs2]
    exact BitVec.or_zero
  have hfields : (m.args h).map Operand.ofArg = [.reg rd] ↔ IsX rd := by
    rcases hm with rfl | rfl
    all_goals
      simp only [Rvc.args, cRd_of hf.rd, List.map_cons, List.map_nil, List.cons.injEq,
        ofArg_x_eq_iff, and_true]
  have hmatch : m.Matches h ↔ rd.setWidth 5 ≠ 0#5 := by
    rcases hm with rfl | rfl
    all_goals
      simp only [Rvc.Matches, Rvc.excluded, List.forall_mem_cons, List.not_mem_nil, false_implies,
        implies_true, and_true, hf.rd, ne_eq, rdPart_eq_zero_iff]
      exact and_iff_right hfixed
  rw [decodesTo_iff, hfields, hmatch, isX_and_ne_iff]

end Cr

/-! ## Ranges of operands -/

theorem isXc_of_ofArg {r : BitVec 6} {y : BitVec 3} (h : Operand.ofArg (.x (1#2 ++ y)) = .reg r) :
    IsXc r := by
  have hall : ∀ y : BitVec 3, IsXc (0#1 ++ (1#2 ++ y)) := by decide
  simp only [Operand.ofArg, Operand.reg.injEq] at h
  rw [← h]
  exact hall y

theorem isFc_of_ofArg {r : BitVec 6} {y : BitVec 3} (h : Operand.ofArg (.f (1#2 ++ y)) = .reg r) :
    IsFc r := by
  have hall : ∀ y : BitVec 3, IsFc (1#1 ++ (1#2 ++ y)) := by decide
  simp only [Operand.ofArg, Operand.reg.injEq] at h
  rw [← h]
  exact hall y

theorem ofArg_fc_eq_iff (r : BitVec 6) :
    Operand.ofArg (.f (1#2 ++ r.setWidth 3)) = .reg r ↔ IsFc r := by
  have h : ∀ r : BitVec 6, 1#1 ++ (1#2 ++ r.setWidth 3) = r ↔ 40#6 ≤ r ∧ r < 48#6 := by decide
  simp only [Operand.ofArg, Operand.reg.injEq]
  exact h r

/-- Multiples of `2 ^ k` from a field of `n` bits. -/
theorem range_of_append {n k : Nat} (hnk : n + k ≤ 64) {x : BitVec n} {v : BitVec 64}
    (h : (x ++ 0#k).setWidth 64 = v) : v.toNat < 2 ^ (n + k) ∧ v.toNat % 2 ^ k = 0 := by
  have hx : (x ++ 0#k).toNat = x.toNat * 2 ^ k := by
    rw [BitVec.toNat_append, BitVec.toNat_ofNat, Nat.zero_mod, Nat.or_zero, Nat.shiftLeft_eq]
  have hlt : (x ++ 0#k).toNat < 2 ^ (n + k) := (x ++ 0#k).isLt
  have hle : 2 ^ (n + k) ≤ 2 ^ 64 := Nat.pow_le_pow_right (by decide) hnk
  rw [← h, BitVec.toNat_setWidth, Nat.mod_eq_of_lt (lt_of_lt_of_le hlt hle)]
  exact ⟨hlt, by rw [hx, Nat.mul_mod_left]⟩

/-- The same for signed multiples. -/
theorem signedRange_of_append {n k : Nat} (hn : 0 < n) (hnk : n + k ≤ 64) {x : BitVec n}
    {v : BitVec 64} (h : (x ++ 0#k).signExtend 64 = v) :
    FitsSigned (n + k) v ∧ v.toNat % 2 ^ k = 0 := by
  have hx : (x ++ 0#k).toNat = x.toNat * 2 ^ k := by
    rw [BitVec.toNat_append, BitVec.toNat_ofNat, Nat.zero_mod, Nat.or_zero, Nat.shiftLeft_eq]
  have hcut : v.setWidth (n + k) = x ++ 0#k := by rw [← h, setWidth_signExtend_self hnk]
  refine ⟨(signExtend_setWidth_eq_iff (by omega) hnk v).1 (by rw [hcut, h]), ?_⟩
  have hnat := congrArg BitVec.toNat hcut
  rw [BitVec.toNat_setWidth, hx] at hnat
  rw [← Nat.mod_mod_of_dvd v.toNat (pow_dvd_pow 2 (Nat.le_add_left k n)), hnat, Nat.mul_mod_left]

/-! ## The CA format -/

section Ca

variable {m : Rvc} {opcode : BitVec 32} {o : HalfWord} (rd rs2 : BitVec 6)

theorem expectC_eq (message : String) (r : BitVec 6) :
    expectC message (minus8 r) = if IsXc r then .ok () else .error message := by
  unfold expectC
  by_cases hr : IsXc r
  · rw [if_pos hr, if_neg ((minus8_le_iff r).2 hr)]
  · rw [if_neg hr, if_pos]
    by_contra hlt
    exact hr ((minus8_le_iff r).1 hlt)

theorem asmEmitCa_reg {rd rs2 : BitVec 6} (hrd : IsXc rd) (hrs2 : IsXc rs2) :
    asmEmitCa opcode (.reg rd) (.reg rs2)
      = .ok (word3 (genLe16 opcode) (rs1'Part (rd.setWidth 3)) (rs2'Part (rs2.setWidth 3))) := by
  rw [← genLe16_cEncodeRs1_minus8 hrd, ← genLe16_cEncodeRs2_minus8 hrs2, word3, ← genLe16_or,
    ← genLe16_or]
  simp only [asmEmitCa, expectReg, expectC_eq, if_pos hrd, if_pos hrs2, Except.bind, bind, pure,
    Except.pure]
  congr 2
  ac_rfl

theorem asmEmitCa_error {rd rs2 : BitVec 6} (h : ¬(IsXc rd ∧ IsXc rs2)) :
    ∃ e, asmEmitCa opcode (.reg rd) (.reg rs2) = .error e := by
  simp only [asmEmitCa, expectReg, expectC_eq, Except.bind, bind]
  by_cases hrd : IsXc rd
  · have hrs2 : ¬IsXc rs2 := fun hrs2 => h ⟨hrd, hrs2⟩
    simp only [if_pos hrd, if_neg hrs2]
    exact ⟨_, rfl⟩
  · simp only [if_neg hrd]
    exact ⟨_, rfl⟩

/-- The mnemonics of the CA format. -/
def IsCa (m : Rvc) : Prop := m ∈ [Rvc.sub, .xor, .or, .and, .subw, .addw]

instance (m : Rvc) : Decidable (IsCa m) := inferInstanceAs (Decidable (_ ∈ _))

theorem decodesTo_ca (hm : IsCa m) {h : HalfWord}
    (hfixed : h &&& 0xfc63#16 = m.fixed.2) (hrd : h &&& 0x0380#16 = rs1'Part (rd.setWidth 3))
    (hrs2 : h &&& 0x001c#16 = rs2'Part (rs2.setWidth 3)) (hxrd : IsXc rd) (hxrs2 : IsXc rs2) :
    DecodesTo m h [.reg rd, .reg rs2] := by
  have hxrd := (ofArg_xc_eq_iff rd).2 hxrd
  have hxrs2 := (ofArg_xc_eq_iff rs2).2 hxrs2
  simp only [IsCa, List.mem_cons, List.not_mem_nil, or_false] at hm
  rw [decodesTo_iff]
  rcases hm with rfl | rfl | rfl | rfl | rfl | rfl
  all_goals
    simp only [Rvc.args, cRs1'_of hrd, cRs2'_of hrs2, List.map_cons, List.map_nil, hxrd, hxrs2,
      and_true]
    exact ⟨hfixed, by simp [Rvc.excluded]⟩

theorem isXc_of_legal_ca (hm : IsCa m) (h : Legal m [.reg rd, .reg rs2]) :
    IsXc rd ∧ IsXc rs2 := by
  obtain ⟨w, hw⟩ := h
  have hargs := (decodesTo_iff.1 hw).2
  simp only [IsCa, List.mem_cons, List.not_mem_nil, or_false] at hm
  rcases hm with rfl | rfl | rfl | rfl | rfl | rfl
  all_goals
    simp only [Rvc.args, List.map_cons, List.map_nil, List.cons.injEq, and_true] at hargs
    exact ⟨isXc_of_ofArg hargs.1, isXc_of_ofArg hargs.2⟩

/-- The words of the CA format are correct for all registers. -/
theorem correctC_ca (hm : IsCa m) (hopcode : genLe16 opcode = m.fixed.2) (rd rs2 : BitVec 6) :
    CorrectC m [.reg rd, .reg rs2] (asmEmitCa opcode (.reg rd) (.reg rs2)) := by
  by_cases h : IsXc rd ∧ IsXc rs2
  · rw [asmEmitCa_reg h.1 h.2, hopcode]
    have ho : m.fixed.2 &&& 0xfc63#16 = m.fixed.2 := by
      simp only [IsCa, List.mem_cons, List.not_mem_nil, or_false] at hm
      rcases hm with rfl | rfl | rfl | rfl | rfl | rfl <;> decide
    have hx := rs1'Part_masked (rd.setWidth 3)
    have hy := rs2'Part_masked (rs2.setWidth 3)
    exact decodesTo_ca rd rs2 hm
      (word3_and_fixed ho hx hy (by decide) (by decide) (by decide))
      (word3_and_snd ho hx hy (by decide) (by decide) (by decide))
      (word3_and_thd ho hx hy (by decide) (by decide) (by decide)) h.1 h.2
  · obtain ⟨e, he⟩ : ∃ e, asmEmitCa opcode (.reg rd) (.reg rs2) = .error e := asmEmitCa_error h
    rw [he]
    exact fun hlegal => h (isXc_of_legal_ca rd rs2 hm hlegal)

end Ca

/-! ## The CB format -/

section Cb

variable {m : Rvc} {opcode : BitVec 32} {o p : HalfWord} (rs1 : BitVec 6) (v : BitVec 64)

/-- The low bit of an immediate decides whether it is even. -/
theorem expectEven_eq :
    expectEven (v.setWidth 32)
      = if v.toNat % 2 = 0 then .ok ()
        else .error "Expected source operand that is an even immediate value" := by
  have hbit : v.setWidth 32 &&& 1#32 = 0#32 ↔ v.toNat % 2 = 0 := by
    rw [← BitVec.toNat_inj, BitVec.toNat_and, BitVec.toNat_setWidth,
      show (1#32).toNat = 1 from rfl, Nat.and_one_is_mod, show (0#32).toNat = 0 from rfl,
      Nat.mod_mod_of_dvd _ (by decide)]
  unfold expectEven
  simp only [ne_eq, hbit, ite_not]

theorem asmEmitCb_error (h : ¬(IsXc rs1 ∧ v.toNat % 2 = 0)) :
    ∃ e, asmEmitCb m opcode (.reg rs1) (.imm v) = .error e := by
  simp only [asmEmitCb, expectReg, expectImm, expectEven_eq, expectC_eq, Except.bind, bind]
  by_cases hv : v.toNat % 2 = 0
  · have hrs1 : ¬IsXc rs1 := fun hrs1 => h ⟨hrs1, hv⟩
    simp only [if_pos hv, if_neg hrs1]
    exact ⟨_, rfl⟩
  · simp only [if_neg hv]
    exact ⟨_, rfl⟩

theorem asmEmitCb_imm6 (hm : m = .andi ∨ m = .srai ∨ m = .srli) {rs1 : BitVec 6} {v : BitVec 64}
    (hrs1 : IsXc rs1) (hv : v.toNat % 2 = 0) :
    asmEmitCb m opcode (.reg rs1) (.imm v)
      = .ok (word3 (genLe16 opcode) (rs1'Part (rs1.setWidth 3)) (imm6Part (v.setWidth 6))) := by
  rw [← emit_imm6, ← genLe16_cEncodeRs1_minus8 hrs1, word3, ← genLe16_or, ← genLe16_or]
  rcases hm with rfl | rfl | rfl
  all_goals
    simp only [asmEmitCb, expectReg, expectImm, expectEven_eq, expectC_eq, if_pos hrs1, if_pos hv,
      Except.bind, bind, pure, Except.pure]
    congr 2
    ac_rfl

theorem asmEmitCb_branch (hm : m = .beqz ∨ m = .bnez) {rs1 : BitVec 6} {v : BitVec 64}
    (hrs1 : IsXc rs1) (hv : v.toNat % 2 = 0) :
    asmEmitCb m opcode (.reg rs1) (.imm v)
      = .ok (word3 (genLe16 opcode) (rs1'Part (rs1.setWidth 3))
        (cbPart ((v.extractLsb' 1 7 ||| (v.extractLsb' 8 1).setWidth 7 <<< 2).setWidth 8))) := by
  rw [← emit_cb, ← genLe16_cEncodeRs1_minus8 hrs1, word3, ← genLe16_or, ← genLe16_or]
  rcases hm with rfl | rfl
  all_goals
    simp only [asmEmitCb, expectReg, expectImm, expectEven_eq, expectC_eq, if_pos hrs1, if_pos hv,
      Except.bind, bind, pure, Except.pure]
    congr 2
    ac_rfl

/-- The fields of `c.andi`, `c.srai` and `c.srli`. -/
structure CbFields (h o : HalfWord) (r : BitVec 3) (p : HalfWord) : Prop where
  fixed : h &&& 0xec03#16 = o
  rs1 : h &&& 0x0380#16 = rs1'Part r
  imm : h &&& 0x107c#16 = p

theorem cbFields (ho : o &&& 0xec03#16 = o) (hp : p &&& 0x107c#16 = p) (r : BitVec 3) :
    CbFields (word3 o (rs1'Part r) p) o r p where
  fixed := word3_and_fixed ho (rs1'Part_masked r) hp (by decide) (by decide) (by decide)
  rs1 := word3_and_snd ho (rs1'Part_masked r) hp (by decide) (by decide) (by decide)
  imm := word3_and_thd ho (rs1'Part_masked r) hp (by decide) (by decide) (by decide)

/-- `c.andi`. -/
theorem decodesTo_andi {h : HalfWord}
    (hf : CbFields h 0x8801#16 (rs1.setWidth 3) (imm6Part (v.setWidth 6))) :
    DecodesTo .andi h [.reg rs1, .imm v] ↔ IsXc rs1 ∧ FitsSigned 6 v := by
  have hmatch : Rvc.andi.Matches h := ⟨hf.fixed, by simp [Rvc.excluded]⟩
  rw [decodesTo_iff, and_iff_right hmatch]
  simp only [Rvc.args, cRs1'_of hf.rs1, cImm6_of hf.imm, List.map_cons, List.map_nil,
    List.cons.injEq, ofArg_xc_eq_iff, ofArg_imm_eq_iff,
    signExtend_setWidth_eq_iff (show 0 < 6 by decide) (show 6 ≤ 64 by decide), and_true]

/-- `c.srai` and `c.srli`. -/
theorem decodesTo_srai (hm : m = .srai ∨ m = .srli) {h : HalfWord}
    (hf : CbFields h m.fixed.2 (rs1.setWidth 3) (imm6Part (v.setWidth 6))) :
    DecodesTo m h [.reg rs1, .imm v] ↔ IsXc rs1 ∧ v ≠ 0#64 ∧ v.toNat < 64 := by
  have hfields : (m.args h).map Operand.ofArg = [.reg rs1, .imm v]
      ↔ IsXc rs1 ∧ (v.setWidth 6).setWidth 64 = v := by
    rcases hm with rfl | rfl
    all_goals
      simp only [Rvc.args, cRs1'_of hf.rs1, cImm6_of hf.imm, List.map_cons, List.map_nil,
        List.cons.injEq, ofArg_xc_eq_iff, ofArg_imm_eq_iff, and_true]
  have hmatch : m.Matches h ↔ v.setWidth 6 ≠ 0#6 := by
    rcases hm with rfl | rfl
    all_goals
      simp only [Rvc.Matches, Rvc.excluded, List.forall_mem_cons, List.not_mem_nil, false_implies,
        implies_true, and_true, hf.imm, ne_eq, imm6Part_eq_zero_iff]
      exact and_iff_right hf.fixed
  rw [decodesTo_iff, hmatch, hfields]
  constructor
  · rintro ⟨hne, hx, hv⟩
    exact ⟨hx, fun h0 => hne (by rw [h0]; rfl), (setWidth_setWidth_eq_iff v).1 hv⟩
  · rintro ⟨hx, hne, hlt⟩
    have hv := (setWidth_setWidth_eq_iff (n := 6) v).2 hlt
    exact ⟨fun h0 => hne (by rw [← hv, h0]; rfl), hx, hv⟩

theorem isXc_of_decodesTo_cb (hm : m = .andi ∨ m = .srai ∨ m = .srli ∨ m = .beqz ∨ m = .bnez)
    {rs1 : BitVec 6} {v : BitVec 64} {h : HalfWord} (hd : DecodesTo m h [.reg rs1, .imm v]) :
    IsXc rs1 := by
  have hargs := (decodesTo_iff.1 hd).2
  rcases hm with rfl | rfl | rfl | rfl | rfl
  all_goals
    simp only [Rvc.args, List.map_cons, List.map_nil, List.cons.injEq] at hargs
    exact isXc_of_ofArg hargs.1

theorem not_legal_cb (hm : m = .andi ∨ m = .srai ∨ m = .srli ∨ m = .beqz ∨ m = .bnez)
    {rs1 : BitVec 6} {v : BitVec 64} (hx : ¬IsXc rs1) : ¬Legal m [.reg rs1, .imm v] :=
  fun ⟨_, hd⟩ => hx (isXc_of_decodesTo_cb hm hd)

/-- `c.andi`, `c.srai` and `c.srli` are correct if their immediates of the listing are the even
ones. -/
theorem correctC_cb_iff {range : Prop} (hm : m = .andi ∨ m = .srai ∨ m = .srli)
    (hopcode : genLe16 opcode = m.fixed.2) {rs1 : BitVec 6} {v : BitVec 64}
    (hdecode : ∀ {h}, CbFields h m.fixed.2 (rs1.setWidth 3) (imm6Part (v.setWidth 6)) →
      (DecodesTo m h [.reg rs1, .imm v] ↔ IsXc rs1 ∧ range))
    (hrange : ∀ {h}, DecodesTo m h [.reg rs1, .imm v] → range) :
    CorrectC m [.reg rs1, .imm v] (asmEmitCb m opcode (.reg rs1) (.imm v))
      ↔ (IsXc rs1 → (range ↔ v.toNat % 2 = 0)) := by
  have ho : m.fixed.2 &&& 0xec03#16 = m.fixed.2 := by rcases hm with rfl | rfl | rfl <;> decide
  have hemitted := hdecode (cbFields ho (imm6Part_masked (v.setWidth 6)) (rs1.setWidth 3))
  have hcb : m = .andi ∨ m = .srai ∨ m = .srli ∨ m = .beqz ∨ m = .bnez := by
    rcases hm with rfl | rfl | rfl <;> simp
  by_cases hx : IsXc rs1
  · rw [forall_prop_of_true hx]
    by_cases hv : v.toNat % 2 = 0
    · rw [asmEmitCb_imm6 hm hx hv, hopcode, iff_true_right hv]
      exact hemitted.trans (and_iff_right hx)
    · obtain ⟨e, he⟩ : ∃ e, asmEmitCb m opcode (.reg rs1) (.imm v) = .error e :=
        asmEmitCb_error rs1 v fun h => hv h.2
      rw [he, iff_false_right hv]
      exact not_congr ⟨fun ⟨_, hd⟩ => hrange hd, fun h => ⟨_, hemitted.2 ⟨hx, h⟩⟩⟩
  · obtain ⟨e, he⟩ : ∃ e, asmEmitCb m opcode (.reg rs1) (.imm v) = .error e :=
      asmEmitCb_error rs1 v fun h => hx h.1
    rw [he]
    exact iff_of_true (not_legal_cb hcb hx) fun h => absurd h hx

theorem correctC_andi_iff (hopcode : genLe16 opcode = 0x8801#16) :
    CorrectC .andi [.reg rs1, .imm v] (asmEmitCb .andi opcode (.reg rs1) (.imm v))
      ↔ (IsXc rs1 → (FitsSigned 6 v ↔ v.toNat % 2 = 0)) := by
  refine correctC_cb_iff (Or.inl rfl) hopcode (decodesTo_andi rs1 v) fun hd => ?_
  have hargs := (decodesTo_iff.1 hd).2
  simp only [Rvc.args, List.map_cons, List.map_nil, List.cons.injEq, ofArg_imm_eq_iff,
    and_true] at hargs
  rw [← hargs.2]
  refine (signExtend_setWidth_eq_iff (by decide) (by decide) _).1 ?_
  rw [setWidth_signExtend_self (by decide)]

theorem correctC_srai_iff (hm : m = .srai ∨ m = .srli) (hopcode : genLe16 opcode = m.fixed.2) :
    CorrectC m [.reg rs1, .imm v] (asmEmitCb m opcode (.reg rs1) (.imm v))
      ↔ (IsXc rs1 → ((v ≠ 0#64 ∧ v.toNat < 64) ↔ v.toNat % 2 = 0)) := by
  refine correctC_cb_iff (Or.inr hm) hopcode (decodesTo_srai rs1 v hm) fun hd => ?_
  have hex : (0x107c#16, 0#16) ∈ m.excluded := by rcases hm with rfl | rfl <;> decide
  rename_i h
  obtain ⟨⟨-, hexcluded⟩, hargs⟩ := decodesTo_iff.1 hd
  have hv : (cImm6 h).setWidth 64 = v := by
    rcases hm with rfl | rfl
    all_goals
      simp only [Rvc.args, List.map_cons, List.map_nil, List.cons.injEq, ofArg_imm_eq_iff,
        and_true] at hargs
      exact hargs.2
  have hcut : v.setWidth 6 = cImm6 h := by
    rw [← hv, BitVec.setWidth_setWidth_of_le _ (by decide), BitVec.setWidth_eq]
  refine ⟨fun h0 => hexcluded _ hex ?_, (setWidth_setWidth_eq_iff (n := 6) v).1 (by rw [hcut, hv])⟩
  rw [← imm6Part_cImm6, ← hcut, h0]
  rfl

/-- Bit 8 of the offset is in two fields. -/
theorem branch_offset_eq_iff :
    ((v.extractLsb' 1 7 ||| (v.extractLsb' 8 1).setWidth 7 <<< 2).setWidth 8 ++ 0#1).signExtend 64 = v
      ↔ v.toNat < 2 ^ 8 ∧ v.toNat % 2 ^ 1 = 0 := by
  have hsign : ∀ x : BitVec 7, (x.setWidth 8 ++ 0#1).signExtend 64 = (x ++ 0#1).setWidth 64 := by
    decide +kernel
  rw [hsign]
  constructor
  · intro h
    exact range_of_append (by decide) h
  · rintro ⟨hlt, hmod⟩
    have hbit : v.extractLsb' 8 1 = 0#1 := by
      apply BitVec.eq_of_toNat_eq
      rw [BitVec.extractLsb'_toNat, Nat.shiftRight_eq_div_pow, Nat.div_eq_of_lt hlt]
      rfl
    rw [hbit, show (0#1).setWidth 7 <<< 2 = 0#7 by decide, BitVec.or_zero]
    exact (setWidth_extract_eq_iff (n := 7) (k := 1) (by decide) v).2 ⟨hlt, hmod⟩

theorem cbPart_masked (x : BitVec 8) : cbPart x &&& 0x1c7c#16 = cbPart x := by
  revert x
  decide +kernel

/-- The fields of `c.beqz` and `c.bnez`. -/
structure CbBranchFields (h o : HalfWord) (r : BitVec 3) (x : BitVec 8) : Prop where
  fixed : h &&& 0xe003#16 = o
  rs1 : h &&& 0x0380#16 = rs1'Part r
  imm : h &&& 0x1c7c#16 = cbPart x

theorem cbBranchFields (ho : o &&& 0xe003#16 = o) (r : BitVec 3) (x : BitVec 8) :
    CbBranchFields (word3 o (rs1'Part r) (cbPart x)) o r x where
  fixed :=
    word3_and_fixed ho (rs1'Part_masked r) (cbPart_masked x) (by decide) (by decide) (by decide)
  rs1 := word3_and_snd ho (rs1'Part_masked r) (cbPart_masked x) (by decide) (by decide) (by decide)
  imm := word3_and_thd ho (rs1'Part_masked r) (cbPart_masked x) (by decide) (by decide) (by decide)

/-- `c.beqz` and `c.bnez`. -/
theorem decodesTo_beqz (hm : m = .beqz ∨ m = .bnez) {h : HalfWord} {x : BitVec 8}
    (hf : CbBranchFields h m.fixed.2 (rs1.setWidth 3) x) :
    DecodesTo m h [.reg rs1, .imm v] ↔ IsXc rs1 ∧ (x ++ 0#1).signExtend 64 = v := by
  have hmatch : m.Matches h := by
    rcases hm with rfl | rfl <;> exact ⟨hf.fixed, by simp [Rvc.excluded]⟩
  rw [decodesTo_iff, and_iff_right hmatch]
  rcases hm with rfl | rfl
  all_goals
    simp only [Rvc.args, cRs1'_of hf.rs1, immCB_of hf.imm, List.map_cons, List.map_nil,
      List.cons.injEq, ofArg_xc_eq_iff, ofArg_imm_eq_iff, and_true]

theorem even_of_decodesTo_beqz (hm : m = .beqz ∨ m = .bnez) {rs1 : BitVec 6} {v : BitVec 64}
    {h : HalfWord} (hd : DecodesTo m h [.reg rs1, .imm v]) : v.toNat % 2 = 0 := by
  have hargs := (decodesTo_iff.1 hd).2
  have himm : immCB h = v := by
    rcases hm with rfl | rfl
    all_goals
      simp only [Rvc.args, List.map_cons, List.map_nil, List.cons.injEq, ofArg_imm_eq_iff,
        and_true] at hargs
      exact hargs.2
  exact (signedRange_of_append (n := 8) (k := 1) (by decide) (by decide) himm).2

/-- `c.beqz` and `c.bnez` are correct for forward branches by less than 256 bytes. -/
theorem correctC_beqz_iff (hm : m = .beqz ∨ m = .bnez) (hopcode : genLe16 opcode = m.fixed.2) :
    CorrectC m [.reg rs1, .imm v] (asmEmitCb m opcode (.reg rs1) (.imm v))
      ↔ (IsXc rs1 → v.toNat % 2 = 0 → v.toNat < 256) := by
  have hcb : m = .andi ∨ m = .srai ∨ m = .srli ∨ m = .beqz ∨ m = .bnez := by
    rcases hm with rfl | rfl <;> simp
  have ho : m.fixed.2 &&& 0xe003#16 = m.fixed.2 := by rcases hm with rfl | rfl <;> decide
  by_cases hx : IsXc rs1
  · by_cases hv : v.toNat % 2 = 0
    · rw [asmEmitCb_branch hm hx hv, hopcode, forall_prop_of_true hx, forall_prop_of_true hv]
      refine (decodesTo_beqz rs1 v hm (cbBranchFields ho _ _)).trans ?_
      rw [and_iff_right hx, branch_offset_eq_iff, and_iff_left (by omega)]
      rfl
    · obtain ⟨e, he⟩ : ∃ e, asmEmitCb m opcode (.reg rs1) (.imm v) = .error e :=
        asmEmitCb_error rs1 v fun h => hv h.2
      rw [he]
      exact iff_of_true (fun ⟨h, hd⟩ => hv (even_of_decodesTo_beqz hm hd)) fun _ h => absurd h hv
  · obtain ⟨e, he⟩ : ∃ e, asmEmitCb m opcode (.reg rs1) (.imm v) = .error e :=
      asmEmitCb_error rs1 v fun h => hx h.1
    rw [he]
    exact iff_of_true (not_legal_cb hcb hx) fun h => absurd h hx

end Cb

/-! ## The CIW format -/

section Ciw

variable {opcode : BitVec 32} (rd : BitVec 6) (v : BitVec 64)

theorem setWidth_and_three_iff : v.setWidth 32 &&& 3#32 = 0#32 ↔ v.toNat % 4 = 0 := by
  rw [← BitVec.toNat_inj, BitVec.toNat_and, BitVec.toNat_setWidth,
    show (3#32).toNat = 2 ^ 2 - 1 from rfl, Nat.and_two_pow_sub_one_eq_mod,
    show (0#32).toNat = 0 from rfl, Nat.mod_mod_of_dvd _ (by decide)]

/-- The check of `asm_emit_ciw` for its immediate, of which the low 32 bits are compared. -/
theorem nzuimm_range :
    (¬0x3fc#32 < v.setWidth 32 ∧ ¬(v.setWidth 32 &&& 3#32 ≠ 0#32))
      ↔ v.toNat % 2 ^ 32 ≤ 0x3fc ∧ v.toNat % 4 = 0 := by
  rw [not_not, setWidth_and_three_iff, BitVec.lt_def, BitVec.toNat_setWidth, Nat.not_lt]
  rfl

theorem asmEmitCiw_imm {rd : BitVec 6} {v : BitVec 64} (hrd : IsXc rd)
    (hv : v.toNat % 2 ^ 32 ≤ 0x3fc ∧ v.toNat % 4 = 0) :
    asmEmitCiw opcode (.reg rd) (.imm v)
      = .ok (word3 (genLe16 opcode) (rs2'Part 0#3) (addi4spnPart (v.extractLsb' 2 8))) := by
  obtain ⟨hlt, hmod⟩ := (nzuimm_range v).2 hv
  rw [← emit_addi4spn, word3, show rs2'Part 0#3 = genLe16 (encodeRs2 rd) from
    (genLe16_encodeRs2 rd).symm, ← genLe16_or, ← genLe16_or]
  simp only [asmEmitCiw, expectReg, expectImm, expectC_eq, if_pos hrd, if_neg hlt, if_neg hmod,
    Except.bind, bind, pure, Except.pure]

theorem asmEmitCiw_error
    (h : ¬(IsXc rd ∧ v.toNat % 2 ^ 32 ≤ 0x3fc ∧ v.toNat % 4 = 0)) :
    ∃ e, asmEmitCiw opcode (.reg rd) (.imm v) = .error e := by
  rw [← nzuimm_range] at h
  simp only [asmEmitCiw, expectReg, expectImm, expectC_eq, Except.bind, bind]
  by_cases hrd : IsXc rd
  · simp only [if_pos hrd]
    split
    · exact ⟨_, rfl⟩
    · next hlt =>
      split
      · exact ⟨_, rfl⟩
      · next hmod => exact absurd ⟨hrd, hlt, hmod⟩ h
  · simp only [if_neg hrd]
    exact ⟨_, rfl⟩

/-- `c.addi4spn`. -/
theorem decodesTo_addi4spn {h : HalfWord} {y : BitVec 3} (hfixed : h &&& 0xe003#16 = 0x0000#16)
    (hrd : h &&& 0x001c#16 = rs2'Part y)
    (himm : h &&& 0x1fe0#16 = addi4spnPart (v.extractLsb' 2 8)) :
    DecodesTo .addi4spn h [.reg rd, .imm v]
      ↔ 0#1 ++ (1#2 ++ y) = rd ∧ v ≠ 0#64 ∧ v.toNat < 2 ^ 10 ∧ v.toNat % 2 ^ 2 = 0 := by
  have hzero : ∀ x : BitVec 8, addi4spnPart x = 0#16 ↔ x = 0#8 := by decide +kernel
  have hmatch : Rvc.addi4spn.Matches h ↔ v.extractLsb' 2 8 ≠ 0#8 := by
    simp only [Rvc.Matches, Rvc.excluded, List.forall_mem_cons, List.not_mem_nil, false_implies,
      implies_true, and_true, himm, ne_eq, hzero]
    exact and_iff_right hfixed
  rw [decodesTo_iff, hmatch]
  simp only [Rvc.args, cRs2'_of hrd, cImmAddi4spn_of himm, List.map_cons, List.map_nil,
    List.cons.injEq, Operand.ofArg, Operand.reg.injEq, Operand.imm.injEq, and_true]
  rw [← setWidth_extract_eq_iff (n := 8) (k := 2) (by decide) v]
  constructor
  · rintro ⟨hne, hy, hv⟩
    exact ⟨hy, fun h0 => hne (by rw [h0]; rfl), hv⟩
  · rintro ⟨hy, h0, hv⟩
    refine ⟨fun hx => h0 ?_, hy, hv⟩
    rw [← hv, hx]
    rfl

theorem range_of_legal_addi4spn (h : Legal .addi4spn [.reg rd, .imm v]) :
    IsXc rd ∧ v.toNat < 2 ^ 10 ∧ v.toNat % 2 ^ 2 = 0 := by
  obtain ⟨w, hw⟩ := h
  have hargs := (decodesTo_iff.1 hw).2
  simp only [Rvc.args, List.map_cons, List.map_nil, List.cons.injEq, ofArg_imm_eq_iff,
    and_true] at hargs
  exact ⟨isXc_of_ofArg hargs.1, range_of_append (n := 8) (k := 2) (by decide) hargs.2⟩

/-- `c.addi4spn` is correct for `x8` only: the register is lost. -/
theorem correctC_addi4spn_iff (hopcode : genLe16 opcode = 0x0000#16) :
    CorrectC .addi4spn [.reg rd, .imm v] (asmEmitCiw opcode (.reg rd) (.imm v))
      ↔ (IsXc rd → v.toNat % 2 ^ 32 ≤ 0x3fc → v.toNat % 4 = 0 →
        rd = 8#6 ∧ v ≠ 0#64 ∧ v.toNat < 1024) := by
  by_cases h : IsXc rd ∧ v.toNat % 2 ^ 32 ≤ 0x3fc ∧ v.toNat % 4 = 0
  · obtain ⟨hx, hle, hmod⟩ := h
    have hr := rs2'Part_masked 0#3
    have hp := addi4spnPart_masked (v.extractLsb' 2 8)
    have ho : 0x0000#16 &&& 0xe003#16 = 0x0000#16 := by decide
    rw [asmEmitCiw_imm hx ⟨hle, hmod⟩, hopcode, forall_prop_of_true hx, forall_prop_of_true hle,
      forall_prop_of_true hmod]
    refine (decodesTo_addi4spn rd v
      (word3_and_fixed ho hr hp (by decide) (by decide) (by decide))
      (word3_and_snd ho hr hp (by decide) (by decide) (by decide))
      (word3_and_thd ho hr hp (by decide) (by decide) (by decide))).trans ?_
    rw [and_iff_left (show v.toNat % 2 ^ 2 = 0 from hmod), eq_comm (a := rd)]
    rfl
  · obtain ⟨e, he⟩ : ∃ e, asmEmitCiw opcode (.reg rd) (.imm v) = .error e :=
      asmEmitCiw_error rd v h
    rw [he]
    refine iff_of_true (fun hlegal => h ?_) fun hx hle hmod => absurd ⟨hx, hle, hmod⟩ h
    obtain ⟨hx, hlt, hmod⟩ := range_of_legal_addi4spn rd v hlegal
    exact ⟨hx, by omega, hmod⟩

end Ciw

/-! ## The CJ format -/

section Cj

variable {m : Rvc} {opcode : BitVec 32} (v : BitVec 64)

theorem asmEmitCj_imm {v : BitVec 64} (hv : isIm12s v) (hmod : v.toNat % 2 = 0) :
    asmEmitCj opcode (.imm v) = .ok (genLe16 opcode ||| cjPart (v.extractLsb' 1 11)) := by
  rw [← emit_cj, ← genLe16_or]
  simp only [asmEmitCj, expectIm12s, if_pos hv, expectEven_eq, if_pos hmod, Except.bind, bind, pure,
    Except.pure]
  congr 2
  ac_rfl

theorem asmEmitCj_error (h : ¬(isIm12s v ∧ v.toNat % 2 = 0)) :
    ∃ e, asmEmitCj opcode (.imm v) = .error e := by
  simp only [asmEmitCj, expectIm12s, expectEven_eq, Except.bind, bind]
  by_cases hv : isIm12s v
  · have hmod : ¬v.toNat % 2 = 0 := fun hmod => h ⟨hv, hmod⟩
    simp only [if_pos hv, if_neg hmod]
    exact ⟨_, rfl⟩
  · simp only [if_neg hv]
    exact ⟨_, rfl⟩

/-- `c.j` and `c.jal`. -/
theorem decodesTo_j (hm : m = .j ∨ m = .jal) {h : HalfWord} (hfixed : h &&& 0xe003#16 = m.fixed.2)
    (himm : h &&& 0x1ffc#16 = cjPart (v.extractLsb' 1 11)) :
    DecodesTo m h [.imm v] ↔ FitsSigned 12 v ∧ v.toNat % 2 ^ 1 = 0 := by
  have hmatch : m.Matches h := by
    rcases hm with rfl | rfl <;> exact ⟨hfixed, by simp [Rvc.excluded]⟩
  rw [decodesTo_iff, and_iff_right hmatch,
    ← signExtend_extract_eq_iff (n := 11) (k := 1) (by decide) (by decide) v]
  rcases hm with rfl | rfl
  all_goals
    simp only [Rvc.args, immCJ_of himm, List.map_cons, List.map_nil, List.cons.injEq,
      ofArg_imm_eq_iff, and_true]

theorem range_of_legal_j (hm : m = .j ∨ m = .jal) (h : Legal m [.imm v]) :
    FitsSigned 12 v ∧ v.toNat % 2 = 0 := by
  obtain ⟨w, hw⟩ := h
  have hargs := (decodesTo_iff.1 hw).2
  have himm : immCJ w = v := by
    rcases hm with rfl | rfl
    all_goals
      simp only [Rvc.args, List.map_cons, List.map_nil, List.cons.injEq, ofArg_imm_eq_iff,
        and_true] at hargs
      exact hargs
  exact signedRange_of_append (n := 11) (k := 1) (by decide) (by decide) himm

theorem isIm12s_of_fitsSigned (h : FitsSigned 12 v) : isIm12s v := by
  unfold FitsSigned at h
  rw [isIm12s, decide_eq_true_eq]
  rw [BitVec.toInt_eq_toNat_cond] at h ⊢
  rw [BitVec.toNat_setWidth]
  have hlt := v.isLt
  split at h <;> split <;> omega

/-- `c.j` and `c.jal` are correct for offsets in range of the field, if they are accepted. -/
theorem correctC_j_iff (hm : m = .j ∨ m = .jal) (hopcode : genLe16 opcode = m.fixed.2) :
    CorrectC m [.imm v] (asmEmitCj opcode (.imm v))
      ↔ (isIm12s v → v.toNat % 2 = 0 → FitsSigned 12 v) := by
  by_cases h : isIm12s v ∧ v.toNat % 2 = 0
  · have ho : m.fixed.2 &&& 0xe003#16 = m.fixed.2 := by rcases hm with rfl | rfl <;> decide
    have hp := cjPart_masked (v.extractLsb' 1 11)
    rw [asmEmitCj_imm h.1 h.2, hopcode, forall_prop_of_true h.1, forall_prop_of_true h.2]
    refine (decodesTo_j v hm ?_ ?_).trans (and_iff_left h.2)
    · rw [BitVec.and_or_distrib_right, ho, and_eq_zero hp (by decide), BitVec.or_zero]
    · rw [BitVec.and_or_distrib_right, hp, and_eq_zero ho (by decide), BitVec.zero_or]
  · obtain ⟨e, he⟩ : ∃ e, asmEmitCj opcode (.imm v) = .error e := asmEmitCj_error v h
    rw [he]
    refine iff_of_true (fun hlegal => h ?_) fun hv hmod => absurd ⟨hv, hmod⟩ h
    obtain ⟨hfits, hmod⟩ := range_of_legal_j v hm hlegal
    exact ⟨isIm12s_of_fitsSigned v hfits, hmod⟩

end Cj

/-! ## The CL and CS formats -/

section Mem

variable {m : Rvc} {opcode : BitVec 32} (rd rs1 : BitVec 6) (v : BitVec 64)

/-- The offsets that the assembler accepts, by their low 32 bits. -/
def OffsetAccepted (v : BitVec 64) : Prop := v.toNat % 2 ^ 32 ≤ 0xff ∧ v.toNat % 4 = 0

instance (v : BitVec 64) : Decidable (OffsetAccepted v) := inferInstanceAs (Decidable (_ ∧ _))

theorem offset_range :
    (¬0xff#32 < v.setWidth 32 ∧ ¬(v.setWidth 32 &&& 3#32 ≠ 0#32)) ↔ OffsetAccepted v := by
  rw [not_not, setWidth_and_three_iff, BitVec.lt_def, BitVec.toNat_setWidth, Nat.not_lt]
  rfl

theorem expectOffset_ok {v : BitVec 64} (h : OffsetAccepted v) :
    expectOffset (v.setWidth 32) = .ok () := by
  obtain ⟨hlt, hmod⟩ := (offset_range v).2 h
  rw [expectOffset, if_neg hlt, if_neg hmod]

theorem expectOffset_error {v : BitVec 64} (h : ¬OffsetAccepted v) :
    ∃ e, expectOffset (v.setWidth 32) = .error e := by
  unfold expectOffset
  split
  · exact ⟨_, rfl⟩
  · next hlt =>
    split
    · exact ⟨_, rfl⟩
    · next hmod => exact absurd ((offset_range v).1 ⟨hlt, hmod⟩) h

/-- The loads and stores of the CL and CS formats. -/
def IsMem (m : Rvc) : Prop := m ∈ [Rvc.lw, .flw, .ld, .fld, .sw, .fsw, .sd, .fsd]

/-- Whether the register that is loaded or stored is a floating point register. -/
def isFloat : Rvc → Bool
  | .flw | .fld | .fsw | .fsd => true
  | _ => false

/-- Whether a load or store is of 8 bytes. -/
def isDouble : Rvc → Bool
  | .ld | .fld | .sd | .fsd => true
  | _ => false

def memImm (m : Rvc) (h : HalfWord) : BitVec 64 := if isDouble m then cImmLd h else cImmLw h

def memPart (m : Rvc) (v : BitVec 64) : HalfWord :=
  if isDouble m then ldPart (v.extractLsb' 3 5) else lwPart (v.extractLsb' 2 5)

def MemRange (m : Rvc) (v : BitVec 64) : Prop :=
  if isDouble m then v.toNat < 2 ^ 8 ∧ v.toNat % 2 ^ 3 = 0 else v.toNat < 2 ^ 7 ∧ v.toNat % 2 ^ 2 = 0

def memData (m : Rvc) (y : BitVec 3) : Arg := if isFloat m then .f (1#2 ++ y) else .x (1#2 ++ y)

def IsData (m : Rvc) (r : BitVec 6) : Prop := if isFloat m then IsFc r else IsXc r

theorem memPart_masked : memPart m v &&& 0x1c60#16 = memPart m v := by
  unfold memPart
  split
  · exact ldPart_masked _
  · exact lwPart_masked _

theorem memImm_eq_iff {h : HalfWord} {v : BitVec 64} (hp : h &&& 0x1c60#16 = memPart m v) :
    memImm m h = v ↔ MemRange m v := by
  unfold memImm MemRange
  unfold memPart at hp
  split
  · next hd =>
    rw [if_pos hd] at hp
    rw [cImmLd_of hp, setWidth_extract_eq_iff (n := 5) (k := 3) (by decide)]
  · next hd =>
    rw [if_neg hd] at hp
    rw [cImmLw_of hp, setWidth_extract_eq_iff (n := 5) (k := 2) (by decide)]

theorem memRange_of {h : HalfWord} {v : BitVec 64} (hv : memImm m h = v) : MemRange m v := by
  unfold memImm at hv
  unfold MemRange
  split
  · next hd =>
    rw [if_pos hd] at hv
    exact range_of_append (n := 5) (k := 3) (by decide) hv
  · next hd =>
    rw [if_neg hd] at hv
    exact range_of_append (n := 5) (k := 2) (by decide) hv

theorem memData_eq_iff (r : BitVec 6) :
    Operand.ofArg (memData m (r.setWidth 3)) = .reg r ↔ IsData m r := by
  unfold memData IsData
  split
  · exact ofArg_fc_eq_iff r
  · exact ofArg_xc_eq_iff r

theorem isData_of {y : BitVec 3} {r : BitVec 6} (h : Operand.ofArg (memData m y) = .reg r) :
    IsData m r := by
  unfold memData at h
  unfold IsData
  split
  · next hf =>
    rw [if_pos hf] at h
    exact isFc_of_ofArg h
  · next hf =>
    rw [if_neg hf] at h
    exact isXc_of_ofArg h

theorem decodesTo_mem_iff (hm : IsMem m) {rd rs1 : BitVec 6} {v : BitVec 64} {h : HalfWord} :
    DecodesTo m h [.reg rd, .reg rs1, .imm v]
      ↔ h &&& 0xe003#16 = m.fixed.2
        ∧ Operand.ofArg (memData m (h.extractLsb' 2 3)) = .reg rd
        ∧ Operand.ofArg (.x (1#2 ++ h.extractLsb' 7 3)) = .reg rs1 ∧ memImm m h = v := by
  rw [decodesTo_iff]
  simp only [IsMem, List.mem_cons, List.not_mem_nil, or_false] at hm
  rcases hm with rfl | rfl | rfl | rfl | rfl | rfl | rfl | rfl
  all_goals
    simp only [Rvc.Matches, Rvc.excluded, Rvc.fixed, Rvc.args, List.not_mem_nil, false_implies,
      implies_true, and_true, List.map_cons, List.map_nil, List.cons.injEq, ofArg_imm_eq_iff,
      memData, memImm, isFloat, isDouble, if_true, if_false, Bool.false_eq_true]
    rfl

/-- The registers of the CL and CS formats. -/
def regsPart (a b : BitVec 3) : HalfWord := rs1'Part a ||| rs2'Part b

theorem regsPart_masked (a b : BitVec 3) : regsPart a b &&& 0x039c#16 = regsPart a b := by
  revert a b
  decide

theorem extractLsb'_regsPart (a b : BitVec 3) :
    (regsPart a b).extractLsb' 7 3 = a ∧ (regsPart a b).extractLsb' 2 3 = b := by
  revert a b
  decide

/-- The fields of the words of the CL and CS formats. -/
theorem decodesTo_memWord (hm : IsMem m) (a b : BitVec 3) {rd rs1 : BitVec 6} {v : BitVec 64} :
    DecodesTo m (word3 m.fixed.2 (regsPart a b) (memPart m v)) [.reg rd, .reg rs1, .imm v]
      ↔ Operand.ofArg (memData m b) = .reg rd ∧ Operand.ofArg (.x (1#2 ++ a)) = .reg rs1
        ∧ MemRange m v := by
  have ho : m.fixed.2 &&& 0xe003#16 = m.fixed.2 := by
    simp only [IsMem, List.mem_cons, List.not_mem_nil, or_false] at hm
    rcases hm with rfl | rfl | rfl | rfl | rfl | rfl | rfl | rfl <;> decide
  have hr := regsPart_masked a b
  have hp := memPart_masked (m := m) v
  have hfixed : word3 m.fixed.2 (regsPart a b) (memPart m v) &&& 0xe003#16 = m.fixed.2 :=
    word3_and_fixed ho hr hp (by decide) (by decide) (by decide)
  have himm : word3 m.fixed.2 (regsPart a b) (memPart m v) &&& 0x1c60#16 = memPart m v :=
    word3_and_thd ho hr hp (by decide) (by decide) (by decide)
  have hrs1 : (word3 m.fixed.2 (regsPart a b) (memPart m v)).extractLsb' 7 3 = a := by
    simp only [word3, BitVec.extractLsb'_or, (extractLsb'_regsPart a b).1, BitVec.zero_or,
      BitVec.or_zero, extractLsb'_eq_zero ho (show BitVec.extractLsb' 7 3 _ = 0#3 by decide),
      extractLsb'_eq_zero hp (show BitVec.extractLsb' 7 3 _ = 0#3 by decide)]
  have hrs2 : (word3 m.fixed.2 (regsPart a b) (memPart m v)).extractLsb' 2 3 = b := by
    simp only [word3, BitVec.extractLsb'_or, (extractLsb'_regsPart a b).2, BitVec.zero_or,
      BitVec.or_zero, extractLsb'_eq_zero ho (show BitVec.extractLsb' 2 3 _ = 0#3 by decide),
      extractLsb'_eq_zero hp (show BitVec.extractLsb' 2 3 _ = 0#3 by decide)]
  rw [decodesTo_mem_iff hm, and_iff_right hfixed, hrs1, hrs2, memImm_eq_iff himm]

theorem legal_mem_iff (hm : IsMem m) {rd rs1 : BitVec 6} {v : BitVec 64} :
    Legal m [.reg rd, .reg rs1, .imm v] ↔ IsData m rd ∧ IsXc rs1 ∧ MemRange m v := by
  constructor
  · rintro ⟨h, hd⟩
    obtain ⟨-, hrd, hrs1, hv⟩ := (decodesTo_mem_iff hm).1 hd
    exact ⟨isData_of hrd, isXc_of_ofArg hrs1, memRange_of hv⟩
  · rintro ⟨hrd, hrs1, hv⟩
    exact ⟨_, (decodesTo_memWord hm (rs1.setWidth 3) (rd.setWidth 3)).2
      ⟨(memData_eq_iff rd).2 hrd, (ofArg_xc_eq_iff rs1).2 hrs1, hv⟩⟩

/-- The checks of the assembler for two registers and an offset. -/
def MemAccepted (rd rs1 : BitVec 6) (v : BitVec 64) : Prop :=
  IsXc rd ∧ IsXc rs1 ∧ OffsetAccepted v

instance (rd rs1 : BitVec 6) (v : BitVec 64) : Decidable (MemAccepted rd rs1 v) :=
  inferInstanceAs (Decidable (_ ∧ _))

theorem asmEmitCl_ok (hm : m ∈ [Rvc.lw, .flw, .ld, .fld]) {rd rs1 : BitVec 6} {v : BitVec 64}
    (h : MemAccepted rd rs1 v) :
    asmEmitCl m opcode (.reg rd) (.reg rs1) (.imm v)
      = .ok (word3 (genLe16 opcode) (regsPart (rs1.setWidth 3) (rd.setWidth 3)) (memPart m v)) := by
  obtain ⟨hrd, hrs1, hv⟩ := h
  rw [word3, regsPart, ← genLe16_cEncodeRs1_minus8 hrs1, ← genLe16_cEncodeRs2_minus8 hrd]
  simp only [List.mem_cons, List.not_mem_nil, or_false] at hm
  rcases hm with rfl | rfl | rfl | rfl
  all_goals
    simp only [memPart, isDouble, if_true, Bool.false_eq_true, if_false, ← emit_lw, ← emit_ld,
      ← genLe16_or, asmEmitCl, expectReg, expectImm, expectC_eq, if_pos hrd, if_pos hrs1,
      expectOffset_ok hv, Except.bind, bind, pure, Except.pure]
    congr 2
    ac_rfl

theorem asmEmitCl_error {rd rs1 : BitVec 6} {v : BitVec 64} (h : ¬MemAccepted rd rs1 v) :
    ∃ e, asmEmitCl m opcode (.reg rd) (.reg rs1) (.imm v) = .error e := by
  simp only [asmEmitCl, expectReg, expectImm, expectC_eq, Except.bind, bind]
  by_cases hrd : IsXc rd
  · by_cases hrs1 : IsXc rs1
    · obtain ⟨e, he⟩ := expectOffset_error fun hv => h ⟨hrd, hrs1, hv⟩
      simp only [if_pos hrd, if_pos hrs1, he]
      exact ⟨_, rfl⟩
    · simp only [if_pos hrd, if_neg hrs1]
      exact ⟨_, rfl⟩
  · simp only [if_neg hrd]
    exact ⟨_, rfl⟩

/-- A load is correct if its operands are accepted exactly when they are legal. -/
theorem correctC_load_iff (hm : m ∈ [Rvc.lw, .flw, .ld, .fld])
    (hopcode : genLe16 opcode = m.fixed.2) :
    CorrectC m [.reg rd, .reg rs1, .imm v] (asmEmitCl m opcode (.reg rd) (.reg rs1) (.imm v))
      ↔ (MemAccepted rd rs1 v ↔ IsData m rd ∧ IsXc rs1 ∧ MemRange m v) := by
  have hmem : IsMem m := List.mem_append_left [Rvc.sw, .fsw, .sd, .fsd] hm
  by_cases h : MemAccepted rd rs1 v
  · rw [asmEmitCl_ok hm h, hopcode, iff_true_left h]
    refine (decodesTo_memWord hmem _ _).trans ?_
    rw [memData_eq_iff, ofArg_xc_eq_iff]
  · obtain ⟨e, he⟩ : ∃ e, asmEmitCl m opcode (.reg rd) (.reg rs1) (.imm v) = .error e :=
      asmEmitCl_error h
    rw [he, iff_false_left h]
    exact not_congr (legal_mem_iff hmem)

theorem asmEmitCs_ok (hm : m ∈ [Rvc.sw, .fsw, .sd, .fsd]) {rs2 rs1 : BitVec 6} {v : BitVec 64}
    (h : MemAccepted rs2 rs1 v) :
    asmEmitCs m opcode (.reg rs2) (.reg rs1) (.imm v)
      = .ok (word3 (genLe16 opcode) (regsPart (rs2.setWidth 3) (rs1.setWidth 3)) (memPart m v)) := by
  obtain ⟨hrs2, hrs1, hv⟩ := h
  rw [word3, regsPart, ← genLe16_cEncodeRs1_minus8 hrs2, ← genLe16_cEncodeRs2_minus8 hrs1]
  simp only [List.mem_cons, List.not_mem_nil, or_false] at hm
  rcases hm with rfl | rfl | rfl | rfl
  all_goals
    simp only [memPart, isDouble, if_true, Bool.false_eq_true, if_false, ← emit_lw, ← emit_ld,
      ← genLe16_or, asmEmitCs, expectReg, expectImm, expectC_eq, if_pos hrs2, if_pos hrs1,
      expectOffset_ok hv, Except.bind, bind, pure, Except.pure]
    congr 2
    ac_rfl

theorem asmEmitCs_error {rs2 rs1 : BitVec 6} {v : BitVec 64} (h : ¬MemAccepted rs2 rs1 v) :
    ∃ e, asmEmitCs m opcode (.reg rs2) (.reg rs1) (.imm v) = .error e := by
  simp only [asmEmitCs, expectReg, expectImm, expectC_eq, Except.bind, bind]
  by_cases hrs1 : IsXc rs1
  · by_cases hrs2 : IsXc rs2
    · obtain ⟨e, he⟩ := expectOffset_error fun hv => h ⟨hrs2, hrs1, hv⟩
      simp only [if_pos hrs1, if_pos hrs2, he]
      exact ⟨_, rfl⟩
    · simp only [if_pos hrs1, if_neg hrs2]
      exact ⟨_, rfl⟩
  · simp only [if_neg hrs1]
    exact ⟨_, rfl⟩

/-- The registers of a store are in each other's field. -/
theorem swapped_iff {rs2 rs1 : BitVec 6} (hrs2 : IsXc rs2) :
    Operand.ofArg (memData m (rs1.setWidth 3)) = .reg rs2 ∧
        Operand.ofArg (.x (1#2 ++ rs2.setWidth 3)) = .reg rs1
      ↔ IsData m rs2 ∧ rs1 = rs2 := by
  rw [(ofArg_xc_eq_iff rs2).2 hrs2, Operand.reg.injEq, eq_comm (a := rs2)]
  constructor
  · rintro ⟨hdata, heq⟩
    exact ⟨isData_of hdata, heq⟩
  · rintro ⟨hdata, rfl⟩
    exact ⟨(memData_eq_iff _).2 hdata, rfl⟩

/-- A store is correct if moreover its two registers are the same. -/
theorem correctC_store_iff (hm : m ∈ [Rvc.sw, .fsw, .sd, .fsd])
    (hopcode : genLe16 opcode = m.fixed.2) (rs2 rs1 : BitVec 6) (v : BitVec 64) :
    CorrectC m [.reg rs2, .reg rs1, .imm v] (asmEmitCs m opcode (.reg rs2) (.reg rs1) (.imm v))
      ↔ (MemAccepted rs2 rs1 v ↔ IsData m rs2 ∧ IsXc rs1 ∧ MemRange m v)
        ∧ (MemAccepted rs2 rs1 v → rs1 = rs2) := by
  have hmem : IsMem m := List.mem_append_right [Rvc.lw, .flw, .ld, .fld] hm
  by_cases h : MemAccepted rs2 rs1 v
  · rw [asmEmitCs_ok hm h, hopcode, iff_true_left h, forall_prop_of_true h]
    refine (decodesTo_memWord hmem _ _).trans ?_
    rw [← and_assoc, swapped_iff h.1, and_iff_right h.2.1]
    tauto
  · obtain ⟨e, he⟩ : ∃ e, asmEmitCs m opcode (.reg rs2) (.reg rs1) (.imm v) = .error e :=
      asmEmitCs_error h
    rw [he, iff_false_left h, and_iff_left fun h' => absurd h' h]
    exact not_congr (legal_mem_iff hmem)

end Mem

/-! ## The CSS format -/

section Css

variable {m : Rvc} {opcode : BitVec 32} (rs2 : BitVec 6) (v : BitVec 64)

/-- The stores of the CSS format. -/
def IsCss (m : Rvc) : Prop := m ∈ [Rvc.swsp, .fswsp, .sdsp, .fsdsp]

instance (m : Rvc) : Decidable (IsCss m) := inferInstanceAs (Decidable (_ ∈ _))

/-- Whether a store of the CSS format is of 8 bytes. -/
def isDoubleSp : Rvc → Bool
  | .sdsp | .fsdsp => true
  | _ => false

/-- The register that a store of the CSS format names by a field. -/
def spData (m : Rvc) (y : BitVec 5) : Arg :=
  match m with
  | .fswsp | .fsdsp => .f y
  | _ => .x y

def spImm (m : Rvc) (h : HalfWord) : BitVec 64 :=
  if isDoubleSp m then cImmSdsp h else cImmSwsp h

def spPart (m : Rvc) (v : BitVec 64) : HalfWord :=
  if isDoubleSp m then sdspPart (v.extractLsb' 3 6) else swspPart (v.extractLsb' 2 6)

def SpRange (m : Rvc) (v : BitVec 64) : Prop :=
  if isDoubleSp m then v.toNat < 2 ^ 9 ∧ v.toNat % 2 ^ 3 = 0 else v.toNat < 2 ^ 8 ∧ v.toNat % 2 ^ 2 = 0

theorem spPart_masked : spPart m v &&& 0x1f80#16 = spPart m v := by
  unfold spPart
  split
  · exact sdspPart_masked _
  · exact swspPart_masked _

theorem spImm_eq_iff {h : HalfWord} {v : BitVec 64} (hp : h &&& 0x1f80#16 = spPart m v) :
    spImm m h = v ↔ SpRange m v := by
  unfold spImm SpRange
  unfold spPart at hp
  split
  · next hd =>
    rw [if_pos hd] at hp
    rw [cImmSdsp_of hp, setWidth_extract_eq_iff (n := 6) (k := 3) (by decide)]
  · next hd =>
    rw [if_neg hd] at hp
    rw [cImmSwsp_of hp, setWidth_extract_eq_iff (n := 6) (k := 2) (by decide)]

theorem spRange_of {h : HalfWord} {v : BitVec 64} (hv : spImm m h = v) : SpRange m v := by
  unfold spImm at hv
  unfold SpRange
  split
  · next hd =>
    rw [if_pos hd] at hv
    exact range_of_append (n := 6) (k := 3) (by decide) hv
  · next hd =>
    rw [if_neg hd] at hv
    exact range_of_append (n := 6) (k := 2) (by decide) hv

theorem decodesTo_css_iff (hm : IsCss m) {rs2 : BitVec 6} {v : BitVec 64} {h : HalfWord} :
    DecodesTo m h [.reg rs2, .imm v]
      ↔ h &&& 0xe003#16 = m.fixed.2 ∧ Operand.ofArg (spData m (h.extractLsb' 2 5)) = .reg rs2
        ∧ spImm m h = v := by
  rw [decodesTo_iff]
  simp only [IsCss, List.mem_cons, List.not_mem_nil, or_false] at hm
  rcases hm with rfl | rfl | rfl | rfl
  all_goals
    simp only [Rvc.Matches, Rvc.excluded, Rvc.fixed, Rvc.args, List.not_mem_nil, false_implies,
      implies_true, and_true, List.map_cons, List.map_nil, List.cons.injEq, ofArg_imm_eq_iff,
      spData, spImm, isDoubleSp, if_true, if_false, Bool.false_eq_true]
    rfl

theorem decodesTo_cssWord (hm : IsCss m) (y : BitVec 5) {rs2 : BitVec 6} {v : BitVec 64} :
    DecodesTo m (word3 m.fixed.2 (rs2Part y) (spPart m v)) [.reg rs2, .imm v]
      ↔ Operand.ofArg (spData m y) = .reg rs2 ∧ SpRange m v := by
  have ho : m.fixed.2 &&& 0xe003#16 = m.fixed.2 := by
    simp only [IsCss, List.mem_cons, List.not_mem_nil, or_false] at hm
    rcases hm with rfl | rfl | rfl | rfl <;> decide
  have hr := rs2Part_masked y
  have hp := spPart_masked (m := m) v
  have hfixed : word3 m.fixed.2 (rs2Part y) (spPart m v) &&& 0xe003#16 = m.fixed.2 :=
    word3_and_fixed ho hr hp (by decide) (by decide) (by decide)
  have himm : word3 m.fixed.2 (rs2Part y) (spPart m v) &&& 0x1f80#16 = spPart m v :=
    word3_and_thd ho hr hp (by decide) (by decide) (by decide)
  have hfield : word3 m.fixed.2 (rs2Part y) (spPart m v) &&& 0x007c#16 = rs2Part y :=
    word3_and_snd ho hr hp (by decide) (by decide) (by decide)
  have hrs2 := cRs2_of hfield
  rw [decodesTo_css_iff hm, and_iff_right hfixed, ← cRs2, hrs2, spImm_eq_iff himm]

/-- The registers that a store of the CSS format can name. -/
theorem legal_css_iff (hm : IsCss m) {rs2 : BitVec 6} {v : BitVec 64} :
    Legal m [.reg rs2, .imm v]
      ↔ (∃ y, Operand.ofArg (spData m y) = .reg rs2) ∧ SpRange m v := by
  constructor
  · rintro ⟨h, hd⟩
    obtain ⟨-, hrs2, hv⟩ := (decodesTo_css_iff hm).1 hd
    exact ⟨⟨_, hrs2⟩, spRange_of hv⟩
  · rintro ⟨⟨y, hrs2⟩, hv⟩
    exact ⟨_, (decodesTo_cssWord hm y).2 ⟨hrs2, hv⟩⟩

theorem asmEmitCss_ok (hm : IsCss m) {rs2 : BitVec 6} {v : BitVec 64} (hv : OffsetAccepted v) :
    asmEmitCss m opcode (.reg rs2) (.imm v)
      = .ok (word3 (genLe16 opcode) (rs2Part 0#5) (spPart m v)) := by
  rw [word3, show rs2Part 0#5 = genLe16 (encodeRs2 rs2) from (genLe16_encodeRs2 rs2).symm]
  simp only [IsCss, List.mem_cons, List.not_mem_nil, or_false] at hm
  rcases hm with rfl | rfl | rfl | rfl
  all_goals
    simp only [spPart, isDoubleSp, if_true, Bool.false_eq_true, if_false, ← emit_swsp, ← emit_sdsp,
      ← genLe16_or, asmEmitCss, expectReg, expectImm, expectOffset_ok hv, Except.bind, bind, pure,
      Except.pure, BitVec.or_assoc]

theorem asmEmitCss_error {rs2 : BitVec 6} {v : BitVec 64} (hv : ¬OffsetAccepted v) :
    ∃ e, asmEmitCss m opcode (.reg rs2) (.imm v) = .error e := by
  obtain ⟨e, he⟩ := expectOffset_error hv
  simp only [asmEmitCss, expectReg, expectImm, he, Except.bind, bind]
  exact ⟨_, rfl⟩

/-- The register of a store is lost. -/
theorem correctC_css_iff (hm : IsCss m) (hopcode : genLe16 opcode = m.fixed.2) :
    CorrectC m [.reg rs2, .imm v] (asmEmitCss m opcode (.reg rs2) (.imm v))
      ↔ (OffsetAccepted v → Operand.ofArg (spData m 0#5) = .reg rs2 ∧ SpRange m v)
        ∧ (¬OffsetAccepted v →
          ¬((∃ y, Operand.ofArg (spData m y) = .reg rs2) ∧ SpRange m v)) := by
  by_cases h : OffsetAccepted v
  · rw [asmEmitCss_ok hm h, hopcode, forall_prop_of_true h, and_iff_left fun hv => absurd h hv]
    exact decodesTo_cssWord hm 0#5
  · obtain ⟨e, he⟩ : ∃ e, asmEmitCss m opcode (.reg rs2) (.imm v) = .error e :=
      asmEmitCss_error h
    rw [he, forall_prop_of_true h, and_iff_right fun hv => absurd hv h]
    exact not_congr (legal_css_iff hm)

end Css

end TccRiscv64.Asm
