import TccRiscv64.Asm.Base

set_option autoImplicit false

/-! # The assembler: the words of base instructions

The parts that a word is put together from occupy separate bits, so a word has the operands it was
made from if they fit their fields, and the mnemonic whose fixed bits the opcode has. -/

namespace TccRiscv64.Asm

open Isa

/-! ## Parts of a word -/

section Parts

variable {w : Nat} {x mask : BitVec w}

/-- A field outside the bits of `mask` is zero. -/
theorem extractLsb'_eq_zero (hx : x &&& mask = x) {start len : Nat}
    (hmask : mask.extractLsb' start len = 0#(len)) :
    x.extractLsb' start len = 0#(len) := by
  rw [← hx, BitVec.extractLsb'_and, hmask, BitVec.and_zero]

theorem and_eq_zero (hx : x &&& mask = x) {other : BitVec w} (hother : mask &&& other = 0#w) :
    x &&& other = 0#w := by
  rw [← hx, BitVec.and_assoc, hother, BitVec.and_zero]

theorem encodeRd_masked (r : BitVec 6) : encodeRd r &&& 0xf80#32 = encodeRd r := by
  apply BitVec.eq_of_getLsbD_eq
  intro i hi
  simp only [encodeRd, regValue, BitVec.getLsbD_and, BitVec.getLsbD_shiftLeft,
    BitVec.getLsbD_setWidth]
  interval_cases i <;> simp

theorem encodeRs1_masked (r : BitVec 6) : encodeRs1 r &&& 0xf8000#32 = encodeRs1 r := by
  apply BitVec.eq_of_getLsbD_eq
  intro i hi
  simp only [encodeRs1, regValue, BitVec.getLsbD_and, BitVec.getLsbD_shiftLeft,
    BitVec.getLsbD_setWidth]
  interval_cases i <;> simp

theorem encodeRs2_masked (r : BitVec 6) : encodeRs2 r &&& 0x1f00000#32 = encodeRs2 r := by
  apply BitVec.eq_of_getLsbD_eq
  intro i hi
  simp only [encodeRs2, regValue, BitVec.getLsbD_and, BitVec.getLsbD_shiftLeft,
    BitVec.getLsbD_setWidth]
  interval_cases i <;> simp

theorem immPart_masked (v : BitVec 64) :
    (v <<< 20).setWidth 32 &&& 0xfff00000#32 = (v <<< 20).setWidth 32 := by
  apply BitVec.eq_of_getLsbD_eq
  intro i hi
  simp only [BitVec.getLsbD_and, BitVec.getLsbD_shiftLeft, BitVec.getLsbD_setWidth]
  interval_cases i <;> simp

theorem rdOf_encodeRd (r : BitVec 6) : rdOf (encodeRd r) = r.setWidth 5 := by
  apply BitVec.eq_of_getLsbD_eq
  intro i hi
  simp only [rdOf, encodeRd, regValue, BitVec.getLsbD_extractLsb', BitVec.getLsbD_and,
    BitVec.getLsbD_shiftLeft, BitVec.getLsbD_setWidth]
  interval_cases i <;> simp

theorem rs1Of_encodeRs1 (r : BitVec 6) : rs1Of (encodeRs1 r) = r.setWidth 5 := by
  apply BitVec.eq_of_getLsbD_eq
  intro i hi
  simp only [rs1Of, encodeRs1, regValue, BitVec.getLsbD_extractLsb', BitVec.getLsbD_and,
    BitVec.getLsbD_shiftLeft, BitVec.getLsbD_setWidth]
  interval_cases i <;> simp

theorem rs2Of_encodeRs2 (r : BitVec 6) : rs2Of (encodeRs2 r) = r.setWidth 5 := by
  apply BitVec.eq_of_getLsbD_eq
  intro i hi
  simp only [rs2Of, encodeRs2, regValue, BitVec.getLsbD_extractLsb', BitVec.getLsbD_and,
    BitVec.getLsbD_shiftLeft, BitVec.getLsbD_setWidth]
  interval_cases i <;> simp

/-- The fields from bit 20 on hold the low bits of the immediate. -/
theorem extractLsb'_immPart (v : BitVec 64) {len : Nat} (hlen : len ≤ 12) :
    ((v <<< 20).setWidth 32).extractLsb' 20 len = v.setWidth len := by
  apply BitVec.eq_of_getLsbD_eq
  intro i hi
  simp only [BitVec.getLsbD_extractLsb', BitVec.getLsbD_shiftLeft, BitVec.getLsbD_setWidth]
  grind

end Parts

/-! ## Words with two registers and a part from bit 20 on -/

section Word20

variable {opcode tail mask : Word} (rd rs1 : BitVec 6)

/-- What `asm_emit_r` and `asm_emit_i` put together. -/
def word20 (opcode : Word) (rd rs1 : BitVec 6) (tail : Word) : Word :=
  opcode ||| encodeRd rd ||| encodeRs1 rs1 ||| tail

theorem rdOf_word20 (hopcode : opcode &&& 0xfe00707f#32 = opcode)
    (htail : tail &&& 0xfff00000#32 = tail) : rdOf (word20 opcode rd rs1 tail) = rd.setWidth 5 := by
  have h := rdOf_encodeRd rd
  unfold rdOf at h ⊢
  simp only [word20, BitVec.extractLsb'_or, h, BitVec.zero_or, BitVec.or_zero,
    extractLsb'_eq_zero hopcode (show BitVec.extractLsb' 7 5 _ = 0#5 by decide),
    extractLsb'_eq_zero (encodeRs1_masked rs1) (show BitVec.extractLsb' 7 5 _ = 0#5 by decide),
    extractLsb'_eq_zero htail (show BitVec.extractLsb' 7 5 _ = 0#5 by decide)]

theorem rs1Of_word20 (hopcode : opcode &&& 0xfe00707f#32 = opcode)
    (htail : tail &&& 0xfff00000#32 = tail) :
    rs1Of (word20 opcode rd rs1 tail) = rs1.setWidth 5 := by
  have h := rs1Of_encodeRs1 rs1
  unfold rs1Of at h ⊢
  simp only [word20, BitVec.extractLsb'_or, h, BitVec.zero_or, BitVec.or_zero,
    extractLsb'_eq_zero hopcode (show BitVec.extractLsb' 15 5 _ = 0#5 by decide),
    extractLsb'_eq_zero (encodeRd_masked rd) (show BitVec.extractLsb' 15 5 _ = 0#5 by decide),
    extractLsb'_eq_zero htail (show BitVec.extractLsb' 15 5 _ = 0#5 by decide)]

/-- A field from bit 20 on is that of the last part, if the opcode has none there. -/
theorem extractLsb'_word20 {len : Nat} (hlen : len ≤ 12)
    (hopcode : opcode.extractLsb' 20 len = 0#(len)) :
    (word20 opcode rd rs1 tail).extractLsb' 20 len = tail.extractLsb' 20 len := by
  have hzero : ∀ n : Nat, n ≤ 12 → (0xfffff#32).extractLsb' 20 n = 0#n := by
    intro n hn
    apply BitVec.eq_of_toNat_eq
    simp
  have hrd : (encodeRd rd).extractLsb' 20 len = 0#(len) :=
    extractLsb'_eq_zero (show encodeRd rd &&& 0xfffff#32 = encodeRd rd by
      rw [← encodeRd_masked, BitVec.and_assoc]; rfl) (hzero len hlen)
  have hrs1 : (encodeRs1 rs1).extractLsb' 20 len = 0#(len) :=
    extractLsb'_eq_zero (show encodeRs1 rs1 &&& 0xfffff#32 = encodeRs1 rs1 by
      rw [← encodeRs1_masked, BitVec.and_assoc]; rfl) (hzero len hlen)
  simp only [word20, BitVec.extractLsb'_or, hopcode, hrd, hrs1, BitVec.zero_or]

theorem word20_and (hrd : 0xf80#32 &&& mask = 0#32) (hrs1 : 0xf8000#32 &&& mask = 0#32) :
    word20 opcode rd rs1 tail &&& mask = opcode &&& mask ||| tail &&& mask := by
  simp only [word20, BitVec.and_or_distrib_right, and_eq_zero (encodeRd_masked rd) hrd,
    and_eq_zero (encodeRs1_masked rs1) hrs1, BitVec.or_zero]

end Word20

/-! ## Operands and their fields -/

/-- An integer register. -/
def IsX (r : BitVec 6) : Prop := r < 32#6

instance (r : BitVec 6) : Decidable (IsX r) := inferInstanceAs (Decidable (_ < _))

/-- A field of 5 bits names a register exactly if it is an integer register. -/
theorem ofArg_x_eq_iff (r : BitVec 6) :
    Operand.ofArg (.x (r.setWidth 5)) = .reg r ↔ IsX r := by
  have h : ∀ r : BitVec 6, 0#1 ++ r.setWidth 5 = r ↔ r < 32#6 := by decide
  simp only [Operand.ofArg, Operand.reg.injEq]
  exact h r

theorem ofArg_imm_eq_iff (v v' : BitVec 64) : Operand.ofArg (.imm v') = .imm v ↔ v' = v := by
  simp only [Operand.ofArg, Operand.imm.injEq]

/-- A field of `n` unsigned bits holds an immediate exactly if it is smaller than `2 ^ n`. -/
theorem setWidth_setWidth_eq_iff {n : Nat} (v : BitVec 64) :
    (v.setWidth n).setWidth 64 = v ↔ v.toNat < 2 ^ n := by
  rw [← BitVec.toNat_inj, BitVec.toNat_setWidth, BitVec.toNat_setWidth]
  constructor
  · intro h
    have hlt := Nat.mod_lt v.toNat (Nat.two_pow_pos n)
    have hle := Nat.mod_le (v.toNat % 2 ^ n) (2 ^ 64)
    omega
  · intro h
    rw [Nat.mod_eq_of_lt h, Nat.mod_eq_of_lt v.isLt]

/-! ## Correct words -/

/-- A word that is emitted decodes to the mnemonic and the operands it was asked for. -/
def Correct (m : Mnemonic) (ops : List Operand) (result : Except String Word) : Prop :=
  ∀ w, result = .ok w → ∃ args, decodeMnemonic w = some (m, args) ∧ args.map Operand.ofArg = ops

section Formats

variable {m : Mnemonic} {ops : List Operand} {opcode : Word}

theorem correct_error (message : String) : Correct m ops (.error message) := fun _ h => by cases h

theorem correct_ok_iff (w : Word) :
    Correct m ops (.ok w)
      ↔ w &&& m.format.mask = m.fixed ∧ (m.format.args w).map Operand.ofArg = ops := by
  unfold Correct
  constructor
  · intro h
    obtain ⟨args, hdecode, hargs⟩ := h w rfl
    obtain ⟨hfixed, rfl⟩ := decodeMnemonic_eq_iff.1 hdecode
    exact ⟨hfixed, hargs⟩
  · rintro ⟨hfixed, hargs⟩ w' hw'
    cases hw'
    exact ⟨_, decodeMnemonic_eq_iff.2 ⟨hfixed, rfl⟩, hargs⟩

/-- What has no bits outside of a mask has none outside of a larger one. -/
theorem masked_of_masked {mask' : Word} (hopcode : opcode &&& mask' = opcode)
    {mask : Word} (hmask : mask' &&& mask = mask') : opcode &&& mask = opcode := by
  rw [← hopcode, BitVec.and_assoc, hmask]

/-- The words of the R format. -/
theorem correct_asmEmitR_iff (hm : m.format = .r) (hopcode : opcode &&& 0xfe00707f#32 = opcode)
    (rd rs1 rs2 : BitVec 6) :
    Correct m [.reg rd, .reg rs1, .reg rs2] (asmEmitR opcode (.reg rd) (.reg rs1) (.reg rs2))
      ↔ opcode = m.fixed ∧ IsX rd ∧ IsX rs1 ∧ IsX rs2 := by
  have htail : encodeRs2 rs2 &&& 0xfff00000#32 = encodeRs2 rs2 :=
    masked_of_masked (encodeRs2_masked rs2) (by decide)
  have hmask : word20 opcode rd rs1 (encodeRs2 rs2) &&& Format.r.mask = opcode := by
    rw [word20_and rd rs1 (by decide) (by decide), show Format.r.mask = 0xfe00707f#32 from rfl,
      hopcode, and_eq_zero (encodeRs2_masked rs2) (by decide), BitVec.or_zero]
  have hrs2 : rs2Of (word20 opcode rd rs1 (encodeRs2 rs2)) = rs2.setWidth 5 := by
    rw [rs2Of, extractLsb'_word20 rd rs1 (by decide)
      (extractLsb'_eq_zero hopcode (by decide)), ← rs2Of_encodeRs2]
    rfl
  refine (correct_ok_iff (word20 opcode rd rs1 (encodeRs2 rs2))).trans ?_
  rw [hm, hmask]
  simp only [Format.args, rdOf_word20 rd rs1 hopcode htail, rs1Of_word20 rd rs1 hopcode htail, hrs2,
    List.map_cons, List.map_nil, List.cons.injEq, ofArg_x_eq_iff, and_true]

/-- What `asm_emit_i` emits for two registers and an immediate. -/
theorem correct_asmEmitI (rd rs1 : BitVec 6) (v : BitVec 64) :
    Correct m ops (asmEmitI opcode (.reg rd) (.reg rs1) (.imm v))
      ↔ (isIm12s v →
        word20 opcode rd rs1 ((v <<< 20).setWidth 32) &&& m.format.mask = m.fixed
        ∧ (m.format.args (word20 opcode rd rs1 ((v <<< 20).setWidth 32))).map Operand.ofArg
          = ops) := by
  by_cases hv : isIm12s v
  · have hemit : asmEmitI opcode (.reg rd) (.reg rs1) (.imm v)
        = .ok (word20 opcode rd rs1 ((v <<< 20).setWidth 32)) := by
      simp only [asmEmitI, expectReg, expectIm12s, if_pos hv]
      rfl
    rw [hemit, correct_ok_iff, forall_prop_of_true hv]
  · refine iff_of_true ?_ fun h => absurd h hv
    simp only [asmEmitI, expectReg, expectIm12s, if_neg hv]
    exact correct_error _

/-- An immediate below bit 20 does not touch `opcode`, `funct3` and the registers. -/
theorem word20_imm_and (hopcode : opcode &&& 0x707f#32 = opcode) (rd rs1 : BitVec 6)
    (v : BitVec 64) : word20 opcode rd rs1 ((v <<< 20).setWidth 32) &&& 0x707f#32 = opcode := by
  rw [word20_and rd rs1 (by decide) (by decide), hopcode,
    and_eq_zero (immPart_masked v) (by decide), BitVec.or_zero]

/-- The words of the I format. -/
theorem correct_asmEmitI_iff (hm : m.format = .i) (hopcode : opcode &&& 0x707f#32 = opcode)
    (hfixed : opcode = m.fixed) (rd rs1 : BitVec 6) (v : BitVec 64) :
    Correct m [.reg rd, .reg rs1, .imm v] (asmEmitI opcode (.reg rd) (.reg rs1) (.imm v))
      ↔ (isIm12s v → IsX rd ∧ IsX rs1 ∧ FitsSigned 12 v) := by
  have hop : opcode &&& 0xfe00707f#32 = opcode := masked_of_masked hopcode (by decide)
  have htail := immPart_masked v
  have himm : immI (word20 opcode rd rs1 ((v <<< 20).setWidth 32))
      = (v.setWidth 12).signExtend 64 := by
    rw [immI, extractLsb'_word20 rd rs1 (by decide)
      (extractLsb'_eq_zero hopcode (by decide)), extractLsb'_immPart v (by decide)]
  rw [correct_asmEmitI, hm, show Format.i.mask = 0x707f#32 from rfl, word20_imm_and hopcode]
  simp only [Format.args, rdOf_word20 rd rs1 hop htail, rs1Of_word20 rd rs1 hop htail, himm,
    List.map_cons, List.map_nil, List.cons.injEq, ofArg_x_eq_iff, ofArg_imm_eq_iff,
    signExtend_setWidth_eq_iff (show 0 < 12 by decide) (show 12 ≤ 64 by decide), and_true,
    eq_true hfixed, true_and]

theorem immPart_masked_of_lt {n : Nat} (hn : n = 5 ∨ n = 6) {v : BitVec 64}
    (hv : v.toNat < 2 ^ n) :
    (v <<< 20).setWidth 32 &&& (BitVec.ofNat 32 (2 ^ n - 1) <<< 20) = (v <<< 20).setWidth 32 := by
  have hbit : ∀ (i : Nat) (hi : i < 64), n ≤ i → v[i] = false := fun i _ hi =>
    Nat.testBit_lt_two_pow (lt_of_lt_of_le hv (Nat.pow_le_pow_right (by decide) hi))
  apply BitVec.eq_of_getLsbD_eq
  intro i hi
  simp only [BitVec.getLsbD_and, BitVec.getLsbD_shiftLeft, BitVec.getLsbD_setWidth]
  rcases hn with rfl | rfl <;> interval_cases i <;> simp [hbit]

/-- The words of the I format with a shift amount of `n` bits. -/
theorem correct_shift_iff {n : Nat} {format : Format} (hn : n = 5 ∨ n = 6)
    (hm : m.format = format) (hopcode : opcode &&& 0xfe00707f#32 = opcode)
    (hmask : opcode &&& format.mask = opcode)
    (hamount : (BitVec.ofNat 32 (2 ^ n - 1) <<< 20) &&& format.mask = 0#32)
    (hrd : 0xf80#32 &&& format.mask = 0#32) (hrs1 : 0xf8000#32 &&& format.mask = 0#32)
    (hargs : ∀ w, format.args w
      = [.x (rdOf w), .x (rs1Of w), .imm ((w.extractLsb' 20 n).setWidth 64)])
    (hopn : opcode.extractLsb' 20 n = 0#n) (rd rs1 : BitVec 6) (v : BitVec 64) :
    Correct m [.reg rd, .reg rs1, .imm v] (asmEmitI opcode (.reg rd) (.reg rs1) (.imm v))
      ↔ (isIm12s v → opcode = m.fixed ∧ IsX rd ∧ IsX rs1 ∧ v.toNat < 2 ^ n) := by
  have htail := immPart_masked v
  have hn12 : n ≤ 12 := by omega
  rw [correct_asmEmitI, hm, hargs, extractLsb'_word20 rd rs1 hn12 hopn,
    extractLsb'_immPart v hn12, rdOf_word20 rd rs1 hopcode htail,
    rs1Of_word20 rd rs1 hopcode htail]
  simp only [List.map_cons, List.map_nil, List.cons.injEq, ofArg_x_eq_iff, ofArg_imm_eq_iff,
    setWidth_setWidth_eq_iff, and_true]
  refine forall_congr' fun _ => and_congr_left fun ⟨_, _, hv⟩ => ?_
  rw [word20_and rd rs1 hrd hrs1, hmask, and_eq_zero (immPart_masked_of_lt hn hv) hamount,
    BitVec.or_zero]

/-- The fields of a CSR instruction. -/
theorem correct_csr_iff (hm : m.format = .csr) (hopcode : opcode &&& 0x707f#32 = opcode)
    (hfixed : opcode = m.fixed) (rd rs1 : BitVec 6) (v : BitVec 64) :
    Correct m [.reg rd, .imm v, .reg rs1] (asmEmitI opcode (.reg rd) (.reg rs1) (.imm v))
      ↔ (isIm12s v → IsX rd ∧ v.toNat < 2 ^ 12 ∧ IsX rs1) := by
  have hop : opcode &&& 0xfe00707f#32 = opcode := masked_of_masked hopcode (by decide)
  have htail := immPart_masked v
  rw [correct_asmEmitI, hm, show Format.csr.mask = 0x707f#32 from rfl, word20_imm_and hopcode]
  simp only [Format.args, rdOf_word20 rd rs1 hop htail, rs1Of_word20 rd rs1 hop htail,
    extractLsb'_word20 rd rs1 (le_refl 12) (extractLsb'_eq_zero hopcode (by decide)),
    extractLsb'_immPart v (le_refl 12), List.map_cons, List.map_nil, List.cons.injEq,
    ofArg_x_eq_iff, ofArg_imm_eq_iff, setWidth_setWidth_eq_iff, and_true, eq_true hfixed, true_and]

/-- The same with an immediate in the place of the second register. -/
theorem correct_csri_iff (hm : m.format = .csri) (hopcode : opcode &&& 0x707f#32 = opcode)
    (hfixed : opcode = m.fixed) (rd : BitVec 6) (v : BitVec 64) (c : Operand) :
    Correct m [.reg rd, .imm v, c] (asmEmitI opcode (.reg rd) c.asReg (.imm v))
      ↔ (isIm12s v → IsX rd ∧ v.toNat < 2 ^ 12 ∧ ∃ u, c = .imm u ∧ u.toNat < 2 ^ 5) := by
  have hop : opcode &&& 0xfe00707f#32 = opcode := masked_of_masked hopcode (by decide)
  have htail := immPart_masked v
  cases c with
  | reg r =>
    rw [Operand.asReg, correct_asmEmitI, hm]
    simp [Format.args, Operand.ofArg]
  | imm u =>
    have hu : (u.setWidth 6).setWidth 5 = u.setWidth 5 := BitVec.setWidth_setWidth_of_le u (by decide)
    rw [Operand.asReg, correct_asmEmitI, hm, show Format.csri.mask = 0x707f#32 from rfl,
      word20_imm_and hopcode]
    simp only [Format.args, rdOf_word20 rd _ hop htail, rs1Of_word20 rd _ hop htail, hu,
      extractLsb'_word20 rd _ (le_refl 12) (extractLsb'_eq_zero hopcode (by decide)),
      extractLsb'_immPart v (le_refl 12), List.map_cons, List.map_nil, List.cons.injEq,
      ofArg_x_eq_iff, ofArg_imm_eq_iff, setWidth_setWidth_eq_iff, and_true, eq_true hfixed, true_and,
      Operand.imm.injEq, exists_eq_left']

/-- The two parts of a store's immediate. -/
def storeImm (v : BitVec 64) : Word :=
  (((v.setWidth 16).setWidth 32 &&& 0x1f#32) <<< 7)
    ||| (((v.setWidth 16).setWidth 32 >>> 5) <<< 25)

theorem storeImm_masked (v : BitVec 64) : storeImm v &&& 0xfe000f80#32 = storeImm v := by
  apply BitVec.eq_of_getLsbD_eq
  intro i hi
  simp only [storeImm, BitVec.getLsbD_and, BitVec.getLsbD_or, BitVec.getLsbD_shiftLeft,
    BitVec.getLsbD_ushiftRight, BitVec.getLsbD_setWidth]
  interval_cases i <;> simp

theorem immS_storeImm (v : BitVec 64) : immS (storeImm v) = (v.setWidth 12).signExtend 64 := by
  rw [immS]
  congr 1
  apply BitVec.eq_of_getLsbD_eq
  intro i hi
  simp only [storeImm, BitVec.getLsbD_append, BitVec.getLsbD_extractLsb', BitVec.getLsbD_and,
    BitVec.getLsbD_or, BitVec.getLsbD_shiftLeft, BitVec.getLsbD_ushiftRight,
    BitVec.getLsbD_setWidth]
  interval_cases i <;> simp

/-- The words of the S format. -/
theorem correct_asmEmitS_iff (hm : m.format = .s) (hopcode : opcode &&& 0x707f#32 = opcode)
    (hfixed : opcode = m.fixed) (rs2 rs1 : BitVec 6) (v : BitVec 64) :
    Correct m [.reg rs2, .reg rs1, .imm v] (asmEmitS opcode (.reg rs1) (.reg rs2) (.imm v))
      ↔ (isIm12s v → IsX rs2 ∧ IsX rs1 ∧ FitsSigned 12 v) := by
  by_cases hv : isIm12s v
  · have hemit : asmEmitS opcode (.reg rs1) (.reg rs2) (.imm v)
        = .ok (opcode ||| encodeRs1 rs1 ||| encodeRs2 rs2 ||| storeImm v) := by
      simp only [asmEmitS, expectReg, expectIm12s, if_pos hv, storeImm, ← BitVec.or_assoc]
      rfl
    have hmask : (opcode ||| encodeRs1 rs1 ||| encodeRs2 rs2 ||| storeImm v) &&& 0x707f#32
        = opcode := by
      simp only [BitVec.and_or_distrib_right, hopcode, BitVec.or_zero,
        and_eq_zero (encodeRs1_masked rs1) (show _ &&& 0x707f#32 = _ by decide),
        and_eq_zero (encodeRs2_masked rs2) (show _ &&& 0x707f#32 = _ by decide),
        and_eq_zero (storeImm_masked v) (show _ &&& 0x707f#32 = _ by decide)]
    have hrs1 : rs1Of (opcode ||| encodeRs1 rs1 ||| encodeRs2 rs2 ||| storeImm v)
        = rs1.setWidth 5 := by
      have h := rs1Of_encodeRs1 rs1
      unfold rs1Of at h ⊢
      simp only [BitVec.extractLsb'_or, h, BitVec.zero_or, BitVec.or_zero,
        extractLsb'_eq_zero hopcode (show BitVec.extractLsb' 15 5 _ = 0#5 by decide),
        extractLsb'_eq_zero (encodeRs2_masked rs2) (show BitVec.extractLsb' 15 5 _ = 0#5 by decide),
        extractLsb'_eq_zero (storeImm_masked v) (show BitVec.extractLsb' 15 5 _ = 0#5 by decide)]
    have hrs2 : rs2Of (opcode ||| encodeRs1 rs1 ||| encodeRs2 rs2 ||| storeImm v)
        = rs2.setWidth 5 := by
      have h := rs2Of_encodeRs2 rs2
      unfold rs2Of at h ⊢
      simp only [BitVec.extractLsb'_or, h, BitVec.zero_or, BitVec.or_zero,
        extractLsb'_eq_zero hopcode (show BitVec.extractLsb' 20 5 _ = 0#5 by decide),
        extractLsb'_eq_zero (encodeRs1_masked rs1) (show BitVec.extractLsb' 20 5 _ = 0#5 by decide),
        extractLsb'_eq_zero (storeImm_masked v) (show BitVec.extractLsb' 20 5 _ = 0#5 by decide)]
    have himm : immS (opcode ||| encodeRs1 rs1 ||| encodeRs2 rs2 ||| storeImm v)
        = (v.setWidth 12).signExtend 64 := by
      have h := immS_storeImm v
      unfold immS at h ⊢
      simp only [BitVec.extractLsb'_or, h, BitVec.zero_or,
        extractLsb'_eq_zero hopcode (show BitVec.extractLsb' 25 7 _ = 0#7 by decide),
        extractLsb'_eq_zero hopcode (show BitVec.extractLsb' 7 5 _ = 0#5 by decide),
        extractLsb'_eq_zero (encodeRs1_masked rs1) (show BitVec.extractLsb' 25 7 _ = 0#7 by decide),
        extractLsb'_eq_zero (encodeRs1_masked rs1) (show BitVec.extractLsb' 7 5 _ = 0#5 by decide),
        extractLsb'_eq_zero (encodeRs2_masked rs2) (show BitVec.extractLsb' 25 7 _ = 0#7 by decide),
        extractLsb'_eq_zero (encodeRs2_masked rs2) (show BitVec.extractLsb' 7 5 _ = 0#5 by decide)]
    rw [hemit, correct_ok_iff, hm, show Format.s.mask = 0x707f#32 from rfl, hmask]
    simp only [Format.args, hrs1, hrs2, himm, List.map_cons, List.map_nil, List.cons.injEq,
      ofArg_x_eq_iff, ofArg_imm_eq_iff,
      signExtend_setWidth_eq_iff (show 0 < 12 by decide) (show 12 ≤ 64 by decide), and_true,
      eq_true hfixed, true_and, hv, forall_const]
  · refine iff_of_true ?_ fun h => absurd h hv
    simp only [asmEmitS, expectReg, expectIm12s, if_neg hv]
    exact correct_error _

/-- The words of the U format. -/
theorem correct_asmEmitU_iff (hm : m.format = .u) (hopcode : opcode &&& 0x7f#32 = opcode)
    (hfixed : opcode = m.fixed) (rd : BitVec 6) (v : BitVec 64) :
    Correct m [.reg rd, .imm v] (asmEmitU opcode (.reg rd) (.imm v))
      ↔ (v.toNat < 0x100000 → IsX rd) := by
  have himm : (v <<< 12).setWidth 32 &&& 0xfffff000#32 = (v <<< 12).setWidth 32 := by
    apply BitVec.eq_of_getLsbD_eq
    intro i hi
    simp only [BitVec.getLsbD_and, BitVec.getLsbD_shiftLeft, BitVec.getLsbD_setWidth]
    interval_cases i <;> simp
  have hfield : ((v <<< 12).setWidth 32).extractLsb' 12 20 = v.setWidth 20 := by
    apply BitVec.eq_of_getLsbD_eq
    intro i hi
    simp only [BitVec.getLsbD_extractLsb', BitVec.getLsbD_shiftLeft, BitVec.getLsbD_setWidth]
    grind
  by_cases hv : v.toNat < 0x100000
  · have hlt : ¬0x100000#64 ≤ v := by
      rw [BitVec.le_def]
      simpa using hv
    have hemit : asmEmitU opcode (.reg rd) (.imm v)
        = .ok (opcode ||| encodeRd rd ||| (v <<< 12).setWidth 32) := by
      simp only [asmEmitU, expectReg, expectImm, Except.bind, bind, if_neg hlt]
      rfl
    have hmask : (opcode ||| encodeRd rd ||| (v <<< 12).setWidth 32) &&& 0x7f#32 = opcode := by
      simp only [BitVec.and_or_distrib_right, hopcode, BitVec.or_zero,
        and_eq_zero (encodeRd_masked rd) (show _ &&& 0x7f#32 = _ by decide),
        and_eq_zero himm (show _ &&& 0x7f#32 = _ by decide)]
    have hrd : rdOf (opcode ||| encodeRd rd ||| (v <<< 12).setWidth 32) = rd.setWidth 5 := by
      have h := rdOf_encodeRd rd
      unfold rdOf at h ⊢
      simp only [BitVec.extractLsb'_or, h, BitVec.zero_or, BitVec.or_zero,
        extractLsb'_eq_zero hopcode (show BitVec.extractLsb' 7 5 _ = 0#5 by decide),
        extractLsb'_eq_zero himm (show BitVec.extractLsb' 7 5 _ = 0#5 by decide)]
    rw [hemit, correct_ok_iff, hm, show Format.u.mask = 0x7f#32 from rfl, hmask]
    simp only [Format.args, hrd, BitVec.extractLsb'_or, hfield, BitVec.zero_or,
      extractLsb'_eq_zero hopcode (show BitVec.extractLsb' 12 20 _ = 0#20 by decide),
      extractLsb'_eq_zero (encodeRd_masked rd) (show BitVec.extractLsb' 12 20 _ = 0#20 by decide),
      List.map_cons, List.map_nil, List.cons.injEq, ofArg_x_eq_iff, ofArg_imm_eq_iff,
      setWidth_setWidth_eq_iff, eq_true hfixed, true_and, and_true]
    simp [hv]
  · have hle : 0x100000#64 ≤ v := by
      rw [BitVec.le_def]
      simpa using hv
    refine iff_of_true ?_ fun h => absurd h hv
    simp only [asmEmitU, expectReg, expectImm, Except.bind, bind, if_pos hle]
    exact correct_error _

/-- A `fence` that is emitted has the two sets it was asked for. -/
theorem correct_asmFenceOpcode (pred succ : BitVec 64) :
    Correct .fence [.imm pred, .imm succ] (asmFenceOpcode pred succ) := by
  have hword : ∀ p q : BitVec 4,
      let w := 0x3#32 <<< 2 ||| 3#32 ||| 0#32 <<< 12 ||| ((q.setWidth 64).setWidth 32) <<< 20
        ||| ((p.setWidth 64).setWidth 32) <<< 24
      w &&& Format.fence.mask = Mnemonic.fence.fixed ∧ w.extractLsb' 24 4 = p
        ∧ w.extractLsb' 20 4 = q := by
    decide +kernel
  have hsmall : ∀ v : BitVec 64, ¬0xf#64 < v → (v.setWidth 4).setWidth 64 = v := by
    intro v hv
    rw [setWidth_setWidth_eq_iff]
    rw [BitVec.lt_def] at hv
    simp only [BitVec.toNat_ofNat] at hv
    omega
  unfold asmFenceOpcode
  split
  · exact correct_error _
  · next hpred =>
    split
    · exact correct_error _
    · next hsucc =>
      obtain ⟨hfixed, hp, hq⟩ := hword (pred.setWidth 4) (succ.setWidth 4)
      rw [hsmall pred hpred, hsmall succ hsucc] at hfixed hp hq
      refine (correct_ok_iff _).2 ⟨hfixed, ?_⟩
      simp only [Mnemonic.format, Format.args, hp, hq, List.map_cons, List.map_nil, Operand.ofArg,
        hsmall pred hpred, hsmall succ hsucc]

end Formats

/-! ## All base instructions -/

/-- The operands for which a mnemonic is assembled as it should be: those that are rejected, and
those that fit the fields of its format, if its opcode is right. -/
def AssemblesWell (m : Mnemonic) (ops : List Operand) : Prop :=
  match m.format, ops with
  | .r, [.reg rd, .reg rs1, .reg rs2] => (m ≠ .srl ∧ m ≠ .sraw) ∧ IsX rd ∧ IsX rs1 ∧ IsX rs2
  | .i, [.reg rd, .reg rs1, .imm v] => isIm12s v → IsX rd ∧ IsX rs1 ∧ FitsSigned 12 v
  | .s, [.reg rs2, .reg rs1, .imm v] => isIm12s v → IsX rs2 ∧ IsX rs1 ∧ FitsSigned 12 v
  | .shift, [.reg rd, .reg rs1, .imm v] => isIm12s v → IsX rd ∧ IsX rs1 ∧ v.toNat < 2 ^ 6
  | .shiftw, [.reg rd, .reg rs1, .imm v] =>
    isIm12s v → m ≠ .sraiw ∧ IsX rd ∧ IsX rs1 ∧ v.toNat < 2 ^ 5
  | .u, [.reg rd, .imm v] => v.toNat < 0x100000 → IsX rd
  | .csr, [.reg rd, .imm v, .reg rs1] => isIm12s v → IsX rd ∧ v.toNat < 2 ^ 12 ∧ IsX rs1
  | .csri, [.reg rd, .imm v, c] =>
    isIm12s v → IsX rd ∧ v.toNat < 2 ^ 12 ∧ ∃ u, c = .imm u ∧ u.toNat < 2 ^ 5
  | _, _ => True

section Handlers

variable {m : Mnemonic} {opcode : Word} (ops : List Operand)

theorem assembles_r (hm : m.format = .r) (hopcode : opcode &&& 0xfe00707f#32 = opcode)
    (hfixed : opcode = m.fixed ↔ m ≠ .srl ∧ m ≠ .sraw) :
    Correct m ops (operands3 (asmEmitR opcode) ops) ↔ AssemblesWell m ops := by
  unfold AssemblesWell
  rw [hm]
  rcases ops with _ | ⟨rd | _, _ | ⟨rs1 | _, _ | ⟨rs2 | _, _ | ⟨_, _⟩⟩⟩⟩
  case cons.reg.cons.reg.cons.reg.nil =>
    exact (correct_asmEmitR_iff hm hopcode rd rs1 rs2).trans (and_congr_left' hfixed)
  all_goals exact iff_of_true (correct_error _) trivial

theorem assembles_i (hm : m.format = .i) (hopcode : opcode &&& 0x707f#32 = opcode)
    (hfixed : opcode = m.fixed) :
    Correct m ops (operands3 (asmEmitI opcode) ops) ↔ AssemblesWell m ops := by
  unfold AssemblesWell
  rw [hm]
  rcases ops with _ | ⟨rd | _, _ | ⟨rs1 | _, _ | ⟨_ | v, _ | ⟨_, _⟩⟩⟩⟩
  case cons.reg.cons.reg.cons.imm.nil => exact correct_asmEmitI_iff hm hopcode hfixed rd rs1 v
  all_goals exact iff_of_true (correct_error _) trivial

theorem assembles_shift (hm : m.format = .shift) (hopcode : opcode &&& 0xfc00707f#32 = opcode)
    (hfixed : opcode = m.fixed) :
    Correct m ops (operands3 (asmEmitI opcode) ops) ↔ AssemblesWell m ops := by
  have hop : opcode &&& 0xfe00707f#32 = opcode := masked_of_masked hopcode (by decide)
  unfold AssemblesWell
  rw [hm]
  rcases ops with _ | ⟨rd | _, _ | ⟨rs1 | _, _ | ⟨_ | v, _ | ⟨_, _⟩⟩⟩⟩
  case cons.reg.cons.reg.cons.imm.nil =>
    refine (correct_shift_iff (n := 6) (Or.inr rfl) hm hop hopcode (by decide) (by decide)
      (by decide) (fun _ => rfl) (extractLsb'_eq_zero hopcode (by decide)) rd rs1 v).trans ?_
    simp only [eq_true hfixed, true_and]
  all_goals exact iff_of_true (correct_error _) trivial

theorem assembles_shiftw (hm : m.format = .shiftw) (hopcode : opcode &&& 0xfe00707f#32 = opcode)
    (hfixed : opcode = m.fixed ↔ m ≠ .sraiw) :
    Correct m ops (operands3 (asmEmitI opcode) ops) ↔ AssemblesWell m ops := by
  unfold AssemblesWell
  rw [hm]
  rcases ops with _ | ⟨rd | _, _ | ⟨rs1 | _, _ | ⟨_ | v, _ | ⟨_, _⟩⟩⟩⟩
  case cons.reg.cons.reg.cons.imm.nil =>
    refine (correct_shift_iff (n := 5) (Or.inl rfl) hm hopcode hopcode (by decide) (by decide)
      (by decide) (fun _ => rfl) (extractLsb'_eq_zero hopcode (by decide)) rd rs1 v).trans ?_
    simp only [hfixed]
  all_goals exact iff_of_true (correct_error _) trivial

theorem assembles_s (hm : m.format = .s) (hopcode : opcode &&& 0x707f#32 = opcode)
    (hfixed : opcode = m.fixed) :
    Correct m ops (operands3 (fun x y imm => asmEmitS opcode y x imm) ops)
      ↔ AssemblesWell m ops := by
  unfold AssemblesWell
  rw [hm]
  rcases ops with _ | ⟨rs2 | _, _ | ⟨rs1 | _, _ | ⟨_ | v, _ | ⟨_, _⟩⟩⟩⟩
  case cons.reg.cons.reg.cons.imm.nil => exact correct_asmEmitS_iff hm hopcode hfixed rs2 rs1 v
  all_goals exact iff_of_true (correct_error _) trivial

theorem assembles_csr (hm : m.format = .csr) (hopcode : opcode &&& 0x707f#32 = opcode)
    (hfixed : opcode = m.fixed) :
    Correct m ops (operands3 (fun a b c => asmEmitI opcode a c b) ops) ↔ AssemblesWell m ops := by
  unfold AssemblesWell
  rw [hm]
  rcases ops with _ | ⟨rd | _, _ | ⟨_ | v, _ | ⟨rs1 | _, _ | ⟨_, _⟩⟩⟩⟩
  case cons.reg.cons.imm.cons.reg.nil => exact correct_csr_iff hm hopcode hfixed rd rs1 v
  all_goals exact iff_of_true (correct_error _) trivial

theorem assembles_csri (hm : m.format = .csri) (hopcode : opcode &&& 0x707f#32 = opcode)
    (hfixed : opcode = m.fixed) :
    Correct m ops (operands3 (fun a b c => asmEmitI opcode a c.asReg b) ops)
      ↔ AssemblesWell m ops := by
  unfold AssemblesWell
  rw [hm]
  rcases ops with _ | ⟨rd | _, _ | ⟨_ | v, _ | ⟨c, _ | ⟨_, _⟩⟩⟩⟩
  case cons.reg.cons.imm.cons.nil => exact correct_csri_iff hm hopcode hfixed rd v c
  case cons.reg.cons.reg.cons.nil | cons.imm.cons.reg.cons.nil | cons.imm.cons.imm.cons.nil =>
    cases c <;> exact iff_of_true (correct_error _) trivial
  all_goals exact iff_of_true (correct_error _) trivial

theorem assembles_u (hm : m.format = .u) (hopcode : opcode &&& 0x7f#32 = opcode)
    (hfixed : opcode = m.fixed) :
    Correct m ops (operands2 (asmEmitU opcode) ops) ↔ AssemblesWell m ops := by
  unfold AssemblesWell
  rw [hm]
  rcases ops with _ | ⟨rd | _, _ | ⟨_ | v, _ | ⟨_, _⟩⟩⟩
  case cons.reg.cons.imm.nil => exact correct_asmEmitU_iff hm hopcode hfixed rd v
  all_goals exact iff_of_true (correct_error _) trivial

end Handlers

/-- **Base instructions are assembled as the manual lists them**, exactly for these mnemonics and
operands. -/
theorem correct_asmOpcode_iff (m : Mnemonic) (ops : List Operand) :
    Correct m ops (asmOpcode m ops) ↔ AssemblesWell m ops := by
  cases m
  case lui | auipc => exact assembles_u ops rfl (by decide) (by decide)
  case jalr | lb | lh | lw | ld | lbu | lhu | lwu | addi | slti | sltiu | xori | ori | andi
      | addiw =>
    exact assembles_i ops rfl (by decide) (by decide)
  case sb | sh | sw | sd => exact assembles_s ops rfl (by decide) (by decide)
  case slli | srli | srai => exact assembles_shift ops rfl (by decide) (by decide)
  case slliw | srliw | sraiw => exact assembles_shiftw ops rfl (by decide) (by decide)
  case csrrw | csrrs | csrrc => exact assembles_csr ops rfl (by decide) (by decide)
  case csrrwi | csrrsi | csrrci => exact assembles_csri ops rfl (by decide) (by decide)
  case ecall | ebreak =>
    cases ops with
    | nil => exact iff_of_true ((correct_ok_iff _).2 (by decide)) trivial
    | cons a ops => exact iff_of_true (correct_error _) trivial
  case fence =>
    refine iff_of_true ?_ trivial
    rcases ops with _ | ⟨_ | pred, _ | ⟨_ | succ, _ | ⟨c, rest⟩⟩⟩
    case cons.imm.cons.imm.nil => exact correct_asmFenceOpcode pred succ
    all_goals exact correct_error _
  all_goals exact assembles_r ops rfl (by decide) (by decide)

/-- `srl a0, a1, a2` is assembled as `xor a0, a1, a2`. -/
theorem asmOpcode_srl :
    ¬Correct .srl [.reg 10, .reg 11, .reg 12]
        (asmOpcode .srl [.reg 10, .reg 11, .reg 12]) := by
  intro h
  obtain ⟨args, hdecode, -⟩ := h 0x00c5c533#32 (by decide)
  rw [decodeMnemonic_eq_iff] at hdecode
  exact absurd hdecode.1 (by decide)

end TccRiscv64.Asm
