import TccRiscv64.Asm.BaseCorrect
import TccRiscv64.Gen.LoadConst

set_option autoImplicit false

/-! # The pseudo-instruction `li`

The assembler expands `li rd, c` to eight instructions, whatever the constant is. The first seven are
those of the compiler's `load_large_constant`, with the same rounding of the low word, so that the
two go wrong for the same constants. -/

namespace TccRiscv64.Asm

open Isa Gen

/-! ## The expansion -/

/-- The case `TOK_ASM_li` of `asm_binary_opcode`. The operand `imm` has the type `OP_IM12S`
throughout. -/
def asmLi (rd c : Operand) : Except String (List Word) := do
  let v ← expectImm ("Expected first source operand that is an immediate value between 0 and " ++
    "0xFFFFFFFFFFFFFFFF") c
  let lo := v.setWidth 32
  let hi := (v.sshiftRight 32).setWidth 32
  let hi := if lo.msb then hi + 1#32 else hi
  let w1 ← asmEmitU (0xD#32 <<< 2 ||| 3#32) rd
    (.imm ((((hi + 0x800#32) &&& 0xfffff000#32) >>> 12).setWidth 64))
  let w2 ← asmEmitI (3#32 ||| 4#32 <<< 2) rd rd (.imm (((hi <<< 20).sshiftRight 20).signExtend 64))
  let w3 ← asmEmitI (4#32 <<< 2 ||| 3#32 ||| 1#32 <<< 12) rd rd (.imm 12#64)
  let w4 ← asmEmitI (3#32 ||| 4#32 <<< 2) rd rd
    (.imm (((lo + 1#32 <<< 19).sshiftRight 20).signExtend 64))
  let w5 ← asmEmitI (4#32 <<< 2 ||| 3#32 ||| 1#32 <<< 12) rd rd (.imm 12#64)
  let lo := (lo <<< 12).sshiftRight 12
  let w6 ← asmEmitI (3#32 ||| 4#32 <<< 2) rd rd (.imm ((lo.sshiftRight 8).signExtend 64))
  let w7 ← asmEmitI (4#32 <<< 2 ||| 3#32 ||| 1#32 <<< 12) rd rd (.imm 8#64)
  let lo := lo &&& 0xff#32
  let w8 ← asmEmitI (3#32 ||| 4#32 <<< 2) rd rd
    (.imm (((lo <<< 20).sshiftRight 20).signExtend 64))
  pure [w1, w2, w3, w4, w5, w6, w7, w8]

/-- `li rd, c` is accepted, and leaves exactly the constant in the register, and everything else as it
was. -/
def LiLeaves (rd : XReg) (c : BitVec 64) : Prop :=
  ∃ ws, asmLi (.ofArg (.x rd)) (.imm c) = .ok ws ∧
    ∀ m, ∃ m', run ws m = some m' ∧ SameBut rd m m' ∧ m'.reg rd = c

/-! ## The words -/

theorem regValue_x (r : XReg) : regValue (0#1 ++ r) = r.setWidth 32 := by
  revert r
  decide

theorem fits12_toInt_bounds {imm : BitVec 32} (h : Fits12 imm) :
    -2048 ≤ imm.toInt ∧ imm.toInt < 2048 := by
  obtain ⟨_, -, hlo, hhi⟩ := toInt_low12 imm
  rw [← (fits12_iff imm).mp h]
  exact ⟨hlo, hhi⟩

theorem fits12_of_ei {opcode : BitVec 7} {func3 : BitVec 3} {rd rs1 : XReg} {imm : BitVec 32}
    {w : Word} (h : ei opcode func3 rd rs1 imm = some w) : Fits12 imm := by
  unfold ei at h
  split at h
  · assumption
  · cases h

theorem isIm12s_signExtend {imm : BitVec 32} (h : Fits12 imm) :
    isIm12s (imm.signExtend 64) = true := by
  have hlow : (imm.signExtend 64).setWidth 32 = imm := by
    apply BitVec.eq_of_getLsbD_eq
    intro i hi
    simp only [BitVec.getLsbD_setWidth, BitVec.getLsbD_signExtend]
    grind
  have := fits12_toInt_bounds h
  rw [isIm12s, hlow, decide_eq_true_eq]
  omega

/-- An instruction of the I format, as the compiler encodes it. -/
theorem asmEmitI_eq_eiu (rd rs1 : XReg) (opcode : BitVec 7) (func3 : BitVec 3) {imm : BitVec 32}
    (h : Fits12 imm) :
    asmEmitI (opcode.setWidth 32 ||| func3.setWidth 32 <<< 12) (.ofArg (.x rd)) (.ofArg (.x rs1))
      (.imm (imm.signExtend 64)) = .ok (eiu opcode func3 rd rs1 imm) := by
  have himm : (imm.signExtend 64 <<< 20).setWidth 32 = imm <<< 20 := by
    apply BitVec.eq_of_getLsbD_eq
    intro i hi
    simp only [BitVec.getLsbD_setWidth, BitVec.getLsbD_shiftLeft, BitVec.getLsbD_signExtend]
    grind
  simp only [asmEmitI, Operand.ofArg, expectReg, expectIm12s, isIm12s_signExtend h, if_true,
    Except.bind, bind, pure, Except.pure, encodeRd, encodeRs1, regValue_x, himm]
  rfl

/-- `lui` with the upper part of a number, as the compiler encodes it. -/
theorem asmEmitU_eq_oLui (rd : XReg) (hi : BitVec 32) :
    asmEmitU (0xD#32 <<< 2 ||| 3#32) (.ofArg (.x rd))
      (.imm ((((hi + 0x800#32) &&& 0xfffff000#32) >>> 12).setWidth 64)) = .ok (oLui rd hi) := by
  have hsmall : ¬ 0x100000#64 ≤ (((hi + 0x800#32) &&& 0xfffff000#32) >>> 12).setWidth 64 := by
    generalize (hi + 0x800#32) &&& 0xfffff000#32 = u
    rw [BitVec.le_def, BitVec.toNat_setWidth, BitVec.toNat_ushiftRight,
      Nat.shiftRight_eq_div_pow]
    have := u.isLt
    simp only [BitVec.toNat_ofNat]
    omega
  have hupper : ((((hi + 0x800#32) &&& 0xfffff000#32) >>> 12).setWidth 64 <<< 12).setWidth 32 =
      (0x800#32 + hi) &&& 0xfffff000#32 := by
    rw [BitVec.add_comm]
    generalize 0x800#32 + hi = u
    apply BitVec.eq_of_getLsbD_eq
    intro i hi
    simp only [BitVec.getLsbD_setWidth, BitVec.getLsbD_shiftLeft, BitVec.getLsbD_ushiftRight,
      BitVec.getLsbD_and]
    interval_cases i <;> simp
  simp only [asmEmitU, Operand.ofArg, expectReg, expectImm, Except.bind, bind, pure, Except.pure,
    if_neg hsmall, encodeRd, regValue_x, hupper]
  rfl

theorem shiftLeft_sshiftRight_20 (x : BitVec 32) : (x <<< 20).sshiftRight 20 = low12 x := by
  apply BitVec.eq_of_getLsbD_eq
  intro i hi
  simp only [low12, BitVec.getLsbD_sshiftRight, BitVec.getLsbD_shiftLeft, BitVec.getLsbD_signExtend,
    BitVec.getLsbD_setWidth, BitVec.msb_eq_getLsbD_last]
  interval_cases i <;> simp

/-- The last byte is not changed by what was done to the low word before. -/
theorem lowByte_of_low20 (lo : BitVec 32) :
    low12 ((lo <<< 12).sshiftRight 12 &&& 0xff#32) = lo &&& 0xff#32 := by
  have hbyte : (lo <<< 12).sshiftRight 12 &&& 0xff#32 = lo &&& 0xff#32 := by
    apply BitVec.eq_of_getLsbD_eq
    intro i hi
    simp only [BitVec.getLsbD_sshiftRight, BitVec.getLsbD_shiftLeft, BitVec.getLsbD_and]
    interval_cases i <;> simp
  rw [hbyte, (fits12_iff _).mp (fits12_lowByte lo)]

theorem bind_of_ok {α β : Type} {x : Except String α} {a : α} (h : x = .ok a)
    (f : α → Except String β) : (x >>= f) = f a := by
  rw [h]
  rfl

/-- The expansion is the compiler's code for a large constant, followed by the addition of the lowest
byte. -/
theorem asmLi_eq (rd : XReg) {c : BitVec 64} {ws : List Word}
    (h : loadLargeConstant rd (lowWord c) (c.extractLsb' 32 32) = some ws) :
    asmLi (.ofArg (.x rd)) (.imm c) =
      .ok (ws ++ [eiu 0x13#7 0#3 rd rd (lowWord c &&& 0xff#32)]) := by
  have hhigh : (c.sshiftRight 32).setWidth 32 = c.extractLsb' 32 32 := by
    apply BitVec.eq_of_getLsbD_eq
    intro i hi
    simp only [BitVec.getLsbD_setWidth, BitVec.getLsbD_sshiftRight, BitVec.getLsbD_extractLsb']
    grind
  have haddi {imm : BitVec 32} (himm : Fits12 imm) : asmEmitI (3#32 ||| 4#32 <<< 2)
      (.ofArg (.x rd)) (.ofArg (.x rd)) (.imm (imm.signExtend 64)) =
        .ok (eiu 0x13#7 0#3 rd rd imm) := by
    rw [show 3#32 ||| 4#32 <<< 2 = (0x13#7).setWidth 32 ||| (0#3).setWidth 32 <<< 12 by decide]
    exact asmEmitI_eq_eiu rd rd 0x13#7 0#3 himm
  have hslli {imm : BitVec 32} (himm : Fits12 imm) : asmEmitI
      (4#32 <<< 2 ||| 3#32 ||| 1#32 <<< 12) (.ofArg (.x rd)) (.ofArg (.x rd))
      (.imm (imm.signExtend 64)) = .ok (eiu 0x13#7 1#3 rd rd imm) := by
    rw [show 4#32 <<< 2 ||| 3#32 ||| 1#32 <<< 12 =
      (0x13#7).setWidth 32 ||| (1#3).setWidth 32 <<< 12 by decide]
    exact asmEmitI_eq_eiu rd rd 0x13#7 1#3 himm
  unfold loadLargeConstant at h
  obtain ⟨w1, h1, h⟩ := Option.bind_eq_some_iff.1 h
  obtain ⟨w2, h2, h⟩ := Option.bind_eq_some_iff.1 h
  obtain ⟨w3, h3, h⟩ := Option.bind_eq_some_iff.1 h
  obtain ⟨w4, h4, h⟩ := Option.bind_eq_some_iff.1 h
  obtain ⟨w5, h5, h⟩ := Option.bind_eq_some_iff.1 h
  obtain ⟨w6, h6, h⟩ := Option.bind_eq_some_iff.1 h
  obtain rfl := (Option.some.inj h).symm
  unfold asmLi
  rw [bind_of_ok (show expectImm _ (.imm c) = .ok c from rfl)]
  simp only [hhigh, show c.setWidth 32 = lowWord c from rfl,
    show 1#32 <<< 19 = 0x80000#32 from rfl, shiftLeft_sshiftRight_20, lowByte_of_low20,
    show 12#64 = (12#32).signExtend 64 from rfl, show 8#64 = (8#32).signExtend 64 from rfl]
  rw [bind_of_ok (asmEmitU_eq_oLui rd _), bind_of_ok (haddi (fits12_of_ei h1)),
    bind_of_ok (hslli (fits12_of_ei h2)), bind_of_ok (haddi (fits12_of_ei h3)),
    bind_of_ok (hslli (fits12_of_ei h2)), bind_of_ok (haddi (fits12_of_ei h5)),
    bind_of_ok (hslli (fits12_of_ei h6)), bind_of_ok (haddi (fits12_lowByte _)),
    ei_eq_some h1, ei_eq_some h2, ei_eq_some h3, ei_eq_some h4, ei_eq_some h5, ei_eq_some h6]
  rfl

/-! ## What is left in the register -/

/-- The expansion leaves the constant, with one less in the high word if rounding overflows. -/
theorem asmLi_leaves {rd : XReg} (hrd : rd ≠ 0#5) (c : BitVec 64) :
    ∃ ws, asmLi (.ofArg (.x rd)) (.imm c) = .ok ws ∧
      ∀ m, ∃ m', run ws m = some m' ∧ SameBut rd m m' ∧ m'.reg rd = largeConst c := by
  obtain ⟨ws, a, hws, hmakes, ha⟩ := loadLargeConstant_makes hrd (lowWord c) (c.extractLsb' 32 32)
  refine ⟨_, asmLi_eq rd hws, fun m => ?_⟩
  obtain ⟨m', hrun, hsame, hreg⟩ := hmakes.addi hrd (fits12_lowByte (lowWord c)) m
  exact ⟨m', hrun, hsame, hreg.trans (largeValue_add_lowByte c ha)⟩

/-- In the register `x0` nothing is left. -/
theorem asmLi_zero (c : BitVec 64) :
    ∃ ws, asmLi (.ofArg (.x 0#5)) (.imm c) = .ok ws ∧
      ∀ m, ∃ m', run ws m = some m' ∧ SameBut 0#5 m m' := by
  obtain ⟨ws, hws⟩ := exists_loadLargeConstant 0#5 (lowWord c) (c.extractLsb' 32 32)
  refine ⟨_, asmLi_eq 0#5 hws, run_of_sets fun w hw => ?_⟩
  rcases List.mem_append.1 hw with hw | hw
  · exact loadLargeConstant_sets hws w hw
  · obtain rfl := List.mem_singleton.1 hw
    exact sets_addi (ei_of_fits12 (fits12_lowByte (lowWord c)))

theorem liLeaves_iff_largeConst {rd : XReg} (hrd : rd ≠ 0#5) (c : BitVec 64) :
    LiLeaves rd c ↔ largeConst c = c := by
  obtain ⟨ws, hws, hrun⟩ := asmLi_leaves hrd c
  constructor
  · rintro ⟨ws', hws', hrun'⟩
    obtain rfl := Except.ok.inj (hws.symm.trans hws')
    obtain ⟨m', hm', -, hreg⟩ := hrun ⟨fun _ => 0, fun _ => 0⟩
    obtain ⟨m'', hm'', -, hreg'⟩ := hrun' ⟨fun _ => 0, fun _ => 0⟩
    obtain rfl := Option.some.inj (hm'.symm.trans hm'')
    exact hreg.symm.trans hreg'
  · intro heq
    refine ⟨ws, hws, fun m => ?_⟩
    obtain ⟨m', hm', hsame, hreg⟩ := hrun m
    exact ⟨m', hm', hsame, hreg.trans heq⟩

theorem liLeaves_zero_iff (c : BitVec 64) : LiLeaves 0#5 c ↔ c = 0#64 := by
  obtain ⟨ws, hws, hrun⟩ := asmLi_zero c
  constructor
  · rintro ⟨ws', -, hrun'⟩
    obtain ⟨m', -, -, hreg⟩ := hrun' ⟨fun _ => 0, fun _ => 0⟩
    exact hreg.symm
  · rintro rfl
    refine ⟨ws, hws, fun m => ?_⟩
    obtain ⟨m', hm', hsame⟩ := hrun m
    exact ⟨m', hm', hsame, rfl⟩

/-- `li` leaves the constant exactly if rounding does not overflow; `x0` holds no constant but zero. -/
theorem liLeaves_iff (rd : XReg) (c : BitVec 64) :
    LiLeaves rd c ↔ if rd = 0#5 then c = 0#64 else ¬ RoundsUp (lowWord c) := by
  by_cases hrd : rd = 0#5
  · rw [if_pos hrd, hrd]
    exact liLeaves_zero_iff c
  · rw [if_neg hrd, ← largeConst_eq_self_iff]
    exact liLeaves_iff_largeConst hrd c

/-- `li a0, 0x7fffffff` leaves `0xffffffff7fffffff`. -/
theorem li_of_maximum : ¬ LiLeaves 10#5 0x7fffffff#64 := by
  rw [liLeaves_iff_largeConst (by decide)]
  decide

end TccRiscv64.Asm
