import TccRiscv64.Asm.BaseCorrect

set_option autoImplicit false

/-! # The assembler: branches and jumps

The mnemonics that `asm_branch_opcode` and `asm_jal_opcode` handle, with a constant displacement:
what they mean, the word that is emitted for them, and for which displacements the word means the
same. -/

namespace TccRiscv64.Asm

open Isa

/-! ## The meaning of the mnemonics -/

/-- A branch or a jump, with its operands decoded. -/
inductive Control
  | branch (op : BranchOp) (rs1 rs2 : XReg) (imm : BitVec 64)
  | jal (rd : XReg) (imm : BitVec 64)
  deriving DecidableEq

/-- The branch or jump that a word encodes. -/
def decodeControl (w : Word) : Option Control :=
  match opcodeOf w with
  | 0x63#7 =>
    match decodeBranch w with
    | some (.branch op rs1 rs2 imm) => some (.branch op rs1 rs2 imm)
    | _ => none
  | 0x6f#7 => some (.jal (rdOf w) (immJ w))
  | _ => none

/-- Branches that compare two registers. -/
inductive Branch
  | beq | bne | blt | bge | bltu | bgeu | bgt | ble | bgtu | bleu
  deriving DecidableEq

/-- Branches that compare a register with zero. -/
inductive ZeroBranch
  | bnez | beqz | blez | bgez | bltz | bgtz
  deriving DecidableEq

/-- A mnemonic with its operands, but for the displacement. `jal` without a register links `ra`. -/
inductive Source
  | branch (token : Branch) (rs1 rs2 : XReg)
  | zeroBranch (token : ZeroBranch) (rs : XReg)
  | j
  | jal (rd : Option XReg)
  deriving DecidableEq

/-- The condition of a branch, on the contents of its registers. -/
def Branch.holds (token : Branch) (x y : BitVec 64) : Bool :=
  match token with
  | beq => x = y
  | bne => x ≠ y
  | blt => x.toInt < y.toInt
  | bge => x.toInt ≥ y.toInt
  | bltu => x.toNat < y.toNat
  | bgeu => x.toNat ≥ y.toNat
  | bgt => x.toInt > y.toInt
  | ble => x.toInt ≤ y.toInt
  | bgtu => x.toNat > y.toNat
  | bleu => x.toNat ≤ y.toNat

/-- The condition of a branch, on the content of its register. -/
def ZeroBranch.holds (token : ZeroBranch) (x : BitVec 64) : Bool :=
  match token with
  | bnez => x ≠ 0
  | beqz => x = 0
  | blez => x.toInt ≤ 0
  | bgez => x.toInt ≥ 0
  | bltz => x.toInt < 0
  | bgtz => x.toInt > 0

/-- The instruction that the manual lists for a branch. -/
def Branch.listed (token : Branch) (rs1 rs2 : XReg) : BitVec 64 → Control :=
  match token with
  | beq => .branch .beq rs1 rs2
  | bne => .branch .bne rs1 rs2
  | blt => .branch .blt rs1 rs2
  | bge => .branch .bge rs1 rs2
  | bltu => .branch .bltu rs1 rs2
  | bgeu => .branch .bgeu rs1 rs2
  | bgt => .branch .blt rs2 rs1
  | ble => .branch .bge rs2 rs1
  | bgtu => .branch .bltu rs2 rs1
  | bleu => .branch .bgeu rs2 rs1

def ZeroBranch.listed (token : ZeroBranch) (rs : XReg) : BitVec 64 → Control :=
  match token with
  | bnez => .branch .bne rs 0#5
  | beqz => .branch .beq rs 0#5
  | blez => .branch .bge 0#5 rs
  | bgez => .branch .bge rs 0#5
  | bltz => .branch .blt rs 0#5
  | bgtz => .branch .blt 0#5 rs

/-- The instruction that the manual lists for a mnemonic with its operands. -/
def Source.listed (source : Source) : BitVec 64 → Control :=
  match source with
  | branch token rs1 rs2 => token.listed rs1 rs2
  | zeroBranch token rs => token.listed rs
  | j => .jal 0#5
  | jal rd => .jal (rd.getD 1#5)

/-- The branch that is listed has the condition of the mnemonic. -/
theorem Branch.holds_listed (token : Branch) (m : Machine) (rs1 rs2 : XReg) (d : BitVec 64) :
    ∃ op a b, token.listed rs1 rs2 d = .branch op a b d ∧
      op.holds (m.reg a) (m.reg b) = token.holds (m.reg rs1) (m.reg rs2) := by
  cases token <;> refine ⟨_, _, _, rfl, ?_⟩ <;>
    simp only [BranchOp.holds, Branch.holds, BitVec.slt_eq_decide, BitVec.ult_eq_decide] <;> grind

theorem ZeroBranch.holds_listed (token : ZeroBranch) (m : Machine) (rs : XReg) (d : BitVec 64) :
    ∃ op a b, token.listed rs d = .branch op a b d ∧
      op.holds (m.reg a) (m.reg b) = token.holds (m.reg rs) := by
  cases token <;> refine ⟨_, _, _, rfl, ?_⟩ <;>
    simp only [BranchOp.holds, ZeroBranch.holds, BitVec.slt_eq_decide, Machine.reg_zero] <;>
    simp <;> grind

/-! ## The words that are emitted -/

/-- The parts of `offset` as `asm_emit_b` distributes them. Bits 5 to 10 are masked with `0x1f`. -/
def branchBits (offset : BitVec 32) : Word :=
  ((offset >>> 1 &&& 0xf#32) <<< 8) ||| ((offset >>> 5 &&& 0x1f#32) <<< 25)
    ||| ((offset >>> 11 &&& 1#32) <<< 7) ||| ((offset >>> 12 &&& 1#32) <<< 31)

def asmEmitB (opcode : Word) (rs1 rs2 imm : Operand) : Except String Word := do
  let rs1 ← expectReg "Expected first source operand that is a register" rs1
  let rs2 ← expectReg "Expected destination operand that is a register" rs2
  let v ← expectIm12s
    "Expected second source operand that is an immediate value between 0 and 8191" imm
  pure (opcode ||| encodeRs1 rs1 ||| encodeRs2 rs2 ||| branchBits (v.setWidth 32))

/-- The parts of `imm` as `asm_emit_j` distributes them. -/
def jumpBits (imm : BitVec 32) : Word :=
  ((imm >>> 20 &&& 1#32) <<< 31) ||| ((imm >>> 1 &&& 0x3ff#32) <<< 21)
    ||| ((imm >>> 11 &&& 1#32) <<< 20) ||| ((imm >>> 12 &&& 0xff#32) <<< 12)

def asmEmitJ (opcode : Word) (rd rs2 : Operand) : Except String Word := do
  let rd ← expectReg "Expected destination operand that is a register" rd
  let v ← expectImm "Expected second source operand that is an immediate value" rs2
  let imm := v.setWidth 32
  if imm.toInt > 2 ^ 20 - 1 ∨ imm.toInt ≤ -1 * (2 ^ 20 - 1) then
    .error "Expected second source operand that is an immediate value between 0 and 0x1fffff"
  else if imm &&& 1#32 ≠ 0#32 then
    .error "Expected second source operand that is an even immediate value"
  else pure (opcode ||| encodeRd rd ||| jumpBits imm)

/-- `asm_branch_opcode` with `argc = 3`. -/
def asmBranchOpcode (token : Branch) (a b imm : Operand) : Except String Word :=
  match token with
  | .beq => asmEmitB (0x63#32 ||| 0#32 <<< 12) a b imm
  | .bne => asmEmitB (0x63#32 ||| 1#32 <<< 12) a b imm
  | .blt => asmEmitB (0x63#32 ||| 4#32 <<< 12) a b imm
  | .bge => asmEmitB (0x63#32 ||| 5#32 <<< 12) a b imm
  | .bltu => asmEmitB (0x63#32 ||| 6#32 <<< 12) a b imm
  | .bgeu => asmEmitB (0x63#32 ||| 7#32 <<< 12) a b imm
  | .bgt => asmEmitB (0x63#32 ||| 4#32 <<< 12) b a imm
  | .ble => asmEmitB (0x63#32 ||| 5#32 <<< 12) b a imm
  | .bgtu => asmEmitB (0x63#32 ||| 6#32 <<< 12) b a imm
  | .bleu => asmEmitB (0x63#32 ||| 7#32 <<< 12) b a imm

/-- `asm_branch_opcode` with `argc = 2`. `blez` and `bgez` have the operands of each other. -/
def asmZeroBranchOpcode (token : ZeroBranch) (a imm : Operand) : Except String Word :=
  let zero := Operand.reg 0#6
  match token with
  | .bnez => asmEmitB (0x63#32 ||| 1#32 <<< 12) a zero imm
  | .beqz => asmEmitB (0x63#32 ||| 0#32 <<< 12) a zero imm
  | .blez => asmEmitB (0x63#32 ||| 5#32 <<< 12) a zero imm
  | .bgez => asmEmitB (0x63#32 ||| 5#32 <<< 12) zero a imm
  | .bltz => asmEmitB (0x63#32 ||| 4#32 <<< 12) a zero imm
  | .bgtz => asmEmitB (0x63#32 ||| 4#32 <<< 12) zero a imm

/-- `asm_jal_opcode`: the operand `ops[0]` is `zero` for `j`, `ra` for `jal offset`, and the register
that is written otherwise. -/
def asmJalOpcode (ops0 imm : Operand) : Except String Word := asmEmitJ 0x6f#32 ops0 imm

/-- `asm_opcode` for a branch or jump to the constant displacement `imm`. -/
def asmControl (source : Source) (imm : BitVec 64) : Except String Word :=
  match source with
  | .branch token rs1 rs2 =>
    asmBranchOpcode token (.ofArg (.x rs1)) (.ofArg (.x rs2)) (.imm imm)
  | .zeroBranch token rs => asmZeroBranchOpcode token (.ofArg (.x rs)) (.imm imm)
  | .j => asmJalOpcode (.reg 0#6) (.imm imm)
  | .jal none => asmJalOpcode (.reg 1#6) (.imm imm)
  | .jal (some rd) => asmJalOpcode (.ofArg (.x rd)) (.imm imm)

/-! ## What is asked of them -/

/-- The width of the signed displacement that the instruction holds. -/
def Source.width : Source → Nat
  | branch .. | zeroBranch .. => 13
  | j | jal _ => 21

/-- The even displacements that fit the instruction. -/
def Source.InRange (source : Source) (d : BitVec 64) : Prop :=
  d.getLsbD 0 = false ∧ FitsSigned source.width d

instance (source : Source) (d : BitVec 64) : Decidable (source.InRange d) :=
  inferInstanceAs (Decidable (_ ∧ _))

/-- A displacement in range is accepted, and the word decodes to what the manual lists with exactly
this displacement; another one is rejected. -/
def Source.Right (source : Source) (d : BitVec 64) : Prop :=
  if source.InRange d then
    ∃ w, asmControl source d = .ok w ∧ decodeControl w = some (source.listed d)
  else ∃ message, asmControl source d = .error message

/-- The range that `asm_emit_j` compares the low 32 bits with. -/
def inJumpRange (imm : BitVec 32) : Prop := -(2 ^ 20 - 1) < imm.toInt ∧ imm.toInt ≤ 2 ^ 20 - 1

instance (imm : BitVec 32) : Decidable (inJumpRange imm) := inferInstanceAs (Decidable (_ ∧ _))

/-- A branch in range has bit 10 of its displacement clear and is neither `blez` nor `bgez`, and a jump
in range does not go back by a whole mebibyte; out of range, the low 32 bits are out of range too, or
the displacement of a jump is odd. -/
def Source.Safe (source : Source) (d : BitVec 64) : Prop :=
  match source with
  | branch .. => if source.InRange d then d.getLsbD 10 = false else ¬ isIm12s d
  | zeroBranch token rs =>
    if source.InRange d then
      d.getLsbD 10 = false ∧ (token = .blez ∨ token = .bgez → rs = 0#5)
    else ¬ isIm12s d
  | j | jal _ =>
    if source.InRange d then d.toInt ≠ -2 ^ 20
    else d.getLsbD 0 = true ∨ ¬ inJumpRange (d.setWidth 32)

/-! ## Branches -/

/-- The opcode with the condition of a branch. -/
def branchOpcode : BranchOp → Word
  | .beq => 0x63#32 ||| 0#32 <<< 12
  | .bne => 0x63#32 ||| 1#32 <<< 12
  | .blt => 0x63#32 ||| 4#32 <<< 12
  | .bge => 0x63#32 ||| 5#32 <<< 12
  | .bltu => 0x63#32 ||| 6#32 <<< 12
  | .bgeu => 0x63#32 ||| 7#32 <<< 12

/-- What `asm_emit_b` puts together. -/
def branchWord (op : BranchOp) (rs1 rs2 : XReg) (offset : BitVec 32) : Word :=
  branchOpcode op ||| encodeRs1 (0#1 ++ rs1) ||| encodeRs2 (0#1 ++ rs2) ||| branchBits offset

theorem branchBits_masked (offset : BitVec 32) :
    branchBits offset &&& 0xfe000f80#32 = branchBits offset := by
  apply BitVec.eq_of_getLsbD_eq
  intro i hi
  simp only [branchBits, BitVec.getLsbD_and, BitVec.getLsbD_or, BitVec.getLsbD_shiftLeft,
    BitVec.getLsbD_ushiftRight]
  interval_cases i <;> simp

theorem branchOpcode_masked (op : BranchOp) : branchOpcode op &&& 0x707f#32 = branchOpcode op := by
  cases op <;> decide

/-- Bit 10 of the offset is lost. -/
theorem immB_branchBits (offset : BitVec 32) :
    immB (branchBits offset) = (offset.setWidth 13 &&& 0x1bfe#13).signExtend 64 := by
  rw [immB]
  congr 1
  apply BitVec.eq_of_getLsbD_eq
  intro i hi
  simp only [branchBits, BitVec.getLsbD_append, BitVec.getLsbD_extractLsb', BitVec.getLsbD_and,
    BitVec.getLsbD_or, BitVec.getLsbD_shiftLeft, BitVec.getLsbD_ushiftRight,
    BitVec.getLsbD_setWidth]
  interval_cases i <;> simp

section BranchWord

variable (op : BranchOp) (rs1 rs2 : XReg) (offset : BitVec 32)

theorem setWidth_x (r : XReg) : (0#1 ++ r : BitVec 6).setWidth 5 = r := by
  revert r
  decide

/-- A field outside the registers and the offset is that of the opcode. -/
theorem extractLsb'_branchWord {start len : Nat}
    (hrs1 : (0xf8000#32).extractLsb' start len = 0#(len))
    (hrs2 : (0x1f00000#32).extractLsb' start len = 0#(len))
    (hoffset : (0xfe000f80#32).extractLsb' start len = 0#(len)) :
    (branchWord op rs1 rs2 offset).extractLsb' start len =
      (branchOpcode op).extractLsb' start len := by
  simp only [branchWord, BitVec.extractLsb'_or, extractLsb'_eq_zero (encodeRs1_masked _) hrs1,
    extractLsb'_eq_zero (encodeRs2_masked _) hrs2,
    extractLsb'_eq_zero (branchBits_masked offset) hoffset, BitVec.or_zero]

theorem rs1Of_branchWord : rs1Of (branchWord op rs1 rs2 offset) = rs1 := by
  have h := rs1Of_encodeRs1 (0#1 ++ rs1)
  rw [setWidth_x] at h
  unfold rs1Of at h ⊢
  simp only [branchWord, BitVec.extractLsb'_or, h, BitVec.zero_or, BitVec.or_zero,
    extractLsb'_eq_zero (branchOpcode_masked op) (show BitVec.extractLsb' 15 5 _ = 0#5 by decide),
    extractLsb'_eq_zero (encodeRs2_masked _) (show BitVec.extractLsb' 15 5 _ = 0#5 by decide),
    extractLsb'_eq_zero (branchBits_masked offset) (show BitVec.extractLsb' 15 5 _ = 0#5 by decide)]

theorem rs2Of_branchWord : rs2Of (branchWord op rs1 rs2 offset) = rs2 := by
  have h := rs2Of_encodeRs2 (0#1 ++ rs2)
  rw [setWidth_x] at h
  unfold rs2Of at h ⊢
  simp only [branchWord, BitVec.extractLsb'_or, h, BitVec.zero_or, BitVec.or_zero,
    extractLsb'_eq_zero (branchOpcode_masked op) (show BitVec.extractLsb' 20 5 _ = 0#5 by decide),
    extractLsb'_eq_zero (encodeRs1_masked _) (show BitVec.extractLsb' 20 5 _ = 0#5 by decide),
    extractLsb'_eq_zero (branchBits_masked offset) (show BitVec.extractLsb' 20 5 _ = 0#5 by decide)]

theorem immB_branchWord :
    immB (branchWord op rs1 rs2 offset) = (offset.setWidth 13 &&& 0x1bfe#13).signExtend 64 := by
  have hopcode : ∀ start len, (0x707f#32).extractLsb' start len = 0#(len) →
      (branchOpcode op).extractLsb' start len = 0#(len) :=
    fun _ _ h => extractLsb'_eq_zero (branchOpcode_masked op) h
  have hrs1 : ∀ start len, (0xf8000#32).extractLsb' start len = 0#(len) →
      (encodeRs1 (0#1 ++ rs1)).extractLsb' start len = 0#(len) :=
    fun _ _ h => extractLsb'_eq_zero (encodeRs1_masked _) h
  have hrs2 : ∀ start len, (0x1f00000#32).extractLsb' start len = 0#(len) →
      (encodeRs2 (0#1 ++ rs2)).extractLsb' start len = 0#(len) :=
    fun _ _ h => extractLsb'_eq_zero (encodeRs2_masked _) h
  rw [← immB_branchBits]
  unfold immB
  simp only [branchWord, BitVec.extractLsb'_or, BitVec.zero_or,
    hopcode 31 1 (by decide), hopcode 7 1 (by decide), hopcode 25 6 (by decide),
    hopcode 8 4 (by decide), hrs1 31 1 (by decide), hrs1 7 1 (by decide), hrs1 25 6 (by decide),
    hrs1 8 4 (by decide), hrs2 31 1 (by decide), hrs2 7 1 (by decide), hrs2 25 6 (by decide),
    hrs2 8 4 (by decide)]

/-- The word of a branch, decoded. -/
theorem decodeControl_branchWord :
    decodeControl (branchWord op rs1 rs2 offset) =
      some (.branch op rs1 rs2 ((offset.setWidth 13 &&& 0x1bfe#13).signExtend 64)) := by
  have hopcode : opcodeOf (branchWord op rs1 rs2 offset) = 0x63#7 := by
    rw [opcodeOf, extractLsb'_branchWord op rs1 rs2 offset (by decide) (by decide) (by decide)]
    cases op <;> decide
  have hfunc3 : func3Of (branchWord op rs1 rs2 offset) = (branchOpcode op).extractLsb' 12 3 := by
    rw [func3Of, extractLsb'_branchWord op rs1 rs2 offset (by decide) (by decide) (by decide)]
  have hdecode : decodeBranch (branchWord op rs1 rs2 offset) =
      some (.branch op rs1 rs2 ((offset.setWidth 13 &&& 0x1bfe#13).signExtend 64)) := by
    unfold decodeBranch
    rw [hfunc3, rs1Of_branchWord, rs2Of_branchWord, immB_branchWord]
    cases op <;> rfl
  unfold decodeControl
  rw [hopcode, hdecode]
  rfl

end BranchWord

/-- Two even fields are the same if the other bits are. -/
theorem signExtend_kept_eq_iff {n : Nat} (hn : 0 < n) (hn' : n ≤ 64) {mask : BitVec n}
    {d : BitVec 64} (hfits : FitsSigned n d) :
    (d.setWidth n &&& mask).signExtend 64 = d ↔
      ∀ i < n, mask.getLsbD i = false → d.getLsbD i = false := by
  have hd := (signExtend_setWidth_eq_iff hn hn' d).mpr hfits
  constructor
  · intro h i hi hmask
    have hbit := congrArg (fun x => x.getLsbD i) h
    simp only [BitVec.getLsbD_signExtend, BitVec.getLsbD_and, hmask, if_pos hi,
      Bool.and_false] at hbit
    exact hbit.symm
  · intro h
    have hkept : d.setWidth n &&& mask = d.setWidth n := by
      apply BitVec.eq_of_getLsbD_eq
      intro i hi
      have hbit := h i hi
      simp only [BitVec.getLsbD_and, BitVec.getLsbD_setWidth, decide_eq_true hi, Bool.true_and]
      cases hmask : mask.getLsbD i with
      | true => rw [Bool.and_true]
      | false => rw [hbit hmask, Bool.and_false]
    rw [hkept, hd]

/-- The displacement of a branch, as far as its word holds it. -/
theorem branch_displacement_iff {d : BitVec 64} (heven : d.getLsbD 0 = false)
    (hfits : FitsSigned 13 d) :
    ((d.setWidth 32).setWidth 13 &&& 0x1bfe#13).signExtend 64 = d ↔ d.getLsbD 10 = false := by
  rw [BitVec.setWidth_setWidth_of_le d (by decide),
    signExtend_kept_eq_iff (by decide) (by decide) hfits]
  constructor
  · exact fun h => h 10 (by decide) (by decide)
  · intro h i hi hmask
    interval_cases i <;> first | assumption | exact absurd hmask (by decide)

theorem toInt_lowWord {d : BitVec 64} (hfits : FitsSigned 21 d) :
    (d.setWidth 32).toInt = d.toInt := by
  have hlt := d.isLt
  unfold FitsSigned at hfits
  rw [BitVec.toInt_eq_toNat_cond] at hfits ⊢
  rw [BitVec.toInt_eq_toNat_cond, BitVec.toNat_setWidth]
  split at hfits <;> split <;> omega

theorem isIm12s_of_fitsSigned13 {d : BitVec 64} (hfits : FitsSigned 13 d) : isIm12s d = true := by
  have hfits' : FitsSigned 21 d := by
    unfold FitsSigned at hfits ⊢
    omega
  rw [isIm12s, toInt_lowWord hfits', decide_eq_true_eq]
  exact hfits

/-- The branch that is emitted is the one that is listed, if the displacement has bit 10 clear. -/
theorem asmEmitB_right_iff (op : BranchOp) (a b : XReg) {listed : BitVec 64 → Control}
    (hlisted : ∀ d, ∃ op' a' b', listed d = .branch op' a' b' d) (d : BitVec 64) :
    (if d.getLsbD 0 = false ∧ FitsSigned 13 d then
      ∃ w, asmEmitB (branchOpcode op) (.ofArg (.x a)) (.ofArg (.x b)) (.imm d) = .ok w ∧
        decodeControl w = some (listed d)
    else ∃ message,
      asmEmitB (branchOpcode op) (.ofArg (.x a)) (.ofArg (.x b)) (.imm d) = .error message) ↔
    if d.getLsbD 0 = false ∧ FitsSigned 13 d then
      d.getLsbD 10 = false ∧ Control.branch op a b d = listed d
    else ¬ isIm12s d := by
  obtain ⟨op', a', b', hd⟩ := hlisted d
  have hemit : asmEmitB (branchOpcode op) (.ofArg (.x a)) (.ofArg (.x b)) (.imm d) =
      if isIm12s d then .ok (branchWord op a b (d.setWidth 32)) else .error
        "Expected second source operand that is an immediate value between 0 and 8191" := by
    unfold asmEmitB branchWord
    by_cases hd : isIm12s d = true
    · rw [if_pos hd, expectIm12s, if_pos hd]
      rfl
    · rw [if_neg hd, expectIm12s, if_neg hd]
      rfl
  rw [hemit]
  split
  · rename_i hin
    rw [if_pos (isIm12s_of_fitsSigned13 hin.2), ← branch_displacement_iff hin.1 hin.2]
    simp only [Except.ok.injEq, exists_eq_left', decodeControl_branchWord, hd, Option.some.injEq,
      Control.branch.injEq, and_true]
    tauto
  · split
    · rename_i h
      refine iff_of_false (fun he => ?_) (not_not.mpr h)
      obtain ⟨message, he⟩ := he
      cases he
    · rename_i h
      exact iff_of_true ⟨_, rfl⟩ h

/-- Which branch is emitted for a mnemonic that compares two registers. -/
theorem asmBranchOpcode_eq (token : Branch) (rs1 rs2 : XReg) (d : BitVec 64) :
    ∃ op a b, token.listed rs1 rs2 = Control.branch op a b ∧
      asmBranchOpcode token (.ofArg (.x rs1)) (.ofArg (.x rs2)) (.imm d) =
        asmEmitB (branchOpcode op) (.ofArg (.x a)) (.ofArg (.x b)) (.imm d) := by
  cases token <;> exact ⟨_, _, _, rfl, rfl⟩

/-- Which branch is emitted for a mnemonic that compares a register with zero. -/
theorem asmZeroBranchOpcode_eq (token : ZeroBranch) (rs : XReg) (d : BitVec 64) :
    ∃ op a b, (Control.branch op a b d = token.listed rs d ↔
        (token = .blez ∨ token = .bgez → rs = 0#5)) ∧
      asmZeroBranchOpcode token (.ofArg (.x rs)) (.imm d) =
        asmEmitB (branchOpcode op) (.ofArg (.x a)) (.ofArg (.x b)) (.imm d) := by
  have hzero : Operand.reg 0#6 = .ofArg (.x 0#5) := rfl
  unfold asmZeroBranchOpcode
  rw [hzero]
  cases token with
  | bnez => exact ⟨.bne, rs, 0#5, by simp [ZeroBranch.listed], rfl⟩
  | beqz => exact ⟨.beq, rs, 0#5, by simp [ZeroBranch.listed], rfl⟩
  | blez => exact ⟨.bge, rs, 0#5, by simp [ZeroBranch.listed]; exact fun h => h.symm, rfl⟩
  | bgez => exact ⟨.bge, 0#5, rs, by simp [ZeroBranch.listed]; exact fun h => h.symm, rfl⟩
  | bltz => exact ⟨.blt, rs, 0#5, by simp [ZeroBranch.listed], rfl⟩
  | bgtz => exact ⟨.blt, 0#5, rs, by simp [ZeroBranch.listed], rfl⟩

/-! ## Jumps -/

/-- What `asm_emit_j` puts together. -/
def jumpWord (rd : XReg) (imm : BitVec 32) : Word := 0x6f#32 ||| encodeRd (0#1 ++ rd) ||| jumpBits imm

section JumpWord

variable (rd : XReg) (imm : BitVec 32)

theorem jumpBits_masked : jumpBits imm &&& 0xfffff000#32 = jumpBits imm := by
  apply BitVec.eq_of_getLsbD_eq
  intro i hi
  simp only [jumpBits, BitVec.getLsbD_and, BitVec.getLsbD_or, BitVec.getLsbD_shiftLeft,
    BitVec.getLsbD_ushiftRight]
  interval_cases i <;> simp

theorem immJ_jumpBits :
    immJ (jumpBits imm) = (imm.setWidth 21 &&& 0x1ffffe#21).signExtend 64 := by
  rw [immJ]
  congr 1
  apply BitVec.eq_of_getLsbD_eq
  intro i hi
  simp only [jumpBits, BitVec.getLsbD_append, BitVec.getLsbD_extractLsb', BitVec.getLsbD_and,
    BitVec.getLsbD_or, BitVec.getLsbD_shiftLeft, BitVec.getLsbD_ushiftRight,
    BitVec.getLsbD_setWidth]
  interval_cases i <;> simp

/-- A field from bit 12 on is that of the immediate. -/
theorem extractLsb'_jumpWord {start len : Nat}
    (hopcode : (0x6f#32).extractLsb' start len = 0#(len))
    (hrd : (0xf80#32).extractLsb' start len = 0#(len)) :
    (jumpWord rd imm).extractLsb' start len = (jumpBits imm).extractLsb' start len := by
  simp only [jumpWord, BitVec.extractLsb'_or, hopcode,
    extractLsb'_eq_zero (encodeRd_masked _) hrd, BitVec.zero_or]

/-- The word of a jump, decoded. -/
theorem decodeControl_jumpWord :
    decodeControl (jumpWord rd imm) =
      some (.jal rd ((imm.setWidth 21 &&& 0x1ffffe#21).signExtend 64)) := by
  have hopcode : opcodeOf (jumpWord rd imm) = 0x6f#7 := by
    simp only [opcodeOf, jumpWord, BitVec.extractLsb'_or,
      extractLsb'_eq_zero (encodeRd_masked _) (show BitVec.extractLsb' 0 7 _ = 0#7 by decide),
      extractLsb'_eq_zero (jumpBits_masked imm) (show BitVec.extractLsb' 0 7 _ = 0#7 by decide)]
    decide
  have hrd : rdOf (jumpWord rd imm) = rd := by
    have h := rdOf_encodeRd (0#1 ++ rd)
    rw [setWidth_x] at h
    unfold rdOf at h ⊢
    simp only [jumpWord, BitVec.extractLsb'_or, h, BitVec.or_zero,
      extractLsb'_eq_zero (jumpBits_masked imm) (show BitVec.extractLsb' 7 5 _ = 0#5 by decide)]
    rw [show (0x6f#32).extractLsb' 7 5 = 0#5 by decide, BitVec.zero_or]
  have himm : immJ (jumpWord rd imm) = immJ (jumpBits imm) := by
    unfold immJ
    rw [extractLsb'_jumpWord rd imm (by decide) (by decide),
      extractLsb'_jumpWord rd imm (by decide) (by decide),
      extractLsb'_jumpWord rd imm (by decide) (by decide),
      extractLsb'_jumpWord rd imm (by decide) (by decide)]
  unfold decodeControl
  rw [hopcode, hrd, himm, immJ_jumpBits]
  rfl

end JumpWord

/-- The displacement of a jump, as its word holds it. -/
theorem jump_displacement {d : BitVec 64} (heven : d.getLsbD 0 = false) (hfits : FitsSigned 21 d) :
    ((d.setWidth 32).setWidth 21 &&& 0x1ffffe#21).signExtend 64 = d := by
  rw [BitVec.setWidth_setWidth_of_le d (by decide),
    signExtend_kept_eq_iff (by decide) (by decide) hfits]
  intro i hi hmask
  interval_cases i <;> first | assumption | exact absurd hmask (by decide)

/-- `asm_emit_j` for an integer register. -/
theorem asmEmitJ_eq (rd : XReg) (d : BitVec 64) :
    (inJumpRange (d.setWidth 32) ∧ d.getLsbD 0 = false →
      asmEmitJ 0x6f#32 (.ofArg (.x rd)) (.imm d) = .ok (jumpWord rd (d.setWidth 32))) ∧
    (¬ (inJumpRange (d.setWidth 32) ∧ d.getLsbD 0 = false) →
      ∃ message, asmEmitJ 0x6f#32 (.ofArg (.x rd)) (.imm d) = .error message) := by
  have hodd : d.setWidth 32 &&& 1#32 = 0#32 ↔ d.getLsbD 0 = false := by
    constructor
    · intro h
      have hbit := congrArg (fun x => x.getLsbD 0) h
      simpa using hbit
    · intro h
      apply BitVec.eq_of_getLsbD_eq
      intro i hi
      simp only [BitVec.getLsbD_and, BitVec.getLsbD_setWidth]
      rcases i with _ | i
      · rw [h]
        rfl
      · simp
  have hrange : ((d.setWidth 32).toInt > 2 ^ 20 - 1 ∨ (d.setWidth 32).toInt ≤ -1 * (2 ^ 20 - 1)) ↔
      ¬ inJumpRange (d.setWidth 32) := by
    unfold inJumpRange
    omega
  unfold asmEmitJ
  simp only [Operand.ofArg, expectReg, expectImm, Except.bind, bind, pure, Except.pure, hrange, ne_eq,
    hodd]
  refine ⟨fun h => ?_, fun h => ?_⟩
  · obtain ⟨hin, heven⟩ := h
    rw [if_neg (not_not.mpr hin), if_neg (not_not.mpr heven)]
    rfl
  · split
    · exact ⟨_, rfl⟩
    · rename_i hin
      rw [if_pos fun heven => h ⟨not_not.mp hin, heven⟩]
      exact ⟨_, rfl⟩

/-- The jump that is emitted is the one that is listed, but for the farthest one back. -/
theorem asmEmitJ_right_iff (rd : XReg) (d : BitVec 64) :
    (if d.getLsbD 0 = false ∧ FitsSigned 21 d then
      ∃ w, asmEmitJ 0x6f#32 (.ofArg (.x rd)) (.imm d) = .ok w ∧
        decodeControl w = some (.jal rd d)
    else ∃ message, asmEmitJ 0x6f#32 (.ofArg (.x rd)) (.imm d) = .error message) ↔
    if d.getLsbD 0 = false ∧ FitsSigned 21 d then d.toInt ≠ -2 ^ 20
    else d.getLsbD 0 = true ∨ ¬ inJumpRange (d.setWidth 32) := by
  obtain ⟨haccept, hreject⟩ := asmEmitJ_eq rd d
  split
  · rename_i hin
    obtain ⟨heven, hfits⟩ := hin
    have hrange : inJumpRange (d.setWidth 32) ↔ d.toInt ≠ -2 ^ 20 := by
      -- the only odd number in between is out of the way
      have hodd : d.toInt ≠ -2 ^ 20 + 1 := by
        intro h
        rw [← BitVec.ofInt_toInt (x := d), h] at heven
        exact absurd heven (by decide)
      unfold inJumpRange
      rw [toInt_lowWord hfits]
      unfold FitsSigned at hfits
      omega
    rw [← hrange]
    constructor
    · rintro ⟨w, hw, -⟩
      by_contra h
      obtain ⟨message, he⟩ := hreject fun h' => h h'.1
      rw [he] at hw
      cases hw
    · intro h
      refine ⟨_, haccept ⟨h, heven⟩, ?_⟩
      rw [decodeControl_jumpWord, jump_displacement heven hfits]
  · constructor
    · rintro ⟨message, he⟩
      by_contra h
      rw [not_or, not_not, Bool.not_eq_true] at h
      rw [haccept ⟨h.2, h.1⟩] at he
      cases he
    · intro h
      refine hreject fun hin => ?_
      obtain ⟨hrange, heven⟩ := hin
      rcases h with hodd | hout
      · rw [heven] at hodd
        cases hodd
      · exact hout hrange

theorem branch_right_iff (token : Branch) (rs1 rs2 : XReg) (d : BitVec 64) :
    Source.Right (.branch token rs1 rs2) d ↔ Source.Safe (.branch token rs1 rs2) d := by
  obtain ⟨op, a, b, hlisted, hemit⟩ := asmBranchOpcode_eq token rs1 rs2 d
  have h := @asmEmitB_right_iff op a b (token.listed rs1 rs2)
    (fun d => ⟨op, a, b, congrFun hlisted d⟩) d
  rw [← hemit] at h
  refine h.trans ?_
  rw [hlisted]
  simp only [and_true]
  rfl

theorem zeroBranch_right_iff (token : ZeroBranch) (rs : XReg) (d : BitVec 64) :
    Source.Right (.zeroBranch token rs) d ↔ Source.Safe (.zeroBranch token rs) d := by
  obtain ⟨op, a, b, hlisted, hemit⟩ := asmZeroBranchOpcode_eq token rs d
  have h := @asmEmitB_right_iff op a b (token.listed rs)
    (fun d => by cases token <;> exact ⟨_, _, _, rfl⟩) d
  rw [← hemit, hlisted] at h
  exact h

/-- A branch or jump is accepted and right, or rejected, as its displacement asks for, exactly if it is
`Safe`. -/
theorem control_right_iff (source : Source) (d : BitVec 64) : source.Right d ↔ source.Safe d := by
  cases source with
  | branch token rs1 rs2 => exact branch_right_iff token rs1 rs2 d
  | zeroBranch token rs => exact zeroBranch_right_iff token rs d
  | j => exact asmEmitJ_right_iff 0#5 d
  | jal rd =>
    cases rd with
    | none => exact asmEmitJ_right_iff 1#5 d
    | some rd => exact asmEmitJ_right_iff rd d

/-- `beq a0, a1, 1024` is emitted with the displacement 0. -/
theorem beq_loses_bit : ¬ Source.Right (.branch .beq 10#5 11#5) 1024#64 := by
  rw [branch_right_iff]
  unfold Source.Safe
  decide

end TccRiscv64.Asm
