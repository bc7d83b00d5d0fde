import TccRiscv64.Link.Relocate

set_option autoImplicit false

/-! # The pc-relative relocations reach their target

Each patched word, decoded by the immediate layout of its format, is compared with the
displacement. The range checks of the branch and of both compressed relocations are exact. Those of
`jal` and of the two `HI20` relocations accept one bit more than the field holds, and a call is not
checked at all. -/

namespace TccRiscv64.Link

open TccRiscv64.Isa

/-! ## The patched words, decoded -/

theorem immB_patchBranch (w : BitVec 32) (off64 : BitVec 64) :
    immB (patchBranch w off64) = (off64.extractLsb' 1 12 ++ 0#1).signExtend 64 := by
  unfold immB patchBranch
  congr 1
  apply BitVec.eq_of_getLsbD_eq
  intro i hi
  simp only [BitVec.getLsbD_append, BitVec.getLsbD_extractLsb', BitVec.getLsbD_or,
    BitVec.getLsbD_and, BitVec.getLsbD_not, BitVec.getLsbD_shiftLeft, BitVec.getLsbD_ushiftRight,
    BitVec.getLsbD_setWidth, BitVec.getLsbD_ofNat]
  interval_cases i <;> simp [Nat.testBit]

theorem immJ_patchJal (w : BitVec 32) (off64 : BitVec 64) :
    immJ (patchJal w off64) = (off64.extractLsb' 1 20 ++ 0#1).signExtend 64 := by
  unfold immJ patchJal
  congr 1
  apply BitVec.eq_of_getLsbD_eq
  intro i hi
  simp only [BitVec.getLsbD_append, BitVec.getLsbD_extractLsb', BitVec.getLsbD_or,
    BitVec.getLsbD_and, BitVec.getLsbD_shiftLeft, BitVec.getLsbD_ushiftRight,
    BitVec.getLsbD_setWidth, BitVec.getLsbD_ofNat]
  interval_cases i <;> simp [Nat.testBit]

theorem immU_patchCallHi (w : BitVec 32) (off64 : BitVec 64) :
    immU (patchCallHi w off64) = ((off64 + 0x800#64).extractLsb' 12 20 ++ 0#12).signExtend 64 := by
  unfold immU patchCallHi
  generalize off64 + 0x800#64 = y
  congr 1
  apply BitVec.eq_of_getLsbD_eq
  intro i hi
  simp only [BitVec.getLsbD_append, BitVec.getLsbD_extractLsb', BitVec.getLsbD_or,
    BitVec.getLsbD_and, BitVec.getLsbD_not,
    BitVec.getLsbD_setWidth, BitVec.getLsbD_ofNat]
  interval_cases i <;> simp [Nat.testBit]

theorem immU_patchHi20 (w : BitVec 32) (off64 : BitVec 64) :
    immU (patchHi20 w off64) = (off64.extractLsb' 0 20 ++ 0#12).signExtend 64 := by
  unfold immU patchHi20
  congr 1
  apply BitVec.eq_of_getLsbD_eq
  intro i hi
  simp only [BitVec.getLsbD_append, BitVec.getLsbD_extractLsb', BitVec.getLsbD_or,
    BitVec.getLsbD_and, BitVec.getLsbD_shiftLeft,
    BitVec.getLsbD_setWidth, BitVec.getLsbD_ofNat]
  interval_cases i <;> simp [Nat.testBit]

theorem immI_patchLoI (w : BitVec 32) (off64 : BitVec 64) :
    immI (patchLoI w off64) = (off64.setWidth 12).signExtend 64 := by
  unfold immI patchLoI
  congr 1
  apply BitVec.eq_of_getLsbD_eq
  intro i hi
  simp only [BitVec.getLsbD_extractLsb', BitVec.getLsbD_or,
    BitVec.getLsbD_and, BitVec.getLsbD_shiftLeft,
    BitVec.getLsbD_setWidth, BitVec.getLsbD_ofNat]
  interval_cases i <;> simp [Nat.testBit]

theorem immS_patchLoS (w : BitVec 32) (off64 : BitVec 64) :
    immS (patchLoS w off64) = (off64.setWidth 12).signExtend 64 := by
  unfold immS patchLoS
  congr 1
  apply BitVec.eq_of_getLsbD_eq
  intro i hi
  simp only [BitVec.getLsbD_append, BitVec.getLsbD_extractLsb', BitVec.getLsbD_or,
    BitVec.getLsbD_and, BitVec.getLsbD_not, BitVec.getLsbD_shiftLeft,
    BitVec.getLsbD_setWidth, BitVec.getLsbD_ofNat]
  interval_cases i <;> simp [Nat.testBit]

theorem immCB_patchRvcBranch (h : BitVec 16) (off64 : BitVec 64) :
    immCB (patchRvcBranch h off64) = (off64.extractLsb' 1 8 ++ 0#1).signExtend 64 := by
  unfold immCB patchRvcBranch
  congr 1
  apply BitVec.eq_of_getLsbD_eq
  intro i hi
  simp only [BitVec.getLsbD_append, BitVec.getLsbD_extractLsb', BitVec.getLsbD_or,
    BitVec.getLsbD_and, BitVec.getLsbD_shiftLeft, BitVec.getLsbD_ushiftRight,
    BitVec.getLsbD_setWidth, BitVec.getLsbD_ofNat]
  interval_cases i <;> simp [Nat.testBit]

theorem immCJ_patchRvcJump (h : BitVec 16) (off64 : BitVec 64) :
    immCJ (patchRvcJump h off64) = (off64.extractLsb' 1 11 ++ 0#1).signExtend 64 := by
  unfold immCJ patchRvcJump
  congr 1
  apply BitVec.eq_of_getLsbD_eq
  intro i hi
  simp only [BitVec.getLsbD_append, BitVec.getLsbD_extractLsb', BitVec.getLsbD_or,
    BitVec.getLsbD_and, BitVec.getLsbD_shiftLeft, BitVec.getLsbD_ushiftRight,
    BitVec.getLsbD_setWidth, BitVec.getLsbD_ofNat]
  interval_cases i <;> simp [Nat.testBit]

/-! ## The bits outside the immediate -/

theorem sameOutside_patchBranch (w : BitVec 32) (off64 : BitVec 64) :
    SameOutside maskB w (patchBranch w off64) := by
  unfold SameOutside maskB patchBranch
  apply BitVec.eq_of_getLsbD_eq
  intro i hi
  simp only [BitVec.getLsbD_or, BitVec.getLsbD_and, BitVec.getLsbD_not, BitVec.getLsbD_shiftLeft,
    BitVec.getLsbD_ushiftRight, BitVec.getLsbD_setWidth, BitVec.getLsbD_ofNat]
  interval_cases i <;> simp [Nat.testBit]

theorem sameOutside_patchJal (w : BitVec 32) (off64 : BitVec 64) :
    SameOutside maskJ w (patchJal w off64) := by
  unfold SameOutside maskJ patchJal
  apply BitVec.eq_of_getLsbD_eq
  intro i hi
  simp only [BitVec.getLsbD_or, BitVec.getLsbD_and, BitVec.getLsbD_not, BitVec.getLsbD_shiftLeft,
    BitVec.getLsbD_ushiftRight, BitVec.getLsbD_setWidth, BitVec.getLsbD_ofNat]
  interval_cases i <;> simp [Nat.testBit]

theorem sameOutside_patchCallHi (w : BitVec 32) (off64 : BitVec 64) :
    SameOutside maskU w (patchCallHi w off64) := by
  unfold SameOutside maskU patchCallHi
  generalize off64 + 0x800#64 = y
  apply BitVec.eq_of_getLsbD_eq
  intro i hi
  simp only [BitVec.getLsbD_or, BitVec.getLsbD_and, BitVec.getLsbD_not,
    BitVec.getLsbD_setWidth, BitVec.getLsbD_ofNat]
  interval_cases i <;> simp [Nat.testBit]

theorem sameOutside_patchHi20 (w : BitVec 32) (off64 : BitVec 64) :
    SameOutside maskU w (patchHi20 w off64) := by
  unfold SameOutside maskU patchHi20
  apply BitVec.eq_of_getLsbD_eq
  intro i hi
  simp only [BitVec.getLsbD_or, BitVec.getLsbD_and, BitVec.getLsbD_not, BitVec.getLsbD_shiftLeft,
    BitVec.getLsbD_setWidth, BitVec.getLsbD_ofNat]
  interval_cases i <;> simp [Nat.testBit]

theorem sameOutside_patchLoI (w : BitVec 32) (off64 : BitVec 64) :
    SameOutside maskI w (patchLoI w off64) := by
  unfold SameOutside maskI patchLoI
  apply BitVec.eq_of_getLsbD_eq
  intro i hi
  simp only [BitVec.getLsbD_or, BitVec.getLsbD_and, BitVec.getLsbD_not, BitVec.getLsbD_shiftLeft,
    BitVec.getLsbD_setWidth, BitVec.getLsbD_ofNat]
  interval_cases i <;> simp [Nat.testBit]

theorem sameOutside_patchLoS (w : BitVec 32) (off64 : BitVec 64) :
    SameOutside maskS w (patchLoS w off64) := by
  unfold SameOutside maskS patchLoS
  apply BitVec.eq_of_getLsbD_eq
  intro i hi
  simp only [BitVec.getLsbD_or, BitVec.getLsbD_and, BitVec.getLsbD_not, BitVec.getLsbD_shiftLeft,
    BitVec.getLsbD_setWidth, BitVec.getLsbD_ofNat]
  interval_cases i <;> simp [Nat.testBit]

theorem sameOutside_patchRvcBranch (h : BitVec 16) (off64 : BitVec 64) :
    SameOutside maskCB h (patchRvcBranch h off64) := by
  unfold SameOutside maskCB patchRvcBranch
  apply BitVec.eq_of_getLsbD_eq
  intro i hi
  simp only [BitVec.getLsbD_or, BitVec.getLsbD_and, BitVec.getLsbD_not, BitVec.getLsbD_shiftLeft,
    BitVec.getLsbD_ushiftRight, BitVec.getLsbD_setWidth, BitVec.getLsbD_ofNat]
  interval_cases i <;> simp [Nat.testBit]

theorem sameOutside_patchRvcJump (h : BitVec 16) (off64 : BitVec 64) :
    SameOutside maskCJ h (patchRvcJump h off64) := by
  unfold SameOutside maskCJ patchRvcJump
  apply BitVec.eq_of_getLsbD_eq
  intro i hi
  simp only [BitVec.getLsbD_or, BitVec.getLsbD_and, BitVec.getLsbD_not, BitVec.getLsbD_shiftLeft,
    BitVec.getLsbD_ushiftRight, BitVec.getLsbD_setWidth, BitVec.getLsbD_ofNat]
  interval_cases i <;> simp [Nat.testBit]

/-! ## The range checks -/

/-- The check of a relocation whose mask covers `n + 1` bits passes exactly for the even
displacements that fit `n + 1` bits. -/
theorem outOfMask_eq_false_iff {n : Nat} (hn : 0 < n) (hn' : n < 63) (off64 : BitVec 64) :
    outOfMask off64 (BitVec.ofNat 64 (2 ^ n)) (BitVec.ofNat 64 (2 ^ (n + 1) - 2)) = false
      ↔ off64.getLsbD 0 = false ∧ FitsSigned (n + 1) off64 := by
  have hbit : (off64 + BitVec.ofNat 64 (2 ^ n)).getLsbD 0 = off64.getLsbD 0 := by
    obtain ⟨k, rfl⟩ : ∃ k, n = k + 1 := ⟨n - 1, by omega⟩
    rw [← BitVec.testBit_toNat, ← BitVec.testBit_toNat, BitVec.toNat_add, BitVec.toNat_ofNat,
      Nat.testBit_zero, Nat.testBit_zero, pow_succ]
    exact decide_eq_decide.2 (by omega)
  rw [outOfMask, bne_eq_false_iff_eq, and_not_mask_eq_zero_iff (by decide), add_bias_lt_iff hn', hbit]

/-- The check of the `HI20` relocations passes exactly when the rounded displacement fits 33 bits,
one more than `auipc` spans. -/
theorem outOfHi20_eq_false_iff (disp : BitVec 64) :
    outOfHi20 (hi20Of disp) = false ↔ FitsSigned 33 (disp + 0x800#64) := by
  rw [outOfHi20, bne_eq_false_iff_eq, hi20Of]
  generalize disp + 0x800#64 = y
  have hfit : FitsSigned 21 (y.sshiftRight 12) ↔ FitsSigned 33 y := by
    rw [FitsSigned, FitsSigned, BitVec.toInt_sshiftRight, Int.shiftRight_eq_div_pow]
    norm_num
    omega
  have hbias : 1#64 <<< 20 = BitVec.ofNat 64 (2 ^ 20) := by decide
  rw [← hfit, ← add_bias_lt_iff (show 20 < 63 by decide), ← hbias, ← BitVec.toNat_inj,
    BitVec.toNat_ushiftRight, Nat.shiftRight_eq_div_pow, BitVec.toNat_ofNat, Nat.zero_mod,
    Nat.div_eq_zero_iff]
  omega

/-- The field of a `HI20` relocation and that of a call hold the same bits. -/
theorem hi20Of_field (disp : BitVec 64) :
    (hi20Of disp).extractLsb' 0 20 = (disp + 0x800#64).extractLsb' 12 20 := by
  unfold hi20Of
  generalize disp + 0x800#64 = y
  apply BitVec.eq_of_getLsbD_eq
  intro i hi
  simp only [BitVec.getLsbD_extractLsb', BitVec.getLsbD_sshiftRight]
  grind

/-! ## Frame lemmas of `relocate` -/

namespace TCCState

@[simp] theorem errorIf_mem (s1 : TCCState) (c : Bool) (d : Diagnostic) :
    (s1.errorIf c d).mem = s1.mem := by
  unfold errorIf
  split <;> rfl

@[simp] theorem errorIf_lastHi (s1 : TCCState) (c : Bool) (d : Diagnostic) :
    (s1.errorIf c d).lastHi = s1.lastHi := by
  unfold errorIf
  split <;> rfl

@[simp] theorem setLastHi_mem (s1 : TCCState) (hi : PcrelHi) :
    (s1.setLastHi hi).mem = s1.mem := rfl

@[simp] theorem setLastHi_lastHi (s1 : TCCState) (hi : PcrelHi) :
    (s1.setLastHi hi).lastHi = hi := rfl

@[simp] theorem setLastHi_errors (s1 : TCCState) (hi : PcrelHi) :
    (s1.setLastHi hi).errors = s1.errors := rfl

@[simp] theorem read32le_setLastHi (s1 : TCCState) (hi : PcrelHi) (p : Nat) :
    (s1.setLastHi hi).read32le p = s1.read32le p := rfl

@[simp] theorem write32le_errors (s1 : TCCState) (p : Nat) (x : BitVec 32) :
    (s1.write32le p x).errors = s1.errors := rfl

@[simp] theorem write32le_lastHi (s1 : TCCState) (p : Nat) (x : BitVec 32) :
    (s1.write32le p x).lastHi = s1.lastHi := rfl

@[simp] theorem read16le_errorIf (s1 : TCCState) (c : Bool) (d : Diagnostic) (p : Nat) :
    (s1.errorIf c d).read16le p = s1.read16le p := by
  rw [read16le, errorIf_mem, read16le]

@[simp] theorem read32le_errorIf (s1 : TCCState) (c : Bool) (d : Diagnostic) (p : Nat) :
    (s1.errorIf c d).read32le p = s1.read32le p := by
  rw [read32le, errorIf_mem, read32le]

/-- An error is reported exactly when the check fails. -/
theorem errorIf_errors_ne_iff (s1 : TCCState) (c : Bool) (d : Diagnostic) :
    (s1.errorIf c d).errors ≠ s1.errors ↔ c = true := by
  unfold errorIf
  cases c <;> simp

@[simp] theorem read16le_write16le (s1 : TCCState) (p : Nat) (x : BitVec 16) :
    (s1.write16le p x).read16le p = x := Memory.load_store s1.mem p 2 x

@[simp] theorem read32le_write32le (s1 : TCCState) (p : Nat) (x : BitVec 32) :
    (s1.write32le p x).read32le p = x := Memory.load_store s1.mem p 4 x

theorem read32le_write32le_of_disjoint (s1 : TCCState) (p : Nat) (x : BitVec 32) {q : Nat}
    (h : q + 4 ≤ p ∨ p + 4 ≤ q) : (s1.write32le p x).read32le q = s1.read32le q :=
  Memory.load_store_of_disjoint s1.mem p 4 x h

end TCCState

/-! ## Relocations that stand alone -/

/-- The pc-relative relocations that patch a branch or jump, or the instruction pair of a call,
without reference to another relocation. -/
inductive DirectType
  | branch | jal | call | callPlt | rvcBranch | rvcJump
  deriving DecidableEq, Repr

namespace DirectType

def toReloc : DirectType → RelocType
  | branch => .branch
  | jal => .jal
  | call => .call
  | callPlt => .callPlt
  | rvcBranch => .rvcBranch
  | rvcJump => .rvcJump

/-- Number of bytes patched. -/
def width : DirectType → Nat
  | branch | jal => 4
  | call | callPlt => 8
  | rvcBranch | rvcJump => 2

end DirectType

/-- `tcc_error_noabort` was called on the way from `s1` to `s1'`. -/
def Reports (s1 s1' : TCCState) : Prop := s1'.errors ≠ s1.errors

/-- Where the code at `ptr`, executed at `addr`, transfers control. -/
def executedTarget (s1 : TCCState) (t : DirectType) (ptr : Nat) (addr : BitVec 64) : BitVec 64 :=
  match t with
  | .branch => branchTarget addr (s1.read32le ptr)
  | .jal => jalTarget addr (s1.read32le ptr)
  | .call | .callPlt =>
    jalrTarget (auipcValue addr (s1.read32le ptr)) (s1.read32le (ptr + 4))
  | .rvcBranch => cbTarget addr (s1.read16le ptr)
  | .rvcJump => cjTarget addr (s1.read16le ptr)

/-- `s1'` differs from `s1` at most in the immediate fields of the code at `ptr`. -/
def KeepsRest (t : DirectType) (s1 s1' : TCCState) (ptr : Nat) : Prop :=
  (∀ a, a < ptr ∨ ptr + t.width ≤ a → s1'.mem a = s1.mem a) ∧
  match t with
  | .branch => SameOutside maskB (s1.read32le ptr) (s1'.read32le ptr)
  | .jal => SameOutside maskJ (s1.read32le ptr) (s1'.read32le ptr)
  | .call | .callPlt =>
    SameOutside maskU (s1.read32le ptr) (s1'.read32le ptr) ∧
    SameOutside maskI (s1.read32le (ptr + 4)) (s1'.read32le (ptr + 4))
  | .rvcBranch => SameOutside maskCB (s1.read16le ptr) (s1'.read16le ptr)
  | .rvcJump => SameOutside maskCJ (s1.read16le ptr) (s1'.read16le ptr)

/-- The relocation is either reported as an error, or the patched code spans exactly the
displacement and nothing but its immediate fields has changed. -/
def DirectCorrect (s1 : TCCState) (rel : ElfRel) (t : DirectType) (ptr : Nat)
    (addr val : BitVec 64) : Prop :=
  let s1' := relocate s1 rel t.toReloc ptr addr val
  Reports s1 s1' ∨
    (executedTarget s1' t ptr addr - addr = val - addr ∧ KeepsRest t s1 s1' ptr)

/-- When a relocation that stands alone is handled correctly. The check of `jal` lets through the
even displacements of 22 bits, of which the field holds 21; a call is not checked, and `jalr` clears
the lowest bit of its target. -/
def DirectSafe (t : DirectType) (addr val : BitVec 64) : Prop :=
  match t with
  | .branch | .rvcBranch | .rvcJump => True
  | .jal =>
    (val - addr).getLsbD 0 = false → FitsSigned 22 (val - addr) → FitsSigned 21 (val - addr)
  | .call | .callPlt => FitsSigned 32 (val - addr + 0x800#64) ∧ val.getLsbD 0 = false

/-- A target is the right one exactly when the immediate is the displacement. -/
theorem add_imm_sub_eq_iff (addr imm disp : BitVec 64) :
    addr + imm - addr = disp ↔ imm = disp := by
  rw [add_sub_cancel_left]

/-- Bytes outside a patched word are kept. -/
theorem mem_write32le (s1 : TCCState) (ptr : Nat) (w : BitVec 32) {a : Nat}
    (h : a < ptr ∨ ptr + 4 ≤ a) : (s1.write32le ptr w).mem a = s1.mem a :=
  Memory.store_of_disjoint s1.mem ptr 4 w h

theorem mem_write64le (s1 : TCCState) (ptr : Nat) (w : BitVec 64) {a : Nat}
    (h : a < ptr ∨ ptr + 8 ≤ a) : (s1.write64le ptr w).mem a = s1.mem a :=
  Memory.store_of_disjoint s1.mem ptr 8 w h

theorem mem_write8 (s1 : TCCState) (ptr : Nat) (w : BitVec 8) {a : Nat}
    (h : a < ptr ∨ ptr + 1 ≤ a) : (s1.write8 ptr w).mem a = s1.mem a :=
  Memory.store_of_disjoint s1.mem ptr 1 w h

theorem mem_write16le (s1 : TCCState) (ptr : Nat) (w : BitVec 16) {a : Nat}
    (h : a < ptr ∨ ptr + 2 ≤ a) : (s1.write16le ptr w).mem a = s1.mem a :=
  Memory.store_of_disjoint s1.mem ptr 2 w h

/-- **`R_RISCV_BRANCH`** is always handled correctly. -/
theorem branch_correct (s1 : TCCState) (rel : ElfRel) (ptr : Nat) (addr val : BitVec 64) :
    DirectCorrect s1 rel .branch ptr addr val := by
  unfold DirectCorrect
  simp only [DirectType.toReloc, relocate, Reports, executedTarget, KeepsRest, DirectType.width]
  by_cases hc : outOfMask (val - addr) (1#64 <<< 12) 0x1ffe#64 = true
  · left
    exact (TCCState.errorIf_errors_ne_iff s1 _ _).2 hc
  · right
    have hbias : 1#64 <<< 12 = BitVec.ofNat 64 (2 ^ 12) := by decide
    rw [Bool.not_eq_true, hbias] at hc
    have hfit := (outOfMask_eq_false_iff (n := 12) (by decide) (by decide) _).1 hc
    simp only [TCCState.read32le_write32le, TCCState.read32le_errorIf, branchTarget,
      immB_patchBranch, add_imm_sub_eq_iff]
    refine ⟨(signExtend_even_eq_iff (by decide) _).2 hfit, ?_, sameOutside_patchBranch _ _⟩
    intro a ha
    rw [mem_write32le _ _ _ ha, TCCState.errorIf_mem]

/-- **`R_RISCV_RVC_BRANCH`** is always handled correctly. -/
theorem rvcBranch_correct (s1 : TCCState) (rel : ElfRel) (ptr : Nat) (addr val : BitVec 64) :
    DirectCorrect s1 rel .rvcBranch ptr addr val := by
  unfold DirectCorrect
  simp only [DirectType.toReloc, relocate, Reports, executedTarget, KeepsRest, DirectType.width]
  by_cases hc : outOfMask (val - addr) (1#64 <<< 8) 0x1fe#64 = true
  · left
    exact (TCCState.errorIf_errors_ne_iff s1 _ _).2 hc
  · right
    have hbias : 1#64 <<< 8 = BitVec.ofNat 64 (2 ^ 8) := by decide
    rw [Bool.not_eq_true, hbias] at hc
    have hfit := (outOfMask_eq_false_iff (n := 8) (by decide) (by decide) _).1 hc
    simp only [TCCState.read16le_write16le, TCCState.read16le_errorIf, cbTarget,
      immCB_patchRvcBranch, add_imm_sub_eq_iff]
    refine ⟨(signExtend_even_eq_iff (by decide) _).2 hfit, ?_, sameOutside_patchRvcBranch _ _⟩
    intro a ha
    rw [mem_write16le _ _ _ ha, TCCState.errorIf_mem]

/-- **`R_RISCV_RVC_JUMP`** is always handled correctly. -/
theorem rvcJump_correct (s1 : TCCState) (rel : ElfRel) (ptr : Nat) (addr val : BitVec 64) :
    DirectCorrect s1 rel .rvcJump ptr addr val := by
  unfold DirectCorrect
  simp only [DirectType.toReloc, relocate, Reports, executedTarget, KeepsRest, DirectType.width]
  by_cases hc : outOfMask (val - addr) (1#64 <<< 11) 0xffe#64 = true
  · left
    exact (TCCState.errorIf_errors_ne_iff s1 _ _).2 hc
  · right
    have hbias : 1#64 <<< 11 = BitVec.ofNat 64 (2 ^ 11) := by decide
    rw [Bool.not_eq_true, hbias] at hc
    have hfit := (outOfMask_eq_false_iff (n := 11) (by decide) (by decide) _).1 hc
    simp only [TCCState.read16le_write16le, TCCState.read16le_errorIf, cjTarget,
      immCJ_patchRvcJump, add_imm_sub_eq_iff]
    refine ⟨(signExtend_even_eq_iff (by decide) _).2 hfit, ?_, sameOutside_patchRvcJump _ _⟩
    intro a ha
    rw [mem_write16le _ _ _ ha, TCCState.errorIf_mem]

/-- **`R_RISCV_JAL`** is handled correctly exactly when the displacement is rejected by the check
or fits the 21 bits of the field: the check is one bit too wide. -/
theorem jal_correct_iff (s1 : TCCState) (rel : ElfRel) (ptr : Nat) (addr val : BitVec 64) :
    DirectCorrect s1 rel .jal ptr addr val ↔ DirectSafe .jal addr val := by
  unfold DirectCorrect DirectSafe
  simp only [DirectType.toReloc, relocate, Reports, executedTarget, KeepsRest, DirectType.width]
  have hbias : 1#64 <<< 21 = BitVec.ofNat 64 (2 ^ 21) := by decide
  have hmask : (1#64 <<< 22) - 2#64 = BitVec.ofNat 64 (2 ^ (21 + 1) - 2) := by decide
  have hcheck := outOfMask_eq_false_iff (n := 21) (by decide) (by decide) (val - addr)
  rw [← hbias, ← hmask] at hcheck
  rw [show ∀ s' d c, (TCCState.write32le (s1.errorIf c d) ptr s').errors = (s1.errorIf c d).errors
    from fun _ _ _ => rfl, TCCState.errorIf_errors_ne_iff]
  simp only [TCCState.read32le_write32le, TCCState.read32le_errorIf, jalTarget, immJ_patchJal,
    add_imm_sub_eq_iff]
  rw [signExtend_even_eq_iff (by decide)]
  constructor
  · rintro (herr | ⟨⟨-, hfit⟩, -⟩) h0 h22
    · rw [hcheck.2 ⟨h0, h22⟩] at herr
      exact absurd herr (by decide)
    · exact hfit
  · intro hsafe
    by_cases hc : outOfMask (val - addr) (1#64 <<< 21) ((1#64 <<< 22) - 2#64) = true
    · left
      exact hc
    · right
      obtain ⟨h0, h22⟩ := hcheck.1 (Bool.not_eq_true _ ▸ hc)
      refine ⟨⟨h0, hsafe h0 h22⟩, ?_, sameOutside_patchJal _ _⟩
      intro a ha
      rw [mem_write32le _ _ _ ha, TCCState.errorIf_mem]

/-- What a call's instruction pair computes: the displacement, if the range allows it, with the
lowest bit of the target cleared. -/
theorem callTarget_iff (w w' : BitVec 32) (addr val : BitVec 64) :
    jalrTarget (auipcValue addr (patchCallHi w (val - addr))) (patchLoI w' (val - addr)) - addr
        = val - addr
      ↔ FitsSigned 32 (val - addr + 0x800#64) ∧ val.getLsbD 0 = false := by
  rw [jalrTarget, auipcValue, immU_patchCallHi, immI_patchLoI, sub_left_inj]
  exact jalr_pair_eq_iff addr val

/-- **A call** is handled correctly exactly when the displacement is in the range of the
instruction pair and the target is even: nothing is checked. -/
theorem call_correct_iff (s1 : TCCState) (rel : ElfRel) (ptr : Nat) (addr val : BitVec 64) :
    DirectCorrect s1 rel .call ptr addr val ↔ DirectSafe .call addr val := by
  unfold DirectCorrect DirectSafe
  simp only [DirectType.toReloc, relocate, Reports, executedTarget, KeepsRest, DirectType.width]
  have hnoerr : ∀ s' p w p' w', (TCCState.write32le (TCCState.write32le s' p w) p' w').errors
      = s'.errors := fun _ _ _ _ _ => rfl
  have hfirst : ∀ s' w', (TCCState.write32le s' (ptr + 4) w').read32le ptr = s'.read32le ptr :=
    fun s' w' => s'.read32le_write32le_of_disjoint (ptr + 4) w' (by omega)
  have hsecond : ∀ s' w', (TCCState.write32le s' ptr w').read32le (ptr + 4)
      = s'.read32le (ptr + 4) :=
    fun s' w' => s'.read32le_write32le_of_disjoint ptr w' (by omega)
  rw [hnoerr]
  simp only [hfirst, hsecond, TCCState.read32le_write32le, ne_eq, not_true_eq_false, false_or,
    callTarget_iff]
  constructor
  · rintro ⟨hsafe, -⟩
    exact hsafe
  · intro hsafe
    refine ⟨hsafe, ?_, sameOutside_patchCallHi _ _, sameOutside_patchLoI _ _⟩
    intro a ha
    rw [mem_write32le _ _ _ (by omega), mem_write32le _ _ _ (by omega)]

/-- `R_RISCV_CALL_PLT` is handled by the same case. -/
theorem callPlt_correct_iff (s1 : TCCState) (rel : ElfRel) (ptr : Nat) (addr val : BitVec 64) :
    DirectCorrect s1 rel .callPlt ptr addr val ↔ DirectSafe .callPlt addr val :=
  call_correct_iff s1 rel ptr addr val

/-- Each relocation that stands alone is handled correctly exactly when `DirectSafe` says so. -/
theorem direct_correct_iff (s1 : TCCState) (rel : ElfRel) (t : DirectType) (ptr : Nat)
    (addr val : BitVec 64) :
    DirectCorrect s1 rel t ptr addr val ↔ DirectSafe t addr val := by
  cases t with
  | branch => exact iff_of_true (branch_correct s1 rel ptr addr val) trivial
  | jal => exact jal_correct_iff s1 rel ptr addr val
  | call => exact call_correct_iff s1 rel ptr addr val
  | callPlt => exact callPlt_correct_iff s1 rel ptr addr val
  | rvcBranch => exact iff_of_true (rvcBranch_correct s1 rel ptr addr val) trivial
  | rvcJump => exact iff_of_true (rvcJump_correct s1 rel ptr addr val) trivial

/-! ## `HI20` relocations and their `LO12` -/

namespace RelocType

/-- The relocations of an `auipc` that later `LO12` relocations refer to. -/
def IsHi20 (type : RelocType) : Prop := type = .pcrelHi20 ∨ type = .gotHi20

instance (type : RelocType) : Decidable type.IsHi20 := inferInstanceAs (Decidable (_ ∨ _))

/-- The relocations of the instruction that adds the lower 12 bits. -/
def IsLo12 (type : RelocType) : Prop := type = .pcrelLo12I ∨ type = .pcrelLo12S

instance (type : RelocType) : Decidable type.IsLo12 := inferInstanceAs (Decidable (_ ∨ _))

/-- Number of bytes `relocate` may change from `ptr` on. -/
def width : RelocType → Nat
  | align | relax | relative | pcrel32 | copy | other _ => 0
  | set6 | set8 | set16 | sub6 | sub8 => 1
  | rvcBranch | rvcJump | add16 | sub16 => 2
  | branch | jal | pcrelHi20 | gotHi20 | pcrelLo12I | pcrelLo12S | abs32 | add32 | sub32 => 4
  | call | callPlt | abs64 | jumpSlot | add64 | sub64 => 8

end RelocType

/-- A relocation to apply: its record, type, place, load address and symbol value. -/
structure Reloc where
  rel : ElfRel
  type : RelocType
  ptr : Nat
  addr : BitVec 64
  val : BitVec 64

def applyReloc (s1 : TCCState) (r : Reloc) : TCCState :=
  relocate s1 r.rel r.type r.ptr r.addr r.val

/-- A section's relocations are applied one after the other. -/
def relocateAll (s1 : TCCState) (rs : List Reloc) : TCCState := rs.foldl applyReloc s1

/-- A byte range that a relocation does not reach. -/
def Reloc.Apart (r : Reloc) (p n : Nat) : Prop := r.ptr + r.type.width ≤ p ∨ p + n ≤ r.ptr

instance (r : Reloc) (p n : Nat) : Decidable (r.Apart p n) :=
  inferInstanceAs (Decidable (_ ∨ _))

/-- One relocation changes only its own bytes. -/
theorem relocate_mem (s1 : TCCState) (rel : ElfRel) (type : RelocType) (ptr : Nat)
    (addr val : BitVec 64) {a : Nat} (h : a < ptr ∨ ptr + type.width ≤ a) :
    (relocate s1 rel type ptr addr val).mem a = s1.mem a := by
  cases type with
  | align | relax | relative | pcrel32 | copy | other => rfl
  | branch | jal | pcrelLo12I | pcrelLo12S =>
    exact (mem_write32le _ _ _ h).trans (by rw [TCCState.errorIf_mem])
  | rvcBranch | rvcJump => exact (mem_write16le _ _ _ h).trans (by rw [TCCState.errorIf_mem])
  | call | callPlt =>
    simp only [RelocType.width] at h
    exact (mem_write32le _ (ptr + 4) _ (by omega)).trans (mem_write32le _ ptr _ (by omega))
  | pcrelHi20 =>
    rw [relocate, TCCState.setLastHi_mem, mem_write32le _ _ _ h, TCCState.errorIf_mem]
  | gotHi20 =>
    rw [relocate, mem_write32le _ _ _ h, TCCState.setLastHi_mem, TCCState.errorIf_mem]
  | abs32 =>
    refine (mem_write32le _ _ _ h).trans ?_
    cases s1.outputDyn <;> rfl
  | abs64 =>
    simp only [relocate]
    split
    · split
      · rfl
      · exact mem_write64le _ _ _ h
    · exact mem_write64le _ _ _ h
  | jumpSlot | add64 | sub64 => exact mem_write64le _ _ _ h
  | add32 | sub32 => exact mem_write32le _ _ _ h
  | add16 | sub16 => exact mem_write16le _ _ _ h
  | set6 | set8 | set16 | sub6 | sub8 => exact mem_write8 _ _ _ h

/-- Only the `HI20` relocations move `last_hi`. -/
theorem relocate_lastHi (s1 : TCCState) (rel : ElfRel) (type : RelocType) (ptr : Nat)
    (addr val : BitVec 64) (h : ¬ type.IsHi20) :
    (relocate s1 rel type ptr addr val).lastHi = s1.lastHi := by
  cases type with
  | pcrelHi20 => exact absurd (Or.inl rfl) h
  | gotHi20 => exact absurd (Or.inr rfl) h
  | branch | jal | pcrelLo12I | pcrelLo12S =>
    rw [relocate, TCCState.write32le_lastHi, TCCState.errorIf_lastHi]
  | rvcBranch | rvcJump => exact TCCState.errorIf_lastHi s1 _ _
  | abs32 =>
    simp only [relocate]
    cases s1.outputDyn <;> rfl
  | abs64 =>
    simp only [relocate]
    split
    · split <;> rfl
    · rfl
  | _ => rfl

/-- A run of relocations that stay away from a byte range keeps it. -/
theorem relocateAll_agreeOn (rs : List Reloc) (s1 : TCCState) {p n : Nat}
    (h : ∀ r ∈ rs, r.Apart p n) : Memory.AgreeOn s1.mem (relocateAll s1 rs).mem p n := by
  induction rs generalizing s1 with
  | nil =>
    intro a _ _
    rfl
  | cons r rs ih =>
    have hstep : Memory.AgreeOn s1.mem (applyReloc s1 r).mem p n := by
      intro a ha ha'
      have hr := h r List.mem_cons_self
      simp only [Reloc.Apart] at hr
      exact relocate_mem s1 r.rel r.type r.ptr r.addr r.val (by omega)
    exact hstep.trans (ih (applyReloc s1 r) fun r' hr' => h r' (List.mem_cons_of_mem r hr'))

/-- A run without `HI20` relocations keeps `last_hi`. -/
theorem relocateAll_lastHi (rs : List Reloc) (s1 : TCCState) (h : ∀ r ∈ rs, ¬ r.type.IsHi20) :
    (relocateAll s1 rs).lastHi = s1.lastHi := by
  induction rs generalizing s1 with
  | nil => rfl
  | cons r rs ih =>
    have hstep : (applyReloc s1 r).lastHi = s1.lastHi :=
      relocate_lastHi s1 r.rel r.type r.ptr r.addr r.val (h r List.mem_cons_self)
    exact (ih (applyReloc s1 r) fun r' hr' => h r' (List.mem_cons_of_mem r hr')).trans hstep

/-- The value a `HI20` relocation refers to: the symbol, or its slot in the GOT. -/
def hiValue (s1 : TCCState) (hi : Reloc) : BitVec 64 :=
  if hi.type = .gotHi20 then gotSlot s1 hi.rel.rSym else hi.val

/-- A `HI20` relocation, the next `LO12` relocation that follows it in the section, and what is
relocated between the two: other instructions than the `auipc`. -/
structure HiLoRun where
  hi : Reloc
  between : List Reloc
  lo : Reloc
  hi_type : hi.type.IsHi20
  lo_type : lo.type.IsLo12
  between_noHi : ∀ r ∈ between, ¬ r.type.IsHi20
  between_apart : ∀ r ∈ between, r.Apart hi.ptr 4
  lo_apart : lo.Apart hi.ptr 4

namespace HiLoRun

/-- The states after the `auipc` was patched, before and after the other instruction was. -/
def afterHi (r : HiLoRun) (s1 : TCCState) : TCCState := applyReloc s1 r.hi
def beforeLo (r : HiLoRun) (s1 : TCCState) : TCCState := relocateAll (r.afterHi s1) r.between
def afterLo (r : HiLoRun) (s1 : TCCState) : TCCState := applyReloc (r.beforeLo s1) r.lo

/-- The address the pair in memory computes when its `auipc` is executed at `hi.addr`. -/
def address (r : HiLoRun) (s1 : TCCState) : BitVec 64 :=
  let base := auipcValue r.hi.addr (s1.read32le r.hi.ptr)
  if r.lo.type = .pcrelLo12S then addrS base (s1.read32le r.lo.ptr)
  else addrI base (s1.read32le r.lo.ptr)

/-- The bits of the second instruction that hold its immediate. -/
def loMask (r : HiLoRun) : BitVec 32 := if r.lo.type = .pcrelLo12S then maskS else maskI

/-- Either relocation of the pair is reported as an error, or the pair computes the referenced
address and only the two immediate fields have changed. -/
def Correct (r : HiLoRun) (s1 : TCCState) : Prop :=
  Reports s1 (r.afterHi s1) ∨ Reports (r.beforeLo s1) (r.afterLo s1) ∨
    (r.address (r.afterLo s1) - r.hi.addr = hiValue s1 r.hi - r.hi.addr ∧
      SameOutside maskU (s1.read32le r.hi.ptr) ((r.afterLo s1).read32le r.hi.ptr) ∧
      SameOutside r.loMask ((r.beforeLo s1).read32le r.lo.ptr)
        ((r.afterLo s1).read32le r.lo.ptr) ∧
      (∀ a, a < r.hi.ptr ∨ r.hi.ptr + 4 ≤ a → (r.afterHi s1).mem a = s1.mem a) ∧
      ∀ a, a < r.lo.ptr ∨ r.lo.ptr + 4 ≤ a → (r.afterLo s1).mem a = (r.beforeLo s1).mem a)

/-- When a pair is handled correctly: its `LO12` names another `auipc`, which is reported, or the
displacement is not one of those that the check lets through although `auipc` cannot span them. -/
def Safe (r : HiLoRun) (s1 : TCCState) : Prop :=
  r.lo.val = r.hi.addr →
  FitsSigned 33 (hiValue s1 r.hi - r.hi.addr + 0x800#64) →
  FitsSigned 32 (hiValue s1 r.hi - r.hi.addr + 0x800#64)

end HiLoRun

/-- What a `HI20` relocation does. -/
theorem applyReloc_hi20 (s1 : TCCState) (hi : Reloc) (h : hi.type.IsHi20) :
    (Reports s1 (applyReloc s1 hi) ↔ outOfHi20 (hi20Of (hiValue s1 hi - hi.addr)) = true) ∧
    (applyReloc s1 hi).lastHi = ⟨hi.addr, hiValue s1 hi⟩ ∧
    (applyReloc s1 hi).read32le hi.ptr
      = patchHi20 (s1.read32le hi.ptr) (hi20Of (hiValue s1 hi - hi.addr)) := by
  obtain ⟨rel, type, ptr, addr, val⟩ := hi
  rcases h with h | h <;> obtain rfl : type = _ := h
  · rw [hiValue, if_neg (show RelocType.pcrelHi20 ≠ .gotHi20 by decide)]
    refine ⟨?_, rfl, ?_⟩
    · rw [Reports, applyReloc, relocate, TCCState.setLastHi_errors, TCCState.write32le_errors,
        TCCState.errorIf_errors_ne_iff]
    · rw [applyReloc, relocate, TCCState.read32le_setLastHi, TCCState.read32le_write32le,
        TCCState.read32le_errorIf]
  · rw [hiValue, if_pos rfl]
    refine ⟨?_, rfl, ?_⟩
    · rw [Reports, applyReloc, relocate, TCCState.write32le_errors, TCCState.setLastHi_errors,
        TCCState.errorIf_errors_ne_iff]
    · rw [applyReloc, relocate, TCCState.read32le_write32le, TCCState.read32le_setLastHi,
        TCCState.read32le_errorIf]

/-- What a `LO12` relocation does. -/
theorem applyReloc_lo12 (s1 : TCCState) (lo : Reloc) (h : lo.type.IsLo12) :
    (Reports s1 (applyReloc s1 lo) ↔ lo.val ≠ s1.lastHi.addr) ∧
    (applyReloc s1 lo).read32le lo.ptr
      = if lo.type = .pcrelLo12S
        then patchLoS (s1.read32le lo.ptr) (s1.lastHi.val - s1.lastHi.addr)
        else patchLoI (s1.read32le lo.ptr) (s1.lastHi.val - s1.lastHi.addr) := by
  obtain ⟨rel, type, ptr, addr, val⟩ := lo
  rcases h with h | h <;> obtain rfl : type = _ := h
  · rw [if_neg (show RelocType.pcrelLo12I ≠ .pcrelLo12S by decide)]
    refine ⟨?_, ?_⟩
    · rw [Reports, applyReloc, relocate, TCCState.write32le_errors,
        TCCState.errorIf_errors_ne_iff, bne_iff_ne]
    · rw [applyReloc, relocate, TCCState.read32le_write32le, TCCState.read32le_errorIf,
        TCCState.errorIf_lastHi]
  · rw [if_pos rfl]
    refine ⟨?_, ?_⟩
    · rw [Reports, applyReloc, relocate, TCCState.write32le_errors,
        TCCState.errorIf_errors_ne_iff, bne_iff_ne]
    · rw [applyReloc, relocate, TCCState.read32le_write32le, TCCState.read32le_errorIf,
        TCCState.errorIf_lastHi]

namespace HiLoRun

/-- The relocations between and the `LO12` leave the patched `auipc` and `last_hi` alone. -/
theorem beforeLo_spec (r : HiLoRun) (s1 : TCCState) :
    (r.beforeLo s1).lastHi = ⟨r.hi.addr, hiValue s1 r.hi⟩ ∧
    (r.afterLo s1).read32le r.hi.ptr
      = patchHi20 (s1.read32le r.hi.ptr) (hi20Of (hiValue s1 r.hi - r.hi.addr)) := by
  obtain ⟨-, hlast, hword⟩ := applyReloc_hi20 s1 r.hi r.hi_type
  have hbetween := relocateAll_agreeOn r.between (r.afterHi s1) r.between_apart
  have hlo : Memory.AgreeOn (r.beforeLo s1).mem (r.afterLo s1).mem r.hi.ptr 4 := by
    intro a ha ha'
    have happ := r.lo_apart
    simp only [Reloc.Apart] at happ
    exact relocate_mem _ r.lo.rel r.lo.type r.lo.ptr r.lo.addr r.lo.val (by omega)
  constructor
  · rw [beforeLo, relocateAll_lastHi r.between _ r.between_noHi]
    exact hlast
  · rw [← hword]
    exact Memory.load_congr (hbetween.trans hlo)

/-- What the patched pair computes. -/
theorem address_iff (r : HiLoRun) (s1 : TCCState) :
    r.address (r.afterLo s1) - r.hi.addr = hiValue s1 r.hi - r.hi.addr
      ↔ FitsSigned 32 (hiValue s1 r.hi - r.hi.addr + 0x800#64) := by
  obtain ⟨hlast, hword⟩ := r.beforeLo_spec s1
  have hlow := (applyReloc_lo12 (r.beforeLo s1) r.lo r.lo_type).2
  rw [hlast] at hlow
  rw [address, afterLo, hlow, ← afterLo, hword]
  generalize hiValue s1 r.hi - r.hi.addr = disp
  have hsum : ∀ imm, auipcValue r.hi.addr (patchHi20 (s1.read32le r.hi.ptr) (hi20Of disp)) +
      imm - r.hi.addr =
      ((disp + 0x800#64).extractLsb' 12 20 ++ 0#12).signExtend 64 + imm := by
    intro imm
    rw [auipcValue, immU_patchHi20, hi20Of_field, add_assoc, add_sub_cancel_left]
  by_cases hs : r.lo.type = .pcrelLo12S
  · rw [if_pos hs, if_pos hs, addrS, immS_patchLoS, hsum, upper_add_signed_lower_eq_iff]
  · rw [if_neg hs, if_neg hs, addrI, immI_patchLoI, hsum, upper_add_signed_lower_eq_iff]

/-- **A pair** is handled correctly exactly when `Safe` says so: the check of the `auipc` is one
bit too wide. -/
theorem correct_iff (r : HiLoRun) (s1 : TCCState) : r.Correct s1 ↔ r.Safe s1 := by
  obtain ⟨hreports, -, -⟩ := applyReloc_hi20 s1 r.hi r.hi_type
  obtain ⟨hlast, hword⟩ := r.beforeLo_spec s1
  obtain ⟨hloReports, hloWord⟩ := applyReloc_lo12 (r.beforeLo s1) r.lo r.lo_type
  rw [hlast] at hloReports
  unfold Correct Safe
  rw [afterHi, hreports, afterLo, hloReports, ← afterLo, r.address_iff]
  constructor
  · rintro (herr | herr | ⟨hfit, -⟩) hval h33
    · rw [(outOfHi20_eq_false_iff _).2 h33] at herr
      exact absurd herr (by decide)
    · exact absurd hval herr
    · exact hfit
  · intro hsafe
    by_cases hval : r.lo.val = r.hi.addr
    · cases hc : outOfHi20 (hi20Of (hiValue s1 r.hi - r.hi.addr)) with
      | true => exact Or.inl rfl
      | false =>
        right
        right
        refine ⟨hsafe hval ((outOfHi20_eq_false_iff _).1 hc), ?_, ?_, ?_, ?_⟩
        · rw [hword]
          exact sameOutside_patchHi20 _ _
        · rw [afterLo, hloWord, loMask]
          split
          · exact sameOutside_patchLoS _ _
          · exact sameOutside_patchLoI _ _
        · intro a ha
          have hw : r.hi.type.width = 4 := by
            rcases r.hi_type with h | h <;> rw [h] <;> rfl
          exact relocate_mem s1 _ _ _ _ _ (by omega)
        · intro a ha
          have hw : r.lo.type.width = 4 := by
            rcases r.lo_type with h | h <;> rw [h] <;> rfl
          exact relocate_mem _ _ _ _ _ _ (by omega)
    · exact Or.inr (Or.inl hval)

end HiLoRun

/-- **Pc-relative relocations.** Each relocation, or pair of relocations, is rejected or reaches
exactly its target with all other bits kept, exactly when its displacement is not one that a check
lets through although the field cannot hold it. -/
theorem relocate_pcrel_correct_iff (s1 : TCCState) (rel : ElfRel) (t : DirectType) (ptr : Nat)
    (addr val : BitVec 64) (r : HiLoRun) :
    (DirectCorrect s1 rel t ptr addr val ↔ DirectSafe t addr val) ∧ (r.Correct s1 ↔ r.Safe s1) :=
  ⟨direct_correct_iff s1 rel t ptr addr val, HiLoRun.correct_iff r s1⟩

/-- A linker state with empty sections. -/
def TCCState.empty : TCCState where
  outputDyn := false
  gotShAddr := 0#64
  getSymAttr _ := ⟨0#32, 0⟩
  symName _ := ""
  lastHi := ⟨0#64, 0#64⟩
  qrel := []
  errors := []
  mem _ := 0#8

/-- A `jal` to a target 1 MiB ahead and a call to a target 4 GiB ahead are neither rejected nor
patched to reach it; the same holds of an `auipc` pair and a target 3 GiB ahead. -/
theorem relocate_pcrel_out_of_reach :
    ¬ DirectCorrect .empty ⟨0#64, 0, .jal, 0#64⟩ .jal 0 0#64 0x100000#64 ∧
    ¬ DirectCorrect .empty ⟨0#64, 0, .call, 0#64⟩ .call 0 0#64 0x100000000#64 ∧
    ∃ r : HiLoRun, r.hi.addr = 0#64 ∧ r.hi.val = 0xc0000000#64 ∧ ¬ r.Correct .empty := by
  refine ⟨?_, ?_, ⟨⟨⟨0#64, 0, .pcrelHi20, 0#64⟩, .pcrelHi20, 0, 0#64, 0xc0000000#64⟩, [],
    ⟨⟨4#64, 0, .pcrelLo12I, 0#64⟩, .pcrelLo12I, 4, 4#64, 0#64⟩, by decide, by decide, by simp,
    by simp, by decide⟩, rfl, rfl, ?_⟩
  · rw [direct_correct_iff]
    intro h
    exact absurd (h (by decide) (by decide)) (by decide)
  · rw [direct_correct_iff]
    intro h
    exact absurd h.1 (by decide)
  · rw [HiLoRun.correct_iff]
    intro h
    exact absurd (h rfl (by decide)) (by decide)

end TccRiscv64.Link
