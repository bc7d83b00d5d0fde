import TccRiscv64.Gen.Jumps
import TccRiscv64.Isa.Ram

set_option autoImplicit false

/-! # Stack frames

The code that `gfunc_epilog` puts at the end of a function and into the five words left free at its
beginning: it saves and restores the return address and the frame pointer. The large frames take
their size from a register, in code behind the function that the prologue jumps to and back from. -/

namespace TccRiscv64.Gen

open TccRiscv64.Isa

/-! ## The code -/

abbrev regRa : XReg := 1#5
abbrev regSp : XReg := 2#5
abbrev regT0 : XReg := 5#5
abbrev regS0 : XReg := 8#5

/-- The code of a frame. -/
structure FrameCode where
  /-- at `func_sub_sp_offset` -/
  prologue : List Word
  /-- the word that fills the free space behind the prologue -/
  pad : List Word
  /-- at the end of the function -/
  epilogue : List Word
  /-- at `large_ofs_ind` -/
  outOfLine : List Word

/-- `(-loc + 15) & -16`, after `loc` was lowered by the saved argument registers. -/
def frameSize (loc va : BitVec 32) : BitVec 32 := (-(loc - va) + 15#32) &&& -16#32

section Model

variable (d va : BitVec 32)

/-- The first words of the prologue. -/
def saveFrame : Option (List Word) := do
  some [← ei 0x13#7 0#3 regSp regSp (-d), -- addi sp, sp, -d
    ← es 0x23#7 3#3 regSp regRa (d - 8#32 - va), -- sd ra, d-8(sp)
    ← es 0x23#7 3#3 regSp regS0 (d - 16#32 - va)] -- sd s0, d-16(sp)

/-- The last words of the epilogue. -/
def restoreFrame : Option (List Word) := do
  some [← ei 0x03#7 3#3 regRa regSp (d - 8#32 - va), -- ld ra, v-8(sp)
    ← ei 0x03#7 3#3 regS0 regSp (d - 16#32 - va), -- ld s0, v-16(sp)
    ← ei 0x13#7 0#3 regSp regSp d, -- addi sp, sp, v
    ← ei 0x67#7 0#3 0#5 regRa 0#32] -- ret

/-- `lui` and `addi` of a number to `t0`. -/
def loadT0 (fc : BitVec 32) : Option (List Word) := do
  some [oLui regT0 fc, ← ei 0x13#7 0#3 regT0 regT0 (low12 fc)]

end Model

/-- `gfunc_epilog`, at the offset `ind`, with `va = num_va_regs * 8` and
`subSp = func_sub_sp_offset`. -/
def gfuncEpilog (loc va subSp ind : BitVec 32) : Option FrameCode :=
  let v := frameSize loc va
  if v.toInt < 0x800 then do
    some {
      prologue := (← saveFrame v va) ++ [← ei 0x13#7 0#3 regS0 regSp (v - va)] -- addi s0, sp, d
      pad := [← ei 0x13#7 0#3 0#5 0#5 0#32]
      epilogue := ← restoreFrame v va
      outOfLine := [] }
  else do
    let size ← loadT0 (v - 16#32)
    let largeOfsInd := ind + 28#32
    let jump ← gjmpAddr (subSp + 12#32) largeOfsInd
    some {
      prologue := (← saveFrame 16#32 va) ++ jump
      pad := ← if jump.length = 1 then (ei 0x13#7 0#3 0#5 0#5 0#32).map ([·]) else some []
      epilogue := size ++ [er 0x33#7 0#3 regSp regSp regT0 0#7] ++ (← restoreFrame 16#32 va)
      outOfLine := [← ei 0x13#7 0#3 regS0 regSp (16#32 - va)] ++ size ++
        [er 0x33#7 0#3 regSp regSp regT0 0x20#7] ++
        (← gjmpAddr (largeOfsInd + 16#32) (subSp + 20#32)) }

/-- The stores of `gfunc_prolog` for the last `n` argument registers of a variadic function. -/
def saveVaRegs (n : Nat) : Option (List Word) :=
  (List.range n).mapM fun k =>
    es 0x23#7 3#3 regS0 (BitVec.ofNat 5 (18 - n + k)) (BitVec.ofNat 32 (8 * (k + 1)) - 8#32)

/-! ## What a frame is for -/

/-- The prologue, executed from its first word on, leads to the body, directly or through the code
behind the function. -/
def Enters (f : FrameCode) (code : Code) (base : BitVec 64) (subSp ind : BitVec 32)
    (m m' : Machine) : Prop :=
  let entry := base + subSp.setWidth 64
  let body := base + (subSp + 20#32).setWidth 64
  let largeOfs := base + (ind + 28#32).setWidth 64
  if f.outOfLine = [] then
    steps code (f.prologue ++ f.pad).length ⟨entry, m⟩ = some ⟨body, m'⟩
  else ∃ m1, steps code f.prologue.length ⟨entry, m⟩ = some ⟨largeOfs, m1⟩ ∧
    steps code f.outOfLine.length ⟨largeOfs, m1⟩ = some ⟨body, m'⟩

/-- The program holds the code of the frame. -/
structure Placed (f : FrameCode) (code : Code) (base : BitVec 64) (subSp ind : BitVec 32) :
    Prop where
  prologue : code.At (base + subSp.setWidth 64) (f.prologue ++ f.pad)
  epilogue : code.At (base + ind.setWidth 64) f.epilogue
  outOfLine : code.At (base + (ind + 28#32).setWidth 64) f.outOfLine

/-- The frame that the body of a function finds: local slots down to `loc`, the saved registers at
their upper end, the other argument registers of a variadic function and the arguments on the stack
above, and nothing else changed. -/
structure InFrame (loc : BitVec 32) (n : Nat) (m m' : Machine) : Prop where
  slots : -loc.toInt ≤ (m'.reg regS0 - m'.reg regSp).toInt
  args : m'.reg regS0 + BitVec.ofNat 64 (8 * n) = m.reg regSp
  regs : ∀ x, x ≠ regSp → x ≠ regS0 → x ≠ regT0 → m'.reg x = m.reg x
  mem : ∀ p, 16 ≤ (p - (m'.reg regS0 - 16#64)).toNat → m'.mem p = m.mem p
  vaRegs : ∃ ws m'', saveVaRegs n = some ws ∧ run ws m' = some m'' ∧
    (∀ x, m''.reg x = m'.reg x) ∧
    (∀ k < n, m''.mem.load (m'.reg regS0 + BitVec.ofNat 64 (8 * k)) 8 =
      m'.reg (BitVec.ofNat 5 (18 - n + k))) ∧
    ∀ p, 8 * n ≤ (p - m'.reg regS0).toNat → m''.mem p = m'.mem p

/-- The epilogue returns to the caller with its registers, after any body that leaves the stack
pointer, the frame pointer and the two saved words as it found them. -/
def Leaves (f : FrameCode) (code : Code) (base : BitVec 64) (ind : BitVec 32) (m m' : Machine) :
    Prop :=
  ∀ m2 : Machine, m2.reg regSp = m'.reg regSp → m2.reg regS0 = m'.reg regS0 →
    (∀ i < 16, m2.mem (m'.reg regS0 - 16#64 + BitVec.ofNat 64 i) =
      m'.mem (m'.reg regS0 - 16#64 + BitVec.ofNat 64 i)) →
    ∃ m3, steps code f.epilogue.length ⟨base + ind.setWidth 64, m2⟩ =
        some ⟨m.reg regRa &&& ~~~1#64, m3⟩ ∧
      m3.reg regSp = m.reg regSp ∧ m3.reg regS0 = m.reg regS0 ∧ m3.reg regRa = m.reg regRa

/-- The immediates of the frame code fit, its prologue builds the frame, and its epilogue undoes it. -/
def FrameCorrect (base : BitVec 64) (loc : BitVec 32) (n : Nat) (subSp ind : BitVec 32) : Prop :=
  ∃ f, gfuncEpilog loc (BitVec.ofNat 32 (8 * n)) subSp ind = some f ∧
    ∀ code, Placed f code base subSp ind → ∀ m, ∃ m', Enters f code base subSp ind m m' ∧
      InFrame loc n m m' ∧ Leaves f code base ind m m'

/-- The offsets are numbers of type `int`, and the function begins before it ends. -/
structure FrameOffsets (loc : BitVec 32) (n : Nat) (subSp ind : BitVec 32) : Prop where
  loc : loc.toInt ≤ -16
  vaRegs : n ≤ 8
  slot : subSp.toNat + 20 ≤ ind.toNat
  int : ind.toNat + 64 < 2 ^ 31

/-- The size of a frame as a number. -/
def frameBytes (loc : BitVec 32) (n : Nat) : Int := (-loc.toInt + 8 * n + 15) / 16 * 16

/-- The frame is small, or its size fits the instructions that load it and both jumps are right. -/
def FrameSafe (base : BitVec 64) (loc : BitVec 32) (n : Nat) (subSp ind : BitVec 32) : Prop :=
  frameBytes loc n < 0x800 ∨ frameBytes loc n - 16 + 0x800 < 2 ^ 31 ∧
    JumpSafe base (subSp + 12#32) (ind + 28#32) ∧
    JumpSafe base (ind + 28#32 + 16#32) (subSp + 20#32)

/-! ## Immediates -/

theorem toInt_ofInt_word {x : Int} (hlo : -2 ^ 31 ≤ x) (hhi : x < 2 ^ 31) :
    (BitVec.ofInt 32 x).toInt = x := by
  rw [BitVec.toInt_ofInt]
  exact Int.bmod_eq_of_le (by norm_num at hlo ⊢; omega) (by norm_num at hhi ⊢; omega)

theorem fits12_ofInt {x : Int} (hlo : -2048 ≤ x) (hhi : x < 2048) : Fits12 (BitVec.ofInt 32 x) := by
  have hx := @toInt_ofInt_word x (by omega) (by omega)
  exact fits12_of_toInt (by rw [hx]; exact hlo) (by rw [hx]; exact hhi)

theorem es_of_fits12 {opcode : BitVec 7} {func3 : BitVec 3} {rs1 rs2 : XReg} {imm : BitVec 32}
    (h : Fits12 imm) :
    es opcode func3 rs1 rs2 imm = some (esu opcode func3 rs1 rs2 imm) := if_pos h

theorem ofInt_sub {w : Nat} (x y : Int) :
    BitVec.ofInt w (x - y) = BitVec.ofInt w x - BitVec.ofInt w y := by
  rw [Int.sub_eq_add_neg, BitVec.ofInt_add, BitVec.ofInt_neg, ← sub_eq_add_neg]

theorem immediate_ofInt {x : Int} (hlo : -2048 ≤ x) (hhi : x < 2048) :
    ((BitVec.ofInt 32 x).setWidth 12).signExtend 64 = BitVec.ofInt 64 x := by
  rw [immediate_eq_ofInt (fits12_ofInt hlo hhi), toInt_ofInt_word (by omega) (by omega)]

/-- Masking clears the low four bits. -/
theorem toNat_and_neg16 (x : BitVec 32) : (x &&& -16#32).toNat = x.toNat / 16 * 16 := by
  have h : x &&& -16#32 = (x >>> 4) <<< 4 := by
    apply BitVec.eq_of_getLsbD_eq
    intro i hi
    simp only [BitVec.getLsbD_and, BitVec.getLsbD_shiftLeft, BitVec.getLsbD_ushiftRight]
    interval_cases i <;> simp
  rw [h, BitVec.toNat_shiftLeft, BitVec.toNat_ushiftRight, Nat.shiftRight_eq_div_pow,
    Nat.shiftLeft_eq]
  have := x.isLt
  omega

theorem ofNat_eq_ofInt (w n : Nat) : BitVec.ofNat w (8 * n) = BitVec.ofInt w (8 * n) := by
  rw [← BitVec.ofInt_natCast]
  push_cast
  rfl

theorem frameSize_eq (loc : BitVec 32) (n : Nat) :
    frameSize loc (BitVec.ofNat 32 (8 * n)) = BitVec.ofInt 32 (frameBytes loc n) := by
  have hsum : -(loc - BitVec.ofNat 32 (8 * n)) + 15#32 = BitVec.ofInt 32 (-loc.toInt + 8 * n + 15) := by
    rw [BitVec.ofInt_add, BitVec.ofInt_add, BitVec.ofInt_neg, BitVec.ofInt_toInt, ofNat_eq_ofInt,
      neg_sub, sub_eq_neg_add]
    rfl
  apply BitVec.eq_of_toNat_eq
  rw [frameSize, hsum, toNat_and_neg16, BitVec.toNat_ofInt, BitVec.toNat_ofInt, frameBytes]
  push_cast
  omega

/-! ## The first and the last words -/

/-- The frame pointer that belongs to a stack pointer at entry. -/
def frameBase (m : Machine) (n : Nat) : BitVec 64 := m.reg regSp - BitVec.ofNat 64 (8 * n)

/-- The memory with the two registers saved. -/
def savedMem (m : Machine) (n : Nat) : Ram :=
  (m.mem.store (frameBase m n - 8#64) 8 (m.reg regRa)).store (frameBase m n - 16#64) 8 (m.reg regS0)

section Words

variable {D : Int} {n : Nat}

/-- An immediate of the frame code: an offset from the frame pointer, made relative to the stack
pointer. -/
theorem offset_eq_ofInt (D : Int) (c n : Nat) :
    BitVec.ofInt 32 D - BitVec.ofNat 32 c - BitVec.ofNat 32 (8 * n) =
      BitVec.ofInt 32 (D - c - 8 * n) := by
  rw [ofInt_sub, ofInt_sub, ofNat_eq_ofInt, BitVec.ofInt_natCast]

theorem add_offset (x : BitVec 64) (D : Int) (c n : Nat) :
    x - BitVec.ofInt 64 D + BitVec.ofInt 64 (D - c - 8 * n) =
      x - BitVec.ofNat 64 (8 * n) - BitVec.ofNat 64 c := by
  rw [ofInt_sub, ofInt_sub, ofNat_eq_ofInt, BitVec.ofInt_natCast]
  ring

theorem execWord_sd (m : Machine) (rs1 rs2 : XReg) {x : Int} (hlo : -2048 ≤ x) (hhi : x < 2048) :
    execWord m (esu 0x23#7 3#3 rs1 rs2 (BitVec.ofInt 32 x)) =
      some (m.setMem (m.mem.store (m.reg rs1 + BitVec.ofInt 64 x) 8 (m.reg rs2))) := by
  rw [execWord_store m rs1 rs2 _ (by decide), immediate_ofInt hlo hhi]
  rfl

theorem execWord_ld (m : Machine) (rd rs1 : XReg) {x : Int} (hlo : -2048 ≤ x) (hhi : x < 2048) :
    execWord m (eiu 0x03#7 3#3 rd rs1 (BitVec.ofInt 32 x)) =
      some (m.setReg rd (m.mem.load (m.reg rs1 + BitVec.ofInt 64 x) 8)) := by
  rw [execWord_load m rd rs1 _ (by decide), immediate_ofInt hlo hhi]
  exact congrArg (fun v => some (m.setReg rd v)) (Ram.loadExt_doubleword ..)

theorem execWord_addi_ofInt (m : Machine) (rd rs1 : XReg) {x : Int} (hlo : -2048 ≤ x)
    (hhi : x < 2048) : execWord m (eiu 0x13#7 0#3 rd rs1 (BitVec.ofInt 32 x)) =
      some (m.setReg rd (m.reg rs1 + BitVec.ofInt 64 x)) := by
  rw [← immediate_ofInt hlo hhi]
  exact execWord_addi m false rd rs1 _

theorem run_cons {w : Word} {ws : List Word} {m m1 m2 : Machine} (h : execWord m w = some m1)
    (h' : run ws m1 = some m2) : run (w :: ws) m = some m2 :=
  run_append_of ((run_singleton w m).trans h) h'

theorem saveFrame_run (hlo : 16 ≤ D) (hhi : D < 2048) (hn : n ≤ 8) :
    ∃ ws, saveFrame (BitVec.ofInt 32 D) (BitVec.ofNat 32 (8 * n)) = some ws ∧ ws.length = 3 ∧
      ∀ m, run ws m =
        some ((m.setReg regSp (m.reg regSp - BitVec.ofInt 64 D)).setMem (savedMem m n)) := by
  have hneg : -BitVec.ofInt 32 D = BitVec.ofInt 32 (-D) := BitVec.ofInt_neg.symm
  refine ⟨[eiu 0x13#7 0#3 regSp regSp (BitVec.ofInt 32 (-D)),
    esu 0x23#7 3#3 regSp regRa (BitVec.ofInt 32 (D - (8 : Nat) - 8 * n)),
    esu 0x23#7 3#3 regSp regS0 (BitVec.ofInt 32 (D - (16 : Nat) - 8 * n))], ?_, rfl, fun m => ?_⟩
  · unfold saveFrame
    rw [hneg, offset_eq_ofInt D 8 n, offset_eq_ofInt D 16 n,
      ei_of_fits12 (fits12_ofInt (by omega) (by omega)),
      es_of_fits12 (fits12_ofInt (by omega) (by omega)),
      es_of_fits12 (fits12_ofInt (by omega) (by omega))]
    rfl
  · have hsp : (m.setReg regSp (m.reg regSp - BitVec.ofInt 64 D)).reg regSp =
        m.reg regSp - BitVec.ofInt 64 D := Machine.reg_setReg_self m (by decide) _
    have haddi := execWord_addi_ofInt m regSp regSp (x := -D) (by omega) (by omega)
    have hvalue : m.reg regSp + BitVec.ofInt 64 (-D) = m.reg regSp - BitVec.ofInt 64 D := by
      rw [BitVec.ofInt_neg, ← sub_eq_add_neg]
    rw [hvalue] at haddi
    refine run_cons haddi (run_cons (execWord_sd _ _ _ (by omega) (by omega))
      (run_cons (execWord_sd _ _ _ (by omega) (by omega)) ?_))
    simp only [Machine.reg_setMem, hsp, add_offset]
    rfl

/-- `ret` -/
theorem stepWord_ret (s : Cpu) : stepWord (eiu 0x67#7 0#3 0#5 regRa 0#32) s =
    some ⟨s.machine.reg regRa &&& ~~~1#64, s.machine.setReg 0#5 (s.pc + 4#64)⟩ := by
  have himm : ((0#32).setWidth 12).signExtend 64 = 0#64 := by decide
  simp only [stepWord, opcodeOf_eiu, func3Of_eiu, rs1Of_eiu, rdOf_eiu, if_true, jalrTarget, immI_eiu,
    himm, BitVec.add_zero]

/-- The last words of the epilogue, for a stack pointer `D` below that at entry. -/
theorem restoreFrame_run (hlo : 16 ≤ D) (hhi : D < 2048) (hn : n ≤ 8) :
    ∃ ws, restoreFrame (BitVec.ofInt 32 D) (BitVec.ofNat 32 (8 * n)) =
        some (ws ++ [eiu 0x67#7 0#3 0#5 regRa 0#32]) ∧ ws.length = 3 ∧
      ∀ (m : Machine) (sp : BitVec 64), m.reg regSp = sp - BitVec.ofInt 64 D →
        ∃ m', run ws m = some m' ∧ m'.reg regSp = sp ∧
          m'.reg regRa = m.mem.load (sp - BitVec.ofNat 64 (8 * n) - 8#64) 8 ∧
          m'.reg regS0 = m.mem.load (sp - BitVec.ofNat 64 (8 * n) - 16#64) 8 := by
  refine ⟨[eiu 0x03#7 3#3 regRa regSp (BitVec.ofInt 32 (D - (8 : Nat) - 8 * n)),
    eiu 0x03#7 3#3 regS0 regSp (BitVec.ofInt 32 (D - (16 : Nat) - 8 * n)),
    eiu 0x13#7 0#3 regSp regSp (BitVec.ofInt 32 D)], ?_, rfl, fun m sp hsp => ?_⟩
  · unfold restoreFrame
    rw [offset_eq_ofInt D 8 n, offset_eq_ofInt D 16 n,
      ei_of_fits12 (fits12_ofInt (by omega) (by omega)),
      ei_of_fits12 (fits12_ofInt (by omega) (by omega)),
      ei_of_fits12 (fits12_ofInt (by omega) (by omega)),
      ei_of_fits12 (show Fits12 0#32 by decide)]
    rfl
  · generalize hm1 : m.setReg regRa (m.mem.load
      (m.reg regSp + BitVec.ofInt 64 (D - (8 : Nat) - 8 * n)) 8) = m1
    generalize hm2 : m1.setReg regS0 (m1.mem.load
      (m1.reg regSp + BitVec.ofInt 64 (D - (16 : Nat) - 8 * n)) 8) = m2
    have hsp1 : m1.reg regSp = m.reg regSp := by
      rw [← hm1, Machine.reg_setReg_of_ne _ (by decide)]
    have hmem1 : m1.mem = m.mem := by rw [← hm1, Machine.mem_setReg]
    have hsp2 : m2.reg regSp = m.reg regSp := by
      rw [← hm2, Machine.reg_setReg_of_ne _ (by decide), hsp1]
    have hra : m2.reg regRa = m.mem.load (sp - BitVec.ofNat 64 (8 * n) - 8#64) 8 := by
      rw [← hm2, Machine.reg_setReg_of_ne _ (by decide), ← hm1,
        Machine.reg_setReg_self _ (by decide), hsp, add_offset]
    have hs0 : m2.reg regS0 = m.mem.load (sp - BitVec.ofNat 64 (8 * n) - 16#64) 8 := by
      rw [← hm2, Machine.reg_setReg_self _ (by decide), hsp1, hmem1, hsp, add_offset]
    refine ⟨m2.setReg regSp (m2.reg regSp + BitVec.ofInt 64 D), ?_, ?_, ?_, ?_⟩
    · refine run_cons (hm1 ▸ execWord_ld m _ _ (by omega) (by omega)) ?_
      refine run_cons (hm2 ▸ execWord_ld m1 _ _ (by omega) (by omega)) ?_
      exact run_cons (execWord_addi_ofInt m2 _ _ (by omega) (by omega)) rfl
    · rw [Machine.reg_setReg_self _ (by decide), hsp2, hsp, sub_add_cancel]
    · rw [Machine.reg_setReg_of_ne _ (by decide), hra]
    · rw [Machine.reg_setReg_of_ne _ (by decide), hs0]

/-- What `lui` and `addi` leave of a frame size. -/
theorem upper_add_low12_toInt {x : Int} (hlo : 0 ≤ x) (hhi : x < 2 ^ 31) :
    ((0x800#32 + BitVec.ofInt 32 x) &&& 0xfffff000#32).toInt + (low12 (BitVec.ofInt 32 x)).toInt =
      if x + 0x800 < 2 ^ 31 then x else x - 2 ^ 32 := by
  have hx : (BitVec.ofInt 32 x).toNat = x.toNat := by
    rw [BitVec.toNat_ofInt]
    push_cast
    omega
  rw [BitVec.toInt_eq_toNat_cond, BitVec.toInt_eq_toNat_cond, toNat_and_upper, toNat_low12,
    BitVec.toNat_add, hx]
  simp only [BitVec.toNat_ofNat]
  split <;> split <;> split <;> split <;> omega

theorem loadT0_makes {x : Int} (hlo : 0 ≤ x) (hhi : x < 2 ^ 31) :
    ∃ ws, loadT0 (BitVec.ofInt 32 x) = some ws ∧ ws.length = 2 ∧
      Makes regT0 ws (if x + 0x800 < 2 ^ 31 then x else x - 2 ^ 32) := by
  have hfits := fits12_low12 (BitVec.ofInt 32 x)
  have hmakes := (@makes_lui regT0 (by decide) (BitVec.ofInt 32 x)).addi (by decide) hfits
  rw [upper_add_low12_toInt hlo hhi] at hmakes
  refine ⟨_, ?_, ?_, hmakes⟩
  · rw [loadT0, ei_of_fits12 hfits]
    rfl
  · rfl

end Words

/-! ## The saved argument registers -/

section VaRegs

variable {n : Nat}

/-- The memory after the first `j` of `n` argument registers were saved. -/
def vaMem (m : Machine) (n : Nat) : Nat → Ram
  | 0 => m.mem
  | j + 1 => (vaMem m n j).store (m.reg regS0 + BitVec.ofNat 64 (8 * j)) 8
      (m.reg (BitVec.ofNat 5 (18 - n + j)))

theorem vaMem_of_le (m : Machine) {j : Nat} (hj : j ≤ 8) {p : BitVec 64}
    (hp : 8 * j ≤ (p - m.reg regS0).toNat) : vaMem m n j p = m.mem p := by
  induction j with
  | zero => rfl
  | succ j ih =>
    rw [vaMem, Ram.store_of_le, ih (by omega) (by omega)]
    rw [← sub_sub, BitVec.toNat_sub, BitVec.toNat_ofNat]
    have := (p - m.reg regS0).isLt
    omega

theorem load_vaMem (m : Machine) {j k : Nat} (hj : j ≤ 8) (hk : k < j) :
    (vaMem m n j).load (m.reg regS0 + BitVec.ofNat 64 (8 * k)) 8 =
      m.reg (BitVec.ofNat 5 (18 - n + k)) := by
  induction j with
  | zero => exact absurd hk (Nat.not_lt_zero k)
  | succ j ih =>
    rw [vaMem]
    rcases Nat.lt_succ_iff_lt_or_eq.mp hk with hlt | rfl
    · rw [Ram.load_store_of_apart, ih (by omega) hlt]
      have hdiff : m.reg regS0 + BitVec.ofNat 64 (8 * k) - (m.reg regS0 + BitVec.ofNat 64 (8 * j)) =
          BitVec.ofNat 64 (8 * k) - BitVec.ofNat 64 (8 * j) := by ring
      unfold Ram.Apart
      rw [hdiff, BitVec.toNat_sub, BitVec.toNat_ofNat, BitVec.toNat_ofNat]
      omega
    · exact Ram.load_store ..

theorem mapM_eq_some {α β : Type} {f : α → Option β} {g : α → β} {l : List α}
    (h : ∀ x ∈ l, f x = some (g x)) : l.mapM f = some (l.map g) := by
  induction l with
  | nil => rfl
  | cons x l ih =>
    rw [List.mapM_cons, h x List.mem_cons_self, ih fun y hy => h y (List.mem_cons_of_mem x hy)]
    rfl

theorem saveVaRegs_run (hn : n ≤ 8) : ∃ ws, saveVaRegs n = some ws ∧
    ∀ m, run ws m = some (m.setMem (vaMem m n n)) := by
  have himm : ∀ k, BitVec.ofNat 32 (8 * (k + 1)) - 8#32 = BitVec.ofInt 32 (8 * k) := by
    intro k
    rw [Nat.mul_succ, BitVec.ofNat_add, ← ofNat_eq_ofInt]
    exact add_sub_cancel_right ..
  refine ⟨(List.range n).map fun k => esu 0x23#7 3#3 regS0 (BitVec.ofNat 5 (18 - n + k))
    (BitVec.ofInt 32 (8 * k)), mapM_eq_some fun k hk => ?_, fun m => ?_⟩
  · have := List.mem_range.mp hk
    rw [himm, es_of_fits12 (fits12_ofInt (by omega) (by omega))]
  · -- the stores one after the other, with the memory that `vaMem` tells
    have hrun : ∀ j ≤ n, run ((List.range j).map fun k => esu 0x23#7 3#3 regS0
        (BitVec.ofNat 5 (18 - n + k)) (BitVec.ofInt 32 (8 * k))) m = some (m.setMem (vaMem m n j)) := by
      intro j
      induction j with
      | zero => exact fun _ => rfl
      | succ j ih =>
        intro hj
        rw [List.range_succ, List.map_append, List.map_singleton]
        refine run_snoc (ih (by omega)) ?_
        rw [execWord_sd _ _ _ (by omega) (by omega), ← ofNat_eq_ofInt]
        rfl
    exact hrun n le_rfl

end VaRegs

/-! ## The frame -/

/-- What the prologue leaves: a stack pointer that is `V` lower, and the two registers saved. -/
structure Entered (n : Nat) (V : Int) (m m' : Machine) : Prop where
  sp : m'.reg regSp = m.reg regSp - BitVec.ofInt 64 V
  s0 : m'.reg regS0 = frameBase m n
  regs : ∀ x, x ≠ regSp → x ≠ regS0 → x ≠ regT0 → m'.reg x = m.reg x
  mem : m'.mem = savedMem m n

theorem savedMem_of_le (m : Machine) (n : Nat) {p : BitVec 64}
    (hp : 16 ≤ (p - (frameBase m n - 16#64)).toNat) : savedMem m n p = m.mem p := by
  have hnext : p - (frameBase m n - 8#64) = p - (frameBase m n - 16#64) - 8#64 := by
    rw [show (16#64 : BitVec 64) = 8#64 + 8#64 by decide]
    ring
  rw [savedMem, Ram.store_of_le, Ram.store_of_le]
  · rw [hnext, BitVec.toNat_sub]
    have := (p - (frameBase m n - 16#64)).isLt
    simp only [BitVec.toNat_ofNat]
    omega
  · omega

theorem load_savedMem (m : Machine) (n : Nat) :
    (savedMem m n).load (frameBase m n - 8#64) 8 = m.reg regRa ∧
      (savedMem m n).load (frameBase m n - 16#64) 8 = m.reg regS0 := by
  refine ⟨?_, Ram.load_store ..⟩
  have hdiff : frameBase m n - 8#64 - (frameBase m n - 16#64) = 8#64 := by
    rw [sub_sub_sub_cancel_left]
    decide
  rw [savedMem, Ram.load_store_of_apart, Ram.load_store]
  unfold Ram.Apart
  rw [hdiff]
  decide

/-- The prologue builds a frame exactly if it lowers the stack pointer far enough. -/
theorem Entered.inFrame_iff {loc : BitVec 32} {n : Nat} {V : Int} {m m' : Machine}
    (h : Entered n V m m') (hn : n ≤ 8) : InFrame loc n m m' ↔
      -loc.toInt ≤ (BitVec.ofInt 64 V - BitVec.ofNat 64 (8 * n)).toInt := by
  have hdiff : m'.reg regS0 - m'.reg regSp = BitVec.ofInt 64 V - BitVec.ofNat 64 (8 * n) := by
    rw [h.s0, h.sp, frameBase]
    ring
  constructor
  · intro hframe
    rw [← hdiff]
    exact hframe.slots
  · intro hslots
    obtain ⟨ws, hws, hrun⟩ := saveVaRegs_run hn
    exact {
      slots := by
        rw [hdiff]
        exact hslots
      args := by rw [h.s0, frameBase, sub_add_cancel]
      regs := h.regs
      mem := fun p hp => by
        rw [h.mem]
        exact savedMem_of_le m n (h.s0 ▸ hp)
      vaRegs := ⟨ws, _, hws, hrun m', fun _ => rfl, fun k hk => load_vaMem m' hn hk,
        fun p hp => vaMem_of_le m' hn hp⟩ }

/-- An epilogue that lifts the stack pointer to 16 bytes or less below where it was at entry, restores
the registers and returns. -/
theorem Entered.leaves {f : FrameCode} {code : Code} {base : BitVec 64} {ind : BitVec 32} {n : Nat}
    {V D : Int} {m m' : Machine} (h : Entered n V m m') {adjust ws : List Word}
    (hat : code.At (base + ind.setWidth 64) f.epilogue)
    (hform : f.epilogue = adjust ++ ws ++ [eiu 0x67#7 0#3 0#5 regRa 0#32])
    (hadjust : ∀ m2 : Machine, m2.reg regSp = m.reg regSp - BitVec.ofInt 64 V →
      ∃ m3, run adjust m2 = some m3 ∧ m3.reg regSp = m.reg regSp - BitVec.ofInt 64 D ∧
        m3.mem = m2.mem)
    (hws : ∀ (m3 : Machine) (sp : BitVec 64), m3.reg regSp = sp - BitVec.ofInt 64 D →
        ∃ m4, run ws m3 = some m4 ∧ m4.reg regSp = sp ∧
          m4.reg regRa = m3.mem.load (sp - BitVec.ofNat 64 (8 * n) - 8#64) 8 ∧
          m4.reg regS0 = m3.mem.load (sp - BitVec.ofNat 64 (8 * n) - 16#64) 8) :
    Leaves f code base ind m m' := by
  intro m2 hsp _ hmem
  rw [h.sp] at hsp
  rw [h.s0] at hmem
  obtain ⟨m3, hrun3, hsp3, hmem3⟩ := hadjust m2 hsp
  obtain ⟨m4, hrun4, hsp4, hra4, hs04⟩ := hws m3 (m.reg regSp) hsp3
  have hra : m2.mem.load (frameBase m n - 8#64) 8 = m.reg regRa := by
    rw [← (load_savedMem m n).1, ← h.mem]
    refine Ram.load_congr fun i hi => ?_
    have hnext : frameBase m n - 8#64 + BitVec.ofNat 64 i =
        frameBase m n - 16#64 + BitVec.ofNat 64 (8 + i) := by
      rw [BitVec.ofNat_add, show (16#64 : BitVec 64) = 8#64 + BitVec.ofNat 64 8 by decide]
      ring
    rw [hnext]
    exact hmem (8 + i) (by omega)
  have hs0 : m2.mem.load (frameBase m n - 16#64) 8 = m.reg regS0 := by
    rw [← (load_savedMem m n).2, ← h.mem]
    exact Ram.load_congr fun i hi => hmem i (by omega)
  rw [hmem3] at hra4 hs04
  rw [hform] at hat
  obtain ⟨hatRun, hatRet⟩ := Code.at_append.mp hat
  have hrun : run (adjust ++ ws) m2 = some m4 := run_append_of hrun3 hrun4
  refine ⟨m4.setReg 0#5 (after (base + ind.setWidth 64) (adjust ++ ws) + 4#64), ?_, ?_, ?_, ?_⟩
  · rw [hform, List.length_append, List.length_singleton, steps_add, steps_run hatRun hrun,
      Option.bind_some, steps_one, step, hatRet.1, stepWord_ret]
    simp only [hra4.trans hra]
  · rw [Machine.reg_setReg_of_ne _ (by decide), hsp4]
  · rw [Machine.reg_setReg_of_ne _ (by decide)]
    exact hs04.trans hs0
  · rw [Machine.reg_setReg_of_ne _ (by decide)]
    exact hra4.trans hra

/-! ## Addresses -/

theorem setWidth_add_of_lt {x : BitVec 32} {c : Nat} (h : x.toNat + c < 2 ^ 32) :
    (x + BitVec.ofNat 32 c).setWidth 64 = x.setWidth 64 + BitVec.ofNat 64 c := by
  apply BitVec.eq_of_toNat_eq
  have := x.isLt
  simp only [BitVec.toNat_setWidth, BitVec.toNat_add, BitVec.toNat_ofNat]
  omega

/-- Every code of a frame has its place in some program. -/
theorem exists_placed {f : FrameCode} {loc : BitVec 32} {n : Nat} {subSp ind : BitVec 32}
    (base : BitVec 64) (h : FrameOffsets loc n subSp ind)
    (hpro : (f.prologue ++ f.pad).length = 5)
    (hepi : f.outOfLine ≠ [] → f.epilogue.length = 7) (hlen : f.epilogue.length ≤ 7)
    (hout : f.outOfLine.length ≤ 6) : ∃ code, Placed f code base subSp ind := by
  have hslot := h.slot
  have hint := h.int
  have hdiff : base + ind.setWidth 64 - (base + subSp.setWidth 64) =
      BitVec.ofNat 64 (ind.toNat - subSp.toNat) := by
    apply BitVec.eq_of_toNat_eq
    rw [add_sub_add_left_eq_sub]
    simp only [BitVec.toNat_sub, BitVec.toNat_setWidth, BitVec.toNat_ofNat]
    omega
  have hend : ((Code.place (base + ind.setWidth 64) (f.epilogue ++ f.outOfLine) fun _ => 0#32).At
      (base + ind.setWidth 64) (f.epilogue ++ f.outOfLine)) :=
    Code.at_place _ _ (by rw [List.length_append]; omega)
  have hend := @Code.At.place _ (base + subSp.setWidth 64) _ (f.prologue ++ f.pad) _ hend
    (by rw [hdiff, BitVec.toNat_ofNat]; omega)
    (by rw [hdiff, BitVec.toNat_ofNat, List.length_append]; omega)
  obtain ⟨hatEpi, hatOut⟩ := Code.at_append.mp hend
  refine ⟨_, Code.at_place _ _ (by omega), hatEpi, ?_⟩
  by_cases hnil : f.outOfLine = []
  · rw [hnil]
    trivial
  · have hafter : after (base + ind.setWidth 64) f.epilogue =
        base + (ind + 28#32).setWidth 64 := by
      rw [after, hepi hnil, setWidth_add_of_lt (by omega), add_assoc]
    rw [← hafter]
    exact hatOut

/-! ## Small frames -/

section Frame

variable {base : BitVec 64} {loc : BitVec 32} {n : Nat} {subSp ind : BitVec 32}

theorem frameBytes_bounds (h : FrameOffsets loc n subSp ind) :
    16 ≤ frameBytes loc n ∧ frameBytes loc n < 2 ^ 31 + 2 ^ 7 ∧
      -loc.toInt + 8 * n ≤ frameBytes loc n := by
  have := h.loc
  have := h.vaRegs
  have hlo := BitVec.le_toInt loc
  norm_num at hlo
  unfold frameBytes
  omega

theorem frameBase_eq (m : Machine) (n : Nat) (D : Int) :
    m.reg regSp - BitVec.ofInt 64 D + BitVec.ofInt 64 (D - 8 * n) = frameBase m n := by
  rw [frameBase, ofInt_sub, ofNat_eq_ofInt]
  ring

/-- `addi s0, sp, D` after the registers were saved `D` below. -/
theorem execWord_setS0 {m m1 : Machine} {D : Int} (hlo : 16 ≤ D) (hhi : D < 2048) (hn : n ≤ 8)
    (h : m1.reg regSp = m.reg regSp - BitVec.ofInt 64 D) :
    execWord m1 (eiu 0x13#7 0#3 regS0 regSp (BitVec.ofInt 32 (D - 8 * n))) =
      some (m1.setReg regS0 (frameBase m n)) := by
  rw [execWord_addi_ofInt m1 _ _ (by omega) (by omega), h, frameBase_eq]

theorem setS0_imm (D : Int) (n : Nat) :
    BitVec.ofInt 32 D - BitVec.ofNat 32 (8 * n) = BitVec.ofInt 32 (D - 8 * n) := by
  rw [ofInt_sub, ofNat_eq_ofInt]

theorem execWord_nop (m : Machine) :
    execWord m (eiu 0x13#7 0#3 0#5 0#5 0#32) = some (m.setReg 0#5 (m.reg 0#5 + 0#64)) :=
  execWord_addi_ofInt m 0#5 0#5 (x := 0) (by decide) (by decide)

theorem slots_of_frameBytes (h : FrameOffsets loc n subSp ind) (hhi : frameBytes loc n < 2 ^ 31) :
    -loc.toInt ≤ (BitVec.ofInt 64 (frameBytes loc n) - BitVec.ofNat 64 (8 * n)).toInt := by
  obtain ⟨hlo, -, hslots⟩ := frameBytes_bounds h
  have := h.vaRegs
  rw [ofNat_eq_ofInt, ← ofInt_sub, BitVec.toInt_ofInt,
    Int.bmod_eq_of_le (by norm_num; omega) (by norm_num; omega)]
  omega

theorem frame_small (h : FrameOffsets loc n subSp ind) (hsmall : frameBytes loc n < 0x800) :
    FrameCorrect base loc n subSp ind := by
  obtain ⟨hlo, -, -⟩ := frameBytes_bounds h
  have hn := h.vaRegs
  have hslot := h.slot
  have hint := h.int
  generalize hV : frameBytes loc n = V at hlo hsmall
  obtain ⟨save, hsave, hsavelen, hsaverun⟩ := saveFrame_run hlo hsmall hn
  obtain ⟨rest, hrest, hrestlen, hrestrun⟩ := restoreFrame_run hlo hsmall hn
  refine ⟨⟨save ++ [eiu 0x13#7 0#3 regS0 regSp (BitVec.ofInt 32 (V - 8 * n))],
    [eiu 0x13#7 0#3 0#5 0#5 0#32], rest ++ [eiu 0x67#7 0#3 0#5 regRa 0#32], []⟩, ?_, ?_⟩
  · have hlt : (BitVec.ofInt 32 V).toInt < 0x800 := by
      rw [toInt_ofInt_word (by omega) (by omega)]
      exact hsmall
    unfold gfuncEpilog
    simp only [frameSize_eq, hV, if_pos hlt, hsave, hrest, setS0_imm,
      ei_of_fits12 (fits12_ofInt (show -2048 ≤ V - 8 * n by omega) (by omega)),
      ei_of_fits12 (show Fits12 0#32 by decide)]
    rfl
  · intro code hplaced m
    generalize hm1 : (m.setReg regSp (m.reg regSp - BitVec.ofInt 64 V)).setMem (savedMem m n) = m1
    have hsp1 : m1.reg regSp = m.reg regSp - BitVec.ofInt 64 V := by
      rw [← hm1, Machine.reg_setMem, Machine.reg_setReg_self _ (by decide)]
    generalize hm2 : m1.setReg regS0 (frameBase m n) = m2
    have hset : execWord m1 _ = some m2 := hm2 ▸ execWord_setS0 hlo hsmall hn hsp1
    have hentered : Entered n V m (m2.setReg 0#5 (m2.reg 0#5 + 0#64)) := by
      refine ⟨?_, ?_, fun x hx hx' _ => ?_, ?_⟩
      · rw [Machine.reg_setReg_of_ne _ (by decide), ← hm2, Machine.reg_setReg_of_ne _ (by decide),
          hsp1]
      · rw [Machine.reg_setReg_of_ne _ (by decide), ← hm2, Machine.reg_setReg_self _ (by decide)]
      · rw [(sameBut_setReg_zero regSp m2 _).2 x hx, ← hm2, Machine.reg_setReg_of_ne _ hx', ← hm1,
          Machine.reg_setMem, Machine.reg_setReg_of_ne _ hx]
      · rw [Machine.mem_setReg, ← hm2, Machine.mem_setReg, ← hm1]
        rfl
    refine ⟨_, ?_, (hentered.inFrame_iff hn).mpr (hV ▸ slots_of_frameBytes h (by omega)),
      @Entered.leaves _ _ _ _ _ V V _ _ hentered [] rest hplaced.epilogue rfl
        (fun m2 hsp => ⟨m2, rfl, hsp, rfl⟩) hrestrun⟩
    have hrun := run_append_of (run_append_of (hm1 ▸ hsaverun m) ((run_singleton _ m1).trans hset))
      ((run_singleton _ m2).trans (execWord_nop m2))
    have hsteps := steps_run hplaced.prologue hrun
    have hafter : after (base + subSp.setWidth 64) (save ++ [eiu 0x13#7 0#3 regS0 regSp
        (BitVec.ofInt 32 (V - 8 * n))] ++ [eiu 0x13#7 0#3 0#5 0#5 0#32]) =
        base + (subSp + 20#32).setWidth 64 := by
      rw [after, List.length_append, List.length_append, hsavelen, setWidth_add_of_lt (by omega),
        add_assoc]
      rfl
    rw [hafter] at hsteps
    unfold Enters
    rw [if_pos rfl]
    exact hsteps

/-! ## Large frames -/

theorem gjmpAddr_transfers (base : BitVec 64) (ind a : BitVec 32) :
    ∃ ws t, gjmpAddr ind a = some ws ∧ Transfers ws (base + ind.setWidth 64) t ∧
      (t = base + a.setWidth 64 ↔ JumpSafe base ind a) ∧ (ws.length = 1 ∨ ws.length = 2) := by
  have hcorrect := gjmpAddr_correct_iff base ind a
  cases h : outOfJal (a - ind) with
  | false =>
    have hjump := transfers_oJal (base + ind.setWidth 64) ind a
    refine ⟨_, _, gjmpAddr_short h, hjump, ?_, .inl rfl⟩
    rw [jal_target_iff, JumpSafe, h, JalEncodes, getLsbD_displacement_zero,
      and_iff_right ((outOfJal_eq_false_iff _).mp h).1]
    exact (if_neg Bool.false_ne_true).symm.to_iff
  | true =>
    refine ⟨_, _, gjmpAddr_long h, transfers_long _ ind a, ?_, .inr rfl⟩
    rw [← (transfers_long _ ind a).target_iff (exists_code_pair _ _ _), transfers_long_iff, JumpSafe,
      h]
    exact (if_pos rfl).symm.to_iff

/-- `lui`, `addi` and an operation on the stack pointer. -/
theorem run_adjust {x : Int} {size : List Word} (hsize : Makes regT0 size x) {func7 : BitVec 7}
    {op : AluOp} (hop : aluOpOf 0#3 func7 = some op) (m : Machine) :
    ∃ m', run (size ++ [er 0x33#7 0#3 regSp regSp regT0 func7]) m = some m' ∧
      m'.reg regSp = op.result false (m.reg regSp) (BitVec.ofInt 64 x) ∧ m'.mem = m.mem ∧
      ∀ y, y ≠ regSp → y ≠ regT0 → m'.reg y = m.reg y := by
  obtain ⟨m1, hrun, hsame, hreg⟩ := hsize m
  have hlast : execWord m1 (er 0x33#7 0#3 regSp regSp regT0 func7) = _ :=
    execWord_er_alu m1 false regSp regSp regT0 hop fun hw => absurd hw Bool.false_ne_true
  refine ⟨_, run_snoc hrun hlast, ?_, ?_, fun y hy hy' => ?_⟩
  · rw [Machine.reg_setReg_self _ (by decide), hsame.2 regSp (by decide), hreg]
  · rw [Machine.mem_setReg, hsame.1]
  · rw [Machine.reg_setReg_of_ne _ hy, hsame.2 y hy']

/-- The parts of the code of a large frame, with `t1` and `t2` where the two jumps go and `T` the number
that the code loads as the frame size. -/
structure LargeParts (base : BitVec 64) (n : Nat) (subSp ind : BitVec 32) (T : Int) where
  save : List Word
  rest : List Word
  size : List Word
  jump : List Word
  back : List Word
  t1 : BitVec 64
  t2 : BitVec 64
  saveEq : saveFrame 16#32 (BitVec.ofNat 32 (8 * n)) = some save
  saveLen : save.length = 3
  saveRun : ∀ m, run save m =
    some ((m.setReg regSp (m.reg regSp - BitVec.ofInt 64 16)).setMem (savedMem m n))
  restEq : restoreFrame 16#32 (BitVec.ofNat 32 (8 * n)) =
    some (rest ++ [eiu 0x67#7 0#3 0#5 regRa 0#32])
  restLen : rest.length = 3
  restRun : ∀ (m : Machine) (sp : BitVec 64), m.reg regSp = sp - BitVec.ofInt 64 16 →
    ∃ m', run rest m = some m' ∧ m'.reg regSp = sp ∧
      m'.reg regRa = m.mem.load (sp - BitVec.ofNat 64 (8 * n) - 8#64) 8 ∧
      m'.reg regS0 = m.mem.load (sp - BitVec.ofNat 64 (8 * n) - 16#64) 8
  sizeLen : size.length = 2
  sizeMakes : Makes regT0 size T
  jumpLen : jump.length = 1 ∨ jump.length = 2
  jumpGoes : Transfers jump (base + (subSp + 12#32).setWidth 64) t1
  backLen : back.length = 1 ∨ back.length = 2
  backGoes : Transfers back (base + (ind + 28#32 + 16#32).setWidth 64) t2

namespace LargeParts

variable {T : Int} (p : LargeParts base n subSp ind T)

/-- The parts put together. -/
def code : FrameCode where
  prologue := p.save ++ p.jump
  pad := if p.jump.length = 1 then [eiu 0x13#7 0#3 0#5 0#5 0#32] else []
  epilogue := p.size ++ [er 0x33#7 0#3 regSp regSp regT0 0#7] ++
    (p.rest ++ [eiu 0x67#7 0#3 0#5 regRa 0#32])
  outOfLine := [eiu 0x13#7 0#3 regS0 regSp (BitVec.ofInt 32 (16 - 8 * n))] ++ p.size ++
    [er 0x33#7 0#3 regSp regSp regT0 0x20#7] ++ p.back

theorem outOfLine_ne_nil : p.code.outOfLine ≠ [] := by
  simp [code]

theorem prologue_length : (p.code.prologue ++ p.code.pad).length = 5 := by
  have := p.saveLen
  rcases p.jumpLen with h | h <;> simp [code, h, this]

theorem epilogue_length : p.code.epilogue.length = 7 := by
  simp [code, p.sizeLen, p.restLen]

theorem outOfLine_length : p.code.outOfLine.length ≤ 6 := by
  rcases p.backLen with h | h <;> simp [code, p.sizeLen, h]

/-- The prologue leads to `t1`, and the code behind the function to `t2`. -/
theorem enters {prog : Code} (h : FrameOffsets loc n subSp ind)
    (hplaced : Placed p.code prog base subSp ind) (m : Machine) : ∃ m1 m',
      steps prog p.code.prologue.length ⟨base + subSp.setWidth 64, m⟩ = some ⟨p.t1, m1⟩ ∧
      steps prog p.code.outOfLine.length ⟨base + (ind + 28#32).setWidth 64, m1⟩ =
        some ⟨p.t2, m'⟩ ∧ Entered n (16 + T) m m' := by
  have hslot := h.slot
  have hint := h.int
  obtain ⟨hatPro, -⟩ := Code.at_append.mp hplaced.prologue
  obtain ⟨hatSave, hatJump⟩ := Code.at_append.mp hatPro
  obtain ⟨hatBody, hatBack⟩ := Code.at_append.mp hplaced.outOfLine
  have hafterSave : after (base + subSp.setWidth 64) p.save = base + (subSp + 12#32).setWidth 64 := by
    rw [after, p.saveLen, setWidth_add_of_lt (by omega), add_assoc]
  have hlarge : (ind + 28#32).toNat + 16 < 2 ^ 32 := by
    rw [BitVec.toNat_add]
    simp only [BitVec.toNat_ofNat]
    omega
  have hbodyLen : ([eiu 0x13#7 0#3 regS0 regSp (BitVec.ofInt 32 (16 - 8 * n))] ++ p.size ++
      [er 0x33#7 0#3 regSp regSp regT0 0x20#7]).length = 4 := by simp [p.sizeLen]
  have hafterBody : after (base + (ind + 28#32).setWidth 64)
      ([eiu 0x13#7 0#3 regS0 regSp (BitVec.ofInt 32 (16 - 8 * n))] ++ p.size ++
        [er 0x33#7 0#3 regSp regSp regT0 0x20#7]) =
      base + (ind + 28#32 + 16#32).setWidth 64 := by
    rw [after, hbodyLen, setWidth_add_of_lt hlarge, add_assoc]
  -- the registers are saved, and the prologue jumps
  generalize hm1 : (m.setReg regSp (m.reg regSp - BitVec.ofInt 64 16)).setMem (savedMem m n) = m1
  have hsp1 : m1.reg regSp = m.reg regSp - BitVec.ofInt 64 16 := by
    rw [← hm1, Machine.reg_setMem, Machine.reg_setReg_self _ (by decide)]
  have hother1 : ∀ x, x ≠ regSp → m1.reg x = m.reg x := fun x hx => by
    rw [← hm1, Machine.reg_setMem, Machine.reg_setReg_of_ne _ hx]
  obtain ⟨m2, hjump, hsame2⟩ := p.jumpGoes prog (hafterSave ▸ hatJump) m1
  have hsteps1 : steps prog p.code.prologue.length ⟨base + subSp.setWidth 64, m⟩ =
      some ⟨p.t1, m2⟩ := by
    have hsave := steps_run hatSave (hm1 ▸ p.saveRun m)
    rw [hafterSave] at hsave
    rw [show p.code.prologue = p.save ++ p.jump from rfl, List.length_append, steps_add, hsave,
      Option.bind_some, hjump]
  -- the frame pointer is set, the stack pointer lowered, and control jumps back
  have hsp2 : m2.reg regSp = m.reg regSp - BitVec.ofInt 64 16 := by
    rw [hsame2.2 regSp (by decide), hsp1]
  have hset := @execWord_setS0 n m m2 16 (by decide) (by decide) h.vaRegs hsp2
  generalize hm3 : m2.setReg regS0 (frameBase m n) = m3 at hset
  obtain ⟨m4, hadjust, hsp4, hmem4, hother4⟩ := @run_adjust T p.size p.sizeMakes 0x20#7 .sub rfl m3
  obtain ⟨m5, hback, hsame5⟩ := p.backGoes prog (hafterBody ▸ hatBack) m4
  refine ⟨m2, m5, hsteps1, ?_, ?_⟩
  · have hrun := run_append_of ((run_singleton _ m2).trans hset) hadjust
    rw [← List.append_assoc] at hrun
    have hbody := steps_run hatBody hrun
    rw [hafterBody, hbodyLen] at hbody
    rw [show p.code.outOfLine = [eiu 0x13#7 0#3 regS0 regSp (BitVec.ofInt 32 (16 - 8 * n))] ++
      p.size ++ [er 0x33#7 0#3 regSp regSp regT0 0x20#7] ++ p.back from rfl, List.length_append,
      hbodyLen, steps_add, hbody, Option.bind_some, hback]
  · constructor
    · rw [hsame5.2 regSp (by decide), hsp4, ← hm3, Machine.reg_setReg_of_ne _ (by decide), hsp2,
        BitVec.ofInt_add, ← sub_sub]
      rfl
    · rw [hsame5.2 regS0 (by decide), hother4 regS0 (by decide) (by decide), ← hm3,
        Machine.reg_setReg_self _ (by decide)]
    · intro x hx hx' hx''
      rw [hsame5.2 x hx'', hother4 x hx hx'', ← hm3, Machine.reg_setReg_of_ne _ hx',
        hsame2.2 x hx'', hother1 x hx]
    · rw [hsame5.1, hmem4, ← hm3, Machine.mem_setReg, hsame2.1, ← hm1]
      rfl

/-- Any part of the epilogue that lifts the stack pointer back by `T` does its work. -/
theorem leaves {prog : Code} (hplaced : Placed p.code prog base subSp ind) {m m' : Machine}
    (hentered : Entered n (16 + T) m m') : Leaves p.code prog base ind m m' := by
  refine @Entered.leaves _ _ _ _ _ (16 + T) 16 _ _ hentered
    (p.size ++ [er 0x33#7 0#3 regSp regSp regT0 0#7]) p.rest hplaced.epilogue
    (List.append_assoc ..).symm (fun m2 hsp => ?_) p.restRun
  obtain ⟨m3, hrun, hsp3, hmem3, -⟩ := @run_adjust T p.size p.sizeMakes 0#7 .add rfl m2
  refine ⟨m3, hrun, ?_, hmem3⟩
  rw [hsp3, hsp, BitVec.ofInt_add, ← sub_sub]
  exact sub_add_cancel ..

end LargeParts

/-- The parts of a large frame, with the size as the code loads it. -/
theorem exists_largeParts (base : BitVec 64) (h : FrameOffsets loc n subSp ind)
    (hlarge : 0x800 ≤ frameBytes loc n) (hint : frameBytes loc n < 2 ^ 31) :
    ∃ p : LargeParts base n subSp ind (if frameBytes loc n - 16 + 0x800 < 2 ^ 31 then
        frameBytes loc n - 16 else frameBytes loc n - 16 - 2 ^ 32),
      gfuncEpilog loc (BitVec.ofNat 32 (8 * n)) subSp ind = some p.code ∧
        (p.t1 = base + (ind + 28#32).setWidth 64 ↔
          JumpSafe base (subSp + 12#32) (ind + 28#32)) ∧
        (p.t2 = base + (subSp + 20#32).setWidth 64 ↔
          JumpSafe base (ind + 28#32 + 16#32) (subSp + 20#32)) := by
  have hn := h.vaRegs
  generalize hV : frameBytes loc n = V at hlarge hint ⊢
  obtain ⟨save, hsave, hsavelen, hsaverun⟩ := @saveFrame_run 16 n (by decide) (by decide) hn
  obtain ⟨rest, hrest, hrestlen, hrestrun⟩ := @restoreFrame_run 16 n (by decide) (by decide) hn
  obtain ⟨size, hsize, hsizelen, hmakes⟩ := @loadT0_makes (V - 16) (by omega) (by omega)
  obtain ⟨jump, t1, hjump, hgoes, hsafe, hjumplen⟩ :=
    gjmpAddr_transfers base (subSp + 12#32) (ind + 28#32)
  obtain ⟨back, t2, hback, hreturns, hsafe', hbacklen⟩ :=
    gjmpAddr_transfers base (ind + 28#32 + 16#32) (subSp + 20#32)
  refine ⟨⟨save, rest, size, jump, back, t1, t2, hsave, hsavelen, hsaverun, hrest, hrestlen,
    hrestrun, hsizelen, hmakes, hjumplen, hgoes, hbacklen, hreturns⟩, ?_, hsafe, hsafe'⟩
  have hnlt : ¬ (BitVec.ofInt 32 V).toInt < 0x800 := by
    rw [toInt_ofInt_word (by omega) (by omega)]
    omega
  have hsub : BitVec.ofInt 32 V - 16#32 = BitVec.ofInt 32 (V - 16) := (ofInt_sub V 16).symm
  have hset : 16#32 - BitVec.ofNat 32 (8 * n) = BitVec.ofInt 32 (16 - 8 * n) := setS0_imm 16 n
  have hsave : saveFrame 16#32 (BitVec.ofNat 32 (8 * n)) = some save := hsave
  have hrest : restoreFrame 16#32 (BitVec.ofNat 32 (8 * n)) = _ := hrest
  unfold gfuncEpilog
  simp only [frameSize_eq, hV, if_neg hnlt, hsub, hsize, hsave, hrest, hjump, hback, hset,
    ei_of_fits12 (fits12_ofInt (show -2048 ≤ 16 - 8 * (n : Int) by omega) (by omega)),
    ei_of_fits12 (show Fits12 0#32 by decide), LargeParts.code, Option.bind_eq_bind, Option.bind_some]
  rcases hjumplen with hlen | hlen
  · simp only [hlen, if_true]
    rfl
  · simp only [hlen, show ¬ 2 = 1 by decide, if_false]

theorem frame_large (base : BitVec 64) (h : FrameOffsets loc n subSp ind)
    (hlarge : 0x800 ≤ frameBytes loc n) (hint : frameBytes loc n < 2 ^ 31) :
    FrameCorrect base loc n subSp ind ↔ frameBytes loc n - 16 + 0x800 < 2 ^ 31 ∧
      JumpSafe base (subSp + 12#32) (ind + 28#32) ∧
      JumpSafe base (ind + 28#32 + 16#32) (subSp + 20#32) := by
  have hn := h.vaRegs
  have hlo := (frameBytes_bounds h).2.2
  have hloc := h.loc
  obtain ⟨p, hcode, hsafe, hsafe'⟩ := exists_largeParts base h hlarge hint
  rw [← hsafe, ← hsafe']
  constructor
  · rintro ⟨f, hf, hcorrect⟩
    rw [hcode] at hf
    cases hf
    obtain ⟨prog, hplaced⟩ := exists_placed base h p.prologue_length (fun _ => p.epilogue_length)
      p.epilogue_length.le p.outOfLine_length
    obtain ⟨m', henters, hframe, -⟩ := hcorrect prog hplaced ⟨fun _ => 0#64, fun _ => 0#8⟩
    obtain ⟨m1, m2, hsteps1, hsteps2, hentered⟩ := p.enters h hplaced ⟨fun _ => 0#64, fun _ => 0#8⟩
    unfold Enters at henters
    rw [if_neg p.outOfLine_ne_nil] at henters
    obtain ⟨m3, hfirst, hsecond⟩ := henters
    obtain ⟨ht1, rfl⟩ := Cpu.mk.inj (Option.some.inj (hsteps1.symm.trans hfirst))
    obtain ⟨ht2, rfl⟩ := Cpu.mk.inj (Option.some.inj (hsteps2.symm.trans hsecond))
    refine ⟨?_, ht1, ht2⟩
    -- a frame whose size is loaded as a negative number has no room for the slots
    by_contra hover
    have hslots := (hentered.inFrame_iff hn).mp hframe
    rw [if_neg hover, ofNat_eq_ofInt, ← ofInt_sub, BitVec.toInt_ofInt,
      Int.bmod_eq_of_le (by norm_num; omega) (by norm_num; omega)] at hslots
    omega
  · rintro ⟨hfits, ht1, ht2⟩
    refine ⟨p.code, hcode, fun prog hplaced m => ?_⟩
    obtain ⟨m1, m', hsteps1, hsteps2, hentered⟩ := p.enters h hplaced m
    have hleaves := p.leaves hplaced hentered
    rw [if_pos hfits, add_sub_cancel] at hentered
    refine ⟨m', ?_, (hentered.inFrame_iff hn).mpr (slots_of_frameBytes h hint), hleaves⟩
    unfold Enters
    rw [if_neg p.outOfLine_ne_nil]
    exact ⟨m1, by rw [hsteps1, ht1], by rw [hsteps2, ht2]⟩

/-- A number that does not fit 12 bits. -/
theorem not_fits12 {x : BitVec 32} (h : x.toInt < -2048 ∨ 2048 ≤ x.toInt) : ¬ Fits12 x := by
  intro hfits
  obtain ⟨-, -, hlo, hhi⟩ := toInt_low12 x
  rw [(fits12_iff x).mp hfits] at hlo hhi
  omega

/-- A frame whose size does not fit an `int` has immediates that do not fit. -/
theorem frame_overflow (h : FrameOffsets loc n subSp ind) (hover : 2 ^ 31 ≤ frameBytes loc n) :
    ¬ FrameCorrect base loc n subSp ind := by
  obtain ⟨-, hhi, -⟩ := frameBytes_bounds h
  rintro ⟨f, hf, -⟩
  generalize hV : frameBytes loc n = V at hover hhi
  have htoInt : (BitVec.ofInt 32 V).toInt = V - 2 ^ 32 := by
    rw [BitVec.toInt_ofInt, ← Int.sub_bmod_right]
    exact Int.bmod_eq_of_le (by norm_num; omega) (by norm_num; omega)
  have hneg : ¬ Fits12 (-BitVec.ofInt 32 V) := by
    apply not_fits12
    rw [← BitVec.ofInt_neg]
    rcases hover.eq_or_lt with rfl | hlt
    · decide
    · have hpos : (BitVec.ofInt 32 (-V)).toInt = -V + 2 ^ 32 := by
        rw [BitVec.toInt_ofInt, ← Int.add_bmod_right]
        exact Int.bmod_eq_of_le (by norm_num; omega) (by norm_num; omega)
      omega
  unfold gfuncEpilog at hf
  simp only [frameSize_eq, hV, htoInt, if_pos (show V - 2 ^ 32 < 0x800 by omega), saveFrame, ei,
    if_neg hneg] at hf
  cases hf

/-- **A frame** is built and undone exactly when it is small, or its size survives the two instructions
that load it and the jumps to and from the code behind the function are right. -/
theorem frame_correct_iff (base : BitVec 64) (h : FrameOffsets loc n subSp ind) :
    FrameCorrect base loc n subSp ind ↔ FrameSafe base loc n subSp ind := by
  unfold FrameSafe
  by_cases hsmall : frameBytes loc n < 0x800
  · exact iff_of_true (frame_small h hsmall) (.inl hsmall)
  · rw [or_iff_right hsmall]
    by_cases hover : frameBytes loc n < 2 ^ 31
    · exact frame_large base h (by omega) hover
    · exact iff_of_false (frame_overflow h (by omega)) fun hsafe => by omega

/-- A frame of a function without local variables. -/
theorem frame_correct_iff_empty :
    FrameCorrect 0#64 (-16#32) 0 0#32 20#32 ↔ FrameSafe 0#64 (-16#32) 0 0#32 20#32 :=
  frame_correct_iff 0#64 ⟨by decide, by decide, by decide, by decide⟩

/-- A frame of one page in a function of one MiB. -/
theorem frame_of_mebibyte : ¬ FrameCorrect 0#64 (-0x1000#32) 0 0#32 0xffff0#32 := by
  have h : FrameOffsets (-0x1000#32) 0 0#32 0xffff0#32 := ⟨by decide, by decide, by decide, by decide⟩
  rw [frame_large 0#64 h (by decide) (by decide)]
  exact fun hsafe => absurd hsafe.2.1 (by decide)

end Frame

end TccRiscv64.Gen
