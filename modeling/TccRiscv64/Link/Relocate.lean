import TccRiscv64.Isa.Encoding
import TccRiscv64.Isa.Memory

set_option autoImplicit false

/-! # The `relocate` function of `riscv64-link.c`

One relocation is applied to the bytes of a section. The linker state keeps the bytes, the last
`HI20` relocation seen (`last_hi`, which the `LO12` relocations refer to), the dynamic relocations
written so far (`qrel`) and the errors reported through `tcc_error_noabort`; such an error does not
stop the function, the instruction is patched all the same. -/

namespace TccRiscv64.Link

open TccRiscv64.Isa

/-! ## State -/

/-- Relocation types of the RISC-V ELF ABI that `relocate` has a case for. -/
inductive RelocType
  | align | relax
  | branch | jal | call | callPlt
  | pcrelHi20 | gotHi20 | pcrelLo12I | pcrelLo12S
  | rvcBranch | rvcJump
  | abs32 | abs64 | relative | jumpSlot
  | add64 | add32 | sub64 | sub32 | add16 | sub8 | sub16
  | set6 | set8 | set16 | sub6
  | pcrel32 | copy
  | other (code : Nat)
  deriving DecidableEq, Repr

/-- An ELF relocation record: place, symbol index, type and addend. -/
structure ElfRel where
  rOffset : BitVec 64
  rSym : Nat
  rType : RelocType
  rAddend : BitVec 64

/-- `struct sym_attr`, as far as `relocate` reads it. -/
structure SymAttr where
  gotOffset : BitVec 32
  dynIndex : Nat

/-- `struct pcrel_hi`. -/
structure PcrelHi where
  addr : BitVec 64
  val : BitVec 64

/-- An argument of an error message. -/
inductive Arg
  | lx (v : BitVec 64)
  | str (s : String)

/-- A call of `tcc_error_noabort`. -/
structure Diagnostic where
  format : String
  args : List Arg

/-- The part of `TCCState` that `relocate` reads or changes. -/
structure TCCState where
  outputDyn : Bool
  gotShAddr : BitVec 64
  getSymAttr : Nat → SymAttr
  symName : Nat → String
  lastHi : PcrelHi
  qrel : List ElfRel
  errors : List Diagnostic
  mem : Memory

namespace TCCState

def read8 (s1 : TCCState) (p : Nat) : BitVec 8 := s1.mem.load p 1
def read16le (s1 : TCCState) (p : Nat) : BitVec 16 := s1.mem.load p 2
def read32le (s1 : TCCState) (p : Nat) : BitVec 32 := s1.mem.load p 4
def read64le (s1 : TCCState) (p : Nat) : BitVec 64 := s1.mem.load p 8

def write8 (s1 : TCCState) (p : Nat) (x : BitVec 8) : TCCState :=
  { s1 with mem := s1.mem.store p 1 x }

def write16le (s1 : TCCState) (p : Nat) (x : BitVec 16) : TCCState :=
  { s1 with mem := s1.mem.store p 2 x }

def write32le (s1 : TCCState) (p : Nat) (x : BitVec 32) : TCCState :=
  { s1 with mem := s1.mem.store p 4 x }

def write64le (s1 : TCCState) (p : Nat) (x : BitVec 64) : TCCState :=
  { s1 with mem := s1.mem.store p 8 x }

def add32le (s1 : TCCState) (p : Nat) (x : BitVec 64) : TCCState :=
  s1.write32le p (s1.read32le p + x.setWidth 32)

def add64le (s1 : TCCState) (p : Nat) (x : BitVec 64) : TCCState :=
  s1.write64le p (s1.read64le p + x)

/-- `tcc_error_noabort`, called when `c` is nonzero. -/
def errorIf (s1 : TCCState) (c : Bool) (d : Diagnostic) : TCCState :=
  if c then { s1 with errors := s1.errors ++ [d] } else s1

/-- Record a `HI20` relocation for the `LO12` relocations that follow. -/
def setLastHi (s1 : TCCState) (hi : PcrelHi) : TCCState := { s1 with lastHi := hi }

/-- `qrel->… = …; qrel++`. -/
def pushQrel (s1 : TCCState) (rel : ElfRel) : TCCState :=
  { s1 with qrel := s1.qrel ++ [rel] }

end TCCState

/-! ## Patched words -/

/-- New branch word, from `off64 = val - addr`. -/
def patchBranch (w : BitVec 32) (off64 : BitVec 64) : BitVec 32 :=
  let off32 := (off64 >>> 1).setWidth 32
  (w &&& ~~~0xfe000f80#32)
    ||| ((off32 &&& 0x800#32) <<< 20)
    ||| ((off32 &&& 0x3f0#32) <<< 21)
    ||| ((off32 &&& 0x00f#32) <<< 8)
    ||| ((off32 &&& 0x400#32) >>> 3)

/-- New `jal` word. -/
def patchJal (w : BitVec 32) (off64 : BitVec 64) : BitVec 32 :=
  let off32 := off64.setWidth 32
  (w &&& 0xfff#32)
    ||| (((off32 >>> 12) &&& 0xff#32) <<< 12)
    ||| (((off32 >>> 11) &&& 1#32) <<< 20)
    ||| (((off32 >>> 1) &&& 0x3ff#32) <<< 21)
    ||| (((off32 >>> 20) &&& 1#32) <<< 31)

/-- New `auipc` word of a call. -/
def patchCallHi (w : BitVec 32) (disp : BitVec 64) : BitVec 32 :=
  ((w &&& 0xfff#32).setWidth 64 ||| ((disp + 0x800#64) &&& ~~~0xfff#64)).setWidth 32

/-- New word of the I-format instruction that adds the lower 12 bits. -/
def patchLoI (w : BitVec 32) (disp : BitVec 64) : BitVec 32 :=
  ((w &&& 0xfffff#32).setWidth 64 ||| ((disp &&& 0xfff#64) <<< 20)).setWidth 32

/-- New word of the S-format instruction that adds the lower 12 bits. -/
def patchLoS (w : BitVec 32) (disp : BitVec 64) : BitVec 32 :=
  let off32 := disp.setWidth 32
  (w &&& ~~~0xfe000f80#32)
    ||| ((off32 &&& 0xfe0#32) <<< 20)
    ||| ((off32 &&& 0x01f#32) <<< 7)

/-- New `auipc` word of a `HI20` relocation, from `off64 = (int64_t)(val - addr + 0x800) >> 12`. -/
def patchHi20 (w : BitVec 32) (off64 : BitVec 64) : BitVec 32 :=
  ((w &&& 0xfff#32).setWidth 64 ||| ((off64 &&& 0xfffff#64) <<< 12)).setWidth 32

/-- New compressed branch. -/
def patchRvcBranch (h : BitVec 16) (off64 : BitVec 64) : BitVec 16 :=
  let off32 := off64.setWidth 32
  ((h &&& 0xe383#16).setWidth 32
    ||| (((off32 >>> 5) &&& 1#32) <<< 2)
    ||| (((off32 >>> 1) &&& 3#32) <<< 3)
    ||| (((off32 >>> 6) &&& 3#32) <<< 5)
    ||| (((off32 >>> 3) &&& 3#32) <<< 10)
    ||| (((off32 >>> 8) &&& 1#32) <<< 12)).setWidth 16

/-- New compressed jump. -/
def patchRvcJump (h : BitVec 16) (off64 : BitVec 64) : BitVec 16 :=
  let off32 := off64.setWidth 32
  ((h &&& 0xe003#16).setWidth 32
    ||| (((off32 >>> 5) &&& 1#32) <<< 2)
    ||| (((off32 >>> 1) &&& 7#32) <<< 3)
    ||| (((off32 >>> 7) &&& 1#32) <<< 6)
    ||| (((off32 >>> 6) &&& 1#32) <<< 7)
    ||| (((off32 >>> 10) &&& 1#32) <<< 8)
    ||| (((off32 >>> 8) &&& 3#32) <<< 9)
    ||| (((off32 >>> 4) &&& 1#32) <<< 11)
    ||| (((off32 >>> 11) &&& 1#32) <<< 12)).setWidth 16

/-! ## Range checks -/

/-- `(off64 + bias) & ~mask`, the check of the branch-like relocations. -/
def outOfMask (off64 bias mask : BitVec 64) : Bool :=
  (off64 + bias) &&& ~~~mask != 0#64

/-- `(off64 + ((uint64_t)1 << 20)) >> 21`, the check of the `HI20` relocations. -/
def outOfHi20 (off64 : BitVec 64) : Bool :=
  (off64 + (1#64 <<< 20)) >>> 21 != 0#64

/-- `(int64_t)(val - addr + 0x800) >> 12`. -/
def hi20Of (disp : BitVec 64) : BitVec 64 := (disp + 0x800#64).sshiftRight 12

/-! ## `relocate` -/

/-- The address that a `GOT_HI20` relocation of symbol `sym` refers to. -/
def gotSlot (s1 : TCCState) (sym : Nat) : BitVec 64 :=
  s1.gotShAddr + (s1.getSymAttr sym).gotOffset.setWidth 64

/-- `relocate`: apply the relocation `rel` of type `type` to the bytes at `ptr`, which will be
loaded at `addr`; `val` is the value of the symbol plus the addend. -/
def relocate (s1 : TCCState) (rel : ElfRel) (type : RelocType) (ptr : Nat)
    (addr val : BitVec 64) : TCCState :=
  match type with
  | .align | .relax => s1
  | .branch =>
    let off64 := val - addr
    let s1 := s1.errorIf (outOfMask off64 (1#64 <<< 12) 0x1ffe#64)
      ⟨"R_RISCV_BRANCH relocation failed (val=%lx, addr=%lx)", [.lx val, .lx addr]⟩
    s1.write32le ptr (patchBranch (s1.read32le ptr) off64)
  | .jal =>
    let off64 := val - addr
    let s1 := s1.errorIf (outOfMask off64 (1#64 <<< 21) ((1#64 <<< 22) - 2#64))
      ⟨"R_RISCV_JAL relocation failed (val=%lx, addr=%lx)", [.lx val, .lx addr]⟩
    s1.write32le ptr (patchJal (s1.read32le ptr) off64)
  | .call | .callPlt =>
    let s1 := s1.write32le ptr (patchCallHi (s1.read32le ptr) (val - addr))
    s1.write32le (ptr + 4) (patchLoI (s1.read32le (ptr + 4)) (val - addr))
  | .pcrelHi20 =>
    let off64 := hi20Of (val - addr)
    let s1 := s1.errorIf (outOfHi20 off64)
      ⟨"R_RISCV_PCREL_HI20 relocation failed: off=%lx cond=%lx sym=%s",
        [.lx off64, .lx ((off64 + (1#64 <<< 20)).sshiftRight 21), .str (s1.symName rel.rSym)]⟩
    let s1 := s1.write32le ptr (patchHi20 (s1.read32le ptr) off64)
    s1.setLastHi ⟨addr, val⟩
  | .gotHi20 =>
    let val := gotSlot s1 rel.rSym
    let off64 := hi20Of (val - addr)
    let s1 := s1.errorIf (outOfHi20 off64) ⟨"R_RISCV_GOT_HI20 relocation failed", []⟩
    let s1 := s1.setLastHi ⟨addr, val⟩
    s1.write32le ptr (patchHi20 (s1.read32le ptr) off64)
  | .pcrelLo12I =>
    let s1 := s1.errorIf (val != s1.lastHi.addr) ⟨"unsupported hi/lo pcrel reloc scheme", []⟩
    s1.write32le ptr (patchLoI (s1.read32le ptr) (s1.lastHi.val - s1.lastHi.addr))
  | .pcrelLo12S =>
    let s1 := s1.errorIf (val != s1.lastHi.addr) ⟨"unsupported hi/lo pcrel reloc scheme", []⟩
    s1.write32le ptr (patchLoS (s1.read32le ptr) (s1.lastHi.val - s1.lastHi.addr))
  | .rvcBranch =>
    let off64 := val - addr
    let s1 := s1.errorIf (outOfMask off64 (1#64 <<< 8) 0x1fe#64)
      ⟨"R_RISCV_RVC_BRANCH relocation failed (val=%lx, addr=%lx)", [.lx val, .lx addr]⟩
    s1.write16le ptr (patchRvcBranch (s1.read16le ptr) off64)
  | .rvcJump =>
    let off64 := val - addr
    -- the message names the other compressed relocation, as the source does
    let s1 := s1.errorIf (outOfMask off64 (1#64 <<< 11) 0xffe#64)
      ⟨"R_RISCV_RVC_BRANCH relocation failed (val=%lx, addr=%lx)", [.lx val, .lx addr]⟩
    s1.write16le ptr (patchRvcJump (s1.read16le ptr) off64)
  | .abs32 =>
    let s1 := if s1.outputDyn then
        s1.pushQrel ⟨rel.rOffset, 0, .relative, (s1.read32le ptr).signExtend 64 + val⟩
      else s1
    s1.add32le ptr val
  | .abs64 =>
    if s1.outputDyn then
      let esymIndex := (s1.getSymAttr rel.rSym).dynIndex
      if esymIndex ≠ 0 then
        s1.pushQrel ⟨rel.rOffset, esymIndex, .abs64, rel.rAddend⟩
      else
        (s1.pushQrel ⟨rel.rOffset, 0, .relative, s1.read64le ptr + val⟩).add64le ptr val
    else
      s1.add64le ptr val
  | .jumpSlot => s1.add64le ptr val
  | .add64 => s1.write64le ptr (s1.read64le ptr + val)
  | .add32 => s1.write32le ptr (s1.read32le ptr + val.setWidth 32)
  | .sub64 => s1.write64le ptr (s1.read64le ptr - val)
  | .sub32 => s1.write32le ptr (s1.read32le ptr - val.setWidth 32)
  | .add16 => s1.write16le ptr (s1.read16le ptr + val.setWidth 16)
  | .sub8 => s1.write8 ptr (s1.read8 ptr - val.setWidth 8)
  | .sub16 => s1.write16le ptr (s1.read16le ptr - val.setWidth 16)
  | .set6 =>
    s1.write8 ptr ((s1.read8 ptr &&& ~~~0x3f#8) ||| (val &&& 0x3f#64).setWidth 8)
  | .set8 => s1.write8 ptr ((val &&& 0xff#64).setWidth 8)
  -- `*ptr` is one byte: the upper half of the value is lost
  | .set16 => s1.write8 ptr ((val &&& 0xffff#64).setWidth 8)
  | .sub6 =>
    s1.write8 ptr ((s1.read8 ptr &&& ~~~0x3f#8) |||
      (((s1.read8 ptr).setWidth 64 - val) &&& 0x3f#64).setWidth 8)
  -- an unknown type is reported on `stderr` only
  | .relative | .pcrel32 | .copy | .other _ => s1

end TccRiscv64.Link
