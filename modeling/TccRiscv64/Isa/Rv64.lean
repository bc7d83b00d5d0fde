import TccRiscv64.Isa.Encoding

set_option autoImplicit false

/-! # Straight-line RV64 code

The instructions of RV64IM that compiled expressions consist of, their encoding and their effect on
registers and data memory. Code is a list of 32-bit words, executed one after the other; a
conditional branch has an encoding and a condition here, but is not part of straight-line code. -/

namespace TccRiscv64.Isa

/-- The number of an integer register. -/
abbrev XReg := BitVec 5

/-- An instruction word. -/
abbrev Word := BitVec 32

/-! ## Arithmetic -/

/-- The register-register operations of the base instruction set. -/
inductive AluOp
  | add | sub | sll | slt | sltu | xor | srl | sra | or | and
  deriving DecidableEq, Repr

/-- A truth value as a register content. -/
def ofBool {n : Nat} (b : Bool) : BitVec n := if b then 1#n else 0#n

/-- The result of an operation on `n` bits. Shift amounts are taken modulo `n`. -/
def AluOp.eval {n : Nat} (op : AluOp) (x y : BitVec n) : BitVec n :=
  match op with
  | add => x + y
  | sub => x - y
  | sll => x <<< (y.toNat % n)
  | slt => ofBool (x.slt y)
  | sltu => ofBool (x.ult y)
  | xor => x ^^^ y
  | srl => x >>> (y.toNat % n)
  | sra => x.sshiftRight (y.toNat % n)
  | or => x ||| y
  | and => x &&& y

/-- The operations of the multiplication extension that the compiler emits. -/
inductive MulOp
  | mul | div | divu | rem | remu
  deriving DecidableEq, Repr

/-- The result of a multiplication or division on `n` bits, with the results that the instruction set
defines for a zero divisor. -/
def MulOp.eval {n : Nat} (op : MulOp) (x y : BitVec n) : BitVec n :=
  match op with
  | mul => x * y
  | div => if y = 0#n then -1#n else x.sdiv y
  | divu => if y = 0#n then -1#n else x / y
  | rem => if y = 0#n then x else x.srem y
  | remu => if y = 0#n then x else x % y

/-- The word form of an operation: on the low 32 bits, with the result sign-extended. -/
def wordForm (f : BitVec 32 → BitVec 32 → BitVec 32) (x y : BitVec 64) : BitVec 64 :=
  (f (x.setWidth 32) (y.setWidth 32)).signExtend 64

/-- The result of an operation in the form on 64 or on 32 bits. -/
def AluOp.result (op : AluOp) (word : Bool) (x y : BitVec 64) : BitVec 64 :=
  if word then wordForm op.eval x y else op.eval x y

/-- The result of a multiplication or division in the form on 64 or on 32 bits. -/
def MulOp.result (op : MulOp) (word : Bool) (x y : BitVec 64) : BitVec 64 :=
  if word then wordForm op.eval x y else op.eval x y

/-! ## Data memory -/

/-- Data memory: one byte at each address. -/
abbrev Ram := BitVec 64 → BitVec 8

namespace Ram

/-- The `n` bytes at `a` as a little-endian number. -/
def load (m : Ram) (a : BitVec 64) : (n : Nat) → BitVec (8 * n)
  | 0 => 0#0
  | n + 1 => load m (a + 1#64) n ++ m a

/-- The `n` bytes at `a`, extended to a register. -/
def loadExt (m : Ram) (a : BitVec 64) (n : Nat) (signed : Bool) : BitVec 64 :=
  if signed then (m.load a n).signExtend 64 else (m.load a n).setWidth 64

/-- The memory after the low `n` bytes of `v` are written at `a`. -/
def store (m : Ram) (a : BitVec 64) (n : Nat) (v : BitVec 64) : Ram :=
  fun b => if (b - a).toNat < n then v.extractLsb' (8 * (b - a).toNat) 8 else m b

end Ram

/-! ## Instructions -/

/-- The conditions of the conditional branches. -/
inductive BranchOp
  | beq | bne | blt | bge | bltu | bgeu
  deriving DecidableEq, Repr

/-- Whether a branch is taken. -/
def BranchOp.holds (op : BranchOp) (x y : BitVec 64) : Bool :=
  match op with
  | beq => x == y
  | bne => x != y
  | blt => x.slt y
  | bge => !x.slt y
  | bltu => x.ult y
  | bgeu => !x.ult y

/-- An instruction with its operands decoded. `word` marks the forms on 32 bits, `bytes` is the
width of a memory access. -/
inductive Instr
  | lui (rd : XReg) (imm : BitVec 64)
  | alu (op : AluOp) (word : Bool) (rd rs1 rs2 : XReg)
  | aluImm (op : AluOp) (word : Bool) (rd rs1 : XReg) (imm : BitVec 64)
  | mul (op : MulOp) (word : Bool) (rd rs1 rs2 : XReg)
  | load (bytes : Nat) (signed : Bool) (rd rs1 : XReg) (imm : BitVec 64)
  | store (bytes : Nat) (rs1 rs2 : XReg) (imm : BitVec 64)
  | branch (op : BranchOp) (rs1 rs2 : XReg) (imm : BitVec 64)
  deriving DecidableEq

/-! ## Decoding -/

def opcodeOf (w : Word) : BitVec 7 := w.extractLsb' 0 7
def rdOf (w : Word) : XReg := w.extractLsb' 7 5
def func3Of (w : Word) : BitVec 3 := w.extractLsb' 12 3
def rs1Of (w : Word) : XReg := w.extractLsb' 15 5
def rs2Of (w : Word) : XReg := w.extractLsb' 20 5
def func7Of (w : Word) : BitVec 7 := w.extractLsb' 25 7

/-- The operation of a register-register instruction with `func7 = 0` or `func7 = 0x20`. -/
def aluOpOf (func3 : BitVec 3) (func7 : BitVec 7) : Option AluOp :=
  if func7 = 0#7 then
    match func3 with
    | 0#3 => some .add
    | 1#3 => some .sll
    | 2#3 => some .slt
    | 3#3 => some .sltu
    | 4#3 => some .xor
    | 5#3 => some .srl
    | 6#3 => some .or
    | 7#3 => some .and
    | _ => none
  else if func7 = 0x20#7 then
    match func3 with
    | 0#3 => some .sub
    | 5#3 => some .sra
    | _ => none
  else none

/-- The operations with a form on 32 bits. -/
def AluOp.hasWordForm : AluOp → Bool
  | add | sub | sll | srl | sra => true
  | _ => false

/-- The operation of a register-register instruction with `func7 = 1`. -/
def mulOpOf (func3 : BitVec 3) : Option MulOp :=
  match func3 with
  | 0#3 => some .mul
  | 4#3 => some .div
  | 5#3 => some .divu
  | 6#3 => some .rem
  | 7#3 => some .remu
  | _ => none

/-- A register-register instruction. -/
def decodeReg (word : Bool) (w : Word) : Option Instr :=
  if func7Of w = 1#7 then
    (mulOpOf (func3Of w)).map fun op => .mul op word (rdOf w) (rs1Of w) (rs2Of w)
  else do
    let op ← aluOpOf (func3Of w) (func7Of w)
    if word && !op.hasWordForm then none
    else some (.alu op word (rdOf w) (rs1Of w) (rs2Of w))

/-- A register-immediate instruction. A shift has its amount in the low bits of the immediate and
tells logical and arithmetic right shifts apart in the upper ones, which leave six bits for the
amount on 64 bits and five on 32. -/
def decodeImm (word : Bool) (w : Word) : Option Instr :=
  let instr (op : AluOp) (imm : BitVec 64) : Option Instr :=
    if word && !op.hasWordForm then none
    else some (.aluImm op word (rdOf w) (rs1Of w) imm)
  let shift (op : AluOp) : Option Instr :=
    if word then
      if func7Of w = 0#7 then instr op ((w.extractLsb' 20 5).setWidth 64)
      else if func7Of w = 0x20#7 ∧ op = .srl then instr .sra ((w.extractLsb' 20 5).setWidth 64)
      else none
    else
      if w.extractLsb' 26 6 = 0#6 then instr op ((w.extractLsb' 20 6).setWidth 64)
      else if w.extractLsb' 26 6 = 0x10#6 ∧ op = .srl then
        instr .sra ((w.extractLsb' 20 6).setWidth 64)
      else none
  match func3Of w with
  | 0#3 => instr .add (immI w)
  | 1#3 => shift .sll
  | 2#3 => instr .slt (immI w)
  | 3#3 => instr .sltu (immI w)
  | 4#3 => instr .xor (immI w)
  | 5#3 => shift .srl
  | 6#3 => instr .or (immI w)
  | 7#3 => instr .and (immI w)
  | _ => none

/-- A load, from its width. -/
def decodeLoad (w : Word) : Option Instr :=
  let instr (bytes : Nat) (signed : Bool) : Option Instr :=
    some (.load bytes signed (rdOf w) (rs1Of w) (immI w))
  match func3Of w with
  | 0#3 => instr 1 true
  | 1#3 => instr 2 true
  | 2#3 => instr 4 true
  | 3#3 => instr 8 true
  | 4#3 => instr 1 false
  | 5#3 => instr 2 false
  | 6#3 => instr 4 false
  | _ => none

/-- A store, from its width. -/
def decodeStore (w : Word) : Option Instr :=
  let instr (bytes : Nat) : Option Instr := some (.store bytes (rs1Of w) (rs2Of w) (immS w))
  match func3Of w with
  | 0#3 => instr 1
  | 1#3 => instr 2
  | 2#3 => instr 4
  | 3#3 => instr 8
  | _ => none

/-- A conditional branch. -/
def decodeBranch (w : Word) : Option Instr :=
  let instr (op : BranchOp) : Option Instr := some (.branch op (rs1Of w) (rs2Of w) (immB w))
  match func3Of w with
  | 0#3 => instr .beq
  | 1#3 => instr .bne
  | 4#3 => instr .blt
  | 5#3 => instr .bge
  | 6#3 => instr .bltu
  | 7#3 => instr .bgeu
  | _ => none

/-- The instruction that a word encodes, among those modelled. -/
def decode (w : Word) : Option Instr :=
  match opcodeOf w with
  | 0x03#7 => decodeLoad w
  | 0x13#7 => decodeImm false w
  | 0x1b#7 => decodeImm true w
  | 0x23#7 => decodeStore w
  | 0x33#7 => decodeReg false w
  | 0x37#7 => some (.lui (rdOf w) (immU w))
  | 0x3b#7 => decodeReg true w
  | 0x63#7 => decodeBranch w
  | _ => none

/-! ## Execution -/

/-- Registers and data memory. -/
structure Machine where
  regs : XReg → BitVec 64
  mem : Ram

namespace Machine

/-- The content of a register; `x0` reads as zero. -/
def reg (m : Machine) (r : XReg) : BitVec 64 := if r = 0#5 then 0#64 else m.regs r

/-- Write a register. -/
def setReg (m : Machine) (r : XReg) (v : BitVec 64) : Machine :=
  { m with regs := Function.update m.regs r v }

theorem reg_setReg (m : Machine) (r r' : XReg) (v : BitVec 64) :
    (m.setReg r v).reg r' = if r' = 0#5 then 0#64 else if r' = r then v else m.reg r' := by
  simp only [reg, setReg, Function.update_apply]
  grind

theorem reg_setReg_self (m : Machine) {r : XReg} (hr : r ≠ 0#5) (v : BitVec 64) :
    (m.setReg r v).reg r = v := by
  rw [reg_setReg, if_neg hr, if_pos rfl]

theorem reg_setReg_of_ne (m : Machine) {r r' : XReg} (h : r' ≠ r) (v : BitVec 64) :
    (m.setReg r v).reg r' = m.reg r' := by
  rw [reg_setReg, if_neg h]
  simp only [reg]
  grind

/-- The second of two writes to a register counts. -/
theorem setReg_setReg (m : Machine) (r : XReg) (v v' : BitVec 64) :
    (m.setReg r v).setReg r v' = m.setReg r v' := by
  simp only [setReg, Function.update_idem]

@[simp] theorem mem_setReg (m : Machine) (r : XReg) (v : BitVec 64) : (m.setReg r v).mem = m.mem :=
  rfl

@[simp] theorem reg_zero (m : Machine) : m.reg 0#5 = 0#64 := rfl

/-- Write memory. -/
def setMem (m : Machine) (mem : Ram) : Machine := { m with mem := mem }

@[simp] theorem reg_setMem (m : Machine) (mem : Ram) (r : XReg) : (m.setMem mem).reg r = m.reg r :=
  rfl

end Machine

/-- The effect of an instruction of straight-line code. -/
def Instr.exec (m : Machine) : Instr → Option Machine
  | lui rd imm => some (m.setReg rd imm)
  | alu op word rd rs1 rs2 => some (m.setReg rd (op.result word (m.reg rs1) (m.reg rs2)))
  | aluImm op word rd rs1 imm => some (m.setReg rd (op.result word (m.reg rs1) imm))
  | mul op word rd rs1 rs2 => some (m.setReg rd (op.result word (m.reg rs1) (m.reg rs2)))
  | load bytes signed rd rs1 imm =>
    some (m.setReg rd (m.mem.loadExt (m.reg rs1 + imm) bytes signed))
  | store bytes rs1 rs2 imm =>
    some (m.setMem (m.mem.store (m.reg rs1 + imm) bytes (m.reg rs2)))
  | branch .. => none

/-- Execute one word. -/
def execWord (m : Machine) (w : Word) : Option Machine := (decode w).bind (Instr.exec m)

/-- Execute straight-line code. -/
def run (code : List Word) (m : Machine) : Option Machine := code.foldlM execWord m

@[simp] theorem run_nil (m : Machine) : run [] m = some m := rfl

theorem run_append (code code' : List Word) (m : Machine) :
    run (code ++ code') m = (run code m).bind (run code') := List.foldlM_append ..

theorem run_singleton (w : Word) (m : Machine) : run [w] m = execWord m w := by
  simp [run]

theorem run_append_of {code code' : List Word} {m m1 m2 : Machine} (h : run code m = some m1)
    (h' : run code' m1 = some m2) : run (code ++ code') m = some m2 := by
  rw [run_append, h, Option.bind_some, h']

theorem run_snoc {code : List Word} {w : Word} {m m1 m2 : Machine} (h : run code m = some m1)
    (h' : execWord m1 w = some m2) : run (code ++ [w]) m = some m2 :=
  run_append_of h ((run_singleton w m1).trans h')

end TccRiscv64.Isa
