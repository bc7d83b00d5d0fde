import TccRiscv64.Asm.Branch
import TccRiscv64.Isa.Control
import TccRiscv64.Link.PcRelative

set_option autoImplicit false

/-! # The assembler: pseudo-instructions

The pseudo-instructions other than `li`: the words and the relocations that the assembler makes of
them, what the linker makes of both, and what the manual says that they do. -/

namespace TccRiscv64.Asm

open Isa Link

/-! ## Operands with a symbol -/

/-- The flags of `op.e.sym->type.t` that `parse_operand` looks at: `VT_STATIC`, or only `VT_EXTERN`,
or neither of them. A label that is not defined yet has both. -/
inductive Linkage
  | vtStatic | vtExtern | neither
  deriving DecidableEq

/-- The expression `sym + v`. -/
structure SymExpr where
  sym : Nat
  linkage : Linkage
  v : BitVec 64

/-- What `greloca` records: how far behind the first word, and against which symbol. `none` is the
label that `parse_operand` puts at the first word. -/
structure AsmReloc where
  offset : Nat
  type : RelocType
  sym : Option Nat
  deriving DecidableEq

/-- The words and the relocations of a pseudo-instruction. -/
abbrev Emitted := List Word × List AsmReloc

/-- `parse_operand`. The operand is left with the value zero. -/
def parseOperand (e : SymExpr) : Except String (Operand × List AsmReloc) :=
  match e.linkage with
  | .vtStatic => .ok (.imm 0#64, [⟨0, .pcrelHi20, some e.sym⟩, ⟨4, .pcrelLo12I, none⟩])
  | .vtExtern => .ok (.imm 0#64, [⟨0, .gotHi20, some e.sym⟩, ⟨4, .pcrelLo12I, none⟩])
  | .neither => .error "operand expected"

/-- `parse_branch_offset_operand` and `parse_jump_offset_operand`. -/
def parseOffsetOperand (type : RelocType) (e : SymExpr) :
    Except String (Operand × List AsmReloc) :=
  match e.linkage with
  | .vtStatic | .vtExtern => .ok (.imm 0#64, [⟨0, type, some e.sym⟩])
  | .neither => .error "operand expected"

/-! ## The pseudo-instructions -/

/-- The pseudo-instructions that read a counter. -/
inductive Counter
  | rdcycle | rdcycleh | rdtime | rdtimeh | rdinstret | rdinstreth
  deriving DecidableEq

/-- The loads and stores that are pseudo-instructions with a symbol in place of the address. -/
inductive MemAccess
  | lb | lh | lw | ld | lbu | lhu | lwu | sb | sh | sw | sd
  deriving DecidableEq

def MemAccess.mnemonic : MemAccess → Mnemonic
  | lb => .lb
  | lh => .lh
  | lw => .lw
  | ld => .ld
  | lbu => .lbu
  | lhu => .lhu
  | lwu => .lwu
  | sb => .sb
  | sh => .sh
  | sw => .sw
  | sd => .sd

/-- A pseudo-instruction with the operands that the manual gives it. Branches and jumps to a symbol
are here with their mnemonics, of which only some are pseudo-instructions. -/
inductive Pseudo
  | nop | ret | fence
  | counter (token : Counter) (rd : XReg)
  | jr (rs : XReg)
  | jalr (rs : XReg)
  | mv (rd rs : XReg)
  | not (rd rs : XReg)
  | neg (rd rs : XReg)
  | negw (rd rs : XReg)
  | sextw (rd rs : XReg)
  | seqz (rd rs : XReg)
  | snez (rd rs : XReg)
  | sltz (rd rs : XReg)
  | sgtz (rd rs : XReg)
  | la (rd : XReg) (e : SymExpr)
  | lla (rd : XReg) (e : SymExpr)
  | call (e : SymExpr)
  | tail (e : SymExpr)
  | jump (e : SymExpr) (rt : XReg)
  | memAccess (token : MemAccess) (x : XReg) (e : SymExpr)
  | control (source : Source) (e : SymExpr)

/-! ## What is emitted -/

/-- One word without relocations. -/
def single (w : Except String Word) : Except String Emitted := w.map fun w => ([w], [])

/-- The cases of `asm_unary_opcode` for the counters. -/
def asmCounter (token : Counter) (rd : BitVec 6) : Word :=
  let opcode := 0x1C#32 <<< 2 ||| 3#32 ||| 2#32 <<< 12 ||| encodeRd rd
  match token with
  | .rdcycle => opcode ||| 0xC00#32 <<< 20
  | .rdcycleh => opcode ||| 0xC80#32 <<< 20
  | .rdtime => opcode ||| 0xC01#32 <<< 20 ||| encodeRd rd
  | .rdtimeh => opcode ||| 0xC81#32 <<< 20 ||| encodeRd rd
  | .rdinstret => opcode ||| 0xC02#32 <<< 20 ||| encodeRd rd
  | .rdinstreth => opcode ||| 0xC82#32 <<< 20 ||| encodeRd rd

/-- `auipc` and the jump behind it, as `asm_unary_opcode` emits them with a register for both. -/
def asmFarJump (r : BitVec 6) : List Word :=
  [3#32 ||| 5#32 <<< 2 ||| encodeRd r, 0x67#32 ||| 0#32 <<< 12 ||| encodeRs1 r]

/-- The cases `TOK_ASM_la` and `TOK_ASM_lla` of `asm_binary_opcode`, with the opcode of the second
word. -/
def asmLoadAddress (opcode : Word) (rd : Operand) (e : SymExpr) : Except String Emitted := do
  let (imm, rels) ← parseOperand e
  let w1 ← asmEmitU (3#32 ||| 5#32 <<< 2) rd imm
  let w2 ← asmEmitI opcode rd rd imm
  pure ([w1, w2], rels)

/-- `asm_mem_access_opcode` after `X, Y` was parsed, with a symbol for `Y`. `parse_operand` leaves
it with the type `OP_IM12S`. -/
def asmMemAccessSym (token : MemAccess) (x : Operand) (e : SymExpr) : Except String Emitted := do
  let (y, rels) ← parseOperand e
  if y.type = .im32 ∧ e.linkage = .vtStatic then
    let w1 ← asmEmitU (0x05#32 <<< 2 ||| 3#32) x (.imm 0#64)
    let w2 ← asmMemAccessOpcode x x (.imm 0#64) token.mnemonic
    pure ([w1, w2], rels)
  else
    let w ← asmMemAccessOpcode x y (.imm 0#64) token.mnemonic
    pure ([w], rels)

/-- `asm_branch_opcode` and `asm_jal_opcode` with a symbol: the word has the displacement zero. -/
def asmControlSym (source : Source) (e : SymExpr) : Except String Emitted := do
  let type := match source with
    | .branch .. | .zeroBranch .. => RelocType.branch
    | .j | .jal _ => .jal
  let (_, rels) ← parseOffsetOperand type e
  let w ← asmControl source 0#64
  pure ([w], rels)

/-- `asm_opcode` for a pseudo-instruction. -/
def asmPseudo (p : Pseudo) : Except String Emitted :=
  let x (r : XReg) : Operand := .ofArg (.x r)
  let zero : Operand := .reg 0#6
  let ra : Operand := .reg 1#6
  let imm (v : BitVec 64) : Operand := .imm v
  match p with
  -- `asm_nullary_opcode`
  | .nop => single (asmEmitI (4#32 <<< 2 ||| 3#32) zero zero (imm 0#64))
  | .ret => .ok ([0x67#32 ||| 0#32 <<< 12 ||| encodeRs1 1#6], [])
  -- `asm_fence_opcode` without operands
  | .fence => single (asmFenceOpcode 0xf#64 0xf#64)
  -- `asm_unary_opcode`
  | .counter token rd => .ok ([asmCounter token (0#1 ++ rd)], [])
  | .jr rs => single (asmEmitI (0x67#32 ||| 0#32 <<< 12) zero (x rs) (imm 0#64))
  | .call e => do
    let (_, rels) ← parseOperand e
    pure (asmFarJump 1#6, rels ++ [⟨0, .call, some e.sym⟩])
  | .tail e => do
    let (_, rels) ← parseOperand e
    pure (asmFarJump 6#6, rels ++ [⟨0, .call, some e.sym⟩])
  -- `asm_jalr_opcode` with one operand
  | .jalr rs => single (asmEmitI (0x67#32 ||| 0#32 <<< 12) ra (x rs) (imm 0#64))
  -- `asm_binary_opcode`
  | .la rd e => asmLoadAddress (3#32 ||| 2#32 <<< 12) (x rd) e
  | .lla rd e => asmLoadAddress (3#32 ||| 4#32 <<< 2) (x rd) e
  | .mv rd rs => single (asmEmitI (3#32 ||| 4#32 <<< 2) (x rd) (x rs) (imm 0#64))
  | .not rd rs =>
    single (asmEmitI (4#32 <<< 2 ||| 3#32 ||| 4#32 <<< 12) (x rd) (x rs) (imm (-1#64)))
  | .neg rd _ | .negw rd _ =>
    single (asmEmitI (4#32 <<< 2 ||| 3#32 ||| 4#32 <<< 12) (x rd) zero (imm 1#64))
  | .jump e _ => do
    let (_, rels) ← parseOperand e
    -- `ind` has moved behind the first word when the relocation is recorded
    pure (asmFarJump 5#6, rels ++ [⟨4, .call, some e.sym⟩])
  | .seqz rd rs => single (asmEmitI (4#32 <<< 2 ||| 3#32 ||| 3#32 <<< 12) (x rd) (x rs) (imm 1#64))
  | .snez rd rs => single (asmEmitR (0xC#32 <<< 2 ||| 3#32 ||| 3#32 <<< 12) (x rd) zero (x rs))
  | .sltz rd rs => single (asmEmitR (0xC#32 <<< 2 ||| 3#32 ||| 2#32 <<< 12) (x rd) (x rs) zero)
  | .sgtz rd rs => single (asmEmitR (0xC#32 <<< 2 ||| 3#32 ||| 2#32 <<< 12) (x rd) zero (x rs))
  | .memAccess token r e => asmMemAccessSym token (x r) e
  -- `asm_branch_opcode` and `asm_jal_opcode`
  | .control source e => asmControlSym source e
  -- the token is defined, but no handler knows it
  | .sextw .. => .error "known instruction expected"

/-! ## What the linker makes of it -/

/-- Where the words are put: among the bytes that the linker has, and in the memory of the program;
and the address of the symbol there. -/
structure Place where
  s1 : TCCState
  ptr : Nat
  pc : BitVec 64
  value : BitVec 64

/-- Words in the bytes of a section. -/
def put (s1 : TCCState) (ptr : Nat) : List Word → TCCState
  | [] => s1
  | w :: ws => put (s1.write32le ptr w) (ptr + 4) ws

def fetch (s1 : TCCState) (ptr : Nat) : Nat → List Word
  | 0 => []
  | n + 1 => s1.read32le ptr :: fetch s1 (ptr + 4) n

/-- The relocation that is applied for a recorded one. -/
def Place.resolve (P : Place) (r : AsmReloc) : Reloc where
  rel := ⟨P.pc + BitVec.ofNat 64 r.offset, r.sym.getD 0, r.type, 0#64⟩
  type := r.type
  ptr := P.ptr + r.offset
  addr := P.pc + BitVec.ofNat 64 r.offset
  val := if r.sym.isSome then P.value else P.pc

/-- The words after all relocations. -/
def Place.linked (P : Place) (ws : List Word) (rels : List AsmReloc) : List Word :=
  fetch (relocateAll (put P.s1 P.ptr ws) (rels.map P.resolve)) P.ptr ws.length

/-! ## What the manual says -/

/-- The state is left at an address, with a value written to a register and all else as it was. -/
def Leaves (pc : BitVec 64) (rd : XReg) (v : BitVec 64) (s s' : Cpu) : Prop :=
  s'.pc = pc ∧ s'.machine.mem = s.machine.mem ∧
    ∀ r, s'.machine.reg r = (s.machine.setReg rd v).reg r

/-- A branch or jump to `target`. -/
def Source.Effect (source : Source) (target : BitVec 64) (s s' : Cpu) : Prop :=
  let next (taken : Bool) := if taken then target else s.pc + 4#64
  let reg := s.machine.reg
  match source with
  | branch token rs1 rs2 => Leaves (next (token.holds (reg rs1) (reg rs2))) 0#5 0#64 s s'
  | zeroBranch token rs => Leaves (next (token.holds (reg rs))) 0#5 0#64 s s'
  | j => Leaves target 0#5 0#64 s s'
  | jal rd => Leaves target (rd.getD 1#5) (s.pc + 4#64) s s'

/-- A load from `target`, or a store to it for which some register may be used. -/
def MemAccess.Effect (token : MemAccess) (x : XReg) (target : BitVec 64) (s s' : Cpu) : Prop :=
  let loads (bytes : Nat) (signed : Bool) :=
    Leaves (s.pc + 8#64) x (s.machine.mem.loadExt target bytes signed) s s'
  let stores (bytes : Nat) :=
    ∃ rt v, Leaves (s.pc + 8#64) rt v
      ⟨s.pc, s.machine.regs, s.machine.mem.store target bytes (s.machine.reg x)⟩ s'
  match token with
  | lb => loads 1 true
  | lh => loads 2 true
  | lw => loads 4 true
  | ld => loads 8 true
  | lbu => loads 1 false
  | lhu => loads 2 false
  | lwu => loads 4 false
  | sb => stores 1
  | sh => stores 2
  | sw => stores 4
  | sd => stores 8

/-- The instruction that the manual lists, where it does not only compute or jump. -/
def Pseudo.listed : Pseudo → Option (Mnemonic × List Isa.Arg)
  | fence => some (.fence, [.imm 0xf#64, .imm 0xf#64])
  | counter token rd =>
    let csr := match token with
      | .rdcycle => 0xC00#64
      | .rdcycleh => 0xC80#64
      | .rdtime => 0xC01#64
      | .rdtimeh => 0xC81#64
      | .rdinstret => 0xC02#64
      | .rdinstreth => 0xC82#64
    some (.csrrs, [.x rd, .imm csr, .x 0#5])
  | _ => none

/-- What a pseudo-instruction does. `tail` may use `x6`, and `jump` its second operand. -/
def Pseudo.Effect (p : Pseudo) (value : BitVec 64) (s s' : Cpu) : Prop :=
  let reg := s.machine.reg
  let sets (rd : XReg) (v : BitVec 64) := Leaves (s.pc + 4#64) rd v s s'
  match p with
  | nop => sets 0#5 0#64
  | ret => Leaves (reg 1#5 &&& ~~~1#64) 0#5 0#64 s s'
  | jr rs => Leaves (reg rs &&& ~~~1#64) 0#5 0#64 s s'
  | jalr rs => Leaves (reg rs &&& ~~~1#64) 1#5 (s.pc + 4#64) s s'
  | mv rd rs => sets rd (reg rs)
  | not rd rs => sets rd (~~~reg rs)
  | neg rd rs => sets rd (-reg rs)
  | negw rd rs => sets rd ((-(reg rs).setWidth 32).signExtend 64)
  | sextw rd rs => sets rd (((reg rs).setWidth 32).signExtend 64)
  | seqz rd rs => sets rd (ofBool (reg rs == 0#64))
  | snez rd rs => sets rd (ofBool (reg rs != 0#64))
  | sltz rd rs => sets rd (ofBool ((reg rs).slt 0#64))
  | sgtz rd rs => sets rd (ofBool ((0#64).slt (reg rs)))
  | la rd e | lla rd e => Leaves (s.pc + 8#64) rd (value + e.v) s s'
  | call e => Leaves (value + e.v) 1#5 (s.pc + 8#64) s s'
  | tail e => ∃ x, Leaves (value + e.v) 6#5 x s s'
  | jump e rt => ∃ x, Leaves (value + e.v) rt x s s'
  | memAccess token x e => token.Effect x (value + e.v) s s'
  | control source e => source.Effect (value + e.v) s s'
  | fence | counter .. => True

/-- The symbol of an operand. -/
def Pseudo.operand : Pseudo → Option SymExpr
  | la _ e | lla _ e | call e | tail e | jump e _ | memAccess _ _ e | control _ e => some e
  | _ => none

/-- The slot of the global offset table that the linker has for the symbol holds its address. -/
def Pseudo.Loaded (p : Pseudo) (P : Place) (m : Machine) : Prop :=
  ∀ e ∈ p.operand, e.linkage = .vtExtern → m.mem.load (gotSlot P.s1 e.sym) 8 = P.value

/-- The words are the instruction that is listed, or they do what the pseudo-instruction does. -/
def Pseudo.Does (p : Pseudo) (P : Place) (ws : List Word) : Prop :=
  match p.listed with
  | some instr => ∃ w, ws = [w] ∧ decodeMnemonic w = some instr
  | none => ∀ code m, Code.At code P.pc ws → p.Loaded P m →
    ∃ s', steps code ws.length ⟨P.pc, m⟩ = some s' ∧ p.Effect P.value ⟨P.pc, m⟩ s'

/-! ## What is asked of the expansions -/

def opcodeAt (ws : List Word) (offset : Nat) : Option (BitVec 7) :=
  if offset % 4 = 0 then ws[offset / 4]?.map opcodeOf else none

/-- The relocation is at an instruction that it can patch. -/
def AsmReloc.Fits (ws : List Word) (r : AsmReloc) : Prop :=
  match r.type with
  | .pcrelHi20 | .gotHi20 => opcodeAt ws r.offset = some 0x17#7
  | .pcrelLo12I =>
    opcodeAt ws r.offset = some 0x03#7 ∨ opcodeAt ws r.offset = some 0x13#7 ∨
      opcodeAt ws r.offset = some 0x67#7
  | .call => opcodeAt ws r.offset = some 0x17#7 ∧ opcodeAt ws (r.offset + 4) = some 0x67#7
  | .jal => opcodeAt ws r.offset = some 0x6f#7
  | .branch => opcodeAt ws r.offset = some 0x63#7
  | _ => False

/-- The pseudo-instruction is expanded, its relocations fit the instructions, and what is linked
does what the manual says, whatever the registers hold. -/
def Pseudo.Right (p : Pseudo) (P : Place) : Prop :=
  ∃ ws rels, asmPseudo p = .ok (ws, rels) ∧ (∀ r ∈ rels, r.Fits ws) ∧ p.Does P (P.linked ws rels)

/-- What a relocation of the first word refers to: the symbol, or its slot. -/
def SymExpr.hiValue (e : SymExpr) (P : Place) : BitVec 64 :=
  if e.linkage = .vtExtern then gotSlot P.s1 e.sym else P.value

/-- The symbol can be reached from the place: by `auipc` and the instruction behind it, or by the
branch or jump itself. Targets of jumps are even. -/
def Pseudo.Reaches (p : Pseudo) (P : Place) : Prop :=
  match p with
  | la _ e | lla _ e => FitsSigned 32 (e.hiValue P - P.pc + 0x800#64)
  | call e | tail e | jump e _ =>
    FitsSigned 32 (e.hiValue P - P.pc + 0x800#64) ∧ FitsSigned 32 (P.value - P.pc + 0x800#64) ∧
      P.value.getLsbD 0 = false ∧ e.v.getLsbD 0 = false
  | control source e =>
    FitsSigned source.width (P.value - P.pc) ∧ (P.value - P.pc).getLsbD 0 = false ∧
      e.v.getLsbD 0 = false
  | _ => True

/-- The contents of the registers decide whether a branch is taken, or it is a jump. -/
def Source.Taken (source : Source) (m : Machine) : Bool :=
  match source with
  | branch token rs1 rs2 => token.holds (m.reg rs1) (m.reg rs2)
  | zeroBranch token rs => token.holds (m.reg rs)
  | j | jal _ => true

/-- When a branch or jump to a symbol is right: without a number added to the symbol, unless it is
never taken; and `blez` and `bgez` only for `x0`, or to the next instruction. -/
def Source.Works (source : Source) (P : Place) (e : SymExpr) : Prop :=
  (∀ m, source.Taken m = false) ∨ e.v = 0#64 ∧
    match source with
    | zeroBranch token rs =>
      token = .blez ∨ token = .bgez → rs = 0#5 ∨ P.value = P.pc + 4#64
    | _ => True

/-- When a pseudo-instruction is right. -/
def Pseudo.Works (p : Pseudo) (P : Place) : Prop :=
  match p with
  | neg rd _ | negw rd _ => rd = 0#5
  | sextw .. | call _ | jump .. | memAccess .. => False
  | la rd e =>
    e.linkage ≠ .neither ∧ (rd = 0#5 ∨
      e.linkage = .vtExtern ∧ (P.value.setWidth 32).signExtend 64 = P.value + e.v)
  | lla rd e => e.linkage ≠ .neither ∧ (rd = 0#5 ∨ e.hiValue P = P.value + e.v)
  | tail e => e.linkage ≠ .neither ∧ e.v = 0#64
  | control source e => e.linkage ≠ .neither ∧ source.Works P e
  | _ => True

end TccRiscv64.Asm
