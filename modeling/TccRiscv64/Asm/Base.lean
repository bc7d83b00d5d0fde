import TccRiscv64.Asm.Operand

set_option autoImplicit false

/-! # The assembler: base instructions

The functions that emit the R, I, S and U formats, and the `switch` statements that map mnemonics to
them, for operands that are registers and immediates. -/

namespace TccRiscv64.Asm

open Isa

/-! ## Formats -/

def asmEmitR (opcode : Word) (rd rs1 rs2 : Operand) : Except String Word := do
  let rd ← expectReg "Expected destination operand that is a register" rd
  let rs1 ← expectReg "Expected first source operand that is a register" rs1
  let rs2 ← expectReg "Expected second source operand that is a register or immediate" rs2
  pure (opcode ||| encodeRd rd ||| encodeRs1 rs1 ||| encodeRs2 rs2)

def asmEmitI (opcode : Word) (rd rs1 rs2 : Operand) : Except String Word := do
  let rd ← expectReg "Expected destination operand that is a register" rd
  let rs1 ← expectReg "Expected first source operand that is a register" rs1
  let v ← expectIm12s
    "Expected second source operand that is an immediate value between 0 and 8191" rs2
  pure (opcode ||| encodeRd rd ||| encodeRs1 rs1 ||| (v <<< 20).setWidth 32)

def asmEmitS (opcode : Word) (rs1 rs2 imm : Operand) : Except String Word := do
  let rs1 ← expectReg "Expected first source operand that is a register" rs1
  let rs2 ← expectReg "Expected second source operand that is a register" rs2
  let v ← expectIm12s "Expected third operand that is an immediate value between 0 and 8191" imm
  let v := (v.setWidth 16).setWidth 32
  pure (opcode ||| encodeRs1 rs1 ||| encodeRs2 rs2 ||| ((v &&& 0x1f#32) <<< 7)
    ||| ((v >>> 5) <<< 25))

def asmEmitU (opcode : Word) (rd rs2 : Operand) : Except String Word := do
  let rd ← expectReg "Expected destination operand that is a register" rd
  let v ← expectImm "Expected second source operand that is an immediate value" rs2
  if 0x100000#64 ≤ v then
    .error "Expected second source operand that is an immediate value between 0 and 0xfffff"
  else pure (opcode ||| encodeRd rd ||| (v <<< 12).setWidth 32)

/-! ## Mnemonics -/

/-- `ops[2].type = OP_REG`: the register of an immediate operand is the low byte of its value. -/
def Operand.asReg : Operand → Operand
  | .reg r => .reg r
  | .imm v => .reg (v.setWidth 6)

def asmTernaryOpcode (a b c : Operand) : Mnemonic → Except String Word
  | .sll => asmEmitR (0xC#32 <<< 2 ||| 3#32 ||| 1#32 <<< 12) a b c
  | .slli => asmEmitI (4#32 <<< 2 ||| 3#32 ||| 1#32 <<< 12) a b c
  | .srl => asmEmitR (0xC#32 <<< 2 ||| 3#32 ||| 4#32 <<< 12) a b c
  | .srli => asmEmitI (0x4#32 <<< 2 ||| 3#32 ||| 5#32 <<< 12) a b c
  | .sra => asmEmitR (0xC#32 <<< 2 ||| 3#32 ||| 5#32 <<< 12 ||| 32#32 <<< 25) a b c
  | .srai => asmEmitI (0x4#32 <<< 2 ||| 3#32 ||| 5#32 <<< 12 ||| 16#32 <<< 26) a b c
  | .sllw => asmEmitR (0xE#32 <<< 2 ||| 3#32 ||| 1#32 <<< 12) a b c
  | .slliw => asmEmitI (6#32 <<< 2 ||| 3#32 ||| 1#32 <<< 12) a b c
  | .srlw => asmEmitR (0xE#32 <<< 2 ||| 3#32 ||| 5#32 <<< 12) a b c
  | .srliw => asmEmitI (0x6#32 <<< 2 ||| 3#32 ||| 5#32 <<< 12) a b c
  | .sraw => asmEmitR (0xE#32 <<< 2 ||| 3#32 ||| 5#32 <<< 12) a b c
  | .sraiw => asmEmitI (0x6#32 <<< 2 ||| 3#32 ||| 5#32 <<< 12) a b c
  | .add => asmEmitR (0xC#32 <<< 2 ||| 3#32) a b c
  | .addi => asmEmitI (4#32 <<< 2 ||| 3#32) a b c
  | .sub => asmEmitR (0xC#32 <<< 2 ||| 3#32 ||| 32#32 <<< 25) a b c
  | .addw => asmEmitR (0xE#32 <<< 2 ||| 3#32 ||| 0#32 <<< 12) a b c
  | .addiw => asmEmitI (0x6#32 <<< 2 ||| 3#32 ||| 0#32 <<< 12) a b c
  | .subw => asmEmitR (0xE#32 <<< 2 ||| 3#32 ||| 0#32 <<< 12 ||| 32#32 <<< 25) a b c
  | .xor => asmEmitR (0xC#32 <<< 2 ||| 3#32 ||| 4#32 <<< 12) a b c
  | .xori => asmEmitI (0x4#32 <<< 2 ||| 3#32 ||| 4#32 <<< 12) a b c
  | .or => asmEmitR (0xC#32 <<< 2 ||| 3#32 ||| 6#32 <<< 12) a b c
  | .ori => asmEmitI (0x4#32 <<< 2 ||| 3#32 ||| 6#32 <<< 12) a b c
  | .and => asmEmitR (0xC#32 <<< 2 ||| 3#32 ||| 7#32 <<< 12) a b c
  | .andi => asmEmitI (0x4#32 <<< 2 ||| 3#32 ||| 7#32 <<< 12) a b c
  | .slt => asmEmitR (0xC#32 <<< 2 ||| 3#32 ||| 2#32 <<< 12) a b c
  | .slti => asmEmitI (0x4#32 <<< 2 ||| 3#32 ||| 2#32 <<< 12) a b c
  | .sltu => asmEmitR (0xC#32 <<< 2 ||| 3#32 ||| 3#32 <<< 12) a b c
  | .sltiu => asmEmitI (0x4#32 <<< 2 ||| 3#32 ||| 3#32 <<< 12) a b c
  | .div => asmEmitR (0x33#32 ||| 4#32 <<< 12 ||| 1#32 <<< 25) a b c
  | .divu => asmEmitR (0x33#32 ||| 5#32 <<< 12 ||| 1#32 <<< 25) a b c
  | .divuw => asmEmitR (0x3b#32 ||| 5#32 <<< 12 ||| 1#32 <<< 25) a b c
  | .divw => asmEmitR (0x3b#32 ||| 4#32 <<< 12 ||| 1#32 <<< 25) a b c
  | .mul => asmEmitR (0x33#32 ||| 1#32 <<< 25) a b c
  | .mulh => asmEmitR (0x33#32 ||| 1#32 <<< 12 ||| 1#32 <<< 25) a b c
  | .mulhsu => asmEmitR (0x33#32 ||| 2#32 <<< 12 ||| 1#32 <<< 25) a b c
  | .mulhu => asmEmitR (0x33#32 ||| 3#32 <<< 12 ||| 1#32 <<< 25) a b c
  | .mulw => asmEmitR (0x3b#32 ||| 1#32 <<< 25) a b c
  | .rem => asmEmitR (0x33#32 ||| 6#32 <<< 12 ||| 1#32 <<< 25) a b c
  | .remu => asmEmitR (0x33#32 ||| 7#32 <<< 12 ||| 1#32 <<< 25) a b c
  | .remuw => asmEmitR (0x3b#32 ||| 7#32 <<< 12 ||| 1#32 <<< 25) a b c
  | .remw => asmEmitR (0x3b#32 ||| 6#32 <<< 12 ||| 1#32 <<< 25) a b c
  | .csrrc => asmEmitI (0x73#32 ||| 3#32 <<< 12) a c b
  | .csrrci => asmEmitI (0x73#32 ||| 7#32 <<< 12) a c.asReg b
  | .csrrs => asmEmitI (0x73#32 ||| 2#32 <<< 12) a c b
  | .csrrsi => asmEmitI (0x73#32 ||| 6#32 <<< 12) a c.asReg b
  | .csrrw => asmEmitI (0x73#32 ||| 1#32 <<< 12) a c b
  | .csrrwi => asmEmitI (0x73#32 ||| 5#32 <<< 12) a c.asReg b
  | _ => .error "ternary instruction"

/-- `asm_mem_access_opcode`, after `X, imm(Y)` was parsed to `X`, `Y` and `imm`. -/
def asmMemAccessOpcode (x y imm : Operand) : Mnemonic → Except String Word
  | .lb => asmEmitI (0x0#32 <<< 2 ||| 3#32) x y imm
  | .lh => asmEmitI (0x0#32 <<< 2 ||| 3#32 ||| 1#32 <<< 12) x y imm
  | .lw => asmEmitI (0x0#32 <<< 2 ||| 3#32 ||| 2#32 <<< 12) x y imm
  | .ld => asmEmitI (0x0#32 <<< 2 ||| 3#32 ||| 3#32 <<< 12) x y imm
  | .lbu => asmEmitI (0x0#32 <<< 2 ||| 3#32 ||| 4#32 <<< 12) x y imm
  | .lhu => asmEmitI (0x0#32 <<< 2 ||| 3#32 ||| 5#32 <<< 12) x y imm
  | .lwu => asmEmitI (0x0#32 <<< 2 ||| 3#32 ||| 6#32 <<< 12) x y imm
  | .sb => asmEmitS (0x8#32 <<< 2 ||| 3#32 ||| 0#32 <<< 12) y x imm
  | .sh => asmEmitS (0x8#32 <<< 2 ||| 3#32 ||| 1#32 <<< 12) y x imm
  | .sw => asmEmitS (0x8#32 <<< 2 ||| 3#32 ||| 2#32 <<< 12) y x imm
  | .sd => asmEmitS (0x8#32 <<< 2 ||| 3#32 ||| 3#32 <<< 12) y x imm
  | _ => .error "known instruction"

/-- `asm_jalr_opcode` with three operands. -/
def asmJalrOpcode (rd rs1 imm : Operand) : Except String Word :=
  asmEmitI (0x67#32 ||| 0#32 <<< 12) rd rs1 imm

def asmBinaryOpcode (a b : Operand) : Mnemonic → Except String Word
  | .lui => asmEmitU (0xD#32 <<< 2 ||| 3#32) a b
  | .auipc => asmEmitU (0x05#32 <<< 2 ||| 3#32) a b
  | _ => .error "binary instruction"

def asmNullaryOpcode : Mnemonic → Except String Word
  | .ecall => .ok (0x1C#32 <<< 2 ||| 3#32 ||| 0#32 <<< 12)
  | .ebreak => .ok (0x1C#32 <<< 2 ||| 3#32 ||| 0#32 <<< 12 ||| 1#32 <<< 20)
  | _ => .error "nullary instruction"

/-- `asm_fence_opcode` with two operands, each the number that `parse_fence_operand` makes of a
token. -/
def asmFenceOpcode (pred succ : BitVec 64) : Except String Word :=
  if 0xf#64 < pred then .error "Expected first operand that is a valid predecessor operand"
  else if 0xf#64 < succ then .error "Expected second operand that is a valid successor operand"
  else .ok (0x3#32 <<< 2 ||| 3#32 ||| 0#32 <<< 12 ||| (succ.setWidth 32) <<< 20
    ||| (pred.setWidth 32) <<< 24)

/-- `parse_operands` for the number of operands that a handler takes. -/
def operands2 (handler : Operand → Operand → Except String Word) :
    List Operand → Except String Word
  | [a, b] => handler a b
  | _ => .error "','"

def operands3 (handler : Operand → Operand → Operand → Except String Word) :
    List Operand → Except String Word
  | [a, b, c] => handler a b c
  | _ => .error "','"

def asmOpcode (m : Mnemonic) (ops : List Operand) : Except String Word :=
  match m with
  | .ebreak | .ecall =>
    match ops with
    | [] => asmNullaryOpcode m
    | _ => .error "end of line"
  | .fence =>
    match ops with
    | [.imm pred, .imm succ] => asmFenceOpcode pred succ
    | _ => .error "','"
  | .lui | .auipc => operands2 (fun a b => asmBinaryOpcode a b m) ops
  | .lb | .lh | .lw | .ld | .lbu | .lhu | .lwu | .sb | .sh | .sw | .sd =>
    operands3 (fun x y imm => asmMemAccessOpcode x y imm m) ops
  | .jalr => operands3 asmJalrOpcode ops
  | .add | .addi | .addiw | .addw | .and | .andi | .or | .ori | .sll | .slli | .slliw | .sllw
  | .slt | .slti | .sltiu | .sltu | .sra | .srai | .sraiw | .sraw | .srl | .srli | .srliw | .srlw
  | .sub | .subw | .xor | .xori
  | .div | .divu | .divuw | .divw | .mul | .mulh | .mulhsu | .mulhu | .mulw | .rem | .remu
  | .remuw | .remw
  | .csrrc | .csrrci | .csrrs | .csrrsi | .csrrw | .csrrwi =>
    operands3 (fun a b c => asmTernaryOpcode a b c m) ops

end TccRiscv64.Asm
