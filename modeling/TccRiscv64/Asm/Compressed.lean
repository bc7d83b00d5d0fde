import TccRiscv64.Asm.Operand
import TccRiscv64.Isa.Rvc

set_option autoImplicit false

/-! # The assembler: compressed instructions

The functions that emit the CA, CB, CI, CIW, CJ, CL, CR, CS and CSS formats, and the cases of the
`switch` statements that map mnemonics to them. -/

namespace TccRiscv64.Asm

open Isa

/-- `C_ENCODE_RS1`, of a register number or of the number of `x8` to `x15` less 8. -/
def cEncodeRs1 (r : BitVec 8) : BitVec 32 := (r.setWidth 32 &&& 31#32) <<< 7

/-- `C_ENCODE_RS2`. -/
def cEncodeRs2 (r : BitVec 8) : BitVec 32 := (r.setWidth 32 &&& 31#32) <<< 2

/-- `NTH_BIT`. -/
def nthBit (b : BitVec 32) (n : Nat) : BitVec 32 := (b >>> n) &&& 1#32

/-- `reg - 8`, an unsigned byte. -/
def minus8 (r : BitVec 6) : BitVec 8 := r.setWidth 8 - 8#8

/-- `gen_le16`, which writes the low 16 bits. -/
def genLe16 (i : BitVec 32) : HalfWord := i.setWidth 16

def expectedDst : String := "Expected destination operand that is a register"
def expectedSrc : String := "Expected source operand that is a register"
def expectedImm : String := "Expected source operand that is an immediate value"
def expectedCDst : String := "Expected destination operand that is a valid C-extension register"
def expectedCSrc : String := "Expected source operand that is a valid C-extension register"

/-- The check for a register `x8` to `x15`. -/
def expectC (message : String) (r : BitVec 8) : Except String Unit :=
  if 7#8 < r then .error message else .ok ()

/-- The check that a number is even. -/
def expectEven (offset : BitVec 32) : Except String Unit :=
  if offset &&& 1#32 ≠ 0#32 then
    .error "Expected source operand that is an even immediate value"
  else .ok ()

/-- The checks of the formats CL, CS and CSS for their offset. -/
def expectOffset (offset : BitVec 32) : Except String Unit :=
  if 0xff#32 < offset then
    .error "Expected source operand that is an immediate value between 0 and 0xff"
  else if offset &&& 3#32 ≠ 0#32 then
    .error "Expected source operand that is an immediate value divisible by 4"
  else .ok ()

def asmEmitCa (opcode : BitVec 32) (rd rs2 : Operand) : Except String HalfWord := do
  let rd ← expectReg expectedDst rd
  let rs2 ← expectReg expectedSrc rs2
  expectC expectedCDst (minus8 rd)
  expectC expectedCSrc (minus8 rs2)
  pure (genLe16 (opcode ||| cEncodeRs2 (minus8 rs2) ||| cEncodeRs1 (minus8 rd)))

def asmEmitCb (token : Rvc) (opcode : BitVec 32) (rs1 imm : Operand) :
    Except String HalfWord := do
  let rs1 ← expectReg expectedSrc rs1
  let v ← expectImm expectedImm imm
  let offset := v.setWidth 32
  expectEven offset
  expectC expectedCSrc (minus8 rs1)
  match token with
  | .beqz | .bnez =>
    pure (genLe16 (opcode ||| cEncodeRs1 (minus8 rs1)
      ||| (nthBit offset 5 ||| ((offset >>> 1 &&& 3#32) <<< 1) |||
        ((offset >>> 6 &&& 3#32) <<< 3)) <<< 2
      ||| ((offset >>> 3 &&& 3#32) ||| nthBit offset 8) <<< 10))
  | _ =>
    pure (genLe16 (opcode ||| cEncodeRs1 (minus8 rs1) ||| (offset &&& 0x1f#32) <<< 2
      ||| nthBit offset 5 <<< 12))

def asmEmitCi (token : Rvc) (opcode : BitVec 32) (rd imm : Operand) : Except String HalfWord := do
  let rd ← expectReg expectedDst rd
  let v ← expectImm expectedImm imm
  let immediate := v.setWidth 32
  match token with
  | .addi | .addiw | .li | .slli =>
    pure (genLe16 (opcode ||| (immediate &&& 0x1f#32) <<< 2 ||| encodeRd rd
      ||| nthBit immediate 5 <<< 12))
  | .addi16sp =>
    pure (genLe16 (opcode ||| nthBit immediate 5 <<< 2 ||| (immediate >>> 7 &&& 3#32) <<< 3
      ||| nthBit immediate 6 <<< 5 ||| nthBit immediate 4 <<< 6 ||| encodeRd rd
      ||| nthBit immediate 9 <<< 12))
  | .lui =>
    pure (genLe16 (opcode ||| (immediate >>> 12 &&& 0x1f#32) <<< 2 ||| encodeRd rd
      ||| nthBit immediate 17 <<< 12))
  | .fldsp | .ldsp =>
    pure (genLe16 (opcode ||| (immediate >>> 6 &&& 7#32) <<< 2 ||| (immediate >>> 3 &&& 2#32) <<< 5
      ||| encodeRd rd ||| nthBit immediate 5 <<< 12))
  | .flwsp | .lwsp =>
    pure (genLe16 (opcode ||| (immediate >>> 6 &&& 3#32) <<< 2 ||| (immediate >>> 2 &&& 7#32) <<< 4
      ||| encodeRd rd ||| nthBit immediate 5 <<< 12))
  | .nop => pure (genLe16 opcode)
  | _ => .error "known instruction"

def asmEmitCiw (opcode : BitVec 32) (rd imm : Operand) : Except String HalfWord := do
  let rd ← expectReg expectedDst rd
  let v ← expectImm expectedImm imm
  expectC expectedCDst (minus8 rd)
  let nzuimm := v.setWidth 32
  if 0x3fc#32 < nzuimm then
    .error "Expected source operand that is an immediate value between 0 and 0x3ff"
  else if nzuimm &&& 3#32 ≠ 0#32 then
    .error "Expected source operand that is a non-zero immediate value divisible by 4"
  else
    pure (genLe16 (opcode ||| encodeRs2 rd
      ||| (nthBit nzuimm 3 ||| nthBit nzuimm 2 <<< 1 ||| (nzuimm >>> 6 &&& 0xf#32) <<< 2
        ||| (nzuimm >>> 4 &&& 3#32) <<< 6) <<< 5))

def asmEmitCj (opcode : BitVec 32) (imm : Operand) : Except String HalfWord := do
  let v ← expectIm12s "Expected source operand that is a 12-bit immediate value" imm
  let offset := v.setWidth 32
  expectEven offset
  pure (genLe16 (opcode ||| nthBit offset 5 <<< 2 ||| (offset >>> 1 &&& 7#32) <<< 3
    ||| nthBit offset 7 <<< 6 ||| nthBit offset 6 <<< 7 ||| nthBit offset 10 <<< 8
    ||| (offset >>> 8 &&& 3#32) <<< 9 ||| nthBit offset 4 <<< 11 ||| nthBit offset 11 <<< 12))

def asmEmitCl (token : Rvc) (opcode : BitVec 32) (rd rs1 imm : Operand) :
    Except String HalfWord := do
  let rd ← expectReg expectedDst rd
  let rs1 ← expectReg expectedSrc rs1
  let v ← expectImm expectedImm imm
  expectC expectedCDst (minus8 rd)
  expectC expectedCSrc (minus8 rs1)
  let offset := v.setWidth 32
  expectOffset offset
  match token with
  | .flw | .lw =>
    pure (genLe16 (opcode ||| cEncodeRs2 (minus8 rd) ||| cEncodeRs1 (minus8 rs1)
      ||| nthBit offset 6 <<< 5 ||| nthBit offset 2 <<< 6 ||| (offset >>> 3 &&& 7#32) <<< 10))
  | .fld | .ld =>
    pure (genLe16 (opcode ||| cEncodeRs2 (minus8 rd) ||| cEncodeRs1 (minus8 rs1)
      ||| (offset >>> 6 &&& 3#32) <<< 5 ||| (offset >>> 3 &&& 7#32) <<< 10))
  | _ => .error "known instruction"

def asmEmitCr (opcode : BitVec 32) (rd rs2 : Operand) : Except String HalfWord := do
  let rd ← expectReg expectedDst rd
  let rs2 ← expectReg expectedSrc rs2
  pure (genLe16 (opcode ||| cEncodeRs1 (rd.setWidth 8) ||| cEncodeRs2 (rs2.setWidth 8)))

def asmEmitCs (token : Rvc) (opcode : BitVec 32) (rs2 rs1 imm : Operand) :
    Except String HalfWord := do
  let rs2 ← expectReg expectedDst rs2
  let rs1 ← expectReg expectedSrc rs1
  let v ← expectImm expectedImm imm
  let base := minus8 rs1
  let src := minus8 rs2
  expectC expectedCDst base
  expectC expectedCSrc src
  let offset := v.setWidth 32
  expectOffset offset
  match token with
  | .fsw | .sw =>
    pure (genLe16 (opcode ||| cEncodeRs2 base ||| cEncodeRs1 src
      ||| nthBit offset 6 <<< 5 ||| nthBit offset 2 <<< 6 ||| (offset >>> 3 &&& 7#32) <<< 10))
  | .fsd | .sd =>
    pure (genLe16 (opcode ||| cEncodeRs2 base ||| cEncodeRs1 src
      ||| (offset >>> 6 &&& 3#32) <<< 5 ||| (offset >>> 3 &&& 7#32) <<< 10))
  | _ => .error "known instruction"

def asmEmitCss (token : Rvc) (opcode : BitVec 32) (rs2 imm : Operand) :
    Except String HalfWord := do
  let rs2 ← expectReg expectedDst rs2
  let v ← expectImm expectedImm imm
  let offset := v.setWidth 32
  expectOffset offset
  match token with
  | .fswsp | .swsp =>
    pure (genLe16 (opcode ||| encodeRs2 rs2 ||| (offset >>> 6 &&& 3#32) <<< 7
      ||| (offset >>> 2 &&& 0xf#32) <<< 9))
  | .fsdsp | .sdsp =>
    pure (genLe16 (opcode ||| encodeRs2 rs2 ||| (offset >>> 6 &&& 7#32) <<< 7
      ||| (offset >>> 3 &&& 7#32) <<< 10))
  | _ => .error "known instruction"

/-! ## Mnemonics -/

/-- The compressed instructions of `asm_opcode`, with the `switch` statements of
`asm_nullary_opcode`, `asm_unary_opcode`, `asm_binary_opcode` and `asm_ternary_opcode`. -/
def asmOpcodeC (token : Rvc) (ops : List Operand) : Except String HalfWord :=
  let ca := 1#32 ||| 3#32 <<< 10 ||| 4#32 <<< 13
  let nil := Operand.reg 0
  let zimm := Operand.imm 0
  match token, ops with
  | .ebreak, [] => asmEmitCr (2#32 ||| 9#32 <<< 12) nil nil
  | .nop, [] => asmEmitCi token 1#32 nil zimm
  | .j, [a] => asmEmitCj (1#32 ||| 5#32 <<< 13) a
  | .jal, [a] => asmEmitCj (1#32 ||| 1#32 <<< 13) a
  | .jalr, [a] => asmEmitCr (2#32 ||| 9#32 <<< 12) a nil
  | .jr, [a] => asmEmitCr (2#32 ||| 8#32 <<< 12) a nil
  | .add, [a, b] => asmEmitCr (2#32 ||| 9#32 <<< 12) a b
  | .mv, [a, b] => asmEmitCr (2#32 ||| 8#32 <<< 12) a b
  | .addi16sp, [a, b] => asmEmitCi token (1#32 ||| 3#32 <<< 13) a b
  | .addi, [a, b] => asmEmitCi token 1#32 a b
  | .addiw, [a, b] => asmEmitCi token (1#32 ||| 1#32 <<< 13) a b
  | .fldsp, [a, b] => asmEmitCi token (2#32 ||| 1#32 <<< 13) a b
  | .flwsp, [a, b] => asmEmitCi token (2#32 ||| 3#32 <<< 13) a b
  | .ldsp, [a, b] => asmEmitCi token (2#32 ||| 3#32 <<< 13) a b
  | .li, [a, b] => asmEmitCi token (1#32 ||| 2#32 <<< 13) a b
  | .lui, [a, b] => asmEmitCi token (1#32 ||| 3#32 <<< 13) a b
  | .lwsp, [a, b] => asmEmitCi token (2#32 ||| 2#32 <<< 13) a b
  | .slli, [a, b] => asmEmitCi token 2#32 a b
  | .addi4spn, [a, b] => asmEmitCiw 0#32 a b
  | .addw, [a, b] => asmEmitCa (ca ||| 1#32 <<< 5 ||| 1#32 <<< 12) a b
  | .and, [a, b] => asmEmitCa (ca ||| 3#32 <<< 5) a b
  | .or, [a, b] => asmEmitCa (ca ||| 2#32 <<< 5) a b
  | .sub, [a, b] => asmEmitCa ca a b
  | .subw, [a, b] => asmEmitCa (ca ||| 1#32 <<< 12) a b
  | .xor, [a, b] => asmEmitCa (ca ||| 1#32 <<< 5) a b
  | .andi, [a, b] => asmEmitCb token (1#32 ||| 2#32 <<< 10 ||| 4#32 <<< 13) a b
  | .beqz, [a, b] => asmEmitCb token (1#32 ||| 6#32 <<< 13) a b
  | .bnez, [a, b] => asmEmitCb token (1#32 ||| 7#32 <<< 13) a b
  | .srai, [a, b] => asmEmitCb token (1#32 ||| 1#32 <<< 10 ||| 4#32 <<< 13) a b
  | .srli, [a, b] => asmEmitCb token (1#32 ||| 4#32 <<< 13) a b
  | .sdsp, [a, b] => asmEmitCss token (2#32 ||| 7#32 <<< 13) a b
  | .swsp, [a, b] => asmEmitCss token (2#32 ||| 6#32 <<< 13) a b
  | .fswsp, [a, b] => asmEmitCss token (2#32 ||| 7#32 <<< 13) a b
  | .fsdsp, [a, b] => asmEmitCss token (2#32 ||| 5#32 <<< 13) a b
  | .fld, [a, b, c] => asmEmitCl token (1#32 <<< 13) a b c
  | .flw, [a, b, c] => asmEmitCl token (3#32 <<< 13) a b c
  | .fsd, [a, b, c] => asmEmitCs token (5#32 <<< 13) a b c
  | .fsw, [a, b, c] => asmEmitCs token (7#32 <<< 13) a b c
  | .ld, [a, b, c] => asmEmitCl token (3#32 <<< 13) a b c
  | .lw, [a, b, c] => asmEmitCl token (2#32 <<< 13) a b c
  | .sd, [a, b, c] => asmEmitCs token (7#32 <<< 13) a b c
  | .sw, [a, b, c] => asmEmitCs token (6#32 <<< 13) a b c
  | _, _ => .error "','"

end TccRiscv64.Asm
