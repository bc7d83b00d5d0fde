import TccRiscv64.Isa.Manual

set_option autoImplicit false

/-! # Operands of the assembler

Registers and immediates as `parse_operand` classifies them, and the macros that put a register into
a word. Operands with a symbol are left out: their words are completed by relocations. -/

namespace TccRiscv64.Asm

open Isa

/-- `Operand`: the number that `asm_parse_regvar` gives a register, with `REG_FLOAT_MASK` set for a
floating point register, or the value of an expression. -/
inductive Operand
  | reg (r : BitVec 6)
  | imm (v : BitVec 64)
  deriving DecidableEq

/-- `OP_REG`, `OP_IM12S` and `OP_IM32`. -/
inductive OperandType
  | reg | im12s | im32
  deriving DecidableEq

/-- The range that `parse_operand` compares an immediate with, after a cast to `int`. -/
def isIm12s (v : BitVec 64) : Bool :=
  -0x1000 ≤ (v.setWidth 32).toInt ∧ (v.setWidth 32).toInt < 0x1000

def Operand.type : Operand → OperandType
  | .reg _ => .reg
  | .imm v => if isIm12s v then .im12s else .im32

/-- The operand that the manual names. -/
def Operand.ofArg : Arg → Operand
  | .x r => .reg (0#1 ++ r)
  | .f r => .reg (1#1 ++ r)
  | .imm v => .imm v

/-- `REG_VALUE`. -/
def regValue (r : BitVec 6) : BitVec 32 := r.setWidth 32 &&& 31#32

def encodeRd (r : BitVec 6) : BitVec 32 := regValue r <<< 7
def encodeRs1 (r : BitVec 6) : BitVec 32 := regValue r <<< 15
def encodeRs2 (r : BitVec 6) : BitVec 32 := regValue r <<< 20

/-- The check for a register operand, with the message of `tcc_error`. -/
def expectReg (message : String) : Operand → Except String (BitVec 6)
  | .reg r => .ok r
  | .imm _ => .error message

/-- The check for an immediate of type `OP_IM12S`. -/
def expectIm12s (message : String) : Operand → Except String (BitVec 64)
  | .reg _ => .error message
  | .imm v => if isIm12s v then .ok v else .error message

/-- The check for an immediate of type `OP_IM12S` or `OP_IM32`. -/
def expectImm (message : String) : Operand → Except String (BitVec 64)
  | .reg _ => .error message
  | .imm v => .ok v

end TccRiscv64.Asm
