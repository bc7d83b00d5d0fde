import TccRiscv64.Isa.Rv64

set_option autoImplicit false

/-! # Mnemonics of RV64I, M and Zicsr

The instruction listings of the manual: the format of each mnemonic, the bits that are fixed in its
words, and the operands that the other bits hold, in the order in which an assembler takes them.
Conditional branches and `jal` are left out. -/

namespace TccRiscv64.Isa

/-- An operand: an integer register, a floating point register or an immediate. -/
inductive Arg
  | x (r : XReg)
  | f (r : BitVec 5)
  | imm (v : BitVec 64)
  deriving DecidableEq

inductive Mnemonic
  | lui | auipc | jalr
  | lb | lh | lw | ld | lbu | lhu | lwu | sb | sh | sw | sd
  | addi | slti | sltiu | xori | ori | andi | slli | srli | srai
  | add | sub | sll | slt | sltu | xor | srl | sra | or | and
  | fence | ecall | ebreak
  | addiw | slliw | srliw | sraiw | addw | subw | sllw | srlw | sraw
  | mul | mulh | mulhsu | mulhu | div | divu | rem | remu
  | mulw | divw | divuw | remw | remuw
  | csrrw | csrrs | csrrc | csrrwi | csrrsi | csrrci
  deriving DecidableEq

/-- Which bits of a word hold operands. `shift` and `shiftw` are the forms with a shift amount. -/
inductive Format
  | r | i | shift | shiftw | s | u | csr | csri | fence | system
  deriving DecidableEq

namespace Mnemonic

def all : List Mnemonic :=
  [lui, auipc, jalr, lb, lh, lw, ld, lbu, lhu, lwu, sb, sh, sw, sd, addi, slti, sltiu, xori, ori,
    andi, slli, srli, srai, add, sub, sll, slt, sltu, xor, srl, sra, or, and, fence, ecall, ebreak,
    addiw, slliw, srliw, sraiw, addw, subw, sllw, srlw, sraw, mul, mulh, mulhsu, mulhu, div, divu,
    rem, remu, mulw, divw, divuw, remw, remuw, csrrw, csrrs, csrrc, csrrwi, csrrsi, csrrci]

theorem mem_all (m : Mnemonic) : m ∈ all := by
  cases m <;> decide

def format : Mnemonic → Format
  | lui | auipc => .u
  | jalr | lb | lh | lw | ld | lbu | lhu | lwu => .i
  | addi | slti | sltiu | xori | ori | andi | addiw => .i
  | sb | sh | sw | sd => .s
  | slli | srli | srai => .shift
  | slliw | srliw | sraiw => .shiftw
  | add | sub | sll | slt | sltu | xor | srl | sra | or | and => .r
  | addw | subw | sllw | srlw | sraw => .r
  | mul | mulh | mulhsu | mulhu | div | divu | rem | remu => .r
  | mulw | divw | divuw | remw | remuw => .r
  | fence => .fence
  | ecall | ebreak => .system
  | csrrw | csrrs | csrrc => .csr
  | csrrwi | csrrsi | csrrci => .csri

end Mnemonic

/-- The bits of a word that the listings fix. -/
def Format.mask : Format → Word
  | .r => 0xfe00707f#32
  | .i | .s | .csr | .csri => 0x0000707f#32
  | .shift => 0xfc00707f#32
  | .shiftw => 0xfe00707f#32
  | .u => 0x0000007f#32
  | .fence => 0xf00fffff#32
  | .system => 0xffffffff#32

/-- A word of `opcode`, `funct3` and `funct7`. -/
def fixedBits (opcode funct3 funct7 : Nat) : Word :=
  BitVec.ofNat 32 (opcode + 2 ^ 12 * funct3 + 2 ^ 25 * funct7)

/-- The values of the fixed bits. -/
def Mnemonic.fixed : Mnemonic → Word
  | lui => fixedBits 0x37 0 0
  | auipc => fixedBits 0x17 0 0
  | jalr => fixedBits 0x67 0 0
  | lb => fixedBits 0x03 0 0
  | lh => fixedBits 0x03 1 0
  | lw => fixedBits 0x03 2 0
  | ld => fixedBits 0x03 3 0
  | lbu => fixedBits 0x03 4 0
  | lhu => fixedBits 0x03 5 0
  | lwu => fixedBits 0x03 6 0
  | sb => fixedBits 0x23 0 0
  | sh => fixedBits 0x23 1 0
  | sw => fixedBits 0x23 2 0
  | sd => fixedBits 0x23 3 0
  | addi => fixedBits 0x13 0 0
  | slti => fixedBits 0x13 2 0
  | sltiu => fixedBits 0x13 3 0
  | xori => fixedBits 0x13 4 0
  | ori => fixedBits 0x13 6 0
  | andi => fixedBits 0x13 7 0
  | slli => fixedBits 0x13 1 0
  | srli => fixedBits 0x13 5 0
  | srai => fixedBits 0x13 5 0x20
  | add => fixedBits 0x33 0 0
  | sub => fixedBits 0x33 0 0x20
  | sll => fixedBits 0x33 1 0
  | slt => fixedBits 0x33 2 0
  | sltu => fixedBits 0x33 3 0
  | xor => fixedBits 0x33 4 0
  | srl => fixedBits 0x33 5 0
  | sra => fixedBits 0x33 5 0x20
  | or => fixedBits 0x33 6 0
  | and => fixedBits 0x33 7 0
  | fence => fixedBits 0x0f 0 0
  | ecall => 0x00000073#32
  | ebreak => 0x00100073#32
  | addiw => fixedBits 0x1b 0 0
  | slliw => fixedBits 0x1b 1 0
  | srliw => fixedBits 0x1b 5 0
  | sraiw => fixedBits 0x1b 5 0x20
  | addw => fixedBits 0x3b 0 0
  | subw => fixedBits 0x3b 0 0x20
  | sllw => fixedBits 0x3b 1 0
  | srlw => fixedBits 0x3b 5 0
  | sraw => fixedBits 0x3b 5 0x20
  | mul => fixedBits 0x33 0 1
  | mulh => fixedBits 0x33 1 1
  | mulhsu => fixedBits 0x33 2 1
  | mulhu => fixedBits 0x33 3 1
  | div => fixedBits 0x33 4 1
  | divu => fixedBits 0x33 5 1
  | rem => fixedBits 0x33 6 1
  | remu => fixedBits 0x33 7 1
  | mulw => fixedBits 0x3b 0 1
  | divw => fixedBits 0x3b 4 1
  | divuw => fixedBits 0x3b 5 1
  | remw => fixedBits 0x3b 6 1
  | remuw => fixedBits 0x3b 7 1
  | csrrw => fixedBits 0x73 1 0
  | csrrs => fixedBits 0x73 2 0
  | csrrc => fixedBits 0x73 3 0
  | csrrwi => fixedBits 0x73 5 0
  | csrrsi => fixedBits 0x73 6 0
  | csrrci => fixedBits 0x73 7 0

/-- The operands in a word. A store has the register that is stored first; a `fence` has its
predecessor and successor sets. -/
def Format.args (w : Word) : Format → List Arg
  | .r => [.x (rdOf w), .x (rs1Of w), .x (rs2Of w)]
  | .i => [.x (rdOf w), .x (rs1Of w), .imm (immI w)]
  | .shift => [.x (rdOf w), .x (rs1Of w), .imm ((w.extractLsb' 20 6).setWidth 64)]
  | .shiftw => [.x (rdOf w), .x (rs1Of w), .imm ((w.extractLsb' 20 5).setWidth 64)]
  | .s => [.x (rs2Of w), .x (rs1Of w), .imm (immS w)]
  | .u => [.x (rdOf w), .imm ((w.extractLsb' 12 20).setWidth 64)]
  | .csr => [.x (rdOf w), .imm ((w.extractLsb' 20 12).setWidth 64), .x (rs1Of w)]
  | .csri =>
    [.x (rdOf w), .imm ((w.extractLsb' 20 12).setWidth 64), .imm ((rs1Of w).setWidth 64)]
  | .fence => [.imm ((w.extractLsb' 24 4).setWidth 64), .imm ((w.extractLsb' 20 4).setWidth 64)]
  | .system => []

/-- The mnemonic and the operands of a word. -/
def decodeMnemonic (w : Word) : Option (Mnemonic × List Arg) :=
  (Mnemonic.all.find? fun m => w &&& m.format.mask = m.fixed).map fun m => (m, m.format.args w)

/-- No word has the fixed bits of two mnemonics. -/
theorem fixed_disjoint : ∀ m ∈ Mnemonic.all, ∀ m' ∈ Mnemonic.all,
    m.fixed &&& m'.format.mask = m'.fixed &&& m.format.mask → m = m' := by
  decide +kernel

theorem mnemonic_unique {w : Word} {m m' : Mnemonic} (h : w &&& m.format.mask = m.fixed)
    (h' : w &&& m'.format.mask = m'.fixed) : m = m' := by
  refine fixed_disjoint m m.mem_all m' m'.mem_all ?_
  rw [← h, ← h', BitVec.and_assoc, BitVec.and_assoc, BitVec.and_comm m.format.mask]

/-- A word decodes to a mnemonic exactly if it has its fixed bits. -/
theorem decodeMnemonic_eq_iff {w : Word} {m : Mnemonic} {args : List Arg} :
    decodeMnemonic w = some (m, args)
      ↔ w &&& m.format.mask = m.fixed ∧ m.format.args w = args := by
  unfold decodeMnemonic
  constructor
  · intro h
    obtain ⟨m', hfind, h⟩ := Option.map_eq_some_iff.1 h
    have hm' := List.find?_some hfind
    cases h
    exact ⟨by simpa using hm', rfl⟩
  · rintro ⟨hm, rfl⟩
    cases hfind : Mnemonic.all.find? fun m => w &&& m.format.mask = m.fixed with
    | none =>
      have hnone := List.find?_eq_none.1 hfind m m.mem_all
      exact absurd (by simpa using hm) hnone
    | some m' =>
      have hm' := List.find?_some hfind
      rw [mnemonic_unique hm (by simpa using hm')]
      rfl

end TccRiscv64.Isa
