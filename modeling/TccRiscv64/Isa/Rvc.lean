import TccRiscv64.Isa.Manual

set_option autoImplicit false

/-! # Compressed instructions

The instruction listings of the C extension: for each mnemonic the bits that are fixed in its words,
the code points that are listed under another mnemonic or reserved, and the operands that the other
bits hold. Code points that are hints belong to the mnemonic they are listed under. -/

namespace TccRiscv64.Isa

/-- A compressed instruction word. -/
abbrev HalfWord := BitVec 16

inductive Rvc
  | addi4spn | fld | lw | flw | ld | fsd | sw | fsw | sd
  | nop | addi | jal | addiw | li | addi16sp | lui
  | srli | srai | andi | sub | xor | or | and | subw | addw | j | beqz | bnez
  | slli | fldsp | lwsp | flwsp | ldsp | jr | mv | ebreak | jalr | add | fsdsp | swsp | fswsp | sdsp
  deriving DecidableEq

/-- The base instruction sets with different listings. -/
inductive Xlen
  | rv32 | rv64
  deriving DecidableEq

namespace Rvc

def all : List Rvc :=
  [addi4spn, fld, lw, flw, ld, fsd, sw, fsw, sd, nop, addi, jal, addiw, li, addi16sp, lui, srli,
    srai, andi, sub, xor, or, and, subw, addw, j, beqz, bnez, slli, fldsp, lwsp, flwsp, ldsp, jr,
    mv, ebreak, jalr, add, fsdsp, swsp, fswsp, sdsp]

theorem mem_all (m : Rvc) : m ∈ all := by
  cases m <;> decide

/-- Whether a mnemonic is listed for a base instruction set. -/
def listed : Xlen → Rvc → Bool
  | .rv32, .ld | .rv32, .sd | .rv32, .ldsp | .rv32, .sdsp | .rv32, .addiw | .rv32, .subw
  | .rv32, .addw => false
  | .rv64, .flw | .rv64, .fsw | .rv64, .flwsp | .rv64, .fswsp | .rv64, .jal => false
  | _, _ => true

/-- The base instruction set whose listing has the mnemonic: RV64, unless it is RV32 only. -/
def xlen : Rvc → Xlen
  | flw | fsw | flwsp | fswsp | jal => .rv32
  | _ => .rv64

/-- The fixed bits of the words: their mask and their values. -/
def fixed : Rvc → HalfWord × HalfWord
  | addi4spn => (0xe003#16, 0x0000#16)
  | fld => (0xe003#16, 0x2000#16)
  | lw => (0xe003#16, 0x4000#16)
  | flw | ld => (0xe003#16, 0x6000#16)
  | fsd => (0xe003#16, 0xa000#16)
  | sw => (0xe003#16, 0xc000#16)
  | fsw | sd => (0xe003#16, 0xe000#16)
  | nop => (0xffff#16, 0x0001#16)
  | addi => (0xe003#16, 0x0001#16)
  | jal | addiw => (0xe003#16, 0x2001#16)
  | li => (0xe003#16, 0x4001#16)
  | addi16sp => (0xef83#16, 0x6101#16)
  | lui => (0xe003#16, 0x6001#16)
  | srli => (0xec03#16, 0x8001#16)
  | srai => (0xec03#16, 0x8401#16)
  | andi => (0xec03#16, 0x8801#16)
  | sub => (0xfc63#16, 0x8c01#16)
  | xor => (0xfc63#16, 0x8c21#16)
  | or => (0xfc63#16, 0x8c41#16)
  | and => (0xfc63#16, 0x8c61#16)
  | subw => (0xfc63#16, 0x9c01#16)
  | addw => (0xfc63#16, 0x9c21#16)
  | j => (0xe003#16, 0xa001#16)
  | beqz => (0xe003#16, 0xc001#16)
  | bnez => (0xe003#16, 0xe001#16)
  | slli => (0xe003#16, 0x0002#16)
  | fldsp => (0xe003#16, 0x2002#16)
  | lwsp => (0xe003#16, 0x4002#16)
  | flwsp | ldsp => (0xe003#16, 0x6002#16)
  | jr => (0xf07f#16, 0x8002#16)
  | mv => (0xf003#16, 0x8002#16)
  | ebreak => (0xffff#16, 0x9002#16)
  | jalr => (0xf07f#16, 0x9002#16)
  | add => (0xf003#16, 0x9002#16)
  | fsdsp => (0xe003#16, 0xa002#16)
  | swsp => (0xe003#16, 0xc002#16)
  | fswsp | sdsp => (0xe003#16, 0xe002#16)

/-- The values of fields that are reserved or belong to another mnemonic. -/
def excluded : Rvc → List (HalfWord × HalfWord)
  | addi4spn => [(0x1fe0#16, 0#16)]
  | addi | addiw | lwsp | ldsp | jr | jalr => [(0x0f80#16, 0#16)]
  | addi16sp | srli | srai | slli => [(0x107c#16, 0#16)]
  | lui => [(0x0f80#16, 0x0100#16), (0x107c#16, 0#16)]
  | mv | add => [(0x007c#16, 0#16)]
  | _ => []

/-- A word is listed under a mnemonic. -/
def Matches (m : Rvc) (h : HalfWord) : Prop :=
  h &&& m.fixed.1 = m.fixed.2 ∧ ∀ f ∈ m.excluded, h &&& f.1 ≠ f.2

instance (m : Rvc) (h : HalfWord) : Decidable (m.Matches h) :=
  @instDecidableAnd _ _ _ (List.decidableBAll _ _)

end Rvc

/-! ## Fields -/

/-- The register in bits 7 to 11. -/
def cRd (h : HalfWord) : BitVec 5 := h.extractLsb' 7 5

/-- The register in bits 2 to 6. -/
def cRs2 (h : HalfWord) : BitVec 5 := h.extractLsb' 2 5

/-- The register `x8` to `x15` in bits 7 to 9. -/
def cRs1' (h : HalfWord) : BitVec 5 := 1#2 ++ h.extractLsb' 7 3

/-- The register `x8` to `x15` in bits 2 to 4. -/
def cRs2' (h : HalfWord) : BitVec 5 := 1#2 ++ h.extractLsb' 2 3

def cImm6 (h : HalfWord) : BitVec 6 := h.extractLsb' 12 1 ++ h.extractLsb' 2 5

def cImmAddi4spn (h : HalfWord) : BitVec 64 :=
  (h.extractLsb' 7 4 ++ h.extractLsb' 11 2 ++ h.extractLsb' 5 1 ++ h.extractLsb' 6 1 ++
    0#2).setWidth 64

def cImmAddi16sp (h : HalfWord) : BitVec 64 :=
  (h.extractLsb' 12 1 ++ h.extractLsb' 3 2 ++ h.extractLsb' 5 1 ++ h.extractLsb' 2 1 ++
    h.extractLsb' 6 1 ++ 0#4).signExtend 64

def cImmLw (h : HalfWord) : BitVec 64 :=
  (h.extractLsb' 5 1 ++ h.extractLsb' 10 3 ++ h.extractLsb' 6 1 ++ 0#2).setWidth 64

def cImmLd (h : HalfWord) : BitVec 64 :=
  (h.extractLsb' 5 2 ++ h.extractLsb' 10 3 ++ 0#3).setWidth 64

def cImmLwsp (h : HalfWord) : BitVec 64 :=
  (h.extractLsb' 2 2 ++ h.extractLsb' 12 1 ++ h.extractLsb' 4 3 ++ 0#2).setWidth 64

def cImmLdsp (h : HalfWord) : BitVec 64 :=
  (h.extractLsb' 2 3 ++ h.extractLsb' 12 1 ++ h.extractLsb' 5 2 ++ 0#3).setWidth 64

def cImmSwsp (h : HalfWord) : BitVec 64 :=
  (h.extractLsb' 7 2 ++ h.extractLsb' 9 4 ++ 0#2).setWidth 64

def cImmSdsp (h : HalfWord) : BitVec 64 :=
  (h.extractLsb' 7 3 ++ h.extractLsb' 10 3 ++ 0#3).setWidth 64

/-- The operands in a word. A store has the register that is stored first. -/
def Rvc.args (h : HalfWord) : Rvc → List Arg
  | addi4spn => [.x (cRs2' h), .imm (cImmAddi4spn h)]
  | lw => [.x (cRs2' h), .x (cRs1' h), .imm (cImmLw h)]
  | ld => [.x (cRs2' h), .x (cRs1' h), .imm (cImmLd h)]
  | flw => [.f (cRs2' h), .x (cRs1' h), .imm (cImmLw h)]
  | fld => [.f (cRs2' h), .x (cRs1' h), .imm (cImmLd h)]
  | sw => [.x (cRs2' h), .x (cRs1' h), .imm (cImmLw h)]
  | sd => [.x (cRs2' h), .x (cRs1' h), .imm (cImmLd h)]
  | fsw => [.f (cRs2' h), .x (cRs1' h), .imm (cImmLw h)]
  | fsd => [.f (cRs2' h), .x (cRs1' h), .imm (cImmLd h)]
  | nop | ebreak => []
  | addi | addiw | li => [.x (cRd h), .imm ((cImm6 h).signExtend 64)]
  | slli => [.x (cRd h), .imm ((cImm6 h).setWidth 64)]
  | addi16sp => [.x (cRd h), .imm (cImmAddi16sp h)]
  | lui => [.x (cRd h), .imm ((cImm6 h ++ 0#12).signExtend 64)]
  | srli | srai => [.x (cRs1' h), .imm ((cImm6 h).setWidth 64)]
  | andi => [.x (cRs1' h), .imm ((cImm6 h).signExtend 64)]
  | sub | xor | or | and | subw | addw => [.x (cRs1' h), .x (cRs2' h)]
  | j | jal => [.imm (immCJ h)]
  | beqz | bnez => [.x (cRs1' h), .imm (immCB h)]
  | lwsp => [.x (cRd h), .imm (cImmLwsp h)]
  | ldsp => [.x (cRd h), .imm (cImmLdsp h)]
  | flwsp => [.f (cRd h), .imm (cImmLwsp h)]
  | fldsp => [.f (cRd h), .imm (cImmLdsp h)]
  | jr | jalr => [.x (cRd h)]
  | mv | add => [.x (cRd h), .x (cRs2 h)]
  | swsp => [.x (cRs2 h), .imm (cImmSwsp h)]
  | sdsp => [.x (cRs2 h), .imm (cImmSdsp h)]
  | fswsp => [.f (cRs2 h), .imm (cImmSwsp h)]
  | fsdsp => [.f (cRs2 h), .imm (cImmSdsp h)]

/-- The mnemonic and the operands of a word. -/
def decodeRvc (xlen : Xlen) (h : HalfWord) : Option (Rvc × List Arg) :=
  (Rvc.all.find? fun m => m.listed xlen ∧ m.Matches h).map fun m => (m, m.args h)

/-- Two mnemonics of a listing differ in a fixed bit, or the fixed bits of one are excluded for the
other. -/
theorem rvc_disjoint : ∀ xlen ∈ [Xlen.rv32, Xlen.rv64], ∀ m ∈ Rvc.all, ∀ m' ∈ Rvc.all,
    m.listed xlen → m'.listed xlen → m ≠ m' →
      m.fixed.2 &&& m'.fixed.1 ≠ m'.fixed.2 &&& m.fixed.1
      ∨ (∃ f ∈ m.excluded, f.1 &&& m'.fixed.1 = f.1 ∧ m'.fixed.2 &&& f.1 = f.2)
      ∨ (∃ f ∈ m'.excluded, f.1 &&& m.fixed.1 = f.1 ∧ m.fixed.2 &&& f.1 = f.2) := by
  decide +kernel

theorem not_matches_of_excluded {m m' : Rvc} {h : HalfWord} (hm : m.Matches h)
    (hm' : m'.Matches h) {f : HalfWord × HalfWord} (hf : f ∈ m.excluded)
    (hsub : f.1 &&& m'.fixed.1 = f.1) (heq : m'.fixed.2 &&& f.1 = f.2) : False := by
  refine hm.2 f hf ?_
  rw [← heq, ← hm'.1, BitVec.and_assoc, BitVec.and_comm m'.fixed.1, hsub]

theorem rvc_unique {xlen : Xlen} {m m' : Rvc} {h : HalfWord} (hl : m.listed xlen)
    (hl' : m'.listed xlen) (hm : m.Matches h) (hm' : m'.Matches h) : m = m' := by
  by_contra hne
  have hx : xlen ∈ [Xlen.rv32, Xlen.rv64] := by cases xlen <;> decide
  rcases rvc_disjoint xlen hx m m.mem_all m' m'.mem_all hl hl' hne with h1 | h1 | h1
  · refine h1 ?_
    rw [← hm.1, ← hm'.1, BitVec.and_assoc, BitVec.and_assoc, BitVec.and_comm m.fixed.1]
  · obtain ⟨f, hf, hsub, heq⟩ := h1
    exact not_matches_of_excluded hm hm' hf hsub heq
  · obtain ⟨f, hf, hsub, heq⟩ := h1
    exact not_matches_of_excluded hm' hm hf hsub heq

/-- A word decodes to a mnemonic of a listing exactly if it is listed under it. -/
theorem decodeRvc_eq_iff {xlen : Xlen} {m : Rvc} (hl : m.listed xlen) {h : HalfWord}
    {args : List Arg} :
    decodeRvc xlen h = some (m, args) ↔ m.Matches h ∧ m.args h = args := by
  unfold decodeRvc
  constructor
  · intro hd
    obtain ⟨m', hfind, hd⟩ := Option.map_eq_some_iff.1 hd
    have hm' := List.find?_some hfind
    cases hd
    exact ⟨(by simpa using hm' : _ ∧ _).2, rfl⟩
  · rintro ⟨hm, rfl⟩
    cases hfind : Rvc.all.find? fun m => m.listed xlen ∧ m.Matches h with
    | none =>
      have hnone := List.find?_eq_none.1 hfind m m.mem_all
      exact absurd (by simpa using ⟨hl, hm⟩) hnone
    | some m' =>
      have hm' : m'.listed xlen ∧ m'.Matches h := by simpa using List.find?_some hfind
      rw [rvc_unique hl hm'.1 hm hm'.2]
      rfl

theorem Rvc.listed_xlen (m : Rvc) : m.listed m.xlen := by
  cases m <;> rfl

end TccRiscv64.Isa
