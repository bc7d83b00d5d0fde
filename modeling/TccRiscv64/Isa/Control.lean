import TccRiscv64.Isa.Rv64

set_option autoImplicit false

/-! # Control flow

RV64 code with its addresses: the instructions that read or set the program counter, one step of
execution, and how straight-line code, a jump and a sequence of both move through a program. -/

namespace TccRiscv64.Isa

/-- A machine at an address of its code. -/
@[ext] structure Cpu where
  pc : BitVec 64
  machine : Machine

/-- The instruction words, by their addresses. -/
abbrev Code := BitVec 64 → Word

/-- The effect of a conditional branch. -/
def branchStep (w : Word) (s : Cpu) : Option Cpu :=
  match decodeBranch w with
  | some (.branch op rs1 rs2 imm) =>
    some ⟨if op.holds (s.machine.reg rs1) (s.machine.reg rs2) then s.pc + imm else s.pc + 4#64,
      s.machine⟩
  | _ => none

/-- The effect of a word. -/
def stepWord (w : Word) (s : Cpu) : Option Cpu :=
  match opcodeOf w with
  | 0x17#7 => some ⟨s.pc + 4#64, s.machine.setReg (rdOf w) (auipcValue s.pc w)⟩
  | 0x63#7 => branchStep w s
  | 0x67#7 =>
    if func3Of w = 0#3 then
      some ⟨jalrTarget (s.machine.reg (rs1Of w)) w, s.machine.setReg (rdOf w) (s.pc + 4#64)⟩
    else none
  | 0x6f#7 => some ⟨jalTarget s.pc w, s.machine.setReg (rdOf w) (s.pc + 4#64)⟩
  | _ => (execWord s.machine w).map fun m => ⟨s.pc + 4#64, m⟩

/-- Execute the word at the program counter. -/
def step (code : Code) (s : Cpu) : Option Cpu := stepWord (code s.pc) s

/-- Execute a number of words. -/
def steps (code : Code) : Nat → Cpu → Option Cpu
  | 0, s => some s
  | n + 1, s => (step code s).bind (steps code n)

theorem steps_add (code : Code) (n k : Nat) (s : Cpu) :
    steps code (n + k) s = (steps code n s).bind (steps code k) := by
  induction n generalizing s with
  | zero => rw [Nat.zero_add]; rfl
  | succ n ih =>
    rw [Nat.succ_add, steps, steps, Option.bind_assoc]
    congr 1
    funext s'
    exact ih s'

theorem steps_one (code : Code) (s : Cpu) : steps code 1 s = step code s := by
  rw [steps]
  exact Option.bind_fun_some ..

theorem steps_two (code : Code) (s : Cpu) : steps code 2 s = (step code s).bind (step code) := by
  rw [show 2 = 1 + 1 from rfl, steps_add, steps_one]
  congr 1
  funext s'
  exact steps_one code s'

/-- The words are at consecutive addresses from `pc` on. -/
def Code.At (code : Code) : BitVec 64 → List Word → Prop
  | _, [] => True
  | pc, w :: ws => code pc = w ∧ Code.At code (pc + 4#64) ws

/-- The address behind words at `pc`. -/
def after (pc : BitVec 64) (ws : List Word) : BitVec 64 := pc + BitVec.ofNat 64 (4 * ws.length)

@[simp] theorem after_nil (pc : BitVec 64) : after pc [] = pc := by
  simp [after]

theorem after_cons (pc : BitVec 64) (w : Word) (ws : List Word) :
    after pc (w :: ws) = after (pc + 4#64) ws := by
  unfold after
  rw [List.length_cons, Nat.mul_succ, BitVec.ofNat_add, BitVec.add_assoc, BitVec.add_comm 4#64]

theorem Code.at_append {code : Code} {pc : BitVec 64} {ws ws' : List Word} :
    code.At pc (ws ++ ws') ↔ code.At pc ws ∧ code.At (after pc ws) ws' := by
  induction ws generalizing pc with
  | nil => rw [List.nil_append, after_nil]; exact (true_and _).symm.to_iff
  | cons w ws ih => rw [List.cons_append, Code.At, Code.At, ih, after_cons, and_assoc]

theorem Code.at_iff {code : Code} {pc : BitVec 64} {ws : List Word} :
    code.At pc ws ↔ ∀ i w, ws[i]? = some w → code (pc + BitVec.ofNat 64 (4 * i)) = w := by
  induction ws generalizing pc with
  | nil => exact iff_of_true trivial fun i w h => by simp at h
  | cons w ws ih =>
    rw [Code.At, ih]
    constructor
    · rintro ⟨hw, hws⟩ i w' hi
      cases i with
      | zero =>
        obtain rfl := Option.some.inj hi
        rw [Nat.mul_zero, BitVec.add_zero]
        exact hw
      | succ i =>
        have hnext := hws i w' hi
        rwa [add_assoc, show 4#64 = BitVec.ofNat 64 4 from rfl, ← BitVec.ofNat_add,
          Nat.add_comm 4] at hnext
    · intro h
      constructor
      · have hfirst := h 0 w rfl
        rwa [Nat.mul_zero, BitVec.add_zero] at hfirst
      · intro i w' hi
        have hnext := h (i + 1) w' hi
        rwa [Nat.mul_succ, Nat.add_comm, BitVec.ofNat_add, ← add_assoc] at hnext

/-- A program with the words of a list put in at an address. -/
def Code.place (pc : BitVec 64) (ws : List Word) (code : Code) : Code :=
  fun x => ws[(x - pc).toNat / 4]?.getD (code x)

theorem Code.at_place (code : Code) (pc : BitVec 64) {ws : List Word} (h : 4 * ws.length ≤ 2 ^ 64) :
    (code.place pc ws).At pc ws := by
  rw [Code.at_iff]
  intro i w hi
  obtain ⟨hlt, -⟩ := List.getElem?_eq_some_iff.mp hi
  rw [place, add_sub_cancel_left, BitVec.toNat_ofNat, Nat.mod_eq_of_lt (by omega),
    Nat.mul_div_cancel_left i (by decide), hi]
  rfl

/-- Words apart from those put in stay where they are. -/
theorem Code.At.place {code : Code} {pc b : BitVec 64} {ws ws' : List Word} (h : code.At b ws')
    (hlo : 4 * ws.length ≤ (b - pc).toNat) (hhi : (b - pc).toNat + 4 * ws'.length ≤ 2 ^ 64) :
    (code.place pc ws).At b ws' := by
  rw [Code.at_iff] at h ⊢
  intro i w hi
  obtain ⟨hlt, -⟩ := List.getElem?_eq_some_iff.mp hi
  have hsum : b + BitVec.ofNat 64 (4 * i) - pc = b - pc + BitVec.ofNat 64 (4 * i) :=
    add_sub_right_comm ..
  have hle : ws.length ≤ (b + BitVec.ofNat 64 (4 * i) - pc).toNat / 4 := by
    rw [hsum, BitVec.toNat_add, BitVec.toNat_ofNat]
    omega
  rw [Code.place, List.getElem?_eq_none hle]
  exact h i w hi

/-- A word of straight-line code moves on to the next word. -/
theorem stepWord_of_exec {w : Word} {s : Cpu} {m : Machine} (h : execWord s.machine w = some m) :
    stepWord w s = some ⟨s.pc + 4#64, m⟩ := by
  have hdecode : decode w ≠ none ∧ ∀ op rs1 rs2 imm, decode w ≠ some (.branch op rs1 rs2 imm) := by
    refine ⟨fun hnone => ?_, fun op rs1 rs2 imm hbranch => ?_⟩
    · rw [execWord, hnone] at h
      cases h
    · rw [execWord, hbranch] at h
      cases h
  unfold stepWord
  split
  · rename_i hop
    exact absurd (by simp [decode, hop]) hdecode.1
  · rename_i hop
    -- a word with this opcode is a branch or nothing
    have hbranch : decode w = decodeBranch w := by simp [decode, hop]
    rw [hbranch] at hdecode
    unfold decodeBranch at hdecode
    revert hdecode
    dsimp only
    split <;> simp
  · rename_i hop
    exact absurd (by simp [decode, hop]) hdecode.1
  · rename_i hop
    exact absurd (by simp [decode, hop]) hdecode.1
  · rw [h]
    rfl

/-- Straight-line code is executed from its first to behind its last word. -/
theorem steps_run {code : Code} {pc : BitVec 64} {ws : List Word} {m m' : Machine}
    (hat : code.At pc ws) (hrun : run ws m = some m') :
    steps code ws.length ⟨pc, m⟩ = some ⟨after pc ws, m'⟩ := by
  induction ws generalizing pc m with
  | nil =>
    obtain rfl := Option.some.inj hrun
    rw [after_nil]
    rfl
  | cons w ws ih =>
    obtain ⟨m1, hw, hws⟩ := Option.bind_eq_some_iff.mp
      (show (execWord m w).bind (run ws) = some m' from hrun)
    rw [List.length_cons, steps, step, hat.1, stepWord_of_exec (s := ⟨pc, m⟩) hw, Option.bind_some,
      after_cons]
    exact ih hat.2 hws

end TccRiscv64.Isa
