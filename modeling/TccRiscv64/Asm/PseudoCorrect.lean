import TccRiscv64.Asm.LoadImm
import TccRiscv64.Asm.Pseudo
import TccRiscv64.Isa.Ram

set_option autoImplicit false

/-! # Which pseudo-instructions are right

Each expansion is linked and executed. `neg`, `negw`, `call` and `jump` are never right, but for
`neg` and `negw` with the destination `x0`; an operand loses the number that is added to its symbol;
`la` loads half of an address; and loads and stores take no symbol. -/

namespace TccRiscv64.Asm

open Isa Link Gen

/-! ## Fields that a relocation keeps -/

theorem sameOutside_extract {mask w w' : Word} (h : SameOutside mask w w') {start len : Nat}
    (hmask : (~~~mask).extractLsb' start len = BitVec.allOnes len) :
    w'.extractLsb' start len = w.extractLsb' start len := by
  have hfield (x : Word) : (x &&& ~~~mask).extractLsb' start len = x.extractLsb' start len := by
    rw [BitVec.extractLsb'_and, hmask, BitVec.and_allOnes]
  rw [← hfield w', ← hfield w, h]

theorem fields_of_maskU {w w' : Word} (h : SameOutside maskU w w') :
    opcodeOf w' = opcodeOf w ∧ rdOf w' = rdOf w :=
  ⟨sameOutside_extract h (by decide), sameOutside_extract h (by decide)⟩

theorem fields_of_maskI {w w' : Word} (h : SameOutside maskI w w') :
    opcodeOf w' = opcodeOf w ∧ rdOf w' = rdOf w ∧ func3Of w' = func3Of w ∧ rs1Of w' = rs1Of w :=
  ⟨sameOutside_extract h (by decide), sameOutside_extract h (by decide),
    sameOutside_extract h (by decide), sameOutside_extract h (by decide)⟩

theorem fields_of_maskB {w w' : Word} (h : SameOutside maskB w w') :
    opcodeOf w' = opcodeOf w ∧ func3Of w' = func3Of w ∧ rs1Of w' = rs1Of w ∧ rs2Of w' = rs2Of w :=
  ⟨sameOutside_extract h (by decide), sameOutside_extract h (by decide),
    sameOutside_extract h (by decide), sameOutside_extract h (by decide)⟩

/-! ## Linking -/

section Link

variable {s1 : TCCState} {ptr : Nat}

theorem read32le_put (ws : List Word) {q : Nat} (h : q + 4 ≤ ptr) :
    (put s1 ptr ws).read32le q = s1.read32le q := by
  induction ws generalizing s1 ptr with
  | nil => rfl
  | cons w ws ih =>
    rw [put, ih (by omega)]
    exact s1.read32le_write32le_of_disjoint ptr w (.inl h)

theorem fetch_put (ws : List Word) : fetch (put s1 ptr ws) ptr ws.length = ws := by
  induction ws generalizing s1 ptr with
  | nil => rfl
  | cons w ws ih =>
    rw [List.length_cons, fetch, put, ih, read32le_put ws le_rfl, TCCState.read32le_write32le]

theorem length_fetch (n : Nat) : (fetch s1 ptr n).length = n := by
  induction n generalizing ptr with
  | zero => rfl
  | succ n ih => rw [fetch, List.length_cons, ih]

theorem read32le_applyReloc {r : Reloc} {q : Nat} (h : r.Apart q 4) :
    (applyReloc s1 r).read32le q = s1.read32le q := by
  have hkeep := relocateAll_agreeOn [r] s1 (p := q) (n := 4) fun r' hr' => by
    rw [List.mem_singleton.1 hr']
    exact h
  exact Memory.load_congr hkeep

variable (P : Place) (w w' : Word) (sym : Nat)

theorem linked_nil (ws : List Word) : P.linked ws [] = ws := fetch_put ws

/-- The displacement of the symbol. -/
def Place.disp : BitVec 64 := P.value - P.pc

theorem linked_branch : P.linked [w] [⟨0, .branch, some sym⟩] = [patchBranch w P.disp] := by
  have hpc : P.pc + BitVec.ofNat 64 0 = P.pc := BitVec.add_zero _
  simp only [Place.linked, List.map_cons, List.map_nil, relocateAll, List.foldl_cons,
    List.foldl_nil, applyReloc, Place.resolve, relocate, put, fetch, List.length_cons,
    List.length_nil, TCCState.read32le_errorIf, hpc, Nat.add_zero, TCCState.read32le_write32le,
    Option.isSome_some, if_true]
  rfl

theorem linked_jal : P.linked [w] [⟨0, .jal, some sym⟩] = [patchJal w P.disp] := by
  have hpc : P.pc + BitVec.ofNat 64 0 = P.pc := BitVec.add_zero _
  simp only [Place.linked, List.map_cons, List.map_nil, relocateAll, List.foldl_cons,
    List.foldl_nil, applyReloc, Place.resolve, relocate, put, fetch, List.length_cons,
    List.length_nil, TCCState.read32le_errorIf, hpc, Nat.add_zero, TCCState.read32le_write32le,
    Option.isSome_some, if_true]
  rfl

theorem gotSlot_put (ws : List Word) (n : Nat) : gotSlot (put s1 ptr ws) n = gotSlot s1 n := by
  induction ws generalizing s1 ptr with
  | nil => rfl
  | cons w ws ih => exact ih

/-- The relocations that `parse_operand` records. -/
def operandRelocs (type : RelocType) (sym : Nat) : List AsmReloc :=
  [⟨0, type, some sym⟩, ⟨4, .pcrelLo12I, none⟩]

/-- What the first of them refers to. -/
def Place.hiTarget (type : RelocType) : BitVec 64 :=
  if type = .gotHi20 then gotSlot P.s1 sym else P.value

/-- The pair of words after the relocations of its operand. -/
theorem operandRelocs_words {type : RelocType} (htype : type.IsHi20) :
    let d := P.hiTarget sym type - P.pc
    let s := relocateAll (put P.s1 P.ptr [w, w']) ((operandRelocs type sym).map P.resolve)
    s.read32le P.ptr = patchHi20 w (hi20Of d) ∧ s.read32le (P.ptr + 4) = patchLoI w' d := by
  dsimp only
  have hw : (put P.s1 P.ptr [w, w']).read32le P.ptr = w :=
    ((P.s1.write32le P.ptr w).read32le_write32le_of_disjoint (P.ptr + 4) w' (.inl le_rfl)).trans
      (P.s1.read32le_write32le P.ptr w)
  have hw' : (put P.s1 P.ptr [w, w']).read32le (P.ptr + 4) = w' :=
    (P.s1.write32le P.ptr w).read32le_write32le (P.ptr + 4) w'
  have hvalue : Link.hiValue (put P.s1 P.ptr [w, w']) (P.resolve ⟨0, type, some sym⟩) =
      P.hiTarget sym type := by
    rw [Link.hiValue, Place.hiTarget]
    refine if_congr Iff.rfl ?_ rfl
    exact gotSlot_put _ _
  have haddr : (P.resolve ⟨0, type, some sym⟩).addr = P.pc := BitVec.add_zero _
  generalize put P.s1 P.ptr [w, w'] = s0 at hw hw' hvalue
  obtain ⟨-, hlast, hhi⟩ := applyReloc_hi20 s0 (P.resolve ⟨0, type, some sym⟩) htype
  rw [hvalue, haddr] at hlast hhi
  have hkeep : (applyReloc s0 (P.resolve ⟨0, type, some sym⟩)).read32le (P.ptr + 4) = w' := by
    rw [read32le_applyReloc, hw']
    left
    rcases htype with h | h <;> subst h <;> exact le_rfl
  obtain ⟨-, hlo⟩ := applyReloc_lo12 (applyReloc s0 (P.resolve ⟨0, type, some sym⟩))
    (P.resolve ⟨4, .pcrelLo12I, none⟩) (.inl rfl)
  have hlow : (P.resolve ⟨4, .pcrelLo12I, none⟩).type ≠ .pcrelLo12S :=
    show RelocType.pcrelLo12I ≠ .pcrelLo12S by decide
  rw [hlast, if_neg hlow] at hlo
  constructor
  · have hapart : (P.resolve ⟨4, .pcrelLo12I, none⟩).Apart P.ptr 4 := .inr le_rfl
    have hread : s0.read32le (P.resolve ⟨0, type, some sym⟩).ptr = w := hw
    rw [hread] at hhi
    exact (read32le_applyReloc hapart).trans hhi
  · have hread : (applyReloc s0 (P.resolve ⟨0, type, some sym⟩)).read32le
        (P.resolve ⟨4, .pcrelLo12I, none⟩).ptr = w' := hkeep
    rw [hread] at hlo
    exact hlo

theorem linked_operand {type : RelocType} (htype : type.IsHi20) :
    P.linked [w, w'] (operandRelocs type sym) =
      [patchHi20 w (hi20Of (P.hiTarget sym type - P.pc)),
        patchLoI w' (P.hiTarget sym type - P.pc)] := by
  obtain ⟨h1, h2⟩ := operandRelocs_words P w w' sym htype
  rw [← h1, ← h2]
  rfl

/-- A call behind them patches both words again. -/
theorem linked_call {type : RelocType} (htype : type.IsHi20) :
    P.linked [w, w'] (operandRelocs type sym ++ [⟨0, .call, some sym⟩]) =
      [patchCallHi (patchHi20 w (hi20Of (P.hiTarget sym type - P.pc))) P.disp,
        patchLoI (patchLoI w' (P.hiTarget sym type - P.pc)) P.disp] := by
  obtain ⟨h1, h2⟩ := operandRelocs_words P w w' sym htype
  have happend : relocateAll (put P.s1 P.ptr [w, w'])
      ((operandRelocs type sym ++ ([⟨0, .call, some sym⟩] : List AsmReloc)).map P.resolve) =
      applyReloc (relocateAll (put P.s1 P.ptr [w, w']) ((operandRelocs type sym).map P.resolve))
        (P.resolve ⟨0, .call, some sym⟩) := by
    rw [List.map_append, relocateAll, List.foldl_append]
    rfl
  rw [Place.linked, happend]
  generalize relocateAll (put P.s1 P.ptr [w, w']) ((operandRelocs type sym).map P.resolve) = s
    at h1 h2
  have hpc : P.pc + BitVec.ofNat 64 0 = P.pc := BitVec.add_zero _
  have hne (x : Word) : (s.write32le P.ptr x).read32le (P.ptr + 4) = s.read32le (P.ptr + 4) :=
    s.read32le_write32le_of_disjoint P.ptr x (.inr le_rfl)
  have hne' (x y : Word) : ((s.write32le P.ptr x).write32le (P.ptr + 4) y).read32le P.ptr = x :=
    ((s.write32le P.ptr x).read32le_write32le_of_disjoint (P.ptr + 4) y (.inl le_rfl)).trans
      (s.read32le_write32le P.ptr x)
  simp only [applyReloc, Place.resolve, relocate, fetch, List.length_cons, List.length_nil, hpc,
    Nat.add_zero, hne, hne', Option.isSome_some, if_true, TCCState.read32le_write32le, h1, h2]
  rfl

end Link

/-! ## Executing the words -/

section Exec

variable {code : Code} {w w1 w2 : Word} {pc : BitVec 64} {m m' : Machine}

theorem steps_single (hat : code.At pc [w]) :
    steps code 1 ⟨pc, m⟩ = stepWord w ⟨pc, m⟩ := by
  rw [steps_one, step, hat.1]

theorem steps_pair (hat : code.At pc [w1, w2])
    (hfirst : stepWord w1 ⟨pc, m⟩ = some ⟨pc + 4#64, m'⟩) :
    steps code 2 ⟨pc, m⟩ = stepWord w2 ⟨pc + 4#64, m'⟩ := by
  rw [steps_two, step, hat.1, hfirst, Option.bind_some, step, hat.2.1]

variable {s : Cpu}

theorem stepWord_auipc (h : opcodeOf w = 0x17#7) :
    stepWord w s = some ⟨s.pc + 4#64, s.machine.setReg (rdOf w) (auipcValue s.pc w)⟩ := by
  simp only [stepWord, h]

theorem stepWord_jalr (h : opcodeOf w = 0x67#7) (h3 : func3Of w = 0#3) :
    stepWord w s = some ⟨jalrTarget (s.machine.reg (rs1Of w)) w,
      s.machine.setReg (rdOf w) (s.pc + 4#64)⟩ := by
  simp only [stepWord, h, h3, if_true]

theorem stepWord_jal (h : opcodeOf w = 0x6f#7) :
    stepWord w s = some ⟨jalTarget s.pc w, s.machine.setReg (rdOf w) (s.pc + 4#64)⟩ := by
  simp only [stepWord, h]

theorem stepWord_addi (h : opcodeOf w = 0x13#7) (h3 : func3Of w = 0#3) : stepWord w s =
    some ⟨s.pc + 4#64, s.machine.setReg (rdOf w) (s.machine.reg (rs1Of w) + immI w)⟩ := by
  simp only [stepWord, h, execWord, decode, decodeImm, h3]
  rfl

theorem stepWord_lw (h : opcodeOf w = 0x03#7) (h3 : func3Of w = 2#3) : stepWord w s =
    some ⟨s.pc + 4#64, s.machine.setReg (rdOf w)
      (s.machine.mem.loadExt (s.machine.reg (rs1Of w) + immI w) 4 true)⟩ := by
  simp only [stepWord, h, execWord, decode, decodeLoad, h3]
  rfl

end Exec

/-! ## What it takes to be right -/

section Right

variable {p : Pseudo} {P : Place}

/-- Some machine has the address of the symbol in its slot, whatever else is asked of memory. -/
theorem exists_loaded (p : Pseudo) (P : Place) (regs : XReg → BitVec 64) :
    ∃ mem, p.Loaded P ⟨regs, mem⟩ := by
  cases hop : p.operand with
  | none =>
    refine ⟨fun _ => 0#8, ?_⟩
    intro e he
    rw [hop] at he
    cases he
  | some e =>
    refine ⟨Ram.store (fun _ => 0#8) (gotSlot P.s1 e.sym) 8 P.value, ?_⟩
    intro e' he' _
    rw [hop] at he'
    obtain rfl := Option.some.inj he'
    exact Ram.load_store _ _ _

theorem right_iff {ws : List Word} {rels : List AsmReloc} (h : asmPseudo p = .ok (ws, rels)) :
    p.Right P ↔ (∀ r ∈ rels, r.Fits ws) ∧ p.Does P (P.linked ws rels) := by
  constructor
  · rintro ⟨ws', rels', h', hright⟩
    cases h.symm.trans h'
    exact hright
  · intro hright
    exact ⟨ws, rels, h, hright⟩

theorem not_right_of_error {e : String} (h : asmPseudo p = .error e) : ¬ p.Right P := by
  rintro ⟨ws, rels, h', -⟩
  cases h.symm.trans h'

/-- For words whose execution is known. -/
theorem does_iff (hlisted : p.listed = none) {ws : List Word} {final : Machine → Cpu}
    (hlength : 4 * ws.length ≤ 2 ^ 64)
    (hsteps : ∀ code m, Code.At code P.pc ws → steps code ws.length ⟨P.pc, m⟩ = some (final m)) :
    p.Does P ws ↔ ∀ m, p.Loaded P m → p.Effect P.value ⟨P.pc, m⟩ (final m) := by
  rw [Pseudo.Does, hlisted]
  constructor
  · intro h m hloaded
    have hat := Code.at_place (fun _ => 0#32) P.pc hlength
    obtain ⟨s', hs', heffect⟩ := h _ m hat hloaded
    rw [hsteps _ m hat] at hs'
    cases hs'
    exact heffect
  · intro h code m hat hloaded
    exact ⟨final m, hsteps code m hat, h m hloaded⟩

/-- For one word without relocations. -/
theorem right_single (hlisted : p.listed = none) {w : Word} (h : asmPseudo p = .ok ([w], []))
    {final : Machine → Cpu} (hstep : ∀ m, stepWord w ⟨P.pc, m⟩ = some (final m)) :
    p.Right P ↔ ∀ m, p.Loaded P m → p.Effect P.value ⟨P.pc, m⟩ (final m) := by
  rw [right_iff h, linked_nil]
  have hfits : (∀ r ∈ ([] : List AsmReloc), r.Fits [w]) ↔ True := by simp
  rw [hfits, true_and]
  exact does_iff hlisted (by simp) fun code m hat => (steps_single hat).trans (hstep m)

end Right

/-! ## Computing -/

section Compute

variable {p : Pseudo} {P : Place} {m : Machine} {rd rs : XReg} {pc pc' pc'' v v' : BitVec 64}

/-- A write to `x0` is none. -/
theorem reg_setReg_zero (m : Machine) (v : BitVec 64) (r : XReg) :
    (m.setReg 0#5 v).reg r = m.reg r := by
  by_cases hr : r = 0#5
  · subst hr
    rfl
  · exact m.reg_setReg_of_ne hr v

theorem leaves_zero {s s' : Cpu} : Leaves pc 0#5 v s s' ↔ Leaves pc 0#5 v' s s' := by
  simp only [Leaves, reg_setReg_zero]

theorem leaves_iff :
    Leaves pc rd v ⟨pc', m⟩ ⟨pc'', m.setReg rd v'⟩ ↔ pc'' = pc ∧ (rd = 0#5 ∨ v' = v) := by
  constructor
  · rintro ⟨hpc, -, hregs⟩
    refine ⟨hpc, ?_⟩
    by_cases hrd : rd = 0#5
    · exact .inl hrd
    · have h := hregs rd
      rw [m.reg_setReg_self hrd, m.reg_setReg_self hrd] at h
      exact .inr h
  · rintro ⟨hpc, rfl | rfl⟩
    · exact ⟨hpc, rfl, fun r => by rw [reg_setReg_zero, reg_setReg_zero]⟩
    · exact ⟨hpc, rfl, fun _ => rfl⟩

/-- For one word that writes a register. -/
theorem right_sets (hlisted : p.listed = none) (hoperand : p.operand = none) {w : Word}
    (h : asmPseudo p = .ok ([w], [])) {f f' : Machine → BitVec 64}
    (hexec : ∀ m, execWord m w = some (m.setReg rd (f m)))
    (heffect : ∀ m s', p.Effect P.value ⟨P.pc, m⟩ s' ↔
      Leaves (P.pc + 4#64) rd (f' m) ⟨P.pc, m⟩ s') :
    p.Right P ↔ rd = 0#5 ∨ ∀ m, f m = f' m := by
  have hloaded (m : Machine) : p.Loaded P m := by
    intro e he
    rw [hoperand] at he
    cases he
  rw [right_single hlisted h fun m => stepWord_of_exec (s := ⟨P.pc, m⟩) (hexec m)]
  constructor
  · intro hright
    by_cases hrd : rd = 0#5
    · exact .inl hrd
    · refine .inr fun m => ?_
      have hm := (heffect m _).1 (hright m (hloaded m))
      exact (leaves_iff.1 hm).2.resolve_left hrd
  · intro hright m _
    refine (heffect m _).2 (leaves_iff.2 ⟨rfl, ?_⟩)
    exact hright.imp id fun hall => hall m

/-- An instruction of the I format is one word. -/
theorem single_asmEmitI (rd rs1 : XReg) {opcode : Word} (op : BitVec 7) (func3 : BitVec 3)
    {v : BitVec 64} {imm : BitVec 32}
    (hopcode : opcode = op.setWidth 32 ||| func3.setWidth 32 <<< 12)
    (hv : v = imm.signExtend 64) (himm : Fits12 imm) :
    single (asmEmitI opcode (.ofArg (.x rd)) (.ofArg (.x rs1)) (.imm v)) =
      .ok ([eiu op func3 rd rs1 imm], []) := by
  rw [hopcode, hv, asmEmitI_eq_eiu rd rs1 op func3 himm]
  rfl

theorem single_asmEmitR (rd rs1 rs2 : XReg) {opcode : Word} (op : BitVec 7) (func3 : BitVec 3)
    (hopcode : opcode = op.setWidth 32 ||| func3.setWidth 32 <<< 12) :
    single (asmEmitR opcode (.ofArg (.x rd)) (.ofArg (.x rs1)) (.ofArg (.x rs2))) =
      .ok ([er op func3 rd rs1 rs2 0#7], []) := by
  have hfunc7 : (0#7).setWidth 32 <<< 25 = 0#32 := by decide
  rw [er, hfunc7, BitVec.or_zero, ← hopcode, ← regValue_x rd, ← regValue_x rs1, ← regValue_x rs2]
  rfl

/-- For a word of the I format. -/
theorem right_imm (p : Pseudo) (hlisted : p.listed = none) (hoperand : p.operand = none)
    {func3 : BitVec 3} {rs1 : XReg} {imm : BitVec 32}
    (h : asmPseudo p = .ok ([eiu 0x13#7 func3 rd rs1 imm], [])) (h1 : func3 ≠ 1#3)
    (h5 : func3 ≠ 5#3) {f' : Machine → BitVec 64}
    (heffect : ∀ m s', p.Effect P.value ⟨P.pc, m⟩ s' ↔
      Leaves (P.pc + 4#64) rd (f' m) ⟨P.pc, m⟩ s') :
    p.Right P ↔ rd = 0#5 ∨ ∀ m : Machine,
      (immOp func3).result false (m.reg rs1) ((imm.setWidth 12).signExtend 64) = f' m :=
  right_sets hlisted hoperand h (fun m => execWord_imm m rd rs1 imm h1 h5) heffect

/-- For a word of the R format. -/
theorem right_reg (p : Pseudo) (hlisted : p.listed = none) (hoperand : p.operand = none)
    {func3 : BitVec 3} {rs1 rs2 : XReg} {op : AluOp}
    (h : asmPseudo p = .ok ([er 0x33#7 func3 rd rs1 rs2 0#7], []))
    (hop : aluOpOf func3 0#7 = some op) {f' : Machine → BitVec 64}
    (heffect : ∀ m s', p.Effect P.value ⟨P.pc, m⟩ s' ↔
      Leaves (P.pc + 4#64) rd (f' m) ⟨P.pc, m⟩ s') :
    p.Right P ↔ rd = 0#5 ∨ ∀ m : Machine, op.result false (m.reg rs1) (m.reg rs2) = f' m :=
  right_sets hlisted hoperand h (fun m => execWord_er_alu m false rd rs1 rs2 hop (by simp)) heffect

theorem nop_right (P : Place) : Pseudo.nop.Right P := by
  have hemit : asmPseudo .nop = .ok ([eiu 0x13#7 0#3 0#5 0#5 0#32], []) :=
    single_asmEmitI 0#5 0#5 0x13#7 0#3 (by decide) (by decide) (by decide)
  exact (right_imm .nop rfl rfl hemit (by decide) (by decide) fun _ _ => Iff.rfl).2 (.inl rfl)

theorem mv_right (P : Place) (rd rs : XReg) : (Pseudo.mv rd rs).Right P := by
  have hemit : asmPseudo (.mv rd rs) = .ok ([eiu 0x13#7 0#3 rd rs 0#32], []) :=
    single_asmEmitI rd rs 0x13#7 0#3 (by decide) (by decide) (by decide)
  refine (right_imm (.mv rd rs) rfl rfl hemit (by decide) (by decide) fun _ _ => Iff.rfl).2 ?_
  exact .inr fun m => BitVec.add_zero _

theorem not_right (P : Place) (rd rs : XReg) : (Pseudo.not rd rs).Right P := by
  have hemit : asmPseudo (.not rd rs) = .ok ([eiu 0x13#7 4#3 rd rs (-1#32)], []) :=
    single_asmEmitI rd rs 0x13#7 4#3 (by decide) (by decide) (by decide)
  refine (right_imm (.not rd rs) rfl rfl hemit (by decide) (by decide) fun _ _ => Iff.rfl).2 ?_
  have hones : ((-1#32).setWidth 12).signExtend 64 = BitVec.allOnes 64 := by decide
  rw [hones]
  exact .inr fun m => BitVec.xor_allOnes

/-- `neg` and `negw` both write one. -/
theorem neg_right_iff (P : Place) (rd rs : XReg) :
    ((Pseudo.neg rd rs).Right P ↔ rd = 0#5) ∧ ((Pseudo.negw rd rs).Right P ↔ rd = 0#5) := by
  have hemit : single (asmEmitI (4#32 <<< 2 ||| 3#32 ||| 4#32 <<< 12) (.ofArg (.x rd)) (.reg 0#6)
      (.imm 1#64)) = .ok ([eiu 0x13#7 4#3 rd 0#5 1#32], []) :=
    single_asmEmitI rd 0#5 0x13#7 4#3 (by decide) (by decide) (by decide)
  -- with all registers zero the result should be zero
  have hzero : Machine.reg ⟨fun _ => 0#64, fun _ => 0#8⟩ rs = 0#64 := ite_self _
  constructor
  · rw [right_imm (.neg rd rs) rfl rfl hemit (by decide) (by decide) fun _ _ => Iff.rfl]
    refine ⟨fun h => h.resolve_right fun hall => ?_, .inl⟩
    have hone := hall ⟨fun _ => 0#64, fun _ => 0#8⟩
    rw [hzero] at hone
    exact absurd hone (by decide)
  · rw [right_imm (.negw rd rs) rfl rfl hemit (by decide) (by decide) fun _ _ => Iff.rfl]
    refine ⟨fun h => h.resolve_right fun hall => ?_, .inl⟩
    have hone := hall ⟨fun _ => 0#64, fun _ => 0#8⟩
    rw [hzero] at hone
    exact absurd hone (by decide)

theorem seqz_right (P : Place) (rd rs : XReg) : (Pseudo.seqz rd rs).Right P := by
  have hemit : asmPseudo (.seqz rd rs) = .ok ([eiu 0x13#7 3#3 rd rs 1#32], []) :=
    single_asmEmitI rd rs 0x13#7 3#3 (by decide) (by decide) (by decide)
  refine (right_imm (.seqz rd rs) rfl rfl hemit (by decide) (by decide) fun _ _ => Iff.rfl).2 ?_
  exact .inr fun m => sltu_one _

theorem snez_right (P : Place) (rd rs : XReg) : (Pseudo.snez rd rs).Right P := by
  have hemit : asmPseudo (.snez rd rs) = .ok ([er 0x33#7 3#3 rd 0#5 rs 0#7], []) :=
    single_asmEmitR rd 0#5 rs 0x33#7 3#3 (by decide)
  refine (right_reg (.snez rd rs) rfl rfl hemit rfl fun _ _ => Iff.rfl).2 ?_
  exact .inr fun m => sltu_zero _

theorem sltz_right (P : Place) (rd rs : XReg) : (Pseudo.sltz rd rs).Right P := by
  have hemit : asmPseudo (.sltz rd rs) = .ok ([er 0x33#7 2#3 rd rs 0#5 0#7], []) :=
    single_asmEmitR rd rs 0#5 0x33#7 2#3 (by decide)
  exact (right_reg (.sltz rd rs) rfl rfl hemit rfl fun _ _ => Iff.rfl).2 (.inr fun _ => rfl)

theorem sgtz_right (P : Place) (rd rs : XReg) : (Pseudo.sgtz rd rs).Right P := by
  have hemit : asmPseudo (.sgtz rd rs) = .ok ([er 0x33#7 2#3 rd 0#5 rs 0#7], []) :=
    single_asmEmitR rd 0#5 rs 0x33#7 2#3 (by decide)
  exact (right_reg (.sgtz rd rs) rfl rfl hemit rfl fun _ _ => Iff.rfl).2 (.inr fun _ => rfl)

end Compute

/-! ## Instructions that are listed -/

theorem fence_right (P : Place) : Pseudo.fence.Right P := by
  refine ⟨_, [], rfl, by simp, ?_⟩
  rw [linked_nil]
  refine ⟨_, rfl, ?_⟩
  rw [decodeMnemonic_eq_iff]
  decide

theorem counter_right (P : Place) (token : Counter) (rd : XReg) :
    (Pseudo.counter token rd).Right P := by
  refine ⟨_, [], rfl, by simp, ?_⟩
  rw [linked_nil]
  refine ⟨_, rfl, ?_⟩
  rw [decodeMnemonic_eq_iff]
  revert rd
  cases token <;> decide

/-! ## Jumps through a register -/

theorem jalrTarget_zero (base : BitVec 64) (rd rs : XReg) :
    jalrTarget base (eiu 0x67#7 0#3 rd rs 0#32) = base &&& ~~~1#64 := by
  rw [jalrTarget, immI_eiu]
  congr 1
  exact BitVec.add_zero _

/-- For a word that jumps to the address in a register. -/
theorem right_jalr (p : Pseudo) {P : Place} (hlisted : p.listed = none) {rd rs : XReg}
    (h : asmPseudo p = .ok ([eiu 0x67#7 0#3 rd rs 0#32], [])) {v : BitVec 64}
    (heffect : ∀ m s', p.Effect P.value ⟨P.pc, m⟩ s' ↔
      Leaves (m.reg rs &&& ~~~1#64) rd v ⟨P.pc, m⟩ s') (hv : rd = 0#5 ∨ P.pc + 4#64 = v) :
    p.Right P := by
  refine (right_single hlisted h fun m =>
    stepWord_jalr (s := ⟨P.pc, m⟩) (opcodeOf_eiu ..) (func3Of_eiu ..)).2 fun m _ => ?_
  rw [heffect, rs1Of_eiu, rdOf_eiu, jalrTarget_zero]
  exact leaves_iff.2 ⟨rfl, hv⟩

theorem ret_right (P : Place) : Pseudo.ret.Right P := by
  have hemit : asmPseudo .ret = .ok ([eiu 0x67#7 0#3 0#5 1#5 0#32], []) := by
    have hword : 0x67#32 ||| 0#32 <<< 12 ||| encodeRs1 1#6 = eiu 0x67#7 0#3 0#5 1#5 0#32 := by
      decide
    rw [asmPseudo, hword]
  exact right_jalr .ret rfl hemit (fun _ _ => Iff.rfl) (.inl rfl)

theorem jr_right (P : Place) (rs : XReg) : (Pseudo.jr rs).Right P := by
  have hemit : asmPseudo (.jr rs) = .ok ([eiu 0x67#7 0#3 0#5 rs 0#32], []) :=
    single_asmEmitI 0#5 rs 0x67#7 0#3 (by decide) (by decide) (by decide)
  exact right_jalr (.jr rs) rfl hemit (fun _ _ => Iff.rfl) (.inl rfl)

theorem jalr_right (P : Place) (rs : XReg) : (Pseudo.jalr rs).Right P := by
  have hemit : asmPseudo (.jalr rs) = .ok ([eiu 0x67#7 0#3 1#5 rs 0#32], []) :=
    single_asmEmitI 1#5 rs 0x67#7 0#3 (by decide) (by decide) (by decide)
  exact right_jalr (.jalr rs) rfl hemit (fun _ _ => Iff.rfl) (.inr rfl)

/-! ## Two words with a symbol -/

section Pair

variable {e : SymExpr} {P : Place} {m : Machine}

/-- The first relocation of an operand. -/
def SymExpr.hiType (e : SymExpr) : RelocType :=
  if e.linkage = .vtExtern then .gotHi20 else .pcrelHi20

theorem hiType_isHi20 (e : SymExpr) : e.hiType.IsHi20 := by
  unfold SymExpr.hiType
  split
  · exact .inr rfl
  · exact .inl rfl

theorem hiTarget_hiType (P : Place) (e : SymExpr) : P.hiTarget e.sym e.hiType = e.hiValue P := by
  unfold Place.hiTarget SymExpr.hiType SymExpr.hiValue
  split <;> rfl

theorem parseOperand_ok (h : e.linkage ≠ .neither) :
    parseOperand e = .ok (.imm 0#64, operandRelocs e.hiType e.sym) := by
  unfold parseOperand SymExpr.hiType
  cases hl : e.linkage with
  | vtStatic => rfl
  | vtExtern => rfl
  | neither => exact absurd hl h

theorem parseOperand_error (h : e.linkage = .neither) :
    parseOperand e = .error "operand expected" := by
  rw [parseOperand, h]

/-- `auipc` with the upper part zero. -/
def auipcWord (rd : XReg) : Word := 3#32 ||| 5#32 <<< 2 ||| encodeRd (0#1 ++ rd)

theorem auipcWord_fields (rd : XReg) :
    opcodeOf (auipcWord rd) = 0x17#7 ∧ rdOf (auipcWord rd) = rd := by
  revert rd
  decide

theorem operandRelocs_fit {w w' : Word} (hw : opcodeOf w = 0x17#7)
    (hw' : opcodeOf w' = 0x03#7 ∨ opcodeOf w' = 0x13#7 ∨ opcodeOf w' = 0x67#7) :
    ∀ r ∈ operandRelocs e.hiType e.sym, r.Fits [w, w'] := by
  intro r hr
  rw [operandRelocs, List.mem_cons, List.mem_singleton] at hr
  rcases hr with rfl | rfl
  · have hfirst : opcodeAt [w, w'] 0 = some 0x17#7 := congrArg some hw
    rcases hiType_isHi20 e with h | h <;> rw [h] <;> exact hfirst
  · exact hw'.imp (congrArg some) (Or.imp (congrArg some) (congrArg some))

/-- `auipc` and the instruction behind it span the displacement. -/
theorem span_pair (pc : BitVec 64) (w w' : Word) {target : BitVec 64}
    (h : FitsSigned 32 (target - pc + 0x800#64)) :
    auipcValue pc (patchHi20 w (hi20Of (target - pc))) + immI (patchLoI w' (target - pc)) =
      target := by
  rw [auipcValue, immU_patchHi20, immI_patchLoI, hi20Of_field, add_assoc,
    (upper_add_signed_lower_eq_iff _).2 h, add_sub_cancel]

theorem asmLoadAddress_ok {opcode : Word} {op : BitVec 7} {func3 : BitVec 3}
    (hopcode : opcode = op.setWidth 32 ||| func3.setWidth 32 <<< 12) (rd : XReg)
    (h : e.linkage ≠ .neither) :
    asmLoadAddress opcode (.ofArg (.x rd)) e =
      .ok ([auipcWord rd, eiu op func3 rd rd 0#32], operandRelocs e.hiType e.sym) := by
  have hu : asmEmitU (3#32 ||| 5#32 <<< 2) (.ofArg (.x rd)) (.imm 0#64) = .ok (auipcWord rd) :=
    congrArg Except.ok (BitVec.or_zero (x := auipcWord rd))
  have hi : asmEmitI opcode (.ofArg (.x rd)) (.ofArg (.x rd)) (.imm 0#64) =
      .ok (eiu op func3 rd rd 0#32) := by
    have hzero : 0#64 = (0#32).signExtend 64 := by decide
    rw [hopcode, hzero]
    exact asmEmitI_eq_eiu rd rd op func3 (by decide)
  unfold asmLoadAddress
  rw [bind_of_ok (parseOperand_ok h)]
  dsimp only
  rw [bind_of_ok hu, bind_of_ok hi]
  rfl

/-- `la` and `lla`: the second word computes the register from the address in it. -/
theorem right_loadAddress (p : Pseudo) (hlisted : p.listed = none) {rd : XReg} {op : BitVec 7}
    {func3 : BitVec 3} (h : asmPseudo p = .ok ([auipcWord rd, eiu op func3 rd rd 0#32],
      operandRelocs e.hiType e.sym))
    (hop : op = 0x03#7 ∨ op = 0x13#7 ∨ op = 0x67#7) {f : Machine → BitVec 64 → BitVec 64}
    (hmem : ∀ m rd v a, f (m.setReg rd v) a = f m a)
    (hstep : ∀ w s, opcodeOf w = op → func3Of w = func3 → stepWord w s = some ⟨s.pc + 4#64,
      s.machine.setReg (rdOf w) (f s.machine (s.machine.reg (rs1Of w) + immI w))⟩)
    (heffect : ∀ m s', p.Effect P.value ⟨P.pc, m⟩ s' ↔
      Leaves (P.pc + 8#64) rd (P.value + e.v) ⟨P.pc, m⟩ s')
    (hreach : FitsSigned 32 (e.hiValue P - P.pc + 0x800#64)) :
    p.Right P ↔ rd = 0#5 ∨ ∀ m, p.Loaded P m → f m (e.hiValue P) = P.value + e.v := by
  obtain ⟨hopcode, hrd⟩ := auipcWord_fields rd
  have hfits : ∀ r ∈ operandRelocs e.hiType e.sym,
      r.Fits [auipcWord rd, eiu op func3 rd rd 0#32] :=
    operandRelocs_fit hopcode (by rwa [opcodeOf_eiu])
  rw [right_iff h, and_iff_right hfits, linked_operand P _ _ _ (hiType_isHi20 e),
    hiTarget_hiType]
  generalize hw1 : patchHi20 (auipcWord rd) (hi20Of (e.hiValue P - P.pc)) = w1
  generalize hw2 : patchLoI (eiu op func3 rd rd 0#32) (e.hiValue P - P.pc) = w2
  have hspan : auipcValue P.pc w1 + immI w2 = e.hiValue P := by
    rw [← hw1, ← hw2]
    exact span_pair P.pc _ _ hreach
  obtain ⟨hopcode1, hrd1⟩ := fields_of_maskU (sameOutside_patchHi20 (auipcWord rd)
    (hi20Of (e.hiValue P - P.pc)))
  obtain ⟨hopcode2, hrd2, hfunc2, hrs2⟩ := fields_of_maskI (sameOutside_patchLoI
    (eiu op func3 rd rd 0#32) (e.hiValue P - P.pc))
  rw [hw1, hopcode] at hopcode1
  rw [hw1, hrd] at hrd1
  rw [hw2, opcodeOf_eiu] at hopcode2
  rw [hw2, rdOf_eiu] at hrd2
  rw [hw2, func3Of_eiu] at hfunc2
  rw [hw2, rs1Of_eiu] at hrs2
  have hsteps (code : Code) (m : Machine) (hat : code.At P.pc [w1, w2]) :
      steps code [w1, w2].length ⟨P.pc, m⟩ =
        some ⟨P.pc + 4#64 + 4#64, (m.setReg rd (auipcValue P.pc w1)).setReg rd
          (f m ((m.setReg rd (auipcValue P.pc w1)).reg rd + immI w2))⟩ := by
    have hfirst := stepWord_auipc (s := ⟨P.pc, m⟩) hopcode1
    rw [hrd1] at hfirst
    refine (steps_pair hat hfirst).trans ?_
    rw [hstep w2 _ hopcode2 hfunc2, hrd2, hrs2, hmem]
  rw [does_iff hlisted (by simp) hsteps]
  have hpc : P.pc + 4#64 + 4#64 = P.pc + 8#64 := by
    rw [BitVec.add_assoc]
    rfl
  have hleaves (m : Machine) : p.Effect P.value ⟨P.pc, m⟩ ⟨P.pc + 4#64 + 4#64,
      (m.setReg rd (auipcValue P.pc w1)).setReg rd
        (f m ((m.setReg rd (auipcValue P.pc w1)).reg rd + immI w2))⟩ ↔
      rd = 0#5 ∨ f m (e.hiValue P) = P.value + e.v := by
    rw [heffect, Machine.setReg_setReg, leaves_iff, and_iff_right hpc]
    by_cases hzero : rd = 0#5
    · exact iff_of_true (.inl hzero) (.inl hzero)
    · rw [m.reg_setReg_self hzero, hspan]
  simp only [hleaves]
  constructor
  · intro hall
    by_cases hzero : rd = 0#5
    · exact .inl hzero
    · exact .inr fun m hm => (hall m hm).resolve_left hzero
  · rintro (hzero | hall) m hm
    · exact .inl hzero
    · exact .inr (hall m hm)

/-- Without a proper symbol nothing is expanded. -/
theorem bind_parseOperand_error {α : Type} (h : e.linkage = .neither)
    (f : Operand × List AsmReloc → Except String α) :
    (parseOperand e >>= f) = .error "operand expected" := by
  rw [parseOperand_error h]
  rfl

theorem lla_right_iff (P : Place) (rd : XReg) (e : SymExpr)
    (hreach : (Pseudo.lla rd e).Reaches P) :
    (Pseudo.lla rd e).Right P ↔ (Pseudo.lla rd e).Works P := by
  by_cases hl : e.linkage = .neither
  · exact iff_of_false (not_right_of_error (bind_parseOperand_error hl _)) fun h => h.1 hl
  · have hopcode : 3#32 ||| 4#32 <<< 2 = (0x13#7).setWidth 32 ||| (0#3).setWidth 32 <<< 12 := by
      decide
    have hemit := asmLoadAddress_ok hopcode rd hl
    rw [right_loadAddress (.lla rd e) rfl hemit (.inr (.inl rfl)) (f := fun _ a => a)
      (fun _ _ _ _ => rfl) (fun w s hw h3 => stepWord_addi hw h3) (fun _ _ => Iff.rfl) hreach,
      Pseudo.Works, and_iff_right hl]
    refine or_congr Iff.rfl ⟨fun hall => ?_, fun heq _ _ => heq⟩
    obtain ⟨mem, hmem⟩ := exists_loaded (.lla rd e) P fun _ => 0#64
    exact hall _ hmem

/-- The lower half of a doubleword in memory. -/
theorem load_word_of_doubleword (mem : Ram) (a : BitVec 64) :
    mem.load a 4 = (mem.load a 8).setWidth 32 := by
  apply BitVec.eq_of_getLsbD_eq
  intro i hi
  rw [BitVec.getLsbD_setWidth, Ram.getLsbD_load, Ram.getLsbD_load, decide_eq_true hi,
    decide_eq_true (show i < 8 * 8 by omega), Bool.true_and, Bool.true_and]

theorem loadExt_word (mem : Ram) (a : BitVec 64) :
    mem.loadExt a 4 true = ((mem.load a 8).setWidth 32).signExtend 64 := by
  rw [← load_word_of_doubleword]
  rfl

theorem la_right_iff (P : Place) (rd : XReg) (e : SymExpr) (hreach : (Pseudo.la rd e).Reaches P) :
    (Pseudo.la rd e).Right P ↔ (Pseudo.la rd e).Works P := by
  by_cases hl : e.linkage = .neither
  · exact iff_of_false (not_right_of_error (bind_parseOperand_error hl _)) fun h => h.1 hl
  · have hopcode : 3#32 ||| 2#32 <<< 12 = (0x03#7).setWidth 32 ||| (2#3).setWidth 32 <<< 12 := by
      decide
    have hemit := asmLoadAddress_ok hopcode rd hl
    rw [right_loadAddress (.la rd e) rfl hemit (.inl rfl) (f := fun m a => m.mem.loadExt a 4 true)
      (fun _ _ _ _ => rfl) (fun w s hw h3 => stepWord_lw hw h3) (fun _ _ => Iff.rfl) hreach,
      Pseudo.Works, and_iff_right hl]
    refine or_congr Iff.rfl ?_
    cases hext : e.linkage with
    | neither => exact absurd hext hl
    | vtExtern =>
      have hslot : e.hiValue P = gotSlot P.s1 e.sym := if_pos hext
      rw [hslot, eq_self_iff_true, true_and]
      have hloaded (m : Machine) (hm : (Pseudo.la rd e).Loaded P m) :
          m.mem.loadExt (gotSlot P.s1 e.sym) 4 true = (P.value.setWidth 32).signExtend 64 := by
        rw [loadExt_word, hm e rfl hext]
      constructor
      · intro hall
        obtain ⟨mem, hmem⟩ := exists_loaded (.la rd e) P fun _ => 0#64
        exact (hloaded _ hmem).symm.trans (hall _ hmem)
      · intro heq m hm
        exact (hloaded m hm).trans heq
    | vtStatic =>
      -- the word at the symbol may be anything
      refine iff_of_false (fun hall => ?_) fun h => by cases h.1
      have hloaded (m : Machine) : (Pseudo.la rd e).Loaded P m := by
        rintro e' ⟨⟩ hext'
        cases hext.symm.trans hext'
      have hzero := hall ⟨fun _ => 0#64, fun _ => 0#8⟩ (hloaded _)
      have hones := hall ⟨fun _ => 0#64, fun _ => 0xff#8⟩ (hloaded _)
      rw [← hones] at hzero
      have hne : Ram.loadExt (fun _ => 0#8) (e.hiValue P) 4 true ≠
          Ram.loadExt (fun _ => 0xff#8) (e.hiValue P) 4 true := by
        generalize e.hiValue P = a
        simp only [Ram.loadExt, Ram.load, if_true]
        decide
      exact hne hzero

/-! ## Far jumps -/

theorem asmFarJump_eq (r : XReg) :
    asmFarJump (0#1 ++ r) = [auipcWord r, eiu 0x67#7 0#3 0#5 r 0#32] := by
  have hword : 0x67#32 ||| 0#32 <<< 12 ||| encodeRs1 (0#1 ++ r) = eiu 0x67#7 0#3 0#5 r 0#32 := by
    revert r
    decide
  rw [asmFarJump, hword]
  rfl

theorem farJump_fits (r : XReg) :
    ∀ rel ∈ operandRelocs e.hiType e.sym ++ [⟨0, .call, some e.sym⟩],
      rel.Fits [auipcWord r, eiu 0x67#7 0#3 0#5 r 0#32] := by
  have hopcode := (auipcWord_fields r).1
  have hopcode2 : opcodeOf (eiu 0x67#7 0#3 0#5 r 0#32) = 0x67#7 := opcodeOf_eiu ..
  intro rel hrel
  rcases List.mem_append.1 hrel with hrel | hrel
  · exact operandRelocs_fit hopcode (.inr (.inr hopcode2)) rel hrel
  · obtain rfl := List.mem_singleton.1 hrel
    have hfirst : opcodeAt [auipcWord r, eiu 0x67#7 0#3 0#5 r 0#32] 0 = some 0x17#7 :=
      congrArg some hopcode
    have hsecond : opcodeAt [auipcWord r, eiu 0x67#7 0#3 0#5 r 0#32] (0 + 4) = some 0x67#7 :=
      congrArg some hopcode2
    exact ⟨hfirst, hsecond⟩

/-- What `auipc` leaves of the address of the symbol. -/
def Place.upper (P : Place) : BitVec 64 :=
  P.pc + ((P.value - P.pc + 0x800#64).extractLsb' 12 20 ++ 0#12).signExtend 64

/-- The pair jumps to the symbol, with part of its address left in the register. -/
theorem farJump_steps {r : XReg} (hr : r ≠ 0#5) {code : Code} {m : Machine}
    (hreach : FitsSigned 32 (P.value - P.pc + 0x800#64)) (heven : P.value.getLsbD 0 = false)
    (hat : code.At P.pc (P.linked [auipcWord r, eiu 0x67#7 0#3 0#5 r 0#32]
      (operandRelocs e.hiType e.sym ++ [⟨0, .call, some e.sym⟩]))) :
    steps code 2 ⟨P.pc, m⟩ =
      some ⟨P.value, (m.setReg r P.upper).setReg 0#5 (P.pc + 4#64 + 4#64)⟩ := by
  rw [linked_call P _ _ _ (hiType_isHi20 e), Place.disp] at hat
  generalize hw1 : patchHi20 (auipcWord r) (hi20Of (P.hiTarget e.sym e.hiType - P.pc)) = w1 at hat
  generalize hw2 : patchLoI (eiu 0x67#7 0#3 0#5 r 0#32) (P.hiTarget e.sym e.hiType - P.pc) = w2
    at hat
  obtain ⟨hopcode, hrd⟩ := auipcWord_fields r
  obtain ⟨hopcode1, hrd1⟩ := fields_of_maskU (sameOutside_patchHi20 (auipcWord r)
    (hi20Of (P.hiTarget e.sym e.hiType - P.pc)))
  obtain ⟨hopcode1', hrd1'⟩ := fields_of_maskU (sameOutside_patchCallHi w1 (P.value - P.pc))
  obtain ⟨hopcode2, hrd2, hfunc2, hrs2⟩ := fields_of_maskI (sameOutside_patchLoI
    (eiu 0x67#7 0#3 0#5 r 0#32) (P.hiTarget e.sym e.hiType - P.pc))
  obtain ⟨hopcode2', hrd2', hfunc2', hrs2'⟩ :=
    fields_of_maskI (sameOutside_patchLoI w2 (P.value - P.pc))
  rw [hw1, hopcode] at hopcode1
  rw [hw1, hrd] at hrd1
  rw [hw2, opcodeOf_eiu] at hopcode2
  rw [hw2, rdOf_eiu] at hrd2
  rw [hw2, func3Of_eiu] at hfunc2
  rw [hw2, rs1Of_eiu] at hrs2
  have hfirst := stepWord_auipc (s := ⟨P.pc, m⟩) (hopcode1'.trans hopcode1)
  refine (steps_pair hat hfirst).trans ?_
  rw [stepWord_jalr (hopcode2'.trans hopcode2) (hfunc2'.trans hfunc2), hrs2', hrs2, hrd1', hrd1,
    hrd2', hrd2]
  dsimp only
  rw [m.reg_setReg_self hr, jalrTarget, auipcValue, immU_patchCallHi, immI_patchLoI,
    (jalr_pair_eq_iff P.pc P.value).2 ⟨hreach, heven⟩, Place.upper]

/-- `call` and `tail`, with the register that holds the upper part of the address. -/
theorem right_farJump (p : Pseudo) (hlisted : p.listed = none) {r : XReg} (hr : r ≠ 0#5)
    (h : asmPseudo p = .ok (asmFarJump (0#1 ++ r),
      operandRelocs e.hiType e.sym ++ [⟨0, .call, some e.sym⟩]))
    (hreach : FitsSigned 32 (P.value - P.pc + 0x800#64)) (heven : P.value.getLsbD 0 = false) :
    p.Right P ↔ ∀ m, p.Loaded P m → p.Effect P.value ⟨P.pc, m⟩
      ⟨P.value, (m.setReg r P.upper).setReg 0#5 (P.pc + 4#64 + 4#64)⟩ := by
  rw [asmFarJump_eq] at h
  have hlength : (P.linked [auipcWord r, eiu 0x67#7 0#3 0#5 r 0#32]
      (operandRelocs e.hiType e.sym ++ [⟨0, .call, some e.sym⟩])).length = 2 := length_fetch 2
  rw [right_iff h, and_iff_right (farJump_fits r)]
  refine does_iff hlisted (by rw [hlength]; decide) fun code m hat => ?_
  rw [hlength]
  exact farJump_steps hr hreach heven hat

theorem tail_right_iff (P : Place) (e : SymExpr) (hreach : (Pseudo.tail e).Reaches P) :
    (Pseudo.tail e).Right P ↔ (Pseudo.tail e).Works P := by
  by_cases hl : e.linkage = .neither
  · exact iff_of_false (not_right_of_error (bind_parseOperand_error hl _)) fun h => h.1 hl
  · obtain ⟨-, hfits, heven, -⟩ := hreach
    have hemit : asmPseudo (.tail e) = .ok (asmFarJump (0#1 ++ 6#5),
        operandRelocs e.hiType e.sym ++ [⟨0, .call, some e.sym⟩]) :=
      bind_of_ok (parseOperand_ok hl) _
    rw [right_farJump (.tail e) rfl (by decide) hemit hfits heven, Pseudo.Works, and_iff_right hl]
    constructor
    · intro hall
      obtain ⟨mem, hmem⟩ := exists_loaded (.tail e) P fun _ => 0#64
      obtain ⟨x, hpc, -⟩ := hall _ hmem
      exact left_eq_add.1 hpc
    · intro hv m _
      refine ⟨P.upper, ?_, rfl, fun r => reg_setReg_zero _ _ r⟩
      rw [hv]
      exact (BitVec.add_zero _).symm

theorem upper_ne (x : BitVec 20) : (x ++ 0#12).signExtend 64 ≠ 8#64 := by
  intro h
  have hbit := congrArg (fun y => y.getLsbD 3) h
  simp only [BitVec.getLsbD_signExtend, BitVec.getLsbD_append] at hbit
  simp at hbit

/-- `call` does not leave the address of the next instruction in `ra`. -/
theorem call_not_right (P : Place) (e : SymExpr) (hreach : (Pseudo.call e).Reaches P) :
    ¬ (Pseudo.call e).Right P := by
  by_cases hl : e.linkage = .neither
  · exact not_right_of_error (bind_parseOperand_error hl _)
  · obtain ⟨-, hfits, heven, -⟩ := hreach
    have hemit : asmPseudo (.call e) = .ok (asmFarJump (0#1 ++ 1#5),
        operandRelocs e.hiType e.sym ++ [⟨0, .call, some e.sym⟩]) :=
      bind_of_ok (parseOperand_ok hl) _
    rw [right_farJump (.call e) rfl (by decide) hemit hfits heven]
    intro hall
    obtain ⟨mem, hmem⟩ := exists_loaded (.call e) P fun _ => 0#64
    obtain ⟨-, -, hregs⟩ := hall _ hmem
    have hra := hregs 1#5
    rw [reg_setReg_zero, Machine.reg_setReg_self _ (by decide),
      Machine.reg_setReg_self _ (by decide)] at hra
    exact upper_ne _ (add_left_cancel hra)

/-- The relocation of `jump` is at its second instruction. -/
theorem jump_not_right (P : Place) (e : SymExpr) (rt : XReg) : ¬ (Pseudo.jump e rt).Right P := by
  by_cases hl : e.linkage = .neither
  · exact not_right_of_error (bind_parseOperand_error hl _)
  · have hemit : asmPseudo (.jump e rt) = .ok (asmFarJump (0#1 ++ 5#5),
        operandRelocs e.hiType e.sym ++ [⟨4, .call, some e.sym⟩]) :=
      bind_of_ok (parseOperand_ok hl) _
    rw [right_iff hemit]
    rintro ⟨hfits, -⟩
    have hcall : opcodeAt (asmFarJump (0#1 ++ 5#5)) 4 = some 0x17#7 :=
      (hfits ⟨4, .call, some e.sym⟩ (List.mem_append_right _ List.mem_cons_self)).1
    exact absurd hcall (by decide)

/-- A load or store with a symbol is refused: the symbol has the type of a small immediate, which is
then taken for the base register. -/
theorem memAccess_not_right (P : Place) (token : MemAccess) (x : XReg) (e : SymExpr) :
    ¬ (Pseudo.memAccess token x e).Right P := by
  by_cases hl : e.linkage = .neither
  · exact not_right_of_error (bind_parseOperand_error hl _)
  · have hrest : asmPseudo (.memAccess token x e) =
        asmMemAccessOpcode (.ofArg (.x x)) (.imm 0#64) (.imm 0#64) token.mnemonic >>= fun w =>
          pure ([w], operandRelocs e.hiType e.sym) := by
      have hbranch : ¬ ((Operand.imm 0#64).type = .im32 ∧ e.linkage = .vtStatic) := fun h =>
        absurd h.1 (by decide)
      exact (bind_of_ok (parseOperand_ok hl) _).trans (if_neg hbranch)
    cases token <;> exact not_right_of_error (hrest.trans rfl)

end Pair

/-! ## Branches and jumps to a symbol -/

section Control

variable {e : SymExpr} {P : Place}

theorem parseOffsetOperand_ok (type : RelocType) (h : e.linkage ≠ .neither) :
    parseOffsetOperand type e = .ok (.imm 0#64, [⟨0, type, some e.sym⟩]) := by
  unfold parseOffsetOperand
  cases hl : e.linkage with
  | vtStatic => rfl
  | vtExtern => rfl
  | neither => exact absurd hl h

theorem asmControlSym_error (source : Source) (h : e.linkage = .neither) :
    asmPseudo (.control source e) = .error "operand expected" := by
  have herror (type : RelocType) : parseOffsetOperand type e = .error "operand expected" := by
    rw [parseOffsetOperand, h]
  cases source <;> exact congrArg (· >>= _) (herror _)

/-- A statement about the registers holds for all of them if it does where the slot is loaded. -/
theorem forall_loaded (p : Pseudo) (P : Place) {Q : Machine → Prop}
    (hQ : ∀ m mem, Q ⟨m.regs, mem⟩ → Q m) : (∀ m, p.Loaded P m → Q m) ↔ ∀ m, Q m := by
  constructor
  · intro h m
    obtain ⟨mem, hmem⟩ := exists_loaded p P m.regs
    exact hQ m mem (h _ hmem)
  · exact fun h m _ => h m

theorem taken_regs (source : Source) (m : Machine) (mem : Ram) :
    source.Taken ⟨m.regs, mem⟩ = source.Taken m := by
  cases source <;> rfl

theorem leaves_same {t x pc : BitVec 64} {m : Machine} :
    Leaves t 0#5 0#64 ⟨pc, m⟩ ⟨x, m⟩ ↔ x = t :=
  ⟨fun h => h.1, fun h => ⟨h, rfl, fun r => (reg_setReg_zero m _ r).symm⟩⟩

/-- The branch word that is emitted with a symbol, after linking. -/
theorem stepWord_patchBranch (op : BranchOp) (a b : XReg) (s : Cpu) {d : BitVec 64}
    (heven : d.getLsbD 0 = false) (hfits : FitsSigned 13 d) :
    stepWord (patchBranch (branchWord op a b 0#32) d) s =
      some ⟨if op.holds (s.machine.reg a) (s.machine.reg b) then s.pc + d else s.pc + 4#64,
        s.machine⟩ := by
  obtain ⟨hop, hfunc, hrs1, hrs2⟩ := fields_of_maskB (sameOutside_patchBranch
    (branchWord op a b 0#32) d)
  have hopcode : opcodeOf (branchWord op a b 0#32) = 0x63#7 := by
    rw [opcodeOf, extractLsb'_branchWord op a b 0#32 (by decide) (by decide) (by decide)]
    cases op <;> decide
  have hfunc3 : func3Of (branchWord op a b 0#32) = (branchOpcode op).extractLsb' 12 3 := by
    rw [func3Of, extractLsb'_branchWord op a b 0#32 (by decide) (by decide) (by decide)]
  have hdecode : decodeBranch (patchBranch (branchWord op a b 0#32) d) =
      some (.branch op a b d) := by
    unfold decodeBranch
    rw [hfunc, hfunc3, hrs1, hrs2, rs1Of_branchWord, rs2Of_branchWord, immB_patchBranch,
      (signExtend_even_eq_iff (by decide) d).2 ⟨heven, hfits⟩]
    cases op <;> rfl
  simp only [stepWord, hop, hopcode, branchStep, hdecode]

/-- When a branch does what its mnemonic says: where the two conditions lead to the same address. -/
theorem right_branch (source : Source) {op : BranchOp} {a b : XReg}
    (h : asmPseudo (.control source e) =
      .ok ([branchWord op a b 0#32], [⟨0, .branch, some e.sym⟩]))
    (heffect : ∀ m s', source.Effect (P.value + e.v) ⟨P.pc, m⟩ s' ↔
      Leaves (if source.Taken m then P.value + e.v else P.pc + 4#64) 0#5 0#64 ⟨P.pc, m⟩ s')
    (heven : (P.value - P.pc).getLsbD 0 = false) (hfits : FitsSigned 13 (P.value - P.pc)) :
    (Pseudo.control source e).Right P ↔ ∀ m : Machine,
      (if op.holds (m.reg a) (m.reg b) then P.value else P.pc + 4#64) =
        if source.Taken m then P.value + e.v else P.pc + 4#64 := by
  have hfit : ∀ r ∈ [(⟨0, .branch, some e.sym⟩ : AsmReloc)],
      r.Fits [branchWord op a b 0#32] := by
    intro r hr
    obtain rfl := List.mem_singleton.1 hr
    have hopcode : opcodeOf (branchWord op a b 0#32) = 0x63#7 := by
      rw [opcodeOf, extractLsb'_branchWord op a b 0#32 (by decide) (by decide) (by decide)]
      cases op <;> decide
    have hfirst : opcodeAt [branchWord op a b 0#32] 0 = some 0x63#7 := congrArg some hopcode
    exact hfirst
  rw [right_iff h, and_iff_right hfit, linked_branch, Place.disp,
    does_iff rfl (by simp) fun code m hat =>
      (steps_single hat).trans (stepWord_patchBranch op a b ⟨P.pc, m⟩ heven hfits)]
  have hsame (m : Machine) : (Pseudo.control source e).Effect P.value ⟨P.pc, m⟩
      ⟨if op.holds (m.reg a) (m.reg b) then P.pc + (P.value - P.pc) else P.pc + 4#64, m⟩ ↔
      (if op.holds (m.reg a) (m.reg b) then P.value else P.pc + 4#64) =
        if source.Taken m then P.value + e.v else P.pc + 4#64 := by
    rw [add_sub_cancel]
    exact (heffect m _).trans leaves_same
  simp only [hsame]
  refine forall_loaded _ P fun m mem h => ?_
  rw [taken_regs] at h
  exact h

/-- A branch whose condition is that of its mnemonic. -/
theorem branch_agrees_iff {source : Source} {taken : Machine → Bool}
    (htaken : ∀ m, taken m = source.Taken m) :
    (∀ m : Machine, (if taken m then P.value else P.pc + 4#64) =
        if source.Taken m then P.value + e.v else P.pc + 4#64) ↔
      (∀ m, source.Taken m = false) ∨ e.v = 0#64 := by
  constructor
  · intro hall
    by_cases hnever : ∀ m, source.Taken m = false
    · exact .inl hnever
    · obtain ⟨m, hm⟩ := not_forall.1 hnever
      rw [Bool.not_eq_false] at hm
      have heq := hall m
      rw [htaken, hm, if_pos rfl, if_pos rfl] at heq
      exact .inr (left_eq_add.1 heq)
  · rintro (hnever | hv) m
    · rw [htaken, hnever m, if_neg Bool.false_ne_true, if_neg Bool.false_ne_true]
    · rw [htaken, hv, BitVec.add_zero]

/-- The word for a branch with the displacement zero. -/
theorem asmEmitB_zero (op : BranchOp) (a b : XReg) :
    asmEmitB (branchOpcode op) (.ofArg (.x a)) (.ofArg (.x b)) (.imm 0#64) =
      .ok (branchWord op a b 0#32) := rfl

theorem asmControlSym_ok {source : Source} {type : RelocType} {w : Word}
    (htype : asmPseudo (.control source e) = (parseOffsetOperand type e >>= fun operand =>
      asmControl source 0#64 >>= fun w => pure ([w], operand.2)))
    (hl : e.linkage ≠ .neither) (hw : asmControl source 0#64 = .ok w) :
    asmPseudo (.control source e) = .ok ([w], [⟨0, type, some e.sym⟩]) := by
  rw [htype, bind_of_ok (parseOffsetOperand_ok type hl), bind_of_ok hw]
  rfl

theorem branch_sym_right_iff (P : Place) (token : Branch) (rs1 rs2 : XReg)
    (hreach : (Pseudo.control (.branch token rs1 rs2) e).Reaches P) :
    (Pseudo.control (.branch token rs1 rs2) e).Right P ↔
      (Pseudo.control (.branch token rs1 rs2) e).Works P := by
  by_cases hl : e.linkage = .neither
  · exact iff_of_false (not_right_of_error (asmControlSym_error _ hl)) fun h => h.1 hl
  · obtain ⟨hfits, heven, -⟩ := hreach
    obtain ⟨op, a, b, hlisted, hemit⟩ := asmBranchOpcode_eq token rs1 rs2 0#64
    have hw : asmControl (.branch token rs1 rs2) 0#64 = .ok (branchWord op a b 0#32) :=
      hemit.trans (asmEmitB_zero op a b)
    have htaken (m : Machine) : op.holds (m.reg a) (m.reg b) =
        (Source.branch token rs1 rs2).Taken m := by
      obtain ⟨op', a', b', hlisted', hholds⟩ := token.holds_listed m rs1 rs2 0#64
      rw [hlisted] at hlisted'
      obtain ⟨rfl, rfl, rfl, -⟩ := Control.branch.inj hlisted'
      exact hholds
    rw [right_branch _ (asmControlSym_ok rfl hl hw) (fun _ _ => Iff.rfl) heven hfits,
      Pseudo.Works, and_iff_right hl]
    exact (branch_agrees_iff htaken).trans (or_congr Iff.rfl (and_iff_left trivial).symm)

/-- A branch that is taken where its mnemonic is not goes to the next instruction all the same only
if that is its target. -/
theorem branch_differs_iff {source : Source} {taken : Machine → Bool} (m0 m1 : Machine)
    (h0 : taken m0 = true ∧ source.Taken m0 = true)
    (h1 : taken m1 = true ∧ source.Taken m1 = false) :
    (∀ m : Machine, (if taken m then P.value else P.pc + 4#64) =
        if source.Taken m then P.value + e.v else P.pc + 4#64) ↔
      (∀ m, source.Taken m = false) ∨ e.v = 0#64 ∧ P.value = P.pc + 4#64 := by
  constructor
  · intro hall
    have hv := hall m0
    have hnext := hall m1
    rw [h0.1, h0.2, if_pos rfl, if_pos rfl] at hv
    rw [h1.1, h1.2, if_pos rfl, if_neg Bool.false_ne_true] at hnext
    exact .inr ⟨left_eq_add.1 hv, hnext⟩
  · rintro (hnever | ⟨hv, hnext⟩) m
    · rw [hnever m0] at h0
      cases h0.2
    · rw [hv, BitVec.add_zero, hnext, ite_self, ite_self]

theorem zeroBranch_sym_right_iff (P : Place) (token : ZeroBranch) (rs : XReg)
    (hreach : (Pseudo.control (.zeroBranch token rs) e).Reaches P) :
    (Pseudo.control (.zeroBranch token rs) e).Right P ↔
      (Pseudo.control (.zeroBranch token rs) e).Works P := by
  by_cases hl : e.linkage = .neither
  · exact iff_of_false (not_right_of_error (asmControlSym_error _ hl)) fun h => h.1 hl
  · obtain ⟨hfits, heven, -⟩ := hreach
    rw [Pseudo.Works, and_iff_right hl, Source.Works]
    by_cases hrs : token = .blez ∨ token = .bgez → rs = 0#5
    · obtain ⟨op, a, b, hlisted, hemit⟩ := asmZeroBranchOpcode_eq token rs 0#64
      have hw : asmControl (.zeroBranch token rs) 0#64 = .ok (branchWord op a b 0#32) :=
        hemit.trans (asmEmitB_zero op a b)
      have htaken (m : Machine) : op.holds (m.reg a) (m.reg b) =
          (Source.zeroBranch token rs).Taken m := by
        obtain ⟨op', a', b', hlisted', hholds⟩ := token.holds_listed m rs 0#64
        rw [← hlisted.2 hrs] at hlisted'
        obtain ⟨rfl, rfl, rfl, -⟩ := Control.branch.inj hlisted'
        exact hholds
      have hworks : (token = .blez ∨ token = .bgez → rs = 0#5 ∨ P.value = P.pc + 4#64) :=
        fun htoken => .inl (hrs htoken)
      rw [right_branch _ (asmControlSym_ok rfl hl hw) (fun _ _ => Iff.rfl) heven hfits]
      exact (branch_agrees_iff htaken).trans (or_congr Iff.rfl (and_iff_left hworks).symm)
    · -- the operands of `bge` are in the wrong order
      obtain ⟨htoken, hrs⟩ := Classical.not_imp.1 hrs
      have hreg (v : BitVec 64) : Machine.reg ⟨fun _ => v, fun _ => 0#8⟩ rs = v := if_neg hrs
      have hworks : (token = .blez ∨ token = .bgez → rs = 0#5 ∨ P.value = P.pc + 4#64) ↔
          P.value = P.pc + 4#64 :=
        ⟨fun h => (h htoken).resolve_left hrs, fun h _ => .inr h⟩
      rcases htoken with rfl | rfl
      · have hw : asmControl (.zeroBranch .blez rs) 0#64 = .ok (branchWord .bge rs 0#5 0#32) :=
          asmEmitB_zero .bge rs 0#5
        rw [right_branch _ (asmControlSym_ok rfl hl hw) (fun _ _ => Iff.rfl) heven hfits]
        refine (branch_differs_iff ⟨fun _ => 0#64, fun _ => 0#8⟩
          ⟨fun _ => 1#64, fun _ => 0#8⟩ ?_ ?_).trans (or_congr Iff.rfl
            (and_congr Iff.rfl hworks.symm))
        · rw [Source.Taken, hreg]
          decide
        · rw [Source.Taken, hreg]
          decide
      · have hw : asmControl (.zeroBranch .bgez rs) 0#64 = .ok (branchWord .bge 0#5 rs 0#32) :=
          asmEmitB_zero .bge 0#5 rs
        rw [right_branch _ (asmControlSym_ok rfl hl hw) (fun _ _ => Iff.rfl) heven hfits]
        refine (branch_differs_iff ⟨fun _ => 0#64, fun _ => 0#8⟩
          ⟨fun _ => -1#64, fun _ => 0#8⟩ ?_ ?_).trans (or_congr Iff.rfl
            (and_congr Iff.rfl hworks.symm))
        · rw [Source.Taken, hreg]
          decide
        · rw [Source.Taken, hreg]
          decide

theorem jumpWord_zero_fields (rd : XReg) :
    opcodeOf (jumpWord rd 0#32) = 0x6f#7 ∧ rdOf (jumpWord rd 0#32) = rd := by
  revert rd
  decide

/-- The jump word that is emitted with a symbol, after linking. -/
theorem stepWord_patchJal (rd : XReg) (s : Cpu) {d : BitVec 64} (heven : d.getLsbD 0 = false)
    (hfits : FitsSigned 21 d) : stepWord (patchJal (jumpWord rd 0#32) d) s =
      some ⟨s.pc + d, s.machine.setReg rd (s.pc + 4#64)⟩ := by
  obtain ⟨hop, hrd⟩ := fields_of_maskU (w := jumpWord rd 0#32) (sameOutside_patchJal _ d)
  obtain ⟨hopcode, hrd'⟩ := jumpWord_zero_fields rd
  rw [stepWord_jal (hop.trans hopcode), hrd, hrd', jalTarget, immJ_patchJal,
    (signExtend_even_eq_iff (by decide) d).2 ⟨heven, hfits⟩]

/-- `j` and `jal`, with the register that they link. -/
theorem jump_sym_right_iff (P : Place) {source : Source} {rd : XReg}
    (htype : asmPseudo (.control source e) = (parseOffsetOperand .jal e >>= fun operand =>
      asmControl source 0#64 >>= fun w => pure ([w], operand.2)))
    (hw : asmControl source 0#64 = asmEmitJ 0x6f#32 (.ofArg (.x rd)) (.imm 0#64))
    (heffect : ∀ m s', source.Effect (P.value + e.v) ⟨P.pc, m⟩ s' ↔
      Leaves (P.value + e.v) rd (P.pc + 4#64) ⟨P.pc, m⟩ s')
    (htaken : ∀ m, source.Taken m = true)
    (hworks : source.Works P e ↔ (∀ m, source.Taken m = false) ∨ e.v = 0#64)
    (heven : (P.value - P.pc).getLsbD 0 = false) (hfits : FitsSigned 21 (P.value - P.pc)) :
    (Pseudo.control source e).Right P ↔ (Pseudo.control source e).Works P := by
  by_cases hl : e.linkage = .neither
  · exact iff_of_false (not_right_of_error (asmControlSym_error _ hl)) fun h => h.1 hl
  · have hemit : asmControl source 0#64 = .ok (jumpWord rd 0#32) :=
      hw.trans ((asmEmitJ_eq rd 0#64).1 ⟨by decide, by decide⟩)
    have hfit : ∀ r ∈ [(⟨0, .jal, some e.sym⟩ : AsmReloc)], r.Fits [jumpWord rd 0#32] := by
      intro r hr
      obtain rfl := List.mem_singleton.1 hr
      have hfirst : opcodeAt [jumpWord rd 0#32] 0 = some 0x6f#7 :=
        congrArg some (jumpWord_zero_fields rd).1
      exact hfirst
    rw [right_iff (asmControlSym_ok htype hl hemit), and_iff_right hfit, linked_jal, Place.disp,
      does_iff rfl (by simp) fun code m hat =>
        (steps_single hat).trans (stepWord_patchJal rd ⟨P.pc, m⟩ heven hfits),
      Pseudo.Works, and_iff_right hl, hworks]
    constructor
    · intro hall
      obtain ⟨mem, hmem⟩ := exists_loaded (.control source e) P fun _ => 0#64
      obtain ⟨hpc, -⟩ := (heffect _ _).1 (hall _ hmem)
      rw [add_sub_cancel] at hpc
      exact .inr (left_eq_add.1 hpc)
    · rintro (hnever | hv) m _
      · cases (htaken m).symm.trans (hnever m)
      · refine (heffect m _).2 (leaves_iff.2 ⟨?_, .inr rfl⟩)
        rw [add_sub_cancel, hv]
        exact (BitVec.add_zero _).symm

theorem control_right_iff_works (P : Place) (source : Source) (e : SymExpr)
    (hreach : (Pseudo.control source e).Reaches P) :
    (Pseudo.control source e).Right P ↔ (Pseudo.control source e).Works P := by
  cases source with
  | branch token rs1 rs2 => exact branch_sym_right_iff P token rs1 rs2 hreach
  | zeroBranch token rs => exact zeroBranch_sym_right_iff P token rs hreach
  | j =>
    obtain ⟨hfits, heven, -⟩ := hreach
    have hw : asmControl .j 0#64 = asmEmitJ 0x6f#32 (.ofArg (.x 0#5)) (.imm 0#64) := rfl
    exact jump_sym_right_iff P rfl hw (fun m s' => leaves_zero) (fun _ => rfl)
      (or_congr Iff.rfl (and_iff_left trivial)) heven hfits
  | jal rd =>
    obtain ⟨hfits, heven, -⟩ := hreach
    have hw : asmControl (.jal rd) 0#64 =
        asmEmitJ 0x6f#32 (.ofArg (.x (rd.getD 1#5))) (.imm 0#64) := by
      cases rd <;> rfl
    exact jump_sym_right_iff P rfl hw (fun m s' => Iff.rfl) (fun _ => rfl)
      (or_congr Iff.rfl (and_iff_left trivial)) heven hfits

end Control

/-! ## All of them -/

/-- A pseudo-instruction is right at a place that its symbol can be reached from exactly when
`Pseudo.Works` says so. -/
theorem pseudo_right_iff (p : Pseudo) (P : Place) (hreach : p.Reaches P) :
    p.Right P ↔ p.Works P := by
  cases p with
  | nop => exact iff_of_true (nop_right P) trivial
  | ret => exact iff_of_true (ret_right P) trivial
  | fence => exact iff_of_true (fence_right P) trivial
  | counter token rd => exact iff_of_true (counter_right P token rd) trivial
  | jr rs => exact iff_of_true (jr_right P rs) trivial
  | jalr rs => exact iff_of_true (jalr_right P rs) trivial
  | mv rd rs => exact iff_of_true (mv_right P rd rs) trivial
  | not rd rs => exact iff_of_true (not_right P rd rs) trivial
  | neg rd rs => exact (neg_right_iff P rd rs).1
  | negw rd rs => exact (neg_right_iff P rd rs).2
  | sextw rd rs => exact iff_of_false (not_right_of_error rfl) id
  | seqz rd rs => exact iff_of_true (seqz_right P rd rs) trivial
  | snez rd rs => exact iff_of_true (snez_right P rd rs) trivial
  | sltz rd rs => exact iff_of_true (sltz_right P rd rs) trivial
  | sgtz rd rs => exact iff_of_true (sgtz_right P rd rs) trivial
  | la rd e => exact la_right_iff P rd e hreach
  | lla rd e => exact lla_right_iff P rd e hreach
  | call e => exact iff_of_false (call_not_right P e hreach) id
  | tail e => exact tail_right_iff P e hreach
  | jump e rt => exact iff_of_false (jump_not_right P e rt) id
  | memAccess token x e => exact iff_of_false (memAccess_not_right P token x e) id
  | control source e => exact control_right_iff_works P source e hreach

/-- A tail call of a symbol 64 bytes ahead. -/
theorem pseudo_right_iff_tail :
    let P : Place := ⟨TCCState.empty, 0, 0x10000#64, 0x10040#64⟩
    (Pseudo.tail ⟨1, .vtStatic, 0#64⟩).Reaches P ∧ (Pseudo.tail ⟨1, .vtStatic, 0#64⟩).Right P := by
  have hreach : (Pseudo.tail ⟨1, .vtStatic, 0#64⟩).Reaches
      ⟨TCCState.empty, 0, 0x10000#64, 0x10040#64⟩ := by
    have hdisp : FitsSigned 32 (0x10040#64 - 0x10000#64 + 0x800#64) := by decide
    exact ⟨hdisp, hdisp, by decide, by decide⟩
  exact ⟨hreach, (pseudo_right_iff _ _ hreach).2 ⟨fun h => (by cases h), rfl⟩⟩

/-- `neg a0, a1` writes one. -/
theorem neg_not_right :
    ¬ (Pseudo.neg 10#5 11#5).Right ⟨TCCState.empty, 0, 0x10000#64, 0x10000#64⟩ := fun h =>
  absurd ((neg_right_iff _ 10#5 11#5).1.1 h) (by decide)

end TccRiscv64.Asm
