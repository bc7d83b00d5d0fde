import TccRiscv64.Isa.Control
import TccRiscv64.Isa.Ram
import TccRiscv64.Link.PcRelative

set_option autoImplicit false

/-! # The procedure linkage table

`create_plt_entry` records the offset of a GOT slot in a new stub, and `relocate_plt` replaces it by
code that jumps to what the slot holds. The range check works on an unsigned offset: it rejects every
slot below its stub, and accepts distances above it that are twice as far as the code reaches. -/

namespace TccRiscv64.Link

open TccRiscv64.Isa

/-! ## The table -/

/-- `create_plt_entry` on the words of the section: the new words, and the offset of the stub. -/
def createPltEntry (plt : List Word) (gotOffset : BitVec 32) : List Word × Nat :=
  let plt := if plt.length = 0 then List.replicate 8 0#32 else plt
  -- `write64le` of the unsigned offset into 16 new bytes
  (plt ++ [gotOffset, 0#32, 0#32, 0#32], 4 * plt.length)

/-- The messages of `relocate_plt` with their values. -/
inductive PltError
  | header (off got plt : BitVec 64)
  | stub (off addr pc : BitVec 64)
  deriving DecidableEq

/-- `(off + ((uint32_t)1 << 20)) >> 21`. -/
def offFails (off : BitVec 64) : Prop := (off + 0x100000#64) >>> 21 ≠ 0#64

instance (off : BitVec 64) : Decidable (offFails off) := inferInstanceAs (Decidable (_ ≠ _))

/-- The words of a stub at `pc` for the slot at `addr`. -/
def stubWords (pc addr : BitVec 64) : List Word :=
  let off := (addr - pc + 0x800#64) >>> 12
  [(0xe17#64 ||| off <<< 12).setWidth 32,
    (0x000e3e03#64 ||| ((addr - pc) &&& 0xfff#64) <<< 20).setWidth 32,
    0x000e0367#32, 0x00000013#32]

/-- The message for a stub at `pc` for the slot at `addr`. -/
def stubErrors (pc addr : BitVec 64) : List PltError :=
  let off := (addr - pc + 0x800#64) >>> 12
  if offFails off then [.stub off addr pc] else []

/-- The loop of `relocate_plt` over the stubs from the offset `p` on. -/
def relocateStubs (plt got : BitVec 64) : Nat → List Word → List Word × List PltError
  | p, lo :: hi :: _ :: _ :: rest =>
    let pc := plt + BitVec.ofNat 64 p
    let addr := got + (hi ++ lo)
    let (words, errors) := relocateStubs plt got (p + 16) rest
    (stubWords pc addr ++ words, stubErrors pc addr ++ errors)
  | _, rest => (rest, [])

/-- `relocate_plt`: the words of the section, and what `tcc_error_noabort` reports. -/
def relocatePlt (plt got : BitVec 64) (data : List Word) : List Word × List PltError :=
  if data.length = 0 then (data, [])
  else
    let off := (got - plt + 0x800#64) >>> 12
    let header : List Word :=
      [(0x397#64 ||| off <<< 12).setWidth 32, 0x41c30333#32,
        (0x0003be03#64 ||| ((got - plt) &&& 0xfff#64) <<< 20).setWidth 32, 0xfd430313#32,
        (0x00038293#64 ||| ((got - plt) &&& 0xfff#64) <<< 20).setWidth 32, 0x00135313#32,
        0x0082b283#32, 0x000e0067#32]
    let (words, errors) := relocateStubs plt got 32 (data.drop 8)
    (header ++ words, (if offFails off then [.header off got plt] else []) ++ errors)

/-! ## What is asked of it -/

/-- The table that `create_plt_entry` makes for the slots at the given offsets. -/
def pltOf (offsets : List (BitVec 32)) : List Word :=
  offsets.foldl (fun plt offset => (createPltEntry plt offset).1) []

/-- `auipc` at `pc` and the immediate of an instruction after it make the address. -/
def InReach (pc addr : BitVec 64) : Prop :=
  ∃ (hi : BitVec 20) (lo : BitVec 12), pc + (hi ++ 0#12).signExtend 64 + lo.signExtend 64 = addr

def regT1 : XReg := 6#5
def regT3 : XReg := 28#5

/-- The words at `pc` jump to the address that is loaded from the slot. -/
def JumpsVia (stub : List Word) (pc slot : BitVec 64) : Prop :=
  ∀ (code : Code) (m : Machine), code.At pc stub →
    steps code 3 ⟨pc, m⟩ = some ⟨m.mem.load slot 8 &&& ~~~1#64,
      (m.setReg regT3 (m.mem.load slot 8)).setReg regT1 (pc + 12#64)⟩

section Table

variable (plt got : BitVec 64) (offsets : List (BitVec 32))

/-- The address of a stub. -/
def stubAddr (i : Nat) : BitVec 64 := plt + BitVec.ofNat 64 (32 + 16 * i)

/-- The address of a slot. -/
def slotAddr (offset : BitVec 32) : BitVec 64 := got + offset.setWidth 64

/-- Every slot is in reach of its stub. -/
def AllInReach : Prop :=
  ∀ i offset, offsets[i]? = some offset → InReach (stubAddr plt i) (slotAddr got offset)

/-- If every slot is in reach, nothing is reported and every stub goes by its slot; otherwise something
is reported. -/
def PltRight : Prop :=
  (AllInReach plt got offsets → (relocatePlt plt got (pltOf offsets)).2 = [] ∧
    ∀ i offset, offsets[i]? = some offset →
      JumpsVia (((relocatePlt plt got (pltOf offsets)).1.drop (8 + 4 * i)).take 4)
        (stubAddr plt i) (slotAddr got offset)) ∧
  (¬ AllInReach plt got offsets → (relocatePlt plt got (pltOf offsets)).2 ≠ [])

/-- The distances that the check accepts. -/
def Accepted (distance : BitVec 64) : Prop :=
  -0x800 ≤ distance.toInt ∧ distance.toInt < 2 ^ 32 - 0x800

instance (distance : BitVec 64) : Decidable (Accepted distance) :=
  inferInstanceAs (Decidable (_ ∧ _))

/-- The check accepts the distance of the tables and of every slot from its stub. -/
def AllAccepted : Prop :=
  offsets ≠ [] → Accepted (got - plt) ∧ ∀ i offset, offsets[i]? = some offset →
    Accepted (slotAddr got offset - stubAddr plt i)

end Table

/-! ## Reach and check -/

theorem inReach_iff (pc addr : BitVec 64) :
    InReach pc addr ↔ FitsSigned 32 (addr - pc + 0x800#64) := by
  constructor
  · rintro ⟨hi, lo, rfl⟩
    have hsum : pc + (hi ++ 0#12).signExtend 64 + lo.signExtend 64 - pc + 0x800#64 =
        (hi ++ 0#12).signExtend 64 + (lo.signExtend 64 + 0x800#64) := by ring
    have hhi : (hi ++ 0#12).toNat = hi.toNat * 2 ^ 12 := by
      rw [BitVec.toNat_append, BitVec.toNat_ofNat, Nat.shiftLeft_eq]
      exact Nat.or_zero _
    have hlo : (lo.signExtend 64 + 0x800#64).toNat < 2 ^ 12 := by
      rw [BitVec.toNat_add, BitVec.toNat_signExtend, BitVec.toNat_setWidth, BitVec.msb_eq_decide]
      have := lo.isLt
      simp only [BitVec.toNat_ofNat, decide_eq_true_eq]
      split <;> omega
    rw [hsum]
    generalize lo.signExtend 64 + 0x800#64 = low at hlo
    unfold FitsSigned
    rw [BitVec.toInt_eq_toNat_cond, BitVec.toNat_add, BitVec.toNat_signExtend,
      BitVec.toNat_setWidth, BitVec.msb_eq_decide, hhi]
    have := hi.isLt
    simp only [decide_eq_true_eq]
    split <;> split <;> omega
  · intro h
    refine ⟨(addr - pc + 0x800#64).extractLsb' 12 20, (addr - pc).setWidth 12, ?_⟩
    rw [add_assoc, (upper_add_signed_lower_eq_iff _).mpr h, add_sub_cancel]

theorem offFails_iff (distance : BitVec 64) :
    offFails ((distance + 0x800#64) >>> 12) ↔ ¬ Accepted distance := by
  unfold offFails Accepted
  rw [not_iff_not, ← BitVec.toNat_inj, BitVec.toNat_ushiftRight, BitVec.toNat_add,
    BitVec.toNat_ushiftRight, BitVec.toNat_add, Nat.shiftRight_eq_div_pow,
    Nat.shiftRight_eq_div_pow, BitVec.toInt_eq_toNat_cond]
  have := distance.isLt
  simp only [BitVec.toNat_ofNat]
  split <;> omega

theorem stubErrors_eq_nil_iff (pc addr : BitVec 64) :
    stubErrors pc addr = [] ↔ Accepted (addr - pc) := by
  unfold stubErrors
  rw [← not_iff_not, ← offFails_iff]
  dsimp only
  split <;> simp [*]

/-! ## A stub -/

section Stub

variable (pc addr : BitVec 64)

/-- The first two words, as relocations would patch them. -/
theorem stubWords_eq : stubWords pc addr =
    [patchHi20 0xe17#32 ((addr - pc + 0x800#64) >>> 12), patchLoI 0x000e3e03#32 (addr - pc),
      0x000e0367#32, 0x00000013#32] := by
  unfold stubWords patchHi20 patchLoI
  generalize (addr - pc + 0x800#64) >>> 12 = off
  generalize addr - pc = d
  have hhi : (0xe17#64 ||| off <<< 12).setWidth 32 =
      ((0xe17#32 &&& 0xfff#32).setWidth 64 ||| (off &&& 0xfffff#64) <<< 12).setWidth 32 := by
    apply BitVec.eq_of_getLsbD_eq
    intro i hi
    simp only [BitVec.getLsbD_or, BitVec.getLsbD_and, BitVec.getLsbD_shiftLeft,
      BitVec.getLsbD_setWidth]
    interval_cases i <;> simp
  dsimp only
  rw [hhi]
  rfl

theorem opcodeOf_auipcT3 (off : BitVec 64) : opcodeOf (patchHi20 0xe17#32 off) = 0x17#7 := by
  apply BitVec.eq_of_getLsbD_eq
  intro i hi
  simp only [opcodeOf, patchHi20, BitVec.getLsbD_extractLsb', BitVec.getLsbD_or,
    BitVec.getLsbD_and, BitVec.getLsbD_shiftLeft, BitVec.getLsbD_setWidth]
  interval_cases i <;> simp

theorem rdOf_auipcT3 (off : BitVec 64) : rdOf (patchHi20 0xe17#32 off) = regT3 := by
  apply BitVec.eq_of_getLsbD_eq
  intro i hi
  simp only [rdOf, regT3, patchHi20, BitVec.getLsbD_extractLsb', BitVec.getLsbD_or,
    BitVec.getLsbD_and, BitVec.getLsbD_shiftLeft, BitVec.getLsbD_setWidth]
  interval_cases i <;> simp

/-- The fixed part of the load. -/
theorem setWidth_ldT3 (d : BitVec 64) :
    (patchLoI 0x000e3e03#32 d).setWidth 20 = 0xe3e03#20 := by
  apply BitVec.eq_of_getLsbD_eq
  intro i hi
  simp only [patchLoI, BitVec.getLsbD_or, BitVec.getLsbD_and, BitVec.getLsbD_shiftLeft,
    BitVec.getLsbD_setWidth]
  interval_cases i <;> simp

theorem extractLsb'_of_setWidth {w : Word} {u : BitVec 20} (h : w.setWidth 20 = u)
    {start len : Nat} (hlen : start + len ≤ 20) : w.extractLsb' start len = u.extractLsb' start len := by
  rw [← h]
  apply BitVec.eq_of_getLsbD_eq
  intro i hi
  simp only [BitVec.getLsbD_extractLsb', BitVec.getLsbD_setWidth]
  grind

theorem decode_ldT3 (d : BitVec 64) : decode (patchLoI 0x000e3e03#32 d) =
    some (.load 8 true regT3 regT3 ((d.setWidth 12).signExtend 64)) := by
  have hfield : ∀ {start len : Nat}, start + len ≤ 20 →
      (patchLoI 0x000e3e03#32 d).extractLsb' start len = (0xe3e03#20).extractLsb' start len :=
    fun hlen => extractLsb'_of_setWidth (setWidth_ldT3 d) hlen
  unfold decode
  rw [opcodeOf, hfield (by decide)]
  change decodeLoad _ = _
  unfold decodeLoad
  rw [func3Of, rdOf, rs1Of, hfield (by decide), hfield (by decide), hfield (by decide),
    immI_patchLoI]
  rfl

theorem extractLsb'_ushiftRight (x : BitVec 64) :
    (x >>> 12).extractLsb' 0 20 = x.extractLsb' 12 20 := by
  apply BitVec.eq_of_getLsbD_eq
  intro i hi
  simp only [BitVec.getLsbD_extractLsb', BitVec.getLsbD_ushiftRight, Nat.zero_add]

/-- In reach, a stub jumps to what its slot holds. -/
theorem jumpsVia_stubWords (h : InReach pc addr) : JumpsVia (stubWords pc addr) pc addr := by
  rw [stubWords_eq]
  intro code m hat
  obtain ⟨hauipc, hld, hjalr, -⟩ := hat
  generalize hm1 : m.setReg regT3
    (pc + ((addr - pc + 0x800#64).extractLsb' 12 20 ++ 0#12).signExtend 64) = m1
  have hstep1 : step code ⟨pc, m⟩ = some ⟨pc + 4#64, m1⟩ := by
    rw [step, hauipc, stepWord, opcodeOf_auipcT3, rdOf_auipcT3, auipcValue, immU_patchHi20,
      extractLsb'_ushiftRight, ← hm1]
    rfl
  have haddr : m1.reg regT3 + ((addr - pc).setWidth 12).signExtend 64 = addr := by
    rw [← hm1, Machine.reg_setReg_self m (by decide), add_assoc,
      (upper_add_signed_lower_eq_iff _).mpr ((inReach_iff pc addr).mp h), add_sub_cancel]
  have hexec : execWord m1 (patchLoI 0x000e3e03#32 (addr - pc)) =
      some (m.setReg regT3 (m.mem.load addr 8)) := by
    rw [execWord, decode_ldT3, Option.bind_some, Instr.exec, haddr, Ram.loadExt_doubleword, ← hm1,
      Machine.setReg_setReg]
    rfl
  have hstep2 : step code ⟨pc + 4#64, m1⟩ =
      some ⟨pc + 4#64 + 4#64, m.setReg regT3 (m.mem.load addr 8)⟩ := by
    rw [step, hld]
    exact stepWord_of_exec (s := ⟨pc + 4#64, m1⟩) hexec
  have hstep3 : step code ⟨pc + 4#64 + 4#64, m.setReg regT3 (m.mem.load addr 8)⟩ =
      some ⟨m.mem.load addr 8 &&& ~~~1#64,
        (m.setReg regT3 (m.mem.load addr 8)).setReg regT1 (pc + 12#64)⟩ := by
    rw [step, hjalr, stepWord, show opcodeOf 0x000e0367#32 = 0x67#7 by decide]
    dsimp only
    rw [if_pos (by decide), jalrTarget, show immI 0x000e0367#32 = 0#64 by decide, BitVec.add_zero,
      show rs1Of 0x000e0367#32 = regT3 by decide, Machine.reg_setReg_self m (by decide), add_assoc,
      add_assoc]
    rfl
  rw [show 3 = 1 + 2 from rfl, steps_add, steps_one, hstep1, Option.bind_some, steps_two, hstep2,
    Option.bind_some, hstep3]

end Stub

/-! ## The whole table -/

/-- What `create_plt_entry` leaves in the stubs. -/
def recorded (offsets : List (BitVec 32)) : List Word :=
  offsets.flatMap fun offset => [offset, 0#32, 0#32, 0#32]

theorem recorded_cons (offset : BitVec 32) (offsets : List (BitVec 32)) :
    recorded (offset :: offsets) = [offset, 0#32, 0#32, 0#32] ++ recorded offsets := rfl

theorem foldl_createPltEntry {words : List Word} (hwords : words ≠ []) (offsets : List (BitVec 32)) :
    offsets.foldl (fun plt offset => (createPltEntry plt offset).1) words =
      words ++ recorded offsets := by
  induction offsets generalizing words with
  | nil => exact (List.append_nil words).symm
  | cons offset offsets ih =>
    have hentry : (createPltEntry words offset).1 = words ++ [offset, 0#32, 0#32, 0#32] := by
      unfold createPltEntry
      rw [if_neg (by rwa [List.length_eq_zero_iff])]
    rw [List.foldl_cons, hentry, ih (by simp), recorded_cons, List.append_assoc]

theorem pltOf_eq {offsets : List (BitVec 32)} (h : offsets ≠ []) :
    pltOf offsets = List.replicate 8 0#32 ++ recorded offsets := by
  cases offsets with
  | nil => exact absurd rfl h
  | cons offset offsets =>
    unfold pltOf
    rw [List.foldl_cons, show (createPltEntry [] offset).1 =
      List.replicate 8 0#32 ++ [offset, 0#32, 0#32, 0#32] from rfl,
      foldl_createPltEntry (by simp), recorded_cons, List.append_assoc]

section Stubs

variable (plt got : BitVec 64)

theorem relocateStubs_cons (p : Nat) (offset : BitVec 32) (offsets : List (BitVec 32)) :
    relocateStubs plt got p (recorded (offset :: offsets)) =
      (stubWords (plt + BitVec.ofNat 64 p) (slotAddr got offset) ++
          (relocateStubs plt got (p + 16) (recorded offsets)).1,
        stubErrors (plt + BitVec.ofNat 64 p) (slotAddr got offset) ++
          (relocateStubs plt got (p + 16) (recorded offsets)).2) := by
  have hslot : got + (0#32 ++ offset : BitVec 64) = slotAddr got offset := by
    unfold slotAddr
    congr 1
    apply BitVec.eq_of_getLsbD_eq
    intro i hi
    simp only [BitVec.getLsbD_append, BitVec.getLsbD_setWidth, BitVec.getLsbD_zero]
    grind
  rw [← hslot]
  rfl

/-- Nothing is reported exactly if the distance of every slot is accepted. -/
theorem relocateStubs_errors (offsets : List (BitVec 32)) (p : Nat) :
    (relocateStubs plt got p (recorded offsets)).2 = [] ↔ ∀ i offset, offsets[i]? = some offset →
      Accepted (slotAddr got offset - (plt + BitVec.ofNat 64 (p + 16 * i))) := by
  induction offsets generalizing p with
  | nil => exact iff_of_true rfl fun i offset h => by simp at h
  | cons offset offsets ih =>
    rw [relocateStubs_cons, List.append_eq_nil_iff, stubErrors_eq_nil_iff, ih]
    constructor
    · rintro ⟨hfirst, hrest⟩ i offset' hi
      cases i with
      | zero =>
        obtain rfl := Option.some.inj hi
        exact hfirst
      | succ i =>
        have := hrest i offset' hi
        rwa [show p + 16 + 16 * i = p + 16 * (i + 1) by ring] at this
    · intro h
      refine ⟨h 0 offset rfl, fun i offset' hi => ?_⟩
      rw [show p + 16 + 16 * i = p + 16 * (i + 1) by ring]
      exact h (i + 1) offset' hi

/-- The words of a stub are where `create_plt_entry` recorded its slot. -/
theorem relocateStubs_words (offsets : List (BitVec 32)) (p i : Nat) (offset : BitVec 32)
    (hi : offsets[i]? = some offset) :
    ((relocateStubs plt got p (recorded offsets)).1.drop (4 * i)).take 4 =
      stubWords (plt + BitVec.ofNat 64 (p + 16 * i)) (slotAddr got offset) := by
  induction offsets generalizing p i with
  | nil => simp at hi
  | cons offset' offsets ih =>
    rw [relocateStubs_cons]
    cases i with
    | zero =>
      obtain rfl := Option.some.inj hi
      rfl
    | succ i =>
      have := ih (p + 16) i hi
      rw [show p + 16 + 16 * i = p + 16 * (i + 1) by ring] at this
      rw [← this, Nat.mul_succ, Nat.add_comm, ← List.drop_drop]
      rfl

end Stubs

section Whole

variable (plt got : BitVec 64) {offsets : List (BitVec 32)}

/-- `relocate_plt` of a table that is not empty. -/
theorem relocatePlt_eq (h : offsets ≠ []) :
    ∃ header, header.length = 8 ∧ relocatePlt plt got (pltOf offsets) =
      (header ++ (relocateStubs plt got 32 (recorded offsets)).1,
        (if offFails ((got - plt + 0x800#64) >>> 12) then
          [.header ((got - plt + 0x800#64) >>> 12) got plt] else []) ++
            (relocateStubs plt got 32 (recorded offsets)).2) := by
  rw [pltOf_eq h, relocatePlt, if_neg (by simp)]
  exact ⟨_, rfl, rfl⟩

theorem relocatePlt_errors :
    (relocatePlt plt got (pltOf offsets)).2 = [] ↔ AllAccepted plt got offsets := by
  unfold AllAccepted
  by_cases h : offsets = []
  · subst h
    exact iff_of_true rfl fun h => absurd rfl h
  · obtain ⟨header, -, heq⟩ := relocatePlt_eq plt got h
    rw [heq, List.append_eq_nil_iff, relocateStubs_errors, forall_prop_of_true h]
    refine and_congr ?_ Iff.rfl
    rw [← not_iff_not, ← offFails_iff]
    split <;> simp [*]

theorem relocatePlt_words {i : Nat} {offset : BitVec 32} (hi : offsets[i]? = some offset) :
    ((relocatePlt plt got (pltOf offsets)).1.drop (8 + 4 * i)).take 4 =
      stubWords (stubAddr plt i) (slotAddr got offset) := by
  have h : offsets ≠ [] := by
    rintro rfl
    simp at hi
  obtain ⟨header, hlen, heq⟩ := relocatePlt_eq plt got h
  rw [heq, ← hlen, List.drop_append]
  rw [hlen, List.drop_of_length_le (by omega), List.nil_append,
    Nat.add_sub_cancel_left]
  exact relocateStubs_words plt got offsets 32 i offset hi

/-- The table is as asked exactly if the distances that are accepted and the slots in reach are the
same as far as all of the table is concerned. -/
theorem pltRight_iff (offsets : List (BitVec 32)) :
    PltRight plt got offsets ↔ (AllInReach plt got offsets ↔ AllAccepted plt got offsets) := by
  unfold PltRight
  rw [ne_eq, relocatePlt_errors]
  constructor
  · rintro ⟨hin, hout⟩
    exact ⟨fun h => (hin h).1, fun h => not_not.mp fun h' => hout h' h⟩
  · intro h
    refine ⟨fun hreach => ⟨h.mp hreach, fun i offset hi => ?_⟩, fun hreach haccept =>
      hreach (h.mpr haccept)⟩
    rw [relocatePlt_words plt got hi]
    exact jumpsVia_stubWords _ _ (hreach i offset hi)

end Whole

/-- With the GOT at `0x10000` and the PLT at `0x20000`, an error is reported. -/
theorem plt_above_got : ¬ PltRight 0x20000#64 0x10000#64 [24#32] := by
  rintro ⟨hin, -⟩
  have hreach : AllInReach 0x20000#64 0x10000#64 [24#32] := by
    intro i offset hi
    obtain ⟨hlt, -⟩ := List.getElem?_eq_some_iff.mp hi
    obtain rfl := Nat.lt_one_iff.mp hlt
    obtain rfl := Option.some.inj hi
    rw [inReach_iff]
    decide
  have haccept := (relocatePlt_errors _ _).mp (hin hreach).1
  exact absurd (haccept (by simp)).1 (by decide)

end TccRiscv64.Link
