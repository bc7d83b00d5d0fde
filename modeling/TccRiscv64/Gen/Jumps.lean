import TccRiscv64.Data.Chain
import TccRiscv64.Gen.SwitchRuns
import TccRiscv64.Isa.Control
import TccRiscv64.Isa.Memory

set_option autoImplicit false

/-! # Jumps

The jump to a known address, the chains of jumps whose target is found later, and the conditional
jump, which is a branch over the jump that follows it. Code offsets are offsets in the section. -/

namespace TccRiscv64.Gen

open TccRiscv64.Isa TccRiscv64.Data

/-! ## The emitted words -/

/-- `(r + (1 << 21)) & ~((1U << 22) - 2)`: the test for the long form, or for an error. -/
def outOfJal (r : BitVec 32) : Bool :=
  (r + 1#32 <<< 21) &&& ~~~(1#32 <<< 22 - 2#32) != 0#32

/-- The immediate of `jal`. -/
def jalImm (r : BitVec 32) : Word :=
  ((r >>> 12) &&& 0xff#32) <<< 12 ||| ((r >>> 11) &&& 1#32) <<< 20 |||
    ((r >>> 1) &&& 0x3ff#32) <<< 21 ||| ((r >>> 20) &&& 1#32) <<< 31

/-- `o(0x6f | imm)`: `jal x0`. -/
def oJal (r : BitVec 32) : Word := 0x6f#32 ||| jalImm r

/-- `o(0x17 | (5 << 7) | ((r + 0x800) & 0xfffff000))`: `auipc t0`. -/
def oAuipc (r : BitVec 32) : Word := 0x17#32 ||| 5#32 <<< 7 ||| ((r + 0x800#32) &&& 0xfffff000#32)

/-- `gjmp_addr`, at the offset `ind`. -/
def gjmpAddr (ind a : BitVec 32) : Option (List Word) :=
  let r := a - ind
  if outOfJal r then do some [oAuipc r, ← ei 0x67#7 0#3 0#5 5#5 (low12 r)] else some [oJal r]

/-- What `gsym_addr` writes at a site: a jump, or nothing for a jump to the next instruction. -/
def gsymWord (r : BitVec 32) : Word := if r = 4#32 then 0x33#32 else oJal r

/-- `gsym_addr`. A chain goes through the words of its jumps, each of which holds the offset of the
next one. -/
def gsymAddr : Nat → Memory → BitVec 32 → BitVec 32 → Option (Except String Memory)
  | fuel, data, t, a =>
    if t = 0#32 then some (.ok data)
    else
      match fuel with
      | 0 => none
      | fuel + 1 =>
        let next : BitVec 32 := data.load t.toNat 4
        let r := a - t
        if outOfJal r then some (.error "out-of-range branch chain")
        else gsymAddr fuel (data.store t.toNat 4 (gsymWord r)) next a

/-- `gjmp_cond`: the branch, and the word `t` of the chain. -/
def gjmpCond (op : Cond) (a b : XReg) (t : Word) : List Word := [branchOver op a b, t]

/-! ## Where the words go -/

/-- Executing the words at `pc` leads to `target`, and changes no register but `t0`. -/
def Transfers (ws : List Word) (pc target : BitVec 64) : Prop :=
  ∀ code : Code, code.At pc ws → ∀ m, ∃ m', steps code ws.length ⟨pc, m⟩ = some ⟨target, m'⟩ ∧
    SameBut 5#5 m m'

section Fields

variable (r : BitVec 32)

theorem opcodeOf_oJal : opcodeOf (oJal r) = 0x6f#7 := by
  apply BitVec.eq_of_getLsbD_eq
  intro i hi
  simp only [opcodeOf, oJal, jalImm, BitVec.getLsbD_extractLsb', BitVec.getLsbD_or,
    BitVec.getLsbD_and, BitVec.getLsbD_shiftLeft, BitVec.getLsbD_ushiftRight]
  interval_cases i <;> simp

theorem rdOf_oJal : rdOf (oJal r) = 0#5 := by
  apply BitVec.eq_of_getLsbD_eq
  intro i hi
  simp only [rdOf, oJal, jalImm, BitVec.getLsbD_extractLsb', BitVec.getLsbD_or,
    BitVec.getLsbD_and, BitVec.getLsbD_shiftLeft, BitVec.getLsbD_ushiftRight]
  interval_cases i <;> simp

theorem immJ_oJal : immJ (oJal r) = (r.extractLsb' 1 20 ++ 0#1).signExtend 64 := by
  rw [immJ]
  congr 1
  apply BitVec.eq_of_getLsbD_eq
  intro i hi
  simp only [oJal, jalImm, BitVec.getLsbD_append, BitVec.getLsbD_extractLsb', BitVec.getLsbD_or,
    BitVec.getLsbD_and, BitVec.getLsbD_shiftLeft, BitVec.getLsbD_ushiftRight]
  interval_cases i <;> simp

theorem opcodeOf_oAuipc : opcodeOf (oAuipc r) = 0x17#7 := by
  apply BitVec.eq_of_getLsbD_eq
  intro i hi
  simp only [opcodeOf, oAuipc, BitVec.getLsbD_extractLsb', BitVec.getLsbD_or, BitVec.getLsbD_and,
    BitVec.getLsbD_shiftLeft]
  interval_cases i <;> simp

theorem rdOf_oAuipc : rdOf (oAuipc r) = 5#5 := by
  apply BitVec.eq_of_getLsbD_eq
  intro i hi
  simp only [rdOf, oAuipc, BitVec.getLsbD_extractLsb', BitVec.getLsbD_or, BitVec.getLsbD_and,
    BitVec.getLsbD_shiftLeft]
  interval_cases i <;> simp

theorem immU_oAuipc : immU (oAuipc r) = ((r + 0x800#32).extractLsb' 12 20 ++ 0#12).signExtend 64 := by
  rw [immU, oAuipc]
  generalize r + 0x800#32 = x
  congr 1
  apply BitVec.eq_of_getLsbD_eq
  intro i hi
  simp only [BitVec.getLsbD_append, BitVec.getLsbD_extractLsb', BitVec.getLsbD_or,
    BitVec.getLsbD_and, BitVec.getLsbD_shiftLeft]
  interval_cases i <;> simp

end Fields

theorem Transfers.target_iff {ws : List Word} {pc t target : BitVec 64} (h : Transfers ws pc t)
    (hcode : ∃ code : Code, code.At pc ws) : Transfers ws pc target ↔ t = target := by
  constructor
  · intro h'
    obtain ⟨code, hat⟩ := hcode
    obtain ⟨m1, h1, -⟩ := h code hat ⟨fun _ => 0#64, fun _ => 0#8⟩
    obtain ⟨m2, h2, -⟩ := h' code hat ⟨fun _ => 0#64, fun _ => 0#8⟩
    rw [h1] at h2
    exact congrArg Cpu.pc (Option.some.inj h2)
  · rintro rfl
    exact h

theorem transfers_singleton {w : Word} {pc t : BitVec 64}
    (h : ∀ m, ∃ m', stepWord w ⟨pc, m⟩ = some ⟨t, m'⟩ ∧ SameBut 5#5 m m') : Transfers [w] pc t := by
  intro code hat m
  obtain ⟨m', hstep, hsame⟩ := h m
  refine ⟨m', ?_, hsame⟩
  rw [List.length_singleton, steps_one, step, hat.1]
  exact hstep

theorem exists_code_singleton (pc : BitVec 64) (w : Word) : ∃ code : Code, code.At pc [w] :=
  ⟨fun _ => w, rfl, trivial⟩

theorem exists_code_pair (pc : BitVec 64) (w w' : Word) : ∃ code : Code, code.At pc [w, w'] := by
  have hne : pc + 4#64 ≠ pc := by
    rw [ne_eq, add_eq_left]
    decide
  exact ⟨Function.update (fun _ => w') pc w, Function.update_self .., Function.update_of_ne hne ..,
    trivial⟩

/-- Writing `x0` changes nothing. -/
theorem sameBut_setReg_zero (rd : XReg) (m : Machine) (v : BitVec 64) :
    SameBut rd m (m.setReg 0#5 v) := by
  refine ⟨rfl, fun x _ => ?_⟩
  rw [Machine.reg_setReg]
  split
  · rename_i h
    rw [h, Machine.reg_zero]
  · rfl

/-! ## Displacements -/

/-- The displacement from one offset to another. -/
def displacement (t a : BitVec 32) : BitVec 64 := a.setWidth 64 - t.setWidth 64

theorem setWidth_displacement (t a : BitVec 32) : (displacement t a).setWidth 32 = a - t := by
  apply BitVec.eq_of_toNat_eq
  have := t.isLt
  have := a.isLt
  simp only [displacement, BitVec.toNat_setWidth, BitVec.toNat_sub]
  omega

/-- The short form is taken for the even displacements of 22 bits. -/
theorem outOfJal_eq_false_iff (r : BitVec 32) :
    outOfJal r = false ↔ r.getLsbD 0 = false ∧ -2 ^ 21 ≤ r.toInt ∧ r.toInt < 2 ^ 21 := by
  have hlsb : (r + 0x200000#32).getLsbD 0 = r.getLsbD 0 := by
    rw [BitVec.getLsbD_add (by decide)]
    simp
  have hrange : (r + 0x200000#32).toNat < 2 ^ 22 ↔ -2 ^ 21 ≤ r.toInt ∧ r.toInt < 2 ^ 21 := by
    have := r.isLt
    rw [BitVec.toInt_eq_toNat_cond, BitVec.toNat_add]
    simp only [BitVec.toNat_ofNat]
    split <;> omega
  have hbias : 1#32 <<< 21 = 0x200000#32 := by decide
  have hmask : 1#32 <<< 22 - 2#32 = BitVec.ofNat 32 (2 ^ (21 + 1) - 2) := by decide
  rw [outOfJal, bne_eq_false_iff_eq, hbias, hmask, and_not_mask_eq_zero_iff (by decide), hlsb, hrange]

/-- A displacement that the immediate of `jal` can hold. -/
def JalEncodes (d : BitVec 64) : Prop := d.getLsbD 0 = false ∧ FitsSigned 21 d

section Parts

variable (t a : BitVec 32)

theorem getLsbD_displacement_zero : (displacement t a).getLsbD 0 = (a - t).getLsbD 0 := by
  rw [← setWidth_displacement, BitVec.getLsbD_setWidth]
  simp

theorem extractLsb'_jal : (a - t).extractLsb' 1 20 = (displacement t a).extractLsb' 1 20 := by
  rw [← setWidth_displacement]
  apply BitVec.eq_of_getLsbD_eq
  intro i hi
  simp only [BitVec.getLsbD_extractLsb', BitVec.getLsbD_setWidth]
  grind

theorem extractLsb'_upper :
    (a - t + 0x800#32).extractLsb' 12 20 = (displacement t a + 0x800#64).extractLsb' 12 20 := by
  have hsum : (displacement t a + 0x800#64).setWidth 32 = a - t + 0x800#32 := by
    rw [BitVec.setWidth_add _ _ (by decide), setWidth_displacement,
      show (0x800#64).setWidth 32 = 0x800#32 by decide]
  rw [← hsum]
  apply BitVec.eq_of_getLsbD_eq
  intro i hi
  simp only [BitVec.getLsbD_extractLsb', BitVec.getLsbD_setWidth]
  grind

theorem setWidth_lower : (low12 (a - t)).setWidth 12 = (displacement t a).setWidth 12 := by
  rw [low12_setWidth, ← setWidth_displacement]
  apply BitVec.eq_of_getLsbD_eq
  intro i hi
  simp only [BitVec.getLsbD_setWidth]
  grind

end Parts

/-! ## The two forms of a jump -/

theorem transfers_oJal (pc : BitVec 64) (t a : BitVec 32) : Transfers [oJal (a - t)] pc
    (pc + ((displacement t a).extractLsb' 1 20 ++ 0#1).signExtend 64) := by
  refine transfers_singleton fun m => ⟨m.setReg 0#5 (pc + 4#64), ?_, sameBut_setReg_zero ..⟩
  simp only [stepWord, opcodeOf_oJal, rdOf_oJal, jalTarget, immJ_oJal, extractLsb'_jal]

theorem jal_target_iff (base : BitVec 64) (t a : BitVec 32) :
    base + t.setWidth 64 + ((displacement t a).extractLsb' 1 20 ++ 0#1).signExtend 64 =
      base + a.setWidth 64 ↔ JalEncodes (displacement t a) := by
  rw [JalEncodes, ← signExtend_even_eq_iff (by decide)]
  unfold displacement
  constructor
  · intro h
    rw [add_assoc, add_right_inj] at h
    exact eq_sub_of_add_eq' h
  · intro h
    rw [h, add_assoc, add_sub_cancel]

/-- The short form leads to the target exactly when `jal` can encode the displacement. -/
theorem transfers_oJal_iff (base : BitVec 64) (t a : BitVec 32) :
    Transfers [oJal (a - t)] (base + t.setWidth 64) (base + a.setWidth 64) ↔
      JalEncodes (displacement t a) := by
  rw [(transfers_oJal _ t a).target_iff (exists_code_singleton _ _)]
  exact jal_target_iff base t a

theorem transfers_long (pc : BitVec 64) (t a : BitVec 32) :
    Transfers [oAuipc (a - t), eiu 0x67#7 0#3 0#5 5#5 (low12 (a - t))] pc
      ((pc + ((displacement t a + 0x800#64).extractLsb' 12 20 ++ 0#12).signExtend 64 +
        ((displacement t a).setWidth 12).signExtend 64) &&& ~~~1#64) := by
  intro code hat m
  generalize hm1 : m.setReg 5#5 (pc +
    ((displacement t a + 0x800#64).extractLsb' 12 20 ++ 0#12).signExtend 64) = m1
  have hreg : m1.reg 5#5 = pc +
      ((displacement t a + 0x800#64).extractLsb' 12 20 ++ 0#12).signExtend 64 := by
    rw [← hm1, Machine.reg_setReg_self m (by decide)]
  have hsame : SameBut 5#5 m m1 := hm1 ▸ sameBut_setReg m 5#5 _
  have hfirst : step code ⟨pc, m⟩ = some ⟨pc + 4#64, m1⟩ := by
    rw [step, hat.1]
    simp only [stepWord, opcodeOf_oAuipc, rdOf_oAuipc, auipcValue, immU_oAuipc, extractLsb'_upper,
      hm1]
  refine ⟨m1.setReg 0#5 (pc + 4#64 + 4#64), ?_, hsame.trans (sameBut_setReg_zero ..)⟩
  rw [List.length_cons, List.length_singleton, steps_two, hfirst, Option.bind_some, step, hat.2.1]
  simp only [stepWord, opcodeOf_eiu, func3Of_eiu, rs1Of_eiu, rdOf_eiu, if_true, jalrTarget, immI_eiu,
    setWidth_lower, hreg]

/-- The long form leads to the target exactly when `auipc` reaches it and it is even. -/
theorem transfers_long_iff (base : BitVec 64) (t a : BitVec 32) :
    Transfers [oAuipc (a - t), eiu 0x67#7 0#3 0#5 5#5 (low12 (a - t))] (base + t.setWidth 64)
        (base + a.setWidth 64) ↔
      FitsSigned 32 (displacement t a + 0x800#64) ∧ (base + a.setWidth 64).getLsbD 0 = false := by
  have hdisp : displacement t a = base + a.setWidth 64 - (base + t.setWidth 64) := by
    rw [displacement, add_sub_add_left_eq_sub]
  rw [(transfers_long _ t a).target_iff (exists_code_pair _ _ _), hdisp]
  exact jalr_pair_eq_iff _ _

/-! ## Jumps to known addresses -/

/-- The code of `gjmp_addr` leads to the target, and is the short form only for displacements that
`jal` can encode. -/
def GjmpAddrCorrect (base : BitVec 64) (ind a : BitVec 32) : Prop :=
  ∃ ws, gjmpAddr ind a = some ws ∧ Transfers ws (base + ind.setWidth 64) (base + a.setWidth 64) ∧
    (ws.length = 1 → JalEncodes (displacement ind a))

/-- The short form is right for the displacement, or the long form is. -/
def JumpSafe (base : BitVec 64) (ind a : BitVec 32) : Prop :=
  if outOfJal (a - ind) then
    FitsSigned 32 (displacement ind a + 0x800#64) ∧ (base + a.setWidth 64).getLsbD 0 = false
  else FitsSigned 21 (displacement ind a)

instance (base : BitVec 64) (ind a : BitVec 32) : Decidable (JumpSafe base ind a) := by
  unfold JumpSafe
  infer_instance

theorem gjmpAddr_short {ind a : BitVec 32} (h : outOfJal (a - ind) = false) :
    gjmpAddr ind a = some [oJal (a - ind)] := by
  rw [gjmpAddr, h]
  rfl

theorem gjmpAddr_long {ind a : BitVec 32} (h : outOfJal (a - ind) = true) :
    gjmpAddr ind a = some [oAuipc (a - ind), eiu 0x67#7 0#3 0#5 5#5 (low12 (a - ind))] := by
  rw [gjmpAddr, h, ei_of_fits12 (fits12_low12 _)]
  rfl

theorem gjmpAddr_correct_iff (base : BitVec 64) (ind a : BitVec 32) :
    GjmpAddrCorrect base ind a ↔ JumpSafe base ind a := by
  unfold GjmpAddrCorrect JumpSafe
  cases h : outOfJal (a - ind) with
  | false =>
    rw [gjmpAddr_short h]
    have heven : (displacement ind a).getLsbD 0 = false := by
      rw [getLsbD_displacement_zero]
      exact ((outOfJal_eq_false_iff _).mp h).1
    simp only [Option.some.injEq, exists_eq_left', transfers_oJal_iff, Bool.false_eq_true, if_false]
    exact ⟨fun hc => hc.1.2, fun hfit => ⟨⟨heven, hfit⟩, fun _ => ⟨heven, hfit⟩⟩⟩
  | true =>
    rw [gjmpAddr_long h]
    simp only [Option.some.injEq, exists_eq_left', transfers_long_iff, if_true]
    exact ⟨fun hc => hc.1, fun hsafe => ⟨hsafe, fun hlen => absurd hlen (Nat.succ_ne_self 1)⟩⟩

/-! ## Chains -/

/-- The jumps of a chain: each word holds the offset of the next one, and 0 ends the chain. -/
structure Chain (data : Memory) (t : BitVec 32) (sites : List (BitVec 32)) : Prop where
  linked : Linked (fun k => (data.load k 4).toNat) t.toNat (sites.map BitVec.toNat)
  apart : sites.Pairwise fun s s' => s.toNat + 4 ≤ s'.toNat ∨ s'.toNat + 4 ≤ s.toNat

/-- The section after the words at the sites were written. -/
def patchSites (a : BitVec 32) (sites : List (BitVec 32)) (data : Memory) : Memory :=
  sites.foldl (fun data s => data.store s.toNat 4 (gsymWord (a - s))) data

theorem patchSites_of_apart (a : BitVec 32) (sites : List (BitVec 32)) (data : Memory) {p n : Nat}
    (h : ∀ s ∈ sites, p + n ≤ s.toNat ∨ s.toNat + 4 ≤ p) :
    Memory.AgreeOn data (patchSites a sites data) p n := by
  induction sites generalizing data with
  | nil => exact fun _ _ _ => rfl
  | cons s sites ih =>
    obtain ⟨hs, hsites⟩ := List.forall_mem_cons.mp h
    exact (Memory.agreeOn_store data s.toNat 4 _ hs).trans (ih _ hsites)

/-- Every site holds the word that was written there. -/
theorem load_patchSites (a : BitVec 32) {sites : List (BitVec 32)} (data : Memory)
    (hapart : sites.Pairwise fun s s' => s.toNat + 4 ≤ s'.toNat ∨ s'.toNat + 4 ≤ s.toNat) :
    ∀ s ∈ sites, (patchSites a sites data).load s.toNat 4 = gsymWord (a - s) := by
  induction sites generalizing data with
  | nil => exact fun s hs => absurd hs List.not_mem_nil
  | cons s sites ih =>
    obtain ⟨hs, hsites⟩ := List.pairwise_cons.mp hapart
    intro s' hs'
    rcases List.mem_cons.mp hs' with rfl | hs'
    · have hrest := patchSites_of_apart a sites (data.store s'.toNat 4 (gsymWord (a - s')))
        (p := s'.toNat) (n := 4) hs
      exact (Memory.load_congr hrest).trans (Memory.load_store ..)
    · exact ih _ hsites s' hs'

theorem Chain.tail {data : Memory} {t s : BitVec 32} {sites : List (BitVec 32)} (w : BitVec 32)
    (h : Chain data t (s :: sites)) :
    t = s ∧ s ≠ 0#32 ∧ Chain (data.store s.toNat 4 w) (data.load s.toNat 4) sites := by
  obtain ⟨⟨hhead, hne, hlinked⟩, hapart⟩ := h
  obtain ⟨hs, hsites⟩ := List.pairwise_cons.mp hapart
  refine ⟨BitVec.eq_of_toNat_eq hhead, fun h0 => hne (by rw [h0]; rfl), hlinked.congr ?_, hsites⟩
  intro k hk
  obtain ⟨s', hs', rfl⟩ := List.mem_map.mp hk
  rw [Memory.load_store_of_disjoint _ _ _ _ (hs s' hs').symm]

/-- `gsym_addr` goes through the whole chain, or stops at the first site that is out of range. -/
theorem gsymAddr_eq {data : Memory} {t : BitVec 32} {sites : List (BitVec 32)}
    (h : Chain data t sites) (a : BitVec 32) {fuel : Nat} (hfuel : sites.length ≤ fuel) :
    gsymAddr fuel data t a = some (if sites.any fun s => outOfJal (a - s) then
      .error "out-of-range branch chain" else .ok (patchSites a sites data)) := by
  induction sites generalizing data t fuel with
  | nil =>
    obtain rfl : t = 0#32 := BitVec.eq_of_toNat_eq h.linked
    cases fuel <;> rfl
  | cons s sites ih =>
    obtain ⟨rfl, hne, htail⟩ := h.tail (gsymWord (a - s))
    cases fuel with
    | zero => exact absurd hfuel (by simp)
    | succ fuel =>
      rw [gsymAddr, if_neg hne, List.any_cons]
      cases hout : outOfJal (a - t) with
      | true => simp only [hout, Bool.true_or, if_true]
      | false =>
        simp only [hout, Bool.false_or, Bool.false_eq_true, if_false]
        exact ih htail (Nat.le_of_succ_le_succ hfuel)

theorem transfers_gsymWord_iff (base : BitVec 64) (t a : BitVec 32) :
    Transfers [gsymWord (a - t)] (base + t.setWidth 64) (base + a.setWidth 64) ↔
      JalEncodes (displacement t a) := by
  by_cases h4 : a - t = 4#32
  · -- the word does nothing, and leads to where `jal` with the immediate 4 would lead
    have himm : ((displacement t a).extractLsb' 1 20 ++ 0#1).signExtend 64 = 4#64 := by
      rw [← extractLsb'_jal, h4]
      decide
    have hstep : Transfers [gsymWord (a - t)] (base + t.setWidth 64) (base + t.setWidth 64 +
        ((displacement t a).extractLsb' 1 20 ++ 0#1).signExtend 64) := by
      rw [gsymWord, if_pos h4, himm]
      exact transfers_singleton fun m =>
        ⟨m.setReg 0#5 (m.reg 0#5 + m.reg 0#5), stepWord_of_exec rfl, sameBut_setReg_zero ..⟩
    rw [hstep.target_iff (exists_code_singleton _ _)]
    exact jal_target_iff base t a
  · rw [gsymWord, if_neg h4]
    exact transfers_oJal_iff base t a

/-- `gsym_addr` reports an error, or makes every word of the chain lead to the target, by `jal` only
where it can encode the displacement. -/
def GsymAddrCorrect (base : BitVec 64) (data : Memory) (t a : BitVec 32)
    (sites : List (BitVec 32)) : Prop :=
  ∃ res, (∀ fuel, sites.length ≤ fuel → gsymAddr fuel data t a = some res) ∧
    (res = .error "out-of-range branch chain" ∨ ∃ data', res = .ok data' ∧ ∀ s ∈ sites,
      Transfers [data'.load s.toNat 4] (base + s.setWidth 64) (base + a.setWidth 64) ∧
        JalEncodes (displacement s a))

/-- Some site of the chain is out of the tested range, or `jal` can encode the displacements of
all. -/
def ChainSafe (a : BitVec 32) (sites : List (BitVec 32)) : Prop :=
  (∃ s ∈ sites, outOfJal (a - s) = true) ∨ ∀ s ∈ sites, FitsSigned 21 (displacement s a)

theorem gsymAddr_correct_iff (base : BitVec 64) {data : Memory} {t : BitVec 32} (a : BitVec 32)
    {sites : List (BitVec 32)} (h : Chain data t sites) :
    GsymAddrCorrect base data t a sites ↔ ChainSafe a sites := by
  have hrun : ∀ fuel, sites.length ≤ fuel → gsymAddr fuel data t a = _ :=
    fun _ hfuel => gsymAddr_eq h a hfuel
  unfold GsymAddrCorrect ChainSafe
  cases hany : sites.any fun s => outOfJal (a - s) with
  | true =>
    rw [hany] at hrun
    exact iff_of_true ⟨_, hrun, .inl rfl⟩ (.inl (List.any_eq_true.mp hany))
  | false =>
    rw [hany] at hrun
    have hin : ∀ s ∈ sites, outOfJal (a - s) = false := by
      simpa using hany
    have heven : ∀ s ∈ sites, (displacement s a).getLsbD 0 = false := by
      intro s hs
      rw [getLsbD_displacement_zero]
      exact ((outOfJal_eq_false_iff _).mp (hin s hs)).1
    constructor
    · rintro ⟨res, hres, herr | ⟨data', -, hsites⟩⟩
      · have heq := (hrun _ le_rfl).symm.trans (hres _ le_rfl)
        rw [herr] at heq
        cases heq
      · exact .inr fun s hs => (hsites s hs).2.2
    · rintro (⟨s, hs, hout⟩ | hfits)
      · rw [hin s hs] at hout
        cases hout
      · refine ⟨_, hrun, .inr ⟨_, rfl, fun s hs => ?_⟩⟩
        have henc : JalEncodes (displacement s a) := ⟨heven s hs, hfits s hs⟩
        rw [load_patchSites a data h.apart s hs]
        exact ⟨(transfers_gsymWord_iff base s a).mpr henc, henc⟩

/-- **Jumps and chains** lead to their targets exactly when no displacement is one of those that the
test lets through to the short form although `jal` cannot encode them, and the long form reaches its
even target. -/
theorem jumps_correct_iff (base : BitVec 64) :
    (∀ ind a, GjmpAddrCorrect base ind a ↔ JumpSafe base ind a) ∧
      ∀ data t a sites, Chain data t sites →
        (GsymAddrCorrect base data t a sites ↔ ChainSafe a sites) :=
  ⟨gjmpAddr_correct_iff base, fun _ _ a _ h => gsymAddr_correct_iff base a h⟩

/-- A chain of one word. -/
theorem jumps_correct_iff_chain :
    GsymAddrCorrect 0#64 (fun _ => 0#8) 4#32 8#32 [4#32] ↔ ChainSafe 8#32 [4#32] :=
  (jumps_correct_iff 0#64).2 (fun _ => 0#8) 4#32 8#32 [4#32]
    ⟨⟨rfl, by decide, show (Memory.load (fun _ => 0#8) 4 4).toNat = 0 by decide⟩,
      List.pairwise_singleton _ _⟩

/-- A jump of one MiB forward. -/
theorem gjmpAddr_mebibyte : ¬ GjmpAddrCorrect 0#64 0#32 0x100000#32 := by
  rw [gjmpAddr_correct_iff]
  decide

/-! ## Conditional jumps -/

/-- The branch of `gjmp_cond` goes to the jump of the chain. -/
def JumpsToChain (op : Cond) (a b : XReg) (m : Machine) : Prop :=
  ∀ (code : Code) pc t, code.At pc (gjmpCond op a b t) →
    step code ⟨pc, m⟩ = some ⟨pc + 4#64, m⟩

/-- The branch of `gjmp_cond` goes past the jump of the chain. -/
def SkipsChain (op : Cond) (a b : XReg) (m : Machine) : Prop :=
  ∀ (code : Code) pc t, code.At pc (gjmpCond op a b t) →
    step code ⟨pc, m⟩ = some ⟨pc + 8#64, m⟩

theorem opcodeOf_branchOver (op : Cond) (a b : XReg) : opcodeOf (branchOver op a b) = 0x63#7 := by
  cases op <;> exact (congrArg opcodeOf (oBranchOver_eq_esu ..)).trans (opcodeOf_esu ..)

theorem stepWord_branch {w : Word} {bop : BranchOp} {x y : XReg} {imm : BitVec 64}
    (hop : opcodeOf w = 0x63#7) (h : decode w = some (.branch bop x y imm)) (s : Cpu) :
    stepWord w s = some ⟨if bop.holds (s.machine.reg x) (s.machine.reg y) then s.pc + imm
      else s.pc + 4#64, s.machine⟩ := by
  have hbranch : decodeBranch w = some (.branch bop x y imm) := by
    rw [← h]
    simp only [decode, hop]
  simp only [stepWord, hop, branchStep, hbranch]

/-- The jump is taken exactly if the condition holds. -/
theorem step_gjmpCond {op : Cond} {a b : XReg} {code : Code} {pc : BitVec 64} {t : Word}
    (hat : code.At pc (gjmpCond op a b t)) (m : Machine) : step code ⟨pc, m⟩ =
      some ⟨if op.holds (m.reg a) (m.reg b) then pc + 4#64 else pc + 8#64, m⟩ := by
  obtain ⟨bop, x, y, hdecode, htaken⟩ := decode_branchOver op a b
  rw [step, hat.1, stepWord_branch (opcodeOf_branchOver op a b) hdecode, htaken m]
  cases op.holds (m.reg a) (m.reg b) <;> rfl

/-- The branch has one of its two targets, from every place, exactly for one value of the
condition. -/
theorem branch_target_iff (op : Cond) (a b : XReg) (m : Machine) (taken : Bool) :
    (∀ code pc t, Code.At code pc (gjmpCond op a b t) →
      step code ⟨pc, m⟩ = some ⟨if taken then pc + 4#64 else pc + 8#64, m⟩) ↔
    op.holds (m.reg a) (m.reg b) = taken := by
  constructor
  · intro h
    obtain ⟨code, hat⟩ := exists_code_pair 0#64 (branchOver op a b) 0#32
    have hstep := (step_gjmpCond hat m).symm.trans (h code 0#64 0#32 hat)
    have hpc := congrArg Cpu.pc (Option.some.inj hstep)
    cases hb : op.holds (m.reg a) (m.reg b) with
    | true =>
      rw [hb] at hpc
      cases taken with
      | true => rfl
      | false => exact absurd (show 0#64 + 4#64 = 0#64 + 8#64 from hpc) (by decide)
    | false =>
      rw [hb] at hpc
      cases taken with
      | true => exact absurd (show 0#64 + 8#64 = 0#64 + 4#64 from hpc) (by decide)
      | false => rfl
  · intro h code pc t hat
    rw [step_gjmpCond hat, h]

theorem jumpsToChain_iff (op : Cond) (a b : XReg) (m : Machine) :
    JumpsToChain op a b m ↔ op.holds (m.reg a) (m.reg b) = true :=
  branch_target_iff op a b m true

theorem skipsChain_iff (op : Cond) (a b : XReg) (m : Machine) :
    SkipsChain op a b m ↔ op.holds (m.reg a) (m.reg b) = false :=
  branch_target_iff op a b m false

/-- The code of `load` for a comparison leaves the truth value `v` in the register. -/
def Materialises (rr : XReg) (op : Cond) (a b : XReg) (m : Machine) (v : BitVec 64) : Prop :=
  ∃ ws m', loadCmp rr op a b = some ws ∧ run ws m = some m' ∧ SameBut rr m m' ∧ m'.reg rr = v

theorem loadCmp_isSome (rr : XReg) (op : Cond) (a b : XReg) : ∃ ws, loadCmp rr op a b = some ws := by
  have h : Fits12 1#32 := by decide
  cases op <;>
    exact Option.isSome_iff_exists.mp (by simp [loadCmp, ei_of_fits12 h, Cond.code, Cond.not])

theorem materialises_iff {rr : XReg} (hrr : rr ≠ 0#5) (op : Cond) (a b : XReg) (m : Machine)
    (v : BitVec 64) :
    Materialises rr op a b m v ↔ v = ofBool (op.holds (m.reg a) (m.reg b)) := by
  obtain ⟨ws, hws⟩ := loadCmp_isSome rr op a b
  obtain ⟨m', hrun, hsame, hreg⟩ := loadCmp_holds hrr hws m
  constructor
  · rintro ⟨ws', m'', hws', hrun', -, rfl⟩
    rw [hws] at hws'
    cases hws'
    rw [hrun] at hrun'
    cases hrun'
    exact hreg
  · rintro rfl
    exact ⟨ws, m', hws, hrun, hsame, hreg⟩

/-- **A comparison** is materialised as 1 exactly when its branch goes to the chain, as 0 exactly when
it goes past it, and the inverted token exchanges both. -/
theorem materialised_iff_jumps (r : Reg) (op : Cond) (a b : XReg) (m : Machine) :
    (Materialises (ireg r) op a b m 1#64 ↔ JumpsToChain op a b m) ∧
      (Materialises (ireg r) op a b m 0#64 ↔ SkipsChain op a b m) ∧
      (Materialises (ireg r) op a b m 1#64 ∨ Materialises (ireg r) op a b m 0#64) ∧
      (Materialises (ireg r) op.not a b m 1#64 ↔ Materialises (ireg r) op a b m 0#64) ∧
      (JumpsToChain op.not a b m ↔ SkipsChain op a b m) := by
  simp only [materialises_iff (ireg_ne_zero r), jumpsToChain_iff, skipsChain_iff, Cond.holds_not]
  cases op.holds (m.reg a) (m.reg b) <;> simp [ofBool]

end TccRiscv64.Gen
