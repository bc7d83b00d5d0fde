import TccRiscv64.Elf.FileRuns

set_option autoImplicit false

/-! # The layout in machine arithmetic

As long as the end of the file fits in an `int` and the last address in 64 bits, nothing is
wrapped. -/

namespace TccRiscv64.Elf.File

/-- What is in range on the way. -/
structure Bounds (st : Layout) : Prop where
  addr : 0 ≤ st.addr
  file : 0 ≤ st.fileOffset
  header : ∀ ph rest, st.phdrs = ph :: rest →
    0 ≤ ph.vaddr ∧ ph.vaddr ≤ st.addr ∧ 0 ≤ ph.offset ∧ ph.offset ≤ st.fileOffset
  roinf : 0 ≤ st.roinf.shAddr ∧ st.roinf.shAddr ≤ st.addr

theorem layout_eq {st st' : Layout} (haddr : st.addr = st'.addr)
    (hfile : st.fileOffset = st'.fileOffset) (hphdrs : st.phdrs = st'.phdrs)
    (hroinf : st.roinf = st'.roinf) (hplaced : st.placed = st'.placed) : st = st' := by
  cases st
  cases st'
  cases haddr
  cases hfile
  cases hphdrs
  cases hroinf
  cases hplaced
  rfl

theorem machine_u64 {x : Int} (h : 0 ≤ x) (hlt : x < 2 ^ 64) : machine.u64 x = x :=
  Int.emod_eq_of_lt h hlt

theorem machine_i32 {x : Int} (h : 0 ≤ x) (hlt : x < 2 ^ 31) : machine.i32 x = x :=
  Int.bmod_eq_of_le_mul_two (by omega) (by omega)

section Step

variable {base : Int} {st : Layout} {slot : Slot}

theorem layoutStep_mono (base : Int) (st : Layout) (slot : Slot) :
    st.addr ≤ (layoutStep unbounded base st slot).addr ∧
      st.fileOffset ≤ (layoutStep unbounded base st slot).fileOffset := by
  have hcontents := slot.contents_nonneg
  by_cases hf : slot.f = 0
  · obtain ⟨-, haddr, off, hoff, -, hend⟩ := @layoutStep_rest base st _ hf
    omega
  · obtain ⟨haddr, hfile, -, -⟩ := layoutStep_alloc base st hf
    obtain ⟨hA, -, -⟩ := stepAddr_spec st slot
    obtain ⟨hB, hO⟩ := stepPlaced_le st slot
    have haddrEnd : (stepPlaced st slot).addrEnd =
      (stepPlaced st slot).shAddr + slot.sec.shSize := rfl
    have hfileEnd : (stepPlaced st slot).fileEnd =
      (stepPlaced st slot).shOffset + slot.contents := rfl
    omega

theorem run_mono (base : Int) (slots : List Slot) (st : Layout) :
    st.addr ≤ (slots.foldl (layoutStep unbounded base) st).addr ∧
      st.fileOffset ≤ (slots.foldl (layoutStep unbounded base) st).fileOffset := by
  induction slots generalizing st with
  | nil => exact ⟨Int.le_refl _, Int.le_refl _⟩
  | cons slot slots ih =>
      obtain ⟨ha, hf⟩ := layoutStep_mono base st slot
      obtain ⟨ha', hf'⟩ := ih (layoutStep unbounded base st slot)
      exact ⟨ha.trans ha', hf.trans hf'⟩

theorem extendHeader_machine {addr fileOffset : Int} (haddr : addr < 2 ^ 64)
    (hfile : fileOffset < 2 ^ 31) {phdrs : List Phdr}
    (h : ∀ ph rest, phdrs = ph :: rest →
      0 ≤ ph.vaddr ∧ ph.vaddr ≤ addr ∧ 0 ≤ ph.offset ∧ ph.offset ≤ fileOffset) :
    extendHeader machine addr fileOffset phdrs = extendHeader unbounded addr fileOffset phdrs := by
  cases phdrs with
  | nil => rfl
  | cons ph rest =>
      obtain ⟨hv, hv', ho, ho'⟩ := h ph rest rfl
      unfold extendHeader
      dsimp only
      rw [machine_u64 (by omega) (by omega), machine_u64 (by omega) (by omega)]
      rfl

/-- The header of the section starts in range. -/
theorem stepHeaders_bounds (h : Bounds st) (hbase : 0 ≤ base) (hle : base ≤ st.addr) :
    ∀ ph rest, stepHeaders base st slot = ph :: rest →
      0 ≤ ph.vaddr ∧ ph.vaddr ≤ (stepPlaced st slot).shAddr ∧ 0 ≤ ph.offset ∧
        ph.offset ≤ (stepPlaced st slot).shOffset := by
  intro ph rest hcons
  have haddr := h.addr
  have hfile := h.file
  obtain ⟨hA, -, -⟩ := stepAddr_spec st slot
  obtain ⟨hB, hO⟩ := stepPlaced_le st slot
  unfold stepHeaders at hcons
  split at hcons
  · obtain ⟨rfl, rfl⟩ := List.cons.inj hcons
    show 0 ≤ (if st.phdrs.length = 0 then base else (stepPlaced st slot).shAddr) ∧
      (if st.phdrs.length = 0 then base else (stepPlaced st slot).shAddr) ≤ _ ∧
      0 ≤ (if st.phdrs.length = 0 then 0 else (stepPlaced st slot).shOffset) ∧
      (if st.phdrs.length = 0 then 0 else (stepPlaced st slot).shOffset) ≤ _
    split <;> omega
  · obtain ⟨hv, hv', ho, ho'⟩ := h.header ph rest hcons
    omega

theorem extend_shAddr {wrap : Wrap} {roinf : RoInf} {slot : Slot} {off addr : Int} :
    (roinf.extend wrap slot off addr).shAddr =
      if roinf.shSize = 0 then addr else roinf.shAddr := by
  unfold RoInf.extend
  split <;> rfl

theorem extend_machine {roinf : RoInf} {off addr : Int} (h : 0 ≤ roinf.shAddr)
    (hle : roinf.shAddr ≤ addr) (hend : addr + slot.sec.shSize < 2 ^ 64) :
    roinf.extend machine slot off addr = roinf.extend unbounded slot off addr := by
  unfold RoInf.extend
  split
  · dsimp only
    rw [machine_u64 (by omega) (by omega)]
    rfl
  · dsimp only
    rw [machine_u64 (by omega) (by omega)]
    rfl

theorem layoutStep_machine (h : Bounds st) (hbase : 0 ≤ base) (hle : base ≤ st.addr)
    (ha : (layoutStep unbounded base st slot).addr < 2 ^ 64)
    (hf : (layoutStep unbounded base st slot).fileOffset < 2 ^ 31) :
    layoutStep machine base st slot = layoutStep unbounded base st slot ∧
      Bounds (layoutStep unbounded base st slot) := by
  have haddr := h.addr
  have hfile := h.file
  have hcontents := slot.contents_nonneg
  by_cases hslot : slot.f = 0
  · obtain ⟨hphdrs, haddr', off, hoff, -, hend⟩ := @layoutStep_rest base st _ hslot
    have hroinf : (layoutStep unbounded base st slot).roinf = st.roinf := by
      unfold layoutStep
      rw [if_pos hslot]
    refine ⟨?_, ⟨by omega, by omega, fun ph rest hcons => ?_, by rw [hroinf, haddr']; exact h.roinf⟩⟩
    · have hup := le_alignTo st.fileOffset slot.sec.align_pos
      have hend' : (layoutStep unbounded base st slot).fileOffset =
          if slot.sec.shType ≠ shtNobits then
            alignTo st.fileOffset slot.sec.shAddralign + slot.sec.shSize
          else alignTo st.fileOffset slot.sec.shAddralign := by
        unfold layoutStep
        rw [if_pos hslot]
        rfl
      rw [hend'] at hf
      unfold layoutStep
      rw [if_pos hslot, if_pos hslot]
      dsimp only
      split at hf
      · rename_i hbits
        have halign := machine_i32 (x := alignTo st.fileOffset slot.sec.shAddralign) (by omega)
          (by omega)
        rw [if_pos hbits, if_pos hbits, halign, machine_i32 (by omega) (by omega),
          machine_u64 (by omega) (by omega)]
        rfl
      · rename_i hbits
        have halign := machine_i32 (x := alignTo st.fileOffset slot.sec.shAddralign) (by omega)
          (by omega)
        rw [if_neg hbits, if_neg hbits, halign, machine_u64 (by omega) (by omega)]
        rfl
    · have := h.header ph rest (hphdrs ▸ hcons)
      omega
  · obtain ⟨haddr', hfile', hphdrs, hplaced⟩ := layoutStep_alloc base st hslot
    obtain ⟨hA, -, -⟩ := stepAddr_spec st slot
    obtain ⟨hB, hO⟩ := stepPlaced_le st slot
    have haddrEnd : (stepPlaced st slot).addrEnd =
      (stepPlaced st slot).shAddr + slot.sec.shSize := rfl
    have hfileEnd : (stepPlaced st slot).fileEnd =
      (stepPlaced st slot).shOffset + slot.contents := rfl
    have hbounds := @stepHeaders_bounds _ _ slot h hbase hle
    rw [haddr'] at ha
    rw [hfile'] at hf
    have hstart : (if slot.f &&& newHeader ≠ 0 ∧ st.phdrs.length ≠ 0 ∧ st.addr % pageSize ≠ 0 then
        machine.u64 (st.addr + pageSize) else st.addr) = stepAddr st slot := by
      unfold stepAddr at hA hB ⊢
      split
      · rename_i hcond
        rw [if_pos hcond] at hA hB
        exact machine_u64 (by omega) (by omega)
      · rfl
    have hend : (if slot.sec.shType ≠ shtNobits then
        machine.i32 ((stepPlaced st slot).shOffset + slot.sec.shSize)
        else (stepPlaced st slot).shOffset) = (stepPlaced st slot).fileEnd := by
      unfold Placed.fileEnd Slot.contents at hf ⊢
      split
      · rename_i hbits
        have hbits : slot.sec.shType ≠ shtNobits := hbits
        have hf : (stepPlaced st slot).shOffset +
          (if slot.sec.shType ≠ shtNobits then (slot.sec.shSize : Int) else 0) < 2 ^ 31 := hf
        rw [if_pos hbits] at hf
        rw [machine_i32 (by omega) (by omega)]
        exact congrArg _ (if_pos hbits).symm
      · rename_i hbits
        have hbits : ¬ slot.sec.shType ≠ shtNobits := hbits
        exact (Int.add_zero _).symm.trans (congrArg _ (if_neg hbits).symm)
    have hplace : machine.u64 (alignTo (stepAddr st slot) slot.sec.shAddralign) =
        (stepPlaced st slot).shAddr := machine_u64 (by
          show 0 ≤ (stepPlaced st slot).shAddr
          omega) (by
          show (stepPlaced st slot).shAddr < 2 ^ 64
          omega)
    have hoffset : machine.i32 (st.fileOffset + ((stepPlaced st slot).shAddr - stepAddr st slot)) =
        (stepPlaced st slot).shOffset := machine_i32 (by omega) (by omega)
    have hoffset' : machine.u64 (stepPlaced st slot).shOffset = (stepPlaced st slot).shOffset :=
      machine_u64 (by omega) (by omega)
    have haddrEnd' : machine.u64 ((stepPlaced st slot).shAddr + slot.sec.shSize) =
        (stepPlaced st slot).addrEnd := machine_u64 (by omega) (by omega)
    have hext : extendHeader machine (stepPlaced st slot).addrEnd (stepPlaced st slot).fileEnd
        (stepHeaders base st slot) = extendHeader unbounded (stepPlaced st slot).addrEnd
        (stepPlaced st slot).fileEnd (stepHeaders base st slot) :=
      extendHeader_machine ha hf fun ph rest hcons => by
        have := hbounds ph rest hcons
        omega
    have hro := @extend_machine slot _ (stepPlaced st slot).shOffset
      (stepPlaced st slot).shAddr h.roinf.1 (by have := h.roinf.2; omega) (by omega)
    have hroinf : (layoutStep unbounded base st slot).roinf =
        if slot.f &&& relroFlag ≠ 0 then st.roinf.extend unbounded slot
          (stepPlaced st slot).shOffset (stepPlaced st slot).shAddr else st.roinf := by
      unfold layoutStep
      rw [if_neg hslot]
      rfl
    refine ⟨?_, ⟨by omega, by omega, fun ph rest hcons => ?_, ?_⟩⟩
    · have hmachine : layoutStep machine base st slot =
          ⟨(stepPlaced st slot).addrEnd, (stepPlaced st slot).fileEnd,
            extendHeader unbounded (stepPlaced st slot).addrEnd (stepPlaced st slot).fileEnd
              (stepHeaders base st slot),
            if slot.f &&& relroFlag ≠ 0 then st.roinf.extend unbounded slot
              (stepPlaced st slot).shOffset (stepPlaced st slot).shAddr else st.roinf,
            st.placed ++ [stepPlaced st slot]⟩ := by
        unfold layoutStep
        rw [if_neg hslot]
        dsimp only
        rw [hstart, hplace, hoffset, hoffset', hend, haddrEnd', hro]
        unfold stepHeaders at hext
        rw [hext]
        rfl
      rw [hmachine]
      exact (layout_eq haddr' hfile' hphdrs hroinf hplaced).symm
    · rw [hphdrs] at hcons
      cases hheaders : stepHeaders base st slot with
      | nil =>
          rw [hheaders] at hcons
          cases hcons
      | cons ph' rest' =>
          rw [hheaders] at hcons
          obtain ⟨rfl, rfl⟩ := List.cons.inj hcons
          obtain ⟨hv, hv', ho, ho'⟩ := hbounds ph' _ hheaders
          exact ⟨hv, by show ph'.vaddr ≤ _; omega, ho, by show ph'.offset ≤ _; omega⟩
    · rw [hroinf, haddr']
      have hr := h.roinf
      split
      · rw [extend_shAddr]
        split <;> omega
      · omega

end Step

section Loop

/-- The run is the same as long as its end is in range. -/
theorem run_machine (base : Int) (hbase : 0 ≤ base) (slots : List Slot) (st : Layout)
    (h : Bounds st) (hle : base ≤ st.addr)
    (ha : (slots.foldl (layoutStep unbounded base) st).addr < 2 ^ 64)
    (hf : (slots.foldl (layoutStep unbounded base) st).fileOffset < 2 ^ 31) :
    slots.foldl (layoutStep machine base) st = slots.foldl (layoutStep unbounded base) st := by
  induction slots generalizing st with
  | nil => rfl
  | cons slot slots ih =>
      obtain ⟨hma, hmf⟩ := run_mono base slots (layoutStep unbounded base st slot)
      have ha' : (layoutStep unbounded base st slot).addr < 2 ^ 64 := hma.trans_lt ha
      have hf' : (layoutStep unbounded base st slot).fileOffset < 2 ^ 31 := hmf.trans_lt hf
      obtain ⟨heq, hbounds⟩ := layoutStep_machine h hbase hle ha' hf'
      rw [List.foldl_cons, List.foldl_cons, heq]
      exact ih _ hbounds (hle.trans (layoutStep_mono base st slot).1) ha hf

/-- The end of the file fits in an `int` and the last address in 64 bits. -/
def Unwrapped (config : Config) (secs : List Section) : Prop :=
  let st := layoutLoop unbounded config (sortSections config.special secs)
  st.addr < 2 ^ 64 ∧ st.fileOffset < 2 ^ 31

theorem headersEnd_nonneg (config : Config) (slots : List Slot) :
    0 ≤ headersEnd config slots := by
  unfold headersEnd sizeofEhdr sizeofPhdr
  omega

theorem baseAddr_nonneg (config : Config) : 0 ≤ baseAddr config := by
  unfold baseAddr startAddr
  split <;> decide

/-- The loop in machine arithmetic is the one over the integers. -/
theorem layoutLoop_machine {config : Config} {secs : List Section}
    (h : Unwrapped config secs) :
    layoutLoop machine config (sortSections config.special secs) =
      layoutLoop unbounded config (sortSections config.special secs) := by
  obtain ⟨haddr, hfile⟩ := h
  unfold layoutLoop at haddr hfile ⊢
  dsimp only at haddr hfile ⊢
  generalize sortSections config.special secs = slots at haddr hfile ⊢
  have hfo := headersEnd_nonneg config slots
  have hbase := baseAddr_nonneg config
  have hmono := (run_mono (baseAddr config) slots _).2.trans_lt hfile
  have hfo' : unbounded.i32 (headersEnd config slots) = headersEnd config slots := rfl
  have hmod := Int.emod_nonneg (headersEnd config slots) (b := pageSize) (by decide)
  rw [hfo'] at haddr hfile hmono ⊢
  rw [machine_i32 hfo hmono]
  refine run_machine _ hbase slots _ ⟨?_, hfo, ?_, ?_⟩ ?_ haddr hfile
  · show 0 ≤ baseAddr config + headersEnd config slots % pageSize
    omega
  · intro ph rest hcons
    cases hcons
  · show 0 ≤ (0 : Int) ∧ 0 ≤ baseAddr config + headersEnd config slots % pageSize
    omega
  · show _ ≤ baseAddr config + headersEnd config slots % pageSize
    omega

end Loop

end TccRiscv64.Elf.File
