import TccRiscv64.Elf.FileOrder

set_option autoImplicit false

/-! # The loop over the sections that are loaded

The address and the file offset go up together, except for what `SHT_NOBITS` sections take in
memory only. -/

namespace TccRiscv64.Elf.File

/-- The arithmetic of the integers. -/
def unbounded : Wrap := ⟨fun x => x, fun x => x⟩

/-! ## What is skipped in the file -/

def Slot.starts (slot : Slot) : Bool := slot.f &&& newHeader != 0

/-- What a section takes in memory only. -/
def Slot.nobits (slot : Slot) : Int :=
  if slot.f ≠ 0 ∧ slot.sec.shType = shtNobits then slot.sec.shSize else 0

/-- What a section takes in the file. -/
def Slot.contents (slot : Slot) : Int :=
  if slot.sec.shType ≠ shtNobits then slot.sec.shSize else 0

/-- What the sections take in memory only. -/
def skipped (slots : List Slot) : Int := (slots.map Slot.nobits).sum

/-- What the sections of the last segment take in memory only. -/
def segSkipped (slots : List Slot) : Int :=
  slots.foldl (fun k slot => (if slot.starts then 0 else k) + slot.nobits) 0

/-- What the sections before `slot` in its segment take in memory only. -/
def segBefore (before : List Slot) (slot : Slot) : Int :=
  if slot.starts then 0 else segSkipped before

/-- The whole pages of the headers of the file, for the first segment. -/
def headerPages (fo0 : Int) (n : Nat) : Int := if n = 1 then fo0 - fo0 % pageSize else 0

theorem skipped_concat (slots : List Slot) (slot : Slot) :
    skipped (slots ++ [slot]) = skipped slots + slot.nobits := by
  unfold skipped
  rw [List.map_append, List.sum_append]
  simp

theorem segSkipped_concat (slots : List Slot) (slot : Slot) :
    segSkipped (slots ++ [slot]) = segBefore slots slot + slot.nobits := by
  unfold segSkipped segBefore
  rw [List.foldl_append]
  rfl

theorem countHeaders_concat (slots : List Slot) (slot : Slot) :
    countHeaders (slots ++ [slot]) = countHeaders slots + (if slot.starts then 1 else 0) := by
  unfold countHeaders Slot.starts
  rw [List.countP_append, List.countP_singleton]
  by_cases h : slot.f &&& newHeader = 0 <;> simp [h]

theorem Slot.contents_add_nobits {slot : Slot} (h : slot.f ≠ 0) :
    slot.contents + slot.nobits = slot.sec.shSize := by
  unfold Slot.contents Slot.nobits
  by_cases ht : slot.sec.shType = shtNobits
  · rw [if_neg (not_not.mpr ht), if_pos ⟨h, ht⟩, Int.zero_add]
  · rw [if_pos ht, if_neg fun hand => ht hand.2, Int.add_zero]

theorem Slot.contents_nonneg (slot : Slot) : 0 ≤ slot.contents := by
  unfold Slot.contents
  split
  · exact Int.natCast_nonneg _
  · exact Int.le_refl 0

theorem Slot.nobits_nonneg (slot : Slot) : 0 ≤ slot.nobits := by
  unfold Slot.nobits
  split
  · exact Int.natCast_nonneg _
  · exact Int.le_refl 0

/-! ## Places and headers -/

def Placed.addrEnd (p : Placed) : Int := p.shAddr + p.slot.sec.shSize
def Placed.fileEnd (p : Placed) : Int := p.shOffset + p.slot.contents

/-- A header has the type and the permissions of flags. -/
def HeaderFlags (f : BitVec 32) (ph : Phdr) : Prop :=
  ph.type = (if f &&& shfTls ≠ 0 then .tls else .load) ∧
    ph.write = (f &&& shfWrite != 0) ∧ ph.exec = (f &&& shfExecinstr != 0)

/-- A section is in the segment of a header, and its place in the file differs by `skew` from its
place in memory. -/
structure Own (skew : Int) (ph : Phdr) (p : Placed) : Prop where
  flags : HeaderFlags p.slot.f ph
  vaddr : ph.vaddr ≤ p.shAddr
  memsz : p.addrEnd ≤ ph.vaddr + ph.memsz
  offset : ph.offset ≤ p.shOffset
  filesz : p.fileEnd ≤ ph.offset + ph.filesz
  skew : p.shAddr - ph.vaddr - (p.shOffset - ph.offset) = skew

/-- What holds when the sections `done` are placed; `f0` are the flags of the last segment. -/
structure Inv (base fo0 : Int) (done : List Slot) (f0 : BitVec 32) (st : Layout) : Prop where
  slots : st.placed.map Placed.slot = done
  count : st.phdrs.length = countHeaders done
  base_le : base ≤ st.addr
  fo0_le : fo0 ≤ st.fileOffset
  start : st.phdrs = [] →
    f0 = 0 ∧ st.addr = base + fo0 % pageSize ∧ st.fileOffset = fo0
  current : ∀ ph rest, st.phdrs = ph :: rest →
    HeaderFlags f0 ph ∧ st.addr = ph.vaddr + ph.memsz ∧ st.fileOffset = ph.offset + ph.filesz ∧
      ph.vaddr ≤ st.addr ∧ ph.offset ≤ st.fileOffset ∧ st.addr - ph.vaddr - (st.fileOffset - ph.offset) =
        segSkipped done - headerPages fo0 (countHeaders done)
  mod : pageSize ∣ st.addr - st.fileOffset - skipped done
  heads : ∀ ph ∈ st.phdrs, ph.vaddr + ph.memsz ≤ st.addr
  pairs : st.phdrs.Pairwise fun ph ph' => ph'.vaddr + ph'.memsz ≤ ph.vaddr
  places : ∀ p ∈ st.placed, (p.slot.sec.shAddralign : Int) ∣ p.shAddr ∧ p.addrEnd ≤ st.addr ∧
    p.fileEnd ≤ st.fileOffset
  apart : st.placed.Pairwise fun p p' => p.addrEnd ≤ p'.shAddr ∧ p.fileEnd ≤ p'.shOffset
  own : ∀ pre p post, st.placed = pre ++ p :: post →
    pageSize ∣ p.shAddr - p.shOffset - skipped (pre.map Placed.slot) ∧
      ∃ ph ∈ st.phdrs, Own (segBefore (pre.map Placed.slot) p.slot -
        headerPages fo0 (countHeaders (pre.map Placed.slot ++ [p.slot]))) ph p

theorem split_concat {α : Type} {l pre post : List α} {x p : α}
    (h : l ++ [x] = pre ++ p :: post) :
    (pre = l ∧ p = x ∧ post = []) ∨ ∃ post', post = post' ++ [x] ∧ l = pre ++ p :: post' := by
  rcases List.eq_nil_or_concat post with rfl | ⟨post', y, rfl⟩
  · obtain ⟨hpre, hp⟩ := List.append_inj' h rfl
    exact .inl ⟨hpre.symm, (List.singleton_inj.mp hp).symm, rfl⟩
  · rw [List.concat_eq_append] at h ⊢
    have h' : l ++ [x] = (pre ++ p :: post') ++ [y] := by
      rw [h, List.append_assoc, List.cons_append]
    obtain ⟨hl, hx⟩ := List.append_inj' h' rfl
    exact .inr ⟨post', by rw [List.singleton_inj.mp hx], hl⟩

theorem le_alignTo (x : Int) {a : Nat} (ha : 0 < a) : x ≤ alignTo x a := by
  have := Int.emod_nonneg (-x) (b := (a : Int)) (by omega)
  unfold alignTo
  omega

theorem dvd_alignTo (x : Int) (a : Nat) : (a : Int) ∣ alignTo x a := by
  unfold alignTo
  rw [Int.emod_def]
  exact ⟨-(-x / a), by rw [Int.mul_neg]; omega⟩

theorem Section.align_pos (s : Section) : 0 < s.shAddralign := by
  obtain ⟨k, -, h⟩ := s.pow
  exact h ▸ Nat.two_pow_pos k

section Step

variable {base fo0 : Int} {done : List Slot} {f0 : BitVec 32} {st : Layout}

theorem Slot.starts_iff {slot : Slot} : slot.starts = true ↔ slot.f &&& newHeader ≠ 0 := by
  simp [Slot.starts]

/-- The address that a section is aligned from. -/
def stepAddr (st : Layout) (slot : Slot) : Int :=
  if slot.f &&& newHeader ≠ 0 ∧ st.phdrs.length ≠ 0 ∧ st.addr % pageSize ≠ 0 then
    st.addr + pageSize else st.addr

theorem stepAddr_spec (st : Layout) (slot : Slot) :
    st.addr ≤ stepAddr st slot ∧ pageSize ∣ stepAddr st slot - st.addr ∧
      (slot.starts = false ∨ st.phdrs = [] → stepAddr st slot = st.addr) := by
  unfold stepAddr pageSize
  split
  · rename_i h
    refine ⟨by omega, by omega, fun hor => ?_⟩
    rcases hor with hor | hor
    · exact absurd (hor.symm.trans (Slot.starts_iff.mpr h.1)) (by decide)
    · exact absurd (congrArg List.length hor) h.2.1
  · exact ⟨Int.le_refl _, by omega, fun _ => rfl⟩

/-- The place of a loaded section. -/
def stepPlaced (st : Layout) (slot : Slot) : Placed where
  slot := slot
  shOffset := st.fileOffset + (alignTo (stepAddr st slot) slot.sec.shAddralign - stepAddr st slot)
  shAddr := alignTo (stepAddr st slot) slot.sec.shAddralign

/-- The header of the segment of a section, before it is extended. -/
def stepHeaders (base : Int) (st : Layout) (slot : Slot) : List Phdr :=
  if slot.f &&& newHeader ≠ 0 then
    startHeader base (stepPlaced st slot).shAddr (stepPlaced st slot).shOffset st.phdrs.length slot
      :: st.phdrs
  else st.phdrs

theorem layoutStep_alloc (base : Int) (st : Layout) {slot : Slot} (h : slot.f ≠ 0) :
    (layoutStep unbounded base st slot).addr = (stepPlaced st slot).addrEnd ∧
      (layoutStep unbounded base st slot).fileOffset = (stepPlaced st slot).fileEnd ∧
      (layoutStep unbounded base st slot).phdrs =
        extendHeader unbounded (stepPlaced st slot).addrEnd (stepPlaced st slot).fileEnd
          (stepHeaders base st slot) ∧
      (layoutStep unbounded base st slot).placed = st.placed ++ [stepPlaced st slot] := by
  have hend : (if slot.sec.shType ≠ shtNobits then
      (stepPlaced st slot).shOffset + slot.sec.shSize else (stepPlaced st slot).shOffset) =
      (stepPlaced st slot).fileEnd := by
    show _ = (stepPlaced st slot).shOffset +
      (if slot.sec.shType ≠ shtNobits then (slot.sec.shSize : Int) else 0)
    split
    · rfl
    · exact (Int.add_zero _).symm
  unfold layoutStep
  rw [if_neg h]
  refine ⟨rfl, hend, ?_, rfl⟩
  rw [← hend]
  rfl

/-- A header goes on, or it is one of those before. -/
def Continues (phdrs : List Phdr) (st : Layout) (ph old : Phdr) : Prop :=
  old ∈ phdrs ∨ (ph.type = old.type ∧ ph.write = old.write ∧ ph.exec = old.exec ∧
    ph.vaddr = old.vaddr ∧ ph.offset = old.offset ∧ old.vaddr + old.memsz = st.addr ∧
    old.offset + old.filesz = st.fileOffset)

/-- The newest header after a section, which is the one of the section. -/
structure Head (fo0 : Int) (done : List Slot) (st : Layout) (slot : Slot) (ph : Phdr)
    (rest : List Phdr) : Prop where
  flags : HeaderFlags slot.f ph
  memsz : (stepPlaced st slot).addrEnd = ph.vaddr + ph.memsz
  filesz : (stepPlaced st slot).fileEnd = ph.offset + ph.filesz
  vaddr : ph.vaddr ≤ (stepPlaced st slot).shAddr
  offset : ph.offset ≤ (stepPlaced st slot).shOffset
  skew : (stepPlaced st slot).shAddr - ph.vaddr - ((stepPlaced st slot).shOffset - ph.offset) =
    segBefore done slot - headerPages fo0 (countHeaders (done ++ [slot]))
  count : rest.length + 1 = countHeaders (done ++ [slot])
  old : ∀ h ∈ st.phdrs, Continues rest st ph h
  before : ∀ h ∈ rest, h ∈ st.phdrs ∧ h.vaddr + h.memsz ≤ ph.vaddr
  pairs : rest.Pairwise fun ph ph' => ph'.vaddr + ph'.memsz ≤ ph.vaddr

theorem stepPlaced_le (st : Layout) (slot : Slot) :
    stepAddr st slot ≤ (stepPlaced st slot).shAddr ∧
      (stepPlaced st slot).shOffset - st.fileOffset =
        (stepPlaced st slot).shAddr - stepAddr st slot := by
  refine ⟨le_alignTo _ slot.sec.align_pos, ?_⟩
  show st.fileOffset + (alignTo _ _ - stepAddr st slot) - st.fileOffset = alignTo _ _ - _
  omega

theorem Inv.exists_head (h : Inv base fo0 done f0 st) (hfo0 : 0 ≤ fo0) {slot : Slot}
    (hf : slot.f ≠ 0) (hsame : slot.starts = false → slot.f = f0) :
    ∃ ph rest, (layoutStep unbounded base st slot).phdrs = ph :: rest ∧
      Head fo0 done st slot ph rest := by
  obtain ⟨-, -, hphdrs, -⟩ := layoutStep_alloc base st hf
  obtain ⟨hA, -, hsameAddr⟩ := stepAddr_spec st slot
  obtain ⟨hB, hO⟩ := stepPlaced_le st slot
  have hbase := h.base_le
  have hfo := h.fo0_le
  by_cases hs : slot.starts = true
  · have hcount := countHeaders_concat done slot
    rw [if_pos hs] at hcount
    unfold stepHeaders at hphdrs
    rw [if_pos (Slot.starts_iff.mp hs)] at hphdrs
    refine ⟨_, _, hphdrs, ⟨rfl, rfl, rfl⟩, ?_, ?_, ?_, ?_, ?_, ?_, fun old hold => .inl hold,
      fun old hold => ⟨hold, ?_⟩, h.pairs⟩
    · exact (add_sub_cancel _ _).symm
    · exact (add_sub_cancel _ _).symm
    · show (if st.phdrs.length = 0 then base else (stepPlaced st slot).shAddr) ≤ _
      split <;> omega
    · show (if st.phdrs.length = 0 then 0 else (stepPlaced st slot).shOffset) ≤ _
      split <;> omega
    · show _ - (if st.phdrs.length = 0 then base else (stepPlaced st slot).shAddr) -
        (_ - (if st.phdrs.length = 0 then 0 else (stepPlaced st slot).shOffset)) = _
      unfold segBefore headerPages
      rw [if_pos hs, hcount, ← h.count]
      by_cases hn : st.phdrs.length = 0
      · obtain ⟨-, haddr, hoff⟩ := h.start (List.length_eq_zero_iff.mp hn)
        have := hsameAddr (.inr (List.length_eq_zero_iff.mp hn))
        rw [if_pos hn, if_pos hn, if_pos (by omega)]
        omega
      · rw [if_neg hn, if_neg hn, if_neg (by omega)]
        omega
    · rw [hcount, h.count]
    · show _ ≤ (if st.phdrs.length = 0 then base else (stepPlaced st slot).shAddr)
      have hpos : st.phdrs.length ≠ 0 := fun hz =>
        List.ne_nil_of_mem hold (List.length_eq_zero_iff.mp hz)
      have := h.heads old hold
      rw [if_neg hpos]
      omega
  · have hs : slot.starts = false := Bool.eq_false_iff.mpr hs
    have hcount := countHeaders_concat done slot
    rw [hs, if_neg (by decide)] at hcount
    unfold stepHeaders at hphdrs
    rw [if_neg fun hne => absurd (hs.symm.trans (Slot.starts_iff.mpr hne)) (by decide)] at hphdrs
    have haddr := hsameAddr (.inl hs)
    cases hst : st.phdrs with
    | nil => exact absurd ((hsame hs).trans (h.start hst).1) hf
    | cons ph rest =>
        rw [hst] at hphdrs
        obtain ⟨hflags, hmem, hfile, hv, ho, hskew⟩ := h.current ph rest hst
        have hpairs := List.pairwise_cons.mp (hst ▸ h.pairs)
        refine ⟨_, _, hphdrs, ?_, ?_, ?_, ?_, ?_, ?_, ?_, fun old hold => ?_,
          fun old hold => ⟨hst ▸ List.mem_cons_of_mem ph hold, ?_⟩, hpairs.2⟩
        · rw [hsame hs]
          exact hflags
        · exact (add_sub_cancel _ _).symm
        · exact (add_sub_cancel _ _).symm
        · show ph.vaddr ≤ _
          omega
        · show ph.offset ≤ _
          omega
        · show _ - ph.vaddr - (_ - ph.offset) = _
          unfold segBefore
          rw [hs, if_neg (by decide), hcount, Nat.add_zero]
          omega
        · rw [hcount, ← h.count, hst]
          rfl
        · rcases List.mem_cons.mp (hst ▸ hold) with rfl | hold
          · exact .inr ⟨rfl, rfl, rfl, rfl, rfl, hmem.symm, hfile.symm⟩
          · exact .inl hold
        · exact hpairs.1 old hold

/-- A section that is loaded keeps the invariant. -/
theorem Inv.step (h : Inv base fo0 done f0 st) (hfo0 : 0 ≤ fo0) {slot : Slot} {f : BitVec 32}
    (hf : slot.f ≠ 0) (hsame : slot.starts = false → slot.f = f0)
    (hbits : ∀ ph, HeaderFlags slot.f ph → HeaderFlags f ph) :
    Inv base fo0 (done ++ [slot]) f (layoutStep unbounded base st slot) := by
  obtain ⟨ph, rest, hphdrs, hhead⟩ := h.exists_head hfo0 hf hsame
  obtain ⟨haddr, hfile, -, hplaced⟩ := layoutStep_alloc base st hf
  obtain ⟨hA, hdvd, -⟩ := stepAddr_spec st slot
  obtain ⟨hB, hO⟩ := stepPlaced_le st slot
  have hcontents := slot.contents_nonneg
  have hnobits := slot.nobits_nonneg
  have hsum := Slot.contents_add_nobits hf
  have haddrEnd : (stepPlaced st slot).addrEnd =
    (stepPlaced st slot).shAddr + slot.sec.shSize := rfl
  have hfileEnd : (stepPlaced st slot).fileEnd =
    (stepPlaced st slot).shOffset + slot.contents := rfl
  have hmod := h.mod
  unfold pageSize at hdvd hmod
  refine ⟨?_, ?_, ?_, ?_, ?_, ?_, ?_, ?_, ?_, ?_, ?_, ?_⟩
  · rw [hplaced, List.map_append, h.slots]
    rfl
  · rw [hphdrs]
    exact hhead.count
  · rw [haddr]
    have := h.base_le
    omega
  · rw [hfile]
    have := h.fo0_le
    omega
  · intro hnil
    rw [hphdrs] at hnil
    cases hnil
  · intro ph' rest' hcons
    rw [hphdrs] at hcons
    obtain ⟨rfl, rfl⟩ := List.cons.inj hcons
    have hskew := hhead.skew
    have hv := hhead.vaddr
    have ho := hhead.offset
    rw [haddr, hfile, segSkipped_concat]
    exact ⟨hbits _ hhead.flags, hhead.memsz, hhead.filesz, by omega, by omega, by omega⟩
  · rw [haddr, hfile, skipped_concat]
    unfold pageSize
    omega
  · intro ph' hph'
    rw [hphdrs] at hph'
    rw [haddr, hhead.memsz]
    rcases List.mem_cons.mp hph' with rfl | hph'
    · exact Int.le_refl _
    · have hbefore := (hhead.before ph' hph').2
      have hv := hhead.vaddr
      have hm := hhead.memsz
      omega
  · rw [hphdrs]
    exact List.Pairwise.cons (fun ph' hph' => (hhead.before ph' hph').2) hhead.pairs
  · intro p hp
    rw [hplaced] at hp
    rw [haddr, hfile]
    rcases List.mem_append.mp hp with hp | hp
    · obtain ⟨halign, hp, hp'⟩ := h.places p hp
      exact ⟨halign, by omega, by omega⟩
    · rw [List.mem_singleton.mp hp]
      exact ⟨dvd_alignTo _ _, Int.le_refl _, Int.le_refl _⟩
  · rw [hplaced]
    refine List.pairwise_append.mpr ⟨h.apart, List.pairwise_singleton _ _, fun p hp p' hp' => ?_⟩
    obtain ⟨-, hp, hpf⟩ := h.places p hp
    rw [List.mem_singleton.mp hp']
    exact ⟨by omega, by omega⟩
  · intro pre p post hsplit
    rw [hplaced] at hsplit
    rcases split_concat hsplit with ⟨rfl, rfl, rfl⟩ | ⟨post', rfl, hbefore⟩
    · rw [h.slots]
      refine ⟨?_, ph, hphdrs ▸ List.mem_cons_self, ?_⟩
      · unfold pageSize
        omega
      · exact ⟨hhead.flags, hhead.vaddr, hhead.memsz.le, hhead.offset, hhead.filesz.le,
          hhead.skew⟩
    · obtain ⟨hcong, old, hold, hown⟩ := h.own pre p post' hbefore
      refine ⟨hcong, ?_⟩
      obtain ⟨-, hp, hpf⟩ := h.places p (hbefore ▸ List.mem_append_right pre List.mem_cons_self)
      rcases hhead.old old hold with hrest | ⟨htype, hwrite, hexec, hvaddr, hoffset, -, -⟩
      · exact ⟨old, hphdrs ▸ List.mem_cons_of_mem ph hrest, hown⟩
      · refine ⟨ph, hphdrs ▸ List.mem_cons_self, ⟨?_, ?_, ?_, ?_, ?_, ?_⟩⟩
        · exact ⟨htype.trans hown.flags.1, hwrite.trans hown.flags.2.1,
            hexec.trans hown.flags.2.2⟩
        · exact hvaddr ▸ hown.vaddr
        · rw [← hhead.memsz]
          omega
        · exact hoffset ▸ hown.offset
        · rw [← hhead.filesz]
          omega
        · rw [hvaddr, hoffset]
          exact hown.skew

end Step

/-! ## All the sections -/

section Run

variable {base fo0 : Int} {done : List Slot} {f0 : BitVec 32} {st : Layout}

/-- The sections that are loaded are marked with the flags of their segments. -/
theorem Inv.run (h : Inv base fo0 done f0 st) (hfo0 : 0 ≤ fo0) {order : List Classed}
    (hload : ∀ c ∈ order, c.cls < 0x700) (hok : ∀ c ∈ order, c.Ok) :
    ∃ f, Inv base fo0 (done ++ markHeaders f0 order) f
      ((markHeaders f0 order).foldl (layoutStep unbounded base) st) := by
  induction order generalizing done f0 st with
  | nil => exact ⟨f0, by rw [markHeaders, List.append_nil]; exact h⟩
  | cons c order ih =>
      have hc := hload c List.mem_cons_self
      have hne := segmentFlags_ne_zero hc (hok c List.mem_cons_self)
      have hload' : ∀ c ∈ order, c.cls < 0x700 := fun c' hc' => hload c' (List.mem_cons_of_mem c hc')
      have hok' : ∀ c ∈ order, c.Ok := fun c' hc' => hok c' (List.mem_cons_of_mem c hc')
      unfold markHeaders
      dsimp only
      by_cases hmark : c.cls < 0x700 ∧ segmentFlags c ≠ f0
      · rw [if_pos hmark]
        have hstep := @Inv.step _ _ _ _ _ h hfo0 ⟨c.index, c.sec, segmentFlags c ||| newHeader⟩
          (segmentFlags c)
          (fun hz => marked_newHeader (segmentFlags c) (by
            have hz : segmentFlags c ||| newHeader = 0 := hz
            rw [hz]
            decide))
          (fun hs => absurd (hs.symm.trans (Slot.starts_iff.mpr (marked_newHeader _))) (by decide))
          (fun ph hph => by
            unfold HeaderFlags at hph ⊢
            dsimp only at hph
            rwa [marked_and (by decide), marked_and (by decide), marked_and (by decide)] at hph)
        obtain ⟨f, hf⟩ := ih hstep hload' hok'
        refine ⟨f, ?_⟩
        rw [List.append_assoc] at hf
        exact hf
      · rw [if_neg hmark]
        have hsame : segmentFlags c = f0 := by
          by_contra hdiff
          exact hmark ⟨hc, hdiff⟩
        have hstep := @Inv.step _ _ _ _ _ h hfo0 ⟨c.index, c.sec, segmentFlags c⟩ f0 hne
          (fun _ => hsame) (fun ph hph => hsame ▸ hph)
        obtain ⟨f, hf⟩ := ih hstep hload' hok'
        refine ⟨f, ?_⟩
        rw [List.append_assoc] at hf
        exact hf

/-- The sections that are not loaded come behind the others. -/
theorem markHeaders_append (f0 : BitVec 32) (order : List Classed) {rest : List Classed}
    (h : ∀ c ∈ rest, ¬ c.cls < 0x700) :
    markHeaders f0 (order ++ rest) =
      markHeaders f0 order ++ rest.map fun c => ⟨c.index, c.sec, 0⟩ := by
  have hrest : ∀ {f : BitVec 32} {rest : List Classed}, (∀ c ∈ rest, ¬ c.cls < 0x700) →
      markHeaders f rest = rest.map fun c => ⟨c.index, c.sec, 0⟩ := by
    intro f rest h
    induction rest with
    | nil => rfl
    | cons c rest ih =>
        have hc := h c List.mem_cons_self
        have hflags : segmentFlags c = 0 := if_neg hc
        unfold markHeaders
        dsimp only
        rw [if_neg fun hand => hc hand.1, ih fun c' hc' => h c' (List.mem_cons_of_mem c hc'), hflags]
        rfl
  induction order generalizing f0 with
  | nil => exact hrest h
  | cons c order ih =>
      rw [List.cons_append]
      unfold markHeaders
      dsimp only
      split
      · rw [ih]
        rfl
      · rw [ih]
        rfl

/-- What a section that is not loaded changes. -/
theorem layoutStep_rest (st : Layout) {slot : Slot} (h : slot.f = 0) :
    (layoutStep unbounded base st slot).phdrs = st.phdrs ∧
      (layoutStep unbounded base st slot).addr = st.addr ∧
      ∃ off, st.fileOffset ≤ off ∧
        (layoutStep unbounded base st slot).placed = st.placed ++ [⟨slot, off, 0⟩] ∧
        (layoutStep unbounded base st slot).fileOffset = off + slot.contents := by
  have hend : (layoutStep unbounded base st slot).fileOffset =
      alignTo st.fileOffset slot.sec.shAddralign + slot.contents := by
    unfold layoutStep
    rw [if_pos h]
    show (if slot.sec.shType ≠ shtNobits then
      alignTo st.fileOffset slot.sec.shAddralign + slot.sec.shSize else
      alignTo st.fileOffset slot.sec.shAddralign) = _ +
        (if slot.sec.shType ≠ shtNobits then (slot.sec.shSize : Int) else 0)
    split
    · rfl
    · exact (Int.add_zero _).symm
  refine ⟨?_, ?_, alignTo st.fileOffset slot.sec.shAddralign,
    le_alignTo _ slot.sec.align_pos, ?_, hend⟩
  · unfold layoutStep
    rw [if_pos h]
  · unfold layoutStep
    rw [if_pos h]
  · unfold layoutStep
    rw [if_pos h]
    rfl

/-- The sections that are not loaded are placed behind the others in the file. -/
theorem rest_placed (slots : List Slot) (hrest : ∀ slot ∈ slots, slot.f = 0) (st : Layout)
    (hfile : ∀ p ∈ st.placed, p.fileEnd ≤ st.fileOffset)
    (hapart : st.placed.Pairwise fun p p' => p.fileEnd ≤ p'.shOffset) :
    (slots.foldl (layoutStep unbounded base) st).phdrs = st.phdrs ∧
      ∃ placed, (slots.foldl (layoutStep unbounded base) st).placed = st.placed ++ placed ∧
        placed.map Placed.slot = slots ∧
        (st.placed ++ placed).Pairwise fun p p' => p.fileEnd ≤ p'.shOffset := by
  induction slots generalizing st with
  | nil => exact ⟨rfl, [], (List.append_nil _).symm, rfl, by rwa [List.append_nil]⟩
  | cons slot slots ih =>
      obtain ⟨hphdrs, -, off, hoff, hplaced, hend⟩ :=
        @layoutStep_rest base st _ (hrest slot List.mem_cons_self)
      have hcontents := slot.contents_nonneg
      have hnew : (⟨slot, off, 0⟩ : Placed).fileEnd = off + slot.contents := rfl
      obtain ⟨hp, placed, hps, hslots, hpair⟩ :=
        ih (fun s hs => hrest s (List.mem_cons_of_mem slot hs)) (layoutStep unbounded base st slot)
          (by
            intro p hp
            rw [hplaced] at hp
            rw [hend]
            rcases List.mem_append.mp hp with hp | hp
            · have := hfile p hp
              omega
            · rw [List.mem_singleton.mp hp, hnew])
          (by
            rw [hplaced]
            refine List.pairwise_append.mpr ⟨hapart, List.pairwise_singleton _ _, ?_⟩
            intro p hp p' hp'
            rw [List.mem_singleton.mp hp']
            exact (hfile p hp).trans hoff)
      refine ⟨hp.trans hphdrs, ⟨slot, off, 0⟩ :: placed, ?_, ?_, ?_⟩
      · rw [List.foldl_cons, hps, hplaced, List.append_assoc]
        rfl
      · rw [List.map_cons, hslots]
      · rw [hplaced, List.append_assoc] at hpair
        exact hpair

end Run

end TccRiscv64.Elf.File
