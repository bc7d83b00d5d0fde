import TccRiscv64.Elf.FileMachine

set_option autoImplicit false

/-! # The segments of a file

A segment maps the bytes of its sections if the file offset and the address have gone up together
since the start of the segment, and the pages match if they have done so modulo the page size. -/

namespace TccRiscv64.Elf.File

/-! ## What the layout has to do -/

def Section.isTls (s : Section) : Bool := s.shFlags &&& shfTls != 0
def Section.isWrite (s : Section) : Bool := s.shFlags &&& shfWrite != 0
def Section.isExec (s : Section) : Bool := s.shFlags &&& shfExecinstr != 0
def Section.hasContents (s : Section) : Bool := s.shType != shtNobits

/-- A segment maps a section, from the bytes of the section and with its permissions. -/
structure Maps (ph : Phdr) (p : Placed) : Prop where
  load : ph.type = .load
  vaddr : ph.vaddr ≤ p.shAddr
  memsz : p.addrEnd ≤ ph.vaddr + ph.memsz
  file : p.slot.sec.hasContents = true → ph.offset ≤ p.shOffset ∧
    p.fileEnd ≤ ph.offset + ph.filesz ∧ p.shOffset - ph.offset = p.shAddr - ph.vaddr
  write : p.slot.sec.isWrite = true → ph.write = true
  exec : p.slot.sec.isExec = true → ph.exec = true

/-- The sections of a file and its program headers, as they have to be. -/
structure LayoutOk (secs : List Section) (placed : List Placed) (phdrs : List Phdr) : Prop where
  all : (placed.map fun p => p.slot.sec).Perm secs
  aligned : ∀ p ∈ placed, p.slot.sec.isAlloc = true →
    (p.slot.sec.shAddralign : Int) ∣ p.shAddr
  apart : placed.Pairwise fun p p' => p.slot.sec.isAlloc = true → p'.slot.sec.isAlloc = true →
    p.addrEnd ≤ p'.shAddr ∨ p'.addrEnd ≤ p.shAddr
  file : placed.Pairwise fun p p' => p.slot.sec.hasContents = true →
    p'.slot.sec.hasContents = true → p.fileEnd ≤ p'.shOffset
  congruent : ∀ p ∈ placed, p.slot.sec.isAlloc = true → p.slot.sec.hasContents = true →
    pageSize ∣ p.shAddr - p.shOffset
  segment : ∀ p ∈ placed, p.slot.sec.isAlloc = true → 0 < p.slot.sec.shSize →
    ∃ pre ph post, phdrs = pre ++ ph :: post ∧ Maps ph p ∧
      ∀ ph' ∈ pre ++ post, ph'.type = .load →
        p.addrEnd ≤ ph'.vaddr ∨ ph'.vaddr + ph'.memsz ≤ p.shAddr

/-- Nothing is thread-local, what comes before a section with contents in memory only is made of
whole pages, and in its own segment there is nothing of the kind, except for as many pages as the
headers of the file have, in the first segment. -/
structure SegmentsFit (config : Config) (secs : List Section) : Prop where
  noTls : ∀ s ∈ secs, s.isAlloc = true → 0 < s.shSize → s.isTls = false
  congruent : ∀ pre slot post, sortSections config.special secs = pre ++ slot :: post →
    slot.sec.isAlloc = true → slot.sec.hasContents = true → pageSize ∣ skipped pre
  mapped : ∀ pre slot post, sortSections config.special secs = pre ++ slot :: post →
    slot.sec.isAlloc = true → slot.sec.hasContents = true → 0 < slot.sec.shSize →
    segBefore pre slot = headerPages (headersEnd config (sortSections config.special secs))
      (countHeaders (pre ++ [slot]))

/-! ## The end of the loop -/

section Final

variable {config : Config} {secs : List Section}

/-- What holds of the loop over all the sections. -/
structure Final (fo0 : Int) (slots : List Slot) (st : Layout) : Prop where
  slots_eq : st.placed.map Placed.slot = slots
  pairs : st.phdrs.Pairwise fun ph ph' => ph'.vaddr + ph'.memsz ≤ ph.vaddr
  aligned : ∀ p ∈ st.placed, p.slot.sec.isAlloc = true →
    (p.slot.sec.shAddralign : Int) ∣ p.shAddr
  apart : st.placed.Pairwise fun p p' => p.slot.sec.isAlloc = true → p'.slot.sec.isAlloc = true →
    p.addrEnd ≤ p'.shAddr
  file : st.placed.Pairwise fun p p' => p.fileEnd ≤ p'.shOffset
  own : ∀ pre p post, st.placed = pre ++ p :: post → p.slot.sec.isAlloc = true →
    pageSize ∣ p.shAddr - p.shOffset - skipped (pre.map Placed.slot) ∧
      ∃ ph ∈ st.phdrs, Own (segBefore (pre.map Placed.slot) p.slot -
        headerPages fo0 (countHeaders (pre.map Placed.slot ++ [p.slot]))) ph p

theorem inv_start (base fo0 : Int) (hbase : pageSize ∣ base) (roinf : RoInf) :
    Inv base fo0 [] 0 ⟨base + fo0 % pageSize, fo0, [], roinf, []⟩ := by
  unfold pageSize at hbase ⊢
  refine ⟨rfl, rfl, ?_, Int.le_refl _, fun _ => ⟨rfl, rfl, rfl⟩, ?_, ?_, ?_, List.Pairwise.nil, ?_,
    List.Pairwise.nil, ?_⟩
  · show base ≤ base + fo0 % 0x1000
    omega
  · intro ph rest hcons
    cases hcons
  · show 0x1000 ∣ base + fo0 % 0x1000 - fo0 - 0
    omega
  · intro ph hph
    exact absurd hph List.not_mem_nil
  · intro p hp
    exact absurd hp List.not_mem_nil
  · intro pre p post hsplit
    cases pre <;> cases hsplit

/-- What is loaded comes before the rest. -/
theorem Sorted.exists_split {order : List Classed} (h : Sorted order) :
    ∃ load rest, order = load ++ rest ∧ (∀ c ∈ load, c.cls < 0x700) ∧
      ∀ c ∈ rest, ¬ c.cls < 0x700 := by
  refine ⟨order.takeWhile fun c => c.cls < 0x700, order.dropWhile fun c => c.cls < 0x700,
    List.takeWhile_append_dropWhile.symm, fun c hc => ?_, fun c hc => ?_⟩
  · simpa using List.mem_takeWhile_imp hc
  · have hsub := h.sublist (List.dropWhile_sublist fun c => decide (c.cls < 0x700))
    cases hrest : order.dropWhile fun c => decide (c.cls < 0x700) with
    | nil =>
        rw [hrest] at hc
        exact absurd hc List.not_mem_nil
    | cons c' rest =>
        have hnot := List.head_dropWhile_not (fun c : Classed => decide (c.cls < 0x700)) (l := order)
          (by rw [hrest]; exact List.cons_ne_nil c' rest)
        simp only [hrest, List.head_cons, decide_eq_false_iff_not] at hnot
        rw [hrest] at hc hsub
        rcases List.mem_cons.mp hc with rfl | hc
        · exact hnot
        · have := (List.pairwise_cons.mp hsub).1 c hc
          omega

theorem final_of_order (base fo0 : Int) (hbase : pageSize ∣ base) (hfo0 : 0 ≤ fo0)
    {order : List Classed} (hsorted : Sorted order) (hok : ∀ c ∈ order, c.Ok) :
    Final fo0 (markHeaders 0 order) ((markHeaders 0 order).foldl (layoutStep unbounded base)
      ⟨base + fo0 % pageSize, fo0, [], ⟨0, 0, 0, 0⟩, []⟩) := by
  obtain ⟨load, rest, rfl, hload, hrest⟩ := hsorted.exists_split
  obtain ⟨f, hinv⟩ := (inv_start base fo0 hbase ⟨0, 0, 0, 0⟩).run hfo0 hload
    fun c hc => hok c (List.mem_append_left rest hc)
  rw [List.nil_append] at hinv
  rw [markHeaders_append 0 load hrest, List.foldl_append]
  generalize (markHeaders 0 load).foldl (layoutStep unbounded base) _ = st at hinv
  obtain ⟨hphdrs, placed, hplaced, hslots, hfile⟩ :=
    @rest_placed base (rest.map fun c => ⟨c.index, c.sec, 0⟩)
      (fun slot hslot => by
        obtain ⟨c, -, rfl⟩ := List.mem_map.mp hslot
        rfl) st (fun p hp => (hinv.places p hp).2.2) (hinv.apart.imp fun hpp => hpp.2)
  -- What is placed with the rest is not loaded.
  have hnot : ∀ p ∈ placed, p.slot.sec.isAlloc = true → False := by
    intro p hp halloc
    have hmem := List.mem_map_of_mem (f := Placed.slot) hp
    rw [hslots] at hmem
    obtain ⟨c, hc, hslot⟩ := List.mem_map.mp hmem
    rw [← hslot] at halloc
    exact hrest c hc ((hok c (List.mem_append_right load hc)).mpr halloc)
  refine ⟨?_, ?_, ?_, ?_, ?_, ?_⟩
  · rw [hplaced, List.map_append, hinv.slots, hslots]
  · rw [hphdrs]
    exact hinv.pairs
  · intro p hp halloc
    rw [hplaced] at hp
    rcases List.mem_append.mp hp with hp | hp
    · exact (hinv.places p hp).1
    · exact absurd halloc (hnot p hp)
  · rw [hplaced]
    refine List.pairwise_append.mpr ⟨hinv.apart.imp fun hpp _ _ => hpp.1, ?_, ?_⟩
    · exact List.Pairwise.imp_of_mem (fun hp _ _ halloc _ => absurd halloc (hnot _ hp))
        (List.pairwise_of_forall (fun _ _ => trivial : ∀ p p' : Placed, True))
    · exact fun p _ p' hp' _ halloc => absurd halloc (hnot p' hp')
  · rw [hplaced]
    exact hfile
  · intro pre p post hsplit halloc
    rw [hplaced] at hsplit
    rw [hphdrs]
    rcases List.append_eq_append_iff.mp hsplit with ⟨mid, -, hmid⟩ | ⟨mid, hmid, hrest'⟩
    · exact absurd halloc (hnot p (hmid ▸ List.mem_append_right mid List.mem_cons_self))
    · cases mid with
      | nil => exact absurd halloc (hnot p (by
          rw [List.nil_append] at hrest'
          exact hrest' ▸ List.mem_cons_self))
      | cons p' mid =>
          obtain ⟨rfl, -⟩ := List.cons.inj hrest'
          exact hinv.own pre p mid hmid

theorem layoutLoop_final (config : Config) (secs : List Section) :
    Final (headersEnd config (sortSections config.special secs))
      (sortSections config.special secs)
      (layoutLoop unbounded config (sortSections config.special secs)) := by
  have hbase : pageSize ∣ baseAddr config := by
    unfold baseAddr startAddr pageSize
    split <;> decide
  exact final_of_order (baseAddr config) _ hbase (headersEnd_nonneg config _)
    (sortClasses_spec config.special secs).2 fun c hc => ok_of_mem_sortClasses hc

end Final

/-! ## The headers -/

section Headers

variable {config : Config} {slots : List Slot} {st : Layout}

theorem fillPhdr_type {type : PhType} {write : Bool} {placed : List Placed} {i : Nat} {ph : Phdr}
    (h : fillPhdr type write placed i = some ph) : ph.type = type := by
  obtain ⟨p, -, rfl⟩ := Option.map_eq_some_iff.mp h
  rfl

/-- What `PT_LOAD` headers there are. -/
theorem programHeaders_split (config : Config) (slots : List Slot) (st : Layout) :
    ∃ front others, programHeaders config slots st = front ++ st.phdrs.reverse ++ others ∧
      ∀ ph ∈ front ++ others, ph.type ≠ .load := by
  refine ⟨_, _, rfl, fun ph hph htype => ?_⟩
  rcases List.mem_append.mp hph with hph | hph
  · cases hinterp : config.special.interp with
    | none =>
        rw [hinterp] at hph
        exact absurd hph List.not_mem_nil
    | some i =>
        rw [hinterp] at hph
        rcases List.mem_cons.mp hph with rfl | hph
        · cases htype
        · have hfill := fillPhdr_type (Option.mem_toList.mp hph)
          rw [htype] at hfill
          cases hfill
  · unfold otherHeaders at hph
    rcases List.mem_append.mp hph with hph | hph
    · rcases List.mem_append.mp hph with hph | hph
      · obtain ⟨i, -, hfill⟩ := Option.bind_eq_some_iff.mp (Option.mem_toList.mp hph)
        have hfill := fillPhdr_type hfill
        rw [htype] at hfill
        cases hfill
      · obtain ⟨i, -, hfill⟩ := Option.bind_eq_some_iff.mp (Option.mem_toList.mp hph)
        have hfill := fillPhdr_type hfill
        rw [htype] at hfill
        cases hfill
    · split at hph
      · rw [List.mem_singleton.mp hph] at htype
        cases htype
      · exact absurd hph List.not_mem_nil

theorem mem_phdrs_of_load {ph : Phdr} (h : ph ∈ programHeaders config slots st)
    (hload : ph.type = .load) : ph ∈ st.phdrs := by
  obtain ⟨front, others, heq, hother⟩ := programHeaders_split config slots st
  rw [heq] at h
  rcases List.mem_append.mp h with h | h
  · rcases List.mem_append.mp h with h | h
    · exact absurd hload (hother ph (List.mem_append_left others h))
    · exact List.mem_reverse.mp h
  · exact absurd hload (hother ph (List.mem_append_right front h))

/-- The headers of two segments are apart. -/
theorem apart_of_mem (hpairs : st.phdrs.Pairwise fun ph ph' => ph'.vaddr + ph'.memsz ≤ ph.vaddr)
    {ph : Phdr} (h : ph ∈ st.phdrs) :
    ∃ pre post, programHeaders config slots st = pre ++ ph :: post ∧
      ∀ ph' ∈ pre ++ post, ph'.type = .load →
        ph.vaddr + ph.memsz ≤ ph'.vaddr ∨ ph'.vaddr + ph'.memsz ≤ ph.vaddr := by
  obtain ⟨front, others, heq, hother⟩ := programHeaders_split config slots st
  obtain ⟨newer, older, hsplit⟩ := List.append_of_mem h
  rw [hsplit] at hpairs
  have hpairs' := List.pairwise_append.mp hpairs
  refine ⟨front ++ older.reverse, newer.reverse ++ others, ?_, fun ph' hph' hload => ?_⟩
  · rw [heq, hsplit]
    simp
  · have hcases : ph' ∈ front ++ others ∨ ph' ∈ older ∨ ph' ∈ newer := by
      simp only [List.mem_append, List.mem_reverse] at hph' ⊢
      tauto
    rcases hcases with hph' | hph' | hph'
    · exact absurd hload (hother ph' hph')
    · exact .inr ((List.pairwise_cons.mp hpairs'.2.1).1 ph' hph')
    · exact .inl (hpairs'.2.2 ph' hph' ph List.mem_cons_self)

/-- Two headers of segments are the same or apart. -/
theorem eq_or_apart (hpairs : st.phdrs.Pairwise fun ph ph' => ph'.vaddr + ph'.memsz ≤ ph.vaddr)
    {ph ph' : Phdr} (h : ph ∈ st.phdrs) (h' : ph' ∈ st.phdrs) :
    ph' = ph ∨ ph.vaddr + ph.memsz ≤ ph'.vaddr ∨ ph'.vaddr + ph'.memsz ≤ ph.vaddr := by
  obtain ⟨newer, older, hsplit⟩ := List.append_of_mem h
  rw [hsplit] at hpairs h'
  have hpairs' := List.pairwise_append.mp hpairs
  rcases List.mem_append.mp h' with h' | h'
  · exact .inr (.inl (hpairs'.2.2 ph' h' ph List.mem_cons_self))
  · rcases List.mem_cons.mp h' with rfl | h'
    · exact .inl rfl
    · exact .inr (.inr ((List.pairwise_cons.mp hpairs'.2.1).1 ph' h'))

end Headers

/-! ## When the layout is right -/

section Right

variable {config : Config} {secs : List Section} {st : Layout} {p : Placed} {ph : Phdr}
  {skew : Int}

/-- A segment maps its section if there is no skew and it is not thread-local. -/
theorem Own.maps (h : Own skew ph p) (hok : p.slot.Ok) (halloc : p.slot.sec.isAlloc = true)
    (htls : p.slot.sec.isTls = false) (hskew : p.slot.sec.hasContents = true → skew = 0) :
    Maps ph p := by
  obtain ⟨-, hbits⟩ := hok.2 halloc
  obtain ⟨htype, hwrite, hexec⟩ := h.flags
  rw [hbits shfTls (by simp)] at htype
  rw [hbits shfWrite (by simp)] at hwrite
  rw [hbits shfExecinstr (by simp)] at hexec
  refine ⟨?_, h.vaddr, h.memsz, fun hcontents => ⟨h.offset, h.filesz, ?_⟩, fun hw => ?_,
    fun hx => ?_⟩
  · rw [htype, if_neg]
    unfold Section.isTls at htls
    simpa using htls
  · have := h.skew
    have := hskew hcontents
    omega
  · rw [hwrite]
    exact hw
  · rw [hexec]
    exact hx

/-- A section with a size that some segment maps is mapped by its own. -/
theorem Own.of_maps (h : Own skew ph p) (hok : p.slot.Ok) (halloc : p.slot.sec.isAlloc = true)
    (hsize : 0 < p.slot.sec.shSize) (hph : ph ∈ st.phdrs)
    (hpairs : st.phdrs.Pairwise fun ph ph' => ph'.vaddr + ph'.memsz ≤ ph.vaddr) {ph' : Phdr}
    (hph' : ph' ∈ st.phdrs) (hmaps : Maps ph' p) :
    p.slot.sec.isTls = false ∧ (p.slot.sec.hasContents = true → skew = 0) := by
  have hv := h.vaddr
  have hm := h.memsz
  have hv' := hmaps.vaddr
  have hm' := hmaps.memsz
  have hend : p.addrEnd = p.shAddr + p.slot.sec.shSize := rfl
  obtain rfl | hapart := eq_or_apart hpairs hph hph'
  · constructor
    · obtain ⟨-, hbits⟩ := hok.2 halloc
      have htype := h.flags.1
      rw [hbits shfTls (by simp), hmaps.load] at htype
      unfold Section.isTls
      by_contra htls
      rw [if_pos (by simpa using htls)] at htype
      cases htype
    · intro hcontents
      have := h.skew
      have := (hmaps.file hcontents).2.2
      omega
  · omega

end Right

/-- The layout is right if and only if no segment leaves out anything of its file that its
sections have in memory, and no section is thread-local. -/
theorem layoutOk_iff (config : Config) (secs : List Section) (h : Unwrapped config secs) :
    LayoutOk secs (layoutSections config secs).1 (layoutSections config secs).2 ↔
      SegmentsFit config secs := by
  have hfinal := layoutLoop_final config secs
  unfold layoutSections
  dsimp only
  rw [layoutLoop_machine h]
  generalize layoutLoop unbounded config (sortSections config.special secs) = st at hfinal
  have hslotOk : ∀ p ∈ st.placed, p.slot.Ok := fun p hp =>
    sortSections_ok (hfinal.slots_eq ▸ List.mem_map_of_mem (f := Placed.slot) hp)
  have hperm := sortSections_perm config.special secs
  rw [← hfinal.slots_eq, List.map_map] at hperm
  constructor
  · intro hok
    refine ⟨fun s hs halloc hsize => ?_, fun pre slot post hsplit halloc hcontents => ?_,
      fun pre slot post hsplit halloc hcontents hsize => ?_⟩
    · obtain ⟨p, hp, rfl⟩ := List.mem_map.mp (hperm.mem_iff.mpr hs)
      obtain ⟨pre, post, hsplit⟩ := List.append_of_mem hp
      obtain ⟨-, ph, hph, hown⟩ := hfinal.own pre p post hsplit halloc
      obtain ⟨_, ph', _, hphdrs, hmaps, -⟩ := hok.segment p hp halloc hsize
      have hph' := mem_phdrs_of_load
        (hphdrs ▸ List.mem_append_right _ List.mem_cons_self) hmaps.load
      exact (hown.of_maps (hslotOk p hp) halloc hsize hph hfinal.pairs hph' hmaps).1
    · rw [← hfinal.slots_eq] at hsplit
      obtain ⟨pre, rest, hplaced, rfl, hrest⟩ := List.map_eq_append_iff.mp hsplit
      obtain ⟨p, post, rfl, rfl, rfl⟩ := List.map_eq_cons_iff.mp hrest
      have hp : p ∈ st.placed := hplaced ▸ List.mem_append_right _ List.mem_cons_self
      obtain ⟨hmod, -⟩ := hfinal.own pre p post hplaced halloc
      have hcong := hok.congruent p hp halloc hcontents
      unfold pageSize at hmod hcong ⊢
      omega
    · have hsorted := hsplit
      rw [← hfinal.slots_eq] at hsplit
      obtain ⟨pre, rest, hplaced, rfl, hrest⟩ := List.map_eq_append_iff.mp hsplit
      obtain ⟨p, post, rfl, rfl, rfl⟩ := List.map_eq_cons_iff.mp hrest
      have hp : p ∈ st.placed := hplaced ▸ List.mem_append_right _ List.mem_cons_self
      obtain ⟨-, ph, hph, hown⟩ := hfinal.own pre p post hplaced halloc
      obtain ⟨_, ph', _, hphdrs, hmaps, -⟩ := hok.segment p hp halloc hsize
      have hph' := mem_phdrs_of_load
        (hphdrs ▸ List.mem_append_right _ List.mem_cons_self) hmaps.load
      have hskew :=
        (hown.of_maps (hslotOk p hp) halloc hsize hph hfinal.pairs hph' hmaps).2 hcontents
      omega
  · intro hfit
    refine ⟨hperm, hfinal.aligned, hfinal.apart.imp fun hpp ha ha' => .inl (hpp ha ha'),
      hfinal.file.imp fun hpp _ _ => hpp, fun p hp halloc hcontents => ?_,
      fun p hp halloc hsize => ?_⟩
    · obtain ⟨pre, post, hsplit⟩ := List.append_of_mem hp
      obtain ⟨hmod, -⟩ := hfinal.own pre p post hsplit halloc
      have hcong := hfit.congruent (pre.map Placed.slot) p.slot (post.map Placed.slot)
        (by rw [← hfinal.slots_eq, hsplit, List.map_append, List.map_cons]) halloc hcontents
      unfold pageSize at hmod hcong ⊢
      omega
    · obtain ⟨pre, post, hsplit⟩ := List.append_of_mem hp
      obtain ⟨-, ph, hph, hown⟩ := hfinal.own pre p post hsplit halloc
      obtain ⟨before, behind, hphdrs, hapart⟩ :=
        @apart_of_mem config (sortSections config.special secs) _
          hfinal.pairs _ hph
      have hsec : p.slot.sec ∈ secs :=
        hperm.mem_iff.mp (List.mem_map_of_mem (f := fun p : Placed => p.slot.sec) hp)
      have htls := hfit.noTls p.slot.sec hsec halloc hsize
      refine ⟨before, ph, behind, hphdrs, hown.maps (hslotOk p hp) halloc htls fun hcontents => ?_,
        fun ph' hph' hload => ?_⟩
      · have hmapped := hfit.mapped (pre.map Placed.slot) p.slot (post.map Placed.slot)
          (by rw [← hfinal.slots_eq, hsplit, List.map_append, List.map_cons]) halloc hcontents
          hsize
        omega
      · have hv := hown.vaddr
        have hm := hown.memsz
        rcases hapart ph' hph' hload with hle | hle
        · exact .inl (hm.trans hle)
        · exact .inr (hle.trans hv)

/-- An executable with `.text` and nothing else. -/
def textSection : Section := ⟨".text", 1, 1, 0x6, 4, 2, 1, by decide, by decide⟩

/-- An executable that is linked statically. -/
def staticConfig : Config :=
  ⟨⟨none, none, none, none, none, none⟩, false, none, none, true⟩

theorem layoutOk_iff_text :
    LayoutOk [textSection] (layoutSections staticConfig [textSection]).1
        (layoutSections staticConfig [textSection]).2 ↔
      SegmentsFit staticConfig [textSection] :=
  layoutOk_iff staticConfig [textSection] ⟨by decide, by decide⟩

/-- `.tdata` with 4 bytes, writable and thread-local. -/
def tdataSection : Section := ⟨".tdata", 1, 1, 0x403, 4, 4, 2, by decide, by decide⟩

/-- No `PT_LOAD` header is made for a thread-local section. -/
theorem tdataSection_not_layoutOk :
    Unwrapped staticConfig [tdataSection] ∧
      ¬ LayoutOk [tdataSection] (layoutSections staticConfig [tdataSection]).1
        (layoutSections staticConfig [tdataSection]).2 := by
  refine ⟨⟨by decide, by decide⟩, fun hok => ?_⟩
  have htypes : (layoutSections staticConfig [tdataSection]).2.map Phdr.type =
      [.tls, .gnuRelro] := by
    decide
  obtain ⟨p, hp, hsec⟩ := List.mem_map.mp (hok.all.mem_iff.mpr List.mem_cons_self)
  have hsec : p.slot.sec = tdataSection := hsec
  obtain ⟨pre, ph, post, hphdrs, hmaps, -⟩ :=
    hok.segment p hp (by rw [hsec]; decide) (by rw [hsec]; decide)
  have hmem := List.mem_map_of_mem (f := Phdr.type)
    (hphdrs ▸ List.mem_append_right pre List.mem_cons_self :
      ph ∈ (layoutSections staticConfig [tdataSection]).2)
  rw [htypes, hmaps.load] at hmem
  exact absurd hmem (by decide)

end TccRiscv64.Elf.File
