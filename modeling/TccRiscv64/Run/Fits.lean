import TccRiscv64.Run.Memory

set_option autoImplicit false

/-! # When a program fits into its memory

What is placed and protected ends where the items end, so the worst address that `malloc` may
return decides about the room. -/

namespace TccRiscv64.Run

open Data

variable {page : PageSize} {mem : BitVec 64} {secs out : List Section} {q size : Nat}

theorem forall₂_mem_right {r : Section → Section → Prop} (h : List.Forall₂ r secs out)
    {t : Section} (ht : t ∈ out) : ∃ s ∈ secs, r s t := by
  induction h with
  | nil => exact absurd ht List.not_mem_nil
  | @cons s t' secs out hst _ ih =>
      rcases List.mem_cons.mp ht with rfl | ht
      · exact ⟨s, List.mem_cons_self, hst⟩
      · obtain ⟨s', hs', hr⟩ := ih ht
        exact ⟨s', List.mem_cons_of_mem s hs', hr⟩

theorem forall₂_mem_left {r : Section → Section → Prop} (h : List.Forall₂ r secs out)
    {s : Section} (hs : s ∈ secs) : ∃ t ∈ out, r s t :=
  forall₂_mem_right (r := fun t s => r s t) h.flip hs

theorem forall₂_and {r r' : Section → Section → Prop} (h : List.Forall₂ r secs out)
    (h' : List.Forall₂ r' secs out) :
    List.Forall₂ (fun s t => r s t ∧ r' s t ∧ t ∈ out) secs out := by
  induction h with
  | nil => exact List.Forall₂.nil
  | cons hst _ ih =>
      cases h' with
      | cons hst' hrest =>
          refine List.Forall₂.cons ⟨hst, hst', List.mem_cons_self⟩ ((ih hrest).imp ?_)
          exact fun s t hst => ⟨hst.1, hst.2.1, List.mem_cons_of_mem _ hst.2.2⟩

/-! ## Enough room -/

section Enough

theorem PlacedAt.noWx (h : PlacedAt page mem secs out) (hfits : RunFits page q secs) {t : Section}
    (ht : t ∈ out) (halloc : t.isAlloc = true) : t.isWrite = true → t.isExec = false := by
  obtain ⟨s, hs, hflags, -, -⟩ := forall₂_mem_right h.kept ht
  obtain ⟨ha, hw, hx⟩ := Section.isAlloc_congr hflags
  rw [hw, hx]
  exact hfits.noWx s hs (ha ▸ halloc)

/-- A section of the first group is behind the start of the first page. -/
theorem PlacedAt.rx_range (h : PlacedAt page mem secs out) (hmem : mem ≠ 0)
    (hend : finish mem.toNat ((groupSeq page 0 secs).map Section.item) < mem.toNat + 2 ^ 32)
    (h64 : finish mem.toNat ((groupSeq page 0 secs).map Section.item) < 2 ^ 64) {t : Section}
    (ht : t ∈ out) (hrx : t.inGroup 0 = true) :
    (∃ s rest, secs.filter (Section.inGroup 0) = s :: rest) ∧
      alignUp mem.toNat page.size.toNat ≤ t.shAddr.toNat ∧
      t.shAddr.toNat + t.dataOffset.toNat ≤
        finish mem.toNat ((groupSeq page 0 secs).map Section.item) := by
  have hfilter : t ∈ out.filter (Section.inGroup 0) := List.mem_filter.mpr ⟨ht, hrx⟩
  rw [h.rx] at hfilter
  have hplaced := (@placeSeq_eq mem 0 (groupSeq page 0 secs) hend h64).2 hmem
  have hmap := List.mem_map_of_mem (f := fun s : Section => (s.shAddr.toNat, s.item)) hfilter
  rw [hplaced] at hmap
  have hin := placed_mem hmap
  cases hsecs : secs.filter (Section.inGroup 0) with
  | nil =>
      unfold groupSeq at hfilter
      rw [hsecs] at hfilter
      exact absurd hfilter List.not_mem_nil
  | cons s rest =>
      refine ⟨⟨s, rest, rfl⟩, ?_, hin.2.1⟩
      rw [groupSeq_zero_cons hsecs] at hmap
      rcases List.mem_cons.mp hmap with hhead | hrest
      · exact (congrArg Prod.fst hhead).ge
      · exact (Nat.le_add_right _ _).trans (placed_mem hrest).1

theorem finish_exec_le (x : Nat) :
    finish x ((groupSeq page 0 secs).map Section.item) ≤ finish x (items page secs) := by
  unfold items ordered
  rw [List.map_append, finish_append]
  exact le_finish _ _

/-- The layout of what fits. -/
theorem RunFits.laidOut (h : RunFits page q secs) (hsize : runSize page secs = some size)
    (hm : MallocAt q mem size) : LaidOut page secs (runSections page mem secs) mem.toNat size := by
  obtain ⟨hmem, hdvd, h64⟩ := hm
  have hlt := runSize_lt hsize
  have hroom := runSize_eq hsize h.small
  have hzero : mem.toNat ≡ 0 [MOD 2 ^ q] := Nat.modEq_zero_iff_dvd.mpr hdvd
  have hfinish : finish mem.toNat (items page secs) ≤ mem.toNat + size :=
    (finish_le_worst _ hzero).trans (Nat.add_le_add_left (hroom ▸ h.ends) _)
  have hexec : finish mem.toNat (execItems page secs) ≤ mem.toNat + size :=
    (finish_le_worst _ hzero).trans (Nat.add_le_add_left (hroom ▸ h.pageEnds) _)
  have hrxEnd := (@finish_exec_le page secs mem.toNat).trans hfinish
  have hp := runSections_placedAt page mem secs
  have hplaced : ∀ t ∈ runSections page mem secs, t.isAlloc = true →
      (t.shAddr.toNat, t.item) ∈ placed mem.toNat (items page secs) := by
    intro t ht halloc
    have hgroup := Section.inGroup_of_alloc halloc (hp.noWx h ht halloc)
    rw [Bool.or_eq_true, Bool.or_eq_true] at hgroup
    rcases hgroup with hg | hg | hg
    · exact hp.mem_placed hmem (by omega) (by omega) (k := 0) (by decide) ht hg
    · exact hp.mem_placed hmem (by omega) (by omega) (k := 1) (by decide) ht hg
    · exact hp.mem_placed hmem (by omega) (by omega) (k := 2) (by decide) ht hg
  refine ⟨fun t ht halloc => ?_, ?_, ?_, fun r hr => ?_, fun t ht halloc hx b hlo hhi => ?_⟩
  · obtain ⟨hlo, hhi, -⟩ := placed_mem (hplaced t ht halloc)
    exact ⟨hlo, hhi.trans hfinish⟩
  · refine (forall₂_and (runSections_dvd mem h.firstExec) hp.kept).imp fun s t hst halloc => ?_
    obtain ⟨hdvd', hkept, ht⟩ := hst
    have halloc' : t.isAlloc = true := (Section.isAlloc_congr hkept.1).1.trans halloc
    exact Nat.dvd_trans hdvd' (placed_mem (hplaced t ht halloc')).2.2
  · have hpair := List.pairwise_filter.mp (hp.pairwise hmem (by omega) (by omega))
    refine List.Pairwise.imp_of_mem ?_ hpair
    intro s t hs ht hst hsa hta
    exact hst (Section.inGroup_of_alloc hsa (hp.noWx h hs hsa))
      (Section.inGroup_of_alloc hta (hp.noWx h ht hta))
  · cases hsecs : secs.filter (Section.inGroup 0) with
    | nil =>
        rw [hp.protectPages_nil hsecs] at hr
        exact absurd hr List.not_mem_nil
    | cons s rest =>
        obtain ⟨hnone, hsome⟩ := hp.protectPages_cons hmem hsecs (by omega) (by omega)
        by_cases heq : finish mem.toNat ((groupSeq page 0 secs).map Section.item) =
            alignUp mem.toNat page.size.toNat
        · rw [hnone heq] at hr
          exact absurd hr List.not_mem_nil
        · obtain ⟨addr, n, hpages, haddr, hn⟩ := hsome heq
          rw [hpages] at hr
          obtain rfl := List.mem_singleton.mp hr
          have := le_alignUp mem.toNat page.size.toNat
          exact ⟨by show mem.toNat ≤ addr.toNat; omega, by
            show addr.toNat + n.toNat ≤ _
            omega⟩
  · have hrx := Section.inGroup_zero halloc hx (hp.noWx h ht halloc)
    obtain ⟨⟨s, rest, hsecs⟩, hstart, hend⟩ := hp.rx_range hmem (by omega) (by omega) ht hrx
    obtain ⟨-, hsome⟩ := hp.protectPages_cons hmem hsecs (by omega) (by omega)
    obtain ⟨addr, n, hpages, haddr, hn⟩ := hsome (by omega)
    have hup := le_alignUp (finish mem.toNat ((groupSeq page 0 secs).map Section.item))
      page.size.toNat
    rw [finish_execItems] at hn
    refine ⟨(addr, n, 3), hpages ▸ List.mem_singleton.mpr rfl, rfl, ?_, ?_⟩
    · show addr.toNat ≤ b
      omega
    · show b < addr.toNat + n.toNat
      omega

end Enough

/-! ## Too little room -/

section Little

theorem toNat_ofNat_lt {x : Nat} (h : x < 2 ^ 33) : (BitVec.ofNat 64 x).toNat = x := by
  rw [BitVec.toNat_ofNat]
  omega

/-- An address below 8 GiB is one that `malloc` may return. -/
theorem mallocAt_ofNat {x : Nat} (hpos : 0 < x) (hx : x < 2 ^ 33) (hdvd : 2 ^ q ∣ x)
    (hsize : size < 2 ^ 31) : MallocAt q (BitVec.ofNat 64 x) size := by
  have hnat := toNat_ofNat_lt hx
  refine ⟨fun hz => ?_, by rwa [hnat], by omega⟩
  rw [hz] at hnat
  exact absurd hnat (by show 0 ≠ x; omega)

/-- All alignments divide the half of the offsets. -/
theorem items_dvd : ∀ it ∈ items page secs, it.align ∣ 2 ^ 31 := by
  intro it hit
  obtain ⟨s, -, rfl⟩ := List.mem_map.mp hit
  exact s.align_dvd

theorem execItems_dvd : ∀ it ∈ execItems page secs, it.align ∣ 2 ^ 31 := by
  intro it hit
  rcases List.mem_append.mp hit with hit | hit
  · obtain ⟨s, -, rfl⟩ := List.mem_map.mp hit
    exact s.align_dvd
  · rw [List.mem_singleton.mp hit]
    exact page.dvd

/-- From any address the items take less than the offsets can count. -/
theorem finish_lt {l : List Item} (hl : ∀ it ∈ l, it.align ∣ 2 ^ 31) (h : finish 0 l ≤ 2 ^ 31)
    (x : Nat) : finish x l < x + 2 ^ 32 := by
  have hup := alignUp_lt x (a := 2 ^ 31) (by decide)
  have hle := finish_mono (le_alignUp x (2 ^ 31)) l
  have hdvd : 2 ^ 31 ∣ alignUp x (2 ^ 31) := dvd_alignUp x (by decide)
  have hadd := finish_add (k := alignUp x (2 ^ 31)) (fun it hit => (hl it hit).trans hdvd) 0
  rw [Nat.add_zero] at hadd
  omega

theorem Section.isAlloc_of_inGroup {s : Section} {k : Nat} (hk : k < 3)
    (h : s.inGroup k = true) : s.isAlloc = true := by
  obtain ⟨hmask, ha, -, -⟩ := flags_low s.shFlags
  unfold Section.inGroup at h
  unfold Section.isAlloc
  rw [hmask] at h
  rw [ha]
  revert h
  generalize s.shFlags.setWidth 3 = x
  match k, hk with
  | 0, _ => revert x; decide
  | 1, _ => revert x; decide
  | 2, _ => revert x; decide

/-- What is placed is a section of the result. -/
theorem PlacedAt.mem_of_ordered (h : PlacedAt page mem secs out) {t : Section}
    (ht : t ∈ (placeSeq mem 0 (ordered page secs)).1) : t ∈ out ∧ t.isAlloc = true := by
  rw [← h.ordered_eq] at ht
  have hgroup : ∃ k < 3, t ∈ out.filter (Section.inGroup k) := by
    rcases List.mem_append.mp ht with ht | ht
    · exact ⟨0, by decide, ht⟩
    · rcases List.mem_append.mp ht with ht | ht
      · exact ⟨1, by decide, ht⟩
      · exact ⟨2, by decide, ht⟩
  obtain ⟨k, hk, hfilter⟩ := hgroup
  obtain ⟨ht, htk⟩ := List.mem_filter.mp hfilter
  exact ⟨ht, Section.isAlloc_of_inGroup hk htk⟩

variable (hsize : runSize page secs = some size)
  (hall : ∀ mem : BitVec 64, MallocAt q mem size →
    LaidOut page secs (runSections page mem secs) mem.toNat size)

include hsize hall

/-- A writable and executable section has the address that it had. -/
theorem noWx_of_laidOut (hq : 2 ^ q ∣ 2 ^ 31) {s : Section} (hs : s ∈ secs)
    (halloc : s.isAlloc = true) (hwrite : s.isWrite = true) : s.isExec = false := by
  by_contra hexec
  have hexec : s.isExec = true := Bool.not_eq_false _ ▸ hexec
  have hlt := runSize_lt hsize
  have hin : ∀ mem : BitVec 64, MallocAt q mem size →
      mem.toNat ≤ s.shAddr.toNat ∧ s.shAddr.toNat ≤ mem.toNat + size := by
    intro mem hm
    obtain ⟨t, ht, -, -, hkept⟩ := forall₂_mem_left (runSections_placedAt page mem secs).kept hs
    obtain rfl := hkept (Section.inGroup_of_wx hwrite hexec)
    obtain ⟨hlo, hhi⟩ := (hall mem hm).inside _ ht halloc
    exact ⟨hlo, (Nat.le_add_right _ _).trans hhi⟩
  have h1 := hin _ (mallocAt_ofNat (x := 2 ^ 31) (by decide) (by decide) hq hlt)
  have h2 := hin _ (mallocAt_ofNat (x := 2 ^ 32) (by decide) (by decide)
    (hq.trans (by decide)) hlt)
  rw [toNat_ofNat_lt (by decide)] at h1 h2
  omega

/-- The sections that are measured end in 31 bits. -/
theorem small_of_laidOut (hq : 2 ^ q ∣ 2 ^ 31) : finish 0 (items page secs) ≤ 2 ^ 31 := by
  by_contra hbig
  have hlt := runSize_lt hsize
  obtain ⟨pre, it, post, hitems, hpre, hbehind⟩ :=
    exists_first_behind (x := 0) (by decide) (Nat.not_le.mp hbig)
  obtain ⟨spre, srest, hordered, rfl, hrest⟩ := List.map_eq_append_iff.mp hitems
  obtain ⟨s, spost, rfl, rfl, rfl⟩ := List.map_eq_cons_iff.mp hrest
  have hm : MallocAt q (BitVec.ofNat 64 (2 ^ 31)) size :=
    mallocAt_ofNat (by decide) (by decide) hq hlt
  have hmem : (BitVec.ofNat 64 (2 ^ 31)).toNat = 2 ^ 31 := by decide
  generalize BitVec.ofNat 64 (2 ^ 31) = mem at hm hmem
  -- At `2 ^ 31` everything is placed as it was at 0.
  have hdvd : ∀ it ∈ spre.map Section.item, it.align ∣ 2 ^ 31 := by
    intro it hit
    obtain ⟨s', -, rfl⟩ := List.mem_map.mp hit
    exact s'.align_dvd
  have hshift : finish (mem.toNat + 0) (spre.map Section.item) =
      2 ^ 31 + finish 0 (spre.map Section.item) := by
    rw [hmem]
    exact finish_add hdvd 0
  obtain ⟨hoff, -⟩ := @placeSeq_eq mem 0 spre
    (show finish (mem.toNat + 0) _ < _ by omega) (show finish (mem.toNat + 0) _ < _ by omega)
  have hoff : mem.toNat + (placeSeq mem 0 spre).2.toNat =
      2 ^ 31 + finish 0 (spre.map Section.item) := hoff.trans hshift
  have hstart : alignUp (2 ^ 31 + finish 0 (spre.map Section.item)) s.item.align =
      2 ^ 31 + alignUp (finish 0 (spre.map Section.item)) s.item.align :=
    alignUp_add s.align_dvd _
  have hle : alignUp (finish 0 (spre.map Section.item)) s.item.align ≤ 2 ^ 31 :=
    alignUp_le s.item.pos hpre s.align_dvd
  have hend : 2 ^ 31 < alignUp (finish 0 (spre.map Section.item)) s.item.align +
      s.dataOffset.toNat := by
    rw [finish_append] at hbehind
    exact hbehind
  have hin : (assign mem (placeSeq mem 0 spre).2 s).1 ∈
      (placeSeq mem 0 (ordered page secs)).1 := by
    rw [hordered, placeSeq_append]
    exact List.mem_append_right _ List.mem_cons_self
  generalize (placeSeq mem 0 spre).2 = off at hoff hin
  have haddr := @assign_offset mem off s (by rw [hoff, hstart]; omega)
    (by omega)
  rw [hoff, hstart] at haddr
  obtain ⟨ht, halloc⟩ := (runSections_placedAt page mem secs).mem_of_ordered hin
  have hinside := ((hall mem hm).inside _ ht halloc).2
  have hplace : (assign mem off s).1.shAddr.toNat =
      2 ^ 31 + alignUp (finish 0 (spre.map Section.item)) s.item.align := by
    show (if mem ≠ 0 then mem + BitVec.setWidth 64 _ else 0).toNat = _
    rw [if_pos hm.1, BitVec.toNat_add, BitVec.toNat_setWidth, haddr]
    omega
  rw [hplace, assign_dataOffset] at hinside
  omega

/-- The first executable section is only aligned to a page. -/
theorem firstExec_of_laidOut (hq : 2 ^ q ≤ page.size.toNat) {s : Section}
    (hs : (secs.filter (Section.inGroup 0)).head? = some s) :
    s.shAddralign.toNat ≤ page.size.toNat := by
  have hlt := runSize_lt hsize
  have hdvd : 2 ^ q ∣ page.size.toNat := by
    obtain ⟨k, -, hk⟩ := page.pow
    rw [hk] at hq ⊢
    exact Nat.pow_dvd_pow 2 ((Nat.pow_le_pow_iff_right (by decide)).mp hq)
  have hpage := Nat.le_of_dvd (by decide) page.dvd
  have hm : MallocAt q (BitVec.ofNat 64 page.size.toNat) size :=
    mallocAt_ofNat page.pos (by omega) hdvd hlt
  have hmem : (BitVec.ofNat 64 page.size.toNat).toNat = page.size.toNat :=
    toNat_ofNat_lt (by omega)
  generalize BitVec.ofNat 64 page.size.toNat = mem at hm hmem
  have hp := runSections_placedAt page mem secs
  have hfirst : ∀ {l l' : List Section},
      List.Forall₂ (fun s t => Kept [0, 1, 2] s t ∧
        (s.isAlloc = true → s.shAddralign.toNat ∣ t.shAddr.toNat) ∧
        t ∈ runSections page mem secs) l l' →
      (l.filter (Section.inGroup 0)).head? = some s →
      ∃ t, (l'.filter (Section.inGroup 0)).head? = some t ∧
        (s.isAlloc = true → s.shAddralign.toNat ∣ t.shAddr.toNat) := by
    intro l l' h hs
    induction h with
    | nil => cases hs
    | @cons a b l l' hab _ ih =>
        have hflag := Section.inGroup_congr hab.1.1 0
        by_cases ha : a.inGroup 0 = true
        · rw [List.filter_cons_of_pos ha] at hs
          obtain rfl := Option.some.inj hs
          rw [List.filter_cons_of_pos (hflag.trans ha)]
          exact ⟨b, rfl, hab.2.1⟩
        · rw [List.filter_cons_of_neg ha] at hs
          rw [List.filter_cons_of_neg (by rw [hflag]; exact ha)]
          exact ih hs
  obtain ⟨t, ht, haligned⟩ := hfirst (forall₂_and hp.kept (hall mem hm).aligned) hs
  cases hsecs : secs.filter (Section.inGroup 0) with
  | nil =>
      rw [hsecs] at hs
      cases hs
  | cons s' rest =>
      have hgroup : s'.inGroup 0 = true :=
        (List.mem_filter.mp (hsecs ▸ List.mem_cons_self : s' ∈ secs.filter _)).2
      rw [hsecs] at hs
      obtain rfl := Option.some.inj hs
      rw [hp.rx, groupSeq_zero_cons hsecs] at ht
      obtain rfl := Option.some.inj ht
      have hup : alignUp (mem.toNat + 0) (s'.startPage page 0 1).item.align = mem.toNat := by
        rw [startPage_zero_align, Nat.add_zero, hmem]
        exact alignUp_of_dvd (Nat.dvd_refl _)
      have hoff := @assign_offset mem 0 (s'.startPage page 0 1)
        (show alignUp (mem.toNat + 0) _ < _ by omega) (show mem.toNat + 0 < _ by omega)
      have hoff : _ = alignUp (mem.toNat + 0) _ - mem.toNat := hoff
      rw [hup, Nat.sub_self] at hoff
      have haddr : (assign mem 0 (s'.startPage page 0 1)).1.shAddr.toNat = page.size.toNat := by
        show (if mem ≠ 0 then mem + BitVec.setWidth 64 _ else 0).toNat = _
        rw [if_pos hm.1, BitVec.toNat_add, BitVec.toNat_setWidth, hoff]
        omega
      rw [haddr] at haligned
      exact Nat.le_of_dvd page.pos
        (haligned (Section.isAlloc_of_inGroup (k := 0) (by decide) hgroup))

/-- The last section ends in the memory, wherever that is. -/
theorem ends_of_laidOut (hq : 2 ^ q ∣ 2 ^ 31) :
    worst (2 ^ q) 0 (items page secs) ≤ roomFor page secs := by
  have hlt := runSize_lt hsize
  have hsmall := small_of_laidOut hsize hall hq
  have hroom := runSize_eq hsize hsmall
  obtain ⟨x, hpos, hx, hdvd, hfinish⟩ :=
    exists_worst_start (by decide) hq (@items_dvd page secs)
  have hm : MallocAt q (BitVec.ofNat 64 x) size := mallocAt_ofNat hpos (by omega) hdvd hlt
  have hmem : (BitVec.ofNat 64 x).toNat = x := toNat_ofNat_lt (by omega)
  generalize BitVec.ofNat 64 x = mem at hm hmem
  subst hmem
  have hend := finish_lt (@items_dvd page secs) hsmall mem.toNat
  have hp := runSections_placedAt page mem secs
  by_cases hnil : items page secs = []
  · rw [hnil]
    exact Nat.zero_le _
  · obtain ⟨p, hmemp, hpend⟩ := exists_placed_end (x := mem.toNat) hnil
    have heq := (@placeSeq_eq mem 0 (ordered page secs) hend
      (show finish mem.toNat (items page secs) < _ by omega)).2 hm.1
    have heq : _ = placed mem.toNat (items page secs) := heq
    rw [← heq] at hmemp
    obtain ⟨t, ht, rfl⟩ := List.mem_map.mp hmemp
    obtain ⟨ht, halloc⟩ := hp.mem_of_ordered ht
    have hinside := ((hall mem hm).inside t ht halloc).2
    have hpend : t.shAddr.toNat + t.dataOffset.toNat = _ := hpend
    omega

/-- The pages of the executable sections end in the memory. -/
theorem pageEnds_of_laidOut (hq : 2 ^ q ∣ 2 ^ 31) :
    worst (2 ^ q) 0 (execItems page secs) ≤ roomFor page secs := by
  have hlt := runSize_lt hsize
  have hsmall := small_of_laidOut hsize hall hq
  have hroom := runSize_eq hsize hsmall
  have hexec : finish 0 (execItems page secs) ≤ 2 ^ 31 := by
    rw [finish_execItems]
    exact alignUp_le page.pos ((finish_exec_le 0).trans hsmall) page.dvd
  obtain ⟨x, hpos, hx, hdvd, hfinish⟩ :=
    exists_worst_start (by decide) hq (@execItems_dvd page secs)
  have hm : MallocAt q (BitVec.ofNat 64 x) size := mallocAt_ofNat hpos (by omega) hdvd hlt
  have hmem : (BitVec.ofNat 64 x).toNat = x := toNat_ofNat_lt (by omega)
  generalize BitVec.ofNat 64 x = mem at hm hmem
  subst hmem
  have hend := finish_lt (@execItems_dvd page secs) hexec mem.toNat
  have hp := runSections_placedAt page mem secs
  have hup := alignUp_lt mem.toNat page.pos
  have hpage : page.size.toNat ≤ roomFor page secs := Nat.le_add_left _ _
  cases hsecs : secs.filter (Section.inGroup 0) with
  | nil =>
      have hnil : execItems page secs = [page.item] := by
        unfold execItems groupSeq
        rw [hsecs]
        rfl
      have hfinish' : alignUp mem.toNat page.size.toNat = mem.toNat + _ := hnil ▸ hfinish
      rw [hnil]
      omega
  | cons s rest =>
      obtain ⟨-, hsome⟩ := hp.protectPages_cons hm.1 hsecs hend (by omega)
      by_cases heq : finish mem.toNat ((groupSeq page 0 secs).map Section.item) =
          alignUp mem.toNat page.size.toNat
      · have hfinish' := hfinish
        rw [finish_execItems, heq, alignUp_of_dvd (dvd_alignUp _ page.pos)] at hfinish'
        omega
      · obtain ⟨addr, n, hpages, haddr, hn⟩ := hsome heq
        have hin := ((hall mem hm).pages (addr, n, 3) (hpages ▸ List.mem_singleton.mpr rfl)).2
        have hin : addr.toNat + n.toNat ≤ mem.toNat + size := hin
        omega

end Little

/-- Where no alignment exceeds the page, the room is always enough. -/
theorem RunFits.of_le_page (hq : 2 ^ q ≤ page.size.toNat)
    (hwx : ∀ s ∈ secs, s.isAlloc = true → s.isWrite = true → s.isExec = false)
    (hpage : ∀ s ∈ secs, s.isAlloc = true → s.shAddralign.toNat ≤ page.size.toNat)
    (hsmall : finish 0 (items page secs) ≤ 2 ^ 31) : RunFits page q secs := by
  have hqdvd : 2 ^ q ∣ page.size.toNat := by
    obtain ⟨k, -, hk⟩ := page.pow
    rw [hk] at hq ⊢
    exact Nat.pow_dvd_pow 2 ((Nat.pow_le_pow_iff_right (by decide)).mp hq)
  have hgroup : ∀ k < 3, ∀ s ∈ groupSeq page k secs, s.item.align ∣ page.size.toNat := by
    intro k hk s hs
    have hmem : ∀ s ∈ secs.filter (Section.inGroup k), s.item.align ∣ page.size.toNat := by
      intro s hs
      obtain ⟨hs, hsk⟩ := List.mem_filter.mp hs
      exact Section.dvd_of_le (hpage s hs (Section.isAlloc_of_inGroup hk hsk))
    unfold groupSeq at hs
    cases hf : secs.filter (Section.inGroup k) with
    | nil =>
        rw [hf] at hs
        exact absurd hs List.not_mem_nil
    | cons s' rest =>
        rw [hf] at hs hmem
        rcases List.mem_cons.mp hs with rfl | hs
        · unfold Section.startPage
          split
          · exact Nat.dvd_refl _
          · exact hmem s' List.mem_cons_self
        · exact hmem s (List.mem_cons_of_mem s' hs)
  have hitems : ∀ it ∈ items page secs, it.align ∣ page.size.toNat := by
    intro it hit
    obtain ⟨s, hs, rfl⟩ := List.mem_map.mp hit
    rcases List.mem_append.mp hs with hs | hs
    · exact hgroup 0 (by decide) s hs
    · rcases List.mem_append.mp hs with hs | hs
      · exact hgroup 1 (by decide) s hs
      · exact hgroup 2 (by decide) s hs
  have hexec : ∀ it ∈ execItems page secs, it.align ∣ page.size.toNat := by
    intro it hit
    rcases List.mem_append.mp hit with hit | hit
    · obtain ⟨s, hs, rfl⟩ := List.mem_map.mp hit
      exact hgroup 0 (by decide) s hs
    · rw [List.mem_singleton.mp hit]
      exact Nat.dvd_refl _
  have hends := worst_lt page.pos hqdvd hitems
  have hpages := worst_lt page.pos hqdvd hexec
  have hup := le_alignUp (finish 0 (items page secs)) page.size.toNat
  have hrx := alignUp_mono page.pos (@finish_exec_le page secs 0)
  rw [finish_execItems] at hpages
  refine ⟨hwx, fun s hs => ?_, hsmall, ?_, ?_⟩
  · have hs := List.mem_filter.mp (List.mem_of_mem_head? hs)
    exact hpage s hs.1 (Section.isAlloc_of_inGroup (k := 0) (by decide) hs.2)
  · unfold roomFor
    omega
  · unfold roomFor
    omega

/-- The sections are laid out right at every address that `malloc` returns if and only if they
fit. -/
theorem runFits_iff (page : PageSize) (q : Nat) (hq : 2 ^ q ≤ page.size.toNat)
    (secs : List Section) (size : Nat) (hsize : runSize page secs = some size) :
    (∀ mem : BitVec 64, MallocAt q mem size →
        LaidOut page secs (runSections page mem secs) mem.toNat size) ↔
      RunFits page q secs := by
  have hq31 : 2 ^ q ∣ 2 ^ 31 := by
    have hle := hq.trans (Nat.le_of_dvd (by decide) page.dvd)
    exact Nat.pow_dvd_pow 2 ((Nat.pow_le_pow_iff_right (by decide)).mp hle)
  constructor
  · intro hall
    exact ⟨fun s hs halloc hwrite => noWx_of_laidOut hsize hall hq31 hs halloc hwrite,
      fun s hs => firstExec_of_laidOut hsize hall hq hs, small_of_laidOut hsize hall hq31,
      ends_of_laidOut hsize hall hq31, pageEnds_of_laidOut hsize hall hq31⟩
  · intro hfits mem hm
    exact hfits.laidOut hsize hm

/-- Pages of 4096 bytes. -/
def page4k : PageSize := ⟨4096, 12, by decide, by decide⟩

/-- `.text` with 10 bytes. -/
def textSection : Section := ⟨shfAlloc ||| shfExecinstr, 10, 4, 0, 2, by decide, by decide⟩

/-- A section with the flags `"awx"` and 8 bytes. -/
def wxSection : Section :=
  ⟨shfAlloc ||| shfWrite ||| shfExecinstr, 8, 4, 0, 2, by decide, by decide⟩

theorem runFits_iff_text :
    (∀ mem : BitVec 64, MallocAt 4 mem 8192 →
        LaidOut page4k [textSection] (runSections page4k mem [textSection]) mem.toNat 8192) ↔
      RunFits page4k 4 [textSection] :=
  runFits_iff page4k 4 (by decide) [textSection] 8192 (by decide)

/-- The section keeps the address 0. -/
theorem wxSection_not_laidOut :
    runSize page4k [wxSection] = some 4096 ∧ MallocAt 4 0x10000 4096 ∧
      ¬ LaidOut page4k [wxSection] (runSections page4k 0x10000 [wxSection]) 0x10000 4096 := by
  refine ⟨by decide, ⟨by decide, by decide, by decide⟩, fun hlaid => ?_⟩
  have hout : runSections page4k 0x10000 [wxSection] = [wxSection] := rfl
  have hin := hlaid.inside wxSection (hout ▸ List.mem_cons_self) (by decide)
  exact absurd hin.1 (by decide)

end TccRiscv64.Run
