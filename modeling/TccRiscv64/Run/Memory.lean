import TccRiscv64.Run.Placed

set_option autoImplicit false

/-! # The sections in the run memory

The memory has the size that the first call has returned, and a page more. That is enough for every
address that `malloc` returns if no alignment exceeds the page; larger ones have to fit in by what
the page leaves over. -/

namespace TccRiscv64.Run

open Data

/-! ## What the layout has to do -/

def Section.isAlloc (s : Section) : Bool := s.shFlags &&& shfAlloc != 0
def Section.isWrite (s : Section) : Bool := s.shFlags &&& shfWrite != 0
def Section.isExec (s : Section) : Bool := s.shFlags &&& shfExecinstr != 0

/-- The sections are in the memory from `mem` on, aligned and apart from each other, and the pages
whose protection is changed are in it and cover the executable sections. -/
structure LaidOut (page : PageSize) (secs out : List Section) (mem size : Nat) : Prop where
  inside : ∀ t ∈ out, t.isAlloc = true →
    mem ≤ t.shAddr.toNat ∧ t.shAddr.toNat + t.dataOffset.toNat ≤ mem + size
  aligned : List.Forall₂ (fun s t => s.isAlloc = true → s.shAddralign.toNat ∣ t.shAddr.toNat)
    secs out
  apart : out.Pairwise fun s t => s.isAlloc = true → t.isAlloc = true → Apart s t
  pages : ∀ r ∈ protectPages page out, mem ≤ r.1.toNat ∧ r.1.toNat + r.2.1.toNat ≤ mem + size
  covers : ∀ t ∈ out, t.isAlloc = true → t.isExec = true →
    ∀ b, t.shAddr.toNat ≤ b → b < t.shAddr.toNat + t.dataOffset.toNat →
      ∃ r ∈ protectPages page out, r.2.2 = 3 ∧ r.1.toNat ≤ b ∧ b < r.1.toNat + r.2.1.toNat

/-- An address that `malloc` may return for `size` bytes, where it aligns to `2 ^ q`. -/
def MallocAt (q : Nat) (mem : BitVec 64) (size : Nat) : Prop :=
  mem ≠ 0 ∧ 2 ^ q ∣ mem.toNat ∧ mem.toNat + size < 2 ^ 64

/-- The end of a page. -/
def PageSize.item (page : PageSize) : Item where
  align := page.size.toNat
  size := 0
  pow := let ⟨k, _, h⟩ := page.pow; ⟨k, h⟩

/-- The executable sections, up to the end of a page. -/
def execItems (page : PageSize) (secs : List Section) : List Item :=
  (groupSeq page 0 secs).map Section.item ++ [page.item]

/-- What the size at address 0 and the page more than that are. -/
def roomFor (page : PageSize) (secs : List Section) : Nat :=
  alignUp (finish 0 (items page secs)) page.size.toNat + page.size.toNat

/-- No section is writable and executable, the first executable one asks for no more than a page,
and the sections and the pages of the executable ones take no more than the room for them, from
wherever they start. -/
structure RunFits (page : PageSize) (q : Nat) (secs : List Section) : Prop where
  noWx : ∀ s ∈ secs, s.isAlloc = true → s.isWrite = true → s.isExec = false
  firstExec : ∀ s, (secs.filter (Section.inGroup 0)).head? = some s →
    s.shAddralign.toNat ≤ page.size.toNat
  small : finish 0 (items page secs) ≤ 2 ^ 31
  ends : worst (2 ^ q) 0 (items page secs) ≤ roomFor page secs
  pageEnds : worst (2 ^ q) 0 (execItems page secs) ≤ roomFor page secs

/-! ## Sizes -/

section Sizes

variable {page : PageSize} {secs : List Section} {size : Nat}

theorem PageSize.pos (page : PageSize) : 0 < page.size.toNat := page.item.pos

theorem PageSize.dvd (page : PageSize) : page.size.toNat ∣ 2 ^ 31 := by
  obtain ⟨k, hk, h⟩ := page.pow
  exact h ▸ Nat.pow_dvd_pow 2 hk.le

theorem pageAlign_toNat {n : BitVec 64} (h : alignUp n.toNat page.size.toNat < 2 ^ 64) :
    (pageAlign page n).toNat = alignUp n.toNat page.size.toNat := by
  unfold pageAlign
  rw [BitVec.toNat_add, pad_toNat n page.pow_lt]
  exact Nat.mod_eq_of_lt h

theorem toInt_neg_iff (x : BitVec 32) : x.toInt < 0 ↔ 2 ^ 31 ≤ x.toNat := by
  rw [BitVec.toInt_eq_toNat_cond]
  have := x.isLt
  split <;> omega

theorem runSize_lt (h : runSize page secs = some size) : size < 2 ^ 31 := by
  unfold runSize at h
  dsimp only at h
  split at h
  · cases h
  · rename_i hneg
    obtain rfl := Option.some.inj h
    rw [toInt_neg_iff, toInt_neg_iff] at hneg
    omega

/-- The offset is measured without overflow. -/
theorem measured_offset (h : finish 0 (items page secs) < 2 ^ 32) :
    (placeSections page 0 secs).2.toNat = finish 0 (items page secs) := by
  rw [(placeSections_placedAt page 0 secs).2]
  have heq := (@placeSeq_eq 0 0 (ordered page secs)
    (by simpa [items] using h) (by simpa [items] using h.trans (by decide))).1
  simpa [items] using heq

theorem runSize_eq (h : runSize page secs = some size)
    (hsmall : finish 0 (items page secs) ≤ 2 ^ 31) : size = roomFor page secs := by
  have hoff := @measured_offset page secs (by omega)
  have hup : alignUp (finish 0 (items page secs)) page.size.toNat ≤ 2 ^ 31 :=
    alignUp_le page.pos hsmall page.dvd
  have hmeasured : (measuredSize page secs).toNat =
      alignUp (finish 0 (items page secs)) page.size.toNat := by
    have hn : ((placeSections page 0 secs).2.setWidth 64).toNat = finish 0 (items page secs) := by
      rw [BitVec.toNat_setWidth, hoff]
      omega
    unfold measuredSize
    rw [BitVec.toNat_setWidth, pageAlign_toNat (by rw [hn]; omega), hn]
    omega
  unfold runSize at h
  dsimp only at h
  split at h
  · cases h
  · rename_i hneg
    obtain rfl := Option.some.inj h
    have hpage := Nat.le_of_dvd (by decide) page.dvd
    rw [toInt_neg_iff, toInt_neg_iff, hmeasured] at hneg
    rw [BitVec.toNat_add, hmeasured]
    unfold roomFor
    omega

end Sizes

/-! ## The pages that are changed -/

/-- The loop that finds the range of a group, over the sections of the group. -/
def rangeSeq : BitVec 64 → BitVec 32 → List Section → BitVec 64 × BitVec 32
  | addr, n, [] => (addr, n)
  | addr, _, s :: secs =>
    let addr := if addr = 0 then s.shAddr else addr
    let n := (s.shAddr - addr + (s.dataOffset.setWidth 32).setWidth 64).setWidth 32
    rangeSeq addr n secs

section Pages

variable {page : PageSize} {mem : BitVec 64} {secs out : List Section}

theorem groupRange_eq (k : Nat) (addr : BitVec 64) (n : BitVec 32) (secs : List Section) :
    groupRange k addr n secs = rangeSeq addr n (secs.filter (Section.inGroup k)) := by
  induction secs generalizing addr n with
  | nil => rfl
  | cons s secs ih =>
      unfold groupRange
      by_cases hs : s.inGroup k = true
      · rw [if_pos hs, List.filter_cons_of_pos hs]
        exact ih _ _
      · rw [if_neg hs, List.filter_cons_of_neg hs]
        exact ih _ _

/-- The length of the range goes up to the end of the last section. -/
theorem rangeSeq_placed {a : BitVec 64} {n : BitVec 32} {secs : List Section} {x : Nat}
    (ha : a ≠ 0) (hx : a.toNat + n.toNat = x)
    (h : secs.map (fun s => (s.shAddr.toNat, s.item)) = placed x (secs.map Section.item))
    (hend : finish x (secs.map Section.item) < a.toNat + 2 ^ 32) :
    (rangeSeq a n secs).1 = a ∧
      a.toNat + (rangeSeq a n secs).2.toNat = finish x (secs.map Section.item) := by
  induction secs generalizing n x with
  | nil => exact ⟨rfl, hx⟩
  | cons s secs ih =>
      obtain ⟨hhead, hrest⟩ := List.cons.inj h
      have haddr : s.shAddr.toNat = alignUp x s.item.align := congrArg Prod.fst hhead
      have hle := le_alignUp x s.item.align
      have hsize : s.item.size = s.dataOffset.toNat := rfl
      have hend' := le_finish (alignUp x s.item.align + s.item.size) (secs.map Section.item)
      have hend'' : finish (alignUp x s.item.align + s.item.size) (secs.map Section.item) <
        a.toNat + 2 ^ 32 := hend
      have hn : a.toNat + ((s.shAddr - a + (s.dataOffset.setWidth 32).setWidth 64).setWidth
          32).toNat = alignUp x s.item.align + s.item.size := by
        have hsub : (s.shAddr - a).toNat = s.shAddr.toNat - a.toNat :=
          BitVec.toNat_sub_of_le (BitVec.le_def.mpr (by omega))
        have hlt := s.shAddr.isLt
        rw [BitVec.toNat_setWidth, BitVec.toNat_add, BitVec.toNat_setWidth,
          BitVec.toNat_setWidth, hsub]
        omega
      unfold rangeSeq
      dsimp only
      rw [if_neg ha]
      exact ih hn hrest hend

theorem groupSeq_zero_cons {s : Section} {rest : List Section}
    (h : secs.filter (Section.inGroup 0) = s :: rest) :
    groupSeq page 0 secs = s.startPage page 0 1 :: rest := by
  unfold groupSeq
  rw [h]
  rfl

theorem startPage_zero_align (s : Section) : (s.startPage page 0 1).item.align = page.size.toNat :=
  rfl

theorem protectPages_eq (page : PageSize) (secs : List Section) :
    protectPages page secs = (protectGroup page secs 0).toList := by
  have hnone : ∀ k, k ≠ 0 → protectGroup page secs k = none := by
    intro k hk
    unfold protectGroup
    dsimp only
    split
    · rfl
    · rw [if_pos ⟨Nat.zero_le k, hk⟩]
  unfold protectPages
  cases h : protectGroup page secs 0 with
  | none => simp [h, hnone]
  | some r => simp [h, hnone]

theorem PlacedAt.protectPages_nil (h : PlacedAt page mem secs out)
    (hnil : secs.filter (Section.inGroup 0) = []) : protectPages page out = [] := by
  have hout : out.filter (Section.inGroup 0) = [] := by
    rw [h.rx]
    unfold groupSeq
    rw [hnil]
    rfl
  rw [protectPages_eq]
  unfold protectGroup
  rw [groupRange_eq, hout]
  rfl

theorem finish_execItems (x : Nat) :
    finish x (execItems page secs) =
      alignUp (finish x ((groupSeq page 0 secs).map Section.item)) page.size.toNat := by
  unfold execItems
  rw [finish_append]
  rfl

/-- The pages from the first executable section on, to the end of the page of the last one. -/
theorem PlacedAt.protectPages_cons (h : PlacedAt page mem secs out) (hmem : mem ≠ 0)
    {s : Section} {rest : List Section} (hcons : secs.filter (Section.inGroup 0) = s :: rest)
    (hend : finish mem.toNat (execItems page secs) < mem.toNat + 2 ^ 32)
    (h64 : finish mem.toNat (execItems page secs) < 2 ^ 64) :
    (finish mem.toNat ((groupSeq page 0 secs).map Section.item) =
        alignUp mem.toNat page.size.toNat → protectPages page out = []) ∧
      (finish mem.toNat ((groupSeq page 0 secs).map Section.item) ≠
          alignUp mem.toNat page.size.toNat →
        ∃ addr n, protectPages page out = [(addr, n, 3)] ∧
          addr.toNat = alignUp mem.toNat page.size.toNat ∧
          addr.toNat + n.toNat = finish mem.toNat (execItems page secs)) := by
  rw [finish_execItems] at hend h64 ⊢
  have hseq := @groupSeq_zero_cons page _ _ _ hcons
  have hle := le_alignUp (finish mem.toNat ((groupSeq page 0 secs).map Section.item))
    page.size.toNat
  have hplaced := (@placeSeq_eq mem 0 (groupSeq page 0 secs)
    (show finish (mem.toNat + 0) _ < _ by rw [Nat.add_zero]; omega)
    (show finish (mem.toNat + 0) _ < _ by rw [Nat.add_zero]; omega)).2 hmem
  rw [← h.rx] at hplaced
  have hitems : (out.filter (Section.inGroup 0)).map Section.item =
      (groupSeq page 0 secs).map Section.item := by
    rw [h.rx, items_placeSeq]
  rw [← hitems] at hplaced hend h64 hle ⊢
  have hplaced' : (out.filter (Section.inGroup 0)).map (fun s => (s.shAddr.toNat, s.item)) =
      placed mem.toNat ((out.filter (Section.inGroup 0)).map Section.item) := hplaced
  rw [protectPages_eq]
  unfold protectGroup
  rw [groupRange_eq]
  cases hout : out.filter (Section.inGroup 0) with
  | nil =>
      rw [hout, hseq] at hitems
      cases hitems
  | cons t ts =>
      rw [hout] at hplaced' hend h64 hle hitems
      obtain ⟨hhead, hrest⟩ := List.cons.inj hplaced'
      have halign : t.item.align = page.size.toNat := by
        rw [hseq] at hitems
        exact congrArg Item.align (List.cons.inj hitems).1
      have haddr : t.shAddr.toNat = alignUp mem.toNat page.size.toNat :=
        halign ▸ congrArg Prod.fst hhead
      have hmemPos : 0 < mem.toNat := Nat.pos_of_ne_zero fun hz => hmem (BitVec.eq_of_toNat_eq hz)
      have hup := le_alignUp mem.toNat page.size.toNat
      have ha : t.shAddr ≠ 0 := fun hz => by
        rw [hz] at haddr
        simp at haddr
        omega
      have hend' : finish (alignUp mem.toNat t.item.align + t.item.size) (ts.map Section.item) <
          t.shAddr.toNat + 2 ^ 32 :=
        (hle.trans_lt hend).trans_le (by omega)
      have hsize : t.item.size = t.dataOffset.toNat := rfl
      have hstart := le_finish (alignUp mem.toNat t.item.align + t.item.size)
        (ts.map Section.item)
      have hn : t.shAddr.toNat + ((t.shAddr - t.shAddr +
          (t.dataOffset.setWidth 32).setWidth 64).setWidth 32).toNat =
          alignUp mem.toNat t.item.align + t.item.size := by
        rw [BitVec.sub_self, BitVec.toNat_setWidth, BitVec.toNat_add, BitVec.toNat_setWidth,
          BitVec.toNat_setWidth, halign, haddr]
        rw [halign] at hend' hstart
        show _ + (0 + _) % 2 ^ 64 % 2 ^ 32 = _
        omega
      obtain ⟨haddr', hend''⟩ := rangeSeq_placed ha hn hrest hend'
      have hrange : rangeSeq 0 0 (t :: ts) = rangeSeq t.shAddr
          ((t.shAddr - t.shAddr + (t.dataOffset.setWidth 32).setWidth 64).setWidth 32) ts := by
        show rangeSeq (if (0 : BitVec 64) = 0 then t.shAddr else 0) _ ts = _
        rw [if_pos rfl]
      rw [hrange]
      generalize rangeSeq t.shAddr _ ts = r at haddr' hend''
      have hsum : t.shAddr.toNat + r.2.toNat = finish mem.toNat ((t :: ts).map Section.item) :=
        hend''
      rw [← hsum] at hend h64 ⊢
      rw [← haddr] at hup ⊢
      have hpage : page.size.toNat ∣ t.shAddr.toNat := haddr ▸ dvd_alignUp _ page.pos
      rw [alignUp_add hpage] at hend h64 ⊢
      refine ⟨fun hzero => ?_, fun hne => ?_⟩
      · have hr : r.2 = 0 := BitVec.eq_of_toNat_eq (by show r.2.toNat = 0; omega)
        dsimp only
        rw [if_pos hr]
        rfl
      · have hr : r.2 ≠ 0 := fun hz => hne (by rw [hz]; rfl)
        have hw : (r.2.setWidth 64).toNat = r.2.toNat := by
          rw [BitVec.toNat_setWidth]
          have := r.2.isLt
          omega
        refine ⟨r.1, (pageAlign page (r.2.setWidth 64)).setWidth 32, ?_, by rw [haddr'], ?_⟩
        · dsimp only
          rw [if_neg hr, if_neg (by decide), if_pos (by decide)]
          rfl
        · rw [haddr', BitVec.toNat_setWidth, pageAlign_toNat (by rw [hw]; omega), hw]
          omega

end Pages

/-! ## Flags and alignments -/

section Flags

variable {s : Section}

/-- The three flags are all that the groups are made by. -/
theorem flags_low (f : BitVec 32) :
    f &&& (shfAlloc ||| shfWrite ||| shfExecinstr) = (f.setWidth 3).setWidth 32 ∧
      f &&& shfAlloc = (f.setWidth 3).setWidth 32 &&& shfAlloc ∧
      f &&& shfWrite = (f.setWidth 3).setWidth 32 &&& shfWrite ∧
      f &&& shfExecinstr = (f.setWidth 3).setWidth 32 &&& shfExecinstr := by
  have hmask : f &&& 7 = (f.setWidth 3).setWidth 32 := by
    apply BitVec.eq_of_toNat_eq
    rw [BitVec.toNat_and, BitVec.toNat_setWidth, BitVec.toNat_setWidth]
    show f.toNat &&& (2 ^ 3 - 1) = f.toNat % 2 ^ 3 % 2 ^ 32
    rw [Nat.and_two_pow_sub_one_eq_mod]
    omega
  rw [← hmask, BitVec.and_assoc, BitVec.and_assoc, BitVec.and_assoc]
  exact ⟨rfl, rfl, rfl, rfl⟩

theorem Section.inGroup_of_alloc (halloc : s.isAlloc = true)
    (hwx : s.isWrite = true → s.isExec = false) :
    (s.inGroup 0 || (s.inGroup 1 || s.inGroup 2)) = true := by
  obtain ⟨hmask, ha, hw, hx⟩ := flags_low s.shFlags
  unfold Section.isAlloc at halloc
  unfold Section.isWrite Section.isExec at hwx
  unfold Section.inGroup
  rw [ha] at halloc
  rw [hw, hx] at hwx
  rw [hmask]
  revert halloc hwx
  generalize s.shFlags.setWidth 3 = x
  revert x
  decide

theorem Section.inGroup_zero (halloc : s.isAlloc = true) (hexec : s.isExec = true)
    (hwx : s.isWrite = true → s.isExec = false) : s.inGroup 0 = true := by
  obtain ⟨hmask, ha, hw, hx⟩ := flags_low s.shFlags
  unfold Section.isAlloc at halloc
  unfold Section.isExec at hexec
  unfold Section.isWrite Section.isExec at hwx
  unfold Section.inGroup
  rw [ha] at halloc
  rw [hx] at hexec
  rw [hw, hx] at hwx
  rw [hmask]
  revert halloc hexec hwx
  generalize s.shFlags.setWidth 3 = x
  revert x
  decide

theorem Section.inGroup_of_wx (hwrite : s.isWrite = true) (hexec : s.isExec = true) :
    ∀ k ∈ [0, 1, 2], s.inGroup k = false := by
  obtain ⟨hmask, -, hw, hx⟩ := flags_low s.shFlags
  unfold Section.isWrite at hwrite
  unfold Section.isExec at hexec
  unfold Section.inGroup
  rw [hw] at hwrite
  rw [hx] at hexec
  rw [hmask]
  revert hwrite hexec
  generalize s.shFlags.setWidth 3 = x
  revert x
  decide

theorem Section.isAlloc_congr {t : Section} (h : t.shFlags = s.shFlags) :
    t.isAlloc = s.isAlloc ∧ t.isWrite = s.isWrite ∧ t.isExec = s.isExec := by
  unfold Section.isAlloc Section.isWrite Section.isExec
  rw [h]
  exact ⟨rfl, rfl, rfl⟩

end Flags

section Aligned

variable {page : PageSize} {secs : List Section}

theorem Section.dvd_of_le {s : Section} (h : s.shAddralign.toNat ≤ page.size.toNat) :
    s.shAddralign.toNat ∣ page.size.toNat := by
  obtain ⟨k, -, hk⟩ := s.pow
  obtain ⟨j, -, hj⟩ := page.pow
  rw [hk, hj] at h ⊢
  exact Nat.pow_dvd_pow 2 ((Nat.pow_le_pow_iff_right (by decide)).mp h)

/-- What is aligned for `t` is aligned for `s`. -/
def AlignDvd (s t : Section) : Prop := s.shAddralign.toNat ∣ t.shAddralign.toNat

/-- An alignment only grows, if the first executable section asks for no more than a page. -/
theorem placeGroup_dvd (mem : BitVec 64) (k n : Nat) (offset : BitVec 32)
    (h : n = 0 → k ≤ runmemRo → ∀ s, (secs.filter (Section.inGroup k)).head? = some s →
      s.shAddralign.toNat ≤ page.size.toNat) :
    List.Forall₂ AlignDvd secs
      (placeGroup page mem k n offset secs).1 := by
  induction secs generalizing n offset with
  | nil => exact List.Forall₂.nil
  | cons s secs ih =>
      unfold placeGroup
      by_cases hs : s.inGroup k = true
      · rw [if_pos hs]
        rw [List.filter_cons_of_pos hs] at h
        refine List.Forall₂.cons ?_ (ih _ _ fun hn => absurd hn (Nat.succ_ne_zero n))
        show s.shAddralign.toNat ∣ (s.startPage page k (n + 1)).shAddralign.toNat
        unfold Section.startPage
        split
        · rename_i hfirst
          exact Section.dvd_of_le (h (by omega) hfirst.2 s rfl)
        · exact Nat.dvd_refl _
      · rw [if_neg hs]
        rw [List.filter_cons_of_neg hs] at h
        exact List.Forall₂.cons (Nat.dvd_refl _) (ih _ _ h)

theorem AlignDvd.trans {l l' l'' : List Section} (h : List.Forall₂ AlignDvd l l')
    (h' : List.Forall₂ AlignDvd l' l'') : List.Forall₂ AlignDvd l l'' := by
  induction h generalizing l'' with
  | nil => exact h'
  | cons hab _ ih =>
      cases h' with
      | cons hbc hrest => exact List.Forall₂.cons (Nat.dvd_trans hab hbc) (ih hrest)

theorem placeSections_dvd (mem : BitVec 64)
    (h : ∀ s, (secs.filter (Section.inGroup 0)).head? = some s →
      s.shAddralign.toNat ≤ page.size.toNat) :
    List.Forall₂ AlignDvd secs
      (placeSections page mem secs).1 := by
  unfold placeSections
  have hro : ∀ k, k ≠ 0 → ¬ k ≤ runmemRo := fun k hk hle => hk (Nat.le_zero.mp hle)
  exact AlignDvd.trans
    (AlignDvd.trans (placeGroup_dvd mem 0 0 0 fun _ _ => h)
      (placeGroup_dvd mem 1 0 _ fun _ hk => absurd hk (hro 1 (by decide))))
    (placeGroup_dvd mem 2 0 _ fun _ hk => absurd hk (hro 2 (by decide)))

theorem runSections_dvd (mem : BitVec 64)
    (h : ∀ s, (secs.filter (Section.inGroup 0)).head? = some s →
      s.shAddralign.toNat ≤ page.size.toNat) :
    List.Forall₂ AlignDvd secs
      (runSections page mem secs) := by
  refine AlignDvd.trans (placeSections_dvd 0 h) (placeSections_dvd mem ?_)
  intro s hs
  rw [(placeSections_placedAt page 0 secs).1.rx] at hs
  cases hf : secs.filter (Section.inGroup 0) with
  | nil =>
      unfold groupSeq at hs
      rw [hf] at hs
      cases hs
  | cons s' rest =>
      rw [groupSeq_zero_cons hf] at hs
      obtain rfl := Option.some.inj hs
      exact Nat.le_refl _

end Aligned

end TccRiscv64.Run
