import TccRiscv64.Run.Layout

set_option autoImplicit false

/-! # Where the sections are placed

The three groups, one behind the other, are a list of items; the sections get the places of these
items as long as the offset stays in 32 bits. -/

namespace TccRiscv64.Run

open Data

/-! ## One section -/

/-- The mask gives the padding to the next multiple. -/
theorem pad_toNat (v : BitVec 64) {a : BitVec 32} (h : ∃ k < 32, a.toNat = 2 ^ k) :
    (-v &&& (a - 1).setWidth 64).toNat = (a.toNat - v.toNat % a.toNat) % a.toNat := by
  obtain ⟨k, hk, ha⟩ := h
  have hpos := Nat.two_pow_pos k
  have hmask : ((a - 1).setWidth 64).toNat = 2 ^ k - 1 := by
    rw [BitVec.toNat_setWidth, BitVec.toNat_sub, ha]
    have hlt : 2 ^ k < 2 ^ 32 := Nat.pow_lt_pow_right (by decide) hk
    show (2 ^ 32 - 1 % 2 ^ 32 + 2 ^ k) % 2 ^ 32 % 2 ^ 64 = 2 ^ k - 1
    omega
  have hdvd : 2 ^ k ∣ 2 ^ 64 := Nat.pow_dvd_pow 2 (by omega)
  rw [BitVec.toNat_and, hmask, Nat.and_two_pow_sub_one_eq_mod, ha, BitVec.toNat_neg,
    Nat.mod_mod_of_dvd _ hdvd]
  have hsum : 2 ^ k ∣ v.toNat + (2 ^ 64 - v.toNat) % 2 ^ k := by
    have hv : v.toNat + (2 ^ 64 - v.toNat) = 2 ^ 64 := Nat.add_sub_of_le v.isLt.le
    have hmod : v.toNat + (2 ^ 64 - v.toNat) % 2 ^ k ≡ v.toNat + (2 ^ 64 - v.toNat) [MOD 2 ^ k] :=
      (Nat.mod_modEq _ _).add_left _
    rw [hv] at hmod
    exact Nat.modEq_zero_iff_dvd.mp (hmod.trans (Nat.modEq_zero_iff_dvd.mpr hdvd))
  have hup := alignUp_add_eq (Nat.mod_lt _ hpos) hsum
  unfold alignUp at hup
  omega

/-- A section as an item. -/
def Section.item (s : Section) : Item where
  align := s.shAddralign.toNat
  size := s.dataOffset.toNat
  pow := let ⟨k, _, h⟩ := s.pow; ⟨k, h⟩

theorem Section.align_dvd (s : Section) : s.item.align ∣ 2 ^ 31 := by
  obtain ⟨k, hk, h⟩ := s.pow
  show s.shAddralign.toNat ∣ _
  exact h ▸ Nat.pow_dvd_pow 2 (by omega)

section Assign

variable {mem : BitVec 64} {offset : BitVec 32} {s : Section}

theorem assign_offset (h : alignUp (mem.toNat + offset.toNat) s.item.align < mem.toNat + 2 ^ 32)
    (h64 : mem.toNat + offset.toNat < 2 ^ 64) :
    (offset + (-(mem + offset.setWidth 64) &&&
      (s.shAddralign - 1).setWidth 64).setWidth 32).toNat =
      alignUp (mem.toNat + offset.toNat) s.item.align - mem.toNat := by
  have hoff : (offset.setWidth 64).toNat = offset.toNat := by
    rw [BitVec.toNat_setWidth, Nat.mod_eq_of_lt (by have := offset.isLt; omega)]
  have hsum : (mem + offset.setWidth 64).toNat = mem.toNat + offset.toNat := by
    rw [BitVec.toNat_add, hoff, Nat.mod_eq_of_lt h64]
  have hpad := pad_toNat (mem + offset.setWidth 64) s.pow
  rw [hsum] at hpad
  unfold alignUp at h ⊢
  rw [BitVec.toNat_add, BitVec.toNat_setWidth, hpad]
  show _ = mem.toNat + offset.toNat + (s.shAddralign.toNat - _ % s.shAddralign.toNat) %
    s.shAddralign.toNat - mem.toNat
  have h' : mem.toNat + offset.toNat + (s.shAddralign.toNat - (mem.toNat + offset.toNat) %
    s.shAddralign.toNat) % s.shAddralign.toNat < mem.toNat + 2 ^ 32 := h
  omega

end Assign

/-! ## A list of sections -/

/-- The sections are placed one behind the other. -/
def placeSeq (mem : BitVec 64) : BitVec 32 → List Section → List Section × BitVec 32
  | offset, [] => ([], offset)
  | offset, s :: secs =>
    let r := assign mem offset s
    let rest := placeSeq mem r.2 secs
    (r.1 :: rest.1, rest.2)

section PlaceSeq

theorem placeSeq_append (mem : BitVec 64) (offset : BitVec 32) (secs secs' : List Section) :
    placeSeq mem offset (secs ++ secs') =
      ((placeSeq mem offset secs).1 ++ (placeSeq mem (placeSeq mem offset secs).2 secs').1,
        (placeSeq mem (placeSeq mem offset secs).2 secs').2) := by
  induction secs generalizing offset with
  | nil => rfl
  | cons s secs ih =>
      show (_ :: (placeSeq mem _ (secs ++ secs')).1, (placeSeq mem _ (secs ++ secs')).2) = _
      rw [ih]
      rfl

/-- An address that a section has already does not matter. -/
theorem placeSeq_placeSeq (mem mem' : BitVec 64) (offset offset' : BitVec 32)
    (secs : List Section) :
    placeSeq mem offset (placeSeq mem' offset' secs).1 = placeSeq mem offset secs := by
  induction secs generalizing offset offset' with
  | nil => rfl
  | cons s secs ih =>
      show (_ :: (placeSeq mem _ (placeSeq mem' _ secs).1).1, _) = _
      rw [ih]
      rfl

theorem items_placeSeq (mem : BitVec 64) (offset : BitVec 32) (secs : List Section) :
    (placeSeq mem offset secs).1.map Section.item = secs.map Section.item := by
  induction secs generalizing offset with
  | nil => rfl
  | cons s secs ih => exact congrArg (_ :: ·) (ih _)

/-- A place that ends below the 32 bits of the offset is the place of the item. -/
theorem placeSeq_eq (mem : BitVec 64) {offset : BitVec 32} {secs : List Section}
    (h : finish (mem.toNat + offset.toNat) (secs.map Section.item) < mem.toNat + 2 ^ 32)
    (h64 : finish (mem.toNat + offset.toNat) (secs.map Section.item) < 2 ^ 64) :
    mem.toNat + (placeSeq mem offset secs).2.toNat =
        finish (mem.toNat + offset.toNat) (secs.map Section.item) ∧
      (mem ≠ 0 → (placeSeq mem offset secs).1.map (fun s => (s.shAddr.toNat, s.item)) =
        placed (mem.toNat + offset.toNat) (secs.map Section.item)) := by
  induction secs generalizing offset with
  | nil => exact ⟨rfl, fun _ => rfl⟩
  | cons s secs ih =>
      have hend := le_finish (alignUp (mem.toNat + offset.toNat) s.item.align + s.item.size)
        (secs.map Section.item)
      have hend' : alignUp (mem.toNat + offset.toNat) s.item.align + s.item.size ≤
        finish (mem.toNat + offset.toNat) ((s :: secs).map Section.item) := hend
      have hstart := le_alignUp (mem.toNat + offset.toNat) s.item.align
      have hoff := @assign_offset mem offset s (by omega) (by omega)
      generalize hnew : offset + (-(mem + offset.setWidth 64) &&&
        (s.shAddralign - 1).setWidth 64).setWidth 32 = new at hoff
      have hassign : assign mem offset s =
          ({ s with shAddr := if mem ≠ 0 then mem + new.setWidth 64 else 0 },
            new + s.dataOffset.setWidth 32) := by
        unfold assign
        rw [hnew]
      have hsize : s.item.size = s.dataOffset.toNat := rfl
      have hnext : mem.toNat + (new + s.dataOffset.setWidth 32).toNat =
          alignUp (mem.toNat + offset.toNat) s.item.align + s.item.size := by
        rw [BitVec.toNat_add, BitVec.toNat_setWidth, hoff]
        omega
      have hrest := @ih (new + s.dataOffset.setWidth 32)
        (by rw [hnext]; exact h) (by rw [hnext]; exact h64)
      rw [hnext] at hrest
      show mem.toNat + (placeSeq mem (assign mem offset s).2 secs).2.toNat = _ ∧
        (_ → ((assign mem offset s).1 :: (placeSeq mem (assign mem offset s).2 secs).1).map _ = _)
      rw [hassign]
      refine ⟨hrest.1, fun hmem => ?_⟩
      show (_, s.item) :: _ = (_, s.item) :: _
      rw [hrest.2 hmem, if_pos hmem]
      congr 2
      rw [BitVec.toNat_add, BitVec.toNat_setWidth, hoff]
      omega

end PlaceSeq

/-! ## The groups -/

/-- The sections of a group as the loop places them, where `n` come before. -/
def startPages (page : PageSize) (k n : Nat) : List Section → List Section
  | [] => []
  | s :: secs => s.startPage page k (n + 1) :: secs

/-- The sections of group `k`. -/
def groupSeq (page : PageSize) (k : Nat) (secs : List Section) : List Section :=
  startPages page k 0 (secs.filter (Section.inGroup k))

/-- All the sections in the order of their places. -/
def ordered (page : PageSize) (secs : List Section) : List Section :=
  groupSeq page 0 secs ++ (groupSeq page 1 secs ++ groupSeq page 2 secs)

section Groups

variable {page : PageSize} {mem : BitVec 64} {k : Nat}

theorem startPage_of_ne (n : Nat) (s : Section) : s.startPage page k (n + 2) = s :=
  if_neg fun h => absurd h.1 (by omega)

theorem startPages_succ (n : Nat) (secs : List Section) : startPages page k (n + 1) secs = secs := by
  cases secs with
  | nil => rfl
  | cons s secs => exact congrArg (· :: secs) (startPage_of_ne n s)

@[simp] theorem startPage_shFlags (n : Nat) (s : Section) :
    (s.startPage page k n).shFlags = s.shFlags := by
  unfold Section.startPage
  split <;> rfl

@[simp] theorem startPage_dataOffset (n : Nat) (s : Section) :
    (s.startPage page k n).dataOffset = s.dataOffset := by
  unfold Section.startPage
  split <;> rfl

@[simp] theorem assign_shFlags (offset : BitVec 32) (s : Section) :
    (assign mem offset s).1.shFlags = s.shFlags := rfl

@[simp] theorem assign_dataOffset (offset : BitVec 32) (s : Section) :
    (assign mem offset s).1.dataOffset = s.dataOffset := rfl

theorem Section.inGroup_congr {s t : Section} (h : t.shFlags = s.shFlags) (j : Nat) :
    t.inGroup j = s.inGroup j := by
  unfold Section.inGroup
  rw [h]

/-- No section is in two groups. -/
theorem Section.inGroup_unique {s : Section} {j : Nat} (hj : j < 3) (hk : k < 3)
    (h : s.inGroup j = true) (h' : s.inGroup k = true) : j = k := by
  have heq : shf j = shf k := (beq_iff_eq.mp h).trans (beq_iff_eq.mp h').symm
  have hall : ∀ j < 3, ∀ k < 3, shf j = shf k → j = k := by decide
  exact hall j hj k hk heq

/-- The loop for a group places the sections of the group in turn. -/
theorem placeGroup_filter (n : Nat) (offset : BitVec 32) (secs : List Section) :
    (placeGroup page mem k n offset secs).1.filter (Section.inGroup k) =
        (placeSeq mem offset (startPages page k n (secs.filter (Section.inGroup k)))).1 ∧
      (placeGroup page mem k n offset secs).2 =
        (placeSeq mem offset (startPages page k n (secs.filter (Section.inGroup k)))).2 := by
  induction secs generalizing n offset with
  | nil => exact ⟨rfl, rfl⟩
  | cons s secs ih =>
      unfold placeGroup
      by_cases hs : s.inGroup k = true
      · have hnew : (assign mem offset (s.startPage page k (n + 1))).1.inGroup k = true := by
          rw [Section.inGroup_congr (s := s) (by simp), hs]
        have hrest := ih (n + 1) (assign mem offset (s.startPage page k (n + 1))).2
        rw [startPages_succ] at hrest
        rw [if_pos hs, List.filter_cons_of_pos hs]
        dsimp only
        rw [List.filter_cons_of_pos hnew, hrest.1, hrest.2]
        exact ⟨rfl, rfl⟩
      · rw [if_neg hs, List.filter_cons_of_neg hs]
        dsimp only
        rw [List.filter_cons_of_neg hs]
        exact ih n offset

/-- What the loops for some groups leave as it is. -/
def Kept (ks : List Nat) (s t : Section) : Prop :=
  t.shFlags = s.shFlags ∧ t.dataOffset = s.dataOffset ∧ ((∀ k ∈ ks, s.inGroup k = false) → t = s)

theorem Kept.trans {ks ks' : List Nat} {secs secs' secs'' : List Section}
    (h : List.Forall₂ (Kept ks) secs secs') (h' : List.Forall₂ (Kept ks') secs' secs'') :
    List.Forall₂ (Kept (ks ++ ks')) secs secs'' := by
  induction h generalizing secs'' with
  | nil =>
      cases h'
      exact List.Forall₂.nil
  | @cons s t _ _ hst _ ih =>
      cases h' with
      | @cons _ u _ _ htu hrest =>
          refine List.Forall₂.cons ⟨htu.1.trans hst.1, htu.2.1.trans hst.2.1, fun hout => ?_⟩
            (ih hrest)
          have hts := hst.2.2 fun k hk => hout k (List.mem_append_left ks' hk)
          have hut := htu.2.2 fun k hk => hts ▸ hout k (List.mem_append_right ks hk)
          exact hut.trans hts

theorem placeGroup_kept (page : PageSize) (mem : BitVec 64) (k n : Nat) (offset : BitVec 32)
    (secs : List Section) :
    List.Forall₂ (Kept [k]) secs (placeGroup page mem k n offset secs).1 := by
  induction secs generalizing n offset with
  | nil => exact List.Forall₂.nil
  | cons s secs ih =>
      unfold placeGroup
      by_cases hs : s.inGroup k = true
      · rw [if_pos hs]
        refine List.Forall₂.cons ⟨by simp, by simp, fun h => ?_⟩ (ih _ _)
        exact absurd (hs.symm.trans (h k List.mem_cons_self)) (by decide)
      · rw [if_neg hs]
        exact List.Forall₂.cons ⟨rfl, rfl, fun _ => rfl⟩ (ih _ _)

/-- The sections of another group stay. -/
theorem filter_of_kept {secs secs' : List Section} {j : Nat} (hj : j < 3) (hk : k < 3)
    (hjk : j ≠ k) (h : List.Forall₂ (Kept [k]) secs secs') :
    secs'.filter (Section.inGroup j) = secs.filter (Section.inGroup j) := by
  induction h with
  | nil => rfl
  | @cons s t secs secs' hst _ ih =>
      have hflag := Section.inGroup_congr hst.1 j
      by_cases hs : s.inGroup j = true
      · have hout : s.inGroup k = false :=
          Bool.eq_false_iff.mpr fun hk' => hjk (Section.inGroup_unique hj hk hs hk')
        have hts : t = s := hst.2.2 fun k' hk' => (List.mem_singleton.mp hk').symm ▸ hout
        rw [hts, List.filter_cons_of_pos hs, List.filter_cons_of_pos hs, ih]
      · rw [List.filter_cons_of_neg hs, List.filter_cons_of_neg (hflag ▸ hs), ih]

end Groups

/-! ## The whole layout -/

/-- How the sections are placed, from the start of the memory. -/
structure PlacedAt (page : PageSize) (mem : BitVec 64) (secs out : List Section) : Prop where
  rx : out.filter (Section.inGroup 0) = (placeSeq mem 0 (groupSeq page 0 secs)).1
  ro : out.filter (Section.inGroup 1) =
    (placeSeq mem (placeSeq mem 0 (groupSeq page 0 secs)).2 (groupSeq page 1 secs)).1
  rw : out.filter (Section.inGroup 2) =
    (placeSeq mem (placeSeq mem (placeSeq mem 0 (groupSeq page 0 secs)).2
      (groupSeq page 1 secs)).2 (groupSeq page 2 secs)).1
  kept : List.Forall₂ (Kept [0, 1, 2]) secs out

section Sections

variable {page : PageSize} {mem : BitVec 64}

theorem placeSections_placedAt (page : PageSize) (mem : BitVec 64) (secs : List Section) :
    PlacedAt page mem secs (placeSections page mem secs).1 ∧
      (placeSections page mem secs).2 = (placeSeq mem 0 (ordered page secs)).2 := by
  unfold placeSections
  dsimp only
  have hrx := @placeGroup_filter page mem 0 0 0 secs
  have hrx' := placeGroup_kept page mem 0 0 0 secs
  generalize placeGroup page mem 0 0 0 secs = rx at hrx hrx'
  have hro := @placeGroup_filter page mem 1 0 rx.2 rx.1
  have hro' := placeGroup_kept page mem 1 0 rx.2 rx.1
  generalize placeGroup page mem 1 0 rx.2 rx.1 = ro at hro hro'
  have hrw := @placeGroup_filter page mem 2 0 ro.2 ro.1
  have hrw' := placeGroup_kept page mem 2 0 ro.2 ro.1
  generalize placeGroup page mem 2 0 ro.2 ro.1 = rw' at hrw hrw'
  have h10 := filter_of_kept (j := 1) (by decide) (by decide) (by decide) hrx'
  have h20 := filter_of_kept (j := 2) (by decide) (by decide) (by decide) hrx'
  have h01 := filter_of_kept (j := 0) (by decide) (by decide) (by decide) hro'
  have h21 := filter_of_kept (j := 2) (by decide) (by decide) (by decide) hro'
  have h02 := filter_of_kept (j := 0) (by decide) (by decide) (by decide) hrw'
  have h12 := filter_of_kept (j := 1) (by decide) (by decide) (by decide) hrw'
  rw [h10] at hro
  rw [h21, h20] at hrw
  rw [hrx.2] at hro
  rw [hro.2] at hrw
  refine ⟨⟨?_, ?_, hrw.1, Kept.trans (Kept.trans hrx' hro') hrw'⟩, ?_⟩
  · rw [h02, h01]
    exact hrx.1
  · rw [h12]
    exact hro.1
  · rw [hrw.2]
    unfold ordered
    rw [placeSeq_append, placeSeq_append]
    rfl

theorem startPages_placeSeq (page : PageSize) (mem : BitVec 64) (k : Nat) (offset : BitVec 32)
    (secs : List Section) :
    startPages page k 0 (placeSeq mem offset (startPages page k 0 secs)).1 =
      (placeSeq mem offset (startPages page k 0 secs)).1 := by
  cases secs with
  | nil => rfl
  | cons s secs =>
      show Section.startPage page k 1 (assign mem offset (s.startPage page k 1)).1 :: _ = _ :: _
      congr 1
      by_cases hk : 1 = 1 ∧ k ≤ runmemRo
      · unfold Section.startPage
        rw [if_pos hk, if_pos hk]
        rfl
      · exact if_neg hk

/-- The second call finds the alignments that the first one has set, and places the sections
alike. -/
theorem runSections_placedAt (page : PageSize) (mem : BitVec 64) (secs : List Section) :
    PlacedAt page mem secs (runSections page mem secs) := by
  obtain ⟨hrx, hro, hrw, hkept⟩ := (placeSections_placedAt page 0 secs).1
  obtain ⟨hrx', hro', hrw', hkept'⟩ :=
    (placeSections_placedAt page mem (placeSections page 0 secs).1).1
  have h0 : groupSeq page 0 (placeSections page 0 secs).1 =
      (placeSeq 0 0 (groupSeq page 0 secs)).1 :=
    (congrArg (startPages page 0 0) hrx).trans (startPages_placeSeq page 0 0 _ _)
  have h1 : groupSeq page 1 (placeSections page 0 secs).1 =
      (placeSeq 0 (placeSeq 0 0 (groupSeq page 0 secs)).2 (groupSeq page 1 secs)).1 :=
    (congrArg (startPages page 1 0) hro).trans (startPages_placeSeq page 0 1 _ _)
  have h2 : groupSeq page 2 (placeSections page 0 secs).1 =
      (placeSeq 0 (placeSeq 0 (placeSeq 0 0 (groupSeq page 0 secs)).2
        (groupSeq page 1 secs)).2 (groupSeq page 2 secs)).1 :=
    (congrArg (startPages page 2 0) hrw).trans (startPages_placeSeq page 0 2 _ _)
  rw [h0, placeSeq_placeSeq] at hrx'
  rw [h0, h1, placeSeq_placeSeq, placeSeq_placeSeq] at hro'
  rw [h0, h1, h2, placeSeq_placeSeq, placeSeq_placeSeq, placeSeq_placeSeq] at hrw'
  refine ⟨hrx', hro', hrw', (Kept.trans hkept hkept').imp fun s t hst => ?_⟩
  exact ⟨hst.1, hst.2.1, fun hout => hst.2.2 fun k hk =>
    hout k ((List.mem_append.mp hk).elim id id)⟩

/-- The items in the order of their places. -/
def items (page : PageSize) (secs : List Section) : List Item :=
  (ordered page secs).map Section.item

variable {secs out : List Section}

theorem PlacedAt.ordered_eq (h : PlacedAt page mem secs out) :
    out.filter (Section.inGroup 0) ++
        (out.filter (Section.inGroup 1) ++ out.filter (Section.inGroup 2)) =
      (placeSeq mem 0 (ordered page secs)).1 := by
  unfold ordered
  rw [placeSeq_append, placeSeq_append, h.rx, h.ro, h.rw]

/-- The sections of a group have the places of the items. -/
theorem PlacedAt.mem_placed (h : PlacedAt page mem secs out) (hmem : mem ≠ 0)
    (hend : finish mem.toNat (items page secs) < mem.toNat + 2 ^ 32)
    (h64 : finish mem.toNat (items page secs) < 2 ^ 64) {k : Nat} (hk : k < 3) {t : Section}
    (ht : t ∈ out) (htk : t.inGroup k = true) :
    (t.shAddr.toNat, t.item) ∈ placed mem.toNat (items page secs) := by
  have heq := (@placeSeq_eq mem 0 _ hend h64).2 hmem
  have hall : t ∈ (placeSeq mem 0 (ordered page secs)).1 := by
    rw [← h.ordered_eq]
    have hfilter : t ∈ out.filter (Section.inGroup k) := List.mem_filter.mpr ⟨ht, htk⟩
    match k, hk with
    | 0, _ => exact List.mem_append_left _ hfilter
    | 1, _ => exact List.mem_append_right _ (List.mem_append_left _ hfilter)
    | 2, _ => exact List.mem_append_right _ (List.mem_append_right _ hfilter)
  have hmap := List.mem_map_of_mem (f := fun s : Section => (s.shAddr.toNat, s.item)) hall
  rw [heq] at hmap
  exact hmap

/-- The elements of one kind and those of another one make up those of both. -/
theorem filter_or_perm {α : Type} {p q : α → Bool} (l : List α)
    (h : ∀ a, p a = true → q a = false) :
    List.Perm (l.filter p ++ l.filter q) (l.filter fun a => p a || q a) := by
  induction l with
  | nil => exact List.Perm.refl _
  | cons a l ih =>
      by_cases hp : p a = true
      · rw [List.filter_cons_of_pos hp, List.filter_cons_of_neg (by rw [h a hp]; decide),
          List.filter_cons_of_pos (by rw [hp, Bool.true_or])]
        exact ih.cons a
      · by_cases hq : q a = true
        · rw [List.filter_cons_of_neg hp, List.filter_cons_of_pos hq,
            List.filter_cons_of_pos (by rw [hq, Bool.or_true])]
          exact List.perm_middle.trans (ih.cons a)
        · rw [List.filter_cons_of_neg hp, List.filter_cons_of_neg hq,
            List.filter_cons_of_neg (by simp [hp, hq])]
          exact ih

/-- The range of a section is apart from the range of another one. -/
def Apart (s t : Section) : Prop :=
  s.shAddr.toNat + s.dataOffset.toNat ≤ t.shAddr.toNat ∨
    t.shAddr.toNat + t.dataOffset.toNat ≤ s.shAddr.toNat

theorem PlacedAt.pairwise (h : PlacedAt page mem secs out) (hmem : mem ≠ 0)
    (hend : finish mem.toNat (items page secs) < mem.toNat + 2 ^ 32)
    (h64 : finish mem.toNat (items page secs) < 2 ^ 64) :
    (out.filter fun s => s.inGroup 0 || (s.inGroup 1 || s.inGroup 2)).Pairwise Apart := by
  have heq := (@placeSeq_eq mem 0 _ hend h64).2 hmem
  have hpair := placed_pairwise mem.toNat (items page secs)
  have hpair' : ((placeSeq mem 0 (ordered page secs)).1).Pairwise Apart := by
    have := heq ▸ hpair
    exact (List.pairwise_map.mp this).imp fun hst => .inl hst
  rw [← h.ordered_eq] at hpair'
  have hne : ∀ {j k : Nat}, j < 3 → k < 3 → j ≠ k → ∀ s : Section,
      s.inGroup j = true → s.inGroup k = false := fun hj hk hjk s hs =>
    Bool.eq_false_iff.mpr fun hk' => hjk (Section.inGroup_unique hj hk hs hk')
  have hperm := filter_or_perm out (hne (j := 1) (k := 2) (by decide) (by decide) (by decide))
  have hperm' := filter_or_perm (p := Section.inGroup 0)
    (q := fun s => s.inGroup 1 || s.inGroup 2) out fun s hs => by
      rw [hne (by decide) (by decide) (by decide) s hs,
        hne (by decide) (by decide) (by decide) s hs]
      rfl
  exact ((hperm.append_left _).trans hperm').pairwise hpair' fun hst => hst.symm

end Sections

end TccRiscv64.Run
