import TccRiscv64.Bcheck.Regions

set_option autoImplicit false

/-! # Checking pointers

Pointer arithmetic and accesses are checked against the region that the pointer is in, or that it is
behind. -/

namespace TccRiscv64.Bcheck

open Data

/-- `INVALID_POINTER` -/
def invalidPointer : BitVec 64 := -2

/-- `addr - tree->start` -/
def offsetIn (t : Tree) (addr : BitVec 64) : Option (BitVec 64 × Region) :=
  t.root?.map fun r => (addr - r.start, r)

/-- Whether the root does not contain an address: `addr >= tree->size`. -/
def outside (t : Tree) (addr : BitVec 64) : Bool :=
  (offsetIn t addr).any fun x => decide (x.2.size ≤ x.1)

/-- The tree is splayed for an address, unless the root contains it, and then for an end. -/
def lookup (p : BitVec 64) (t : Tree) : Tree :=
  let t := if outside t p then splay p t else t
  if outside t p then splayEnd p t else t

/-- `__bound_ptr_add`, and what becomes of the tree. -/
def boundPtrAdd (noChecking : Bool) (neverFatal : Int) (t : Tree) (p offset : BitVec 64) :
    BitVec 64 × Tree :=
  if noChecking then (p + offset, t)
  else
    let t := lookup p t
    match offsetIn t p with
    | none => (p + offset, t)
    | some (addr, r) =>
      if addr ≤ r.size then
        if r.isInvalid ≠ 0 ∨ r.size < addr + offset then
          (if neverFatal ≤ 0 then invalidPointer else p + offset, t)
        else (p + offset, t)
      else (p + offset, t)

/-- `BOUND_PTR_INDIR`, and what becomes of the tree. -/
def boundPtrIndir (dsize : BitVec 64) (noChecking : Bool) (neverFatal : Int) (t : Tree)
    (p offset : BitVec 64) : BitVec 64 × Tree :=
  if noChecking then (p + offset, t)
  else
    let t := lookup p t
    match offsetIn t p with
    | none => (p + offset, t)
    | some (addr, r) =>
      if addr ≤ r.size then
        if r.isInvalid ≠ 0 ∨ r.size < addr + offset + dsize then
          (if neverFatal ≤ 0 then invalidPointer else p + offset, t)
        else (p + offset, t)
      else (p + offset, t)

/-- `__bound_ptr_indir1` -/
def boundPtrIndir1 := boundPtrIndir 1

/-- `__bound_ptr_indir2` -/
def boundPtrIndir2 := boundPtrIndir 2

/-- `__bound_ptr_indir4` -/
def boundPtrIndir4 := boundPtrIndir 4

/-- `__bound_ptr_indir8` -/
def boundPtrIndir8 := boundPtrIndir 8

/-- `__bound_ptr_indir12` -/
def boundPtrIndir12 := boundPtrIndir 12

/-- `__bound_ptr_indir16` -/
def boundPtrIndir16 := boundPtrIndir 16

/-- The functions that check an access, with the number of bytes. -/
def boundPtrIndirs : List (Nat × (Bool → Int → Tree → BitVec 64 → BitVec 64 → BitVec 64 × Tree)) :=
  [(1, boundPtrIndir1), (2, boundPtrIndir2), (4, boundPtrIndir4), (8, boundPtrIndir8),
    (12, boundPtrIndir12), (16, boundPtrIndir16)]

/-! ## The region of a pointer -/

/-- A pointer is inside a region, or behind it where no other region starts. -/
def PointsTo (regions : List Region) (r : Region) (p : BitVec 64) : Prop :=
  r.Contains p ∨ r.endAddr = p.toNat ∧ ∀ b ∈ regions, b.start ≠ p

section Lookup

variable {t : Tree} {r : Region} {p : BitVec 64}

theorem sub_lt_iff (h : r.Bounded) : p - r.start < r.size ↔ r.Contains p := by
  unfold Region.Bounded Region.endAddr at h
  unfold Region.Contains Region.endAddr
  rw [BitVec.lt_def, BitVec.toNat_sub]
  have := p.isLt
  omega

theorem sub_le_iff (h : r.Bounded) :
    p - r.start ≤ r.size ↔ r.start.toNat ≤ p.toNat ∧ p.toNat ≤ r.endAddr := by
  unfold Region.Bounded at h
  unfold Region.endAddr at *
  rw [BitVec.le_def, BitVec.toNat_sub]
  have := p.isLt
  omega

theorem mem_of_root? (hroot : t.root? = some r) : r ∈ t.inorder := by
  cases t with
  | nil => cases hroot
  | node left x right =>
      obtain rfl := Option.some.inj hroot
      exact List.mem_append_right _ List.mem_cons_self

theorem outside_eq (h : Sorted t.inorder) (hroot : t.root? = some r) :
    outside t p = decide (¬ r.Contains p) := by
  unfold outside offsetIn
  rw [hroot]
  refine decide_eq_decide.mpr ?_
  rw [← sub_lt_iff (h.bounded r (mem_of_root? hroot)), BitVec.not_lt]

/-- Different regions have no address in common. -/
theorem Sorted.disjoint {regions : List Region} (h : Sorted regions) {a b : Region}
    (ha : a ∈ regions) (hb : b ∈ regions) (hne : a ≠ b) : a.Disjoint b := by
  have hsymm : Std.Symm Region.Disjoint := ⟨fun _ _ hab => hab.symm⟩
  exact (h.before.imp fun {a b} hab => (.inl hab : a.Disjoint b)).forall ha hb hne

/-- The region that a pointer is inside, or behind, becomes the root. -/
theorem root?_lookup (h : Sorted t.inorder) (hr : r ∈ t.inorder) (hpos : 0 < r.size.toNat)
    (hp : PointsTo t.inorder r p) : (lookup p t).root? = some r := by
  have hsplay : Sorted (splay p t).inorder := by
    rw [inorder_splay]
    exact h
  have hx : ∃ x, t.root? = some x := by
    cases t with
    | nil => exact absurd hr List.not_mem_nil
    | node left x right => exact ⟨x, rfl⟩
  obtain ⟨x, hx⟩ := hx
  have hxmem := mem_of_root? hx
  unfold lookup
  simp only
  rcases hp with hin | ⟨hend, hnone⟩
  · have hroot := root?_splay h hr hin
    have hnext : ∀ t' : Tree, Sorted t'.inorder → t'.root? = some r →
        (if outside t' p = true then splayEnd p t' else t').root? = some r := by
      intro t' hsorted hroot'
      rw [outside_eq hsorted hroot', if_neg (by simpa using hin)]
      exact hroot'
    by_cases hout : outside t p = true
    · rw [if_pos hout]
      exact hnext _ hsplay hroot
    · rw [if_neg hout]
      rw [outside_eq h hx] at hout
      have hxin : x.Contains p := by simpa using hout
      have hxr : x = r := Option.some.inj ((root?_splay h hxmem hxin).symm.trans hroot)
      exact hnext t h (hxr ▸ hx)
  · -- No region contains the pointer.
    have hout : ∀ b ∈ t.inorder, ¬ b.Contains p := by
      rintro b hb ⟨hle, hlt⟩
      have hstart := hnone b hb
      have hstart' : b.start.toNat ≠ p.toNat := fun heq => hstart (BitVec.eq_of_toNat_eq heq)
      by_cases hbr : b = r
      · rw [hbr] at hlt
        omega
      · have := h.disjoint hb hr hbr
        unfold Region.Disjoint Region.Before Region.endAddr at *
        omega
    have hfirst : outside t p = true := by
      rw [outside_eq h hx]
      exact decide_eq_true (hout x hxmem)
    rw [if_pos hfirst]
    have hy : ∃ y, (splay p t).root? = some y := by
      cases hs : splay p t with
      | nil =>
          rw [hs] at hsplay
          have := inorder_splay p t
          rw [hs] at this
          exact absurd (this ▸ hr) List.not_mem_nil
      | node left y right => exact ⟨y, rfl⟩
    obtain ⟨y, hy⟩ := hy
    have hymem := mem_of_root? hy
    rw [inorder_splay] at hymem
    have hsecond : outside (splay p t) p = true := by
      rw [outside_eq hsplay hy]
      exact decide_eq_true (hout y hymem)
    rw [if_pos hsecond]
    refine root?_splayEnd hsplay (by rwa [inorder_splay]) hend fun b hb hstart => ?_
    rw [inorder_splay] at hb
    exact absurd (BitVec.eq_of_toNat_eq hstart) (hnone b hb)

end Lookup

/-! ## The answers -/

/-- The pointer that arithmetic in a region gives. -/
def ptrAddSpec (r : Region) (q : BitVec 64) : BitVec 64 :=
  if r.start.toNat ≤ q.toNat ∧ q.toNat ≤ r.endAddr then q else invalidPointer

/-- The pointer for an access of `n` bytes in a region. -/
def ptrIndirSpec (r : Region) (n : Nat) (q : BitVec 64) : BitVec 64 :=
  if r.start.toNat ≤ q.toNat ∧ q.toNat + n ≤ r.endAddr then q else invalidPointer

/-- An access begins before the region, by as many bytes as it has or less, and does not go past the
end of the region. -/
def Underruns (r : Region) (n : Nat) (q : BitVec 64) : Prop :=
  0 < (r.start - q).toNat ∧ (r.start - q).toNat ≤ n ∧ n ≤ (r.start - q).toNat + r.size.toNat

section Answers

variable {t : Tree} {r : Region} {p : BitVec 64} {neverFatal : Int}

theorem offsetIn_lookup (h : Sorted t.inorder) (hr : r ∈ t.inorder) (hpos : 0 < r.size.toNat)
    (hp : PointsTo t.inorder r p) : offsetIn (lookup p t) p = some (p - r.start, r) := by
  unfold offsetIn
  rw [root?_lookup h hr hpos hp]
  rfl

/-- The pointer is in the region or behind it. -/
theorem PointsTo.sub_le {regions : List Region} (hbounded : r.Bounded)
    (hp : PointsTo regions r p) : p - r.start ≤ r.size := by
  rw [sub_le_iff hbounded]
  rcases hp with hin | ⟨hend, -⟩
  · exact ⟨hin.1, Nat.le_of_lt hin.2⟩
  · unfold Region.endAddr at *
    omega

theorem sub_add (p offset start : BitVec 64) : p - start + offset = p + offset - start := by
  rw [BitVec.sub_eq_add_neg, BitVec.sub_eq_add_neg, BitVec.add_assoc, BitVec.add_assoc,
    BitVec.add_comm offset]

theorem boundPtrAdd_eq (h : Sorted t.inorder) (hr : r ∈ t.inorder) (hpos : 0 < r.size.toNat)
    (hvalid : r.isInvalid = 0) (hp : PointsTo t.inorder r p) (hnf : neverFatal ≤ 0)
    (offset : BitVec 64) :
    (boundPtrAdd false neverFatal t p offset).1 = ptrAddSpec r (p + offset) := by
  have hbounded := h.bounded r hr
  unfold boundPtrAdd
  simp only [Bool.false_eq_true, if_false, offsetIn_lookup h hr hpos hp, hp.sub_le hbounded,
    if_true, hvalid, ne_eq, not_true_eq_false, false_or, hnf]
  unfold ptrAddSpec
  rw [sub_add]
  by_cases hle : p + offset - r.start ≤ r.size
  · rw [if_neg (BitVec.not_lt.mpr hle), if_pos ((sub_le_iff hbounded).mp hle)]
  · rw [if_pos (BitVec.not_le.mp hle), if_neg fun hin => hle ((sub_le_iff hbounded).mpr hin)]

theorem boundPtrIndir_eq (h : Sorted t.inorder) (hr : r ∈ t.inorder) (hpos : 0 < r.size.toNat)
    (hvalid : r.isInvalid = 0) (hp : PointsTo t.inorder r p) (hnf : neverFatal ≤ 0)
    (dsize offset : BitVec 64) :
    (boundPtrIndir dsize false neverFatal t p offset).1 =
      if r.size < p + offset - r.start + dsize then invalidPointer else p + offset := by
  unfold boundPtrIndir
  simp only [Bool.false_eq_true, if_false, offsetIn_lookup h hr hpos hp,
    hp.sub_le (h.bounded r hr), if_true, hvalid, ne_eq, not_true_eq_false, false_or, hnf]
  rw [sub_add]
  split <;> rfl

/-- Which accesses pass the test. -/
theorem indir_test_iff (hbounded : r.Bounded) {n : Nat} (hn : n < 2 ^ 64) (q : BitVec 64) :
    ¬ r.size < q - r.start + BitVec.ofNat 64 n ↔
      (r.start.toNat ≤ q.toNat ∧ q.toNat + n ≤ r.endAddr) ∨ Underruns r n q := by
  unfold Region.Bounded at hbounded
  unfold Underruns Region.endAddr at *
  rw [BitVec.lt_def, BitVec.toNat_add, BitVec.toNat_sub, BitVec.toNat_sub, BitVec.toNat_ofNat]
  have := q.isLt
  omega

/-- An access gets the right answer exactly if it does not begin before the region and end in it. -/
theorem boundPtrIndir_correct_iff (h : Sorted t.inorder) (hr : r ∈ t.inorder)
    (hpos : 0 < r.size.toNat) (hvalid : r.isInvalid = 0) (hp : PointsTo t.inorder r p)
    (hnf : neverFatal ≤ 0) {n : Nat} (hn : n < 2 ^ 64) (offset : BitVec 64) :
    (boundPtrIndir (BitVec.ofNat 64 n) false neverFatal t p offset).1 =
        ptrIndirSpec r n (p + offset) ↔
      ¬ Underruns r n (p + offset) ∨ p + offset = invalidPointer := by
  have hbounded := h.bounded r hr
  have htest := indir_test_iff hbounded hn (p + offset)
  rw [boundPtrIndir_eq h hr hpos hvalid hp hnf]
  unfold ptrIndirSpec
  generalize p + offset = q at *
  have hexcl : Underruns r n q → ¬ (r.start.toNat ≤ q.toNat ∧ q.toNat + n ≤ r.endAddr) := by
    unfold Underruns Region.Bounded Region.endAddr at *
    rw [BitVec.toNat_sub]
    have := q.isLt
    omega
  by_cases hunder : Underruns r n q
  · rw [if_neg (htest.mpr (.inr hunder)), if_neg (hexcl hunder), or_iff_right (not_not.mpr hunder)]
  · rw [or_iff_left hunder] at htest
    refine iff_of_true ?_ (.inl hunder)
    by_cases hin : r.start.toNat ≤ q.toNat ∧ q.toNat + n ≤ r.endAddr
    · rw [if_neg (htest.mpr hin), if_pos hin]
    · rw [if_pos (not_not.mp fun hlt => hin (htest.mp hlt)), if_neg hin]

theorem boundPtrIndirs_eq : ∀ f ∈ boundPtrIndirs,
    f.2 = boundPtrIndir (BitVec.ofNat 64 f.1) ∧ f.1 < 2 ^ 64 := by
  unfold boundPtrIndirs
  simp only [List.forall_mem_cons]
  refine ⟨⟨rfl, by decide⟩, ⟨rfl, by decide⟩, ⟨rfl, by decide⟩, ⟨rfl, by decide⟩, ⟨rfl, by decide⟩,
    ⟨rfl, by decide⟩, fun f hf => absurd hf List.not_mem_nil⟩

/-- Pointer arithmetic is checked correctly, an access exactly if it does not begin before the region
and end in it, and the root of the tree does not matter. -/
theorem pointer_checks (h : Sorted t.inorder) (hr : r ∈ t.inorder) (hpos : 0 < r.size.toNat)
    (hvalid : r.isInvalid = 0) (hp : PointsTo t.inorder r p) (hnf : neverFatal ≤ 0)
    (offset : BitVec 64) :
    (boundPtrAdd false neverFatal t p offset).1 = ptrAddSpec r (p + offset) ∧
    (∀ f ∈ boundPtrIndirs, (f.2 false neverFatal t p offset).1 = ptrIndirSpec r f.1 (p + offset) ↔
      ¬ Underruns r f.1 (p + offset) ∨ p + offset = invalidPointer) ∧
    ∀ t' : Tree, t'.inorder = t.inorder →
      (boundPtrAdd false neverFatal t' p offset).1 = (boundPtrAdd false neverFatal t p offset).1 ∧
      ∀ f ∈ boundPtrIndirs,
        (f.2 false neverFatal t' p offset).1 = (f.2 false neverFatal t p offset).1 := by
  refine ⟨boundPtrAdd_eq h hr hpos hvalid hp hnf offset, fun f hf => ?_, fun t' heq => ?_⟩
  · obtain ⟨hf, hn⟩ := boundPtrIndirs_eq f hf
    rw [hf]
    exact boundPtrIndir_correct_iff h hr hpos hvalid hp hnf hn offset
  · have h' : Sorted t'.inorder := heq ▸ h
    have hr' : r ∈ t'.inorder := heq ▸ hr
    have hp' : PointsTo t'.inorder r p := heq ▸ hp
    refine ⟨?_, fun f hf => ?_⟩
    · rw [boundPtrAdd_eq h hr hpos hvalid hp hnf, boundPtrAdd_eq h' hr' hpos hvalid hp' hnf]
    · rw [(boundPtrIndirs_eq f hf).1, boundPtrIndir_eq h hr hpos hvalid hp hnf,
        boundPtrIndir_eq h' hr' hpos hvalid hp' hnf]

end Answers

/-- A block of 16 bytes at `0x1000`. -/
def blockTree : Tree := .node .nil ⟨0x1000, 16, 1, 0⟩ .nil

theorem pointer_checks_block :
    (boundPtrAdd false 0 blockTree 0x1008 8).1 = ptrAddSpec ⟨0x1000, 16, 1, 0⟩ (0x1008 + 8) := by
  refine (pointer_checks (t := blockTree) ⟨?_, ?_⟩ List.mem_cons_self (by decide) rfl
    (.inl (by decide)) (Int.le_refl 0) 8).1
  · exact List.forall_mem_singleton.mpr (by decide)
  · exact List.pairwise_singleton _ _

/-- The access to the four bytes before the block is let through. -/
theorem underrun_accepted :
    (boundPtrIndir4 false 0 blockTree 0x1000 (-4)).1 ≠
      ptrIndirSpec ⟨0x1000, 16, 1, 0⟩ 4 (0x1000 + -4) := by
  decide

end TccRiscv64.Bcheck
