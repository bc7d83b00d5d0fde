import TccRiscv64.Data.Splay

set_option autoImplicit false

/-! # The tree of regions

The bounds checker keeps the regions of memory that it knows in a splay tree. A region is found by an
address inside it, or by its end. -/

namespace TccRiscv64.Bcheck

open Data

/-- What a node of the tree says about its region. -/
structure Region where
  start : BitVec 64
  size : BitVec 64
  type : BitVec 8
  isInvalid : BitVec 8
  deriving DecidableEq

abbrev Tree := BinTree Region

/-- `TCC_TYPE_NONE` -/
def tccTypeNone : BitVec 8 := 0

/-- `compare` -/
def compare (start : BitVec 64) (t : Region) : Ordering :=
  if start < t.start then .lt else if t.start + t.size ≤ start then .gt else .eq

/-- `compare_end` -/
def compareEnd (start : BitVec 64) (t : Region) : Ordering :=
  if start < t.start + t.size then .lt else if t.start + t.size < start then .gt else .eq

/-- `splay` -/
def splay (addr : BitVec 64) (t : Tree) : Tree := t.splayBy (compare addr)

/-- `splay_end` -/
def splayEnd (addr : BitVec 64) (t : Tree) : Tree := t.splayBy (compareEnd addr)

/-- `splay_insert` -/
def splayInsert (addr size : BitVec 64) (t : Tree) : Tree :=
  let new : Region := ⟨addr, size, tccTypeNone, 0⟩
  match splay addr t with
  | .nil => .node .nil new .nil
  | .node left x right =>
    match compare addr x with
    | .eq => .node left x right
    | .lt => .node left new (.node .nil x right)
    | .gt => .node (.node left x .nil) new right

/-- `splay_delete` -/
def splayDelete (addr : BitVec 64) (t : Tree) : Tree :=
  match splay addr t with
  | .nil => .nil
  | .node left x right =>
    if addr = x.start then
      match left with
      | .nil => right
      | .node ll lx lr =>
        match splay addr (.node ll lx lr) with
        | .nil => .nil
        | .node left' x' _ => .node left' x' right
    else .node left x right

/-! ## Regions of memory -/

namespace Region

/-- The address behind a region. -/
def endAddr (r : Region) : Nat := r.start.toNat + r.size.toNat

/-- The end of a region is an address. -/
def Bounded (r : Region) : Prop := r.endAddr < 2 ^ 64

def Contains (r : Region) (addr : BitVec 64) : Prop :=
  r.start.toNat ≤ addr.toNat ∧ addr.toNat < r.endAddr

instance (r : Region) (addr : BitVec 64) : Decidable (r.Contains addr) :=
  inferInstanceAs (Decidable (_ ∧ _))

/-- A region is before another one. -/
def Before (a b : Region) : Prop := a.endAddr ≤ b.start.toNat

/-- Two regions have no address in common. -/
def Disjoint (a b : Region) : Prop := a.Before b ∨ b.Before a

instance (r : Region) : Decidable r.Bounded := inferInstanceAs (Decidable (_ < _))
instance (a b : Region) : Decidable (a.Before b) := inferInstanceAs (Decidable (_ ≤ _))
instance (a b : Region) : Decidable (a.Disjoint b) := inferInstanceAs (Decidable (_ ∨ _))

variable {r a b : Region} {addr : BitVec 64}

theorem toNat_end (h : r.Bounded) : (r.start + r.size).toNat = r.endAddr := by
  unfold Bounded endAddr at h
  rw [BitVec.toNat_add, Nat.mod_eq_of_lt h]
  rfl

theorem compare_lt_iff : compare addr r = .lt ↔ addr.toNat < r.start.toNat := by
  unfold compare
  rw [← BitVec.lt_def]
  split
  · rename_i h
    exact iff_of_true rfl h
  · rename_i h
    refine iff_of_false ?_ h
    split <;> decide

theorem compare_of_bounded (h : r.Bounded) : compare addr r =
    if addr.toNat < r.start.toNat then .lt else if r.endAddr ≤ addr.toNat then .gt else .eq := by
  unfold compare
  simp only [BitVec.lt_def, BitVec.le_def, toNat_end h]

theorem compare_gt_iff (h : r.Bounded) : compare addr r = .gt ↔ r.endAddr ≤ addr.toNat := by
  rw [compare_of_bounded h]
  unfold endAddr
  split
  · exact iff_of_false (by decide) (by omega)
  · split
    · exact iff_of_true rfl (by omega)
    · exact iff_of_false (by decide) (by omega)

theorem compare_eq_iff (h : r.Bounded) : compare addr r = .eq ↔ r.Contains addr := by
  rw [compare_of_bounded h]
  unfold Contains
  split
  · exact iff_of_false (by decide) (by omega)
  · split
    · exact iff_of_false (by decide) (by omega)
    · exact iff_of_true rfl (by omega)

theorem compareEnd_of_bounded (h : r.Bounded) : compareEnd addr r =
    if addr.toNat < r.endAddr then .lt else if r.endAddr < addr.toNat then .gt else .eq := by
  unfold compareEnd
  simp only [BitVec.lt_def, toNat_end h]

theorem compareEnd_lt_iff (h : r.Bounded) : compareEnd addr r = .lt ↔ addr.toNat < r.endAddr := by
  rw [compareEnd_of_bounded h]
  split
  · exact iff_of_true rfl (by omega)
  · split
    · exact iff_of_false (by decide) (by omega)
    · exact iff_of_false (by decide) (by omega)

theorem compareEnd_gt_iff (h : r.Bounded) : compareEnd addr r = .gt ↔ r.endAddr < addr.toNat := by
  rw [compareEnd_of_bounded h]
  split
  · exact iff_of_false (by decide) (by omega)
  · split
    · exact iff_of_true rfl (by omega)
    · exact iff_of_false (by decide) (by omega)

theorem compareEnd_eq_iff (h : r.Bounded) : compareEnd addr r = .eq ↔ r.endAddr = addr.toNat := by
  rw [compareEnd_of_bounded h]
  split
  · exact iff_of_false (by decide) (by omega)
  · split
    · exact iff_of_false (by decide) (by omega)
    · exact iff_of_true rfl (by omega)

end Region

/-! ## Lookups -/

/-- The regions of a tree, from left to right. -/
structure Sorted (regions : List Region) : Prop where
  bounded : ∀ r ∈ regions, r.Bounded
  before : regions.Pairwise Region.Before

variable {t : Tree} {addr : BitVec 64}

theorem Sorted.ordered (h : Sorted t.inorder) : BinTree.Ordered (compare addr) t.inorder := by
  refine h.before.imp_of_mem fun {a b} ha hb hab => ?_
  rw [Region.compare_gt_iff (h.bounded a ha), Region.compare_lt_iff]
  unfold Region.Before at hab
  omega

/-- The region that contains an address becomes the root. -/
theorem root?_splay (h : Sorted t.inorder) {r : Region} (hr : r ∈ t.inorder)
    (hin : r.Contains addr) : (splay addr t).root? = some r :=
  BinTree.root?_splayBy h.ordered hr ((Region.compare_eq_iff (h.bounded r hr)).mpr hin)

/-- The region that ends at an address becomes the root, unless an empty region is there. -/
theorem root?_splayEnd (h : Sorted t.inorder) {r : Region} (hr : r ∈ t.inorder)
    (hend : r.endAddr = addr.toNat)
    (hother : ∀ b ∈ t.inorder, b.start.toNat = addr.toNat → b.endAddr ≠ addr.toNat) :
    (splayEnd addr t).root? = some r := by
  refine BinTree.root?_splayBy ?_ hr ((Region.compareEnd_eq_iff (h.bounded r hr)).mpr hend)
  refine h.before.imp_of_mem fun {a b} ha hb hab => ?_
  rw [Region.compareEnd_gt_iff (h.bounded a ha), Region.compareEnd_lt_iff (h.bounded b hb)]
  have hne := hother b hb
  unfold Region.Before at hab
  unfold Region.endAddr at *
  omega

theorem inorder_splay (addr : BitVec 64) (t : Tree) : (splay addr t).inorder = t.inorder :=
  BinTree.inorder_splayBy _ t

theorem inorder_splayEnd (addr : BitVec 64) (t : Tree) : (splayEnd addr t).inorder = t.inorder :=
  BinTree.inorder_splayBy _ t

end TccRiscv64.Bcheck
