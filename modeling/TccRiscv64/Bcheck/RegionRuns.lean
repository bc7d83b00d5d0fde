import TccRiscv64.Bcheck.Regions

set_option autoImplicit false

/-! # Runs of the tree of regions

Whatever the order of insertions, deletions and lookups, the tree has the regions that were inserted
and not deleted, from the lowest address to the highest. -/

namespace TccRiscv64.Bcheck

open Data

/-! ## One operation -/

section Operations

variable {t : Tree} {addr size : BitVec 64}

/-- What splaying makes of a tree: the regions below the address, one region, and those above. -/
theorem splay_parts (h : Sorted t.inorder) (ht : t ≠ .nil) (addr : BitVec 64) :
    ∃ left x right, splay addr t = .node left x right ∧
      t.inorder = left.inorder ++ x :: right.inorder ∧
      (∀ a ∈ left.inorder, a.endAddr ≤ addr.toNat) ∧
      ∀ b ∈ right.inorder, addr.toNat < b.start.toNat := by
  obtain ⟨left, x, right, heq, hsplayed⟩ := BinTree.splayBy_splayed ht h.ordered
  have hinorder : t.inorder = left.inorder ++ x :: right.inorder := by
    rw [← inorder_splay addr t]
    exact congrArg BinTree.inorder heq
  refine ⟨left, x, right, heq, hinorder, fun a ha => ?_, fun b hb => ?_⟩
  · refine (Region.compare_gt_iff (h.bounded a ?_)).mp (hsplayed.left a ha)
    rw [hinorder]
    exact List.mem_append_left _ ha
  · exact Region.compare_lt_iff.mp (hsplayed.right b hb)

/-- An insertion inside a region changes the shape of the tree only. -/
theorem inorder_splayInsert_inside (h : Sorted t.inorder) {r : Region} (hr : r ∈ t.inorder)
    (hin : r.Contains addr) : (splayInsert addr size t).inorder = t.inorder := by
  have hroot := root?_splay h hr hin
  have hsame := inorder_splay addr t
  have heq := (Region.compare_eq_iff (h.bounded r hr)).mpr hin
  unfold splayInsert
  split
  · rename_i hnil
    rw [hnil] at hroot
    cases hroot
  · rename_i left x right hnode
    rw [hnode] at hroot hsame
    obtain rfl := Option.some.inj hroot
    rw [heq]
    exact hsame

/-- Any other insertion puts the new region between those below and those above. -/
theorem inorder_splayInsert (h : Sorted t.inorder) (hout : ∀ r ∈ t.inorder, ¬ r.Contains addr) :
    ∃ below above, t.inorder = below ++ above ∧
      (splayInsert addr size t).inorder = below ++ ⟨addr, size, tccTypeNone, 0⟩ :: above ∧
      (∀ a ∈ below, a.endAddr ≤ addr.toNat) ∧ ∀ b ∈ above, addr.toNat < b.start.toNat := by
  unfold splayInsert
  by_cases ht : t = .nil
  · refine ⟨[], [], by rw [ht]; rfl, by rw [ht]; rfl, ?_, ?_⟩ <;>
      exact fun a ha => absurd ha List.not_mem_nil
  · obtain ⟨left, x, right, hnode, hinorder, hbelow, habove⟩ := splay_parts h ht addr
    have hx : x ∈ t.inorder := by
      rw [hinorder]
      exact List.mem_append_right _ List.mem_cons_self
    rw [hnode]
    simp only
    cases hcmp : compare addr x with
    | eq => exact absurd ((Region.compare_eq_iff (h.bounded x hx)).mp hcmp) (hout x hx)
    | lt =>
        have hx' := Region.compare_lt_iff.mp hcmp
        exact ⟨left.inorder, x :: right.inorder, hinorder, rfl, hbelow,
          List.forall_mem_cons.mpr ⟨hx', habove⟩⟩
    | gt =>
        have hx' := (Region.compare_gt_iff (h.bounded x hx)).mp hcmp
        refine ⟨left.inorder ++ [x], right.inorder, ?_, rfl, ?_, habove⟩
        · rw [hinorder, List.append_assoc]
          rfl
        · exact List.forall_mem_append.mpr ⟨hbelow, List.forall_mem_singleton.mpr hx'⟩

/-- A deletion removes the region at the root after splaying, if it starts at the address. -/
theorem inorder_splayDelete_root (h : Sorted t.inorder) {left right : Tree} {x : Region}
    {addr : BitVec 64} (hnode : splay addr t = .node left x right) (hx : x.start = addr)
    (hinorder : t.inorder = left.inorder ++ x :: right.inorder)
    (hbelow : ∀ r ∈ left.inorder, r.endAddr ≤ addr.toNat) :
    (splayDelete addr t).inorder = left.inorder ++ right.inorder := by
  unfold splayDelete
  rw [hnode]
  dsimp only
  rw [if_pos hx.symm]
  cases left with
  | nil => rfl
  | node ll lx lr =>
    -- all the regions on the left are below the address
    have hgt : ∀ a ∈ (BinTree.node ll lx lr).inorder, compare addr a = .gt := fun a ha =>
      (Region.compare_gt_iff (h.bounded a (by
        rw [hinorder]
        exact List.mem_append_left _ ha))).mpr (hbelow a ha)
    obtain ⟨left', x', heq⟩ := BinTree.splayBy_all_before (by simp) hgt
    have hsame := inorder_splay addr (.node ll lx lr)
    change splay addr (.node ll lx lr) = .node left' x' .nil at heq
    rw [heq] at hsame
    dsimp only
    rw [heq, ← hsame]
    simp [BinTree.inorder]

/-- A deletion removes the region that starts at the address. -/
theorem inorder_splayDelete (h : Sorted t.inorder) (hpos : ∀ r ∈ t.inorder, 0 < r.size.toNat)
    (addr : BitVec 64) :
    (splayDelete addr t).inorder = t.inorder.filter fun r => r.start ≠ addr := by
  by_cases ht : t = .nil
  · rw [ht]
    rfl
  obtain ⟨left, x, right, hnode, hinorder, hbelow, habove⟩ := splay_parts h ht addr
  have hmem : ∀ r, r ∈ t.inorder ↔ r ∈ left.inorder ∨ r = x ∨ r ∈ right.inorder := fun r => by
    rw [hinorder, List.mem_append, List.mem_cons]
  have hleft : ∀ r ∈ left.inorder, r.start ≠ addr := by
    rintro r hr rfl
    have := hbelow r hr
    have := hpos r ((hmem r).mpr (.inl hr))
    unfold Region.endAddr at *
    omega
  have hright : ∀ r ∈ right.inorder, r.start ≠ addr := by
    rintro r hr rfl
    exact absurd (habove r hr) (Nat.lt_irrefl _)
  have hfilter : t.inorder.filter (fun r => r.start ≠ addr) =
      left.inorder ++ ((if x.start ≠ addr then [x] else []) ++ right.inorder) := by
    rw [hinorder, List.filter_append, List.filter_eq_self.mpr (by simpa using hleft)]
    congr 1
    split
    · rename_i hx
      rw [List.filter_cons_of_pos (by simpa using hx),
        List.filter_eq_self.mpr (by simpa using hright)]
      rfl
    · rename_i hx
      rw [List.filter_cons_of_neg (by simpa using hx),
        List.filter_eq_self.mpr (by simpa using hright)]
      rfl
  rw [hfilter]
  by_cases hx : x.start = addr
  · rw [inorder_splayDelete_root h hnode hx hinorder hbelow, if_neg (not_not.mpr hx)]
    rfl
  · unfold splayDelete
    rw [hnode]
    dsimp only
    rw [if_pos hx, if_neg (Ne.symm hx)]
    rfl

end Operations

/-! ## Runs -/

/-- A call of one of the four functions. -/
inductive Op
  | insert (addr size : BitVec 64)
  | delete (addr : BitVec 64)
  | splay (addr : BitVec 64)
  | splayEnd (addr : BitVec 64)

def Op.run (t : Tree) : Op → Tree
  | insert addr size => Bcheck.splayInsert addr size t
  | delete addr => Bcheck.splayDelete addr t
  | splay addr => Bcheck.splay addr t
  | splayEnd addr => Bcheck.splayEnd addr t

/-- The regions that are inserted and not deleted, after a call. -/
def Op.live (live : List Region) : Op → List Region
  | insert addr size =>
    if ∃ r ∈ live, r.Contains addr then live else live ++ [⟨addr, size, tccTypeNone, 0⟩]
  | delete addr => live.filter fun r => r.start ≠ addr
  | splay _ | splayEnd _ => live

/-- Regions of positive size that end at an address and have no address in common. -/
structure LiveOk (live : List Region) : Prop where
  pos : ∀ r ∈ live, 0 < r.size.toNat
  bounded : ∀ r ∈ live, r.Bounded
  disjoint : live.Pairwise Region.Disjoint

/-- A caller sets the type of a region, and whether it is valid. -/
def Region.mark (start : BitVec 64) (type isInvalid : BitVec 8) (r : Region) : Region :=
  if r.start = start then { r with type, isInvalid } else r

/-- The trees that calls lead to, each with the regions that are inserted and not deleted. Between
calls the region at the root can be marked. -/
inductive Reachable : Tree → List Region → Prop
  | start : Reachable .nil []
  | call {t : Tree} {live : List Region} (op : Op) :
    Reachable t live → LiveOk (op.live live) → Reachable (op.run t) (op.live live)
  | mark {left right : Tree} {x : Region} {live : List Region} (type isInvalid : BitVec 8) :
    Reachable (.node left x right) live →
      Reachable (.node left (x.mark x.start type isInvalid) right)
        (live.map (Region.mark x.start type isInvalid))

/-- The tree has the live regions, from the lowest address to the highest. -/
structure Represents (t : Tree) (live : List Region) : Prop where
  ok : LiveOk live
  same : t.inorder.Perm live
  before : t.inorder.Pairwise Region.Before

theorem Represents.sorted {t : Tree} {live : List Region} (h : Represents t live) :
    Sorted t.inorder :=
  ⟨fun r hr => h.ok.bounded r (h.same.mem_iff.mp hr), h.before⟩

theorem Represents.congr {t t' : Tree} {live : List Region} (h : Represents t live)
    (heq : t'.inorder = t.inorder) : Represents t' live :=
  ⟨h.ok, heq ▸ h.same, heq ▸ h.before⟩

theorem Represents.call {t : Tree} {live : List Region} (h : Represents t live) {op : Op}
    (hok : LiveOk (op.live live)) : Represents (op.run t) (op.live live) := by
  cases op with
  | splay addr => exact h.congr (inorder_splay addr t)
  | splayEnd addr => exact h.congr (inorder_splayEnd addr t)
  | delete addr =>
      have heq := inorder_splayDelete h.sorted
        (fun r hr => h.ok.pos r (h.same.mem_iff.mp hr)) addr
      refine ⟨hok, ?_, ?_⟩
      · show (splayDelete addr t).inorder.Perm _
        rw [heq]
        exact h.same.filter _
      · show (splayDelete addr t).inorder.Pairwise _
        rw [heq]
        exact h.before.filter _
  | insert addr size =>
      have hinsert : Op.live live (.insert addr size) = if ∃ r ∈ live, r.Contains addr then live
          else live ++ [⟨addr, size, tccTypeNone, 0⟩] := rfl
      rw [hinsert] at hok ⊢
      by_cases hin : ∃ r ∈ live, r.Contains addr
      · rw [if_pos hin]
        obtain ⟨r, hr, hcontains⟩ := hin
        exact h.congr (inorder_splayInsert_inside h.sorted (h.same.mem_iff.mpr hr) hcontains)
      · rw [if_neg hin] at hok ⊢
        obtain ⟨below, above, hinorder, heq, hbelow, habove⟩ := @inorder_splayInsert
          t addr size h.sorted fun r hr hc => hin ⟨r, h.same.mem_iff.mp hr, hc⟩
        have hperm : ((splayInsert addr size t).inorder).Perm
            (live ++ [⟨addr, size, tccTypeNone, 0⟩]) := by
          rw [heq]
          refine List.perm_middle.trans ?_
          rw [← hinorder]
          exact (h.same.cons _).trans (List.perm_append_singleton _ _).symm
        refine ⟨hok, hperm, ?_⟩
        show (splayInsert addr size t).inorder.Pairwise _
        have hbefore := h.before
        rw [hinorder, List.pairwise_append] at hbefore
        obtain ⟨hbb, haa, hba⟩ := hbefore
        rw [heq, List.pairwise_append, List.pairwise_cons]
        refine ⟨hbb, ⟨fun b hb => ?_, haa⟩, fun a ha b hb => ?_⟩
        · -- The regions above do not begin inside the new one.
          have hlive : b ∈ live := h.same.mem_iff.mp (hinorder ▸ List.mem_append_right _ hb)
          have hdisj := (List.pairwise_append.mp hok.disjoint).2.2 b hlive _
            (List.mem_singleton_self _)
          have hstart := habove b hb
          rcases hdisj with hdisj | hdisj
          · unfold Region.Before Region.endAddr at hdisj
            exact absurd hdisj (by simp only; omega)
          · exact hdisj
        · rcases List.mem_cons.mp hb with rfl | hb
          · exact hbelow a ha
          · exact hba a ha b hb

theorem mark_of_ne {start : BitVec 64} {type isInvalid : BitVec 8} {r : Region}
    (h : r.start ≠ start) : r.mark start type isInvalid = r := if_neg h

theorem mark_same (start : BitVec 64) (type isInvalid : BitVec 8) (r : Region) :
    (r.mark start type isInvalid).start = r.start ∧ (r.mark start type isInvalid).size = r.size := by
  unfold Region.mark
  split <;> exact ⟨rfl, rfl⟩

theorem endAddr_mark (start : BitVec 64) (type isInvalid : BitVec 8) (r : Region) :
    (r.mark start type isInvalid).endAddr = r.endAddr := by
  unfold Region.endAddr
  rw [(mark_same start type isInvalid r).1, (mark_same start type isInvalid r).2]

theorem before_mark (start : BitVec 64) (type isInvalid : BitVec 8) (a b : Region) :
    (a.mark start type isInvalid).Before (b.mark start type isInvalid) ↔ a.Before b := by
  unfold Region.Before
  rw [endAddr_mark, (mark_same start type isInvalid b).1]

theorem LiveOk.mark {live : List Region} (h : LiveOk live) (start : BitVec 64)
    (type isInvalid : BitVec 8) : LiveOk (live.map (Region.mark start type isInvalid)) := by
  refine ⟨fun r hr => ?_, fun r hr => ?_, ?_⟩
  · obtain ⟨a, ha, rfl⟩ := List.mem_map.mp hr
    rw [(mark_same start type isInvalid a).2]
    exact h.pos a ha
  · obtain ⟨a, ha, rfl⟩ := List.mem_map.mp hr
    unfold Region.Bounded
    rw [endAddr_mark]
    exact h.bounded a ha
  · rw [List.pairwise_map]
    refine h.disjoint.imp fun {a b} hab => ?_
    unfold Region.Disjoint
    rw [before_mark, before_mark]
    exact hab

theorem Represents.mark {left right : Tree} {x : Region} {live : List Region}
    (h : Represents (.node left x right) live) (type isInvalid : BitVec 8) :
    Represents (.node left (x.mark x.start type isInvalid) right)
      (live.map (Region.mark x.start type isInvalid)) := by
  have hbefore := h.before
  rw [BinTree.inorder, List.pairwise_append, List.pairwise_cons] at hbefore
  obtain ⟨-, ⟨hxr, -⟩, hlx⟩ := hbefore
  have hpos : 0 < x.size.toNat :=
    h.ok.pos x (h.same.mem_iff.mp (List.mem_append_right _ List.mem_cons_self))
  have hpos' : ∀ r ∈ left.inorder, 0 < r.size.toNat := fun r hr =>
    h.ok.pos r (h.same.mem_iff.mp (List.mem_append_left _ hr))
  unfold Region.Before Region.endAddr at hxr hlx
  -- No other region starts where the root does.
  have hleft : left.inorder.map (Region.mark x.start type isInvalid) = left.inorder :=
    (List.map_congr_left fun r hr => mark_of_ne fun heq => by
      have := hlx r hr x List.mem_cons_self
      have := hpos' r hr
      have := congrArg BitVec.toNat heq
      omega).trans (List.map_id _)
  have hright : right.inorder.map (Region.mark x.start type isInvalid) = right.inorder :=
    (List.map_congr_left fun r hr => mark_of_ne fun heq => by
      have := hxr r hr
      have := congrArg BitVec.toNat heq
      omega).trans (List.map_id _)
  have heq : (BinTree.node left (x.mark x.start type isInvalid) right).inorder =
      (BinTree.node left x right).inorder.map (Region.mark x.start type isInvalid) := by
    rw [BinTree.inorder, BinTree.inorder, List.map_append, List.map_cons, hleft, hright]
  refine ⟨h.ok.mark x.start type isInvalid, ?_, ?_⟩
  · rw [heq]
    exact h.same.map _
  · rw [heq, List.pairwise_map]
    exact h.before.imp fun {a b} hab => (before_mark x.start type isInvalid a b).mpr hab

theorem represents_of_reachable {t : Tree} {live : List Region} (h : Reachable t live) :
    Represents t live := by
  induction h with
  | start =>
      exact ⟨⟨fun r hr => absurd hr List.not_mem_nil, fun r hr => absurd hr List.not_mem_nil, .nil⟩,
        .refl _, .nil⟩
  | call op _ hok ih => exact ih.call hok
  | mark type isInvalid _ ih => exact ih.mark type isInvalid

/-- What the four functions do to a tree. -/
structure Keeps (t : Tree) (live : List Region) : Prop where
  represents : Represents t live
  splay : ∀ addr, (splay addr t).inorder = t.inorder ∧
    ∀ r ∈ live, r.Contains addr → (splay addr t).root? = some r
  splayEnd : ∀ addr, (splayEnd addr t).inorder = t.inorder ∧
    ∀ r ∈ live, r.endAddr = addr.toNat → (splayEnd addr t).root? = some r
  insert : ∀ addr size, (∃ r ∈ live, r.Contains addr) →
    (splayInsert addr size t).inorder = t.inorder
  delete : ∀ r ∈ live, ∃ below above, t.inorder = below ++ r :: above ∧
    (splayDelete r.start t).inorder = below ++ above
  deleteOther : ∀ addr, (∀ r ∈ live, r.start ≠ addr) → (splayDelete addr t).inorder = t.inorder

theorem Represents.keeps {t : Tree} {live : List Region} (h : Represents t live) : Keeps t live := by
  have hmem : ∀ r, r ∈ t.inorder ↔ r ∈ live := fun r => h.same.mem_iff
  have hpos : ∀ r ∈ t.inorder, 0 < r.size.toNat := fun r hr => h.ok.pos r ((hmem r).mp hr)
  have hdelete := inorder_splayDelete h.sorted hpos
  refine ⟨h, fun addr => ⟨inorder_splay addr t, fun r hr hin => ?_⟩,
    fun addr => ⟨inorder_splayEnd addr t, fun r hr hend => ?_⟩, fun addr size hin => ?_,
    fun r hr => ?_, fun addr hne => ?_⟩
  · exact root?_splay h.sorted ((hmem r).mpr hr) hin
  · refine root?_splayEnd h.sorted ((hmem r).mpr hr) hend fun b hb hstart hbend => ?_
    have := hpos b hb
    unfold Region.endAddr at hbend
    omega
  · obtain ⟨r, hr, hcontains⟩ := hin
    exact inorder_splayInsert_inside h.sorted ((hmem r).mpr hr) hcontains
  · obtain ⟨below, above, hinorder⟩ := List.append_of_mem ((hmem r).mpr hr)
    refine ⟨below, above, hinorder, ?_⟩
    have hbefore := h.before
    rw [hinorder, List.pairwise_append, List.pairwise_cons] at hbefore
    obtain ⟨-, ⟨hra, -⟩, hbr⟩ := hbefore
    have hrpos := h.ok.pos r hr
    unfold Region.Before Region.endAddr at hra hbr
    rw [hdelete, hinorder, List.filter_append, List.filter_cons_of_neg (by simp),
      List.filter_eq_self.mpr fun a ha => ?_, List.filter_eq_self.mpr fun a ha => ?_]
    · have := hra a ha
      exact decide_eq_true fun heq => by
        have := congrArg BitVec.toNat heq
        omega
    · have := hbr a ha r List.mem_cons_self
      have := hpos a (hinorder ▸ List.mem_append_left _ ha)
      exact decide_eq_true fun heq => by
        have := congrArg BitVec.toNat heq
        omega
  · rw [hdelete]
    exact List.filter_eq_self.mpr fun r hr => decide_eq_true (hne r ((hmem r).mp hr))

/-- Every tree that calls lead to has the regions that were inserted and not deleted, and the four
functions find, add and remove exactly the region that they are meant to. -/
theorem reachable_keeps {t : Tree} {live : List Region} (h : Reachable t live) : Keeps t live :=
  (represents_of_reachable h).keeps

/-- Two regions are inserted, and the second one is deleted. -/
theorem reachable_keeps_two :
    Keeps (splayDelete 0x2000 (splayInsert 0x2000 8 (splayInsert 0x1000 16 .nil)))
      [⟨0x1000, 16, 0, 0⟩] := by
  have h1 : Reachable (Op.run .nil (.insert 0x1000 16)) [⟨0x1000, 16, 0, 0⟩] :=
    .call (.insert 0x1000 16) .start ⟨by decide, by decide, by decide⟩
  have h2 : Reachable (Op.run (Op.run .nil (.insert 0x1000 16)) (.insert 0x2000 8))
      [⟨0x1000, 16, 0, 0⟩, ⟨0x2000, 8, 0, 0⟩] :=
    .call (.insert 0x2000 8) h1 ⟨by decide, by decide, by decide⟩
  exact reachable_keeps (.call (.delete 0x2000) h2 ⟨by decide, by decide, by decide⟩)

end TccRiscv64.Bcheck
