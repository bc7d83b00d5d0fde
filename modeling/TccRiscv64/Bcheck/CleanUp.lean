import TccRiscv64.Bcheck.LongJump

set_option autoImplicit false

/-! # The end of the loop over the regions

An empty region is not always removed at the first try: the search for it can end at the region
behind it. The tree is then such that some more rounds remove a region, so that the loop ends, and
what is left are the regions outside the window. -/

namespace TccRiscv64.Bcheck.LongJump

open Data

/-! ## Trees of regions with different starts -/

/-- Regions that end at an address, from the lowest to the highest, with different starts. -/
structure Apart (regions : List Region) : Prop where
  sorted : Sorted regions
  starts : regions.Pairwise fun a b => a.start.toNat < b.start.toNat

section Trees

variable {t : Tree} {z : Region} {addr size startFp endFp : BitVec 64}

/-- The search of a deletion comes to the region. -/
def Found (addr : BitVec 64) (t : Tree) : Prop :=
  (splay addr t).root?.map Region.start = some addr

instance (addr : BitVec 64) (t : Tree) : Decidable (Found addr t) :=
  inferInstanceAs (Decidable (_ = _))

theorem Apart.start_inj (h : Apart t.inorder) {a b : Region} (ha : a ∈ t.inorder)
    (hb : b ∈ t.inorder) (heq : a.start = b.start) : a = b := by
  have hnodup : (t.inorder.map Region.start).Nodup := by
    rw [List.Nodup, List.pairwise_map]
    refine h.starts.imp fun hlt heq => ?_
    rw [heq] at hlt
    exact Nat.lt_irrefl _ hlt
  exact List.inj_on_of_nodup_map hnodup ha hb heq

/-- The search for the start of a region ends at it, or, where it is empty, at the next one. -/
theorem splay_start (h : Apart t.inorder) (hz : z ∈ t.inorder) :
    ∃ left x right, splay z.start t = .node left x right ∧
      t.inorder = left.inorder ++ x :: right.inorder ∧
      (x = z ∨ z.size = 0 ∧ ∃ before, left.inorder = before ++ [z]) := by
  have ht : t ≠ .nil := by
    rintro rfl
    exact absurd hz List.not_mem_nil
  obtain ⟨left, x, right, hnode, hinorder, hbelow, habove⟩ := splay_parts h.sorted ht z.start
  refine ⟨left, x, right, hnode, hinorder, ?_⟩
  rw [hinorder, List.mem_append, List.mem_cons] at hz
  rcases hz with hleft | rfl | hright
  · right
    have hend := hbelow z hleft
    have hsize : z.size = 0 := BitVec.eq_of_toNat_eq (by
      unfold Region.endAddr at hend
      show z.size.toNat = 0
      omega)
    obtain ⟨before, after, hsplit⟩ := List.append_of_mem hleft
    have hafter : after = [] := by
      cases after with
      | nil => rfl
      | cons a after =>
        have hstarts := h.starts
        rw [hinorder, hsplit, List.append_assoc] at hstarts
        have hlt := (List.pairwise_cons.1 (List.pairwise_append.1 hstarts).2.1).1 a
          (List.mem_cons_self ..)
        have hle := hbelow a (by
          rw [hsplit]
          exact List.mem_append_right _ (List.mem_cons_of_mem _ List.mem_cons_self))
        unfold Region.endAddr at hle
        omega
    exact ⟨hsize, before, by rw [hsplit, hafter]⟩
  · exact Or.inl rfl
  · exact absurd (habove z hright) (Nat.lt_irrefl _)

theorem found_of_pos (h : Apart t.inorder) (hz : z ∈ t.inorder) (hsize : z.size ≠ 0) :
    Found z.start t := by
  obtain ⟨left, x, right, hnode, -, rfl | ⟨hzero, -⟩⟩ := splay_start h hz
  · rw [Found, hnode]
    rfl
  · exact absurd hzero hsize

/-- A deletion that does not come to the region leaves the regions as they are. -/
theorem splayDelete_of_not_found (h : ¬Found addr t) : splayDelete addr t = splay addr t := by
  unfold splayDelete
  rw [Found] at h
  cases hnode : splay addr t with
  | nil => rfl
  | node left x right =>
    rw [hnode] at h
    exact if_neg fun heq => h (congrArg some heq.symm)

/-- A deletion that comes to the region removes it. -/
theorem inorder_splayDelete_of_found (h : Apart t.inorder) (hfound : Found addr t) :
    ∃ before x after, x.start = addr ∧ t.inorder = before ++ x :: after ∧
      (splayDelete addr t).inorder = before ++ after := by
  have ht : t ≠ .nil := by
    rintro rfl
    cases hfound
  obtain ⟨left, x, right, hnode, hinorder, hbelow, -⟩ := splay_parts h.sorted ht addr
  rw [Found, hnode] at hfound
  have hx : x.start = addr := Option.some.inj hfound
  exact ⟨left.inorder, x, right.inorder, hx, hinorder,
    inorder_splayDelete_root h.sorted hnode hx hinorder hbelow⟩

theorem Apart.sublist {xs ys : List Region} (h : Apart ys) (hsub : xs.Sublist ys) : Apart xs :=
  ⟨⟨fun r hr => h.sorted.bounded r (hsub.subset hr), h.sorted.before.sublist hsub⟩,
    h.starts.sublist hsub⟩

end Trees

/-! ## The window -/

section CleanUp

variable {t t' left right : Tree} {x z : Region} {startFp endFp : BitVec 64}

/-- The region starts between the two addresses. -/
def InWindow (startFp endFp : BitVec 64) (r : Region) : Prop :=
  startFp.toNat ≤ r.start.toNat ∧ r.start.toNat ≤ endFp.toNat

instance (startFp endFp : BitVec 64) (r : Region) : Decidable (InWindow startFp endFp r) :=
  inferInstanceAs (Decidable (_ ∧ _))

theorem Apart.parts (h : Apart (BinTree.node left x right).inorder) :
    Apart left.inorder ∧ Apart right.inorder ∧
      (∀ a ∈ left.inorder, a.start.toNat < x.start.toNat) ∧
      ∀ b ∈ right.inorder, x.start.toNat < b.start.toNat := by
  have hstarts := h.starts
  rw [BinTree.inorder, List.pairwise_append, List.pairwise_cons] at hstarts
  refine ⟨h.sublist (List.sublist_append_left ..), h.sublist ?_,
    fun a ha => hstarts.2.2 a ha x List.mem_cons_self, hstarts.2.1.1⟩
  exact (List.sublist_cons_self ..).trans (List.sublist_append_right ..)

theorem findStart_root (h : InWindow startFp endFp x) :
    findStart startFp endFp (.node left x right) = some x := by
  rw [findStart, if_neg (by rw [BitVec.lt_def]; exact Nat.not_lt.2 h.1),
    if_neg (by rw [BitVec.lt_def]; exact Nat.not_lt.2 h.2)]

theorem findStart_left (h : endFp.toNat < x.start.toNat) (hle : startFp.toNat ≤ endFp.toNat) :
    findStart startFp endFp (.node left x right) = findStart startFp endFp left := by
  rw [findStart, if_neg (by rw [BitVec.lt_def]; omega), if_pos (by rwa [BitVec.lt_def])]

theorem findStart_some (h : findStart startFp endFp t = some x) :
    x ∈ t.inorder ∧ InWindow startFp endFp x := by
  induction t with
  | nil => cases h
  | node left y right ihl ihr =>
    rw [findStart] at h
    split at h
    · exact (ihr h).imp_left fun hx => List.mem_append_right _ (List.mem_cons_of_mem _ hx)
    · split at h
      · exact (ihl h).imp_left fun hx => List.mem_append_left _ hx
      · rename_i hlow hhigh
        cases h
        rw [BitVec.lt_def] at hlow hhigh
        exact ⟨List.mem_append_right _ List.mem_cons_self, Nat.not_lt.1 hlow, Nat.not_lt.1 hhigh⟩

theorem findStart_none (h : Apart t.inorder) (hnone : findStart startFp endFp t = none) :
    ∀ r ∈ t.inorder, ¬InWindow startFp endFp r := by
  induction t with
  | nil => exact fun r hr => absurd hr List.not_mem_nil
  | node left y right ihl ihr =>
    obtain ⟨hleft, hright, hbelow, habove⟩ := h.parts
    rw [findStart] at hnone
    rw [BinTree.forall_mem_node]
    split at hnone
    · rename_i hlow
      rw [BitVec.lt_def] at hlow
      refine ⟨fun a ha hin => ?_, fun hin => ?_, ihr hright hnone⟩
      · have hlt := hbelow a ha
        exact absurd hin.1 (by omega)
      · exact absurd hin.1 (by omega)
    · split at hnone
      · rename_i hhigh
        rw [BitVec.lt_def] at hhigh
        refine ⟨ihl hleft hnone, fun hin => ?_, fun b hb hin => ?_⟩
        · exact absurd hin.2 (by omega)
        · have hlt := habove b hb
          exact absurd hin.2 (by omega)
      · cases hnone

/-! ## One round -/

/-- A round of the loop. -/
def Round (startFp endFp : BitVec 64) (t t' : Tree) : Prop :=
  ∃ x, findStart startFp endFp t = some x ∧ t' = splayDelete x.start t

/-- Some rounds remove a region. -/
def Shrinks (startFp endFp : BitVec 64) (t : Tree) : Prop :=
  ∃ t', Relation.ReflTransGen (Round startFp endFp) t t' ∧ ∃ before r after,
    InWindow startFp endFp r ∧ t.inorder = before ++ r :: after ∧ t'.inorder = before ++ after

theorem shrinks_of_found (h : Apart t.inorder) (hfind : findStart startFp endFp t = some z)
    (hfound : Found z.start t) : Shrinks startFp endFp t := by
  obtain ⟨hz, hin⟩ := findStart_some hfind
  obtain ⟨before, x, after, hx, hinorder, hdelete⟩ := inorder_splayDelete_of_found h hfound
  have hxz : x = z := h.start_inj (by
    rw [hinorder]
    exact List.mem_append_right _ List.mem_cons_self) hz hx
  subst hxz
  exact ⟨_, .single ⟨x, hfind, rfl⟩, before, x, after, hin, hinorder, hdelete⟩

theorem Shrinks.round (hround : Round startFp endFp t t') (hsame : t'.inorder = t.inorder)
    (h : Shrinks startFp endFp t') : Shrinks startFp endFp t := by
  obtain ⟨t'', hrounds, before, r, after, hin, hinorder, hdelete⟩ := h
  exact ⟨t'', .head hround hrounds, before, r, after, hin, hsame.symm.trans hinorder, hdelete⟩

/-- A deletion that does not come to the region makes the one behind it the root. -/
theorem splayDelete_next (h : Apart t.inorder) (hz : z ∈ t.inorder) (hnot : ¬Found z.start t) :
    z.size = 0 ∧ ∃ left x right before, splayDelete z.start t = .node left x right ∧
      splay z.start t = .node left x right ∧
      t.inorder = left.inorder ++ x :: right.inorder ∧ left.inorder = before ++ [z] ∧
      z.start.toNat < x.start.toNat := by
  obtain ⟨left, x, right, hnode, hinorder, rfl | ⟨hsize, before, hbefore⟩⟩ := splay_start h hz
  · exact absurd (by rw [Found, hnode]; rfl) hnot
  · refine ⟨hsize, left, x, right, before, ?_, hnode, hinorder, hbefore, ?_⟩
    · rw [splayDelete_of_not_found hnot, hnode]
    · have hstarts := h.starts
      rw [hinorder, hbefore, List.pairwise_append] at hstarts
      exact hstarts.2.2 z (List.mem_append_right _ List.mem_cons_self) x List.mem_cons_self

/-- The last region on the left of a root behind it is found. -/
theorem found_previous {before : List Region} (h : Apart (BinTree.node left x right).inorder)
    (hlast : left.inorder = before ++ [z]) : Found z.start (.node left x right) := by
  have hz : z ∈ left.inorder := by
    rw [hlast]
    exact List.mem_append_right _ List.mem_cons_self
  have hz' : z ∈ (BinTree.node left x right).inorder := List.mem_append_left _ hz
  by_cases hsize : z.size = 0
  · obtain ⟨hleft, -, hbelow, -⟩ := h.parts
    have hend : z.endAddr = z.start.toNat := by
      rw [Region.endAddr, hsize]
      rfl
    have hgt : ∀ a ∈ left.inorder, compare z.start a = .gt := by
      intro a ha
      refine (Region.compare_gt_iff (hleft.sorted.bounded a ha)).mpr ?_
      have hsorted := hleft.sorted.before
      rw [hlast, List.pairwise_append] at hsorted
      rw [hlast, List.mem_append, List.mem_singleton] at ha
      rcases ha with ha | rfl
      · exact hsorted.2.2 a ha z List.mem_cons_self
      · exact hend.le
    have hne : left ≠ .nil := by
      rintro rfl
      exact absurd hz List.not_mem_nil
    have hlt : compare z.start x = .lt := Region.compare_lt_iff.mpr (hbelow z hz)
    obtain ⟨left', y, hsplay, hinorder⟩ := @BinTree.splayBy_previous _ _ _ right _ hlt hne hgt
    have hyz : y = z := by
      rw [hlast] at hinorder
      exact (List.append_inj' hinorder rfl).2 |> List.singleton_injective |>.symm
    rw [Found, splay, hsplay, hyz]
    rfl
  · exact found_of_pos h hz' hsize

/-! ## Rounds -/

/-- The root is behind the window, and the last region before it is in the window and has nothing on
its right. -/
theorem shrinks_of_spine (h : Apart (BinTree.node (.node left z .nil) x right).inorder)
    (hx : endFp.toNat < x.start.toNat) (hz : InWindow startFp endFp z) :
    Shrinks startFp endFp (.node (.node left z .nil) x right) := by
  have hfind : findStart startFp endFp (.node (.node left z .nil) x right) = some z := by
    rw [findStart_left hx (hz.1.trans hz.2), findStart_root hz]
  exact shrinks_of_found h hfind (found_previous h rfl)

/-- The root is in the window. -/
theorem shrinks_of_root (h : Apart (BinTree.node left x right).inorder)
    (hx : InWindow startFp endFp x) : Shrinks startFp endFp (.node left x right) := by
  induction hn : right.inorder.length using Nat.strong_induction_on generalizing left x right with
  | _ n ih =>
  subst hn
  have hfind : findStart startFp endFp (.node left x right) = some x := findStart_root hx
  by_cases hfound : Found x.start (.node left x right)
  · exact shrinks_of_found h hfind hfound
  have hmem : x ∈ (BinTree.node left x right).inorder :=
    List.mem_append_right _ List.mem_cons_self
  obtain ⟨hsize, left', y, right', before, hdelete, hsplay, hinorder, -, hlt⟩ :=
    splayDelete_next h hmem hfound
  obtain ⟨-, hright, hbelow, habove⟩ := h.parts
  have hne : right ≠ .nil := by
    rintro rfl
    have hy : y ∈ left.inorder ++ [x] := by
      show y ∈ (BinTree.node left x .nil).inorder
      rw [hinorder]
      exact List.mem_append_right _ List.mem_cons_self
    rcases List.mem_append.1 hy with hy | hy
    · exact absurd (hbelow y hy) (Nat.lt_asymm hlt)
    · rw [List.mem_singleton.1 hy] at hlt
      exact Nat.lt_irrefl _ hlt
  have hend : x.endAddr = x.start.toNat := by
    rw [Region.endAddr, hsize]
    rfl
  obtain ⟨y', right'', hnext⟩ := BinTree.splayBy_next
    ((Region.compare_gt_iff (h.sorted.bounded x hmem)).mpr hend.le) hne
    fun b hb => Region.compare_lt_iff.mpr (habove b hb)
  change splay x.start (.node left x right) = _ at hnext
  have heq := hsplay.symm.trans hnext
  obtain ⟨rfl, rfl, rfl⟩ := BinTree.node.inj heq
  have hsame : (BinTree.node (.node left x .nil) y right').inorder =
      (BinTree.node left x right).inorder := by
    rw [← hsplay]
    exact inorder_splay ..
  have hrest : right.inorder = y :: right'.inorder := by
    have happend : left.inorder ++ x :: y :: right'.inorder =
        left.inorder ++ x :: right.inorder := by
      rw [← BinTree.inorder, ← hsame]
      simp [BinTree.inorder]
    exact (List.cons.inj (List.append_cancel_left happend)).2.symm
  have hround : Round startFp endFp (.node left x right) (.node (.node left x .nil) y right') :=
    ⟨x, hfind, hdelete.symm⟩
  refine Shrinks.round hround hsame ?_
  have h' : Apart (BinTree.node (.node left x .nil) y right').inorder := hsame ▸ h
  rcases Nat.lt_or_ge endFp.toNat y.start.toNat with hy | hy
  · exact shrinks_of_spine h' hy hx
  · refine ih right'.inorder.length ?_ h' ⟨hx.1.trans hlt.le, hy⟩ rfl
    rw [hrest]
    exact Nat.lt_succ_self _

/-- The root is behind the window, and the last region before it is in the window. -/
theorem shrinks_of_left {before : List Region} (h : Apart (BinTree.node left x right).inorder)
    (hx : endFp.toNat < x.start.toNat) (hz : InWindow startFp endFp z)
    (hlast : left.inorder = before ++ [z]) : Shrinks startFp endFp (.node left x right) := by
  obtain ⟨hleft, -, -, -⟩ := h.parts
  have hzmem : z ∈ left.inorder := by
    rw [hlast]
    exact List.mem_append_right _ List.mem_cons_self
  have hfind : findStart startFp endFp (.node left x right) = findStart startFp endFp left :=
    findStart_left hx (hz.1.trans hz.2)
  cases hp : findStart startFp endFp left with
  | none => exact absurd hz (findStart_none hleft hp z hzmem)
  | some p =>
    rw [hp] at hfind
    obtain ⟨hpmem, hpin⟩ := findStart_some hp
    have hpmem' : p ∈ (BinTree.node left x right).inorder := List.mem_append_left _ hpmem
    by_cases hfound : Found p.start (.node left x right)
    · exact shrinks_of_found h hfind hfound
    have hpz : p.start.toNat < z.start.toNat := by
      rw [hlast, List.mem_append, List.mem_singleton] at hpmem
      rcases hpmem with hpmem | rfl
      · have hstarts := hleft.starts
        rw [hlast, List.pairwise_append] at hstarts
        exact hstarts.2.2 p hpmem z List.mem_cons_self
      · exact absurd (found_previous h hlast) hfound
    obtain ⟨-, left', y, right', before', hdelete, hsplay, hinorder, hlast', hlt⟩ :=
      splayDelete_next h hpmem' hfound
    have hsame : (BinTree.node left' y right').inorder = (BinTree.node left x right).inorder :=
      hinorder.symm
    have h' : Apart (BinTree.node left' y right').inorder := hsame ▸ h
    refine Shrinks.round ⟨p, hfind, hdelete.symm⟩ hsame (shrinks_of_root h' ⟨?_, ?_⟩)
    · exact hpin.1.trans hlt.le
    · -- the region behind `p` is not behind `z`
      obtain ⟨hleft', -, -, habove'⟩ := h'.parts
      have hzmem' : z ∈ (BinTree.node left' y right').inorder := by
        rw [hsame]
        exact List.mem_append_left _ hzmem
      rcases List.mem_append.1 hzmem' with hmem | hmem
      · rw [hlast', List.mem_append, List.mem_singleton] at hmem
        rcases hmem with hmem | rfl
        · have hstarts := hleft'.starts
          rw [hlast', List.pairwise_append] at hstarts
          exact absurd (hstarts.2.2 z hmem p List.mem_cons_self) (Nat.lt_asymm hpz)
        · exact absurd hpz (Nat.lt_irrefl _)
      · rcases List.mem_cons.1 hmem with rfl | hmem
        · exact hz.2
        · exact (habove' z hmem).le.trans hz.2

theorem shrinks_of_find (h : Apart t.inorder) (hfind : findStart startFp endFp t = some z) :
    Shrinks startFp endFp t := by
  obtain ⟨hz, hin⟩ := findStart_some hfind
  by_cases hfound : Found z.start t
  · exact shrinks_of_found h hfind hfound
  obtain ⟨-, left, x, right, before, hdelete, hsplay, hinorder, hlast, hlt⟩ :=
    splayDelete_next h hz hfound
  have hsame : (BinTree.node left x right).inorder = t.inorder := hinorder.symm
  have h' : Apart (BinTree.node left x right).inorder := hsame ▸ h
  refine Shrinks.round ⟨z, hfind, hdelete.symm⟩ hsame ?_
  rcases Nat.lt_or_ge endFp.toNat x.start.toNat with hx | hx
  · exact shrinks_of_left h' hx hin hlast
  · exact shrinks_of_root h' ⟨hin.1.trans hlt.le, hx⟩

/-! ## The loop -/

theorem cleanUp_of_rounds (h : Relation.ReflTransGen (Round startFp endFp) t t')
    (allocaList : List AllocaNode) : ∃ k allocaList', ∀ n,
      cleanUp startFp endFp (n + k) t allocaList = cleanUp startFp endFp n t' allocaList' := by
  induction h using Relation.ReflTransGen.head_induction_on generalizing allocaList with
  | refl => exact ⟨0, allocaList, fun _ => rfl⟩
  | head hround _ ih =>
    obtain ⟨x, hfind, rfl⟩ := hround
    obtain ⟨k, allocaList', heq⟩ := ih (allocaList.eraseP fun cur => cur.p = x.start)
    refine ⟨k + 1, allocaList', fun n => ?_⟩
    rw [← Nat.add_assoc, cleanUp, hfind]
    exact heq n

/-- The loop ends, and leaves the regions that do not start in the window. -/
theorem cleanUp_spec (h : Apart t.inorder) (allocaList : List AllocaNode) :
    ∃ n t' allocaList', cleanUp startFp endFp n t allocaList = some (t', allocaList') ∧
      t'.inorder = t.inorder.filter fun r => ¬InWindow startFp endFp r := by
  induction hn : t.inorder.length using Nat.strong_induction_on generalizing t allocaList with
  | _ n ih =>
  subst hn
  cases hfind : findStart startFp endFp t with
  | none =>
    refine ⟨1, t, allocaList, ?_, ?_⟩
    · rw [cleanUp, hfind]
    · refine (List.filter_eq_self.2 fun r hr => ?_).symm
      exact decide_eq_true (findStart_none h hfind r hr)
  | some z =>
    obtain ⟨t', hrounds, before, r, after, hin, hinorder, hdelete⟩ := shrinks_of_find h hfind
    have hsub : t'.inorder.Sublist t.inorder := by
      rw [hinorder, hdelete]
      exact (List.sublist_cons_self ..).append_left before
    obtain ⟨k, allocaList', heq⟩ := cleanUp_of_rounds hrounds allocaList
    obtain ⟨n, t'', allocaList'', hrun, hresult⟩ := ih t'.inorder.length (by
      rw [hinorder, hdelete, List.length_append, List.length_append, List.length_cons]
      omega) (h.sublist hsub) allocaList' rfl
    refine ⟨n + k, t'', allocaList'', (heq n).trans hrun, ?_⟩
    rw [hresult, hinorder, hdelete, List.filter_append, List.filter_append,
      List.filter_cons_of_neg (by simpa using hin)]

end CleanUp

end TccRiscv64.Bcheck.LongJump
