import TccRiscv64.Bcheck.Heap

set_option autoImplicit false

/-! # Runs of the heap

As long as no size wraps around and no reallocation fails, the regions of the heap are the blocks that
the program holds and those that are in the list of freed blocks. -/

namespace TccRiscv64.Bcheck

open Data

/-! ## The regions of the tree, one more or one less -/

section Regions

variable {t : Tree} {live live' : List Region} {r : Region}

theorem Region.Disjoint.symm {a b : Region} (h : a.Disjoint b) : b.Disjoint a := Or.symm h

theorem LiveOk.perm (h : LiveOk live) (hp : live.Perm live') : LiveOk live' :=
  ⟨fun r hr => h.pos r (hp.mem_iff.mpr hr), fun r hr => h.bounded r (hp.mem_iff.mpr hr),
    (hp.pairwise_iff fun hab => hab.symm).mp h.disjoint⟩

theorem Represents.perm (h : Represents t live) (hp : live.Perm live') : Represents t live' :=
  ⟨h.ok.perm hp, h.same.trans hp, h.before⟩

/-- Regions that begin at the same address are not disjoint. -/
theorem LiveOk.start_ne (h : LiveOk (r :: live)) : ∀ r' ∈ live, r'.start ≠ r.start := by
  intro r' hr' heq
  have hdisj := (List.pairwise_cons.mp h.disjoint).1 r' hr'
  have hpos := h.pos r List.mem_cons_self
  have hpos' := h.pos r' (List.mem_cons_of_mem r hr')
  have := congrArg BitVec.toNat heq
  unfold Region.Disjoint Region.Before Region.endAddr at hdisj
  omega

theorem LiveOk.tail (h : LiveOk (r :: live)) : LiveOk live :=
  ⟨fun r' hr' => h.pos r' (List.mem_cons_of_mem r hr'),
    fun r' hr' => h.bounded r' (List.mem_cons_of_mem r hr'), (List.pairwise_cons.mp h.disjoint).2⟩

theorem LiveOk.cons (h : LiveOk live) (hpos : 0 < r.size.toNat) (hbounded : r.Bounded)
    (hdisj : ∀ r' ∈ live, r.Disjoint r') : LiveOk (r :: live) :=
  ⟨List.forall_mem_cons.mpr ⟨hpos, h.pos⟩, List.forall_mem_cons.mpr ⟨hbounded, h.bounded⟩,
    List.pairwise_cons.mpr ⟨hdisj, h.disjoint⟩⟩

theorem map_mark (h : LiveOk (r :: live)) (type isInvalid : BitVec 8) :
    (r :: live).map (Region.mark r.start type isInvalid) =
      { r with type, isInvalid } :: live := by
  rw [List.map_cons, Region.mark, if_pos rfl]
  congr 1
  exact (List.map_congr_left fun r' hr' => mark_of_ne (h.start_ne r' hr')).trans (List.map_id _)

/-- The root is marked. -/
theorem Represents.markRoot {left right : Tree} (h : Represents (.node left r right) (r :: live))
    (type isInvalid : BitVec 8) : Represents (.node left { r with type, isInvalid } right)
      ({ r with type, isInvalid } :: live) := by
  have hmark := h.mark type isInvalid
  rw [map_mark h.ok, Region.mark, if_pos rfl] at hmark
  exact hmark

/-- A region is deleted. -/
theorem Represents.delete (h : Represents t (r :: live)) :
    Represents (splayDelete r.start t) live := by
  have hfilter : Op.live (r :: live) (.delete r.start) = live := by
    show (r :: live).filter (fun r' => decide (r'.start ≠ r.start)) = live
    rw [List.filter_cons_of_neg (by simp)]
    exact List.filter_eq_self.mpr fun r' hr' => decide_eq_true (h.ok.start_ne r' hr')
  have hcall := @Represents.call _ _ h (.delete r.start) (by
    rw [hfilter]
    exact h.ok.tail)
  rwa [hfilter] at hcall

/-- The root after an insertion. -/
theorem root?_splayInsert {addr size : BitVec 64} (h : Sorted t.inorder)
    (hout : ∀ r ∈ t.inorder, ¬ r.Contains addr) :
    (splayInsert addr size t).root? = some ⟨addr, size, tccTypeNone, 0⟩ := by
  unfold splayInsert
  by_cases ht : t = .nil
  · rw [ht]
    rfl
  · obtain ⟨left, x, right, hnode, hinorder, -, -⟩ := splay_parts h ht addr
    have hx : x ∈ t.inorder := by
      rw [hinorder]
      exact List.mem_append_right _ List.mem_cons_self
    rw [hnode]
    simp only
    cases hcmp : compare addr x with
    | eq => exact absurd ((Region.compare_eq_iff (h.bounded x hx)).mp hcmp) (hout x hx)
    | lt => rfl
    | gt => rfl

/-- A region is inserted with its type. -/
theorem Represents.insert (h : Represents t live) {ptr size : BitVec 64} {type : BitVec 8}
    (hok : LiveOk (⟨ptr, size, type, 0⟩ :: live)) :
    Represents (insertTyped ptr size type t) (⟨ptr, size, type, 0⟩ :: live) := by
  have hok' : LiveOk (⟨ptr, size, tccTypeNone, 0⟩ :: live) := by
    have hmark := hok.mark ptr tccTypeNone 0
    rwa [map_mark (r := ⟨ptr, size, type, 0⟩) hok] at hmark
  have hout : ∀ r ∈ live, ¬ r.Contains ptr := by
    rintro r hr ⟨hle, hlt⟩
    have hdisj := (List.pairwise_cons.mp hok.disjoint).1 r hr
    have hpos := hok.pos _ List.mem_cons_self
    unfold Region.Disjoint Region.Before Region.endAddr at hdisj
    unfold Region.endAddr at hlt
    simp only at hdisj hpos
    omega
  have hlive : Op.live live (.insert ptr size) = live ++ [⟨ptr, size, tccTypeNone, 0⟩] :=
    if_neg fun ⟨r, hr, hin⟩ => hout r hr hin
  have hperm := (List.perm_append_singleton (⟨ptr, size, tccTypeNone, 0⟩ : Region) live)
  have hcall : Represents (splayInsert ptr size t) (⟨ptr, size, tccTypeNone, 0⟩ :: live) := by
    have := @Represents.call _ _ h (.insert ptr size) (by
      rw [hlive]
      exact hok'.perm hperm.symm)
    rw [hlive] at this
    exact this.perm hperm
  have hroot := @root?_splayInsert _ _ size h.sorted fun r hr =>
    hout r (h.same.mem_iff.mp hr)
  unfold insertTyped
  split
  · rename_i hnil
    rw [hnil] at hroot
    cases hroot
  · rename_i left x right hnode
    rw [hnode] at hroot hcall
    obtain rfl := Option.some.inj hroot
    rw [if_pos rfl]
    exact hcall.markRoot type 0

end Regions

/-! ## Lists -/

section Lists

variable {α β : Type}

/-- The entry with a key, and those without it. -/
theorem perm_cons_filter [DecidableEq β] {f : α → β} {l : List α} (h : (l.map f).Nodup) {x : α}
    (hx : x ∈ l) : l.Perm (x :: l.filter fun y => decide (f y ≠ f x)) := by
  obtain ⟨pre, post, rfl⟩ := List.append_of_mem hx
  rw [List.map_append, List.map_cons] at h
  have hne : ∀ y ∈ pre ++ post, f y ≠ f x := by
    intro y hy heq
    have hnodup := List.nodup_middle.mp h
    rw [← List.map_append] at hnodup
    exact (List.nodup_cons.mp hnodup).1 (heq ▸ List.mem_map_of_mem hy)
  rw [List.filter_append, List.filter_cons_of_neg (by simp), ← List.filter_append,
    List.filter_eq_self.mpr fun y hy => decide_eq_true (hne y hy)]
  exact List.perm_middle

/-- A list of pointers, where null pointers are empty places, when one place gets a pointer. -/
theorem filter_set_perm {list : List (BitVec 64)} {i : Nat} (hi : i < list.length)
    {p : BitVec 64} (hp : p ≠ 0) :
    ((list.set i p).filter (· ≠ 0)).Perm (p :: (list.eraseIdx i).filter (· ≠ 0)) ∧
      (list.filter (· ≠ 0)).Perm ((list.getD i 0 :: list.eraseIdx i).filter (· ≠ 0)) := by
  refine ⟨?_, ?_⟩
  · have h := (List.set_perm_cons_eraseIdx hi p).filter (· ≠ 0)
    rwa [List.filter_cons_of_pos (by simpa using hp)] at h
  · rw [List.getD_eq_getElem _ _ hi]
    exact (List.getElem_cons_eraseIdx_perm hi).symm.filter _

end Lists

/-! ## What holds between calls -/

/-- A block in the list of freed blocks. -/
def Held.freedRegion (h : Held) : Region := { h.region with isInvalid := 1 }

/-- A block is large enough for what the program asked for, and one byte more. -/
structure Held.Sized (h : Held) : Prop where
  notNull : h.block.ptr ≠ 0
  size : h.requested + 1 ≤ h.block.size
  bounded : h.block.ptr.toNat + h.block.size < 2 ^ 64

theorem Held.Sized.region_size {h : Held} (hs : h.Sized) :
    h.region.size.toNat = if h.requested = 0 then 1 else h.requested := by
  have := hs.size
  have := hs.bounded
  unfold Held.region
  rw [BitVec.toNat_ofNat, Nat.mod_eq_of_lt]
  split <;> omega

theorem Held.Sized.region_fits {h : Held} (hs : h.Sized) :
    0 < h.region.size.toNat ∧ h.region.size.toNat ≤ h.block.size := by
  have := hs.size
  rw [hs.region_size]
  split <;> omega

/-- The regions of the heap, those that the program holds first. -/
def heapRegions (held freed : List Held) : List Region :=
  held.map Held.region ++ freed.map Held.freedRegion

structure HeapInv (other : List Region) (w : World) (freed : List Held) : Prop where
  represents : Represents w.st.tree (heapRegions w.held freed ++ other)
  blocks : w.blocks.Perm ((w.held ++ freed).map Held.block)
  sized : ∀ h ∈ w.held ++ freed, h.Sized
  list : (w.st.freeReuseList.filter (· ≠ 0)).Perm (freed.map (·.block.ptr))
  length : w.st.freeReuseList.length = freeReuseSize
  index : w.st.freeReuseIndex < freeReuseSize
  handed : w.misused = false

section Invariant

variable {other : List Region} {w : World} {freed : List Held}

theorem starts_nodup {live : List Region} (h : LiveOk live) :
    (live.map Region.start).Nodup := by
  rw [List.Nodup, List.pairwise_map]
  refine h.disjoint.imp_of_mem fun {a b} ha hb hab heq => ?_
  have := h.pos a ha
  have := h.pos b hb
  have := congrArg BitVec.toNat heq
  unfold Region.Disjoint Region.Before Region.endAddr at hab
  omega

/-- No two blocks begin at the same address. -/
theorem HeapInv.nodup (hinv : HeapInv other w freed) :
    ((w.held ++ freed).map (·.block.ptr)).Nodup := by
  have h := starts_nodup hinv.represents.ok
  rw [List.map_append] at h
  have hmap : (heapRegions w.held freed).map Region.start =
      (w.held ++ freed).map (·.block.ptr) := by
    unfold heapRegions
    rw [List.map_append, List.map_append, List.map_map, List.map_map]
    rfl
  rw [hmap] at h
  exact h.of_append_left

theorem heapRegions_perm {held held' freed freed' : List Held} (hh : held.Perm held')
    (hf : freed.Perm freed') : (heapRegions held freed).Perm (heapRegions held' freed') :=
  (hh.map _).append (hf.map _)

theorem HeapInv.perm (hinv : HeapInv other w freed) {held' freed' : List Held}
    (hh : w.held.Perm held') (hf : freed.Perm freed') :
    HeapInv other { w with held := held' } freed' :=
  ⟨hinv.represents.perm ((heapRegions_perm hh hf).append (.refl _)),
    hinv.blocks.trans ((hh.append hf).map _),
    fun h hmem => hinv.sized h ((hh.append hf).mem_iff.mpr hmem), hinv.list.trans (hf.map _),
    hinv.length, hinv.index, hinv.handed⟩

/-! ## Allocation -/

theorem Held.Sized.inside {h : Held} (hs : h.Sized) :
    h.region.start = h.block.ptr ∧ h.region.endAddr ≤ h.block.ptr.toNat + h.block.size :=
  ⟨rfl, Nat.add_le_add_left hs.region_fits.2 _⟩

/-- The region of a new block has nothing in common with the regions that there are. -/
theorem GivesOut.liveOk {asked : BitVec 64} {h : Held} (hs : h.Sized)
    (hgive : GivesOut other w.blocks asked h.block) (hinv : HeapInv other w freed) :
    LiveOk (h.region :: (heapRegions w.held freed ++ other)) := by
  obtain ⟨hpos, hfits⟩ := hs.region_fits
  have hbounded := hs.bounded
  have hapart : ∀ start size, h.block.Apart start size → ∀ r : Region, r.start.toNat = start →
      r.size.toNat ≤ size → h.region.Disjoint r := by
    intro start size hap r hstart hsize
    unfold Block.Apart at hap
    unfold Region.Disjoint Region.Before Region.endAddr
    rw [show h.region.start = h.block.ptr from rfl]
    omega
  have hheld : ∀ h' ∈ w.held ++ freed, h.region.Disjoint h'.region := by
    intro h' hmem
    have hblock : h'.block ∈ w.blocks := hinv.blocks.mem_iff.mpr (List.mem_map_of_mem hmem)
    exact hapart _ _ (hgive.blocks _ hblock) _ rfl (hinv.sized h' hmem).region_fits.2
  refine hinv.represents.ok.cons hpos ?_ fun r hr => ?_
  · have := hs.inside.2
    unfold Region.Bounded
    omega
  · rcases List.mem_append.mp hr with hr | hr
    · rcases List.mem_append.mp hr with hr | hr
      · obtain ⟨h', hh', rfl⟩ := List.mem_map.mp hr
        exact hheld h' (List.mem_append_left _ hh')
      · obtain ⟨h', hh', rfl⟩ := List.mem_map.mp hr
        exact hheld h' (List.mem_append_right _ hh')
    · exact hapart _ _ (hgive.other r hr) r rfl (Nat.le_refl _)

/-- A block is given to the program, and its region is inserted. -/
theorem HeapInv.add (hinv : HeapInv other w freed) {asked : BitVec 64} {h : Held} (hs : h.Sized)
    (hgive : GivesOut other w.blocks asked h.block) :
    HeapInv other { w with
      st := { w.st with tree := insertTyped h.block.ptr h.region.size h.type w.st.tree }
      blocks := w.blocks ++ [h.block], held := w.held ++ [h] } freed := by
  have hinsert := @Represents.insert _ _ hinv.represents h.block.ptr h.region.size
    h.type (hgive.liveOk hs hinv)
  refine ⟨hinsert.perm ?_, ?_, ?_, hinv.list, hinv.length, hinv.index, hinv.handed⟩
  · unfold heapRegions
    simp only [List.map_append, List.append_assoc, List.map_cons, List.map_nil, List.cons_append,
      List.nil_append]
    exact List.perm_middle.symm
  · show (w.blocks ++ [h.block]).Perm _
    rw [List.append_assoc, List.map_append]
    refine (List.perm_append_singleton _ _).trans ?_
    refine (hinv.blocks.cons _).trans ?_
    rw [List.map_append]
    exact List.perm_middle.symm
  · intro h' hh'
    rw [List.append_assoc] at hh'
    rcases List.mem_append.mp hh' with hh' | hh'
    · exact hinv.sized h' (List.mem_append_left _ hh')
    · rcases List.mem_cons.mp hh' with rfl | hh'
      · exact hs
      · exact hinv.sized h' (List.mem_append_right _ hh')

/-- The size of the region of a block. -/
theorem region_size_eq {b : Block} {type : BitVec 8} {size : BitVec 64} {requested : Nat}
    (h : size.toNat = requested) :
    (if size ≠ 0 then size else size + 1) = (Held.region ⟨b, requested, type⟩).size := by
  unfold Held.region
  simp only
  by_cases hz : size = 0
  · rw [if_neg (not_not.mpr hz)]
    have : requested = 0 := by
      rw [← h, hz]
      rfl
    rw [if_pos this, hz]
    rfl
  · rw [if_pos hz]
    have : requested ≠ 0 := fun h0 => hz (BitVec.eq_of_toNat_eq (h.trans h0))
    rw [if_neg this, ← h, BitVec.ofNat_toNat, BitVec.setWidth_eq]

theorem sized_of_givesOut {blocks : List Block} {b : Block} {type : BitVec 8} {size : BitVec 64}
    {requested : Nat} (h : size.toNat = requested) (hlt : requested + 1 < 2 ^ 64)
    (hgive : GivesOut other blocks (size + 1) b) : Held.Sized ⟨b, requested, type⟩ := by
  refine ⟨hgive.notNull, ?_, hgive.bounded⟩
  have hasked := hgive.asked
  rw [BitVec.toNat_add, h, show (1 : BitVec 64).toNat = 1 from rfl,
    Nat.mod_eq_of_lt hlt] at hasked
  exact hasked

/-- What `malloc`, `memalign` and `calloc` do with the answer of the underlying allocator. -/
theorem HeapInv.give (hinv : HeapInv other w freed) {size : BitVec 64} {requested : Nat}
    (h : size.toNat = requested % 2 ^ 64) {answer : Option Block}
    (hfits : answer = none ∨ requested + 1 < 2 ^ 64)
    (hgive : ∀ b, answer = some b → GivesOut other w.blocks (size + 1) b) (type : BitVec 8) :
    HeapInv other (w.give (if ptrOf answer ≠ 0 then w.st.register (ptrOf answer) size type
      else w.st) answer requested type) freed := by
  cases answer with
  | none =>
      unfold World.give ptrOf
      simp only [Option.map_none, Option.getD_none, ne_eq, not_true_eq_false, if_false,
        Option.toList_none, List.append_nil]
      exact hinv
  | some b =>
      have hlt := hfits.resolve_left (by simp)
      rw [Nat.mod_eq_of_lt (by omega)] at h
      have hb := hgive b rfl
      have hs : Held.Sized ⟨b, requested, type⟩ := sized_of_givesOut h hlt hb
      unfold World.give ptrOf State.register
      simp only [Option.map_some, Option.getD_some, Option.toList_some]
      rw [if_pos hb.notNull, @region_size_eq b type _ _ h]
      exact hinv.add hs hb

/-! ## Freeing -/

/-- The region that begins at an address becomes the root. -/
theorem Represents.splay_root {t : Tree} {live : List Region} (h : Represents t live) {r : Region}
    (hr : r ∈ live) : ∃ left right, splay r.start t = .node left r right := by
  have hin : r.Contains r.start := by
    have := h.ok.pos r hr
    unfold Region.Contains Region.endAddr
    omega
  have hroot := root?_splay h.sorted (h.same.mem_iff.mpr hr) hin
  cases hs : splay r.start t with
  | nil =>
      rw [hs] at hroot
      cases hroot
  | node left x right =>
      rw [hs] at hroot
      obtain rfl := Option.some.inj hroot
      exact ⟨left, right, rfl⟩

theorem HeapInv.mem_regions {h : Held} (hmem : h ∈ w.held) :
    h.region ∈ heapRegions w.held freed ++ other :=
  List.mem_append_left _ (List.mem_append_left _ (List.mem_map_of_mem hmem))

theorem HeapInv.mem_freedRegions {h : Held} (hmem : h ∈ freed) :
    h.freedRegion ∈ heapRegions w.held freed ++ other :=
  List.mem_append_left _ (List.mem_append_right _ (List.mem_map_of_mem hmem))

/-- The tree is not empty when a block of the heap is in it. -/
theorem Represents.ne_nil {t : Tree} {live : List Region} (h : Represents t live) {r : Region}
    (hr : r ∈ live) : t ≠ .nil := by
  rintro rfl
  exact absurd (h.same.mem_iff.mpr hr) List.not_mem_nil

theorem filter_held {held : List Held} {p : BitVec 64} (hp : ∀ h ∈ held, h.block.ptr ≠ p) :
    held.filter (fun h => decide (h.block.ptr ≠ p)) = held :=
  List.filter_eq_self.mpr fun h hmem => decide_eq_true (hp h hmem)

/-- The blocks without one of them. -/
theorem filter_blocks {blocks : List Block} {g : Held} {rest : List Held}
    (h : blocks.Perm ((g :: rest).map Held.block))
    (hnodup : ((g :: rest).map (·.block.ptr)).Nodup) :
    (blocks.filter fun b => decide (b.ptr ≠ g.block.ptr)).Perm (rest.map Held.block) := by
  have hne : ∀ b ∈ rest.map Held.block, b.ptr ≠ g.block.ptr := by
    intro b hb heq
    obtain ⟨h', hh', rfl⟩ := List.mem_map.mp hb
    refine (List.nodup_cons.mp hnodup).1 ?_
    show g.block.ptr ∈ rest.map (·.block.ptr)
    rw [← heq]
    exact List.mem_map_of_mem hh'
  have hfilter := h.filter fun b => decide (b.ptr ≠ g.block.ptr)
  rw [List.map_cons, List.filter_cons_of_neg (by simp),
    List.filter_eq_self.mpr fun b hb => decide_eq_true (hne b hb)] at hfilter
  exact hfilter

theorem World.reallyFree_zero (w : World) : w.reallyFree 0 = w := if_pos rfl

theorem World.reallyFree_block {b : Block} (hb : b ∈ w.blocks) (hne : b.ptr ≠ 0) :
    w.reallyFree b.ptr = { w with blocks := w.blocks.filter (·.ptr ≠ b.ptr) } := by
  unfold World.reallyFree
  rw [if_neg hne, if_pos ⟨b, hb, rfl⟩]

/-- A block that is not really freed is not freed again. -/
theorem HeapInv.free_again (hinv : HeapInv other w freed) {neverFatal : Int} {g : Held}
    (hg : g ∈ freed) {w' : World} (hstep : w.free neverFatal g.block.ptr = some w') :
    HeapInv other w' freed := by
  have hmem := @HeapInv.mem_freedRegions other w _ _ hg
  have hne := (hinv.sized g (List.mem_append_right _ hg)).notNull
  obtain ⟨left, right, hsplay⟩ := hinv.represents.splay_root hmem
  have hheld : w.held.filter (fun h => decide (h.block.ptr ≠ g.block.ptr)) = w.held := by
    refine filter_held fun h hh heq => ?_
    have hnodup := hinv.nodup
    rw [List.map_append, List.nodup_append] at hnodup
    exact hnodup.2.2 _ (List.mem_map_of_mem hh) _ (List.mem_map_of_mem hg) heq
  have hfree : boundFree neverFatal g.block.ptr w.st = if neverFatal = 0 then none
      else some ({ w.st with tree := .node left g.freedRegion right }, 0) := by
    unfold boundFree
    rw [if_neg (not_or.mpr ⟨hne, hinv.represents.ne_nil hmem⟩),
      show splay g.block.ptr w.st.tree = _ from hsplay]
    simp only
    rw [if_pos (show g.freedRegion.start = g.block.ptr from rfl),
      if_pos (show g.freedRegion.isInvalid ≠ 0 from (by decide : (1 : BitVec 8) ≠ 0))]
  unfold World.free at hstep
  rw [hfree] at hstep
  split at hstep
  · cases hstep
  · obtain rfl := Option.some.inj hstep
    have hsame := inorder_splay g.block.ptr w.st.tree
    rw [show splay g.block.ptr w.st.tree = _ from hsplay] at hsame
    have hrep := hinv.represents.congr hsame
    simp only [World.reallyFree_zero, hheld]
    exact ⟨hrep, hinv.blocks, hinv.sized, hinv.list, hinv.length, hinv.index, hinv.handed⟩

/-- A block that the program holds goes to the list of freed blocks, and the block that was in its
place is really freed. -/
theorem HeapInv.free_held (hinv : HeapInv other w freed) {neverFatal : Int} {h : Held}
    (hh : h ∈ w.held) {w' : World} (hstep : w.free neverFatal h.block.ptr = some w') :
    ∃ freed', HeapInv other w' freed' := by
  have hs := hinv.sized h (List.mem_append_left _ hh)
  have hmem := @HeapInv.mem_regions other _ freed _ hh
  have hnodup := hinv.nodup
  have hperm : w.held.Perm (h :: w.held.filter fun h' => decide (h'.block.ptr ≠ h.block.ptr)) := by
    rw [List.map_append] at hnodup
    exact perm_cons_filter hnodup.of_append_left hh
  generalize hheld : w.held.filter (fun h' => decide (h'.block.ptr ≠ h.block.ptr)) = held' at hperm
  obtain ⟨left, right, hsplay⟩ := hinv.represents.splay_root hmem
  have hsame := inorder_splay h.block.ptr w.st.tree
  rw [show splay h.block.ptr w.st.tree = _ from hsplay] at hsame
  have hrep : Represents (.node left h.region right)
      (h.region :: (heapRegions held' freed ++ other)) :=
    (hinv.represents.congr hsame).perm ((heapRegions_perm hperm (.refl _)).append (.refl _))
  have hmarked := hrep.markRoot h.type 1
  -- The place in the list, and the pointer that was there.
  have hi : w.st.freeReuseIndex < w.st.freeReuseList.length := by
    rw [hinv.length]
    exact hinv.index
  obtain ⟨hset, hlist⟩ := filter_set_perm hi hs.notNull
  generalize hq : w.st.freeReuseList.getD w.st.freeReuseIndex 0 = q at hlist
  have hfree : boundFree neverFatal h.block.ptr w.st = some
      ({ tree := if q ≠ 0 then splayDelete q (.node left h.freedRegion right)
          else .node left h.freedRegion right
         freeReuseList := w.st.freeReuseList.set w.st.freeReuseIndex h.block.ptr
         freeReuseIndex := (w.st.freeReuseIndex + 1) % freeReuseSize }, q) := by
    unfold boundFree
    rw [if_neg (not_or.mpr ⟨hs.notNull, hinv.represents.ne_nil hmem⟩),
      show splay h.block.ptr w.st.tree = _ from hsplay]
    simp only
    rw [if_pos (show h.region.start = h.block.ptr from rfl),
      if_neg (show ¬ h.region.isInvalid ≠ 0 from (by decide : ¬ (0 : BitVec 8) ≠ 0)), hq]
    rfl
  unfold World.free at hstep
  rw [hfree] at hstep
  obtain rfl := Option.some.inj hstep
  simp only [hheld]
  have hlen : (w.st.freeReuseList.set w.st.freeReuseIndex h.block.ptr).length = freeReuseSize := by
    rw [List.length_set, hinv.length]
  have hidx : (w.st.freeReuseIndex + 1) % freeReuseSize < freeReuseSize :=
    Nat.mod_lt _ (by decide)
  have hsized : ∀ h' ∈ held' ++ h :: freed, h'.Sized := fun h' hh' =>
    hinv.sized h' ((hperm.append_right freed).mem_iff.mpr (List.perm_middle.mem_iff.mp hh'))
  have hblocks : w.blocks.Perm ((held' ++ h :: freed).map Held.block) :=
    hinv.blocks.trans (((hperm.append_right freed).trans List.perm_middle.symm).map _)
  have hregions : (h.freedRegion :: (heapRegions held' freed ++ other)).Perm
      (heapRegions held' (h :: freed) ++ other) := by
    unfold heapRegions
    rw [List.append_assoc, List.append_assoc]
    exact List.perm_middle.symm
  by_cases hq0 : q = 0
  · -- The place was empty.
    rw [hq0, List.filter_cons_of_neg (by simp)] at hlist
    refine ⟨h :: freed, ?_⟩
    rw [if_neg (not_not.mpr hq0), hq0, World.reallyFree_zero]
    refine ⟨hmarked.perm hregions, hblocks, hsized, ?_, hlen, hidx, hinv.handed⟩
    exact hset.trans ((hlist.symm.trans hinv.list).cons _)
  · rw [List.filter_cons_of_pos (by simpa using hq0)] at hlist
    have hqmem : q ∈ freed.map (·.block.ptr) :=
      (hlist.symm.trans hinv.list).mem_iff.mp List.mem_cons_self
    obtain ⟨g, hg, rfl⟩ := List.mem_map.mp hqmem
    have hgmem : g ∈ w.held ++ freed := List.mem_append_right _ hg
    have hfreed : freed.Perm (g :: freed.filter fun h' => decide (h'.block.ptr ≠ g.block.ptr)) := by
      rw [List.map_append] at hnodup
      exact perm_cons_filter hnodup.of_append_right hg
    generalize freed.filter (fun h' => decide (h'.block.ptr ≠ g.block.ptr)) = rest at hfreed
    have hall : (w.held ++ freed).Perm (g :: (held' ++ h :: rest)) := by
      refine (hperm.append hfreed).trans ?_
      exact (@List.perm_middle _ _ (h :: held') _).trans (List.perm_middle.symm.cons g)
    refine ⟨h :: rest, ?_⟩
    rw [if_pos hq0, World.reallyFree_block (hinv.blocks.mem_iff.mpr (List.mem_map_of_mem hgmem)) hq0]
    refine ⟨?_, ?_, ?_, ?_, hlen, hidx, hinv.handed⟩
    · have hlive : (h.freedRegion :: (heapRegions held' freed ++ other)).Perm
          (g.freedRegion :: (heapRegions held' (h :: rest) ++ other)) := by
        refine hregions.trans ?_
        refine ((heapRegions_perm (.refl held') (hfreed.cons h)).append (.refl other)).trans ?_
        unfold heapRegions
        refine ((List.Perm.swap _ _ _).append_left _ |>.append_right other).trans ?_
        rw [List.map_cons, List.append_assoc, List.append_assoc]
        exact List.perm_middle
      exact (hmarked.perm hlive).delete
    · exact filter_blocks (hinv.blocks.trans (hall.map _)) ((hall.map _).nodup_iff.mp hnodup)
    · exact fun h' hh' => hinv.sized h' (hall.mem_iff.mpr (List.mem_cons_of_mem g hh'))
    · have hrest := (hlist.symm.trans (hinv.list.trans (hfreed.map _))).cons_inv
      exact hset.trans (hrest.cons _)

/-- The program frees a pointer that it may free. -/
theorem HeapInv.free (hinv : HeapInv other w freed) {neverFatal : Int} {ptr : BitVec 64}
    (hmay : MayFree w ptr) {w' : World} (hstep : w.free neverFatal ptr = some w') :
    ∃ freed', HeapInv other w' freed' := by
  by_cases hp : ptr = 0
  · have hfree : boundFree neverFatal ptr w.st = some (w.st, 0) := if_pos (Or.inl hp)
    have hheld : w.held.filter (fun h => decide (h.block.ptr ≠ ptr)) = w.held :=
      filter_held fun h hh => hp ▸ (hinv.sized h (List.mem_append_left _ hh)).notNull
    unfold World.free at hstep
    rw [hfree] at hstep
    obtain rfl := Option.some.inj hstep
    simp only [World.reallyFree_zero, hheld]
    exact ⟨freed, hinv⟩
  · rcases hmay with h0 | ⟨h, hh, rfl⟩ | hmem
    · exact absurd h0 hp
    · exact hinv.free_held hh hstep
    · have hlisted : ptr ∈ freed.map (·.block.ptr) :=
        hinv.list.mem_iff.mp (List.mem_filter.mpr ⟨hmem, by simpa using hp⟩)
      obtain ⟨g, hg, rfl⟩ := List.mem_map.mp hlisted
      exact ⟨freed, hinv.free_again hg hstep⟩

/-! ## Reallocation -/

/-- A block that the program holds is taken out of the tree and really freed. -/
theorem HeapInv.drop (hinv : HeapInv other w freed) {h : Held} (hh : h ∈ w.held) :
    HeapInv other { w with
      st := { w.st with tree := splayDelete h.block.ptr w.st.tree }
      blocks := w.blocks.filter fun b => decide (b.ptr ≠ h.block.ptr)
      held := w.held.filter fun h' => decide (h'.block.ptr ≠ h.block.ptr) } freed := by
  have hnodup := hinv.nodup
  have hperm : w.held.Perm (h :: w.held.filter fun h' => decide (h'.block.ptr ≠ h.block.ptr)) := by
    rw [List.map_append] at hnodup
    exact perm_cons_filter hnodup.of_append_left hh
  generalize w.held.filter (fun h' => decide (h'.block.ptr ≠ h.block.ptr)) = held' at hperm
  have hall := hperm.append_right freed
  refine ⟨?_, ?_, ?_, hinv.list, hinv.length, hinv.index, hinv.handed⟩
  · exact (hinv.represents.perm ((heapRegions_perm hperm (.refl _)).append_right other)).delete
  · exact filter_blocks (hinv.blocks.trans (hall.map _)) ((hall.map _).nodup_iff.mp hnodup)
  · exact fun h' hh' => hinv.sized h' (hall.mem_iff.mpr (List.mem_cons_of_mem h hh'))

/-- A block that the program holds, or none, is reallocated. -/
theorem HeapInv.realloc (hinv : HeapInv other w freed) {ptr size : BitVec 64} {b : Block}
    (hptr : ptr = 0 ∨ ∃ h ∈ w.held, h.block.ptr = ptr) (hlt : size.toNat + 1 < 2 ^ 64)
    (hgive : GivesOut other (w.blocks.filter fun b' => decide (b'.ptr ≠ ptr)) (size + 1) b) :
    HeapInv other { w.reallyRealloc ptr (some b) with
      st := boundRealloc ptr size b.ptr w.st
      held := (w.held.filter fun h => decide (h.block.ptr ≠ ptr)) ++
        [⟨b, size.toNat, tccTypeRealloc⟩] } freed := by
  have hs : Held.Sized ⟨b, size.toNat, tccTypeRealloc⟩ := sized_of_givesOut rfl hlt hgive
  have hsize := @region_size_eq b tccTypeRealloc size _ rfl
  unfold boundRealloc World.reallyRealloc State.register
  rw [if_pos hgive.notNull, hsize]
  by_cases hp : ptr = 0
  · subst hp
    have hblocks : w.blocks.filter (fun b' => decide (b'.ptr ≠ 0)) = w.blocks := by
      refine List.filter_eq_self.mpr fun b' hb' => decide_eq_true ?_
      obtain ⟨h, hh, rfl⟩ := List.mem_map.mp (hinv.blocks.mem_iff.mp hb')
      exact (hinv.sized h hh).notNull
    rw [hblocks] at hgive
    rw [if_neg (by simp), World.reallyFree_zero,
      filter_held fun h hh => (hinv.sized h (List.mem_append_left _ hh)).notNull]
    exact hinv.add hs hgive
  · obtain ⟨h, hh, rfl⟩ := hptr.resolve_left hp
    have hblock : h.block ∈ w.blocks :=
      hinv.blocks.mem_iff.mpr (List.mem_map_of_mem (List.mem_append_left _ hh))
    rw [if_pos hp, World.reallyFree_block hblock hp]
    exact (hinv.drop hh).add hs hgive

/-! ## Runs -/

/-- A call that fits leaves the regions of the heap right. -/
theorem HeapInv.step (hinv : HeapInv other w freed) {neverFatal : Int} {call : Call}
    (hpromised : Promised other w call) (hfits : call.Fits w) {w' : World}
    (hstep : w.step neverFatal call = some w') : ∃ freed', HeapInv other w' freed' := by
  have hblocks : w.blocks.filter (fun b => decide (b.ptr ≠ 0)) = w.blocks := by
    refine List.filter_eq_self.mpr fun b hb => decide_eq_true ?_
    obtain ⟨h, hh, rfl⟩ := List.mem_map.mp (hinv.blocks.mem_iff.mp hb)
    exact (hinv.sized h hh).notNull
  have hnone : ∀ {asked b}, GivesOut other (w.blocks.filter fun b => decide (b.ptr ≠ 0)) asked b →
      GivesOut other w.blocks asked b := by
    rw [hblocks]
    exact id
  cases call with
  | malloc size answer =>
      obtain rfl := Option.some.inj hstep
      refine ⟨freed, hinv.give (Nat.mod_eq_of_lt size.isLt).symm hfits ?_ tccTypeMalloc⟩
      rintro b rfl
      exact hnone (hpromised _ b rfl)
  | memalign align size answer =>
      obtain rfl := Option.some.inj hstep
      refine ⟨freed, hinv.give (Nat.mod_eq_of_lt size.isLt).symm hfits ?_ tccTypeMemalign⟩
      rintro b rfl
      exact hnone (hpromised _ b rfl)
  | calloc nmemb size answer =>
      obtain rfl := Option.some.inj hstep
      refine ⟨freed, @HeapInv.give _ _ _ hinv (size * nmemb) _ ?_ _ hfits ?_ tccTypeCalloc⟩
      · rw [BitVec.toNat_mul, Nat.mul_comm]
      · rintro b rfl
        exact hnone (hpromised _ b rfl)
  | realloc ptr size answer =>
      change (if size = 0 then MayFree w ptr else _) at hfits
      change (if size = 0 then w.free neverFatal ptr else some _) = some w' at hstep
      by_cases hsize : size = 0
      · rw [if_pos hsize] at hfits hstep
        exact hinv.free hfits hstep
      · rw [if_neg hsize] at hfits hstep
        obtain rfl := Option.some.inj hstep
        obtain ⟨hptr, ⟨rfl, rfl⟩ | ⟨hsome, hlt⟩⟩ := hfits
        · refine ⟨freed, ?_⟩
          unfold boundRealloc World.reallyRealloc ptrOf
          simp only [ne_eq, not_true_eq_false, if_false, Option.map_none, Option.getD_none,
            false_and, decide_false, Bool.or_false]
          exact hinv
        · cases answer with
          | none => exact absurd rfl hsome
          | some b =>
              refine ⟨freed, hinv.realloc hptr hlt ?_⟩
              exact hpromised _ b (if_neg hsize)
  | free ptr => exact hinv.free hfits hstep

theorem Starts.heapInv (h : Starts other w) : HeapInv other w [] := by
  refine ⟨?_, ?_, ?_, ?_, ?_, h.index, h.misused⟩
  · rw [h.held]
    exact h.represents
  · rw [h.held, h.blocks]
    exact .refl _
  · rw [h.held]
    exact fun h' hh' => absurd hh' List.not_mem_nil
  · rw [h.list, List.filter_eq_nil_iff.mpr fun p hp => by simp [List.eq_of_mem_replicate hp]]
    exact .refl _
  · rw [h.list, List.length_replicate]

theorem HeapInv.reaches {start : World} {neverFatal : Int} (hstart : HeapInv other start freed)
    (h : Reaches (fun w call => Promised other w call ∧ call.Fits w) neverFatal start w) :
    ∃ freed', HeapInv other w freed' := by
  induction h with
  | start => exact ⟨freed, hstart⟩
  | step call _ hcond hstep ih =>
      obtain ⟨freed', hinv⟩ := ih
      exact hinv.step hcond.1 hcond.2 hstep

/-- The regions of the invariant are those of the heap. -/
theorem HeapInv.heapOk (hinv : HeapInv other w freed) : HeapOk other w := by
  have hok := hinv.represents.ok
  refine ⟨fun r => ⟨?_, ?_⟩, ?_, ?_, ?_, hinv.handed⟩
  · rintro ⟨hr, hother, hvalid⟩
    have hmem := (List.mem_append.mp (hinv.represents.same.mem_iff.mp hr)).resolve_right hother
    rcases List.mem_append.mp hmem with hmem | hmem
    · obtain ⟨h, hh, rfl⟩ := List.mem_map.mp hmem
      exact ⟨h, hh, rfl⟩
    · obtain ⟨h, -, rfl⟩ := List.mem_map.mp hmem
      exact absurd hvalid (by decide : ¬ (1 : BitVec 8) = 0)
  · rintro ⟨h, hh, rfl⟩
    refine ⟨hinv.represents.same.mem_iff.mpr (HeapInv.mem_regions hh), fun hother => ?_, rfl⟩
    have hnodup := starts_nodup hok
    rw [List.map_append, List.nodup_append] at hnodup
    have hheap : h.region ∈ heapRegions w.held freed :=
      List.mem_append_left _ (List.mem_map_of_mem hh)
    exact hnodup.2.2 _ (List.mem_map_of_mem hheap) _ (List.mem_map_of_mem hother) rfl
  · intro h hh
    have hs := hinv.sized h (List.mem_append_left _ hh)
    exact ⟨hs.region_size, hs.region_fits.2⟩
  · exact fun h hh =>
      hinv.blocks.mem_iff.mpr (List.mem_map_of_mem (List.mem_append_left _ hh))
  · intro b hb hnot
    obtain ⟨h, hh, rfl⟩ := List.mem_map.mp (hinv.blocks.mem_iff.mp hb)
    rcases List.mem_append.mp hh with hh | hh
    · exact absurd rfl (hnot h hh)
    · exact ⟨h.freedRegion,
        hinv.represents.same.mem_iff.mpr (HeapInv.mem_freedRegions hh), rfl,
        (by decide : (1 : BitVec 8) ≠ 0)⟩

end Invariant

/-- In every run whose sizes do not wrap around and whose reallocations get a block, the regions of
the heap are the blocks that the program holds and those that are not really freed yet. -/
theorem heap_ok (other : List Region) (neverFatal : Int) (start w : World)
    (hstart : Starts other start)
    (hreaches : Reaches (fun w call => Promised other w call ∧ call.Fits w) neverFatal start w) :
    HeapOk other w := by
  obtain ⟨freed, hinv⟩ := hstart.heapInv.reaches hreaches
  exact hinv.heapOk

/-- A world without blocks. -/
def emptyWorld : World := ⟨⟨.nil, List.replicate freeReuseSize 0, 0⟩, [], [], false⟩

theorem starts_emptyWorld : Starts [] emptyWorld :=
  ⟨⟨⟨fun _ hr => absurd hr List.not_mem_nil, fun _ hr => absurd hr List.not_mem_nil, .nil⟩, .refl _,
    .nil⟩, rfl, by decide, rfl, rfl, rfl⟩

/-- A block for ten bytes. -/
def tenBytes : Block := ⟨0x1000, 16⟩

theorem givesOut_tenBytes : GivesOut [] [] 11 tenBytes :=
  ⟨by decide, by decide, by decide, fun _ h => absurd h List.not_mem_nil,
    fun _ h => absurd h List.not_mem_nil⟩

theorem promised_tenBytes : Promised [] emptyWorld (.malloc 10 (some tenBytes)) := by
  intro asked b h
  obtain ⟨rfl, hb⟩ := Prod.mk.inj (Option.some.inj h)
  obtain rfl := Option.some.inj hb
  exact givesOut_tenBytes

theorem heap_ok_malloc :
    ∃ w, emptyWorld.step 0 (.malloc 10 (some tenBytes)) = some w ∧ HeapOk [] w :=
  ⟨_, rfl, heap_ok [] 0 emptyWorld _ starts_emptyWorld
    (.step (.malloc 10 (some tenBytes)) .start
      ⟨promised_tenBytes, Or.inr (by decide)⟩ rfl)⟩

/-- A reallocation that fails takes the block out of the tree, but the program still holds it. -/
theorem failed_realloc_unregisters :
    ∃ w, Reaches (fun w call => Promised [] w call ∧
        (call.old = 0 ∨ ∃ h ∈ w.held, h.block.ptr = call.old)) 0 emptyWorld w ∧
      w.held = [⟨tenBytes, 10, tccTypeMalloc⟩] ∧ w.st.tree.inorder = [] ∧ ¬ HeapOk [] w := by
  refine ⟨_, .step (.realloc 0x1000 100 none) (.step (.malloc 10 (some tenBytes)) .start
    ⟨promised_tenBytes, Or.inl rfl⟩ rfl) ⟨fun _ _ h => ?_, Or.inr ⟨_, List.mem_cons_self, rfl⟩⟩ rfl,
    rfl, rfl, fun h => ?_⟩
  · cases h
  · exact absurd ((h.valid _).mpr ⟨_, List.mem_cons_self, rfl⟩).1 List.not_mem_nil

end TccRiscv64.Bcheck
