import TccRiscv64.Bcheck.CleanUp

set_option autoImplicit false

/-! # Jumps out of functions

The regions of local objects and of objects of variable size, as functions are entered and left, and
what a jump leaves of them. -/

namespace TccRiscv64.Bcheck.LongJump

open Data

/-! ## Functions that are active -/

/-- An active function: its frame pointer, its stack pointer, and the table of its objects. -/
structure Frame where
  fp : BitVec 64
  sp : BitVec 64
  table : Table

/-- The regions of the local objects. -/
def Frame.locals (f : Frame) : List Region :=
  f.table.entries.map fun e => ⟨e.1 + f.fp, e.2, tccTypeNone, 0⟩

/-- The region of an object of variable size. -/
def AllocaNode.region (cur : AllocaNode) : Region := ⟨cur.p, cur.size, tccTypeNone, 0⟩

/-- The lists, and the active functions, the innermost first. -/
structure Config where
  lists : Lists
  frames : List Frame

/-- What the innermost function does. -/
inductive Op
  | call (f : Frame)
  | ret
  | newRegion (p size : BitVec 64)
  /-- The scope of an object of variable size is left. -/
  | release (sp : BitVec 64)
  | setjmp (env : BitVec 64)

/-- The stack pointer is the frame pointer of the function that is called. -/
def Config.run (tid : BitVec 64) (c : Config) (op : Op) : Config :=
  match op, c.frames with
  | .call f, frames => ⟨localNew f.table f.fp c.lists, f :: frames⟩
  | .ret, f :: frames => ⟨localDelete f.table f.fp c.lists, frames⟩
  | .newRegion p size, f :: frames =>
    ⟨newRegion p size f.fp c.lists, { f with sp := p } :: frames⟩
  | .release sp, f :: frames => { c with frames := { f with sp } :: frames }
  | .setjmp env, f :: _ => { c with lists := setjmp env tid f.fp f.sp c.lists }
  | _, [] => c

/-- Two regions have no address in common, and not the same start. -/
def Clear (a b : Region) : Prop := a.Disjoint b ∧ a.start ≠ b.start

instance (a b : Region) : Decidable (Clear a b) := inferInstanceAs (Decidable (_ ∧ _))

/-- The frame lies on the stack, and the local objects lie in the frame. -/
structure Frame.Fits (lo hi : Nat) (f : Frame) : Prop where
  lo_le : lo ≤ f.sp.toNat
  sp_lt : f.sp.toNat < f.fp.toNat
  le_hi : f.fp.toNat ≤ hi
  locals : ∀ r ∈ f.locals,
    f.sp.toNat ≤ r.start.toNat ∧ r.start.toNat < f.fp.toNat ∧ r.endAddr ≤ f.fp.toNat
  clear : f.locals.Pairwise Clear

/-- The stack grows downwards: what the functions and their objects lie at. -/
def Op.Valid (lo hi : Nat) (frames : List Frame) : Op → Prop
  | .call f => f.Fits lo ((frames.head?.map fun g => g.sp.toNat).getD hi)
  | .ret => True
  | .newRegion p size => ∀ f ∈ frames.head?, lo ≤ p.toNat ∧ p.toNat + size.toNat ≤ f.sp.toNat
  | .release sp => ∀ f ∈ frames.head?,
      f.sp.toNat ≤ sp.toNat ∧ sp.toNat < f.fp.toNat ∧ ∀ r ∈ f.locals, sp.toNat ≤ r.start.toNat
  | .setjmp _ => True

/-- Deletions one after the other come to their regions. -/
def FoundAll : List (BitVec 64) → Tree → Prop
  | [], _ => True
  | addr :: rest, t => Found addr t ∧ FoundAll rest (splayDelete addr t)

/-- The regions of a function. -/
def Config.regionsOf (c : Config) (f : Frame) : List Region :=
  f.locals ++ (c.lists.allocaList.filter fun cur => cur.fp = f.fp).map AllocaNode.region

/-- New objects lie where no region is left, and deletions come to their regions. -/
def Op.Ok (c : Config) : Op → Prop
  | .call f => ∀ r ∈ f.locals, ∀ b ∈ c.lists.tree.inorder, Clear r b
  | .ret => ∀ f ∈ c.frames.head?, FoundAll ((c.regionsOf f).map Region.start) c.lists.tree
  | .newRegion p size => ∀ f ∈ c.frames.head?,
      match c.lists.allocaList.find? (·.overlaps f.fp p size) with
      | none => ∀ b ∈ c.lists.tree.inorder, Clear ⟨p, size, tccTypeNone, 0⟩ b
      | some cur => Found cur.p c.lists.tree ∧
          ∀ b ∈ (splayDelete cur.p c.lists.tree).inorder, Clear ⟨p, size, tccTypeNone, 0⟩ b
  | .release _ => True
  | .setjmp _ => True

/-- What is reached from a tree of regions that do not start on the stack. -/
inductive Reachable (tid : BitVec 64) (lo hi : Nat) (t₀ : Tree) : Config → Prop
  | start (h : Apart t₀.inorder)
    (hout : ∀ r ∈ t₀.inorder, r.start.toNat < lo ∨ hi ≤ r.start.toNat) :
    Reachable tid lo hi t₀ ⟨⟨t₀, [], []⟩, []⟩
  | step {c : Config} (h : Reachable tid lo hi t₀ c) (op : Op) (hvalid : op.Valid lo hi c.frames)
    (hok : op.Ok c) : Reachable tid lo hi t₀ (c.run tid op)

/-! ## Insertions and deletions -/

section Trees

variable {t : Tree} {r : Region} {rs others : List Region} {addr size : BitVec 64}

theorem splayInsert_clear (h : Apart t.inorder) (hr : Region.Bounded ⟨addr, size, tccTypeNone, 0⟩)
    (hclear : ∀ b ∈ t.inorder, Clear ⟨addr, size, tccTypeNone, 0⟩ b) :
    Apart (splayInsert addr size t).inorder ∧
      (splayInsert addr size t).inorder.Perm (⟨addr, size, tccTypeNone, 0⟩ :: t.inorder) := by
  have hne : ∀ b ∈ t.inorder, addr.toNat ≠ b.start.toNat := fun b hb heq =>
    (hclear b hb).2 (BitVec.eq_of_toNat_eq heq)
  have hbefore : ∀ b ∈ t.inorder, addr.toNat < b.start.toNat →
      Region.Before ⟨addr, size, tccTypeNone, 0⟩ b := by
    intro b hb hlt
    rcases (hclear b hb).1 with hdisj | hdisj
    · exact hdisj
    · have hle : b.endAddr ≤ addr.toNat := hdisj
      unfold Region.endAddr at hle
      omega
  obtain ⟨below, above, hinorder, heq, hbelow, habove⟩ := @inorder_splayInsert t addr size h.sorted
    (by
      rintro b hb ⟨hle, hlt⟩
      have hdisj := hbefore b hb
      rcases (hclear b hb).1 with hdisj | hdisj
      · have hadd : addr.toNat + size.toNat ≤ b.start.toNat := hdisj
        have := hne b hb
        omega
      · have hend : b.endAddr ≤ addr.toNat := hdisj
        omega)
  have hmem : ∀ b, b ∈ t.inorder ↔ b ∈ below ∨ b ∈ above := fun b => by
    rw [hinorder, List.mem_append]
  have hsorted := h.sorted.before
  have hstarts := h.starts
  rw [hinorder, List.pairwise_append] at hsorted hstarts
  have hlow : ∀ a ∈ below, a.start.toNat < addr.toNat := by
    intro a ha
    have hle := hbelow a ha
    have := hne a ((hmem a).2 (.inl ha))
    unfold Region.endAddr at hle
    omega
  refine ⟨⟨⟨?_, ?_⟩, ?_⟩, ?_⟩
  · rw [heq, List.forall_mem_append, List.forall_mem_cons]
    exact ⟨fun a ha => h.sorted.bounded a ((hmem a).2 (.inl ha)), hr,
      fun b hb => h.sorted.bounded b ((hmem b).2 (.inr hb))⟩
  · rw [heq, List.pairwise_append, List.pairwise_cons]
    refine ⟨hsorted.1, ⟨fun b hb => ?_, hsorted.2.1⟩, fun a ha b hb => ?_⟩
    · exact hbefore b ((hmem b).2 (.inr hb)) (habove b hb)
    · rcases List.mem_cons.1 hb with rfl | hb
      · exact hbelow a ha
      · exact hsorted.2.2 a ha b hb
  · rw [heq, List.pairwise_append, List.pairwise_cons]
    refine ⟨hstarts.1, ⟨habove, hstarts.2.1⟩, fun a ha b hb => ?_⟩
    rcases List.mem_cons.1 hb with rfl | hb
    · exact hlow a ha
    · exact hstarts.2.2 a ha b hb
  · rw [heq, hinorder]
    exact List.perm_middle

theorem splayDelete_found (h : Apart t.inorder) (hfound : Found r.start t)
    (hperm : t.inorder.Perm (r :: others)) :
    Apart (splayDelete r.start t).inorder ∧ (splayDelete r.start t).inorder.Perm others := by
  obtain ⟨before, x, after, hx, hinorder, hdelete⟩ := inorder_splayDelete_of_found h hfound
  have hxr : x = r := h.start_inj (by
    rw [hinorder]
    exact List.mem_append_right _ List.mem_cons_self)
    (hperm.mem_iff.2 List.mem_cons_self) hx
  subst hxr
  refine ⟨h.sublist ?_, ?_⟩
  · rw [hinorder, hdelete]
    exact (List.sublist_cons_self ..).append_left before
  · rw [hdelete]
    rw [hinorder] at hperm
    exact (List.perm_middle.symm.trans hperm).cons_inv

theorem foldl_splayDelete (h : Apart t.inorder) (hfound : FoundAll (rs.map Region.start) t)
    (hperm : t.inorder.Perm (rs ++ others)) :
    Apart (rs.foldl (fun t r => splayDelete r.start t) t).inorder ∧
      (rs.foldl (fun t r => splayDelete r.start t) t).inorder.Perm others := by
  induction rs generalizing t with
  | nil => exact ⟨h, hperm⟩
  | cons r rs ih =>
    obtain ⟨hfirst, hrest⟩ := hfound
    obtain ⟨h', hperm'⟩ := splayDelete_found h hfirst hperm
    exact ih h' hrest hperm'

theorem foldl_splayInsert (h : Apart t.inorder) (hrs : rs.Pairwise Clear)
    (hnew : ∀ r ∈ rs, r.Bounded ∧ r = ⟨r.start, r.size, tccTypeNone, 0⟩)
    (hclear : ∀ r ∈ rs, ∀ b ∈ t.inorder, Clear r b) :
    Apart (rs.foldl (fun t r => splayInsert r.start r.size t) t).inorder ∧
      (rs.foldl (fun t r => splayInsert r.start r.size t) t).inorder.Perm (rs ++ t.inorder) := by
  induction rs generalizing t with
  | nil => exact ⟨h, .refl _⟩
  | cons r rs ih =>
    rw [List.pairwise_cons] at hrs
    rw [List.forall_mem_cons] at hnew hclear
    obtain ⟨⟨hbounded, hr⟩, hnew⟩ := hnew
    rw [hr] at hbounded
    obtain ⟨h', hperm⟩ := splayInsert_clear h hbounded (hr ▸ hclear.1)
    rw [← hr] at hperm
    obtain ⟨hapart, hresult⟩ := ih h' hrs.2 hnew (by
      intro a ha b hb
      rcases List.mem_cons.1 (hperm.mem_iff.1 hb) with rfl | hb
      · obtain ⟨hdisj, hstart⟩ := hrs.1 a ha
        exact ⟨hdisj.symm, hstart.symm⟩
      · exact hclear.2 a ha b hb)
    refine ⟨hapart, hresult.trans ?_⟩
    exact (hperm.append_left rs).trans List.perm_middle

end Trees

/-! ## What every step keeps -/

section Runs

variable {tid : BitVec 64} {lo hi : Nat} {t₀ : Tree} {c : Config} {st : Lists} {f : Frame}
  {frames : List Frame}

/-- All regions: those that were there, and those of the functions. -/
def Config.regions (t₀ : Tree) (c : Config) : List Region :=
  t₀.inorder ++ (c.frames.flatMap Frame.locals ++ c.lists.allocaList.map AllocaNode.region)

structure Inv (lo hi : Nat) (t₀ : Tree) (c : Config) : Prop where
  apart : Apart c.lists.tree.inorder
  perm : c.lists.tree.inorder.Perm (c.regions t₀)
  out : ∀ r ∈ t₀.inorder, r.start.toNat < lo ∨ hi ≤ r.start.toNat
  fits : ∀ f ∈ c.frames, f.Fits lo hi
  nested : c.frames.Pairwise fun f g => f.fp.toNat ≤ g.sp.toNat
  allocas : ∀ a ∈ c.lists.allocaList, ∃ f ∈ c.frames, f.fp = a.fp ∧ lo ≤ a.p.toNat ∧
    a.p.toNat < f.fp.toNat
  jmps : ∀ j ∈ c.lists.jmpList, j.endFp.toNat < j.fp.toNat ∧ ∃ f ∈ c.frames, f.fp = j.fp

theorem Frame.Fits.locals_bounded (h : f.Fits lo hi) :
    ∀ r ∈ f.locals, r.Bounded ∧ r = ⟨r.start, r.size, tccTypeNone, 0⟩ := by
  intro r hr
  refine ⟨(h.locals r hr).2.2.trans_lt f.fp.isLt, ?_⟩
  obtain ⟨e, -, rfl⟩ := List.mem_map.1 hr
  rfl

theorem Inv.call (h : Inv lo hi t₀ c) (hvalid : (Op.call f).Valid lo hi c.frames)
    (hok : (Op.call f).Ok c) : Inv lo hi t₀ (c.run tid (.call f)) := by
  have htree : (localNew f.table f.fp c.lists).tree =
      f.locals.foldl (fun t r => splayInsert r.start r.size t) c.lists.tree := by
    rw [Frame.locals, List.foldl_map]
    rfl
  have hlimit : ∀ g ∈ c.frames, f.fp.toNat ≤ g.sp.toNat := by
    have hle := hvalid.le_hi
    have hnested := h.nested
    have hfits := h.fits
    cases hframes : c.frames with
    | nil => exact fun g hg => absurd hg List.not_mem_nil
    | cons g frames =>
      rw [hframes] at hle hnested hfits
      rw [List.pairwise_cons] at hnested
      have hhead : f.fp.toNat ≤ g.sp.toNat := hle
      have hlt := (hfits g List.mem_cons_self).sp_lt
      refine List.forall_mem_cons.2 ⟨hhead, fun g' hg' => ?_⟩
      exact (hhead.trans hlt.le).trans (hnested.1 g' hg')
  have hhi : f.fp.toNat ≤ hi := by
    have hle := hvalid.le_hi
    cases hframes : c.frames with
    | nil =>
      rw [hframes] at hle
      exact hle
    | cons g frames =>
      have hg : g ∈ c.frames := hframes ▸ List.mem_cons_self
      exact ((hlimit g hg).trans (h.fits g hg).sp_lt.le).trans (h.fits g hg).le_hi
  have hfits : f.Fits lo hi := ⟨hvalid.lo_le, hvalid.sp_lt, hhi, hvalid.locals, hvalid.clear⟩
  obtain ⟨hapart, hperm⟩ := foldl_splayInsert h.apart hvalid.clear hvalid.locals_bounded hok
  rw [← htree] at hapart hperm
  refine ⟨hapart, hperm.trans ?_, h.out, List.forall_mem_cons.2 ⟨hfits, h.fits⟩,
    List.pairwise_cons.2 ⟨hlimit, h.nested⟩, fun a ha => ?_, fun j hj => ?_⟩
  · refine (h.perm.append_left f.locals).trans ?_
    show (f.locals ++ (t₀.inorder ++ (c.frames.flatMap Frame.locals ++ _))).Perm
      (t₀.inorder ++ (f.locals ++ c.frames.flatMap Frame.locals ++ _))
    rw [List.append_assoc f.locals]
    exact List.perm_append_comm_assoc ..
  · obtain ⟨g, hg, hrest⟩ := h.allocas a ha
    exact ⟨g, List.mem_cons_of_mem _ hg, hrest⟩
  · obtain ⟨hlt, g, hg, hfp⟩ := h.jmps j hj
    exact ⟨hlt, g, List.mem_cons_of_mem _ hg, hfp⟩

theorem perm_regroup {α : Type} (ts ls ms as bs : List α) :
    (ts ++ (ls ++ ms ++ (as ++ bs))).Perm (ls ++ as ++ (ts ++ (ms ++ bs))) := by
  rw [← Multiset.coe_eq_coe]
  simp only [← Multiset.coe_add]
  abel

/-- The regions of a function that is left, and the other ones. -/
theorem Inv.perm_ret (h : Inv lo hi t₀ ⟨st, f :: frames⟩) :
    st.tree.inorder.Perm (Config.regionsOf ⟨st, f :: frames⟩ f ++
      Config.regions t₀ ⟨localDelete f.table f.fp st, frames⟩) := by
  have hsplit : (st.allocaList.map AllocaNode.region).Perm
      ((st.allocaList.filter fun cur => cur.fp = f.fp).map AllocaNode.region ++
        (st.allocaList.filter fun cur => cur.fp ≠ f.fp).map AllocaNode.region) := by
    rw [← List.map_append]
    refine List.Perm.map _ ?_
    have hfilter := (List.filter_append_perm (fun cur : AllocaNode => decide (cur.fp = f.fp))
      st.allocaList).symm
    simpa only [decide_not] using hfilter
  refine h.perm.trans (List.Perm.trans ?_ (perm_regroup ..))
  exact (hsplit.append_left _).append_left _

theorem Inv.ret (h : Inv lo hi t₀ ⟨st, f :: frames⟩) (hok : Op.ret.Ok ⟨st, f :: frames⟩) :
    Inv lo hi t₀ ⟨localDelete f.table f.fp st, frames⟩ := by
  have htree : (localDelete f.table f.fp st).tree =
      (Config.regionsOf ⟨st, f :: frames⟩ f).foldl (fun t r => splayDelete r.start t) st.tree := by
    rw [Config.regionsOf, Frame.locals, List.foldl_append, List.foldl_map, List.foldl_map]
    rfl
  obtain ⟨hapart, hresult⟩ := foldl_splayDelete h.apart (hok f rfl) h.perm_ret
  rw [← htree] at hapart hresult
  refine ⟨hapart, hresult, h.out, (List.forall_mem_cons.1 h.fits).2,
    (List.pairwise_cons.1 h.nested).2, fun a ha => ?_, fun j hj => ?_⟩
  · obtain ⟨ha, hne⟩ := List.mem_filter.1 ha
    obtain ⟨g, hg, hfp, hrest⟩ := h.allocas a ha
    rcases List.mem_cons.1 hg with rfl | hg
    · exact absurd hfp.symm (of_decide_eq_true hne)
    · exact ⟨g, hg, hfp, hrest⟩
  · obtain ⟨hj, hne⟩ := List.mem_filter.1 hj
    obtain ⟨hlt, g, hg, hfp⟩ := h.jmps j hj
    rcases List.mem_cons.1 hg with rfl | hg
    · exact absurd hfp.symm (of_decide_eq_true hne)
    · exact ⟨hlt, g, hg, hfp⟩

/-- A function whose stack pointer moves. -/
theorem Inv.moveSp {sp : BitVec 64} (h : Inv lo hi t₀ ⟨st, f :: frames⟩) (hlo : lo ≤ sp.toNat)
    (hlt : sp.toNat < f.fp.toNat) (hlocals : ∀ r ∈ f.locals, sp.toNat ≤ r.start.toNat) :
    Inv lo hi t₀ ⟨st, { f with sp } :: frames⟩ := by
  obtain ⟨hf, hfits⟩ := List.forall_mem_cons.1 h.fits
  have hframe : ∀ (fp : BitVec 64) (q : BitVec 64 → Prop),
      (∃ g ∈ f :: frames, g.fp = fp ∧ q g.fp) →
        ∃ g ∈ { f with sp } :: frames, g.fp = fp ∧ q g.fp := by
    rintro fp q ⟨g, hg, hrest⟩
    rcases List.mem_cons.1 hg with rfl | hg
    · exact ⟨_, List.mem_cons_self, hrest⟩
    · exact ⟨g, List.mem_cons_of_mem _ hg, hrest⟩
  refine ⟨h.apart, h.perm, h.out, List.forall_mem_cons.2 ⟨?_, hfits⟩,
    List.pairwise_cons.2 (List.pairwise_cons.1 h.nested), fun a ha => ?_, fun j hj => ?_⟩
  · exact ⟨hlo, hlt, hf.le_hi, fun r hr => ⟨hlocals r hr, (hf.locals r hr).2⟩, hf.clear⟩
  · obtain ⟨g, hg, hfp, hple, hplt⟩ := h.allocas a ha
    exact hframe a.fp (fun fp => lo ≤ a.p.toNat ∧ a.p.toNat < fp.toNat) ⟨g, hg, hfp, hple, hplt⟩
  · obtain ⟨hjlt, g, hg, hfp⟩ := h.jmps j hj
    obtain ⟨g', hg', hfp', -⟩ := hframe j.fp (fun _ => True) ⟨g, hg, hfp, trivial⟩
    exact ⟨hjlt, g', hg', hfp'⟩

theorem perm_eraseP {α : Type} {p : α → Bool} {xs : List α} {x : α} (h : xs.find? p = some x) :
    xs.Perm (x :: xs.eraseP p) := by
  obtain ⟨hx, before, after, rfl, hbefore⟩ := List.find?_eq_some_iff_append.1 h
  rw [List.eraseP_append_right _ (fun a ha => by simpa using hbefore a ha),
    List.eraseP_cons_of_pos hx]
  exact List.perm_middle

/-- What is left of the nodes and of the tree before the new region is put in. -/
theorem Inv.overlapping {p size : BitVec 64} (h : Inv lo hi t₀ ⟨st, f :: frames⟩)
    (hok : (Op.newRegion p size).Ok ⟨st, f :: frames⟩) :
    ∃ t', LongJump.newRegion p size f.fp st =
        { st with tree := splayInsert p size t'
                  allocaList := ⟨f.fp, p, size⟩ :: st.allocaList.eraseP (·.overlaps f.fp p size) } ∧
      Apart t'.inorder ∧ (∀ b ∈ t'.inorder, Clear ⟨p, size, tccTypeNone, 0⟩ b) ∧
      t'.inorder.Perm (t₀.inorder ++ ((f :: frames).flatMap Frame.locals ++
        (st.allocaList.eraseP (·.overlaps f.fp p size)).map AllocaNode.region)) := by
  have hok := hok f rfl
  unfold LongJump.newRegion
  dsimp only at hok ⊢
  cases hfind : st.allocaList.find? (·.overlaps f.fp p size) with
  | none =>
    rw [hfind] at hok
    have herase : st.allocaList.eraseP (·.overlaps f.fp p size) = st.allocaList :=
      List.eraseP_of_forall_not fun a ha => by
        have hnot := List.find?_eq_none.1 hfind a ha
        exact hnot
    rw [herase]
    exact ⟨_, rfl, h.apart, hok, h.perm⟩
  | some cur =>
    rw [hfind] at hok
    have hperm : st.tree.inorder.Perm (cur.region :: (t₀.inorder ++
        ((f :: frames).flatMap Frame.locals ++
          (st.allocaList.eraseP (·.overlaps f.fp p size)).map AllocaNode.region))) := by
      refine h.perm.trans ?_
      refine List.Perm.trans ?_ List.perm_middle
      refine List.Perm.append_left _ (List.Perm.trans ?_ List.perm_middle)
      exact ((perm_eraseP hfind).map AllocaNode.region).append_left _
    obtain ⟨hapart, hresult⟩ := splayDelete_found (r := cur.region) h.apart hok.1 hperm
    exact ⟨_, rfl, hapart, hok.2, hresult⟩

theorem Inv.newRegion {p size : BitVec 64} (h : Inv lo hi t₀ ⟨st, f :: frames⟩)
    (hvalid : (Op.newRegion p size).Valid lo hi (f :: frames))
    (hok : (Op.newRegion p size).Ok ⟨st, f :: frames⟩) :
    Inv lo hi t₀ ⟨LongJump.newRegion p size f.fp st, { f with sp := p } :: frames⟩ := by
  obtain ⟨hlo, hle⟩ := hvalid f rfl
  obtain ⟨hf, hfits⟩ := List.forall_mem_cons.1 h.fits
  have hsp := hf.sp_lt
  have hfp := f.fp.isLt
  have hlt : p.toNat < f.fp.toNat := by omega
  have hbounded : Region.Bounded ⟨p, size, tccTypeNone, 0⟩ := by
    show p.toNat + size.toNat < 2 ^ 64
    omega
  refine Inv.moveSp ?_ hlo hlt fun r hr => ?_
  · obtain ⟨t', heq, hapart, hclear, hperm⟩ := h.overlapping hok
    obtain ⟨hapart', hperm'⟩ := splayInsert_clear hapart hbounded hclear
    rw [heq]
    refine ⟨hapart', hperm'.trans ?_, h.out, h.fits, h.nested, fun a ha => ?_, h.jmps⟩
    · refine (hperm.cons _).trans ?_
      refine List.perm_middle.symm.trans (List.Perm.append_left _ ?_)
      exact List.perm_middle.symm
    · rcases List.mem_cons.1 ha with rfl | ha
      · exact ⟨f, List.mem_cons_self, rfl, hlo, hlt⟩
      · exact h.allocas a (List.mem_of_mem_eraseP ha)
  · have hr := (hf.locals r hr).1
    omega

theorem mem_setJmp {node j : JmpNode} {jmpList jmpList' : List JmpNode}
    (h : setJmp node jmpList = some jmpList') (hj : j ∈ jmpList') : j = node ∨ j ∈ jmpList := by
  induction jmpList generalizing jmpList' with
  | nil => cases h
  | cons jl rest ih =>
    rw [setJmp] at h
    split at h
    · cases h
      exact (List.mem_cons.1 hj).imp_right (List.mem_cons_of_mem _)
    · obtain ⟨rest', hrest, rfl⟩ := Option.map_eq_some_iff.1 h
      rcases List.mem_cons.1 hj with rfl | hj
      · exact Or.inr List.mem_cons_self
      · exact (ih hrest hj).imp_right (List.mem_cons_of_mem _)

theorem Inv.setjmp {env : BitVec 64} (h : Inv lo hi t₀ ⟨st, f :: frames⟩) :
    Inv lo hi t₀ ⟨LongJump.setjmp env tid f.fp f.sp st, f :: frames⟩ := by
  refine ⟨h.apart, h.perm, h.out, h.fits, h.nested, h.allocas, fun j hj => ?_⟩
  have hmem : j = ⟨env, f.fp, f.sp, tid⟩ ∨ j ∈ st.jmpList := by
    change j ∈ (setJmp _ st.jmpList).getD _ at hj
    cases hset : setJmp ⟨env, f.fp, f.sp, tid⟩ st.jmpList with
    | none =>
      rw [hset] at hj
      exact List.mem_cons.1 hj
    | some jmpList' =>
      rw [hset] at hj
      exact mem_setJmp hset hj
  rcases hmem with rfl | hj
  · exact ⟨(h.fits f List.mem_cons_self).sp_lt, f, List.mem_cons_self, rfl⟩
  · exact h.jmps j hj

theorem Inv.step {op : Op} (h : Inv lo hi t₀ c) (hvalid : op.Valid lo hi c.frames)
    (hok : op.Ok c) : Inv lo hi t₀ (c.run tid op) := by
  obtain ⟨st, frames⟩ := c
  cases op with
  | call f => exact h.call hvalid hok
  | ret =>
    cases frames with
    | nil => exact h
    | cons f frames => exact h.ret hok
  | newRegion p size =>
    cases frames with
    | nil => exact h
    | cons f frames => exact h.newRegion hvalid hok
  | release sp =>
    cases frames with
    | nil => exact h
    | cons f frames =>
      obtain ⟨hle, hlt, hlocals⟩ := hvalid f rfl
      exact h.moveSp ((h.fits f List.mem_cons_self).lo_le.trans hle) hlt hlocals
  | setjmp env =>
    cases frames with
    | nil => exact h
    | cons f frames => exact h.setjmp

theorem Reachable.inv (h : Reachable tid lo hi t₀ c) : Inv lo hi t₀ c := by
  induction h with
  | start h hout =>
    refine ⟨h, ?_, hout, ?_, .nil, ?_, ?_⟩
    · rw [Config.regions]
      simp
    all_goals exact fun _ hmem => absurd hmem List.not_mem_nil
  | step _ op hvalid hok ih => exact ih.step hvalid hok

end Runs

/-! ## Jumps -/

/-- The functions that a jump leaves, and those that stay active. -/
def Config.leaves (c : Config) (jl : JmpNode) : List Frame :=
  c.frames.takeWhile fun f => f.fp ≠ jl.fp

def Config.stays (c : Config) (jl : JmpNode) : List Frame :=
  c.frames.dropWhile fun f => f.fp ≠ jl.fp

/-- The region is one of a function that a jump leaves. -/
def Config.Abandoned (c : Config) (jl : JmpNode) (r : Region) : Prop :=
  ∃ f ∈ c.leaves jl, r ∈ c.regionsOf f

instance (c : Config) (jl : JmpNode) (r : Region) : Decidable (c.Abandoned jl r) :=
  inferInstanceAs (Decidable (∃ f ∈ _, _))

section Jumps

variable {tid env startFp endFp : BitVec 64} {lo hi : Nat} {t t₀ t' : Tree} {c : Config}
  {f g : Frame} {jl : JmpNode} {r : Region}

theorem Config.region_mem {a : AllocaNode} (ha : a ∈ c.lists.allocaList) (hfp : a.fp = f.fp) :
    a.region ∈ c.regionsOf f :=
  List.mem_append_right _ (List.mem_map_of_mem (List.mem_filter.2 ⟨ha, decide_eq_true hfp⟩))

theorem Inv.mem_tree (h : Inv lo hi t₀ c) :
    r ∈ c.lists.tree.inorder ↔ r ∈ t₀.inorder ∨ ∃ f ∈ c.frames, r ∈ c.regionsOf f := by
  rw [h.perm.mem_iff, Config.regions, List.mem_append, List.mem_append, List.mem_flatMap]
  refine or_congr_right ⟨?_, ?_⟩
  · rintro (⟨f, hf, hr⟩ | hr)
    · exact ⟨f, hf, List.mem_append_left _ hr⟩
    · obtain ⟨a, ha, rfl⟩ := List.mem_map.1 hr
      obtain ⟨f, hf, hfp, -⟩ := h.allocas a ha
      exact ⟨f, hf, Config.region_mem ha hfp.symm⟩
  · rintro ⟨f, hf, hr⟩
    rcases List.mem_append.1 hr with hr | hr
    · exact Or.inl ⟨f, hf, hr⟩
    · obtain ⟨a, ha, rfl⟩ := List.mem_map.1 hr
      exact Or.inr (List.mem_map_of_mem (List.mem_filter.1 ha).1)

theorem Config.leaves_append_stays (c : Config) (jl : JmpNode) :
    c.leaves jl ++ c.stays jl = c.frames := List.takeWhile_append_dropWhile

/-- What a function has starts on the stack, below the frame pointer. -/
theorem Inv.start_bounds (h : Inv lo hi t₀ c) (hf : f ∈ c.frames) (hr : r ∈ c.regionsOf f) :
    lo ≤ r.start.toNat ∧ r.start.toNat < f.fp.toNat := by
  rcases List.mem_append.1 hr with hr | hr
  · obtain ⟨hge, hlt, -⟩ := (h.fits f hf).locals r hr
    exact ⟨(h.fits f hf).lo_le.trans hge, hlt⟩
  · obtain ⟨a, ha, rfl⟩ := List.mem_map.1 hr
    obtain ⟨ha, heq⟩ := List.mem_filter.1 ha
    obtain ⟨g, -, hfp, hle, hlt⟩ := h.allocas a ha
    rw [← of_decide_eq_true heq, ← hfp]
    exact ⟨hle, hlt⟩

/-- A function that is left lies below those that stay. -/
theorem Inv.leaves_le (h : Inv lo hi t₀ c) (hf : f ∈ c.leaves jl) (hg : g ∈ c.stays jl) :
    f.fp.toNat ≤ g.sp.toNat := by
  have hnested := h.nested
  rw [← c.leaves_append_stays jl, List.pairwise_append] at hnested
  exact hnested.2.2 f hf g hg

/-- A region of a function that stays is none of a function that is left. -/
theorem Inv.not_abandoned (h : Inv lo hi t₀ c) (hg : g ∈ c.stays jl) (hr : r ∈ c.regionsOf g) :
    ¬c.Abandoned jl r := by
  rintro ⟨f, hf, hr'⟩
  have hle := h.leaves_le hf hg
  have hgmem : g ∈ c.frames := c.leaves_append_stays jl ▸ List.mem_append_right _ hg
  have hfmem : f ∈ c.frames := c.leaves_append_stays jl ▸ List.mem_append_left _ hf
  have hlt := (h.start_bounds hfmem hr').2
  have hnodup : (c.regions t₀).Nodup := h.perm.nodup_iff.1 (h.apart.starts.imp fun hlt heq => by
    rw [heq] at hlt
    exact Nat.lt_irrefl _ hlt)
  obtain ⟨-, hown, -⟩ := List.nodup_append.1 hnodup
  obtain ⟨-, hallocas, hdisj⟩ := List.nodup_append.1 hown
  rcases List.mem_append.1 hr with hr | hr
  · rcases List.mem_append.1 hr' with hr' | hr'
    · have hge := ((h.fits g hgmem).locals r hr).1
      omega
    · obtain ⟨a, ha, rfl⟩ := List.mem_map.1 hr'
      exact hdisj _ (List.mem_flatMap.2 ⟨g, hgmem, hr⟩) _
        (List.mem_map_of_mem (List.mem_filter.1 ha).1) rfl
  · obtain ⟨a, ha, rfl⟩ := List.mem_map.1 hr
    obtain ⟨ha, hafp⟩ := List.mem_filter.1 ha
    rcases List.mem_append.1 hr' with hr' | hr'
    · exact hdisj _ (List.mem_flatMap.2 ⟨f, hfmem, hr'⟩) _ (List.mem_map_of_mem ha) rfl
    · obtain ⟨a', ha', heq⟩ := List.mem_map.1 hr'
      obtain ⟨ha', hafp'⟩ := List.mem_filter.1 ha'
      obtain rfl := List.inj_on_of_nodup_map hallocas ha' ha heq
      have hfp : f.fp = g.fp :=
        (of_decide_eq_true hafp').symm.trans (of_decide_eq_true hafp)
      have hsp := (h.fits g hgmem).sp_lt
      rw [hfp] at hle
      omega

/-- The rest of the loop does not matter once it is done. -/
theorem cleanUp_add {n : Nat} {allocaList : List AllocaNode} {result : Tree × List AllocaNode}
    (h : cleanUp startFp endFp n t allocaList = some result) (k : Nat) :
    cleanUp startFp endFp (n + k) t allocaList = some result := by
  induction n generalizing t allocaList with
  | zero => cases h
  | succ n ih =>
    rw [Nat.add_right_comm, cleanUp]
    rw [cleanUp] at h
    cases hfind : findStart startFp endFp t with
    | none =>
      rw [hfind] at h
      exact h
    | some x =>
      rw [hfind] at h
      exact ih h

theorem inorder_cleanUp (h : Apart t.inorder) {n : Nat} {allocaList : List AllocaNode}
    {result : Tree × List AllocaNode}
    (hrun : cleanUp startFp endFp n t allocaList = some result) :
    result.1.inorder = t.inorder.filter fun r => ¬InWindow startFp endFp r := by
  obtain ⟨m, t', allocaList', hrun', hresult⟩ : ∃ m t' allocaList',
      cleanUp startFp endFp m t allocaList = some (t', allocaList') ∧
        t'.inorder = t.inorder.filter fun r => ¬InWindow startFp endFp r :=
    cleanUp_spec h allocaList
  have hm := cleanUp_add hrun' n
  rw [Nat.add_comm, cleanUp_add hrun m] at hm
  rw [Option.some.inj hm]
  exact hresult

/-- What a jump leaves of the tree. -/
theorem longJump_spec (h : Apart c.lists.tree.inorder)
    (hjl : c.lists.jmpList.find? (·.isFor env tid) = some jl) :
    (∃ n st', longJump env tid startFp n c.lists = some st') ∧
      ∀ n st', longJump env tid startFp n c.lists = some st' →
        st'.tree.inorder = c.lists.tree.inorder.filter fun r => ¬InWindow startFp jl.endFp r := by
  unfold longJump
  rw [hjl]
  dsimp only
  constructor
  · obtain ⟨n, t', allocaList', hrun, -⟩ : ∃ n t' allocaList',
        cleanUp startFp jl.endFp n c.lists.tree c.lists.allocaList = some (t', allocaList') ∧
          t'.inorder = c.lists.tree.inorder.filter fun r => ¬InWindow startFp jl.endFp r :=
      cleanUp_spec h c.lists.allocaList
    exact ⟨n, _, Option.map_eq_some_iff.2 ⟨_, hrun, rfl⟩⟩
  · intro n st' hrun
    obtain ⟨result, hclean, rfl⟩ := Option.map_eq_some_iff.1 hrun
    exact inorder_cleanUp h hclean

/-- What starts in the window is what a jump leaves, if nothing that stays starts there and nothing
that is left starts below it. -/
theorem Inv.window_iff (h : Inv lo hi t₀ c) (hjl : jl ∈ c.lists.jmpList)
    (hlo : lo ≤ startFp.toNat) (hstart : ∀ f ∈ c.frames, startFp.toNat ≤ f.sp.toNat)
    (hsp : ∀ f ∈ c.frames, f.fp = jl.fp → f.sp.toNat ≤ jl.endFp.toNat) :
    (∀ r ∈ c.lists.tree.inorder, InWindow startFp jl.endFp r ↔ c.Abandoned jl r) ↔
      (∀ f ∈ c.stays jl, ∀ r ∈ c.regionsOf f, ¬InWindow startFp jl.endFp r) ∧
        ∀ f ∈ c.leaves jl, ∀ a ∈ c.lists.allocaList, a.fp = f.fp → startFp.toNat ≤ a.p.toNat := by
  have hmem : ∀ f, f ∈ c.frames ↔ f ∈ c.leaves jl ∨ f ∈ c.stays jl := fun f => by
    rw [← c.leaves_append_stays jl, List.mem_append]
  obtain ⟨hend, F, hF, hFfp⟩ := h.jmps jl hjl
  constructor
  · intro hall
    refine ⟨fun f hf r hr hin => ?_, fun f hf a ha hfp => ?_⟩
    · have hr' := h.mem_tree.2 (Or.inr ⟨f, (hmem f).2 (Or.inr hf), hr⟩)
      exact h.not_abandoned hf hr ((hall r hr').1 hin)
    · have hr := Config.region_mem ha hfp
      have hr' := h.mem_tree.2 (Or.inr ⟨f, (hmem f).2 (Or.inl hf), hr⟩)
      exact ((hall _ hr').2 ⟨f, hf, hr⟩).1
  · rintro ⟨hstays, hleaves⟩ r hr
    rcases h.mem_tree.1 hr with hr | ⟨f, hf, hr⟩
    · -- what was there does not lie on the stack
      have hhi := (h.fits F hF).le_hi
      have hnot : ¬InWindow startFp jl.endFp r := fun hin => by
        rcases h.out r hr with hlow | hhigh
        · exact absurd hin.1 (by omega)
        · have hle := hin.2
          rw [← hFfp] at hend
          omega
      refine iff_of_false hnot ?_
      rintro ⟨f, hf, hr'⟩
      have hf' := (hmem f).2 (Or.inl hf)
      obtain ⟨hge, hlt⟩ := h.start_bounds hf' hr'
      have hfhi := (h.fits f hf').le_hi
      rcases h.out r hr with hlow | hhigh
      · omega
      · omega
    · rcases (hmem f).1 hf with hleft | hstay
      · have hge : startFp.toNat ≤ r.start.toNat := by
          rcases List.mem_append.1 hr with hr | hr
          · exact (hstart f hf).trans ((h.fits f hf).locals r hr).1
          · obtain ⟨a, ha, rfl⟩ := List.mem_map.1 hr
            obtain ⟨ha, hfp⟩ := List.mem_filter.1 ha
            exact hleaves f hleft a ha (of_decide_eq_true hfp)
        refine iff_of_true ⟨hge, ?_⟩ ⟨f, hleft, hr⟩
        have hFstays : F ∈ c.stays jl := by
          rcases (hmem F).1 hF with hF | hF
          · have hne := List.mem_takeWhile_imp hF
            exact absurd hFfp (of_decide_eq_true hne)
          · exact hF
        have hlt := (h.start_bounds hf hr).2
        have hle := h.leaves_le hleft hFstays
        have hFsp := hsp F hF hFfp
        omega
      · exact iff_of_false (hstays f hstay r hr) (h.not_abandoned hstay hr)

/-- A jump ends. Where new objects lie where no region is left and deletions come to their regions,
it removes the regions of the functions that it leaves, and no other, if and only if no function
that stays has a region that starts between the two addresses, and none that is left has an object
of variable size below them. -/
theorem longJump_right_iff (h : Reachable tid lo hi t₀ c)
    (hjl : c.lists.jmpList.find? (·.isFor env tid) = some jl)
    (hlo : lo ≤ startFp.toNat) (hstart : ∀ f ∈ c.frames, startFp.toNat ≤ f.sp.toNat)
    (hsp : ∀ f ∈ c.frames, f.fp = jl.fp → f.sp.toNat ≤ jl.endFp.toNat) :
    (∃ n st', longJump env tid startFp n c.lists = some st') ∧
    ((∃ n st', longJump env tid startFp n c.lists = some st' ∧
        st'.tree.inorder = c.lists.tree.inorder.filter fun r => ¬c.Abandoned jl r) ↔
      (∀ f ∈ c.stays jl, ∀ r ∈ c.regionsOf f, ¬InWindow startFp jl.endFp r) ∧
        ∀ f ∈ c.leaves jl, ∀ a ∈ c.lists.allocaList, a.fp = f.fp →
          startFp.toNat ≤ a.p.toNat) := by
  have hinv := h.inv
  obtain ⟨⟨n, st', hrun⟩, hresult⟩ := @longJump_spec _ _ startFp _ _ hinv.apart hjl
  refine ⟨⟨n, st', hrun⟩, ?_⟩
  rw [← hinv.window_iff (List.mem_of_find?_eq_some hjl) hlo hstart hsp]
  constructor
  · rintro ⟨n, st', hrun, hsame⟩ r hr
    have heq := (hresult n st' hrun).symm.trans hsame
    have hiff : r ∈ c.lists.tree.inorder.filter (fun r => ¬InWindow startFp jl.endFp r) ↔
        r ∈ c.lists.tree.inorder.filter (fun r => ¬c.Abandoned jl r) := by rw [heq]
    simp only [List.mem_filter, hr, true_and, decide_eq_true_eq] at hiff
    exact not_iff_not.1 hiff
  · intro hall
    refine ⟨n, st', hrun, (hresult n st' hrun).trans (List.filter_congr fun r hr => ?_)⟩
    exact decide_eq_decide.2 (not_congr (hall r hr))

end Jumps

/-! ## Two jumps -/

/-- A global object. -/
def globals : Tree := .node .nil ⟨0x100, 8, tccTypeNone, 0⟩ .nil

/-- A function with an object of 16 bytes. -/
def outerFrame : Frame := ⟨0x3000, 0x2f00, [(-0x40, 16)]⟩

/-- A function with an empty object. -/
def innerFrame (fp sp : BitVec 64) : Frame := ⟨fp, sp, [(-0x40, 0)]⟩

def start : Config := ⟨⟨globals, [], []⟩, []⟩

/-- The inner function has an object of variable size. -/
def innerOps : List Op :=
  [.call outerFrame, .setjmp 1, .call (innerFrame 0x2f00 0x2e00), .newRegion 0x2d00 16]

/-- The outer function has an object of variable size when it calls `setjmp`. -/
def outerOps : List Op :=
  [.call outerFrame, .newRegion 0x2e00 16, .setjmp 1, .call (innerFrame 0x2e00 0x2d00)]

def after (ops : List Op) : Config := ops.foldl (Config.run 0) start

theorem reachable_outer : Reachable 0 0x1000 0x4000 globals (after [.call outerFrame]) :=
  (Reachable.start ⟨⟨by decide, by decide⟩, by decide⟩ (by decide)).step (.call outerFrame)
    ⟨by decide, by decide, by decide, by decide, by decide⟩
    (show ∀ r ∈ _, ∀ b ∈ _, Clear r b by decide)

theorem reachable_innerOps : Reachable 0 0x1000 0x4000 globals (after innerOps) := by
  have h₂ := reachable_outer.step (.setjmp 1) trivial trivial
  have h₃ := h₂.step (.call (innerFrame 0x2f00 0x2e00))
    ⟨by decide, by decide, by decide, by decide, by decide⟩
    (show ∀ r ∈ _, ∀ b ∈ _, Clear r b by decide)
  refine h₃.step (.newRegion 0x2d00 16) ?_ ?_
  · rintro f ⟨rfl⟩
    decide
  · rintro f ⟨rfl⟩
    show ∀ b ∈ _, Clear _ b
    decide

theorem reachable_outerOps : Reachable 0 0x1000 0x4000 globals (after outerOps) := by
  have h₂ := reachable_outer.step (.newRegion 0x2e00 16)
    (by
      rintro f ⟨rfl⟩
      decide)
    (by
      rintro f ⟨rfl⟩
      show ∀ b ∈ _, Clear _ b
      decide)
  have h₃ := h₂.step (.setjmp 1) trivial trivial
  exact h₃.step (.call (innerFrame 0x2e00 0x2d00))
    ⟨by decide, by decide, by decide, by decide, by decide⟩
    (show ∀ r ∈ _, ∀ b ∈ _, Clear r b by decide)

theorem longJump_right_iff_inner :
    ∃ n st', longJump 1 0 0x2cf0 n (after innerOps).lists = some st' ∧
      st'.tree.inorder = (after innerOps).lists.tree.inorder.filter fun r =>
        ¬(after innerOps).Abandoned ⟨1, 0x3000, 0x2f00, 0⟩ r :=
  (longJump_right_iff reachable_innerOps (by decide) (by decide) (by decide) (by decide)).2.2
    ⟨by decide, by decide⟩

/-- The object of the outer function starts where its stack pointer is when it calls `setjmp`, and
is removed. -/
theorem longJump_outer_not_right :
    Reachable 0 0x1000 0x4000 globals (after outerOps) ∧
    ¬∃ n st', longJump 1 0 0x2cf0 n (after outerOps).lists = some st' ∧
      st'.tree.inorder = (after outerOps).lists.tree.inorder.filter fun r =>
        ¬(after outerOps).Abandoned ⟨1, 0x3000, 0x2e00, 0⟩ r := by
  refine ⟨reachable_outerOps, ?_⟩
  rintro ⟨n, st', hrun, hsame⟩
  have hfind : (after outerOps).lists.jmpList.find? (·.isFor 1 0) =
      some ⟨1, 0x3000, 0x2e00, 0⟩ := by decide
  have hresult := (longJump_spec reachable_outerOps.inv.apart hfind).2 n st' hrun
  exact absurd (hresult.symm.trans hsame) (by decide)

end TccRiscv64.Bcheck.LongJump
