import TccRiscv64.Elf.GnuLookup

set_option autoImplicit false

/-! # What the dynamic loader finds

A lookup by name comes to the defined symbol that has the name, and to nothing else. -/

namespace TccRiscv64.Elf

open Data

/-- Different symbols that are not local have different names. -/
def DistinctNames (t : SymTab) : Prop :=
  ∀ i j, t.isHashed i = true → t.isHashed j = true → t.nameOf i = t.nameOf j → i = j

/-! ## The walk along a chain -/

section Walk

variable {gnu : GnuHash} {t : SymTab} {name : List UInt8}

theorem gnuWalk_sound {fuel k k' : Nat} (h : gnuWalk gnu t name fuel k = some k') :
    k ≤ k' ∧ t.isHashed k' = true ∧ t.nameOf k' = name := by
  induction fuel generalizing k with
  | zero => cases h
  | succ fuel ih =>
      rw [gnuWalk] at h
      split at h
      · rename_i hthis
        obtain rfl := Option.some.inj h
        exact ⟨Nat.le_refl _, hthis.2.1, hthis.2.2⟩
      · split at h
        · cases h
        · obtain ⟨hle, hrest⟩ := ih h
          exact ⟨by omega, hrest⟩

/-- If no mark is in the way, the walk comes to the only symbol that has the name. -/
theorem gnuWalk_complete {fuel k d : Nat} (hfuel : d < fuel)
    (hway : ∀ d' < d, gnu.chain.getD (k + d' - gnu.symoffset) 1 &&& 1 = 0)
    (hword : (gnu.chain.getD (k + d - gnu.symoffset) 1 ^^^ elfGnuHash name) >>> 1 = 0)
    (hhashed : t.isHashed (k + d) = true) (hname : t.nameOf (k + d) = name)
    (hdistinct : DistinctNames t) : gnuWalk gnu t name fuel k = some (k + d) := by
  induction d generalizing k fuel with
  | zero =>
      obtain ⟨fuel, rfl⟩ := Nat.exists_eq_succ_of_ne_zero (Nat.ne_zero_of_lt hfuel)
      rw [gnuWalk, if_pos ⟨hword, hhashed, hname⟩]
      rfl
  | succ d ih =>
      obtain ⟨fuel, rfl⟩ := Nat.exists_eq_succ_of_ne_zero (Nat.ne_zero_of_lt hfuel)
      have hnot : ¬ ((gnu.chain.getD (k - gnu.symoffset) 1 ^^^ elfGnuHash name) >>> 1 = 0 ∧
          t.isHashed k = true ∧ t.nameOf k = name) := by
        rintro ⟨-, hk, hk'⟩
        have := hdistinct k (k + (d + 1)) hk hhashed (hk'.trans hname.symm)
        omega
      have hstep : k + (d + 1) = k + 1 + d := by omega
      have hmark : ¬ (gnu.chain.getD (k - gnu.symoffset) 1 &&& 1 ≠ 0) :=
        not_not.mpr (hway 0 (Nat.succ_pos d))
      rw [gnuWalk, if_neg hnot, if_neg hmark, hstep]
      rw [hstep] at hword hhashed hname
      refine ih (Nat.lt_of_succ_lt_succ hfuel) (fun d' hd' => ?_) hword hhashed hname
      have := hway (d' + 1) (Nat.succ_lt_succ hd')
      rwa [show k + (d' + 1) = k + 1 + d' by omega] at this

end Walk

/-! ## Lookups -/

section Lookup

variable {t t' : SymTab}

/-- The symbols of the table are those that `update_gnu_hash` copies. -/
structure IsFilled (t t' : SymTab) : Prop where
  syms : t'.syms = (fillGnuHash t (createGnuHash t.syms)).copied.new
  strtab : t'.strtab = t.strtab

theorem nameOf_of_entry {i k : Nat} (hstr : t'.strtab = t.strtab)
    (h : t'.syms[k]? = t.syms[i]?) : t'.nameOf k = t.nameOf i := by
  unfold SymTab.nameOf
  rw [hstr, h]

theorem isHashed_of_entry {i k : Nat} (h : t'.syms[k]? = t.syms[i]?) :
    t'.isHashed k = t.isHashed i := by
  unfold SymTab.isHashed
  rw [h]

theorem isHashed_lt {k : Nat} (h : t.isHashed k = true) : k < t.syms.length := by
  by_contra hge
  unfold SymTab.isHashed at h
  rw [List.getElem?_eq_none (Nat.le_of_not_lt hge)] at h
  cases h

/-- Names are still distinct when the symbols are in another order. -/
theorem DistinctNames.filled (h : DistinctNames t) (hf : IsFilled t t') : DistinctNames t' := by
  have hreordered := fill_reordered t
  rw [← hf.syms] at hreordered
  intro k k' hk hk' hname
  obtain ⟨i, hi, hsym⟩ := hreordered.back (isHashed_lt hk)
  obtain ⟨i', hi', hsym'⟩ := hreordered.back (isHashed_lt hk')
  rw [nameOf_of_entry hf.strtab hsym, nameOf_of_entry hf.strtab hsym'] at hname
  rw [isHashed_of_entry hsym] at hk
  rw [isHashed_of_entry hsym'] at hk'
  obtain rfl := h i i' hk hk' hname
  exact Option.some.inj (hi.symm.trans hi')

theorem gnuHashes_eq {i : Nat} (hi : i < t.syms.length) (hdef : t.isDefined i = true) :
    (gnuHashes t).getD i 0 = elfGnuHash (t.nameOf i) := by
  have hget := List.getElem?_eq_getElem hi
  unfold gnuHashes SymTab.nameOf
  rw [List.getD_eq_getElem?_getD, List.getElem?_map, hget, Option.map_some,
    if_pos ((isDefined_eq hget).symm.trans hdef)]
  rfl

theorem bloomSize_mod (t : SymTab) (n : Nat) :
    n &&& ((createGnuHash t.syms).bloomSize - 1) = n % (createGnuHash t.syms).bloomSize := by
  obtain ⟨e, he⟩ := bloomSizeFrom_pow (t.syms.countP Sym.isDefined) 0
  rw [show (createGnuHash t.syms).bloomSize = 2 ^ e from he, Nat.and_two_pow_sub_one_eq_mod]

/-- The symbol with number 0 is not defined, so no bucket begins there. -/
theorem symoffset_pos (hne : t.syms ≠ []) (hnull : t.isDefined 0 = false) :
    0 < (createGnuHash t.syms).symoffset := by
  rw [← undefs_length, undefsOf_new, List.length_pos_iff_exists_mem]
  obtain ⟨sym, syms, hsyms⟩ := List.exists_cons_of_ne_nil hne
  have hget : t.syms[0]? = some sym := by
    rw [hsyms]
    rfl
  refine ⟨sym, List.mem_filter.mpr ⟨List.mem_of_getElem? hget, ?_⟩⟩
  rw [← isDefined_eq hget, hnull]
  rfl

/-- A defined symbol that is not local is found by its name. -/
theorem gnuLookup_complete (hf : IsFilled t t') (hnames : DistinctNames t)
    (hnull : t.isDefined 0 = false) {k : Nat} (hdef : t'.isDefined k = true)
    (hhashed : t'.isHashed k = true) :
    gnuLookup (fillGnuHash t (createGnuHash t.syms)).gnu t' (t'.nameOf k) = some k := by
  have hinv := fill_inv t
  obtain ⟨sym, hget⟩ : ∃ sym, t'.syms[k]? = some sym :=
    ⟨_, List.getElem?_eq_getElem (isHashed_lt hhashed)⟩
  have hget' := hget
  rw [hf.syms] at hget'
  obtain ⟨b, hb, j, i, hi, hk⟩ := fill_defined hget' ((isDefined_eq hget).symm.trans hdef)
  have hmem := List.mem_of_getElem? hi
  obtain ⟨hilt, hidef, hib⟩ := mem_bucket.mp hmem
  have hsym : t'.syms[k]? = t.syms[i]? := by
    rw [hf.syms, hk]
    exact fill_symbol hb hi
  have hname := nameOf_of_entry hf.strtab hsym
  have hhash := gnuHashes_eq hilt hidef
  have hpos := symoffset_pos (List.ne_nil_of_length_pos (Nat.zero_lt_of_lt hilt)) hnull
  have hbloom := hinv.bloom i ((mem_bucketsTo (Nat.succ_pos _)).mpr ⟨hilt, hidef⟩)
  have hfilled := hinv.filled b hb (List.ne_nil_of_mem hmem)
  have hchain := fun j i hi => fill_chain (t := t) (j := j) (i := i) hb hi
  have hfuel : j < t'.syms.length := by
    have := isHashed_lt hhashed
    omega
  have hbucket : (elfGnuHash (t.nameOf i)).toNat % (createGnuHash t.syms).nbuckets = b := by
    rw [← hhash]
    exact hib
  rw [hhash] at hbloom
  have hsize : (fillGnuHash t (createGnuHash t.syms)).gnu.bloomSize =
      (createGnuHash t.syms).bloomSize := by rw [hinv.same]
  have hnb : (fillGnuHash t (createGnuHash t.syms)).gnu.nbuckets =
      (createGnuHash t.syms).nbuckets := by rw [hinv.same]
  have hoff : (fillGnuHash t (createGnuHash t.syms)).gnu.symoffset =
      (createGnuHash t.syms).symoffset := by rw [hinv.same]
  have hword := bothBits_ne_zero hbloom.low hbloom.high
  rw [hsize, ← bloomSize_mod, ← hsize] at hword
  rw [undefs_length] at hfilled
  generalize (fillGnuHash t (createGnuHash t.syms)).gnu = gnu at *
  rw [hname]
  unfold gnuLookup
  rw [if_neg hword, hnb, hbucket, hfilled]
  generalize hhead : (createGnuHash t.syms).symoffset +
    (bucketsTo t (createGnuHash t.syms).nbuckets b).length = head at *
  have hplace : ∀ d, head + d - gnu.symoffset =
      (bucketsTo t (createGnuHash t.syms).nbuckets b).length + d := fun d => by
    rw [hoff, ← hhead]
    omega
  show (if head = 0 then none else _) = _
  rw [if_neg (by omega), hk]
  rw [hk] at hhashed hname
  refine gnuWalk_complete hfuel (fun d hd => ?_) ?_ hhashed hname (hnames.filled hf)
  · -- The symbols before it are not the last of the bucket.
    obtain ⟨i', hi'⟩ : ∃ i', (bucket t (createGnuHash t.syms).nbuckets b)[d]? = some i' :=
      ⟨_, List.getElem?_eq_getElem (hd.trans (List.getElem?_eq_some_iff.mp hi).1)⟩
    rw [hplace, hchain d i' hi', if_neg (by
      have := (List.getElem?_eq_some_iff.mp hi).1
      omega)]
    exact hashWord_unmarked _
  · rw [hplace, hchain j i hi, ← hhash]
    split
    · exact markedWord_matches _
    · exact hashWord_matches _

/-- What is found is defined and not local, and has the name. -/
theorem gnuLookup_sound (hf : IsFilled t t') {name : List UInt8} {k : Nat}
    (h : gnuLookup (fillGnuHash t (createGnuHash t.syms)).gnu t' name = some k) :
    t'.isDefined k = true ∧ t'.isHashed k = true ∧ t'.nameOf k = name := by
  have hinv := fill_inv t
  have hnb : (fillGnuHash t (createGnuHash t.syms)).gnu.nbuckets =
      (createGnuHash t.syms).nbuckets := by rw [hinv.same]
  have hlt : (elfGnuHash name).toNat % (createGnuHash t.syms).nbuckets <
      (createGnuHash t.syms).nbuckets := Nat.mod_lt _ (Nat.succ_pos _)
  unfold gnuLookup at h
  rw [hnb] at h
  simp only at h
  split at h
  · cases h
  · split at h
    · cases h
    · rename_i hne
      obtain ⟨hle, hhashed, hname⟩ := gnuWalk_sound h
      refine ⟨?_, hhashed, hname⟩
      have hbucket : bucket t (createGnuHash t.syms).nbuckets
          ((elfGnuHash name).toNat % (createGnuHash t.syms).nbuckets) ≠ [] :=
        fun hnil => hne (hinv.empty _ (.inr hnil))
      rw [hinv.filled _ hlt hbucket, undefs_length] at hle
      obtain ⟨sym, hget⟩ : ∃ sym, t'.syms[k]? = some sym :=
        ⟨_, List.getElem?_eq_getElem (isHashed_lt hhashed)⟩
      rw [isDefined_eq hget]
      rw [hf.syms] at hget
      exact fill_behind hget (by omega)

end Lookup

/-! ## `update_gnu_hash` and `sort_syms` -/

/-- What a table of dynamic symbols is after `update_gnu_hash`. -/
structure GnuSorted (symtab : Nat) (st st' : DynState) (oldToNew : List Nat) : Prop where
  reordered : Reordered st.dynsym.syms st'.dynsym.syms oldToNew
  strtab : st'.dynsym.strtab = st.dynsym.strtab
  versym : ∀ versym, st.versym = some versym → ∃ versym', st'.versym = some versym' ∧
    ∀ (i k : Nat) (version : BitVec 16), versym[i]? = some version → oldToNew[i]? = some k →
      versym'[k]? = some version
  relocs : RelocsFollow symtab st.dynsym.syms st'.dynsym.syms oldToNew st.secs st'.secs
  found : ∀ k, st'.dynsym.isDefined k = true → st'.dynsym.isHashed k = true →
    gnuLookup st'.gnu st'.dynsym (st'.dynsym.nameOf k) = some k
  sound : ∀ name k, gnuLookup st'.gnu st'.dynsym name = some k →
    st'.dynsym.isDefined k = true ∧ st'.dynsym.isHashed k = true ∧ st'.dynsym.nameOf k = name
  undefs : ∀ k, st'.dynsym.isDefined k = false → st'.dynsym.isHashed k = true →
    gnuLookup st'.gnu st'.dynsym (st'.dynsym.nameOf k) = none
  sizeIncorrect : st'.sizeIncorrect = st.sizeIncorrect

/-- What a symbol table is after `sort_syms`. -/
structure LocalsFirst (symtab : Nat) (syms : List Sym) (secs : List RelocSection)
    (sorted : List Sym × Nat × List RelocSection) (oldToNew : List Nat) : Prop where
  reordered : Reordered syms sorted.1 oldToNew
  relocs : RelocsFollow symtab syms sorted.1 oldToNew secs sorted.2.2
  locals : ∀ (k : Nat) (sym : Sym), sorted.1[k]? = some sym →
    (sym.isLocal = true ↔ k < sorted.2.1)

theorem sortSyms_localsFirst (symtab : Nat) (syms : List Sym) (secs : List RelocSection) :
    LocalsFirst symtab syms secs (sortSyms symtab syms secs) (sortPasses syms).oldToNew := by
  have hreordered := sortPasses_reordered syms
  refine ⟨hreordered, modifyRelocations_follow symtab hreordered secs, fun k sym hk => ?_⟩
  have hnew : (sortSyms symtab syms secs).1 =
      syms.filter Sym.isLocal ++ syms.filter fun sym => !sym.isLocal := sortPasses_new syms
  have hcount : (sortSyms symtab syms secs).2.1 = (syms.filter Sym.isLocal).length := by
    show (Copied.pass _ Sym.isLocal syms).new.length = _
    rw [Copied.pass_new]
    rfl
  rw [hnew] at hk
  rw [hcount]
  by_cases hlt : k < (syms.filter Sym.isLocal).length
  · rw [List.getElem?_append_left hlt] at hk
    have := (List.mem_filter.mp (List.mem_of_getElem? hk)).2
    exact iff_of_true this hlt
  · rw [List.getElem?_append_right (Nat.le_of_not_lt hlt)] at hk
    have := (List.mem_filter.mp (List.mem_of_getElem? hk)).2
    exact iff_of_false (by simpa using this) hlt

theorem updateGnuHash_sorted (symtab : Nat) (st : DynState)
    (hgnu : st.gnu = createGnuHash st.dynsym.syms) (hnull : st.dynsym.isDefined 0 = false)
    (hnames : DistinctNames st.dynsym)
    (hversym : ∀ versym, st.versym = some versym → versym.length = st.dynsym.syms.length) :
    GnuSorted symtab st (updateGnuHash symtab st)
      (fillGnuHash st.dynsym st.gnu).copied.oldToNew := by
  have hfilled : IsFilled st.dynsym (updateGnuHash symtab st).dynsym := by
    refine ⟨?_, rfl⟩
    rw [← hgnu]
    rfl
  have hgnu' : (updateGnuHash symtab st).gnu =
      (fillGnuHash st.dynsym (createGnuHash st.dynsym.syms)).gnu := by
    rw [← hgnu]
    rfl
  have hreordered := fill_reordered st.dynsym
  rw [← hgnu] at hreordered
  have hsound : ∀ name k, gnuLookup (updateGnuHash symtab st).gnu (updateGnuHash symtab st).dynsym
      name = some k → (updateGnuHash symtab st).dynsym.isDefined k = true ∧
        (updateGnuHash symtab st).dynsym.isHashed k = true ∧
        (updateGnuHash symtab st).dynsym.nameOf k = name := by
    rw [hgnu']
    exact fun name k => gnuLookup_sound hfilled
  refine ⟨hreordered, rfl, fun versym hv => ?_, modifyRelocations_follow symtab hreordered st.secs,
    fun k hdef hhashed => ?_, hsound, fun k hundef hhashed => ?_, ?_⟩
  · refine ⟨permute (fillGnuHash st.dynsym st.gnu).copied.oldToNew versym, ?_,
      fun i k version hi hk => getElem?_permute ?_ hi hk⟩
    · show st.versym.map _ = _
      rw [hv]
      rfl
    · rw [hversym versym hv]
      exact hreordered.numbers
  · rw [hgnu']
    exact gnuLookup_complete hfilled hnames hnull hdef hhashed
  · -- Another symbol would have the same name.
    refine Option.eq_none_iff_forall_ne_some.mpr fun k' hk' => ?_
    obtain ⟨hdef, hhashed', hname⟩ := hsound _ _ hk'
    obtain rfl := hnames.filled hfilled k' k hhashed' hhashed hname
    rw [hundef] at hdef
    cases hdef
  · have hsize : st.gnu.chainSize =
        st.dynsym.syms.length - (st.dynsym.syms.countP fun sym => !sym.isDefined) := by
      have hlen := undefs_length st.dynsym
      have hle : st.dynsym.syms.countP Sym.isDefined ≤ st.dynsym.syms.length :=
        List.countP_le_length
      rw [undefsOf_new, ← List.countP_eq_length_filter] at hlen
      change _ = st.dynsym.syms.length - st.dynsym.syms.countP Sym.isDefined at hlen
      rw [hgnu]
      show st.dynsym.syms.countP Sym.isDefined = _
      omega
    show (st.sizeIncorrect || decide (st.gnu.chainSize ≠ _)) = _
    rw [hsize]
    simp

/-- A table of dynamic symbols is reordered with all that refers to it, and the dynamic loader finds
its symbols by their names; a symbol table is sorted with all that refers to it. -/
theorem symbols_sorted (symtab : Nat) :
    (∀ st : DynState, st.gnu = createGnuHash st.dynsym.syms → st.dynsym.isDefined 0 = false →
      DistinctNames st.dynsym →
      (∀ versym, st.versym = some versym → versym.length = st.dynsym.syms.length) →
      ∃ oldToNew, GnuSorted symtab st (updateGnuHash symtab st) oldToNew) ∧
    ∀ syms secs, ∃ oldToNew, LocalsFirst symtab syms secs (sortSyms symtab syms secs) oldToNew :=
  ⟨fun st hgnu hnull hnames hversym =>
    ⟨_, updateGnuHash_sorted symtab st hgnu hnull hnames hversym⟩,
    fun syms secs => ⟨_, sortSyms_localsFirst symtab syms secs⟩⟩

/-- A table with `f` defined between two symbols that are not: the null symbol and `g`. -/
def dynsymFG : SymTab where
  syms := [⟨0, 0, 0, 0, 0, 0⟩, ⟨1, 0x1000, 8, 0x12, 0, 9⟩, ⟨3, 0, 0, 0x12, 0, 0⟩]
  strtab := [0, 0x66, 0, 0x67, 0]
  hash := none

theorem symbols_sorted_dynsymFG :
    DistinctNames dynsymFG ∧
    ∃ oldToNew, GnuSorted 3
      ⟨dynsymFG, createGnuHash dynsymFG.syms, some [0, 2, 3], [⟨true, 3, [⟨1, 2⟩]⟩], false⟩
      (updateGnuHash 3
        ⟨dynsymFG, createGnuHash dynsymFG.syms, some [0, 2, 3], [⟨true, 3, [⟨1, 2⟩]⟩], false⟩)
      oldToNew := by
  have hnames : DistinctNames dynsymFG := by
    intro i j hi hj hname
    have hi3 := isHashed_lt hi
    have hj3 := isHashed_lt hj
    change i < 3 at hi3
    change j < 3 at hj3
    interval_cases i <;> interval_cases j <;>
      first | rfl | exact absurd hi (by decide) | exact absurd hj (by decide) |
        exact absurd hname (by decide)
  exact ⟨hnames, (symbols_sorted 3).1 _ rfl (by decide) hnames fun versym h => by
    obtain rfl := Option.some.inj h
    rfl⟩

end TccRiscv64.Elf
