import TccRiscv64.Elf.GnuFill

set_option autoImplicit false

/-! # Lookups in the GNU hash table

The table that is filled in lists every defined symbol once, and the walk along the chain of a hash
value comes to the symbol that has the name. -/

namespace TccRiscv64.Elf

open Data

/-! ## Words -/

theorem getLsbD_hashWord (hash : BitVec 32) (i : Nat) :
    (hash &&& ~~~1).getLsbD (1 + i) = hash.getLsbD (1 + i) := by
  rw [BitVec.getLsbD_and, BitVec.getLsbD_not, show (1 : BitVec 32) = 1#32 from rfl,
    BitVec.getLsbD_one]
  by_cases hi : 1 + i < 32
  · simp [hi]
  · rw [BitVec.getLsbD_of_ge _ _ (Nat.le_of_not_lt hi), Bool.false_and]

/-- Words of a chain are compared without the mark. -/
theorem hashWord_matches (hash : BitVec 32) : ((hash &&& ~~~1) ^^^ hash) >>> 1 = 0 := by
  refine BitVec.eq_of_getLsbD_eq fun i _ => ?_
  rw [BitVec.getLsbD_ushiftRight, BitVec.getLsbD_xor, getLsbD_hashWord, Bool.xor_self]
  exact BitVec.getLsbD_zero.symm

theorem markedWord_matches (hash : BitVec 32) : (((hash &&& ~~~1) ||| 1) ^^^ hash) >>> 1 = 0 := by
  refine BitVec.eq_of_getLsbD_eq fun i _ => ?_
  rw [BitVec.getLsbD_ushiftRight, BitVec.getLsbD_xor, BitVec.getLsbD_or, getLsbD_hashWord,
    show (1 : BitVec 32) = 1#32 from rfl, BitVec.getLsbD_one]
  simp

theorem hashWord_unmarked (hash : BitVec 32) : (hash &&& ~~~1) &&& 1 = 0 := by
  rw [BitVec.and_assoc, show ~~~(1 : BitVec 32) &&& 1 = 0 by decide]
  exact BitVec.and_zero

theorem bothBits_ne_zero {word : BitVec 64} {i j : Nat} (hi : word.getLsbD i = true)
    (hj : word.getLsbD j = true) : ¬ ((word >>> i) &&& (word >>> j) &&& 1 = 0) := by
  intro hzero
  have := congrArg (BitVec.getLsbD · 0) hzero
  simp [hi, hj] at this

/-! ## The size of the bloom filter -/

theorem bloomSizeFrom_pow (ndef e : Nat) : ∃ e', bloomSizeFrom ndef (2 ^ e) = 2 ^ e' := by
  generalize hk : ndef - 2 ^ e = k
  induction k using Nat.strong_induction_on generalizing e with
  | _ k ih =>
      rw [bloomSizeFrom]
      split
      · rename_i h
        have hpos : 0 < 2 ^ e := Nat.two_pow_pos e
        rw [← Nat.pow_succ]
        exact ih _ (by rw [Nat.pow_succ]; omega) (e + 1) rfl
      · exact ⟨e, rfl⟩

/-! ## The symbols in their new order -/

section Lookup

variable {t : SymTab} {nbuckets : Nat}

theorem mem_bucket {b i : Nat} :
    i ∈ bucket t nbuckets b ↔
      i < t.syms.length ∧ t.isDefined i = true ∧ bucketOf t nbuckets i = b :=
  mem_bucketBelow

theorem mem_bucketsTo (hpos : 0 < nbuckets) {i : Nat} :
    i ∈ bucketsTo t nbuckets nbuckets ↔ i < t.syms.length ∧ t.isDefined i = true := by
  unfold bucketsTo
  rw [List.mem_flatMap]
  constructor
  · rintro ⟨b, -, hi⟩
    exact ⟨(mem_bucket.mp hi).1, (mem_bucket.mp hi).2.1⟩
  · rintro ⟨hi, hdef⟩
    exact ⟨_, List.mem_range.mpr (Nat.mod_lt _ hpos), mem_bucket.mpr ⟨hi, hdef, rfl⟩⟩

theorem bucketsTo_nodup (t : SymTab) (nbuckets m : Nat) : (bucketsTo t nbuckets m).Nodup := by
  unfold bucketsTo
  rw [List.nodup_flatMap]
  refine ⟨fun b _ => List.nodup_range.filter _, List.nodup_range.imp fun hne i hi hi' => hne ?_⟩
  rw [← (mem_bucket.mp hi).2.2, ← (mem_bucket.mp hi').2.2]

theorem entryOf_eq {i : Nat} {sym : Sym} (h : t.syms[i]? = some sym) : t.entryOf i = (sym, i) := by
  unfold SymTab.entryOf
  rw [List.getD_eq_getElem?_getD, h]
  rfl

theorem isDefined_eq {i : Nat} {sym : Sym} (h : t.syms[i]? = some sym) :
    t.isDefined i = sym.isDefined := by
  unfold SymTab.isDefined
  rw [h]
  rfl

/-- The buckets have the defined symbols, each of them once. -/
theorem bucketsTo_perm (t : SymTab) (hpos : 0 < nbuckets) :
    ((bucketsTo t nbuckets nbuckets).map t.entryOf).Perm
      (t.syms.zipIdx.filter fun e => e.1.isDefined) := by
  have hinj : Function.Injective t.entryOf := fun i j h => congrArg Prod.snd h
  have hnodup : t.syms.zipIdx.Nodup := by
    refine List.Nodup.of_map Prod.snd ?_
    rw [List.zipIdx_map_snd]
    exact List.nodup_range'
  refine (List.perm_ext_iff_of_nodup ((bucketsTo_nodup t _ _).map hinj)
    (hnodup.filter _)).mpr fun e => ?_
  rw [List.mem_map, List.mem_filter]
  constructor
  · rintro ⟨i, hi, rfl⟩
    obtain ⟨hlt, hdef⟩ := (mem_bucketsTo hpos).mp hi
    have hget := List.getElem?_eq_getElem hlt
    rw [entryOf_eq hget]
    exact ⟨List.mk_mem_zipIdx_iff_getElem?.mpr hget, (isDefined_eq hget).symm.trans hdef⟩
  · rintro ⟨hmem, hdef⟩
    have hget : t.syms[e.2]? = some e.1 := List.mk_mem_zipIdx_iff_getElem?.mp hmem
    refine ⟨e.2, (mem_bucketsTo hpos).mpr ⟨(List.getElem?_eq_some_iff.mp hget).1, ?_⟩,
      entryOf_eq hget⟩
    rw [isDefined_eq hget]
    exact hdef

/-! ## The table that is filled in -/

/-- The header of the table is that of `create_gnu_hash`. -/
theorem fill_inv (t : SymTab) :
    FillInv t (undefsOf t) (createGnuHash t.syms) (createGnuHash t.syms).nbuckets
      (fillGnuHash t (createGnuHash t.syms)) := by
  refine fillGnuHash_inv (Nat.succ_pos _) ?_ List.length_replicate.symm rfl rfl
  obtain ⟨e, he⟩ := bloomSizeFrom_pow (t.syms.countP Sym.isDefined) 0
  show 0 < bloomSizeFrom _ (2 ^ 0)
  rw [he]
  exact Nat.two_pow_pos e

theorem undefsOf_new (t : SymTab) :
    (undefsOf t).new = t.syms.filter fun sym => !sym.isDefined := by
  unfold undefsOf
  rw [Copied.pass_new]
  rfl

/-- The chains begin behind the symbols that are not defined. -/
theorem undefs_length (t : SymTab) : (undefsOf t).new.length = (createGnuHash t.syms).symoffset := by
  have hsum := List.length_eq_countP_add_countP Sym.isDefined (l := t.syms)
  rw [undefsOf_new, ← List.countP_eq_length_filter]
  show _ = t.syms.length - t.syms.countP Sym.isDefined
  have hcount : (t.syms.countP fun sym => !sym.isDefined) =
      t.syms.countP fun sym => decide ¬ sym.isDefined = true :=
    List.countP_congr fun sym _ => by cases sym.isDefined <;> decide
  omega

/-- The symbols and their new numbers. -/
theorem fill_reordered (t : SymTab) :
    Reordered t.syms (fillGnuHash t (createGnuHash t.syms)).copied.new
      (fillGnuHash t (createGnuHash t.syms)).copied.oldToNew := by
  rw [(fill_inv t).copied]
  unfold undefsOf
  rw [Copied.pass_eq, ← Copied.copies_append]
  refine reordered_copies (List.Perm.trans ?_ (List.filter_append_perm
    (fun e : Sym × Nat => !e.1.isDefined) t.syms.zipIdx))
  refine List.Perm.append (List.Perm.refl _) ?_
  have := @bucketsTo_perm (createGnuHash t.syms).nbuckets t (Nat.succ_pos _)
  simpa using this

theorem fill_new (t : SymTab) :
    (fillGnuHash t (createGnuHash t.syms)).copied.new = (undefsOf t).new ++
      ((bucketsTo t (createGnuHash t.syms).nbuckets (createGnuHash t.syms).nbuckets).map
        t.entryOf).map Prod.fst := by
  rw [(fill_inv t).copied, Copied.copies_new]

/-- A symbol of a bucket is behind those of the buckets before it. -/
theorem fill_symbol {b j i : Nat} (hb : b < (createGnuHash t.syms).nbuckets)
    (hi : (bucket t (createGnuHash t.syms).nbuckets b)[j]? = some i) :
    (fillGnuHash t (createGnuHash t.syms)).copied.new[(createGnuHash t.syms).symoffset +
      (bucketsTo t (createGnuHash t.syms).nbuckets b).length + j]? = t.syms[i]? := by
  have hj := (List.getElem?_eq_some_iff.mp hi).1
  have hlt := (mem_bucket.mp (List.mem_of_getElem? hi)).1
  rw [fill_new, Nat.add_assoc, ← undefs_length, List.getElem?_append_right (Nat.le_add_right _ _),
    Nat.add_sub_cancel_left, List.getElem?_map, List.getElem?_map]
  unfold bucketsTo
  rw [getElem?_flatMap_range hb hj, hi, Option.map_some,
    entryOf_eq (List.getElem?_eq_getElem hlt), List.getElem?_eq_getElem hlt]
  rfl

theorem chainOf_length (t : SymTab) (list : List Nat) : (chainOf t list).length = list.length := by
  unfold chainOf markLast
  rw [List.length_modify, List.length_map]

theorem getElem?_chainOf {list : List Nat} {j i : Nat} (hi : list[j]? = some i) :
    (chainOf t list)[j]? =
      some (if j + 1 = list.length then hashWord t i ||| 1 else hashWord t i) := by
  have hj := (List.getElem?_eq_some_iff.mp hi).1
  unfold chainOf markLast
  rw [List.getElem?_modify, List.getElem?_map, hi, List.length_map]
  by_cases hlast : j + 1 = list.length
  · rw [if_pos hlast]
    simp [show list.length - 1 = j by omega]
  · rw [if_neg hlast]
    simp [show list.length - 1 ≠ j by omega]

/-- The word of the chain for a symbol of a bucket. -/
theorem fill_chain {b j i : Nat} (hb : b < (createGnuHash t.syms).nbuckets)
    (hi : (bucket t (createGnuHash t.syms).nbuckets b)[j]? = some i) :
    (fillGnuHash t (createGnuHash t.syms)).gnu.chain.getD
        ((bucketsTo t (createGnuHash t.syms).nbuckets b).length + j) 1 =
      if j + 1 = (bucket t (createGnuHash t.syms).nbuckets b).length then hashWord t i ||| 1
      else hashWord t i := by
  have hj := (List.getElem?_eq_some_iff.mp hi).1
  have hlen : (bucketsTo t (createGnuHash t.syms).nbuckets b).length =
      ((List.range b).flatMap fun b =>
        chainOf t (bucket t (createGnuHash t.syms).nbuckets b)).length := by
    unfold bucketsTo
    rw [List.length_flatMap, List.length_flatMap]
    simp only [chainOf_length]
  rw [(fill_inv t).chain, List.getD_eq_getElem?_getD, hlen,
    getElem?_flatMap_range hb (by rwa [chainOf_length]), getElem?_chainOf hi]
  rfl

/-- Every defined symbol of the new table is in a bucket. -/
theorem fill_defined {k : Nat} {sym : Sym}
    (hk : (fillGnuHash t (createGnuHash t.syms)).copied.new[k]? = some sym)
    (hdef : sym.isDefined = true) :
    ∃ b < (createGnuHash t.syms).nbuckets, ∃ j i : Nat,
      (bucket t (createGnuHash t.syms).nbuckets b)[j]? = some i ∧
      k = (createGnuHash t.syms).symoffset +
        (bucketsTo t (createGnuHash t.syms).nbuckets b).length + j := by
  have hlt := (List.getElem?_eq_some_iff.mp hk).1
  rw [fill_new] at hk hlt
  by_cases hk' : k < (undefsOf t).new.length
  · -- It is not one of those that are not defined.
    rw [List.getElem?_append_left hk', undefsOf_new] at hk
    have := (List.mem_filter.mp (List.mem_of_getElem? hk)).2
    rw [hdef] at this
    cases this
  · rw [List.length_append, List.length_map, List.length_map] at hlt
    obtain ⟨b, hb, j, hj, hq⟩ := exists_flatMap_range
      (f := bucket t (createGnuHash t.syms).nbuckets) (m := (createGnuHash t.syms).nbuckets)
      (q := k - (undefsOf t).new.length) (by
        show _ < (bucketsTo t _ _).length
        omega)
    refine ⟨b, hb, j, _, List.getElem?_eq_getElem hj, ?_⟩
    rw [← undefs_length]
    show _ = _ + ((List.range b).flatMap (bucket t (createGnuHash t.syms).nbuckets)).length + j
    omega

/-- Behind the symbols that are not defined every symbol is defined. -/
theorem fill_behind {k : Nat} {sym : Sym}
    (hk : (fillGnuHash t (createGnuHash t.syms)).copied.new[k]? = some sym)
    (hle : (createGnuHash t.syms).symoffset ≤ k) : sym.isDefined = true := by
  rw [fill_new, List.getElem?_append_right (by rw [undefs_length]; exact hle),
    List.getElem?_map, List.getElem?_map] at hk
  obtain ⟨e, he, rfl⟩ := Option.map_eq_some_iff.mp hk
  obtain ⟨i, hi, rfl⟩ := Option.map_eq_some_iff.mp he
  obtain ⟨hlt, hdef⟩ := (mem_bucketsTo (Nat.succ_pos _)).mp (List.mem_of_getElem? hi)
  have hget := List.getElem?_eq_getElem hlt
  rw [entryOf_eq hget]
  exact (isDefined_eq hget).symm.trans hdef

end Lookup

end TccRiscv64.Elf
