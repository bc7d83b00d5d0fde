import TccRiscv64.Elf.GnuHash

set_option autoImplicit false

/-! # The symbols in their new order

What refers to a symbol by number follows it, and the buckets of a GNU hash table are lists of the
symbols with the same remainder. -/

namespace TccRiscv64.Elf

open Data

/-! ## Relocations -/

/-- The relocations against a symbol table refer to the new numbers of the entries that they
referred to, and the others are as before. -/
structure RelocsFollow (symtab : Nat) (old new : List Sym) (oldToNew : List Nat)
    (secs secs' : List RelocSection) : Prop where
  length : secs'.length = secs.length
  other : ∀ (s : Nat) (sr : RelocSection), secs[s]? = some sr →
    ¬ (sr.isRelx ∧ sr.link = symtab) → secs'[s]? = some sr
  against : ∀ (s : Nat) (sr : RelocSection), secs[s]? = some sr → sr.isRelx ∧ sr.link = symtab →
    ∃ sr' : RelocSection, secs'[s]? = some sr' ∧ sr'.isRelx = sr.isRelx ∧ sr'.link = sr.link ∧
      sr'.relocs.length = sr.relocs.length ∧
      ∀ (p : Nat) (rel : Reloc), sr.relocs[p]? = some rel → rel.sym < old.length →
        ∃ rel' : Reloc, sr'.relocs[p]? = some rel' ∧ rel'.type = rel.type ∧
          oldToNew[rel.sym]? = some rel'.sym ∧ new[rel'.sym]? = old[rel.sym]?

theorem modifyRelocations_follow (symtab : Nat) {old new : List Sym} {oldToNew : List Nat}
    (h : Reordered old new oldToNew) (secs : List RelocSection) :
    RelocsFollow symtab old new oldToNew secs (modifyRelocations symtab oldToNew secs) := by
  unfold modifyRelocations
  refine ⟨List.length_map _, fun s sr hs hno => ?_, fun s sr hs hyes => ?_⟩
  · rw [List.getElem?_map, hs, Option.map_some, if_neg hno]
  · refine ⟨{ sr with relocs := sr.relocs.map fun rel =>
        { rel with sym := oldToNew.getD rel.sym 0 } },
      by rw [List.getElem?_map, hs, Option.map_some, if_pos hyes], rfl, rfl,
      List.length_map _, fun p rel hrel hlt => ?_⟩
    obtain ⟨k, hk, hnew⟩ := h.entry rel.sym old[rel.sym] (List.getElem?_eq_getElem hlt)
    have hget : oldToNew.getD rel.sym 0 = k := by
      rw [List.getD_eq_getElem?_getD, hk]
      rfl
    refine ⟨{ rel with sym := k }, ?_, rfl, hk, ?_⟩
    · show (sr.relocs.map _)[p]? = _
      rw [List.getElem?_map, hrel, Option.map_some, hget]
    · rw [hnew, List.getElem?_eq_getElem hlt]

/-! ## `sort_syms` -/

theorem sortPasses_reordered (syms : List Sym) :
    Reordered syms (sortPasses syms).new (sortPasses syms).oldToNew := by
  unfold sortPasses
  rw [Copied.pass_eq, Copied.pass_eq, ← Copied.copies_append]
  exact reordered_copies (List.filter_append_perm _ syms.zipIdx)

/-- The local symbols come before the others, in the order that they had. -/
theorem sortPasses_new (syms : List Sym) :
    (sortPasses syms).new = syms.filter Sym.isLocal ++ syms.filter fun sym => !sym.isLocal := by
  unfold sortPasses
  rw [Copied.pass_new, Copied.pass_new]
  rfl

/-! ## The buckets -/

section Buckets

variable {t : SymTab} {nbuckets : Nat}

def SymTab.isDefined (t : SymTab) (i : Nat) : Bool := (t.syms[i]?.map Sym.isDefined).getD false

/-- The bucket that a symbol belongs to. -/
def bucketOf (t : SymTab) (nbuckets i : Nat) : Nat := ((gnuHashes t).getD i 0).toNat % nbuckets

/-- The defined symbols below `m` that belong to a bucket. -/
def bucketBelow (t : SymTab) (nbuckets m b : Nat) : List Nat :=
  (List.range m).filter fun i => t.isDefined i && bucketOf t nbuckets i == b

theorem mem_bucketBelow {m b i : Nat} :
    i ∈ bucketBelow t nbuckets m b ↔
      i < m ∧ t.isDefined i = true ∧ bucketOf t nbuckets i = b := by
  unfold bucketBelow
  rw [List.mem_filter, List.mem_range, Bool.and_eq_true, beq_iff_eq]

theorem bucketBelow_succ (t : SymTab) (nbuckets m b : Nat) :
    bucketBelow t nbuckets (m + 1) b = bucketBelow t nbuckets m b ++
      if t.isDefined m = true ∧ bucketOf t nbuckets m = b then [m] else [] := by
  unfold bucketBelow
  rw [List.range_succ, List.filter_append]
  congr 1
  by_cases h : t.isDefined m = true ∧ bucketOf t nbuckets m = b
  · rw [if_pos h, List.filter_cons_of_pos (by simpa using h), List.filter_nil]
  · rw [if_neg h, List.filter_cons_of_neg (by simpa using h), List.filter_nil]

/-- What holds when the symbols below `m` are in their buckets. -/
structure BucksInv (t : SymTab) (nbuckets m : Nat) (st : Bucks) : Prop where
  firsts : st.first.length = nbuckets
  lasts : st.last.length = nbuckets
  nexts : st.next.length = t.syms.length
  first : ∀ b < nbuckets, st.first.getD b none = (bucketBelow t nbuckets m b).head?
  follows : ∀ b < nbuckets,
    Follows (fun k => st.next.getD k 0) (st.last.getD b 0) (bucketBelow t nbuckets m b)
  last_mem : ∀ b < nbuckets, bucketBelow t nbuckets m b ≠ [] →
    st.last.getD b 0 ∈ bucketBelow t nbuckets m b

theorem getD_set_self {α : Type} {l : List α} {i : Nat} (h : i < l.length) (x d : α) :
    (l.set i x).getD i d = x := by
  rw [List.getD_eq_getElem?_getD, List.getElem?_set_self h]
  rfl

theorem getD_set_ne {α : Type} {l : List α} {i j : Nat} (h : i ≠ j) (x d : α) :
    (l.set i x).getD j d = l.getD j d := by
  rw [List.getD_eq_getElem?_getD, List.getElem?_set_ne h, List.getD_eq_getElem?_getD]

theorem BucksInv.skip {m : Nat} {st : Bucks} (h : BucksInv t nbuckets m st)
    (hm : t.isDefined m = false) : BucksInv t nbuckets (m + 1) st := by
  have hsame : ∀ b, bucketBelow t nbuckets (m + 1) b = bucketBelow t nbuckets m b := by
    intro b
    rw [bucketBelow_succ, if_neg fun hand => absurd (hm.symm.trans hand.1) (by decide),
      List.append_nil]
  refine ⟨h.firsts, h.lasts, h.nexts, fun b hb => ?_, fun b hb => ?_, fun b hb => ?_⟩
  · rw [hsame]
    exact h.first b hb
  · rw [hsame]
    exact h.follows b hb
  · rw [hsame]
    exact h.last_mem b hb

theorem BucksInv.add {m : Nat} {st : Bucks} (h : BucksInv t nbuckets m st) (hpos : 0 < nbuckets)
    (hm : t.isDefined m = true) (hlt : m < t.syms.length) :
    BucksInv t nbuckets (m + 1) (st.add (bucketOf t nbuckets m) m) := by
  have hb : bucketOf t nbuckets m < nbuckets := Nat.mod_lt _ hpos
  generalize hbm : bucketOf t nbuckets m = bm at hb ⊢
  have hsame : ∀ b, b ≠ bm → bucketBelow t nbuckets (m + 1) b = bucketBelow t nbuckets m b := by
    intro b hne
    rw [bucketBelow_succ, if_neg fun hand => hne (hand.2.symm.trans hbm), List.append_nil]
  have hgrow : bucketBelow t nbuckets (m + 1) bm = bucketBelow t nbuckets m bm ++ [m] := by
    rw [bucketBelow_succ, if_pos ⟨hm, hbm⟩]
  unfold Bucks.add
  cases hfirst : st.first.getD bm none with
  | none =>
      have hnil : bucketBelow t nbuckets m bm = [] :=
        List.head?_eq_none_iff.mp ((h.first bm hb).symm.trans hfirst)
      rw [hnil, List.nil_append] at hgrow
      refine ⟨by rw [List.length_set, h.firsts], by rw [List.length_set, h.lasts], h.nexts,
        fun b hblt => ?_, fun b hblt => ?_, fun b hblt => ?_⟩
      all_goals by_cases hne : b = bm
      · rw [hne, hgrow]
        exact getD_set_self (h.firsts ▸ hb) _ _
      · rw [hsame b hne, ← h.first b hblt]
        exact getD_set_ne (Ne.symm hne) _ _
      · rw [hne, hgrow]
        exact (getD_set_self (h.lasts ▸ hb) _ _).symm
      · rw [hsame b hne]
        show Follows _ ((st.last.set bm m).getD b 0) _
        rw [getD_set_ne (Ne.symm hne)]
        exact h.follows b hblt
      · rw [hne, hgrow]
        intro _
        show (st.last.set bm m).getD bm 0 ∈ _
        rw [getD_set_self (h.lasts ▸ hb)]
        exact List.mem_cons_self
      · rw [hsame b hne]
        show _ → (st.last.set bm m).getD b 0 ∈ _
        rw [getD_set_ne (Ne.symm hne)]
        exact h.last_mem b hblt
  | some a =>
      have hne' : bucketBelow t nbuckets m bm ≠ [] := by
        intro hnil
        have := (h.first bm hb).symm.trans hfirst
        rw [hnil] at this
        cases this
      have hlast := h.last_mem bm hb hne'
      have hlastLt : st.last.getD bm 0 < m := (mem_bucketBelow.mp hlast).1
      refine ⟨h.firsts, by rw [List.length_set, h.lasts], by rw [List.length_set, h.nexts],
        fun b hblt => ?_, fun b hblt => ?_, fun b hblt => ?_⟩
      all_goals by_cases hne : b = bm
      · rw [hne, hgrow, List.head?_append_of_ne_nil _ hne']
        exact h.first bm hb
      · rw [hsame b hne]
        exact h.first b hblt
      · rw [hne, hgrow]
        show Follows _ ((st.last.set bm m).getD bm 0) _
        rw [getD_set_self (h.lasts ▸ hb)]
        refine (h.follows bm hb).concat hne' (fun hmem => ?_) ?_ fun k hk hkl => ?_
        · exact absurd (mem_bucketBelow.mp hmem).1 (Nat.lt_irrefl m)
        · exact getD_set_self (by rw [h.nexts]; omega) _ _
        · exact getD_set_ne (Ne.symm hkl) _ _
      · rw [hsame b hne]
        show Follows _ ((st.last.set bm m).getD b 0) _
        rw [getD_set_ne (Ne.symm hne)]
        refine (h.follows b hblt).congr fun k hk _ => getD_set_ne (fun heq => hne ?_) _ _
        rw [← (mem_bucketBelow.mp hk).2.2, ← heq, (mem_bucketBelow.mp hlast).2.2]
      · rw [hne, hgrow]
        intro _
        show (st.last.set bm m).getD bm 0 ∈ _
        rw [getD_set_self (h.lasts ▸ hb)]
        exact List.mem_append_right _ List.mem_cons_self
      · rw [hsame b hne]
        show _ → (st.last.set bm m).getD b 0 ∈ _
        rw [getD_set_ne (Ne.symm hne)]
        exact h.last_mem b hblt

theorem findBuckets_inv (t : SymTab) {nbuckets : Nat} (hpos : 0 < nbuckets) :
    BucksInv t nbuckets t.syms.length (findBuckets t nbuckets) := by
  have hfold : ∀ (l : List Sym) (m : Nat) (st : Bucks), l = t.syms.drop m → m ≤ t.syms.length →
      BucksInv t nbuckets m st →
      BucksInv t nbuckets t.syms.length ((l.zipIdx m).foldl (fun st e =>
        if e.1.isDefined then st.add (((gnuHashes t).getD e.2 0).toNat % nbuckets) e.2 else st)
        st) := by
    intro l
    induction l with
    | nil =>
        intro m st hl hle h
        have hm : m = t.syms.length := by
          have := List.drop_eq_nil_iff.mp hl.symm
          omega
        exact hm ▸ h
    | cons sym l ih =>
        intro m st hl hle h
        have hm : t.syms[m]? = some sym := by
          have := congrArg List.head? hl
          rw [List.head?_drop] at this
          exact this.symm
        have hlt := (List.getElem?_eq_some_iff.mp hm).1
        have hdef : t.isDefined m = sym.isDefined := by
          unfold SymTab.isDefined
          rw [hm]
          rfl
        have hl' : l = t.syms.drop (m + 1) := by
          have := congrArg List.tail hl
          rw [List.tail_drop] at this
          exact this
        rw [List.zipIdx_cons, List.foldl_cons]
        by_cases hsym : sym.isDefined = true
        · rw [if_pos hsym]
          exact ih (m + 1) _ hl' hlt (h.add hpos (hdef.trans hsym) hlt)
        · rw [if_neg hsym]
          exact ih (m + 1) _ hl' hlt (h.skip (hdef.trans (Bool.eq_false_iff.mpr hsym)))
  refine hfold t.syms 0 _ rfl (Nat.zero_le _) ⟨List.length_replicate, List.length_replicate,
    List.length_replicate, fun b hb => ?_, fun b hb => trivial, fun b hb hne => absurd rfl hne⟩
  show (List.replicate nbuckets none).getD b none = none
  rw [List.getD_eq_getElem?_getD, List.getElem?_replicate, if_pos hb]
  rfl

end Buckets

end TccRiscv64.Elf
