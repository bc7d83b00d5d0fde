import TccRiscv64.Elf.GnuOrder

set_option autoImplicit false

/-! # Filling the GNU hash table

The symbols are copied bucket by bucket. The chain of a bucket has the hash values of its symbols,
with a mark on the last one, and the bloom filter has the bits of all the symbols. -/

namespace TccRiscv64.Elf

open Data

/-- A symbol of the table, with its number. -/
def SymTab.entryOf (t : SymTab) (k : Nat) : Sym × Nat := (t.syms.getD k ⟨0, 0, 0, 0, 0, 0⟩, k)

/-- The word of a chain for a symbol that is not the last one. -/
def hashWord (t : SymTab) (k : Nat) : BitVec 32 := (gnuHashes t).getD k 0 &&& ~~~1

/-- The bits of a hash value are set in the bloom filter. -/
structure BloomHas (gnu : GnuHash) (hash : BitVec 32) : Prop where
  low : (gnu.bloom.getD ((hash.toNat / 64) % gnu.bloomSize) 0).getLsbD (hash.toNat % 64) = true
  high : (gnu.bloom.getD ((hash.toNat / 64) % gnu.bloomSize) 0).getLsbD
    ((hash >>> gnu.bloomShift).toNat % 64) = true

section Fill

variable {t : SymTab}

/-! ## The symbols of a bucket -/

/-- The inner loop goes through a bucket from the first symbol to the last one. -/
theorem Fill.walk_eq {next : List Nat} {last k fuel : Nat} {list : List Nat}
    (h : Follows (fun k => next.getD k 0) last (k :: list)) (hfuel : list.length < fuel)
    (st : Fill) : Fill.walk t next last fuel k st = (k :: list).foldl (Fill.addSym t) st := by
  induction list generalizing k fuel st with
  | nil =>
      obtain ⟨fuel, rfl⟩ := Nat.exists_eq_succ_of_ne_zero (Nat.ne_zero_of_lt hfuel)
      rw [Fill.walk, if_pos (show k = last from h)]
      rfl
  | cons k' list ih =>
      obtain ⟨fuel, rfl⟩ := Nat.exists_eq_succ_of_ne_zero (Nat.ne_zero_of_lt hfuel)
      obtain ⟨hk, hk', hrest⟩ := h
      rw [Fill.walk, if_neg hk, show next.getD k 0 = k' from hk', List.foldl_cons]
      exact ih hrest (Nat.lt_of_succ_lt_succ hfuel) _

/-- What is done when the symbols of a list are added. -/
structure Added (t : SymTab) (list : List Nat) (st st' : Fill) : Prop where
  copied : st'.copied = st.copied.copies (list.map t.entryOf)
  chain : st'.gnu.chain = st.gnu.chain ++ list.map (hashWord t)
  same : st'.gnu = { st.gnu with chain := st'.gnu.chain, bloom := st'.gnu.bloom }
  bloom_length : st'.gnu.bloom.length = st.gnu.bloom.length
  bloom_mono : ∀ i b : Nat, (st.gnu.bloom.getD i 0).getLsbD b = true →
    (st'.gnu.bloom.getD i 0).getLsbD b = true
  bloom : 0 < st.gnu.bloomSize → st.gnu.bloomSize = st.gnu.bloom.length →
    ∀ k ∈ list, BloomHas st'.gnu ((gnuHashes t).getD k 0)

theorem Added.nil (st : Fill) : Added t [] st st :=
  ⟨rfl, (List.append_nil _).symm, rfl, rfl, fun _ _ h => h, fun _ _ _ h => absurd h List.not_mem_nil⟩

theorem getLsbD_one_shiftLeft {n : Nat} (h : n < 64) :
    ((1 : BitVec 64) <<< n).getLsbD n = true := by
  rw [BitVec.getLsbD_shiftLeft, Nat.sub_self]
  simp [h]

theorem bloomBits_low (shift : Nat) (hash : BitVec 32) :
    (bloomBits shift hash).getLsbD (hash.toNat % 64) = true := by
  unfold bloomBits
  rw [BitVec.getLsbD_or, getLsbD_one_shiftLeft (Nat.mod_lt _ (by decide)), Bool.true_or]

theorem bloomBits_high (shift : Nat) (hash : BitVec 32) :
    (bloomBits shift hash).getLsbD ((hash >>> shift).toNat % 64) = true := by
  unfold bloomBits
  rw [BitVec.getLsbD_or, getLsbD_one_shiftLeft (n := (hash >>> shift).toNat % 64)
    (Nat.mod_lt _ (by decide)), Bool.or_true]

theorem getD_modify {l : List (BitVec 64)} (i j : Nat) (x : BitVec 64) :
    (l.modify i (· ||| x)).getD j 0 =
      if i = j ∧ j < l.length then l.getD j 0 ||| x else l.getD j 0 := by
  rw [List.getD_eq_getElem?_getD, List.getElem?_modify, List.getD_eq_getElem?_getD]
  by_cases hj : j < l.length
  · rw [List.getElem?_eq_getElem hj]
    by_cases hij : i = j
    · rw [if_pos ⟨hij, hj⟩]
      simp [hij]
    · rw [if_neg fun h => hij h.1]
      simp [hij]
  · rw [List.getElem?_eq_none (Nat.le_of_not_lt hj), if_neg fun h => hj h.2]
    rfl

theorem Added.cons {k : Nat} {list : List Nat} {st st' : Fill}
    (h : Added t list (st.addSym t k) st') : Added t (k :: list) st st' := by
  refine ⟨?_, ?_, ?_, ?_, fun i b hset => ?_, fun hpos hsize k' hk' => ?_⟩
  · rw [h.copied]
    rfl
  · rw [h.chain]
    exact List.append_assoc _ _ _
  · exact h.same
  · rw [h.bloom_length]
    exact List.length_modify _ _ _
  · refine h.bloom_mono i b ?_
    show ((st.gnu.bloom.modify _ _).getD i 0).getLsbD b = true
    rw [getD_modify]
    split
    · rw [BitVec.getLsbD_or, hset, Bool.true_or]
    · exact hset
  · have hlen : (st.addSym t k).gnu.bloom.length = st.gnu.bloom.length :=
      List.length_modify _ _ _
    rcases List.mem_cons.mp hk' with rfl | hk'
    · -- The bits of the first symbol are set at once, and they stay.
      generalize hhash : (gnuHashes t).getD k' 0 = hash
      have hword : (hash.toNat / 64) % st.gnu.bloomSize < st.gnu.bloom.length :=
        hsize ▸ Nat.mod_lt _ hpos
      have hget : (st.addSym t k').gnu.bloom.getD ((hash.toNat / 64) % st.gnu.bloomSize) 0 =
          st.gnu.bloom.getD ((hash.toNat / 64) % st.gnu.bloomSize) 0 |||
            bloomBits st.gnu.bloomShift hash := by
        show (st.gnu.bloom.modify _ _).getD _ 0 = _
        rw [hhash, getD_modify, if_pos ⟨rfl, hword⟩]
      have hbloomSize : st'.gnu.bloomSize = st.gnu.bloomSize := by
        rw [h.same]
        rfl
      have hbloomShift : st'.gnu.bloomShift = st.gnu.bloomShift := by
        rw [h.same]
        rfl
      refine ⟨?_, ?_⟩
      · rw [hbloomSize]
        refine h.bloom_mono _ _ ?_
        rw [hget, BitVec.getLsbD_or, bloomBits_low, Bool.or_true]
      · rw [hbloomSize, hbloomShift]
        refine h.bloom_mono _ _ ?_
        rw [hget, BitVec.getLsbD_or, bloomBits_high, Bool.or_true]
    · exact h.bloom hpos (hsize.trans hlen.symm) k' hk'

theorem added_foldl (list : List Nat) (st : Fill) :
    Added t list st (list.foldl (Fill.addSym t) st) := by
  induction list generalizing st with
  | nil => exact Added.nil st
  | cons k list ih => exact (ih _).cons

/-! ## Bucket by bucket -/

/-- The symbols of a bucket. -/
def bucket (t : SymTab) (nbuckets b : Nat) : List Nat := bucketBelow t nbuckets t.syms.length b

/-- The symbols of the first buckets. -/
def bucketsTo (t : SymTab) (nbuckets m : Nat) : List Nat :=
  (List.range m).flatMap (bucket t nbuckets)

/-- The chain of a bucket. -/
def chainOf (t : SymTab) (list : List Nat) : List (BitVec 32) := markLast (list.map (hashWord t))

theorem bucketsTo_succ (t : SymTab) (nbuckets m : Nat) :
    bucketsTo t nbuckets (m + 1) = bucketsTo t nbuckets m ++ bucket t nbuckets m :=
  flatMap_range_succ _ m

theorem markLast_concat (chain : List (BitVec 32)) (word : BitVec 32) :
    markLast (chain ++ [word]) = chain ++ [word ||| 1] := by
  unfold markLast
  rw [List.length_append, List.length_singleton, Nat.add_sub_cancel]
  induction chain with
  | nil => rfl
  | cons _ chain ih =>
      rw [List.cons_append, List.length_cons, List.modify_succ_cons, ih]
      rfl

theorem markLast_append (chain : List (BitVec 32)) {list : List (BitVec 32)} (h : list ≠ []) :
    markLast (chain ++ list) = chain ++ markLast list := by
  obtain ⟨list, word, rfl⟩ := List.eq_nil_or_concat list |>.resolve_left h
  rw [List.concat_eq_append, markLast_concat, ← List.append_assoc, markLast_concat,
    List.append_assoc]

/-- What holds when the buckets below `m` are filled. -/
structure FillInv (t : SymTab) (undefs : Copied Sym) (gnu : GnuHash) (m : Nat) (st : Fill) :
    Prop where
  copied : st.copied = undefs.copies ((bucketsTo t gnu.nbuckets m).map t.entryOf)
  chain : st.gnu.chain = (List.range m).flatMap fun b => chainOf t (bucket t gnu.nbuckets b)
  same : st.gnu =
    { gnu with chain := st.gnu.chain, bloom := st.gnu.bloom, buckets := st.gnu.buckets }
  bloom_length : st.gnu.bloom.length = gnu.bloom.length
  bloom : ∀ k ∈ bucketsTo t gnu.nbuckets m, BloomHas st.gnu ((gnuHashes t).getD k 0)
  buckets_length : st.gnu.buckets.length = gnu.nbuckets
  filled : ∀ b < m, bucket t gnu.nbuckets b ≠ [] → st.gnu.buckets.getD b 0 =
    undefs.new.length + (bucketsTo t gnu.nbuckets b).length
  empty : ∀ b, m ≤ b ∨ bucket t gnu.nbuckets b = [] → st.gnu.buckets.getD b 0 = 0

theorem bucket_head {nbuckets m : Nat} {bucks : Bucks}
    (h : BucksInv t nbuckets t.syms.length bucks) (hm : m < nbuckets) :
    bucks.first.getD m none = (bucket t nbuckets m).head? := h.first m hm

theorem FillInv.step {undefs : Copied Sym} {gnu : GnuHash} {m : Nat} {st : Fill} {bucks : Bucks}
    (h : FillInv t undefs gnu m st) (hb : BucksInv t gnu.nbuckets t.syms.length bucks)
    (hm : m < gnu.nbuckets) (hpos : 0 < gnu.bloomSize) (hsize : gnu.bloomSize = gnu.bloom.length) :
    FillInv t undefs gnu (m + 1) (st.addBucket t bucks m) := by
  unfold Fill.addBucket
  rw [bucket_head hb hm]
  cases hlist : bucket t gnu.nbuckets m with
  | nil =>
      have hto : bucketsTo t gnu.nbuckets (m + 1) = bucketsTo t gnu.nbuckets m := by
        rw [bucketsTo_succ, hlist, List.append_nil]
      refine ⟨?_, ?_, h.same, h.bloom_length, ?_, h.buckets_length, fun b hlt hne => ?_,
        fun b hor => ?_⟩
      · rw [hto]
        exact h.copied
      · rw [flatMap_range_succ, hlist]
        exact h.chain.trans (List.append_nil _).symm
      · rw [hto]
        exact h.bloom
      · have : b ≠ m := fun heq => hne (heq ▸ hlist)
        exact h.filled b (by omega) hne
      · rcases hor with hle | hnil
        · exact h.empty b (.inl (by omega))
        · exact h.empty b (.inr hnil)
  | cons first list =>
      have hfollows := hb.follows m hm
      have hlt : list.length < t.syms.length := by
        have := List.length_filter_le (fun i => t.isDefined i && bucketOf t gnu.nbuckets i == m)
          (List.range t.syms.length)
        rw [show (List.range t.syms.length).filter _ = first :: list from hlist,
          List.length_range, List.length_cons] at this
        omega
      rw [show bucketBelow t gnu.nbuckets t.syms.length m = first :: list from hlist] at hfollows
      simp only [List.head?_cons]
      rw [Fill.walk_eq hfollows hlt]
      have hadded := added_foldl (t := t) (first :: list) ⟨st.copied, { st.gnu with
        buckets := st.gnu.buckets.set m st.copied.new.length }⟩
      generalize (first :: list).foldl (Fill.addSym t) _ = st' at hadded ⊢
      have hbuckets : st'.gnu.buckets = st.gnu.buckets.set m st.copied.new.length := by
        rw [hadded.same]
      have hsame : st'.gnu = { gnu with
          chain := st'.gnu.chain, bloom := st'.gnu.bloom, buckets := st'.gnu.buckets } := by
        rw [hadded.same, h.same]
      have hstSize : st.gnu.bloomSize = gnu.bloomSize := by
        rw [h.same]
      have hto := bucketsTo_succ t gnu.nbuckets m
      rw [hlist] at hto
      refine ⟨?_, ?_, ?_, hadded.bloom_length.trans h.bloom_length, fun k hk => ?_, ?_,
        fun b hlt hne => ?_, fun b hor => ?_⟩
      · rw [hto, List.map_append, Copied.copies_append, ← h.copied]
        exact hadded.copied
      · show markLast st'.gnu.chain = _
        have hne : (first :: list).map (hashWord t) ≠ [] := List.cons_ne_nil _ _
        rw [hadded.chain, markLast_append _ hne, flatMap_range_succ, hlist, ← h.chain]
        rfl
      · show { st'.gnu with chain := markLast st'.gnu.chain } = _
        rw [hsame]
      · rw [hto, List.mem_append] at hk
        have hbits : BloomHas st'.gnu ((gnuHashes t).getD k 0) := by
          rcases hk with hk | hk
          · -- The bits of the other buckets stay.
            have hold := h.bloom k hk
            have hword : st'.gnu.bloomSize = st.gnu.bloomSize := by
              rw [hadded.same]
            have hshift : st'.gnu.bloomShift = st.gnu.bloomShift := by
              rw [hadded.same]
            refine ⟨?_, ?_⟩
            · rw [hword]
              exact hadded.bloom_mono _ _ hold.low
            · rw [hword, hshift]
              exact hadded.bloom_mono _ _ hold.high
          · refine hadded.bloom (hstSize ▸ hpos) ?_ k hk
            exact hstSize.trans (hsize.trans h.bloom_length.symm)
        exact ⟨hbits.low, hbits.high⟩
      · show st'.gnu.buckets.length = _
        rw [hbuckets, List.length_set, h.buckets_length]
      · show st'.gnu.buckets.getD b 0 = _
        rw [hbuckets]
        by_cases hbm : b = m
        · rw [hbm, getD_set_self (h.buckets_length ▸ hm), h.copied, Copied.copies_new,
            List.length_append, List.length_map, List.length_map]
        · rw [getD_set_ne (Ne.symm hbm)]
          exact h.filled b (by omega) hne
      · show st'.gnu.buckets.getD b 0 = _
        have hbm : m ≠ b := by
          rintro rfl
          rcases hor with hle | hnil
          · omega
          · rw [hlist] at hnil
            cases hnil
        rw [hbuckets, getD_set_ne hbm]
        rcases hor with hle | hnil
        · exact h.empty b (.inl (by omega))
        · exact h.empty b (.inr hnil)

/-- The symbols that are not defined are copied first. -/
def undefsOf (t : SymTab) : Copied Sym :=
  Copied.pass ⟨[], List.replicate t.syms.length 0⟩ (fun sym => !sym.isDefined) t.syms

theorem fillGnuHash_inv {gnu : GnuHash} (hnb : 0 < gnu.nbuckets) (hpos : 0 < gnu.bloomSize)
    (hsize : gnu.bloomSize = gnu.bloom.length) (hchain : gnu.chain = [])
    (hbuckets : gnu.buckets = List.replicate gnu.nbuckets 0) :
    FillInv t (undefsOf t) gnu gnu.nbuckets (fillGnuHash t gnu) := by
  have hrun : ∀ m ≤ gnu.nbuckets, FillInv t (undefsOf t) gnu m
      ((List.range m).foldl (Fill.addBucket t (findBuckets t gnu.nbuckets))
        ⟨undefsOf t, gnu⟩) := by
    intro m
    induction m with
    | zero =>
        intro _
        refine ⟨rfl, hchain, rfl, rfl, fun k hk => absurd hk List.not_mem_nil, ?_,
          fun b hb => absurd hb (Nat.not_lt_zero b), fun b _ => ?_⟩
        · rw [List.range_zero, List.foldl_nil, hbuckets, List.length_replicate]
        · rw [List.range_zero, List.foldl_nil, hbuckets, List.getD_eq_getElem?_getD,
            List.getElem?_replicate]
          split <;> rfl
    | succ m ih =>
        intro hm
        rw [List.range_succ, List.foldl_append, List.foldl_cons, List.foldl_nil]
        exact (ih (by omega)).step (findBuckets_inv t hnb) (by omega) hpos hsize
  exact hrun gnu.nbuckets (Nat.le_refl _)

end Fill

end TccRiscv64.Elf
