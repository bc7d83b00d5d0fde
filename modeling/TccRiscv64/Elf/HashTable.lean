import TccRiscv64.Elf.SymTab

set_option autoImplicit false

/-! # The hash table of a symbol table

Every bucket holds the non-local symbols whose names hash to it, the newest first, through any number
of insertions and of resizes. A lookup is a search among the non-local symbols. -/

namespace TccRiscv64.Elf

open Data

/-! ## Strings -/

section Strings

variable {strtab tail : List UInt8} {offset : Nat}

/-- A string that has its end in a section stays when the section grows. -/
theorem strAt_append (hend : 0 ∈ strtab.drop offset) :
    strAt (strtab ++ tail) offset = strAt strtab offset := by
  have hle : offset ≤ strtab.length := by
    by_contra hlt
    rw [List.drop_eq_nil_of_le (by omega)] at hend
    exact absurd hend (by simp)
  unfold strAt
  rw [List.drop_append_of_le_length hle, List.takeWhile_append, if_neg]
  intro hlen
  have hall := List.takeWhile_eq_self_iff.mp
    ((List.takeWhile_prefix (· != 0)).eq_of_length hlen)
  exact absurd (hall 0 hend) (by decide)

/-- The string that was put in is the one that is read. -/
theorem strAt_putElfStr (name : CString) :
    strAt (putElfStr strtab name).1 (putElfStr strtab name).2 = name.bytes := by
  unfold strAt putElfStr
  rw [List.drop_left, List.takeWhile_append_of_pos]
  · simp
  · intro c hc
    have hne : c ≠ 0 := by
      rintro rfl
      exact name.noZero hc
    simpa using hne

end Strings

/-! ## What holds of a table -/

/-- Whether a symbol is in a bucket. -/
def inBucket (t : SymTab) (nbuckets b k : Nat) : Bool :=
  t.isHashed k && (elfHash (t.nameOf k)).toNat % nbuckets == b

/-- The symbols of a bucket among the first `m`, the newest first. -/
def bucketSyms (t : SymTab) (nbuckets m b : Nat) : List Nat :=
  ((List.range m).filter (inBucket t nbuckets b)).reverse

/-- The words of a hash table with the first `m` symbols in it. -/
structure Hashed (t : SymTab) (nbuckets m : Nat) (words : List Nat) : Prop where
  nbuckets_eq : words.getD 0 0 = nbuckets
  pos : 0 < nbuckets
  length : words.length = 2 + nbuckets + m
  chain : ∀ b, b < nbuckets →
    Linked (fun k => words.getD (2 + nbuckets + k) 0) (words.getD (2 + b) 0)
      (bucketSyms t nbuckets m b)

/-- What holds of every symbol table. -/
structure TabInv (t : SymTab) : Prop where
  nonempty : 0 < t.syms.length
  null : t.isHashed 0 = false
  empty : t.strtab[0]? = some 0
  names : ∀ sym ∈ t.syms, 0 ∈ t.strtab.drop sym.stName
  hash : ∀ hs, t.hash = some hs →
    Hashed t (hs.words.getD 0 0) t.syms.length hs.words ∧ hs.words.getD 1 0 = t.syms.length

section Hashing

variable {t t' : SymTab} {nbuckets m b k : Nat} {words : List Nat}

theorem mem_bucketSyms :
    k ∈ bucketSyms t nbuckets m b ↔ k < m ∧ inBucket t nbuckets b k = true := by
  unfold bucketSyms
  rw [List.mem_reverse, List.mem_filter, List.mem_range]

theorem bucketSyms_succ :
    bucketSyms t nbuckets (m + 1) b =
      if inBucket t nbuckets b m then m :: bucketSyms t nbuckets m b
      else bucketSyms t nbuckets m b := by
  unfold bucketSyms
  rw [List.range_succ, List.filter_append, List.filter_singleton]
  cases inBucket t nbuckets b m with
  | true =>
      rw [List.reverse_append]
      rfl
  | false =>
      rw [cond_false, List.append_nil]
      rfl

/-- The hash table is about the names of the symbols, and whether they are local. -/
theorem Hashed.congr (h : Hashed t nbuckets m words)
    (hname : ∀ k, k < m → t'.nameOf k = t.nameOf k)
    (hhashed : ∀ k, k < m → t'.isHashed k = t.isHashed k) : Hashed t' nbuckets m words where
  nbuckets_eq := h.nbuckets_eq
  pos := h.pos
  length := h.length
  chain b hb := by
    have hsyms : bucketSyms t' nbuckets m b = bucketSyms t nbuckets m b := by
      unfold bucketSyms
      congr 1
      refine List.filter_congr fun k hk => ?_
      rw [List.mem_range] at hk
      unfold inBucket
      rw [hname k hk, hhashed k hk]
    rw [hsyms]
    exact h.chain b hb

/-- The word that counts the symbols is no part of the chains. -/
theorem Hashed.set_count (h : Hashed t nbuckets m words) (n : Nat) :
    Hashed t nbuckets m (words.set 1 n) where
  nbuckets_eq := by
    rw [← h.nbuckets_eq]
    simp [List.getD_eq_getElem?_getD]
  pos := h.pos
  length := by rw [List.length_set, h.length]
  chain b hb := by
    have hget : ∀ i, 2 ≤ i → (words.set 1 n).getD i 0 = words.getD i 0 := by
      intro i hi
      rw [List.getD_eq_getElem?_getD, List.getD_eq_getElem?_getD,
        List.getElem?_set_ne (by omega)]
    rw [hget (2 + b) (by omega)]
    exact (h.chain b hb).congr fun k _ => hget _ (by omega)

/-- One more symbol is put into the hash table. -/
theorem Hashed.hashSym (h : Hashed t nbuckets m words) (hm : m ≠ 0) :
    Hashed t nbuckets (m + 1) (hashSym t nbuckets words m) := by
  have hlen := h.length
  have hpos := h.pos
  unfold Elf.hashSym
  cases hlocal : t.isHashed m with
  | false =>
      rw [if_neg Bool.false_ne_true]
      have hget : ∀ i, i < 2 + nbuckets + m → (words ++ [0]).getD i 0 = words.getD i 0 := by
        intro i hi
        rw [List.getD_eq_getElem?_getD, List.getD_eq_getElem?_getD,
          List.getElem?_append_left (by omega)]
      refine ⟨?_, hpos, ?_, fun b hb => ?_⟩
      · rw [← h.nbuckets_eq]
        exact hget 0 (by omega)
      · simp [hlen]
        omega
      · rw [bucketSyms_succ, if_neg (by simp [inBucket, hlocal])]
        rw [hget (2 + b) (by omega)]
        exact (h.chain b hb).congr fun k hk => hget _ (by
          have := (mem_bucketSyms.mp hk).1
          omega)
  | true =>
      set hash := (elfHash (t.nameOf m)).toNat % nbuckets with hhash
      have hlt : hash < nbuckets := Nat.mod_lt _ hpos
      set head := words.getD (2 + hash) 0 with hhead
      rw [if_pos rfl]
      dsimp only
      -- the words after the insertion
      have hget : ∀ i, i < 2 + nbuckets + m → i ≠ 2 + hash →
          ((words ++ [head]).set (2 + hash) m).getD i 0 = words.getD i 0 := by
        intro i hi hne
        rw [List.getD_eq_getElem?_getD, List.getD_eq_getElem?_getD,
          List.getElem?_set_ne (by omega), List.getElem?_append_left (by omega)]
      have hnew : ((words ++ [head]).set (2 + hash) m).getD (2 + nbuckets + m) 0 = head := by
        rw [List.getD_eq_getElem?_getD, List.getElem?_set_ne (by omega), ← hlen]
        simp
      have hbucket : ((words ++ [head]).set (2 + hash) m).getD (2 + hash) 0 = m := by
        rw [List.getD_eq_getElem?_getD, List.getElem?_set_self (by simp; omega)]
        rfl
      refine ⟨?_, hpos, ?_, fun b hb => ?_⟩
      · rw [← h.nbuckets_eq]
        exact hget 0 (by omega) (by omega)
      · simp [hlen]
        omega
      · have hrest : ∀ k ∈ bucketSyms t nbuckets m b,
            ((words ++ [head]).set (2 + hash) m).getD (2 + nbuckets + k) 0 =
              words.getD (2 + nbuckets + k) 0 := by
          intro k hk
          have := (mem_bucketSyms.mp hk).1
          exact hget _ (by omega) (by omega)
        rw [bucketSyms_succ]
        by_cases hb' : b = hash
        · rw [if_pos (by simp [inBucket, hlocal, hb', hhash])]
          rw [hb', hbucket]
          rw [hb'] at hrest
          exact (h.chain hash hlt).push hm hnew hrest
        · rw [if_neg (by
            intro hin
            rw [inBucket, Bool.and_eq_true, beq_iff_eq] at hin
            exact hb' hin.2.symm)]
          rw [hget (2 + b) (by omega) (by omega)]
          exact (h.chain b hb).congr hrest

/-- The table is rebuilt with any number of buckets. -/
theorem hashed_rebuildHash (hnull : t.isHashed 0 = false) (hsyms : 0 < t.syms.length)
    (hpos : 0 < nbuckets) :
    Hashed t nbuckets t.syms.length (rebuildHash t nbuckets) ∧
      (rebuildHash t nbuckets).getD 1 0 = t.syms.length := by
  have hstart : Hashed t nbuckets 1
      (nbuckets :: t.syms.length :: List.replicate (nbuckets + 1) 0) := by
    refine ⟨rfl, hpos, by simp; omega, fun b hb => ?_⟩
    have hempty : bucketSyms t nbuckets 1 b = [] := by
      simp [bucketSyms, inBucket, hnull]
    rw [hempty]
    show List.getD _ (2 + b) 0 = 0
    rw [List.getD_eq_getElem?_getD, show 2 + b = b + 1 + 1 by omega, List.getElem?_cons_succ,
      List.getElem?_cons_succ, List.getElem?_replicate, if_pos (by omega)]
    rfl
  have hfold : ∀ n m words, Hashed t nbuckets m words → m ≠ 0 →
      words.getD 1 0 = t.syms.length →
      Hashed t nbuckets (m + n) ((List.range' m n).foldl (hashSym t nbuckets) words) ∧
        ((List.range' m n).foldl (hashSym t nbuckets) words).getD 1 0 = t.syms.length := by
    intro n
    induction n with
    | zero => exact fun m words h _ hcount => ⟨h, hcount⟩
    | succ n ih =>
        intro m words h hm hcount
        rw [List.range'_succ, List.foldl_cons]
        have hcount' : (hashSym t nbuckets words m).getD 1 0 = t.syms.length := by
          rw [← hcount]
          have hlen := h.length
          have hpos := h.pos
          unfold hashSym
          split
          · rw [List.getD_eq_getElem?_getD, List.getD_eq_getElem?_getD,
              List.getElem?_set_ne (by omega), List.getElem?_append_left (by omega)]
          · rw [List.getD_eq_getElem?_getD, List.getD_eq_getElem?_getD,
              List.getElem?_append_left (by omega)]
        have hnext := ih (m + 1) _ (h.hashSym hm) (Nat.succ_ne_zero m) hcount'
        rw [show m + 1 + n = m + (n + 1) by omega] at hnext
        exact hnext
  have hall := hfold (t.syms.length - 1) 1 _ hstart (by decide) rfl
  rw [show 1 + (t.syms.length - 1) = t.syms.length by omega] at hall
  exact hall

end Hashing

/-! ## One more symbol -/

section Put

variable {t : SymTab} {d : SymDef} {k : Nat}

theorem addSym_syms_length : (addSym t d).syms.length = t.syms.length + 1 := by
  unfold addSym
  exact List.length_append

theorem isHashed_addSym_lt (hk : k < t.syms.length) :
    (addSym t d).isHashed k = t.isHashed k := by
  unfold SymTab.isHashed addSym
  rw [List.getElem?_append_left hk]

theorem isHashed_addSym_self :
    (addSym t d).isHashed t.syms.length = decide (stBind d.info ≠ stbLocal) := by
  unfold SymTab.isHashed addSym
  rw [List.getElem?_append_right (Nat.le_refl _), Nat.sub_self]
  rfl

/-- The strings that are there stay. -/
theorem addSym_strtab : ∃ tail, (addSym t d).strtab = t.strtab ++ tail := by
  unfold addSym
  split_ifs with hempty
  · exact ⟨[], (List.append_nil _).symm⟩
  · exact ⟨_, rfl⟩

theorem TabInv.nameOf_end (h : TabInv t) (hk : k < t.syms.length) :
    0 ∈ t.strtab.drop ((t.syms[k]?.map Sym.stName).getD 0) := by
  rw [List.getElem?_eq_getElem hk]
  exact h.names _ (List.getElem_mem hk)

theorem TabInv.nameOf_addSym_lt (h : TabInv t) (hk : k < t.syms.length) :
    (addSym t d).nameOf k = t.nameOf k := by
  obtain ⟨tail, htail⟩ := addSym_strtab (t := t) (d := d)
  have hsym : (addSym t d).syms[k]? = t.syms[k]? := List.getElem?_append_left hk
  unfold SymTab.nameOf
  rw [htail, hsym]
  exact strAt_append (h.nameOf_end hk)

theorem TabInv.nameOf_addSym_self (h : TabInv t) :
    (addSym t d).nameOf t.syms.length = d.name.bytes := by
  unfold SymTab.nameOf addSym
  rw [List.getElem?_append_right (Nat.le_refl _), Nat.sub_self]
  split_ifs with hempty
  · rw [hempty]
    cases hstr : t.strtab with
    | nil => exact absurd h.empty (by simp [hstr])
    | cons c strtab =>
        have hc := h.empty
        rw [hstr] at hc
        obtain rfl : c = 0 := Option.some.inj hc
        rfl
  · exact strAt_putElfStr d.name

/-- A hash table for one more symbol. -/
theorem TabInv.addHash (h : TabInv t) {hs : Hash} (hhash : t.hash = some hs) :
    Hashed (addSym t d) ((addHash (addSym t d) hs).words.getD 0 0) (t.syms.length + 1)
        (addHash (addSym t d) hs).words ∧
      (addHash (addSym t d) hs).words.getD 1 0 = t.syms.length + 1 := by
  obtain ⟨hhashed, hcount⟩ := h.hash hs hhash
  have hne : t.syms.length ≠ 0 := Nat.ne_of_gt h.nonempty
  have hold : Hashed (addSym t d) (hs.words.getD 0 0) t.syms.length hs.words :=
    hhashed.congr (fun k hk => h.nameOf_addSym_lt hk) fun k hk => isHashed_addSym_lt hk
  have hnew := hold.hashSym hne
  have hlen := hold.length
  have hpos := hold.pos
  -- the count stays until the symbol is counted
  have hcount' : (hashSym (addSym t d) (hs.words.getD 0 0) hs.words t.syms.length).getD 1 0 =
      t.syms.length := by
    rw [← hcount]
    unfold hashSym
    split
    · rw [List.getD_eq_getElem?_getD, List.getD_eq_getElem?_getD,
        List.getElem?_set_ne (by omega), List.getElem?_append_left (by omega)]
    · rw [List.getD_eq_getElem?_getD, List.getD_eq_getElem?_getD,
        List.getElem?_append_left (by omega)]
  have hadded : Hashed (addSym t d) (hs.words.getD 0 0) (t.syms.length + 1)
        ((hashSym (addSym t d) (hs.words.getD 0 0) hs.words t.syms.length).set 1
          (t.syms.length + 1)) ∧
      ((hashSym (addSym t d) (hs.words.getD 0 0) hs.words t.syms.length).set 1
        (t.syms.length + 1)).getD 1 0 = t.syms.length + 1 := by
    refine ⟨hnew.set_count _, ?_⟩
    rw [List.getD_eq_getElem?_getD, List.getElem?_set_self]
    · rfl
    · have := hnew.length
      omega
  unfold Elf.addHash
  rw [addSym_syms_length, Nat.add_sub_cancel]
  dsimp only
  rw [hcount']
  have hkept := hadded.1.nbuckets_eq
  split
  · split
    · have hnull : (addSym t d).isHashed 0 = false := by
        rw [isHashed_addSym_lt h.nonempty]
        exact h.null
      have hrebuilt := hashed_rebuildHash hnull
        (by rw [addSym_syms_length]; exact Nat.succ_pos _) (Nat.mul_pos (by decide : 0 < 2) hpos)
      rw [addSym_syms_length] at hrebuilt
      refine ⟨?_, hrebuilt.2⟩
      rw [hrebuilt.1.nbuckets_eq]
      exact hrebuilt.1
    · dsimp only
      rw [hkept]
      exact hadded
  · dsimp only
    rw [hkept]
    exact hadded

theorem putElfSym_nameOf : (putElfSym t d).1.nameOf k = (addSym t d).nameOf k := rfl

theorem putElfSym_isHashed : (putElfSym t d).1.isHashed k = (addSym t d).isHashed k := rfl

theorem putElfSym_syms_length : (putElfSym t d).1.syms.length = t.syms.length + 1 :=
  addSym_syms_length

/-- `put_elf_sym` keeps the invariant. -/
theorem TabInv.put (h : TabInv t) : TabInv (putElfSym t d).1 where
  nonempty := by
    rw [putElfSym_syms_length]
    exact Nat.succ_pos _
  null := by
    rw [putElfSym_isHashed, isHashed_addSym_lt h.nonempty]
    exact h.null
  empty := by
    obtain ⟨tail, htail⟩ := addSym_strtab (t := t) (d := d)
    show (addSym t d).strtab[0]? = some 0
    rw [htail, List.getElem?_append_left, h.empty]
    exact (List.getElem?_eq_some_iff.mp h.empty).1
  names sym hsym := by
    have hmem : sym ∈ (addSym t d).syms := hsym
    obtain ⟨tail, htail⟩ := addSym_strtab (t := t) (d := d)
    show 0 ∈ (addSym t d).strtab.drop sym.stName
    rw [addSym, List.mem_append, List.mem_singleton] at hmem
    rcases hmem with hold | rfl
    · have hend := h.names sym hold
      have hle : sym.stName ≤ t.strtab.length := by
        by_contra hlt
        rw [List.drop_eq_nil_of_le (by omega)] at hend
        exact absurd hend (by simp)
      rw [htail, List.drop_append_of_le_length hle]
      exact List.mem_append_left _ hend
    · unfold addSym
      split_ifs with hempty
      · exact List.mem_of_getElem? h.empty
      · simp [putElfStr]
  hash hs hhash := by
    cases hold : t.hash with
    | none => exact absurd hhash (by simp [putElfSym, hold])
    | some hs' =>
        have hnew := h.addHash (d := d) hold
        obtain rfl : Elf.addHash (addSym t d) hs' = hs := by
          simpa [putElfSym, hold] using hhash
        rw [putElfSym_syms_length]
        exact ⟨hnew.1.congr (fun k _ => rfl) fun k _ => rfl, hnew.2⟩

theorem tabInv_new : TabInv newSymtab where
  nonempty := by decide
  null := by decide
  empty := rfl
  names := by decide
  hash hs hhash := by
    obtain rfl := Option.some.inj hhash
    refine ⟨⟨rfl, by decide, rfl, fun b hb => ?_⟩, rfl⟩
    obtain rfl : b = 0 := Nat.lt_one_iff.mp hb
    exact rfl

end Put

end TccRiscv64.Elf
