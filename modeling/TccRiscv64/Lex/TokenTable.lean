import TccRiscv64.Data.Chain
import TccRiscv64.Lex.Escape

set_option autoImplicit false

/-! # The table of identifiers

`tok_alloc` finds the symbol of a spelling in a hash table, or makes a new one. The symbols of a
bucket are linked by `hash_next`, and `table_ident` has the symbol of each token number. -/

namespace TccRiscv64.Lex

open TccRiscv64.Data

/-! ## Symbols -/

/-- `TOK_IDENT`, `SYM_FIRST_ANOM`, `TOK_ALLOC_INCR` and `TOK_HASH_SIZE`. -/
def tokIdentFirst : Nat := 256
def symFirstAnom : Nat := 0x10000000
def tokAllocIncr : Nat := 512
def tokHashSize : BitVec 32 := 16384#32

structure TokenSym where
  hashNext : Nat
  tok : Nat
  str : List Byte

/-- The symbols by their addresses, where 0 is `NULL`; `table_ident` and the number of pointers that
there is room for; `hash_ident`; and `tok_ident`. -/
structure Tokens where
  heap : Nat → TokenSym
  tableIdent : List Nat
  allocated : Nat
  hashIdent : BitVec 32 → Nat
  tokIdent : Nat

/-- `TOK_HASH_FUNC`. -/
def tokHashFunc (h : BitVec 32) (c : Byte) : BitVec 32 := h + h <<< 5 + h >>> 27 + c.setWidth 32

/-- The loop of `tok_alloc` over the spelling, from `TOK_HASH_INIT` on. -/
def tokHash (str : List Byte) : BitVec 32 := str.foldl tokHashFunc 1#32

/-- `h & (TOK_HASH_SIZE - 1)`. -/
def bucketOf (h : BitVec 32) : BitVec 32 := h &&& (tokHashSize - 1#32)

/-- `pts`: where a pointer to a symbol is. -/
inductive Slot
  | hash (h : BitVec 32)
  | next (ts : Nat)

namespace Tokens

variable (σ : Tokens)

/-- `*pts`. -/
def read : Slot → Nat
  | .hash h => σ.hashIdent h
  | .next ts => (σ.heap ts).hashNext

/-- `*pts = ts`. -/
def write (pts : Slot) (ts : Nat) : Tokens :=
  match pts with
  | .hash h => { σ with hashIdent := Function.update σ.hashIdent h ts }
  | .next ts' =>
    { σ with heap := Function.update σ.heap ts' { σ.heap ts' with hashNext := ts } }

/-- The address of the next symbol. -/
def fresh : Nat := σ.tableIdent.length + 1

/-- The new symbol in `table_ident`, which has room for `allocated` pointers. -/
def add (str : List Byte) (allocated : Nat) : Tokens where
  heap := Function.update σ.heap σ.fresh ⟨0, σ.tokIdent, str⟩
  tableIdent := σ.tableIdent ++ [σ.fresh]
  allocated := allocated
  hashIdent := σ.hashIdent
  tokIdent := σ.tokIdent + 1

/-- `tok_alloc_new`. It is `none` if it writes behind the end of `table_ident`. -/
def tokAllocNew (pts : Slot) (str : List Byte) : Option (Except String (Nat × Tokens)) :=
  if symFirstAnom ≤ σ.tokIdent then some (.error "memory full (symbols)")
  else
    let i := σ.tokIdent - tokIdentFirst
    let allocated := if i % tokAllocIncr = 0 then i + tokAllocIncr else σ.allocated
    if allocated ≤ i then none
    else some (.ok (σ.fresh, (σ.add str allocated).write pts σ.fresh))

/-- The loop over a bucket: the symbol with the spelling, or where a new one belongs. -/
def findLoop (str : List Byte) : Nat → Slot → Option (Nat ⊕ Slot)
  | 0, _ => none
  | fuel + 1, pts =>
    let ts := σ.read pts
    if ts = 0 then some (.inr pts)
    else if (σ.heap ts).str = str then some (.inl ts)
    else findLoop str fuel (.next ts)

/-- The search in the bucket `h`, with a new symbol if there is none. -/
def findOrNew (fuel : Nat) (h : BitVec 32) (str : List Byte) :
    Option (Except String (Nat × Tokens)) :=
  (σ.findLoop str fuel (.hash h)).bind fun found =>
    found.elim (fun ts => some (.ok (ts, σ))) fun pts => σ.tokAllocNew pts str

/-- `tok_alloc`. -/
def tokAlloc (fuel : Nat) (str : List Byte) : Option (Except String (Nat × Tokens)) :=
  σ.findOrNew fuel (bucketOf (tokHash str)) str

/-- `get_tok_str`, for the number of an identifier. -/
def getTokStr (v : Nat) : Option (List Byte) :=
  if tokIdentFirst ≤ v ∧ v < σ.tokIdent then
    σ.tableIdent[v - tokIdentFirst]?.map fun ts => (σ.heap ts).str
  else none

/-- After `tccpp_new` has cleared the table. -/
def empty : Tokens := ⟨fun _ => ⟨0, 0, []⟩, [], 0, fun _ => 0, tokIdentFirst⟩

end Tokens

/-! ## The spellings in their order -/

/-- The spellings with the addresses of their symbols. -/
def numbered (strs : List (List Byte)) : List (List Byte × Nat) := strs.zipIdx 1

/-- The spellings of a bucket. -/
def bucket (strs : List (List Byte)) (h : BitVec 32) : List (List Byte × Nat) :=
  (numbered strs).filter fun p => bucketOf (tokHash p.1) == h

/-- The table holds the spellings, each once and in the order in which they were met: each has the
next address and the next token number, and is in the list of its bucket. -/
structure Tokens.Holds (σ : Tokens) (strs : List (List Byte)) : Prop where
  nodup : strs.Nodup
  syms : ∀ p ∈ numbered strs,
    (σ.heap p.2).str = p.1 ∧ (σ.heap p.2).tok + 1 = tokIdentFirst + p.2
  table : σ.tableIdent = (numbered strs).map Prod.snd
  room : strs.length ≤ σ.allocated ∧ σ.allocated % tokAllocIncr = 0
  tokIdent : σ.tokIdent = tokIdentFirst + strs.length
  buckets : ∀ h, Linked (fun ts => (σ.heap ts).hashNext) (σ.hashIdent h)
    ((bucket strs h).map Prod.snd)

theorem numbered_concat (strs : List (List Byte)) (str : List Byte) :
    numbered (strs ++ [str]) = numbered strs ++ [(str, strs.length + 1)] := by
  rw [numbered, List.zipIdx_append, List.zipIdx_singleton, Nat.add_comm, numbered]

theorem bucket_concat (strs : List (List Byte)) (str : List Byte) (h : BitVec 32) :
    bucket (strs ++ [str]) h = bucket strs h ++
      if bucketOf (tokHash str) = h then [(str, strs.length + 1)] else [] := by
  rw [bucket, numbered_concat, List.filter_append, bucket, List.filter_singleton]
  simp

/-- The address of a spelling is one more than its place. -/
theorem mem_numbered {strs : List (List Byte)} {p : List Byte × Nat} (hp : p ∈ numbered strs) :
    1 ≤ p.2 ∧ p.2 ≤ strs.length ∧ strs[p.2 - 1]? = some p.1 := by
  obtain ⟨h1, h2⟩ := List.mem_zipIdx_iff_le_and_getElem?_sub.1 hp
  have hlt := (List.getElem?_eq_some_iff.1 h2).1
  exact ⟨h1, by omega, h2⟩

theorem mem_numbered_idxOf {strs : List (List Byte)} {str : List Byte} (h : str ∈ strs) :
    (str, strs.idxOf str + 1) ∈ numbered strs := by
  refine List.mem_zipIdx_iff_le_and_getElem?_sub.2 ⟨Nat.le_add_left _ _, ?_⟩
  rw [Nat.add_sub_cancel]
  exact List.getElem?_idxOf h

/-- A spelling has one address. -/
theorem numbered_unique {strs : List (List Byte)} (hnodup : strs.Nodup) {str : List Byte} {k : Nat}
    (hk : (str, k) ∈ numbered strs) : k = strs.idxOf str + 1 := by
  obtain ⟨h1, -, h3⟩ := mem_numbered hk
  obtain ⟨hlt, hstr⟩ := List.getElem?_eq_some_iff.1 h3
  dsimp only at hlt hstr h1
  rw [← hstr, hnodup.idxOf_getElem]
  omega

/-! ## The search -/

/-- Where a pointer behind the symbols of a list is. -/
def lastSlot (pts : Slot) : List Nat → Slot
  | [] => pts
  | ts :: rest => lastSlot (.next ts) rest

section Find

variable {σ : Tokens} {str : List Byte} {L : List (List Byte × Nat)} {pts : Slot} {fuel : Nat}

theorem findLoop_mem (hlinked : Linked (fun ts => (σ.heap ts).hashNext) (σ.read pts)
      (L.map Prod.snd)) (hL : ∀ p ∈ L, (σ.heap p.2).str = p.1) (hmem : str ∈ L.map Prod.fst)
    (hfuel : L.length < fuel) :
    ∃ k, (str, k) ∈ L ∧ σ.findLoop str fuel pts = some (.inl k) := by
  induction L generalizing pts fuel with
  | nil => exact absurd hmem List.not_mem_nil
  | cons p L ih =>
    obtain ⟨hhead, hne, hrest⟩ := hlinked
    cases fuel with
    | zero => exact absurd hfuel (Nat.not_lt_zero _)
    | succ fuel =>
      have hp := hL p List.mem_cons_self
      rw [Tokens.findLoop, hhead, if_neg hne, hp]
      by_cases hstr : p.1 = str
      · subst hstr
        exact ⟨p.2, List.mem_cons_self, if_pos rfl⟩
      · have hmem' : str ∈ L.map Prod.fst := (List.mem_cons.1 hmem).resolve_left (Ne.symm hstr)
        have hfuel' : L.length < fuel := by simpa using hfuel
        have hlinked' : Linked (fun ts => (σ.heap ts).hashNext) (σ.read (.next p.2))
          (L.map Prod.snd) := hrest
        obtain ⟨k, hk, hfind⟩ := ih hlinked' (fun q hq => hL q (List.mem_cons_of_mem _ hq)) hmem'
          hfuel'
        exact ⟨k, List.mem_cons_of_mem _ hk, by rw [if_neg hstr, hfind]⟩

theorem findLoop_not_mem (hlinked : Linked (fun ts => (σ.heap ts).hashNext) (σ.read pts)
      (L.map Prod.snd)) (hL : ∀ p ∈ L, (σ.heap p.2).str = p.1) (hmem : str ∉ L.map Prod.fst)
    (hfuel : L.length < fuel) :
    σ.findLoop str fuel pts = some (.inr (lastSlot pts (L.map Prod.snd))) := by
  induction L generalizing pts fuel with
  | nil =>
    cases fuel with
    | zero => exact absurd hfuel (Nat.not_lt_zero _)
    | succ fuel => exact if_pos hlinked
  | cons p L ih =>
    obtain ⟨hhead, hne, hrest⟩ := hlinked
    cases fuel with
    | zero => exact absurd hfuel (Nat.not_lt_zero _)
    | succ fuel =>
      rw [List.map_cons, List.mem_cons, not_or] at hmem
      obtain ⟨hstr, hmem'⟩ := hmem
      rw [Tokens.findLoop, hhead, if_neg hne, hL p List.mem_cons_self, if_neg (Ne.symm hstr)]
      have hlinked' : Linked (fun ts => (σ.heap ts).hashNext) (σ.read (.next p.2))
        (L.map Prod.snd) := hrest
      exact ih hlinked' (fun q hq => hL q (List.mem_cons_of_mem _ hq)) hmem'
        (by simpa using hfuel)

end Find

section Holds

variable {σ : Tokens} {strs : List (List Byte)} {str : List Byte}

theorem bucket_length_le (strs : List (List Byte)) (h : BitVec 32) :
    (bucket strs h).length ≤ strs.length := by
  refine (List.length_filter_le _ _).trans ?_
  rw [numbered, List.length_zipIdx]

theorem mem_bucket {p : List Byte × Nat} {h : BitVec 32} :
    p ∈ bucket strs h ↔ p ∈ numbered strs ∧ bucketOf (tokHash p.1) = h := by
  rw [bucket, List.mem_filter, beq_iff_eq]

/-- A spelling that was met before is found. -/
theorem Tokens.Holds.find (h : σ.Holds strs) (hmem : str ∈ strs) {fuel : Nat}
    (hfuel : strs.length < fuel) :
    σ.tokAlloc fuel str = some (.ok (strs.idxOf str + 1, σ)) := by
  have hnumbered := mem_numbered_idxOf hmem
  have hbucket : str ∈ (bucket strs (bucketOf (tokHash str))).map Prod.fst :=
    List.mem_map.2 ⟨_, mem_bucket.2 ⟨hnumbered, rfl⟩, rfl⟩
  have hlinked : Linked (fun ts => (σ.heap ts).hashNext)
      (σ.read (.hash (bucketOf (tokHash str))))
      ((bucket strs (bucketOf (tokHash str))).map Prod.snd) := h.buckets _
  obtain ⟨k, hk, hfind⟩ := findLoop_mem hlinked
    (fun p hp => (h.syms p (mem_bucket.1 hp).1).1) hbucket
    ((bucket_length_le strs _).trans_lt hfuel)
  rw [Tokens.tokAlloc, Tokens.findOrNew, hfind, numbered_unique h.nodup (mem_bucket.1 hk).1]
  rfl

/-- For any other spelling the search ends behind the last symbol of its bucket. -/
theorem Tokens.Holds.not_found (h : σ.Holds strs) (hmem : str ∉ strs) {fuel : Nat}
    (hfuel : strs.length < fuel) :
    σ.tokAlloc fuel str = σ.tokAllocNew (lastSlot (.hash (bucketOf (tokHash str)))
      ((bucket strs (bucketOf (tokHash str))).map Prod.snd)) str := by
  have hbucket : str ∉ (bucket strs (bucketOf (tokHash str))).map Prod.fst := by
    intro hin
    obtain ⟨p, hp, rfl⟩ := List.mem_map.1 hin
    obtain ⟨-, -, hget⟩ := mem_numbered (mem_bucket.1 hp).1
    exact hmem (List.mem_of_getElem? hget)
  rw [Tokens.tokAlloc, Tokens.findOrNew, findLoop_not_mem (h.buckets _)
    (fun p hp => (h.syms p (mem_bucket.1 hp).1).1) hbucket
    ((bucket_length_le strs _).trans_lt hfuel)]
  rfl

end Holds

/-! ## A new symbol -/

section New

variable {σ : Tokens} {strs : List (List Byte)}

theorem lastSlot_concat (pts : Slot) (list : List Nat) (last : Nat) :
    lastSlot pts (list ++ [last]) = .next last := by
  induction list generalizing pts with
  | nil => rfl
  | cons k list ih => exact ih (.next k)

/-- A symbol that no list has yet is put behind the last one of its bucket. -/
theorem linked_write {h : BitVec 32} {list : List Nat} {ts : Nat} (hts : ts ≠ 0)
    (hnew : (σ.heap ts).hashNext = 0) (hnot : ts ∉ list) (hnodup : list.Nodup)
    (hlinked : Linked (fun k => (σ.heap k).hashNext) (σ.hashIdent h) list) :
    Linked (fun k => ((σ.write (lastSlot (.hash h) list) ts).heap k).hashNext)
      ((σ.write (lastSlot (.hash h) list) ts).hashIdent h) (list ++ [ts]) := by
  rcases List.eq_nil_or_concat' list with rfl | ⟨list, last, rfl⟩
  · exact ⟨Function.update_self _ _ _, hts, hnew⟩
  · rw [List.mem_append, List.mem_singleton, not_or] at hnot
    rw [lastSlot_concat, List.append_assoc]
    have hlast : Linked (fun k => ((σ.write (.next last) ts).heap k).hashNext) ts [ts] := by
      refine ⟨rfl, hts, ?_⟩
      have hupdate : (σ.write (.next last) ts).heap ts = σ.heap ts :=
        Function.update_of_ne hnot.2 _ _
      exact (congrArg TokenSym.hashNext hupdate).trans hnew
    refine hlinked.append hlast (fun k hk => ?_) ?_
    · have hne : k ≠ last := by
        rintro rfl
        exact (List.nodup_append.1 hnodup).2.2 k hk k List.mem_cons_self rfl
      have hupdate : (σ.write (.next last) ts).heap k = σ.heap k := Function.update_of_ne hne _ _
      exact congrArg TokenSym.hashNext hupdate
    · have hupdate : (σ.write (.next last) ts).heap last = { σ.heap last with hashNext := ts } :=
        Function.update_self _ _ _
      exact congrArg TokenSym.hashNext hupdate

/-- The other lists stay. -/
theorem linked_write_other {h h' : BitVec 32} {list list' : List Nat} {ts : Nat} (hne : h' ≠ h)
    (hdisjoint : ∀ k ∈ list', k ∉ list)
    (hlinked : Linked (fun k => (σ.heap k).hashNext) (σ.hashIdent h') list') :
    Linked (fun k => ((σ.write (lastSlot (.hash h) list) ts).heap k).hashNext)
      ((σ.write (lastSlot (.hash h) list) ts).hashIdent h') list' := by
  rcases List.eq_nil_or_concat' list with rfl | ⟨list, last, rfl⟩
  · have hhead : (σ.write (lastSlot (.hash h) []) ts).hashIdent h' = σ.hashIdent h' :=
      Function.update_of_ne hne _ _
    rw [hhead]
    exact hlinked
  · rw [lastSlot_concat]
    refine hlinked.congr fun k hk => ?_
    have hlast : k ≠ last := by
      rintro rfl
      exact hdisjoint k hk (List.mem_append_right _ List.mem_cons_self)
    have hupdate : (σ.write (.next last) ts).heap k = σ.heap k := Function.update_of_ne hlast _ _
    exact congrArg TokenSym.hashNext hupdate

/-- Writing a pointer leaves spellings and numbers as they are. -/
theorem write_sym (pts : Slot) (ts k : Nat) :
    ((σ.write pts ts).heap k).str = (σ.heap k).str ∧
      ((σ.write pts ts).heap k).tok = (σ.heap k).tok := by
  cases pts with
  | hash h => exact ⟨rfl, rfl⟩
  | next ts' =>
    by_cases hk : k = ts'
    · subst hk
      have hupdate : (σ.write (.next k) ts).heap k = { σ.heap k with hashNext := ts } :=
        Function.update_self _ _ _
      rw [hupdate]
      exact ⟨rfl, rfl⟩
    · have hupdate : (σ.write (.next ts') ts).heap k = σ.heap k := Function.update_of_ne hk _ _
      rw [hupdate]
      exact ⟨rfl, rfl⟩

theorem write_rest (pts : Slot) (ts : Nat) : (σ.write pts ts).tableIdent = σ.tableIdent ∧
    (σ.write pts ts).allocated = σ.allocated ∧ (σ.write pts ts).tokIdent = σ.tokIdent := by
  cases pts <;> exact ⟨rfl, rfl, rfl⟩

theorem Tokens.Holds.fresh_eq (h : σ.Holds strs) : σ.fresh = strs.length + 1 := by
  rw [Tokens.fresh, h.table, List.length_map, numbered, List.length_zipIdx]

/-- The symbols that are there are not the new one. -/
theorem Tokens.Holds.ne_fresh (h : σ.Holds strs) {p : List Byte × Nat} (hp : p ∈ numbered strs) :
    p.2 ≠ σ.fresh := by
  obtain ⟨-, hle, -⟩ := mem_numbered hp
  rw [h.fresh_eq]
  omega

theorem heap_add_self (str : List Byte) (allocated : Nat) :
    (σ.add str allocated).heap σ.fresh = ⟨0, σ.tokIdent, str⟩ :=
  Function.update_self _ _ _

theorem heap_add_of_ne {k : Nat} (hk : k ≠ σ.fresh) (str : List Byte) (allocated : Nat) :
    (σ.add str allocated).heap k = σ.heap k :=
  Function.update_of_ne hk _ _

theorem numbered_nodup (strs : List (List Byte)) : ((numbered strs).map Prod.snd).Nodup := by
  rw [numbered, List.zipIdx_map_snd]
  exact List.nodup_range'

/-- The table with the new symbol behind those of its bucket. -/
theorem Tokens.Holds.add (h : σ.Holds strs) {str : List Byte} (hmem : str ∉ strs)
    {allocated : Nat} (hroom : strs.length + 1 ≤ allocated ∧ allocated % tokAllocIncr = 0) :
    ((σ.add str allocated).write (lastSlot (.hash (bucketOf (tokHash str)))
      ((bucket strs (bucketOf (tokHash str))).map Prod.snd)) σ.fresh).Holds (strs ++ [str]) := by
  generalize hh : bucketOf (tokHash str) = h0
  have hne (h' : BitVec 32) : ∀ k ∈ (bucket strs h').map Prod.snd, k ≠ σ.fresh := by
    intro k hk
    obtain ⟨p, hp, rfl⟩ := List.mem_map.1 hk
    exact h.ne_fresh (mem_bucket.1 hp).1
  have hlinked (h' : BitVec 32) : Linked (fun k => ((σ.add str allocated).heap k).hashNext)
      ((σ.add str allocated).hashIdent h') ((bucket strs h').map Prod.snd) :=
    (h.buckets h').congr fun k hk => by rw [heap_add_of_ne (hne h' k hk)]
  obtain ⟨htable, halloc, htok⟩ := @write_rest (σ.add str allocated)
    (lastSlot (.hash h0) ((bucket strs h0).map Prod.snd)) σ.fresh
  refine ⟨?_, fun p hp => ?_, ?_, ?_, ?_, fun h' => ?_⟩
  · exact List.nodup_append.2 ⟨h.nodup, List.nodup_singleton _, fun a ha b hb hab =>
      hmem (List.mem_singleton.1 hb ▸ hab ▸ ha)⟩
  · rw [(write_sym _ _ _).1, (write_sym _ _ _).2]
    rw [numbered_concat, List.mem_append, List.mem_singleton] at hp
    rcases hp with hp | rfl
    · rw [heap_add_of_ne (h.ne_fresh hp)]
      exact h.syms p hp
    · rw [← h.fresh_eq, heap_add_self, h.tokIdent, h.fresh_eq]
      exact ⟨rfl, rfl⟩
  · rw [htable, numbered_concat, List.map_append, ← h.table, ← h.fresh_eq]
    rfl
  · rw [halloc, List.length_append, List.length_singleton]
    exact hroom
  · rw [htok, List.length_append, List.length_singleton, ← Nat.add_assoc, ← h.tokIdent]
    rfl
  · rw [bucket_concat, List.map_append, hh]
    by_cases heq : h0 = h'
    · subst heq
      rw [if_pos rfl, List.map_singleton, ← h.fresh_eq]
      refine linked_write (Nat.succ_ne_zero _) (by rw [heap_add_self]) (fun hin => hne h0 _ hin rfl)
        ?_ (hlinked h0)
      exact (numbered_nodup strs).sublist (List.filter_sublist.map _)
    · rw [if_neg heq, List.map_nil, List.append_nil]
      refine linked_write_other (Ne.symm heq) (fun k hk hk' => ?_) (hlinked h')
      obtain ⟨p, hp, rfl⟩ := List.mem_map.1 hk
      obtain ⟨q, hq, hpq⟩ := List.mem_map.1 hk'
      obtain ⟨hp, hp'⟩ := mem_bucket.1 hp
      obtain ⟨hq, hq'⟩ := mem_bucket.1 hq
      have hgetp := (mem_numbered hp).2.2
      have hgetq := (mem_numbered hq).2.2
      rw [hpq, hgetp] at hgetq
      exact heq (by rw [← hq', ← hp', Option.some.inj hgetq])

/-- A new spelling gets the next number, if there is one left. -/
theorem Tokens.Holds.new (h : σ.Holds strs) {str : List Byte} (hmem : str ∉ strs) {fuel : Nat}
    (hfuel : strs.length < fuel) :
    if symFirstAnom ≤ tokIdentFirst + strs.length then
      σ.tokAlloc fuel str = some (.error "memory full (symbols)")
    else ∃ σ', σ.tokAlloc fuel str = some (.ok (strs.length + 1, σ')) ∧
      σ'.Holds (strs ++ [str]) := by
  rw [h.not_found hmem hfuel, Tokens.tokAllocNew, h.tokIdent]
  split
  · rfl
  · have hindex : tokIdentFirst + strs.length - tokIdentFirst = strs.length :=
      Nat.add_sub_cancel_left _ _
    obtain ⟨hle, hincr⟩ := h.room
    dsimp only
    rw [hindex]
    generalize hallocated : (if strs.length % tokAllocIncr = 0 then strs.length + tokAllocIncr
      else σ.allocated) = allocated
    have hroom : strs.length + 1 ≤ allocated ∧ allocated % tokAllocIncr = 0 := by
      rw [← hallocated]
      unfold tokAllocIncr at hincr ⊢
      split <;> omega
    refine ⟨_, ?_, h.add hmem hroom⟩
    rw [if_neg (by omega), h.fresh_eq]

end New

/-- The number of a spelling. -/
def identNumber (strs : List (List Byte)) (str : List Byte) : Nat := tokIdentFirst + strs.idxOf str

/-- `get_tok_str` of the number of a spelling is the spelling. -/
theorem Tokens.Holds.getTokStr {σ : Tokens} {strs : List (List Byte)} (h : σ.Holds strs)
    {str : List Byte} (hmem : str ∈ strs) : σ.getTokStr (identNumber strs str) = some str := by
  have hlt : strs.idxOf str < strs.length := List.idxOf_lt_length_iff.2 hmem
  have hget : ((numbered strs).map Prod.snd)[strs.idxOf str]? = some (strs.idxOf str + 1) := by
    rw [numbered, List.zipIdx_map_snd, List.getElem?_range' hlt, Nat.one_mul, Nat.add_comm]
  have hrange : tokIdentFirst ≤ identNumber strs str ∧ identNumber strs str < σ.tokIdent := by
    rw [h.tokIdent, identNumber]
    omega
  rw [Tokens.getTokStr, if_pos hrange, identNumber, Nat.add_sub_cancel_left, h.table, hget,
    Option.map_some, (h.syms _ (mem_numbered_idxOf hmem)).1]

/-- The symbol of a spelling has its number. -/
theorem Tokens.Holds.tok_eq {σ : Tokens} {strs : List (List Byte)} (h : σ.Holds strs)
    {str : List Byte} (hmem : str ∈ strs) :
    (σ.heap (strs.idxOf str + 1)).tok = identNumber strs str := by
  have htok := (h.syms _ (mem_numbered_idxOf hmem)).2
  rw [identNumber]
  dsimp only at htok
  omega

theorem Tokens.empty_holds : Tokens.empty.Holds [] :=
  ⟨List.nodup_nil, by simp [numbered], rfl, ⟨le_rfl, rfl⟩, rfl, fun _ => rfl⟩

/-! ## Computations that end -/

/-- The computation ends, with an error of one kind or a result of another. -/
inductive Ends {α : Type} (bad : String → Prop) (good : α → Prop) :
    Option (Except String α) → Prop
  | error (e : String) (he : bad e) : Ends bad good (some (.error e))
  | ok (a : α) (ha : good a) : Ends bad good (some (.ok a))

/-- One computation, and another if it succeeds. -/
def andThen {α β : Type} (x : Option (Except String α)) (f : α → Option (Except String β)) :
    Option (Except String β) :=
  match x with
  | none => none
  | some (.error e) => some (.error e)
  | some (.ok a) => f a

theorem Ends.andThen {α β : Type} {bad bad' : String → Prop} {good : α → Prop} {good' : β → Prop}
    {x : Option (Except String α)} {f : α → Option (Except String β)} (hx : Ends bad good x)
    (hbad : ∀ e, bad e → bad' e) (hf : ∀ a, good a → Ends bad' good' (f a)) :
    Ends bad' good' (andThen x f) := by
  cases hx with
  | error e he => exact .error e (hbad e he)
  | ok a ha => exact hf a ha

theorem Ends.mono {α : Type} {bad bad' : String → Prop} {good good' : α → Prop}
    {x : Option (Except String α)} (hx : Ends bad good x) (hbad : ∀ e, bad e → bad' e)
    (hgood : ∀ a, good a → good' a) : Ends bad' good' x := by
  cases hx with
  | error e he => exact .error e (hbad e he)
  | ok a ha => exact .ok a (hgood a ha)

/-- There is no number left after `n` spellings. -/
def Full (n : Nat) (e : String) : Prop :=
  e = "memory full (symbols)" ∧ symFirstAnom ≤ tokIdentFirst + n

/-- The symbol `ts` is that of the spelling, which is the one new spelling if it is new. -/
def Allocated (strs : List (List Byte)) (str : List Byte) (ts : Nat) (σ : Tokens) : Prop :=
  ∃ new, σ.Holds (strs ++ new) ∧ new.length ≤ 1 ∧ str ∈ strs ++ new ∧
    (σ.heap ts).tok = identNumber (strs ++ new) str

/-- **One spelling.** It has the number it had before, or the next one if it is new. -/
theorem Tokens.Holds.alloc {σ : Tokens} {strs : List (List Byte)} (h : σ.Holds strs)
    (str : List Byte) {fuel : Nat} (hfuel : strs.length < fuel) :
    Ends (Full strs.length) (fun res => Allocated strs str res.1 res.2) (σ.tokAlloc fuel str) := by
  by_cases hmem : str ∈ strs
  · rw [h.find hmem hfuel]
    refine .ok _ ⟨[], ?_⟩
    rw [List.append_nil]
    exact ⟨h, Nat.zero_le _, hmem, h.tok_eq hmem⟩
  · have hnew := h.new hmem hfuel
    split at hnew
    · rw [hnew]
      exact .error _ ⟨rfl, by assumption⟩
    · obtain ⟨σ', halloc, hholds⟩ := hnew
      rw [halloc]
      have hin : str ∈ strs ++ [str] := List.mem_append_right _ List.mem_cons_self
      have htok := hholds.tok_eq hin
      have hidx : (strs ++ [str]).idxOf str = strs.length := by
        rw [List.idxOf_append_of_notMem hmem, List.idxOf_cons_self, Nat.add_zero]
      rw [hidx] at htok
      exact .ok _ ⟨[str], hholds, le_rfl, hin, htok⟩

end TccRiscv64.Lex
