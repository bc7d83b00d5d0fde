import Mathlib

set_option autoImplicit false

/-! # Copying a table in another order

The entries of a table are copied one by one behind each other, and the new number of each entry is
kept. If every entry is copied once, the numbers are a permutation that says where an entry is. -/

namespace TccRiscv64.Data

/-- The new table as far as it is copied, and the new numbers of the old entries. -/
structure Copied (α : Type) where
  new : List α
  oldToNew : List Nat

variable {α : Type}

/-- An entry, with its old number, is copied behind the others. -/
def Copied.copy (st : Copied α) (e : α × Nat) : Copied α :=
  ⟨st.new ++ [e.1], st.oldToNew.set e.2 st.new.length⟩

/-- Entries are copied in turn. -/
def Copied.copies (st : Copied α) (es : List (α × Nat)) : Copied α := es.foldl Copied.copy st

/-- A pass over a table copies the entries with a property. -/
def Copied.pass (st : Copied α) (p : α → Bool) (entries : List α) : Copied α :=
  entries.zipIdx.foldl (fun st e => if p e.1 then st.copy e else st) st

/-- Entries move to their new numbers. -/
def permute (oldToNew : List Nat) (old : List α) : List α :=
  (old.zip oldToNew).foldl (fun new p => new.set p.2 p.1) old

/-- The new table has every entry of the old one, at the number that it has got. -/
structure Reordered (old new : List α) (oldToNew : List Nat) : Prop where
  numbers : oldToNew.Perm (List.range old.length)
  length : new.length = old.length
  entry : ∀ (i : Nat) (x : α), old[i]? = some x →
    ∃ k, oldToNew[i]? = some k ∧ new[k]? = some x

theorem Copied.pass_eq (st : Copied α) (p : α → Bool) (entries : List α) :
    st.pass p entries = st.copies (entries.zipIdx.filter fun e => p e.1) := by
  unfold Copied.pass Copied.copies
  rw [List.foldl_filter]

theorem Copied.copies_append (st : Copied α) (es es' : List (α × Nat)) :
    st.copies (es ++ es') = (st.copies es).copies es' := List.foldl_append

theorem Copied.copies_new (st : Copied α) (es : List (α × Nat)) :
    (st.copies es).new = st.new ++ es.map Prod.fst := by
  induction es generalizing st with
  | nil => exact (List.append_nil _).symm
  | cons e es ih =>
      show ((st.copy e).copies es).new = _
      rw [ih]
      simp [Copied.copy]

theorem filter_zipIdx_map_fst (p : α → Bool) (l : List α) (n : Nat) :
    ((l.zipIdx n).filter fun e => p e.1).map Prod.fst = l.filter p := by
  induction l generalizing n with
  | nil => rfl
  | cons x l ih =>
      rw [List.zipIdx_cons]
      by_cases hx : p x = true
      · rw [List.filter_cons_of_pos (by exact hx), List.filter_cons_of_pos hx, List.map_cons, ih]
      · rw [List.filter_cons_of_neg (by exact hx), List.filter_cons_of_neg hx, ih]

/-- A pass copies the entries in the order that they have. -/
theorem Copied.pass_new (st : Copied α) (p : α → Bool) (entries : List α) :
    (st.pass p entries).new = st.new ++ entries.filter p := by
  rw [Copied.pass_eq, Copied.copies_new, filter_zipIdx_map_fst]

theorem Copied.copies_length (st : Copied α) (es : List (α × Nat)) :
    (st.copies es).oldToNew.length = st.oldToNew.length := by
  induction es generalizing st with
  | nil => rfl
  | cons e es ih =>
      show ((st.copy e).copies es).oldToNew.length = _
      rw [ih]
      exact List.length_set

theorem Copied.copies_other (st : Copied α) {es : List (α × Nat)} {i : Nat}
    (h : i ∉ es.map Prod.snd) : (st.copies es).oldToNew[i]? = st.oldToNew[i]? := by
  induction es generalizing st with
  | nil => rfl
  | cons e es ih =>
      rw [List.map_cons, List.mem_cons, not_or] at h
      show ((st.copy e).copies es).oldToNew[i]? = _
      rw [ih _ h.2]
      exact List.getElem?_set_ne (Ne.symm h.1)

/-- What is copied gets the numbers behind those before, in turn. -/
theorem Copied.copies_number (st : Copied α) {pre post : List (α × Nat)} {e : α × Nat}
    (hnodup : ((pre ++ e :: post).map Prod.snd).Nodup) (hlt : e.2 < st.oldToNew.length) :
    (st.copies (pre ++ e :: post)).oldToNew[e.2]? = some (st.new.length + pre.length) := by
  rw [List.map_append, List.map_cons] at hnodup
  have hpost : e.2 ∉ post.map Prod.snd :=
    (List.nodup_cons.mp (List.nodup_append.mp hnodup).2.1).1
  rw [Copied.copies_append]
  show (((st.copies pre).copy e).copies post).oldToNew[e.2]? = _
  rw [Copied.copies_other _ hpost]
  show ((st.copies pre).oldToNew.set e.2 (st.copies pre).new.length)[e.2]? = _
  rw [List.getElem?_set_self (by rwa [Copied.copies_length]), Copied.copies_new]
  simp

/-- If every entry of a table is copied once, the table is reordered. -/
theorem reordered_copies {old : List α} {es : List (α × Nat)} (h : es.Perm old.zipIdx) :
    Reordered old (Copied.copies ⟨[], List.replicate old.length 0⟩ es).new
      (Copied.copies ⟨[], List.replicate old.length 0⟩ es).oldToNew := by
  have hsnd : (es.map Prod.snd).Perm (List.range old.length) := by
    have := h.map Prod.snd
    rwa [List.zipIdx_map_snd, ← List.range_eq_range'] at this
  have hnodup : (es.map Prod.snd).Nodup := hsnd.nodup_iff.mpr List.nodup_range
  have hentry : ∀ (i : Nat) (x : α), old[i]? = some x →
      ∃ k, k < es.length ∧
        (Copied.copies ⟨[], List.replicate old.length 0⟩ es).oldToNew[i]? = some k ∧
        es[k]? = some (x, i) := by
    intro i x hx
    have hmem : (x, i) ∈ es := h.mem_iff.mpr (List.mk_mem_zipIdx_iff_getElem?.mpr hx)
    obtain ⟨pre, post, rfl⟩ := List.append_of_mem hmem
    have hlt : i < old.length := (List.getElem?_eq_some_iff.mp hx).1
    have hnumber := Copied.copies_number ⟨[], List.replicate old.length 0⟩ hnodup
      (e := (x, i)) (by rwa [List.length_replicate])
    refine ⟨pre.length, by simp, ?_, by simp⟩
    rw [hnumber]
    simp
  have hlen : (Copied.copies ⟨[], List.replicate old.length 0⟩ es).oldToNew.length =
      old.length := by
    rw [Copied.copies_length, List.length_replicate]
  have hesLen : es.length = old.length := by
    rw [h.length_eq, List.length_zipIdx]
  refine ⟨?_, ?_, fun i x hx => ?_⟩
  · -- The numbers are different and below the length.
    generalize hto : (Copied.copies ⟨[], List.replicate old.length 0⟩ es).oldToNew = oldToNew
      at hentry hlen
    have hget : ∀ i, i < old.length → ∃ k, k < es.length ∧ oldToNew[i]? = some k ∧
        ∃ x, es[k]? = some (x, i) := by
      intro i hi
      obtain ⟨k, hk, hnum, he⟩ := hentry i old[i] (List.getElem?_eq_getElem hi)
      exact ⟨k, hk, hnum, _, he⟩
    have hnodupTo : oldToNew.Nodup := by
      refine List.nodup_iff_getElem?_ne_getElem?.mpr fun i j hij hj heq => ?_
      obtain ⟨k, hk, hnum, x, he⟩ := hget i (by omega)
      obtain ⟨k', hk', hnum', x', he'⟩ := hget j (by omega)
      rw [hnum, hnum'] at heq
      obtain rfl := Option.some.inj heq
      rw [he] at he'
      have := congrArg Prod.snd (Option.some.inj he')
      simp at this
      omega
    refine (List.subperm_of_subset hnodupTo fun k hk => ?_).perm_of_length_le ?_
    · obtain ⟨i, hi⟩ := List.mem_iff_getElem?.mp hk
      obtain ⟨k', hk', hnum, -⟩ := hget i (by
        rw [← hlen]
        exact (List.getElem?_eq_some_iff.mp hi).1)
      rw [hi] at hnum
      obtain rfl := Option.some.inj hnum
      exact List.mem_range.mpr (by omega)
    · rw [List.length_range, hlen]
  · rw [Copied.copies_new, List.nil_append, List.length_map, hesLen]
  · obtain ⟨k, -, hnum, he⟩ := hentry i x hx
    refine ⟨k, hnum, ?_⟩
    rw [Copied.copies_new, List.nil_append, List.getElem?_map, he]
    rfl

/-- Every number is the new number of an old entry. -/
theorem Reordered.back {old new : List α} {oldToNew : List Nat} (h : Reordered old new oldToNew)
    {k : Nat} (hk : k < new.length) : ∃ i : Nat, oldToNew[i]? = some k ∧ new[k]? = old[i]? := by
  rw [h.length] at hk
  obtain ⟨i, hi⟩ := List.mem_iff_getElem?.mp (h.numbers.mem_iff.mpr (List.mem_range.mpr hk))
  have hlt := (List.getElem?_eq_some_iff.mp hi).1
  rw [h.numbers.length_eq, List.length_range] at hlt
  obtain ⟨k', hk', hnew⟩ := h.entry i old[i] (List.getElem?_eq_getElem hlt)
  obtain rfl := Option.some.inj (hi.symm.trans hk')
  exact ⟨i, hi, hnew.trans (List.getElem?_eq_getElem hlt).symm⟩

/-- Another table moves to the same numbers. -/
theorem getElem?_permute {old : List α} {oldToNew : List Nat}
    (h : oldToNew.Perm (List.range old.length)) {i k : Nat} {x : α} (hx : old[i]? = some x)
    (hk : oldToNew[i]? = some k) : (permute oldToNew old)[k]? = some x := by
  have hlen : oldToNew.length = old.length := by rw [h.length_eq, List.length_range]
  have hnodup : oldToNew.Nodup := h.nodup_iff.mpr List.nodup_range
  have hlt : ∀ k ∈ oldToNew, k < old.length := fun k hk => List.mem_range.mp (h.mem_iff.mp hk)
  -- The pairs before the one of `k` do not matter, and those behind it leave `k` alone.
  have hfold : ∀ (pairs : List (α × Nat)) (new : List α), (∀ p ∈ pairs, p.2 ≠ k) →
      (pairs.foldl (fun new p => new.set p.2 p.1) new)[k]? = new[k]? := by
    intro pairs
    induction pairs with
    | nil => exact fun new _ => rfl
    | cons p pairs ih =>
        intro new hne
        rw [List.foldl_cons, ih _ fun p' hp' => hne p' (List.mem_cons_of_mem p hp')]
        exact List.getElem?_set_ne (hne p List.mem_cons_self)
  have hlength : ∀ (pairs : List (α × Nat)) (new : List α),
      (pairs.foldl (fun new p => new.set p.2 p.1) new).length = new.length := by
    intro pairs
    induction pairs with
    | nil => exact fun new => rfl
    | cons p pairs ih =>
        intro new
        rw [List.foldl_cons, ih, List.length_set]
  have hmem : (x, k) ∈ old.zip oldToNew := by
    refine List.mem_iff_getElem?.mpr ⟨i, ?_⟩
    rw [List.getElem?_zip_eq_some]
    exact ⟨hx, hk⟩
  obtain ⟨pre, post, hsplit⟩ := List.append_of_mem hmem
  have hsnd : (old.zip oldToNew).map Prod.snd = oldToNew :=
    List.map_snd_zip (by omega)
  have hpost : ∀ p ∈ post, p.2 ≠ k := by
    intro p hp heq
    rw [← hsnd, hsplit, List.map_append, List.map_cons] at hnodup
    have := (List.nodup_cons.mp (List.nodup_append.mp hnodup).2.1).1
    have hmem' := List.mem_map_of_mem (f := Prod.snd) hp
    rw [heq] at hmem'
    exact this hmem'
  unfold permute
  rw [hsplit, List.foldl_append, List.foldl_cons, hfold post _ hpost,
    List.getElem?_set_self (by rw [hlength]; exact hlt k (List.mem_of_getElem? hk))]

/-! ## Blocks behind each other -/

section Blocks

variable {f : Nat → List α}

theorem flatMap_range_succ (f : Nat → List α) (m : Nat) :
    (List.range (m + 1)).flatMap f = (List.range m).flatMap f ++ f m := by
  rw [List.range_succ, List.flatMap_append, List.flatMap_singleton]

/-- Where an entry of a block is among all the blocks. -/
theorem getElem?_flatMap_range {m b j : Nat} (hb : b < m) (hj : j < (f b).length) :
    ((List.range m).flatMap f)[((List.range b).flatMap f).length + j]? = (f b)[j]? := by
  induction m with
  | zero => exact absurd hb (Nat.not_lt_zero b)
  | succ m ih =>
      rw [flatMap_range_succ]
      rcases Nat.lt_succ_iff_lt_or_eq.mp hb with hlt | rfl
      · rw [List.getElem?_append_left, ih hlt]
        have := ih hlt
        rw [List.getElem?_eq_getElem hj] at this
        exact (List.getElem?_eq_some_iff.mp this).1
      · rw [List.getElem?_append_right (Nat.le_add_right _ _), Nat.add_sub_cancel_left]

/-- Every entry of the blocks is in one of them. -/
theorem exists_flatMap_range {m q : Nat} (hq : q < ((List.range m).flatMap f).length) :
    ∃ b < m, ∃ j < (f b).length, q = ((List.range b).flatMap f).length + j := by
  induction m with
  | zero => exact absurd hq (Nat.not_lt_zero q)
  | succ m ih =>
      rw [flatMap_range_succ, List.length_append] at hq
      by_cases hlt : q < ((List.range m).flatMap f).length
      · obtain ⟨b, hb, j, hj, rfl⟩ := ih hlt
        exact ⟨b, Nat.lt_succ_of_lt hb, j, hj, rfl⟩
      · exact ⟨m, Nat.lt_succ_self m, q - ((List.range m).flatMap f).length, by omega, by omega⟩

end Blocks

end TccRiscv64.Data
