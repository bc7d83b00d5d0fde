import Mathlib

set_option autoImplicit false

/-! # Linked lists in an array

A list of indices that an array of indices holds: each word names the index behind its own, and 0
ends the list. -/

namespace TccRiscv64.Data

/-- The list that starts at an index, where `next k` is the index behind `k`. -/
def Linked (next : Nat → Nat) : Nat → List Nat → Prop
  | head, [] => head = 0
  | head, k :: list => head = k ∧ k ≠ 0 ∧ Linked next (next k) list

/-- The search along the list for an index with a property; it may not come to an end. -/
def findLinked (next : Nat → Nat) (p : Nat → Bool) : Nat → Nat → Option Nat
  | _, 0 => some 0
  | 0, _ + 1 => none
  | fuel + 1, k + 1 => if p (k + 1) then some (k + 1) else findLinked next p fuel (next (k + 1))

variable {next next' : Nat → Nat} {head : Nat} {list : List Nat}

theorem Linked.congr (h : Linked next head list) (hnext : ∀ k ∈ list, next' k = next k) :
    Linked next' head list := by
  induction list generalizing head with
  | nil => exact h
  | cons k list ih =>
      obtain ⟨hhead, hk, hrest⟩ := h
      refine ⟨hhead, hk, ?_⟩
      rw [hnext k List.mem_cons_self]
      exact ih hrest fun k' hk' => hnext k' (List.mem_cons_of_mem k hk')

/-- An index is put in front. -/
theorem Linked.push {k : Nat} (h : Linked next head list) (hk : k ≠ 0) (hnext : next' k = head)
    (hrest : ∀ k' ∈ list, next' k' = next k') : Linked next' k (k :: list) := by
  refine ⟨rfl, hk, ?_⟩
  rw [hnext]
  exact h.congr hrest

/-- One chain behind another. -/
theorem Linked.append {head' last : Nat} {list' : List Nat}
    (h : Linked next head (list ++ [last])) (h' : Linked next' head' list')
    (hnext : ∀ k ∈ list, next' k = next k) (hlast : next' last = head') :
    Linked next' head (list ++ last :: list') := by
  induction list generalizing head with
  | nil =>
    obtain ⟨hhead, hne, -⟩ := h
    exact ⟨hhead, hne, hlast ▸ h'⟩
  | cons k list ih =>
    obtain ⟨hhead, hne, hrest⟩ := h
    refine ⟨hhead, hne, ?_⟩
    rw [hnext k List.mem_cons_self]
    exact ih hrest fun k hk => hnext k (List.mem_cons_of_mem _ hk)

/-- The search ends, at the first index of the list that has the property. -/
theorem Linked.find {p : Nat → Bool} {fuel : Nat} (h : Linked next head list)
    (hfuel : list.length ≤ fuel) :
    findLinked next p fuel head = some ((list.find? p).getD 0) := by
  induction list generalizing head fuel with
  | nil =>
      obtain rfl : head = 0 := h
      cases fuel <;> rfl
  | cons k list ih =>
      obtain ⟨rfl, hk, hrest⟩ := h
      obtain ⟨k, rfl⟩ := Nat.exists_eq_succ_of_ne_zero hk
      cases fuel with
      | zero => exact absurd hfuel (by simp)
      | succ fuel =>
          rw [findLinked, List.find?_cons]
          cases hp : p (k + 1) with
          | true => rfl
          | false => exact ih hrest (Nat.le_of_succ_le_succ hfuel)

/-! ## From the first to the last -/

/-- The list that goes from its head to `last`, where `next k` is the index behind `k`. -/
def Follows (next : Nat → Nat) (last : Nat) : List Nat → Prop
  | [] => True
  | [k] => k = last
  | k :: k' :: list => k ≠ last ∧ next k = k' ∧ Follows next last (k' :: list)

theorem Follows.congr {last : Nat} (h : Follows next last list)
    (hnext : ∀ k ∈ list, k ≠ last → next' k = next k) : Follows next' last list := by
  induction list with
  | nil => trivial
  | cons k list ih =>
      cases list with
      | nil => exact h
      | cons k' list =>
          obtain ⟨hk, hk', hrest⟩ := h
          refine ⟨hk, (hnext k List.mem_cons_self hk).trans hk', ih hrest ?_⟩
          exact fun k hk => hnext k (List.mem_cons_of_mem _ hk)

/-- An index is put behind the last one. -/
theorem Follows.concat {last k : Nat} (h : Follows next last list) (hne : list ≠ [])
    (hk : k ∉ list) (hlast : next' last = k)
    (hnext : ∀ k' ∈ list, k' ≠ last → next' k' = next k') : Follows next' k (list ++ [k]) := by
  induction list with
  | nil => exact absurd rfl hne
  | cons a list ih =>
      have hak : a ≠ k := fun heq => hk (heq ▸ List.mem_cons_self)
      cases list with
      | nil =>
          obtain rfl : a = last := h
          exact ⟨hak, hlast, rfl⟩
      | cons b list =>
          obtain ⟨ha, hb, hrest⟩ := h
          refine ⟨hak, (hnext a List.mem_cons_self ha).trans hb, ih hrest (List.cons_ne_nil b list) ?_ ?_⟩
          · exact fun hmem => hk (List.mem_cons_of_mem a hmem)
          · exact fun k' hk' => hnext k' (List.mem_cons_of_mem a hk')

end TccRiscv64.Data
