import Mathlib

set_option autoImplicit false

/-! # Placing items one behind the other

Each item goes to the first multiple of its alignment behind the item before. How much room a list
of items takes depends on where it starts; `worst` is the most that it can take when only the
remainder of the start modulo an alignment is known. -/

namespace TccRiscv64.Data

/-- The first multiple of `a` from `x` on. -/
def alignUp (x a : Nat) : Nat := x + (a - x % a) % a

theorem le_alignUp (x a : Nat) : x ≤ alignUp x a := Nat.le_add_right _ _

theorem alignUp_lt (x : Nat) {a : Nat} (ha : 0 < a) : alignUp x a < x + a :=
  Nat.add_lt_add_left (Nat.mod_lt _ ha) x

theorem dvd_alignUp (x : Nat) {a : Nat} (ha : 0 < a) : a ∣ alignUp x a := by
  have hlt := Nat.mod_lt x ha
  have hsplit := Nat.div_add_mod x a
  unfold alignUp
  by_cases hr : x % a = 0
  · rw [hr, Nat.sub_zero, Nat.mod_self]
    exact Nat.dvd_of_mod_eq_zero hr
  · rw [Nat.mod_eq_of_lt (by omega)]
    exact ⟨x / a + 1, by rw [Nat.mul_add, Nat.mul_one]; omega⟩

theorem alignUp_of_dvd {x a : Nat} (h : a ∣ x) : alignUp x a = x := by
  unfold alignUp
  rw [Nat.mod_eq_zero_of_dvd h, Nat.sub_zero, Nat.mod_self, Nat.add_zero]

/-- Between two multiples of `a` there are at least `a` places. -/
theorem le_of_dvd_of_lt_add {x y a : Nat} (hx : a ∣ x) (hy : a ∣ y) (h : x < y + a) : x ≤ y := by
  obtain ⟨q, rfl⟩ := hx
  obtain ⟨q', rfl⟩ := hy
  rw [← Nat.mul_succ] at h
  exact Nat.mul_le_mul_left a (Nat.lt_succ_iff.mp (Nat.lt_of_mul_lt_mul_left h))

theorem alignUp_le {x y a : Nat} (ha : 0 < a) (hxy : x ≤ y) (hy : a ∣ y) : alignUp x a ≤ y :=
  le_of_dvd_of_lt_add (dvd_alignUp x ha) hy
    ((alignUp_lt x ha).trans_le (Nat.add_le_add_right hxy a))

theorem alignUp_mono {x y a : Nat} (ha : 0 < a) (h : x ≤ y) : alignUp x a ≤ alignUp y a :=
  alignUp_le ha (h.trans (le_alignUp y a)) (dvd_alignUp y ha)

theorem alignUp_add {k a : Nat} (h : a ∣ k) (x : Nat) : alignUp (k + x) a = k + alignUp x a := by
  obtain ⟨q, rfl⟩ := h
  unfold alignUp
  rw [Nat.mul_add_mod, Nat.add_assoc]

theorem alignUp_add_eq {x t a : Nat} (ht : t < a) (h : a ∣ x + t) : alignUp x a = x + t := by
  have ha : 0 < a := Nat.zero_lt_of_lt ht
  refine Nat.le_antisymm (alignUp_le ha (Nat.le_add_right x t) h)
    (le_of_dvd_of_lt_add h (dvd_alignUp x ha) ?_)
  have := le_alignUp x a
  omega

/-- What is placed; the alignment is a power of two. -/
structure Item where
  align : Nat
  size : Nat
  pow : ∃ k, align = 2 ^ k

theorem Item.pos (it : Item) : 0 < it.align := by
  obtain ⟨k, hk⟩ := it.pow
  exact hk ▸ Nat.two_pow_pos k

/-- The items with the places that they get behind `x`. -/
def placed : Nat → List Item → List (Nat × Item)
  | _, [] => []
  | x, it :: items => (alignUp x it.align, it) :: placed (alignUp x it.align + it.size) items

/-- The end of the last item that is placed behind `x`. -/
def finish : Nat → List Item → Nat
  | x, [] => x
  | x, it :: items => finish (alignUp x it.align + it.size) items

section Placed

theorem le_finish (x : Nat) (items : List Item) : x ≤ finish x items := by
  induction items generalizing x with
  | nil => exact Nat.le_refl x
  | cons it items ih => exact (le_alignUp x _).trans ((Nat.le_add_right _ _).trans (ih _))

theorem finish_mono {x y : Nat} (h : x ≤ y) (items : List Item) :
    finish x items ≤ finish y items := by
  induction items generalizing x y with
  | nil => exact h
  | cons it items ih => exact ih (Nat.add_le_add_right (alignUp_mono it.pos h) it.size)

theorem finish_append (x : Nat) (items items' : List Item) :
    finish x (items ++ items') = finish (finish x items) items' := by
  induction items generalizing x with
  | nil => rfl
  | cons it items ih => exact ih _

theorem finish_add {k : Nat} {items : List Item} (h : ∀ it ∈ items, it.align ∣ k) (x : Nat) :
    finish (k + x) items = k + finish x items := by
  induction items generalizing x with
  | nil => rfl
  | cons it items ih =>
      show finish (alignUp (k + x) it.align + it.size) items = _
      rw [alignUp_add (h it List.mem_cons_self), Nat.add_assoc]
      exact ih (fun it' hit' => h it' (List.mem_cons_of_mem it hit')) _

/-- Each item is placed on a multiple of its alignment, between the start and the end. -/
theorem placed_mem {x : Nat} {items : List Item} {p : Nat × Item} (h : p ∈ placed x items) :
    x ≤ p.1 ∧ p.1 + p.2.size ≤ finish x items ∧ p.2.align ∣ p.1 := by
  induction items generalizing x with
  | nil => exact absurd h List.not_mem_nil
  | cons it items ih =>
      rcases List.mem_cons.mp h with rfl | h
      · exact ⟨le_alignUp x _, le_finish _ items, dvd_alignUp x it.pos⟩
      · obtain ⟨hlo, hhi, hdvd⟩ := ih h
        exact ⟨(le_alignUp x _).trans ((Nat.le_add_right _ _).trans hlo), hhi, hdvd⟩

theorem placed_pairwise (x : Nat) (items : List Item) :
    (placed x items).Pairwise fun p q => p.1 + p.2.size ≤ q.1 := by
  induction items generalizing x with
  | nil => exact List.Pairwise.nil
  | cons it items ih => exact List.Pairwise.cons (fun q hq => (placed_mem hq).1) (ih _)

/-- The last item ends where the items together end. -/
theorem exists_placed_end {x : Nat} {items : List Item} (h : items ≠ []) :
    ∃ p ∈ placed x items, p.1 + p.2.size = finish x items := by
  induction items generalizing x with
  | nil => exact absurd rfl h
  | cons it items ih =>
      by_cases hnil : items = []
      · rw [hnil]
        exact ⟨_, List.mem_cons_self, rfl⟩
      · obtain ⟨p, hp, hend⟩ := ih hnil
        exact ⟨p, List.mem_cons_of_mem _ hp, hend⟩

/-- The first item that ends behind `b`, where the items together end behind `b`. -/
theorem exists_first_behind {x b : Nat} {items : List Item} (hx : x ≤ b)
    (h : b < finish x items) :
    ∃ pre it post, items = pre ++ it :: post ∧ finish x pre ≤ b ∧
      b < finish x (pre ++ [it]) := by
  induction items generalizing x with
  | nil => exact absurd h (Nat.not_lt.mpr hx)
  | cons it items ih =>
      by_cases hit : alignUp x it.align + it.size ≤ b
      · obtain ⟨pre, it', post, rfl, hpre, hit'⟩ := ih hit h
        exact ⟨it :: pre, it', post, rfl, hpre, hit'⟩
      · exact ⟨[], it, items, rfl, hx, Nat.not_le.mp hit⟩

end Placed

/-! ## The worst start -/

/-- The most that aligning to `align` can skip from an address that is `c` modulo `a`. -/
def worstPad (a c align : Nat) : Nat :=
  (align - min a align) + (min a align - c % min a align) % min a align

/-- The most room that the items take from an address that is `c` modulo `a`. -/
def worst : Nat → Nat → List Item → Nat
  | _, _, [] => 0
  | a, c, it :: items =>
    worstPad a c it.align + it.size +
      worst (max a it.align)
        (if it.align ≤ a then c + worstPad a c it.align + it.size else it.size) items

section Worst

variable {i k x c : Nat}

theorem worstPad_of_le (h : 2 ^ k ≤ 2 ^ i) (hx : x ≡ c [MOD 2 ^ i]) :
    alignUp x (2 ^ k) = x + worstPad (2 ^ i) c (2 ^ k) := by
  have hdvd : 2 ^ k ∣ 2 ^ i := (Nat.pow_dvd_pow_iff_le_right (by decide)).mpr
    ((Nat.pow_le_pow_iff_right (by decide)).mp h)
  have hmod : x % 2 ^ k = c % 2 ^ k := hx.of_dvd hdvd
  unfold worstPad alignUp
  rw [min_eq_right h, Nat.sub_self, Nat.zero_add, hmod]

theorem worstPad_of_lt (h : 2 ^ i < 2 ^ k) :
    worstPad (2 ^ i) c (2 ^ k) = 2 ^ k - 2 ^ i + (2 ^ i - c % 2 ^ i) % 2 ^ i := by
  unfold worstPad
  rw [min_eq_left h.le]

theorem dvd_add_worstPad (h : 2 ^ i < 2 ^ k) :
    2 ^ i ∣ c + worstPad (2 ^ i) c (2 ^ k) := by
  have hdvd : 2 ^ i ∣ 2 ^ k := Nat.pow_dvd_pow 2 ((Nat.pow_lt_pow_iff_right (by decide)).mp h).le
  rw [worstPad_of_lt h, Nat.add_left_comm]
  refine (Nat.dvd_add (Nat.dvd_sub hdvd (Nat.dvd_refl _)) (dvd_alignUp c (Nat.two_pow_pos i)))

theorem worstPad_lt (h : 2 ^ i < 2 ^ k) : worstPad (2 ^ i) c (2 ^ k) < 2 ^ k := by
  have := Nat.mod_lt (2 ^ i - c % 2 ^ i) (Nat.two_pow_pos i)
  rw [worstPad_of_lt h]
  omega

theorem alignUp_le_worstPad (hx : x ≡ c [MOD 2 ^ i]) :
    alignUp x (2 ^ k) ≤ x + worstPad (2 ^ i) c (2 ^ k) := by
  by_cases h : 2 ^ k ≤ 2 ^ i
  · exact (worstPad_of_le h hx).le
  · have h := Nat.not_le.mp h
    -- The address behind the padding is a multiple of `2 ^ i`, and so is the next one of `2 ^ k`.
    have hdvd : 2 ^ i ∣ x + worstPad (2 ^ i) c (2 ^ k) :=
      (Nat.modEq_zero_iff_dvd.mp
        ((hx.add_right _).trans (Nat.modEq_zero_iff_dvd.mpr (dvd_add_worstPad h))))
    have hup : 2 ^ i ∣ alignUp x (2 ^ k) :=
      (Nat.pow_dvd_pow 2 ((Nat.pow_lt_pow_iff_right (by decide)).mp h).le).trans
        (dvd_alignUp x (Nat.two_pow_pos k))
    have hlt := alignUp_lt x (Nat.two_pow_pos k)
    have hpad : 2 ^ k - 2 ^ i ≤ worstPad (2 ^ i) c (2 ^ k) := by
      rw [worstPad_of_lt h]
      exact Nat.le_add_right _ _
    exact le_of_dvd_of_lt_add hup hdvd (by omega)

/-- No start takes more than the worst one. -/
theorem finish_le_worst (items : List Item) (hx : x ≡ c [MOD 2 ^ i]) :
    finish x items ≤ x + worst (2 ^ i) c items := by
  induction items generalizing x c i with
  | nil => exact Nat.le_refl x
  | cons it items ih =>
      obtain ⟨k, hk⟩ := it.pow
      have hpad := alignUp_le_worstPad (k := k) hx
      show finish (alignUp x it.align + it.size) items ≤ x + (_ + it.size + worst _ _ items)
      rw [hk]
      by_cases hle : 2 ^ k ≤ 2 ^ i
      · rw [max_eq_left hle, if_pos hle]
        have hx' : alignUp x (2 ^ k) + it.size ≡
            c + worstPad (2 ^ i) c (2 ^ k) + it.size [MOD 2 ^ i] := by
          rw [worstPad_of_le hle hx]
          exact (hx.add_right _).add_right _
        have hstep := ih hx'
        omega
      · rw [max_eq_right (Nat.not_le.mp hle).le, if_neg hle]
        have hx' : alignUp x (2 ^ k) + it.size ≡ it.size [MOD 2 ^ k] := by
          have hup := Nat.modEq_zero_iff_dvd.mpr (dvd_alignUp x (Nat.two_pow_pos k))
          simpa using hup.add_right it.size
        have hstep := ih hx'
        omega

/-- The worst start is a remainder modulo any common multiple of the alignments. -/
theorem exists_finish_eq_worst {items : List Item} (i c : Nat) {n : Nat}
    (hn : 0 < n) (hi : 2 ^ i ∣ n) (hitems : ∀ it ∈ items, it.align ∣ n) :
    ∃ x, x ≡ c [MOD 2 ^ i] ∧ ∀ y, y ≡ x [MOD n] → finish y items = y + worst (2 ^ i) c items := by
  induction items generalizing c i with
  | nil => exact ⟨c, Nat.ModEq.refl c, fun y _ => rfl⟩
  | cons it items ih =>
      obtain ⟨k, hk⟩ := it.pow
      have hkn : 2 ^ k ∣ n := hk ▸ hitems it List.mem_cons_self
      have hitems' : ∀ it' ∈ items, it'.align ∣ n :=
        fun it' hit' => hitems it' (List.mem_cons_of_mem it hit')
      generalize hpad : worstPad (2 ^ i) c (2 ^ k) = pad
      -- A start that the rest wants, moved back by what comes before it.
      have hback : ∀ z, ∃ x, x + (pad + it.size) ≡ z [MOD n] := by
        intro z
        refine ⟨z + n * (pad + it.size) - (pad + it.size), ?_⟩
        have hle : pad + it.size ≤ n * (pad + it.size) := Nat.le_mul_of_pos_left _ hn
        rw [Nat.sub_add_cancel (by omega)]
        exact Nat.add_mul_mod_self_left z n _
      show ∃ x, _ ∧ ∀ y, _ → finish (alignUp y it.align + it.size) items =
        y + (worstPad (2 ^ i) c it.align + it.size + worst _ _ items)
      rw [hk, hpad]
      by_cases hle : 2 ^ k ≤ 2 ^ i
      · rw [max_eq_left hle, if_pos hle]
        obtain ⟨z, hz, hrest⟩ := ih i (c + pad + it.size) hi hitems'
        obtain ⟨x, hx⟩ := hback z
        have hxc : x ≡ c [MOD 2 ^ i] := by
          refine Nat.ModEq.add_right_cancel' (pad + it.size) ?_
          rw [← Nat.add_assoc c]
          exact (hx.of_dvd hi).trans hz
        refine ⟨x, hxc, fun y hy => ?_⟩
        rw [worstPad_of_le hle ((hy.of_dvd hi).trans hxc), hpad, hrest, ← Nat.add_assoc,
          ← Nat.add_assoc]
        rw [Nat.add_assoc]
        exact (hy.add_right _).trans hx
      · have hlt := Nat.not_le.mp hle
        rw [max_eq_right hlt.le, if_neg hle]
        obtain ⟨z, hz, hrest⟩ := ih k it.size hkn hitems'
        obtain ⟨x, hx⟩ := hback z
        have hxk : x + pad ≡ 0 [MOD 2 ^ k] := by
          refine Nat.ModEq.add_right_cancel' it.size ?_
          rw [Nat.zero_add, Nat.add_assoc]
          exact (hx.of_dvd hkn).trans hz
        have hxc : x ≡ c [MOD 2 ^ i] := by
          refine Nat.ModEq.add_right_cancel' pad ?_
          have hik : 2 ^ i ∣ 2 ^ k :=
            Nat.pow_dvd_pow 2 ((Nat.pow_lt_pow_iff_right (by decide)).mp hlt).le
          exact (hxk.of_dvd hik).trans
            (Nat.modEq_zero_iff_dvd.mpr (hpad ▸ dvd_add_worstPad hlt)).symm
        refine ⟨x, hxc, fun y hy => ?_⟩
        have hy' : 2 ^ k ∣ y + pad :=
          Nat.modEq_zero_iff_dvd.mp (((hy.of_dvd hkn).add_right pad).trans hxk)
        rw [alignUp_add_eq (hpad ▸ worstPad_lt hlt) hy', hrest,
          ← Nat.add_assoc, ← Nat.add_assoc]
        rw [Nat.add_assoc]
        exact (hy.add_right _).trans hx

/-- The worst start is taken by an address behind 0, below twice a common multiple. -/
theorem exists_worst_start {items : List Item} {i n : Nat} (hn : 0 < n) (hi : 2 ^ i ∣ n)
    (hitems : ∀ it ∈ items, it.align ∣ n) :
    ∃ x, 0 < x ∧ x < 2 * n ∧ 2 ^ i ∣ x ∧ finish x items = x + worst (2 ^ i) 0 items := by
  obtain ⟨x, hx, hfinish⟩ := exists_finish_eq_worst i 0 hn hi hitems
  have hmod : x % n + n ≡ x [MOD n] := by
    rw [Nat.ModEq, Nat.add_mod_right, Nat.mod_mod]
  have hlt := Nat.mod_lt x hn
  refine ⟨x % n + n, by omega, by omega, ?_, hfinish _ hmod⟩
  exact Nat.modEq_zero_iff_dvd.mp ((hmod.of_dvd hi).trans hx)

/-- The worst start takes less than a common multiple of the alignments more. -/
theorem worst_lt {items : List Item} {i n : Nat} (hn : 0 < n) (hi : 2 ^ i ∣ n)
    (hitems : ∀ it ∈ items, it.align ∣ n) : worst (2 ^ i) 0 items < finish 0 items + n := by
  obtain ⟨x, -, -, -, hfinish⟩ := exists_worst_start hn hi hitems
  have hup := alignUp_lt x hn
  have hmono := finish_mono (le_alignUp x n) items
  have hadd := finish_add (fun it hit => (hitems it hit).trans (dvd_alignUp x hn)) 0
  rw [Nat.add_zero] at hadd
  omega

end Worst

end TccRiscv64.Data
