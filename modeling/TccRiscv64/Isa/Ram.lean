import TccRiscv64.Isa.Rv64

set_option autoImplicit false

/-! # Reading and writing data memory

What a store of the machine leaves in memory, byte by byte, and which loads see it. Addresses wrap
around, so that two ranges are apart if the second one ends before the first one starts again. -/

namespace TccRiscv64.Isa.Ram

/-- The `k` bytes at `b` are behind the `n` bytes at `a`, and end before `a`. -/
def Apart (a : BitVec 64) (n : Nat) (b : BitVec 64) (k : Nat) : Prop :=
  n ≤ (b - a).toNat ∧ (b - a).toNat + k ≤ 2 ^ 64

variable {m m' : Ram} {a b : BitVec 64} {n k : Nat}

theorem toNat_add_sub {i : Nat} (hi : i < 2 ^ 64) : (a + BitVec.ofNat 64 i - a).toNat = i := by
  rw [add_sub_cancel_left, BitVec.toNat_ofNat, Nat.mod_eq_of_lt hi]

/-- A byte that a store writes. -/
theorem store_apply (m : Ram) (a : BitVec 64) (v : BitVec 64) {i : Nat} (hi : i < n)
    (hn : n ≤ 2 ^ 64) : m.store a n v (a + BitVec.ofNat 64 i) = v.extractLsb' (8 * i) 8 := by
  unfold store
  rw [toNat_add_sub (by omega), if_pos hi]

/-- A byte that a store leaves alone. -/
theorem store_of_le (m : Ram) (v : BitVec 64) (h : n ≤ (b - a).toNat) : m.store a n v b = m b :=
  if_neg (Nat.not_lt.mpr h)

theorem Apart.store (h : Apart a n b k) (m : Ram) (v : BitVec 64) {i : Nat} (hi : i < k) :
    m.store a n v (b + BitVec.ofNat 64 i) = m (b + BitVec.ofNat 64 i) := by
  apply store_of_le
  have hsum : b + BitVec.ofNat 64 i - a = b - a + BitVec.ofNat 64 i := add_sub_right_comm ..
  rw [hsum, BitVec.toNat_add, BitVec.toNat_ofNat]
  have := h.1
  have := h.2
  omega

theorem getLsbD_load (m : Ram) (a : BitVec 64) (n i : Nat) : (m.load a n).getLsbD i =
    (decide (i < 8 * n) && (m (a + BitVec.ofNat 64 (i / 8))).getLsbD (i % 8)) := by
  induction n generalizing a i with
  | zero => simp [load]
  | succ n ih =>
    rw [load, BitVec.getLsbD_append, ih]
    by_cases hi : i < 8
    · rw [if_pos hi, Nat.div_eq_of_lt hi, Nat.mod_eq_of_lt hi, decide_eq_true (by omega)]
      simp
    · have hdiv : i / 8 = 1 + (i - 8) / 8 := by omega
      have hmod : i % 8 = (i - 8) % 8 := by omega
      rw [if_neg hi, hdiv, hmod, BitVec.ofNat_add, BitVec.add_assoc]
      congr 1
      exact decide_eq_decide.mpr (by omega)

theorem load_congr (h : ∀ i < n, m' (a + BitVec.ofNat 64 i) = m (a + BitVec.ofNat 64 i)) :
    m'.load a n = m.load a n := by
  apply BitVec.eq_of_getLsbD_eq
  intro i hi
  rw [getLsbD_load, getLsbD_load, h (i / 8) (by omega)]

theorem load_store_of_apart (h : Apart a n b k) (m : Ram) (v : BitVec 64) :
    (m.store a n v).load b k = m.load b k :=
  load_congr fun _ hi => h.store m v hi

/-- A doubleword is read back. -/
theorem load_store (m : Ram) (a v : BitVec 64) : (m.store a 8 v).load a 8 = v := by
  apply BitVec.eq_of_getLsbD_eq
  intro i hi
  rw [getLsbD_load, store_apply m a v (show i / 8 < 8 by omega) (by decide),
    BitVec.getLsbD_extractLsb', decide_eq_true hi, decide_eq_true (Nat.mod_lt i (by decide)),
    Bool.true_and, Bool.true_and]
  congr 1
  omega

theorem loadExt_doubleword (m : Ram) (a : BitVec 64) (signed : Bool) :
    m.loadExt a 8 signed = m.load a 8 := by
  unfold loadExt
  split
  · exact BitVec.signExtend_eq _
  · exact BitVec.setWidth_eq _

end TccRiscv64.Isa.Ram
