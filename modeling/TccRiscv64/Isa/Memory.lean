import Mathlib

set_option autoImplicit false

/-! # Little-endian byte memory

A memory maps addresses to bytes. `load` reads `n` consecutive bytes as one little-endian word,
`store` writes them; the lemmas say which bytes each of them reads or changes. -/

namespace TccRiscv64.Isa

/-- A memory: one byte at each address. -/
abbrev Memory := Nat → BitVec 8

namespace Memory

/-- The `n` bytes at `p` as a little-endian word. -/
def load (m : Memory) (p : Nat) : (n : Nat) → BitVec (8 * n)
  | 0 => 0#0
  | n + 1 => load m (p + 1) n ++ m p

/-- The memory after the `n` bytes of `v` are written at `p`. -/
def store (m : Memory) (p n : Nat) (v : BitVec (8 * n)) : Memory :=
  fun a => if p ≤ a ∧ a < p + n then v.extractLsb' (8 * (a - p)) 8 else m a

/-- Two memories agree on the `n` bytes at `p`. -/
def AgreeOn (m m' : Memory) (p n : Nat) : Prop :=
  ∀ a, p ≤ a → a < p + n → m' a = m a

/-! ## Loads -/

theorem getLsbD_load (m : Memory) (p n i : Nat) :
    (m.load p n).getLsbD i = (decide (i < 8 * n) && (m (p + i / 8)).getLsbD (i % 8)) := by
  induction n generalizing p i with
  | zero => simp [load]
  | succ n ih =>
    rw [load, BitVec.getLsbD_append, ih]
    by_cases hi : i < 8
    · rw [if_pos hi, Nat.div_eq_of_lt hi, Nat.mod_eq_of_lt hi, decide_eq_true (by omega)]
      simp
    · have hdiv : p + 1 + (i - 8) / 8 = p + i / 8 := by omega
      have hmod : (i - 8) % 8 = i % 8 := by omega
      have hlt : (i - 8 < 8 * n) ↔ (i < 8 * (n + 1)) := by omega
      rw [if_neg hi, hdiv, hmod, decide_eq_decide.2 hlt]

/-- A load depends only on the bytes it reads. -/
theorem load_congr {m m' : Memory} {p n : Nat} (h : AgreeOn m m' p n) :
    m'.load p n = m.load p n := by
  apply BitVec.eq_of_getLsbD_eq
  intro i hi
  rw [getLsbD_load, getLsbD_load, h (p + i / 8) (by omega) (by omega)]

/-! ## Stores -/

/-- Reading back what was just written. -/
theorem load_store (m : Memory) (p n : Nat) (v : BitVec (8 * n)) :
    (m.store p n v).load p n = v := by
  apply BitVec.eq_of_getLsbD_eq
  intro i hi
  have hin : p ≤ p + i / 8 ∧ p + i / 8 < p + n := by omega
  rw [getLsbD_load, store, if_pos hin, BitVec.getLsbD_extractLsb', decide_eq_true hi,
    decide_eq_true (Nat.mod_lt i (by decide))]
  have hidx : 8 * (p + i / 8 - p) + i % 8 = i := by omega
  rw [hidx]
  simp

/-- A store changes only the bytes it writes. -/
theorem store_of_disjoint (m : Memory) (p n : Nat) (v : BitVec (8 * n)) {a : Nat}
    (ha : a < p ∨ p + n ≤ a) : m.store p n v a = m a := by
  rw [store, if_neg (by omega)]

/-- A store leaves every disjoint range alone. -/
theorem agreeOn_store (m : Memory) (p n : Nat) (v : BitVec (8 * n)) {q k : Nat}
    (h : q + k ≤ p ∨ p + n ≤ q) : AgreeOn m (m.store p n v) q k := by
  intro a ha ha'
  exact store_of_disjoint m p n v (by omega)

theorem load_store_of_disjoint (m : Memory) (p n : Nat) (v : BitVec (8 * n)) {q k : Nat}
    (h : q + k ≤ p ∨ p + n ≤ q) : (m.store p n v).load q k = m.load q k :=
  load_congr (agreeOn_store m p n v h)

theorem AgreeOn.trans {m m' m'' : Memory} {p n : Nat} (h : AgreeOn m m' p n)
    (h' : AgreeOn m' m'' p n) : AgreeOn m m'' p n :=
  fun a ha ha' => (h' a ha ha').trans (h a ha ha')

end Memory

end TccRiscv64.Isa
