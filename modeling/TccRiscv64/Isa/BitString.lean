import TccRiscv64.Isa.Memory

set_option autoImplicit false

/-! # Memory as a string of bits

Bit `i` of a little-endian memory is bit `i % 8` of byte `i / 8`. Loads and stores are described
bit by bit, and so are a write to, and a read of, `w` bits from an arbitrary bit position on, which
need not respect any byte boundary. -/

namespace TccRiscv64.Isa.Memory

/-- Bit `i` of a memory. -/
def bit (m : Memory) (i : Nat) : Bool := (m (i / 8)).getLsbD (i % 8)

/-- Memories with the same bits are the same. -/
theorem ext_bit {m m' : Memory} (h : ∀ i, m.bit i = m'.bit i) : m = m' := by
  funext a
  apply BitVec.eq_of_getLsbD_eq
  intro j hj
  have hi := h (8 * a + j)
  have hdiv : (8 * a + j) / 8 = a := by omega
  have hmod : (8 * a + j) % 8 = j := by omega
  rw [bit, bit, hdiv, hmod] at hi
  exact hi

theorem getLsbD_byte (m : Memory) (a j : Nat) :
    (m a).getLsbD j = (decide (j < 8) && m.bit (8 * a + j)) := by
  by_cases hj : j < 8
  · have hdiv : (8 * a + j) / 8 = a := by omega
    have hmod : (8 * a + j) % 8 = j := by omega
    rw [bit, hdiv, hmod, decide_eq_true hj, Bool.true_and]
  · rw [decide_eq_false hj, Bool.false_and]
    exact BitVec.getLsbD_of_ge _ _ (by omega)

theorem getLsbD_load_bit (m : Memory) (p n i : Nat) :
    (m.load p n).getLsbD i = (decide (i < 8 * n) && m.bit (8 * p + i)) := by
  have hdiv : (8 * p + i) / 8 = p + i / 8 := by omega
  have hmod : (8 * p + i) % 8 = i % 8 := by omega
  rw [getLsbD_load, bit, hdiv, hmod]

theorem bit_store (m : Memory) (p n : Nat) (v : BitVec (8 * n)) (i : Nat) :
    (m.store p n v).bit i
      = if 8 * p ≤ i ∧ i < 8 * (p + n) then v.getLsbD (i - 8 * p) else m.bit i := by
  rw [bit, store]
  by_cases h : p ≤ i / 8 ∧ i / 8 < p + n
  · have hidx : 8 * (i / 8 - p) + i % 8 = i - 8 * p := by omega
    rw [if_pos h, if_pos (by omega), BitVec.getLsbD_extractLsb', hidx,
      decide_eq_true (Nat.mod_lt i (by decide)), Bool.true_and]
  · rw [if_neg h, if_neg (by omega), bit]

/-! ## Fields at any bit position -/

/-- `m'` is `m` with the low `w` bits of `v` written at bit `pos`. -/
def Wrote (m m' : Memory) (pos w : Nat) (v : BitVec 64) : Prop :=
  ∀ i, m'.bit i = if pos ≤ i ∧ i < pos + w then v.getLsbD (i - pos) else m.bit i

/-- The `w` bits at bit `pos` of `m`, extended to 64 bits, are `x`. -/
def Reads (m : Memory) (pos w : Nat) (signed : Bool) (x : BitVec 64) : Prop :=
  ∀ j < 64, x.getLsbD j = if j < w then m.bit (pos + j) else signed && m.bit (pos + w - 1)

/-- The low `w` bits of `v`, extended to 64 bits. -/
def truncBits (w : Nat) (signed : Bool) (v : BitVec 64) : BitVec 64 :=
  if signed then (v.setWidth w).signExtend 64 else (v.setWidth w).setWidth 64

theorem getLsbD_truncBits {w : Nat} (signed : Bool) (v : BitVec 64) (hw : 0 < w) {j : Nat}
    (hj : j < 64) :
    (truncBits w signed v).getLsbD j
      = if j < w then v.getLsbD j else signed && v.getLsbD (w - 1) := by
  unfold truncBits
  cases signed
  · simp only [Bool.false_eq_true, if_false, BitVec.getLsbD_setWidth, decide_eq_true hj,
      Bool.true_and, Bool.false_and]
    by_cases h : j < w <;> simp [h]
  · simp only [if_true, BitVec.getLsbD_signExtend, BitVec.getLsbD_setWidth, decide_eq_true hj,
      Bool.true_and]
    by_cases h : j < w
    · simp [h]
    · rw [if_neg h, if_neg h, BitVec.msb_eq_getLsbD_last, BitVec.getLsbD_setWidth,
        decide_eq_true (by omega : w - 1 < w), Bool.true_and]

/-- What a write leaves to be read. -/
theorem Wrote.reads {m m' : Memory} {pos w : Nat} {v x : BitVec 64} {signed : Bool}
    (h : Wrote m m' pos w v) (hw : 0 < w) (hr : Reads m' pos w signed x) :
    x = truncBits w signed v := by
  apply BitVec.eq_of_getLsbD_eq
  intro j hj
  rw [hr j hj, getLsbD_truncBits signed v hw hj]
  split
  · next hjw =>
      rw [h, if_pos (by omega)]
      congr 1
      omega
  · rw [h, if_pos (by omega)]
    congr 2
    omega

/-- Two writes of the same bits agree. -/
theorem Wrote.unique {m m' m'' : Memory} {pos w : Nat} {v : BitVec 64} (h : Wrote m m' pos w v)
    (h' : Wrote m m'' pos w v) : m' = m'' := by
  apply ext_bit
  intro i
  rw [h, h']

/-- Only the bits written matter. -/
theorem Wrote.congr {m m' : Memory} {pos w : Nat} {v v' : BitVec 64} (h : Wrote m m' pos w v)
    (hv : ∀ j < w, v.getLsbD j = v'.getLsbD j) : Wrote m m' pos w v' := by
  intro i
  rw [h i]
  split
  · exact hv _ (by omega)
  · rfl

/-- A write in two parts, the second one holding the upper bits. -/
theorem Wrote.append {m m' m'' : Memory} {pos n w : Nat} {v : BitVec 64}
    (h : Wrote m m' pos n v) (h' : Wrote m' m'' (pos + n) w (v >>> n)) :
    Wrote m m'' pos (n + w) v := by
  intro i
  rw [h' i, h i]
  by_cases hlow : pos ≤ i ∧ i < pos + n
  · rw [if_neg (by omega), if_pos hlow, if_pos (by omega)]
  · by_cases hhigh : pos + n ≤ i ∧ i < pos + n + w
    · rw [if_pos hhigh, if_pos (by omega), BitVec.getLsbD_ushiftRight]
      congr 1
      omega
    · rw [if_neg hhigh, if_neg hlow, if_neg (by omega)]

theorem Wrote.nil (m : Memory) (pos : Nat) (v : BitVec 64) : Wrote m m pos 0 v := by
  intro i
  rw [if_neg (by omega)]

end TccRiscv64.Isa.Memory
