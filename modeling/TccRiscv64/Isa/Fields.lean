import TccRiscv64.Isa.Memory

set_option autoImplicit false

/-! # Bit fields of a memory

A memory seen as a row of bits: bit `8 * a + j` is bit `j` of the byte at `a`. A field of `w` bits
starts at the lowest bit of a byte; it need not end with one. Loads and stores are the fields whose
width is a number of bytes. -/

namespace TccRiscv64.Isa.Memory

/-- Bit `i` of the memory. -/
def bitAt (m : Memory) (i : Nat) : Bool := (m (i / 8)).getLsbD (i % 8)

/-- The `w` bits from the byte at `p` on. -/
def field (m : Memory) (p w : Nat) : BitVec w := BitVec.ofFnLE fun i => m.bitAt (8 * p + i)

/-- The memory after the `w` bits from the byte at `p` on became `v`. -/
def setField (m : Memory) (p : Nat) {w : Nat} (v : BitVec w) : Memory := fun a =>
  BitVec.ofFnLE fun j =>
    if 8 * p ≤ 8 * a + j ∧ 8 * a + j < 8 * p + w then v.getLsbD (8 * a + j - 8 * p)
    else (m a).getLsbD j

/-! ## Bits -/

theorem ext_bitAt {m m' : Memory} (h : ∀ i, m'.bitAt i = m.bitAt i) : m' = m := by
  funext a
  apply BitVec.eq_of_getLsbD_eq
  intro j hj
  have hbit := h (8 * a + j)
  have hdiv : (8 * a + j) / 8 = a := by omega
  have hmod : (8 * a + j) % 8 = j := by omega
  rwa [bitAt, bitAt, hdiv, hmod] at hbit

theorem getLsbD_field (m : Memory) (p w i : Nat) :
    (m.field p w).getLsbD i = (decide (i < w) && m.bitAt (8 * p + i)) := by
  by_cases hi : i < w
  · rw [field, BitVec.getLsbD_ofFnLE, dif_pos hi, decide_eq_true hi, Bool.true_and]
  · rw [field, BitVec.getLsbD_ofFnLE, dif_neg hi, decide_eq_false hi, Bool.false_and]

theorem bitAt_setField (m : Memory) (p : Nat) {w : Nat} (v : BitVec w) (i : Nat) :
    (m.setField p v).bitAt i
      = if 8 * p ≤ i ∧ i < 8 * p + w then v.getLsbD (i - 8 * p) else m.bitAt i := by
  have hi : 8 * (i / 8) + i % 8 = i := Nat.div_add_mod i 8
  rw [bitAt, setField, BitVec.getLsbD_ofFnLE, dif_pos (Nat.mod_lt i (by decide))]
  simp only [hi, bitAt]

theorem bitAt_store (m : Memory) (p n : Nat) (v : BitVec (8 * n)) (i : Nat) :
    (m.store p n v).bitAt i
      = if 8 * p ≤ i ∧ i < 8 * p + 8 * n then v.getLsbD (i - 8 * p) else m.bitAt i := by
  rw [bitAt, store]
  by_cases hi : 8 * p ≤ i ∧ i < 8 * p + 8 * n
  · have hidx : 8 * (i / 8 - p) + i % 8 = i - 8 * p := by omega
    rw [if_pos hi, if_pos (by omega), BitVec.getLsbD_extractLsb', hidx,
      decide_eq_true (Nat.mod_lt i (by decide)), Bool.true_and]
  · rw [if_neg hi, if_neg (by omega), bitAt]

/-! ## Reading back -/

theorem field_setField (m : Memory) (p : Nat) {w : Nat} (v : BitVec w) :
    (m.setField p v).field p w = v := by
  apply BitVec.eq_of_getLsbD_eq
  intro i hi
  rw [getLsbD_field, bitAt_setField, if_pos (by omega), decide_eq_true hi, Bool.true_and,
    Nat.add_sub_cancel_left]

/-- A field is kept by a change of bits that are not its own. -/
theorem field_setField_of_disjoint (m : Memory) {p w q k : Nat} (v : BitVec k)
    (h : 8 * p + w ≤ 8 * q ∨ 8 * q + k ≤ 8 * p) : (m.setField q v).field p w = m.field p w := by
  apply BitVec.eq_of_getLsbD_eq
  intro i hi
  rw [getLsbD_field, getLsbD_field, bitAt_setField, if_neg (by omega)]

theorem load_eq_field (m : Memory) (p n : Nat) : m.load p n = m.field p (8 * n) := by
  apply BitVec.eq_of_getLsbD_eq
  intro i hi
  have hdiv : (8 * p + i) / 8 = p + i / 8 := by omega
  have hmod : (8 * p + i) % 8 = i % 8 := by omega
  rw [getLsbD_load, getLsbD_field, bitAt, hdiv, hmod]

theorem store_eq_setField (m : Memory) (p n : Nat) (v : BitVec (8 * n)) :
    m.store p n v = m.setField p v :=
  ext_bitAt fun i => by rw [bitAt_store, bitAt_setField]

/-- A field is set to a value exactly when it has that value and no other bit changed. -/
theorem eq_setField_iff (m m' : Memory) (p : Nat) {w : Nat} (v : BitVec w) :
    m' = m.setField p v ↔
      m'.field p w = v ∧ ∀ i, i < 8 * p ∨ 8 * p + w ≤ i → m'.bitAt i = m.bitAt i := by
  constructor
  · rintro rfl
    refine ⟨field_setField m p v, fun i hi => ?_⟩
    rw [bitAt_setField, if_neg (by omega)]
  · rintro ⟨rfl, hrest⟩
    apply ext_bitAt
    intro i
    rw [bitAt_setField]
    by_cases hi : 8 * p ≤ i ∧ i < 8 * p + w
    · have hidx : 8 * p + (i - 8 * p) = i := by omega
      rw [if_pos hi, getLsbD_field, hidx, decide_eq_true (by omega), Bool.true_and]
    · rw [if_neg hi, hrest i (by omega)]

end TccRiscv64.Isa.Memory
