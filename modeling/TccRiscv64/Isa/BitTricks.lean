import Mathlib.Data.Nat.Bitwise
import Mathlib.Data.Nat.Digits.Defs
import Mathlib.Tactic.IntervalCases
import Mathlib.Tactic.Linarith
import Mathlib.Tactic.Positivity
import Mathlib.Tactic.Ring

set_option autoImplicit false

/-! # Bit tricks

The lowest set bit of a word, the word below its highest set bit, and the count of its ones a byte
at a time, for words of any width. -/

namespace TccRiscv64.Isa

/-! ## The lowest set bit -/

section Lowest

variable {w : ℕ} {x : BitVec w} {t : ℕ}

/-- `t` is the index of the lowest set bit. -/
def IsLowest (x : BitVec w) (t : ℕ) : Prop := x.getLsbD t = true ∧ ∀ j < t, x.getLsbD j = false

/-- `t` is the index of the highest set bit. -/
def IsHighest (x : BitVec w) (t : ℕ) : Prop := x.getLsbD t = true ∧ ∀ j, t < j → x.getLsbD j = false

theorem IsLowest.lt (h : IsLowest x t) : t < w := BitVec.lt_of_getLsbD h.1

theorem IsHighest.lt (h : IsHighest x t) : t < w := BitVec.lt_of_getLsbD h.1

theorem exists_getLsbD (h : x ≠ 0#w) : ∃ j, x.getLsbD j = true := by
  by_contra hnone
  refine h (BitVec.eq_of_getLsbD_eq fun i _ => ?_)
  rw [BitVec.getLsbD_zero]
  exact Bool.eq_false_of_not_eq_true fun hi => hnone ⟨i, hi⟩

theorem exists_isLowest (h : x ≠ 0#w) : ∃ t, IsLowest x t := by
  have hex := exists_getLsbD h
  refine ⟨Nat.find hex, Nat.find_spec hex, fun j hj => ?_⟩
  exact Bool.eq_false_of_not_eq_true (Nat.find_min hex hj)

theorem exists_isHighest (h : x ≠ 0#w) : ∃ t, IsHighest x t := by
  obtain ⟨j, hj⟩ := exists_getLsbD h
  have hlt := BitVec.lt_of_getLsbD hj
  have hspec := Nat.findGreatest_spec (P := fun i => x.getLsbD i = true) hlt.le hj
  refine ⟨_, hspec, fun i hi => Bool.eq_false_of_not_eq_true fun hi' => ?_⟩
  exact Nat.findGreatest_is_greatest hi (BitVec.lt_of_getLsbD hi').le hi'

/-- `x & -x` keeps the lowest set bit. -/
theorem and_neg_eq (h : IsLowest x t) : x &&& -x = BitVec.twoPow w t := by
  apply BitVec.eq_of_getLsbD_eq
  intro i hi
  rw [BitVec.getLsbD_and, BitVec.getLsbD_neg, BitVec.getLsbD_twoPow]
  have hlower : (∃ j < i, x.getLsbD j = true) ↔ t < i := by
    constructor
    · rintro ⟨j, hj, hset⟩
      by_contra hle
      rw [h.2 j (by omega)] at hset
      cases hset
    · exact fun hlt => ⟨t, hlt, h.1⟩
  simp only [hlower]
  rcases Nat.lt_trichotomy i t with hlt | heq | hgt
  · simp [h.2 i hlt, show t ≠ i by omega]
  · simp [heq, h.1, h.lt]
  · simp [hi, hgt, show t ≠ i by omega]

end Lowest

/-! ## Smearing -/

section Smear

variable {w : ℕ} {x y : BitVec w} {n t : ℕ}

/-- A bit of `y` is set if one of the `n` bits of `x` from there on is. -/
def Smeared (n : ℕ) (x y : BitVec w) : Prop :=
  ∀ i < w, y.getLsbD i = true ↔ ∃ d < n, x.getLsbD (i + d) = true

theorem smeared_one (x : BitVec w) : Smeared 1 x x := by
  intro i _
  constructor
  · exact fun h => ⟨0, Nat.one_pos, h⟩
  · rintro ⟨d, hd, h⟩
    obtain rfl : d = 0 := by omega
    exact h

/-- `y |= y >> n` -/
theorem Smeared.double (h : Smeared n x y) : Smeared (2 * n) x (y ||| y >>> n) := by
  intro i hi
  rw [BitVec.getLsbD_or, BitVec.getLsbD_ushiftRight, Bool.or_eq_true, h i hi]
  constructor
  · rintro (⟨d, hd, hset⟩ | hset)
    · exact ⟨d, by omega, hset⟩
    · obtain ⟨d, hd, hset⟩ := (h (n + i) (BitVec.lt_of_getLsbD hset)).1 hset
      exact ⟨n + d, by omega, by rwa [← Nat.add_assoc, Nat.add_comm i n]⟩
  · rintro ⟨d, hd, hset⟩
    by_cases hlt : d < n
    · exact .inl ⟨d, hlt, hset⟩
    · have hw := BitVec.lt_of_getLsbD hset
      refine .inr ((h (n + i) (by omega)).2 ⟨d - n, by omega, ?_⟩)
      rwa [show n + i + (d - n) = i + d by omega]

/-- `y |= y >> n`, with the sign bit shifted in: the bits above a set sign bit are none. -/
theorem Smeared.double_signed (h : Smeared n x y) :
    Smeared (2 * n) x (y ||| y.sshiftRight n) := by
  intro i hi
  rw [BitVec.getLsbD_or, BitVec.getLsbD_sshiftRight, Bool.or_eq_true, ← h.double i hi,
    BitVec.getLsbD_or, BitVec.getLsbD_ushiftRight, Bool.or_eq_true]
  refine or_congr_right' fun hclear => ?_
  rw [show decide (w ≤ i) = false from decide_eq_false (by omega), Bool.not_false, Bool.true_and]
  split
  · exact Iff.rfl
  · rename_i hge
    -- the sign bit is one of the bits from `i` on
    have hout : y.getLsbD (n + i) = false := BitVec.getLsbD_of_ge y _ (by omega)
    rw [hout]
    refine iff_of_false (fun hmsb => hclear ?_) Bool.false_ne_true
    rw [BitVec.msb_eq_getLsbD_last] at hmsb
    obtain ⟨d, -, hset⟩ := (h (w - 1) (by omega)).1 hmsb
    obtain rfl : d = 0 := by
      have hlt := BitVec.lt_of_getLsbD hset
      omega
    exact (h i hi).2 ⟨w - 1 - i, by omega, by rwa [show i + (w - 1 - i) = w - 1 + 0 by omega]⟩

/-- All bits up to the highest set one. -/
theorem Smeared.eq_below (h : Smeared n x y) (hw : w ≤ n) (ht : IsHighest x t) :
    y = BitVec.ofNat w (2 ^ (t + 1) - 1) := by
  apply BitVec.eq_of_getLsbD_eq
  intro i hi
  rw [BitVec.getLsbD_ofNat, Nat.testBit_two_pow_sub_one, decide_eq_true hi, Bool.true_and,
    Bool.eq_iff_iff, h i hi, decide_eq_true_eq]
  constructor
  · rintro ⟨d, -, hset⟩
    by_contra hle
    rw [ht.2 (i + d) (by omega)] at hset
    cases hset
  · intro hle
    have hlt := ht.lt
    exact ⟨t - i, by omega, by rw [show i + (t - i) = t by omega]; exact ht.1⟩

end Smear

/-! ## Counting ones -/

/-- The number of ones among the lowest `k` bits. -/
def ones (k n : ℕ) : ℕ := (List.range k).countP fun i => n.testBit i

/-- A byte, `k` times over. -/
def rep (m : ℕ) : ℕ → ℕ
  | 0 => 0
  | k + 1 => m + 256 * rep m k

section Ones

variable {b y m : ℕ}

theorem testBit_byte (hb : b < 256) (i : ℕ) :
    (b + 256 * y).testBit i = if i < 8 then b.testBit i else y.testBit (i - 8) := by
  rw [Nat.add_comm, show 256 = 2 ^ 8 from rfl, Nat.testBit_two_pow_mul_add _ hb]

theorem and_byte (hb : b < 256) (hm : m < 256) (k : ℕ) :
    (b + 256 * y) &&& rep m (k + 1) = (b &&& m) + 256 * (y &&& rep m k) := by
  apply Nat.eq_of_testBit_eq
  intro i
  have hand : b &&& m < 256 := lt_of_le_of_lt Nat.and_le_left hb
  rw [rep, Nat.testBit_and, testBit_byte hb, testBit_byte hm, testBit_byte hand]
  split
  · rw [Nat.testBit_and]
  · rw [Nat.testBit_and]

theorem ones_byte (hb : b < 256) (k : ℕ) : ones (8 + k) (b + 256 * y) = ones 8 b + ones k y := by
  rw [ones, List.range_add, List.countP_append, List.countP_map]
  congr 1
  · refine List.countP_congr fun i hi => ?_
    rw [testBit_byte hb, if_pos (List.mem_range.1 hi)]
  · refine List.countP_congr fun i _ => ?_
    rw [Function.comp_apply, testBit_byte hb, if_neg (by omega), Nat.add_sub_cancel_left]

/-- `x - ((x >> 1) & 0x55..)` -/
def pairSums (k x : ℕ) : ℕ := x - (x / 2 &&& rep 0x55 k)

/-- `(x & 0x33..) + ((x >> 2) & 0x33..)` -/
def nibbleSums (k x : ℕ) : ℕ := (x &&& rep 0x33 k) + (x / 4 &&& rep 0x33 k)

/-- `(x + (x >> 4)) & 0x0f..` -/
def byteSums (k x : ℕ) : ℕ := x + x / 16 &&& rep 0x0f k

/-- The byte of a sum of bytes. -/
def byteOnes (b : ℕ) : ℕ := byteSums 1 (nibbleSums 1 (pairSums 1 b))

theorem byteOnes_eq : ∀ b < 256, byteOnes b = ones 8 b := by decide +kernel

theorem pairSums_byte (hb : b < 256) (k : ℕ) :
    pairSums (k + 1) (b + 256 * y) = pairSums 1 b + 256 * pairSums k y := by
  have hmask : ∀ b < 256, ∀ p < 2, (b / 2 + 128 * p) &&& 0x55 = b / 2 &&& 0x55 := by
    decide +kernel
  have hhalf : (b + 256 * y) / 2 = (b / 2 + 128 * (y % 2)) + 256 * (y / 2) := by omega
  have hand := and_byte (b := b / 2 + 128 * (y % 2)) (y := y / 2) (m := 0x55) (by omega)
    (by decide) k
  rw [hmask b hb _ (Nat.mod_lt _ (by decide))] at hand
  have hle : b / 2 &&& 0x55 ≤ b := Nat.and_le_left.trans (Nat.div_le_self b 2)
  have hle' : y / 2 &&& rep 0x55 k ≤ y := Nat.and_le_left.trans (Nat.div_le_self y 2)
  have hone : pairSums 1 b = b - (b / 2 &&& 0x55) := rfl
  rw [pairSums, hhalf, hand, hone, pairSums]
  omega

theorem nibbleSums_byte (hb : b < 256) (k : ℕ) :
    nibbleSums (k + 1) (b + 256 * y) = nibbleSums 1 b + 256 * nibbleSums k y := by
  have hmask : ∀ b < 256, ∀ p < 4, (b / 4 + 64 * p) &&& 0x33 = b / 4 &&& 0x33 := by
    decide +kernel
  have hquarter : (b + 256 * y) / 4 = (b / 4 + 64 * (y % 4)) + 256 * (y / 4) := by omega
  have hand := and_byte (b := b) (y := y) (m := 0x33) hb (by decide) k
  have hand' := and_byte (b := b / 4 + 64 * (y % 4)) (y := y / 4) (m := 0x33) (by omega)
    (by decide) k
  rw [hmask b hb _ (Nat.mod_lt _ (by decide))] at hand'
  have hone : nibbleSums 1 b = (b &&& 0x33) + (b / 4 &&& 0x33) := rfl
  rw [nibbleSums, hquarter, hand, hand', hone, nibbleSums]
  omega

/-- Sums of nibbles that do not run over into the next byte. -/
theorem byteSums_byte (hb : b ≤ 0x44) (hy : y % 16 ≤ 4) (k : ℕ) :
    byteSums (k + 1) (b + 256 * y) = byteSums 1 b + 256 * byteSums k y := by
  have hsum : b + 256 * y + (b + 256 * y) / 16 =
      (b + b / 16 + 16 * (y % 16)) + 256 * (y + y / 16) := by omega
  have hand := and_byte (b := b + b / 16 + 16 * (y % 16)) (y := y + y / 16) (m := 0x0f)
    (by omega) (by decide) k
  have hmod (n : ℕ) : n &&& 0x0f = n % 16 := Nat.and_two_pow_sub_one_eq_mod n 4
  have hone : byteSums 1 b = b + b / 16 &&& 0x0f := rfl
  rw [byteSums, hsum, hand, hone, byteSums, hmod, hmod]
  omega

/-- The lowest nibble of the sums is that of the lowest byte. -/
theorem nibbleSums_mod_le (k y : ℕ) : nibbleSums k (pairSums k y) % 16 ≤ 4 := by
  cases k with
  | zero => simp [nibbleSums, rep]
  | succ k =>
    have hbyte : ∀ b < 256, pairSums 1 b < 256 ∧ nibbleSums 1 (pairSums 1 b) % 16 ≤ 4 := by
      decide +kernel
    have hsplit : y = y % 256 + 256 * (y / 256) := by omega
    have hlt : y % 256 < 256 := Nat.mod_lt _ (by decide)
    rw [hsplit, pairSums_byte hlt, nibbleSums_byte (hbyte _ hlt).1]
    have hle := (hbyte _ hlt).2
    omega

/-- The three steps, on words of `k` bytes. -/
def swar (k x : ℕ) : ℕ := byteSums k (nibbleSums k (pairSums k x))

theorem swar_zero (x : ℕ) : swar 0 x = 0 := by simp [swar, byteSums, rep]

theorem swar_byte (hb : b < 256) (k : ℕ) :
    swar (k + 1) (b + 256 * y) = ones 8 b + 256 * swar k y := by
  have hbyte : ∀ b < 256, pairSums 1 b < 256 ∧ nibbleSums 1 (pairSums 1 b) ≤ 0x44 := by
    decide +kernel
  obtain ⟨hlt, hle⟩ := hbyte b hb
  rw [swar, pairSums_byte hb, nibbleSums_byte hlt, byteSums_byte hle (nibbleSums_mod_le k y),
    ← byteOnes_eq b hb]
  rfl

theorem ones_le (k n : ℕ) : ones k n ≤ k := by
  have h := List.countP_le_length (p := fun i => n.testBit i) (l := List.range k)
  rwa [List.length_range] at h

/-- The bytes of `swar` are the counts of the bytes. -/
theorem exists_counts (k x : ℕ) : ∃ counts : List ℕ, counts.length = k ∧ (∀ n ∈ counts, n ≤ 8) ∧
    swar k x = Nat.ofDigits 256 counts ∧ ones (8 * k) x = counts.sum := by
  induction k generalizing x with
  | zero => exact ⟨[], rfl, by simp, by rw [swar_zero, Nat.ofDigits_nil], rfl⟩
  | succ k ih =>
    obtain ⟨counts, hlength, hle, hswar, hones⟩ := ih (x / 256)
    have hlt : x % 256 < 256 := Nat.mod_lt _ (by decide)
    have hsplit : x = x % 256 + 256 * (x / 256) := by omega
    refine ⟨ones 8 (x % 256) :: counts, by rw [List.length_cons, hlength], ?_, ?_, ?_⟩
    · intro n hn
      rcases List.mem_cons.1 hn with rfl | hn
      · exact ones_le 8 _
      · exact hle n hn
    · rw [hsplit, swar_byte hlt, hswar, Nat.ofDigits_cons, ← hsplit]
    · have hstep := ones_byte (y := x / 256) hlt (8 * k)
      rw [← hsplit, hones] at hstep
      rw [show 8 * (k + 1) = 8 + 8 * k by omega, hstep, List.sum_cons]

theorem rep_succ_last (m k : ℕ) : rep m (k + 1) = rep m k + m * 256 ^ k := by
  induction k with
  | zero => simp only [rep, pow_zero, Nat.mul_zero, Nat.add_zero, Nat.zero_add, Nat.mul_one]
  | succ k ih =>
    calc m + 256 * rep m (k + 1)
        = m + 256 * (rep m k + m * 256 ^ k) := by rw [ih]
      _ = m + 256 * rep m k + m * 256 ^ (k + 1) := by
          rw [pow_succ]
          ring

theorem rep_one (k : ℕ) : 255 * rep 1 k + 1 = 256 ^ k := by
  induction k with
  | zero => rfl
  | succ k ih =>
    rw [rep, pow_succ, ← ih]
    ring

/-- The place of a product with `0x0101..` that collects all bytes. -/
theorem exists_product {counts : List ℕ} {k : ℕ} (hlength : counts.length = k + 1) :
    ∃ low high, Nat.ofDigits 256 counts * rep 1 (k + 1) =
      low + 256 ^ k * (counts.sum + 256 * high) ∧ low ≤ counts.sum * rep 1 k := by
  induction k generalizing counts with
  | zero =>
    obtain ⟨a, rfl⟩ := List.length_eq_one_iff.1 hlength
    exact ⟨0, 0, by simp [rep], Nat.zero_le _⟩
  | succ k ih =>
    obtain ⟨a, rest, rfl⟩ := List.exists_cons_of_length_eq_add_one hlength
    obtain ⟨low, high, hproduct, hlow⟩ := ih (Nat.succ.inj hlength)
    refine ⟨256 * low + a * rep 1 (k + 1), high + Nat.ofDigits 256 rest, ?_, ?_⟩
    · calc Nat.ofDigits 256 (a :: rest) * rep 1 (k + 2)
          = a * rep 1 (k + 2) + 256 * (Nat.ofDigits 256 rest * rep 1 (k + 2)) := by
            rw [Nat.ofDigits_cons]
            ring
        _ = a * (rep 1 (k + 1) + 256 ^ (k + 1)) +
              256 * (Nat.ofDigits 256 rest * rep 1 (k + 1) +
                Nat.ofDigits 256 rest * 256 ^ (k + 1)) := by
            rw [rep_succ_last 1 (k + 1)]
            ring
        _ = _ := by
            rw [hproduct, List.sum_cons]
            ring
    · calc 256 * low + a * rep 1 (k + 1)
          ≤ 256 * (rest.sum * rep 1 k) + a * rep 1 (k + 1) := by gcongr
        _ ≤ rest.sum * rep 1 (k + 1) + a * rep 1 (k + 1) := by
            refine Nat.add_le_add_right ?_ _
            rw [show rep 1 (k + 1) = 1 + 256 * rep 1 k from rfl, Nat.mul_add, Nat.mul_left_comm]
            exact Nat.le_add_left _ _
        _ = (a :: rest).sum * rep 1 (k + 1) := by
            rw [List.sum_cons]
            ring

/-- The highest byte of the product with `0x0101..` is the sum of the bytes. -/
theorem sum_of_product {counts : List ℕ} {k : ℕ} (hlength : counts.length = k + 1)
    (hsum : counts.sum < 256) :
    Nat.ofDigits 256 counts * rep 1 (k + 1) % 256 ^ (k + 1) / 256 ^ k = counts.sum := by
  obtain ⟨low, high, hproduct, hlow⟩ := exists_product hlength
  have hone := rep_one k
  have hlt : low < 256 ^ k := by
    have hle : counts.sum * rep 1 k ≤ 255 * rep 1 k := Nat.mul_le_mul_right _ (by omega)
    omega
  rw [hproduct, pow_succ, Nat.mod_mul_right_div_self, Nat.add_mul_div_left _ _ (by positivity),
    Nat.div_eq_of_lt hlt]
  omega

end Ones

end TccRiscv64.Isa
