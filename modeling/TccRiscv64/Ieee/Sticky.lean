import TccRiscv64.Ieee.Format

set_option autoImplicit false

/-! # Sticky bits

An integer `x` stands for an exact magnitude `q` with a sticky bit when either `q = x`, or `x` is
odd and `q` lies strictly between its two even neighbours: the last bit only records that
something nonzero was lost. `StickyAt k` is the same for an integer whose last `k` bits are known
to be padding, as after a normalising left shift. Shifting right with `jam` keeps the relation, and
a sticky integer with two extra bits decides a round-to-nearest-even exactly
(`Sticky.roundsTo`). -/

namespace TccRiscv64.Ieee

/-- Shift right by `s`, or-ing into the last bit whether anything nonzero was shifted out. -/
def jam (s x : ℕ) : ℕ := x / 2 ^ s ||| (if x % 2 ^ s = 0 then 0 else 1)

/-- `x` is the exact magnitude `q` padded with `k` zero bits, its last proper bit being sticky. -/
def StickyAt (k x : ℕ) (q : ℚ) : Prop :=
  q = x ∨ ∃ y : ℕ, y % 2 = 1 ∧ x = y * 2 ^ k ∧ ((y : ℚ) - 1) * 2 ^ k < q ∧ q < (y + 1) * 2 ^ k

/-- `x` is the exact magnitude `q`, its last bit being sticky. -/
def Sticky (x : ℕ) (q : ℚ) : Prop :=
  q = x ∨ (x % 2 = 1 ∧ (x : ℚ) - 1 < q ∧ q < x + 1)

theorem lor_one (n : ℕ) : n ||| 1 = if n % 2 = 0 then n + 1 else n := by
  have h1 := Nat.or_div_two_pow (a := n) (b := 1) (n := 1)
  have h2 := Nat.or_mod_two_pow (a := n) (b := 1) (n := 1)
  simp only [pow_one, Nat.reduceDiv, Nat.or_zero, Nat.one_mod] at h1 h2
  have h3 : n % 2 ||| 1 = 1 := by
    rcases Nat.mod_two_eq_zero_or_one n with h | h <;> rw [h] <;> rfl
  rw [h3] at h2
  split <;> omega

/-- Jamming in two steps. -/
theorem jam_jam (r s x : ℕ) : jam s (jam r x) = jam (r + s) x := by
  have hdiv : x / 2 ^ (r + s) = x / 2 ^ r / 2 ^ s := by rw [pow_add, Nat.div_div_eq_div_mul]
  have hmod : x % 2 ^ (r + s) = 0 ↔ x % 2 ^ r = 0 ∧ x / 2 ^ r % 2 ^ s = 0 := by
    rw [pow_add, Nat.mod_mul]
    have : 0 < 2 ^ r := by positivity
    constructor
    · intro h
      have h1 : x % 2 ^ r = 0 := by omega
      have h2 : 2 ^ r * (x / 2 ^ r % 2 ^ s) = 0 := by omega
      exact ⟨h1, (Nat.mul_eq_zero.mp h2).resolve_left (by omega)⟩
    · rintro ⟨h1, h2⟩
      rw [h1, h2, Nat.mul_zero]
  unfold jam
  rw [hdiv]
  simp only [hmod]
  by_cases h0 : x % 2 ^ r = 0
  · simp [h0]
  · simp only [h0, false_and, if_false]
    rcases Nat.eq_zero_or_pos s with rfl | hs
    · simp [Nat.mod_one]
    · -- the sticky bit itself is shifted out, and is remembered as nonzero
      obtain ⟨i, rfl⟩ : ∃ i, s = i + 1 := ⟨s - 1, by omega⟩
      have hodd : (x / 2 ^ r ||| 1) % 2 = 1 := by rw [lor_one]; split <;> omega
      have hhalf : (x / 2 ^ r ||| 1) / 2 = x / 2 ^ r / 2 := by rw [lor_one]; split <;> omega
      have hne : (x / 2 ^ r ||| 1) % 2 ^ (i + 1) ≠ 0 := by
        intro h
        have h2 := Nat.mod_mod_of_dvd (x / 2 ^ r ||| 1) (dvd_pow_self 2 (Nat.succ_ne_zero i))
        rw [h, hodd] at h2
        exact absurd h2 (by decide)
      rw [if_neg hne, pow_succ', ← Nat.div_div_eq_div_mul, hhalf, ← Nat.div_div_eq_div_mul]

theorem jam_lt {s j x : ℕ} (hj : 0 < j) (hx : x < 2 ^ (s + j)) : jam s x < 2 ^ j := by
  have hdiv : x / 2 ^ s < 2 ^ j := by
    rw [Nat.div_lt_iff_lt_mul (by positivity), ← pow_add, Nat.add_comm j]; exact hx
  apply Nat.or_lt_two_pow hdiv
  split
  · positivity
  · exact Nat.one_lt_two_pow hj.ne'

theorem le_jam {s j x : ℕ} (hx : 2 ^ (s + j) ≤ x) : 2 ^ j ≤ jam s x := by
  refine le_trans ?_ Nat.left_le_or
  rw [Nat.le_div_iff_mul_le (by positivity), ← pow_add, Nat.add_comm j]
  exact hx

theorem stickyAt_zero {x : ℕ} {q : ℚ} : StickyAt 0 x q ↔ Sticky x q := by
  unfold StickyAt Sticky
  simp only [pow_zero, mul_one]
  constructor
  · rintro (h | ⟨y, hodd, rfl, hlo, hhi⟩)
    · exact Or.inl h
    · exact Or.inr ⟨hodd, hlo, hhi⟩
  · rintro (h | ⟨hodd, hlo, hhi⟩)
    · exact Or.inl h
    · exact Or.inr ⟨x, hodd, rfl, hlo, hhi⟩

theorem stickyAt_exact (k x : ℕ) : StickyAt k x x := Or.inl rfl

/-- A sticky integer vanishes exactly when the magnitude it records does. -/
theorem Sticky.eq_zero_iff {x : ℕ} {q : ℚ} (h : Sticky x q) : x = 0 ↔ q = 0 := by
  rcases h with rfl | ⟨hodd, hlo, _⟩
  · exact_mod_cast Iff.rfl
  · have hx : (1 : ℚ) ≤ x := by exact_mod_cast (by omega : 1 ≤ x)
    constructor
    · rintro rfl; omega
    · rintro rfl; linarith

/-- Padding a sticky integer on the right. -/
theorem Sticky.shiftLeft {x : ℕ} {q : ℚ} (h : Sticky x q) (k : ℕ) :
    StickyAt k (x * 2 ^ k) (q * 2 ^ k) := by
  have hpos : (0 : ℚ) < 2 ^ k := by positivity
  rcases h with rfl | ⟨hodd, hlo, hhi⟩
  · left; push_cast; rfl
  · exact Or.inr ⟨x, hodd, rfl, mul_lt_mul_of_pos_right hlo hpos, mul_lt_mul_of_pos_right hhi hpos⟩

/-- A sticky integer and the magnitude it records lie in the same binade. -/
theorem StickyAt.two_pow_le {k x j : ℕ} {q : ℚ} (h : StickyAt k x q) (hk : k < j)
    (hx : 2 ^ j ≤ x) : 2 ^ j ≤ q := by
  rcases h with rfl | ⟨y, hodd, rfl, hlo, -⟩
  · exact_mod_cast hx
  · obtain ⟨i, rfl⟩ := Nat.exists_eq_add_of_lt hk
    have hy : 2 ^ (i + 1) ≤ y := by
      rw [Nat.add_assoc, pow_add, Nat.mul_comm] at hx
      exact Nat.le_of_mul_le_mul_right hx (by positivity)
    have hy1 : 2 ^ (i + 1) + 1 ≤ y := by
      rcases Nat.lt_or_eq_of_le hy with h | h
      · exact h
      · rw [← h, pow_succ] at hodd; omega
    have hyq : (2 : ℚ) ^ (i + 1) ≤ y - 1 := by
      have : ((2 ^ (i + 1) + 1 : ℕ) : ℚ) ≤ y := by exact_mod_cast hy1
      push_cast at this; linarith
    calc (2 : ℚ) ^ (k + i + 1) = 2 ^ (i + 1) * 2 ^ k := by ring
      _ ≤ (y - 1) * 2 ^ k := mul_le_mul_of_nonneg_right hyq (by positivity)
      _ ≤ q := hlo.le

/-- The shifted-out part pins the exact quotient between two integers, and jamming marks it. -/
theorem sticky_of_floor {f : ℕ} {q : ℚ} (hlo : (f : ℚ) < q) (hhi : q < f + 1) :
    Sticky (f ||| 1) q := by
  right
  rw [lor_one]
  split
  · refine ⟨by omega, ?_, ?_⟩ <;> push_cast <;> linarith
  · refine ⟨by omega, ?_, ?_⟩ <;> linarith

/-- A quotient with its remainder flagged in the last bit. -/
theorem sticky_of_remainder {n d f r : ℕ} (hd : 0 < d) (h : n = f * d + r) (hr : r < d) :
    Sticky (f ||| (if r = 0 then 0 else 1)) ((n : ℚ) / d) := by
  have hdQ : (0 : ℚ) < d := by exact_mod_cast hd
  have hn : (n : ℚ) = f * d + r := by exact_mod_cast h
  split
  · next h0 =>
      left
      rw [Nat.or_zero, div_eq_iff hdQ.ne', hn, h0]
      simp
  · next h0 =>
      have hlt : (r : ℚ) < d := by exact_mod_cast hr
      have hgt : (0 : ℚ) < r := by exact_mod_cast Nat.pos_of_ne_zero h0
      apply sticky_of_floor
      · rw [lt_div_iff₀ hdQ]; linarith
      · rw [div_lt_iff₀ hdQ]; linarith

/-- Jamming an integer records it up to a sticky bit. -/
theorem sticky_jam (s x : ℕ) : Sticky (jam s x) ((x : ℚ) / 2 ^ s) := by
  have hpos : 0 < 2 ^ s := by positivity
  have h := sticky_of_remainder hpos (Nat.div_add_mod' x (2 ^ s)).symm (Nat.mod_lt x hpos)
  push_cast at h
  exact h

/-- Shifting right by at least the padding keeps a sticky integer sticky. -/
theorem StickyAt.jam {k x : ℕ} {q : ℚ} (h : StickyAt k x q) {s : ℕ} (hs : k ≤ s) :
    Sticky (jam s x) (q / 2 ^ s) := by
  rcases h with rfl | ⟨y, hodd, rfl, hlo, hhi⟩
  · exact sticky_jam s x
  · obtain ⟨j, rfl⟩ := Nat.exists_eq_add_of_le hs
    have hk : (0 : ℚ) < 2 ^ k := by positivity
    have hj : (0 : ℚ) < 2 ^ j := by positivity
    have hq : q / 2 ^ (k + j) = q / 2 ^ k / 2 ^ j := by rw [pow_add, div_div]
    have hlo' : (y : ℚ) - 1 < q / 2 ^ k := by rw [lt_div_iff₀ hk]; exact hlo
    have hhi' : q / 2 ^ k < y + 1 := by rw [div_lt_iff₀ hk]; exact hhi
    have hdiv : y * 2 ^ k / 2 ^ (k + j) = y / 2 ^ j := by
      rw [pow_add, Nat.mul_comm, Nat.mul_div_mul_left _ _ (by positivity)]
    have hmod : y * 2 ^ k % 2 ^ (k + j) = y % 2 ^ j * 2 ^ k := by
      rw [pow_add, Nat.mul_comm y, Nat.mul_mod_mul_left, Nat.mul_comm]
    rw [hq]
    unfold Ieee.jam
    rw [hdiv, hmod]
    rcases Nat.eq_zero_or_pos j with rfl | hjpos
    · -- nothing beyond the padding is shifted out: the old sticky bit is the new one
      right
      simp only [pow_zero, Nat.mod_one, Nat.zero_mul, if_true, Nat.or_zero, Nat.div_one, div_one]
      exact ⟨hodd, hlo', hhi'⟩
    · obtain ⟨i, rfl⟩ : ∃ i, j = i + 1 := ⟨j - 1, by omega⟩
      have hsplit := Nat.div_add_mod' y (2 ^ (i + 1))
      have hmodpos : y % 2 ^ (i + 1) % 2 = 1 := by
        rw [Nat.mod_mod_of_dvd y (dvd_pow_self 2 (Nat.succ_ne_zero i))]; exact hodd
      have hne : y % 2 ^ (i + 1) * 2 ^ k ≠ 0 := by
        have : 0 < 2 ^ k := by positivity
        have : 0 < y % 2 ^ (i + 1) := by omega
        positivity
      have hltN : y % 2 ^ (i + 1) < 2 ^ (i + 1) := Nat.mod_lt _ (by positivity)
      have hge1 : 1 ≤ y % 2 ^ (i + 1) := by omega
      have hsplitQ : (y : ℚ) = (y / 2 ^ (i + 1) : ℕ) * 2 ^ (i + 1) + (y % 2 ^ (i + 1) : ℕ) := by
        exact_mod_cast hsplit.symm
      have hgeQ : (1 : ℚ) ≤ (y % 2 ^ (i + 1) : ℕ) := by exact_mod_cast hge1
      have hltQ : ((y % 2 ^ (i + 1) : ℕ) : ℚ) + 1 ≤ 2 ^ (i + 1) := by exact_mod_cast hltN
      rw [if_neg hne]
      apply sticky_of_floor
      · rw [lt_div_iff₀ hj]; linarith
      · rw [div_lt_iff₀ hj]; linarith

/-! ## Rounding from two extra bits -/

/-- The increment decided by the two bits below the last kept one, ties going to even. -/
def roundUp (z : ℕ) : ℕ := if z % 4 = 3 ∨ (z % 4 = 2 ∧ z / 4 % 2 = 1) then 1 else 0

/-- A sticky integer holding the magnitude in quarters of the unit in the last place of `n` above
    `n`'s magnitude rounds it: `n + roundUp z` is the encoding. The parity of the kept quotient is
    the parity of `n` because encodings and significands end in the same bit. -/
theorem Sticky.roundsTo {F : Format} {x ulp t : ℚ} {n z : ℕ} (hn : n < F.infBits)
    (hulp : 0 < ulp) (hlo : F.mag n = (z / 4 : ℕ) * ulp)
    (hhi : F.mag (n + 1) = F.mag n + ulp) (hx : x = t / 4 * ulp) (ht : Sticky z t)
    (hpar : n % 2 = z / 4 % 2) : F.RoundsTo x (n + roundUp z) := by
  have hz : (z : ℚ) = 4 * (z / 4 : ℕ) + (z % 4 : ℕ) := by
    exact_mod_cast (Nat.div_add_mod z 4).symm
  set s : ℚ := ((z / 4 : ℕ) : ℚ) with hs
  have hmid : F.mag n + F.mag (n + 1) = (2 * s + 1) * ulp := by rw [hhi, hlo]; ring
  have h2x : 2 * x = t / 2 * ulp := by rw [hx]; ring
  have hbracket : 4 * s ≤ t → t ≤ 4 * s + 4 → F.mag n ≤ x ∧ x ≤ F.mag (n + 1) := by
    intro h1 h2
    rw [hhi, hlo, hx]
    constructor
    · exact mul_le_mul_of_nonneg_right (by linarith) hulp.le
    · nlinarith
  have hcase : z % 4 = 0 ∨ z % 4 = 1 ∨ z % 4 = 2 ∨ z % 4 = 3 := by omega
  rcases hcase with h | h | h | h
  · -- exact
    have htz : t = 4 * s := by
      rcases ht with ht | ⟨hodd, _, _⟩
      · rw [ht, hz, h]; simp
      · omega
    obtain ⟨h1, h2⟩ := hbracket (by linarith) (by linarith)
    refine Format.roundsTo_of_bracket hn h1 h2 (Or.inl ⟨by simp [roundUp, h], Or.inl ?_⟩)
    rw [hmid, h2x, htz]; nlinarith
  · -- below the midpoint
    have htz : 4 * s ≤ t ∧ t < 4 * s + 2 := by
      rw [h] at hz
      rcases ht with ht | ⟨_, hl, hu⟩
      · rw [ht, hz]; constructor <;> norm_num
      · rw [hz] at hl hu; push_cast at hl hu; constructor <;> linarith
    obtain ⟨h1, h2⟩ := hbracket htz.1 (by linarith [htz.2])
    refine Format.roundsTo_of_bracket hn h1 h2 (Or.inl ⟨by simp [roundUp, h], Or.inl ?_⟩)
    rw [hmid, h2x]; nlinarith [htz.2]
  · -- the midpoint itself: the parity decides
    have htz : t = 4 * s + 2 := by
      rcases ht with ht | ⟨hodd, _, _⟩
      · rw [ht, hz, h]; norm_num
      · omega
    obtain ⟨h1, h2⟩ := hbracket (by linarith) (by linarith)
    have heq : 2 * x = F.mag n + F.mag (n + 1) := by rw [hmid, h2x, htz]; ring
    apply Format.roundsTo_of_bracket hn h1 h2
    by_cases hodd : z / 4 % 2 = 1
    · exact Or.inr ⟨by simp [roundUp, h, hodd], Or.inr ⟨heq, Nat.even_iff.mpr (by omega)⟩⟩
    · exact Or.inl ⟨by simp [roundUp, h, hodd], Or.inr ⟨heq, Nat.even_iff.mpr (by omega)⟩⟩
  · -- above the midpoint
    have htz : 4 * s + 2 < t ∧ t ≤ 4 * s + 4 := by
      rw [h] at hz
      rcases ht with ht | ⟨_, hl, hu⟩
      · rw [ht, hz]; constructor <;> norm_num
      · rw [hz] at hl hu; push_cast at hl hu; constructor <;> linarith
    obtain ⟨h1, h2⟩ := hbracket (by linarith [htz.1]) htz.2
    refine Format.roundsTo_of_bracket hn h1 h2 (Or.inr ⟨by simp [roundUp, h], Or.inl ?_⟩)
    rw [hmid, h2x]; nlinarith [htz.1]

end TccRiscv64.Ieee
