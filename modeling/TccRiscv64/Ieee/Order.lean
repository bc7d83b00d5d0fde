import TccRiscv64.Ieee.Format

set_option autoImplicit false

/-! # The order of the numbers of a format

The numbers of a format, infinities included, are ordered like the integers that their encodings
are when the sign bit is read as a sign. A comparison with a NaN is unordered. -/

namespace TccRiscv64.Ieee

namespace Format

variable (F : Format)

/-- The number that an encoding stands for. -/
def extended (b : ℕ) : WithBot (WithTop ℚ) :=
  if F.isInf b then if F.neg b then ⊥ else ((⊤ : WithTop ℚ) : WithBot (WithTop ℚ))
  else ((F.value b : WithTop ℚ) : WithBot (WithTop ℚ))

/-- The encoding, read as sign and magnitude. -/
def key (b : ℕ) : ℤ := if F.neg b then -(F.magBits b : ℤ) else F.magBits b

/-- The finite number with the given key. -/
def signedMag (k : ℤ) : ℚ := if k < 0 then -F.mag k.natAbs else F.mag k.natAbs

theorem signedMag_strictMono : StrictMono F.signedMag := by
  intro i j hij
  unfold signedMag
  rcases lt_or_ge i 0 with hi | hi
  · rw [if_pos hi]
    have hpos : 0 < F.mag i.natAbs := by
      rw [← F.mag_zero]
      exact F.mag_strictMono (by omega)
    rcases lt_or_ge j 0 with hj | hj
    · rw [if_pos hj]
      exact neg_lt_neg (F.mag_strictMono (by omega))
    · rw [if_neg (not_lt.2 hj)]
      exact (neg_lt_zero.2 hpos).trans_le (F.mag_nonneg _)
  · rw [if_neg (not_lt.2 hi), if_neg (by omega)]
    exact F.mag_strictMono (by omega)

/-- The number with the given key. -/
def ofKey (k : ℤ) : WithBot (WithTop ℚ) :=
  if k = -F.infBits then ⊥
  else if k = F.infBits then ((⊤ : WithTop ℚ) : WithBot (WithTop ℚ))
  else ((F.signedMag k : WithTop ℚ) : WithBot (WithTop ℚ))

theorem ofKey_strictMonoOn : StrictMonoOn F.ofKey (Set.Icc (-(F.infBits : ℤ)) F.infBits) := by
  intro i hi j hj hij
  have hjlow : j ≠ -F.infBits := (hi.1.trans_lt hij).ne'
  have hihigh : i ≠ F.infBits := (hij.trans_le hj.2).ne
  unfold ofKey
  rw [if_neg hjlow, if_neg hihigh]
  by_cases hilow : i = -F.infBits
  · rw [if_pos hilow]
    split <;> exact WithBot.bot_lt_coe _
  · rw [if_neg hilow]
    split
    · exact WithBot.coe_lt_coe.2 (WithTop.coe_lt_top _)
    · exact WithBot.coe_lt_coe.2 (WithTop.coe_lt_coe.2 (F.signedMag_strictMono hij))

variable {F}

theorem key_mem {b : ℕ} (h : ¬ F.isNaN b) : F.key b ∈ Set.Icc (-(F.infBits : ℤ)) F.infBits := by
  have hle : F.magBits b ≤ F.infBits := not_lt.1 h
  unfold key
  split <;> constructor <;> omega

theorem extended_eq_ofKey (hF : 0 < F.infBits) (b : ℕ) : F.extended b = F.ofKey (F.key b) := by
  unfold extended ofKey key
  by_cases hinf : F.isInf b
  · have hmag : F.magBits b = F.infBits := hinf
    rw [if_pos hinf, hmag]
    by_cases hneg : F.neg b = true
    · rw [if_pos hneg, if_pos hneg, if_pos rfl]
    · rw [if_neg hneg, if_neg hneg, if_neg (by omega), if_pos rfl]
  · have hmag : F.magBits b ≠ F.infBits := hinf
    have hvalue : F.value b = F.signedMag (if F.neg b then -(F.magBits b : ℤ) else F.magBits b) := by
      unfold value signedMag
      split
      · rw [Int.natAbs_neg, Int.natAbs_natCast]
        split
        · rfl
        · have hzero : F.magBits b = 0 := by omega
          rw [hzero, F.mag_zero, neg_zero]
      · rw [Int.natAbs_natCast, if_neg (by omega)]
    rw [if_neg hinf, hvalue]
    have hlow : (if F.neg b then -(F.magBits b : ℤ) else F.magBits b) ≠ -F.infBits := by
      split <;> omega
    have hhigh : (if F.neg b then -(F.magBits b : ℤ) else F.magBits b) ≠ F.infBits := by
      split <;> omega
    rw [if_neg hlow, if_neg hhigh]

/-- Numbers are ordered like their keys. -/
theorem extended_lt_iff (hF : 0 < F.infBits) {a b : ℕ} (ha : ¬ F.isNaN a) (hb : ¬ F.isNaN b) :
    F.extended a < F.extended b ↔ F.key a < F.key b := by
  rw [extended_eq_ofKey hF, extended_eq_ofKey hF]
  exact F.ofKey_strictMonoOn.lt_iff_lt (key_mem ha) (key_mem hb)

theorem extended_le_iff (hF : 0 < F.infBits) {a b : ℕ} (ha : ¬ F.isNaN a) (hb : ¬ F.isNaN b) :
    F.extended a ≤ F.extended b ↔ F.key a ≤ F.key b := by
  rw [extended_eq_ofKey hF, extended_eq_ofKey hF]
  exact F.ofKey_strictMonoOn.le_iff_le (key_mem ha) (key_mem hb)

theorem extended_eq_iff (hF : 0 < F.infBits) {a b : ℕ} (ha : ¬ F.isNaN a) (hb : ¬ F.isNaN b) :
    F.extended a = F.extended b ↔ F.key a = F.key b := by
  rw [extended_eq_ofKey hF, extended_eq_ofKey hF]
  exact F.ofKey_strictMonoOn.injOn.eq_iff (key_mem ha) (key_mem hb)

end Format

/-! ## The relational operators -/

/-- The operators that compare two numbers. -/
inductive Relation
  | eq | ne | lt | ge | le | gt
  deriving DecidableEq, Repr

namespace Relation

/-- What IEEE 754 says of an operator: everything but `!=` is false of a NaN. -/
def Holds (F : Format) (r : Relation) (a b : ℕ) : Prop :=
  let ordered (p : Prop) := ¬ F.isNaN a ∧ ¬ F.isNaN b ∧ p
  match r with
  | eq => ordered (F.extended a = F.extended b)
  | ne => ¬ ordered (F.extended a = F.extended b)
  | lt => ordered (F.extended a < F.extended b)
  | ge => ordered (F.extended b ≤ F.extended a)
  | le => ordered (F.extended a ≤ F.extended b)
  | gt => ordered (F.extended b < F.extended a)

/-- The operator on integers. -/
def Compares (r : Relation) (i j : ℤ) : Prop :=
  match r with
  | eq => i = j
  | ne => i ≠ j
  | lt => i < j
  | ge => j ≤ i
  | le => i ≤ j
  | gt => j < i

instance (r : Relation) (i j : ℤ) : Decidable (r.Compares i j) :=
  match r with
  | eq => inferInstanceAs (Decidable (i = j))
  | ne => inferInstanceAs (Decidable (i ≠ j))
  | lt => inferInstanceAs (Decidable (i < j))
  | ge => inferInstanceAs (Decidable (j ≤ i))
  | le => inferInstanceAs (Decidable (i ≤ j))
  | gt => inferInstanceAs (Decidable (j < i))

/-- Only the sign of the difference matters. -/
theorem compares_sign (r : Relation) (i j : ℤ) : r.Compares (i - j).sign 0 ↔ r.Compares i j := by
  cases r with
  | eq => exact Int.sign_eq_zero_iff_zero.trans sub_eq_zero
  | ne => exact not_congr (Int.sign_eq_zero_iff_zero.trans sub_eq_zero)
  | lt => exact Int.sign_neg_iff.trans sub_neg
  | ge => exact Int.sign_nonneg_iff.trans sub_nonneg
  | le => exact Int.sign_nonpos_iff.trans sub_nonpos
  | gt => exact Int.sign_pos_iff.trans sub_pos

variable {F : Format} {a b : ℕ}

theorem holds_of_isNaN (h : F.isNaN a ∨ F.isNaN b) (r : Relation) : r.Holds F a b ↔ r = ne := by
  have hnot (p : Prop) : ¬ (¬ F.isNaN a ∧ ¬ F.isNaN b ∧ p) := fun h' => h.elim h'.1 h'.2.1
  cases r with
  | ne => exact iff_of_true (hnot _) rfl
  | eq | lt | ge | le | gt => exact iff_of_false (hnot _) (by decide)

/-- Numbers compare like their keys. -/
theorem holds_iff_compares (hF : 0 < F.infBits) (ha : ¬ F.isNaN a) (hb : ¬ F.isNaN b)
    (r : Relation) : r.Holds F a b ↔ r.Compares (F.key a) (F.key b) := by
  have hordered (p : Prop) : (¬ F.isNaN a ∧ ¬ F.isNaN b ∧ p) ↔ p := by
    rw [and_iff_right ha, and_iff_right hb]
  cases r with
  | eq => exact (hordered _).trans (Format.extended_eq_iff hF ha hb)
  | ne => exact not_congr ((hordered _).trans (Format.extended_eq_iff hF ha hb))
  | lt => exact (hordered _).trans (Format.extended_lt_iff hF ha hb)
  | ge => exact (hordered _).trans (Format.extended_le_iff hF hb ha)
  | le => exact (hordered _).trans (Format.extended_le_iff hF ha hb)
  | gt => exact (hordered _).trans (Format.extended_lt_iff hF hb ha)

end Relation

end TccRiscv64.Ieee
