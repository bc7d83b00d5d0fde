import TccRiscv64.Gen.LoadConst

set_option autoImplicit false

/-! # Comparing a register with a constant

The part of `gen_opil` that a comparison of a register with a constant goes through. Small constants
go into the instruction, the others are loaded into a register. -/

namespace TccRiscv64.Gen

open TccRiscv64.Isa

/-- A comparison on the value stack: the code emitted for it, `cmp_op` and the registers of `cmp_r`. -/
structure Comparison where
  words : List Word
  op : Cond
  a : XReg
  b : XReg

/-- `vtop->cmp_op ^= 1` -/
def Comparison.not (r : Comparison) : Comparison := { r with op := r.op.not }

section Model

variable (t : IntType) (a d : XReg) (c : BitVec 64)

/-- Both operands in registers, the constant in `d`. -/
def compareRegisters (op : Cond) : Option Comparison := do
  some ⟨← loadConst d t c, op, a, d⟩

/-- `slti` or `sltiu` into `d`, which is then compared with zero. -/
def compareImmediate (func3 : BitVec 3) (fc : BitVec 32) : Option Comparison := do
  some ⟨[← ei 0x13#7 func3 d a fc], .ne, d, 0#5⟩

/-- The tokens that are compared by `slti` and `sltiu`; where the constant cannot be incremented, it
is loaded. -/
def genLess (op : Cond) : Option Comparison :=
  let fc := c.setWidth 32
  match op with
  | .lt => compareImmediate a d 2#3 fc
  | .le =>
    if 2047 ≤ fc.toInt then compareRegisters t a d c .le else compareImmediate a d 2#3 (fc + 1#32)
  | .ult => compareImmediate a d 3#3 fc
  | .ule =>
    if 2047 ≤ fc.toInt ∨ fc = -1#32 then compareRegisters t a d c .ule
    else compareImmediate a d 3#3 (fc + 1#32)
  | _ => none

/-- `gen_opil` for `-`, on 32 bits unless the type is wide. -/
def genSub : Option (List Word) :=
  let fc := c.setWidth 32
  let word := wordBit !t.isWide
  if fc.toInt ≤ -2048 then do
    some ((← loadConst d t c) ++ [er (0x33#7 ||| word) 0#3 d a d 0x20#7])
  else do some [← ei (0x13#7 ||| word) 0#3 d a (-fc)]

/-- `gen_opil` for a comparison of the register `a` with the constant `c` of the type `t`, where `d` is
the register that is free. -/
def genCompare (op : Cond) : Option Comparison :=
  let fc := c.setWidth 32
  if fc.signExtend 64 = c ∧ Fits12 fc then
    match op with
    | .eq | .ne =>
      if fc ≠ 0#32 then do some ⟨← genSub t a d c, op, d, 0#5⟩ else some ⟨[], op, a, 0#5⟩
    | .uge | .ugt | .ge | .gt => (genLess t a d c op.not).map Comparison.not
    | op => genLess t a d c op
  else compareRegisters t a d c op

end Model

/-! ## What is compared -/

/-- The code of a comparison writes no register but `d`, and leaves operands for which the comparison
has the given truth value. -/
def Comparison.Decides (r : Comparison) (d : XReg) (m : Machine) (b : Bool) : Prop :=
  ∃ m', run r.words m = some m' ∧ SameBut d m m' ∧ r.op.holds (m'.reg r.a) (m'.reg r.b) = b

section Spec

variable {t : IntType} {a d : XReg} {c : BitVec 64} {m : Machine}

theorem Comparison.Decides.not {r : Comparison} {b : Bool} (h : r.Decides d m b) :
    r.not.Decides d m !b := by
  obtain ⟨m', hrun, hsame, hholds⟩ := h
  exact ⟨m', hrun, hsame, by rw [← hholds]; exact Cond.holds_not ..⟩

/-- A constant of 12 bits is its own low word, sign-extended. -/
structure Small (c : BitVec 64) : Prop where
  canonical : Canonical c
  fits : Fits12 (lowWord c)

theorem Small.bounds (h : Small c) : -2048 ≤ (lowWord c).toInt ∧ (lowWord c).toInt < 2048 := by
  obtain ⟨_, -, hlo, hhi⟩ := toInt_low12 (lowWord c)
  rw [(fits12_iff _).mp h.fits] at hlo hhi
  exact ⟨hlo, hhi⟩

theorem Canonical.toInt_eq (h : Canonical c) : c.toInt = (lowWord c).toInt := by
  conv_lhs => rw [← show (lowWord c).signExtend 64 = c from h]
  exact BitVec.toInt_signExtend_of_le (by decide)

theorem loadedConst_of_canonical (h : Canonical c) : loadedConst t c = c := if_pos h

theorem compareRegisters_decides (hd : d ≠ 0#5) (had : a ≠ d) (op : Cond) :
    ∃ r, compareRegisters t a d c op = some r ∧
      ∀ m, r.Decides d m (op.holds (m.reg a) (loadedConst t c)) := by
  obtain ⟨ws, hws, hrun⟩ := loadConst_loads hd t c
  refine ⟨⟨ws, op, a, d⟩, ?_, fun m => ?_⟩
  · unfold compareRegisters
    rw [hws]
    rfl
  · obtain ⟨m', hm', hsame, hreg⟩ := hrun m
    refine ⟨m', hm', hsame, ?_⟩
    rw [hsame.2 a had, hreg]

/-- A truth value is not zero if it is true. -/
theorem ne_zero_ofBool (b : Bool) : Cond.ne.holds (ofBool b : BitVec 64) 0#64 = b := by
  cases b <;> rfl

theorem compareImmediate_decides (hd : d ≠ 0#5) {func3 : BitVec 3} {op : AluOp} {fc : BitVec 32}
    {f : BitVec 64 → BitVec 64 → Bool} (hfc : Fits12 fc) (h1 : func3 ≠ 1#3) (h5 : func3 ≠ 5#3)
    (hop : immOp func3 = op) (hf : ∀ x y, op.result false x y = ofBool (f x y)) :
    ∃ r, compareImmediate a d func3 fc = some r ∧
      ∀ m, r.Decides d m (f (m.reg a) (BitVec.ofInt 64 fc.toInt)) := by
  refine ⟨⟨[eiu 0x13#7 func3 d a fc], .ne, d, 0#5⟩, ?_, fun m => ?_⟩
  · unfold compareImmediate
    rw [ei_of_fits12 hfc]
    rfl
  · refine ⟨_, (run_singleton _ m).trans (execWord_imm m d a fc h1 h5), sameBut_setReg .., ?_⟩
    rw [Machine.reg_setReg_self m hd, Machine.reg_zero, hop, immediate_eq_ofInt hfc, hf,
      ne_zero_ofBool]

/-- A small constant that can be incremented. -/
theorem Small.succ (h : Small c) (hlt : (lowWord c).toInt < 2047) :
    Fits12 (lowWord c + 1#32) ∧ (lowWord c + 1#32).toInt = c.toInt + 1 := by
  have hb := h.bounds
  have hone : (1#32).toInt = 1 := by decide
  have hsum : (lowWord c + 1#32).toInt = (lowWord c).toInt + 1 := by
    rw [BitVec.toInt_add, hone]
    exact Int.bmod_eq_of_le (by norm_num; omega) (by norm_num; omega)
  refine ⟨fits12_of_toInt (by omega) (by omega), ?_⟩
  rw [hsum, h.canonical.toInt_eq]

theorem slt_succ {x y : BitVec 64} (h : y.toInt < 2 ^ 62) :
    x.slt (BitVec.ofInt 64 (y.toInt + 1)) = x.sle y := by
  have hlo := BitVec.le_toInt y
  have hsum : (BitVec.ofInt 64 (y.toInt + 1)).toInt = y.toInt + 1 := by
    rw [BitVec.toInt_ofInt]
    exact Int.bmod_eq_of_le (by norm_num at hlo ⊢; omega) (by norm_num at h ⊢; omega)
  rw [Bool.eq_iff_iff, BitVec.slt_iff_toInt_lt, BitVec.sle_iff_toInt_le, hsum]
  exact Int.lt_add_one_iff

theorem ult_succ {x y : BitVec 64} (h : y ≠ -1#64) :
    x.ult (BitVec.ofInt 64 (y.toInt + 1)) = x.ule y := by
  have hlt := y.isLt
  have hne : y.toNat ≠ 2 ^ 64 - 1 := fun heq => h (BitVec.eq_of_toNat_eq heq)
  have hone : BitVec.ofInt 64 1 = 1#64 := by decide
  have hsum : (BitVec.ofInt 64 (y.toInt + 1)).toNat = y.toNat + 1 := by
    rw [BitVec.ofInt_add, BitVec.ofInt_toInt, hone, BitVec.toNat_add]
    exact Nat.mod_eq_of_lt (by simp only [BitVec.toNat_ofNat]; omega)
  rw [Bool.eq_iff_iff, BitVec.ult_iff_toNat_lt, BitVec.ule_iff_toNat_le, hsum]
  exact Nat.lt_add_one_iff

/-- The tokens that `slti` and `sltiu` stand for. -/
theorem genLess_decides (hd : d ≠ 0#5) (had : a ≠ d) (hc : Small c) {op : Cond}
    (hop : op = .lt ∨ op = .le ∨ op = .ult ∨ op = .ule) :
    ∃ r, genLess t a d c op = some r ∧ ∀ m, r.Decides d m (op.holds (m.reg a) c) := by
  have hload := loadedConst_of_canonical (t := t) hc.canonical
  have hself : BitVec.ofInt 64 (lowWord c).toInt = c := by
    rw [← hc.canonical.toInt_eq, BitVec.ofInt_toInt]
  have hbounds := hc.bounds
  rcases hop with rfl | rfl | rfl | rfl
  · obtain ⟨r, hr, hdecides⟩ := @compareImmediate_decides a d hd 2#3 _ _ (fun x y => x.slt y) hc.fits
      (by decide) (by decide) rfl fun _ _ => rfl
    rw [hself] at hdecides
    exact ⟨r, hr, hdecides⟩
  · by_cases h : 2047 ≤ (lowWord c).toInt
    · obtain ⟨r, hr, hdecides⟩ := @compareRegisters_decides t a d c hd had .le
      rw [hload] at hdecides
      exact ⟨r, (if_pos h).trans hr, hdecides⟩
    · obtain ⟨hfits, hsucc⟩ := hc.succ (by omega)
      obtain ⟨r, hr, hdecides⟩ := @compareImmediate_decides a d hd 2#3 _ _ (fun x y => x.slt y) hfits
        (by decide) (by decide) rfl fun _ _ => rfl
      refine ⟨r, (if_neg h).trans hr, fun m => ?_⟩
      have hm := hdecides m
      rw [hsucc, slt_succ (by rw [hc.canonical.toInt_eq]; omega)] at hm
      exact hm
  · obtain ⟨r, hr, hdecides⟩ := @compareImmediate_decides a d hd 3#3 _ _ (fun x y => x.ult y) hc.fits
      (by decide) (by decide) rfl fun _ _ => rfl
    rw [hself] at hdecides
    exact ⟨r, hr, hdecides⟩
  · by_cases h : 2047 ≤ (lowWord c).toInt ∨ lowWord c = -1#32
    · obtain ⟨r, hr, hdecides⟩ := @compareRegisters_decides t a d c hd had .ule
      rw [hload] at hdecides
      exact ⟨r, (if_pos h).trans hr, hdecides⟩
    · obtain ⟨hfits, hsucc⟩ := hc.succ (by omega)
      obtain ⟨r, hr, hdecides⟩ := @compareImmediate_decides a d hd 3#3 _ _ (fun x y => x.ult y) hfits
        (by decide) (by decide) rfl fun _ _ => rfl
      refine ⟨r, (if_neg h).trans hr, fun m => ?_⟩
      have hm := hdecides m
      have hne : c ≠ -1#64 := by
        rintro rfl
        exact h (.inr (by decide))
      rw [hsucc, ult_succ hne] at hm
      exact hm

/-- The difference on 64 or on 32 bits is zero only for equal operands. -/
theorem sub_result_eq_zero_iff {x y : BitVec 64} {word : Bool}
    (hx : word = true → Canonical x) (hy : Canonical y) :
    AluOp.sub.result word x y = 0#64 ↔ x = y := by
  cases word with
  | false =>
    simp only [AluOp.result, Bool.false_eq_true, if_false, AluOp.eval]
    exact sub_eq_zero
  | true =>
    simp only [AluOp.result, if_true, wordForm, AluOp.eval]
    constructor
    · intro h
      have hlow := congrArg lowWord h
      rw [lowWord_signExtend] at hlow
      have heq : lowWord x = lowWord y := sub_eq_zero.mp hlow
      rw [← show (lowWord x).signExtend 64 = x from hx rfl, heq]
      exact hy
    · rintro rfl
      rw [sub_self]
      decide

section Neg

variable {fc : BitVec 32}

theorem toInt_neg_small (hlo : -2048 < fc.toInt) (hhi : fc.toInt < 2048) :
    (-fc).toInt = -fc.toInt := by
  rw [BitVec.toInt_neg]
  exact Int.bmod_eq_of_le (by norm_num; omega) (by norm_num; omega)

theorem fits12_neg (hlo : -2048 < fc.toInt) (hhi : fc.toInt < 2048) : Fits12 (-fc) := by
  have hneg := toInt_neg_small hlo hhi
  exact fits12_of_toInt (by omega) (by omega)

/-- Adding the opposite of a small constant is subtracting it. -/
theorem add_neg_result (x : BitVec 64) (word : Bool) (hlo : -2048 < fc.toInt)
    (hhi : fc.toInt < 2048) : AluOp.add.result word x (((-fc).setWidth 12).signExtend 64) =
      AluOp.sub.result word x (fc.signExtend 64) := by
  have hvalue : BitVec.ofInt 64 (-fc).toInt = -(fc.signExtend 64) := by
    rw [toInt_neg_small hlo hhi, BitVec.ofInt_neg]
    rfl
  rw [immediate_eq_ofInt (fits12_neg hlo hhi), hvalue]
  cases word with
  | false =>
    simp only [AluOp.result, Bool.false_eq_true, if_false, AluOp.eval]
    exact (BitVec.sub_eq_add_neg _ _).symm
  | true =>
    simp only [AluOp.result, if_true, wordForm, AluOp.eval]
    rw [BitVec.setWidth_neg_of_le (by decide), ← BitVec.sub_eq_add_neg]

end Neg

theorem genSub_zero (hd : d ≠ 0#5) (had : a ≠ d) (hc : Small c) :
    ∃ ws, genSub t a d c = some ws ∧ ∀ m, (t.isWide = false → Canonical (m.reg a)) →
      ∃ m', run ws m = some m' ∧ SameBut d m m' ∧ (m'.reg d = 0#64 ↔ m.reg a = c) := by
  have hbounds := hc.bounds
  by_cases h : (lowWord c).toInt ≤ -2048
  · obtain ⟨ws, hws, hrun⟩ := loadConst_loads hd t c
    refine ⟨ws ++ [er (0x33#7 ||| wordBit !t.isWide) 0#3 d a d 0x20#7], ?_, fun m hm => ?_⟩
    · unfold genSub
      rw [hws]
      exact if_pos h
    · obtain ⟨m', hm', hsame, hreg⟩ := hrun m
      have hsub := @execWord_er_alu m' (!t.isWide) d a d 0#3 0x20#7 .sub rfl fun _ => rfl
      refine ⟨_, run_snoc hm' hsub, hsame.trans (sameBut_setReg m' d _), ?_⟩
      rw [Machine.reg_setReg_self _ hd, hreg, hsame.2 a had, loadedConst_of_canonical hc.canonical]
      exact sub_result_eq_zero_iff (fun hw => hm (Bool.not_eq_true' _ ▸ hw)) hc.canonical
  · refine ⟨[eiu (0x13#7 ||| wordBit !t.isWide) 0#3 d a (-lowWord c)], ?_, fun m hm => ?_⟩
    · unfold genSub
      simp only [show c.setWidth 32 = lowWord c from rfl, if_neg h,
        ei_of_fits12 (fits12_neg (Int.not_le.mp h) hbounds.2)]
      rfl
    · have hresult := add_neg_result (m.reg a) (!t.isWide) (Int.not_le.mp h) hbounds.2
      refine ⟨_, (run_singleton _ m).trans (execWord_addi m (!t.isWide) d a (-lowWord c)),
        sameBut_setReg .., ?_⟩
      rw [Machine.reg_setReg_self m hd, hresult, show (lowWord c).signExtend 64 = c from hc.canonical]
      exact sub_result_eq_zero_iff (fun hw => hm (Bool.not_eq_true' _ ▸ hw)) hc.canonical

/-- **A comparison with a constant** is decided as if the loaded constant were compared. -/
theorem genCompare_decides (hd : d ≠ 0#5) (had : a ≠ d) (op : Cond) :
    ∃ r, genCompare t a d c op = some r ∧ ∀ m, (t.isWide = false → Canonical (m.reg a)) →
      r.Decides d m (op.holds (m.reg a) (loadedConst t c)) := by
  unfold genCompare
  by_cases hsmall : (c.setWidth 32).signExtend 64 = c ∧ Fits12 (c.setWidth 32)
  · have hc : Small c := ⟨hsmall.1, hsmall.2⟩
    rw [if_pos hsmall, loadedConst_of_canonical hc.canonical]
    have hnot : ∀ op', op' = .lt ∨ op' = .le ∨ op' = .ult ∨ op' = .ule → ∃ r,
        (genLess t a d c op').map Comparison.not = some r ∧
          ∀ m, (t.isWide = false → Canonical (m.reg a)) →
            r.Decides d m (op'.not.holds (m.reg a) c) := by
      intro op' hop
      obtain ⟨r, hr, hdecides⟩ := @genLess_decides t a d c hd had hc op' hop
      refine ⟨r.not, by rw [hr]; rfl, fun m _ => ?_⟩
      rw [Cond.holds_not]
      exact (hdecides m).not
    have hless : ∀ op', op' = .lt ∨ op' = .le ∨ op' = .ult ∨ op' = .ule → ∃ r,
        genLess t a d c op' = some r ∧ ∀ m, (t.isWide = false → Canonical (m.reg a)) →
          r.Decides d m (op'.holds (m.reg a) c) := by
      intro op' hop
      obtain ⟨r, hr, hdecides⟩ := @genLess_decides t a d c hd had hc op' hop
      exact ⟨r, hr, fun m _ => hdecides m⟩
    have hequal : ∀ op', op' = .eq ∨ op' = .ne → ∃ r,
        (if c.setWidth 32 ≠ 0#32 then do some ⟨← genSub t a d c, op', d, 0#5⟩
          else some ⟨[], op', a, 0#5⟩ : Option Comparison) = some r ∧
        ∀ m, (t.isWide = false → Canonical (m.reg a)) →
          r.Decides d m (op'.holds (m.reg a) c) := by
      intro op' hop
      by_cases hzero : c.setWidth 32 ≠ 0#32
      · obtain ⟨ws, hws, hrun⟩ := @genSub_zero t a d c hd had hc
        refine ⟨⟨ws, op', d, 0#5⟩, by rw [if_pos hzero, hws]; rfl, fun m hm => ?_⟩
        obtain ⟨m', hm', hsame, hiff⟩ := hrun m hm
        refine ⟨m', hm', hsame, ?_⟩
        rw [Machine.reg_zero]
        rcases hop with rfl | rfl
        · exact Bool.eq_iff_iff.mpr (by simp only [Cond.holds, beq_iff_eq]; exact hiff)
        · exact Bool.eq_iff_iff.mpr (by simp only [Cond.holds, bne_iff_ne, ne_eq]; exact not_congr hiff)
      · have hc0 : c = 0#64 := by
          rw [← hsmall.1, not_not.mp hzero]
          rfl
        refine ⟨⟨[], op', a, 0#5⟩, if_neg hzero, fun m _ => ⟨m, rfl, .refl _ _, ?_⟩⟩
        rw [Machine.reg_zero, hc0]
    cases op with
    | eq => exact hequal .eq (.inl rfl)
    | ne => exact hequal .ne (.inr rfl)
    | lt => exact hless .lt (by decide)
    | le => exact hless .le (by decide)
    | ult => exact hless .ult (by decide)
    | ule => exact hless .ule (by decide)
    | ge => exact hnot .lt (by decide)
    | gt => exact hnot .le (by decide)
    | uge => exact hnot .ult (by decide)
    | ugt => exact hnot .ule (by decide)
  · rw [if_neg hsmall]
    obtain ⟨r, hr, hdecides⟩ := @compareRegisters_decides t a d c hd had op
    exact ⟨r, hr, fun m _ => hdecides m⟩

end Spec

end TccRiscv64.Gen
