import TccRiscv64.Gen.OpImm
import TccRiscv64.Lib.Compare

set_option autoImplicit false

/-! # Comparing `long double`s

`gen_opf` calls a routine of the library for a comparison of two `long double`s, and compares the
`int` that it returns with zero by the same operator. -/

namespace TccRiscv64.Gen

open TccRiscv64.Ieee TccRiscv64.Isa TccRiscv64.Lib

/-- The token of an operator. -/
def relationToken : Relation → Cond
  | .eq => .eq
  | .ne => .ne
  | .lt => .lt
  | .ge => .ge
  | .le => .le
  | .gt => .gt

/-- The function that `gen_opf` calls for it. -/
def relationFunc : Relation → BitVec 128 → BitVec 128 → BitVec 32
  | .eq => eqtf2
  | .ne => netf2
  | .lt => lttf2
  | .ge => getf2
  | .le => letf2
  | .gt => gttf2

/-- `REG_IRET` is `TREG_R(0)`. -/
theorem regIret_lt : 0 < 8 := by decide

/-- The machine after the call: an `int` is returned in `REG_IRET`, sign-extended. -/
def afterCall (r : Relation) (a b : BitVec 128) (m : Machine) : Machine :=
  m.setReg (ireg ⟨0, regIret_lt⟩) ((relationFunc r a b).signExtend 64)

/-- The end of `gen_opf`: `vpushi(0); gen_opil(op, 1)`, where `d`, `b` and `e` are the registers that
are free. -/
def compareReturned (r : Relation) (d b e : Reg) : Option Outcome :=
  genOpil true (.int false) (ireg ⟨0, regIret_lt⟩) (ireg d) (ireg b) (ireg e) 0#64
    (.cmp (relationToken r))

/-! ## What is compared -/

/-- Zero is never loaded. -/
theorem compareReturned_eq (r : Relation) (d b e b' : Reg) :
    compareReturned r d b e = compareReturned r d b' e := by
  cases r <;> rfl

/-- The result of the call is compared with zero. -/
theorem compareReturned_denotes (r : Relation) (d b e : Reg) :
    ∃ o, compareReturned r d b e = some o ∧
      ∀ m, o.Denotes m
        (.truth ((relationToken r).holds (m.reg (ireg ⟨0, regIret_lt⟩)) 0#64)) := by
  have hsmall : Small 0#64 := ⟨by decide, by decide⟩
  have hab : ireg 0 ≠ ireg 1 := by decide
  obtain ⟨o, ho, hden⟩ := @genOpil_denotes true (.int false) (ireg 0) (ireg d) (ireg 1) (ireg e)
    0#64 (ireg_ne_zero d) (ireg_ne_zero 1) (ireg_ne_zero e) hab hsmall (.cmp (relationToken r))
  refine ⟨o, (compareReturned_eq r d b e 1).trans ho, fun m => ?_⟩
  have h := hden m
  cases r <;> exact h

/-- For operands whose two comparisons are known. -/
theorem relation_holds_of_cmp (r : Relation) {a b : BitVec 128} {i : ℤ} {x y : BitVec 32}
    (hab : f3Cmp a b = x) (hba : f3Cmp b a = y)
    (h : (i, x, y) ∈ [(-1, -1#32, 1#32), (0, 0#32, 0#32), (1, 1#32, -1#32)]) :
    (relationToken r).holds ((relationFunc r a b).signExtend 64) 0#64 = true ↔ r.Compares i 0 := by
  simp only [List.mem_cons, List.not_mem_nil, Prod.mk.injEq, or_false] at h
  rcases h with ⟨rfl, rfl, rfl⟩ | ⟨rfl, rfl, rfl⟩ | ⟨rfl, rfl, rfl⟩ <;> cases r <;>
    simp only [relationFunc, eqtf2, netf2, lttf2, letf2, gttf2, getf2, hab, hba] <;> decide

/-- The sign of the result, or that it is not zero, says what IEEE 754 says. -/
theorem relation_holds_iff (r : Relation) (a b : BitVec 128) :
    (relationToken r).holds ((relationFunc r a b).signExtend 64) 0#64 = true ↔
      r.Holds binary128 a.toNat b.toNat := by
  by_cases hnan : binary128.isNaN a.toNat ∨ binary128.isNaN b.toNat
  · have hab := f3Cmp_of_isNaN hnan
    have hba := f3Cmp_of_isNaN hnan.symm
    rw [Relation.holds_of_isNaN hnan]
    cases r <;> simp only [relationFunc, eqtf2, netf2, lttf2, letf2, gttf2, getf2, hab, hba] <;>
      decide
  · obtain ⟨ha, hb⟩ := not_or.1 hnan
    have hab := f3Cmp_of_ordered ha hb
    have hba := f3Cmp_of_ordered hb ha
    rw [Relation.holds_iff_compares (by decide) ha hb, ← Relation.compares_sign]
    rcases lt_trichotomy (binary128.key a.toNat) (binary128.key b.toNat) with h | h | h
    · rw [if_pos h] at hab
      rw [if_neg h.not_gt, if_pos h] at hba
      have hsign := Int.sign_eq_neg_one_of_neg (sub_neg.2 h)
      exact relation_holds_of_cmp r hab hba (by rw [hsign]; decide)
    · rw [if_neg h.not_lt, if_neg h.not_gt] at hab
      rw [if_neg h.not_gt, if_neg h.not_lt] at hba
      have hsign := Int.sign_eq_zero_iff_zero.2 (sub_eq_zero.2 h)
      exact relation_holds_of_cmp r hab hba (by rw [hsign]; decide)
    · rw [if_neg h.not_gt, if_pos h] at hab
      rw [if_pos h] at hba
      have hsign := Int.sign_eq_one_of_pos (sub_pos.2 h)
      exact relation_holds_of_cmp r hab hba (by rw [hsign]; decide)

/-- **A comparison of two `long double`s is the one of IEEE 754.** The code behind the call decides by
the `int` that the call returns, and the truth value is that of the operator on the two numbers. -/
theorem longDouble_comparison (r : Relation) (a b : BitVec 128) (d b' e : Reg) :
    ∃ o, compareReturned r d b' e = some o ∧ ∀ m : Machine, ∃ v : Bool,
      (v = true ↔ r.Holds binary128 a.toNat b.toNat) ∧
        o.Denotes (afterCall r a b m) (.truth v) := by
  obtain ⟨o, ho, hden⟩ := compareReturned_denotes r d b' e
  refine ⟨o, ho, fun m => ⟨_, ?_, hden (afterCall r a b m)⟩⟩
  rw [afterCall, Machine.reg_setReg_self m (ireg_ne_zero _)]
  exact relation_holds_iff r a b

end TccRiscv64.Gen
