import TccRiscv64.Gen.Switch

set_option autoImplicit false

/-! # Runs of the code of a switch

The code of `gcase` takes the way that the search takes, with the loaded constants as bounds. -/

namespace TccRiscv64.Gen

open TccRiscv64.Isa TccRiscv64.Data

/-! ## Branches -/

section Branch

variable (op : BitVec 3) (a b : XReg)

theorem oBranchOver_eq_esu : oBranchOver op a b = esu 0x63#7 (op ^^^ 1#3) a b 8#32 := by
  have hlast : ∀ x c d e : Word, x ||| c ||| d ||| e = x ||| e ||| c ||| d := by
    intro x c d e
    ac_rfl
  have hhigh : (8#32 >>> 5) <<< 25 = 0#32 := by decide
  unfold oBranchOver esu
  rw [hhigh]
  exact (hlast _ _ _ _).trans BitVec.or_zero.symm

theorem immB_oBranchOver : immB (oBranchOver op a b) = 8#64 := by
  have h : (oBranchOver op a b).extractLsb' 31 1 ++ (oBranchOver op a b).extractLsb' 7 1 ++
      (oBranchOver op a b).extractLsb' 25 6 ++ (oBranchOver op a b).extractLsb' 8 4 ++ 0#1 =
        8#13 := by
    apply BitVec.eq_of_getLsbD_eq
    intro i hi
    simp only [oBranchOver, BitVec.getLsbD_append, BitVec.getLsbD_extractLsb', BitVec.getLsbD_or,
      BitVec.getLsbD_shiftLeft, BitVec.getLsbD_setWidth]
    interval_cases i <;> simp
  rw [immB, h]
  decide

/-- A branch over the next instruction, by its condition. -/
theorem decode_oBranchOver {bop : BranchOp} (h : ∀ w : Word, func3Of w = op ^^^ 1#3 →
    decodeBranch w = some (.branch bop (rs1Of w) (rs2Of w) (immB w))) :
    decode (oBranchOver op a b) = some (.branch bop a b 8#64) := by
  have hbranch := h (oBranchOver op a b) (by rw [oBranchOver_eq_esu, func3Of_esu])
  rw [immB_oBranchOver] at hbranch
  have hopcode : opcodeOf (oBranchOver op a b) = 0x63#7 := by rw [oBranchOver_eq_esu, opcodeOf_esu]
  have hrs1 : rs1Of (oBranchOver op a b) = a := by rw [oBranchOver_eq_esu, rs1Of_esu]
  have hrs2 : rs2Of (oBranchOver op a b) = b := by rw [oBranchOver_eq_esu, rs2Of_esu]
  rw [hrs1, hrs2] at hbranch
  simp only [decode, hopcode]
  exact hbranch

end Branch

/-- The branch is taken if the condition does not hold. -/
theorem decode_branchOver (op : Cond) (a b : XReg) :
    ∃ bop x y, decode (branchOver op a b) = some (.branch bop x y 8#64) ∧
      ∀ m : Machine, bop.holds (m.reg x) (m.reg y) = !op.holds (m.reg a) (m.reg b) := by
  cases op with
  | ult =>
    exact ⟨.bgeu, a, b, decode_oBranchOver 6#3 a b fun w hw => by simp [decodeBranch, hw],
      fun m => rfl⟩
  | uge =>
    exact ⟨.bltu, a, b, decode_oBranchOver 7#3 a b fun w hw => by simp [decodeBranch, hw],
      fun m => (Bool.not_not _).symm⟩
  | ule =>
    exact ⟨.bltu, b, a, decode_oBranchOver 7#3 b a fun w hw => by simp [decodeBranch, hw],
      fun m => by simp [BranchOp.holds, Cond.holds, BitVec.ule_eq_not_ult]⟩
  | ugt =>
    exact ⟨.bgeu, b, a, decode_oBranchOver 6#3 b a fun w hw => by simp [decodeBranch, hw],
      fun m => by simp [BranchOp.holds, Cond.holds, BitVec.ule_eq_not_ult]⟩
  | lt =>
    exact ⟨.bge, a, b, decode_oBranchOver 4#3 a b fun w hw => by simp [decodeBranch, hw],
      fun m => rfl⟩
  | ge =>
    exact ⟨.blt, a, b, decode_oBranchOver 5#3 a b fun w hw => by simp [decodeBranch, hw],
      fun m => (Bool.not_not _).symm⟩
  | le =>
    exact ⟨.blt, b, a, decode_oBranchOver 5#3 b a fun w hw => by simp [decodeBranch, hw],
      fun m => by simp [BranchOp.holds, Cond.holds, BitVec.sle_eq_not_slt]⟩
  | gt =>
    exact ⟨.bge, b, a, decode_oBranchOver 4#3 b a fun w hw => by simp [decodeBranch, hw],
      fun m => by simp [BranchOp.holds, Cond.holds, BitVec.sle_eq_not_slt]⟩
  | ne =>
    exact ⟨.beq, a, b, decode_oBranchOver 1#3 a b fun w hw => by simp [decodeBranch, hw],
      fun m => by simp [BranchOp.holds, Cond.holds, bne]⟩
  | eq =>
    exact ⟨.bne, a, b, decode_oBranchOver 0#3 a b fun w hw => by simp [decodeBranch, hw],
      fun m => by simp [BranchOp.holds, Cond.holds, bne]⟩

/-! ## Straight-line code and tests -/

/-- Straight-line code is executed, and then what follows it. -/
theorem exec_words {ws : List Word} {m m' : Machine} (h : run ws m = some m') (items : List Item) :
    exec (ws.map .word ++ items) m = exec items m' := by
  induction ws generalizing m with
  | nil =>
    obtain rfl := Option.some.inj h
    rfl
  | cons w ws ih =>
    obtain ⟨m1, hw, hws⟩ := Option.bind_eq_some_iff.mp (show (execWord m w).bind (run ws) = some m' from h)
    rw [List.map_cons, List.cons_append, exec]
    split
    · rename_i hbranch
      rw [execWord, hbranch] at hw
      cases hw
    · rw [hw]
      exact ih hws

/-- A test jumps if its condition holds, or if it does not hold and the test is inverted. -/
theorem exec_gvtst {r : Comparison} {d : XReg} {m : Machine} {b : Bool} (h : r.Decides d m b)
    (inv : Bool) (target : Target) : ∃ m', SameBut d m m' ∧ ∀ items,
      exec (gvtst inv r target ++ items) m =
        if b = inv then exec items m' else exec (.jump target :: items) m' := by
  obtain ⟨m', hrun, hsame, hholds⟩ := h
  refine ⟨m', hsame, fun items => ?_⟩
  obtain ⟨bop, x, y, hdecode, htaken⟩ := decode_branchOver (if inv then r.op.not else r.op) r.a r.b
  have hop : (if inv then r.op.not else r.op).holds (m'.reg r.a) (m'.reg r.b) = (b ^^ inv) := by
    cases inv with
    | false => exact hholds.trans (Bool.xor_false b).symm
    | true => exact (Cond.holds_not ..).trans (by rw [hholds, Bool.xor_true])
  unfold gvtst
  rw [List.append_assoc, exec_words hrun, List.cons_append, exec, hdecode]
  simp only [htaken m', hop]
  cases b <;> cases inv <;> simp

/-! ## Comparisons with a case -/

section Search

variable (t : IntType) (a : Reg)

/-- What the controlling value is compared with for a constant. -/
def loadedBound (v : BitVec 64) : BitVec 64 := loadedConst t.promoted (caseOperand t v)

/-- The order of registers that comparisons of the type use. -/
def regLe (x y : BitVec 64) : Bool := if t.promoted.unsigned then x.ule y else x.sle y

/-- The register is above the upper bound of a case. -/
def regAbove (p : Case) (x : BitVec 64) : Bool := !regLe t x (loadedBound t p.v2)

/-- The register is below the lower bound of a case. -/
def regBelow (p : Case) (x : BitVec 64) : Bool := !regLe t (loadedBound t p.v1) x

/-- The test of the linear scan. -/
def regInside (p : Case) (x : BitVec 64) : Bool :=
  if p.v1 = p.v2 then x == loadedBound t p.v2 else !regAbove t p x && !regBelow t p x

/-- Registers of types with at most 32 bits are sign-extended. -/
def Holds (x : BitVec 64) : Prop := t.promoted.isWide = false → Canonical x

theorem otherReg_ne : ireg a ≠ ireg (otherReg a) := by
  rw [ne_eq, ireg_inj]
  revert a
  decide

variable {t a}

theorem compareCase_decides (op : Cond) (v : BitVec 64) : ∃ r, compareCase t a op v = some r ∧
    ∀ m : Machine, Holds t (m.reg (ireg a)) → r.Decides (ireg (otherReg a)) m
      ((if t.promoted.unsigned then op.unsigned else op).holds (m.reg (ireg a)) (loadedBound t v)) :=
  genCompare_decides (ireg_ne_zero _) (otherReg_ne a) _

theorem compareCase_le (p : Case) : ∃ r, compareCase t a .le p.v2 = some r ∧
    ∀ m : Machine, Holds t (m.reg (ireg a)) →
      r.Decides (ireg (otherReg a)) m (!regAbove t p (m.reg (ireg a))) := by
  obtain ⟨r, hr, hdecides⟩ := @compareCase_decides t a .le p.v2
  refine ⟨r, hr, fun m hm => ?_⟩
  have h := hdecides m hm
  unfold regAbove regLe
  rw [Bool.not_not]
  cases hu : t.promoted.unsigned with
  | false =>
    rw [hu] at h
    exact h
  | true =>
    rw [hu] at h
    exact h

theorem compareCase_ge (p : Case) : ∃ r, compareCase t a .ge p.v1 = some r ∧
    ∀ m : Machine, Holds t (m.reg (ireg a)) →
      r.Decides (ireg (otherReg a)) m (!regBelow t p (m.reg (ireg a))) := by
  obtain ⟨r, hr, hdecides⟩ := @compareCase_decides t a .ge p.v1
  refine ⟨r, hr, fun m hm => ?_⟩
  have h := hdecides m hm
  unfold regBelow regLe
  rw [Bool.not_not]
  cases hu : t.promoted.unsigned with
  | false =>
    rw [hu] at h
    rw [if_neg Bool.false_ne_true, BitVec.sle_eq_not_slt]
    exact h
  | true =>
    rw [hu] at h
    rw [if_pos rfl, BitVec.ule_eq_not_ult]
    exact h

theorem compareCase_eq (p : Case) : ∃ r, compareCase t a .eq p.v2 = some r ∧
    ∀ m : Machine, Holds t (m.reg (ireg a)) →
      r.Decides (ireg (otherReg a)) m (m.reg (ireg a) == loadedBound t p.v2) := by
  obtain ⟨r, hr, hdecides⟩ := @compareCase_decides t a .eq p.v2
  refine ⟨r, hr, fun m hm => ?_⟩
  have h := hdecides m hm
  rw [show Cond.unsigned .eq = .eq from rfl, ite_self] at h
  exact h

/-! ## The search that the code makes -/

/-- Where the code goes when the search is over. -/
def exitOf : Option Case → Exit
  | some p => .case p
  | none => .bsym

/-- The code goes where a function of the controlling value tells, whatever follows it. -/
def Runs (t : IntType) (a : Reg) (items : List Item) (f : BitVec 64 → Option Case) : Prop :=
  ∀ m : Machine, Holds t (m.reg (ireg a)) →
    ∀ tail, exec (items ++ tail) m = some (exitOf (f (m.reg (ireg a))))

/-- A test for a case, and code to go on with. -/
theorem runs_case {r : Comparison} {test : BitVec 64 → Bool} {p : Case} {items : List Item}
    {f : BitVec 64 → Option Case}
    (hr : ∀ m : Machine, Holds t (m.reg (ireg a)) →
      r.Decides (ireg (otherReg a)) m (test (m.reg (ireg a))))
    (hruns : Runs t a items f) :
    Runs t a (gvtst false r (.case p) ++ items) fun x => if test x then some p else f x := by
  intro m hm tail
  obtain ⟨m', hsame, hexec⟩ := exec_gvtst (hr m hm) false (.case p)
  have hreg := hsame.2 _ (otherReg_ne a)
  rw [List.append_assoc, hexec]
  cases htest : test (m.reg (ireg a)) with
  | false =>
    rw [if_pos rfl, hruns m' (by rw [hreg]; exact hm), hreg]
    simp only [htest, Bool.false_eq_true, if_false]
  | true =>
    rw [if_neg (by decide), exec]
    simp only [htest, if_true]
    rfl

/-- A test that jumps over code if it fails. -/
theorem runs_over {r : Comparison} {test : BitVec 64 → Bool} {inner items : List Item}
    {f g : BitVec 64 → Option Case}
    (hr : ∀ m : Machine, Holds t (m.reg (ireg a)) →
      r.Decides (ireg (otherReg a)) m (test (m.reg (ireg a))))
    (hinner : Runs t a (inner ++ items) f) (hitems : Runs t a items g) :
    Runs t a (gvtst true r (.ahead inner.length) ++ (inner ++ items)) fun x =>
      if test x then f x else g x := by
  intro m hm tail
  obtain ⟨m', hsame, hexec⟩ := exec_gvtst (hr m hm) true (.ahead inner.length)
  have hreg := hsame.2 _ (otherReg_ne a)
  have hm' : Holds t (m'.reg (ireg a)) := by
    rw [hreg]
    exact hm
  rw [List.append_assoc, hexec]
  cases htest : test (m.reg (ireg a)) with
  | false =>
    rw [if_neg (by decide), exec, List.append_assoc, List.drop_left, hitems m' hm', hreg]
    simp only [htest, Bool.false_eq_true, if_false]
  | true =>
    rw [if_pos rfl, hinner m' hm', hreg]
    simp only [htest, if_true]

/-- The linear scan finds the first case that passes the test. -/
theorem gcaseLinear_runs (base : List Case) : ∃ items, gcaseLinear t a base = some items ∧
    Runs t a items fun x => base.find? fun p => regInside t p x := by
  induction base with
  | nil =>
    refine ⟨[.jump .bsym], rfl, fun m _ tail => ?_⟩
    rw [List.cons_append, exec]
    rfl
  | cons p base ih =>
    obtain ⟨rest, hrest, hruns⟩ := ih
    by_cases hsingle : p.v1 = p.v2
    · obtain ⟨r, hr, hdecides⟩ := @compareCase_eq t a p
      refine ⟨gvtst false r (.case p) ++ rest, ?_, fun m hm tail => ?_⟩
      · rw [gcaseLinear, hrest]
        simp only [Option.bind_eq_bind, Option.bind_some, if_pos hsingle, hr]
      · rw [@runs_case t a r (· == loadedBound t p.v2) p rest _ hdecides hruns m hm tail]
        dsimp only
        rw [List.find?_cons, regInside, if_pos hsingle]
        cases m.reg (ireg a) == loadedBound t p.v2 <;> rfl
    · obtain ⟨le, hle, hledec⟩ := @compareCase_le t a p
      obtain ⟨ge, hge, hgedec⟩ := @compareCase_ge t a p
      have hinner := @runs_case t a ge (fun x => !regBelow t p x) p rest _ hgedec hruns
      have hover := @runs_over t a le (fun x => !regAbove t p x) _ _ _ _ hledec hinner hruns
      refine ⟨_, ?_, fun m hm tail => (hover m hm tail).trans ?_⟩
      · rw [gcaseLinear, hrest]
        simp only [Option.bind_eq_bind, Option.bind_some, if_neg hsingle, hle, hge]
      · dsimp only
        rw [List.find?_cons, regInside, if_neg hsingle]
        cases regAbove t p (m.reg (ireg a)) <;> cases regBelow t p (m.reg (ireg a)) <;> rfl

/-- **The code of `gcase`** makes the search among the loaded bounds. -/
theorem gcase_runs (base : List Case) : ∃ items, gcase t a base = some items ∧
    Runs t a items (rangeSearch 8 (regAbove t) (regBelow t) (regInside t) base) := by
  induction hlen : base.length using Nat.strong_induction_on generalizing base with
  | _ n ih =>
    by_cases hk : 8 < base.length
    · obtain ⟨pre, p, post, rfl, hmid⟩ := exists_middle hk
      rw [List.length_append, List.length_cons] at hlen
      obtain ⟨left, hleft, hlruns⟩ := ih pre.length (by omega) pre rfl
      obtain ⟨right, hright, hrruns⟩ := ih post.length (by omega) post rfl
      obtain ⟨le, hle, hledec⟩ := @compareCase_le t a p
      obtain ⟨ge, hge, hgedec⟩ := @compareCase_ge t a p
      obtain ⟨hget, htake, hdrop⟩ := @middle_parts _ pre post p hmid
      have hcase := @runs_case t a ge (fun x => !regBelow t p x) p left _ hgedec hlruns
      have hinner : Runs t a ((gvtst false ge (.case p) ++ left) ++ right) fun x =>
          if !regBelow t p x then some p
          else rangeSearch 8 (regAbove t) (regBelow t) (regInside t) pre x := fun m hm tail => by
        rw [List.append_assoc]
        exact hcase m hm _
      have hover := @runs_over t a le (fun x => !regAbove t p x) _ _ _ _ hledec hinner hrruns
      refine ⟨_, ?_, fun m hm tail => (hover m hm tail).trans ?_⟩
      · rw [gcase, if_pos hk]
        split
        · rename_i hnone
          rw [hget] at hnone
          cases hnone
        · rename_i p' hsome
          rw [hget] at hsome
          obtain rfl := Option.some.inj hsome
          rw [htake, hdrop]
          simp only [Option.bind_eq_bind, Option.bind_some, hle, hge, hleft, hright]
      · dsimp only
        rw [rangeSearch_middle hk hmid]
        cases regAbove t p (m.reg (ireg a)) <;> cases regBelow t p (m.reg (ireg a)) <;>
          simp only [Bool.not_true, Bool.not_false, Bool.false_eq_true, if_false, if_true]
    · obtain ⟨items, hitems, hruns⟩ := @gcaseLinear_runs t a base
      refine ⟨items, ?_, fun m hm tail => ?_⟩
      · rw [gcase, if_neg hk]
        exact hitems
      · rw [rangeSearch_linear hk]
        exact hruns m hm tail

end Search

/-! ## Values and registers -/

section Values

variable {t : IntType}

theorem toNat_ofInt_of_nonneg {n : Nat} {v : Int} (hlo : 0 ≤ v) (hhi : v < 2 ^ n) :
    ((BitVec.ofInt n v).toNat : Int) = v := by
  rw [BitVec.toNat_ofInt, Int.toNat_of_nonneg (Int.emod_nonneg _ (by positivity))]
  exact Int.emod_eq_of_lt hlo (by push_cast; exact hhi)

theorem toInt_ofInt_of_bounds {v : Int} (hlo : -2 ^ 63 ≤ v) (hhi : v < 2 ^ 63) :
    (BitVec.ofInt 64 v).toInt = v := by
  rw [BitVec.toInt_ofInt]
  exact Int.bmod_eq_of_le (by norm_num at hlo ⊢; omega) (by norm_num at hhi ⊢; omega)

/-- An `unsigned` in a register: the numbers with bit 31 set are moved up. -/
theorem toNat_signExtend_word {v : Int} (hlo : 0 ≤ v) (hhi : v < 2 ^ 32) :
    (((BitVec.ofInt 32 v).signExtend 64).toNat : Int) =
      if v < 2 ^ 31 then v else v + 2 ^ 64 - 2 ^ 32 := by
  have hv := toNat_ofInt_of_nonneg hlo hhi
  rw [BitVec.toNat_signExtend, BitVec.toNat_setWidth, BitVec.msb_eq_decide]
  simp only [decide_eq_true_eq]
  norm_num at hhi hv ⊢
  split <;> split <;> omega

/-- The values of the promoted type of an integer type. -/
structure Promoted (t : IntType) (v : Int) : Prop where
  lo : t.promoted.minVal ≤ v
  hi : v ≤ t.promoted.maxVal

theorem Value.promoted (v : Value t) : Promoted t v.val := by
  obtain ⟨v, hlo, hhi⟩ := v
  cases t with
  | bool => exact ⟨(by decide : (-2 ^ 31 : Int) ≤ 0).trans hlo, hhi.trans (by decide)⟩
  | byte u =>
    cases u <;> exact ⟨le_trans (by decide) hlo, hhi.trans (by decide)⟩
  | short u =>
    cases u <;> exact ⟨le_trans (by decide) hlo, hhi.trans (by decide)⟩
  | int u => exact ⟨hlo, hhi⟩
  | llong u => exact ⟨hlo, hhi⟩
  | ptr => exact ⟨hlo, hhi⟩

theorem convert_promoted (ht : t ≠ .ptr) (v : BitVec 64) : Promoted t (t.convert v) := by
  have hword := (v.setWidth 32).isLt
  have hlo := BitVec.le_toInt (v.setWidth 32)
  have hhi := BitVec.toInt_lt (x := v.setWidth 32)
  have hlo64 := BitVec.le_toInt v
  have hhi64 := BitVec.toInt_lt (x := v)
  have hlt := v.isLt
  cases t with
  | ptr => exact absurd rfl ht
  | bool | byte u | short u =>
    exact ⟨hlo, Int.le_sub_one_of_lt hhi⟩
  | int u =>
    cases u with
    | false => exact ⟨hlo, Int.le_sub_one_of_lt hhi⟩
    | true => exact ⟨Int.natCast_nonneg _, Int.le_sub_one_of_lt (Int.ofNat_lt.mpr hword)⟩
  | llong u =>
    cases u with
    | false => exact ⟨hlo64, Int.le_sub_one_of_lt hhi64⟩
    | true => exact ⟨Int.natCast_nonneg _, Int.le_sub_one_of_lt (Int.ofNat_lt.mpr hlt)⟩

/-- The order of the registers is that of the numbers in them. -/
theorem regLe_toReg (ht : t ≠ .ptr) {u w : Int} (hu : Promoted t u) (hw : Promoted t w) :
    regLe t (t.toReg u) (t.toReg w) = decide (u ≤ w) := by
  obtain ⟨hulo, huhi⟩ := hu
  obtain ⟨hwlo, hwhi⟩ := hw
  have hsigned : -2 ^ 63 ≤ u → u < 2 ^ 63 → -2 ^ 63 ≤ w → w < 2 ^ 63 →
      (BitVec.ofInt 64 u).sle (BitVec.ofInt 64 w) = decide (u ≤ w) := by
    intro h1 h2 h3 h4
    rw [Bool.eq_iff_iff, BitVec.sle_iff_toInt_le, toInt_ofInt_of_bounds h1 h2,
      toInt_ofInt_of_bounds h3 h4, decide_eq_true_eq]
  have hint : -2 ^ 31 ≤ u → u ≤ 2 ^ 31 - 1 → -2 ^ 31 ≤ w → w ≤ 2 ^ 31 - 1 →
      (BitVec.ofInt 64 u).sle (BitVec.ofInt 64 w) = decide (u ≤ w) := by
    intro h1 h2 h3 h4
    norm_num at h1 h2 h3 h4 hsigned
    exact hsigned (by omega) (by omega) (by omega) (by omega)
  cases t with
  | ptr => exact absurd rfl ht
  | bool | byte v | short v => exact hint hulo huhi hwlo hwhi
  | int v =>
    cases v with
    | false => exact hint hulo huhi hwlo hwhi
    | true =>
      have hu := toNat_signExtend_word hulo (Int.lt_of_le_sub_one huhi)
      have hw := toNat_signExtend_word hwlo (Int.lt_of_le_sub_one hwhi)
      have huhi : u ≤ 2 ^ 32 - 1 := huhi
      have hwhi : w ≤ 2 ^ 32 - 1 := hwhi
      show ((BitVec.ofInt 32 u).signExtend 64).ule ((BitVec.ofInt 32 w).signExtend 64) = _
      rw [Bool.eq_iff_iff, BitVec.ule_iff_toNat_le, decide_eq_true_eq, ← Int.ofNat_le, hu, hw]
      norm_num at huhi hwhi ⊢
      split <;> split <;> omega
  | llong v =>
    cases v with
    | false =>
      exact hsigned hulo (Int.lt_of_le_sub_one huhi) hwlo (Int.lt_of_le_sub_one hwhi)
    | true =>
      show (BitVec.ofInt 64 u).ule (BitVec.ofInt 64 w) = _
      rw [Bool.eq_iff_iff, BitVec.ule_iff_toNat_le, decide_eq_true_eq, ← Int.ofNat_le,
        toNat_ofInt_of_nonneg hulo (Int.lt_of_le_sub_one huhi),
        toNat_ofInt_of_nonneg hwlo (Int.lt_of_le_sub_one hwhi)]

theorem toReg_inj (ht : t ≠ .ptr) {u w : Int} (hu : Promoted t u) (hw : Promoted t w) :
    t.toReg u = t.toReg w ↔ u = w := by
  refine ⟨fun h => ?_, fun h => by rw [h]⟩
  have hle := regLe_toReg ht hu hw
  have hge := regLe_toReg ht hw hu
  have hself := regLe_toReg ht hu hu
  rw [h] at hle hge hself
  rw [hself] at hle hge
  exact Int.le_antisymm (by simpa using hle) (by simpa using hge)

/-- The registers that hold values. -/
theorem holds_toReg (v : Int) (hv : Promoted t v) : Holds t (t.toReg v) := by
  intro hwide
  have hword : -2 ^ 31 ≤ v → v ≤ 2 ^ 31 - 1 → Canonical (BitVec.ofInt 64 v) := by
    intro hlo hhi
    have heq : BitVec.ofInt 64 v = (BitVec.ofInt 32 v).signExtend 64 := by
      apply BitVec.eq_of_toInt_eq
      rw [toInt_ofInt_of_bounds (by norm_num at hlo ⊢; omega) (by norm_num at hhi ⊢; omega),
        BitVec.toInt_signExtend_of_le (by decide), BitVec.toInt_ofInt]
      exact (Int.bmod_eq_of_le (by norm_num at hlo ⊢; omega) (by norm_num at hhi ⊢; omega)).symm
    rw [heq]
    exact canonical_signExtend _
  cases t with
  | ptr => exact absurd hwide (by decide)
  | llong u => exact absurd hwide (by simp [IntType.promoted, IntType.isWide])
  | bool | byte u | short u => exact hword hv.lo hv.hi
  | int u =>
    cases u with
    | false => exact hword hv.lo hv.hi
    | true => exact canonical_signExtend _

/-- The constant of a comparison of `unsigned` is sign-extended when it is loaded. -/
theorem loadedConst_word (w : BitVec 32) :
    loadedConst (.int true) (w.setWidth 64) = w.signExtend 64 := by
  have hlow : lowWord (w.setWidth 64) = w := by
    unfold lowWord
    rw [BitVec.setWidth_setWidth_of_le _ (by decide), BitVec.setWidth_eq]
  have hhigh : (w.setWidth 64).extractLsb' 32 32 = 0#32 := by
    apply BitVec.eq_of_getLsbD_eq
    intro i hi
    simp only [BitVec.getLsbD_extractLsb', BitVec.getLsbD_setWidth]
    grind
  unfold loadedConst
  split
  · rename_i hcanon
    rw [← show (lowWord (w.setWidth 64)).signExtend 64 = w.setWidth 64 from hcanon, hlow]
  · rw [if_neg (not_not.mpr hhigh),
      if_neg (show ¬ (IntType.int true).isLlong = true from Bool.false_ne_true), hlow]

/-- A constant that fits is compared with as the number that it is converted to. -/
theorem loadedBound_eq_iff (ht : t ≠ .ptr) (v : BitVec 64) :
    loadedBound t v = t.toReg (t.convert v) ↔ CaseFits t v := by
  have hint : loadedConst (.int false) ((v.setWidth 32).signExtend 64) =
      BitVec.ofInt 64 (v.setWidth 32).toInt :=
    loadedConst_of_canonical (canonical_signExtend _)
  cases t with
  | ptr => exact absurd rfl ht
  | bool | byte u | short u => exact iff_of_true hint fun h => absurd h Bool.false_ne_true
  | int u =>
    cases u with
    | false => exact iff_of_true hint fun h => absurd h Bool.false_ne_true
    | true =>
      refine iff_of_true ?_ fun h => absurd h Bool.false_ne_true
      have hself : BitVec.ofInt 32 ((v.setWidth 32).toNat : Int) = v.setWidth 32 := by
        rw [BitVec.ofInt_natCast, BitVec.ofNat_toNat, BitVec.setWidth_eq]
      show loadedConst (.int true) ((v.setWidth 32).setWidth 64) =
        (BitVec.ofInt 32 ((v.setWidth 32).toNat : Int)).signExtend 64
      rw [loadedConst_word, hself]
  | llong u =>
    have hfits := loadedConst_eq_iff (.llong u) v
    have hreg : (IntType.llong u).toReg ((IntType.llong u).convert v) = v := by
      cases u with
      | false => exact BitVec.ofInt_toInt
      | true => exact (BitVec.ofInt_natCast ..).trans (by simp)
    rw [hreg]
    exact hfits.trans ⟨fun h _ => h, fun h => h rfl⟩

/-! ## The dispatch -/

variable {a : Reg} {cases : List Case} {items : List Item}

/-- The loaded bounds of a case that fits compare like its converted bounds. -/
theorem regBounds_eq (ht : t ≠ .ptr) {p : Case} (hfits : CaseFits t p.v1 ∧ CaseFits t p.v2)
    (v : Value t) : regAbove t p (t.toReg v.val) = decide (t.convert p.v2 < v.val) ∧
      regBelow t p (t.toReg v.val) = decide (v.val < t.convert p.v1) ∧
      (regInside t p (t.toReg v.val) = true ↔ p.Contains t v.val) := by
  have h1 := (loadedBound_eq_iff ht p.v1).mpr hfits.1
  have h2 := (loadedBound_eq_iff ht p.v2).mpr hfits.2
  have habove : regAbove t p (t.toReg v.val) = decide (t.convert p.v2 < v.val) := by
    unfold regAbove
    rw [h2, regLe_toReg ht v.promoted (convert_promoted ht p.v2), ← decide_not,
      decide_eq_decide]
    exact Int.not_le
  have hbelow : regBelow t p (t.toReg v.val) = decide (v.val < t.convert p.v1) := by
    unfold regBelow
    rw [h1, regLe_toReg ht (convert_promoted ht p.v1) v.promoted, ← decide_not,
      decide_eq_decide]
    exact Int.not_le
  refine ⟨habove, hbelow, ?_⟩
  unfold regInside Case.Contains
  split
  · rename_i hsingle
    rw [h2, hsingle, beq_iff_eq, toReg_inj ht v.promoted (convert_promoted ht p.v2)]
    omega
  · rw [habove, hbelow, Bool.and_eq_true, Bool.not_eq_true', Bool.not_eq_true',
      decide_eq_false_iff_not, decide_eq_false_iff_not]
    omega

/-- Where the code of an accepted switch goes. -/
theorem switchCode_exec (hcode : switchCode t a cases = some items) (v : Value t) {m : Machine}
    (hm : m.reg (ireg a) = t.toReg v.val) : exec items m = some (exitOf
      (rangeSearch 8 (regAbove t) (regBelow t) (regInside t) (sortCases t cases)
        (t.toReg v.val))) := by
  unfold switchCode at hcode
  split at hcode
  · cases hcode
  · obtain ⟨items', hitems, hruns⟩ := @gcase_runs t a (sortCases t cases)
    obtain rfl := Option.some.inj (hcode.symm.trans hitems)
    have h := hruns m (by rw [hm]; exact holds_toReg _ v.promoted) []
    rw [List.append_nil, hm] at h
    exact h

theorem sortCases_perm (t : IntType) (cases : List Case) : (sortCases t cases).Perm cases :=
  List.mergeSort_perm _ _

theorem regLe_antisymm {x y : BitVec 64} (h : regLe t x y = true) (h' : regLe t y x = true) :
    x = y := by
  unfold regLe at h h'
  split at h
  · rename_i hu
    rw [if_pos hu] at h'
    exact BitVec.le_antisymm (BitVec.ule_iff_le.mp h) (BitVec.ule_iff_le.mp h')
  · rename_i hu
    rw [if_neg hu] at h'
    exact BitVec.eq_of_toInt_eq
      (Int.le_antisymm (BitVec.sle_iff_toInt_le.mp h) (BitVec.sle_iff_toInt_le.mp h'))

/-- A machine with the same number in all registers. -/
def machineWith (x : BitVec 64) : Machine := ⟨fun _ => x, fun _ => 0#8⟩

theorem reg_machineWith (x : BitVec 64) (a : Reg) : (machineWith x).reg (ireg a) = x :=
  if_neg (ireg_ne_zero a)

/-- With bounds that fit, the code dispatches right exactly if the sorted cases are separated. -/
theorem dispatches_iff_separated (ht : t ≠ .ptr) (hdisj : NonOverlapping t cases)
    (hfits : ∀ p ∈ cases, CaseFits t p.v1 ∧ CaseFits t p.v2)
    (hcode : switchCode t a cases = some items) :
    Dispatches t a cases items ↔ Separated t cases := by
  have hperm := sortCases_perm t cases
  have hmem : ∀ {p}, p ∈ sortCases t cases ↔ p ∈ cases := hperm.mem_iff
  have hdisj' : Data.Disjoint (fun p (v : Value t) => p.Contains t v.val) (sortCases t cases) :=
    List.Pairwise.imp (fun hpq (v : Value t) => hpq v.val) (Disjoint.perm hdisj hperm.symm)
  have hbounds : Bounds (fun p (v : Value t) => decide (t.convert p.v2 < v.val))
      (fun p v => decide (v.val < t.convert p.v1)) (fun p v => regInside t p (t.toReg v.val))
      (fun p v => p.Contains t v.val) (sortCases t cases) := by
    refine ⟨fun p _ v => ?_, fun p hp v => (regBounds_eq ht (hfits p (hmem.mp hp)) v).2.2⟩
    rw [decide_eq_false_iff_not, decide_eq_false_iff_not]
    unfold Case.Contains
    omega
  have hsearch : ∀ v : Value t, rangeSearch 8 (regAbove t) (regBelow t) (regInside t)
      (sortCases t cases) (t.toReg v.val) =
        rangeSearch 8 (fun p (v : Value t) => decide (t.convert p.v2 < v.val))
          (fun p v => decide (v.val < t.convert p.v1)) (fun p v => regInside t p (t.toReg v.val))
          (sortCases t cases) v := fun v =>
    rangeSearch_congr fun p hp => by
      obtain ⟨habove, hbelow, -⟩ := regBounds_eq ht (hfits p (hmem.mp hp)) v
      exact ⟨habove, hbelow, rfl⟩
  refine Iff.trans ?_ (finds_iff_separated hbounds hdisj')
  constructor
  · intro hright v q hq hc
    obtain ⟨e, he, hgoes⟩ := hright v (machineWith (t.toReg v.val)) (reg_machineWith _ a)
    rw [switchCode_exec hcode v (reg_machineWith _ a), hsearch v] at he
    obtain rfl := Option.some.inj he
    cases hfound : rangeSearch 8 (fun p (v : Value t) => decide (t.convert p.v2 < v.val))
        (fun p v => decide (v.val < t.convert p.v1)) (fun p v => regInside t p (t.toReg v.val))
        (sortCases t cases) v with
    | none =>
      rw [hfound] at hgoes
      exact absurd hc (hgoes q (hmem.mp hq))
    | some p =>
      rw [hfound] at hgoes
      obtain ⟨hp, hcp⟩ := hgoes
      rw [Disjoint.unique hdisj hp (hmem.mp hq) hcp hc]
  · intro hfinds v m hm
    rw [switchCode_exec hcode v hm, hsearch v]
    refine ⟨_, rfl, ?_⟩
    cases hfound : rangeSearch 8 (fun p (v : Value t) => decide (t.convert p.v2 < v.val))
        (fun p v => decide (v.val < t.convert p.v1)) (fun p v => regInside t p (t.toReg v.val))
        (sortCases t cases) v with
    | none =>
      intro p hp hc
      have h := hfinds v p (hmem.mpr hp) hc
      rw [hfound] at h
      cases h
    | some p =>
      obtain ⟨hp, hc⟩ := contains_of_rangeSearch hbounds hfound
      exact ⟨hmem.mp hp, hc⟩

/-- A single constant that is not loaded as it is is not found. -/
theorem fits_of_dispatches (ht : t ≠ .ptr) (hdisj : NonOverlapping t cases)
    (hcode : switchCode t a cases = some items) (hright : Dispatches t a cases items) {p : Case}
    (hp : p ∈ cases) (hsingle : p.v1 = p.v2) : CaseFits t p.v2 := by
  intro hllong
  obtain ⟨u, rfl⟩ : ∃ u, t = .llong u := by
    cases t with
    | llong u => exact ⟨u, rfl⟩
    | bool | byte u | short u | int u | ptr => exact absurd hllong Bool.false_ne_true
  obtain ⟨hlo, hhi⟩ := convert_promoted ht p.v2
  have hv : p.Contains (.llong u) ((IntType.llong u).convert p.v2) :=
    ⟨by rw [hsingle], Int.le_refl _⟩
  obtain ⟨e, he, hgoes⟩ := hright ⟨_, hlo, hhi⟩ (machineWith _) (reg_machineWith _ a)
  rw [switchCode_exec hcode ⟨_, hlo, hhi⟩ (reg_machineWith _ a)] at he
  obtain rfl := Option.some.inj he
  cases hfound : rangeSearch 8 (regAbove (.llong u)) (regBelow (.llong u)) (regInside (.llong u))
      (sortCases (.llong u) cases) ((IntType.llong u).toReg ((IntType.llong u).convert p.v2)) with
  | none =>
    rw [hfound] at hgoes
    exact absurd hv (hgoes p hp)
  | some q =>
    rw [hfound] at hgoes
    obtain rfl := Disjoint.unique hdisj hgoes.1 hp hgoes.2 hv
    have heq : (IntType.llong u).toReg ((IntType.llong u).convert q.v2) =
        loadedBound (.llong u) q.v2 := by
      obtain ⟨-, ⟨habove, hbelow⟩ | hinside⟩ := rangeSearch_some hfound
      · unfold regAbove at habove
        unfold regBelow at hbelow
        rw [hsingle] at hbelow
        exact regLe_antisymm (by simpa using habove) (by simpa using hbelow)
      · rw [regInside, if_pos hsingle] at hinside
        exact beq_iff_eq.mp hinside
    exact (loadedBound_eq_iff ht q.v2).mp heq.symm hllong

end Values

/-- With bounds that are loaded as they are, the code of a switch dispatches right exactly if the sorted
cases are separated; and a single constant that is not loaded as it is is never found. -/
theorem switch_dispatches_iff (t : IntType) (a : Reg) (cases : List Case) (items : List Item)
    (ht : t ≠ .ptr) (hdisj : NonOverlapping t cases) (hcode : switchCode t a cases = some items) :
    ((∀ p ∈ cases, CaseFits t p.v1 ∧ CaseFits t p.v2) →
      (Dispatches t a cases items ↔ Separated t cases)) ∧
    (Dispatches t a cases items → ∀ p ∈ cases, p.v1 = p.v2 → CaseFits t p.v2) :=
  ⟨fun hfits => dispatches_iff_separated ht hdisj hfits hcode, fun hright _ hp hsingle =>
    fits_of_dispatches ht hdisj hcode hright hp hsingle⟩

/-- A switch whose cases are sorted already is accepted if there is no duplicate. -/
theorem exists_switchCode {t : IntType} (a : Reg) {cases : List Case}
    (hsorted : cases.Pairwise fun p q => caseLe t p q = true)
    (hdup : hasDuplicate t cases = false) : sortCases t cases = cases ∧
      ∃ items, switchCode t a cases = some items := by
  have hsort : sortCases t cases = cases := List.mergeSort_of_pairwise hsorted
  obtain ⟨items, hitems, -⟩ := @gcase_runs t a cases
  refine ⟨hsort, items, ?_⟩
  unfold switchCode
  rw [hsort, hdup]
  exact hitems

/-- `case 0:` to `case 7:`, and `case 0x80000000:` -/
def signCases : List Case :=
  [⟨0, 0⟩, ⟨1, 1⟩, ⟨2, 2⟩, ⟨3, 3⟩, ⟨4, 4⟩, ⟨5, 5⟩, ⟨6, 6⟩, ⟨7, 7⟩, ⟨0x80000000, 0x80000000⟩]

theorem nonOverlapping_signCases : NonOverlapping (.int false) signCases := by
  have hconvert : signCases.Pairwise fun p q => ∀ v, p.Contains (.int false) v →
      ¬ q.Contains (.int false) v := by
    refine List.Pairwise.imp_of_mem (R := fun p q => (IntType.int false).convert p.v2 ≠
      (IntType.int false).convert q.v2) ?_ (by decide)
    intro p q hp hq hne v hpv hqv
    have hsingle : ∀ p ∈ signCases, p.v1 = p.v2 := by decide
    unfold Case.Contains at hpv hqv
    rw [hsingle p hp] at hpv
    rw [hsingle q hq] at hqv
    omega
  exact hconvert

theorem caseFits_int (u : Bool) (v : BitVec 64) : CaseFits (.int u) v := fun h =>
  absurd h Bool.false_ne_true

theorem switch_dispatches_iff_signCases : ∃ items, switchCode (.int false) 0 signCases = some items ∧
    (Dispatches (.int false) 0 signCases items ↔ Separated (.int false) signCases) := by
  obtain ⟨-, items, hcode⟩ := @exists_switchCode (.int false) 0 signCases (by decide) (by decide)
  exact ⟨items, hcode, (switch_dispatches_iff (.int false) 0 signCases items (by decide)
    nonOverlapping_signCases hcode).1 fun p _ => ⟨caseFits_int _ _, caseFits_int _ _⟩⟩

/-- The least `int` is not found: `case 0x80000000:` is sorted behind `case 7:`. -/
theorem least_int_not_found : NonOverlapping (.int false) signCases ∧
    ∃ items, switchCode (.int false) 0 signCases = some items ∧
      ¬ Dispatches (.int false) 0 signCases items := by
  obtain ⟨hsort, items, hcode⟩ := @exists_switchCode (.int false) 0 signCases (by decide) (by decide)
  refine ⟨nonOverlapping_signCases, items, hcode, fun hright => ?_⟩
  have hsep := (dispatches_iff_separated (by decide) nonOverlapping_signCases
    (fun p _ => ⟨caseFits_int _ _, caseFits_int _ _⟩) hcode).mp hright
  unfold Separated at hsep
  rw [hsort] at hsep
  have hparts := (@separated_middle Case (Value (.int false)) 8 _ _ [⟨0, 0⟩, ⟨1, 1⟩, ⟨2, 2⟩, ⟨3, 3⟩]
    [⟨5, 5⟩, ⟨6, 6⟩, ⟨7, 7⟩, ⟨0x80000000, 0x80000000⟩] ⟨4, 4⟩ _ (by decide) rfl).mp hsep
  have habove := hparts.2.1 ⟨0x80000000, 0x80000000⟩ (by decide)
    ⟨-2 ^ 31, Int.le_refl _, by decide⟩ ⟨by decide, by decide⟩
  exact absurd habove (by decide)

end TccRiscv64.Gen
