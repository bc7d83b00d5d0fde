import TccRiscv64.Data.RangeSearch
import TccRiscv64.Gen.Compare

set_option autoImplicit false

/-! # Switch statements

The code that dispatches to the cases of a switch: a binary search among the sorted cases as long as
there are more than eight of them, and one comparison after the other from then on. Jumps that are
patched later are kept apart from the other instructions, with the place that they go to. -/

namespace TccRiscv64.Gen

open TccRiscv64.Isa

/-- `struct case_t`. The label `sym` of a case is named by the case. -/
structure Case where
  v1 : BitVec 64
  v2 : BitVec 64
  deriving DecidableEq

/-- Where a jump goes. -/
inductive Target
  /-- `p->sym` -/
  | case (p : Case)
  /-- `*bsym` -/
  | bsym
  /-- behind the next `n` instructions -/
  | ahead (n : Nat)

/-- An instruction: a word, or a jump. -/
inductive Item
  | word (w : Word)
  | jump (target : Target)

/-! ## Execution -/

/-- Where control leaves the code of a switch. -/
inductive Exit
  | case (p : Case)
  | bsym

/-- Execute code until it jumps out of it. A branch that is taken skips one instruction. -/
def exec : List Item → Machine → Option Exit
  | [], _ => none
  | .jump (.case p) :: _, _ => some (.case p)
  | .jump .bsym :: _, _ => some .bsym
  | .jump (.ahead n) :: items, m => exec (items.drop n) m
  | .word w :: items, m =>
    match decode w with
    | some (.branch op rs1 rs2 imm) =>
      if op.holds (m.reg rs1) (m.reg rs2) then
        if imm = 8#64 then exec (items.drop 1) m else none
      else exec items m
    | _ =>
      match execWord m w with
      | some m' => exec items m'
      | none => none
termination_by items => items.length
decreasing_by
  all_goals
    simp only [List.length_drop, List.length_cons]
    omega

/-! ## Comparisons and jumps -/

/-- The type of the operands of a comparison with a case: the integer promotions. -/
def IntType.promoted : IntType → IntType
  | .int u => .int u
  | .llong u => .llong u
  | .ptr => .ptr
  | _ => .int false

/-- The operator that `gen_op` takes for unsigned operands. -/
def Cond.unsigned : Cond → Cond
  | .lt => .ult
  | .gt => .ugt
  | .le => .ule
  | .ge => .uge
  | op => op

/-- The constant of a case on the value stack: `vpushll`, or `vpushi` and a cast to the type of the
comparison. -/
def caseOperand (t : IntType) (v : BitVec 64) : BitVec 64 :=
  match t.promoted with
  | .int true => (v.setWidth 32).setWidth 64
  | .int false => (v.setWidth 32).signExtend 64
  | _ => v

/-- The register that is free while `a` is in use. -/
def otherReg (a : Reg) : Reg := if a = 0 then 1 else 0

/-- `vdup`, `vpushi` or `vpushll`, and `gen_op`. -/
def compareCase (t : IntType) (a : Reg) (op : Cond) (v : BitVec 64) : Option Comparison :=
  genCompare t.promoted (ireg a) (ireg (otherReg a)) (caseOperand t v)
    (if t.promoted.unsigned then op.unsigned else op)

/-- The branch of `gjmp_cond` over the jump that follows it. -/
def branchOver (op : Cond) (a b : XReg) : Word :=
  match op with
  | .ult => oBranchOver 6#3 a b
  | .uge => oBranchOver 7#3 a b
  | .ule => oBranchOver 7#3 b a
  | .ugt => oBranchOver 6#3 b a
  | .lt => oBranchOver 4#3 a b
  | .ge => oBranchOver 5#3 a b
  | .le => oBranchOver 5#3 b a
  | .gt => oBranchOver 4#3 b a
  | .ne => oBranchOver 1#3 a b
  | .eq => oBranchOver 0#3 a b

/-- A comparison, and `gvtst` for it. -/
def gvtst (inv : Bool) (r : Comparison) (target : Target) : List Item :=
  r.words.map .word ++ [.word (branchOver (if inv then r.op.not else r.op) r.a r.b), .jump target]

/-! ## The dispatch -/

section Model

variable (t : IntType) (a : Reg)

/-- `gcase` from the linear scan on. -/
def gcaseLinear : List Case → Option (List Item)
  | [] => some [.jump .bsym]
  | p :: base => do
    let rest ← gcaseLinear base
    if p.v1 = p.v2 then some (gvtst false (← compareCase t a .eq p.v2) (.case p) ++ rest)
    else
      let le ← compareCase t a .le p.v2
      let inner := gvtst false (← compareCase t a .ge p.v1) (.case p)
      some (gvtst true le (.ahead inner.length) ++ (inner ++ rest))

/-- `gcase` -/
def gcase (base : List Case) : Option (List Item) :=
  if 8 < base.length then
    match _h : base[base.length / 2]? with
    | none => none
    | some p => do
      let le ← compareCase t a .le p.v2
      let ge ← compareCase t a .ge p.v1
      -- `x < v1`
      let left ← gcase (base.take (base.length / 2))
      -- `x > v2`
      let right ← gcase (base.drop (base.length / 2 + 1))
      let inner := gvtst false ge (.case p) ++ left
      some (gvtst true le (.ahead inner.length) ++ (inner ++ right))
  else gcaseLinear t a base
termination_by base.length
decreasing_by
  all_goals
    obtain ⟨hlt, -⟩ := List.getElem?_eq_some_iff.mp _h
    simp only [List.length_drop, List.length_take]
    omega

/-- `case_cmpu` or `case_cmpi` -/
def caseLe (p q : Case) : Bool := if t.unsigned then p.v1.ule q.v1 else p.v1.sle q.v1

/-- The test for two cases next to each other with a value in common. -/
def hasDuplicate : List Case → Bool
  | p :: q :: base =>
    (if t.unsigned then q.v1.ule p.v2 else q.v1.sle p.v2) || hasDuplicate (q :: base)
  | _ => false

/-- `qsort` -/
def sortCases (cases : List Case) : List Case := cases.mergeSort (caseLe t)

/-- The code that a switch dispatches by, with the controlling value in the register `a`. -/
def switchCode (cases : List Case) : Option (List Item) :=
  if hasDuplicate t (sortCases t cases) then none else gcase t a (sortCases t cases)

end Model

/-! ## What a switch is for -/

/-- The least and the greatest value of an integer type. -/
def IntType.minVal : IntType → Int
  | .bool => 0
  | .byte u => if u then 0 else -2 ^ 7
  | .short u => if u then 0 else -2 ^ 15
  | .int u => if u then 0 else -2 ^ 31
  | .llong u => if u then 0 else -2 ^ 63
  | .ptr => 0

def IntType.maxVal : IntType → Int
  | .bool => 1
  | .byte u => if u then 2 ^ 8 - 1 else 2 ^ 7 - 1
  | .short u => if u then 2 ^ 16 - 1 else 2 ^ 15 - 1
  | .int u => if u then 2 ^ 32 - 1 else 2 ^ 31 - 1
  | .llong u => if u then 2 ^ 64 - 1 else 2 ^ 63 - 1
  | .ptr => 2 ^ 64 - 1

/-- A value of an integer type. -/
structure Value (t : IntType) where
  val : Int
  lo : t.minVal ≤ val
  hi : val ≤ t.maxVal

/-- The register that holds a number: 32 bits are extended with their sign, whatever the type. -/
def IntType.toReg (t : IntType) (v : Int) : BitVec 64 :=
  if t = .int true then (BitVec.ofInt 32 v).signExtend 64 else BitVec.ofInt 64 v

/-- A constant converted to the promoted type. -/
def IntType.convert (t : IntType) (v : BitVec 64) : Int :=
  match t.promoted with
  | .int true => (v.setWidth 32).toNat
  | .int false => (v.setWidth 32).toInt
  | .llong false => v.toInt
  | _ => v.toNat

/-- The converted constant or range of a case contains a value. -/
def Case.Contains (t : IntType) (p : Case) (v : Int) : Prop := t.convert p.v1 ≤ v ∧ v ≤ t.convert p.v2

/-- No two cases contain the same value. -/
def NonOverlapping (t : IntType) (cases : List Case) : Prop :=
  Data.Disjoint (fun p v => p.Contains t v) cases

/-- Where a switch is to go for a value. -/
def Goes (t : IntType) (cases : List Case) (v : Int) : Exit → Prop
  | .case p => p ∈ cases ∧ p.Contains t v
  | .bsym => ∀ p ∈ cases, ¬ p.Contains t v

/-- The code goes to the case that contains the controlling value. -/
def Dispatches (t : IntType) (a : Reg) (cases : List Case) (items : List Item) : Prop :=
  ∀ v : Value t, ∀ m : Machine, m.reg (ireg a) = t.toReg v.val →
    ∃ e, exec items m = some e ∧ Goes t cases v.val e

/-- A constant of a case can be compared with: it is loaded as it is if it has 64 bits. -/
def CaseFits (t : IntType) (v : BitVec 64) : Prop := t.isLlong → ConstFits t v

/-- At each case at which the sorted cases are halved, the values of the controlling type that the
cases before it contain are below its bounds, and those that the cases behind it contain are above. -/
def Separated (t : IntType) (cases : List Case) : Prop :=
  Data.Separated 8 (fun p (v : Value t) => decide (t.convert p.v2 < v.val))
    (fun p v => decide (v.val < t.convert p.v1)) (fun p v => p.Contains t v.val) (sortCases t cases)

end TccRiscv64.Gen
