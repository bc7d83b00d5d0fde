import TccRiscv64.Gen.ValueStack
import TccRiscv64.Isa.BitString

set_option autoImplicit false

/-! # Typed integer values

The operations of the value stack that bit-field accesses are made of, by what the code they
generate computes: an entry holds the value that it will have at run time, with its type, and code
is executed as soon as it is generated. -/

namespace TccRiscv64.Bitfield

open TccRiscv64.Gen TccRiscv64.Isa

/-- A value: its type, whether it is a constant (`VT_CONST`, in `c.i`), and the value itself,
extended to 64 bits. -/
structure Value where
  type : IntType
  isConst : Bool
  bits : BitVec 64
  deriving DecidableEq, Repr

/-- The low bytes of `x` that a type has, extended as a load extends them. -/
def extend (t : IntType) (x : BitVec 64) : BitVec 64 :=
  if t.unsigned then (x.setWidth (8 * t.size)).setWidth 64
  else (x.setWidth (8 * t.size)).signExtend 64

/-- `vpushi`. -/
def vpushi (x : BitVec 32) : Value := ⟨.int false, true, x.signExtend 64⟩

/-- A small number as an operand. -/
def vpushNat (n : Nat) : Value := vpushi (BitVec.ofNat 32 n)

/-- `vpushll`. -/
def vpushll (x : BitVec 64) : Value := ⟨.llong false, true, x⟩

/-- An lvalue, loaded. -/
def loadLval (m : Memory) (addr : Nat) (t : IntType) : Value :=
  ⟨t, false, extend t ((m.load addr t.size).setWidth 64)⟩

/-- `vstore` to an lvalue that is not a bit-field. -/
def storeLval (m : Memory) (addr : Nat) (t : IntType) (v : Value) : Memory :=
  m.store addr t.size (v.bits.setWidth (8 * t.size))

/-- `gen_cast`. -/
def genCast (t : IntType) (v : Value) : Value :=
  if v.type = t then v
  else
    match t with
    | .bool => ⟨.bool, v.isConst, if v.bits = 0#64 then 0#64 else 1#64⟩
    | t => ⟨t, v.isConst, extend t v.bits⟩

/-- The operators that are used. -/
inductive BinOp
  | and | or | shl | shr | sar
  deriving DecidableEq, Repr

namespace BinOp

/-- `op == TOK_SHR || op == TOK_SAR || op == TOK_SHL`. -/
def isShift : BinOp → Bool
  | shl | shr | sar => true
  | _ => false

end BinOp

/-- `combine_types` for integers. -/
def combineTypes (t1 t2 : IntType) : IntType :=
  if t1.isLlong ∨ t2.isLlong then .llong (t1 = .llong true ∨ t2 = .llong true)
  else .int (t1 = .int true ∨ t2 = .int true)

/-- The type of a shift in `gen_op`: that of the promoted left operand. -/
def shiftType (t1 : IntType) : IntType :=
  if t1.isLlong then .llong (t1 = .llong true) else .int (t1 = .int true)

/-- The operation on operands of the type `t`, both extended to 64 bits: by `gen_opic` if both are
constants, otherwise by the instructions that `gen_opi` or `gen_opl` generate. The two differ in
what a logical shift of a negative `int` brings in from the left. -/
def evalOp (op : BinOp) (t : IntType) (isConst : Bool) (x y : BitVec 64) : BitVec 64 :=
  let n := y.toNat % (8 * t.size)
  match op with
  | .and => x &&& y
  | .or => x ||| y
  | .shl => x <<< n
  | .shr => if isConst ∨ t.isLlong then x >>> n else (x.setWidth 32 >>> n).setWidth 64
  | .sar => x.sshiftRight n

/-- `gen_op`. An arithmetic right shift of an unsigned operand becomes a logical one. -/
def genOp (op : BinOp) (a b : Value) : Value :=
  let t := if op.isShift then shiftType a.type else combineTypes a.type b.type
  let op := if op = .sar ∧ t.unsigned then .shr else op
  let a := genCast t a
  let b := genCast (if op.isShift then .int false else t) b
  let isConst := a.isConst && b.isConst
  ⟨t, isConst, extend t (evalOp op t isConst a.bits b.bits)⟩

/-! ## Values bit by bit -/

theorem IntType.size_pos (t : IntType) : 0 < t.size := by
  cases t <;> simp [IntType.size]

theorem IntType.size_le (t : IntType) : t.size ≤ 8 := by
  cases t <;> simp [IntType.size]

theorem getLsbD_extend (t : IntType) (x : BitVec 64) {j : Nat} (hj : j < 64) :
    (extend t x).getLsbD j
      = if j < 8 * t.size then x.getLsbD j else !t.unsigned && x.getLsbD (8 * t.size - 1) := by
  have hpos := IntType.size_pos t
  have h := Memory.getLsbD_truncBits (!t.unsigned) x (w := 8 * t.size) (by omega) hj
  unfold Memory.truncBits at h
  unfold extend
  cases hu : t.unsigned <;> rw [hu] at h <;> simpa using h

/-- The low bits are not changed by extending them. -/
theorem getLsbD_extend_of_lt (t : IntType) (x : BitVec 64) {j : Nat} (hj : j < 8 * t.size) :
    (extend t x).getLsbD j = x.getLsbD j := by
  have := IntType.size_le t
  rw [getLsbD_extend t x (by omega), if_pos hj]

theorem getLsbD_genCast {t : IntType} (ht : t ≠ .bool) (v : Value) {j : Nat} (hj : j < 8 * t.size) :
    (genCast t v).bits.getLsbD j = v.bits.getLsbD j := by
  unfold genCast
  split
  · rfl
  · cases t <;> first | exact absurd rfl ht | exact getLsbD_extend_of_lt _ _ hj

@[simp] theorem genCast_type (t : IntType) (v : Value) : (genCast t v).type = t := by
  unfold genCast
  split
  · assumption
  · cases t <;> rfl

@[simp] theorem genCast_isConst (t : IntType) (v : Value) :
    (genCast t v).isConst = v.isConst := by
  unfold genCast
  split
  · rfl
  · cases t <;> rfl

theorem combineTypes_ne_bool (t1 t2 : IntType) : combineTypes t1 t2 ≠ .bool := by
  unfold combineTypes
  split <;> simp

theorem shiftType_ne_bool (t1 : IntType) : shiftType t1 ≠ .bool := by
  unfold shiftType
  split <;> simp

theorem getLsbD_vpushi (x : BitVec 32) {j : Nat} (hj : j < 64) :
    (vpushi x).bits.getLsbD j = if j < 32 then x.getLsbD j else x.getLsbD 31 := by
  simp only [vpushi, BitVec.getLsbD_signExtend, decide_eq_true hj, Bool.true_and]
  rfl

section Operations

variable {a b : Value} {j : Nat}

/-- The type of the result. -/
@[simp] theorem genOp_type (op : BinOp) (a b : Value) :
    (genOp op a b).type = if op.isShift then shiftType a.type else combineTypes a.type b.type := rfl

@[simp] theorem genOp_isConst (op : BinOp) (a b : Value) :
    (genOp op a b).isConst = (a.isConst && b.isConst) := by
  simp [genOp]

/-- Above the width of its type a result is extended. -/
theorem getLsbD_genOp_high (op : BinOp) (hN : 8 * (genOp op a b).type.size ≤ j) (hj : j < 64) :
    (genOp op a b).bits.getLsbD j = (!(genOp op a b).type.unsigned &&
      (genOp op a b).bits.getLsbD (8 * (genOp op a b).type.size - 1)) := by
  have hpos := IntType.size_pos (genOp op a b).type
  obtain ⟨x, hx⟩ : ∃ x, (genOp op a b).bits = extend (genOp op a b).type x := ⟨_, rfl⟩
  rw [hx, getLsbD_extend _ _ hj, if_neg (by omega), getLsbD_extend_of_lt _ _ (by omega)]

theorem getLsbD_genOp_and (hj : j < 8 * (combineTypes a.type b.type).size) :
    (genOp .and a b).bits.getLsbD j = (a.bits.getLsbD j && b.bits.getLsbD j) := by
  have ht := combineTypes_ne_bool a.type b.type
  have h : (genOp .and a b).bits = extend (combineTypes a.type b.type)
      ((genCast (combineTypes a.type b.type) a).bits &&&
        (genCast (combineTypes a.type b.type) b).bits) := rfl
  rw [h, getLsbD_extend_of_lt _ _ hj, BitVec.getLsbD_and, getLsbD_genCast ht _ hj,
    getLsbD_genCast ht _ hj]

theorem getLsbD_genOp_or (hj : j < 8 * (combineTypes a.type b.type).size) :
    (genOp .or a b).bits.getLsbD j = (a.bits.getLsbD j || b.bits.getLsbD j) := by
  have ht := combineTypes_ne_bool a.type b.type
  have h : (genOp .or a b).bits = extend (combineTypes a.type b.type)
      ((genCast (combineTypes a.type b.type) a).bits |||
        (genCast (combineTypes a.type b.type) b).bits) := rfl
  rw [h, getLsbD_extend_of_lt _ _ hj, BitVec.getLsbD_or, getLsbD_genCast ht _ hj,
    getLsbD_genCast ht _ hj]

/-- A small operand is itself. -/
theorem genCast_vpushNat_toNat {n : Nat} (hn : n < 64) :
    (genCast (.int false) (vpushNat n)).bits.toNat = n := by
  have h : genCast (.int false) (vpushNat n) = vpushi (BitVec.ofNat 32 n) := if_pos rfl
  have hmsb : (BitVec.ofNat 32 n).msb = false := by
    rw [BitVec.msb_eq_decide, BitVec.toNat_ofNat]
    exact decide_eq_false (by omega)
  rw [h, vpushi, BitVec.toNat_signExtend, hmsb, BitVec.toNat_setWidth, BitVec.toNat_ofNat]
  simp only [Bool.false_eq_true, if_false]
  omega

theorem getLsbD_genOp_shl {n : Nat} (hn : n < 8 * (shiftType a.type).size)
    (hj : j < 8 * (shiftType a.type).size) :
    (genOp .shl a (vpushNat n)).bits.getLsbD j
      = (decide (n ≤ j) && a.bits.getLsbD (j - n)) := by
  have hle := IntType.size_le (shiftType a.type)
  have h : (genOp .shl a (vpushNat n)).bits = extend (shiftType a.type)
      ((genCast (shiftType a.type) a).bits <<<
        ((genCast (.int false) (vpushNat n)).bits.toNat
          % (8 * (shiftType a.type).size))) := rfl
  rw [h, getLsbD_extend_of_lt _ _ hj, genCast_vpushNat_toNat (by omega), Nat.mod_eq_of_lt hn,
    BitVec.getLsbD_shiftLeft, getLsbD_genCast (shiftType_ne_bool _) _ (by omega),
    decide_eq_true (by omega : j < 64), Bool.true_and]
  by_cases hnj : n ≤ j
  · rw [decide_eq_true hnj, decide_eq_false (by omega)]
    rfl
  · rw [decide_eq_false hnj, decide_eq_true (by omega)]
    rfl

/-- The low bits of a logical right shift do not depend on how it is done. -/
theorem getLsbD_genOp_shr {n : Nat} (hn : j + n < 8 * (shiftType a.type).size) :
    (genOp .shr a (vpushNat n)).bits.getLsbD j = a.bits.getLsbD (j + n) := by
  have hle := IntType.size_le (shiftType a.type)
  have hsize : (shiftType a.type).isLlong = false → (shiftType a.type).size = 4 := by
    unfold shiftType
    split <;> simp [IntType.isLlong, IntType.size]
  have h : (genOp .shr a (vpushNat n)).bits = extend (shiftType a.type)
      (evalOp .shr (shiftType a.type) (a.isConst && true) (genCast (shiftType a.type) a).bits
        (genCast (.int false) (vpushNat n)).bits) := by
    simp [genOp, BinOp.isShift, vpushNat, vpushi]
  rw [h, getLsbD_extend_of_lt _ _ (by omega)]
  unfold evalOp
  dsimp only
  rw [genCast_vpushNat_toNat (by omega), Nat.mod_eq_of_lt (by omega)]
  split
  · rw [BitVec.getLsbD_ushiftRight, getLsbD_genCast (shiftType_ne_bool _) _ (by omega),
      Nat.add_comm]
  · next hll =>
      have h4 := hsize (by simpa using fun h => hll (Or.inr h))
      rw [BitVec.getLsbD_setWidth, BitVec.getLsbD_ushiftRight, BitVec.getLsbD_setWidth,
        getLsbD_genCast (shiftType_ne_bool _) _ (by omega), decide_eq_true (by omega : j < 64),
        decide_eq_true (by omega : n + j < 32), Nat.add_comm]
      simp

end Operations

/-- A value read back by two shifts: left until the field is at the top, then right, which extends
    it. -/
theorem getLsbD_shiftPair {x : Value} {u : Bool} (hx : x.type = .int u ∨ x.type = .llong u)
    (hc : x.isConst = false) {p w : Nat} (hw : 0 < w) (hp : p + w ≤ 8 * x.type.size) {j : Nat}
    (hj : j < 64) :
    (genOp .sar (genOp .shl x (vpushNat (8 * x.type.size - (p + w))))
        (vpushNat (8 * x.type.size - w))).bits.getLsbD j
      = if j < w then x.bits.getLsbD (p + j) else !u && x.bits.getLsbD (p + w - 1) := by
  have hst : shiftType x.type = x.type := by
    rcases hx with h | h <;> rw [h] <;> cases u <;> rfl
  have hun : x.type.unsigned = u := by rcases hx with h | h <;> rw [h] <;> rfl
  have hsz : x.type.isLlong = false ∧ x.type.size = 4 ∨ x.type.isLlong = true ∧ x.type.size = 8 := by
    rcases hx with h | h <;> rw [h] <;> simp [IntType.isLlong, IntType.size]
  set t := x.type with ht
  set N := 8 * t.size with hN
  have hN64 : N = 32 ∨ N = 64 := by omega
  set y := genOp .shl x (vpushNat (N - (p + w))) with hy
  have hyt : y.type = t := hst
  -- the bits of the value in between
  have hylow : ∀ i < N, y.bits.getLsbD i = (decide (N - (p + w) ≤ i) &&
      x.bits.getLsbD (i - (N - (p + w)))) := by
    intro i hi
    rw [hy, getLsbD_genOp_shl (by rw [← ht, hst]; omega) (by rw [← ht, hst]; exact hi)]
  have hyhigh : ∀ i, N ≤ i → i < 64 → y.bits.getLsbD i = (!u && x.bits.getLsbD (p + w - 1)) := by
    intro i hi hi64
    have hhigh := getLsbD_genOp_high (a := x) (b := vpushNat (N - (p + w))) .shl
      (by rw [← hy, hyt]; exact hi) hi64
    rw [← hy, hyt, hun, ← hN, hylow (N - 1) (by omega), decide_eq_true (by omega),
      Bool.true_and] at hhigh
    rw [hhigh]
    congr 2
    omega
  have hcast : genCast (shiftType y.type) y = y := by rw [hyt, hst]; exact if_pos hyt
  have hz : (genOp .sar y (vpushNat (N - w))).bits = extend t
      (evalOp (if u then .shr else .sar) t false y.bits
        (genCast (.int false) (vpushNat (N - w))).bits) := by
    have hyc : y.isConst = false := by rw [hy, genOp_isConst, hc, Bool.false_and]
    cases u <;> simp [genOp, BinOp.isShift, hyt, hst, hun, hyc, genCast]
  set E := evalOp (if u then .shr else .sar) t false y.bits
    (genCast (.int false) (vpushNat (N - w))).bits with hEdef
  have hE : ∀ i < N, E.getLsbD i
      = if i < w then x.bits.getLsbD (p + i) else !u && x.bits.getLsbD (p + w - 1) := by
    intro i hi
    have hn : (genCast (.int false) (vpushNat (N - w))).bits.toNat % N = N - w := by
      rw [genCast_vpushNat_toNat (by omega), Nat.mod_eq_of_lt (by omega)]
    have hin : i < w → y.bits.getLsbD (N - w + i) = x.bits.getLsbD (p + i) := by
      intro hiw
      rw [hylow _ (by omega), decide_eq_true (by omega), Bool.true_and]
      congr 1
      omega
    cases u with
    | true =>
        -- a logical shift brings in zeros
        simp only [if_true, evalOp, ← hN, hn] at hEdef
        rcases hsz with ⟨hll, h4⟩ | ⟨hll, h8⟩
        · rw [hEdef, hll]
          simp only [Bool.false_eq_true, or_self, if_false, BitVec.getLsbD_setWidth,
            BitVec.getLsbD_ushiftRight, decide_eq_true (by omega : i < 64), Bool.true_and]
          by_cases hiw : i < w
          · rw [if_pos hiw, decide_eq_true (by omega), Bool.true_and, hin hiw]
          · rw [if_neg hiw, decide_eq_false (by omega)]
            rfl
        · rw [hEdef, hll]
          simp only [or_true, if_true, BitVec.getLsbD_ushiftRight]
          by_cases hiw : i < w
          · rw [if_pos hiw, hin hiw]
          · rw [if_neg hiw, BitVec.getLsbD_of_ge _ _ (by omega)]
            rfl
    | false =>
        -- an arithmetic one the top bit
        simp only [Bool.false_eq_true, if_false, evalOp, ← hN, hn] at hEdef
        rw [hEdef, BitVec.getLsbD_sshiftRight, decide_eq_false (by omega), Bool.not_false,
          Bool.true_and]
        by_cases hiw : i < w
        · rw [if_pos hiw, if_pos (by omega), hin hiw]
        · rw [if_neg hiw]
          split
          · rw [hyhigh _ (by omega) (by omega)]
            rfl
          · rw [BitVec.msb_eq_getLsbD_last]
            rcases hN64 with h32 | h64
            · rw [hyhigh _ (by omega) (by omega)]
              rfl
            · rw [hylow _ (by omega), decide_eq_true (by omega)]
              congr 2
              omega
  rw [hz, getLsbD_extend _ _ hj, hun, ← hN]
  by_cases hjN : j < N
  · rw [if_pos hjN, hE j hjN]
  · rw [if_neg hjN, hE _ (by omega), if_neg (by omega : ¬j < w)]
    split
    · congr 2
      omega
    · cases u <;> simp

end TccRiscv64.Bitfield
