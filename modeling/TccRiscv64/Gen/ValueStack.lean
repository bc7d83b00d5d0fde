import TccRiscv64.Gen.Emit

set_option autoImplicit false

/-! # The value stack for integers

The part of the value stack that compiling an expression of integer and pointer type goes through:
where a value is, loading it into a register, and freeing a register by saving its content to a
temporary local variable. Values that carry a symbol, a bit-field or a delayed cast are left out, and
so are floating-point registers. -/

namespace TccRiscv64.Gen

open TccRiscv64.Isa

/-! ## Types -/

/-- An integer or pointer type: `VT_BTYPE` and, where it can be set, `VT_UNSIGNED`. An enumeration is
an `int`. -/
inductive IntType
  | bool
  | byte (unsigned : Bool)
  | short (unsigned : Bool)
  | int (unsigned : Bool)
  | llong (unsigned : Bool)
  | ptr
  deriving DecidableEq, Repr

namespace IntType

/-- `btype_size`. -/
def size : IntType → Nat
  | bool | byte _ => 1
  | short _ => 2
  | int _ => 4
  | llong _ | ptr => 8

/-- `t & VT_UNSIGNED`. -/
def unsigned : IntType → Bool
  | byte u | short u | int u | llong u => u
  | bool | ptr => false

/-- `bt == VT_LLONG`. -/
def isLlong : IntType → Bool
  | llong _ => true
  | _ => false

/-- `bt == VT_LLONG || bt == VT_PTR`. -/
def isWide : IntType → Bool
  | llong _ | ptr => true
  | _ => false

end IntType

/-! ## Comparison tokens -/

/-- The comparison tokens, in the order of their codes. -/
inductive Cond
  | ult | uge | eq | ne | ule | ugt | lt | ge | le | gt
  deriving DecidableEq, Repr

namespace Cond

/-- The code of a token. -/
def code : Cond → Nat
  | ult => 0x92
  | uge => 0x93
  | eq => 0x94
  | ne => 0x95
  | ule => 0x96
  | ugt => 0x97
  | lt => 0x9c
  | ge => 0x9d
  | le => 0x9e
  | gt => 0x9f

/-- `op ^ 1`. -/
def not : Cond → Cond
  | ult => uge
  | uge => ult
  | eq => ne
  | ne => eq
  | ule => ugt
  | ugt => ule
  | lt => ge
  | ge => lt
  | le => gt
  | gt => le

/-- The comparison a token stands for, on any width. -/
def holds {n : Nat} (c : Cond) (x y : BitVec n) : Bool :=
  match c with
  | ult => x.ult y
  | uge => !x.ult y
  | eq => x == y
  | ne => x != y
  | ule => x.ule y
  | ugt => !x.ule y
  | lt => x.slt y
  | ge => !x.slt y
  | le => x.sle y
  | gt => !x.sle y

theorem holds_not {n : Nat} (c : Cond) (x y : BitVec n) : c.not.holds x y = !c.holds x y := by
  cases c <;> simp [not, holds, bne]

end Cond

/-! ## Values -/

/-- One of the integer registers `a0` to `a7`, `TREG_R(0)` to `TREG_R(7)`. -/
abbrev Reg := Fin 8

/-- `ireg`. -/
def ireg (r : Reg) : XReg := BitVec.ofNat 5 (r.val + 10)

/-- Where a value is: `r & (VT_VALMASK | VT_LVAL)`, with `c.i` or the operands of a comparison. -/
inductive Loc
  /-- `VT_CONST` -/
  | const (c : BitVec 64)
  /-- a register -/
  | reg (r : Reg)
  /-- `VT_CMP`, with `cmp_op` and the registers in `cmp_r` -/
  | cmp (op : Cond) (a b : XReg)
  /-- `VT_LOCAL`: an address in the frame -/
  | local (ofs : BitVec 64)
  /-- `VT_LVAL | VT_CONST`: in memory, at a constant address -/
  | lvalConst (c : BitVec 64)
  /-- `VT_LVAL` and a register: in memory, with the address in the register -/
  | lvalReg (r : Reg)
  /-- `VT_LVAL | VT_LOCAL`: in the frame -/
  | lvalLocal (ofs : BitVec 64)
  /-- `VT_LVAL | VT_LLOCAL`: in memory, with the address in the frame -/
  | lvalLlocal (ofs : BitVec 64)
  deriving DecidableEq, Repr

/-- `r & VT_LVAL`. -/
def Loc.isLval : Loc → Bool
  | lvalConst _ | lvalReg _ | lvalLocal _ | lvalLlocal _ => true
  | _ => false

/-- The register `r & VT_VALMASK`, if it is one. -/
def Loc.reg? : Loc → Option Reg
  | reg r | lvalReg r => some r
  | _ => none

/-- A value stack entry. -/
structure SValue where
  type : IntType
  loc : Loc
  deriving DecidableEq, Repr

/-- A temporary local variable: an element of `arr_temp_local_vars`. -/
structure TempVar where
  location : Int
  size : Nat
  align : Nat
  deriving DecidableEq, Repr

/-- The state of the code generator: the value stack with its top first, the code emitted so far,
the lowest offset in use in the frame, and the temporary local variables. -/
structure GenState where
  vstack : List SValue
  code : List Word
  loc : Int
  temps : List TempVar
  deriving DecidableEq, Repr

/-- Append to the code. -/
def GenState.emit (st : GenState) (ws : List Word) : GenState := { st with code := st.code ++ ws }

/-! ## Loads and stores -/

/-- `fc << 20 >> 20`. -/
def low12 (fc : BitVec 32) : BitVec 32 := (fc.setWidth 12).signExtend 32

/-- `load_symofs` for a place in the frame: code, base register and offset from it. -/
def loadSymofs (r : Option Reg) (ofs : BitVec 64) : Option (List Word × XReg × BitVec 32) :=
  let fc := ofs.setWidth 32
  if fc.signExtend 64 ≠ ofs then none
  else if ¬Fits12 fc then
    let rr := match r with
      | some r => ireg r
      | none => 5#5
    some ([oLui rr fc, er 0x33#7 0#3 rr rr 8#5 0#7], rr, low12 fc)
  else some ([], 8#5, fc)

/-- `load_large_constant`. -/
def loadLargeConstant (rr : XReg) (fc pi : BitVec 32) : Option (List Word) := do
  let pi := if fc.msb then pi + 1#32 else pi
  let w1 ← ei 0x13#7 0#3 rr rr (low12 pi)
  let w2 ← ei 0x13#7 1#3 rr rr 12#32
  let w3 ← ei 0x13#7 0#3 rr rr ((fc + 0x80000#32).sshiftRight 20)
  let w4 ← ei 0x13#7 1#3 rr rr 12#32
  let fc := (fc <<< 12).sshiftRight 12
  let w5 ← ei 0x13#7 0#3 rr rr (fc.sshiftRight 8)
  let w6 ← ei 0x13#7 1#3 rr rr 8#32
  some [oLui rr pi, w1, w2, w3, w4, w5, w6]

/-- `func3` of the load for a value of the given type. -/
def loadFunc3 (t : IntType) : BitVec 3 :=
  let func3 := if t.size = 1 then 0#3 else if t.size = 2 then 1#3 else if t.size = 4 then 2#3 else 3#3
  if t.size < 4 ∧ t.unsigned then func3 ||| 4#3 else func3

/-- The end of `load` of a constant: add `fc` to the register `rb`, in two steps if need be. -/
def loadLow (rr rb : XReg) (do32bit : BitVec 7) (fc : BitVec 32) : Option (List Word) :=
  let ws := if Fits12 fc then [] else [oLui rr fc]
  let rb := if Fits12 fc then rb else rr
  if fc ≠ 0#32 ∨ rr ≠ rb ∨ do32bit ≠ 0#7 then
    (ei (0x13#7 ||| do32bit) 0#3 rr rb (low12 fc)).map fun w => ws ++ [w]
  else some ws

/-- `load` of a constant. -/
def loadConst (rr : XReg) (t : IntType) (c : BitVec 64) : Option (List Word) :=
  let fc := c.setWidth 32
  let si := c.extractLsb' 32 32
  if fc.signExtend 64 = c then loadLow rr 0#5 8#7 fc
  else if si ≠ 0#32 then do
    let ws ← loadLargeConstant rr fc si
    some (ws ++ (← loadLow rr rr 0#7 (fc &&& 0xff#32)))
  else if t.isLlong then do
    -- an unsigned 32-bit constant for a 64-bit type
    let ws ← loadLow rr 0#5 8#7 fc
    some (ws ++ [← ei 0x13#7 1#3 rr rr 32#32, ← ei 0x13#7 5#3 rr rr 32#32])
  else loadLow rr 0#5 8#7 fc

/-- `load` of a comparison: its truth value. -/
def loadCmp (rr : XReg) (op : Cond) (a b : XReg) : Option (List Word) :=
  if op = .ne ∨ op = .eq then do
    let sub := if rr ≠ a ∨ b ≠ 0#5 then [er 0x33#7 0#3 rr a b 0x20#7] else []
    if op = .ne then some (sub ++ [er 0x33#7 3#3 rr 0#5 rr 0#7])
    else some (sub ++ [← ei 0x13#7 3#3 rr rr 1#32])
  else do
    -- remove `[U]GE` and `[U]GT`, then `[U]LE`
    let odd := op.code % 2 == 1
    let op := if odd then op.not else op
    let le := op.code &&& 7 == 6
    let (a, b) := if le then (b, a) else (a, b)
    let slt := er 0x33#7 (if op.code > Cond.ugt.code then 2#3 else 3#3) rr a b 0#7
    if odd ^^ le then some [slt, ← ei 0x13#7 4#3 rr rr 1#32] else some [slt]

/-- `load`. -/
def load (r : Reg) (sv : SValue) : Option (List Word) :=
  let rr := ireg r
  match sv.loc with
  | .lvalLocal ofs => do
    let (ws, br, fc) ← loadSymofs (some r) ofs
    some (ws ++ [← ei 0x03#7 (loadFunc3 sv.type) rr br fc])
  | .lvalReg v => do
    some [← ei 0x03#7 (loadFunc3 sv.type) rr (ireg v) 0#32]
  | .lvalLlocal ofs => do
    let (ws, br, fc) ← loadSymofs (some r) ofs
    some (ws ++ [← ei 0x03#7 3#3 rr br fc, ← ei 0x03#7 (loadFunc3 sv.type) rr rr 0#32])
  | .lvalConst c => do
    let fc := c.setWidth 32
    let si := c.extractLsb' 32 32
    if si ≠ 0#32 then
      let ws ← loadLargeConstant rr fc si
      some (ws ++ [← ei 0x03#7 (loadFunc3 sv.type) rr rr (fc &&& 0xff#32)])
    else
      some [oLui rr fc, ← ei 0x03#7 (loadFunc3 sv.type) rr rr (low12 fc)]
  | .const c => loadConst rr sv.type c
  | .local ofs => do
    let (ws, br, fc) ← loadSymofs (some r) ofs
    some (ws ++ [← ei 0x13#7 0#3 rr br fc])
  | .reg v => do
    some [← ei 0x13#7 0#3 rr (ireg v) 0#32]
  | .cmp op a b => loadCmp rr op a b

/-- `func3` of the store of a value of the given size. -/
def storeFunc3 (size : Nat) : BitVec 3 :=
  if size = 1 then 0#3 else if size = 2 then 1#3 else if size = 4 then 2#3 else 3#3

/-- `store` of a register to a place in the frame. -/
def store (r : Reg) (size : Nat) (ofs : BitVec 64) : Option (List Word) := do
  let (ws, ptrreg, fc) ← loadSymofs none ofs
  some (ws ++ [← es 0x23#7 (storeFunc3 size) ptrreg (ireg r) fc])

/-! ## Freeing registers -/

/-- Whether a temporary variable is free: no entry of the value stack refers to it. -/
def TempVar.free (v : TempVar) (vstack : List SValue) : Bool :=
  vstack.all fun sv =>
    match sv.loc with
    | .local ofs | .lvalLocal ofs | .lvalLlocal ofs => ofs ≠ BitVec.ofInt 64 v.location
    | _ => true

/-- `MAX_TEMP_LOCAL_VARIABLE_NUMBER`. -/
def maxTempLocalVariableNumber : Nat := 8

/-- `get_temp_local_var`: the offset of a free temporary variable. -/
def getTempLocalVar (size align : Nat) (st : GenState) : Int × GenState :=
  match st.temps.find? fun v => size ≤ v.size ∧ v.align = align ∧ v.free st.vstack with
  | some v => (v.location, st)
  | none =>
    -- `(loc - size) & -align`
    let loc := (st.loc - size) / align * align
    let temps :=
      if st.temps.length < maxTempLocalVariableNumber then st.temps ++ [⟨loc, size, align⟩]
      else st.temps
    (loc, { st with loc := loc, temps := temps })

/-- Whether an entry refers to a register. -/
def SValue.usesReg (sv : SValue) (r : Reg) : Bool := sv.loc.reg? = some r

/-- The size of what has to be saved of an entry: its value, or its address. -/
def SValue.saveSize (sv : SValue) : Nat := if sv.loc.isLval then 8 else sv.type.size

/-- An entry whose register `r` was saved at the offset `l`. -/
def SValue.saved (r : Reg) (l : Int) (sv : SValue) : SValue :=
  if sv.usesReg r then
    if sv.loc.isLval then { sv with loc := .lvalLlocal (BitVec.ofInt 64 l) }
    else { sv with loc := .lvalLocal (BitVec.ofInt 64 l) }
  else sv

/-- `save_reg_upstack`: save `r` to memory and mark it as free, if it is used by an entry other than
the `n` topmost ones. The first of these from the bottom tells how much is saved. -/
def saveRegUpstack (r : Reg) (n : Nat) (st : GenState) : Option GenState :=
  match (st.vstack.drop n).reverse.find? (·.usesReg r) with
  | none => some st
  | some p => do
    let (l, st) := getTempLocalVar p.saveSize p.saveSize st
    let ws ← store r p.saveSize (BitVec.ofInt 64 l)
    let st := st.emit ws
    some { st with vstack := st.vstack.take n ++ (st.vstack.drop n).map (SValue.saved r l) }

/-- `save_reg`. -/
def saveReg (r : Reg) (st : GenState) : Option GenState := saveRegUpstack r 0 st

/-- `get_reg(RC_INT)`: a free register. If there is none, the one that the lowest entry refers to is
saved. -/
def getReg (st : GenState) : Option (Reg × GenState) :=
  match (List.finRange 8).find? fun r => st.vstack.all fun sv => !sv.usesReg r with
  | some r => some (r, st)
  | none => do
    let r ← st.vstack.reverse.findSome? (·.loc.reg?)
    some (r, ← saveReg r st)

/-! ## Operations on the value stack -/

/-- `gv(RC_INT)`: the top of the stack in a register. -/
def gv (st : GenState) : Option (Reg × GenState) :=
  match st.vstack with
  | [] => none
  | top :: _ => do
    let (r, st) ← match top.loc with
      | .reg r => some (r, st)
      | .lvalReg r => do some (r, ← saveRegUpstack r 1 st)
      | _ => getReg st
    match top.loc with
    | .reg _ => some (r, st)
    | _ => do
      let st := st.emit (← load r top)
      some (r, { st with vstack := { top with loc := .reg r } :: st.vstack.tail })

/-- `vcheck_cmp`. -/
def vcheckCmp (st : GenState) : Option GenState :=
  match st.vstack with
  | ⟨_, .cmp ..⟩ :: _ => do some (← gv st).2
  | _ => some st

/-- `vsetc`. -/
def vset (sv : SValue) (st : GenState) : Option GenState := do
  let st ← vcheckCmp st
  some { st with vstack := sv :: st.vstack }

/-- `vpushi`. -/
def vpushi (v : BitVec 32) (st : GenState) : Option GenState :=
  vset ⟨.int false, .const (v.signExtend 64)⟩ st

/-- `vswap`. -/
def vswap (st : GenState) : Option GenState := do
  let st ← vcheckCmp st
  match st.vstack with
  | x :: y :: rest => some { st with vstack := y :: x :: rest }
  | _ => none

/-- `vpop`. -/
def vpop (st : GenState) : Option GenState :=
  match st.vstack with
  | _ :: rest => some { st with vstack := rest }
  | _ => none

/-- `gv2(RC_INT, RC_INT)`: the two topmost entries in registers. A value may have been saved again
by loading the other one. -/
def gv2 (st : GenState) : Option GenState := do
  match st.vstack with
  | ⟨_, .cmp ..⟩ :: _ => do
    let (_, st) ← gv st
    let st ← vswap st
    let (_, st) ← gv st
    let st ← vswap st
    match st.vstack with
    | x :: _ => if x.loc.reg?.isNone then do some (← gv st).2 else some st
    | _ => none
  | _ => do
    let st ← vswap st
    let (_, st) ← gv st
    let st ← vswap st
    let (_, st) ← gv st
    match st.vstack with
    | _ :: y :: _ =>
      if y.loc.reg?.isNone then do
        let st ← vswap st
        let (_, st) ← gv st
        vswap st
      else some st
    | _ => none

end TccRiscv64.Gen
