import TccRiscv64.Data.Backpatch
import TccRiscv64.Gen.ValueStack

set_option autoImplicit false

/-! # Tests and jumps

The part of the code generator that decides where control goes: `gjmp`, `gsym` and the suppression
of code that cannot be reached, and the values whose truth is told by chains of jumps. The code of an
expression without jumps is one instruction here, and so are a constant, a comparison that is loaded
and the branch in front of a jump. The value at depth `d` of the value stack is in the register `d`. -/

namespace TccRiscv64.Gen.Flow

open TccRiscv64.Data.Backpatch

/-! ## The machine -/

/-- The value of a truth value. -/
def truth (b : Bool) : BitVec 64 := if b then 1 else 0

/-- A register of a comparison; `none` is `x0`. -/
abbrev CmpReg := Option Nat

inductive Instr (L K : Type)
  /-- the code of an expression `l` -/
  | leaf (l : L) (d : Nat)
  | li (d : Nat) (v : BitVec 64)
  | mv (d r : Nat)
  /-- an operator, on the registers `d` and `d + 1` -/
  | binary (f : BitVec 64 → BitVec 64 → BitVec 64) (d : Nat)
  /-- what `load` makes of a comparison -/
  | set (op : Cond) (d : Nat) (a b : CmpReg)
  /-- over the next instruction unless the comparison holds -/
  | branch (op : Cond) (a b : CmpReg)
  /-- the search for a case -/
  | search (d : Nat) (cases : List (K × Nat))

/-- What the parts of a program do that are not about control: an expression has a value, or ends the
program; a case has a value. -/
structure Sem (L K S : Type) where
  leaf : L → S → Option (BitVec 64) × S
  has : K → BitVec 64 → Bool

/-- The program has ended if there is no `pc`. -/
structure Machine (S : Type) where
  pc : Option Nat
  regs : Nat → BitVec 64
  st : S

variable {L K S : Type}

def Machine.read (m : Machine S) : CmpReg → BitVec 64
  | none => 0
  | some r => m.regs r

def Machine.write (m : Machine S) (pc d : Nat) (v : BitVec 64) : Machine S :=
  { m with pc := some pc, regs := Function.update m.regs d v }

def Instr.exec (sem : Sem L K S) (pc : Nat) (m : Machine S) : Instr L K → Machine S
  | .leaf l d =>
    match sem.leaf l m.st with
    | (some v, st) => { m.write (pc + 1) d v with st := st }
    | (none, st) => { m with pc := none, st := st }
  | .li d v => m.write (pc + 1) d v
  | .mv d r => m.write (pc + 1) d (m.regs r)
  | .binary f d => m.write (pc + 1) d (f (m.regs d) (m.regs (d + 1)))
  | .set op d a b => m.write (pc + 1) d (truth (op.holds (m.read a) (m.read b)))
  | .branch op a b =>
    { m with pc := some (if op.holds (m.read a) (m.read b) then pc + 1 else pc + 2) }
  | .search d cases =>
    { m with pc := some (((cases.find? fun c => sem.has c.1 (m.regs d)).map Prod.snd).getD (pc + 1)) }

/-- One step. A jump that was not patched goes nowhere. -/
def step (sem : Sem L K S) (P : Nat → Slot (Instr L K)) (m : Machine S) : Option (Machine S) :=
  match m.pc with
  | none => none
  | some pc =>
    match P pc with
    | .instr i => some (i.exec sem pc m)
    | .jump a => some { m with pc := some a }
    | .nop => some { m with pc := some (pc + 1) }
    | .link _ => none

/-! ## Emitting code -/

/-- `ind` and the code in front of it, and the two parts of `nocode_wanted`. -/
structure GenState (L K : Type) where
  code : Code (Instr L K)
  nocode : Nat
  off : Bool

namespace GenState

variable (s : GenState L K)

/-- `nocode_wanted` -/
def dead : Bool := s.nocode != 0 || s.off

/-- `CODE_OFF` -/
def codeOff : GenState L K := if s.dead then s else { s with off := true }

/-- `CODE_ON` -/
def codeOn : GenState L K := { s with off := false }

/-- `o` -/
def o (slot : Slot (Instr L K)) : GenState L K :=
  if s.dead then s else { s with code := s.code.emit slot }

/-- `gjmp` of the back end -/
def gjmpRaw (t : Nat) : GenState L K × Nat :=
  if s.dead then (s, t) else (s.o (.link t), s.code.ind)

/-- `gjmp_acs` -/
def gjmp (t : Nat) : GenState L K × Nat := ((s.gjmpRaw t).1.codeOff, (s.gjmpRaw t).2)

/-- `gjmp_addr_acs` -/
def gjmpAddr (a : Nat) : GenState L K := (s.o (.jump a)).codeOff

/-- `gjmp_cond` -/
def gjmpCond (op : Cond) (a b : CmpReg) (t : Nat) : GenState L K × Nat :=
  (s.o (.instr (.branch op a b))).gjmpRaw t

def gsymAddr (t a : Nat) : GenState L K := { s with code := s.code.patch t a }

def gsym (t : Nat) : GenState L K := if t ≠ 0 then (s.gsymAddr t s.code.ind).codeOn else s

def gind : GenState L K × Nat := (s.codeOn, s.code.ind)

def gjmpAppend (n t : Nat) : GenState L K × Nat :=
  ({ s with code := (s.code.append n t).1 }, (s.code.append n t).2)

end GenState

/-! ## Values -/

/-- `cmp_op`: 0, 1 or a token -/
inductive CmpOp
  | never
  | always
  | test (op : Cond)
  deriving DecidableEq

/-- `op ^ 1` -/
def CmpOp.not : CmpOp → CmpOp
  | never => always
  | always => never
  | test op => .test op.not

/-- A value with `VT_CMP`: what the registers have to satisfy, and the jumps of those who know already
that it is true or false. -/
structure Cmp where
  op : CmpOp
  a : CmpReg
  b : CmpReg
  jtrue : Nat
  jfalse : Nat

/-- `vset_VT_CMP` -/
def Cmp.start (op : CmpOp) (a : CmpReg) : Cmp := ⟨op, a, none, 0, 0⟩

/-- `gen_test_zero` for `TOK_EQ` -/
def Cmp.not (c : Cmp) : Cmp := ⟨c.op.not, c.a, c.b, c.jfalse, c.jtrue⟩

inductive SValue
  | const (v : BitVec 64)
  | reg (r : Nat)
  | cmp (c : Cmp)

namespace SValue

/-- `vpushi(0); gen_op(TOK_NE)`, unless it is a comparison. -/
def toCmp : SValue → Cmp
  | const v => .start (if v = 0 then .never else .always) none
  | reg r => .start (.test .ne) (some r)
  | cmp c => c

/-- `gen_test_zero(TOK_EQ)` -/
def isZero : SValue → SValue
  | const v => const (if v = 0 then 1 else 0)
  | reg r => cmp (.start (.test .eq) (some r))
  | cmp c => cmp c.not

/-- `condition_3way` -/
def condition3way : SValue → Option Bool
  | const v => some (v != 0)
  | _ => none

/-- `is_cond_bool` -/
def isCondBool : SValue → Bool
  | const v => v == 0 || v == 1
  | reg _ => false
  | cmp _ => true

end SValue

namespace GenState

variable (s : GenState L K)

/-- `gvtst_set` -/
def gvtstSet (inv : Bool) (t : Nat) (v : SValue) : GenState L K × Cmp :=
  let c := v.toCmp
  if inv then ((s.gjmpAppend c.jfalse t).1, { c with jfalse := (s.gjmpAppend c.jfalse t).2 })
  else ((s.gjmpAppend c.jtrue t).1, { c with jtrue := (s.gjmpAppend c.jtrue t).2 })

/-- The jump of `gvtst`, taken if `op` holds. -/
def gvtstJump (op : CmpOp) (a b : CmpReg) (t : Nat) : GenState L K × Nat :=
  match op with
  | .test op => s.gjmpCond op a b t
  | .always => s.gjmp t
  | .never => (s, t)

/-- `gvtst` -/
def gvtst (inv : Bool) (t : Nat) (v : SValue) : GenState L K × Nat :=
  let r := s.gvtstSet inv t v
  let t := if inv then r.2.jfalse else r.2.jtrue
  let u := if inv then r.2.jtrue else r.2.jfalse
  let j := r.1.gvtstJump (if inv then r.2.op.not else r.2.op) r.2.a r.2.b t
  (j.1.gsym u, j.2)

/-- `vpop` -/
def vpop : SValue → GenState L K
  | .cmp c => (s.gsym c.jtrue).gsym c.jfalse
  | _ => s

/-- `load` for `VT_JMP` and `VT_JMPI`: `inv` if the jumps do not come, and the other value if they
do. -/
def loadJmp (d : Nat) (inv : Bool) (t : Nat) : GenState L K :=
  let s := s.o (.instr (.li d (truth inv)))
  let s := (s.o (.jump (s.code.ind + 2))).gsym t
  s.o (.instr (.li d (truth !inv)))

/-- `gv`, into the register `d` -/
def gv (d : Nat) : SValue → GenState L K
  | .const v => s.o (.instr (.li d v))
  | .reg r => if r = d then s else s.o (.instr (.mv d r))
  | .cmp c =>
    -- `vset_VT_JMP`
    if c.jtrue ≠ 0 ∨ c.jfalse ≠ 0 then
      (s.gvtst (c.op == .always) 0 (.cmp c)).1.loadJmp d (c.op == .always)
        (s.gvtst (c.op == .always) 0 (.cmp c)).2
    else
      match c.op with
      | .test op => s.o (.instr (.set op d c.a c.b))
      | .always => s.o (.instr (.li d 1))
      | .never => s.o (.instr (.li d 0))

end GenState

end TccRiscv64.Gen.Flow
