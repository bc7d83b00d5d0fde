import TccRiscv64.Gen.Flow

set_option autoImplicit false

/-! # Logical and conditional expressions

The code of `!`, `&&`, `||`, `?:` and the comma, and of operators on the values of such expressions. A
chain of operands `a && b && c` is nested to the right, and an operand in parentheses is marked. -/

namespace TccRiscv64.Gen.Flow

open TccRiscv64.Data.Backpatch

variable {L K S : Type}

/-! ## Expressions -/

inductive Expr (L : Type)
  | const (v : BitVec 64)
  | leaf (l : L)
  | paren (e : Expr L)
  | binary (f : BitVec 64 → BitVec 64 → BitVec 64) (a b : Expr L)
  /-- a comparison -/
  | rel (op : Cond) (a b : Expr L)
  | not (e : Expr L)
  /-- `&&` or `||` -/
  | landor (isAnd : Bool) (a b : Expr L)
  | cond (c a b : Expr L)
  /-- `c ?: b` -/
  | elvis (c b : Expr L)
  | comma (a b : Expr L)

/-- What comes behind the value of an expression, if the program has not ended. -/
def andThen (r : Option (BitVec 64) × S) (k : BitVec 64 → S → Option (BitVec 64) × S) :
    Option (BitVec 64) × S :=
  match r.1 with
  | some x => k x r.2
  | none => (none, r.2)

/-- The value that C gives to an expression. -/
def Expr.eval (sem : Sem L K S) : Expr L → S → Option (BitVec 64) × S
  | .const v, st => (some v, st)
  | .leaf l, st => sem.leaf l st
  | .paren e, st => e.eval sem st
  | .binary f a b, st =>
    andThen (a.eval sem st) fun x st => andThen (b.eval sem st) fun y st => (some (f x y), st)
  | .rel op a b, st =>
    andThen (a.eval sem st) fun x st =>
      andThen (b.eval sem st) fun y st => (some (truth (op.holds x y)), st)
  | .not e, st => andThen (e.eval sem st) fun x st => (some (truth (x == 0)), st)
  | .landor isAnd a b, st =>
    andThen (a.eval sem st) fun x st =>
      if (x != 0) = isAnd then andThen (b.eval sem st) fun y st => (some (truth (y != 0)), st)
      else (some (truth !isAnd), st)
  | .cond c a b, st =>
    andThen (c.eval sem st) fun x st => if x ≠ 0 then a.eval sem st else b.eval sem st
  | .elvis c b, st =>
    andThen (c.eval sem st) fun x st => if x ≠ 0 then (some x, st) else b.eval sem st
  | .comma a b, st => andThen (a.eval sem st) fun _ st => b.eval sem st

/-! ## Code -/

/-- The variables of the loop in `expr_landor`: the chain of those who know the result, whether all
operands so far are constants, and whether one of them decides. -/
structure Landor where
  isAnd : Bool
  t : Nat
  cc : Bool
  f : Bool

namespace GenState

variable (s : GenState L K)

def nocodeInc : GenState L K := { s with nocode := s.nocode + 1 }

def nocodeDec : GenState L K := { s with nocode := s.nocode - 1 }

/-- `vcheck_cmp`, for the value at depth `d` -/
def vcheckCmp (d : Nat) (v : SValue) : GenState L K × SValue :=
  match v with
  | .cmp _ => if s.nocode = 0 then (s.gv d v, .reg d) else (s, v)
  | _ => (s, v)

/-- `gv2` for the values at depth `d` and `d + 1` -/
def gv2 (d : Nat) (va vb : SValue) : GenState L K :=
  match vb with
  | .cmp _ => (s.gv (d + 1) vb).gv d va
  | _ => (s.gv d va).gv (d + 1) vb

/-- The head of the loop: what `condition_3way` says of an operand, or `f` of those behind it. -/
def landorHead (l : Landor) (v : SValue) : GenState L K × Landor × Option Bool :=
  let c := if l.f then some l.isAnd else v.condition3way
  if c = some (!l.isAnd) then (s.nocodeInc, { l with f := true }, c)
  else (s, { l with cc := l.cc && c.isSome }, c)

/-- An operand that another one comes behind. -/
def landorNext (l : Landor) (v : SValue) : GenState L K × Landor :=
  let r := s.landorHead l v
  match r.2.2 with
  | none => ((r.1.gvtst l.isAnd l.t v).1, { r.2.1 with t := (r.1.gvtst l.isAnd l.t v).2 })
  | some _ => (r.1.vpop v, r.2.1)

/-- The last operand. -/
def landorEnd (l : Landor) (v : SValue) : GenState L K × SValue :=
  let r := s.landorHead l v
  if r.2.1.cc || r.2.1.f then
    let s := (r.1.vpop v).gsym l.t
    (if r.2.1.f then s.nocodeDec else s, .const (truth (l.isAnd ^^ r.2.1.f)))
  else ((r.1.gvtstSet l.isAnd l.t v).1, .cmp (r.1.gvtstSet l.isAnd l.t v).2)

/-- The last operand, if there are operands in front of the expression. -/
def landorFinish (l : Option Landor) (v : SValue) : GenState L K × SValue :=
  match l with
  | none => (s, v)
  | some l => s.landorEnd l v

/-- The two ways of a conditional expression come together: `u` are the jumps from the first. -/
def condJoin (d : Nat) (va vb : SValue) (u : Nat) : GenState L K × SValue :=
  if va.isCondBool && vb.isCondBool then
    let r1 := s.gvtst false 0 vb
    let r2 := r1.1.gjmp 0
    let r3 := (r2.1.gsym u).gvtstSet false r1.2 va
    let r4 := r3.1.gvtstSet true r2.2 (.cmp r3.2)
    (r4.1, .cmp r4.2)
  else
    let r := (s.gv d vb).gjmp 0
    (((r.1.gsym u).gv d va).gsym r.2, .reg d)

end GenState

/-- The code of an expression at depth `d`; `l` is the loop in which it is the rest of the operands.
`noret` tells which expressions are calls of functions that do not return. -/
def Expr.gen (noret : L → Bool) :
    Expr L → Option Landor → Nat → GenState L K → GenState L K × SValue
  | .const v, l, _, s => s.landorFinish l (.const v)
  | .leaf i, l, d, s =>
    let s := s.o (.instr (.leaf i d))
    (if noret i then s.codeOff else s).landorFinish l (.reg d)
  | .paren e, l, d, s => (e.gen noret none d s).1.landorFinish l (e.gen noret none d s).2
  | .binary f a b, l, d, s =>
    let ra := a.gen noret none d s
    let rc := ra.1.vcheckCmp d ra.2
    let rb := b.gen noret none (d + 1) rc.1
    match rc.2, rb.2 with
    | .const x, .const y => rb.1.landorFinish l (.const (f x y))
    | va, vb => ((rb.1.gv2 d va vb).o (.instr (.binary f d))).landorFinish l (.reg d)
  | .rel op a b, l, d, s =>
    let ra := a.gen noret none d s
    let rc := ra.1.vcheckCmp d ra.2
    let rb := b.gen noret none (d + 1) rc.1
    match rc.2, rb.2 with
    | .const x, .const y => rb.1.landorFinish l (.const (truth (op.holds x y)))
    | va, vb =>
      (rb.1.gv2 d va vb).landorFinish l (.cmp ⟨.test op, some d, some (d + 1), 0, 0⟩)
  | .not e, l, d, s => (e.gen noret none d s).1.landorFinish l (e.gen noret none d s).2.isZero
  | .landor isAnd a b, l, d, s =>
    let ra := a.gen noret none d s
    match l with
    | some l' =>
      if l'.isAnd = isAnd then
        let r := ra.1.landorNext l' ra.2
        b.gen noret (some r.2) d r.1
      else
        let r := ra.1.landorNext ⟨isAnd, 0, true, false⟩ ra.2
        let rb := b.gen noret (some r.2) d r.1
        rb.1.landorFinish l rb.2
    | none =>
      let r := ra.1.landorNext ⟨isAnd, 0, true, false⟩ ra.2
      b.gen noret (some r.2) d r.1
  | .cond c a b, l, d, s =>
    let rc := c.gen noret none d s
    match rc.2.condition3way with
    | none =>
      let rt := rc.1.gvtst true 0 rc.2
      let ra := a.gen noret none d rt.1
      let ru := ra.1.gjmp 0
      let rb := b.gen noret none d (ru.1.gsym rt.2)
      let rj := rb.1.condJoin d ra.2 rb.2 ru.2
      rj.1.landorFinish l rj.2
    | some false =>
      let ra := a.gen noret none d rc.1.nocodeInc
      let rb := b.gen noret none d ra.1.nocodeDec
      rb.1.landorFinish l rb.2
    | some true =>
      let ra := a.gen noret none d rc.1
      let rb := b.gen noret none d ra.1.nocodeInc
      rb.1.nocodeDec.landorFinish l ra.2
  | .elvis c b, l, d, s =>
    let rc := c.gen noret none d s
    match rc.2.condition3way with
    | none =>
      -- `gv_dup`
      let s := (rc.1.gv d rc.2).o (.instr (.mv (d + 1) d))
      let rt := s.gvtst false 0 (.reg (d + 1))
      let rb := b.gen noret none d rt.1
      let rj := rb.1.condJoin d (.reg d) rb.2 rt.2
      rj.1.landorFinish l rj.2
    | some false =>
      let rb := b.gen noret none d rc.1.nocodeInc.nocodeDec
      rb.1.landorFinish l rb.2
    | some true =>
      let rb := b.gen noret none d rc.1.nocodeInc
      rb.1.nocodeDec.landorFinish l rc.2
  | .comma a b, l, d, s =>
    let ra := a.gen noret none d s
    let rb := b.gen noret none d (ra.1.vpop ra.2)
    match rb.2 with
    | .const v =>
      if rb.1.dead then (rb.1.gv d (.const v)).landorFinish l (.reg d)
      else rb.1.landorFinish l (.const v)
    | v => rb.1.landorFinish l v

end TccRiscv64.Gen.Flow
