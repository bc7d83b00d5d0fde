import TccRiscv64.Asm.Expr

set_option autoImplicit false

/-! # Layout directives

`.align`, `.balign`, `.p2align`, `.skip`, `.space`, `.org` and `.fill` move the current offset `ind`,
an `int`, and put bytes in the current section. -/

namespace TccRiscv64.Asm.Layout

open TccRiscv64.Asm.Labels TccRiscv64.Asm.Expr

/-! ## Sections -/

/-- `Section`: `data` are the `data_allocated` bytes. -/
structure Section where
  shNum : ℕ
  /-- `sh_type == SHT_NOBITS` -/
  nobits : Bool
  shAddralign : BitVec 32
  dataOffset : BitVec 64
  data : List (BitVec 8)

namespace Section

/-- `while (size < new_size) size = size * 2` -/
def grow (newSize size : ℕ) : ℕ :=
  if 0 < size ∧ size < newSize then grow newSize (size * 2) else size
termination_by newSize - size

/-- `section_realloc` -/
def realloc (sec : Section) (newSize : ℕ) : Section :=
  let size := grow newSize (if sec.data.length = 0 then 1 else sec.data.length)
  { sec with data := sec.data ++ List.replicate (size - sec.data.length) 0#8 }

/-- `section_add`, with the offset that it returns. -/
def add (sec : Section) (size : BitVec 64) (align : BitVec 32) : Section × BitVec 64 :=
  let offset := (sec.dataOffset + align.signExtend 64 - 1#64) &&& (-align).signExtend 64
  let offset1 := offset + size
  let sec := if !sec.nobits && offset1.toNat > sec.data.length then sec.realloc offset1.toNat else sec
  let sec := { sec with dataOffset := offset1 }
  let sec := if align.toInt > sec.shAddralign.toInt then { sec with shAddralign := align } else sec
  (sec, offset)

/-- `section_ptr_add` -/
def ptrAdd (sec : Section) (size : BitVec 64) : Section × BitVec 64 := sec.add size 1#32

/-- `memset(sec->data + offset, v, size)` -/
def memset (sec : Section) (offset : ℕ) (v : BitVec 8) (size : ℕ) : Section :=
  { sec with
    data := sec.data.take offset ++ List.replicate size v ++ sec.data.drop (offset + size) }

/-- What the program finds at an offset: a `SHT_NOBITS` section has zeros. -/
def byte (sec : Section) (i : ℕ) : BitVec 8 := if sec.nobits then 0#8 else sec.data.getD i 0#8

end Section

/-! ## Running a directive -/

inductive Failure
  | error (msg : String)
  /-- The C program has no defined behaviour: an `int` overflows, or `memset` gets a size that no
  object has. -/
  | undefined
  deriving DecidableEq, Repr

/-- The current section and `ind`. -/
structure State where
  ind : BitVec 32
  sec : Section

/-- `a + b` of type `int` -/
def addInt (a b : BitVec 32) : Except Failure (BitVec 32) :=
  if a.saddOverflow b then .error .undefined else .ok (a + b)

/-- `a - b` of type `int` -/
def subInt (a b : BitVec 32) : Except Failure (BitVec 32) :=
  if a.ssubOverflow b then .error .undefined else .ok (a - b)

/-- `asm_int_expr`, behind `asm_expr` -/
def asmIntExpr (e : ExprValue) : Except Failure (BitVec 32) :=
  if e.sym.isSome then .error (.error "constant expected") else .ok (e.v.setWidth 32)

/-- An operand that may be left out. -/
def asmIntExprOr (default : BitVec 32) : Option ExprValue → Except Failure (BitVec 32)
  | none => .ok default
  | some e => asmIntExpr e

/-- The code behind `zero_pad`. -/
def zeroPad (s : State) (size v : BitVec 32) : Except Failure State := do
  let sec ←
    if s.sec.nobits then .ok s.sec
    else if size.toInt < 0 then .error .undefined
    else
      let (sec, offset) :=
        { s.sec with dataOffset := s.ind.signExtend 64 : Section }.ptrAdd (size.signExtend 64)
      .ok (sec.memset offset.toNat (v.setWidth 8) size.toNat)
  let ind ← addInt s.ind size
  .ok ⟨ind, sec⟩

/-- `g` -/
def g (s : State) (c : BitVec 8) : Except Failure State := do
  let ind1 ← addInt s.ind 1#32
  let sec :=
    if (ind1.signExtend 64).toNat > s.sec.data.length then s.sec.realloc (ind1.signExtend 64).toNat
    else s.sec
  .ok ⟨ind1, { sec with data := sec.data.set s.ind.toNat c }⟩

/-- The directives with the values of their operands. -/
inductive Directive
  | align (n : ExprValue) (v : Option ExprValue)
  | balign (n : ExprValue) (v : Option ExprValue)
  | p2align (n : ExprValue) (v : Option ExprValue)
  | skip (n : ExprValue) (v : Option ExprValue)
  | space (n : ExprValue) (v : Option ExprValue)
  | org (e : ExprValue)
  | fill (repeat' : ExprValue) (size val : Option ExprValue)

/-- `.align` and `.balign`, and `.p2align` with `n` replaced by `1 << n` -/
def runAlign (s : State) (n : BitVec 32) (v : Option ExprValue) : Except Failure State := do
  if n.toInt < 0 ∨ n &&& (n - 1#32) ≠ 0#32 then
    .error (.error "alignment must be a positive power of two")
  else
    let offset ← addInt s.ind n
    let offset ← subInt offset 1#32
    let offset := offset &&& -n
    let size ← subInt offset s.ind
    let sec :=
      if s.sec.shAddralign.toInt < n.toInt then { s.sec with shAddralign := n } else s.sec
    let v ← asmIntExprOr 0#32 v
    zeroPad ⟨s.ind, sec⟩ size v

/-- `.p2align` -/
def runP2align (s : State) (n : BitVec 32) (v : Option ExprValue) : Except Failure State :=
  if n.toInt < 0 ∨ n.toInt > 30 then
    .error (.error "invalid p2align, must be between 0 and 30")
  else runAlign s (1#32 <<< n.toNat) v

/-- `.skip` and `.space` -/
def runSkip (s : State) (n : BitVec 32) (v : Option ExprValue) : Except Failure State := do
  let size := if n.toInt < 0 then 0#32 else n
  let v ← asmIntExprOr 0#32 v
  zeroPad s size v

/-- `.org` -/
def runOrg (s1 : AsmState) (s : State) (e : ExprValue) : Except Failure State := do
  let n ←
    match e.sym.bind s1.elfsym with
    | none => .ok e.v
    | some esym =>
      if esym.stShndx ≠ s.sec.shNum then .error (.error "constant or same-section symbol expected")
      else .ok (e.v + BitVec.ofInt 64 esym.stValue)
  if n < s.ind.signExtend 64 then .error (.error "attempt to .org backwards")
  else zeroPad s ((n - s.ind.signExtend 64).setWidth 32) 0#32

/-- `repeat_buf` -/
def repeatBuf (val : BitVec 32) : List (BitVec 8) :=
  [val.setWidth 8, (val.sshiftRight 8).setWidth 8, (val.sshiftRight 16).setWidth 8,
    (val.sshiftRight 24).setWidth 8, 0#8, 0#8, 0#8, 0#8]

/-- The loops of `.fill`. -/
def fillLoop (buf : List (BitVec 8)) : ℕ → State → Except Failure State
  | 0, s => .ok s
  | i + 1, s => do
    let s ← buf.foldlM g s
    fillLoop buf i s

/-- `.fill` -/
def runFill (s : State) (repeat' : BitVec 32) (size val : Option ExprValue) :
    Except Failure State := do
  if repeat'.toInt < 0 then .error (.error "repeat < 0; .fill ignored")
  else
    let size ← asmIntExprOr 1#32 size
    if size.toInt < 0 then .error (.error "size < 0; .fill ignored")
    else
      let size := if size.toInt > 8 then 8#32 else size
      let val ← asmIntExprOr 0#32 val
      fillLoop ((repeatBuf val).take size.toNat) repeat'.toNat s

/-- The cases of `asm_parse_directive`. -/
def Directive.run (s1 : AsmState) (s : State) : Directive → Except Failure State
  | align n v | balign n v => do runAlign s (← asmIntExpr n) v
  | p2align n v => do runP2align s (← asmIntExpr n) v
  | skip n v | space n v => do runSkip s (← asmIntExpr n) v
  | org e => runOrg s1 s e
  | fill repeat' size val => do runFill s (← asmIntExpr repeat') size val

end TccRiscv64.Asm.Layout
