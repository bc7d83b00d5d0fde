import TccRiscv64.Asm.LocalLabels

set_option autoImplicit false

/-! # Assembler expressions

The recursive descent of `asm_expr` over the tokens of a line. Its result is a number `v`, at most
one symbol whose address is added to it, and a flag `pcrel` that says that the address of the
current section is subtracted. Labels that a line is the first to mention are put in the symbol
table on the way. -/

namespace TccRiscv64.Asm.Expr

open Labels

/-! ## Tokens and results -/

/-- Operators of two operands. -/
inductive BinOp
  | mul | div | mod | shl | sar
  | and | or | xor
  | add | sub
  | eq | ne | lt | ge | le | gt
  deriving DecidableEq, Repr

/-- Tokens. The text of a `TOK_PPNUM` is not empty. -/
inductive Tok
  | ppnum (c : Char) (text : List Char)
  | cchar (i : BitVec 64)
  | plus | minus | tilde | lparen | rparen | dot
  | op (o : BinOp)
  | ident (name : String)
  | other
  deriving DecidableEq, Repr

/-- `ExprValue` -/
structure ExprValue where
  v : BitVec 64
  sym : Option Nat
  pcrel : Bool
  deriving DecidableEq, Repr

inductive Error
  /-- `invalid number syntax` -/
  | invalidNumber
  /-- `invalid operation with label` -/
  | invalidOperation
  /-- `division by zero` -/
  | divisionByZero
  /-- `bad expression syntax [%s]` -/
  | badSyntax
  /-- `')' expected` -/
  | expectedParen
  | label (e : Labels.Error)
  /-- The recursion was cut off; never the result of `asmExpr`. -/
  | outOfFuel
  deriving DecidableEq, Repr

def shnLoreserve : Nat := 0xff00
def shnAbs : Nat := 0xfff1
def shnCommon : Nat := 0xfff2

/-- A section that code goes to, with its name. -/
structure Section extends TextSection where
  name : String
  lt_loreserve : shNum < shnLoreserve

/-- Where the line is assembled. C leaves open what a shift by 64 or more gives: `wideShift` is
what the machine makes of it. -/
structure Place where
  curTextSection : Section
  ind : BitVec 32
  wideShift : BinOp → BitVec 64 → BitVec 64 → BitVec 64

/-! ## Numbers -/

/-- Value of a digit; other characters are no digit of any base. -/
def digit (c : Char) : Nat :=
  if '0' ≤ c ∧ c ≤ '9' then c.toNat - '0'.toNat
  else if 'a' ≤ c ∧ c ≤ 'z' then c.toNat - 'a'.toNat + 10
  else if 'A' ≤ c ∧ c ≤ 'Z' then c.toNat - 'A'.toNat + 10
  else 36

/-- The number that digits spell. -/
def ofDigits (base : Nat) (text : List Char) : Nat :=
  text.foldl (fun n c => n * base + digit c) 0

/-- The base of a number and where its digits start, for `strtoull` with base 0. -/
def numberBase : List Char → Nat × List Char
  | '0' :: x :: c :: text =>
    if (x = 'x' ∨ x = 'X') ∧ digit c < 16 then (16, c :: text) else (8, '0' :: x :: c :: text)
  | '0' :: text => (8, '0' :: text)
  | text => (10, text)

/-- `strtoull` with base 0: the number, and the text after it. -/
def strtoull (text : List Char) : Nat × List Char :=
  let (base, text) := numberBase text
  (min (ofDigits base (text.takeWhile (digit · < base))) (2 ^ 64 - 1),
    text.dropWhile (digit · < base))

/-! ## Labels -/

/-- `asm_section_sym` -/
def asmSectionSym (s1 : AsmState) (sec : Section) : Except Labels.Error (AsmState × Nat) :=
  let label := "L." ++ sec.name
  match s1.asmLabelFind label with
  | some sym => .ok (s1, sym)
  | none => asmNewLabel1 s1 label 1 sec.shNum 0

/-- `get_asm_sym` -/
def getAsmSym (s1 : AsmState) (name : String) : AsmState × Nat :=
  match s1.asmLabelFind name with
  | some sym => (s1, sym)
  | none => s1.asmLabelPush name

/-- An error about a label ends the expression. -/
def liftLabel {α : Type} : Except Labels.Error α → Except Error α
  | .ok a => .ok a
  | .error e => .error (.label e)

/-! ## Operators -/

/-- A parser of a value: what it read, the symbol table after it and the tokens left. -/
abbrev Parser (α : Type) := AsmState → List Tok → Except Error (α × AsmState × List Tok)

section Levels

variable {α : Type} (operand : Parser α) (opOf : Tok → Option BinOp)
  (combine : AsmState → BinOp → α → α → Except Error α)

/-- The loop of a level: while there is one of its operators, read an operand and combine. -/
def binaryLoop : Nat → α → Parser α
  | 0, _, _, _ => .error .outOfFuel
  | fuel + 1, pe, s1, toks =>
    match toks.head?.bind opOf with
    | none => .ok (pe, s1, toks)
    | some op => do
      let (e2, s1, toks) ← operand s1 toks.tail
      let pe ← combine s1 op pe e2
      binaryLoop fuel pe s1 toks

/-- A level of left-associative operators. -/
def binaryLevel (fuel : Nat) : Parser α := fun s1 toks => do
  let (pe, s1, toks) ← operand s1 toks
  binaryLoop operand opOf combine fuel pe s1 toks

end Levels

def prodOp : Tok → Option BinOp
  | .op .mul => some .mul
  | .op .div => some .div
  | .op .mod => some .mod
  | .op .shl => some .shl
  | .op .sar => some .sar
  | _ => none

def logicOp : Tok → Option BinOp
  | .op .and => some .and
  | .op .or => some .or
  | .op .xor => some .xor
  | _ => none

def sumOp : Tok → Option BinOp
  | .plus => some .add
  | .minus => some .sub
  | _ => none

def cmpOp : Tok → Option BinOp
  | .op .eq => some .eq
  | .op .ne => some .ne
  | .op .lt => some .lt
  | .op .ge => some .ge
  | .op .le => some .le
  | .op .gt => some .gt
  | _ => none

/-- `pe->v op= e2.v` for the operators that no label may take part in. -/
def arith (cx : Place) (op : BinOp) (a b : BitVec 64) : Except Error (BitVec 64) :=
  match op with
  | .mul => .ok (a * b)
  | .div => if b = 0 then .error .divisionByZero else .ok (a / b)
  | .mod => if b = 0 then .error .divisionByZero else .ok (a % b)
  | .shl => .ok (if b.toNat < 64 then a <<< b.toNat else cx.wideShift .shl a b)
  | .sar => .ok (if b.toNat < 64 then a >>> b.toNat else cx.wideShift .sar a b)
  | .and => .ok (a &&& b)
  | .or => .ok (a ||| b)
  | .xor => .ok (a ^^^ b)
  -- a C truth value, negated
  | .eq => .ok (-(BitVec.ofBool (a == b)).setWidth 64)
  | .ne => .ok (-(BitVec.ofBool (a != b)).setWidth 64)
  | .lt => .ok (-(BitVec.ofBool (a.slt b)).setWidth 64)
  | .ge => .ok (-(BitVec.ofBool (b.sle a)).setWidth 64)
  | .le => .ok (-(BitVec.ofBool (a.sle b)).setWidth 64)
  | .gt => .ok (-(BitVec.ofBool (b.slt a)).setWidth 64)
  | .add => .ok (a + b)
  | .sub => .ok (a - b)

/-- The body of the loops of `asm_expr_prod`, `asm_expr_logic` and `asm_expr_cmp`. -/
def combinePlain (cx : Place) (_ : AsmState) (op : BinOp) (pe e2 : ExprValue) :
    Except Error ExprValue :=
  if pe.sym.isSome ∨ e2.sym.isSome then .error .invalidOperation
  else do
    let v ← arith cx op pe.v e2.v
    .ok { pe with v := v }

/-- The body of the loop of `asm_expr_sum`. -/
def combineSum (cx : Place) (s1 : AsmState) (op : BinOp) (pe e2 : ExprValue) :
    Except Error ExprValue :=
  if op = .add then
    if pe.sym.isSome ∧ e2.sym.isSome then .error .invalidOperation
    else .ok { pe with v := pe.v + e2.v, sym := if pe.sym.isNone then e2.sym else pe.sym }
  else
    match e2.sym with
    | none => .ok { pe with v := pe.v - e2.v }
    | some sym2 =>
      if pe.sym = some sym2 then .ok { pe with v := pe.v - e2.v, sym := none }
      else
        match s1.elfsym sym2 with
        | none => .error .invalidOperation
        | some esym2 =>
          let sameSection := (pe.sym.bind s1.elfsym).filter fun esym1 =>
            esym1.stShndx = esym2.stShndx ∧ esym1.stShndx ≠ shnUndef
          match sameSection with
          | some esym1 => .ok { pe with
              v := pe.v - e2.v + (BitVec.ofInt 64 esym1.stValue - BitVec.ofInt 64 esym2.stValue)
              sym := none }
          | none =>
            if esym2.stShndx = cx.curTextSection.shNum then .ok { pe with
              v := pe.v - e2.v + (0 - BitVec.ofInt 64 esym2.stValue)
              pcrel := true }
            else .error .invalidOperation

/-! ## The functions -/

/-- The case `TOK_PPNUM` of `asm_expr_unary`: `n` is the number at the start of the text, `p`
what follows it. -/
def asmExprNumber (s1 : AsmState) (n : Nat) (p : List Char) : Except Error (ExprValue × AsmState) :=
  if p.head? = some 'b' then do
    let (s1, sym) ← liftLabel (assembleLine s1 (.back n false))
    .ok (⟨0, some sym, false⟩, s1)
  else if p.head? = some 'f' then do
    let (s1, sym) ← liftLabel (assembleLine s1 (.forward n false))
    .ok (⟨0, some sym, false⟩, s1)
  else if p = [] then .ok (⟨BitVec.ofNat 64 n, none, false⟩, s1)
  else .error .invalidNumber

/-- The value of a label: if it is absolute, no symbol has to be put. -/
def labelValue (s1 : AsmState) (sym : Nat) : ExprValue :=
  match s1.elfsym sym with
  | some esym =>
    if esym.stShndx = shnAbs then ⟨BitVec.ofInt 64 esym.stValue, none, false⟩
    else ⟨0, some sym, false⟩
  | none => ⟨0, some sym, false⟩

/-- The cases of `asm_expr_unary` that read one token: a number, a local label, a character, `.`
or a label. -/
def asmExprAtom (cx : Place) (s1 : AsmState) : Tok → Except Error (ExprValue × AsmState)
  | .ppnum c text => asmExprNumber s1 (strtoull (c :: text)).1 (strtoull (c :: text)).2
  | .cchar i => .ok (⟨i, none, false⟩, s1)
  | .dot => do
    let (s1, sym) ← liftLabel (asmSectionSym s1 cx.curTextSection)
    .ok (⟨cx.ind.signExtend 64, some sym, false⟩, s1)
  | .ident name =>
    .ok (labelValue (getAsmSym s1 name).1 (getAsmSym s1 name).2, (getAsmSym s1 name).1)
  | _ => .error .badSyntax

/-- `asm_expr_unary`, over the function for what stands in parentheses. -/
def asmExprUnary (cx : Place) (expr : Parser ExprValue) : Parser ExprValue := fun s1 toks =>
  match toks with
  | .plus :: toks => asmExprUnary cx expr s1 toks
  | .minus :: toks => do
    let (pe, s1, toks) ← asmExprUnary cx expr s1 toks
    if pe.sym.isSome then .error .invalidOperation else .ok ({ pe with v := -pe.v }, s1, toks)
  | .tilde :: toks => do
    let (pe, s1, toks) ← asmExprUnary cx expr s1 toks
    if pe.sym.isSome then .error .invalidOperation else .ok ({ pe with v := ~~~pe.v }, s1, toks)
  | .lparen :: toks => do
    let (pe, s1, toks) ← expr s1 toks
    if toks.head? = some .rparen then .ok (pe, s1, toks.tail) else .error .expectedParen
  | tok :: toks => do
    let (pe, s1) ← asmExprAtom cx s1 tok
    .ok (pe, s1, toks)
  | [] => .error .badSyntax
termination_by structural _ toks => toks

def asmExprProd (cx : Place) (expr : Parser ExprValue) (fuel : Nat) : Parser ExprValue :=
  binaryLevel (asmExprUnary cx expr) prodOp (combinePlain cx) fuel

def asmExprLogic (cx : Place) (expr : Parser ExprValue) (fuel : Nat) : Parser ExprValue :=
  binaryLevel (asmExprProd cx expr fuel) logicOp (combinePlain cx) fuel

def asmExprSum (cx : Place) (expr : Parser ExprValue) (fuel : Nat) : Parser ExprValue :=
  binaryLevel (asmExprLogic cx expr fuel) sumOp (combineSum cx) fuel

def asmExprCmp (cx : Place) (expr : Parser ExprValue) (fuel : Nat) : Parser ExprValue :=
  binaryLevel (asmExprSum cx expr fuel) cmpOp (combinePlain cx) fuel

/-- `asm_expr` with a bound on the nesting and on the turns of the loops. -/
def asmExprFuel (cx : Place) : Nat → Parser ExprValue
  | 0 => fun _ _ => .error .outOfFuel
  | fuel + 1 => asmExprCmp cx (asmExprFuel cx fuel) (fuel + 1)

/-- `asm_expr` -/
def asmExpr (cx : Place) : Parser ExprValue := fun s1 toks =>
  asmExprFuel cx (toks.length + 1) s1 toks

end TccRiscv64.Asm.Expr
