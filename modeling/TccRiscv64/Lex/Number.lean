import TccRiscv64.Lex.Escape

set_option autoImplicit false

/-! # Numbers

`parse_number` for the text of a preprocessing number. `ch` is always the first byte of the rest of
the text, or zero behind its end. The digits are collected in `token_buf`, which is given here by what
is in it. -/

namespace TccRiscv64.Lex

/-- `STRING_MAX_SIZE`. -/
def stringMaxSize : Nat := 1024

/-- `toup`. -/
def toup (c : Byte) : Byte := if ch 'a' ≤ c ∧ c ≤ ch 'z' then c - 0x20#8 else c

/-- The value of a digit of base 16, or of a smaller one. -/
def digitValue (c : Byte) : Option Nat :=
  if ch 'a' ≤ c ∧ c ≤ ch 'f' then some (c.toNat - 0x61 + 10)
  else if ch 'A' ≤ c ∧ c ≤ ch 'F' then some (c.toNat - 0x41 + 10)
  else if ch '0' ≤ c ∧ c ≤ ch '9' then some (c.toNat - 0x30)
  else none

/-- A digit of base `b`. -/
def isDigitOf (b : Nat) (c : Byte) : Bool := (digitValue c).any (· < b)

/-- `isnum`. -/
def isNum (c : Byte) : Bool := ch '0' ≤ c && c ≤ ch '9'

/-- What comes before the last step of a computation that succeeds has succeeded. -/
theorem bind_eq_ok {α β : Type} {x : Except String α} {f : α → Except String β} {b : β}
    (h : x.bind f = .ok b) : ∃ a, x = .ok a ∧ f a = .ok b := by
  cases x with
  | error e => cases h
  | ok a => exact ⟨a, rfl, h⟩

/-! ## Collecting the text -/

/-- `*q++ = c`, if there is room for it. -/
def store (buf : List Byte) (c : Byte) : Except String (List Byte) :=
  if buf.length ≥ stringMaxSize then .error "number too long" else .ok (buf ++ [c])

/-- Store bytes as long as they are digits. -/
def storeWhile (isDigit : Byte → Bool) (buf : List Byte) :
    List Byte → Except String (List Byte × List Byte)
  | [] => .ok (buf, [])
  | c :: rest =>
    if isDigit c then do storeWhile isDigit (← store buf c) rest else .ok (buf, c :: rest)

/-! ## Floating constants -/

/-- `TOK_CFLOAT`, `TOK_CDOUBLE` and `TOK_CLDOUBLE`. -/
inductive FloatKind
  | float | double | ldouble
  deriving DecidableEq, Repr

/-- The suffix of a floating constant, and what follows it. -/
def floatSuffix : List Byte → FloatKind × List Byte
  | [] => (.double, [])
  | c :: rest =>
    if toup c = ch 'F' then (.float, rest)
    else if toup c = ch 'L' then (.ldouble, rest)
    else (.double, c :: rest)

/-- The big number `bn`, lower word first. -/
structure Bn where
  lo : BitVec 32
  hi : BitVec 32
  deriving DecidableEq, Repr

/-- `bn_lshift`. -/
def Bn.lshift (bn : Bn) (shift : Nat) (orVal : BitVec 32) : Bn where
  lo := bn.lo <<< shift ||| orVal
  hi := bn.hi <<< shift ||| bn.lo >>> (32 - shift)

/-- The result of an operation on `int`s, unless it overflows. -/
def checkedInt (x : Int) : Option Int := if -2 ^ 31 ≤ x ∧ x < 2 ^ 31 then some x else none

/-- The value of a digit that is known to be one, as it is put into `bn`. -/
def digitBits (c : Byte) : BitVec 32 := BitVec.ofNat 32 ((digitValue c).getD 0)

/-- The loop over the digits behind the point: `bn`, `frac_bits` and the rest of the text. -/
def fracDigits (b shift : Nat) (bn : Bn) (fracBits : Option Int) :
    List Byte → Except String (Bn × Option Int × List Byte)
  | [] => .ok (bn, fracBits, [])
  | c :: rest =>
    match digitValue c with
    | none => .ok (bn, fracBits, c :: rest)
    | some t =>
      if t ≥ b then .error "invalid digit"
      else fracDigits b shift (bn.lshift shift (digitBits c))
        (fracBits.bind fun n => checkedInt (n + shift)) rest

/-- The loop over the digits of a binary exponent. -/
def expDigits (expVal : Option Int) : List Byte → Option Int × List Byte
  | [] => (expVal, [])
  | c :: rest =>
    if isNum c then
      expDigits (expVal.bind fun n => do
        checkedInt ((← checkedInt ((← checkedInt (n * 10)) + c.toNat)) - 0x30)) rest
    else (expVal, c :: rest)

/-- The sign in front of an exponent. -/
def expSign : List Byte → Int × List Byte
  | [] => (1, [])
  | c :: rest => if c = ch '+' then (1, rest) else if c = ch '-' then (-1, rest) else (1, c :: rest)

/-- A hexadecimal or binary floating constant: its suffix, `bn`, and the exponent for `ldexp`, which
is `none` if it is computed with an overflow. -/
structure HexFloat where
  kind : FloatKind
  bn : Bn
  exp : Option Int
  deriving DecidableEq, Repr

/-- The exponent of a hexadecimal or binary floating constant, from its letter on. -/
def hexExponent (bn : Bn) (fracBits : Option Int) : List Byte → Except String (HexFloat × List Byte)
  | [] => .error "exponent expected"
  | c :: rest =>
    if c ≠ ch 'p' ∧ c ≠ ch 'P' then .error "exponent expected"
    else
      let (s, rest) := expSign rest
      if (rest.head?.map isNum).getD false = false then .error "exponent digits expected"
      else
        let (expVal, rest) := expDigits (some 0) rest
        let exp : Option Int := do checkedInt ((← checkedInt ((← expVal) * s)) - (← fracBits))
        let (kind, rest) := floatSuffix rest
        .ok (⟨kind, bn, exp⟩, rest)

/-- A hexadecimal or binary floating constant, behind the digits `buf`. -/
def hexFloat (b : Nat) (buf rest : List Byte) : Except String (HexFloat × List Byte) := do
  let shift := if b = 16 then 4 else 1
  let bn := buf.foldl (fun bn c => bn.lshift shift (digitBits c)) (Bn.mk 0#32 0#32)
  if rest.head? = some (ch '.') then
    let (bn, fracBits, rest) ← fracDigits b shift bn (some 0) rest.tail
    hexExponent bn fracBits rest
  else hexExponent bn (some 0) rest

/-- Store the sign of an exponent, if there is one. -/
def storeSign (buf : List Byte) : List Byte → Except String (List Byte × List Byte)
  | [] => .ok (buf, [])
  | c :: rest =>
    if c = ch '-' ∨ c = ch '+' then do .ok (← store buf c, rest) else .ok (buf, c :: rest)

/-- The decimal exponent of a floating constant, if there is one. -/
def decExponent (buf : List Byte) : List Byte → Except String (List Byte × List Byte)
  | [] => .ok (buf, [])
  | c :: rest =>
    if c = ch 'e' ∨ c = ch 'E' then do
      let buf ← store buf c
      let (buf, rest) ← storeSign buf rest
      if (rest.head?.map isNum).getD false = false then .error "exponent digits expected"
      else storeWhile isNum buf rest
    else .ok (buf, c :: rest)

/-- A decimal floating constant from `float_frac_parse` on. It is converted by `strtof`, `strtod` or
`strtold` from the text in `token_buf`. -/
def decFloat (buf rest : List Byte) : Except String ((FloatKind × List Byte) × List Byte) := do
  let (buf, rest) ← storeWhile isNum buf rest
  let (buf, rest) ← decExponent buf rest
  let (kind, rest) := floatSuffix rest
  .ok ((kind, buf), rest)

/-- A decimal floating constant with the digits `buf`, from the byte `c` behind them on. -/
def decFloatAt (buf : List Byte) (c : Byte) (rest : List Byte) :
    Except String ((FloatKind × List Byte) × List Byte) :=
  if c = ch '.' then do decFloat (← store buf c) rest
  else do
    let (buf, rest) ← decExponent buf (c :: rest)
    let (kind, rest) := floatSuffix rest
    .ok ((kind, buf), rest)

/-! ## Integer constants -/

/-- The integer types of constants. -/
inductive Rank
  | int | long | llong
  deriving DecidableEq, Repr

structure IntType where
  rank : Rank
  unsigned : Bool
  deriving DecidableEq, Repr

/-- The loop over the digits in `token_buf`: the number modulo 2^64, and whether it overflowed. -/
def intDigits (b : Nat) (n : BitVec 64) (ov : Bool) : List Byte → Except String (BitVec 64 × Bool)
  | [] => .ok (n, ov)
  | c :: rest =>
    let t := (digitValue c).getD 0
    if t ≥ b then .error "invalid digit"
    else
      let n1 := n
      let n := n * BitVec.ofNat 64 b + BitVec.ofNat 64 t
      intDigits b n (ov || (0x1000000000000000#64 ≤ n1 && n / BitVec.ofNat 64 b != n1)) rest

/-- The loop over the suffix, with the text `p1` for the message: `lcount`, `ucount` and the rest of
the text. -/
def intSuffix (p1 : List Byte) (lcount ucount : Nat) :
    List Byte → Except String (Nat × Nat × List Byte)
  | [] => .ok (lcount, ucount, [])
  | c :: rest =>
    -- `p` points behind `ch`, so that `*(p - 1)` is `ch` itself
    let previous := c
    if toup c = ch 'L' then
      if lcount ≥ 2 then .error "three 'l's in integer constant"
      else if lcount ≠ 0 ∧ previous ≠ c then
        .error ("incorrect integer suffix: " ++ String.ofList (p1.map fun c => Char.ofNat c.toNat))
      else intSuffix p1 (lcount + 1) ucount rest
    else if toup c = ch 'U' then
      if ucount ≥ 1 then .error "two 'u's in integer constant"
      else intSuffix p1 lcount (ucount + 1) rest
    else .ok (lcount, ucount, c :: rest)

/-- The type of a constant: `lcount`, `ucount` and `ov` after the choice, where `long` has 8 bytes. -/
def chooseType (b : Nat) (n : BitVec 64) (lcount ucount : Nat) (ov : Bool) : Nat × Nat × Bool :=
  if ucount = 0 ∧ b = 10 then
    let lcount := if lcount = 0 ∧ 0x80000000#64 ≤ n then 1 else lcount
    if 0x8000000000000000#64 ≤ n then (lcount, 1, true) else (lcount, ucount, ov)
  else
    let (lcount, ucount) :=
      if lcount = 0 then
        if 0x100000000#64 ≤ n then (1, ucount)
        else if 0x80000000#64 ≤ n then (lcount, 1)
        else (lcount, ucount)
      else (lcount, ucount)
    (lcount, if 0x8000000000000000#64 ≤ n then 1 else ucount, ov)

/-- The token of a constant. -/
def intType (lcount ucount : Nat) : IntType where
  rank := if lcount = 0 then .int else if lcount = 2 then .llong else .long
  unsigned := ucount ≠ 0

/-- An integer constant. -/
structure IntNumber where
  type : IntType
  value : BitVec 64
  overflow : Bool
  deriving DecidableEq, Repr

/-- An integer constant with the digits `buf`, and what follows it. -/
def intNumber (b : Nat) (buf rest : List Byte) : Except String (IntNumber × List Byte) := do
  let (b, digits) := if b = 10 ∧ buf.head? = some (ch '0') then (8, buf.tail) else (b, buf)
  let (n, ov) ← intDigits b 0#64 false digits
  let (lcount, ucount, rest) ← intSuffix rest.tail 0 0 rest
  let (lcount, ucount, ov) := chooseType b n lcount ucount ov
  .ok (⟨intType lcount ucount, n, ov⟩, rest)

/-! ## All of it -/

/-- What `parse_number` makes of a text. -/
inductive Number
  | int (n : IntNumber)
  | hexFloat (x : HexFloat)
  | decFloat (kind : FloatKind) (text : List Byte)
  deriving DecidableEq, Repr

/-- The base of a number, what is in `token_buf` at the start, and the text to go on with. -/
def numberBase (tccExt : Bool) (t : Byte) (rest : List Byte) : Nat × List Byte × List Byte :=
  match rest with
  | [] => (10, [t], [])
  | c :: rest' =>
    if t = ch '0' ∧ (c = ch 'x' ∨ c = ch 'X') then (16, [], rest')
    else if t = ch '0' ∧ tccExt ∧ (c = ch 'b' ∨ c = ch 'B') then (2, [], rest')
    else (10, [t], rest)

/-- A number behind its digits `buf`. -/
def numberRest (b : Nat) (buf rest : List Byte) : Except String (Number × List Byte) :=
  match rest with
  | [] => do
    let (n, rest) ← intNumber b buf rest
    .ok (.int n, rest)
  | c :: rest' =>
    if c = ch '.' ∨ (c = ch 'e' ∨ c = ch 'E') ∧ b = 10 ∨
        (c = ch 'p' ∨ c = ch 'P') ∧ (b = 16 ∨ b = 2) then
      if b ≠ 10 then do
        let (x, rest) ← hexFloat b buf rest
        .ok (.hexFloat x, rest)
      else do
        let ((kind, text), rest) ← decFloatAt buf c rest'
        .ok (.decFloat kind text, rest)
    else do
      let (n, rest) ← intNumber b buf rest
      .ok (.int n, rest)

/-- `parse_number`, for a text that starts with `t`. -/
def parseNumber (tccExt : Bool) (t : Byte) (rest : List Byte) : Except String Number := do
  let (x, rest) ←
    if t = ch '.' then do
      let ((kind, text), rest) ← decFloat [t] rest
      pure (Number.decFloat kind text, rest)
    else do
      let (b, buf, rest) := numberBase tccExt t rest
      let (buf, rest) ← storeWhile (isDigitOf b) buf rest
      numberRest b buf rest
  if rest ≠ [] then .error "invalid number" else .ok x

end TccRiscv64.Lex
