import Mathlib

set_option autoImplicit false

/-! # Token strings

Tokens with values stored as runs of `int` cells in a growing buffer (`tok_str_add2`) and read back
from it (`tok_get`). The buffer is a list of bytes; a write or a read outside it has no result. -/

namespace TccRiscv64.Pp

abbrev Byte := BitVec 8

/-- One `int`. -/
abbrev Cell := BitVec 32

/-- The sizes that the target and the host fix when the compiler is built. -/
structure Config where
  /-- `LONG_SIZE`. -/
  longSize : Nat
  long_eq : longSize = 4 ∨ longSize = 8
  /-- The cells of a stored long double: `LDOUBLE_SIZE / 4`, or 2 where long double is double. -/
  ldoubleCells : Nat
  ldouble_eq : ldoubleCells = 2 ∨ ldoubleCells = 3 ∨ ldoubleCells = 4
  /-- The cells that hold a long double of the host. -/
  hostLdoubleCells : Nat

/-- A compiler for riscv64 that runs on riscv64. -/
def riscv64 : Config where
  longSize := 8
  long_eq := Or.inr rfl
  ldoubleCells := 4
  ldouble_eq := Or.inr (Or.inr rfl)
  hostLdoubleCells := 4

/-! ## Tokens -/

/-- The tokens with a value, and all others. -/
inductive TokKind
  | cchar | lchar | cint | cuint | cllong | cullong | clong | culong | str | lstr | cfloat | cdouble
  | cldouble | ppnum | ppstr | linenum | other
  deriving DecidableEq

def kindOf : Cell → TokKind
  | 0xc0#32 => .cchar
  | 0xc1#32 => .lchar
  | 0xc2#32 => .cint
  | 0xc3#32 => .cuint
  | 0xc4#32 => .cllong
  | 0xc5#32 => .cullong
  | 0xc6#32 => .clong
  | 0xc7#32 => .culong
  | 0xc8#32 => .str
  | 0xc9#32 => .lstr
  | 0xca#32 => .cfloat
  | 0xcb#32 => .cdouble
  | 0xcc#32 => .cldouble
  | 0xcd#32 => .ppnum
  | 0xce#32 => .ppstr
  | 0xcf#32 => .linenum
  | _ => .other

/-- The union `CValue`: its `int`s, and the `str.size` bytes at `str.data`. -/
structure CValue where
  tab : Nat → Cell
  str : List Byte

def CValue.i (cv : CValue) : BitVec 64 := cv.tab 1 ++ cv.tab 0

def CValue.setTab (cv : CValue) (k : Nat) (w : Cell) : CValue :=
  { cv with tab := fun j => if j = k then w else cv.tab j }

def CValue.setI (cv : CValue) (v : BitVec 64) : CValue :=
  (cv.setTab 0 (v.extractLsb' 0 32)).setTab 1 (v.extractLsb' 32 32)

/-! ## The buffer -/

def cellBytes (w : Cell) : List Byte :=
  [w.extractLsb' 0 8, w.extractLsb' 8 8, w.extractLsb' 16 8, w.extractLsb' 24 8]

/-- `mem` with `bs` at `ofs`. -/
def writeAt (mem : List Byte) (ofs : Nat) (bs : List Byte) : Option (List Byte) :=
  if ofs + bs.length ≤ mem.length then
    some (mem.take ofs ++ bs ++ mem.drop (ofs + bs.length))
  else none

/-- `TokenString`. -/
structure TokenString where
  str : List Byte
  len : Nat
  allocatedLen : Nat

def tokStrNew : TokenString where
  str := []
  len := 0
  allocatedLen := 0

/-- `tal_realloc`, whose parameter `size` is an `unsigned int`. What it adds holds any bytes. -/
def talRealloc (fresh : Nat → Nat → Byte) (old : List Byte) (size : BitVec 32) : List Byte :=
  List.ofFn fun i : Fin size.toNat => old[i.val]?.getD (fresh size.toNat i)

/-- The loop that doubles `size`, an `int`. It has no result when the product overflows, and when
it would never end. -/
def growTo (size newSize : Nat) : Option Nat :=
  if size < newSize then
    if size < size * 2 ∧ size * 2 < 2 ^ 31 then growTo (size * 2) newSize else none
  else some size
termination_by newSize - size

section Store

variable (fresh : Nat → Nat → Byte)

def tokStrRealloc (s : TokenString) (newSize : Nat) : Option TokenString :=
  (growTo (max s.allocatedLen 16) newSize).map fun size =>
    if s.allocatedLen < size then
      { s with
        str := talRealloc fresh s.str (BitVec.ofNat 32 (size * 4))
        allocatedLen := size }
    else s

/-- `if (n >= s->allocated_len) str = tok_str_realloc(s, n + 1)`. -/
def TokenString.reserve (s : TokenString) (n : Nat) : Option TokenString :=
  if s.allocatedLen ≤ n then tokStrRealloc fresh s (n + 1) else some s

/-- `str[len++] = v`. -/
def TokenString.push (s : TokenString) (v : Cell) : Option TokenString :=
  (writeAt s.str (4 * s.len) (cellBytes v)).map fun str => { s with str := str, len := s.len + 1 }

def TokenString.pushAll (s : TokenString) (vs : List Cell) : Option TokenString :=
  vs.foldlM TokenString.push s

/-- `tok_str_add`. -/
def tokStrAdd (s : TokenString) (t : Cell) : Option TokenString := do
  let s ← s.reserve fresh s.len
  s.push t

/-- `TOK_MAX_SIZE`. -/
def tokMaxSize : Nat := 4

/-- The cells of a string and its size. -/
def nbWords (size : Nat) : Nat := 1 + (size + 4 - 1) / 4

/-- The string after its size, and the new length. -/
def TokenString.addString (s : TokenString) (data : List Byte) : Option TokenString := do
  let sized ← s.push (BitVec.ofNat 32 data.length)
  let str ← writeAt sized.str (4 * (s.len + 1)) data
  some { sized with str := str, len := s.len + nbWords data.length }

/-- The `switch` of `tok_str_add2`: what follows the cell of a token. -/
def addValue (cfg : Config) (s : TokenString) (t : Cell) (cv : CValue) : Option TokenString :=
  match kindOf t with
  | .cint | .cuint | .cchar | .lchar | .cfloat | .linenum => s.push (cv.tab 0)
  | .clong | .culong =>
    if cfg.longSize = 4 then s.push (cv.tab 0) else s.pushAll [cv.tab 0, cv.tab 1]
  | .ppnum | .ppstr | .str | .lstr => do
    let s ← s.reserve fresh (s.len + nbWords cv.str.length)
    s.addString cv.str
  | .cdouble | .cllong | .cullong => s.pushAll [cv.tab 0, cv.tab 1]
  | .cldouble => s.pushAll ((List.range cfg.ldoubleCells).map cv.tab)
  | .other => some s

/-- `tok_str_add2`. -/
def tokStrAdd2 (cfg : Config) (s : TokenString) (t : Cell) (cv : CValue) : Option TokenString := do
  let s ← s.reserve fresh (s.len + tokMaxSize)
  let s ← s.push t
  addValue fresh cfg s t cv

end Store

/-! ## Reading -/

/-- `*p++`. -/
def readCell : List Byte → Option (Cell × List Byte)
  | b0 :: b1 :: b2 :: b3 :: p => some (b3 ++ b2 ++ b1 ++ b0, p)
  | _ => none

/-- The loop at `copy`. -/
def copyTab (cv : CValue) (k : Nat) : Nat → List Byte → Option (CValue × List Byte)
  | 0, p => some (cv, p)
  | n + 1, p => do
    let (w, p) ← readCell p
    copyTab (cv.setTab k w) (k + 1) n p

/-- `cv->i = *p++` for a signed or an unsigned cell. -/
def readInt (signed : Bool) (cv : CValue) (p : List Byte) : Option (CValue × List Byte) := do
  let (w, p) ← readCell p
  some (cv.setI (if signed then w.signExtend 64 else w.setWidth 64), p)

/-- A string: its size, its bytes, and the cells that hold them skipped. -/
def readString (cv : CValue) (p : List Byte) : Option (CValue × List Byte) := do
  let (size, p) ← readCell p
  let words := (size.signExtend 64 + 4#64 - 1#64).toNat / 4
  if 4 * words ≤ p.length then some ({ cv with str := p.take size.toNat }, p.drop (4 * words))
  else none

/-- The `switch` of `tok_get`. -/
def readValue (cfg : Config) (t : Cell) (cv : CValue) (p : List Byte) :
    Option (CValue × List Byte) :=
  match kindOf t with
  | .cint | .cchar | .lchar | .linenum => readInt true cv p
  | .cuint => readInt false cv p
  | .clong => if cfg.longSize = 4 then readInt true cv p else copyTab cv 0 2 p
  | .culong => if cfg.longSize = 4 then readInt false cv p else copyTab cv 0 2 p
  | .cfloat => copyTab cv 0 1 p
  | .str | .lstr | .ppnum | .ppstr => readString cv p
  | .cdouble | .cllong | .cullong => copyTab cv 0 2 p
  | .cldouble => copyTab cv 0 cfg.ldoubleCells p
  | .other => some (cv, p)

/-- `tok_get`. -/
def tokGet (cfg : Config) (cv : CValue) (p : List Byte) : Option (Cell × CValue × List Byte) := do
  let (t, p) ← readCell p
  let (cv, p) ← readValue cfg t cv p
  some (t, cv, p)

theorem readCell_length {p p' : List Byte} {w : Cell} (h : readCell p = some (w, p')) :
    p'.length + 4 = p.length := by
  unfold readCell at h
  split at h
  · cases h
    rfl
  · cases h

theorem copyTab_length {cv cv' : CValue} {k n : Nat} {p p' : List Byte}
    (h : copyTab cv k n p = some (cv', p')) : p'.length ≤ p.length := by
  induction n generalizing cv k p with
  | zero =>
    cases h
    exact le_rfl
  | succ n ih =>
    obtain ⟨⟨w, p1⟩, hcell, h⟩ := Option.bind_eq_some_iff.1 h
    have := readCell_length hcell
    have := ih h
    omega

theorem readInt_length {signed : Bool} {cv cv' : CValue} {p p' : List Byte}
    (h : readInt signed cv p = some (cv', p')) : p'.length ≤ p.length := by
  obtain ⟨⟨w, p1⟩, hcell, h⟩ := Option.bind_eq_some_iff.1 h
  cases h
  have := readCell_length hcell
  omega

theorem readString_length {cv cv' : CValue} {p p' : List Byte}
    (h : readString cv p = some (cv', p')) : p'.length ≤ p.length := by
  obtain ⟨⟨size, p1⟩, hcell, h⟩ := Option.bind_eq_some_iff.1 h
  have := readCell_length hcell
  simp only at h
  split at h
  · cases h
    rw [List.length_drop]
    omega
  · cases h

theorem readValue_length {cfg : Config} {t : Cell} {cv cv' : CValue} {p p' : List Byte}
    (h : readValue cfg t cv p = some (cv', p')) : p'.length ≤ p.length := by
  unfold readValue at h
  split at h
  all_goals first
    | exact readInt_length h
    | exact copyTab_length h
    | exact readString_length h
    | skip
  · split at h
    · exact readInt_length h
    · exact copyTab_length h
  · split at h
    · exact readInt_length h
    · exact copyTab_length h
  · cases h
    exact le_rfl

/-- Every token moves the pointer forward. -/
theorem tokGet_length {cfg : Config} {cv cv' : CValue} {t : Cell} {p p' : List Byte}
    (h : tokGet cfg cv p = some (t, cv', p')) : p'.length < p.length := by
  obtain ⟨⟨t1, p1⟩, hcell, h⟩ := Option.bind_eq_some_iff.1 h
  obtain ⟨⟨cv1, p2⟩, hvalue, h⟩ := Option.bind_eq_some_iff.1 h
  cases h
  have := readCell_length hcell
  have := readValue_length hvalue
  omega

/-- Tokens up to `term`. `junk` is what the `CValue` of each call holds before it. -/
def readTokens (cfg : Config) (junk : Nat → CValue) (term : Cell) (n : Nat) (p : List Byte) :
    Option (List (Cell × CValue) × List Byte) :=
  match h : tokGet cfg (junk n) p with
  | none => none
  | some (t, cv, p') =>
    have := tokGet_length h
    if t = term then some ([], p')
    else (readTokens cfg junk term (n + 1) p').map fun (out, p) => ((t, cv) :: out, p)
termination_by p.length

/-! ## Preprocessing tokens -/

/-- The value of an integer token is in the range of its type, and the size of a string is an
`int`. -/
def CValue.WellFormed (cfg : Config) (t : Cell) (cv : CValue) : Prop :=
  match kindOf t with
  | .cint | .cchar | .lchar | .linenum => cv.i = (cv.tab 0).signExtend 64
  | .cuint => cv.i = (cv.tab 0).setWidth 64
  | .clong => cfg.longSize = 4 → cv.i = (cv.tab 0).signExtend 64
  | .culong => cfg.longSize = 4 → cv.i = (cv.tab 0).setWidth 64
  | .str | .lstr | .ppnum | .ppstr => cv.str.length < 2 ^ 31
  | .cfloat | .cdouble | .cllong | .cullong | .cldouble | .other => True

/-- What ends a token string: 0, or `TOK_EOF`. -/
inductive Terminator
  | zero | eof

def Terminator.code : Terminator → Cell
  | .zero => 0#32
  | .eof => -1#32

/-- A token with its value, as the tokenizer makes it. -/
structure PpToken (cfg : Config) where
  t : Cell
  value : CValue
  wf : value.WellFormed cfg t
  not_end : ∀ term : Terminator, t ≠ term.code

/-- Two values of a token are the same, bit by bit. -/
def SameValue (cfg : Config) (t : Cell) (a b : CValue) : Prop :=
  match kindOf t with
  | .cint | .cchar | .lchar | .linenum | .cuint | .clong | .culong | .cdouble | .cllong
  | .cullong => a.i = b.i
  | .cfloat => a.tab 0 = b.tab 0
  | .cldouble => ∀ k, k < cfg.hostLdoubleCells → a.tab k = b.tab k
  | .str | .lstr | .ppnum | .ppstr => a.str = b.str
  | .other => True

/-- The tokens stored in a new string, and what ends it. -/
def storeAll (fresh : Nat → Nat → Byte) (cfg : Config) (ts : List (PpToken cfg))
    (term : Terminator) : Option TokenString := do
  let s ← ts.foldlM (fun s tok => tokStrAdd2 fresh cfg s tok.t tok.value) tokStrNew
  tokStrAdd fresh s term.code

end TccRiscv64.Pp
