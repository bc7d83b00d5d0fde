import TccRiscv64.Lib.U128

set_option autoImplicit false

/-! # Software `long double`

The binary128 routines of `lib/lib-arm64.c`, which riscv64 links as well: a `long double` is its
128-bit image, `int` signs are 0/1 flags and so `Bool`, and the exponents (`int32_t`, never beyond
±70000 here) are integers. -/

namespace TccRiscv64.Lib

/-- The 64-bit word with the sign in its top bit, `(uint64_t)sgn << 63`. -/
def sgnWord (sgn : Bool) : BitVec 64 := BitVec.ofNat 64 sgn.toNat <<< 63

def f3Zero (sgn : Bool) : BitVec 128 := (U128.mk 0 (sgnWord sgn)).toBits

def f3Infinity (sgn : Bool) : BitVec 128 :=
  (U128.mk 0 (sgnWord sgn ||| 0x7fff000000000000)).toBits

def f3NaN : BitVec 128 := (U128.mk (-1) 0x7fffffffffffffff).toBits

def fp3ConvertNaN (sgn : Bool) (mnt : U128) : BitVec 128 :=
  (U128.mk mnt.x0 (mnt.x1 ||| 0x7fff800000000000 ||| sgnWord sgn)).toBits

/-- The test `x_exp == 32767 && (x.x0 | x.x1 << 16)`. -/
def isNaNPattern (exp : ℤ) (x : U128) : Bool := exp == 32767 && x.x0 ||| x.x1 <<< 16 != 0#64

/-- The test `!(x.x1 >> 47 & 1)` for a cleared quiet bit. -/
def isSignalling (x : U128) : Bool := x.x1 >>> 47 &&& 1#64 == 0#64

/-- `some` of the NaN to return, preferring signalling operands, or `none`. -/
def fp3DetectNaNs (aSgn : Bool) (aExp : ℤ) (a : U128) (bSgn : Bool) (bExp : ℤ) (b : U128) :
    Option (BitVec 128) :=
  -- Detect signalling NaNs:
  if isNaNPattern aExp a && isSignalling a then some (fp3ConvertNaN aSgn a)
  else if isNaNPattern bExp b && isSignalling b then some (fp3ConvertNaN bSgn b)
  -- Detect quiet NaNs:
  else if isNaNPattern aExp a then some (fp3ConvertNaN aSgn a)
  else if isNaNPattern bExp b then some (fp3ConvertNaN bSgn b)
  else none

/-- Sign, biased exponent and significand (hidden bit set for normal numbers; exponent 0 reads
    as 1). -/
def f3Unpack (f : BitVec 128) : Bool × ℤ × U128 :=
  let x := U128.ofBits f
  let sgn := x.x1 >>> 63 != 0#64
  let exp := (x.x1 >>> 48 &&& 32767#64).toNat
  let x1 := x.x1 <<< 16 >>> 16
  if exp ≠ 0 then (sgn, exp, ⟨x.x0, x1 ||| 1#64 <<< 48⟩) else (sgn, 1, ⟨x.x0, x1⟩)

/-- One round of the loop of `f3_normalise`: shift left by `sh` if the top `sh` bits are clear. -/
def f3NormaliseStep (s : ℤ × U128) (sh : ℕ) : ℤ × U128 :=
  if s.2.x1 >>> (64 - sh) = 0#64 then (s.1 - sh, s.2.shl sh) else s

def f3Normalise (exp : ℤ) (mnt : U128) : ℤ × U128 :=
  if mnt.isZero then (exp, mnt)
  else
    let s := if mnt.x1 = 0#64 then (exp - 64, ⟨0#64, mnt.x0⟩) else (exp, mnt)
    -- for (sh = 32; sh; sh >>= 1)
    [32, 16, 8, 4, 2, 1].foldl f3NormaliseStep s

/-- `!!w` as a word. -/
def boolWord (w : BitVec 64) : BitVec 64 := if w = 0#64 then 0#64 else 1#64

def f3StickyShift (sh : ℤ) (x : U128) : U128 :=
  if 128 ≤ sh then ⟨boolWord (x.x0 ||| x.x1), 0#64⟩
  else
    let (sh, x) := if 64 ≤ sh then (sh - 64, U128.mk (x.x1 ||| boolWord x.x0) 0#64) else (sh, x)
    if 0 < sh then
      let s := sh.toNat
      ⟨x.x0 >>> s ||| x.x1 <<< (64 - s) ||| boolWord (x.x0 <<< (64 - s)), x.x1 >>> s⟩
    else x

/-- `++x`, with the two carries out of the significand that `f3_round` watches for. -/
def f3Increment (exp : ℤ) (x : U128) : ℤ × U128 :=
  let x0 := x.x0 + 1#64
  if x0 = 0#64 then
    let x1 := x.x1 + 1#64
    if x1 = 1#64 <<< 48 then (1, ⟨x0, x1⟩)
    else if x1 = 1#64 <<< 49 then (exp + 1, (U128.mk x0 x1).shr 1)
    else (exp, ⟨x0, x1⟩)
  else (exp, ⟨x0, x.x1⟩)

/-- The part of `f3_round` after its sticky shift: drop the two extra bits, rounding to even. -/
def f3RoundBits (sgn : Bool) (exp : ℤ) (x : U128) : BitVec 128 :=
  let error := x.x0 &&& 3#64
  let x := x.shr 2
  let (exp, x) :=
    if error = 3#64 ∨ (error = 2#64 ∧ x.x0 &&& 1#64 = 1#64) then f3Increment exp x else (exp, x)
  if 32767 ≤ exp then f3Infinity sgn
  else (U128.mk x.x0 (x.x1 <<< 16 >>> 16 ||| BitVec.ofInt 64 exp <<< 48 ||| sgnWord sgn)).toBits

def f3Round (sgn : Bool) (exp : ℤ) (x : U128) : BitVec 128 :=
  if 0 < exp then f3RoundBits sgn exp (f3StickyShift 13 x)
  else f3RoundBits sgn 0 (f3StickyShift (14 - exp) x)

/-! ## Addition and subtraction -/

/-- The signed sum of two aligned significands, as a sign and an absolute value. -/
def addSigned (aSgn : Bool) (a : U128) (bSgn : Bool) (b : U128) : Bool × U128 :=
  if aSgn = bSgn then (aSgn, a.add b)
  else
    let x := a.sub b
    if x.x1 >>> 63 ≠ 0#64 then (!aSgn, x.neg) else (aSgn, x)

/-- The part of `f3_add` after the alignment to a common exponent. -/
def f3AddAligned (exp : ℤ) (aSgn : Bool) (a : U128) (bSgn : Bool) (b : U128) : BitVec 128 :=
  let (sgn, x) := addSigned aSgn a bSgn b
  if x.isZero then f3Zero false
  else
    let (exp, x) := f3Normalise exp x
    f3Round sgn (exp + 12) x

/-- The part of `f3_add` after the special cases, on finite unpacked operands. -/
def f3AddFinite (aSgn : Bool) (aExp : ℤ) (a : U128) (bSgn : Bool) (bExp : ℤ) (b : U128) :
    BitVec 128 :=
  let a := a.shl 3
  let b := b.shl 3
  if aExp ≤ bExp then f3AddAligned bExp aSgn (f3StickyShift (bExp - aExp) a) bSgn b
  else f3AddAligned aExp aSgn a bSgn (f3StickyShift (aExp - bExp) b)

def f3Add (fa fb : BitVec 128) (neg : Bool) : BitVec 128 :=
  let (aSgn, aExp, a) := f3Unpack fa
  let (bSgn, bExp, b) := f3Unpack fb
  match fp3DetectNaNs aSgn aExp a bSgn bExp b with
  | some fx => fx
  | none =>
    let bSgn := xor bSgn neg
    -- Handle infinities and zeroes:
    if aExp = 32767 ∧ bExp = 32767 ∧ aSgn ≠ bSgn then f3NaN
    else if aExp = 32767 then f3Infinity aSgn
    else if bExp = 32767 then f3Infinity bSgn
    else if a.isZero && b.isZero then f3Zero (aSgn && bSgn)
    else f3AddFinite aSgn aExp a bSgn bExp b

/-- `__addtf3`. -/
def addtf3 (a b : BitVec 128) : BitVec 128 := f3Add a b false

/-- `__subtf3`. -/
def subtf3 (a b : BitVec 128) : BitVec 128 := f3Add a b true

/-! ## Multiplication -/

/-- A normalised significand in base `2^30`, its bottom 6 bits discarded: (32, 30, 30, 30) bits in
    (a3, a2, a1, a0). -/
structure Digits where
  a0 : BitVec 64
  a1 : BitVec 64
  a2 : BitVec 64
  a3 : BitVec 64

def digits (a : U128) : Digits where
  a0 := a.x0 <<< 28 >>> 34
  a1 := a.x0 >>> 36 ||| a.x1 <<< 62 >>> 34
  a2 := a.x1 <<< 32 >>> 34
  a3 := a.x1 >>> 32

/-- The seven column sums of the schoolbook product, each with the carry of the previous one. -/
structure Columns where
  x0 : BitVec 64
  x1 : BitVec 64
  x2 : BitVec 64
  x3 : BitVec 64
  x4 : BitVec 64
  x5 : BitVec 64
  x6 : BitVec 64

def columns (a b : Digits) : Columns :=
  let x0 := a.a0 * b.a0
  let x1 := (x0 >>> 30) + a.a0 * b.a1 + a.a1 * b.a0
  let x2 := (x1 >>> 30) + a.a0 * b.a2 + a.a1 * b.a1 + a.a2 * b.a0
  let x3 := (x2 >>> 30) + a.a0 * b.a3 + a.a1 * b.a2 + a.a2 * b.a1 + a.a3 * b.a0
  let x4 := (x3 >>> 30) + a.a1 * b.a3 + a.a2 * b.a2 + a.a3 * b.a1
  let x5 := (x4 >>> 30) + a.a2 * b.a3 + a.a3 * b.a2
  let x6 := (x5 >>> 30) + a.a3 * b.a3
  ⟨x0, x1, x2, x3, x4, x5, x6⟩

/-- The top 128 bits of the product, setting the bottom bit if any lower bits were set. -/
def topBits (x : Columns) : U128 where
  x0 := x.x5 <<< 34 ||| x.x4 <<< 34 >>> 30 ||| x.x3 <<< 34 >>> 60 |||
    boolWord (x.x3 <<< 38 ||| (x.x2 ||| x.x1 ||| x.x0) <<< 34)
  x1 := x.x6

/-- The part of `__multf3` after the special cases, on finite nonzero unpacked operands. -/
def mulFinite (sgn : Bool) (aExp : ℤ) (a : U128) (bExp : ℤ) (b : U128) : BitVec 128 :=
  let (aExp, a) := f3Normalise aExp a
  let (bExp, b) := f3Normalise bExp b
  let exp := aExp + bExp - 16352
  let y := topBits (columns (digits a) (digits b))
  -- Top bit may be zero. Renormalise:
  if y.x1 >>> 63 = 0#64 then f3Round sgn (exp - 1) (y.shl 1) else f3Round sgn exp y

/-- `__multf3`. -/
def multf3 (fa fb : BitVec 128) : BitVec 128 :=
  let (aSgn, aExp, a) := f3Unpack fa
  let (bSgn, bExp, b) := f3Unpack fb
  match fp3DetectNaNs aSgn aExp a bSgn bExp b with
  | some fx => fx
  | none =>
    -- Handle infinities and zeroes:
    if (aExp = 32767 ∧ b.isZero) ∨ (bExp = 32767 ∧ a.isZero) then f3NaN
    else if aExp = 32767 ∨ bExp = 32767 then f3Infinity (xor aSgn bSgn)
    else if a.isZero || b.isZero then f3Zero (xor aSgn bSgn)
    else mulFinite (xor aSgn bSgn) aExp a bExp b

/-! ## Division -/

/-- `a.x1 > b.x1 || (a.x1 == b.x1 && a.x0 >= b.x0)`. -/
def geLimbs (a b : U128) : Bool := a.x1 > b.x1 || (a.x1 == b.x1 && a.x0 ≥ b.x0)

/-- `a.x1 = a.x1 - b.x1 - (a.x0 < b.x0); a.x0 = a.x0 - b.x0`. -/
def subLimbs (a b : U128) : U128 :=
  ⟨a.x0 - b.x0, a.x1 - b.x1 - (if a.x0 < b.x0 then 1#64 else 0#64)⟩

/-- One quotient bit: the state is the remainder `a` and the quotient `x` so far. -/
def divStep (b : U128) (s : U128 × U128) : U128 × U128 :=
  let (a, x) := s
  let x := x.shl 1
  let (a, x) := if geLimbs a b then (subLimbs a b, { x with x0 := x.x0 ||| 1#64 }) else (a, x)
  (a.shl 1, x)

/-- `n` rounds of the division loop. -/
def divLoop (b : U128) : ℕ → U128 × U128 → U128 × U128
  | 0, s => s
  | n + 1, s => divStep b (divLoop b n s)

/-- The quotient of normalised significands after 116 rounds, with a nonzero remainder marked in
    its last bit. -/
def divQuotient (a b : U128) : U128 :=
  let s := divLoop b 116 (a, ⟨0, 0⟩)
  { s.2 with x0 := s.2.x0 ||| boolWord (s.1.x0 ||| s.1.x1) }

/-- The part of `__divtf3` after the special cases, on finite nonzero unpacked operands. -/
def divFinite (sgn : Bool) (aExp : ℤ) (a : U128) (bExp : ℤ) (b : U128) : BitVec 128 :=
  let (aExp, a) := f3Normalise aExp a
  let (bExp, b) := f3Normalise bExp b
  let exp := aExp - bExp + 16395
  let (exp, x) := f3Normalise exp (divQuotient (a.shr 1) (b.shr 1))
  f3Round sgn exp x

/-- `__divtf3`. -/
def divtf3 (fa fb : BitVec 128) : BitVec 128 :=
  let (aSgn, aExp, a) := f3Unpack fa
  let (bSgn, bExp, b) := f3Unpack fb
  match fp3DetectNaNs aSgn aExp a bSgn bExp b with
  | some fx => fx
  | none =>
    -- Handle infinities and zeroes:
    if (aExp = 32767 ∧ bExp = 32767) ∨ (a.isZero ∧ b.isZero) then f3NaN
    else if aExp = 32767 ∨ b.isZero then f3Infinity (xor aSgn bSgn)
    else if a.isZero ∨ bExp = 32767 then f3Zero (xor aSgn bSgn)
    else divFinite (xor aSgn bSgn) aExp a bExp b

end TccRiscv64.Lib
