import TccRiscv64.Lib.F3

set_option autoImplicit false

/-! # Conversions between `long double` and the narrower types

`__extendsftf2`, `__extenddftf2`, `__trunctfsf2` and `__trunctfdf2` of `lib/lib-arm64.c`. A
`float` or `double` is its 32-bit or 64-bit image, as the `memcpy` at either end of the functions
reads and writes it. -/

namespace TccRiscv64.Lib

/-! ## Extension -/

/-- The loop `while (!(m >> (top - adj))) adj++` of the subnormal cases, by the shift `top - adj`
    that it has come to; the result is what `adj` grows by. On `m ≠ 0` it stops at shift 0 at the
    latest. -/
def adjLoop {w : ℕ} (m : BitVec w) : ℕ → ℕ
  | 0 => 0
  | sh + 1 => if m >>> (sh + 1) = 0#w then adjLoop m sh + 1 else 0

/-- `__extendsftf2`. -/
def extendsftf2 (f : BitVec 32) : BitVec 128 :=
  let a := f
  let aa : BitVec 64 := a.setWidth 64
  if a <<< 1 = 0#32 then (U128.mk 0 (aa <<< 32)).toBits
  else if a <<< 1 >>> 24 = 255#32 then
    (U128.mk 0 (0x7fff000000000000#64 ||| aa >>> 31 <<< 63 ||| aa <<< 41 >>> 16 |||
      boolWord ((a <<< 9).setWidth 64) <<< 47)).toBits
  else if a <<< 1 >>> 24 = 0#32 then
    let adj := adjLoop (a <<< 1 >>> 1) 23
    (U128.mk 0 (aa >>> 31 <<< 63 ||| (16256#64 - BitVec.ofNat 64 adj + 1#64) <<< 48 |||
      aa <<< adj <<< 41 >>> 16)).toBits
  else
    (U128.mk 0 (aa >>> 31 <<< 63 ||| ((aa >>> 23 &&& 255#64) + 16256#64) <<< 48 |||
      aa <<< 41 >>> 16)).toBits

/-- `__extenddftf2`. -/
def extenddftf2 (f : BitVec 64) : BitVec 128 :=
  let a := f
  let x0 := a <<< 60
  if a <<< 1 = 0#64 then (U128.mk x0 a).toBits
  else if a <<< 1 >>> 53 = 2047#64 then
    (U128.mk x0 (0x7fff000000000000#64 ||| a >>> 63 <<< 63 ||| a <<< 12 >>> 16 |||
      boolWord (a <<< 12) <<< 47)).toBits
  else if a <<< 1 >>> 53 = 0#64 then
    let adj := adjLoop (a <<< 1 >>> 1) 52
    (U128.mk (x0 <<< adj) (a >>> 63 <<< 63 ||| (15360#64 - BitVec.ofNat 64 adj + 1#64) <<< 48 |||
      a <<< adj <<< 12 >>> 16)).toBits
  else
    (U128.mk x0 (a >>> 63 <<< 63 ||| ((a >>> 52 &&& 2047#64) + 15360#64) <<< 48 |||
      a <<< 12 >>> 16)).toBits

/-! ## Truncation -/

/-- `x >> s | !!(x << (w - s))` on a word of `w` bits. -/
def shiftSticky {w : ℕ} (x : BitVec w) (s : ℕ) : BitVec w :=
  x >>> s ||| (if x <<< (w - s) = 0#w then 0#w else 1#w)

/-- `if ((x & 3) == 3 || (x & 7) == 6) x += 4`. -/
def addHalf {w : ℕ} (x : BitVec w) : BitVec w :=
  if x &&& 3#w = 3#w ∨ x &&& 7#w = 6#w then x + 4#w else x

/-- The end of the rounding case of both functions: denormalise where the exponent is negative,
    round and add the exponent in above `fracBits` fraction bits. -/
def truncRound {w : ℕ} (fracBits : ℕ) (exp : ℤ) (x : BitVec w) : BitVec w :=
  let (x, exp) := if exp < 0 then (shiftSticky x (-exp).toNat, 0) else (x, exp)
  (addHalf x >>> 2) + BitVec.ofInt w exp <<< fracBits

/-- `__trunctfsf2`. -/
def trunctfsf2 (f : BitVec 128) : BitVec 32 :=
  let (sgn, exp, mnt) := f3Unpack f
  let sgnBit := BitVec.ofNat 32 sgn.toNat <<< 31
  if isNaNPattern exp mnt then
    0x7fc00000#32 ||| sgnBit ||| (mnt.x1 >>> 25 &&& 0x007fffff#64).setWidth 32
  else if exp > 16510 then 0x7f800000#32 ||| sgnBit
  else if exp < 16233 then sgnBit
  else
    let x := (mnt.x1 >>> 23 ||| boolWord (mnt.x0 ||| mnt.x1 <<< 41)).setWidth 32
    truncRound 23 (exp - 16257) x ||| sgnBit

/-- `__trunctfdf2`. -/
def trunctfdf2 (f : BitVec 128) : BitVec 64 :=
  let (sgn, exp, mnt) := f3Unpack f
  if isNaNPattern exp mnt then
    0x7ff8000000000000#64 ||| sgnWord sgn ||| mnt.x1 <<< 16 >>> 12 ||| mnt.x0 >>> 60
  else if exp > 17406 then 0x7ff0000000000000#64 ||| sgnWord sgn
  else if exp < 15308 then sgnWord sgn
  else
    let x := mnt.x1 <<< 6 ||| mnt.x0 >>> 58 ||| boolWord (mnt.x0 <<< 6)
    truncRound 52 (exp - 15361) x ||| sgnWord sgn

end TccRiscv64.Lib
