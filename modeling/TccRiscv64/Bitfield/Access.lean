import TccRiscv64.Bitfield.Layout
import TccRiscv64.Bitfield.Values

set_option autoImplicit false

/-! # Reading and writing bit-fields

The bit-field branches of `gv`, `vstore` and `init_putv`, and the byte-wise `load_packed_bf` and
`store_packed_bf`. Every loop runs over the bits that are left of the field, at least one of them
a round. -/

namespace TccRiscv64.Bitfield

open TccRiscv64.Gen TccRiscv64.Isa

variable (m : Memory)

/-- `n = 8 - bit_pos; if (n > bit_size) n = bit_size`. -/
def chunk (bitPos bitSize : Nat) : Nat := if 8 - bitPos > bitSize then bitSize else 8 - bitPos

/-! ## Reading -/

/-- The piece of the field that a byte holds, moved to its place: one round of `load_packed_bf`. -/
def loadPiece (type : IntType) (addr bits bitPos n : Nat) : Value :=
  let y := loadLval m addr (.byte true)
  let y := if bitPos ≠ 0 then genOp .shr y (vpushNat bitPos) else y
  let y := if n < 8 then genOp .and y (vpushNat (1 <<< n - 1)) else y
  let y := genCast type y
  if bits ≠ 0 then genOp .shl y (vpushNat bits) else y

/-- The loop of `load_packed_bf`, with the value collected so far. -/
def loadPackedLoop (type : IntType) : (fuel : Nat) → (addr bits bitPos bitSize : Nat) → Value → Value
  | 0, _, _, _, _, x => x
  | fuel + 1, addr, bits, bitPos, bitSize, x =>
    if bitSize = 0 then x
    else
      let n := chunk bitPos bitSize
      let y := loadPiece m type addr bits bitPos n
      loadPackedLoop type fuel (addr + 1) (bits + n) 0 (bitSize - n) (genOp .or y x)

/-- `load_packed_bf`. -/
def loadPackedBf (type : IntType) (addr bitPos bitSize : Nat) : Value :=
  let zero : Value := if type.isLlong then vpushll 0#64 else vpushi 0#32
  let x := loadPackedLoop m type bitSize (addr + bitPos / 8) 0 (bitPos % 8) bitSize zero
  if type.unsigned then x
  else
    let n := (if type.isLlong then 64 else 32) - bitSize
    genOp .sar (genOp .shl x (vpushNat n)) (vpushNat n)

/-- The type that `gv` reads a bit-field as: `int` or `long long`, unsigned for `_Bool`. -/
def readType (f : Field) (valueType : IntType) : IntType :=
  let unsigned := f.type.unsigned || f.type == .bool
  if valueType.isLlong then .llong unsigned else .int unsigned

/-- The bit-field branch of `gv`, for a structure at `base`. -/
def gvBitfield (base : Nat) (f : Field) (a : Access) : Value :=
  match a.valueType f with
  | none => loadPackedBf m (readType f f.type) (base + a.offset) a.bitPos f.bitSize
  | some t =>
    let type := readType f t
    let bits := if type.isLlong then 64 else 32
    -- cast to int to propagate signedness in following ops
    let x := genCast type (loadLval m (base + a.offset) t)
    let x := genOp .shl x (vpushNat (bits - (a.bitPos + f.bitSize)))
    genOp .sar x (vpushNat (bits - f.bitSize))

/-! ## Writing at run time -/

/-- The byte that one round of `store_packed_bf` stores. -/
def storePiece (x : Value) (addr bits bitPos n : Nat) : Value :=
  let v := if bits ≠ 0 then genOp .shr x (vpushNat bits) else x
  let v := if bitPos ≠ 0 then genOp .shl v (vpushNat bitPos) else v
  if n < 8 then
    let mask : BitVec 32 := BitVec.ofNat 32 (1 <<< n - 1) <<< bitPos
    let v := genOp .and v (vpushi mask)
    let b := genOp .and (loadLval m addr (.byte true))
      (vpushi (if mask &&& 0x80#32 ≠ 0#32 then ~~~mask &&& 0x7f#32 else ~~~mask))
    genOp .or v b
  else v

/-- The loop of `store_packed_bf`. -/
def storePackedLoop (x : Value) : (fuel : Nat) → (addr bits bitPos bitSize : Nat) → Memory → Memory
  | 0, _, _, _, _, m => m
  | fuel + 1, addr, bits, bitPos, bitSize, m =>
    if bitSize = 0 then m
    else
      let n := chunk bitPos bitSize
      let m := storeLval m addr (.byte true) (storePiece m x addr bits bitPos n)
      storePackedLoop x fuel (addr + 1) (bits + n) 0 (bitSize - n) m

/-- `store_packed_bf`. -/
def storePackedBf (x : Value) (addr bitPos bitSize : Nat) : Memory :=
  storePackedLoop x bitSize (addr + bitPos / 8) 0 (bitPos % 8) bitSize m

/-- The type of the value that `vstore` accesses in place of a `_Bool`: it is an `unsigned char`
unless the access has another type. -/
def writeType (f : Field) (t : IntType) : IntType :=
  if f.type = .bool then
    match t with
    | .bool => .byte true
    | .byte _ => .byte true
    | .short _ => .short true
    | .int _ => .int true
    | .llong _ => .llong true
    | .ptr => .ptr
  else t

/-- The value that `vstore` writes: cast to `_Bool`, or to the type `t` of the lvalue. -/
def storedValue (f : Field) (t : IntType) (v : Value) : Value :=
  genCast (if f.type = .bool then .bool else t) v

/-- The read-modify-write of `vstore` for a value of the type `t` at `addr`. What the code calls
`dbt` is `VT_BOOL` for a `_Bool` whatever the type of the access is. -/
def storeMasked (f : Field) (t : IntType) (addr bitPos : Nat) (v : Value) : Memory :=
  let isBool := f.type = .bool
  let isLlong := ¬isBool ∧ t.isLlong
  let mask : BitVec 64 := 1#64 <<< f.bitSize - 1#64
  -- mask source
  let v :=
    if isBool then v else genOp .and v (if isLlong then vpushll mask else vpushi (mask.setWidth 32))
  -- shift source
  let v := genOp .shl v (vpushNat bitPos)
  -- load destination, mask and or with source
  let d := genOp .and (loadLval m addr t)
    (if isLlong then vpushll (~~~(mask <<< bitPos)) else vpushi (~~~(mask.setWidth 32 <<< bitPos)))
  storeLval m addr t (genOp .or v d)

/-- The bit-field branch of `vstore`. -/
def vstoreBitfield (base : Nat) (f : Field) (a : Access) (v : Value) : Memory :=
  match a.valueType f with
  | none => storePackedBf m (storedValue f f.type v) (base + a.offset) a.bitPos f.bitSize
  | some t =>
    storeMasked m f (writeType f t) (base + a.offset) a.bitPos (storedValue f (writeType f t) v)

/-! ## Writing an initialiser -/

/-- The loop of `init_putv`. -/
def initPutvLoop (val : BitVec 64) : (fuel : Nat) → (p bits bitPos bitSize : Nat) → Memory → Memory
  | 0, _, _, _, _, m => m
  | fuel + 1, p, bits, bitPos, bitSize, m =>
    if bitSize = 0 then m
    else
      let n := chunk bitPos bitSize
      let v : BitVec 8 := (val >>> bits <<< bitPos).setWidth 8
      let mask : BitVec 8 := (BitVec.ofNat 32 (1 <<< n - 1) <<< bitPos).setWidth 8
      let m := Function.update m p ((m p &&& ~~~mask) ||| (v &&& mask))
      initPutvLoop val fuel (p + 1) (bits + n) 0 (bitSize - n) m

/-- The bit-field branch of `init_putv`, for a constant `v`. -/
def initPutvBitfield (base : Nat) (f : Field) (a : Access) (v : Value) : Memory :=
  let val := (genCast f.type v).bits
  initPutvLoop val f.bitSize (base + a.offset + a.bitPos / 8) 0 (a.bitPos % 8) f.bitSize m

end TccRiscv64.Bitfield
