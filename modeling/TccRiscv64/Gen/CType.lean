import Mathlib

set_option autoImplicit false

/-! # C object types

The object types of the compiler, as far as argument passing and returning look at them: scalars,
structs and unions with the layout that `struct_layout` computed (size, alignment and the offset of
each field), and arrays inside structs. -/

namespace TccRiscv64.Gen

/-- The scalar types, by their `VT_BTYPE`. Enumerations are `int`. -/
inductive Scalar
  | byte | short | int | llong | ptr | float | double | ldouble | bool
  deriving DecidableEq, Repr

namespace Scalar

def size : Scalar → Nat
  | byte | bool => 1
  | short => 2
  | int | float => 4
  | llong | ptr | double => 8
  | ldouble => 16

def align : Scalar → Nat := size

/-- `is_float`. -/
def isFloat : Scalar → Bool
  | float | double | ldouble => true
  | _ => false

theorem size_pos (s : Scalar) : 0 < s.size := by
  cases s <;> decide

theorem size_le (s : Scalar) : s.size ≤ 16 := by
  cases s <;> decide

end Scalar

/-- A basic type code, `type.t & VT_BTYPE`. -/
inductive BType
  | scalar (s : Scalar)
  | struct
  deriving DecidableEq, Repr

/-- The numeric value of a basic type code. -/
def BType.code : BType → Nat
  | scalar .byte => 1
  | scalar .short => 2
  | scalar .int => 3
  | scalar .llong => 4
  | scalar .ptr => 5
  | struct => 7
  | scalar .float => 8
  | scalar .double => 9
  | scalar .ldouble => 10
  | scalar .bool => 11

mutual

/-- An object type. `count` is the array bound, `none` for a flexible array member (`-1` in the
source). -/
inductive CType
  | scalar (s : Scalar)
  | struct (isUnion : Bool) (size align : Nat) (fields : Fields)
  | array (elem : CType) (count : Option Nat)

/-- The members of a struct or union, each with its offset. -/
inductive Fields
  | nil
  | cons (ofs : Nat) (type : CType) (rest : Fields)

end

namespace CType

/-- `type.t & VT_BTYPE`; an array carries the code of a pointer. -/
def btype : CType → BType
  | scalar s => .scalar s
  | struct .. => .struct
  | array .. => .scalar .ptr

def isStruct : CType → Bool
  | struct .. => true
  | _ => false

/-- The `VT_ARRAY` flag. -/
def isArray : CType → Bool
  | array .. => true
  | _ => false

/-- The size `type_size` returns. A flexible array member, whose size is negative in the source, is
never asked for. -/
def size : CType → Nat
  | scalar s => s.size
  | struct _ size _ _ => size
  | array elem count => elem.size * count.getD 0

/-- The alignment `type_size` returns. -/
def align : CType → Nat
  | scalar s => s.align
  | struct _ _ align _ => align
  | array elem _ => elem.align

end CType

/-- `char *`, the type of a pointer that stands for an object passed by reference. -/
def charPointerType : CType := .scalar .ptr

/-- Round `x` up to a multiple of `align`: `(x + align - 1) & -align` for a power of two. -/
def alignUp (x align : Nat) : Nat := (x + align - 1) / align * align

end TccRiscv64.Gen
