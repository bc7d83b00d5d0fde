import TccRiscv64.Gen.ValueStack

set_option autoImplicit false

/-! # How a bit-field is accessed

The last part of `struct_layout` decides for each bit-field of a finished layout whether it can be
read and written as a whole value of its declared type, of another type at another offset, or only
byte by byte. -/

namespace TccRiscv64.Bitfield

open TccRiscv64.Gen

/-- The types that are tried for the access: `t.t`. -/
inductive BaseType
  | byte | short | int | llong
  deriving DecidableEq, Repr

namespace BaseType

/-- `type_size(&t, &align)`: size and alignment, which are the same for these types. -/
def size : BaseType → Nat
  | byte => 1
  | short => 2
  | int => 4
  | llong => 8

/-- The type with the given `VT_UNSIGNED`. -/
def toIntType (unsigned : Bool) : BaseType → IntType
  | byte => .byte unsigned
  | short => .short unsigned
  | int => .int unsigned
  | llong => .llong unsigned

/-- The smallest of the types that holds `bytes` bytes, or else the largest one. -/
def ofBytes (bytes : Nat) : BaseType :=
  if bytes > 4 then llong else if bytes > 2 then int else if bytes > 1 then short else byte

end BaseType

/-- `auxtype`. -/
inductive AuxType
  /-- `-1`: access by the declared type -/
  | own
  /-- access by this type -/
  | base (t : BaseType)
  /-- `VT_STRUCT`: access byte by byte -/
  | struct
  deriving DecidableEq, Repr

/-- A bit-field as the first part of `struct_layout` leaves it: its type, `BIT_SIZE`, `BIT_POS` and
the offset `c`. A field as wide as a `long long` is not a bit-field (`struct_decl` rejects it where
it would have to be one), and unnamed fields of no width are not accessed. -/
structure Field where
  type : IntType
  bitSize : Nat
  bitPos : Nat
  offset : Nat
  notPtr : type ≠ .ptr
  bitSize_pos : 0 < bitSize
  bitSize_le : bitSize ≤ 8 * type.size
  bitSize_lt : bitSize < 64
  bitPos_lt : bitPos < 64

/-- The access to a bit-field: offset, bit position from there, and `auxtype`. -/
structure Access where
  offset : Nat
  bitPos : Nat
  aux : AuxType
  deriving DecidableEq, Repr

/-! ## The search for a type -/

/-- `cx = (px >> 3) & -align` for the bit `p = f->c * 8 + bit_pos`. -/
def alignedByte (p : Nat) (t : BaseType) : Nat := p / 8 / t.size * t.size

/-- `px = px - (cx << 3)`. -/
def alignedPos (p : Nat) (t : BaseType) : Nat := p - 8 * alignedByte p t

/-- The type chosen for a position. -/
def nextType (p bitSize : Nat) (t : BaseType) : BaseType :=
  .ofBytes ((alignedPos p t + bitSize + 7) / 8)

/-- The loop, from `c0` and the type `t` on: the type it ends with. -/
def searchLoop (p bitSize : Nat) : (fuel : Nat) → Option Nat → BaseType → Option BaseType
  | 0, _, _ => none
  | fuel + 1, c0, t =>
    if c0 = some (alignedByte p t) then some t
    else searchLoop p bitSize fuel (some (alignedByte p t)) (nextType p bitSize t)

/-- Enough rounds for every field: the type changes at most three times, and an unchanged one ends
the loop. -/
def searchFuel : Nat := 5

/-- "check whether we can access bitfields by their type", for a structure of `c` bytes. -/
def checkAccess (c : Nat) (f : Field) : Option Access :=
  if f.bitPos + f.bitSize ≤ f.type.size * 8 ∧ f.offset + f.type.size ≤ c then
    some ⟨f.offset, f.bitPos, .own⟩
  else do
    let p := f.offset * 8 + f.bitPos
    let t ← searchLoop p f.bitSize searchFuel none .byte
    let px := alignedPos p t
    let cx := alignedByte p t
    if px + f.bitSize ≤ t.size * 8 ∧ cx + t.size ≤ c then
      -- update offset and bit position
      some ⟨cx, px, if t.size ≠ f.type.size then .base t else .own⟩
    else
      -- fall back to load/store single-byte wise
      some ⟨f.offset, f.bitPos, .struct⟩

/-! ## What the search finds -/

theorem BaseType.size_cases (t : BaseType) :
    t.size = 1 ∨ t.size = 2 ∨ t.size = 4 ∨ t.size = 8 := by
  cases t <;> simp [BaseType.size]

/-- The place has the same bit in it. -/
theorem alignedPos_spec (p : Nat) (t : BaseType) :
    8 * alignedByte p t + alignedPos p t = p ∧ alignedPos p t < 8 * t.size := by
  unfold alignedPos alignedByte
  rcases t.size_cases with h | h | h | h <;> rw [h] <;> omega

theorem alignedPos_mono (p : Nat) {t t' : BaseType} (h : t.size ≤ t'.size) :
    alignedPos p t ≤ alignedPos p t' := by
  unfold alignedPos alignedByte
  cases t <;> cases t' <;> simp only [BaseType.size] at * <;> omega

theorem ofBytes_mono {a b : Nat} (h : a ≤ b) :
    (BaseType.ofBytes a).size ≤ (BaseType.ofBytes b).size := by
  unfold BaseType.ofBytes
  split_ifs <;> simp only [BaseType.size] <;> omega

theorem nextType_mono (p bitSize : Nat) {t t' : BaseType} (h : t.size ≤ t'.size) :
    (nextType p bitSize t).size ≤ (nextType p bitSize t').size := by
  have := alignedPos_mono p h
  exact ofBytes_mono (by omega)

theorem BaseType.size_inj {t t' : BaseType} (h : t.size = t'.size) : t = t' := by
  cases t <;> cases t' <;> first | rfl | exact absurd h (by decide)

/-- Rounds left until the types are used up. -/
def BaseType.rank : BaseType → Nat
  | byte => 3
  | short => 2
  | int => 1
  | llong => 0

theorem BaseType.rank_lt {t t' : BaseType} (h : t.size < t'.size) : t'.rank < t.rank := by
  cases t <;> cases t' <;> first | decide | exact absurd h (by decide)

theorem nextType_llong {p bitSize : Nat} {t : BaseType} (h : nextType p bitSize t = .llong) :
    32 < alignedPos p t + bitSize := by
  unfold nextType BaseType.ofBytes at h
  split_ifs at h
  omega

/-- From the second round on, the loop ends: either the type stays, and so does the place, or a
    larger one is left. It ends with a `long long` only where an `int` is too small. -/
theorem searchLoop_spec {p bitSize : Nat} {fuel : Nat} {t' t : BaseType}
    (hle : t'.size ≤ t.size) (ht : t = nextType p bitSize t') (hfuel : t'.rank < fuel)
    (hinv : t = .llong → 32 < alignedPos p .int + bitSize) :
    ∃ u, searchLoop p bitSize fuel (some (alignedByte p t')) t = some u ∧
      (u = .llong → 32 < alignedPos p .int + bitSize) := by
  induction fuel generalizing t' t with
  | zero => omega
  | succ fuel ih =>
      rw [searchLoop]
      by_cases hcx : alignedByte p t' = alignedByte p t
      · rw [if_pos (congrArg some hcx)]
        exact ⟨t, rfl, hinv⟩
      · rw [if_neg (fun h => hcx (Option.some.inj h))]
        have hlt : t'.size < t.size := by
          refine lt_of_le_of_ne hle fun h => hcx ?_
          rw [BaseType.size_inj h]
        have hnext : t.size ≤ (nextType p bitSize t).size := by
          calc t.size = (nextType p bitSize t').size := by rw [ht]
            _ ≤ (nextType p bitSize t).size := nextType_mono p bitSize hle
        apply ih hnext rfl
        · have := BaseType.rank_lt hlt
          omega
        · intro h
          have hpos := nextType_llong h
          by_cases hl : t = .llong
          · exact hinv hl
          · have : alignedPos p t ≤ alignedPos p .int := by
              apply alignedPos_mono
              cases t <;> first | decide | exact absurd rfl hl
            omega

/-- The search always finds a type. -/
theorem search_spec (p bitSize : Nat) :
    ∃ u, searchLoop p bitSize searchFuel none .byte = some u ∧
      (u = .llong → 32 < alignedPos p .int + bitSize) := by
  have hpos : ∀ t : BaseType, 1 ≤ t.size := by
    intro t
    cases t <;> decide
  rw [searchFuel, searchLoop, if_neg (by simp)]
  refine searchLoop_spec (show BaseType.byte.size ≤ _ from hpos _) rfl (by decide) fun h => ?_
  have hnext := nextType_llong h
  have hmono : alignedPos p .byte ≤ alignedPos p .int := alignedPos_mono p (by decide)
  omega

/-! ## What an access promises -/

/-- The type of the whole value that is accessed, if there is one. -/
def Access.valueType (f : Field) (a : Access) : Option IntType :=
  match a.aux with
  | .own => some f.type
  | .base t => some (t.toIntType f.type.unsigned)
  | .struct => none

theorem BaseType.size_toIntType (t : BaseType) (u : Bool) : (t.toIntType u).size = t.size := by
  cases t <;> rfl

/-- An access is to the bits of the field, within a value of its type. -/
structure Access.Sound (f : Field) (a : Access) : Prop where
  bit : 8 * a.offset + a.bitPos = 8 * f.offset + f.bitPos
  inside : ∀ t, a.valueType f = some t → a.bitPos + f.bitSize ≤ 8 * t.size
  -- a 64-bit value stands in for a smaller one only across the middle of it
  llong : a.aux = .base .llong → a.bitPos < 32 ∧ 32 < a.bitPos + f.bitSize

/-- **The access chosen is sound, and there always is one.** -/
theorem checkAccess_sound (c : Nat) (f : Field) :
    ∃ a, checkAccess c f = some a ∧ a.Sound f := by
  unfold checkAccess
  split
  · next h =>
      refine ⟨_, rfl, rfl, ?_, fun h => absurd h (by simp)⟩
      intro t ht
      obtain rfl := Option.some.inj ht
      rw [Nat.mul_comm]
      exact h.1
  · next hown =>
      obtain ⟨u, hu, hll⟩ := search_spec (f.offset * 8 + f.bitPos) f.bitSize
      obtain ⟨hbit, hlt⟩ := alignedPos_spec (f.offset * 8 + f.bitPos) u
      dsimp only
      rw [hu]
      dsimp only [Option.bind_eq_bind, Option.bind_some]
      split
      · next h =>
          refine ⟨_, rfl, by dsimp only; omega, ?_, ?_⟩
          · intro t ht
            have hsize : t.size = u.size := by
              unfold Access.valueType at ht
              dsimp only at ht
              split_ifs at ht with hs
              · obtain rfl := Option.some.inj ht
                exact u.size_toIntType _
              · obtain rfl := Option.some.inj ht
                exact (not_not.mp hs).symm
            have := h.1
            rw [hsize]
            dsimp only
            omega
          · intro haux
            have hu' : u = .llong := by
              dsimp only at haux
              split_ifs at haux with hs
              exact AuxType.base.inj haux
            subst hu'
            have h32 := hll rfl
            have h64 := h.1
            dsimp only
            unfold alignedPos alignedByte at *
            simp only [BaseType.size] at *
            omega
      · refine ⟨_, rfl, by dsimp only, ?_, fun h => absurd h (by simp)⟩
        intro t ht
        exact absurd ht (by simp [Access.valueType])

end TccRiscv64.Bitfield
