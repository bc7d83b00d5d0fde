import TccRiscv64.Bitfield.Access

set_option autoImplicit false

/-! # Every access is to the bits of the field

The two ways to read a bit-field and the three ways to write one, as reads and writes of a string
of bits. -/

namespace TccRiscv64.Bitfield

open TccRiscv64.Gen TccRiscv64.Isa

/-! ## The pieces of a byte -/

theorem chunk_pos {bitPos bitSize : Nat} (hp : bitPos < 8) (hs : 0 < bitSize) :
    0 < chunk bitPos bitSize ∧ chunk bitPos bitSize ≤ bitSize ∧ bitPos + chunk bitPos bitSize ≤ 8 ∧
      (chunk bitPos bitSize < bitSize → bitPos + chunk bitPos bitSize = 8) := by
  unfold chunk
  split <;> omega

/-- The mask of `n` bits at a bit position. -/
theorem getLsbD_mask {w n p j : Nat} (hj : j < w) :
    (BitVec.ofNat w (1 <<< n - 1) <<< p).getLsbD j = (decide (p ≤ j) && decide (j < p + n)) := by
  rw [BitVec.getLsbD_shiftLeft, BitVec.getLsbD_ofNat, Nat.one_shiftLeft, Nat.testBit_two_pow_sub_one,
    decide_eq_true hj]
  by_cases hp : p ≤ j
  · rw [decide_eq_true hp, decide_eq_false (by omega : ¬j < p), decide_eq_true (by omega : j - p < w)]
    simp only [Bool.true_and, Bool.not_false]
    rw [decide_eq_decide]
    omega
  · rw [decide_eq_false hp, decide_eq_true (by omega : j < p)]
    simp

theorem getLsbD_vpushNat_mask {n j : Nat} (hn : n < 8) (hj : j < 64) :
    (vpushNat (1 <<< n - 1)).bits.getLsbD j = decide (j < n) := by
  rw [vpushNat, getLsbD_vpushi _ hj]
  have h := fun i (hi : i < 32) => getLsbD_mask (w := 32) (n := n) (p := 0) hi
  simp only [BitVec.shiftLeft_zero, Nat.zero_le, decide_true, Bool.true_and, Nat.zero_add] at h
  split
  · exact h j (by omega)
  · rw [h 31 (by omega), decide_eq_decide]
    omega

/-! ## Reading -/

theorem getLsbD_loadLval (m : Memory) (addr : Nat) (t : IntType) {j : Nat} (hj : j < 8 * t.size) :
    (loadLval m addr t).bits.getLsbD j = m.bit (8 * addr + j) := by
  have := IntType.size_le t
  rw [loadLval, getLsbD_extend_of_lt _ _ hj, BitVec.getLsbD_setWidth, Memory.getLsbD_load_bit,
    decide_eq_true (by omega : j < 64), decide_eq_true hj, Bool.true_and, Bool.true_and]

/-- A byte is loaded unsigned. -/
theorem getLsbD_loadByte (m : Memory) (addr : Nat) {j : Nat} (hj : j < 64) :
    (loadLval m addr (.byte true)).bits.getLsbD j = (decide (j < 8) && m.bit (8 * addr + j)) := by
  by_cases h : j < 8
  · rw [getLsbD_loadLval m addr _ h, decide_eq_true h, Bool.true_and]
  · rw [loadLval, getLsbD_extend _ _ hj, if_neg (by simpa [IntType.size] using h),
      decide_eq_false h]
    rfl

/-- The piece of the field at the bottom of a value. -/
theorem getLsbD_extract (m : Memory) (addr : Nat) {bitPos n : Nat} (hpos : bitPos + n ≤ 8) (hn : 0 < n)
    {j : Nat} (hj : j < 64) :
    let y := loadLval m addr (.byte true)
    let y := if bitPos ≠ 0 then genOp .shr y (vpushNat bitPos) else y
    let y := if n < 8 then genOp .and y (vpushNat (1 <<< n - 1)) else y
    y.bits.getLsbD j = (decide (j < n) && m.bit (8 * addr + bitPos + j)) := by
  intro y0 y1 y2
  by_cases hn8 : n < 8
  · have hy1t : (combineTypes y1.type (vpushNat (1 <<< n - 1)).type) = .int false := by
      simp only [y1, y0]
      split <;> rfl
    have hy1 : ∀ i < n, y1.bits.getLsbD i = m.bit (8 * addr + bitPos + i) := by
      intro i hi
      simp only [y1, y0]
      split
      · rw [getLsbD_genOp_shr (by show i + bitPos < 32; omega), getLsbD_loadByte _ _ (by omega),
          decide_eq_true (by omega), Bool.true_and]
        congr 1
        omega
      · next h0 =>
          rw [getLsbD_loadByte _ _ (by omega), decide_eq_true (by omega), Bool.true_and]
          congr 1
          omega
    have hand : ∀ i < 32, (genOp .and y1 (vpushNat (1 <<< n - 1))).bits.getLsbD i
        = (decide (i < n) && m.bit (8 * addr + bitPos + i)) := by
      intro i hi
      rw [getLsbD_genOp_and (by rw [hy1t]; exact hi), getLsbD_vpushNat_mask hn8 (by omega),
        Bool.and_comm]
      by_cases hin : i < n
      · rw [hy1 i hin]
      · rw [decide_eq_false hin, Bool.false_and, Bool.false_and]
    have hy2 : y2 = genOp .and y1 (vpushNat (1 <<< n - 1)) := if_pos hn8
    rw [hy2]
    by_cases h32 : j < 32
    · exact hand j h32
    · have ht : (genOp .and y1 (vpushNat (1 <<< n - 1))).type = .int false := hy1t
      rw [getLsbD_genOp_high .and (by rw [ht]; simpa [IntType.size] using h32) hj, ht]
      rw [show 8 * (IntType.int false).size - 1 = 31 from rfl, hand 31 (by omega),
        decide_eq_false (by omega), decide_eq_false (by omega)]
      simp
  · have hn : n = 8 := by omega
    have hp : bitPos = 0 := by omega
    have hy2 : y2 = y0 := by simp [y2, y1, hn, hp]
    rw [hy2, getLsbD_loadByte _ _ hj, hn, hp, Nat.add_zero]

/-- One round of `load_packed_bf` moves the bits of a byte to their place. -/
theorem getLsbD_loadPiece (m : Memory) {type : IntType} {u : Bool}
    (ht : type = .int u ∨ type = .llong u) {addr bits bitPos n : Nat} (hpos : bitPos + n ≤ 8)
    (hn : 0 < n) (hbits : bits + n ≤ 8 * type.size) {j : Nat} (hj : j < 8 * type.size) :
    (loadPiece m type addr bits bitPos n).bits.getLsbD j
      = (decide (bits ≤ j) && decide (j < bits + n) && m.bit (8 * addr + bitPos + (j - bits))) := by
  have hst : shiftType type = type := by
    rcases ht with h | h <;> rw [h] <;> cases u <;> rfl
  have hnb : type ≠ .bool := by rcases ht with h | h <;> rw [h] <;> simp
  have hle := IntType.size_le type
  have hextract := fun i (hi : i < 64) => getLsbD_extract m addr hpos hn hi
  unfold loadPiece
  dsimp only at *
  generalize (if n < 8 then _ else _ : Value) = y at *
  split
  · rw [getLsbD_genOp_shl (by rw [genCast_type, hst]; omega) (by rw [genCast_type, hst]; exact hj),
      getLsbD_genCast hnb _ (by omega), hextract _ (by omega)]
    by_cases hbj : bits ≤ j
    · rw [Bool.and_assoc]
      congr 2
      rw [decide_eq_decide]
      omega
    · rw [decide_eq_false hbj, Bool.false_and, Bool.false_and, Bool.false_and]
  · next h0 =>
      have h0 : bits = 0 := not_not.mp h0
      rw [getLsbD_genCast hnb _ hj, hextract _ (by omega), h0]
      simp

theorem loadPiece_type (m : Memory) {type : IntType} (hst : shiftType type = type)
    (addr bits bitPos n : Nat) : (loadPiece m type addr bits bitPos n).type = type := by
  unfold loadPiece
  dsimp only
  split
  · rw [genOp_type, genCast_type]
    exact hst
  · rw [genCast_type]

theorem loadPiece_isConst (m : Memory) (type : IntType) (addr bits bitPos n : Nat) :
    (loadPiece m type addr bits bitPos n).isConst = false := by
  unfold loadPiece loadLval
  dsimp only
  split_ifs <;> simp

/-- The value that `load_packed_bf` has collected after the loop. -/
structure Collected (m : Memory) (type : IntType) (pos w : Nat) (x : Value) : Prop where
  type_eq : x.type = type
  notConst : x.isConst = false
  low : ∀ j < 8 * type.size, x.bits.getLsbD j = (decide (j < w) && m.bit (pos + j))
  high : ∀ j, 8 * type.size ≤ j → j < 64 →
    x.bits.getLsbD j = (!type.unsigned && x.bits.getLsbD (8 * type.size - 1))

/-- The loop adds the bits from `bits` on to those already there. -/
theorem loadPackedLoop_spec (m : Memory) {type : IntType} {u : Bool}
    (ht : type = .int u ∨ type = .llong u) (fuel : Nat) :
    ∀ (addr bits bitPos bitSize pos : Nat) (x : Value), 0 < bitSize → bitSize ≤ fuel → bitPos < 8 →
      bits + bitSize ≤ 8 * type.size → 8 * addr + bitPos = pos + bits →
      combineTypes type x.type = type →
      (∀ j < 8 * type.size, x.bits.getLsbD j = (decide (j < bits) && m.bit (pos + j))) →
      Collected m type pos (bits + bitSize)
        (loadPackedLoop m type fuel addr bits bitPos bitSize x) := by
  induction fuel with
  | zero => intros; omega
  | succ fuel ih =>
      intro addr bits bitPos bitSize pos x hsize hfuel hpos hbits haddr hcomb hx
      have hst : shiftType type = type := by
        rcases ht with h | h <;> rw [h] <;> cases u <;> rfl
      obtain ⟨hn, hnle, hn8, hlast⟩ := chunk_pos hpos hsize
      rw [loadPackedLoop, if_neg (by omega)]
      dsimp only
      set n := chunk bitPos bitSize with hndef
      set y := loadPiece m type addr bits bitPos n with hy
      have hyt : y.type = type := loadPiece_type m hst _ _ _ _
      have hor : (genOp .or y x).type = type := by
        rw [genOp_type, hyt]
        exact hcomb
      have hlow : ∀ j < 8 * type.size,
          (genOp .or y x).bits.getLsbD j = (decide (j < bits + n) && m.bit (pos + j)) := by
        intro j hj
        rw [getLsbD_genOp_or (by rw [hyt, hcomb]; exact hj), hx j hj, hy,
          getLsbD_loadPiece m ht hn8 hn (by omega) hj]
        by_cases hjb : j < bits
        · rw [decide_eq_true hjb, decide_eq_false (by omega : ¬bits ≤ j),
            decide_eq_true (by omega : j < bits + n)]
          simp
        · rw [decide_eq_false hjb, decide_eq_true (by omega : bits ≤ j),
            show 8 * addr + bitPos + (j - bits) = pos + j by omega]
          simp
      by_cases hdone : bitSize - n = 0
      · -- the last piece
        have hw : bits + bitSize = bits + n := by omega
        rw [hdone, hw]
        have hend : loadPackedLoop m type fuel (addr + 1) (bits + n) 0 0 (genOp .or y x)
            = genOp .or y x := by
          cases fuel <;> simp [loadPackedLoop]
        rw [hend]
        exact {
          type_eq := hor
          notConst := by rw [genOp_isConst, hy, loadPiece_isConst, Bool.false_and]
          low := hlow
          high := by
            intro j hj hj64
            rw [getLsbD_genOp_high .or (by rw [hor]; exact hj) hj64, hor] }
      · have hcomb' : combineTypes type (genOp .or y x).type = type := by
          rw [hor]
          rcases ht with h | h <;> rw [h] <;> cases u <;> rfl
        have hrest := ih (addr + 1) (bits + n) 0 (bitSize - n) pos (genOp .or y x)
          (by omega) (by omega) (by omega) (by omega)
          (by have := hlast (by omega); omega) hcomb' hlow
        rwa [show bits + n + (bitSize - n) = bits + bitSize by omega] at hrest

/-- `load_packed_bf` reads the field. -/
theorem loadPackedBf_reads (m : Memory) {type : IntType} {u : Bool}
    (ht : type = .int u ∨ type = .llong u) (addr bitPos : Nat) {bitSize : Nat} (hs : 0 < bitSize)
    (hle : bitSize ≤ 8 * type.size) :
    Memory.Reads m (8 * addr + bitPos) bitSize (!u) (loadPackedBf m type addr bitPos bitSize).bits := by
  have hun : type.unsigned = u := by rcases ht with h | h <;> rw [h] <;> rfl
  have hbits : (if type.isLlong then 64 else 32) = 8 * type.size := by
    rcases ht with h | h <;> rw [h] <;> rfl
  set zero : Value := if type.isLlong then vpushll 0#64 else vpushi 0#32 with hzero
  have hzbits : zero.bits = 0#64 := by
    rw [hzero]
    split <;> rfl
  have hzcomb : combineTypes type zero.type = type := by
    rw [hzero]
    rcases ht with h | h <;> rw [h] <;> cases u <;> rfl
  have hx := loadPackedLoop_spec m ht bitSize (addr + bitPos / 8) 0 (bitPos % 8) bitSize
    (8 * addr + bitPos) zero hs le_rfl
    (Nat.mod_lt _ (by decide)) (by omega) (by omega) hzcomb (by simp [hzbits])
  rw [Nat.zero_add] at hx
  intro j hj
  unfold loadPackedBf
  rw [← hzero, hun, hbits]
  dsimp only
  set x := loadPackedLoop m type bitSize (addr + bitPos / 8) 0 (bitPos % 8) bitSize zero
  have hxt := hx.type_eq
  have htN : 8 * type.size = 32 ∨ 8 * type.size = 64 := by
    rcases ht with h | h <;> rw [h] <;> simp [IntType.size]
  cases u with
  | true =>
      rw [if_pos rfl]
      have hlow : ∀ i < 8 * type.size, x.bits.getLsbD i
          = if i < bitSize then m.bit (8 * addr + bitPos + i) else false := by
        intro i hi
        rw [hx.low i hi]
        split <;> rename_i h <;> simp [h]
      by_cases hjN : j < 8 * type.size
      · rw [hlow j hjN]
        rfl
      · rw [hx.high j (by omega) hj, hun, if_neg (by omega)]
        rfl
  | false =>
      rw [if_neg (by simp)]
      have hpair := getLsbD_shiftPair (x := x) (by rw [hxt]; exact ht) hx.notConst (p := 0) hs
        (by rw [hxt]; omega) hj
      rw [hxt, Nat.zero_add] at hpair
      rw [hpair]
      split
      · rw [hx.low _ (by omega), decide_eq_true (by omega), Bool.true_and, Nat.zero_add]
      · rw [hx.low _ (by omega), decide_eq_true (by omega), Bool.true_and]
        congr 2
        omega

/-- Whether a field is read with its sign. -/
def Field.signed (f : Field) : Bool := !(f.type.unsigned || f.type == .bool)

/-- The first bit of a field of a structure at `base`. -/
def Field.pos (f : Field) (base : Nat) : Nat := 8 * (base + f.offset) + f.bitPos

theorem readType_cases (f : Field) (t : IntType) :
    readType f t = .int (!f.signed) ∨ readType f t = .llong (!f.signed) := by
  unfold readType Field.signed
  rw [Bool.not_not]
  dsimp only
  split
  · exact Or.inr rfl
  · exact Or.inl rfl

/-- A value is not read as a smaller one. -/
theorem size_le_readType (f : Field) {t : IntType} (ht : t ≠ .ptr) :
    t.size ≤ (readType f t).size := by
  cases t <;> first | exact absurd rfl ht | simp [readType, IntType.isLlong, IntType.size]

theorem Access.valueType_ne_ptr {f : Field} {a : Access} {t : IntType}
    (h : a.valueType f = some t) : t ≠ .ptr := by
  unfold Access.valueType at h
  split at h
  · obtain rfl := Option.some.inj h
    exact f.notPtr
  · next b _ =>
      obtain rfl := Option.some.inj h
      cases b <;> simp [BaseType.toIntType]
  · exact absurd h (by simp)

/-- **Reading a bit-field gives its bits.** -/
theorem gvBitfield_reads (m : Memory) (base : Nat) {f : Field} {a : Access} (ha : a.Sound f) :
    Memory.Reads m (f.pos base) f.bitSize f.signed (gvBitfield m base f a).bits := by
  have hbit := ha.bit
  have hpos : f.pos base = 8 * (base + a.offset) + a.bitPos := by
    unfold Field.pos
    omega
  unfold gvBitfield
  split
  · have hsize := size_le_readType f f.notPtr
    have hle := f.bitSize_le
    have hread := loadPackedBf_reads m (readType_cases f f.type) (base + a.offset) a.bitPos
      f.bitSize_pos (by omega)
    rwa [Bool.not_not, ← hpos] at hread
  · next t hvt =>
      have htp := Access.valueType_ne_ptr hvt
      have hsize := size_le_readType f htp
      have hin := ha.inside t hvt
      dsimp only
      set type := readType f t with htype
      have hcases := readType_cases f t
      rw [← htype] at hcases
      have hbits : (if type.isLlong then 64 else 32) = 8 * type.size := by
        rcases hcases with h | h <;> rw [h] <;> rfl
      have hnb : type ≠ .bool := by rcases hcases with h | h <;> rw [h] <;> simp
      set x := genCast type (loadLval m (base + a.offset) t) with hx
      have hxt : x.type = type := genCast_type _ _
      have hxc : x.isConst = false := genCast_isConst _ _
      have hlow : ∀ i < 8 * t.size, x.bits.getLsbD i = m.bit (8 * (base + a.offset) + i) := by
        intro i hi
        rw [hx, getLsbD_genCast hnb _ (by omega), getLsbD_loadLval m _ _ hi]
      intro j hj
      have hpair := getLsbD_shiftPair (x := x) (by rw [hxt]; exact hcases) hxc (p := a.bitPos)
        f.bitSize_pos (by rw [hxt]; omega) hj
      rw [hxt] at hpair
      have hs := f.bitSize_pos
      rw [hbits, hpair, Bool.not_not]
      split
      · rw [hlow _ (by omega), hpos, Nat.add_assoc]
      · rw [hlow _ (by omega), hpos]
        congr 2
        omega

/-! ## Writing byte by byte -/

theorem getLsbD_maskComplement {n p j : Nat} (hj : j < 8) :
    let mask : BitVec 32 := BitVec.ofNat 32 (1 <<< n - 1) <<< p
    (if mask &&& 0x80#32 ≠ 0#32 then ~~~mask &&& 0x7f#32 else ~~~mask).getLsbD j
      = !(decide (p ≤ j) && decide (j < p + n)) := by
  intro mask
  have hmask : ∀ i < 32, mask.getLsbD i = (decide (p ≤ i) && decide (i < p + n)) :=
    fun i hi => getLsbD_mask hi
  split
  · next h80 =>
      -- bit 7 is in the mask already
      have h7 : mask.getLsbD 7 = true := by
        by_contra hfalse
        apply h80
        apply BitVec.eq_of_getLsbD_eq
        intro i hi
        rw [BitVec.getLsbD_and]
        interval_cases i <;> simp_all
      rw [BitVec.getLsbD_and, BitVec.getLsbD_not, decide_eq_true (by omega : j < 32), Bool.true_and,
        hmask j (by omega)]
      by_cases h : j = 7
      · have h' := hmask 7 (by decide)
        rw [h, ← h', h7]
        rfl
      · have hj7 : (0x7f#32).getLsbD j = true := by
          interval_cases j <;> first | rfl | exact absurd rfl h
        rw [hj7, Bool.and_true]
  · rw [BitVec.getLsbD_not, decide_eq_true (by omega : j < 32), Bool.true_and, hmask j (by omega)]

/-- The byte stored in one round. -/
theorem getLsbD_storePiece (m : Memory) {x : Value} {addr bits bitPos n : Nat}
    (hpos : bitPos + n ≤ 8) (hn : 0 < n) (hbits : bits + n ≤ 8 * (shiftType x.type).size) {j : Nat}
    (hj : j < 8) :
    (storePiece m x addr bits bitPos n).bits.getLsbD j
      = if bitPos ≤ j ∧ j < bitPos + n then x.bits.getLsbD (bits + (j - bitPos))
        else m.bit (8 * addr + j) := by
  have hsz : ∀ t, 4 ≤ (shiftType t).size := by
    intro t
    unfold shiftType
    split <;> simp [IntType.size]
  have hcs : ∀ t1 t2, j < 8 * (combineTypes t1 t2).size := by
    intro t1 t2
    have h4 : 4 ≤ (combineTypes t1 t2).size := by
      unfold combineTypes
      split <;> simp [IntType.size]
    omega
  have hshifted : ∀ i < n, (if bits ≠ 0 then genOp .shr x (vpushNat bits) else x).bits.getLsbD i
      = x.bits.getLsbD (bits + i) := by
    intro i hi
    split
    · rw [getLsbD_genOp_shr (by omega), Nat.add_comm]
    · next h0 => rw [not_not.mp h0, Nat.zero_add]
  unfold storePiece
  dsimp only
  generalize (if bits ≠ 0 then _ else _ : Value) = v at *
  have hplaced : ∀ i, bitPos ≤ i → i < bitPos + n →
      (if bitPos ≠ 0 then genOp .shl v (vpushNat bitPos) else v).bits.getLsbD i
        = x.bits.getLsbD (bits + (i - bitPos)) := by
    intro i hp hi
    have hs := hsz v.type
    split
    · rw [getLsbD_genOp_shl (by omega) (by omega), decide_eq_true hp, Bool.true_and,
        hshifted _ (by omega)]
    · next h0 =>
        rw [hshifted _ (by omega), not_not.mp h0, Nat.sub_zero]
  generalize (if bitPos ≠ 0 then _ else _ : Value) = v at *
  split
  · have hand : (genOp .and v (vpushi (BitVec.ofNat 32 (1 <<< n - 1) <<< bitPos))).bits.getLsbD j
        = (v.bits.getLsbD j && (decide (bitPos ≤ j) && decide (j < bitPos + n))) := by
      rw [getLsbD_genOp_and (hcs _ _),
        getLsbD_vpushi _ (by omega), if_pos (by omega), getLsbD_mask (by omega)]
    rw [getLsbD_genOp_or (hcs _ _), hand, getLsbD_genOp_and (hcs _ _), getLsbD_loadByte m addr (by omega), decide_eq_true hj, Bool.true_and,
      getLsbD_vpushi _ (by omega), if_pos (by omega), getLsbD_maskComplement hj]
    by_cases h : bitPos ≤ j ∧ j < bitPos + n
    · rw [if_pos h, ← hplaced j h.1 h.2, decide_eq_true h.1, decide_eq_true h.2]
      simp
    · have hfalse : (decide (bitPos ≤ j) && decide (j < bitPos + n)) = false := by
        rw [← Bool.decide_and]
        exact decide_eq_false h
      rw [if_neg h, hfalse]
      simp
  · rw [if_pos (by omega), hplaced j (by omega) (by omega)]

/-- A byte changed in part is a write of that part. -/
theorem wrote_byte {m m' : Memory} {addr bitPos n : Nat} {v : BitVec 64} (hpos : bitPos + n ≤ 8)
    (hother : ∀ a, a ≠ addr → m' a = m a)
    (hbyte : ∀ j < 8, (m' addr).getLsbD j
      = if bitPos ≤ j ∧ j < bitPos + n then v.getLsbD (j - bitPos) else m.bit (8 * addr + j)) :
    Memory.Wrote m m' (8 * addr + bitPos) n v := by
  intro i
  by_cases ha : i / 8 = addr
  · have hbit : m'.bit i = (m' addr).getLsbD (i % 8) := by rw [Memory.bit, ha]
    rw [hbit, hbyte _ (by omega)]
    by_cases h : bitPos ≤ i % 8 ∧ i % 8 < bitPos + n
    · rw [if_pos h, if_pos (by omega)]
      congr 1
      omega
    · rw [if_neg h, if_neg (by omega)]
      congr 1
      omega
  · rw [if_neg (by omega), Memory.bit, Memory.bit, hother _ ha]

theorem storePackedLoop_wrote (x : Value) (fuel : Nat) :
    ∀ (m : Memory) (addr bits bitPos bitSize : Nat), bitSize ≤ fuel → bitPos < 8 →
      bits + bitSize ≤ 8 * (shiftType x.type).size →
      Memory.Wrote m (storePackedLoop x fuel addr bits bitPos bitSize m) (8 * addr + bitPos) bitSize
        (x.bits >>> bits) := by
  induction fuel with
  | zero =>
      intro m addr bits bitPos bitSize hfuel _ _
      obtain rfl : bitSize = 0 := by omega
      exact Memory.Wrote.nil _ _ _
  | succ fuel ih =>
      intro m addr bits bitPos bitSize hfuel hpos hbits
      rw [storePackedLoop]
      by_cases h0 : bitSize = 0
      · rw [if_pos h0, h0]
        exact Memory.Wrote.nil _ _ _
      · obtain ⟨hn, hnle, hn8, hlast⟩ := chunk_pos hpos (by omega : 0 < bitSize)
        rw [if_neg h0]
        dsimp only
        set n := chunk bitPos bitSize
        set m1 := storeLval m addr (.byte true) (storePiece m x addr bits bitPos n) with hm1
        have hpiece : Memory.Wrote m m1 (8 * addr + bitPos) n (x.bits >>> bits) := by
          apply wrote_byte hn8
          · intro a ha
            rw [hm1, storeLval, Memory.store, if_neg]
            show ¬(addr ≤ a ∧ a < addr + 1)
            omega
          · intro j hj
            have hstore : (m1 addr).getLsbD j
                = (storePiece m x addr bits bitPos n).bits.getLsbD j := by
              have hb := Memory.bit_store m addr 1 ((storePiece m x addr bits bitPos n).bits.setWidth 8)
                (8 * addr + j)
              rw [if_pos (by omega), Nat.add_sub_cancel_left, BitVec.getLsbD_setWidth,
                decide_eq_true (by omega : j < 8), Bool.true_and] at hb
              rw [Memory.getLsbD_byte, decide_eq_true hj, Bool.true_and]
              exact hb
            rw [hstore, getLsbD_storePiece m hn8 hn (by omega) hj]
            simp only [BitVec.getLsbD_ushiftRight]
        by_cases hdone : bitSize - n = 0
        · have hend : storePackedLoop x fuel (addr + 1) (bits + n) 0 (bitSize - n) m1 = m1 := by
            rw [hdone]
            cases fuel <;> simp [storePackedLoop]
          rw [hend, show bitSize = n by omega]
          exact hpiece
        · have hrest := ih m1 (addr + 1) (bits + n) 0 (bitSize - n) (by omega) (by omega) (by omega)
          have hnext : 8 * (addr + 1) + 0 = 8 * addr + bitPos + n := by
            have := hlast (by omega)
            omega
          rw [hnext, BitVec.shiftRight_add] at hrest
          have happ := hpiece.append hrest
          rwa [show n + (bitSize - n) = bitSize by omega] at happ

/-! ## Writing an initialiser -/

theorem initPutvLoop_wrote (val : BitVec 64) (fuel : Nat) :
    ∀ (m : Memory) (p bits bitPos bitSize : Nat), bitSize ≤ fuel → bitPos < 8 →
      Memory.Wrote m (initPutvLoop val fuel p bits bitPos bitSize m) (8 * p + bitPos) bitSize
        (val >>> bits) := by
  induction fuel with
  | zero =>
      intro m p bits bitPos bitSize hfuel _
      obtain rfl : bitSize = 0 := by omega
      exact Memory.Wrote.nil _ _ _
  | succ fuel ih =>
      intro m p bits bitPos bitSize hfuel hpos
      rw [initPutvLoop]
      by_cases h0 : bitSize = 0
      · rw [if_pos h0, h0]
        exact Memory.Wrote.nil _ _ _
      · obtain ⟨hn, hnle, hn8, hlast⟩ := chunk_pos hpos (by omega : 0 < bitSize)
        rw [if_neg h0]
        dsimp only
        set n := chunk bitPos bitSize
        set mask : BitVec 8 := (BitVec.ofNat 32 (1 <<< n - 1) <<< bitPos).setWidth 8 with hmask
        set m1 := Function.update m p
          ((m p &&& ~~~mask) ||| ((val >>> bits <<< bitPos).setWidth 8 &&& mask)) with hm1
        have hmaskbit : ∀ j < 8, mask.getLsbD j
            = (decide (bitPos ≤ j) && decide (j < bitPos + n)) := by
          intro j hj
          rw [hmask, BitVec.getLsbD_setWidth, getLsbD_mask (by omega), decide_eq_true hj,
            Bool.true_and]
        have hpiece : Memory.Wrote m m1 (8 * p + bitPos) n (val >>> bits) := by
          apply wrote_byte hn8
          · intro a ha
            rw [hm1, Function.update_of_ne ha]
          · intro j hj
            rw [hm1, Function.update_self, BitVec.getLsbD_or, BitVec.getLsbD_and,
              BitVec.getLsbD_not, BitVec.getLsbD_and, hmaskbit j hj, BitVec.getLsbD_setWidth,
              BitVec.getLsbD_shiftLeft, Memory.getLsbD_byte, decide_eq_true hj,
              decide_eq_true (by omega : j < 64)]
            by_cases h : bitPos ≤ j ∧ j < bitPos + n
            · rw [if_pos h, decide_eq_true h.1, decide_eq_true h.2,
                decide_eq_false (by omega : ¬j < bitPos)]
              simp
            · have hfalse : (decide (bitPos ≤ j) && decide (j < bitPos + n)) = false := by
                rw [← Bool.decide_and]
                exact decide_eq_false h
              rw [if_neg h, hfalse]
              simp
        by_cases hdone : bitSize - n = 0
        · have hend : initPutvLoop val fuel (p + 1) (bits + n) 0 (bitSize - n) m1 = m1 := by
            rw [hdone]
            cases fuel <;> simp [initPutvLoop]
          rw [hend, show bitSize = n by omega]
          exact hpiece
        · have hrest := ih m1 (p + 1) (bits + n) 0 (bitSize - n) (by omega) (by omega)
          have hnext : 8 * (p + 1) + 0 = 8 * p + bitPos + n := by
            have := hlast (by omega)
            omega
          rw [hnext, BitVec.shiftRight_add] at hrest
          have happ := hpiece.append hrest
          rwa [show n + (bitSize - n) = bitSize by omega] at happ

/-- **An initialiser writes the bits of the field.** -/
theorem initPutvBitfield_wrote (m : Memory) (base : Nat) {f : Field} {a : Access} (ha : a.Sound f)
    (v : Value) :
    Memory.Wrote m (initPutvBitfield m base f a v) (f.pos base) f.bitSize
      (genCast f.type v).bits := by
  have hbit := ha.bit
  have hw := initPutvLoop_wrote (genCast f.type v).bits f.bitSize m
    (base + a.offset + a.bitPos / 8) 0 (a.bitPos % 8) f.bitSize le_rfl
    (Nat.mod_lt _ (by decide))
  have hpos : 8 * (base + a.offset + a.bitPos / 8) + a.bitPos % 8 = f.pos base := by
    unfold Field.pos
    omega
  rw [hpos, BitVec.ushiftRight_zero] at hw
  exact hw

/-! ## Writing by mask -/

/-- A truth value is 0 or 1. -/
def Value.Valid (v : Value) : Prop := v.type = .bool → v.bits = 0#64 ∨ v.bits = 1#64

theorem genCast_bool_bits {v : Value} (hv : v.Valid) :
    (genCast .bool v).bits = 0#64 ∨ (genCast .bool v).bits = 1#64 := by
  unfold genCast
  split
  · next h => exact hv h
  · dsimp only
    split
    · exact Or.inl rfl
    · exact Or.inr rfl

theorem getLsbD_mask64 {n p j : Nat} (hn : n < 64) (hj : j < 64) :
    ((1#64 <<< n - 1#64) <<< p).getLsbD j = (decide (p ≤ j) && decide (j < p + n)) := by
  have h : (1#64 <<< n - 1#64 : BitVec 64) = BitVec.ofNat 64 (1 <<< n - 1) := by
    have hlt := Nat.pow_lt_pow_right (show 1 < 2 by decide) hn
    have hpos := Nat.two_pow_pos n
    apply BitVec.eq_of_toNat_eq
    rw [BitVec.toNat_sub, BitVec.toNat_shiftLeft, BitVec.toNat_ofNat, BitVec.toNat_ofNat,
      Nat.one_mod_two_pow (by decide : 0 < 64), Nat.one_shiftLeft]
    generalize 2 ^ n = k at *
    omega
  rw [h, getLsbD_mask hj]

theorem size_le_combineTypes {t1 t2 : IntType} (h1 : t1 ≠ .ptr) (h2 : t2 ≠ .ptr) :
    t1.size ≤ (combineTypes t1 t2).size ∧ t2.size ≤ (combineTypes t1 t2).size := by
  cases t1 <;> cases t2 <;>
    first
    | exact absurd rfl h1
    | exact absurd rfl h2
    | simp [combineTypes, IntType.isLlong, IntType.size]

theorem combineTypes_ne_ptr (t1 t2 : IntType) : combineTypes t1 t2 ≠ .ptr := by
  unfold combineTypes
  split <;> simp

theorem size_le_shiftType {t : IntType} (h : t ≠ .ptr) : t.size ≤ (shiftType t).size := by
  cases t <;> first | exact absurd rfl h | simp [shiftType, IntType.isLlong, IntType.size]

theorem size_le_four {t : IntType} (h : t ≠ .ptr) (hl : t.isLlong = false) : t.size ≤ 4 := by
  cases t <;> simp_all [IntType.size, IntType.isLlong]

/-- What a read-modify-write stores, where the destination mask is as wide as the value. -/
theorem storeMasked_wrote (m : Memory) {f : Field} {t : IntType} (addr : Nat) {bitPos : Nat} {v : Value}
    (hin : bitPos + f.bitSize ≤ 8 * t.size) (htp : t ≠ .ptr)
    (hwide : ¬(f.type = .bool ∧ t.isLlong = true)) (hvt : f.type ≠ .bool → v.type = t)
    (hv : f.type = .bool → v.type = .bool ∧ (v.bits = 0#64 ∨ v.bits = 1#64)) :
    Memory.Wrote m (storeMasked m f t addr bitPos v) (8 * addr + bitPos) f.bitSize v.bits := by
  have hs := f.bitSize_pos
  have hn := f.bitSize_lt
  have htle := IntType.size_le t
  have hnarrow : ¬(f.type ≠ .bool ∧ t.isLlong = true) → t.size ≤ 4 := by
    intro h
    apply size_le_four htp
    rw [← Bool.not_eq_true]
    intro hl
    by_cases hb : f.type = .bool
    · exact hwide ⟨hb, hl⟩
    · exact h ⟨hb, hl⟩
  unfold storeMasked
  dsimp only
  -- the masks, as far as the value goes
  have hsrcMask : ∀ j < 8 * t.size,
      (if f.type ≠ .bool ∧ t.isLlong = true then vpushll (1#64 <<< f.bitSize - 1#64)
        else vpushi ((1#64 <<< f.bitSize - 1#64).setWidth 32)).bits.getLsbD j
        = decide (j < f.bitSize) := by
    intro j hj
    have h := getLsbD_mask64 (n := f.bitSize) (p := 0) hn (by omega : j < 64)
    rw [BitVec.shiftLeft_zero, Nat.zero_add, decide_eq_true (Nat.zero_le j), Bool.true_and] at h
    split
    · exact h
    · next hc =>
        have := hnarrow hc
        rw [getLsbD_vpushi _ (by omega), if_pos (by omega), BitVec.getLsbD_setWidth, h,
          decide_eq_true (by omega : j < 32), Bool.true_and]
  have hdstMask : ∀ j < 8 * t.size,
      (if f.type ≠ .bool ∧ t.isLlong = true then
          vpushll (~~~((1#64 <<< f.bitSize - 1#64) <<< bitPos))
        else vpushi (~~~((1#64 <<< f.bitSize - 1#64).setWidth 32 <<< bitPos))).bits.getLsbD j
        = !(decide (bitPos ≤ j) && decide (j < bitPos + f.bitSize)) := by
    intro j hj
    have h := getLsbD_mask64 (n := f.bitSize) (p := bitPos) hn (by omega : j < 64)
    split
    · rw [vpushll, BitVec.getLsbD_not, h, decide_eq_true (by omega : j < 64), Bool.true_and]
    · next hc =>
        have := hnarrow hc
        rw [getLsbD_vpushi _ (by omega), if_pos (by omega), BitVec.getLsbD_not,
          BitVec.getLsbD_shiftLeft, BitVec.getLsbD_setWidth, decide_eq_true (by omega : j < 32),
          decide_eq_true (by omega : j - bitPos < 32), Bool.true_and, Bool.true_and, Bool.true_and,
          ← h, BitVec.getLsbD_shiftLeft, decide_eq_true (by omega : j < 64), Bool.true_and]
  have hmaskType : ∀ x y, (if f.type ≠ .bool ∧ t.isLlong = true then vpushll x
      else vpushi y).type ≠ .ptr := by
    intro x y
    split <;> simp [vpushll, vpushi]
  have hsrcType := hmaskType (1#64 <<< f.bitSize - 1#64) ((1#64 <<< f.bitSize - 1#64).setWidth 32)
  have hdstType := hmaskType (~~~((1#64 <<< f.bitSize - 1#64) <<< bitPos))
    (~~~((1#64 <<< f.bitSize - 1#64).setWidth 32 <<< bitPos))
  generalize (if f.type ≠ .bool ∧ t.isLlong = true then vpushll (1#64 <<< f.bitSize - 1#64)
    else _ : Value) = srcMask at *
  generalize (if f.type ≠ .bool ∧ t.isLlong = true then
    vpushll (~~~((1#64 <<< f.bitSize - 1#64) <<< bitPos)) else _ : Value) = dstMask at *
  -- the masked source
  obtain ⟨hsrc, hsrcSize, hsrcPtr⟩ : (∀ i < 8 * t.size,
      (if f.type = .bool then v else genOp .and v srcMask).bits.getLsbD i
        = (decide (i < f.bitSize) && v.bits.getLsbD i)) ∧
      t.size ≤ (shiftType (if f.type = .bool then v else genOp .and v srcMask).type).size ∧
      (if f.type = .bool then v else genOp .and v srcMask).type ≠ .ptr := by
    by_cases hb : f.type = .bool
    · obtain ⟨hvb, hbits⟩ := hv hb
      rw [if_pos hb]
      refine ⟨?_, ?_, by rw [hvb]; simp⟩
      · intro i hi
        by_cases hif : i < f.bitSize
        · rw [decide_eq_true hif, Bool.true_and]
        · rw [decide_eq_false hif, Bool.false_and]
          rcases hbits with h | h <;> rw [h]
          · exact BitVec.getLsbD_zero
          · rw [BitVec.getLsbD_one]
            exact Bool.and_eq_false_iff.mpr (Or.inr (decide_eq_false (by omega)))
      · rw [hvb]
        exact hnarrow fun h => h.1 hb
    · have hvt := hvt hb
      have hc := (size_le_combineTypes htp hsrcType).1
      rw [if_neg hb]
      refine ⟨?_, ?_, ?_⟩
      · intro i hi
        rw [getLsbD_genOp_and (by rw [hvt]; omega), hsrcMask i hi, Bool.and_comm]
      · have hsh := size_le_shiftType (combineTypes_ne_ptr t srcMask.type)
        rw [genOp_type, hvt]
        show t.size ≤ (shiftType (combineTypes t srcMask.type)).size
        omega
      · rw [genOp_type, hvt]
        exact combineTypes_ne_ptr _ _
  generalize (if f.type = .bool then v else _ : Value) = s at *
  -- the masked destination
  have hdst : ∀ i < 8 * t.size, (genOp .and (loadLval m addr t) dstMask).bits.getLsbD i
      = (m.bit (8 * addr + i) && !(decide (bitPos ≤ i) && decide (i < bitPos + f.bitSize))) := by
    intro i hi
    have hc := (size_le_combineTypes htp hdstType).1
    rw [getLsbD_genOp_and (by show i < 8 * (combineTypes t dstMask.type).size; omega),
      getLsbD_loadLval m _ _ hi, hdstMask i hi]
  have hdt : t.size ≤ (genOp .and (loadLval m addr t) dstMask).type.size :=
    (size_le_combineTypes htp hdstType).1
  have hdp : (genOp .and (loadLval m addr t) dstMask).type ≠ .ptr := combineTypes_ne_ptr _ _
  generalize genOp .and (loadLval m addr t) dstMask = d at *
  have hst : (genOp .shl s (vpushNat bitPos)).type = shiftType s.type := rfl
  have hsp : shiftType s.type ≠ .ptr := by
    unfold shiftType
    split <;> simp
  intro i
  rw [storeLval, Memory.bit_store]
  by_cases hrange : 8 * addr ≤ i ∧ i < 8 * (addr + t.size)
  · have hc := (size_le_combineTypes hsp hdp).2
    have hi : i - 8 * addr < 8 * t.size := by omega
    rw [if_pos hrange, BitVec.getLsbD_setWidth, decide_eq_true hi, Bool.true_and,
      getLsbD_genOp_or (by rw [hst]; omega), getLsbD_genOp_shl (by omega) (by omega), hdst _ hi,
      show 8 * addr + (i - 8 * addr) = i by omega]
    by_cases h : bitPos ≤ i - 8 * addr ∧ i - 8 * addr < bitPos + f.bitSize
    · rw [if_pos (by omega), decide_eq_true h.1, decide_eq_true h.2, hsrc _ (by omega),
        decide_eq_true (by omega : i - 8 * addr - bitPos < f.bitSize),
        show i - 8 * addr - bitPos = i - (8 * addr + bitPos) by omega]
      simp
    · rw [if_neg (by omega), ← Bool.decide_and, decide_eq_false h]
      by_cases hp : bitPos ≤ i - 8 * addr
      · rw [hsrc _ (by omega), decide_eq_false (by omega : ¬i - 8 * addr - bitPos < f.bitSize)]
        simp
      · rw [decide_eq_false hp]
        simp
  · rw [if_neg hrange, if_neg (by omega)]

/-! ## The two together -/

/-- The value that is put into a field: a truth value for a `_Bool`. -/
def Field.stored (f : Field) (v : Value) : BitVec 64 :=
  if f.type = .bool then (if v.bits = 0#64 then 0#64 else 1#64) else v.bits

/-- The low bits of the value, cast to whatever type is accessed. -/
theorem getLsbD_genCast_stored {f : Field} {t : IntType} {v : Value} (hv : v.Valid)
    (ht : f.type ≠ .bool → t ≠ .bool) {j : Nat} (hj : j < 8 * t.size) :
    (genCast (if f.type = .bool then .bool else t) v).bits.getLsbD j = (f.stored v).getLsbD j := by
  unfold Field.stored
  by_cases hb : f.type = .bool
  · rw [if_pos hb, if_pos hb]
    unfold genCast
    split
    · next h => rcases hv h with h | h <;> rw [h] <;> rfl
    · rfl
  · rw [if_neg hb, if_neg hb, getLsbD_genCast (ht hb) v hj]

theorem genCast_own {f : Field} (v : Value) :
    genCast f.type v = genCast (if f.type = .bool then .bool else f.type) v := by
  split
  · next h => rw [h]
  · rfl

theorem writeType_spec (f : Field) {t : IntType} (h : t ≠ .ptr) :
    (writeType f t).size = t.size ∧ (writeType f t).isLlong = t.isLlong ∧
      writeType f t ≠ .ptr ∧ (f.type ≠ .bool → writeType f t = t) := by
  unfold writeType
  split
  · next hb => cases t <;> simp_all [IntType.size, IntType.isLlong]
  · exact ⟨rfl, rfl, h, fun _ => rfl⟩

theorem Access.valueType_bool {f : Field} {a : Access} {t : IntType} (h : a.valueType f = some t)
    (hb : f.type ≠ .bool) : t ≠ .bool := by
  unfold Access.valueType at h
  split at h
  · obtain rfl := Option.some.inj h
    exact hb
  · next b _ =>
      obtain rfl := Option.some.inj h
      cases b <;> simp [BaseType.toIntType]
  · exact absurd h (by simp)

theorem Access.valueType_isLlong {f : Field} {a : Access} {t : IntType}
    (h : a.valueType f = some t) (hb : f.type = .bool) (hl : t.isLlong = true) :
    a.aux = .base .llong := by
  unfold Access.valueType at h
  split at h
  · obtain rfl := Option.some.inj h
    rw [hb] at hl
    exact absurd hl (by decide)
  · next b haux =>
      obtain rfl := Option.some.inj h
      rw [haux]
      cases b <;> first | rfl | exact absurd hl (by simp [BaseType.toIntType, IntType.isLlong])
  · exact absurd h (by simp)

/-- **A store writes the bits of the field, unless a truth value is stored by a 64-bit access.** -/
theorem vstoreBitfield_wrote (m : Memory) (base : Nat) {f : Field} {a : Access} (ha : a.Sound f)
    (hll : ¬(f.type = .bool ∧ a.aux = .base .llong)) {v : Value} (hv : v.Valid) :
    Memory.Wrote m (vstoreBitfield m base f a v) (f.pos base) f.bitSize (f.stored v) := by
  have hbit := ha.bit
  have hs := f.bitSize_pos
  have hsize := f.bitSize_le
  have hpos : f.pos base = 8 * (base + a.offset) + a.bitPos := by
    unfold Field.pos
    omega
  unfold vstoreBitfield
  split
  · have hx : storedValue f f.type v = genCast f.type v := (genCast_own v).symm
    have hsh := size_le_shiftType f.notPtr
    have hw := storePackedLoop_wrote (storedValue f f.type v) f.bitSize m
      (base + a.offset + a.bitPos / 8) 0 (a.bitPos % 8) f.bitSize le_rfl (Nat.mod_lt _ (by decide)) (by rw [hx, genCast_type]; omega)
    have haddr : 8 * (base + a.offset + a.bitPos / 8) + a.bitPos % 8 = f.pos base := by omega
    rw [haddr, BitVec.ushiftRight_zero] at hw
    apply hw.congr
    intro j hj
    exact getLsbD_genCast_stored hv id (by omega)
  · next t hvt =>
      have htp := Access.valueType_ne_ptr hvt
      have hin := ha.inside t hvt
      obtain ⟨hwsize, hwll, hwp, hwt⟩ := writeType_spec f htp
      have hw := storeMasked_wrote m (base + a.offset) (v := storedValue f (writeType f t) v)
        (show a.bitPos + f.bitSize ≤ 8 * (writeType f t).size by omega) hwp
        (by
          rintro ⟨hb, hl⟩
          exact hll ⟨hb, Access.valueType_isLlong hvt hb (by rw [← hwll]; exact hl)⟩)
        (by
          intro hb
          rw [storedValue, if_neg hb, genCast_type])
        (by
          intro hb
          rw [storedValue, if_pos hb]
          exact ⟨genCast_type _ _, genCast_bool_bits hv⟩)
      rw [hpos]
      apply hw.congr
      intro j hj
      apply getLsbD_genCast_stored hv
      · intro hb
        rw [hwt hb]
        exact Access.valueType_bool hvt hb
      · omega

/-- What is promised of a bit-field, for every content of memory, every place of the structure and
every value stored: the field is read back as the value truncated to its width, with the sign of its
type; no other bit of memory changes; and an initialiser leaves the same bytes. -/
def BitfieldCorrect (f : Field) (a : Access) : Prop :=
  ∀ (m : Memory) (base : Nat) (v : Value), v.Valid →
    (gvBitfield (vstoreBitfield m base f a v) base f a).bits
        = Memory.truncBits f.bitSize f.signed (f.stored v) ∧
      (∀ i, ¬(f.pos base ≤ i ∧ i < f.pos base + f.bitSize) →
        (vstoreBitfield m base f a v).bit i = m.bit i) ∧
      (v.isConst = true → initPutvBitfield m base f a v = vstoreBitfield m base f a v)

theorem bitfieldCorrect_of {f : Field} {a : Access} (ha : a.Sound f)
    (hll : ¬(f.type = .bool ∧ a.aux = .base .llong)) : BitfieldCorrect f a := by
  intro m base v hv
  have hw := vstoreBitfield_wrote m base ha hll hv
  refine ⟨?_, ?_, ?_⟩
  · exact hw.reads f.bitSize_pos (gvBitfield_reads _ base ha)
  · intro i hi
    rw [hw i, if_neg hi]
  · intro _
    have hsize := f.bitSize_le
    have hinit : Memory.Wrote m (initPutvBitfield m base f a v) (f.pos base) f.bitSize
        (f.stored v) := by
      apply (initPutvBitfield_wrote m base ha v).congr
      intro j hj
      rw [genCast_own]
      exact getLsbD_genCast_stored hv id (by omega)
    exact hinit.unique hw

/-- The mask of 32 bits, extended to 64, has no upper half left where the field holds bit 31: a
    store of 0 into memory full of ones clears bit 63 of what is accessed. -/
theorem vstoreBitfield_clears {f : Field} {a : Access} (ha : a.Sound f) (hb : f.type = .bool)
    (haux : a.aux = .base .llong) :
    (vstoreBitfield (fun _ => 0xff#8) 0 f a ⟨.int false, true, 0#64⟩).bit (8 * a.offset + 63)
      = false := by
  obtain ⟨hlow, hhigh⟩ := ha.llong haux
  have hun : (BaseType.llong.toIntType f.type.unsigned) = .llong false := by rw [hb]; rfl
  have hvt : a.valueType f = some (.llong false) := by
    rw [Access.valueType, haux]
    exact congrArg some hun
  have hwt : writeType f (.llong false) = .llong true := by
    rw [writeType, if_pos hb]
  have hsv : storedValue f (.llong true) ⟨.int false, true, 0#64⟩ = ⟨.bool, true, 0#64⟩ := by
    rw [storedValue, if_pos hb]
    rfl
  have hst : vstoreBitfield (fun _ => 0xff#8) 0 f a ⟨.int false, true, 0#64⟩
      = storeMasked (fun _ => 0xff#8) f (.llong true) a.offset a.bitPos ⟨.bool, true, 0#64⟩ := by
    unfold vstoreBitfield
    rw [hvt]
    dsimp only
    rw [hwt, hsv, Nat.zero_add]
  rw [hst]
  unfold storeMasked
  dsimp only
  rw [if_pos hb, if_neg (fun h => h.1 hb), storeLval, Memory.bit_store,
    if_pos (by simp only [IntType.size]; omega), BitVec.getLsbD_setWidth, Nat.add_sub_cancel_left,
    decide_eq_true (by simp [IntType.size]), Bool.true_and]
  have hsize : 8 * (combineTypes (IntType.llong true) (.int false)).size = 64 := rfl
  have hzero : (genOp .shl ⟨.bool, true, 0#64⟩ (vpushNat a.bitPos)).bits.getLsbD 63 = false := by
    have ht : (genOp .shl ⟨.bool, true, 0#64⟩ (vpushNat a.bitPos)).type = .int false := rfl
    rw [getLsbD_genOp_high .shl (by rw [ht]; decide) (by decide), ht,
      show 8 * (IntType.int false).size - 1 = 31 from rfl,
      getLsbD_genOp_shl (by show a.bitPos < 32; omega) (by decide)]
    simp
  have hmask : (vpushi (~~~((1#64 <<< f.bitSize - 1#64).setWidth 32 <<< a.bitPos))).bits.getLsbD 63
      = false := by
    have h := getLsbD_mask64 (n := f.bitSize) (p := a.bitPos) f.bitSize_lt (by decide : 31 < 64)
    rw [BitVec.getLsbD_shiftLeft, decide_eq_true (by decide : 31 < 64), Bool.true_and] at h
    rw [getLsbD_vpushi _ (by decide), if_neg (by decide), BitVec.getLsbD_not,
      BitVec.getLsbD_shiftLeft, BitVec.getLsbD_setWidth, decide_eq_true (by decide : 31 < 32),
      decide_eq_true (by omega : 31 - a.bitPos < 32), Bool.true_and, Bool.true_and, Bool.true_and,
      h, decide_eq_true (by omega : a.bitPos ≤ 31), decide_eq_true (by omega)]
    rfl
  have hand : (genOp .and (loadLval (fun _ => 0xff#8) a.offset (.llong true))
      (vpushi (~~~((1#64 <<< f.bitSize - 1#64).setWidth 32 <<< a.bitPos)))).bits.getLsbD 63
        = false := by
    rw [getLsbD_genOp_and (by show 63 < 64; decide), hmask, Bool.and_false]
  rw [getLsbD_genOp_or (by show 63 < 64; decide), hzero, hand]
  rfl

/-- **Every access to a bit-field that `struct_layout` chooses keeps these promises, but for a truth
value accessed as 64 bits.** -/
theorem bitfieldCorrect_iff (c : Nat) (f : Field) :
    ∃ a, checkAccess c f = some a ∧
      (BitfieldCorrect f a ↔ ¬(f.type = .bool ∧ a.aux = .base .llong)) := by
  obtain ⟨a, hca, ha⟩ := checkAccess_sound c f
  refine ⟨a, hca, ?_, bitfieldCorrect_of ha⟩
  rintro hcorrect ⟨hb, haux⟩
  have hbit := ha.bit
  have hsize := f.bitSize_le
  rw [hb, IntType.size] at hsize
  obtain ⟨hlow, _⟩ := ha.llong haux
  obtain ⟨-, hframe, -⟩ := hcorrect (fun _ => 0xff#8) 0 ⟨.int false, true, 0#64⟩
    (fun h => absurd h (by decide))
  have h63 := hframe (8 * a.offset + 63) (by unfold Field.pos; omega)
  rw [vstoreBitfield_clears ha hb haux] at h63
  have hone : Memory.bit (fun _ => 0xff#8) (8 * a.offset + 63) = true := by
    unfold Memory.bit
    have : (8 * a.offset + 63) % 8 = 7 := by omega
    rw [this]
    show (0xff#8).getLsbD 7 = true
    decide
  rw [hone] at h63
  exact absurd h63 (by decide)

/-- The field `b` of a packed `struct { int a:30; _Bool b:5; int c:29; }`. -/
def packedBool : Field where
  type := .bool
  bitSize := 5
  bitPos := 6
  offset := 3
  notPtr := by decide
  bitSize_pos := by decide
  bitSize_le := by decide
  bitSize_lt := by decide
  bitPos_lt := by decide

/-- `s.b = 0` clears `s.c`. -/
theorem packedBool_not_correct :
    ∃ a, checkAccess 8 packedBool = some a ∧ ¬BitfieldCorrect packedBool a := by
  refine ⟨⟨0, 30, .base .llong⟩, by decide, fun h => ?_⟩
  have hframe := (h (fun _ => 0xff#8) 0 ⟨.int false, true, 0#64⟩ (fun h => absurd h (by decide))).2.1
    63 (by decide)
  exact absurd hframe (by decide +kernel)

end TccRiscv64.Bitfield
