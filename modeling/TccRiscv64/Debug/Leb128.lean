import Mathlib.Data.BitVec
import Mathlib.Order.Nat
import Mathlib.Tactic.Ring

set_option autoImplicit false

/-! # LEB128

The numbers of variable length in the debug information, as `tccdbg.c` writes them and as the
backtrace of `tccrun.c` reads them. -/

namespace TccRiscv64.Debug

/-! ## Where the bytes go -/

/-- `dwarf_data1`: a byte at the end of a section. -/
def dwarfData1 (data : List (BitVec 8)) (byte : BitVec 8) : List (BitVec 8) := data ++ [byte]

/-- The `line_data` of `dwarf_line`, its first `line_size` bytes. -/
structure LineData where
  data : List (BitVec 8)
  maxSize : ℕ
  fits : data.length ≤ maxSize

/-- `dwarf_line_op` -/
def dwarfLineOp (line : LineData) (op : BitVec 8) : LineData where
  data := line.data ++ [op]
  maxSize := if line.data.length ≥ line.maxSize then line.maxSize + 1024 else line.maxSize
  fits := by
    have h := line.fits
    rw [List.length_append, List.length_singleton]
    split <;> omega

/-! ## Writing -/

/-- The bit that says that another byte follows. -/
def moreBit (more : Bool) : BitVec 8 := if more then 0x80#8 else 0#8

/-- The loop of `dwarf_uleb128` and `dwarf_uleb128_op`. -/
def uleb128Loop {σ : Type} (emit : σ → BitVec 8 → σ) (out : σ) (value : BitVec 64) : σ :=
  let byte := value.setWidth 8 &&& 0x7f#8
  let value' := value >>> 7
  let out := emit out (byte ||| moreBit (value' ≠ 0#64))
  if value' ≠ 0#64 then uleb128Loop emit out value' else out
termination_by value.toNat
decreasing_by
  rename_i h
  have hne : (value >>> 7).toNat ≠ 0 := fun h0 => h (BitVec.eq_of_toNat_eq h0)
  rw [BitVec.toNat_ushiftRight, Nat.shiftRight_eq_div_pow] at hne ⊢
  omega

def dwarfUleb128 : List (BitVec 8) → BitVec 64 → List (BitVec 8) := uleb128Loop dwarfData1

def dwarfUleb128Op : LineData → BitVec 64 → LineData := uleb128Loop dwarfLineOp

/-- The variables of the loops over a signed value; `end` is the sign. -/
structure SlebState where
  value : BitVec 64
  «end» : BitVec 64
  last : BitVec 8
  end_eq : «end» = value.sshiftRight 63
  last_eq : last = «end».setWidth 8 &&& 0x40#8

namespace SlebState

def start (value : BitVec 64) : SlebState where
  value := value
  «end» := value.sshiftRight 63
  last := (value.sshiftRight 63).setWidth 8 &&& 0x40#8
  end_eq := rfl
  last_eq := rfl

/-- `byte = value & 0x7f` -/
def byte (s : SlebState) : BitVec 8 := s.value.setWidth 8 &&& 0x7f#8

theorem toInt_sshiftRight_seven (x : BitVec 64) : (x.sshiftRight 7).toInt = x.toInt / 128 := by
  rw [BitVec.toInt_sshiftRight, Int.shiftRight_eq_div_pow]
  rfl

theorem toInt_sign (x : BitVec 64) : (x.sshiftRight 63).toInt = if 0 ≤ x.toInt then 0 else -1 := by
  have hlt := x.toInt_lt
  have hle := x.le_toInt
  rw [BitVec.toInt_sshiftRight, Int.shiftRight_eq_div_pow]
  split <;> omega

theorem sign_shift (x : BitVec 64) : x.sshiftRight 63 = (x.sshiftRight 7).sshiftRight 63 := by
  apply BitVec.eq_of_toInt_eq
  rw [toInt_sign, toInt_sign, toInt_sshiftRight_seven]
  refine if_congr ?_ rfl rfl
  omega

/-- `value >>= 7` -/
def next (s : SlebState) : SlebState where
  value := s.value.sshiftRight 7
  «end» := s.«end»
  last := s.last
  end_eq := s.end_eq.trans (sign_shift s.value)
  last_eq := s.last_eq

/-- `more = value != end || (byte & 0x40) != last`, of the shifted value -/
def more (s : SlebState) : Bool := s.next.value ≠ s.«end» || s.byte &&& 0x40#8 ≠ s.last

theorem and_bit_six : ∀ y : BitVec 8, y &&& 0x40#8 = if y.getLsbD 6 then 0x40#8 else 0#8 := by
  decide

theorem and_bit_six_eq_iff (y z : BitVec 8) :
    y &&& 0x40#8 = z &&& 0x40#8 ↔ y.getLsbD 6 = z.getLsbD 6 := by
  rw [and_bit_six, and_bit_six]
  cases y.getLsbD 6 <;> cases z.getLsbD 6 <;> decide

/-- The last group is the one that holds the value with its sign. -/
theorem more_eq_false_iff (s : SlebState) :
    s.more = false ↔ -64 ≤ s.value.toInt ∧ s.value.toInt < 64 := by
  have hbit : s.value.getLsbD 6 = decide (s.value.toNat / 64 % 2 = 1) := by
    rw [BitVec.getLsbD, Nat.testBit_eq_decide_div_mod_eq]
  have hsix : s.byte.getLsbD 6 = s.value.getLsbD 6 := by simp [byte]
  have hsign : (s.«end».setWidth 8).getLsbD 6 = decide (s.value.toInt < 0) := by
    rw [s.end_eq, BitVec.getLsbD_setWidth, BitVec.getLsbD_sshiftRight, ← BitVec.msb_eq_toInt]
    simp
  have hend : s.next.value = s.«end» ↔
      s.value.toInt / 128 = if 0 ≤ s.value.toInt then 0 else -1 := by
    rw [← toInt_sign, ← toInt_sshiftRight_seven, BitVec.toInt_inj, ← s.end_eq]
    rfl
  have hlast : s.byte &&& 0x40#8 = s.last ↔
      (s.value.toNat / 64 % 2 = 1 ↔ s.value.toInt < 0) := by
    rw [s.last_eq, and_bit_six_eq_iff, hsix, hbit, hsign, decide_eq_decide]
  rw [more, Bool.or_eq_false_iff, decide_eq_false_iff_not, decide_eq_false_iff_not, not_not,
    not_not, hend, hlast, BitVec.toInt_eq_toNat_cond]
  have hlt := s.value.isLt
  split <;> omega

theorem natAbs_next_lt {s : SlebState} (h : s.more = true) :
    s.next.value.toInt.natAbs < s.value.toInt.natAbs := by
  have hout : ¬ (-64 ≤ s.value.toInt ∧ s.value.toInt < 64) := by
    rw [← more_eq_false_iff, h]
    decide
  have hnext : s.next.value.toInt = s.value.toInt / 128 := toInt_sshiftRight_seven s.value
  omega

end SlebState

/-- The loop of `dwarf_sleb128` and `dwarf_sleb128_op`. -/
def sleb128Loop {σ : Type} (emit : σ → BitVec 8 → σ) (out : σ) (s : SlebState) : σ :=
  let out := emit out (s.byte ||| moreBit s.more)
  if s.more then sleb128Loop emit out s.next else out
termination_by s.value.toInt.natAbs
decreasing_by exact SlebState.natAbs_next_lt ‹_›

def dwarfSleb128 (data : List (BitVec 8)) (value : BitVec 64) : List (BitVec 8) :=
  sleb128Loop dwarfData1 data (.start value)

def dwarfSleb128Op (line : LineData) (value : BitVec 64) : LineData :=
  sleb128Loop dwarfLineOp line (.start value)

/-- The loop of `dwarf_sleb128_size`. -/
def sleb128SizeLoop (size : ℕ) (s : SlebState) : ℕ :=
  if s.more then sleb128SizeLoop (size + 1) s.next else size + 1
termination_by s.value.toInt.natAbs
decreasing_by exact SlebState.natAbs_next_lt ‹_›

def dwarfSleb128Size (value : BitVec 64) : ℕ := sleb128SizeLoop 0 (.start value)

/-! ## Reading -/

/-- `dwarf_read_1`: the bytes from `ln` to `end`. -/
def dwarfRead1 : List (BitVec 8) → BitVec 64 × List (BitVec 8)
  | [] => (0#64, [])
  | byte :: ln => (byte.setWidth 64, ln)

/-- `MAX_128` -/
def max128 : ℕ := (8 * 8 + 6) / 7

/-- The loop of `dwarf_read_uleb128`, with `n` rounds to go. -/
def readUleb128Loop : ℕ → ℕ → BitVec 64 → List (BitVec 8) → BitVec 64 × List (BitVec 8)
  | 0, _, retval, cp => (retval, cp)
  | n + 1, i, retval, cp =>
    let (byte, cp) := dwarfRead1 cp
    let retval := retval ||| (byte &&& 0x7f#64) <<< (i * 7)
    if byte &&& 0x80#64 = 0#64 then (retval, cp) else readUleb128Loop n (i + 1) retval cp

def dwarfReadUleb128 (ln : List (BitVec 8)) : BitVec 64 × List (BitVec 8) :=
  readUleb128Loop max128 0 0#64 ln

/-- The loop of `dwarf_read_sleb128`, with `n` rounds to go. -/
def readSleb128Loop : ℕ → ℕ → BitVec 64 → List (BitVec 8) → BitVec 64 × List (BitVec 8)
  | 0, _, retval, cp => (retval, cp)
  | n + 1, i, retval, cp =>
    let (byte, cp) := dwarfRead1 cp
    let retval := retval ||| (byte &&& 0x7f#64) <<< (i * 7)
    if byte &&& 0x80#64 = 0#64 then
      if byte &&& 0x40#64 ≠ 0#64 ∧ (i + 1) * 7 < 64 then
        (retval ||| (-1#64) <<< ((i + 1) * 7), cp)
      else (retval, cp)
    else readSleb128Loop n (i + 1) retval cp

def dwarfReadSleb128 (ln : List (BitVec 8)) : BitVec 64 × List (BitVec 8) :=
  readSleb128Loop max128 0 0#64 ln

/-! ## The bytes of a number -/

/-- The bytes that the loop writes. -/
def ulebBytes (value : BitVec 64) : List (BitVec 8) := uleb128Loop dwarfData1 [] value

def slebBytes (s : SlebState) : List (BitVec 8) := sleb128Loop dwarfData1 [] s

section Loops

variable {σ τ : Type} {emit : σ → BitVec 8 → σ} {emit' : τ → BitVec 8 → τ} {g : σ → τ}

/-- Two places to write to that correspond. -/
theorem uleb128Loop_map (hg : ∀ out byte, g (emit out byte) = emit' (g out) byte) (out : σ)
    (value : BitVec 64) : g (uleb128Loop emit out value) = uleb128Loop emit' (g out) value := by
  fun_induction uleb128Loop emit out value with
  | case1 out value byte value' out' h ih =>
    rw [ih, uleb128Loop.eq_def emit' (g out), if_pos h, ← hg]
  | case2 out value byte value' out' h =>
    rw [uleb128Loop.eq_def emit' (g out), if_neg h, ← hg]

theorem sleb128Loop_map (hg : ∀ out byte, g (emit out byte) = emit' (g out) byte) (out : σ)
    (s : SlebState) : g (sleb128Loop emit out s) = sleb128Loop emit' (g out) s := by
  fun_induction sleb128Loop emit out s with
  | case1 out s out' h ih => rw [ih, sleb128Loop.eq_def emit' (g out), if_pos h, ← hg]
  | case2 out s out' h => rw [sleb128Loop.eq_def emit' (g out), if_neg h, ← hg]

end Loops

theorem append_dwarfData1 (data out : List (BitVec 8)) (byte : BitVec 8) :
    data ++ dwarfData1 out byte = dwarfData1 (data ++ out) byte :=
  (List.append_assoc data out [byte]).symm

theorem dwarfUleb128_eq (data : List (BitVec 8)) (value : BitVec 64) :
    dwarfUleb128 data value = data ++ ulebBytes value := by
  rw [ulebBytes, uleb128Loop_map (append_dwarfData1 data), List.append_nil, dwarfUleb128]

theorem data_dwarfUleb128Op (line : LineData) (value : BitVec 64) :
    (dwarfUleb128Op line value).data = line.data ++ ulebBytes value := by
  rw [← dwarfUleb128_eq]
  exact uleb128Loop_map (fun _ _ => rfl) line value

theorem dwarfSleb128_eq (data : List (BitVec 8)) (value : BitVec 64) :
    dwarfSleb128 data value = data ++ slebBytes (.start value) := by
  rw [slebBytes, sleb128Loop_map (append_dwarfData1 data), List.append_nil, dwarfSleb128]

theorem data_dwarfSleb128Op (line : LineData) (value : BitVec 64) :
    (dwarfSleb128Op line value).data = line.data ++ slebBytes (.start value) := by
  rw [← dwarfSleb128_eq]
  exact sleb128Loop_map (fun _ _ => rfl) line (.start value)

/-- The first byte and the others. -/
theorem ulebBytes_eq (value : BitVec 64) : ulebBytes value =
    ((value.setWidth 8 &&& 0x7f#8) ||| moreBit (value >>> 7 ≠ 0#64)) ::
      if value >>> 7 ≠ 0#64 then ulebBytes (value >>> 7) else [] := by
  rw [ulebBytes, uleb128Loop]
  split
  · exact dwarfUleb128_eq _ _
  · rfl

theorem slebBytes_eq (s : SlebState) : slebBytes s =
    (s.byte ||| moreBit s.more) :: if s.more then slebBytes s.next else [] := by
  rw [slebBytes, sleb128Loop]
  split
  · rw [slebBytes, ← List.singleton_append, sleb128Loop_map (append_dwarfData1 _), List.append_nil]
    rfl
  · rfl

/-- `dwarf_sleb128_size` counts the bytes. -/
theorem sleb128SizeLoop_eq (size : ℕ) (s : SlebState) :
    sleb128SizeLoop size s = size + (slebBytes s).length := by
  fun_induction sleb128SizeLoop size s with
  | case1 size s h ih =>
    rw [ih, slebBytes_eq s, if_pos h, List.length_cons]
    omega
  | case2 size s h =>
    rw [slebBytes_eq, if_neg h, List.length_singleton]

/-! ## Reading back -/

section Reading

variable {n i : ℕ} {retval : BitVec 64} {rest : List (BitVec 8)}

theorem more_bit_eq_zero_iff : ∀ (byte : BitVec 8) (more : Bool),
    ((byte &&& 0x7f#8) ||| moreBit more).setWidth 64 &&& 0x80#64 = 0#64 ↔ more = false := by
  decide +kernel

theorem sign_bit_eq_zero_iff : ∀ (byte : BitVec 8) (more : Bool),
    ((byte &&& 0x7f#8) ||| moreBit more).setWidth 64 &&& 0x40#64 = 0#64 ↔
      byte.getLsbD 6 = false := by
  decide +kernel

theorem low_bits : ∀ (byte : BitVec 8) (more : Bool),
    ((byte &&& 0x7f#8) ||| moreBit more).setWidth 64 &&& 0x7f#64 = (byte &&& 0x7f#8).setWidth 64 := by
  decide +kernel

theorem setWidth_low (value : BitVec 64) :
    (value.setWidth 8 &&& 0x7f#8).setWidth 64 = value &&& 0x7f#64 := by
  apply BitVec.eq_of_toNat_eq
  have hmask (x : ℕ) : x &&& 0x7f = x % 128 := Nat.and_two_pow_sub_one_eq_mod x 7
  simp only [BitVec.toNat_setWidth, BitVec.toNat_and, BitVec.toNat_ofNat]
  rw [hmask, hmask]
  omega

/-- The lowest group and the others: `rest` is the value, shifted to the right. -/
theorem join_groups {value rest : BitVec 64}
    (h : ∀ i, i + 7 < 64 → rest.getLsbD i = value.getLsbD (i + 7)) :
    (value &&& 0x7f#64) ||| rest <<< 7 = value := by
  apply BitVec.eq_of_getLsbD_eq
  intro i hi
  have hmask : (0x7f#64).getLsbD i = decide (i < 7) := by
    rw [show 0x7f#64 = BitVec.ofNat 64 (2 ^ 7 - 1) from rfl, BitVec.getLsbD_ofNat,
      Nat.testBit_two_pow_sub_one, decide_eq_true hi, Bool.true_and]
  rw [BitVec.getLsbD_or, BitVec.getLsbD_and, hmask, BitVec.getLsbD_shiftLeft, decide_eq_true hi,
    Bool.true_and]
  by_cases hlow : i < 7
  · rw [decide_eq_true hlow, Bool.and_true, Bool.not_true, Bool.false_and, Bool.or_false]
  · rw [decide_eq_false hlow, Bool.and_false, Bool.not_false, Bool.true_and, Bool.false_or,
      h (i - 7) (by omega), Nat.sub_add_cancel (by omega)]

theorem join_ushiftRight (value : BitVec 64) :
    (value &&& 0x7f#64) ||| (value >>> 7) <<< 7 = value :=
  join_groups fun i _ => by rw [BitVec.getLsbD_ushiftRight, Nat.add_comm]

theorem join_sshiftRight (value : BitVec 64) :
    (value &&& 0x7f#64) ||| (value.sshiftRight 7) <<< 7 = value :=
  join_groups fun i hi => by
    rw [BitVec.getLsbD_sshiftRight, decide_eq_false (by omega), if_pos (by omega), Nat.add_comm]
    rfl

/-- What a round adds and what the later ones add. -/
theorem or_shiftLeft_groups {value rest : BitVec 64} (i : ℕ)
    (h : (value &&& 0x7f#64) ||| rest <<< 7 = value) :
    retval ||| (value &&& 0x7f#64) <<< (i * 7) ||| rest <<< ((i + 1) * 7) =
      retval ||| value <<< (i * 7) := by
  rw [show (i + 1) * 7 = 7 + i * 7 by omega, BitVec.shiftLeft_add, BitVec.or_assoc,
    ← BitVec.shiftLeft_or_distrib, h]

/-- A round reads a group back. -/
theorem readUleb128Loop_bytes_succ (value : BitVec 64) :
    readUleb128Loop (n + 1) i retval (ulebBytes value ++ rest) =
      if value >>> 7 = 0#64 then (retval ||| value <<< (i * 7), rest)
      else readUleb128Loop n (i + 1) (retval ||| (value &&& 0x7f#64) <<< (i * 7))
        (ulebBytes (value >>> 7) ++ rest) := by
  rw [ulebBytes_eq, List.cons_append, readUleb128Loop, dwarfRead1]
  dsimp only
  rw [low_bits, setWidth_low]
  by_cases hlast : value >>> 7 = 0#64
  · have hlow := join_ushiftRight value
    rw [hlast, BitVec.zero_shiftLeft, BitVec.or_zero] at hlow
    rw [if_pos hlast, if_neg (not_not.2 hlast), if_pos, hlow, List.nil_append]
    rw [more_bit_eq_zero_iff]
    exact decide_eq_false (not_not.2 hlast)
  · rw [if_neg hlast, if_pos hlast, if_neg]
    rw [more_bit_eq_zero_iff, decide_eq_true hlast]
    exact Bool.noConfusion

/-- `n + 1` rounds are enough for a number below `128 ^ (n + 1)`. -/
theorem readUleb128Loop_bytes {value : BitVec 64} (h : value.toNat < 2 ^ (7 * (n + 1))) :
    readUleb128Loop (n + 1) i retval (ulebBytes value ++ rest) =
      (retval ||| value <<< (i * 7), rest) := by
  induction n generalizing i retval value with
  | zero =>
    have hlast : value >>> 7 = 0#64 := by
      apply BitVec.eq_of_toNat_eq
      rw [BitVec.toNat_ushiftRight, Nat.shiftRight_eq_div_pow]
      exact Nat.div_eq_of_lt h
    rw [readUleb128Loop_bytes_succ, if_pos hlast]
  | succ n ih =>
    rw [readUleb128Loop_bytes_succ]
    split
    · rfl
    · have hlt : (value >>> 7).toNat < 2 ^ (7 * (n + 1)) := by
        rw [BitVec.toNat_ushiftRight, Nat.shiftRight_eq_div_pow]
        exact Nat.div_lt_of_lt_mul (by rwa [← Nat.pow_add, show 7 + 7 * (n + 1) = 7 * (n + 2) by omega])
      rw [ih hlt, or_shiftLeft_groups i (join_ushiftRight value)]

/-- The sign of the last group. -/
theorem last_sign {s : SlebState} (h : s.more = false) :
    s.value.sshiftRight 7 = if (s.value.setWidth 8).getLsbD 6 then -1#64 else 0#64 := by
  obtain ⟨hle, hlt⟩ := s.more_eq_false_iff.1 h
  have hshift := SlebState.toInt_sshiftRight_seven s.value
  have hbit : (s.value.setWidth 8).getLsbD 6 = decide (s.value.toInt < 0) := by
    have hsmall := s.value.isLt
    rw [BitVec.toInt_eq_toNat_cond] at hle hlt ⊢
    rw [BitVec.getLsbD_setWidth, decide_eq_true (by decide), Bool.true_and, BitVec.getLsbD,
      Nat.testBit_eq_decide_div_mod_eq, decide_eq_decide]
    split at hle <;> omega
  apply BitVec.eq_of_toInt_eq
  rw [hshift, hbit]
  by_cases hneg : s.value.toInt < 0
  · rw [decide_eq_true hneg, if_pos rfl]
    have hone : (-1#64).toInt = -1 := rfl
    omega
  · rw [decide_eq_false hneg, if_neg Bool.false_ne_true]
    have hzero : (0#64).toInt = 0 := rfl
    omega

theorem readSleb128Loop_bytes_succ (s : SlebState) :
    readSleb128Loop (n + 1) i retval (slebBytes s ++ rest) =
      if s.more then readSleb128Loop n (i + 1) (retval ||| (s.value &&& 0x7f#64) <<< (i * 7))
        (slebBytes s.next ++ rest)
      else (retval ||| s.value <<< (i * 7), rest) := by
  have hmoreBit := more_bit_eq_zero_iff (s.value.setWidth 8) s.more
  have hsignBit := sign_bit_eq_zero_iff (s.value.setWidth 8) s.more
  rw [slebBytes_eq, List.cons_append, readSleb128Loop, dwarfRead1, SlebState.byte]
  dsimp only
  rw [low_bits, setWidth_low]
  by_cases hmore : s.more = true
  · rw [if_neg (by rw [hmoreBit, hmore]; exact Bool.noConfusion), if_pos hmore, if_pos hmore]
  · have hlast := Bool.eq_false_of_not_eq_true hmore
    have hjoin : retval ||| (s.value &&& 0x7f#64) <<< (i * 7) |||
        s.value.sshiftRight 7 <<< ((i + 1) * 7) = retval ||| s.value <<< (i * 7) :=
      or_shiftLeft_groups i (join_sshiftRight s.value)
    rw [last_sign hlast] at hjoin
    rw [if_pos (hmoreBit.2 hlast), if_neg hmore, if_neg hmore, List.nil_append]
    split
    · rename_i h
      rw [ne_eq, hsignBit] at h
      rw [if_pos (Bool.eq_true_of_not_eq_false h.1)] at hjoin
      rw [hjoin]
    · rename_i h
      rw [ne_eq, hsignBit] at h
      -- nothing is left of a sign that lies above bit 63
      have hzero : (if (s.value.setWidth 8).getLsbD 6 then -1#64 else 0#64) <<< ((i + 1) * 7) =
          0#64 := by
        by_cases hbit : (s.value.setWidth 8).getLsbD 6 = false
        · rw [hbit, if_neg Bool.false_ne_true, BitVec.zero_shiftLeft]
        · exact BitVec.shiftLeft_eq_zero (by_contra fun hw => h ⟨hbit, by omega⟩)
      rw [hzero, BitVec.or_zero] at hjoin
      rw [hjoin]

/-- `n + 1` rounds are enough for a number of `7 * (n + 1)` bits. -/
theorem readSleb128Loop_bytes {s : SlebState} (hle : -2 ^ (7 * n + 6) ≤ s.value.toInt)
    (hlt : s.value.toInt < 2 ^ (7 * n + 6)) :
    readSleb128Loop (n + 1) i retval (slebBytes s ++ rest) =
      (retval ||| s.value <<< (i * 7), rest) := by
  induction n generalizing i retval s with
  | zero => rw [readSleb128Loop_bytes_succ, s.more_eq_false_iff.2 ⟨hle, hlt⟩, if_neg Bool.false_ne_true]
  | succ n ih =>
    rw [readSleb128Loop_bytes_succ]
    split
    · have hnext : s.next.value.toInt = s.value.toInt / 128 :=
        SlebState.toInt_sshiftRight_seven s.value
      have hpow : (2 : ℤ) ^ (7 * (n + 1) + 6) = 128 * 2 ^ (7 * n + 6) := by ring
      rw [ih (by omega) (by omega)]
      exact congrArg (·, rest) (or_shiftLeft_groups i (join_sshiftRight s.value))
    · rfl

end Reading

theorem dwarfReadUleb128_bytes (value : BitVec 64) (rest : List (BitVec 8)) :
    dwarfReadUleb128 (ulebBytes value ++ rest) = (value, rest) := by
  have hlt : value.toNat < 2 ^ (7 * (9 + 1)) := value.isLt.trans (by decide)
  rw [dwarfReadUleb128, show max128 = 9 + 1 from rfl, readUleb128Loop_bytes hlt, Nat.zero_mul,
    BitVec.shiftLeft_zero, BitVec.zero_or]

theorem dwarfReadSleb128_bytes (value : BitVec 64) (rest : List (BitVec 8)) :
    dwarfReadSleb128 (slebBytes (.start value) ++ rest) = (value, rest) := by
  have hle : -2 ^ (7 * 9 + 6) ≤ (SlebState.start value).value.toInt :=
    le_trans (by decide) value.le_toInt
  have hlt : (SlebState.start value).value.toInt < 2 ^ (7 * 9 + 6) :=
    lt_trans value.toInt_lt (by decide)
  rw [dwarfReadSleb128, show max128 = 9 + 1 from rfl, readSleb128Loop_bytes hle hlt, Nat.zero_mul,
    BitVec.shiftLeft_zero, BitVec.zero_or]
  rfl

/-- **LEB128 numbers are read back.** Both writers of a number append the same bytes, and the reader
takes exactly these and gives the number, whatever follows. The size of a signed one is known in
advance. -/
theorem leb128_read_back (value : BitVec 64) :
    (∃ bytes, (∀ data, dwarfUleb128 data value = data ++ bytes) ∧
      (∀ line, (dwarfUleb128Op line value).data = line.data ++ bytes) ∧
      ∀ rest, dwarfReadUleb128 (bytes ++ rest) = (value, rest)) ∧
    ∃ bytes, (∀ data, dwarfSleb128 data value = data ++ bytes) ∧
      (∀ line, (dwarfSleb128Op line value).data = line.data ++ bytes) ∧
      (∀ rest, dwarfReadSleb128 (bytes ++ rest) = (value, rest)) ∧
      dwarfSleb128Size value = bytes.length :=
  ⟨⟨ulebBytes value, fun data => dwarfUleb128_eq data value,
      fun line => data_dwarfUleb128Op line value, dwarfReadUleb128_bytes value⟩,
    slebBytes (.start value), fun data => dwarfSleb128_eq data value,
      fun line => data_dwarfSleb128Op line value, dwarfReadSleb128_bytes value,
      (sleb128SizeLoop_eq 0 _).trans (Nat.zero_add _)⟩

end TccRiscv64.Debug
