import TccRiscv64.Ieee.Extended
import TccRiscv64.Isa.Memory

set_option autoImplicit false

/-! # `long double` constants in the data section

The `VT_LDOUBLE` case of `init_putv` copies the host's `long double` object, as it lies in the
union `CValue`, to the data of the target. Which of its branches the compiler is built with depends
on host and target; for riscv64 the copied bytes are read as `binary128`. -/

namespace TccRiscv64.Gen

open TccRiscv64.Ieee TccRiscv64.Isa

/-! ## Host and target -/

/-- What the preprocessor and `sizeof` say about the host compiler, and its conversions of a
`long double` object. -/
structure HostConfig where
  /-- `__i386__` or `__x86_64__` is defined -/
  isX86 : Bool
  /-- `__TINYC__` is defined -/
  isTinyC : Bool
  /-- `TCC_CROSS_TEST` is defined -/
  crossTest : Bool
  sizeofDouble : Nat
  sizeofLongDouble : Nat
  /-- `(double)vtop->c.ld` -/
  toDouble : BitVec 128 → BitVec 64
  /-- `fldl` of the object followed by `fstpt` -/
  fldlFstpt : BitVec 128 → BitVec 80

/-- The target's part of the configuration. -/
structure TargetConfig where
  /-- `TCC_TARGET_I386` or `TCC_TARGET_X86_64` is defined -/
  isX86 : Bool
  /-- `LDOUBLE_SIZE` -/
  ldoubleSize : Nat

def riscv64 : TargetConfig where
  isX86 := false
  ldoubleSize := 16

/-- `TCC_IS_NATIVE_387`. -/
def tccIsNative387 (host : HostConfig) (target : TargetConfig) : Bool :=
  host.isX86 && target.isX86

/-! ## `init_putv` -/

/-- The `VT_LDOUBLE` case of `init_putv`: store the constant whose union `CValue` holds the bytes
`cv` at offset `c` of the section `sec`. -/
def initPutvLdouble (host : HostConfig) (target : TargetConfig) (sec : Memory) (c : Nat)
    (cv : BitVec 128) : Except String Memory :=
  if tccIsNative387 host target ∧ host.sizeofLongDouble ≥ 10 then
    .ok (sec.store c 10 (cv.setWidth (8 * 10)))
  else if tccIsNative387 host target ∧ host.isTinyC ∧
      host.sizeofLongDouble = host.sizeofDouble then
    .ok (sec.store c 10 (host.fldlFstpt cv))
  else if host.sizeofLongDouble = target.ldoubleSize then
    .ok (sec.store c target.ldoubleSize (cv.setWidth (8 * target.ldoubleSize)))
  else if host.sizeofDouble = target.ldoubleSize then
    .ok (sec.store c 8 (host.toDouble cv))
  else if sec.load c target.ldoubleSize = cv.setWidth (8 * target.ldoubleSize) then
    -- nothing to do for 0.0
    .ok sec
  else if host.crossTest then
    .ok sec
  else
    .error "can't cross compile long double constants"

/-! ## The constant -/

/-- How the host represents a `long double` in 16 bytes. -/
inductive LongDoubleRepr
  /-- ten bytes of x87 extended format, six bytes of padding -/
  | x87
  | binary128
  deriving DecidableEq, Repr

namespace LongDoubleRepr

/-- The object holds a finite number. -/
def IsFinite (repr : LongDoubleRepr) (cv : BitVec 128) : Prop :=
  match repr with
  | x87 => Extended.isFinite cv.toNat
  | binary128 => Ieee.binary128.isFinite cv.toNat

instance (repr : LongDoubleRepr) (cv : BitVec 128) : Decidable (repr.IsFinite cv) := by
  cases repr <;> unfold IsFinite <;> infer_instance

def neg (repr : LongDoubleRepr) (cv : BitVec 128) : Bool :=
  match repr with
  | x87 => Extended.neg cv.toNat
  | binary128 => Ieee.binary128.neg cv.toNat

def value (repr : LongDoubleRepr) (cv : BitVec 128) : ℚ :=
  match repr with
  | x87 => Extended.value cv.toNat
  | binary128 => Ieee.binary128.value cv.toNat

end LongDoubleRepr

/-- A finite `long double` constant on a host whose `long double` has 16 bytes. -/
structure LongDoubleConst where
  host : HostConfig
  repr : LongDoubleRepr
  sixteen : host.sizeofLongDouble = 16
  cv : BitVec 128
  finite : repr.IsFinite cv

/-- The bytes at `c` decode as `binary128` to the sign and value of the constant. -/
def StoredExactly (k : LongDoubleConst) (sec : Memory) (c : Nat) : Prop :=
  let out := (sec.load c 16).toNat
  binary128.isFinite out ∧ binary128.neg out = k.repr.neg k.cv ∧
    binary128.value out = k.repr.value k.cv

/-- The data section after `init_putv` on riscv64 holds the constant. -/
def InitCorrect (k : LongDoubleConst) (sec : Memory) (c : Nat) : Prop :=
  ∃ sec', initPutvLdouble k.host riscv64 sec c k.cv = .ok sec' ∧ StoredExactly k sec' c

/-- On riscv64 a 16-byte object is copied byte by byte, whatever it represents. -/
theorem initPutvLdouble_riscv64 (k : LongDoubleConst) (sec : Memory) (c : Nat) :
    initPutvLdouble k.host riscv64 sec c k.cv = .ok (sec.store c 16 k.cv) := by
  have hnative : tccIsNative387 k.host riscv64 = false := Bool.and_false _
  have hsize : k.host.sizeofLongDouble = riscv64.ldoubleSize := k.sixteen
  rw [initPutvLdouble, hnative, if_neg (by simp), if_neg (by simp), if_pos hsize]
  rfl

/-- What was copied is what will be decoded. -/
theorem initCorrect_iff (k : LongDoubleConst) (sec : Memory) (c : Nat) :
    InitCorrect k sec c ↔
      binary128.isFinite k.cv.toNat ∧ binary128.neg k.cv.toNat = k.repr.neg k.cv ∧
        binary128.value k.cv.toNat = k.repr.value k.cv := by
  unfold InitCorrect StoredExactly
  rw [initPutvLdouble_riscv64]
  constructor
  · rintro ⟨sec', hsec, hstored⟩
    obtain rfl := Except.ok.inj hsec
    rwa [Memory.load_store] at hstored
  · intro h
    refine ⟨_, rfl, ?_⟩
    rwa [Memory.load_store]

/-- The low 64 bits of a `binary128` object that has exponent `e` and fraction `x`. -/
theorem low_bits_of_magBits {n e x : ℕ} (h : n % (2 ^ 15 * 2 ^ 112) = e * 2 ^ 112 + x) :
    x % 2 ^ 64 = n % 2 ^ 64 := by
  have hdvd : 2 ^ 64 ∣ 2 ^ 15 * 2 ^ 112 := ⟨2 ^ 63, by norm_num⟩
  rw [← Nat.mod_mod_of_dvd n hdvd, h, show e * 2 ^ 112 = 2 ^ 64 * (e * 2 ^ 48) by ring,
    Nat.mul_add_mod]

/-- A significand shifted into its place in `binary128` no longer has its own low bits. -/
theorem eq_zero_of_shifted_eq {m : ℕ} (h : m % 2 ^ 63 * 2 ^ 49 % 2 ^ 64 = m) : m = 0 := by
  have hmul : m % 2 ^ 15 * 2 ^ 49 = m := by
    rw [show 2 ^ 64 = 2 ^ 15 * 2 ^ 49 by norm_num, Nat.mul_mod_mul_right,
      Nat.mod_mod_of_dvd m ⟨2 ^ 48, by norm_num⟩] at h
    exact h
  have hlow : m % 2 ^ 15 = 0 :=
    Nat.mod_eq_zero_of_dvd (hmul ▸ (show 2 ^ 15 ∣ 2 ^ 49 by norm_num).mul_left _)
  rw [← hmul, hlow, Nat.zero_mul]

/-- Of the two zeros of `binary128` only `+0` has the sign bit of an extended number clear. -/
theorem eq_zero_of_magBits_eq_zero {n : ℕ} (hlt : n < 2 ^ 128)
    (hmod : n % (2 ^ 15 * 2 ^ 112) = 0)
    (hsign : 2 ^ 15 * 2 ^ 112 ≤ n ↔ n / 2 ^ 79 % 2 = 1) : n = 0 := by
  obtain ⟨k, rfl⟩ := Nat.dvd_of_mod_eq_zero hmod
  have heven : 2 ^ 15 * 2 ^ 112 * k / 2 ^ 79 % 2 = 0 := by
    rw [show 2 ^ 15 * 2 ^ 112 * k = 2 ^ 79 * (2 * (2 ^ 47 * k)) by ring,
      Nat.mul_div_cancel_left _ (by norm_num), Nat.mul_mod_right]
  omega

/-- An extended object read as `binary128` has the same sign and value only if it is zero: its
significand ends up among the low bits of the fraction, where no number of the extended format has
bits. -/
theorem eq_zero_of_value_eq {cv : BitVec 128} (hfin : Extended.isFinite cv.toNat)
    (hneg : binary128.neg cv.toNat = Extended.neg cv.toNat)
    (hval : binary128.value cv.toNat = Extended.value cv.toNat) : cv = 0#128 := by
  have hmag : binary128.mag (binary128.magBits cv.toNat) = Extended.mag cv.toNat := by
    rw [Format.value, Extended.value, hneg] at hval
    split at hval
    · exact neg_inj.1 hval
    · exact hval
  have hbits : binary128.magBits cv.toNat = Extended.toBinary128 cv.toNat := by
    rw [← Extended.mag_toBinary128 hfin] at hmag
    exact binary128.mag_strictMono.injective hmag
  have hsig : Extended.significand cv.toNat = 0 :=
    eq_zero_of_shifted_eq (low_bits_of_magBits hbits)
  have hexp : Extended.exponent cv.toNat = 0 := by
    by_contra hne
    have hint := hfin.2.2 (Nat.pos_of_ne_zero hne)
    rw [hsig] at hint
    exact absurd hint (by decide)
  rw [Extended.toBinary128, hsig, hexp] at hbits
  have hsign : 2 ^ 15 * 2 ^ 112 ≤ cv.toNat ↔ cv.toNat / 2 ^ 79 % 2 = 1 := decide_eq_decide.1 hneg
  have hmod : cv.toNat % (2 ^ 15 * 2 ^ 112) = 0 := hbits
  exact BitVec.eq_of_toNat_eq (eq_zero_of_magBits_eq_zero cv.isLt hmod hsign)

/-- **`long double` constants.** The bytes that a compiler with 16-byte `long double` writes on
riscv64 decode to the constant exactly when the host has `binary128` too, or the object is all
zero: the constant `+0.0` with clear padding. -/
theorem initPutv_ldouble_correct_iff (k : LongDoubleConst) (sec : Memory) (c : Nat) :
    InitCorrect k sec c ↔ k.repr = .binary128 ∨ k.cv = 0#128 := by
  obtain ⟨host, repr, sixteen, cv, finite⟩ := k
  rw [initCorrect_iff]
  cases repr with
  | binary128 => exact iff_of_true ⟨finite, rfl, rfl⟩ (Or.inl rfl)
  | x87 =>
    constructor
    · rintro ⟨-, hneg, hval⟩
      exact Or.inr (eq_zero_of_value_eq finite hneg hval)
    · rintro (hrepr | hzero)
      · cases hrepr
      · obtain rfl : cv = 0#128 := hzero
        refine ⟨show binary128.isFinite 0 by decide, show binary128.neg 0 = Extended.neg 0 by decide,
          ?_⟩
        simp [LongDoubleRepr.value, Format.value, Extended.value, Extended.mag,
          Extended.significand, Format.neg, Format.signBit, Format.magBits, Extended.neg]

/-- An x86-64 host: `long double` is the x87 extended format in 16 bytes. The conversions, which
riscv64 does not reach, are given at `1.0L`. -/
def x86Host : HostConfig where
  isX86 := true
  isTinyC := false
  crossTest := false
  sizeofDouble := 8
  sizeofLongDouble := 16
  toDouble _ := 0x3ff0000000000000#64
  fldlFstpt _ := 0x3fff8000000000000000#80

/-- The constant `1.0L` on an x86-64 host, with clear padding. -/
def oneOnX86 : LongDoubleConst where
  host := x86Host
  repr := .x87
  sixteen := rfl
  cv := 0x3fff8000000000000000#128
  finite := by decide

/-- `1.0L` compiled for riscv64 on an x86-64 host is not stored as `1.0L`. -/
theorem initPutv_ldouble_one : ¬ InitCorrect oneOnX86 (fun _ => 0#8) 0 := by
  rw [initCorrect_iff]
  rintro ⟨-, hneg, hval⟩
  exact absurd (eq_zero_of_value_eq oneOnX86.finite hneg hval) (by decide)

end TccRiscv64.Gen
