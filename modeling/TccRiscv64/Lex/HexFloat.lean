import TccRiscv64.Lex.FloatText
import TccRiscv64.Ieee.Represents

set_option autoImplicit false

/-! # Hexadecimal and binary floating constants

`bn` has 64 bits and `bn_lshift` drops what does not fit, so a significand from 2^64 on loses its
leading digits. The exponent is an `int`, and the number in `bn` is made a `double` even where the
constant is a `long double`. -/

namespace TccRiscv64.Lex

open Ieee

/-- The format of a floating type. -/
def FloatKind.format : FloatKind → Format
  | .float => binary32
  | .double => binary64
  | .ldouble => binary128

/-- The number in `bn`. -/
def Bn.toNat (bn : Bn) : Nat := bn.hi.toNat * 2 ^ 32 + bn.lo.toNat

/-! ## The value of a constant -/

namespace BinaryFloat

variable {tccExt : Bool} (f : BinaryFloat tccExt)

/-- The bits of a digit. -/
def shift : Nat := if f.base.num = 16 then 4 else 1

/-- All digits as one number. -/
def significand : Nat := valueOf f.base.num f.digits

/-- The number behind the letter of the exponent, without its sign. -/
def expNumber : Nat := valueOf 10 f.exp

/-- The bits behind the point. -/
def fracBits : Nat := f.shift * (f.frac.getD []).length

/-- The power of two that belongs to the significand. -/
def exponent : Int := (if f.sign = [ch '-'] then -1 else 1) * f.expNumber - f.fracBits

def value : ℚ := f.significand * 2 ^ f.exponent

def kind : FloatKind :=
  if f.suffix = [ch 'f'] ∨ f.suffix = [ch 'F'] then .float
  else if f.suffix = [ch 'l'] ∨ f.suffix = [ch 'L'] then .ldouble
  else .double

end BinaryFloat

/-- The leading 64 bits of a number, and zeros behind them. -/
def leading (m : Nat) : Nat := m / 2 ^ (m.size - 64) * 2 ^ (m.size - 64)

/-- `x` denotes the constant `f` up to the 64 bits of `bn`, and the `double` that `bn` is converted to
has the value of the constant with the exponent, if the type of the constant has that value. -/
structure Denotes {tccExt : Bool} (f : BinaryFloat tccExt) (x : HexFloat) (e : Int) : Prop where
  kind : x.kind = f.kind
  exp : x.exp = some e
  value : (x.bn.toNat * 2 ^ e : ℚ) = leading f.significand * 2 ^ f.exponent
  double : f.kind.format.Represents f.value →
    ∀ d, binary64.RoundsTo x.bn.toNat d → binary64.mag d * 2 ^ e = f.value

/-- `parse_number` reads the constant as what it denotes. -/
def ReadExactly {tccExt : Bool} (f : BinaryFloat tccExt) : Prop :=
  ∃ x e, parseNumber tccExt (ch '0') f.text = .ok (.hexFloat x) ∧ Denotes f x e

/-- The constants that fit: their digits fit into `token_buf` and their significand into `bn`, no
number overflows on the way to the exponent, and the significand of a `long double` is a `double`. -/
structure Fits {tccExt : Bool} (f : BinaryFloat tccExt) : Prop where
  int_length : f.int.length ≤ stringMaxSize
  significand : f.significand < 2 ^ 64
  exp : f.expNumber + 48 < 2 ^ 31
  frac : f.fracBits < 2 ^ 31
  exponent : -2 ^ 31 ≤ f.exponent
  ldouble : f.kind = .ldouble → binary128.Represents f.value → binary64.Represents f.significand

/-! ## The significand -/

theorem Bn.toNat_lt (bn : Bn) : bn.toNat < 2 ^ 64 := by
  have hhi := bn.hi.isLt
  have hlo := bn.lo.isLt
  rw [Bn.toNat]
  omega

/-- A word shifted to the left with a number behind it. -/
theorem toNat_shiftLeft_or {s : Nat} (hs : s = 1 ∨ s = 4) (w d : BitVec 32) (hd : d.toNat < 2 ^ s) :
    (w <<< s ||| d).toNat = w.toNat * 2 ^ s % 2 ^ 32 + d.toNat := by
  have hsplit : w.toNat * 2 ^ s % 2 ^ 32 = 2 ^ s * (w.toNat % 2 ^ (32 - s)) := by
    rcases hs with rfl | rfl <;> omega
  rw [BitVec.toNat_or, BitVec.toNat_shiftLeft, Nat.shiftLeft_eq, hsplit,
    Nat.two_pow_add_eq_or_of_lt hd]

theorem Bn.toNat_lshift {s : Nat} (hs : s = 1 ∨ s = 4) (bn : Bn) {d : BitVec 32}
    (hd : d.toNat < 2 ^ s) : (bn.lshift s d).toNat = (bn.toNat * 2 ^ s + d.toNat) % 2 ^ 64 := by
  have hlo := bn.lo.isLt
  have hcarry : (bn.lo >>> (32 - s)).toNat = bn.lo.toNat / 2 ^ (32 - s) := by
    rw [BitVec.toNat_ushiftRight, Nat.shiftRight_eq_div_pow]
  have hlt : (bn.lo >>> (32 - s)).toNat < 2 ^ s := by
    rw [hcarry]
    rcases hs with rfl | rfl <;> omega
  rw [Bn.toNat, Bn.lshift, toNat_shiftLeft_or hs _ _ hlt, toNat_shiftLeft_or hs _ _ hd, hcarry,
    Bn.toNat]
  rcases hs with rfl | rfl <;> omega

/-- The digits that are shifted into `bn`. -/
theorem toNat_foldl_lshift {s : Nat} (hs : s = 1 ∨ s = 4) {ds : List Byte}
    (hds : ∀ d ∈ ds, isDigitOf (2 ^ s) d = true) {bn : Bn} {v : Nat}
    (hbn : bn.toNat = v % 2 ^ 64) :
    (ds.foldl (fun bn c => bn.lshift s (digitBits c)) bn).toNat =
      ds.foldl (fun v c => v * 2 ^ s + (digitValue c).getD 0) v % 2 ^ 64 := by
  induction ds generalizing bn v with
  | nil => exact hbn
  | cons d ds ih =>
    have hd : (digitValue d).getD 0 < 2 ^ s := digitValue_lt (hds d List.mem_cons_self)
    have hle : 2 ^ s ≤ 16 := by rcases hs with rfl | rfl <;> decide
    have hbits : (digitBits d).toNat = (digitValue d).getD 0 := by
      rw [digitBits, BitVec.toNat_ofNat]
      omega
    refine ih (fun d hd => hds d (List.mem_cons_of_mem _ hd)) ?_
    rw [Bn.toNat_lshift hs _ (hbits ▸ hd), hbits, hbn]
    exact ((Nat.mod_modEq v (2 ^ 64)).mul_right (2 ^ s)).add_right _

/-- The leading bits of a number that fits into `bn` are all of it. -/
theorem leading_of_lt {m : Nat} (h : m < 2 ^ 64) : leading m = m := by
  have : m.size - 64 = 0 := Nat.sub_eq_zero_of_le (Nat.size_le.2 h)
  rw [leading, this, pow_zero, Nat.div_one, Nat.mul_one]

/-- The leading bits of a larger number do not fit into `bn`. -/
theorem le_leading {m : Nat} (h : 2 ^ 64 ≤ m) : 2 ^ 64 ≤ leading m := by
  have hsize : 64 < m.size := Nat.lt_size.2 h
  have hlo : 2 ^ (m.size - 1) ≤ m := Nat.lt_size.1 (by omega)
  have hdiv : 2 ^ 63 ≤ m / 2 ^ (m.size - 64) := by
    rw [Nat.le_div_iff_mul_le (by positivity), ← pow_add]
    exact le_trans (Nat.pow_le_pow_right two_pos (by omega)) hlo
  calc 2 ^ 64 = 2 ^ 63 * 2 ^ 1 := rfl
    _ ≤ m / 2 ^ (m.size - 64) * 2 ^ (m.size - 64) :=
      Nat.mul_le_mul hdiv (Nat.pow_le_pow_right two_pos (by omega))

/-! ## The exponent -/

/-- The number of a decimal exponent, unless it overflows. -/
def expOf (v : Nat) : Option Int := if v + 48 < 2 ^ 31 then some (v : Int) else none

theorem isNum_value : ∀ c, isNum c = true →
    digitValue c = some ((digitValue c).getD 0) ∧ c.toNat = (digitValue c).getD 0 + 48 := by
  decide +kernel

theorem checkedInt_natCast (n : Nat) :
    checkedInt n = if n < 2 ^ 31 then some (n : Int) else none := by
  have hiff : (-2 ^ 31 ≤ (n : Int) ∧ (n : Int) < 2 ^ 31) ↔ n < 2 ^ 31 := by omega
  rw [checkedInt, if_congr hiff rfl rfl]

/-- One more digit, with the overflow checked after each operation. -/
theorem expOf_bind (v d : Nat) :
    ((expOf v).bind fun n => (checkedInt (n * 10)).bind fun m =>
      (checkedInt (m + ((d + 48 : Nat) : Int))).bind fun k => checkedInt (k - 0x30)) =
        expOf (v * 10 + d) := by
  have htimes : ((v : Int) * 10) = ((v * 10 : Nat) : Int) := by push_cast; rfl
  have hplus : ((v * 10 : Nat) : Int) + ((d + 48 : Nat) : Int) = ((v * 10 + d + 48 : Nat) : Int) := by
    push_cast
    ring
  have hminus : ((v * 10 + d + 48 : Nat) : Int) - 0x30 = ((v * 10 + d : Nat) : Int) := by
    push_cast
    ring
  rw [expOf, expOf]
  by_cases hbig : v * 10 + d + 48 < 2 ^ 31
  · rw [if_pos hbig, if_pos (by omega), Option.bind_some, htimes, checkedInt_natCast,
      if_pos (by omega), Option.bind_some, hplus, checkedInt_natCast, if_pos hbig,
      Option.bind_some, hminus, checkedInt_natCast, if_pos (by omega)]
  · rw [if_neg hbig]
    by_cases hv : v + 48 < 2 ^ 31
    · rw [if_pos hv, Option.bind_some, htimes, checkedInt_natCast]
      by_cases hten : v * 10 < 2 ^ 31
      · rw [if_pos hten, Option.bind_some, hplus, checkedInt_natCast, if_neg hbig,
          Option.bind_none]
      · rw [if_neg hten, Option.bind_none]
    · rw [if_neg hv, Option.bind_none]

theorem expOf_step (v : Nat) {c : Byte} (hc : isNum c = true) :
    ((expOf v).bind fun n => do
      checkedInt ((← checkedInt ((← checkedInt (n * 10)) + c.toNat)) - 0x30)) =
        expOf (v * 10 + (digitValue c).getD 0) := by
  rw [(isNum_value c hc).2]
  exact expOf_bind v _

theorem expDigits_append {ds rest : List Byte} (hds : ∀ d ∈ ds, isNum d = true)
    (hrest : rest.head?.any isNum = false) (v : Nat) :
    expDigits (expOf v) (ds ++ rest) =
      (expOf (ds.foldl (fun v c => v * 10 + (digitValue c).getD 0) v), rest) := by
  induction ds generalizing v with
  | nil =>
    cases rest with
    | nil => rfl
    | cons c rest => exact if_neg (by simpa using hrest)
  | cons d ds ih =>
    have hd := hds d List.mem_cons_self
    rw [List.cons_append, expDigits, if_pos hd, expOf_step v hd]
    exact ih (fun d hd => hds d (List.mem_cons_of_mem _ hd)) _

/-- A count of bits that goes on. -/
theorem checkedInt_add (n s : Nat) :
    ((checkedInt n).bind fun n => checkedInt (n + s)) = checkedInt ((n + s : Nat) : Int) := by
  rw [checkedInt_natCast]
  split
  · rw [Option.bind_some, Nat.cast_add]
  · rw [checkedInt_natCast, if_neg (by omega), Option.bind_none]

/-- The digits behind the point: `bn` goes on, and the bits are counted. -/
theorem fracDigits_append {b s : Nat} {ds rest : List Byte}
    (hds : ∀ d ∈ ds, isDigitOf b d = true) (hrest : rest.head?.bind digitValue = none)
    (bn : Bn) (n : Nat) :
    fracDigits b s bn (checkedInt n) (ds ++ rest) =
      .ok (ds.foldl (fun bn c => bn.lshift s (digitBits c)) bn,
        checkedInt ((n + s * ds.length : Nat) : Int), rest) := by
  induction ds generalizing bn n with
  | nil =>
    rw [List.length_nil, Nat.mul_zero, Nat.add_zero, List.nil_append]
    cases rest with
    | nil => rfl
    | cons c rest =>
      rw [List.head?_cons, Option.bind_some] at hrest
      rw [fracDigits, hrest]
      rfl
  | cons d ds ih =>
    have hd := hds d List.mem_cons_self
    obtain ⟨t, ht, hlt⟩ : ∃ t, digitValue d = some t ∧ t < b := by
      simpa [isDigitOf, Option.any_eq_true] using hd
    rw [List.cons_append, fracDigits, ht]
    dsimp only
    rw [if_neg (Nat.not_le.2 hlt), checkedInt_add,
      ih (fun d hd => hds d (List.mem_cons_of_mem _ hd)), List.foldl_cons, List.length_cons,
      Nat.mul_succ, Nat.add_assoc, Nat.add_comm s]

/-- The exponent of a constant. -/
def expResult (e : Int) (v n : Nat) : Option Int := do
  checkedInt ((← checkedInt ((← expOf v) * e)) - (← checkedInt n))

/-- The exponent, unless one of the numbers on the way to it overflows. -/
theorem expResult_eq {e : Int} (he : e = 1 ∨ e = -1) (v n : Nat) :
    expResult e v n = if v + 48 < 2 ^ 31 ∧ n < 2 ^ 31 ∧ -2 ^ 31 ≤ e * v - n
      then some (e * v - n) else none := by
  change ((expOf v).bind fun x => (checkedInt (x * e)).bind fun y =>
    (checkedInt n).bind fun k => checkedInt (y - k)) = _
  by_cases hv : v + 48 < 2 ^ 31
  · have hsigned : checkedInt ((v : Int) * e) = some (e * v) := by
      rw [Int.mul_comm, checkedInt]
      rcases he with rfl | rfl <;> exact if_pos (by omega)
    rw [expOf, if_pos hv, Option.bind_some, hsigned, Option.bind_some, checkedInt_natCast]
    by_cases hn : n < 2 ^ 31
    · have hiff : (-2 ^ 31 ≤ e * v - n ∧ e * v - n < 2 ^ 31) ↔
          v + 48 < 2 ^ 31 ∧ n < 2 ^ 31 ∧ -2 ^ 31 ≤ e * v - n := by
        rcases he with rfl | rfl <;> omega
      rw [if_pos hn, Option.bind_some, checkedInt, if_congr hiff rfl rfl]
    · rw [if_neg hn, Option.bind_none, if_neg fun h => hn h.2.1]
  · rw [expOf, if_neg hv, if_neg fun h => hv h.1]
    rfl

theorem isNum_not_sign : ∀ c, isNum c = true → c ≠ ch '+' ∧ c ≠ ch '-' := by
  decide +kernel

theorem expSign_append {sign ds rest : List Byte}
    (hsign : sign ∈ [[], [ch '+'], [ch '-']]) (hds : ds ≠ [] ∧ ∀ d ∈ ds, isNum d = true) :
    expSign (sign ++ (ds ++ rest)) = (if sign = [ch '-'] then -1 else 1, ds ++ rest) := by
  obtain ⟨d, ds, rfl⟩ := List.exists_cons_of_ne_nil hds.1
  obtain ⟨hplus, hminus⟩ := isNum_not_sign d (hds.2 d List.mem_cons_self)
  simp only [List.mem_cons, List.not_mem_nil, or_false] at hsign
  rcases hsign with rfl | rfl | rfl
  · rw [List.nil_append, List.cons_append, expSign, if_neg hplus, if_neg hminus]
    rfl
  · rfl
  · rfl

theorem floatSuffix_eq {s : List Byte} (h : IsFloatSuffix s) :
    floatSuffix s = (if s = [ch 'f'] ∨ s = [ch 'F'] then .float
      else if s = [ch 'l'] ∨ s = [ch 'L'] then .ldouble else .double, []) := by
  simp only [IsFloatSuffix, List.mem_cons, List.not_mem_nil, or_false] at h
  rcases h with rfl | rfl | rfl | rfl | rfl <;> rfl

theorem head_not_digit {s : List Byte} (h : IsFloatSuffix s) : s.head?.any isNum = false := by
  cases s with
  | nil => rfl
  | cons c s => exact (floatSuffix_letter h).1

theorem hexExponent_append {p : Byte} {sign ds s : List Byte} (hp : p = ch 'p' ∨ p = ch 'P')
    (hsign : sign ∈ [[], [ch '+'], [ch '-']]) (hds : ds ≠ [] ∧ ∀ d ∈ ds, isNum d = true)
    (hs : IsFloatSuffix s) (bn : Bn) (n : Nat) :
    hexExponent bn (checkedInt n) (p :: sign ++ ds ++ s) =
      .ok (⟨(floatSuffix s).1, bn,
        expResult (if sign = [ch '-'] then -1 else 1) (valueOf 10 ds) n⟩, []) := by
  have hdigits : expDigits (some 0) (ds ++ s) = (expOf (valueOf 10 ds), s) :=
    expDigits_append hds.2 (head_not_digit hs) 0
  have hhead : ¬ ((ds ++ s).head?.map isNum).getD false = false := by
    obtain ⟨d, ds, rfl⟩ := List.exists_cons_of_ne_nil hds.1
    simpa using hds.2 d List.mem_cons_self
  rw [List.cons_append, List.cons_append, List.append_assoc, hexExponent, if_neg (by tauto),
    expSign_append hsign hds]
  dsimp only
  rw [if_neg hhead, hdigits, floatSuffix_eq hs]
  rfl

/-! ## All of it -/

theorem hexFloat_point {b : Nat} {buf text rest : List Byte} {bn : Bn} {n : Option Int}
    (h : fracDigits b (if b = 16 then 4 else 1) (buf.foldl (fun bn c =>
      bn.lshift (if b = 16 then 4 else 1) (digitBits c)) ⟨0#32, 0#32⟩) (some 0) text =
        .ok (bn, n, rest)) :
    hexFloat b buf (ch '.' :: text) = hexExponent bn n rest := by
  rw [hexFloat]
  dsimp only
  rw [List.head?_cons, if_pos rfl, List.tail_cons, h]
  rfl

theorem hexFloat_no_point {b : Nat} {buf text : List Byte} (h : text.head? ≠ some (ch '.')) :
    hexFloat b buf text = hexExponent (buf.foldl (fun bn c =>
      bn.lshift (if b = 16 then 4 else 1) (digitBits c)) ⟨0#32, 0#32⟩) (some 0) text := by
  rw [hexFloat]
  dsimp only
  rw [if_neg h]

namespace BinaryFloat

variable {tccExt : Bool} (f : BinaryFloat tccExt)

theorem shift_eq : (f.shift = 1 ∨ f.shift = 4) ∧ f.base.num = 2 ^ f.shift ∧
    (if f.base.num = 16 then 4 else 1) = f.shift ∧ f.base.num ≠ 10 := by
  unfold shift
  rcases f.x_ok with ⟨h, -⟩ | ⟨h, -⟩ <;> rw [h] <;> decide

/-- The digits in `bn`. -/
def bn : Bn := f.digits.foldl (fun bn c => bn.lshift f.shift (digitBits c)) ⟨0#32, 0#32⟩

/-- What `parse_number` makes of the constant. -/
def result : HexFloat where
  kind := f.kind
  bn := f.bn
  exp := expResult (if f.sign = [ch '-'] then -1 else 1) f.expNumber f.fracBits

theorem toNat_bn : f.bn.toNat = f.significand % 2 ^ 64 := by
  obtain ⟨hshift, hbase, -⟩ := f.shift_eq
  have hzero : (Bn.mk 0#32 0#32).toNat = 0 % 2 ^ 64 := rfl
  have hdigits : ∀ d ∈ f.digits, isDigitOf (2 ^ f.shift) d = true :=
    hbase ▸ List.forall_mem_append.2 ⟨f.int_ok, f.frac_ok⟩
  rw [significand, valueOf, hbase]
  exact toNat_foldl_lshift hshift hdigits hzero

theorem hexExponent_text : hexExponent f.bn (checkedInt f.fracBits) (f.expText ++ f.suffix) =
    .ok (f.result, []) := by
  rw [expText, hexExponent_append f.p_ok f.sign_ok f.exp_ok f.suffix_ok,
    floatSuffix_eq f.suffix_ok]
  rfl

/-- The letter of the exponent ends the digits. -/
theorem letter_ne : ∀ c, c = ch 'p' ∨ c = ch 'P' → c ≠ ch '.' ∧ digitValue c = none := by
  decide +kernel

theorem hexFloat_text :
    hexFloat f.base.num f.int (f.fracText ++ (f.expText ++ f.suffix)) = .ok (f.result, []) := by
  obtain ⟨-, -, hif, -⟩ := f.shift_eq
  obtain ⟨hpoint, hletter⟩ := letter_ne f.p f.p_ok
  have hexp := f.hexExponent_text
  have hzero : checkedInt ((0 : Nat) : Int) = some 0 := by
    rw [checkedInt_natCast, if_pos (by norm_num), Nat.cast_zero]
  rw [fracText]
  cases hf : f.frac with
  | none =>
    have hbn : f.bn = f.int.foldl (fun bn c => bn.lshift f.shift (digitBits c)) ⟨0#32, 0#32⟩ := by
      rw [bn, digits, hf, Option.getD_none, List.append_nil]
    have hbits : f.fracBits = 0 := by rw [fracBits, hf]; rfl
    have hhead : (f.expText ++ f.suffix).head? ≠ some (ch '.') := fun h => hpoint (Option.some.inj h)
    dsimp only
    rw [List.nil_append, hexFloat_no_point hhead, hif, ← hbn, ← hexp, hbits, hzero]
  | some ds =>
    have hds : ∀ d ∈ ds, isDigitOf f.base.num d = true := by
      have hok := f.frac_ok
      rwa [hf, Option.getD_some] at hok
    have hend : (f.expText ++ f.suffix).head?.bind digitValue = none := hletter
    have hbn : f.bn = ds.foldl (fun bn c => bn.lshift f.shift (digitBits c))
        (f.int.foldl (fun bn c => bn.lshift f.shift (digitBits c)) ⟨0#32, 0#32⟩) := by
      rw [bn, digits, hf, Option.getD_some, List.foldl_append]
    have hbits : f.fracBits = 0 + f.shift * ds.length := by rw [fracBits, hf, Nat.zero_add]; rfl
    have hloop := fracDigits_append (s := f.shift) hds hend
      (f.int.foldl (fun bn c => bn.lshift f.shift (digitBits c)) ⟨0#32, 0#32⟩) 0
    rw [← hbn, ← hbits, hzero, ← hif] at hloop
    dsimp only
    rw [List.cons_append, hexFloat_point hloop, hexp]

theorem numberBase_text : numberBase tccExt (ch '0') f.text =
    (f.base.num, [], f.int ++ (f.fracText ++ (f.expText ++ f.suffix))) := by
  rw [text, List.append_assoc, List.append_assoc, List.cons_append, numberBase]
  rcases f.x_ok with ⟨hbase, hx⟩ | ⟨hbase, hext, hx⟩
  · rw [if_pos ⟨rfl, hx⟩, hbase]
    rfl
  · have hnot : ¬ (ch '0' = ch '0' ∧ (f.x = ch 'x' ∨ f.x = ch 'X')) := by
      rcases hx with hx | hx <;> rw [hx] <;> decide
    rw [if_neg hnot, if_pos ⟨rfl, hext, hx⟩, hbase]
    rfl

/-- A point or the letter of the exponent is behind the digits. -/
theorem head_text : ∃ c rest, f.fracText ++ (f.expText ++ f.suffix) = c :: rest ∧
    (c = ch '.' ∨ c = ch 'p' ∨ c = ch 'P') := by
  rw [fracText]
  cases f.frac with
  | none => exact ⟨f.p, _, rfl, .inr f.p_ok⟩
  | some ds => exact ⟨ch '.', _, rfl, .inl rfl⟩

theorem parseNumber_text : parseNumber tccExt (ch '0') f.text =
    if f.int.length ≤ stringMaxSize then .ok (.hexFloat f.result) else .error "number too long" := by
  obtain ⟨-, -, -, hten⟩ := f.shift_eq
  obtain ⟨c, rest, htext, hc⟩ := f.head_text
  have hend : (c :: rest).head?.any (isDigitOf f.base.num) = false := by
    rcases hc with rfl | rfl | rfl <;> rfl
  have hbase : (c = ch 'p' ∨ c = ch 'P') → f.base.num = 16 ∨ f.base.num = 2 := fun _ => by
    rcases f.x_ok with ⟨h, -⟩ | ⟨h, -⟩ <;> rw [h] <;> decide
  have hfloat := f.hexFloat_text
  have hnumber := f.numberBase_text
  rw [htext] at hfloat hnumber
  rw [parseNumber_of_digit (by decide) hnumber, storeWhile_append f.int_ok (Nat.zero_le _) hend,
    List.length_nil, Nat.zero_add, List.nil_append]
  split
  · have hrest : numberRest f.base.num f.int (c :: rest) = .ok (.hexFloat f.result, []) := by
      rw [numberRest]
      dsimp only
      rw [if_pos (hc.imp_right fun hp => .inr ⟨hp, hbase hp⟩), if_pos hten, hfloat]
      rfl
    exact congrArg (fun r => r.bind atEnd) hrest
  · rfl

/-! ## What the result denotes -/

theorem exp_result : f.result.exp =
    if f.expNumber + 48 < 2 ^ 31 ∧ f.fracBits < 2 ^ 31 ∧ -2 ^ 31 ≤ f.exponent
      then some f.exponent else none := by
  have he : (if f.sign = [ch '-'] then (-1 : Int) else 1) = 1 ∨
      (if f.sign = [ch '-'] then (-1 : Int) else 1) = -1 := by
    split <;> simp
  exact expResult_eq he _ _

/-- The value of the number in `bn` with the exponent, for a significand that fits. -/
theorem toNat_bn_of_lt (h : f.significand < 2 ^ 64) : f.bn.toNat = f.significand := by
  rw [toNat_bn, Nat.mod_eq_of_lt h]

/-- A `float` or `double` that has the value of the constant has no more bits than a `double`. -/
theorem significand_represents {F : Format} (hF : F.fracBits ≤ 52) (h : f.significand < 2 ^ 64)
    (hvalue : F.Represents f.value) : binary64.Represents f.significand := by
  obtain ⟨n, -, hn⟩ := hvalue
  obtain ⟨k, hlt, hmag⟩ := Format.mag_eq_significand (F := F) n
  have hs : F.significand n < 2 ^ 53 :=
    hlt.trans_le (Nat.pow_le_pow_right two_pos (by omega))
  rw [hmag, value] at hn
  -- how far the two significands are shifted against each other
  rcases le_total f.exponent k with hle | hle
  · obtain ⟨j, hj⟩ := Int.eq_ofNat_of_zero_le (sub_nonneg.2 hle)
    have heq : f.significand = F.significand n * 2 ^ j := by
      rw [← @Nat.cast_inj ℚ, ← mul_left_inj' (zpow_ne_zero f.exponent (two_ne_zero : (2 : ℚ) ≠ 0)), ← hn]
      push_cast
      rw [mul_assoc, ← zpow_natCast, ← zpow_add₀ two_ne_zero, ← hj, sub_add_cancel]
    rcases Nat.eq_zero_or_pos (F.significand n) with h0 | hpos
    · rw [heq, h0, Nat.zero_mul]
      simpa using Format.binary64_represents (s := 0) (by norm_num) (Nat.zero_le 64)
    · have hj64 : j < 64 := by
        refine (Nat.pow_lt_pow_iff_right one_lt_two).1 (lt_of_le_of_lt ?_ h)
        rw [heq]
        exact Nat.le_mul_of_pos_left _ hpos
      rw [heq]
      exact_mod_cast Format.binary64_represents hs hj64.le
  · obtain ⟨j, hj⟩ := Int.eq_ofNat_of_zero_le (sub_nonneg.2 hle)
    have heq : F.significand n = f.significand * 2 ^ j := by
      rw [← @Nat.cast_inj ℚ, ← mul_left_inj' (zpow_ne_zero k (two_ne_zero : (2 : ℚ) ≠ 0)), hn]
      push_cast
      rw [mul_assoc, ← zpow_natCast, ← zpow_add₀ two_ne_zero, ← hj, sub_add_cancel]
    have hsmall : f.significand < 2 ^ 53 :=
      lt_of_le_of_lt (heq ▸ Nat.le_mul_of_pos_right _ (by positivity)) hs
    simpa using Format.binary64_represents hsmall (Nat.zero_le 64)

/-- What is read exactly has been put into `bn` as a whole, and the exponent has not overflowed. -/
theorem readExactly_fits (h : ReadExactly f) : f.int.length ≤ stringMaxSize ∧
    Denotes f f.result f.exponent ∧ f.significand < 2 ^ 64 ∧
    f.expNumber + 48 < 2 ^ 31 ∧ f.fracBits < 2 ^ 31 ∧ -2 ^ 31 ≤ f.exponent := by
  obtain ⟨x, e, hparse, hx⟩ := h
  rw [f.parseNumber_text] at hparse
  split at hparse
  · next hlen =>
    obtain rfl := Number.hexFloat.inj (Except.ok.inj hparse)
    have hexp := hx.exp
    rw [f.exp_result] at hexp
    split at hexp
    · next hfits =>
      obtain rfl := Option.some.inj hexp
      have hbn : f.bn.toNat = leading f.significand := by
        have hvalue := hx.value
        rw [mul_left_inj' (zpow_ne_zero f.exponent (two_ne_zero : (2 : ℚ) ≠ 0))] at hvalue
        exact_mod_cast hvalue
      refine ⟨hlen, hx, ?_, hfits⟩
      by_contra hbig
      exact absurd (hbn ▸ f.bn.toNat_lt) (Nat.not_lt.2 (le_leading (Nat.not_lt.1 hbig)))
    · cases hexp
  · cases hparse

/-- The `double` in between has the value of a significand that is a `double`. -/
theorem roundsTo_significand (h : f.significand < 2 ^ 64) {d : ℕ}
    (hd : binary64.RoundsTo f.significand d) :
    binary64.mag d = f.significand ↔ binary64.Represents f.significand := by
  obtain ⟨n, hn, hmag⟩ := Format.binary64_represents (s := 1) (by norm_num) (le_refl 64)
  refine Format.mag_of_roundsTo_iff hd (lt_trans ?_ (Format.mag_strictMono _ hn))
  rw [hmag]
  exact_mod_cast (Nat.one_mul (2 ^ 64)).symm ▸ h

end BinaryFloat

/-- **Hexadecimal floating constants.** A constant is read as what it denotes exactly if it fits. -/
theorem readExactly_iff_fits {tccExt : Bool} (f : BinaryFloat tccExt) : ReadExactly f ↔ Fits f := by
  constructor
  · intro h
    obtain ⟨hlen, hx, hlt, hexp, hfrac, hexponent⟩ := f.readExactly_fits h
    refine ⟨hlen, hlt, hexp, hfrac, hexponent, fun hkind hvalue => ?_⟩
    have hbn : f.result.bn.toNat = f.significand := f.toNat_bn_of_lt hlt
    have hpos : (0 : ℚ) ≤ f.significand := Nat.cast_nonneg _
    obtain ⟨d, hd⟩ := Format.exists_roundsTo (F := binary64) hpos
    have hdouble := hx.double (by rwa [hkind]) d (by rwa [hbn])
    rw [BinaryFloat.value, mul_left_inj' (zpow_ne_zero _ (two_ne_zero : (2 : ℚ) ≠ 0))] at hdouble
    exact (f.roundsTo_significand hlt hd).1 hdouble
  · intro h
    have hbn := f.toNat_bn_of_lt h.significand
    refine ⟨f.result, f.exponent, by rw [f.parseNumber_text, if_pos h.int_length], rfl, ?_, ?_, ?_⟩
    · rw [f.exp_result, if_pos ⟨h.exp, h.frac, h.exponent⟩]
    · rw [leading_of_lt h.significand, ← hbn]
      rfl
    · intro hvalue d hd
      have hdouble : binary64.Represents f.significand := by
        cases hkind : f.kind with
        | ldouble => exact h.ldouble hkind (by rwa [hkind] at hvalue)
        | float | double =>
          rw [hkind] at hvalue
          exact f.significand_represents (by decide) h.significand hvalue
      have hround : binary64.RoundsTo f.significand d := hbn ▸ hd
      rw [(f.roundsTo_significand h.significand hround).2 hdouble, BinaryFloat.value]

/-- `0x10000000000000000p0`. -/
def seventeenDigits : BinaryFloat true where
  base := .hex
  x := ch 'x'
  int := ch '1' :: List.replicate 16 (ch '0')
  frac := none
  p := ch 'p'
  sign := []
  exp := [ch '0']
  suffix := []
  x_ok := .inl ⟨rfl, .inl rfl⟩
  int_ok := by decide
  frac_ok := by decide
  p_ok := .inl rfl
  sign_ok := List.mem_cons_self
  exp_ok := ⟨List.cons_ne_nil _ _, by decide⟩
  suffix_ok := List.mem_cons_self

/-- The leading digit of `0x10000000000000000p0` is lost. -/
theorem seventeenDigits_not_exact : ¬ ReadExactly seventeenDigits := by
  intro h
  obtain ⟨-, -, hlt, -⟩ := BinaryFloat.readExactly_fits _ h
  have hvalue : seventeenDigits.significand = 2 ^ 64 := by decide
  rw [hvalue] at hlt
  exact absurd hlt (lt_irrefl _)

end TccRiscv64.Lex
