import TccRiscv64.Lex.Number

set_option autoImplicit false

/-! # Integer constants

The constants of the grammar, with the value and the type that the standard gives them where `long`
has 64 bits, against what `parse_number` makes of them. -/

namespace TccRiscv64.Lex

/-! ## The grammar -/

inductive Base
  | dec | oct | hex | bin
  deriving DecidableEq, Repr

def Base.num : Base → Nat
  | dec => 10
  | oct => 8
  | hex => 16
  | bin => 2

/-- A text that consists of the digits of a base, with its prefix, and a suffix. The leading zero of
an octal number is not among its digits. Binary numbers are an extension. -/
inductive IntText (tccExt : Bool) : Base → List Byte → List Byte → List Byte → Prop
  | dec {c : Byte} {ds s : List Byte} : c ≠ ch '0' → (∀ d ∈ c :: ds, isDigitOf 10 d = true) →
      IntText tccExt .dec (c :: ds) s (c :: ds ++ s)
  | oct {ds s : List Byte} : (∀ d ∈ ds, isDigitOf 8 d = true) →
      IntText tccExt .oct ds s (ch '0' :: ds ++ s)
  | hex {x : Byte} {ds s : List Byte} : x = ch 'x' ∨ x = ch 'X' →
      (∀ d ∈ ds, isDigitOf 16 d = true) → IntText tccExt .hex ds s (ch '0' :: x :: ds ++ s)
  | bin {x : Byte} {ds s : List Byte} : tccExt = true → x = ch 'b' ∨ x = ch 'B' →
      (∀ d ∈ ds, isDigitOf 2 d = true) → IntText tccExt .bin ds s (ch '0' :: x :: ds ++ s)

/-- A suffix of the grammar: at most one `u`, and none, one or two equal `l`s, in any order. -/
def IsSuffix (unsigned : Bool) (longs : Nat) (s : List Byte) : Prop :=
  longs ≤ 2 ∧ ∃ u ∈ if unsigned then [[ch 'u'], [ch 'U']] else [[]],
    ∃ l ∈ (match longs with
      | 0 => [[]]
      | 1 => [[ch 'l'], [ch 'L']]
      | _ => [[ch 'l', ch 'l'], [ch 'L', ch 'L']]), s = u ++ l ∨ s = l ++ u

/-- A prefix is followed by a digit. -/
def HasDigits (base : Base) (digits : List Byte) : Prop :=
  base = .hex ∨ base = .bin → digits ≠ []

/-- The number of bytes that the digits take in `token_buf`. -/
def storedDigits (base : Base) (digits : List Byte) : Nat :=
  if base = .oct then digits.length + 1 else digits.length

/-! ## Value and type -/

/-- The mathematical value. -/
def valueOf (b : Nat) (digits : List Byte) : Nat :=
  digits.foldl (fun v c => v * b + (digitValue c).getD 0) 0

/-- The numbers that a type holds, where `int` has 32 bits and `long` 64. -/
def IntType.limit (t : IntType) : Nat :=
  2 ^ ((if t.rank = .int then 32 else 64) - if t.unsigned then 0 else 1)

/-- The types for a constant in the order of the standard: from the rank of the suffix on, and
unsigned ones only for an `u` or where the base is not ten. -/
def candidates (base : Base) (unsigned : Bool) (longs : Nat) : List IntType :=
  let ranks : List Rank :=
    match longs with
    | 0 => [.int, .long, .llong]
    | 1 => [.long, .llong]
    | _ => [.llong]
  ranks.flatMap fun rank =>
    if unsigned then [⟨rank, true⟩]
    else if base = .dec then [⟨rank, false⟩]
    else [⟨rank, false⟩, ⟨rank, true⟩]

/-- The first type that holds a value. -/
def typeFor (base : Base) (unsigned : Bool) (longs v : Nat) : Option IntType :=
  (candidates base unsigned longs).find? (v < ·.limit)

/-- The token for a constant: its value modulo 2^64, with the first type that holds it; a warning if
there is none. -/
def IsToken (base : Base) (unsigned : Bool) (longs v : Nat) (n : IntNumber) : Prop :=
  n.value = BitVec.ofNat 64 v ∧ (n.overflow = true ↔ typeFor base unsigned longs v = none) ∧
    ∀ t ∈ typeFor base unsigned longs v, n.type = t

/-! ## Collecting the digits -/

theorem storeWhile_append {isDigit : Byte → Bool} {buf ds : List Byte}
    (h : ∀ d ∈ ds, isDigit d = true) (hbuf : buf.length ≤ stringMaxSize) {rest : List Byte}
    (hrest : rest.head?.any isDigit = false) :
    storeWhile isDigit buf (ds ++ rest) =
      if buf.length + ds.length ≤ stringMaxSize then .ok (buf ++ ds, rest)
      else .error "number too long" := by
  induction ds generalizing buf with
  | nil =>
    rw [List.length_nil, Nat.add_zero, if_pos hbuf, List.append_nil, List.nil_append]
    cases rest with
    | nil => rfl
    | cons c rest =>
      rw [storeWhile, if_neg (by simpa using hrest)]
  | cons d ds ih =>
    rw [List.cons_append, storeWhile, if_pos (h d List.mem_cons_self), store]
    by_cases hroom : buf.length ≥ stringMaxSize
    · rw [if_pos hroom, if_neg (by rw [List.length_cons]; omega)]
      rfl
    · rw [if_neg hroom]
      have hlen : (buf ++ [d]).length = buf.length + 1 := by simp
      refine (ih (fun d hd => h d (List.mem_cons_of_mem _ hd)) (by omega)).trans ?_
      rw [hlen, List.length_cons, Nat.add_right_comm, Nat.add_assoc, List.append_assoc]
      rfl

theorem storeWhile_ok {isDigit : Byte → Bool} {buf text buf' rest : List Byte}
    (h : storeWhile isDigit buf text = .ok (buf', rest)) :
    ∃ ds, buf' = buf ++ ds ∧ text = ds ++ rest ∧ (∀ d ∈ ds, isDigit d = true) ∧
      rest.head?.any isDigit = false := by
  induction text generalizing buf with
  | nil =>
    cases h
    exact ⟨[], by simp, rfl, by simp, rfl⟩
  | cons c text ih =>
    rw [storeWhile] at h
    split at h
    · next hc =>
      rw [store] at h
      split at h
      · cases h
      · obtain ⟨ds, rfl, rfl, hds, hrest⟩ := ih h
        refine ⟨c :: ds, by simp, rfl, ?_, hrest⟩
        exact List.forall_mem_cons.2 ⟨hc, hds⟩
    · next hc =>
      cases h
      exact ⟨[], by simp, rfl, by simp, by simpa using hc⟩

/-! ## The value -/

theorem digitValue_lt {b : Nat} {c : Byte} (h : isDigitOf b c = true) :
    (digitValue c).getD 0 < b := by
  unfold isDigitOf at h
  cases hc : digitValue c with
  | none => simp [hc] at h
  | some t => simpa [hc] using h

/-- The state of the loop over the digits, when those so far have the value `v`. -/
def Accumulates (v : Nat) (n : BitVec 64) (ov : Bool) : Prop :=
  n = BitVec.ofNat 64 v ∧ (ov = true ↔ 2 ^ 64 ≤ v)

/-- The test for an overflow is exact: a digit of a base up to 16 cannot overflow a number below
2^60, and otherwise the division shows it. -/
theorem Accumulates.step {v b t : Nat} {n : BitVec 64} {ov : Bool} (h : Accumulates v n ov)
    (hb : 2 ≤ b ∧ b ≤ 16) (ht : t < b) :
    Accumulates (v * b + t) (n * BitVec.ofNat 64 b + BitVec.ofNat 64 t)
      (ov || (0x1000000000000000#64 ≤ n && (n * BitVec.ofNat 64 b + BitVec.ofNat 64 t) /
        BitVec.ofNat 64 b != n)) := by
  obtain ⟨rfl, hov⟩ := h
  have hsum : BitVec.ofNat 64 v * BitVec.ofNat 64 b + BitVec.ofNat 64 t =
      BitVec.ofNat 64 (v * b + t) := by
    rw [BitVec.ofNat_add, BitVec.ofNat_mul]
  refine ⟨hsum, ?_⟩
  rw [hsum, Bool.or_eq_true, hov, Bool.and_eq_true, decide_eq_true_eq, bne_iff_ne, ne_eq,
    ← BitVec.toNat_inj, BitVec.le_def, BitVec.toNat_udiv, BitVec.toNat_ofNat, BitVec.toNat_ofNat,
    BitVec.toNat_ofNat, BitVec.toNat_ofNat, Nat.mod_eq_of_lt (show b < 2 ^ 64 by omega)]
  have hmul : v * b ≤ v * 16 := Nat.mul_le_mul_left v hb.2
  have hgrows : v ≤ v * b := Nat.le_mul_of_pos_right v (by omega)
  by_cases hv : 2 ^ 64 ≤ v
  · exact iff_of_true (.inl hv) (by omega)
  rw [Nat.mod_eq_of_lt (Nat.lt_of_not_le hv)]
  generalize hw : v * b + t = w
  by_cases hfits : w < 2 ^ 64
  · have hdiv : w / b = v := by
      rw [← hw, Nat.mul_comm, Nat.mul_add_div (by omega), Nat.div_eq_of_lt ht, Nat.add_zero]
    rw [Nat.mod_eq_of_lt hfits, hdiv]
    omega
  · have hdiv : w % 2 ^ 64 / b < v := Nat.div_lt_of_lt_mul (by rw [Nat.mul_comm]; omega)
    refine iff_of_true (.inr ⟨?_, by omega⟩) (by omega)
    norm_num
    omega

theorem intDigits_append {b : Nat} (hb : 2 ≤ b ∧ b ≤ 16) {ds : List Byte}
    (h : ∀ d ∈ ds, isDigitOf b d = true) {v : Nat} {n : BitVec 64} {ov : Bool}
    (hacc : Accumulates v n ov) :
    ∃ n' ov', intDigits b n ov ds = .ok (n', ov') ∧
      Accumulates (ds.foldl (fun v c => v * b + (digitValue c).getD 0) v) n' ov' := by
  induction ds generalizing v n ov with
  | nil => exact ⟨n, ov, rfl, hacc⟩
  | cons d ds ih =>
    have hd := digitValue_lt (h d List.mem_cons_self)
    obtain ⟨n', ov', hloop, hacc'⟩ :=
      ih (fun d hd => h d (List.mem_cons_of_mem _ hd)) (hacc.step hb hd)
    refine ⟨n', ov', ?_, hacc'⟩
    rw [intDigits, if_neg (Nat.not_le.2 hd)]
    exact hloop

theorem intDigits_ok {b : Nat} {ds : List Byte} (hds : ∀ d ∈ ds, ∃ c, isDigitOf c d = true)
    {n n' : BitVec 64} {ov ov' : Bool} (h : intDigits b n ov ds = .ok (n', ov')) :
    ∀ d ∈ ds, isDigitOf b d = true := by
  induction ds generalizing n ov with
  | nil => simp
  | cons d ds ih =>
    rw [intDigits] at h
    split at h
    · cases h
    · next hlt =>
      refine List.forall_mem_cons.2 ⟨?_, ih (fun d hd => hds d (List.mem_cons_of_mem _ hd)) h⟩
      obtain ⟨c, hc⟩ := hds d List.mem_cons_self
      unfold isDigitOf at hc ⊢
      cases hval : digitValue d with
      | none => simp [hval] at hc
      | some t => simpa [hval] using hlt

/-! ## The suffix -/

theorem toup_eq_iff : ∀ c, (toup c = ch 'L' ↔ c = ch 'l' ∨ c = ch 'L') ∧
    (toup c = ch 'U' ↔ c = ch 'u' ∨ c = ch 'U') := by
  decide

def isL (c : Byte) : Bool := toup c = ch 'L'

def isU (c : Byte) : Bool := toup c = ch 'U'

/-- A suffix that the loop accepts: at most one `u` and at most two `l`s. -/
def Accepted (s : List Byte) : Prop :=
  (∀ c ∈ s, isL c = true ∨ isU c = true) ∧ s.countP isL ≤ 2 ∧ s.countP isU ≤ 1

theorem isL_ne_isU {c : Byte} (h : isL c = true) : isU c = false := by
  unfold isL at h
  unfold isU
  rw [decide_eq_true_eq] at h
  rw [h]
  decide

/-- The loop over the suffix counts its letters. -/
theorem intSuffix_eq_ok_iff (p1 s : List Byte) {l u : Nat} (hl : l ≤ 2) (hu : u ≤ 1)
    {l' u' : Nat} : intSuffix p1 l u s = .ok (l', u', []) ↔
      (∀ c ∈ s, isL c = true ∨ isU c = true) ∧ l + s.countP isL = l' ∧ l' ≤ 2 ∧
        u + s.countP isU = u' ∧ u' ≤ 1 := by
  induction s generalizing l u with
  | nil =>
    simp only [intSuffix, Except.ok.injEq, Prod.mk.injEq, List.countP_nil]
    simp
    omega
  | cons c s ih =>
    rw [intSuffix]
    simp only [List.forall_mem_cons, List.countP_cons]
    by_cases hcl : isL c = true
    · have htoup : toup c = ch 'L' := by simpa [isL] using hcl
      have hcu := isL_ne_isU hcl
      rw [if_pos htoup, hcl, hcu]
      by_cases hfull : l ≥ 2
      · rw [if_pos hfull]
        simp
        omega
      · rw [if_neg hfull, if_neg (by simp), ih (by omega) hu]
        simp
        omega
    · by_cases hcu : isU c = true
      · have htoup : toup c = ch 'U' := by simpa [isU] using hcu
        have hnl : toup c ≠ ch 'L' := by simpa [isL] using hcl
        rw [if_neg hnl, if_pos htoup, hcu]
        by_cases hfull : u ≥ 1
        · rw [if_pos hfull]
          simp [hcl]
          omega
        · rw [if_neg hfull, ih hl (by omega)]
          simp [hcl]
          omega
      · have hnl : toup c ≠ ch 'L' := by simpa [isL] using hcl
        have hnu : toup c ≠ ch 'U' := by simpa [isU] using hcu
        rw [if_neg hnl, if_neg hnu]
        simp [hcl, hcu]

theorem isSuffix_counts {unsigned : Bool} {longs : Nat} {s : List Byte}
    (h : IsSuffix unsigned longs s) :
    (∀ c ∈ s, isL c = true ∨ isU c = true) ∧ s.countP isL = longs ∧
      s.countP isU = unsigned.toNat := by
  obtain ⟨hlongs, u, hu, l, hl, hs⟩ := h
  have hu' : (∀ c ∈ u, isU c = true) ∧ u.countP isL = 0 ∧ u.countP isU = unsigned.toNat := by
    cases unsigned with
    | false =>
      obtain rfl : u = [] := by simpa using hu
      decide
    | true =>
      obtain rfl | rfl : u = [ch 'u'] ∨ u = [ch 'U'] := by simpa using hu
      · decide
      · decide
  have hl' : (∀ c ∈ l, isL c = true) ∧ l.countP isL = longs ∧ l.countP isU = 0 := by
    obtain rfl | rfl | rfl : longs = 0 ∨ longs = 1 ∨ longs = 2 := by omega
    · obtain rfl : l = [] := by simpa using hl
      decide
    · obtain rfl | rfl : l = [ch 'l'] ∨ l = [ch 'L'] := by simpa using hl
      · decide
      · decide
    · obtain rfl | rfl : l = [ch 'l', ch 'l'] ∨ l = [ch 'L', ch 'L'] := by simpa using hl
      · decide
      · decide
  have hmem (c : Byte) (hc : c ∈ u ∨ c ∈ l) : isL c = true ∨ isU c = true :=
    hc.elim (fun h => .inr (hu'.1 c h)) fun h => .inl (hl'.1 c h)
  rcases hs with rfl | rfl
  · refine ⟨fun c hc => hmem c (List.mem_append.1 hc), ?_, ?_⟩
    · rw [List.countP_append, hu'.2.1, hl'.2.1, Nat.zero_add]
    · rw [List.countP_append, hu'.2.2, hl'.2.2, Nat.add_zero]
  · refine ⟨fun c hc => hmem c (List.mem_append.1 hc).symm, ?_, ?_⟩
    · rw [List.countP_append, hu'.2.1, hl'.2.1, Nat.add_zero]
    · rw [List.countP_append, hu'.2.2, hl'.2.2, Nat.zero_add]

/-! ## The type -/

theorem IntType.limit_le (t : IntType) : t.limit ≤ 2 ^ 64 := by
  unfold limit
  refine Nat.pow_le_pow_right (by norm_num) ?_
  split_ifs <;> omega

theorem chooseType_overflow (b : Nat) (n : BitVec 64) (l u : Nat) :
    (chooseType b n l u true).2.2 = true := by
  unfold chooseType
  split_ifs <;> rfl

theorem limit_values :
    (IntType.limit ⟨.int, false⟩ = 2 ^ 31 ∧ IntType.limit ⟨.int, true⟩ = 2 ^ 32) ∧
      (IntType.limit ⟨.long, false⟩ = 2 ^ 63 ∧ IntType.limit ⟨.long, true⟩ = 2 ^ 64) ∧
      IntType.limit ⟨.llong, false⟩ = 2 ^ 63 ∧ IntType.limit ⟨.llong, true⟩ = 2 ^ 64 := by
  decide

/-- The choice of the type follows the list of the standard. -/
theorem chooseType_isToken (base : Base) (unsigned : Bool) {longs v : Nat} {n : BitVec 64}
    {ov : Bool} (hlongs : longs ≤ 2) (h : Accumulates v n ov) :
    IsToken base unsigned longs v
      ⟨intType (chooseType base.num n longs unsigned.toNat ov).1
        (chooseType base.num n longs unsigned.toNat ov).2.1, n,
        (chooseType base.num n longs unsigned.toNat ov).2.2⟩ := by
  obtain ⟨rfl, hov⟩ := h
  refine ⟨rfl, ?_⟩
  by_cases hlarge : 2 ^ 64 ≤ v
  · -- no type holds a number of more than 64 bits
    have hnone : typeFor base unsigned longs v = none := by
      refine List.find?_eq_none.2 fun t _ => ?_
      have := t.limit_le
      simp only [decide_eq_true_eq]
      omega
    obtain rfl := hov.2 hlarge
    rw [hnone]
    exact ⟨iff_of_true (chooseType_overflow ..) rfl, fun t ht => absurd ht (by simp)⟩
  · obtain rfl : ov = false := by
      rw [← Bool.not_eq_true, hov]
      exact hlarge
    have hle (k : Nat) (hk : k < 2 ^ 64) :
        BitVec.ofNat 64 k ≤ BitVec.ofNat 64 v ↔ k ≤ v := by
      rw [BitVec.le_def, BitVec.toNat_ofNat, BitVec.toNat_ofNat, Nat.mod_eq_of_lt hk,
        Nat.mod_eq_of_lt (Nat.lt_of_not_le hlarge)]
    have hdec : base.num = 10 ↔ base = .dec := by cases base <;> decide
    obtain ⟨⟨hi, hui⟩, ⟨hl, hul⟩, hll, hull⟩ := limit_values
    unfold chooseType typeFor candidates
    simp only [hle _ (show 0x80000000 < 2 ^ 64 by norm_num),
      hle _ (show 0x100000000 < 2 ^ 64 by norm_num),
      hle _ (show 0x8000000000000000 < 2 ^ 64 by norm_num), hdec]
    have h31 : 0x80000000 ≤ v ↔ ¬ v < 2 ^ 31 := by omega
    have h32 : 0x100000000 ≤ v ↔ ¬ v < 2 ^ 32 := by omega
    have h63 : 0x8000000000000000 ≤ v ↔ ¬ v < 2 ^ 63 := by omega
    have h64 : v < 2 ^ 64 := Nat.lt_of_not_le hlarge
    have hrange : (v < 2 ^ 31 ∧ v < 2 ^ 32 ∧ v < 2 ^ 63) ∨ (¬ v < 2 ^ 31 ∧ v < 2 ^ 32 ∧ v < 2 ^ 63) ∨
        (¬ v < 2 ^ 31 ∧ ¬ v < 2 ^ 32 ∧ v < 2 ^ 63) ∨ (¬ v < 2 ^ 31 ∧ ¬ v < 2 ^ 32 ∧ ¬ v < 2 ^ 63) := by
      omega
    simp only [h31, h32, h63]
    clear hle hdec h31 h32 h63 hov hlarge
    obtain rfl | rfl | rfl : longs = 0 ∨ longs = 1 ∨ longs = 2 := by omega
    all_goals cases unsigned
    all_goals by_cases hbase : base = .dec
    all_goals rcases hrange with ⟨a31, a32, a63⟩ | ⟨a31, a32, a63⟩ | ⟨a31, a32, a63⟩ | ⟨a31, a32, a63⟩
    all_goals simp only [hbase, a31, a32, a63, h64, hi, hui, hl, hul, hll, hull, List.flatMap_cons,
      List.flatMap_nil, List.append_nil, List.cons_append, List.nil_append, List.find?_cons, List.find?_nil,
      if_true, if_false, Bool.false_eq_true, decide_true, decide_false, not_true, not_false_iff,
      and_true, and_false]
    all_goals decide

/-! ## The parser on constants -/

theorem Base.num_bounds (base : Base) : 2 ≤ base.num ∧ base.num ≤ 16 := by
  cases base <;> decide

/-- The base that the digits in `token_buf` are read in, and those digits. -/
def effective (b : Nat) (buf : List Byte) : Nat × List Byte :=
  if b = 10 ∧ buf.head? = some (ch '0') then (8, buf.tail) else (b, buf)

theorem intNumber_eq (b : Nat) (buf rest : List Byte) :
    intNumber b buf rest = (intDigits (effective b buf).1 0#64 false (effective b buf).2).bind
      fun r => (intSuffix rest.tail 0 0 rest).bind fun c =>
        .ok (⟨intType (chooseType (effective b buf).1 r.1 c.1 c.2.1 r.2).1
          (chooseType (effective b buf).1 r.1 c.1 c.2.1 r.2).2.1, r.1,
          (chooseType (effective b buf).1 r.1 c.1 c.2.1 r.2).2.2⟩, c.2.2) := rfl

theorem intNumber_token {base : Base} {b : Nat} {buf digits s : List Byte} {unsigned : Bool}
    {longs : Nat} (heff : effective b buf = (base.num, digits))
    (hdigits : ∀ d ∈ digits, isDigitOf base.num d = true) (hs : IsSuffix unsigned longs s) :
    ∃ n, intNumber b buf s = .ok (n, []) ∧
      IsToken base unsigned longs (valueOf base.num digits) n := by
  have hzero : Accumulates 0 0#64 false := ⟨rfl, by simp⟩
  obtain ⟨n, ov, hloop, hacc⟩ := intDigits_append base.num_bounds hdigits hzero
  obtain ⟨hletters, hl, hu⟩ := isSuffix_counts hs
  have hsuffix : intSuffix s.tail 0 0 s = .ok (longs, unsigned.toNat, []) :=
    (intSuffix_eq_ok_iff s.tail s (by omega) (by omega)).2
      ⟨hletters, by omega, hs.1, by omega, unsigned.toNat_le⟩
  refine ⟨_, ?_, chooseType_isToken base unsigned hs.1 hacc⟩
  rw [intNumber_eq, heff, hloop, hsuffix]
  rfl

/-- The base of a number has no smaller digits than those that were read in its text. -/
theorem intNumber_ok {b : Nat} {buf s rest : List Byte} {n : IntNumber}
    (hbuf : ∀ d ∈ buf, ∃ c, isDigitOf c d = true) (h : intNumber b buf s = .ok (n, rest)) :
    (∀ d ∈ (effective b buf).2, isDigitOf (effective b buf).1 d = true) ∧
      ∃ l u, intSuffix s.tail 0 0 s = .ok (l, u, rest) := by
  rw [intNumber_eq] at h
  obtain ⟨r, hloop, h⟩ := bind_eq_ok h
  obtain ⟨c, hsuffix, h⟩ := bind_eq_ok h
  obtain rfl := (Prod.ext_iff.1 (Except.ok.inj h)).2
  refine ⟨intDigits_ok (fun d hd => hbuf d ?_) hloop, c.1, c.2.1, hsuffix⟩
  unfold effective at hd
  split at hd
  · exact List.mem_of_mem_tail hd
  · exact hd

/-- The check at the end of `parse_number`. -/
def atEnd (x : Number × List Byte) : Except String Number :=
  if x.2 ≠ [] then .error "invalid number" else .ok x.1

/-- A number that starts with a digit. -/
theorem parseNumber_of_digit {tccExt : Bool} {t : Byte} {rest : List Byte} (ht : t ≠ ch '.')
    {b : Nat} {buf text : List Byte} (hbase : numberBase tccExt t rest = (b, buf, text)) :
    parseNumber tccExt t rest = ((storeWhile (isDigitOf b) buf text).bind fun r =>
      numberRest b r.1 r.2).bind atEnd := by
  rw [parseNumber, if_neg ht, hbase]
  cases h : storeWhile (isDigitOf b) buf text with
  | error e => simp only [h]; rfl
  | ok r => simp only [h]; rfl

/-- No letter of a suffix can be taken for something else. -/
theorem suffix_letter : ∀ c, isL c = true ∨ isU c = true → digitValue c = none ∧ c ≠ ch '.' ∧
    c ≠ ch 'e' ∧ c ≠ ch 'E' ∧ c ≠ ch 'p' ∧ c ≠ ch 'P' ∧ c ≠ ch 'x' ∧ c ≠ ch 'X' ∧ c ≠ ch 'b' ∧
      c ≠ ch 'B' := by
  decide +kernel

theorem suffix_not_digit {s : List Byte} (hs : ∀ c ∈ s, isL c = true ∨ isU c = true) (b : Nat) :
    s.head?.any (isDigitOf b) = false := by
  cases s with
  | nil => rfl
  | cons c s =>
    have := (suffix_letter c (hs c List.mem_cons_self)).1
    simp [isDigitOf, this]

/-- Behind the digits of an integer constant comes its suffix. -/
theorem numberRest_suffix {b : Nat} {buf s : List Byte}
    (hs : ∀ c ∈ s, isL c = true ∨ isU c = true) :
    numberRest b buf s = (intNumber b buf s).bind fun r => .ok (.int r.1, r.2) := by
  cases s with
  | nil => rfl
  | cons c s =>
    obtain ⟨-, hdot, he, he', hp, hp', -⟩ := suffix_letter c (hs c List.mem_cons_self)
    rw [numberRest, if_neg (by simp [hdot, he, he', hp, hp'])]
    rfl

theorem digit_ne : ∀ c, isDigitOf 10 c = true → c ≠ ch '.' ∧ c ≠ ch 'x' ∧ c ≠ ch 'X' ∧
    c ≠ ch 'b' ∧ c ≠ ch 'B' := by
  decide +kernel

theorem isDigitOf_mono {a b : Nat} (h : a ≤ b) {c : Byte} (hc : isDigitOf a c = true) :
    isDigitOf b c = true := by
  unfold isDigitOf at hc ⊢
  cases hval : digitValue c with
  | none => simp [hval] at hc
  | some t =>
    have : t < a := by simpa [hval] using hc
    simp
    omega

theorem numberBase_ten {tccExt : Bool} {t : Byte} {rest : List Byte}
    (h : t = ch '0' → ∀ c ∈ rest.head?, c ≠ ch 'x' ∧ c ≠ ch 'X' ∧ c ≠ ch 'b' ∧ c ≠ ch 'B') :
    numberBase tccExt t rest = (10, [t], rest) := by
  cases rest with
  | nil => rfl
  | cons c rest =>
    by_cases ht : t = ch '0'
    · obtain ⟨hx, hX, hb, hB⟩ := h ht c rfl
      rw [numberBase, if_neg (fun h => h.2.elim hx hX), if_neg (fun h => h.2.2.elim hb hB)]
    · rw [numberBase, if_neg (fun h => ht h.1), if_neg (fun h => ht h.1)]

/-- How a text with the digits of a base is taken apart: the base to collect digits of, what is
stored already, the digits to come, and what is read from all that is stored. -/
theorem numberBase_intText {tccExt : Bool} {base : Base} {digits s : List Byte} {t : Byte}
    {rest : List Byte} (h : IntText tccExt base digits s (t :: rest))
    (hs : ∀ c ∈ s, isL c = true ∨ isU c = true) :
    t ≠ ch '.' ∧ ∃ b buf ds, numberBase tccExt t rest = (b, buf, ds ++ s) ∧
      (∀ d ∈ ds, isDigitOf b d = true) ∧ buf.length ≤ 1 ∧
      buf.length + ds.length = storedDigits base digits ∧
      effective b (buf ++ ds) = (base.num, digits) ∧ ∀ d ∈ digits, isDigitOf base.num d = true := by
  cases h with
  | dec hc hds =>
    obtain ⟨hdot, -⟩ := digit_ne t (hds t List.mem_cons_self)
    refine ⟨hdot, 10, [t], _, numberBase_ten fun h => absurd h hc,
      fun d hd => hds d (List.mem_cons_of_mem _ hd), le_rfl, Nat.add_comm _ _, ?_, hds⟩
    exact if_neg fun h => hc (Option.some.inj h.2)
  | oct hds =>
    refine ⟨by decide, 10, [ch '0'], digits, numberBase_ten fun _ c hc => ?_,
      fun d hd => isDigitOf_mono (by decide) (hds d hd), le_rfl, Nat.add_comm _ _,
      if_pos ⟨rfl, rfl⟩, hds⟩
    -- what follows the zero is a digit or a letter of the suffix
    cases digits with
    | cons d ds =>
      obtain rfl := Option.some.inj hc
      exact (digit_ne d (isDigitOf_mono (by decide) (hds d List.mem_cons_self))).2
    | nil => exact (suffix_letter c (hs c (List.mem_of_mem_head? hc))).2.2.2.2.2.2
  | hex hx hds =>
    exact ⟨by decide, 16, [], digits, if_pos ⟨rfl, hx⟩, hds, by decide, Nat.zero_add _,
      if_neg fun h => absurd h.1 (by decide), hds⟩
  | bin hext hx hds =>
    refine ⟨by decide, 2, [], digits, ?_, hds, by decide, Nat.zero_add _,
      if_neg fun h => absurd h.1 (by decide), hds⟩
    refine (if_neg fun h => ?_).trans (if_pos ⟨rfl, hext, hx⟩)
    rcases hx with rfl | rfl <;> exact absurd h.2 (by decide)

/-- What `parse_number` makes of a constant of the grammar. -/
theorem parseNumber_intText {tccExt : Bool} {base : Base} {digits s : List Byte} {t : Byte}
    {rest : List Byte} {unsigned : Bool} {longs : Nat}
    (h : IntText tccExt base digits s (t :: rest)) (hs : IsSuffix unsigned longs s) :
    if storedDigits base digits ≤ stringMaxSize then
      ∃ n, parseNumber tccExt t rest = .ok (.int n) ∧
        IsToken base unsigned longs (valueOf base.num digits) n
    else parseNumber tccExt t rest = .error "number too long" := by
  have hletters := (isSuffix_counts hs).1
  obtain ⟨ht, b, buf, ds, hbase, hds, hbuf, hlen, heff, hdigits⟩ := numberBase_intText h hletters
  have hstore := storeWhile_append hds (hbuf.trans (by decide)) (suffix_not_digit hletters b)
  rw [hlen] at hstore
  rw [parseNumber_of_digit ht hbase, hstore]
  split
  · obtain ⟨n, hn, htoken⟩ := intNumber_token heff hdigits hs
    refine ⟨n, ?_, htoken⟩
    simp only [Except.bind, numberRest_suffix hletters, hn]
    rfl
  · rfl

end TccRiscv64.Lex
