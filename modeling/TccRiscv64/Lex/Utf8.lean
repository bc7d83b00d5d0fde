import TccRiscv64.Lex.Escape

set_option autoImplicit false

/-! # UTF-8 is written and read alike

`unicode_to_utf8` writes the encoding of exactly the Unicode scalar values, and the decoder in
`parse_escape_string` takes a sequence for well-formed exactly when it is such an encoding. -/

namespace TccRiscv64.Lex

/-- The UTF-8 encoding of a character. -/
def utf8 (c : Char) : List Byte := (String.utf8EncodeChar c).map UInt8.toBitVec

/-- The code point of a character, as the compiler holds it. -/
def point (c : Char) : BitVec 32 := c.val.toBitVec

theorem point_toNat (c : Char) : (point c).toNat = c.toNat := rfl

/-- The byte of a number. -/
def byte (n : Nat) : Byte := BitVec.ofNat 8 n

theorem byte_toNat {n : Nat} (h : n < 256) : (byte n).toNat = n := by
  rw [byte, BitVec.toNat_ofNat]
  exact Nat.mod_eq_of_lt h

theorem scalar_bounds (c : Char) : c.toNat < 0xd800 ∨ 0xdfff < c.toNat ∧ c.toNat < 0x110000 :=
  c.valid

theorem surrogate_iff (uc : BitVec 32) :
    uc - 0xd800#32 < 0x800#32 ↔ 0xd800 ≤ uc.toNat ∧ uc.toNat ≤ 0xdfff := by
  rw [BitVec.lt_def, BitVec.toNat_sub]
  simp only [BitVec.toNat_ofNat]
  have := uc.isLt
  omega

/-! ## The encoder -/

/-- The bytes of an encoding, by the size of the code point. -/
def bytesOf (n : Nat) : List Byte :=
  if n < 0x80 then [byte n]
  else if n < 0x800 then [byte (192 + n / 64), byte (128 + n % 64)]
  else if n < 0x10000 then
    [byte (224 + n / 4096), byte (128 + n / 64 % 64), byte (128 + n % 64)]
  else [byte (240 + n / 262144), byte (128 + n / 4096 % 64), byte (128 + n / 64 % 64),
    byte (128 + n % 64)]

theorem utf8_eq (c : Char) : utf8 c = bytesOf c.toNat := by
  have hvalid := scalar_bounds c
  have hval : c.val.toNat = c.toNat := rfl
  have hbyte (n : Nat) : (UInt8.ofNat n).toBitVec = byte n := rfl
  unfold utf8 bytesOf String.utf8EncodeChar
  simp only [hval]
  generalize c.toNat = n at hvalid
  split_ifs <;> first | omega | simp only [List.map_cons, List.map_nil, hbyte]
  · rw [show 192 + n / 64 = n / 64 % 0x20 + 0xc0 by omega, Nat.add_comm 128]
  · rw [show 224 + n / 4096 = n / 4096 % 0x10 + 0xe0 by omega, Nat.add_comm 128,
      Nat.add_comm 128]
  · rw [show 240 + n / 262144 = n / 262144 % 0x08 + 0xf0 by omega, Nat.add_comm 128,
      Nat.add_comm 128, Nat.add_comm 128]

/-- A scalar value is encoded, any other number refused. -/
theorem unicodeToUtf8_eq (uc : BitVec 32) :
    unicodeToUtf8 uc = if uc.toNat < 0xd800 ∨ 0xdfff < uc.toNat ∧ uc.toNat < 0x110000 then
      .ok (bytesOf uc.toNat)
      else .error ("0x" ++ hexText uc.toNat ++ " is not a valid universal character") := by
  unfold unicodeToUtf8 bytesOf
  simp only [surrogate_iff]
  simp only [BitVec.lt_def, BitVec.toNat_ofNat]
  norm_num only
  split_ifs <;> first | omega | rfl

/-- The encoder writes the encoding of a character. -/
theorem unicodeToUtf8_point (c : Char) : unicodeToUtf8 (point c) = .ok (utf8 c) := by
  rw [unicodeToUtf8_eq, point_toNat, if_pos (scalar_bounds c), utf8_eq]

/-- What it writes is the encoding of a character. -/
theorem unicodeToUtf8_eq_ok_iff (uc : BitVec 32) (bytes : List Byte) :
    unicodeToUtf8 uc = .ok bytes ↔ ∃ c, point c = uc ∧ utf8 c = bytes := by
  constructor
  · intro h
    rw [unicodeToUtf8_eq] at h
    split at h
    · next hvalid =>
      have hpoint : point (Char.ofNatAux uc.toNat hvalid) = uc := BitVec.eq_of_toNat_eq rfl
      refine ⟨_, hpoint, ?_⟩
      rw [utf8_eq, ← point_toNat, hpoint]
      exact Except.ok.inj h
    · cases h
  · rintro ⟨c, rfl, rfl⟩
    exact unicodeToUtf8_point c

/-! ## The continuation bytes -/

/-- `(n << 6) | (b & 0x3f)`. -/
def push6 (n : BitVec 32) (b : Byte) : BitVec 32 := n <<< 6 ||| b.setWidth 32 &&& 0x3f#32

/-- The bytes are what the loop accepts from byte `i` on of a sequence that starts with `c`. -/
def Accepts (c : Byte) (i : Nat) : List Byte → Prop
  | [] => True
  | b :: bs => (limits c i).1 ≤ b ∧ b ≤ (limits c i).2 ∧ Accepts c (i + 1) bs

theorem continuation_accepts {c : Byte} {i : Nat} {bs : List Byte} (h : Accepts c i bs)
    (n : BitVec 32) (rest : List Byte) :
    continuation c i n bs.length (bs ++ rest) = .char (bs.foldl push6 n) (i + bs.length) none := by
  induction bs generalizing i n with
  | nil => rfl
  | cons b bs ih =>
    obtain ⟨hlow, hhigh, hrest⟩ := h
    have hin : ¬ (b < (limits c i).1 ∨ (limits c i).2 < b) := by
      rw [not_or, BitVec.not_lt, BitVec.not_lt]
      exact ⟨hlow, hhigh⟩
    rw [List.length_cons, List.cons_append, continuation, if_neg hin, ← push6, ih hrest,
      List.foldl_cons, Nat.add_right_comm, Nat.add_assoc]

theorem limits_pos (c : Byte) (i : Nat) : 0#8 < (limits c i).1 := by
  unfold limits
  split_ifs <;> decide

/-- The zero byte ends the loop at the latest. -/
theorem continuation_cases (c : Byte) (i : Nat) (n : BitVec 32) (cont : Nat) (text : List Byte) :
    (∃ bs, bs.length = cont ∧ bs <+: text ∧ Accepts c i bs) ∨
      ∃ k, i ≤ k ∧ k ≤ i + text.length ∧
        continuation c i n cont (text ++ [0#8]) = illFormed c k := by
  induction cont generalizing i n text with
  | zero => exact .inl ⟨[], rfl, List.nil_prefix, trivial⟩
  | succ cont ih =>
    cases text with
    | nil =>
      refine .inr ⟨i, le_rfl, by simp, ?_⟩
      rw [List.nil_append, continuation, if_pos (.inl (limits_pos c i))]
    | cons b text =>
      by_cases hout : b < (limits c i).1 ∨ (limits c i).2 < b
      · refine .inr ⟨i, le_rfl, by simp, ?_⟩
        rw [List.cons_append, continuation, if_pos hout]
      · rcases ih (i + 1) (push6 n b) text with ⟨bs, hlen, hpre, hbs⟩ | ⟨k, hlow, hhigh, heq⟩
        · rw [not_or, BitVec.not_lt, BitVec.not_lt] at hout
          exact .inl ⟨b :: bs, by rw [List.length_cons, hlen], List.cons_prefix_cons.2 ⟨rfl, hpre⟩,
            hout.1, hout.2, hbs⟩
        · refine .inr ⟨k, by omega, by rw [List.length_cons]; omega, ?_⟩
          rw [List.cons_append, continuation, if_neg hout]
          exact heq

theorem push6_toNat {n : BitVec 32} (h : n.toNat < 2 ^ 26) (b : Byte) :
    (push6 n b).toNat = n.toNat * 64 + b.toNat % 64 := by
  have hb : b.toNat < 2 ^ 32 := lt_of_lt_of_le b.isLt (by norm_num)
  have hlow : b.toNat % 64 < 2 ^ 6 := Nat.mod_lt _ (by norm_num)
  rw [push6, BitVec.toNat_or, BitVec.toNat_and, BitVec.toNat_setWidth, BitVec.toNat_shiftLeft,
    Nat.mod_eq_of_lt hb, Nat.shiftLeft_eq, Nat.mod_eq_of_lt (by omega),
    show (0x3f#32).toNat = 2 ^ 6 - 1 from rfl, Nat.and_two_pow_sub_one_eq_mod,
    ← Nat.shiftLeft_eq, ← Nat.shiftLeft_add_eq_or_of_lt hlow, Nat.shiftLeft_eq]

/-! ## The decoder -/

theorem accepts_first {c b : Byte} {bs : List Byte} :
    Accepts c 1 (b :: bs) ↔ (0x80 ≤ b.toNat ∧ b.toNat ≤ 0xBF ∧ (c.toNat = 0xE0 → 0xA0 ≤ b.toNat) ∧
      (c.toNat = 0xED → b.toNat ≤ 0x9F) ∧ (c.toNat = 0xF0 → 0x90 ≤ b.toNat) ∧
      (c.toNat = 0xF4 → b.toNat ≤ 0x8F)) ∧ Accepts c 2 bs := by
  rw [Accepts, ← and_assoc]
  refine and_congr_left' ?_
  unfold limits
  rw [if_pos rfl]
  split_ifs with h1 h2 h3 h4
  · simp [h1, BitVec.le_def]
    omega
  · simp [h2, BitVec.le_def]
    omega
  · simp [h3, BitVec.le_def]
    omega
  · simp [h4, BitVec.le_def]
    omega
  · simp only [← BitVec.toNat_inj, BitVec.toNat_ofNat] at h1 h2 h3 h4
    simp only [BitVec.le_def, BitVec.toNat_ofNat]
    omega

theorem accepts_later {c b : Byte} {bs : List Byte} {i : Nat} (h : i ≠ 1) :
    Accepts c i (b :: bs) ↔ (0x80 ≤ b.toNat ∧ b.toNat ≤ 0xBF) ∧ Accepts c (i + 1) bs := by
  rw [Accepts, limits, if_neg h, ← and_assoc]
  rfl

/-- The bits of the first byte that belong to the code point. -/
theorem lead_toNat (c : Byte) (k : Nat) (h : k ≤ 8) :
    (c.setWidth 32 &&& BitVec.ofNat 32 (2 ^ k - 1)).toNat = c.toNat % 2 ^ k := by
  have hc : c.toNat < 2 ^ 32 := lt_of_lt_of_le c.isLt (by norm_num)
  have hk : 2 ^ k ≤ 2 ^ 8 := Nat.pow_le_pow_right (by norm_num) h
  rw [BitVec.toNat_and, BitVec.toNat_setWidth, BitVec.toNat_ofNat, Nat.mod_eq_of_lt hc,
    Nat.mod_eq_of_lt (by omega), Nat.and_two_pow_sub_one_eq_mod]

/-- What a first byte asks for: the number of continuation bytes, and of its own bits. -/
def lead (c : Byte) : Option (Nat × Nat) :=
  if c < 0xC2#8 then none
  else if c ≤ 0xDF#8 then some (1, 5)
  else if c ≤ 0xEF#8 then some (2, 4)
  else if c ≤ 0xF4#8 then some (3, 3)
  else none

theorem lead_cases {c : Byte} {cont k : Nat} (h : lead c = some (cont, k)) :
    (cont = 1 ∧ k = 5 ∧ 0xC2 ≤ c.toNat ∧ c.toNat ≤ 0xDF) ∨
      (cont = 2 ∧ k = 4 ∧ 0xE0 ≤ c.toNat ∧ c.toNat ≤ 0xEF) ∨
      (cont = 3 ∧ k = 3 ∧ 0xF0 ≤ c.toNat ∧ c.toNat ≤ 0xF4) := by
  unfold lead at h
  simp only [BitVec.lt_def, BitVec.le_def, BitVec.toNat_ofNat] at h
  grind

theorem lead_of_le {c : Byte} (h : 0xC2 ≤ c.toNat ∧ c.toNat ≤ 0xF4) :
    lead c = if c.toNat ≤ 0xDF then some (1, 5) else if c.toNat ≤ 0xEF then some (2, 4)
      else some (3, 3) := by
  unfold lead
  simp only [BitVec.lt_def, BitVec.le_def, BitVec.toNat_ofNat]
  grind

theorem decodeUtf8_of_lead {c : Byte} {cont k : Nat} (h : lead c = some (cont, k))
    (rest : List Byte) : decodeUtf8 c rest =
      continuation c 1 (c.setWidth 32 &&& BitVec.ofNat 32 (2 ^ k - 1)) cont rest := by
  unfold lead at h
  unfold decodeUtf8
  split_ifs at h ⊢ <;> cases h <;> rfl

theorem decodeUtf8_of_no_lead {c : Byte} (h : lead c = none) (rest : List Byte) :
    decodeUtf8 c rest = illFormed c 1 := by
  unfold lead at h
  unfold decodeUtf8
  split_ifs at h ⊢ <;> rfl

/-- The number that a sequence stands for. -/
def numberOf (k : Nat) (c : Byte) (bs : List Byte) : Nat :=
  bs.foldl (fun n b => n * 64 + b.toNat % 64) (c.toNat % 2 ^ k)

theorem foldl_push6_toNat {n : BitVec 32} {bs : List Byte}
    (h : (n.toNat + 1) * 64 ^ bs.length ≤ 2 ^ 32) :
    (bs.foldl push6 n).toNat = bs.foldl (fun n b => n * 64 + b.toNat % 64) n.toNat := by
  induction bs generalizing n with
  | nil => rfl
  | cons b bs ih =>
    rw [List.length_cons, Nat.pow_succ'] at h
    have hpos : 0 < 64 ^ bs.length := Nat.pow_pos (by norm_num)
    have hroom : (n.toNat + 1) * 64 ≤ 2 ^ 32 :=
      (Nat.le_mul_of_pos_right _ hpos).trans ((Nat.mul_assoc _ _ _).trans_le h)
    have hpush := push6_toNat (n := n) (by omega) b
    have hlow : b.toNat % 64 < 64 := Nat.mod_lt _ (by norm_num)
    rw [List.foldl_cons, List.foldl_cons, ← hpush]
    refine ih ?_
    calc ((push6 n b).toNat + 1) * 64 ^ bs.length
        ≤ (n.toNat + 1) * 64 * 64 ^ bs.length := Nat.mul_le_mul_right _ (by omega)
      _ ≤ 2 ^ 32 := (Nat.mul_assoc _ _ _).trans_le h

/-- The decoder reads the number from a sequence that it accepts. -/
theorem decodeUtf8_accepts {c : Byte} {bs : List Byte} {k : Nat}
    (hlead : lead c = some (bs.length, k)) (h : Accepts c 1 bs) (rest : List Byte) :
    ∃ v : BitVec 32, v.toNat = numberOf k c bs ∧
      decodeUtf8 c (bs ++ rest) = .char v (1 + bs.length) none := by
  have hk := lead_cases hlead
  have hbits := lead_toNat c k (by omega)
  refine ⟨bs.foldl push6 (c.setWidth 32 &&& BitVec.ofNat 32 (2 ^ k - 1)), ?_, ?_⟩
  · rw [numberOf, ← hbits]
    refine foldl_push6_toNat ?_
    rw [hbits]
    rcases hk with ⟨hlen, rfl, -⟩ | ⟨hlen, rfl, -⟩ | ⟨hlen, rfl, -⟩
    · rw [hlen]
      omega
    · rw [hlen]
      omega
    · rw [hlen]
      omega
  · rw [decodeUtf8_of_lead hlead]
    exact continuation_accepts h _ rest

/-! ## Sequences and characters -/

/-- A sequence that the decoder accepts is the encoding of its number. -/
theorem bytesOf_numberOf {c : Byte} {bs : List Byte} {k : Nat}
    (hlead : lead c = some (bs.length, k)) (h : Accepts c 1 bs) :
    (numberOf k c bs < 0xd800 ∨ 0xdfff < numberOf k c bs ∧ numberOf k c bs < 0x110000) ∧
      bytesOf (numberOf k c bs) = c :: bs := by
  have hbyte {m : Nat} {b : Byte} (hm : m = b.toNat) : byte m = b := by
    rw [hm]
    exact BitVec.eq_of_toNat_eq (byte_toNat b.isLt)
  rcases lead_cases hlead with ⟨hlen, rfl, hlow, hhigh⟩ | ⟨hlen, rfl, hlow, hhigh⟩ |
    ⟨hlen, rfl, hlow, hhigh⟩
  · obtain ⟨b1, rfl⟩ := List.length_eq_one_iff.1 hlen
    obtain ⟨h1, -⟩ := accepts_first.1 h
    have hnum : numberOf 5 c [b1] = c.toNat % 32 * 64 + b1.toNat % 64 := rfl
    rw [bytesOf, hnum, if_neg (by omega), if_pos (by omega)]
    refine ⟨by omega, ?_⟩
    rw [hbyte (b := c) (by omega), hbyte (b := b1) (by omega)]
  · obtain ⟨b1, b2, rfl⟩ := List.length_eq_two.1 hlen
    obtain ⟨h1, hrest⟩ := accepts_first.1 h
    obtain ⟨h2, -⟩ := (accepts_later (by decide)).1 hrest
    have hnum : numberOf 4 c [b1, b2] =
      (c.toNat % 16 * 64 + b1.toNat % 64) * 64 + b2.toNat % 64 := rfl
    rw [bytesOf, hnum, if_neg (by omega), if_neg (by omega), if_pos (by omega)]
    refine ⟨by omega, ?_⟩
    rw [hbyte (b := c) (by omega), hbyte (b := b1) (by omega), hbyte (b := b2) (by omega)]
  · obtain ⟨b1, b2, b3, rfl⟩ := List.length_eq_three.1 hlen
    obtain ⟨h1, hrest⟩ := accepts_first.1 h
    obtain ⟨h2, hrest⟩ := (accepts_later (by decide)).1 hrest
    obtain ⟨h3, -⟩ := (accepts_later (by decide)).1 hrest
    have hnum : numberOf 3 c [b1, b2, b3] =
      ((c.toNat % 8 * 64 + b1.toNat % 64) * 64 + b2.toNat % 64) * 64 + b3.toNat % 64 := rfl
    rw [bytesOf, hnum, if_neg (by omega), if_neg (by omega), if_neg (by omega)]
    refine ⟨by omega, ?_⟩
    rw [hbyte (b := c) (by omega), hbyte (b := b1) (by omega), hbyte (b := b2) (by omega),
      hbyte (b := b3) (by omega)]

/-- The decoder accepts every encoding, with its number. -/
theorem exists_lead_of_bytesOf {n : Nat} (hlarge : 0x80 ≤ n)
    (hn : n < 0xd800 ∨ 0xdfff < n ∧ n < 0x110000) :
    ∃ c bs k, bytesOf n = c :: bs ∧ lead c = some (bs.length, k) ∧ Accepts c 1 bs ∧
      numberOf k c bs = n := by
  by_cases h2 : n < 0x800
  · refine ⟨byte (192 + n / 64), [byte (128 + n % 64)], 5, ?_, ?_, ?_, ?_⟩
    · rw [bytesOf, if_neg (by omega), if_pos h2]
    · rw [lead_of_le, byte_toNat (by omega), if_pos (by omega)]
      · rfl
      · rw [byte_toNat (by omega)]
        omega
    · rw [accepts_first, byte_toNat (by omega), byte_toNat (by omega)]
      exact ⟨by omega, trivial⟩
    · show (byte (192 + n / 64)).toNat % 32 * 64 + (byte (128 + n % 64)).toNat % 64 = n
      rw [byte_toNat (by omega), byte_toNat (by omega)]
      omega
  by_cases h3 : n < 0x10000
  · refine ⟨byte (224 + n / 4096), [byte (128 + n / 64 % 64), byte (128 + n % 64)], 4, ?_, ?_, ?_, ?_⟩
    · rw [bytesOf, if_neg (by omega), if_neg h2, if_pos h3]
    · rw [lead_of_le, byte_toNat (by omega), if_neg (by omega), if_pos (by omega)]
      · rfl
      · rw [byte_toNat (by omega)]
        omega
    · rw [accepts_first, accepts_later (by decide), byte_toNat (by omega), byte_toNat (by omega),
        byte_toNat (by omega)]
      exact ⟨by omega, by omega, trivial⟩
    · show ((byte (224 + n / 4096)).toNat % 16 * 64 + (byte (128 + n / 64 % 64)).toNat % 64) * 64 +
        (byte (128 + n % 64)).toNat % 64 = n
      rw [byte_toNat (by omega), byte_toNat (by omega), byte_toNat (by omega)]
      omega
  · refine ⟨byte (240 + n / 262144), [byte (128 + n / 4096 % 64), byte (128 + n / 64 % 64),
      byte (128 + n % 64)], 3, ?_, ?_, ?_, ?_⟩
    · rw [bytesOf, if_neg (by omega), if_neg h2, if_neg h3]
    · rw [lead_of_le, byte_toNat (by omega), if_neg (by omega), if_neg (by omega)]
      · rfl
      · rw [byte_toNat (by omega)]
        omega
    · rw [accepts_first, accepts_later (by decide), accepts_later (by decide),
        byte_toNat (by omega), byte_toNat (by omega), byte_toNat (by omega), byte_toNat (by omega)]
      exact ⟨by omega, by omega, by omega, trivial⟩
    · show (((byte (240 + n / 262144)).toNat % 8 * 64 + (byte (128 + n / 4096 % 64)).toNat % 64) * 64 +
        (byte (128 + n / 64 % 64)).toNat % 64) * 64 + (byte (128 + n % 64)).toNat % 64 = n
      rw [byte_toNat (by omega), byte_toNat (by omega), byte_toNat (by omega), byte_toNat (by omega)]
      omega

/-- The decoder reads an encoding back. -/
theorem decodeUtf8_utf8 {u : Char} {c : Byte} {bs : List Byte} (h : utf8 u = c :: bs)
    (hlarge : 0x80 ≤ u.toNat) (rest : List Byte) :
    decodeUtf8 c (bs ++ rest) = .char (point u) (utf8 u).length none := by
  obtain ⟨c', bs', k, hbytes, hlead, haccepts, hnum⟩ :=
    exists_lead_of_bytesOf hlarge (scalar_bounds u)
  obtain ⟨rfl, rfl⟩ := List.cons.inj (h.symm.trans ((utf8_eq u).trans hbytes))
  obtain ⟨v, hv, hdecode⟩ := decodeUtf8_accepts hlead haccepts rest
  obtain rfl : v = point u := BitVec.eq_of_toNat_eq (hv.trans hnum)
  rw [hdecode, h, List.length_cons, Nat.add_comm]

/-- What the decoder finds in front of the zero byte: an encoding, or a sequence that is none. -/
theorem decodeUtf8_cases (c : Byte) (text : List Byte) :
    (∃ u, 0x80 ≤ u.toNat ∧ utf8 u <+: c :: text ∧
      decodeUtf8 c (text ++ [0#8]) = .char (point u) (utf8 u).length none) ∨
    ∃ skip, 1 ≤ skip ∧ skip ≤ (c :: text).length ∧
      decodeUtf8 c (text ++ [0#8]) = illFormed c skip := by
  cases hlead : lead c with
  | none => exact .inr ⟨1, le_rfl, by simp, decodeUtf8_of_no_lead hlead _⟩
  | some found =>
    obtain ⟨cont, k⟩ := found
    rcases continuation_cases c 1 (c.setWidth 32 &&& BitVec.ofNat 32 (2 ^ k - 1)) cont text with
      ⟨bs, rfl, ⟨rest, rfl⟩, haccepts⟩ | ⟨skip, hlow, hhigh, heq⟩
    · obtain ⟨v, hv, hdecode⟩ := decodeUtf8_accepts hlead haccepts (rest ++ [0#8])
      obtain ⟨hscalar, hbytes⟩ := bytesOf_numberOf hlead haccepts
      rw [← hv] at hscalar hbytes
      have hencodes : unicodeToUtf8 v = .ok (c :: bs) := by
        rw [unicodeToUtf8_eq, if_pos hscalar, hbytes]
      obtain ⟨u, rfl, hu⟩ := (unicodeToUtf8_eq_ok_iff v _).1 hencodes
      refine .inl ⟨u, ?_, ?_, ?_⟩
      · by_contra hsmall
        rw [bytesOf, if_pos (by rw [point_toNat]; omega)] at hbytes
        obtain ⟨-, rfl⟩ := List.cons.inj hbytes
        rcases lead_cases hlead with ⟨h, -⟩ | ⟨h, -⟩ | ⟨h, -⟩ <;> cases h
      · rw [hu]
        exact List.cons_prefix_cons.2 ⟨rfl, List.prefix_append bs rest⟩
      · rw [List.append_assoc, hdecode, hu, List.length_cons, Nat.add_comm]
    · refine .inr ⟨skip, hlow, by rw [List.length_cons]; omega, ?_⟩
      rw [decodeUtf8_of_lead hlead]
      exact heq

/-! ## The loop over a wide literal -/

theorem utf8_of_lt {u : Char} (h : u.toNat < 0x80) : utf8 u = [byte u.toNat] := by
  rw [utf8_eq, bytesOf, if_pos h]

/-- The first byte of a longer encoding is not ASCII. -/
theorem utf8_cons_of_le {u : Char} (h : 0x80 ≤ u.toNat) :
    ∃ c bs, utf8 u = c :: bs ∧ 0x80#8 ≤ c := by
  obtain ⟨c, bs, k, hbytes, hlead, -⟩ := exists_lead_of_bytesOf h (scalar_bounds u)
  refine ⟨c, bs, (utf8_eq u).trans hbytes, ?_⟩
  rw [BitVec.le_def]
  have := lead_cases hlead
  simp only [BitVec.toNat_ofNat]
  omega

theorem ne_of_high {c : Byte} (h : 0x80#8 ≤ c) : c ≠ 0#8 ∧ c ≠ ch '\\' := by
  constructor <;> rintro rfl <;> exact absurd h (by decide)

/-- A round reads an encoding back, unless it is that of the terminating zero or of the backslash. -/
theorem round_utf8 (gnuExt : Bool) {u : Char} (hzero : u ≠ '\x00') (hslash : u ≠ '\\')
    (rest : List Byte) :
    round gnuExt true (utf8 u ++ rest) = .char (point u) (utf8 u).length none := by
  by_cases h : u.toNat < 0x80
  · have hne {v : Char} (hv : v.toNat < 0x80) (huv : u ≠ v) : byte u.toNat ≠ ch v := fun heq =>
      huv (Char.ext (UInt32.toNat_inj.1 (by
        have := congrArg BitVec.toNat heq
        rwa [byte_toNat (by omega), ch, ← byte, byte_toNat (by omega)] at this)))
    have hascii : ¬ (true = true ∧ 0x80#8 ≤ byte u.toNat) := by
      rw [BitVec.le_def, byte_toNat (by omega), BitVec.toNat_ofNat]
      omega
    have hend : byte u.toNat ≠ ch '\x00' := hne (by decide) hzero
    rw [utf8_of_lt h, List.singleton_append, round, if_neg (show byte u.toNat ≠ 0#8 from hend),
      if_neg (hne (by decide) hslash), if_neg hascii]
    congr 1
    refine BitVec.eq_of_toNat_eq ?_
    rw [BitVec.toNat_setWidth, byte_toNat (by omega), point_toNat]
    omega
  · obtain ⟨c, bs, hu, hhigh⟩ := utf8_cons_of_le (Nat.le_of_not_lt h)
    rw [hu, List.cons_append, round, if_neg (ne_of_high hhigh).1, if_neg (ne_of_high hhigh).2,
      if_pos ⟨rfl, hhigh⟩, ← hu]
    exact decodeUtf8_utf8 hu (Nat.le_of_not_lt h) rest

/-- A round for any other byte: an encoding is read as its character, anything else is reported. -/
theorem round_cases (gnuExt : Bool) {c : Byte} (hzero : c ≠ 0#8) (hslash : c ≠ ch '\\')
    (text : List Byte) :
    (∃ u, utf8 u <+: c :: text ∧
      round gnuExt true (c :: text ++ [0#8]) = .char (point u) (utf8 u).length none) ∨
    ∃ skip, 1 ≤ skip ∧ skip ≤ (c :: text).length ∧
      round gnuExt true (c :: text ++ [0#8]) = illFormed c skip := by
  rw [List.cons_append, round, if_neg hzero, if_neg hslash]
  by_cases hhigh : 0x80#8 ≤ c
  · rw [if_pos ⟨rfl, hhigh⟩]
    rcases decodeUtf8_cases c text with ⟨u, -, hpre, heq⟩ | hill
    · exact .inl ⟨u, hpre, heq⟩
    · exact .inr hill
  · rw [if_neg (fun h => hhigh h.2)]
    rw [BitVec.le_def, BitVec.toNat_ofNat] at hhigh
    have hchar : (Char.ofNat c.toNat).toNat = c.toNat := by
      rw [Char.toNat_ofNat, if_pos (.inl (by omega))]
    have hutf8 : utf8 (Char.ofNat c.toNat) = [c] := by
      rw [utf8_of_lt (by omega), hchar]
      exact congrArg (fun b => [b]) (BitVec.eq_of_toNat_eq (byte_toNat c.isLt))
    refine .inl ⟨Char.ofNat c.toNat, ?_, ?_⟩
    · rw [hutf8]
      exact List.cons_prefix_cons.2 ⟨rfl, List.nil_prefix⟩
    · rw [hutf8]
      congr 1
      refine BitVec.eq_of_toNat_eq ?_
      rw [point_toNat, hchar, BitVec.toNat_setWidth]
      omega

theorem utf8_length_pos (u : Char) : 1 ≤ (utf8 u).length := by
  rw [utf8, List.length_map, Nat.one_le_iff_ne_zero, Ne, List.length_eq_zero_iff]
  exact String.utf8EncodeChar_ne_nil

/-- A literal of characters is read back. -/
theorem parseEscapeString_utf8 (gnuExt : Bool) {us : List Char}
    (h : ∀ u ∈ us, u ≠ '\x00' ∧ u ≠ '\\') :
    parseEscapeString gnuExt true (us.flatMap utf8) =
      some (.ok ⟨(us.map point).flatMap (storeChar true) ++ storeChar true 0#32, []⟩) := by
  have hloop : ∀ fuel, us.length < fuel → escapeLoop gnuExt true fuel (us.flatMap utf8 ++ [0#8]) =
      some (.ok ⟨(us.map point).flatMap (storeChar true) ++ storeChar true 0#32, []⟩) := by
    induction us with
    | nil =>
      intro fuel hfuel
      obtain ⟨fuel, rfl⟩ := Nat.exists_eq_add_of_lt hfuel
      rfl
    | cons u us ih =>
      intro fuel hfuel
      obtain ⟨fuel, rfl⟩ := Nat.exists_eq_add_of_lt hfuel
      obtain ⟨hzero, hslash⟩ := h u List.mem_cons_self
      have hrest := ih (fun v hv => h v (List.mem_cons_of_mem u hv)) (us.length + 1 + fuel)
        (by omega)
      rw [List.flatMap_cons, List.append_assoc, List.length_cons,
        escapeLoop_char (round_utf8 gnuExt hzero hslash _), List.drop_left, hrest]
      simp only [Option.map_some, Except.map, Literal.prepend, Option.toList_none, List.nil_append,
        List.map_cons, List.flatMap_cons, List.append_assoc]
  refine hloop _ ?_
  have hlen : us.length ≤ (us.flatMap utf8).length := by
    rw [List.length_flatMap]
    calc us.length = (us.map fun _ => 1).sum := by simp
      _ ≤ (us.map fun u => (utf8 u).length).sum := List.sum_le_sum fun u _ => utf8_length_pos u
  omega

/-- A literal without escapes is read to its end and not further, whatever its bytes are. -/
theorem exists_parseEscapeString (gnuExt : Bool) {text : List Byte}
    (h : ∀ b ∈ text, b ≠ 0#8 ∧ b ≠ ch '\\') :
    ∃ l, parseEscapeString gnuExt true text = some (.ok l) := by
  have hloop : ∀ fuel (text : List Byte), text.length < fuel →
      (∀ b ∈ text, b ≠ 0#8 ∧ b ≠ ch '\\') →
      ∃ l, escapeLoop gnuExt true fuel (text ++ [0#8]) = some (.ok l) := by
    intro fuel
    induction fuel with
    | zero => exact fun text hfuel => absurd hfuel (Nat.not_lt_zero _)
    | succ fuel ih =>
      intro text hfuel h
      cases text with
      | nil => exact ⟨_, rfl⟩
      | cons c text =>
        obtain ⟨hzero, hslash⟩ := h c List.mem_cons_self
        have hround : ∃ v used warning, 1 ≤ used ∧ used ≤ (c :: text).length ∧
            round gnuExt true (c :: text ++ [0#8]) = .char v used warning := by
          rcases round_cases gnuExt hzero hslash text with ⟨u, hpre, heq⟩ | ⟨skip, hlow, hhigh, heq⟩
          · exact ⟨_, _, _, utf8_length_pos u, hpre.length_le, heq⟩
          · exact ⟨_, _, _, hlow, hhigh, heq⟩
        obtain ⟨v, used, warning, hlow, hhigh, heq⟩ := hround
        obtain ⟨l, hl⟩ := ih ((c :: text).drop used)
          (by rw [List.length_drop]; rw [List.length_cons] at hfuel hhigh ⊢; omega)
          (fun b hb => h b (List.mem_of_mem_drop hb))
        rw [← List.drop_append_of_le_length hhigh] at hl
        refine ⟨l.prepend (storeChar true v) warning.toList, ?_⟩
        rw [escapeLoop_char heq, hl]
        rfl
  exact hloop _ text (Nat.lt_succ_self _) h

/-- **UTF-8.** The decoder of wide literals reads what `unicode_to_utf8` writes for a character and
nothing more, unless the character ends the literal or starts an escape sequence. On any other byte it
takes one byte or more, all of the literal, and either they are the encoding of the character that it
gives or it reports them, and then no encoding starts there. So a literal without escapes is read to
its end and not further. -/
theorem utf8_read_back (gnuExt : Bool) :
    (∀ u, u ≠ '\x00' → u ≠ '\\' → ∃ bytes, unicodeToUtf8 (point u) = .ok bytes ∧
      ∀ rest, round gnuExt true (bytes ++ rest) = .char (point u) bytes.length none) ∧
    (∀ c text, c ≠ 0#8 → c ≠ ch '\\' → ∃ v used warning,
      round gnuExt true (c :: text ++ [0#8]) = .char v used warning ∧
      1 ≤ used ∧ used ≤ (c :: text).length ∧
      (warning = none ∧ unicodeToUtf8 v = .ok ((c :: text).take used) ∨
        warning.isSome ∧ v = 0xFFFD#32 ∧
          ∀ w bytes, unicodeToUtf8 w = .ok bytes → ¬ bytes <+: c :: text)) ∧
    ∀ text, (∀ b ∈ text, b ≠ 0#8 ∧ b ≠ ch '\\') →
      ∃ l, parseEscapeString gnuExt true text = some (.ok l) := by
  refine ⟨fun u hzero hslash => ?_, fun c text hzero hslash => ?_,
    fun text h => exists_parseEscapeString gnuExt h⟩
  · exact ⟨utf8 u, unicodeToUtf8_point u, round_utf8 gnuExt hzero hslash⟩
  · rcases round_cases gnuExt hzero hslash text with ⟨u, hpre, heq⟩ | ⟨skip, hlow, hhigh, heq⟩
    · refine ⟨_, _, _, heq, utf8_length_pos u, hpre.length_le, .inl ⟨rfl, ?_⟩⟩
      rw [unicodeToUtf8_point, ← List.prefix_iff_eq_take.1 hpre]
    · refine ⟨_, _, _, heq, hlow, hhigh, .inr ⟨rfl, rfl, fun w bytes hw hpre => ?_⟩⟩
      -- an encoding there would have been read back
      obtain ⟨u, rfl, rfl⟩ := (unicodeToUtf8_eq_ok_iff w bytes).1 hw
      obtain ⟨rest, hrest⟩ := hpre
      have hu0 : u ≠ '\x00' := by
        rintro rfl
        exact hzero (List.cons.inj hrest).1.symm
      have hu1 : u ≠ '\\' := by
        rintro rfl
        exact hslash (List.cons.inj hrest).1.symm
      have hback := round_utf8 gnuExt hu0 hu1 (rest ++ [0#8])
      rw [← List.append_assoc, hrest, heq] at hback
      cases (Round.char.inj hback).2.2

/-- The euro sign, and an overlong encoding of the slash. -/
theorem utf8_read_back_euro :
    (∃ bytes, unicodeToUtf8 (point '€') = .ok bytes ∧
      ∀ rest, round true true (bytes ++ rest) = .char (point '€') bytes.length none) ∧
    (∃ v used warning, round true true ([0xC0#8, 0xAF#8] ++ [0#8]) = .char v used warning ∧
      1 ≤ used ∧ used ≤ 2 ∧
      (warning = none ∧ unicodeToUtf8 v = .ok ([0xC0#8, 0xAF#8].take used) ∨
        warning.isSome ∧ v = 0xFFFD#32 ∧
          ∀ w bytes, unicodeToUtf8 w = .ok bytes → ¬ bytes <+: [0xC0#8, 0xAF#8])) ∧
    ∃ l, parseEscapeString true true [0xC0#8, 0xAF#8] = some (.ok l) :=
  ⟨(utf8_read_back true).1 '€' (by decide) (by decide),
    (utf8_read_back true).2.1 0xC0#8 [0xAF#8] (by decide) (by decide),
    (utf8_read_back true).2.2 [0xC0#8, 0xAF#8] (by decide)⟩

/-- The encoding of the backslash starts an escape sequence. -/
theorem backslash_not_read_back : ¬ ∃ bytes, unicodeToUtf8 (point '\\') = .ok bytes ∧
    ∀ rest, round true true (bytes ++ rest) = .char (point '\\') bytes.length none := by
  rintro ⟨bytes, hbytes, hround⟩
  obtain rfl : [ch '\\'] = bytes := Except.ok.inj hbytes
  exact absurd (hround [ch 'n']) (by decide)

end TccRiscv64.Lex
