import TccRiscv64.Pp.TokenString

set_option autoImplicit false

/-! # Token strings: what is stored is read back

The bytes that a token is stored as (`Encodes`), the buffer that holds the bytes of the tokens so
far (`Holds`), and the reader on such bytes. -/

namespace TccRiscv64.Pp

/-! ## Cells -/

@[simp] theorem cellBytes_length (w : Cell) : (cellBytes w).length = 4 := rfl

theorem readCell_cellBytes (w : Cell) (p : List Byte) : readCell (cellBytes w ++ p) = some (w, p) := by
  simp only [cellBytes, List.cons_append, List.nil_append, readCell, Option.some.injEq,
    Prod.mk.injEq, and_true]
  refine BitVec.eq_of_getLsbD_eq fun i hi => ?_
  simp only [BitVec.getLsbD_append, BitVec.getLsbD_extractLsb']
  grind

theorem bytes_of_writeAt {mem bs pre str : List Byte} {ofs : Nat}
    (hpre : pre <+: mem) (hofs : pre.length = ofs) (h : writeAt mem ofs bs = some str) :
    pre ++ bs <+: str ∧ str.length = mem.length := by
  unfold writeAt at h
  split at h
  · next hle =>
    cases h
    obtain ⟨rest, rfl⟩ := hpre
    constructor
    · rw [← hofs, List.take_left]
      exact ⟨_, rfl⟩
    · simp only [List.length_append, List.length_take, List.length_drop]
      simp only [List.length_append] at hle
      omega
  · cases h

theorem writeAt_of_le {mem bs : List Byte} {ofs : Nat} (h : ofs + bs.length ≤ mem.length) :
    ∃ str, writeAt mem ofs bs = some str := ⟨_, if_pos h⟩

theorem writeAt_of_lt {mem bs : List Byte} {ofs : Nat} (h : mem.length < ofs + bs.length) :
    writeAt mem ofs bs = none := if_neg (by omega)

/-! ## The buffer -/

/-- The most cells whose bytes an `unsigned int` counts, as a capacity that doubling reaches. -/
def maxCells : Nat := 2 ^ 29

/-- The capacities that doubling reaches, up to `maxCells`. -/
def Capacity (n : Nat) : Prop := n = 0 ∨ ∃ k, k ≤ 25 ∧ n = 16 * 2 ^ k

/-- The buffer of `s` starts with `bs`, and has room for `allocatedLen` cells. -/
structure Holds (s : TokenString) (bs : List Byte) : Prop where
  length : bs.length = 4 * s.len
  starts : bs <+: s.str
  capacity : s.str.length = 4 * s.allocatedLen
  doubled : Capacity s.allocatedLen

theorem Capacity.le {n : Nat} (h : Capacity n) : n ≤ maxCells := by
  rcases h with rfl | ⟨k, hk, rfl⟩
  · exact Nat.zero_le _
  · have : 2 ^ k ≤ 2 ^ 25 := Nat.pow_le_pow_right (by decide) hk
    unfold maxCells
    omega

theorem holds_new : Holds tokStrNew [] := ⟨rfl, List.nil_prefix, rfl, Or.inl rfl⟩

theorem growTo_of_le {size newSize : Nat} (h : newSize ≤ size) : growTo size newSize = some size := by
  rw [growTo, if_neg (by omega)]

/-- Doubling from a power of two reaches the size that was asked for, if it is not too large. -/
theorem growTo_le {k newSize : Nat} (hk : k ≤ 25) (h : newSize ≤ maxCells) :
    ∃ j, j ≤ 25 ∧ k ≤ j ∧ growTo (16 * 2 ^ k) newSize = some (16 * 2 ^ j)
      ∧ newSize ≤ 16 * 2 ^ j := by
  induction hd : 25 - k generalizing k with
  | zero =>
    have : k = 25 := by omega
    subst this
    refine ⟨25, le_rfl, le_rfl, growTo_of_le ?_, ?_⟩ <;> exact h
  | succ d ih =>
    by_cases hle : newSize ≤ 16 * 2 ^ k
    · exact ⟨k, hk, le_rfl, growTo_of_le hle, hle⟩
    · obtain ⟨j, hj, hkj, hgrow, hj'⟩ := ih (by omega : k + 1 ≤ 25) (by omega)
      have hpow : 2 ^ k ≤ 2 ^ 24 := Nat.pow_le_pow_right (by decide) (by omega)
      have hpos : 0 < 2 ^ k := Nat.two_pow_pos k
      refine ⟨j, hj, by omega, ?_, hj'⟩
      rw [growTo, if_pos (by omega), if_pos (by omega), ← hgrow, pow_succ]
      ring_nf

/-- Beyond `maxCells`, doubling ends at a size of 2^32 bytes or overflows. -/
theorem growTo_gt {k newSize : Nat} (hk : k ≤ 26) (h : maxCells < newSize) :
    growTo (16 * 2 ^ k) newSize = none ∨ growTo (16 * 2 ^ k) newSize = some (2 ^ 30) := by
  induction hd : 26 - k generalizing k with
  | zero =>
    have : k = 26 := by omega
    subst this
    rw [growTo]
    split
    · exact Or.inl (if_neg (by omega))
    · exact Or.inr rfl
  | succ d ih =>
    have hpow : 2 ^ k ≤ 2 ^ 25 := Nat.pow_le_pow_right (by decide) (by omega)
    have hpos : 0 < 2 ^ k := Nat.two_pow_pos k
    have hlt : 16 * 2 ^ k < newSize := by
      unfold maxCells at h
      omega
    rw [growTo, if_pos hlt, if_pos (by omega), show 16 * 2 ^ k * 2 = 16 * 2 ^ (k + 1) by ring]
    exact ih (by omega) (by omega)

theorem talRealloc_isPrefix (fresh : Nat → Nat → Byte) {old : List Byte} {size : BitVec 32}
    (h : old.length ≤ size.toNat) : old <+: talRealloc fresh old size := by
  rw [List.prefix_iff_eq_take]
  refine List.ext_getElem ?_ fun i h1 h2 => ?_
  · rw [List.length_take, talRealloc, List.length_ofFn]
    omega
  · rw [List.getElem_take]
    simp [talRealloc, h1]

section Realloc

variable (fresh : Nat → Nat → Byte) {s : TokenString} {bs : List Byte} {n : Nat}

theorem max_capacity (h : Capacity s.allocatedLen) :
    ∃ k, k ≤ 25 ∧ max s.allocatedLen 16 = 16 * 2 ^ k := by
  rcases h with h | ⟨k, hk, h⟩
  · exact ⟨0, by decide, by rw [h]; rfl⟩
  · have hpos : 0 < 2 ^ k := Nat.two_pow_pos k
    exact ⟨k, hk, by omega⟩

theorem tokStrRealloc_of_le (hs : Holds s bs) (hn : n ≤ maxCells) :
    ∃ s', tokStrRealloc fresh s n = some s' ∧ Holds s' bs ∧ s'.len = s.len
      ∧ n ≤ s'.allocatedLen := by
  obtain ⟨k, hk, hmax⟩ := max_capacity hs.doubled
  obtain ⟨j, hj, hkj, hgrow, hnj⟩ := growTo_le hk hn
  unfold tokStrRealloc
  rw [hmax, hgrow, Option.map_some]
  refine ⟨_, rfl, ?_⟩
  have hpow : 2 ^ j ≤ 2 ^ 25 := Nat.pow_le_pow_right (by decide) hj
  split
  · next hlt =>
    have hsize : (BitVec.ofNat 32 (16 * 2 ^ j * 4)).toNat = 16 * 2 ^ j * 4 := by
      rw [BitVec.toNat_ofNat]
      omega
    have hcap := hs.capacity
    refine ⟨⟨hs.length, hs.starts.trans (talRealloc_isPrefix fresh ?_), ?_, Or.inr ⟨j, hj, rfl⟩⟩,
      rfl, hnj⟩
    · rw [hsize]
      omega
    · simp only [talRealloc, List.length_ofFn]
      omega
  · next hge => exact ⟨hs, rfl, by omega⟩

/-- A buffer of `maxCells` cells does not grow: the new one has no bytes. -/
theorem tokStrRealloc_of_gt (hs : Holds s bs) (hn : maxCells < n) :
    tokStrRealloc fresh s n = none ∨ ∃ s', tokStrRealloc fresh s n = some s' ∧ s'.str = [] := by
  obtain ⟨k, hk, hmax⟩ := max_capacity hs.doubled
  unfold tokStrRealloc
  rw [hmax]
  rcases growTo_gt (by omega : k ≤ 26) hn with h | h
  · exact Or.inl (by rw [h]; rfl)
  · have hle : s.allocatedLen < 2 ^ 30 := lt_of_le_of_lt hs.doubled.le (by decide)
    refine Or.inr ⟨_, by rw [h]; rfl, ?_⟩
    simp only [if_pos hle]
    exact List.eq_nil_of_length_eq_zero (by rw [talRealloc, List.length_ofFn]; rfl)

/-- Room is made for the cell at `n`, if the buffer can have it. -/
theorem reserve_of_lt (hs : Holds s bs) (hn : n < maxCells) :
    ∃ s', s.reserve fresh n = some s'
      ∧ Holds s' bs ∧ s'.len = s.len ∧ n < s'.allocatedLen := by
  unfold TokenString.reserve
  split
  · exact tokStrRealloc_of_le fresh hs hn
  · exact ⟨s, rfl, hs, rfl, by omega⟩

theorem reserve_of_ge (hs : Holds s bs) (hn : maxCells ≤ n) :
    s.reserve fresh n = none ∨ ∃ s', s.reserve fresh n = some s' ∧ s'.str = [] := by
  rw [TokenString.reserve, if_pos (hs.doubled.le.trans hn)]
  exact tokStrRealloc_of_gt fresh hs (Nat.lt_succ_of_le hn)

theorem push_of_lt (v : Cell) (hs : Holds s bs) (hlt : s.len < s.allocatedLen) :
    ∃ s', s.push v = some s' ∧ Holds s' (bs ++ cellBytes v) ∧ s'.len = s.len + 1
      ∧ s'.allocatedLen = s.allocatedLen := by
  have hcap := hs.capacity
  obtain ⟨str, hstr⟩ : ∃ str, writeAt s.str (4 * s.len) (cellBytes v) = some str :=
    writeAt_of_le (by rw [cellBytes_length]; omega)
  obtain ⟨hpre, hlen⟩ := bytes_of_writeAt hs.starts hs.length hstr
  refine ⟨{ s with str := str, len := s.len + 1 }, by rw [TokenString.push, hstr]; rfl,
    ⟨?_, hpre, hlen.trans hcap, hs.doubled⟩, rfl, rfl⟩
  rw [List.length_append, hs.length, cellBytes_length]
  ring

theorem push_nil (v : Cell) (hs : s.str = []) : s.push v = none := by
  rw [TokenString.push, hs, writeAt_of_lt (by simp)]
  rfl

theorem pushAll_of_lt (vs : List Cell) (hs : Holds s bs) (hlt : s.len + vs.length ≤ s.allocatedLen) :
    ∃ s', s.pushAll vs = some s' ∧ Holds s' (bs ++ vs.flatMap cellBytes) := by
  induction vs generalizing s bs with
  | nil => exact ⟨s, rfl, by simpa using hs⟩
  | cons v vs ih =>
    rw [List.length_cons] at hlt
    obtain ⟨s1, h1, hs1, hlen, hcap⟩ := push_of_lt v hs (by omega)
    obtain ⟨s2, h2, hs2⟩ := ih hs1 (by omega)
    refine ⟨s2, ?_, ?_⟩
    · rw [TokenString.pushAll, List.foldlM_cons, h1]
      exact h2
    · rwa [List.flatMap_cons, ← List.append_assoc]

/-- The string after its size: its bytes, and what the buffer held up to the next cell. -/
theorem addString_of_lt (data : List Byte) (hs : Holds s bs)
    (hlt : s.len + nbWords data.length ≤ s.allocatedLen) :
    ∃ s' pad, s.addString data = some s'
      ∧ data.length + pad.length = 4 * ((data.length + 3) / 4)
      ∧ Holds s' (bs ++ cellBytes (BitVec.ofNat 32 data.length) ++ data ++ pad) := by
  unfold nbWords at hlt
  obtain ⟨s1, h1, hs1, hlen1, hcap1⟩ := push_of_lt (BitVec.ofNat 32 data.length) hs (by omega)
  have hcap := hs1.capacity
  obtain ⟨str, hstr⟩ : ∃ str, writeAt s1.str (4 * (s.len + 1)) data = some str :=
    writeAt_of_le (by omega)
  obtain ⟨⟨rest, hrest⟩, hlen⟩ := bytes_of_writeAt hs1.starts (hlen1 ▸ hs1.length) hstr
  have hbytes := hs.length
  have hpad := congrArg List.length hrest
  simp only [List.length_append, cellBytes_length] at hpad
  refine ⟨{ s1 with str := str, len := s.len + nbWords data.length },
    rest.take (4 * ((data.length + 3) / 4) - data.length), ?_, ?_, ?_, ?_, hlen.trans hcap,
    hs1.doubled⟩
  · rw [TokenString.addString, h1]
    simp only [Option.bind_eq_bind, Option.bind_some, hstr]
  · rw [List.length_take]
    omega
  · simp only [List.length_append, cellBytes_length, List.length_take, nbWords]
    omega
  · refine ⟨rest.drop (4 * ((data.length + 3) / 4) - data.length), ?_⟩
    rw [List.append_assoc, List.take_append_drop, hrest]

end Realloc

/-! ## One token -/

/-- What a token has after its cell: a number of cells of its value, or a string. -/
inductive Shape
  | cells (n : Nat)
  | string

def shape (cfg : Config) (t : Cell) : Shape :=
  match kindOf t with
  | .cint | .cuint | .cchar | .lchar | .cfloat | .linenum => .cells 1
  | .clong | .culong => .cells (cfg.longSize / 4)
  | .ppnum | .ppstr | .str | .lstr => .string
  | .cdouble | .cllong | .cullong => .cells 2
  | .cldouble => .cells cfg.ldoubleCells
  | .other => .cells 0

/-- The bytes after the cell of a token. -/
def Payload (cfg : Config) (t : Cell) (cv : CValue) (payload : List Byte) : Prop :=
  match shape cfg t with
  | .cells n => payload = ((List.range n).map cv.tab).flatMap cellBytes
  | .string =>
    ∃ pad, cv.str.length + pad.length = 4 * ((cv.str.length + 3) / 4)
      ∧ payload = cellBytes (BitVec.ofNat 32 cv.str.length) ++ cv.str ++ pad

/-- `tok_size`. -/
def tokSize (cfg : Config) (t : Cell) (cv : CValue) : Nat :=
  match kindOf t with
  | .cint | .cuint | .cchar | .lchar | .cfloat | .linenum => 1 + 1
  | .str | .lstr | .ppnum | .ppstr => 1 + 1 + (cv.str.length + 3) / 4
  | .clong | .culong => 1 + cfg.longSize / 4
  | .cdouble | .cllong | .cullong => 1 + 2
  | .cldouble => 1 + cfg.ldoubleCells
  | .other => 1 + 0

section Token

variable {cfg : Config} {t : Cell} {cv : CValue}

theorem shape_le {n : Nat} (h : shape cfg t = .cells n) : n ≤ tokMaxSize := by
  have hlong := cfg.long_eq
  have hldouble := cfg.ldouble_eq
  unfold tokMaxSize
  unfold shape at h
  split at h <;> cases h <;> omega

theorem tokSize_cells {n : Nat} (h : shape cfg t = .cells n) : tokSize cfg t cv = 1 + n := by
  unfold shape at h
  unfold tokSize
  generalize kindOf t = kind at h ⊢
  cases kind <;> cases h <;> rfl

theorem tokSize_string (h : shape cfg t = .string) :
    tokSize cfg t cv = 2 + (cv.str.length + 3) / 4 := by
  unfold shape at h
  unfold tokSize
  generalize kindOf t = kind at h ⊢
  cases kind <;> cases h <;> rfl

theorem Payload.length {payload : List Byte} (h : Payload cfg t cv payload) :
    4 + payload.length = 4 * tokSize cfg t cv := by
  unfold Payload at h
  split at h
  · next n hn =>
    rw [h, tokSize_cells hn, List.length_flatMap]
    simp [Function.comp_def]
    omega
  · next hstr =>
    obtain ⟨pad, hpad, rfl⟩ := h
    rw [tokSize_string hstr]
    simp only [List.length_append, cellBytes_length]
    omega

theorem pushAll_singleton (s : TokenString) (v : Cell) : s.pushAll [v] = s.push v :=
  bind_pure (s.push v)

theorem addValue_cells (fresh : Nat → Nat → Byte) (s : TokenString) {n : Nat}
    (h : shape cfg t = .cells n) :
    addValue fresh cfg s t cv = s.pushAll ((List.range n).map cv.tab) := by
  unfold shape at h
  unfold addValue
  generalize kindOf t = kind at h ⊢
  cases kind
  case clong | culong =>
    cases h
    rcases cfg.long_eq with hlong | hlong <;> rw [hlong]
    · exact (pushAll_singleton s _).symm
    · rfl
  all_goals cases h
  all_goals first
    | exact (pushAll_singleton s _).symm
    | rfl

theorem addValue_string (fresh : Nat → Nat → Byte) (s : TokenString) (h : shape cfg t = .string) :
    addValue fresh cfg s t cv =
      (s.reserve fresh (s.len + nbWords cv.str.length)).bind fun s => s.addString cv.str := by
  unfold shape at h
  unfold addValue
  generalize kindOf t = kind at h ⊢
  cases kind <;> cases h <;> rfl

/-- The buffer can have the cells that are asked for when a token is added at `n`. -/
def Room (cfg : Config) (n : Nat) (t : Cell) (cv : CValue) : Prop :=
  n + tokMaxSize < maxCells ∧ (shape cfg t = .string → n + tokSize cfg t cv < maxCells)

section Add

variable (fresh : Nat → Nat → Byte) {s : TokenString} {bs : List Byte}

/-- **A token is added** if there is room for it: the buffer grows by the bytes of the token. -/
theorem tokStrAdd2_of_room (hs : Holds s bs) (hroom : Room cfg s.len t cv) :
    ∃ s' payload, tokStrAdd2 fresh cfg s t cv = some s' ∧ Payload cfg t cv payload
      ∧ Holds s' (bs ++ (cellBytes t ++ payload)) := by
  obtain ⟨s1, h1, hs1, hlen1, hcap1⟩ := reserve_of_lt fresh hs hroom.1
  obtain ⟨s2, h2, hs2, hlen2, hcap2⟩ := push_of_lt t hs1 (by omega)
  have hadd : tokStrAdd2 fresh cfg s t cv = addValue fresh cfg s2 t cv := by
    unfold tokStrAdd2
    simp only [h1, h2, Option.bind_eq_bind, Option.bind_some]
  rw [hadd]
  cases hshape : shape cfg t with
  | cells n =>
    have hn := shape_le hshape
    obtain ⟨s3, h3, hs3⟩ := pushAll_of_lt ((List.range n).map cv.tab) hs2
      (by rw [List.length_map, List.length_range]; omega)
    refine ⟨s3, ((List.range n).map cv.tab).flatMap cellBytes,
      (addValue_cells fresh s2 hshape).trans h3, ?_, ?_⟩
    · unfold Payload
      rw [hshape]
    · rwa [← List.append_assoc]
  | string =>
    have hroom2 := hroom.2 hshape
    rw [tokSize_string hshape] at hroom2
    have hwords : s2.len + nbWords cv.str.length < maxCells := by
      unfold nbWords
      omega
    obtain ⟨s3, h3, hs3, hlen3, hcap3⟩ := reserve_of_lt fresh hs2 hwords
    obtain ⟨s4, pad, h4, hpad, hs4⟩ := addString_of_lt cv.str hs3 (by omega)
    refine ⟨s4, cellBytes (BitVec.ofNat 32 cv.str.length) ++ cv.str ++ pad, ?_, ?_, ?_⟩
    · rw [addValue_string fresh s2 hshape, h3]
      exact h4
    · unfold Payload
      rw [hshape]
      exact ⟨pad, hpad, rfl⟩
    · simpa only [List.append_assoc] using hs4

/-- Without the room, a write goes outside the buffer. -/
theorem tokStrAdd2_of_not_room (hs : Holds s bs) (hroom : ¬Room cfg s.len t cv) :
    tokStrAdd2 fresh cfg s t cv = none := by
  unfold tokStrAdd2
  by_cases hlt : s.len + tokMaxSize < maxCells
  · obtain ⟨s1, h1, hs1, hlen1, hcap1⟩ := reserve_of_lt fresh hs hlt
    obtain ⟨s2, h2, hs2, hlen2, hcap2⟩ := push_of_lt t hs1 (by omega)
    obtain ⟨hshape, hge⟩ : shape cfg t = .string ∧ maxCells ≤ s.len + tokSize cfg t cv := by
      by_contra hnot
      exact hroom ⟨hlt, fun hshape => by
        by_contra hge
        exact hnot ⟨hshape, by omega⟩⟩
    rw [tokSize_string hshape] at hge
    have hwords : maxCells ≤ s2.len + nbWords cv.str.length := by
      unfold nbWords
      omega
    simp only [h1, h2, Option.bind_eq_bind, Option.bind_some]
    rw [addValue_string fresh s2 hshape]
    rcases reserve_of_ge fresh hs2 hwords with h3 | ⟨s3, h3, hnil⟩
    · rw [h3]
      rfl
    · rw [h3, Option.bind_some, TokenString.addString, push_nil _ hnil]
      rfl
  · rcases reserve_of_ge fresh hs (by omega : maxCells ≤ s.len + tokMaxSize) with h | ⟨s1, h, hnil⟩
    · rw [h]
      rfl
    · simp only [h, Option.bind_eq_bind, Option.bind_some, push_nil _ hnil, Option.bind_none]

theorem tokStrAdd_of_lt (hs : Holds s bs) (hlt : s.len < maxCells) :
    ∃ s', tokStrAdd fresh s t = some s' ∧ Holds s' (bs ++ cellBytes t) := by
  obtain ⟨s1, h1, hs1, hlen1, hcap1⟩ := reserve_of_lt fresh hs hlt
  obtain ⟨s2, h2, hs2, -⟩ := push_of_lt t hs1 (by omega)
  refine ⟨s2, ?_, hs2⟩
  unfold tokStrAdd
  simp only [h1, h2, Option.bind_eq_bind, Option.bind_some]

theorem tokStrAdd_of_ge (hs : Holds s bs) (hge : maxCells ≤ s.len) :
    tokStrAdd fresh s t = none := by
  unfold tokStrAdd
  rcases reserve_of_ge fresh hs hge with h | ⟨s1, h, hnil⟩
  · rw [h]
    rfl
  · simp only [h, Option.bind_eq_bind, Option.bind_some, push_nil _ hnil]

end Add

/-! ## Reading one token -/

@[simp] theorem setTab_tab (k j : Nat) (w : Cell) :
    (cv.setTab k w).tab j = if j = k then w else cv.tab j := rfl

theorem setI_i (v : BitVec 64) : (cv.setI v).i = v := by
  refine BitVec.eq_of_getLsbD_eq fun i hi => ?_
  simp only [CValue.setI, CValue.i, setTab_tab, if_true, if_neg Nat.zero_ne_one,
    BitVec.getLsbD_append, BitVec.getLsbD_extractLsb']
  grind

/-- `cv` with the first `n` cells of `value` from `k` on. -/
def CValue.copy (cv value : CValue) (k n : Nat) : CValue :=
  { cv with tab := fun j => if k ≤ j ∧ j < k + n then value.tab j else cv.tab j }

theorem copyTab_cells (value : CValue) (k n : Nat) (p : List Byte) :
    copyTab cv k n (((List.range' k n).map value.tab).flatMap cellBytes ++ p)
      = some (cv.copy value k n, p) := by
  induction n generalizing cv k with
  | zero =>
    have hnone : ∀ j, ¬(k ≤ j ∧ j < k) := fun j => by omega
    simp [copyTab, CValue.copy, hnone]
  | succ n ih =>
    rw [List.range'_succ, List.map_cons, List.flatMap_cons, List.append_assoc, copyTab,
      readCell_cellBytes, Option.bind_eq_bind, Option.bind_some]
    simp only
    rw [ih]
    congr 2
    unfold CValue.copy
    congr 1
    funext j
    simp only [setTab_tab]
    grind

/-- The value that `tok_get` makes of a stored one. -/
def readBack (cfg : Config) (t : Cell) (cv value : CValue) : CValue :=
  match kindOf t with
  | .cint | .cchar | .lchar | .linenum => cv.setI ((value.tab 0).signExtend 64)
  | .cuint => cv.setI ((value.tab 0).setWidth 64)
  | .clong =>
    if cfg.longSize = 4 then cv.setI ((value.tab 0).signExtend 64) else cv.copy value 0 2
  | .culong => if cfg.longSize = 4 then cv.setI ((value.tab 0).setWidth 64) else cv.copy value 0 2
  | .cfloat => cv.copy value 0 1
  | .str | .lstr | .ppnum | .ppstr => { cv with str := value.str }
  | .cdouble | .cllong | .cullong => cv.copy value 0 2
  | .cldouble => cv.copy value 0 cfg.ldoubleCells
  | .other => cv

theorem readInt_cellBytes (signed : Bool) (w : Cell) (p : List Byte) :
    readInt signed cv (cellBytes w ++ p)
      = some (cv.setI (if signed then w.signExtend 64 else w.setWidth 64), p) := by
  rw [readInt, readCell_cellBytes]
  rfl

theorem readString_payload {data pad p : List Byte} (hsize : data.length < 2 ^ 31)
    (hpad : data.length + pad.length = 4 * ((data.length + 3) / 4)) :
    readString cv (cellBytes (BitVec.ofNat 32 data.length) ++ data ++ pad ++ p)
      = some ({ cv with str := data }, p) := by
  have hnat : (BitVec.ofNat 32 data.length).toNat = data.length := by
    rw [BitVec.toNat_ofNat]
    omega
  have hext : (BitVec.ofNat 32 data.length).signExtend 64 = BitVec.ofNat 64 data.length := by
    rw [BitVec.signExtend_eq_setWidth_of_msb_false]
    · apply BitVec.eq_of_toNat_eq
      rw [BitVec.toNat_setWidth, hnat, BitVec.toNat_ofNat]
    · rw [BitVec.msb_eq_decide, hnat]
      simpa using hsize
  have hwords : (BitVec.ofNat 64 data.length + 4#64 - 1#64).toNat = data.length + 3 := by
    simp only [BitVec.toNat_sub, BitVec.toNat_add, BitVec.toNat_ofNat]
    omega
  rw [readString, List.append_assoc, List.append_assoc, readCell_cellBytes]
  simp only [Option.bind_eq_bind, Option.bind_some, hext, hwords, hnat]
  rw [if_pos (by simp only [List.length_append]; omega), List.take_left, ← List.append_assoc,
    List.drop_left' (by rw [List.length_append]; omega)]

theorem copyTab_payload (value : CValue) (n : Nat) (p : List Byte) :
    copyTab cv 0 n (((List.range n).map value.tab).flatMap cellBytes ++ p)
      = some (cv.copy value 0 n, p) := by
  rw [List.range_eq_range']
  exact copyTab_cells value 0 n p

theorem readInt_payload (signed : Bool) (value : CValue) (p : List Byte) :
    readInt signed cv (((List.range 1).map value.tab).flatMap cellBytes ++ p)
      = some (cv.setI (if signed then (value.tab 0).signExtend 64 else (value.tab 0).setWidth 64),
        p) := by
  exact readInt_cellBytes signed (value.tab 0) p

/-- **What was stored is read back**, and the pointer is behind it. -/
theorem readValue_payload {value : CValue} {payload : List Byte} (hwf : value.WellFormed cfg t)
    (h : Payload cfg t value payload) (p : List Byte) :
    readValue cfg t cv (payload ++ p) = some (readBack cfg t cv value, p) := by
  unfold Payload shape at h
  unfold CValue.WellFormed at hwf
  unfold readValue readBack
  generalize kindOf t = kind at h hwf ⊢
  cases kind
  case cint | cchar | lchar | linenum =>
    rw [h]
    exact readInt_payload true value p
  case cuint =>
    rw [h]
    exact readInt_payload false value p
  case clong =>
    rcases cfg.long_eq with hlong | hlong <;> rw [hlong] at h ⊢ <;> rw [h]
    · exact readInt_payload true value p
    · exact copyTab_payload value 2 p
  case culong =>
    rcases cfg.long_eq with hlong | hlong <;> rw [hlong] at h ⊢ <;> rw [h]
    · exact readInt_payload false value p
    · exact copyTab_payload value 2 p
  case cfloat | cdouble | cllong | cullong | cldouble =>
    rw [h]
    exact copyTab_payload value _ p
  case str | lstr | ppnum | ppstr =>
    obtain ⟨pad, hpad, rfl⟩ := h
    exact readString_payload hwf hpad
  case other =>
    rw [h]
    rfl

variable (cv) in
theorem tokGet_stored {value : CValue} {payload : List Byte} (hwf : value.WellFormed cfg t)
    (h : Payload cfg t value payload) (p : List Byte) :
    tokGet cfg cv (cellBytes t ++ payload ++ p) = some (t, readBack cfg t cv value, p) := by
  rw [tokGet, List.append_assoc, readCell_cellBytes]
  simp only [Option.bind_eq_bind, Option.bind_some, readValue_payload hwf h]

theorem copy_i (value : CValue) {n : Nat} (hn : 2 ≤ n) : (cv.copy value 0 n).i = value.i := by
  unfold CValue.i CValue.copy
  simp only [if_pos (show 0 ≤ 0 ∧ 0 < 0 + n by omega), if_pos (show 0 ≤ 1 ∧ 1 < 0 + n by omega)]

/-- A value comes back unchanged, whatever the `CValue` held before, unless it is a long double of
a host whose long double is larger than the cells stored for it. -/
theorem sameValue_readBack_iff {value : CValue} (hwf : value.WellFormed cfg t) :
    (∀ cv, SameValue cfg t value (readBack cfg t cv value))
      ↔ (kindOf t = .cldouble → cfg.hostLdoubleCells ≤ cfg.ldoubleCells) := by
  unfold CValue.WellFormed at hwf
  unfold SameValue readBack
  generalize kindOf t = kind at hwf ⊢
  cases kind
  case cldouble =>
    simp only [forall_true_left]
    constructor
    · intro h
      by_contra hlt
      -- a CValue whose cells all differ from those of the value
      have hcell := h ⟨fun k => ~~~value.tab k, []⟩ cfg.ldoubleCells (by omega)
      simp only [CValue.copy, if_neg (show ¬(0 ≤ cfg.ldoubleCells
        ∧ cfg.ldoubleCells < 0 + cfg.ldoubleCells) by omega)] at hcell
      have hbit := congrArg (fun w => w.getLsbD 0) hcell
      simp at hbit
    · intro hle cv k hk
      simp only [CValue.copy, if_pos (show 0 ≤ k ∧ k < 0 + cfg.ldoubleCells by omega)]
  case clong =>
    refine iff_of_true (fun cv => ?_) (fun h => by cases h)
    by_cases hlong : cfg.longSize = 4
    · simp only [if_pos hlong, setI_i, hwf hlong]
    · simp only [if_neg hlong, copy_i value le_rfl]
  case culong =>
    refine iff_of_true (fun cv => ?_) (fun h => by cases h)
    by_cases hlong : cfg.longSize = 4
    · simp only [if_pos hlong, setI_i, hwf hlong]
    · simp only [if_neg hlong, copy_i value le_rfl]
  case cint | cchar | lchar | linenum | cuint =>
    exact iff_of_true (fun cv => by rw [setI_i, hwf]) (fun h => by cases h)
  case cdouble | cllong | cullong =>
    exact iff_of_true (fun cv => (copy_i value le_rfl).symm) (fun h => by cases h)
  case cfloat => exact iff_of_true (fun cv => rfl) (fun h => by cases h)
  case str | lstr | ppnum | ppstr => exact iff_of_true (fun cv => rfl) (fun h => by cases h)
  case other => exact iff_of_true (fun cv => trivial) (fun h => by cases h)

end Token

/-! ## All tokens -/

/-- The buffer can have the cells of all tokens from `n` on, and the one that ends them. -/
def RoomAll {cfg : Config} : Nat → List (PpToken cfg) → Prop
  | n, [] => n < maxCells
  | n, tok :: ts => Room cfg n tok.t tok.value ∧ RoomAll (n + tokSize cfg tok.t tok.value) ts

/-- The bytes of tokens, one after the other. -/
inductive Stored {cfg : Config} : List (PpToken cfg) → List Byte → Prop
  | nil : Stored [] []
  | cons {tok ts payload bs} (hpay : Payload cfg tok.t tok.value payload) (hts : Stored ts bs) :
      Stored (tok :: ts) (cellBytes tok.t ++ payload ++ bs)

section All

variable {cfg : Config} (fresh : Nat → Nat → Byte)

theorem Holds.len_add {s s' : TokenString} {bs payload : List Byte} {t : Cell} {cv : CValue}
    (hs : Holds s bs) (hs' : Holds s' (bs ++ (cellBytes t ++ payload)))
    (hpay : Payload cfg t cv payload) : s'.len = s.len + tokSize cfg t cv := by
  have h := hs.length
  have h' := hs'.length
  have hsize := hpay.length
  simp only [List.length_append, cellBytes_length] at h'
  omega

/-- The tokens are stored one behind the other, if there is room for all of them. -/
theorem foldlM_of_room {ts : List (PpToken cfg)} {s : TokenString} {bs : List Byte}
    (hs : Holds s bs) (hroom : RoomAll s.len ts) :
    ∃ s' bs', ts.foldlM (fun s tok => tokStrAdd2 fresh cfg s tok.t tok.value) s = some s'
      ∧ Stored ts bs' ∧ Holds s' (bs ++ bs') ∧ s'.len < maxCells := by
  induction ts generalizing s bs with
  | nil => exact ⟨s, [], rfl, .nil, by rwa [List.append_nil], hroom⟩
  | cons tok ts ih =>
    obtain ⟨s1, payload, h1, hpay, hs1⟩ := tokStrAdd2_of_room fresh hs hroom.1
    obtain ⟨s2, bs2, h2, hstored, hs2, hlen⟩ := ih hs1 (by
      rw [hs.len_add hs1 hpay]
      exact hroom.2)
    refine ⟨s2, cellBytes tok.t ++ payload ++ bs2, ?_, .cons hpay hstored, ?_, hlen⟩
    · rw [List.foldlM_cons, h1]
      exact h2
    · simpa only [List.append_assoc] using hs2

theorem foldlM_of_not_room {ts : List (PpToken cfg)} {s : TokenString} {bs : List Byte}
    (hs : Holds s bs) (hroom : ¬RoomAll s.len ts) (term : Cell) :
    ((ts.foldlM (fun s tok => tokStrAdd2 fresh cfg s tok.t tok.value) s).bind
      fun s => tokStrAdd fresh s term) = none := by
  induction ts generalizing s bs with
  | nil => exact tokStrAdd_of_ge fresh hs (by simpa [RoomAll] using hroom)
  | cons tok ts ih =>
    by_cases hfirst : Room cfg s.len tok.t tok.value
    · obtain ⟨s1, payload, h1, hpay, hs1⟩ := tokStrAdd2_of_room fresh hs hfirst
      rw [List.foldlM_cons, h1]
      refine ih hs1 fun hrest => hroom ⟨hfirst, ?_⟩
      rwa [← hs.len_add hs1 hpay]
    · rw [List.foldlM_cons, tokStrAdd2_of_not_room fresh hs hfirst]
      rfl

/-- What reading the tokens gives. -/
def readBackAll (junk : Nat → CValue) : Nat → List (PpToken cfg) → List (Cell × CValue)
  | _, [] => []
  | n, tok :: ts => (tok.t, readBack cfg tok.t (junk n) tok.value) :: readBackAll junk (n + 1) ts

theorem kindOf_code (term : Terminator) : kindOf term.code = .other := by
  cases term <;> rfl

theorem readTokens_stored {ts : List (PpToken cfg)} {bs : List Byte} (h : Stored ts bs)
    (junk : Nat → CValue) (term : Terminator) (n : Nat) (p : List Byte) :
    readTokens cfg junk term.code n (bs ++ cellBytes term.code ++ p)
      = some (readBackAll junk n ts, p) := by
  induction h generalizing n with
  | nil =>
    have hpay : Payload cfg term.code (junk n) [] := by
      unfold Payload shape
      rw [kindOf_code]
      rfl
    have hwf : (junk n).WellFormed cfg term.code := by
      unfold CValue.WellFormed
      rw [kindOf_code]
      trivial
    have hget := tokGet_stored (junk n) hwf hpay p
    rw [List.append_nil] at hget
    rw [List.nil_append, readTokens]
    split
    · next hnone =>
      rw [hget] at hnone
      cases hnone
    · next hsome =>
      rw [hget] at hsome
      cases hsome
      rw [if_pos rfl]
      rfl
  | @cons tok ts payload bs hpay hts ih =>
    have hget := tokGet_stored (junk n) tok.wf hpay (bs ++ cellBytes term.code ++ p)
    rw [show cellBytes tok.t ++ payload ++ bs ++ cellBytes term.code ++ p
      = cellBytes tok.t ++ payload ++ (bs ++ cellBytes term.code ++ p) by
        simp only [List.append_assoc], readTokens]
    split
    · next hnone =>
      rw [hget] at hnone
      cases hnone
    · next hsome =>
      rw [hget] at hsome
      cases hsome
      rw [if_neg (tok.not_end term), ih (n + 1)]
      rfl

/-- What reading gives is what was stored, whatever the values held before, for the same tokens
for which one value comes back unchanged. -/
theorem forall₂_readBackAll_iff (ts : List (PpToken cfg)) (n : Nat) :
    (∀ junk, List.Forall₂ (fun tok x => tok.t = x.1 ∧ SameValue cfg tok.t tok.value x.2) ts
        (readBackAll junk n ts))
      ↔ ∀ tok ∈ ts, ∀ cv, SameValue cfg tok.t tok.value (readBack cfg tok.t cv tok.value) := by
  induction ts generalizing n with
  | nil =>
    simp only [List.not_mem_nil, false_implies, implies_true, iff_true]
    exact fun junk => .nil
  | cons tok ts ih =>
    simp only [readBackAll, List.forall₂_cons, List.forall_mem_cons, true_and]
    constructor
    · intro h
      refine ⟨fun cv => (h fun _ => cv).1, (ih (n + 1)).1 fun junk => (h junk).2⟩
    · rintro ⟨hfirst, hrest⟩ junk
      exact ⟨hfirst (junk n), (ih (n + 1)).2 hrest junk⟩

/-- The tokens are stored without a write outside the buffer, and reading it from the start gives
them back with the same values and ends behind the terminator. -/
def RoundTrips (cfg : Config) (ts : List (PpToken cfg)) (term : Terminator) : Prop :=
  ∃ s, storeAll fresh cfg ts term = some s ∧
    ∀ junk, ∃ out rest, readTokens cfg junk term.code 0 s.str = some (out, rest)
      ∧ rest.length + 4 * s.len = s.str.length
      ∧ List.Forall₂ (fun tok x => tok.t = x.1 ∧ SameValue cfg tok.t tok.value x.2) ts out

theorem RoomAll.length_lt {n : Nat} {ts : List (PpToken cfg)} (h : RoomAll n ts) :
    n + ts.length < maxCells := by
  induction ts generalizing n with
  | nil => exact h
  | cons tok ts ih =>
    have hrest := ih h.2
    have hpos : 0 < tokSize cfg tok.t tok.value := by
      unfold tokSize
      split <;> omega
    rw [List.length_cons]
    omega

/-- **Token strings keep tokens with values**, exactly when the buffer never needs more than
`maxCells` cells and the stored long doubles are as large as those of the host. -/
theorem roundTrips_iff (ts : List (PpToken cfg)) (term : Terminator) :
    RoundTrips fresh cfg ts term
      ↔ RoomAll 0 ts
        ∧ ∀ tok ∈ ts, kindOf tok.t = .cldouble → cfg.hostLdoubleCells ≤ cfg.ldoubleCells := by
  by_cases hroom : RoomAll 0 ts
  · obtain ⟨s, bs, hfold, hstored, hs, hlen⟩ := foldlM_of_room fresh holds_new hroom
    obtain ⟨s', hadd, hs'⟩ := tokStrAdd_of_lt (t := term.code) fresh hs hlen
    have hall : storeAll fresh cfg ts term = some s' := by
      unfold storeAll
      rw [hfold]
      exact hadd
    obtain ⟨rest, hrest⟩ := hs'.starts
    have hread : ∀ junk, readTokens cfg junk term.code 0 s'.str
        = some (readBackAll junk 0 ts, rest) := fun junk => by
      rw [← hrest, List.nil_append]
      exact readTokens_stored hstored junk term 0 rest
    have hend : rest.length + 4 * s'.len = s'.str.length := by
      have hsplit := congrArg List.length hrest
      rw [List.length_append, hs'.length] at hsplit
      omega
    have hsame := (forall₂_readBackAll_iff ts 0).trans
      (forall₂_congr fun tok _ => sameValue_readBack_iff tok.wf)
    rw [← hsame]
    constructor
    · rintro ⟨s1, h1, hread1⟩
      obtain rfl : s' = s1 := Option.some.inj (hall.symm.trans h1)
      refine ⟨hroom, fun junk => ?_⟩
      obtain ⟨out, rest1, hout, -, hforall⟩ := hread1 junk
      rw [hread junk] at hout
      cases hout
      exact hforall
    · rintro ⟨-, hforall⟩
      exact ⟨s', hall, fun junk => ⟨_, rest, hread junk, hend, hforall junk⟩⟩
  · refine iff_of_false ?_ fun h => hroom h.1
    rintro ⟨s, hall, -⟩
    exact Option.some_ne_none s (hall.symm.trans (foldlM_of_not_room fresh holds_new hroom _))

end All

/-- The token `;`. -/
def semicolon : PpToken riscv64 where
  t := 0x3b#32
  value := ⟨fun _ => 0, []⟩
  wf := trivial
  not_end := fun term => by cases term <;> decide

/-- A body of 2^29 semicolons does not fit: the size in bytes of the next buffer is 0 as an
`unsigned int`. -/
theorem not_roundTrips_semicolons :
    ¬RoundTrips (fun _ _ => 0) riscv64 (List.replicate (2 ^ 29) semicolon) .zero := by
  rintro ⟨s, hall, -⟩
  refine Option.some_ne_none s (hall.symm.trans (foldlM_of_not_room _ holds_new ?_ _))
  intro hroom
  have hlt := hroom.length_lt
  rw [List.length_replicate] at hlt
  exact absurd hlt (by decide)

end TccRiscv64.Pp
