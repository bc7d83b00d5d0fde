import TccRiscv64.Isa.Fields
import TccRiscv64.Link.PcRelative

set_option autoImplicit false

/-! # Data relocations

The relocations of data have a field of 6 to 64 bits each, which the ABI defines a new value for.
Label differences come as chains of them on one field. `relocate` is compared with the ABI over
whole runs in a static link. -/

namespace TccRiscv64.Link

open TccRiscv64.Isa

/-! ## The ABI -/

/-- What a data relocation does with its field. -/
inductive DataOp
  | word | pcrel | add | sub | set
  deriving DecidableEq, Repr

namespace DataOp

/-- The new value of a field of `w` bits, from its old one, `val = S + A` and `addr = P`. -/
def value {w : Nat} (op : DataOp) (old : BitVec w) (val addr : BitVec 64) : BitVec w :=
  match op with
  | word | set => val.setWidth w
  | pcrel => (val - addr).setWidth w
  | add => old + val.setWidth w
  | sub => old - val.setWidth w

/-- The relocations that the assembler gives a field of zeros. -/
def StartsAtZero (op : DataOp) : Prop := op = .word ∨ op = .pcrel

instance (op : DataOp) : Decidable op.StartsAtZero := inferInstanceAs (Decidable (_ ∨ _))

end DataOp

/-- What the ABI says about a type: the operation and the width of the field. -/
def RelocType.data : RelocType → Option (DataOp × Nat)
  | abs32 => some (.word, 32)
  | abs64 => some (.word, 64)
  | pcrel32 => some (.pcrel, 32)
  | add16 => some (.add, 16)
  | add32 => some (.add, 32)
  | add64 => some (.add, 64)
  | sub6 => some (.sub, 6)
  | sub8 => some (.sub, 8)
  | sub16 => some (.sub, 16)
  | sub32 => some (.sub, 32)
  | sub64 => some (.sub, 64)
  | set6 => some (.set, 6)
  | set8 => some (.set, 8)
  | set16 => some (.set, 16)
  | _ => none

namespace Reloc

/-- The memory after the ABI's relocation. -/
def abiApply (m : Memory) (r : Reloc) : Memory :=
  match r.type.data with
  | some (op, w) => m.setField r.ptr (op.value (m.field r.ptr w) r.val r.addr)
  | none => m

/-- The new value of the field of `w` bits that `r` has as its own. -/
def newValue {w : Nat} (old : BitVec w) (r : Reloc) : BitVec w :=
  match r.type.data with
  | some (op, _) => op.value old r.val r.addr
  | none => old

/-- The field of `r` is the one of `w` bits at `p`. -/
def IsOn (r : Reloc) (p w : Nat) : Prop := r.ptr = p ∧ r.type.data.map Prod.snd = some w

/-- The field of `r` has no bit from number `lo` up to `hi`. -/
def Misses (r : Reloc) (lo hi : Nat) : Prop :=
  ∀ op w, r.type.data = some (op, w) → hi ≤ 8 * r.ptr ∨ 8 * r.ptr + w ≤ lo

instance (r : Reloc) (p w : Nat) : Decidable (r.IsOn p w) := inferInstanceAs (Decidable (_ ∧ _))

/-- A relocation that stores the whole value finds zeros in its field. -/
def ZeroField (m : Memory) (r : Reloc) : Prop :=
  ∀ op w, r.type.data = some (op, w) → op.StartsAtZero → m.field r.ptr w = 0#w

/-- The missed cases leave the field right only if there is nothing to write: of a `SET16` the
upper byte, of a `32_PCREL` the word. -/
def Meets (m : Memory) (r : Reloc) : Prop :=
  (r.type = .set16 → m (r.ptr + 1) = r.val.extractLsb' 8 8) ∧
  (r.type = .pcrel32 → r.val.setWidth 32 = r.addr.setWidth 32)

end Reloc

/-- The memory after the ABI's relocations, one after the other. -/
def abiRun (m : Memory) (rs : List Reloc) : Memory := rs.foldl Reloc.abiApply m

/-- `P` holds at each relocation of a run, with the memory the ABI's run has there. -/
def Along (P : Memory → Reloc → Prop) (m : Memory) : List Reloc → Prop
  | [] => True
  | r :: rs => P m r ∧ Along P (r.abiApply m) rs

/-- The run of `relocate` over `rs` gives each field what the ABI says: after every prefix the
memory is the ABI's, a field that the others miss has gone through its own relocations in order,
and bits of no field are the old ones. -/
structure FollowsAbi (s1 : TCCState) (rs : List Reloc) : Prop where
  prefixes : ∀ k, (relocateAll s1 (rs.take k)).mem = abiRun s1.mem (rs.take k)
  chains : ∀ p w, (∀ r ∈ rs, ¬ r.IsOn p w → r.Misses (8 * p) (8 * p + w)) →
    (relocateAll s1 rs).mem.field p w
      = (rs.filter fun r => r.IsOn p w).foldl Reloc.newValue (s1.mem.field p w)
  others : ∀ i, (∀ r ∈ rs, r.Misses i (i + 1)) → (relocateAll s1 rs).mem.bitAt i = s1.mem.bitAt i

/-! ## One relocation -/

section Step

variable (s1 : TCCState) (p : Nat)

theorem write8_mem (v : BitVec 8) : (s1.write8 p v).mem = s1.mem.setField p v :=
  Memory.store_eq_setField s1.mem p 1 v

theorem write16le_mem (v : BitVec 16) : (s1.write16le p v).mem = s1.mem.setField p v :=
  Memory.store_eq_setField s1.mem p 2 v

theorem write32le_mem (v : BitVec 32) : (s1.write32le p v).mem = s1.mem.setField p v :=
  Memory.store_eq_setField s1.mem p 4 v

theorem write64le_mem (v : BitVec 64) : (s1.write64le p v).mem = s1.mem.setField p v :=
  Memory.store_eq_setField s1.mem p 8 v

theorem read8_eq : s1.read8 p = s1.mem.field p 8 := Memory.load_eq_field s1.mem p 1

theorem read16le_eq : s1.read16le p = s1.mem.field p 16 := Memory.load_eq_field s1.mem p 2

theorem read32le_eq : s1.read32le p = s1.mem.field p 32 := Memory.load_eq_field s1.mem p 4

theorem read64le_eq : s1.read64le p = s1.mem.field p 64 := Memory.load_eq_field s1.mem p 8

end Step

/-- A byte written with its upper two bits as they were is a write of a field of six bits. -/
theorem setField_low6 (m : Memory) (p : Nat) (v : BitVec 64) :
    m.setField p ((m.field p 8 &&& ~~~0x3f#8) ||| (v &&& 0x3f#64).setWidth 8)
      = m.setField p (v.setWidth 6) := by
  apply Memory.ext_bitAt
  intro i
  rw [Memory.bitAt_setField, Memory.bitAt_setField]
  by_cases hi : 8 * p ≤ i ∧ i < 8 * p + 8
  · obtain ⟨j, rfl⟩ := Nat.exists_eq_add_of_le hi.1
    have hj : j < 8 := by omega
    rw [if_pos hi, Nat.add_sub_cancel_left, BitVec.getLsbD_or, BitVec.getLsbD_and,
      Memory.getLsbD_field, decide_eq_true hj]
    by_cases hlow : j < 6
    · rw [if_pos (by omega)]
      interval_cases j <;> simp
    · rw [if_neg (by omega)]
      interval_cases j <;> simp at hlow ⊢
  · rw [if_neg hi, if_neg (by omega)]

/-- A byte in place of a field of 16 bits is right exactly when the other byte was. -/
theorem setField_low8_iff (m : Memory) (p : Nat) (v : BitVec 64) :
    m.setField p (v.setWidth 8) = m.setField p (v.setWidth 16) ↔
      m (p + 1) = v.extractLsb' 8 8 := by
  constructor
  · intro h
    apply BitVec.eq_of_getLsbD_eq
    intro j hj
    have hbit := congrArg (Memory.bitAt · (8 * (p + 1) + j)) h
    have hdiv : (8 * (p + 1) + j) / 8 = p + 1 := by omega
    have hmod : (8 * (p + 1) + j) % 8 = j := by omega
    have hidx : 8 * (p + 1) + j - 8 * p = 8 + j := by omega
    simp only [Memory.bitAt_setField] at hbit
    rw [if_neg (by omega), if_pos (by omega), Memory.bitAt, hdiv, hmod, hidx,
      BitVec.getLsbD_setWidth, decide_eq_true (by omega), Bool.true_and] at hbit
    rw [hbit, BitVec.getLsbD_extractLsb', decide_eq_true hj, Bool.true_and]
  · intro h
    apply Memory.ext_bitAt
    intro i
    rw [Memory.bitAt_setField, Memory.bitAt_setField]
    by_cases hi : 8 * p ≤ i ∧ i < 8 * p + 16
    · obtain ⟨j, rfl⟩ := Nat.exists_eq_add_of_le hi.1
      have hj : j < 16 := by omega
      rw [if_pos hi, Nat.add_sub_cancel_left, BitVec.getLsbD_setWidth, BitVec.getLsbD_setWidth,
        decide_eq_true hj, Bool.true_and]
      by_cases hlow : j < 8
      · rw [if_pos (by omega), decide_eq_true hlow, Bool.true_and]
      · have hdiv : (8 * p + j) / 8 = p + 1 := by omega
        have hmod : (8 * p + j) % 8 = j - 8 := by omega
        have hidx : 8 + (j - 8) = j := by omega
        rw [if_neg (by omega), Memory.bitAt, hdiv, hmod, h, BitVec.getLsbD_extractLsb', hidx,
          decide_eq_true (by omega), Bool.true_and]
    · rw [if_neg hi, if_neg (by omega)]

/-- The lower bits of a difference are the difference of the lower bits. -/
theorem setWidth_sub {v w : Nat} (x y : BitVec w) (h : v ≤ w) :
    (x - y).setWidth v = x.setWidth v - y.setWidth v := by
  have hsum : (x - y).setWidth v + y.setWidth v = x.setWidth v := by
    rw [← BitVec.setWidth_add _ _ h, BitVec.sub_add_cancel]
  exact (BitVec.sub_eq_iff_eq_add.2 hsum.symm).symm

/-- No relocation changes what kind of output is made. -/
theorem applyReloc_outputDyn (s1 : TCCState) (r : Reloc) (hdata : r.type.data.isSome) :
    (applyReloc s1 r).outputDyn = s1.outputDyn := by
  rw [applyReloc]
  cases htype : r.type with
  | abs32 =>
    rw [relocate]
    cases hdyn : s1.outputDyn <;> simp [TCCState.add32le, TCCState.write32le, TCCState.pushQrel,
      hdyn]
  | abs64 =>
    simp only [relocate]
    split
    · split <;> rfl
    · rfl
  | add16 | add32 | add64 | sub6 | sub8 | sub16 | sub32 | sub64 | set6 | set8 | set16
  | pcrel32 => rfl
  | _ =>
    rw [htype] at hdata
    cases hdata

/-- One data relocation does what the ABI says exactly outside the missed cases. -/
theorem applyReloc_mem_iff (s1 : TCCState) (r : Reloc) (hstatic : s1.outputDyn = false)
    (hdata : r.type.data.isSome) (hzero : r.ZeroField s1.mem) :
    (applyReloc s1 r).mem = r.abiApply s1.mem ↔ r.Meets s1.mem := by
  have hother : r.type ≠ .set16 → r.type ≠ .pcrel32 → r.Meets s1.mem := fun h16 h32 =>
    ⟨fun h => absurd h h16, fun h => absurd h h32⟩
  rw [applyReloc, Reloc.abiApply]
  cases htype : r.type with
  | set16 =>
    have hbyte : (r.val &&& 0xffff#64).setWidth 8 = r.val.setWidth 8 := by
      apply BitVec.eq_of_getLsbD_eq
      intro j hj
      interval_cases j <;> simp
    rw [relocate, write8_mem, hbyte]
    refine (setField_low8_iff s1.mem r.ptr r.val).trans ⟨fun h => ⟨fun _ => h, ?_⟩, ?_⟩
    · intro h32
      rw [htype] at h32
      cases h32
    · exact fun h => h.1 htype
  | pcrel32 =>
    have hold : s1.mem.field r.ptr 32 = 0#32 := hzero .pcrel 32 (by rw [htype]; rfl) (.inr rfl)
    have hsub : (r.val - r.addr).setWidth 32 = r.val.setWidth 32 - r.addr.setWidth 32 :=
      setWidth_sub r.val r.addr (by decide)
    have hkeep : s1.mem = s1.mem.setField r.ptr ((r.val - r.addr).setWidth 32)
        ↔ r.val.setWidth 32 = r.addr.setWidth 32 := by
      rw [Memory.eq_setField_iff, and_iff_left fun _ _ => rfl, hold, hsub, eq_comm,
        BitVec.sub_eq_iff_eq_add, BitVec.zero_add]
    refine hkeep.trans ⟨fun h => ⟨?_, fun _ => h⟩, fun h => h.2 htype⟩
    intro h16
    rw [htype] at h16
    cases h16
  | abs32 =>
    have hold : s1.mem.field r.ptr 32 = 0#32 := hzero .word 32 (by rw [htype]; rfl) (.inl rfl)
    refine iff_of_true ?_ (hother (by simp [htype]) (by simp [htype]))
    simp only [relocate, hstatic, Bool.false_eq_true, if_false, TCCState.add32le, write32le_mem,
      read32le_eq, hold, BitVec.zero_add, RelocType.data, DataOp.value]
  | abs64 =>
    have hold : s1.mem.field r.ptr 64 = 0#64 := hzero .word 64 (by rw [htype]; rfl) (.inl rfl)
    refine iff_of_true ?_ (hother (by simp [htype]) (by simp [htype]))
    simp only [relocate, hstatic, Bool.false_eq_true, if_false, TCCState.add64le, write64le_mem,
      read64le_eq, hold, BitVec.zero_add, RelocType.data, DataOp.value, BitVec.setWidth_eq]
  | set6 =>
    refine iff_of_true ?_ (hother (by simp [htype]) (by simp [htype]))
    rw [relocate, write8_mem, read8_eq]
    exact setField_low6 s1.mem r.ptr r.val
  | sub6 =>
    refine iff_of_true ?_ (hother (by simp [htype]) (by simp [htype]))
    rw [relocate, write8_mem, read8_eq]
    refine (setField_low6 s1.mem r.ptr _).trans ?_
    have hold : (s1.mem.field r.ptr 8).setWidth 6 = s1.mem.field r.ptr 6 := by
      apply BitVec.eq_of_getLsbD_eq
      intro j hj
      rw [BitVec.getLsbD_setWidth, Memory.getLsbD_field, Memory.getLsbD_field,
        decide_eq_true hj, decide_eq_true (by omega), Bool.true_and]
    rw [setWidth_sub _ _ (by decide), BitVec.setWidth_setWidth_of_le _ (by decide), hold]
    rfl
  | set8 =>
    have hbyte : (r.val &&& 0xff#64).setWidth 8 = r.val.setWidth 8 := by
      apply BitVec.eq_of_getLsbD_eq
      intro j hj
      interval_cases j <;> simp
    refine iff_of_true ?_ (hother (by simp [htype]) (by simp [htype]))
    rw [relocate, write8_mem, hbyte]
    rfl
  | sub8 =>
    refine iff_of_true ?_ (hother (by simp [htype]) (by simp [htype]))
    rw [relocate, write8_mem, read8_eq]
    rfl
  | add16 | sub16 =>
    refine iff_of_true ?_ (hother (by simp [htype]) (by simp [htype]))
    rw [relocate, write16le_mem, read16le_eq]
    rfl
  | add32 | sub32 =>
    refine iff_of_true ?_ (hother (by simp [htype]) (by simp [htype]))
    rw [relocate, write32le_mem, read32le_eq]
    rfl
  | add64 | sub64 =>
    refine iff_of_true ?_ (hother (by simp [htype]) (by simp [htype]))
    simp only [relocate, write64le_mem, read64le_eq, RelocType.data, DataOp.value,
      BitVec.setWidth_eq]
  | _ =>
    rw [htype] at hdata
    cases hdata

/-! ## Runs of the ABI's relocations -/

/-- A relocation moves the field that is its own to the new value. -/
theorem field_abiApply (m : Memory) {r : Reloc} {p w : Nat} (h : r.IsOn p w) :
    (r.abiApply m).field p w = r.newValue (m.field p w) := by
  obtain ⟨rfl, hwidth⟩ := h
  obtain ⟨⟨op, w'⟩, hdata, rfl⟩ := Option.map_eq_some_iff.1 hwidth
  rw [Reloc.abiApply, Reloc.newValue, hdata]
  exact Memory.field_setField m r.ptr _

/-- A relocation keeps the fields it misses. -/
theorem field_abiApply_of_misses (m : Memory) {r : Reloc} {p w : Nat}
    (h : r.Misses (8 * p) (8 * p + w)) : (r.abiApply m).field p w = m.field p w := by
  rw [Reloc.abiApply]
  cases hdata : r.type.data with
  | none => rfl
  | some d => exact Memory.field_setField_of_disjoint m _ (h d.1 d.2 hdata)

/-- A relocation keeps the bits outside its field. -/
theorem bitAt_abiApply (m : Memory) {r : Reloc} {i : Nat} (h : r.Misses i (i + 1)) :
    (r.abiApply m).bitAt i = m.bitAt i := by
  rw [Reloc.abiApply]
  cases hdata : r.type.data with
  | none => rfl
  | some d =>
    have hout := h d.1 d.2 hdata
    exact (Memory.bitAt_setField m r.ptr _ i).trans (if_neg (by omega))

/-- A field goes through its own relocations in their order. -/
theorem field_abiRun (rs : List Reloc) (m : Memory) {p w : Nat}
    (h : ∀ r ∈ rs, ¬ r.IsOn p w → r.Misses (8 * p) (8 * p + w)) :
    (abiRun m rs).field p w
      = (rs.filter fun r => r.IsOn p w).foldl Reloc.newValue (m.field p w) := by
  induction rs generalizing m with
  | nil => rfl
  | cons r rs ih =>
    have hrest := ih (r.abiApply m) fun r' hr' => h r' (List.mem_cons_of_mem r hr')
    refine hrest.trans ?_
    by_cases hon : r.IsOn p w
    · rw [List.filter_cons, if_pos (decide_eq_true hon), List.foldl_cons, field_abiApply m hon]
    · rw [List.filter_cons, if_neg (by simpa using hon),
        field_abiApply_of_misses m (h r List.mem_cons_self hon)]

theorem field_abiRun_of_misses (rs : List Reloc) (m : Memory) {p w : Nat}
    (h : ∀ r ∈ rs, r.Misses (8 * p) (8 * p + w)) : (abiRun m rs).field p w = m.field p w := by
  induction rs generalizing m with
  | nil => rfl
  | cons r rs ih =>
    exact (ih (r.abiApply m) fun r' hr' => h r' (List.mem_cons_of_mem r hr')).trans
      (field_abiApply_of_misses m (h r List.mem_cons_self))

theorem bitAt_abiRun (rs : List Reloc) (m : Memory) {i : Nat}
    (h : ∀ r ∈ rs, r.Misses i (i + 1)) : (abiRun m rs).bitAt i = m.bitAt i := by
  induction rs generalizing m with
  | nil => rfl
  | cons r rs ih =>
    exact (ih (r.abiApply m) fun r' hr' => h r' (List.mem_cons_of_mem r hr')).trans
      (bitAt_abiApply m (h r List.mem_cons_self))

theorem abiRun_append (m : Memory) (rs rs' : List Reloc) :
    abiRun m (rs ++ rs') = abiRun (abiRun m rs) rs' := List.foldl_append

theorem abiRun_cons (m : Memory) (r : Reloc) (rs : List Reloc) :
    abiRun m (r :: rs) = abiRun (r.abiApply m) rs := rfl

/-- A label difference: an `ADD` of `S1 + A1` and a `SUB` of `S2 + A2` on one field leave
`S1 + A1 - (S2 + A2)` over what was there, whatever is relocated around them. -/
theorem field_abiRun_difference (m : Memory) (before between after : List Reloc) {p w : Nat}
    {a b : Reloc} (ha : a.ptr = p ∧ a.type.data = some (.add, w))
    (hb : b.ptr = p ∧ b.type.data = some (.sub, w))
    (hbefore : ∀ r ∈ before, r.Misses (8 * p) (8 * p + w))
    (hbetween : ∀ r ∈ between, r.Misses (8 * p) (8 * p + w))
    (hafter : ∀ r ∈ after, r.Misses (8 * p) (8 * p + w)) :
    (abiRun m (before ++ a :: (between ++ b :: after))).field p w
      = m.field p w + (a.val.setWidth w - b.val.setWidth w) := by
  have hon_a : a.IsOn p w := ⟨ha.1, by rw [ha.2]; rfl⟩
  have hon_b : b.IsOn p w := ⟨hb.1, by rw [hb.2]; rfl⟩
  rw [abiRun_append, abiRun_cons, abiRun_append, abiRun_cons,
    field_abiRun_of_misses after _ hafter, field_abiApply _ hon_b,
    field_abiRun_of_misses between _ hbetween, field_abiApply _ hon_a,
    field_abiRun_of_misses before m hbefore]
  simp only [Reloc.newValue, ha.2, hb.2, DataOp.value]
  rw [BitVec.sub_eq_add_neg, BitVec.sub_eq_add_neg, BitVec.add_assoc]

/-! ## Runs of `relocate` -/

/-- The memory is the ABI's after every prefix exactly when every step meets the condition. -/
theorem relocateAll_prefixes_iff (rs : List Reloc) (s1 : TCCState)
    (hstatic : s1.outputDyn = false) (hdata : ∀ r ∈ rs, r.type.data.isSome)
    (hzero : Along (fun m r => r.ZeroField m) s1.mem rs) :
    (∀ k, (relocateAll s1 (rs.take k)).mem = abiRun s1.mem (rs.take k)) ↔
      Along (fun m r => r.Meets m) s1.mem rs := by
  induction rs generalizing s1 with
  | nil => exact iff_of_true (fun k => by rw [List.take_nil]; rfl) trivial
  | cons r rs ih =>
    have hr := hdata r List.mem_cons_self
    have hstep := applyReloc_mem_iff s1 r hstatic hr hzero.1
    have hdyn := (applyReloc_outputDyn s1 r hr).trans hstatic
    have htail := ih (applyReloc s1 r) hdyn fun r' hr' => hdata r' (List.mem_cons_of_mem r hr')
    constructor
    · intro h
      have hmem : (applyReloc s1 r).mem = r.abiApply s1.mem := h 1
      rw [hmem] at htail
      exact ⟨hstep.1 hmem, (htail hzero.2).1 fun k => h (k + 1)⟩
    · rintro ⟨hmeets, hrest⟩ k
      have hmem := hstep.2 hmeets
      rw [hmem] at htail
      cases k with
      | zero => rfl
      | succ k => exact (htail hzero.2).2 hrest k

/-- Main result: over any run of data relocations in a static link, `relocate` gives every field
the ABI's value and keeps all other bits exactly when each `SET16` finds its upper byte in place
and each `32_PCREL` has nothing to write. -/
theorem data_relocations_iff (s1 : TCCState) (rs : List Reloc) (hstatic : s1.outputDyn = false)
    (hdata : ∀ r ∈ rs, r.type.data.isSome) (hzero : Along (fun m r => r.ZeroField m) s1.mem rs) :
    FollowsAbi s1 rs ↔ Along (fun m r => r.Meets m) s1.mem rs := by
  have hprefixes := relocateAll_prefixes_iff rs s1 hstatic hdata hzero
  constructor
  · intro h
    exact hprefixes.1 h.prefixes
  · intro h
    have hall : (relocateAll s1 rs).mem = abiRun s1.mem rs := by
      have hlen := hprefixes.2 h rs.length
      rwa [List.take_length] at hlen
    refine ⟨hprefixes.2 h, fun p w hmiss => ?_, fun i hmiss => ?_⟩
    · rw [hall]
      exact field_abiRun rs s1.mem hmiss
    · rw [hall]
      exact bitAt_abiRun rs s1.mem hmiss

/-- The difference of two labels as a chain on one word, and a line number advance in a byte. -/
theorem data_relocations_table :
    FollowsAbi .empty
      [⟨⟨0#64, 1, .add32, 0#64⟩, .add32, 0, 0#64, 0x10480#64⟩,
        ⟨⟨4#64, 1, .set6, 0#64⟩, .set6, 4, 4#64, 0x10480#64⟩,
        ⟨⟨0#64, 2, .sub32, 0#64⟩, .sub32, 0, 0#64, 0x10400#64⟩] := by
  refine (data_relocations_iff _ _ rfl (by decide) ?_).2 ?_
  · refine ⟨?_, ?_, ?_, trivial⟩ <;>
    · intro op w hop hz
      cases hop
      exact absurd hz (by decide)
  · exact ⟨⟨by decide, by decide⟩, ⟨by decide, by decide⟩, ⟨by decide, by decide⟩, trivial⟩

/-- A `SET16` of 0x1234 on a field of zeros leaves 0x34. -/
theorem data_relocations_set16 :
    ¬ ∀ (s1 : TCCState) (rs : List Reloc), s1.outputDyn = false →
      (∀ r ∈ rs, r.type.data.isSome) → Along (fun m r => r.ZeroField m) s1.mem rs →
      FollowsAbi s1 rs := by
  intro h
  have hall := h .empty [⟨⟨0#64, 1, .set16, 0#64⟩, .set16, 0, 0#64, 0x1234#64⟩] rfl (by decide)
    ⟨fun op w hop hz => by cases hop; exact absurd hz (by decide), trivial⟩
  have hbyte := congrArg (fun m : Memory => m 1) (hall.prefixes 1)
  exact absurd hbyte (by decide)

end TccRiscv64.Link
