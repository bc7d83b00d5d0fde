import TccRiscv64.Lib.Atomic
import Mathlib.Algebra.BigOperators.Group.List.Basic

set_option autoImplicit false

/-! # Atomic operations in any interleaving

The functions of `lib/stdatomic.c` refine calls that take effect at one moment, whatever the other
threads do in between and whatever else is in the double word of the object. -/

namespace TccRiscv64.Lib.Atomic

open Data

/-! ## Objects in a double word -/

namespace Place

variable {p q : Place} {d : BitVec 64} {v : BitVec p.bits}

theorem bytes_pos (p : Place) : 0 < p.width.bytes := by
  cases p.width <;> decide

theorem end_le (p : Place) : p.ofs + p.width.bytes ≤ 8 := by
  obtain ⟨dword, ofs, width, inside, aligned⟩ := p
  cases width <;> simp only [Width.bytes] at aligned ⊢ <;> omega

theorem shift_add_bits_le (p : Place) : p.shift + p.bits ≤ 64 := by
  have := p.end_le
  unfold shift bits Width.bits
  omega

theorem getLsbD_mask (p : Place) (i : Nat) :
    p.mask.getLsbD i = decide (p.shift ≤ i ∧ i < p.shift + p.bits) := by
  have hle := p.shift_add_bits_le
  rw [mask, BitVec.getLsbD_shiftLeft, BitVec.getLsbD_setWidth, BitVec.getLsbD_allOnes]
  by_cases hlow : i < p.shift
  · rw [decide_eq_true hlow,
      decide_eq_false (show ¬(p.shift ≤ i ∧ i < p.shift + p.bits) by omega)]
    simp
  · rw [decide_eq_false hlow]
    by_cases hhigh : i < p.shift + p.bits
    · rw [decide_eq_true (show i < 64 by omega), decide_eq_true (show i - p.shift < 64 by omega),
        decide_eq_true (show i - p.shift < p.bits by omega),
        decide_eq_true (show p.shift ≤ i ∧ i < p.shift + p.bits by omega)]
      rfl
    · rw [decide_eq_false (show ¬i - p.shift < p.bits by omega),
        decide_eq_false (show ¬(p.shift ≤ i ∧ i < p.shift + p.bits) by omega)]
      simp

theorem getLsbD_setLane (d : BitVec 64) (v : BitVec p.bits) (i : Nat) :
    (p.setLane d v).getLsbD i =
      if p.shift ≤ i ∧ i < p.shift + p.bits then v.getLsbD (i - p.shift) else d.getLsbD i := by
  have hle := p.shift_add_bits_le
  rw [setLane, BitVec.getLsbD_or, BitVec.getLsbD_and, BitVec.getLsbD_not, getLsbD_mask,
    BitVec.getLsbD_shiftLeft, BitVec.getLsbD_setWidth]
  split
  · rename_i hin
    rw [decide_eq_true hin, decide_eq_true (show i < 64 by omega),
      decide_eq_false (show ¬i < p.shift by omega), decide_eq_true (show i - p.shift < 64 by omega)]
    simp
  · rename_i hout
    rw [decide_eq_false hout]
    by_cases hi : i < 64
    · have hzero : i < p.shift ∨ v.getLsbD (i - p.shift) = false := by
        by_cases hlow : i < p.shift
        · exact Or.inl hlow
        · exact Or.inr (BitVec.getLsbD_of_ge _ _ (by omega))
      rcases hzero with hlow | hzero
      · simp [hi, hlow]
      · simp [hi, hzero]
    · have hd : d.getLsbD i = false := BitVec.getLsbD_of_ge _ _ (by omega)
      simp [hi, hd]

@[simp] theorem lane_setLane (d : BitVec 64) (v : BitVec p.bits) : p.lane (p.setLane d v) = v := by
  apply BitVec.eq_of_getLsbD_eq
  intro i hi
  rw [lane, BitVec.getLsbD_extractLsb', getLsbD_setLane, if_pos (by omega), decide_eq_true hi,
    Bool.true_and, Nat.add_sub_cancel_left]

@[simp] theorem setLane_lane (d : BitVec 64) : p.setLane d (p.lane d) = d := by
  apply BitVec.eq_of_getLsbD_eq
  intro i hi
  rw [getLsbD_setLane]
  split
  · rename_i hin
    rw [lane, BitVec.getLsbD_extractLsb', decide_eq_true (show i - p.shift < p.bits by omega),
      Bool.true_and, Nat.add_sub_cancel' hin.1]
  · rfl

/-- The objects have no byte of a double word in common. -/
def Apart (p q : Place) : Prop :=
  p.ofs + p.width.bytes ≤ q.ofs ∨ q.ofs + q.width.bytes ≤ p.ofs

theorem lane_setLane_of_apart (h : p.Apart q) (d : BitVec 64) (v : BitVec p.bits) :
    q.lane (p.setLane d v) = q.lane d := by
  apply BitVec.eq_of_getLsbD_eq
  intro i hi
  have hout : ¬(p.shift ≤ q.shift + i ∧ q.shift + i < p.shift + p.bits) := by
    unfold Apart at h
    unfold bits Width.bits at hi
    unfold shift bits Width.bits
    omega
  rw [lane, lane, BitVec.getLsbD_extractLsb', BitVec.getLsbD_extractLsb', getLsbD_setLane,
    if_neg hout]

/-- The value that `.L4` stores to `*ref`. -/
theorem shifted_eq_lane (p : Place) (d : BitVec 64) :
    (d >>> p.shift).setWidth p.bits = p.lane d := by
  apply BitVec.eq_of_getLsbD_eq
  intro i hi
  rw [lane, BitVec.getLsbD_extractLsb', BitVec.getLsbD_setWidth, BitVec.getLsbD_ushiftRight]

/-- The comparison at `.L1` is one of the values of the object. -/
theorem masked_eq_iff (p : Place) (d : BitVec 64) (cmp : BitVec p.bits) :
    p.mask &&& d = cmp.setWidth 64 <<< p.shift ↔ p.lane d = cmp := by
  have hle := p.shift_add_bits_le
  have hright : cmp.setWidth 64 <<< p.shift = p.mask &&& p.setLane d cmp := by
    apply BitVec.eq_of_getLsbD_eq
    intro i hi
    rw [BitVec.getLsbD_and, getLsbD_mask, getLsbD_setLane, BitVec.getLsbD_shiftLeft,
      BitVec.getLsbD_setWidth, decide_eq_true hi]
    by_cases hin : p.shift ≤ i ∧ i < p.shift + p.bits
    · rw [if_pos hin, decide_eq_true hin, decide_eq_false (show ¬i < p.shift by omega),
        decide_eq_true (show i - p.shift < 64 by omega)]
      simp
    · rw [decide_eq_false hin]
      by_cases hlow : i < p.shift
      · simp [hlow]
      · rw [BitVec.getLsbD_of_ge cmp (i - p.shift) (by omega)]
        simp
  constructor
  · intro h
    have hmask : ∀ d' : BitVec 64, p.lane (p.mask &&& d') = p.lane d' := by
      intro d'
      apply BitVec.eq_of_getLsbD_eq
      intro i hi
      rw [lane, lane, BitVec.getLsbD_extractLsb', BitVec.getLsbD_extractLsb', BitVec.getLsbD_and,
        getLsbD_mask, decide_eq_true hi, Bool.true_and, Bool.true_and,
        decide_eq_true (show p.shift ≤ p.shift + i ∧ p.shift + i < p.shift + p.bits by omega),
        Bool.true_and]
    rw [← hmask d, h, hright, hmask, lane_setLane]
  · rintro rfl
    rw [hright, setLane_lane]

end Place

/-! ## The invariant -/

/-- The value a compare-and-exchange is called with is the one of its `*ref`. -/
def Cas.Expects {n : Nat} (cmp : BitVec n) : Cas n → Prop
  | genOp _ _ => True
  | compareExchange expected _ => cmp = expected

namespace Pc

/-- The call a thread is in, and its result once it has taken effect. -/
def status : Pc → Status
  | .idle => .idle
  | .load p => .called p .load
  | .store p value => .called p (.store value)
  | .first p op value => .called p (.cas (.genOp op value))
  | .read p c _ | .lr p c _ _ | .sc p c _ _ | .lrWord p c _ | .scWord p c _ => .called p (.cas c)
  | .ret p r => .done p r

/-- What a thread knows: in front of a store conditional with a reservation, the value that its load
saw is still there. -/
def Good (mem : Nat → BitVec 64) (reserved : Bool) : Pc → Prop
  | .read _ c cmp | .lrWord _ c cmp => c.Expects cmp
  | .lr p c cmp a5 => c.Expects cmp ∧ p.lane a5 = cmp
  | .sc p c cmp a5 => c.Expects cmp ∧ p.lane a5 = cmp ∧ (reserved = true → mem p.dword = a5)
  | .scWord p c cmp => c.Expects cmp ∧ (reserved = true → p.lane (mem p.dword) = cmp)
  | _ => True

variable {p : Place} {c : Cas p.bits} {cmp : BitVec p.bits} {mem : Nat → BitVec 64}
  {reserved : Bool}

theorem status_enter : (enter p c cmp).status = .called p (.cas c) := by
  unfold enter
  split <;> rfl

theorem good_enter (h : c.Expects cmp) : (enter p c cmp).Good mem reserved := by
  unfold enter
  split <;> exact h

theorem status_start (p : Place) (call : Call p.bits) : (start p call).status = .called p call := by
  cases call with
  | load => rfl
  | store value => rfl
  | cas c =>
    cases c with
    | genOp op value => rfl
    | compareExchange expected desired => exact status_enter

theorem good_start (p : Place) (call : Call p.bits) : (start p call).Good mem reserved := by
  cases call with
  | load => exact trivial
  | store value => exact trivial
  | cas c =>
    cases c with
    | genOp op value => exact trivial
    | compareExchange expected desired => exact good_enter rfl

/-- An access of a thread is a silent one, or the moment at which its call takes effect. -/
inductive Matched (mem : Nat → BitVec 64) (p : Place) (pc : Pc) (e : Effect) : Prop
  | silent (hwrite : e.write = none) (hstatus : e.pc.status = pc.status)
    (hgood : e.pc.Good mem e.reserves)
  | commit (call : Call p.bits) (hcalled : pc.status = .called p call)
    (hwrite : e.write.getD (mem p.dword) =
      p.setLane (mem p.dword) (call.perform (p.lane (mem p.dword))).1)
    (hpc : e.pc = .ret p (call.perform (p.lane (mem p.dword))).2)

/-- A compare-and-exchange that sees another value returns it, or starts again with it. -/
theorem matched_failed {pc : Pc} {reserves : Bool} (hstatus : pc.status = .called p (.cas c))
    (hexpects : c.Expects cmp) (hne : p.lane (mem p.dword) ≠ cmp) :
    Matched mem p pc ⟨failed p (p.lane (mem p.dword)) c, none, reserves⟩ := by
  cases c with
  | genOp op value =>
    exact .silent rfl (status_enter.trans hstatus.symm) (good_enter trivial)
  | compareExchange expected desired =>
    have hperform : Call.perform (p.lane (mem p.dword)) (.cas (.compareExchange expected desired))
        = (p.lane (mem p.dword), .differs (p.lane (mem p.dword))) :=
      if_neg fun heq => hne (heq.trans hexpects.symm)
    refine .commit _ hstatus ?_ ?_
    · rw [hperform, Place.setLane_lane]
      rfl
    · rw [hperform]
      rfl

theorem matched_check {pc : Pc} {reserves : Bool} (hstatus : pc.status = .called p (.cas c))
    (hexpects : c.Expects cmp) :
    Matched mem p pc ⟨check p c cmp (mem p.dword), none, reserves⟩ := by
  unfold check
  rw [Place.shifted_eq_lane]
  by_cases hlane : p.lane (mem p.dword) = cmp
  · rw [if_neg (not_not_intro ((p.masked_eq_iff _ _).2 hlane))]
    exact .silent rfl hstatus.symm ⟨hexpects, hlane⟩
  · rw [if_pos fun heq => hlane ((p.masked_eq_iff _ _).1 heq)]
    exact matched_failed hstatus hexpects hlane

/-- An exchange that is made. -/
theorem matched_success {pc : Pc} (hstatus : pc.status = .called p (.cas c))
    (hexpects : c.Expects cmp) (hlane : p.lane (mem p.dword) = cmp) :
    Matched mem p pc
      ⟨.ret p (c.success cmp), some (p.setLane (mem p.dword) (c.xchg cmp)), false⟩ := by
  have hperform : Call.perform (p.lane (mem p.dword)) (.cas c) = (c.xchg cmp, c.success cmp) := by
    rw [hlane]
    cases c with
    | genOp op value => rfl
    | compareExchange expected desired => exact if_pos hexpects
  refine .commit (.cas c) hstatus ?_ ?_
  · rw [hperform]
    rfl
  · rw [hperform]

/-- **Step lemma** for the thread that moves. -/
theorem matched_access {pc : Pc} {scOk : Bool} {e : Effect} (hplace : pc.place? = some p)
    (hgood : pc.Good mem reserved) (hsc : pc.isSc = true → scOk = true → reserved = true)
    (h : pc.access (mem p.dword) scOk = some e) : Matched mem p pc e := by
  cases pc with
  | idle => cases h
  | ret q r => cases h
  | load q =>
    obtain rfl := Option.some.inj hplace
    cases h
    exact .commit .load rfl (Place.setLane_lane _).symm rfl
  | store q value =>
    obtain rfl := Option.some.inj hplace
    cases h
    exact .commit (.store value) rfl rfl rfl
  | first q op value =>
    obtain rfl := Option.some.inj hplace
    cases h
    exact .silent rfl status_enter (good_enter trivial)
  | read q c cmp =>
    obtain rfl := Option.some.inj hplace
    cases h
    exact matched_check rfl hgood
  | lr q c cmp a5 =>
    obtain rfl := Option.some.inj hplace
    unfold access at h
    dsimp only at h
    split at h
    · cases h
      exact matched_check rfl hgood.1
    · rename_i heq
      cases h
      exact .silent rfl rfl ⟨hgood.1, hgood.2, fun _ => not_not.1 heq⟩
  | sc q c cmp a5 =>
    obtain rfl := Option.some.inj hplace
    cases scOk with
    | true =>
      cases h
      have heq := hgood.2.2 (hsc rfl rfl)
      have hlane := hgood.2.1
      subst heq
      exact matched_success rfl hgood.1 hlane
    | false =>
      cases h
      exact .silent rfl rfl ⟨hgood.1, hgood.2.1⟩
  | lrWord q c cmp =>
    obtain rfl := Option.some.inj hplace
    unfold access at h
    dsimp only at h
    split at h
    · rename_i hne
      cases h
      exact matched_failed rfl hgood hne
    · rename_i heq
      cases h
      exact .silent rfl rfl ⟨hgood, fun _ => not_not.1 heq⟩
  | scWord q c cmp =>
    obtain rfl := Option.some.inj hplace
    cases scOk with
    | true =>
      cases h
      exact matched_success rfl hgood.1 (hgood.2 (hsc rfl rfl))
    | false =>
      cases h
      exact .silent rfl rfl hgood.1

/-- Where a store goes. -/
theorem span_of_write {pc : Pc} {scOk : Bool} {e : Effect} {d d' : BitVec 64}
    (hplace : pc.place? = some p) (h : pc.access d scOk = some e) (hwrite : e.write = some d') :
    pc.span = (0, 8) ∨ pc.span = (p.ofs, p.width.bytes) ∧ ∃ v, d' = p.setLane d v := by
  cases pc with
  | idle => cases h
  | ret q r => cases h
  | load q =>
    cases h
    cases hwrite
  | store q value =>
    obtain rfl := Option.some.inj hplace
    cases h
    exact Or.inr ⟨rfl, value, (Option.some.inj hwrite).symm⟩
  | first q op value =>
    cases h
    cases hwrite
  | read q c cmp =>
    cases h
    cases hwrite
  | lr q c cmp a5 =>
    unfold access at h
    dsimp only at h
    split at h
    · cases h
      cases hwrite
    · cases h
      cases hwrite
  | sc q c cmp a5 => exact Or.inl rfl
  | lrWord q c cmp =>
    unfold access at h
    dsimp only at h
    split at h
    · cases h
      cases hwrite
    · cases h
      cases hwrite
  | scWord q c cmp =>
    obtain rfl := Option.some.inj hplace
    cases scOk with
    | true =>
      cases h
      exact Or.inr ⟨rfl, _, (Option.some.inj hwrite).symm⟩
    | false =>
      cases h
      cases hwrite

/-- **Step lemma** for the other threads: a store takes their reservations or leaves what they
know. -/
theorem good_of_store {pc pcu : Pc} {scOk : Bool} {e : Effect} (hplace : pc.place? = some p)
    (h : pc.access (mem p.dword) scOk = some e) (hgood : pcu.Good mem reserved) :
    pcu.Good ((e.write.map fun d => Function.update mem p.dword d).getD mem)
      (reserved && !(e.write.isSome && pc.overlaps pcu)) := by
  cases hwrite : e.write with
  | none =>
    show pcu.Good mem (reserved && !false)
    rwa [Bool.not_false, Bool.and_true]
  | some d' =>
    have hspan := span_of_write hplace h hwrite
    have hpos := p.bytes_pos
    have hend := p.end_le
    show pcu.Good (Function.update mem p.dword d') (reserved && !pc.overlaps pcu)
    cases pcu with
    | sc q c cmp a5 =>
      refine ⟨hgood.1, hgood.2.1, fun hres => ?_⟩
      obtain ⟨hres, hover⟩ := Bool.and_eq_true_iff.1 hres
      have hne : q.dword ≠ p.dword := by
        intro heq
        rw [Bool.not_eq_true', overlaps, decide_eq_false_iff_not, hplace] at hover
        refine hover ⟨congrArg some heq.symm, ?_⟩
        rcases hspan with hspan | ⟨hspan, -⟩
        · rw [hspan]
          exact ⟨show 0 < 0 + 8 by decide, show 0 < 0 + 8 by decide⟩
        · rw [hspan]
          exact ⟨by show p.ofs < 0 + 8; omega, by show 0 < p.ofs + p.width.bytes; omega⟩
      rw [Function.update_of_ne hne]
      exact hgood.2.2 hres
    | scWord q c cmp =>
      refine ⟨hgood.1, fun hres => ?_⟩
      obtain ⟨hres, hover⟩ := Bool.and_eq_true_iff.1 hres
      rw [← hgood.2 hres]
      by_cases heq : q.dword = p.dword
      · rw [Bool.not_eq_true', overlaps, decide_eq_false_iff_not, hplace] at hover
        have hqpos := q.bytes_pos
        have hqend := q.end_le
        rcases hspan with hspan | ⟨hspan, v, rfl⟩
        · rw [hspan] at hover
          exact absurd ⟨congrArg some heq.symm, by show 0 < q.ofs + q.width.bytes; omega,
            by show q.ofs < 0 + 8; omega⟩ hover
        · rw [hspan] at hover
          have hapart : p.Apart q := by
            by_contra hnot
            unfold Place.Apart at hnot
            refine hover ⟨congrArg some heq.symm, ?_, ?_⟩
            · show p.ofs < q.ofs + q.width.bytes
              omega
            · show q.ofs < p.ofs + p.width.bytes
              omega
          rw [heq, Function.update_self, Place.lane_setLane_of_apart hapart]
      · rw [Function.update_of_ne heq]
    | idle => exact trivial
    | load q => exact trivial
    | store q value => exact trivial
    | first q op value => exact trivial
    | read q c cmp => exact hgood
    | lr q c cmp a5 => exact hgood
    | lrWord q c cmp => exact hgood
    | ret q r => exact trivial

end Pc

/-! ## The refinement -/

section Refinement

variable {T : Type} [DecidableEq T]

/-- The two systems have the same memory, and each thread is as far with its call. -/
structure Related (s : State T) (a : SpecState T) : Prop where
  mem : a.mem = s.mem
  status : ∀ t, a.status t = (s.pc t).status
  good : ∀ t, (s.pc t).Good s.mem (s.reserved t)

theorem Related.invoke {s : State T} {a : SpecState T} (h : Related s a) (t : T) (p : Place)
    (call : Call p.bits) :
    Related { s with pc := Function.update s.pc t (.start p call) }
      { a with status := Function.update a.status t (.called p call) } where
  mem := h.mem
  status u := by
    dsimp only
    by_cases hu : u = t
    · subst hu
      rw [Function.update_self, Function.update_self, Pc.status_start]
    · rw [Function.update_of_ne hu, Function.update_of_ne hu, h.status u]
  good u := by
    dsimp only
    by_cases hu : u = t
    · subst hu
      rw [Function.update_self]
      exact Pc.good_start p call
    · rw [Function.update_of_ne hu]
      exact h.good u

theorem Related.ret {s : State T} {a : SpecState T} (h : Related s a) (t : T) :
    Related { s with pc := Function.update s.pc t .idle }
      { a with status := Function.update a.status t .idle } where
  mem := h.mem
  status u := by
    dsimp only
    by_cases hu : u = t
    · subst hu
      rw [Function.update_self, Function.update_self]
      rfl
    · rw [Function.update_of_ne hu, Function.update_of_ne hu, h.status u]
  good u := by
    dsimp only
    by_cases hu : u = t
    · subst hu
      rw [Function.update_self]
      exact trivial
    · rw [Function.update_of_ne hu]
      exact h.good u

/-- An access is matched by no step, or by the one in which the call takes effect. -/
theorem Related.run (mem : Nat → BitVec 64) {s : State T} {a : SpecState T} (h : Related s a)
    {t : T} {p : Place} {scOk : Bool} {e : Pc.Effect} (hplace : (s.pc t).place? = some p)
    (hsc : (s.pc t).isSc = true → scOk = true → s.reserved t = true)
    (haccess : (s.pc t).access (s.mem p.dword) scOk = some e) :
    ∃ a', (spec T mem).Run a [] a' ∧ Related (s.apply t p.dword e) a' := by
  have hothers : ∀ u, u ≠ t → ((s.apply t p.dword e).pc u).Good (s.apply t p.dword e).mem
      ((s.apply t p.dword e).reserved u) := by
    intro u hu
    show (Function.update s.pc t e.pc u).Good _ (if u = t then _ else _)
    rw [Function.update_of_ne hu, if_neg hu]
    exact Pc.good_of_store hplace haccess (h.good u)
  cases Pc.matched_access hplace (h.good t) hsc haccess with
  | silent hwrite hstatus hgood =>
    have hmem : (s.apply t p.dword e).mem = s.mem := by
      show (e.write.map _).getD s.mem = s.mem
      rw [hwrite]
      rfl
    refine ⟨a, .nil a, h.mem.trans hmem.symm, fun u => ?_, fun u => ?_⟩
    · show a.status u = (Function.update s.pc t e.pc u).status
      by_cases hu : u = t
      · subst hu
        rw [Function.update_self, hstatus, h.status]
      · rw [Function.update_of_ne hu, h.status]
    · by_cases hu : u = t
      · subst hu
        rw [hmem]
        show (Function.update s.pc u e.pc u).Good _ (if u = u then _ else _)
        rw [Function.update_self, if_pos rfl]
        exact hgood
      · exact hothers u hu
  | commit call hcalled hwrite hpc =>
    have hcommit := SpecStep.commit ((h.status t).trans hcalled)
    rw [h.mem] at hcommit
    refine ⟨_, .single (e := none) hcommit, ?_, fun u => ?_, fun u => ?_⟩
    · show Function.update s.mem p.dword _ = (e.write.map _).getD s.mem
      rw [← hwrite]
      cases e.write with
      | none => exact Function.update_eq_self _ _
      | some d => rfl
    · show Function.update a.status t _ u = (Function.update s.pc t e.pc u).status
      by_cases hu : u = t
      · subst hu
        rw [Function.update_self, Function.update_self, hpc]
        rfl
      · rw [Function.update_of_ne hu, Function.update_of_ne hu, h.status]
    · by_cases hu : u = t
      · subst hu
        show (Function.update s.pc u e.pc u).Good _ _
        rw [Function.update_self, hpc]
        exact trivial
      · exact hothers u hu

/-- **Simulation**: the accesses of the threads, in any order, are those of calls that take effect
at one moment. -/
theorem simulates (mem : Nat → BitVec 64) :
    (machine T mem).Simulates (spec T mem) Related where
  start s hs := by
    obtain ⟨hmem, hidle, -⟩ := hs
    refine ⟨⟨mem, fun _ => .idle⟩, ⟨rfl, fun _ => rfl⟩, hmem.symm, fun t => ?_, fun t => ?_⟩
    · rw [hidle]
      rfl
    · rw [hidle]
      exact trivial
  step s a e s' h hstep := by
    obtain ⟨action, hstep⟩ := hstep
    cases action with
    | invoke t p call =>
      unfold State.step at hstep
      dsimp only at hstep
      split at hstep
      · rename_i hidle
        cases hstep
        have hstatus : a.status t = .idle := by
          rw [h.status, hidle]
          rfl
        exact ⟨_, .single (.invoke p call hstatus), h.invoke t p call⟩
      · cases hstep
    | run t scOk =>
      unfold State.step at hstep
      dsimp only at hstep
      split at hstep
      · cases hstep
      · rename_i p hplace
        split at hstep
        · cases hstep
        · rename_i hsc
          obtain ⟨eff, haccess, heq⟩ := Option.map_eq_some_iff.1 hstep
          cases heq
          refine h.run mem hplace (fun hisSc hok => ?_) haccess
          by_contra hres
          rw [hisSc, hok, eq_false_of_ne_true hres] at hsc
          exact hsc rfl
    | ret t =>
      unfold State.step at hstep
      dsimp only at hstep
      split at hstep
      · rename_i p r hpc
        cases hstep
        have hstatus : a.status t = .done p r := by
          rw [h.status, hpc]
          rfl
        exact ⟨_, .single (.ret hstatus), h.ret t⟩
      · cases hstep

theorem run_of_steps (mem : Nat → BitVec 64) {s s' : State T} {as : List (Action T)}
    {tr : List (Event T)} (h : s.steps as = some (tr, s')) :
    (machine T mem).Run s tr s' := by
  induction as generalizing s tr with
  | nil =>
    cases h
    exact .nil _
  | cons a as ih =>
    obtain ⟨⟨e, s₁⟩, hstep, h⟩ := Option.bind_eq_some_iff.1 h
    obtain ⟨⟨tr', s₂⟩, hsteps, h⟩ := Option.bind_eq_some_iff.1 h
    cases h
    have hsingle := System.Run.single (S := machine T mem) (e := e) ⟨a, hstep⟩
    exact hsingle.append (ih hsteps)

/-- **Linearizability.** Every run of the functions, by any threads in any order and with store
conditionals that fail, has the calls and results of a run in which each call takes effect at one
moment between its start and its return; the memory is the same at the end. -/
theorem atomic_linearizable (mem : Nat → BitVec 64) {s s' : State T} {tr : List (Event T)}
    (hs : (machine T mem).init s) (hrun : (machine T mem).Run s tr s') :
    ∃ a a', (spec T mem).init a ∧ (spec T mem).Run a tr a' ∧ a'.mem = s'.mem ∧
      ∀ t, a'.status t = (s'.pc t).status := by
  obtain ⟨a, a', ha, hrun', hrelated⟩ := (simulates mem).traces hs hrun
  exact ⟨a, a', ha, hrun', hrelated.mem, hrelated.status⟩

end Refinement

/-- Two neighbours in a double word. -/
def lowByte : Place := ⟨0, 0, .one, by decide, by decide⟩

def nextByte : Place := ⟨0, 1, .one, by decide, by decide⟩

/-- While a thread adds to a byte, another one stores to the next byte: the store conditional of the
first one fails, and it starts again with the double word it then sees. -/
def disturbed : List (Action Bool) :=
  [.invoke true lowByte (.cas (.genOp .fetchAdd 3)), .run true false, .run true false,
    .run true false, .invoke false nextByte (.store 7), .run false false, .run true false,
    .run true false, .run true false, .run true true, .ret true, .ret false]

def allOnesIdle : State Bool := ⟨fun _ => BitVec.allOnes 64, fun _ => .idle, fun _ => false⟩

theorem disturbed_isSome : (allOnesIdle.steps disturbed).isSome = true := rfl

def disturbedEnd : List (Event Bool) × State Bool :=
  (allOnesIdle.steps disturbed).get disturbed_isSome

theorem disturbed_run :
    (machine Bool fun _ => BitVec.allOnes 64).Run allOnesIdle disturbedEnd.1 disturbedEnd.2 :=
  run_of_steps _ (Option.some_get disturbed_isSome).symm

theorem atomic_linearizable_disturbed :
    ∃ a a', (spec Bool fun _ => BitVec.allOnes 64).init a ∧
      (spec Bool fun _ => BitVec.allOnes 64).Run a disturbedEnd.1 a' ∧
      a'.mem = disturbedEnd.2.mem ∧ ∀ t, a'.status t = (disturbedEnd.2.pc t).status :=
  atomic_linearizable _ ⟨rfl, fun _ => rfl, fun _ => rfl⟩ disturbed_run

/-! ## Counters -/

/-- The objects have no byte in common. -/
def Place.Misses (q p : Place) : Prop := q.dword ≠ p.dword ∨ q.Apart p

theorem Place.Misses.lane {p q : Place} (h : q.Misses p) (mem : Nat → BitVec 64)
    (v : BitVec q.bits) :
    p.lane (Function.update mem q.dword (q.setLane (mem q.dword) v) p.dword)
      = p.lane (mem p.dword) := by
  by_cases heq : p.dword = q.dword
  · have hapart : q.Apart p := h.resolve_left fun hne => hne heq.symm
    rw [heq, Function.update_self, Place.lane_setLane_of_apart hapart]
  · rw [Function.update_of_ne heq]

/-- What a call adds to its object, if it is one that adds. -/
def Call.addend {n : Nat} : Call n → Option (BitVec n)
  | .load => some 0
  | .cas (.genOp .addFetch value) | .cas (.genOp .fetchAdd value) => some value
  | .cas (.genOp .subFetch value) | .cas (.genOp .fetchSub value) => some (-value)
  | _ => none

theorem Call.perform_of_addend {n : Nat} {call : Call n} {x : BitVec n} (h : call.addend = some x)
    (v : BitVec n) : (call.perform v).1 = v + x := by
  unfold addend at h
  split at h
  · cases h
    exact (BitVec.add_zero v).symm
  · cases h
    rfl
  · cases h
    rfl
  · cases h
    exact BitVec.sub_eq_add_neg v _
  · cases h
    exact BitVec.sub_eq_add_neg v _
  · cases h

section Counters

variable {T : Type} {p : Place}

/-- The calls on `p` add to it, and no other call touches it. -/
def Counts (p : Place) (tr : List (Event T)) : Prop :=
  ∀ t q (call : Call q.bits), Event.invoke t q call ∈ tr →
    q.Misses p ∨ q = p ∧ call.addend ≠ none

/-- What an event adds to `p`. -/
def Event.addend (p : Place) : Event T → BitVec p.bits
  | .invoke _ q call => if h : q = p then (h ▸ call).addend.getD 0 else 0
  | .ret _ _ _ => 0

/-- What the calls on `p` are to add. -/
def total (p : Place) (tr : List (Event T)) : BitVec p.bits := (tr.map (Event.addend p)).sum

theorem Event.addend_invoke (t : T) (call : Call p.bits) :
    Event.addend p (.invoke t p call) = call.addend.getD 0 := dif_pos rfl

theorem Event.addend_of_misses (t : T) {q : Place} (call : Call q.bits) (h : q.Misses p) :
    Event.addend p (.invoke t q call) = 0 := by
  refine dif_neg ?_
  rintro rfl
  have hpos := q.bytes_pos
  rcases h with hne | hapart
  · exact hne rfl
  · unfold Place.Apart at hapart
    omega

theorem total_append (tr : List (Event T)) (e : Option (Event T)) :
    total p (tr ++ e.toList) = total p tr + (e.map (Event.addend p)).getD 0 := by
  unfold total
  cases e with
  | none =>
    rw [Option.toList_none, List.append_nil]
    exact (add_zero _).symm
  | some e =>
    rw [Option.toList_some, List.map_append, List.sum_append, List.map_singleton,
      List.sum_singleton]
    rfl

/-- `owed` lists the threads in a call on `p` that has not taken effect, with what it adds. -/
structure Owes (a : SpecState T) (owed : List (T × BitVec p.bits)) : Prop where
  nodup : owed.Nodup
  mem_iff : ∀ t x, (t, x) ∈ owed ↔ ∃ call, a.status t = .called p call ∧ call.addend = some x
  called : ∀ t q (call : Call q.bits), a.status t = .called q call →
    q.Misses p ∨ q = p ∧ call.addend ≠ none

/-- What is in `p`, together with what is owed, is what was in it and all that was to be added. -/
def Balanced (p : Place) (mem : Nat → BitVec 64) (tr : List (Event T)) (a : SpecState T) : Prop :=
  ∃ owed : List (T × BitVec p.bits), Owes a owed ∧
    p.lane (a.mem p.dword) + (owed.map Prod.snd).sum = p.lane (mem p.dword) + total p tr

theorem not_mem_owed {a : SpecState T} {owed : List (T × BitVec p.bits)} (h : Owes a owed) {t : T}
    (ht : ∀ call, a.status t ≠ .called p call) (x : BitVec p.bits) : (t, x) ∉ owed := by
  intro hmem
  obtain ⟨call, hcall, -⟩ := (h.mem_iff t x).1 hmem
  exact ht call hcall

variable [DecidableEq T]

/-- A thread that is not in a call owes nothing. -/
theorem Owes.of_update {a a' : SpecState T} {owed : List (T × BitVec p.bits)} (h : Owes a owed)
    {t : T} {st : Status} (ht : ∀ x, (t, x) ∉ owed)
    (hst : ∀ q (call : Call q.bits), st = .called q call → q.Misses p)
    (hstatus : a'.status = Function.update a.status t st) : Owes a' owed where
  nodup := h.nodup
  mem_iff u x := by
    rw [hstatus, h.mem_iff]
    by_cases hu : u = t
    · subst hu
      rw [Function.update_self]
      refine iff_of_false (fun hcall => ht x ((h.mem_iff u x).2 hcall)) ?_
      rintro ⟨call, hcall, -⟩
      have hpos := p.bytes_pos
      rcases hst p call hcall with hne | hapart
      · exact hne rfl
      · unfold Place.Apart at hapart
        omega
    · rw [Function.update_of_ne hu]
  called u q call hcall := by
    rw [hstatus] at hcall
    by_cases hu : u = t
    · subst hu
      rw [Function.update_self] at hcall
      exact Or.inl (hst q call hcall)
    · rw [Function.update_of_ne hu] at hcall
      exact h.called u q call hcall

/-- **Step lemma**: every step of the specification keeps the balance. -/
theorem balanced_step {mem : Nat → BitVec 64} {tr : List (Event T)} {a a' : SpecState T}
    {e : Option (Event T)} (hcounts : Counts p (tr ++ e.toList)) (h : Balanced p mem tr a)
    (hstep : SpecStep a e a') : Balanced p mem (tr ++ e.toList) a' := by
  obtain ⟨owed, howes, hsum⟩ := h
  cases hstep with
  | @invoke t q call hidle =>
    have ht : ∀ x, (t, x) ∉ owed := not_mem_owed howes fun call hcall => by
      rw [hidle] at hcall
      cases hcall
    rw [Balanced, total_append]
    rcases hcounts t q call (List.mem_append_right _ List.mem_cons_self) with hmiss | ⟨rfl, hadd⟩
    · refine ⟨owed, howes.of_update ht ?_ rfl, ?_⟩
      · intro q' call' heq
        cases heq
        exact hmiss
      · show _ = _ + (total p tr + Event.addend p (.invoke t q call))
        rw [Event.addend_of_misses t call hmiss, add_zero]
        exact hsum
    · obtain ⟨x, hx⟩ := Option.ne_none_iff_exists'.1 hadd
      refine ⟨(t, x) :: owed, ⟨List.nodup_cons.2 ⟨ht x, howes.nodup⟩, ?_, ?_⟩, ?_⟩
      · intro u y
        rw [List.mem_cons, howes.mem_iff]
        by_cases hu : u = t
        · subst hu
          dsimp only
          rw [Function.update_self]
          constructor
          · rintro (heq | ⟨call', hcall', -⟩)
            · cases heq
              exact ⟨call, rfl, hx⟩
            · rw [hidle] at hcall'
              cases hcall'
          · rintro ⟨call', hcall', hy⟩
            cases hcall'
            exact Or.inl (congrArg _ (Option.some.inj (hy.symm.trans hx)))
        · dsimp only
          rw [Function.update_of_ne hu, or_iff_right fun heq => hu (congrArg Prod.fst heq)]
      · intro u q' call' hcall'
        by_cases hu : u = t
        · subst hu
          dsimp only at hcall'
          rw [Function.update_self] at hcall'
          cases hcall'
          exact Or.inr ⟨rfl, hadd⟩
        · dsimp only at hcall'
          rw [Function.update_of_ne hu] at hcall'
          exact howes.called u q' call' hcall'
      · show _ + (x + (owed.map Prod.snd).sum)
          = _ + (total q tr + Event.addend q (.invoke t q call))
        rw [Event.addend_invoke, hx, Option.getD_some, add_comm x, ← add_assoc, hsum, add_assoc]
  | @commit t q call hcalled =>
    rw [Balanced, total_append]
    show ∃ owed', Owes _ owed' ∧ _ = _ + (total p tr + 0)
    rw [add_zero]
    rcases howes.called t q call hcalled with hmiss | ⟨rfl, hadd⟩
    · refine ⟨owed, howes.of_update ?_ ?_ rfl, ?_⟩
      · refine not_mem_owed howes fun call' hcall' => ?_
        rw [hcalled] at hcall'
        cases hcall'
        have hpos := p.bytes_pos
        rcases hmiss with hne | hapart
        · exact hne rfl
        · unfold Place.Apart at hapart
          omega
      · intro q' call' heq
        cases heq
      · dsimp only
        rw [hmiss.lane]
        exact hsum
    · obtain ⟨x, hx⟩ := Option.ne_none_iff_exists'.1 hadd
      have hmem : (t, x) ∈ owed := (howes.mem_iff t x).2 ⟨call, hcalled, hx⟩
      refine ⟨owed.erase (t, x), ⟨howes.nodup.erase _, ?_, ?_⟩, ?_⟩
      · intro u y
        rw [howes.nodup.mem_erase_iff, howes.mem_iff]
        by_cases hu : u = t
        · subst hu
          dsimp only
          rw [Function.update_self]
          refine iff_of_false ?_ ?_
          · rintro ⟨hne, call', hcall', hy⟩
            rw [hcalled] at hcall'
            cases hcall'
            exact hne (congrArg _ (Option.some.inj (hy.symm.trans hx)))
          · rintro ⟨call', hcall', -⟩
            cases hcall'
        · dsimp only
          rw [Function.update_of_ne hu, and_iff_right fun heq => hu (congrArg Prod.fst heq)]
      · intro u q' call' hcall'
        by_cases hu : u = t
        · subst hu
          dsimp only at hcall'
          rw [Function.update_self] at hcall'
          cases hcall'
        · dsimp only at hcall'
          rw [Function.update_of_ne hu] at hcall'
          exact howes.called u q' call' hcall'
      · have hperm := (List.perm_cons_erase hmem).map Prod.snd
        have hsplit : (owed.map Prod.snd).sum = x + ((owed.erase (t, x)).map Prod.snd).sum :=
          hperm.sum_eq.trans List.sum_cons
        dsimp only
        rw [Function.update_self, Place.lane_setLane, Call.perform_of_addend hx, add_assoc,
          ← hsplit]
        exact hsum
  | @ret t q r hdone =>
    rw [Balanced, total_append]
    refine ⟨owed, howes.of_update ?_ ?_ rfl, ?_⟩
    · refine not_mem_owed howes fun call' hcall' => ?_
      rw [hdone] at hcall'
      cases hcall'
    · intro q' call' heq
      cases heq
    · show _ = _ + (total p tr + 0)
      rw [add_zero]
      exact hsum

/-- **Run lemma**. -/
theorem balanced_run {mem : Nat → BitVec 64} {tr : List (Event T)} {a a' : SpecState T}
    (ha : (spec T mem).init a) (hrun : (spec T mem).Run a tr a') (hcounts : Counts p tr) :
    Balanced p mem tr a' := by
  induction hrun with
  | nil =>
    refine ⟨[], ⟨List.nodup_nil, ?_, ?_⟩, ?_⟩
    · intro t x
      rw [ha.2]
      refine iff_of_false List.not_mem_nil ?_
      rintro ⟨call, hcall, -⟩
      cases hcall
    · intro t q call hcall
      rw [ha.2] at hcall
      cases hcall
    · rw [ha.1]
      rfl
  | snoc _ hstep ih =>
    have hprefix : Counts p _ := fun t q call hmem =>
      hcounts t q call (List.mem_append_left _ hmem)
    exact balanced_step hcounts (ih hprefix) hstep

/-- **No update is lost.** If the calls on an object only add to it, then, once all calls have
returned, its value is the first one plus all that was to be added, in whatever order the threads
ran and whatever they did to the rest of the double word. -/
theorem counter_exact (mem : Nat → BitVec 64) {s s' : State T} {tr : List (Event T)}
    (hs : (machine T mem).init s) (hrun : (machine T mem).Run s tr s') (hcounts : Counts p tr)
    (hidle : ∀ t, s'.pc t = .idle) :
    p.lane (s'.mem p.dword) = p.lane (mem p.dword) + total p tr := by
  obtain ⟨a, a', ha, hrun', hrelated⟩ := (simulates mem).traces hs hrun
  obtain ⟨owed, howes, hsum⟩ := balanced_run ha hrun' hcounts
  have hnone : owed = [] := by
    refine List.eq_nil_iff_forall_not_mem.2 fun ⟨t, x⟩ hmem => ?_
    obtain ⟨call, hcall, -⟩ := (howes.mem_iff t x).1 hmem
    rw [hrelated.status, hidle] at hcall
    cases hcall
  rw [hnone, List.map_nil, List.sum_nil, add_zero, hrelated.mem] at hsum
  exact hsum

theorem counter_exact_disturbed :
    lowByte.lane (disturbedEnd.2.mem 0) = lowByte.lane (BitVec.allOnes 64) + 3 := by
  have htrace : disturbedEnd.1 =
      [.invoke true lowByte (.cas (.genOp .fetchAdd 3)), .invoke false nextByte (.store 7),
        .ret true lowByte (.value 255), .ret false nextByte .done] := rfl
  have hcounts : Counts lowByte disturbedEnd.1 := by
    intro t q call hmem
    rw [htrace] at hmem
    rcases List.mem_cons.1 hmem with heq | hmem
    · cases heq
      exact Or.inr ⟨rfl, Option.some_ne_none _⟩
    rcases List.mem_cons.1 hmem with heq | hmem
    · cases heq
      exact Or.inl (Or.inr (Or.inr (by decide)))
    rcases List.mem_cons.1 hmem with heq | hmem
    · cases heq
    rcases List.mem_cons.1 hmem with heq | hmem
    · cases heq
    · cases hmem
  have hidle : ∀ t, disturbedEnd.2.pc t = .idle := by
    intro t
    cases t <;> rfl
  have htotal : total lowByte disturbedEnd.1 = 3 := by
    rw [htrace]
    decide
  have hexact := counter_exact (fun _ => BitVec.allOnes 64) ⟨rfl, fun _ => rfl, fun _ => rfl⟩
    disturbed_run hcounts hidle
  rwa [htotal] at hexact

end Counters

end TccRiscv64.Lib.Atomic
