import TccRiscv64.Asm.Layout

set_option autoImplicit false

/-! # What layout directives do

An accepted directive moves the offset to where it asks for and fills the bytes in between, under a
condition on its operands and on the offset. -/

namespace TccRiscv64.Asm.Layout

open TccRiscv64.Asm.Labels TccRiscv64.Asm.Expr

/-! ## Bytes -/

namespace Section

variable {sec : Section} {i n j newSize size : ℕ}

theorem le_grow (h : 0 < size) : newSize ≤ grow newSize size := by
  fun_induction grow newSize size with
  | case1 size hlt ih => exact ih (by omega)
  | case2 size hlt => omega

theorem data_realloc (sec : Section) (newSize : ℕ) :
    ∃ m, (sec.realloc newSize).data = sec.data ++ List.replicate m 0#8 ∧
      newSize ≤ (sec.realloc newSize).data.length := by
  refine ⟨_, rfl, ?_⟩
  have hpos : 0 < if sec.data.length = 0 then 1 else sec.data.length := by
    split <;> omega
  have hle : newSize ≤ grow newSize _ := le_grow hpos
  rw [realloc, List.length_append, List.length_replicate]
  omega

theorem getD_append_zeros (data : List (BitVec 8)) (m j : ℕ) :
    (data ++ List.replicate m 0#8).getD j 0#8 = data.getD j 0#8 := by
  rcases Nat.lt_or_ge j data.length with hlt | hge
  · rw [List.getD_append _ _ _ _ hlt]
  · rw [List.getD_append_right _ _ _ _ hge, List.getD_eq_default _ _ hge,
      List.getD_eq_getElem?_getD, List.getElem?_replicate]
    split <;> rfl

theorem getD_memset (h : i + n ≤ sec.data.length) (v : BitVec 8) (j : ℕ) :
    (sec.memset i v n).data.getD j 0#8 =
      if i ≤ j ∧ j < i + n then v else sec.data.getD j 0#8 := by
  have htake : (sec.data.take i).length = i := by
    rw [List.length_take]
    omega
  rw [memset, List.append_assoc]
  rcases Nat.lt_or_ge j i with hlt | hge
  · rw [List.getD_append _ _ _ _ (by omega), if_neg (by omega), List.getD_eq_getElem?_getD,
      List.getElem?_take_of_lt hlt, ← List.getD_eq_getElem?_getD]
  rw [List.getD_append_right _ _ _ _ (by omega), htake]
  by_cases hmid : j < i + n
  · rw [if_pos ⟨hge, hmid⟩, List.getD_append _ _ _ _ (by rw [List.length_replicate]; omega),
      List.getD_replicate _ (by omega)]
  · rw [if_neg (by omega), List.getD_append_right _ _ _ _ (by rw [List.length_replicate]; omega),
      List.length_replicate, List.getD_eq_getElem?_getD, List.getElem?_drop,
      ← List.getD_eq_getElem?_getD]
    congr 1
    omega

/-- Room for more bytes, at the end of those in use. -/
theorem ptrAdd_spec (hdata : sec.nobits = false) {size : BitVec 64}
    (hlt : sec.dataOffset.toNat + size.toNat < 2 ^ 64) :
    (sec.ptrAdd size).2 = sec.dataOffset ∧ (sec.ptrAdd size).1.nobits = false ∧
      (∀ j, (sec.ptrAdd size).1.data.getD j 0#8 = sec.data.getD j 0#8) ∧
      sec.dataOffset.toNat + size.toNat ≤ (sec.ptrAdd size).1.data.length := by
  have hone : (-1#32).signExtend 64 = BitVec.allOnes 64 := by decide
  have hone' : (1#32).signExtend 64 = 1#64 := by decide
  have hoffset : (sec.dataOffset + (1#32).signExtend 64 - 1#64) &&& (-1#32).signExtend 64 =
      sec.dataOffset := by
    rw [hone, BitVec.and_allOnes, hone', BitVec.add_sub_cancel]
  have hsum : (sec.dataOffset + size).toNat = sec.dataOffset.toNat + size.toNat := by
    rw [BitVec.toNat_add, Nat.mod_eq_of_lt hlt]
  obtain ⟨m, hm, hle⟩ := sec.data_realloc (sec.dataOffset.toNat + size.toNat)
  have hroom : ∃ sec' : Section, (if !sec.nobits && (sec.dataOffset + size).toNat > sec.data.length
      then sec.realloc (sec.dataOffset + size).toNat else sec) = sec' ∧ sec'.nobits = false ∧
      (∀ j, sec'.data.getD j 0#8 = sec.data.getD j 0#8) ∧
      sec.dataOffset.toNat + size.toNat ≤ sec'.data.length := by
    rw [hdata, hsum]
    by_cases hgt : sec.dataOffset.toNat + size.toNat > sec.data.length
    · refine ⟨_, if_pos (by simpa using hgt), hdata, fun j => ?_, hle⟩
      rw [hm, getD_append_zeros]
    · exact ⟨_, if_neg (by simpa using hgt), hdata, fun _ => rfl, by omega⟩
  obtain ⟨sec', hsec', hnobits, hbytes, hlength⟩ := hroom
  rw [ptrAdd, add]
  dsimp only
  rw [hoffset, hsec']
  split
  · exact ⟨rfl, hnobits, hbytes, hlength⟩
  · exact ⟨rfl, hnobits, hbytes, hlength⟩

end Section

/-! ## What is asked for -/

/-- `INT_MAX` -/
def intMax : ℤ := 2 ^ 31 - 1

/-- The offset is moved to `p`, forward, and nothing but the bytes in between is filled. -/
structure LaidOut (s s' : State) (p : ℤ) (fill : ℕ → BitVec 8) : Prop where
  position : s'.ind.toInt = p
  forward : s.ind.toInt ≤ s'.ind.toInt
  before : ∀ i < s.ind.toNat, s'.sec.byte i = s.sec.byte i
  filled : ∀ k, s.ind.toNat + k < s'.ind.toNat → s'.sec.byte (s.ind.toNat + k) = fill k
  behind : ∀ i, s'.ind.toNat ≤ i → s'.sec.byte i = s.sec.byte i

/-- The value of an operand that may be left out. -/
def valueOr (default : BitVec 64) (e : Option ExprValue) : BitVec 64 :=
  match e with
  | none => default
  | some e => e.v

/-- The address of `.org`. -/
def orgTarget (s1 : AsmState) (e : ExprValue) : BitVec 64 :=
  match e.sym.bind s1.elfsym with
  | none => e.v
  | some esym => e.v + BitVec.ofInt 64 esym.stValue

namespace Directive

/-- The position that a directive asks for. -/
def Asks (s1 : AsmState) (s : State) (p : ℤ) : Directive → Prop
  | align n _ | balign n _ => IsLeast {q : ℤ | s.ind.toInt ≤ q ∧ n.v.toInt ∣ q} p
  | p2align n _ => ∃ k : ℕ, n.v.toInt = k ∧ IsLeast {q : ℤ | s.ind.toInt ≤ q ∧ 2 ^ k ∣ q} p
  | skip n _ | space n _ => p = s.ind.toInt + max 0 n.v.toInt
  | org e => p = (orgTarget s1 e).toNat
  | fill repeat' size _ => p = s.ind.toInt + repeat'.v.toInt * min (valueOr 1#64 size).toInt 8

/-- The byte that a directive puts at a distance from the old offset: with `.fill`, one of the value
as a number of 8 bytes whose upper half is zero. -/
def fillByte (k : ℕ) : Directive → BitVec 8
  | align _ v | balign _ v | p2align _ v | skip _ v | space _ v => (valueOr 0#64 v).setWidth 8
  | org _ => 0#8
  | fill _ size val =>
    let value := ((valueOr 0#64 val).setWidth 32).setWidth 64
    (value >>> (8 * (k % (min (valueOr 1#64 size).toInt 8).toNat))).setWidth 8

/-- The directive does what it asks for. -/
def Right (s1 : AsmState) (s : State) (d : Directive) : Prop :=
  ∃ s', d.run s1 s = .ok s' ∧ ∃ p, d.Asks s1 s p ∧ LaidOut s s' p d.fillByte

/-- The operands and the offset fit an `int`. -/
def Fits (s1 : AsmState) (s : State) : Directive → Prop
  | align n _ | balign n _ =>
    s.ind.toInt = 0 ∨ (0 < n.v.toInt ∧ s.ind.toInt + n.v.toInt ≤ intMax)
  | p2align n _ =>
    0 ≤ n.v.toInt ∧ (s.ind.toInt = 0 ∨ s.ind.toInt + 2 ^ n.v.toInt.toNat ≤ intMax)
  | skip n _ | space n _ =>
    if 0 ≤ n.v.toInt then s.ind.toInt + n.v.toInt ≤ intMax else (n.v.setWidth 32).toInt ≤ 0
  | org e => (orgTarget s1 e).toNat ≤ intMax
  | fill repeat' size _ =>
    let r := repeat'.v.toInt
    let size := valueOr 1#64 size
    size.toInt = 0 ∨ r = 0 ∨
      (0 < r ∧ 0 < size.toInt ∧ (size.toInt ≤ intMax ∨ 8 ≤ (size.setWidth 32).toInt) ∧
        s.ind.toInt + r * min size.toInt 8 ≤ intMax)

instance (s1 : AsmState) (s : State) (d : Directive) : Decidable (d.Fits s1 s) :=
  match d with
  | align n _ | balign n _ => inferInstanceAs
    (Decidable (s.ind.toInt = 0 ∨ (0 < n.v.toInt ∧ s.ind.toInt + n.v.toInt ≤ intMax)))
  | p2align n _ => inferInstanceAs (Decidable
    (0 ≤ n.v.toInt ∧ (s.ind.toInt = 0 ∨ s.ind.toInt + 2 ^ n.v.toInt.toNat ≤ intMax)))
  | skip n _ | space n _ => inferInstanceAs (Decidable
    (if 0 ≤ n.v.toInt then s.ind.toInt + n.v.toInt ≤ intMax else (n.v.setWidth 32).toInt ≤ 0))
  | org e => inferInstanceAs (Decidable (((orgTarget s1 e).toNat : ℤ) ≤ intMax))
  | fill _ _ _ => inferInstanceAs (Decidable (_ ∨ _ ∨ (_ ∧ _ ∧ (_ ∨ _) ∧ _)))

end Directive

/-! ## The end of a directive -/

section ZeroPad

variable {s s' : State} {size v : BitVec 32} {p : ℤ}

theorem addInt_ok_iff {a b c : BitVec 32} : addInt a b = .ok c ↔
    (-2 ^ 31 ≤ a.toInt + b.toInt ∧ a.toInt + b.toInt ≤ intMax) ∧ c.toInt = a.toInt + b.toInt := by
  rw [addInt, BitVec.saddOverflow, intMax]
  split
  · rename_i h
    rw [Bool.or_eq_true, decide_eq_true_eq, decide_eq_true_eq] at h
    exact iff_of_false (fun hc => by cases hc) (by omega)
  · rename_i h
    have hadd := BitVec.toInt_add_of_not_saddOverflow h
    rw [Bool.or_eq_true, decide_eq_true_eq, decide_eq_true_eq] at h
    rw [Except.ok.injEq, ← BitVec.toInt_inj, hadd, eq_comm]
    exact ⟨fun hc => ⟨by omega, hc⟩, fun hc => hc.2⟩

theorem addInt_ok {a b : BitVec 32} (hle : -2 ^ 31 ≤ a.toInt + b.toInt)
    (hmax : a.toInt + b.toInt ≤ intMax) : addInt a b = .ok (a + b) ∧
      (a + b).toInt = a.toInt + b.toInt := by
  have h : ¬ a.saddOverflow b := by
    rw [BitVec.saddOverflow, Bool.or_eq_true, decide_eq_true_eq, decide_eq_true_eq]
    rw [intMax] at hmax
    omega
  exact ⟨if_neg h, BitVec.toInt_add_of_not_saddOverflow h⟩

theorem addInt_undefined {a b : BitVec 32} (h : intMax < a.toInt + b.toInt) :
    addInt a b = .error .undefined := by
  refine if_pos ?_
  rw [BitVec.saddOverflow, Bool.or_eq_true, decide_eq_true_eq, decide_eq_true_eq]
  rw [intMax] at h
  omega

theorem subInt_ok {a b : BitVec 32} (hle : -2 ^ 31 ≤ a.toInt - b.toInt)
    (hmax : a.toInt - b.toInt ≤ intMax) : subInt a b = .ok (a - b) ∧
      (a - b).toInt = a.toInt - b.toInt := by
  have h : ¬ a.ssubOverflow b := by
    rw [BitVec.ssubOverflow, Bool.or_eq_true, decide_eq_true_eq, decide_eq_true_eq]
    rw [intMax] at hmax
    omega
  exact ⟨if_neg h, BitVec.toInt_sub_of_not_ssubOverflow h⟩

theorem bind_ok_iff {α β : Type} {x : Except Failure α} {f : α → Except Failure β} {b : β} :
    (x >>= f) = .ok b ↔ ∃ a, x = .ok a ∧ f a = .ok b := by
  constructor
  · intro h
    cases x with
    | error e => cases h
    | ok a => exact ⟨a, rfl, h⟩
  · rintro ⟨a, rfl, h⟩
    exact h

theorem toNat_of_nonneg {w : ℕ} {a : BitVec w} (h : 0 ≤ a.toInt) : (a.toNat : ℤ) = a.toInt := by
  rw [BitVec.toInt_eq_toNat_cond] at h ⊢
  have hlt := a.isLt
  split at h
  · rw [if_pos ‹_›]
  · omega

theorem toNat_signExtend_of_nonneg {a : BitVec 32} (h : 0 ≤ a.toInt) :
    (a.signExtend 64).toNat = a.toNat := by
  have hext : (a.signExtend 64).toInt = a.toInt := BitVec.toInt_signExtend_of_le (by decide)
  have h64 := toNat_of_nonneg (a := a.signExtend 64) (by omega)
  have h32 := toNat_of_nonneg h
  omega

/-- The section that `zero_pad` leaves. -/
theorem zeroPad_eq (h0 : 0 ≤ s.ind.toInt) (hsize : 0 ≤ size.toInt) :
    ∃ sec : Section, zeroPad s size v = (do let ind ← addInt s.ind size; .ok ⟨ind, sec⟩) ∧
      ∀ j, sec.byte j = if s.sec.nobits then 0#8
        else if s.ind.toNat ≤ j ∧ j < s.ind.toNat + size.toNat then v.setWidth 8
        else s.sec.byte j := by
  rw [zeroPad]
  cases hnobits : s.sec.nobits with
  | true => exact ⟨s.sec, rfl, fun j => by rw [Section.byte, if_pos hnobits, if_pos rfl]⟩
  | false =>
    rw [if_neg Bool.false_ne_true, if_neg (by omega)]
    have hind := toNat_signExtend_of_nonneg h0
    have hlen := toNat_signExtend_of_nonneg hsize
    have hroom := @Section.ptrAdd_spec { s.sec with dataOffset := s.ind.signExtend 64 } hnobits
      (size.signExtend 64) (by
        have hlt := s.ind.isLt
        have hlt' := size.isLt
        dsimp only
        omega)
    generalize Section.ptrAdd _ _ = room at hroom ⊢
    obtain ⟨hoffset, hdata, hbytes, hlength⟩ := hroom
    dsimp only at hoffset hbytes hlength
    refine ⟨_, rfl, fun j => ?_⟩
    rw [Section.byte, hoffset, show (Section.memset _ _ _ _).nobits = false from hdata,
      if_neg Bool.false_ne_true, if_neg Bool.false_ne_true,
      Section.getD_memset (by omega), hind, hbytes, Section.byte, hnobits,
      if_neg Bool.false_ne_true]

/-- Filling with one byte, in terms of what is left behind. -/
theorem laidOut_iff {fill : ℕ → BitVec 8} {n : ℕ} (h0 : 0 ≤ s.ind.toInt)
    (hind : s'.ind.toInt = s.ind.toInt + n)
    (hbyte : ∀ j, s'.sec.byte j = if s.sec.nobits then 0#8
      else if s.ind.toNat ≤ j ∧ j < s.ind.toNat + n then fill (j - s.ind.toNat)
      else s.sec.byte j) :
    LaidOut s s' p fill ↔ p = s.ind.toInt + n ∧ (s.sec.nobits = true → ∀ k < n, fill k = 0#8) := by
  have hold := toNat_of_nonneg h0
  have hnew := toNat_of_nonneg (a := s'.ind) (by omega)
  constructor
  · refine fun h => ⟨by rw [← h.position, hind], fun hnobits k hk => ?_⟩
    rw [← h.filled k (by omega), hbyte, if_pos hnobits]
  · rintro ⟨hp, hzero⟩
    have hout {j : ℕ} (hj : ¬ (s.ind.toNat ≤ j ∧ j < s.ind.toNat + n)) :
        s'.sec.byte j = s.sec.byte j := by
      rw [hbyte, if_neg hj]
      split
      · rename_i hnobits
        rw [Section.byte, if_pos hnobits]
      · rfl
    refine ⟨by rw [hind, hp], by omega, fun j hj => hout (by omega), fun k hk => ?_,
      fun j hj => hout (by omega)⟩
    rw [hbyte, if_pos (show _ ∧ _ from ⟨by omega, by omega⟩), Nat.add_sub_cancel_left]
    split
    · exact (hzero ‹_› k (by omega)).symm
    · rfl

theorem laidOut_congr {t : State} {fill : ℕ → BitVec 8} (hind : s.ind = t.ind)
    (hbyte : ∀ j, s.sec.byte j = t.sec.byte j) : LaidOut s s' p fill ↔ LaidOut t s' p fill := by
  constructor
  · intro h
    exact ⟨h.position, hind ▸ h.forward, fun i hi => (h.before i (hind ▸ hi)).trans (hbyte i),
      fun k hk => hind ▸ h.filled k (hind ▸ hk), fun i hi => (h.behind i hi).trans (hbyte i)⟩
  · intro h
    exact ⟨h.position, hind ▸ h.forward,
      fun i hi => (h.before i (hind ▸ hi)).trans (hbyte i).symm,
      fun k hk => hind ▸ h.filled k (hind ▸ hk), fun i hi => (h.behind i hi).trans (hbyte i).symm⟩

/-- `zero_pad` is right for sizes that are not negative and do not lead past `INT_MAX`. -/
theorem zeroPad_laidOut_iff (h0 : 0 ≤ s.ind.toInt) :
    (∃ s', zeroPad s size v = .ok s' ∧ LaidOut s s' p fun _ => v.setWidth 8) ↔
      p = s.ind.toInt + size.toInt ∧ 0 ≤ size.toInt ∧ s.ind.toInt + size.toInt ≤ intMax ∧
        (s.sec.nobits = true → ∀ k < size.toNat, v.setWidth 8 = 0#8) := by
  by_cases hsize : 0 ≤ size.toInt
  · obtain ⟨sec, heq, hbyte⟩ := @zeroPad_eq s size v h0 hsize
    have hlen := toNat_of_nonneg hsize
    rw [heq]
    constructor
    · rintro ⟨s', hs', hlaid⟩
      obtain ⟨ind, hadd, hs'⟩ := bind_ok_iff.1 hs'
      cases hs'
      obtain ⟨⟨-, hmax⟩, hind⟩ := addInt_ok_iff.1 hadd
      rw [laidOut_iff h0 (by rw [hind, hlen]) hbyte, hlen] at hlaid
      exact ⟨hlaid.1, hsize, hmax, hlaid.2⟩
    · rintro ⟨hp, -, hmax, hzero⟩
      obtain ⟨hadd, hind⟩ := addInt_ok (by omega) hmax
      refine ⟨_, bind_ok_iff.2 ⟨_, hadd, rfl⟩, ?_⟩
      rw [laidOut_iff h0 (by rw [hind, hlen]) hbyte, hlen]
      exact ⟨hp, hzero⟩
  · refine iff_of_false ?_ fun h => hsize h.2.1
    rintro ⟨s', hs', hlaid⟩
    have hforward := hlaid.forward
    rw [zeroPad] at hs'
    split at hs'
    · obtain ⟨sec, -, hs'⟩ := bind_ok_iff.1 hs'
      obtain ⟨ind, hadd, hs'⟩ := bind_ok_iff.1 hs'
      cases hs'
      have hind := (addInt_ok_iff.1 hadd).2
      dsimp only at hforward
      omega
    · rw [if_pos (by omega)] at hs'
      cases hs'

end ZeroPad

/-! ## The loops of `.fill` -/

section Fill

variable {s : State} {buf : List (BitVec 8)}

theorem getD_set (data : List (BitVec 8)) {i : ℕ} (h : i < data.length) (c : BitVec 8) (j : ℕ) :
    (data.set i c).getD j 0#8 = if j = i then c else data.getD j 0#8 := by
  rw [List.getD_eq_getElem?_getD, List.getElem?_set, List.getD_eq_getElem?_getD]
  by_cases hj : i = j
  · rw [if_pos hj, if_pos h, if_pos hj.symm]
    rfl
  · rw [if_neg hj, if_neg (Ne.symm hj)]

theorem g_ok (h0 : 0 ≤ s.ind.toInt) (c : BitVec 8) (hmax : s.ind.toInt + 1 ≤ intMax) :
    ∃ s', g s c = .ok s' ∧ s'.ind.toInt = s.ind.toInt + 1 ∧ s'.sec.nobits = s.sec.nobits ∧
      ∀ j, s'.sec.data.getD j 0#8 = if j = s.ind.toNat then c else s.sec.data.getD j 0#8 := by
  have hone : (1#32).toInt = 1 := by decide
  obtain ⟨hadd, hind⟩ := addInt_ok (a := s.ind) (b := 1#32) (by omega) (by omega)
  rw [hone] at hind
  have hnat := toNat_signExtend_of_nonneg (a := s.ind + 1#32) (by omega)
  have hold := toNat_of_nonneg h0
  have hnew := toNat_of_nonneg (a := s.ind + 1#32) (by omega)
  obtain ⟨m, hm, hle⟩ := s.sec.data_realloc ((s.ind + 1#32).signExtend 64).toNat
  rw [g, hadd]
  refine ⟨_, rfl, hind, ?_, fun j => ?_⟩
  · dsimp only
    split <;> rfl
  · dsimp only
    split
    · rw [getD_set _ (by omega), hm, Section.getD_append_zeros]
    · rw [getD_set _ (by omega)]

theorem g_undefined (hmax : intMax < s.ind.toInt + 1) (c : BitVec 8) :
    g s c = .error .undefined := by
  have hone : (1#32).toInt = 1 := by decide
  rw [g, addInt_undefined (by omega)]
  rfl

theorem fillLoop_eq (n : ℕ) : fillLoop buf n s = (List.replicate n buf).flatten.foldlM g s := by
  induction n generalizing s with
  | zero => rfl
  | succ n ih =>
    rw [fillLoop, List.replicate_succ, List.flatten_cons, List.foldlM_append]
    cases buf.foldlM g s with
    | error e => rfl
    | ok s' => exact ih

theorem foldlM_ok (h0 : 0 ≤ s.ind.toInt) (hmax : s.ind.toInt + buf.length ≤ intMax) :
    ∃ s', buf.foldlM g s = .ok s' ∧ s'.ind.toInt = s.ind.toInt + buf.length ∧
      s'.sec.nobits = s.sec.nobits ∧ ∀ j, s'.sec.data.getD j 0#8 =
        if s.ind.toNat ≤ j ∧ j < s.ind.toNat + buf.length then buf.getD (j - s.ind.toNat) 0#8
        else s.sec.data.getD j 0#8 := by
  induction buf generalizing s with
  | nil =>
    refine ⟨s, rfl, by simp, rfl, fun j => ?_⟩
    rw [if_neg (by rw [List.length_nil]; omega)]
  | cons c buf ih =>
    rw [List.length_cons] at hmax
    obtain ⟨s₁, hg, hind, hnobits, hbyte⟩ := g_ok h0 c (by omega)
    obtain ⟨s', hfold, hind', hnobits', hbyte'⟩ := ih (s := s₁) (by omega) (by omega)
    have hold := toNat_of_nonneg h0
    have hnew := toNat_of_nonneg (a := s₁.ind) (by omega)
    refine ⟨s', ?_, ?_, hnobits'.trans hnobits, fun j => ?_⟩
    · rw [List.foldlM_cons, hg]
      exact hfold
    · rw [List.length_cons, hind', hind]
      omega
    · rw [hbyte', hbyte, List.length_cons]
      by_cases hj : j = s.ind.toNat
      · rw [if_neg (by omega), if_pos hj, if_pos (by omega), hj, Nat.sub_self]
        rfl
      · by_cases hin : s₁.ind.toNat ≤ j ∧ j < s₁.ind.toNat + buf.length
        · rw [if_pos hin, if_pos (by omega),
            show j - s.ind.toNat = (j - s₁.ind.toNat) + 1 by omega, List.getD_cons_succ]
        · rw [if_neg hin, if_neg hj, if_neg (by omega)]

theorem foldlM_undefined (h0 : 0 ≤ s.ind.toInt) (hind : s.ind.toInt ≤ intMax)
    (hmax : intMax < s.ind.toInt + buf.length) : buf.foldlM g s = .error .undefined := by
  induction buf generalizing s with
  | nil =>
    rw [List.length_nil] at hmax
    omega
  | cons c buf ih =>
    rw [List.length_cons] at hmax
    rw [List.foldlM_cons]
    by_cases hlast : s.ind.toInt + 1 ≤ intMax
    · obtain ⟨s₁, hg, hind', -, -⟩ := g_ok h0 c hlast
      rw [hg]
      exact ih (by omega) (by omega) (by omega)
    · rw [g_undefined (by omega) c]
      rfl

theorem getD_flatten_replicate {n k : ℕ} (hk : k < n * buf.length) :
    (List.replicate n buf).flatten.getD k 0#8 = buf.getD (k % buf.length) 0#8 := by
  induction n generalizing k with
  | zero => omega
  | succ n ih =>
    rw [List.replicate_succ, List.flatten_cons]
    by_cases hlt : k < buf.length
    · rw [List.getD_append _ _ _ _ hlt, Nat.mod_eq_of_lt hlt]
    · rw [List.getD_append_right _ _ _ _ (by omega), ih (by rw [Nat.succ_mul] at hk; omega),
        ← Nat.mod_eq_sub_mod (by omega)]

theorem fillLoop_position (h0 : 0 ≤ s.ind.toInt) {n : ℕ} {s' : State}
    (h : fillLoop buf n s = .ok s') : s'.ind.toInt = s.ind.toInt + (n * buf.length : ℕ) ∧
      s.ind.toInt + (n * buf.length : ℕ) ≤ intMax := by
  have hlength : (List.replicate n buf).flatten.length = n * buf.length := by
    rw [List.length_flatten, List.map_replicate, List.sum_replicate, smul_eq_mul]
  rw [fillLoop_eq] at h
  by_cases hmax : s.ind.toInt + (n * buf.length : ℕ) ≤ intMax
  · obtain ⟨s₁, hok, hind, -, -⟩ := foldlM_ok h0 (by rwa [hlength])
    rw [hok] at h
    cases h
    exact ⟨by rw [hind, hlength], hmax⟩
  · have hlt := s.ind.toInt_lt
    rw [foldlM_undefined h0 (by rw [intMax]; omega) (by rw [hlength]; omega)] at h
    cases h

theorem fillLoop_laidOut_iff (h0 : 0 ≤ s.ind.toInt) {n : ℕ} {p : ℤ} {fill : ℕ → BitVec 8}
    (hfill : ∀ k < n * buf.length, fill k = buf.getD (k % buf.length) 0#8) :
    (∃ s', fillLoop buf n s = .ok s' ∧ LaidOut s s' p fill) ↔
      p = s.ind.toInt + (n * buf.length : ℕ) ∧ s.ind.toInt + (n * buf.length : ℕ) ≤ intMax ∧
        (s.sec.nobits = true → ∀ k < n * buf.length, fill k = 0#8) := by
  have hlength : (List.replicate n buf).flatten.length = n * buf.length := by
    rw [List.length_flatten, List.map_replicate, List.sum_replicate, smul_eq_mul]
  by_cases hmax : s.ind.toInt + (n * buf.length : ℕ) ≤ intMax
  · have hbound : s.ind.toInt + (List.replicate n buf).flatten.length ≤ intMax := by
      rwa [hlength]
    obtain ⟨s₁, hok, hind, hnobits, hbyte⟩ := foldlM_ok h0 hbound
    rw [hlength] at hind hbyte
    have hbyte' : ∀ j, s₁.sec.byte j = if s.sec.nobits then 0#8
        else if s.ind.toNat ≤ j ∧ j < s.ind.toNat + n * buf.length then fill (j - s.ind.toNat)
        else s.sec.byte j := by
      intro j
      rw [Section.byte, hnobits, hbyte, Section.byte]
      by_cases hzero : s.sec.nobits = true
      · rw [if_pos hzero, if_pos hzero]
      · rw [if_neg hzero, if_neg hzero, if_neg hzero]
        by_cases hin : s.ind.toNat ≤ j ∧ j < s.ind.toNat + n * buf.length
        · rw [if_pos hin, if_pos hin, getD_flatten_replicate (by omega), hfill _ (by omega)]
        · rw [if_neg hin, if_neg hin]
    rw [fillLoop_eq, hok]
    constructor
    · rintro ⟨s', hs', hlaid⟩
      cases hs'
      obtain ⟨hp, hzero⟩ := (laidOut_iff h0 hind hbyte').1 hlaid
      exact ⟨hp, hmax, hzero⟩
    · rintro ⟨hp, -, hzero⟩
      exact ⟨s₁, rfl, (laidOut_iff h0 hind hbyte').2 ⟨hp, hzero⟩⟩
  · refine iff_of_false ?_ fun h => hmax h.2.1
    rintro ⟨s', hs', -⟩
    exact hmax (fillLoop_position h0 hs').2

end Fill

/-! ## Alignments -/

section Align

variable {s : State} {n : BitVec 32} {p : ℤ}

/-- The next multiple. -/
theorem isLeast_multiple (a : ℤ) {m : ℤ} (hm : 0 < m) :
    IsLeast {q : ℤ | a ≤ q ∧ m ∣ q} ((a + m - 1) / m * m) := by
  have hdiv := Int.emod_add_mul_ediv (a + m - 1) m
  have hlt := Int.emod_lt_of_pos (a + m - 1) hm
  have hge := Int.emod_nonneg (a + m - 1) hm.ne'
  rw [Int.mul_comm] at hdiv
  refine ⟨⟨by omega, Int.dvd_mul_left _ _⟩, ?_⟩
  rintro q ⟨hle, c, rfl⟩
  rw [Int.mul_comm m c]
  have hc : (a + m - 1) / m < c + 1 := by
    refine Int.lt_of_mul_lt_mul_right (a := m) ?_ hm.le
    rw [Int.add_mul, Int.one_mul, Int.mul_comm c m]
    omega
  exact Int.mul_le_mul_of_nonneg_right (by omega) hm.le

/-- A number and the one before it have no bit in common. -/
theorem isPowerOfTwo_of_and (h0 : 0 < n.toInt) (h : n &&& (n - 1#32) = 0#32) :
    ∃ k < 31, n = BitVec.twoPow 32 k := by
  have hnat := toNat_of_nonneg h0.le
  have hone : (1#32 : BitVec 32) ≤ n := by
    rw [BitVec.le_def]
    show 1 ≤ n.toNat
    omega
  have hand := congrArg BitVec.toNat h
  rw [BitVec.toNat_and, BitVec.toNat_sub_of_le hone] at hand
  obtain ⟨k, hk⟩ := (Nat.and_sub_one_eq_zero_iff_isPowerOfTwo (by omega)).1 hand
  have hlt : 2 ^ k < 2 ^ 31 := by
    have hmax := n.toInt_lt
    rw [← hk]
    omega
  have hk31 : k < 31 := (Nat.pow_lt_pow_iff_right (by decide)).1 hlt
  refine ⟨k, hk31, BitVec.eq_of_toNat_eq ?_⟩
  rw [hk, BitVec.toNat_twoPow, Nat.mod_eq_of_lt (by omega)]

/-- Masking with a negated power of two. -/
theorem and_neg_twoPow (x : BitVec 32) {k : ℕ} (hk : k < 31) :
    (x &&& -BitVec.twoPow 32 k).toNat = x.toNat / 2 ^ k * 2 ^ k := by
  have hneg (i : ℕ) (hi : i < 32) : (-BitVec.twoPow 32 k).getLsbD i = decide (k ≤ i) := by
    have hlower : (∃ j < i, (BitVec.twoPow 32 k).getLsbD j = true) ↔ k < i := by
      constructor
      · rintro ⟨j, hj, hset⟩
        rw [BitVec.getLsbD_twoPow, Bool.and_eq_true, decide_eq_true_eq, decide_eq_true_eq] at hset
        omega
      · refine fun hlt => ⟨k, hlt, ?_⟩
        rw [BitVec.getLsbD_twoPow, Bool.and_eq_true, decide_eq_true_eq, decide_eq_true_eq]
        exact ⟨by omega, rfl⟩
    rw [BitVec.getLsbD_neg, BitVec.getLsbD_twoPow]
    simp only [hlower]
    rcases Nat.lt_trichotomy i k with hlt | heq | hgt
    · simp [show ¬ k < i by omega, show k ≠ i by omega, show ¬ k ≤ i by omega]
    · simp [heq, show k < 32 by omega]
    · simp [hi, hgt, hgt.le, show k ≠ i by omega]
  apply Nat.eq_of_testBit_eq
  intro i
  rw [Nat.testBit_mul_two_pow, Nat.testBit_div_two_pow, BitVec.testBit_toNat, BitVec.testBit_toNat,
    BitVec.getLsbD_and]
  by_cases hi : i < 32
  · rw [hneg i hi]
    by_cases hk' : k ≤ i
    · rw [Nat.sub_add_cancel hk', Bool.and_comm]
    · rw [decide_eq_false hk', Bool.and_false, Bool.false_and]
  · rw [BitVec.getLsbD_of_ge x i (by omega), Bool.false_and]
    by_cases hk' : k ≤ i
    · rw [Nat.sub_add_cancel hk', BitVec.getLsbD_of_ge x i (by omega), Bool.and_false]
    · rw [decide_eq_false hk', Bool.false_and]

/-- The offset that `.align` computes. -/
theorem alignedOffset (h0 : 0 ≤ s.ind.toInt) (hn : 0 < n.toInt) (hpow : n &&& (n - 1#32) = 0#32)
    (hmax : s.ind.toInt + n.toInt ≤ intMax) :
    (s.ind + n - 1#32 &&& -n).toInt = (s.ind.toInt + n.toInt - 1) / n.toInt * n.toInt := by
  have hone : (1#32).toInt = 1 := by decide
  obtain ⟨-, hadd⟩ := addInt_ok (by omega) hmax
  obtain ⟨-, hsub⟩ := @subInt_ok (s.ind + n) 1#32 (by omega) (by omega)
  rw [hadd, hone] at hsub
  obtain ⟨k, hk, rfl⟩ := isPowerOfTwo_of_and hn hpow
  have hnat := toNat_of_nonneg (a := s.ind + BitVec.twoPow 32 k - 1#32) (by omega)
  have hpow2 : (BitVec.twoPow 32 k).toInt = 2 ^ k := by
    have hlt : 2 ^ k < 2 ^ 32 := Nat.pow_lt_pow_right (by decide) (by omega)
    rw [← toNat_of_nonneg hn.le, BitVec.toNat_twoPow, Nat.mod_eq_of_lt hlt, Nat.cast_pow]
    rfl
  have hand := and_neg_twoPow (s.ind + BitVec.twoPow 32 k - 1#32) hk
  have hle := Nat.div_mul_le_self (s.ind + BitVec.twoPow 32 k - 1#32).toNat (2 ^ k)
  rw [intMax] at hmax
  rw [BitVec.toInt_eq_toNat_of_lt (by omega), hand, Nat.cast_mul, Int.natCast_ediv, hnat, hsub,
    hpow2, Nat.cast_pow]
  rfl

/-- Operands behind the first one. -/
theorem asmIntExprOr_cases (default : BitVec 64) (e : Option ExprValue) :
    asmIntExprOr (default.setWidth 32) e = .error (.error "constant expected") ∨
      asmIntExprOr (default.setWidth 32) e = .ok ((valueOr default e).setWidth 32) := by
  cases e with
  | none => exact .inr rfl
  | some e =>
    rw [asmIntExprOr, asmIntExpr]
    split
    · exact .inl rfl
    · exact .inr rfl

theorem setWidth_eight (x : BitVec 64) : (x.setWidth 32).setWidth 8 = x.setWidth 8 := by
  rw [BitVec.setWidth_setWidth_of_le x (by decide)]

theorem runAlign_accepted {v : Option ExprValue} (hacc : ∀ msg, runAlign s n v ≠ .error (.error msg)) :
    0 ≤ n.toInt ∧ n &&& (n - 1#32) = 0#32 := by
  by_contra hnot
  refine hacc _ (if_pos ?_)
  by_cases hneg : n.toInt < 0
  · exact .inl hneg
  · exact .inr fun hand => hnot ⟨by omega, hand⟩

/-- `.align` is right where no intermediate result leads past `INT_MAX`; an alignment of zero is
right at the start of the section only. -/
theorem runAlign_laidOut_iff (h0 : 0 ≤ s.ind.toInt) {v : Option ExprValue}
    (hacc : ∀ msg, runAlign s n v ≠ .error (.error msg)) :
    (∃ s', runAlign s n v = .ok s' ∧ LaidOut s s' p fun _ => (valueOr 0#64 v).setWidth 8) ↔
      if n.toInt = 0 then s.ind.toInt = 0 ∧ p = 0
      else s.ind.toInt + n.toInt ≤ intMax ∧
        p = (s.ind.toInt + n.toInt - 1) / n.toInt * n.toInt ∧
        (s.sec.nobits = true → ∀ k < (p - s.ind.toInt).toNat, (valueOr 0#64 v).setWidth 8 = 0#8) := by
  obtain ⟨hn, hpow⟩ := runAlign_accepted hacc
  have hrun : runAlign s n v = (do
      let offset ← addInt s.ind n
      let offset ← subInt offset 1#32
      let size ← subInt (offset &&& -n) s.ind
      let v ← asmIntExprOr 0#32 v
      zeroPad ⟨s.ind, if s.sec.shAddralign.toInt < n.toInt
        then { s.sec with shAddralign := n } else s.sec⟩ size v) :=
    if_neg (by
      rintro (hneg | hand)
      · omega
      · exact hand hpow)
  have hsec : ∀ j, (if s.sec.shAddralign.toInt < n.toInt
      then { s.sec with shAddralign := n } else s.sec).byte j = s.sec.byte j := by
    intro j
    split <;> rfl
  have hnobits : (if s.sec.shAddralign.toInt < n.toInt
      then { s.sec with shAddralign := n } else s.sec).nobits = s.sec.nobits := by
    split <;> rfl
  generalize (if s.sec.shAddralign.toInt < n.toInt
    then { s.sec with shAddralign := n } else s.sec) = sec at hrun hsec hnobits
  have hone : (1#32).toInt = 1 := by decide
  have hind := s.ind.toInt_lt
  by_cases hmax : s.ind.toInt + n.toInt ≤ intMax
  · obtain ⟨hadd, hadd'⟩ := addInt_ok (by omega) hmax
    obtain ⟨hsub, -⟩ := @subInt_ok (s.ind + n) 1#32 (by omega) (by omega)
    have hoffset : (s.ind + n - 1#32 &&& -n).toInt =
        if n.toInt = 0 then 0 else (s.ind.toInt + n.toInt - 1) / n.toInt * n.toInt := by
      split
      · rename_i hzero
        rw [show n = 0#32 from BitVec.eq_of_toInt_eq hzero, BitVec.neg_zero, BitVec.and_zero]
        rfl
      · exact alignedOffset h0 (by omega) hpow hmax
    have hrange : 0 ≤ (s.ind + n - 1#32 &&& -n).toInt ∧
        (s.ind + n - 1#32 &&& -n).toInt ≤ intMax := by
      rw [hoffset]
      split
      · exact ⟨le_rfl, by decide⟩
      · have hge := (isLeast_multiple s.ind.toInt (show 0 < n.toInt by omega)).1.1
        have hle := Int.ediv_mul_le (s.ind.toInt + n.toInt - 1) (show n.toInt ≠ 0 by omega)
        exact ⟨by omega, by omega⟩
    obtain ⟨hsize, hsize'⟩ := @subInt_ok (s.ind + n - 1#32 &&& -n) s.ind (by omega) (by omega)
    have hbind (w : Except Failure (BitVec 32)) (hw : asmIntExprOr 0#32 v = w) :
        runAlign s n v = w >>= zeroPad ⟨s.ind, sec⟩ ((s.ind + n - 1#32 &&& -n) - s.ind) := by
      rw [hrun, hadd, ← hw]
      show subInt (s.ind + n) 1#32 >>= _ = _
      rw [hsub]
      show subInt (s.ind + n - 1#32 &&& -n) s.ind >>= _ = _
      rw [hsize]
      rfl
    rcases asmIntExprOr_cases 0#64 v with hv | hv
    · exact absurd (hbind _ hv) (hacc _)
    · have hrun' : runAlign s n v = zeroPad ⟨s.ind, sec⟩ ((s.ind + n - 1#32 &&& -n) - s.ind)
          ((valueOr 0#64 v).setWidth 32) := hbind _ hv
      have hpad := @zeroPad_laidOut_iff ⟨s.ind, sec⟩ ((s.ind + n - 1#32 &&& -n) - s.ind)
        ((valueOr 0#64 v).setWidth 32) p h0
      rw [setWidth_eight] at hpad
      have hcongr (s' : State) : LaidOut s s' p (fun _ => (valueOr 0#64 v).setWidth 8) ↔
          LaidOut ⟨s.ind, sec⟩ s' p (fun _ => (valueOr 0#64 v).setWidth 8) :=
        laidOut_congr rfl fun j => (hsec j).symm
      simp only [hrun', hcongr]
      refine hpad.trans ?_
      dsimp only
      rw [hnobits]
      have hnat (h : 0 ≤ (s.ind + n - 1#32 &&& -n).toInt - s.ind.toInt) :=
        toNat_of_nonneg (a := (s.ind + n - 1#32 &&& -n) - s.ind) (hsize' ▸ h)
      rw [hsize', hoffset] at hnat ⊢
      split
      · rename_i hzero
        rw [if_pos hzero] at hnat
        constructor
        · rintro ⟨hp, hge, -, -⟩
          exact ⟨by omega, by omega⟩
        · rintro ⟨hind0, hp⟩
          have hnone := hnat (by omega)
          exact ⟨by omega, by omega, by omega, fun _ k hk => by omega⟩
      · rename_i hpos
        rw [if_neg hpos] at hnat
        rw [hoffset, if_neg hpos] at hrange
        have hge := (isLeast_multiple s.ind.toInt (show 0 < n.toInt by omega)).1.1
        have hlen := hnat (by omega)
        constructor
        · rintro ⟨hp, -, -, hfill⟩
          refine ⟨hmax, by omega, fun hzero k hk => hfill hzero k (by omega)⟩
        · rintro ⟨-, hp, hfill⟩
          exact ⟨by omega, by omega, by omega, fun hzero k hk => hfill hzero k (by omega)⟩
  · rw [hrun, addInt_undefined (by omega)]
    refine iff_of_false ?_ ?_
    · rintro ⟨s', hs', -⟩
      cases hs'
    · rw [if_neg (by rw [intMax] at hmax; omega)]
      exact fun h => hmax h.1

/-- The next multiple of `A`, where `N` is what is left of `A` in an `int`. -/
theorem nextMultiple_iff {a N A : ℤ} {blank : ℤ → Prop} (h0 : 0 ≤ a) (hN : 0 ≤ N ∧ N ≤ intMax)
    (hfits : -2 ^ 31 ≤ A → A ≤ intMax → N = A) (hblank : blank a) :
    (∃ p, IsLeast {q : ℤ | a ≤ q ∧ A ∣ q} p ∧ if N = 0 then a = 0 ∧ p = 0
      else a + N ≤ intMax ∧ p = (a + N - 1) / N * N ∧ blank p) ↔
    (a = 0 ∨ (0 < A ∧ a + A ≤ intMax)) ∧
      ∀ p, IsLeast {q : ℤ | a ≤ q ∧ A ∣ q} p → blank p := by
  by_cases ha : a = 0
  · subst ha
    have hleast : IsLeast {q : ℤ | 0 ≤ q ∧ A ∣ q} 0 := ⟨⟨le_rfl, dvd_zero A⟩, fun q hq => hq.1⟩
    refine iff_of_true ⟨0, hleast, ?_⟩ ⟨.inl rfl, fun p hp => hp.unique hleast ▸ hblank⟩
    split
    · exact ⟨rfl, rfl⟩
    · rw [zero_add, Int.ediv_eq_zero_of_lt (by omega) (by omega), zero_mul]
      exact ⟨hN.2, rfl, hblank⟩
  · constructor
    · rintro ⟨p, hleast, hp⟩
      split at hp
      · exact absurd hp.1 ha
      obtain ⟨hmax, heq, hblank'⟩ := hp
      have hpos : 0 < N := by omega
      obtain ⟨hge, hdvd⟩ := hleast.1
      have hle : p ≤ intMax := by
        have hmul := Int.ediv_mul_le (a + N - 1) hpos.ne'
        omega
      have habs := Int.le_of_dvd (by omega) hdvd
      have habs' := Int.le_of_dvd (by omega) ((neg_dvd).2 hdvd)
      have hA : N = A := hfits (by rw [intMax] at hle; omega) (by omega)
      exact ⟨.inr ⟨by omega, by omega⟩, fun q hq => hq.unique hleast ▸ hblank'⟩
    · rintro ⟨hfit, hblank'⟩
      obtain ⟨hpos, hmax⟩ := hfit.resolve_left ha
      have hA : N = A := hfits (by omega) (by omega)
      have hleast := isLeast_multiple a hpos
      refine ⟨_, hleast, ?_⟩
      rw [if_neg (by omega), hA]
      exact ⟨hmax, rfl, hblank' _ hleast⟩

end Align

/-! ## Every directive -/

namespace Directive

variable {s1 : AsmState} {s : State}

theorem toInt_setWidth_of_fits {v : BitVec 64} (hle : -2 ^ 31 ≤ v.toInt) (hmax : v.toInt ≤ intMax) :
    (v.setWidth 32).toInt = v.toInt := by
  rw [intMax] at hmax
  rw [BitVec.toInt_setWidth, Int.bmod_def]
  have hlt := v.isLt
  rw [BitVec.toInt_eq_toNat_cond] at hle hmax ⊢
  split at hle <;> split <;> omega

/-- Nothing but zeros is to be filled in. -/
def Blank (s1 : AsmState) (s : State) (d : Directive) : Prop :=
  ∀ p, d.Asks s1 s p → ∀ k < (p - s.ind.toInt).toNat, d.fillByte k = 0#8

theorem asmIntExpr_accepted {e : ExprValue} {f : BitVec 32 → Except Failure State}
    (hacc : ∀ msg, (asmIntExpr e >>= f) ≠ .error (.error msg)) :
    asmIntExpr e >>= f = f (e.v.setWidth 32) := by
  rw [asmIntExpr] at hacc ⊢
  split at hacc
  · exact absurd rfl (hacc _)
  · rw [if_neg ‹_›]
    rfl

theorem right_iff (d : Directive) : d.Right s1 s ↔
    ∃ p, d.Asks s1 s p ∧ ∃ s', d.run s1 s = .ok s' ∧ LaidOut s s' p d.fillByte := by
  constructor
  · rintro ⟨s', hrun, p, hasks, hlaid⟩
    exact ⟨p, hasks, s', hrun, hlaid⟩
  · rintro ⟨p, hasks, s', hrun, hlaid⟩
    exact ⟨s', hrun, p, hasks, hlaid⟩

theorem align_right_iff (h0 : 0 ≤ s.ind.toInt) {n : ExprValue} {v : Option ExprValue}
    (hacc : ∀ msg, (align n v).run s1 s ≠ .error (.error msg)) :
    (align n v).Right s1 s ↔
      (align n v).Fits s1 s ∧ (s.sec.nobits = true → (align n v).Blank s1 s) := by
  have hrun : (align n v).run s1 s = runAlign s (n.v.setWidth 32) v := asmIntExpr_accepted hacc
  rw [hrun] at hacc
  have hn := (runAlign_accepted hacc).1
  have hmax := (n.v.setWidth 32).toInt_lt
  have hiff := @nextMultiple_iff s.ind.toInt (n.v.setWidth 32).toInt n.v.toInt
    (fun p => s.sec.nobits = true → ∀ k < (p - s.ind.toInt).toNat, (valueOr 0#64 v).setWidth 8 = 0#8)
    h0 ⟨hn, by rw [intMax]; omega⟩ toInt_setWidth_of_fits (fun _ k hk => by omega)
  have hright (p : ℤ) := runAlign_laidOut_iff (p := p) h0 hacc
  rw [right_iff, hrun]
  calc (∃ p, (align n v).Asks s1 s p ∧ ∃ s', runAlign s (n.v.setWidth 32) v = .ok s' ∧
        LaidOut s s' p (align n v).fillByte)
      ↔ _ := exists_congr fun p => and_congr_right fun _ => hright p
    _ ↔ _ := hiff
    _ ↔ _ := and_congr_right fun _ =>
      ⟨fun h hzero p hp => h p hp hzero, fun h p hp hzero => h hzero p hp⟩

theorem p2align_right_iff (h0 : 0 ≤ s.ind.toInt) {n : ExprValue} {v : Option ExprValue}
    (hacc : ∀ msg, (p2align n v).run s1 s ≠ .error (.error msg)) :
    (p2align n v).Right s1 s ↔
      (p2align n v).Fits s1 s ∧ (s.sec.nobits = true → (p2align n v).Blank s1 s) := by
  have hrun : (p2align n v).run s1 s = runP2align s (n.v.setWidth 32) v := asmIntExpr_accepted hacc
  rw [hrun] at hacc
  have hrange : 0 ≤ (n.v.setWidth 32).toInt ∧ (n.v.setWidth 32).toInt ≤ 30 := by
    by_contra hnot
    exact hacc _ (if_pos (by omega))
  have hrun' : runP2align s (n.v.setWidth 32) v =
      runAlign s (1#32 <<< (n.v.setWidth 32).toNat) v := if_neg (by omega)
  rw [hrun'] at hacc
  have hnat := toNat_of_nonneg hrange.1
  have hlt : 2 ^ (n.v.setWidth 32).toNat ≤ 2 ^ 30 := Nat.pow_le_pow_right (by decide) (by omega)
  have hpow : (1#32 <<< (n.v.setWidth 32).toNat).toInt = 2 ^ (n.v.setWidth 32).toNat := by
    have hshift : (1#32 <<< (n.v.setWidth 32).toNat).toNat = 2 ^ (n.v.setWidth 32).toNat := by
      rw [BitVec.toNat_shiftLeft, Nat.shiftLeft_eq, show (1#32).toNat = 1 from rfl, Nat.one_mul,
        Nat.mod_eq_of_lt (by omega)]
    rw [BitVec.toInt_eq_toNat_of_lt (by omega), hshift, Nat.cast_pow]
    rfl
  have hcast : ((2 ^ (n.v.setWidth 32).toNat : ℕ) : ℤ) = 2 ^ (n.v.setWidth 32).toNat := by
    rw [Nat.cast_pow]
    rfl
  have hright (p : ℤ) := runAlign_laidOut_iff (p := p) h0 hacc
  rw [hpow] at hright
  rw [right_iff, hrun, hrun']
  by_cases hneg : n.v.toInt < 0
  · refine iff_of_false ?_ ?_
    · rintro ⟨p, ⟨k, hk, -⟩, -⟩
      omega
    · rintro ⟨⟨hge, -⟩, -⟩
      omega
  · have hvalue : n.v.toInt = n.v.toInt.toNat := by omega
    have hasks (p : ℤ) : (p2align n v).Asks s1 s p ↔
        IsLeast {q : ℤ | s.ind.toInt ≤ q ∧ 2 ^ n.v.toInt.toNat ∣ q} p := by
      constructor
      · rintro ⟨k, hk, hleast⟩
        rwa [show n.v.toInt.toNat = k by omega]
      · exact fun hleast => ⟨_, hvalue, hleast⟩
    have hfits (hmax : (2 : ℤ) ^ n.v.toInt.toNat ≤ intMax) :
        (2 : ℤ) ^ (n.v.setWidth 32).toNat = 2 ^ n.v.toInt.toNat := by
      have hlt31 : (2 : ℤ) ^ n.v.toInt.toNat < 2 ^ 31 := by
        rw [intMax] at hmax
        omega
      have hsmall := (pow_lt_pow_iff_right₀ (by decide : (1 : ℤ) < 2)).1 hlt31
      have hsame := toInt_setWidth_of_fits (v := n.v) (by omega) (by rw [intMax]; omega)
      rw [show (n.v.setWidth 32).toNat = n.v.toInt.toNat by omega]
    have hiff := @nextMultiple_iff s.ind.toInt (2 ^ (n.v.setWidth 32).toNat)
      (2 ^ n.v.toInt.toNat) (fun p => s.sec.nobits = true → ∀ k < (p - s.ind.toInt).toNat,
        (valueOr 0#64 v).setWidth 8 = 0#8) h0 ⟨by positivity, by rw [intMax]; omega⟩
      (fun _ hmax => hfits hmax) (fun _ k hk => by omega)
    have hpos : (0 : ℤ) < 2 ^ n.v.toInt.toNat := by positivity
    calc (∃ p, (p2align n v).Asks s1 s p ∧ ∃ s',
          runAlign s (1#32 <<< (n.v.setWidth 32).toNat) v = .ok s' ∧
          LaidOut s s' p (p2align n v).fillByte)
        ↔ _ := exists_congr fun p => and_congr (hasks p) (hright p)
      _ ↔ _ := hiff
      _ ↔ _ := by
        refine and_congr ?_ ?_
        · exact ⟨fun h => ⟨by omega, h.imp_right And.right⟩,
            fun h => h.2.imp_right fun hmax => ⟨hpos, hmax⟩⟩
        · exact ⟨fun h hzero p hp => h p ((hasks p).1 hp) hzero,
            fun h p hp hzero => h hzero p ((hasks p).2 hp)⟩

theorem skip_right_iff (h0 : 0 ≤ s.ind.toInt) {n : ExprValue} {v : Option ExprValue}
    (hacc : ∀ msg, (skip n v).run s1 s ≠ .error (.error msg)) :
    (skip n v).Right s1 s ↔
      (skip n v).Fits s1 s ∧ (s.sec.nobits = true → (skip n v).Blank s1 s) := by
  have hrun : (skip n v).run s1 s = runSkip s (n.v.setWidth 32) v := asmIntExpr_accepted hacc
  rw [hrun] at hacc
  have hsize : (if (n.v.setWidth 32).toInt < 0 then 0#32 else n.v.setWidth 32).toInt =
      max 0 (n.v.setWidth 32).toInt := by
    split
    · rw [max_eq_left (by omega)]
      rfl
    · rw [max_eq_right (by omega)]
  rcases asmIntExprOr_cases 0#64 v with hv | hv
  · refine absurd ?_ (hacc "constant expected")
    show (asmIntExprOr ((0#64).setWidth 32) v >>= fun v => zeroPad s _ v) = _
    rw [hv]
    rfl
  · have hrun' : runSkip s (n.v.setWidth 32) v =
        zeroPad s (if (n.v.setWidth 32).toInt < 0 then 0#32 else n.v.setWidth 32)
          ((valueOr 0#64 v).setWidth 32) := by
      show (asmIntExprOr ((0#64).setWidth 32) v >>= fun v => zeroPad s _ v) = _
      rw [hv]
      rfl
    have hpad (p : ℤ) := @zeroPad_laidOut_iff s
      (if (n.v.setWidth 32).toInt < 0 then 0#32 else n.v.setWidth 32)
      ((valueOr 0#64 v).setWidth 32) p h0
    have hnat := @toNat_of_nonneg 32
      (if (n.v.setWidth 32).toInt < 0 then 0#32 else n.v.setWidth 32) (by rw [hsize]; omega)
    simp only [setWidth_eight, hsize] at hpad hnat
    have hind := s.ind.toInt_lt
    have hmax : s.ind.toInt ≤ intMax := by
      rw [intMax]
      omega
    rw [right_iff, hrun, hrun']
    constructor
    · rintro ⟨p, hasks, h⟩
      obtain ⟨hp, -, hle, hzero⟩ := (hpad p).1 h
      have hasks : p = s.ind.toInt + max 0 n.v.toInt := hasks
      refine ⟨?_, fun hnobits p' hp' k hk => hzero hnobits k ?_⟩
      · show if 0 ≤ n.v.toInt then s.ind.toInt + n.v.toInt ≤ intMax
          else (n.v.setWidth 32).toInt ≤ 0
        split <;> omega
      · have hp' : p' = s.ind.toInt + max 0 n.v.toInt := hp'
        omega
    · rintro ⟨hfit, hblank⟩
      have hfit : if 0 ≤ n.v.toInt then s.ind.toInt + n.v.toInt ≤ intMax
          else (n.v.setWidth 32).toInt ≤ 0 := hfit
      have hsame : max 0 n.v.toInt = max 0 (n.v.setWidth 32).toInt := by
        split at hfit
        · rw [toInt_setWidth_of_fits (by omega) (by omega)]
        · omega
      have hle : s.ind.toInt + max 0 n.v.toInt ≤ intMax := by
        split at hfit <;> omega
      refine ⟨_, rfl, (hpad _).2 ⟨by omega, by omega, by omega, fun hnobits k hk => ?_⟩⟩
      exact hblank hnobits _ rfl k (by omega)

theorem org_right_iff (h0 : 0 ≤ s.ind.toInt) {e : ExprValue}
    (hacc : ∀ msg, (org e).run s1 s ≠ .error (.error msg)) :
    (org e).Right s1 s ↔ (org e).Fits s1 s ∧ (s.sec.nobits = true → (org e).Blank s1 s) := by
  have hrun : (org e).run s1 s = if orgTarget s1 e < s.ind.signExtend 64
      then .error (.error "attempt to .org backwards")
      else zeroPad s ((orgTarget s1 e - s.ind.signExtend 64).setWidth 32) 0#32 := by
    have hrun : (org e).run s1 s = runOrg s1 s e := rfl
    rw [hrun, runOrg] at hacc ⊢
    rw [orgTarget]
    cases hsym : e.sym.bind s1.elfsym with
    | none => rfl
    | some esym =>
      rw [hsym] at hacc
      dsimp only at hacc ⊢
      by_cases hsec : esym.stShndx = s.sec.shNum
      · rw [if_neg (not_not.2 hsec)]
        rfl
      · rw [if_pos hsec] at hacc
        exact absurd rfl (hacc "constant or same-section symbol expected")
  rw [hrun] at hacc
  have hge : ¬ orgTarget s1 e < s.ind.signExtend 64 := fun h => hacc _ (if_pos h)
  rw [if_neg hge] at hrun
  have hind := toNat_signExtend_of_nonneg h0
  have hnat := toNat_of_nonneg h0
  rw [BitVec.lt_def, hind, Nat.not_lt] at hge
  have hdiff : (orgTarget s1 e - s.ind.signExtend 64).toNat =
      (orgTarget s1 e).toNat - s.ind.toNat := by
    rw [BitVec.toNat_sub_of_le (by rw [BitVec.le_def, hind]; exact hge), hind]
  have hpad (p : ℤ) := @zeroPad_laidOut_iff s
    ((orgTarget s1 e - s.ind.signExtend 64).setWidth 32) 0#32 p h0
  rw [right_iff, hrun]
  constructor
  · rintro ⟨p, hasks, h⟩
    obtain ⟨hp, -, hle, -⟩ := (hpad p).1 h
    have hasks : p = (orgTarget s1 e).toNat := hasks
    refine ⟨?_, fun _ _ _ _ _ => rfl⟩
    show ((orgTarget s1 e).toNat : ℤ) ≤ intMax
    omega
  · rintro ⟨hfit, -⟩
    have hfit : ((orgTarget s1 e).toNat : ℤ) ≤ intMax := hfit
    rw [intMax] at hfit
    have hsize : ((orgTarget s1 e - s.ind.signExtend 64).setWidth 32).toNat =
        (orgTarget s1 e).toNat - s.ind.toNat := by
      rw [BitVec.toNat_setWidth, hdiff, Nat.mod_eq_of_lt (by omega)]
    have hsize' := BitVec.toInt_eq_toNat_of_lt
      (x := (orgTarget s1 e - s.ind.signExtend 64).setWidth 32) (by omega)
    refine ⟨_, rfl, (hpad _).2 ⟨by omega, by omega, by rw [intMax]; omega, fun _ _ _ => rfl⟩⟩

/-- The sizes that `.fill` uses, of an accepted directive. -/
theorem runFill_accepted {r : BitVec 32} {size val : Option ExprValue}
    (hacc : ∀ msg, runFill s r size val ≠ .error (.error msg)) :
    let n := (valueOr 1#64 size).setWidth 32
    0 ≤ r.toInt ∧ 0 ≤ n.toInt ∧ runFill s r size val =
      fillLoop ((repeatBuf ((valueOr 0#64 val).setWidth 32)).take
        (if n.toInt > 8 then 8#32 else n).toNat) r.toNat s := by
  have hr : 0 ≤ r.toInt := by
    by_contra hneg
    exact hacc _ (if_pos (by omega))
  rw [runFill, if_neg (by omega)] at hacc ⊢
  rcases asmIntExprOr_cases 1#64 size with hsize | hsize
  · have hsize : asmIntExprOr 1#32 size = .error (.error "constant expected") := hsize
    rw [hsize] at hacc
    exact absurd rfl (hacc "constant expected")
  have hsize : asmIntExprOr 1#32 size = .ok ((valueOr 1#64 size).setWidth 32) := hsize
  rw [hsize] at hacc ⊢
  have hn : 0 ≤ ((valueOr 1#64 size).setWidth 32).toInt := by
    by_contra hneg
    exact hacc _ (if_pos (by omega))
  refine ⟨hr, hn, (if_neg (by omega)).trans ?_⟩
  rcases asmIntExprOr_cases 0#64 val with hval | hval
  · refine absurd ((if_neg (by omega)).trans ?_) (hacc "constant expected")
    show (asmIntExprOr ((0#64).setWidth 32) val >>= fun _ => _) = _
    rw [hval]
    rfl
  · show (asmIntExprOr ((0#64).setWidth 32) val >>= fun _ => _) = _
    rw [hval]
    rfl

theorem repeatBuf_getD (val : BitVec 32) {j : ℕ} (hj : j < 8) :
    (repeatBuf val).getD j 0#8 = (val.setWidth 64 >>> (8 * j)).setWidth 8 := by
  apply BitVec.eq_of_getLsbD_eq
  intro i hi
  have hbit : ((val.setWidth 64 >>> (8 * j)).setWidth 8).getLsbD i = val.getLsbD (8 * j + i) := by
    rw [BitVec.getLsbD_setWidth, BitVec.getLsbD_ushiftRight, BitVec.getLsbD_setWidth,
      decide_eq_true hi, decide_eq_true (by omega), Bool.true_and, Bool.true_and]
  have hshift (k : ℕ) (hk : k ≤ 24) :
      ((val.sshiftRight k).setWidth 8).getLsbD i = val.getLsbD (k + i) := by
    rw [BitVec.getLsbD_setWidth, BitVec.getLsbD_sshiftRight, decide_eq_true hi,
      decide_eq_false (by omega), if_pos (by omega), Bool.not_false, Bool.true_and, Bool.true_and]
  have hzero (h : 32 ≤ 8 * j + i) : (0#8).getLsbD i = val.getLsbD (8 * j + i) := by
    rw [BitVec.getLsbD_zero, BitVec.getLsbD_of_ge val _ h]
  rw [hbit]
  interval_cases j
  · rw [Nat.mul_zero, Nat.zero_add, ← Nat.zero_add i, ← hshift 0 (by decide), BitVec.sshiftRight_zero]
    rw [Nat.zero_add]
    rfl
  · exact hshift 8 (by decide)
  · exact hshift 16 (by decide)
  · exact hshift 24 (by decide)
  all_goals exact hzero (by omega)

section FillSize

variable {a r m R M : ℤ}

/-- Numbers that fit an `int`, or sizes that are clamped anyway. -/
theorem fillSize_same (h0 : 0 ≤ a) (hr : -2 ^ 31 ≤ r → r ≤ intMax → R = r)
    (hm : -2 ^ 31 ≤ m → m ≤ intMax → M = m) (hrpos : 0 < r) (hpos : 0 < m)
    (hmfit : m ≤ intMax ∨ 8 ≤ M) (hmax : a + r * min m 8 ≤ intMax) :
    R = r ∧ min M 8 = min m 8 := by
  have hone : 1 ≤ min m 8 := by omega
  have hrle : r ≤ r * min m 8 := le_mul_of_one_le_right hrpos.le hone
  refine ⟨hr (by omega) (by omega), ?_⟩
  by_cases hfit : m ≤ intMax
  · rw [hm (by omega) hfit]
  · have hbig := hmfit.resolve_left hfit
    rw [intMax] at hfit
    omega

/-- What `.fill` asks for is what is left of it in `int`s. -/
theorem fillSize_iff (h0 : 0 ≤ a) (ha : a ≤ intMax) (hR : 0 ≤ R) (hM : 0 ≤ M)
    (hr : -2 ^ 31 ≤ r → r ≤ intMax → R = r) (hm : -2 ^ 31 ≤ m → m ≤ intMax → M = m) :
    (r * min m 8 = R * min M 8 ∧ a + R * min M 8 ≤ intMax) ↔
      m = 0 ∨ r = 0 ∨ (0 < r ∧ 0 < m ∧ (m ≤ intMax ∨ 8 ≤ M) ∧ a + r * min m 8 ≤ intMax) := by
  have hmin : 0 ≤ min M 8 := by omega
  have hprod : 0 ≤ R * min M 8 := mul_nonneg hR hmin
  constructor
  · rintro ⟨heq, hmax⟩
    by_cases hm0 : m = 0
    · exact .inl hm0
    by_cases hr0 : r = 0
    · exact .inr (.inl hr0)
    rw [← heq] at hprod hmax
    refine .inr (.inr ?_)
    rcases lt_or_gt_of_ne hm0 with hneg | hpos
    · -- two negative numbers that do not fit have a product that does not fit
      exfalso
      have hmlow : m < -2 ^ 31 := by
        by_contra hge
        have hsame := hm (by omega) (by rw [intMax]; omega)
        omega
      rw [min_eq_left (by omega)] at hprod hmax
      have hrneg : r < 0 := by
        by_contra hge
        have hlt := mul_neg_of_pos_of_neg (show 0 < r by omega) hneg
        omega
      have hrlow : r < -2 ^ 31 := by
        by_contra hge
        have hsame := hr (by omega) (by rw [intMax]; omega)
        omega
      rw [intMax] at hmax
      nlinarith
    · have hone : 1 ≤ min m 8 := by omega
      have hrpos : 0 < r := by
        by_contra hle
        have hlt := mul_neg_of_neg_of_pos (show r < 0 by omega) (show 0 < min m 8 by omega)
        omega
      have hrle : r ≤ r * min m 8 := le_mul_of_one_le_right hrpos.le hone
      have hsame := hr (by omega) (by omega)
      rw [hsame] at heq
      have hcancel := mul_left_cancel₀ hrpos.ne' heq
      exact ⟨hrpos, hpos, by rw [intMax]; omega, hmax⟩
  · rintro (rfl | rfl | ⟨hrpos, hpos, hmfit, hmax⟩)
    · rw [hm (by omega) (by rw [intMax]; omega)]
      simpa using ha
    · rw [hr (by omega) (by rw [intMax]; omega)]
      simpa using ha
    · obtain ⟨hsame, hmin'⟩ := fillSize_same h0 hr hm hrpos hpos hmfit hmax
      rw [hsame, hmin']
      exact ⟨rfl, hmax⟩

end FillSize

theorem fill_right_iff (h0 : 0 ≤ s.ind.toInt) {r : ExprValue} {size val : Option ExprValue}
    (hacc : ∀ msg, (fill r size val).run s1 s ≠ .error (.error msg)) :
    (fill r size val).Right s1 s ↔
      (fill r size val).Fits s1 s ∧ (s.sec.nobits = true → (fill r size val).Blank s1 s) := by
  have hrun : (fill r size val).run s1 s = runFill s (r.v.setWidth 32) size val :=
    asmIntExpr_accepted hacc
  rw [hrun] at hacc
  obtain ⟨hr, hn, hfill⟩ := runFill_accepted hacc
  have hsize : (if ((valueOr 1#64 size).setWidth 32).toInt > 8 then 8#32
      else (valueOr 1#64 size).setWidth 32).toInt =
      min ((valueOr 1#64 size).setWidth 32).toInt 8 := by
    split
    · rw [min_eq_right (by omega)]
      rfl
    · rw [min_eq_left (by omega)]
  generalize (if ((valueOr 1#64 size).setWidth 32).toInt > 8 then 8#32
    else (valueOr 1#64 size).setWidth 32) = n at hfill hsize
  have hnat := toNat_of_nonneg (a := n) (by omega)
  have hrnat := toNat_of_nonneg hr
  have hlength : ((repeatBuf ((valueOr 0#64 val).setWidth 32)).take n.toNat).length = n.toNat := by
    rw [List.length_take]
    exact min_eq_left (show n.toNat ≤ 8 by omega)
  have hcount : (((r.v.setWidth 32).toNat * n.toNat : ℕ) : ℤ) =
      (r.v.setWidth 32).toInt * min ((valueOr 1#64 size).setWidth 32).toInt 8 := by
    rw [Nat.cast_mul, hrnat, hnat, hsize]
  have hind := s.ind.toInt_lt
  have hiff := @fillSize_iff s.ind.toInt r.v.toInt (valueOr 1#64 size).toInt
    (r.v.setWidth 32).toInt ((valueOr 1#64 size).setWidth 32).toInt h0 (by rw [intMax]; omega) hr hn
    toInt_setWidth_of_fits toInt_setWidth_of_fits
  have hbytes (hfit : (fill r size val).Fits s1 s) : ∀ k < (r.v.setWidth 32).toNat * n.toNat,
      (fill r size val).fillByte k =
        ((repeatBuf ((valueOr 0#64 val).setWidth 32)).take n.toNat).getD (k % n.toNat) 0#8 := by
    intro k hk
    have heq := (hiff.2 hfit).1
    rw [← hcount] at heq
    rcases hfit with hm0 | hr0 | ⟨hrpos, hpos, hmfit, hmax⟩
    · rw [hm0, min_eq_left (by decide), mul_zero] at heq
      omega
    · rw [hr0, zero_mul] at heq
      omega
    obtain ⟨-, hmin⟩ := fillSize_same h0 (toInt_setWidth_of_fits (v := r.v))
      (toInt_setWidth_of_fits (v := valueOr 1#64 size)) hrpos hpos hmfit hmax
    have hn0 : n.toNat ≠ 0 := fun hzero => by
      rw [hzero, Nat.mul_zero] at hk
      omega
    have hlt := Nat.mod_lt k (show n.toNat > 0 by omega)
    rw [List.getD_eq_getElem?_getD, List.getElem?_take_of_lt hlt, ← List.getD_eq_getElem?_getD,
      repeatBuf_getD _ (by omega)]
    show ((((valueOr 0#64 val).setWidth 32).setWidth 64 >>>
      (8 * (k % (min (valueOr 1#64 size).toInt 8).toNat))).setWidth 8) = _
    rw [show (min (valueOr 1#64 size).toInt 8).toNat = n.toNat by omega]
  rw [right_iff, hrun, hfill]
  constructor
  · rintro ⟨p, hasks, hlaid⟩
    have hasks : p = s.ind.toInt + r.v.toInt * min (valueOr 1#64 size).toInt 8 := hasks
    have hfit : (fill r size val).Fits s1 s := by
      obtain ⟨s', hok, hlaid⟩ := hlaid
      obtain ⟨hind', hmax⟩ := fillLoop_position h0 hok
      rw [hlength, hcount] at hind' hmax
      have hp := hlaid.position
      exact hiff.1 ⟨by omega, hmax⟩
    have hfull := (fillLoop_laidOut_iff h0 (by rw [hlength]; exact hbytes hfit)).1 hlaid
    rw [hlength] at hfull
    refine ⟨hfit, fun hnobits p' hp' k hk => hfull.2.2 hnobits k ?_⟩
    have hp' : p' = s.ind.toInt + r.v.toInt * min (valueOr 1#64 size).toInt 8 := hp'
    omega
  · rintro ⟨hfit, hblank⟩
    obtain ⟨heq, hmax⟩ := hiff.2 hfit
    refine ⟨_, rfl, (fillLoop_laidOut_iff h0 (by rw [hlength]; exact hbytes hfit)).2 ?_⟩
    rw [hlength, hcount]
    refine ⟨by rw [heq], hmax, fun hnobits k hk => hblank hnobits _ rfl k ?_⟩
    omega

/-- **When a layout directive is right.** An accepted directive moves the offset to the position it
asks for and fills the bytes in between if and only if its operands and the offset fit an `int`
(and in a section without data only zeros are to be filled in). -/
theorem layout_right_iff (s1 : AsmState) (s : State) (d : Directive) (h0 : 0 ≤ s.ind.toInt)
    (hacc : ∀ msg, d.run s1 s ≠ .error (.error msg)) :
    d.Right s1 s ↔ d.Fits s1 s ∧ (s.sec.nobits = true → d.Blank s1 s) := by
  cases d with
  | align n v => exact @align_right_iff s1 s h0 n v hacc
  | balign n v => exact @align_right_iff s1 s h0 n v hacc
  | p2align n v => exact p2align_right_iff h0 hacc
  | skip n v => exact @skip_right_iff s1 s h0 n v hacc
  | space n v => exact @skip_right_iff s1 s h0 n v hacc
  | org e => exact org_right_iff h0 hacc
  | fill r size val => exact fill_right_iff h0 hacc

/-- `.skip 2, 7` behind one byte. -/
theorem layout_right_iff_skip :
    (skip ⟨2#64, none, false⟩ (some ⟨7#64, none, false⟩)).Right AsmState.empty
      ⟨1#32, ⟨1, false, 1#32, 1#64, [9#8, 0#8, 0#8, 0#8]⟩⟩ := by
  refine (layout_right_iff _ _ _ (by decide) fun msg h => ?_).2
    ⟨by decide, fun hnobits => absurd hnobits (by decide)⟩
  have hok : (skip ⟨2#64, none, false⟩ (some ⟨7#64, none, false⟩)).run AsmState.empty
      ⟨1#32, ⟨1, false, 1#32, 1#64, [9#8, 0#8, 0#8, 0#8]⟩⟩ =
      .ok ⟨3#32, ⟨1, false, 1#32, 3#64, [9#8, 7#8, 7#8, 0#8]⟩⟩ := rfl
  rw [hok] at h
  cases h

/-- `.balign 0` behind four bytes of a section without data goes back to its start, and `.org` to an
address beyond 32 bits goes to another one. -/
theorem balign_zero_not_right :
    (∃ s', (balign ⟨0#64, none, false⟩ none).run AsmState.empty
      ⟨4#32, ⟨1, true, 1#32, 0#64, []⟩⟩ = .ok s' ∧ s'.ind = 0#32) ∧
    ¬ (balign ⟨0#64, none, false⟩ none).Right AsmState.empty ⟨4#32, ⟨1, true, 1#32, 0#64, []⟩⟩ ∧
    (∃ s', (org ⟨0x100000010#64, none, false⟩).run AsmState.empty
      ⟨4#32, ⟨1, true, 1#32, 0#64, []⟩⟩ = .ok s' ∧ s'.ind = 0x10#32) ∧
    ¬ (org ⟨0x100000010#64, none, false⟩).Right AsmState.empty
      ⟨4#32, ⟨1, true, 1#32, 0#64, []⟩⟩ := by
  refine ⟨⟨_, rfl, rfl⟩, ?_, ⟨_, rfl, rfl⟩, ?_⟩
  · rintro ⟨s', -, p, hleast, -⟩
    obtain ⟨hge, c, hc⟩ := hleast.1
    have hge : 4 ≤ p := hge
    have hc : p = 0 * c := hc
    omega
  · rintro ⟨s', hrun, p, hp, hlaid⟩
    have hp : p = 0x100000010 := hp
    have hposition := hlaid.position
    cases hrun
    rw [hp] at hposition
    exact absurd hposition (by decide)

end Directive

end TccRiscv64.Asm.Layout
