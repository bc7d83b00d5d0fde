import TccRiscv64.Gen.Conditions
import TccRiscv64.Gen.FlowCorrect

set_option autoImplicit false

/-! # Expressions in code that is not wanted

Where no code is wanted, an expression leaves the code and `nocode_wanted` as they are, and its value
has no jumps. -/

namespace TccRiscv64.Gen.Flow

open TccRiscv64.Data.Backpatch TccRiscv64.Data.Backpatch.Code

variable {L K S : Type}

/-! ## Without code -/

/-- A value without jumps. -/
def SValue.Plain (v : SValue) : Prop := v.jtrue = 0 ∧ v.jfalse = 0

theorem SValue.Plain.isZero {v : SValue} (h : v.Plain) : v.isZero.Plain := by
  cases v with
  | const v => exact ⟨rfl, rfl⟩
  | reg r => exact ⟨rfl, rfl⟩
  | cmp c => exact ⟨h.2, h.1⟩

namespace GenState

variable {s : GenState L K} {v va vb : SValue}

theorem gjmp_of_dead (h : s.dead = true) (t : Nat) : s.gjmp t = (s, t) := by
  rw [gjmp, gjmpRaw_of_dead h, codeOff_of_dead h]

theorem gvtstSet_of_plain (inv : Bool) (hv : v.Plain) :
    s.gvtstSet inv 0 v = (s, v.toCmp) := by
  have hT : v.toCmp.jtrue = 0 := v.jtrue_toCmp.trans hv.1
  have hF : v.toCmp.jfalse = 0 := v.jfalse_toCmp.trans hv.2
  unfold gvtstSet
  generalize v.toCmp = c at hT hF
  obtain ⟨op, a, b, jtrue, jfalse⟩ := c
  obtain rfl : jtrue = 0 := hT
  obtain rfl : jfalse = 0 := hF
  cases inv <;> rfl

theorem gvtst_of_dead (h : s.dead = true) (inv : Bool) (hv : v.Plain) :
    s.gvtst inv 0 v = (s, 0) := by
  have hT : v.toCmp.jtrue = 0 := v.jtrue_toCmp.trans hv.1
  have hF : v.toCmp.jfalse = 0 := v.jfalse_toCmp.trans hv.2
  have hjump : ∀ op a b, s.gvtstJump op a b 0 = (s, 0) := by
    intro op a b
    cases op with
    | never => rfl
    | always => exact gjmp_of_dead h 0
    | test op =>
      rw [gvtstJump, gjmpCond, o_of_dead _ h]
      exact gjmpRaw_of_dead h 0
  unfold gvtst
  rw [gvtstSet_of_plain inv hv]
  cases inv with
  | false =>
    dsimp only
    rw [if_neg Bool.false_ne_true, if_neg Bool.false_ne_true, hT, hjump, hF]
    exact congrArg (·, 0) (gsym_zero s)
  | true =>
    dsimp only
    rw [if_pos rfl, if_pos rfl, hF, hjump, hT]
    exact congrArg (·, 0) (gsym_zero s)

theorem gv_of_dead (h : s.dead = true) (d : Nat) (hv : v.Plain) : s.gv d v = s := by
  cases v with
  | const v => exact o_of_dead _ h
  | reg r =>
    unfold gv
    dsimp only
    split
    · rfl
    · exact o_of_dead _ h
  | cmp c =>
    unfold gv
    dsimp only
    have hjumps : ¬(c.jtrue ≠ 0 ∨ c.jfalse ≠ 0) :=
      not_or.2 ⟨not_not_intro hv.1, not_not_intro hv.2⟩
    rw [if_neg hjumps]
    split <;> exact o_of_dead _ h

theorem vpop_of_plain (s : GenState L K) (hv : v.Plain) : s.vpop v = s := by
  cases v with
  | const v => rfl
  | reg r => rfl
  | cmp c =>
    obtain ⟨hT, hF⟩ := hv
    rw [vpop, show c.jtrue = 0 from hT, show c.jfalse = 0 from hF, gsym_zero, gsym_zero]

theorem vcheckCmp_of_dead (h : s.dead = true) (d : Nat) (hv : v.Plain) :
    (s.vcheckCmp d v).1 = s ∧ (s.vcheckCmp d v).2.Plain := by
  cases v with
  | const v => exact ⟨rfl, hv⟩
  | reg r => exact ⟨rfl, hv⟩
  | cmp c =>
    unfold vcheckCmp
    dsimp only
    split
    · exact ⟨gv_of_dead h d hv, rfl, rfl⟩
    · exact ⟨rfl, hv⟩

theorem gv2_of_dead (h : s.dead = true) (d : Nat) (ha : va.Plain) (hb : vb.Plain) :
    s.gv2 d va vb = s := by
  unfold gv2
  split
  · rw [gv_of_dead h _ hb, gv_of_dead h _ ha]
  · rw [gv_of_dead h _ ha, gv_of_dead h _ hb]

theorem dead_nocodeInc (s : GenState L K) : s.nocodeInc.dead = true := by
  unfold dead nocodeInc
  simp

theorem nocodeDec_nocodeInc (s : GenState L K) : s.nocodeInc.nocodeDec = s := rfl

theorem condJoin_of_dead (h : s.dead = true) (d : Nat) (ha : va.Plain) (hb : vb.Plain) :
    (s.condJoin d va vb 0).1 = s ∧ (s.condJoin d va vb 0).2.Plain := by
  unfold condJoin
  split
  · dsimp only
    rw [gvtst_of_dead h false hb]
    dsimp only
    rw [gjmp_of_dead h, gsym_zero, gvtstSet_of_plain false ha]
    dsimp only
    have hplain : (SValue.cmp va.toCmp).Plain :=
      ⟨va.jtrue_toCmp.trans ha.1, va.jfalse_toCmp.trans ha.2⟩
    rw [gvtstSet_of_plain true hplain]
    exact ⟨rfl, hplain⟩
  · dsimp only
    rw [gv_of_dead h d hb, gjmp_of_dead h]
    dsimp only
    rw [gsym_zero]
    exact ⟨(gsym_zero _).trans (gv_of_dead h d ha), rfl, rfl⟩

/-! ### The head of the loop -/

section Head

variable {l : Landor}

theorem landorHead_of_f (hf : l.f = true) : s.landorHead l v = (s, l, some l.isAnd) := by
  obtain ⟨isAnd, t, cc, f⟩ := l
  obtain rfl : f = true := hf
  unfold landorHead
  dsimp only
  rw [if_pos rfl, if_neg fun h => absurd (Option.some.inj h).symm (Bool.not_ne_self isAnd),
    Option.isSome_some, Bool.and_true]

/-- An operand that decides. -/
theorem landorHead_decides (hf : l.f = false) (hc : v.condition3way = some !l.isAnd) :
    s.landorHead l v = (s.nocodeInc, { l with f := true }, some !l.isAnd) := by
  unfold landorHead
  dsimp only
  rw [hf, if_neg Bool.false_ne_true, hc, if_pos rfl]

/-- A constant operand that does not. -/
theorem landorHead_keeps (hf : l.f = false) (hc : v.condition3way = some l.isAnd) :
    s.landorHead l v = (s, l, some l.isAnd) := by
  obtain ⟨isAnd, t, cc, f⟩ := l
  unfold landorHead
  dsimp only at hf hc ⊢
  rw [hf, if_neg Bool.false_ne_true, hc,
    if_neg fun h => absurd (Option.some.inj h).symm (Bool.not_ne_self isAnd), Option.isSome_some,
    Bool.and_true]

/-- An operand that is no constant. -/
theorem landorHead_open (hf : l.f = false) (hc : v.condition3way = none) :
    s.landorHead l v = (s, { l with cc := false }, none) := by
  unfold landorHead
  dsimp only
  rw [hf, if_neg Bool.false_ne_true, hc, if_neg (Option.some_ne_none _).symm, Option.isSome_none,
    Bool.and_false]

theorem condition3way_cases (v : SValue) (isAnd : Bool) :
    v.condition3way = none ∨ v.condition3way = some isAnd ∨ v.condition3way = some !isAnd := by
  cases v with
  | const v =>
    exact Or.inr ((Bool.eq_or_eq_not (v != 0) isAnd).imp (congrArg some) (congrArg some))
  | reg r => exact Or.inl rfl
  | cmp c => exact Or.inl rfl

/-- An operand behind the one that decides. -/
theorem landorEnd_of_f (hf : l.f = true) (hv : v.Plain) :
    s.landorEnd l v = ((s.gsym l.t).nocodeDec, .const (truth !l.isAnd)) := by
  unfold landorEnd
  rw [landorHead_of_f hf]
  dsimp only
  rw [hf, Bool.or_true, if_pos rfl, if_pos rfl, vpop_of_plain s hv, Bool.xor_true]

theorem landorNext_of_f (hf : l.f = true) (hv : v.Plain) : s.landorNext l v = (s, l) := by
  unfold landorNext
  rw [landorHead_of_f hf]
  dsimp only
  rw [vpop_of_plain s hv]

/-- What an operand does in code that is not wanted. -/
theorem landorEnd_of_dead (hf : l.f = false) (ht : l.t = 0) (hv : v.Plain) :
    (s.landorEnd l v).1 = s ∧ (s.landorEnd l v).2.Plain := by
  unfold landorEnd
  rcases condition3way_cases v l.isAnd with hc | hc | hc
  · rw [landorHead_open hf hc]
    dsimp only
    rw [hf, ht, Bool.or_false, if_neg Bool.false_ne_true, gvtstSet_of_plain _ hv]
    exact ⟨rfl, v.jtrue_toCmp.trans hv.1, v.jfalse_toCmp.trans hv.2⟩
  · rw [landorHead_keeps hf hc]
    dsimp only
    rw [hf, ht, if_neg Bool.false_ne_true, vpop_of_plain _ hv, gsym_zero, gvtstSet_of_plain _ hv]
    split
    · exact ⟨rfl, rfl, rfl⟩
    · exact ⟨rfl, v.jtrue_toCmp.trans hv.1, v.jfalse_toCmp.trans hv.2⟩
  · rw [landorHead_decides hf hc]
    dsimp only
    rw [ht, Bool.or_true, if_pos rfl, if_pos rfl, vpop_of_plain _ hv, gsym_zero]
    exact ⟨rfl, rfl, rfl⟩

theorem landorNext_of_dead (h : s.dead = true) (hf : l.f = false) (ht : l.t = 0)
    (hv : v.Plain) :
    (s.landorNext l v).2.t = 0 ∧
      ((s.landorNext l v).2.f = false ∧ (s.landorNext l v).1 = s ∨
        (s.landorNext l v).2.f = true ∧ (s.landorNext l v).1 = s.nocodeInc) := by
  unfold landorNext
  rcases condition3way_cases v l.isAnd with hc | hc | hc
  · rw [landorHead_open hf hc]
    dsimp only
    rw [ht, gvtst_of_dead h _ hv]
    exact ⟨rfl, Or.inl ⟨hf, rfl⟩⟩
  · rw [landorHead_keeps hf hc]
    dsimp only
    rw [vpop_of_plain _ hv]
    exact ⟨ht, Or.inl ⟨hf, rfl⟩⟩
  · rw [landorHead_decides hf hc]
    dsimp only
    rw [vpop_of_plain _ hv]
    exact ⟨ht, Or.inr ⟨rfl, rfl⟩⟩

end Head

@[simp] theorem landorNext_isAnd (s : GenState L K) (l : Landor) (v : SValue) :
    (s.landorNext l v).2.isAnd = l.isAnd := by
  have hhead : (s.landorHead l v).2.1.isAnd = l.isAnd := by
    unfold landorHead
    dsimp only
    generalize (if l.f = true then some l.isAnd else v.condition3way) = c
    split <;> rfl
  unfold landorNext
  dsimp only
  split <;> exact hhead

end GenState

/-- The operator of an expression that goes on with the operands of another one. -/
def Expr.landor? : Expr L → Option Bool
  | .landor isAnd _ _ => some isAnd
  | _ => none

/-- Any other expression is the last operand. -/
theorem Expr.gen_some (noret : L → Bool) {e : Expr L} {l : Landor} (h : e.landor? ≠ some l.isAnd)
    (d : Nat) (s : GenState L K) :
    e.gen noret (some l) d s = (e.gen noret none d s).1.landorEnd l (e.gen noret none d s).2 := by
  cases e with
  | const v => rfl
  | leaf i => rfl
  | paren e => rfl
  | binary f a b =>
    unfold Expr.gen
    dsimp only
    split <;> rfl
  | rel op a b =>
    unfold Expr.gen
    dsimp only
    split <;> rfl
  | not e => rfl
  | landor isAnd a b =>
    unfold Expr.gen
    dsimp only
    rw [if_neg fun heq => h (congrArg some heq.symm)]
    rfl
  | cond c a b =>
    unfold Expr.gen
    dsimp only
    split <;> rfl
  | elvis c b =>
    unfold Expr.gen
    dsimp only
    split <;> rfl
  | comma a b =>
    unfold Expr.gen
    dsimp only
    split
    · split <;> rfl
    · rfl

/-- An expression in code that is not wanted, also as the rest of operands. -/
structure Expr.Silent (noret : L → Bool) (e : Expr L) : Prop where
  value : ∀ (d : Nat) (s : GenState L K), s.dead = true →
    (e.gen noret none d s).1 = s ∧ (e.gen noret none d s).2.Plain
  operand : ∀ (l : Landor) (d : Nat) (s : GenState L K), s.dead = true → l.f = false → l.t = 0 →
    (e.gen noret (some l) d s).1 = s ∧ (e.gen noret (some l) d s).2.Plain
  decided : ∀ (l : Landor) (d : Nat) (s : GenState L K), s.dead = true → l.f = true →
    e.gen noret (some l) d s = ((s.gsym l.t).nocodeDec, .const (truth !l.isAnd))

namespace Expr.Silent

variable {noret : L → Bool} {e a b c : Expr L}

/-- An expression that is the last operand. -/
theorem of_value (hvalue : ∀ (d : Nat) (s : GenState L K), s.dead = true →
      (e.gen noret none d s).1 = s ∧ (e.gen noret none d s).2.Plain)
    (hoperand : ∀ (l : Landor) (d : Nat) (s : GenState L K), e.landor? = some l.isAnd →
      s.dead = true → l.f = false → l.t = 0 →
        (e.gen noret (some l) d s).1 = s ∧ (e.gen noret (some l) d s).2.Plain)
    (hdecided : ∀ (l : Landor) (d : Nat) (s : GenState L K), e.landor? = some l.isAnd →
      s.dead = true → l.f = true →
        e.gen noret (some l) d s = ((s.gsym l.t).nocodeDec, .const (truth !l.isAnd))) :
    e.Silent (K := K) noret where
  value := hvalue
  operand l d s hs hf ht := by
    by_cases hl : e.landor? = some l.isAnd
    · exact hoperand l d s hl hs hf ht
    · obtain ⟨heq, hv⟩ := hvalue d s hs
      rw [Expr.gen_some noret hl, heq]
      exact GenState.landorEnd_of_dead hf ht hv
  decided l d s hs hf := by
    by_cases hl : e.landor? = some l.isAnd
    · exact hdecided l d s hl hs hf
    · obtain ⟨heq, hv⟩ := hvalue d s hs
      rw [Expr.gen_some noret hl, heq]
      exact GenState.landorEnd_of_f hf hv

/-- An expression that is no chain of operands. -/
theorem of_value' (hl : e.landor? = none) (hvalue : ∀ (d : Nat) (s : GenState L K),
    s.dead = true → (e.gen noret none d s).1 = s ∧ (e.gen noret none d s).2.Plain) :
    e.Silent (K := K) noret :=
  of_value hvalue (fun _ _ _ h => by rw [hl] at h; cases h)
    fun _ _ _ h => by rw [hl] at h; cases h

end Expr.Silent

/-- No code comes of an expression where none is wanted. -/
theorem Expr.silent (noret : L → Bool) (e : Expr L) : e.Silent (K := K) noret := by
  induction e with
  | const v => exact .of_value' rfl fun _ _ _ => ⟨rfl, rfl, rfl⟩
  | leaf i =>
    refine .of_value' rfl fun d s hs => ?_
    unfold Expr.gen
    dsimp only
    rw [GenState.o_of_dead _ hs, GenState.codeOff_of_dead hs, ite_self]
    exact ⟨rfl, rfl, rfl⟩
  | paren e ih => exact .of_value' rfl fun d s hs => ih.value d s hs
  | binary f a b iha ihb =>
    refine .of_value' rfl fun d s hs => ?_
    obtain ⟨ha, hva⟩ := iha.value d s hs
    obtain ⟨hc, hvc⟩ := GenState.vcheckCmp_of_dead hs d hva
    obtain ⟨hb, hvb⟩ := ihb.value (d + 1) s hs
    unfold Expr.gen
    dsimp only
    rw [ha, hc, hb]
    split
    · exact ⟨rfl, rfl, rfl⟩
    · rw [GenState.gv2_of_dead hs d hvc hvb, GenState.o_of_dead _ hs]
      exact ⟨rfl, rfl, rfl⟩
  | rel op a b iha ihb =>
    refine .of_value' rfl fun d s hs => ?_
    obtain ⟨ha, hva⟩ := iha.value d s hs
    obtain ⟨hc, hvc⟩ := GenState.vcheckCmp_of_dead hs d hva
    obtain ⟨hb, hvb⟩ := ihb.value (d + 1) s hs
    unfold Expr.gen
    dsimp only
    rw [ha, hc, hb]
    split
    · exact ⟨rfl, rfl, rfl⟩
    · rw [GenState.gv2_of_dead hs d hvc hvb]
      exact ⟨rfl, rfl, rfl⟩
  | not e ih =>
    refine .of_value' rfl fun d s hs => ?_
    obtain ⟨he, hv⟩ := ih.value d s hs
    exact ⟨he, hv.isZero⟩
  | landor isAnd a b iha ihb =>
    have hnext : ∀ (l : Landor) (d : Nat) (s : GenState L K), s.dead = true → l.f = false →
        l.t = 0 → ∀ v : SValue, v.Plain →
          (b.gen noret (some (s.landorNext l v).2) d (s.landorNext l v).1).1 = s ∧
            (b.gen noret (some (s.landorNext l v).2) d (s.landorNext l v).1).2.Plain := by
      intro l d s hs hf ht v hv
      obtain ⟨ht', ⟨hf', heq⟩ | ⟨hf', heq⟩⟩ := GenState.landorNext_of_dead hs hf ht hv
      · rw [heq]
        exact ihb.operand _ d s hs hf' ht'
      · rw [heq, ihb.decided _ d _ s.dead_nocodeInc hf', ht', GenState.gsym_zero]
        exact ⟨s.nocodeDec_nocodeInc, rfl, rfl⟩
    refine .of_value (fun d s hs => ?_) (fun l d s hl hs hf ht => ?_) fun l d s hl hs hf => ?_
    · obtain ⟨ha, hva⟩ := iha.value d s hs
      unfold Expr.gen
      dsimp only
      rw [ha]
      exact hnext _ d s hs rfl rfl _ hva
    · obtain ⟨ha, hva⟩ := iha.value d s hs
      obtain rfl := Option.some.inj hl
      unfold Expr.gen
      dsimp only
      rw [if_pos rfl, ha]
      exact hnext l d s hs hf ht _ hva
    · obtain ⟨ha, hva⟩ := iha.value d s hs
      obtain rfl := Option.some.inj hl
      unfold Expr.gen
      dsimp only
      rw [if_pos rfl, ha, GenState.landorNext_of_f hf hva]
      exact ihb.decided l d s hs hf
  | cond c a b ihc iha ihb =>
    refine .of_value' rfl fun d s hs => ?_
    obtain ⟨hc, hvc⟩ := ihc.value d s hs
    obtain ⟨ha, hva⟩ := iha.value d s hs
    obtain ⟨hb, hvb⟩ := ihb.value d s hs
    obtain ⟨ha', -⟩ := iha.value d s.nocodeInc s.dead_nocodeInc
    obtain ⟨hb', -⟩ := ihb.value d s.nocodeInc s.dead_nocodeInc
    unfold Expr.gen
    dsimp only
    rw [hc]
    split
    · rw [GenState.gvtst_of_dead hs true hvc]
      dsimp only
      rw [ha, GenState.gjmp_of_dead hs]
      dsimp only
      rw [GenState.gsym_zero, hb]
      exact GenState.condJoin_of_dead hs d hva hvb
    · rw [ha', s.nocodeDec_nocodeInc]
      exact ⟨hb, hvb⟩
    · rw [ha, hb', s.nocodeDec_nocodeInc]
      exact ⟨rfl, hva⟩
  | elvis c b ihc ihb =>
    refine .of_value' rfl fun d s hs => ?_
    obtain ⟨hc, hvc⟩ := ihc.value d s hs
    obtain ⟨hb, hvb⟩ := ihb.value d s hs
    obtain ⟨hb', -⟩ := ihb.value d s.nocodeInc s.dead_nocodeInc
    unfold Expr.gen
    dsimp only
    rw [hc]
    split
    · rw [GenState.gv_of_dead hs d hvc, GenState.o_of_dead _ hs,
        GenState.gvtst_of_dead hs false ⟨rfl, rfl⟩]
      dsimp only
      rw [hb]
      exact GenState.condJoin_of_dead hs d ⟨rfl, rfl⟩ hvb
    · rw [s.nocodeDec_nocodeInc]
      exact ⟨hb, hvb⟩
    · rw [hb', s.nocodeDec_nocodeInc]
      exact ⟨rfl, hvc⟩
  | comma a b iha ihb =>
    refine .of_value' rfl fun d s hs => ?_
    obtain ⟨ha, hva⟩ := iha.value d s hs
    obtain ⟨hb, hvb⟩ := ihb.value d s hs
    unfold Expr.gen
    dsimp only
    rw [ha, GenState.vpop_of_plain s hva, hb]
    split
    · rename_i v hv
      rw [if_pos hs, GenState.gv_of_dead hs d ⟨rfl, rfl⟩]
      exact ⟨rfl, rfl, rfl⟩
    · exact ⟨rfl, hvb⟩

end TccRiscv64.Gen.Flow
