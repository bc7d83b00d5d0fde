import TccRiscv64.Gen.Flow

set_option autoImplicit false

/-! # Tests and jumps in the final code

Where the code for a test goes, in terms of the code in the end: whoever knows already that a value is
true or false comes in by a chain, the others go on behind the code so far. -/

namespace TccRiscv64.Gen.Flow

open TccRiscv64.Data.Backpatch TccRiscv64.Data.Backpatch.Code

variable {L K S : Type}

/-! ## Running -/

/-- Some steps. -/
def Reaches (sem : Sem L K S) (P : Nat → Slot (Instr L K)) : Machine S → Machine S → Prop :=
  Relation.ReflTransGen fun m m' => step sem P m = some m'

section Steps

variable {sem : Sem L K S} {P : Nat → Slot (Instr L K)} {m : Machine S} {pc a : Nat}

variable (sem) in
theorem step_instr {i : Instr L K} (hpc : m.pc = some pc) (hP : P pc = .instr i) :
    step sem P m = some (i.exec sem pc m) := by
  unfold step
  rw [hpc]
  dsimp only
  rw [hP]

theorem step_jump (hpc : m.pc = some pc) (hP : P pc = .jump a) :
    step sem P m = some { m with pc := some a } := by
  unfold step
  rw [hpc]
  dsimp only
  rw [hP]

/-- A patched jump goes to its target. -/
theorem step_patched (hpc : m.pc = some pc) (hP : P pc = .patched pc a) :
    step sem P m = some { m with pc := some a } := by
  unfold step
  rw [hpc]
  dsimp only
  by_cases h : a = pc + 1
  · rw [hP, Slot.patched, if_pos h, h]
  · rw [hP, Slot.patched, if_neg h]

end Steps

/-! ## Code that is emitted -/

namespace GenState

variable {s s' s'' : GenState L K} {chains : List (Nat × List Nat)} {sites : List Nat} {t : Nat}

theorem dead_eq_false : s.dead = false ↔ s.nocode = 0 ∧ s.off = false := by
  unfold dead
  rw [Bool.or_eq_false_iff, bne_eq_false_iff_eq]

/-- The code goes on behind `s`, with the same `nocode_wanted` but for its bit. -/
structure Grows (s s' : GenState L K) : Prop where
  code : Extends s.code s'.code
  nocode : s'.nocode = s.nocode

theorem Grows.refl (s : GenState L K) : Grows s s := ⟨.refl _, rfl⟩

theorem Grows.trans (h : Grows s s') (h' : Grows s' s'') : Grows s s'' :=
  ⟨h.code.trans h'.code, h'.nocode.trans h.nocode⟩

theorem Grows.ind_ne (h : Grows s s') (hind : s.code.ind ≠ 0) : s'.code.ind ≠ 0 :=
  ((Nat.pos_of_ne_zero hind).trans_le h.code.ind_le).ne'

theorem o_of_dead (slot : Slot (Instr L K)) (h : s.dead = true) : s.o slot = s := if_pos h

theorem o_of_live (slot : Slot (Instr L K)) (h : s.dead = false) :
    s.o slot = { s with code := s.code.emit slot } := if_neg (ne_true_of_eq_false h)

theorem grows_o (s : GenState L K) (slot : Slot (Instr L K)) : Grows s (s.o slot) := by
  unfold o
  split
  · exact .refl s
  · exact ⟨extends_emit _ _, rfl⟩

theorem held_o (slot : Slot (Instr L K)) (h : Held s.code chains) :
    Held (s.o slot).code chains := by
  unfold o
  split
  · exact h
  · exact h.emit slot

@[simp] theorem dead_o (s : GenState L K) (slot : Slot (Instr L K)) : (s.o slot).dead = s.dead := by
  unfold o
  split <;> rfl

theorem ind_o (slot : Slot (Instr L K)) (h : s.dead = false) :
    (s.o slot).code.ind = s.code.ind + 1 := by
  rw [o_of_live slot h]
  rfl

theorem final_o {P : Nat → Slot (Instr L K)} {slot : Slot (Instr L K)} (h : s.dead = false)
    (hslot : slot.isLink = false) (hfinal : Final P (s.o slot).code) : P s.code.ind = slot := by
  rw [o_of_live slot h] at hfinal
  exact hfinal.emit hslot

theorem codeOff_code (s : GenState L K) : s.codeOff.code = s.code := by
  unfold codeOff
  split <;> rfl

theorem codeOff_nocode (s : GenState L K) : s.codeOff.nocode = s.nocode := by
  unfold codeOff
  split <;> rfl

theorem dead_codeOff (s : GenState L K) : s.codeOff.dead = true := by
  unfold codeOff
  split
  · assumption
  · exact Bool.or_true _

theorem codeOff_of_dead (h : s.dead = true) : s.codeOff = s := if_pos h

/-! ### Jumps -/

/-- A jump is put in front of its chain, if code is wanted. -/
theorem gjmpRaw_spec (hheld : Held s.code ((t, sites) :: chains)) (hind : s.code.ind ≠ 0) :
    ∃ sites', Held (s.gjmpRaw t).1.code (((s.gjmpRaw t).2, sites') :: chains) ∧
      Grows s (s.gjmpRaw t).1 ∧ (s.gjmpRaw t).1.dead = s.dead ∧ sites ⊆ sites' ∧
      (s.dead = false → s.code.ind ∈ sites' ∧ (s.gjmpRaw t).1.code.ind = s.code.ind + 1) := by
  cases hdead : s.dead with
  | true =>
    rw [gjmpRaw, if_pos hdead]
    exact ⟨sites, hheld, .refl s, hdead, List.Subset.refl _, fun h => absurd h.symm Bool.false_ne_true⟩
  | false =>
    rw [gjmpRaw, if_neg (ne_true_of_eq_false hdead), o_of_live _ hdead]
    exact ⟨_, hheld.emit_link hind, ⟨extends_emit _ _, rfl⟩, hdead, List.subset_cons_self _ _,
      fun _ => ⟨List.mem_cons_self, rfl⟩⟩

theorem gjmpRaw_of_dead (h : s.dead = true) (t : Nat) : s.gjmpRaw t = (s, t) := if_pos h

/-- The jumps of a chain go behind the code so far, which can be reached then. -/
theorem gsym_spec (hheld : Held s.code ((t, sites) :: chains)) :
    Held (s.gsym t).code chains ∧ Grows s (s.gsym t) ∧ (s.gsym t).code.ind = s.code.ind ∧
      (s.dead = false → (s.gsym t).dead = false) ∧
      (s.nocode = 0 → t ≠ 0 → (s.gsym t).dead = false) ∧
      ∀ P, Final P (s.gsym t).code → Lead P sites s.code.ind := by
  unfold gsym
  by_cases ht : t = 0
  · have hnil : sites = [] := not_not.1 fun hne => hheld.sites_ne_zero.1 hne ht
    rw [if_neg (not_not_intro ht), hnil]
    exact ⟨hheld.tail, .refl s, rfl, id, fun _ h => absurd ht h, fun _ _ => .nil⟩
  · rw [if_pos ht]
    obtain ⟨hheld', hext, hlead⟩ := hheld.patch s.code.ind
    refine ⟨hheld', ⟨hext, rfl⟩, rfl, fun h => ?_, fun h _ => ?_, hlead⟩
    · exact dead_eq_false.2 ⟨(dead_eq_false.1 h).1, rfl⟩
    · exact dead_eq_false.2 ⟨h, rfl⟩

theorem gsym_zero (s : GenState L K) : s.gsym 0 = s := if_neg (not_not_intro rfl)

theorem gjmpAppend_zero (s : GenState L K) (t : Nat) : s.gjmpAppend 0 t = (s, t) := rfl

end GenState

/-! ## Where a value is -/

def CmpOp.holds (m : Machine S) (a b : CmpReg) : CmpOp → Bool
  | .never => false
  | .always => true
  | .test op => op.holds (m.read a) (m.read b)

theorem CmpOp.holds_not (m : Machine S) (a b : CmpReg) (op : CmpOp) :
    op.not.holds m a b = !op.holds m a b := by
  cases op with
  | never => rfl
  | always => rfl
  | test op => exact Cond.holds_not op _ _

@[simp] theorem truth_ne_zero (b : Bool) : (truth b != 0) = b := by
  cases b <;> rfl

def SValue.jtrue : SValue → Nat
  | .cmp c => c.jtrue
  | _ => 0

def SValue.jfalse : SValue → Nat
  | .cmp c => c.jfalse
  | _ => 0

/-- The value of `v` for those who come to it by the code. -/
def SValue.val (m : Machine S) : SValue → BitVec 64
  | .const v => v
  | .reg r => m.regs r
  | .cmp c => truth (c.op.holds m c.a c.b)

/-- A machine that has the value `x` for `v`: behind the code, or at the ends of its chains. -/
inductive SValue.At (s : GenState L K) (v : SValue) (aT aF : Nat) (x : BitVec 64) (m : Machine S) :
    Prop
  | here (hpc : m.pc = some s.code.ind) (hlive : s.dead = false) (hval : x = v.val m)
  | jtrue (hpc : m.pc = some aT) (hchain : v.jtrue ≠ 0) (hval : x = 1)
  | jfalse (hpc : m.pc = some aF) (hchain : v.jfalse ≠ 0) (hval : x = 0)

/-- The chains of a value. -/
def SValue.Held (s : GenState L K) (v : SValue) (sT sF : List Nat)
    (chains : List (Nat × List Nat)) : Prop :=
  Code.Held s.code ((v.jtrue, sT) :: (v.jfalse, sF) :: chains)

section At

variable {s : GenState L K} {v : SValue} {aT aF : Nat} {x : BitVec 64} {m : Machine S}

@[simp] theorem SValue.jtrue_toCmp (v : SValue) : v.toCmp.jtrue = v.jtrue := by
  cases v <;> rfl

@[simp] theorem SValue.jfalse_toCmp (v : SValue) : v.toCmp.jfalse = v.jfalse := by
  cases v <;> rfl

theorem SValue.At.toCmp (h : v.At s aT aF x m) :
    (SValue.cmp v.toCmp).At s aT aF (truth (x != 0)) m := by
  cases h with
  | here hpc hlive hval =>
    refine .here hpc hlive ?_
    subst hval
    cases v with
    | const v =>
      by_cases hv : v = 0
      · rw [SValue.val, SValue.toCmp, if_pos hv, hv]
        rfl
      · rw [SValue.val, SValue.toCmp, if_neg hv, bne_iff_ne.2 hv]
        rfl
    | reg r => rfl
    | cmp c => exact congrArg truth (truth_ne_zero _)
  | jtrue hpc hchain hval =>
    subst hval
    exact .jtrue hpc (by rwa [SValue.jtrue, SValue.jtrue_toCmp]) rfl
  | jfalse hpc hchain hval =>
    subst hval
    exact .jfalse hpc (by rwa [SValue.jfalse, SValue.jfalse_toCmp]) rfl

theorem SValue.At.not {c : Cmp} (h : (SValue.cmp c).At s aT aF x m) :
    (SValue.cmp c.not).At s aF aT (truth (x == 0)) m := by
  cases h with
  | here hpc hlive hval =>
    refine .here hpc hlive ?_
    subst hval
    show truth (truth (c.op.holds m c.a c.b) == 0) = truth (c.op.not.holds m c.a c.b)
    rw [CmpOp.holds_not]
    cases c.op.holds m c.a c.b <;> rfl
  | jtrue hpc hchain hval =>
    subst hval
    exact .jfalse hpc hchain rfl
  | jfalse hpc hchain hval =>
    subst hval
    exact .jtrue hpc hchain rfl

end At

/-! ## Tests -/

section Tests

variable {s : GenState L K} {chains : List (Nat × List Nat)} {sites sT sF : List Nat} {t : Nat}
  (sem : Sem L K S)

/-- Where a test goes: to `a` by the jumps of the chain it makes, or behind the code. -/
structure Tested (P : Nat → Slot (Instr L K)) (r : GenState L K × Nat) (a : Nat) (m : Machine S)
    (b : Bool) : Prop where
  jumps : b = true → Reaches sem P m { m with pc := some a } ∧ r.2 ≠ 0
  goesOn : b = false → Reaches sem P m { m with pc := some r.1.code.ind } ∧ r.1.dead = false

theorem gvtstJump_spec (hind : s.code.ind ≠ 0)
    (hheld : Held s.code ((t, sites) :: chains)) (op : CmpOp) (a b : CmpReg) :
    ∃ sites', Held (s.gvtstJump op a b t).1.code (((s.gvtstJump op a b t).2, sites') :: chains) ∧
      s.Grows (s.gvtstJump op a b t).1 ∧ sites ⊆ sites' ∧
      ∀ P, Final P (s.gvtstJump op a b t).1.code → ∀ x, Lead P sites' x → s.dead = false →
        ∀ m : Machine S, m.pc = some s.code.ind →
          Tested sem P (s.gvtstJump op a b t) x m (op.holds m a b) := by
  cases op with
  | never =>
    refine ⟨sites, hheld, .refl s, List.Subset.refl _, fun P _ x _ hlive m hpc => ?_⟩
    refine ⟨fun h => absurd h Bool.false_ne_true, fun _ => ⟨?_, hlive⟩⟩
    show Reaches sem P m { m with pc := some s.code.ind }
    rw [← hpc]
    exact .refl
  | always =>
    obtain ⟨sites', hheld', hgrows, -, hsub, hlive'⟩ := GenState.gjmpRaw_spec hheld hind
    refine ⟨sites', ?_, ⟨?_, ?_⟩, hsub, fun P hfinal x hlead hlive m hpc => ?_⟩
    · show Held (s.gjmpRaw t).1.codeOff.code _
      rwa [GenState.codeOff_code]
    · show Extends s.code (s.gjmpRaw t).1.codeOff.code
      rw [GenState.codeOff_code]
      exact hgrows.code
    · show (s.gjmpRaw t).1.codeOff.nocode = s.nocode
      rw [GenState.codeOff_nocode]
      exact hgrows.nocode
    · obtain ⟨hmem, -⟩ := hlive' hlive
      refine ⟨fun _ => ⟨.single (step_patched hpc (hlead _ hmem)), ?_⟩, fun h => absurd h.symm Bool.false_ne_true⟩
      exact hheld'.sites_ne_zero.1 (List.ne_nil_of_mem hmem)
  | test op =>
    obtain ⟨sites', hheld', hgrows, hdead, hsub, hlive'⟩ := GenState.gjmpRaw_spec
      (GenState.held_o (.instr (.branch op a b)) hheld)
      ((GenState.grows_o s (.instr (.branch op a b))).ind_ne hind)
    refine ⟨sites', hheld', (GenState.grows_o s _).trans hgrows, hsub,
      fun P hfinal x hlead hlive m hpc => ?_⟩
    have hbranch := GenState.final_o hlive rfl (hgrows.code.final hfinal)
    rw [GenState.dead_o] at hlive' hdead
    obtain ⟨hmem, hend⟩ := hlive' hlive
    rw [GenState.ind_o _ hlive] at hmem hend
    have hstep := step_instr sem hpc hbranch
    refine ⟨fun hholds => ⟨?_, hheld'.sites_ne_zero.1 (List.ne_nil_of_mem hmem)⟩,
      fun hholds => ⟨?_, hdead.trans hlive⟩⟩
    · have hholds : op.holds (m.read a) (m.read b) = true := hholds
      rw [Instr.exec, if_pos hholds] at hstep
      exact .head hstep (.single (step_patched rfl (hlead _ hmem)))
    · have hholds : op.holds (m.read a) (m.read b) = false := hholds
      rw [Instr.exec, if_neg (ne_true_of_eq_false hholds)] at hstep
      show Reaches sem P m { m with pc := some ((s.o _).gjmpRaw t).1.code.ind }
      rw [hend]
      exact .single hstep

/-- The jump of `gvtst` and those of both chains. -/
theorem cmp_spec {c : Cmp} (hn : s.nocode = 0) (hind : s.code.ind ≠ 0)
    (hheld : (SValue.cmp c).Held s sT sF ((t, sites) :: chains)) {r : GenState L K × Nat}
    (hr : r = ((s.gjmpAppend c.jtrue t).1.gvtstJump c.op c.a c.b (s.gjmpAppend c.jtrue t).2)) :
    ∃ sites', Held (r.1.gsym c.jfalse).code ((r.2, sites') :: chains) ∧
      s.Grows (r.1.gsym c.jfalse) ∧ sites ⊆ sites' ∧
      ∀ P, Final P (r.1.gsym c.jfalse).code → ∀ a, Lead P sites' a → Lead P sT a ∧
        Lead P sF (r.1.gsym c.jfalse).code.ind ∧
          ∀ (m : Machine S) x, (SValue.cmp c).At s a (r.1.gsym c.jfalse).code.ind x m →
            Tested sem P (r.1.gsym c.jfalse, r.2) a m (x != 0) := by
  obtain ⟨happend, hext, hindEq⟩ := (hheld.perm
    (.cons _ (.swap (t, sites) (c.jfalse, sF) chains))).append
  have happend : Held (s.gjmpAppend c.jtrue t).1.code
      (((s.gjmpAppend c.jtrue t).2, sT ++ sites) :: (c.jfalse, sF) :: chains) := happend
  obtain ⟨sites', hheld', hgrows, hsub, htested⟩ :=
    gvtstJump_spec sem (hindEq ▸ hind) happend c.op c.a c.b
  rw [← hr] at hheld' hgrows htested
  obtain ⟨hheld'', hgrows', hindEq', hlive, hon, hlead⟩ :=
    GenState.gsym_spec (hheld'.perm (.swap _ _ chains))
  refine ⟨sites', hheld'', ⟨hext.trans (hgrows.code.trans hgrows'.code), ?_⟩,
    fun k hk => hsub (List.mem_append_right _ hk), fun P hfinal a ha => ?_⟩
  · exact hgrows'.nocode.trans hgrows.nocode
  · have hfinal' := hgrows'.code.final hfinal
    refine ⟨fun k hk => ha k (hsub (List.mem_append_left _ hk)), hindEq' ▸ hlead P hfinal,
      fun m x hat => ?_⟩
    have hsT : c.jtrue ≠ 0 → r.2 ≠ 0 := fun hne => by
      have hne' := (Held.sites_ne_zero hheld).2 hne
      obtain ⟨k, hk⟩ := List.exists_mem_of_ne_nil _ hne'
      exact (hheld'.sites_ne_zero).1 (List.ne_nil_of_mem (hsub (List.mem_append_left _ hk)))
    cases hat with
    | here hpc hlive' hval =>
      subst hval
      obtain ⟨hjumps, hgoesOn⟩ :=
        htested P hfinal' a ha hlive' m (hpc.trans (congrArg some hindEq.symm))
      show Tested sem P _ a m (truth (c.op.holds m c.a c.b) != 0)
      rw [truth_ne_zero]
      exact ⟨hjumps, fun h => ⟨hindEq'.symm ▸ (hgoesOn h).1, hlive (hgoesOn h).2⟩⟩
    | jtrue hpc hchain hval =>
      subst hval
      refine ⟨fun _ => ⟨?_, hsT hchain⟩, fun h => absurd h.symm Bool.false_ne_true⟩
      rw [← hpc]
      exact .refl
    | jfalse hpc hchain hval =>
      subst hval
      refine ⟨fun h => absurd h Bool.false_ne_true, fun _ => ⟨?_, hon (hgrows.nocode.trans hn) hchain⟩⟩
      rw [← hpc]
      exact .refl

/-- **`gvtst`**: who has a value other than 0, or 0 if `inv`, takes a jump of the chain, and the others
go on behind the code. -/
theorem gvtst_spec {v : SValue} (hn : s.nocode = 0) (hind : s.code.ind ≠ 0) (inv : Bool)
    (hheld : v.Held s sT sF ((t, sites) :: chains)) :
    ∃ sites', Held (s.gvtst inv t v).1.code (((s.gvtst inv t v).2, sites') :: chains) ∧
      s.Grows (s.gvtst inv t v).1 ∧ sites ⊆ sites' ∧
      ∀ P, Final P (s.gvtst inv t v).1.code → ∀ a, Lead P sites' a →
        ∃ aT aF, Lead P sT aT ∧ Lead P sF aF ∧
          ∀ (m : Machine S) x, v.At s aT aF x m →
            Tested sem P (s.gvtst inv t v) a m (x != 0 ^^ inv) := by
  rw [SValue.Held, ← v.jtrue_toCmp, ← v.jfalse_toCmp] at hheld
  cases inv with
  | false =>
    obtain ⟨sites', hheld', hgrows, hsub, hspec⟩ := cmp_spec sem hn hind hheld rfl
    refine ⟨sites', hheld', hgrows, hsub, fun P hfinal a ha => ?_⟩
    obtain ⟨hT, hF, htested⟩ := hspec P hfinal a ha
    refine ⟨_, _, hT, hF, fun m x hat => ?_⟩
    have ht := htested m _ hat.toCmp
    rw [truth_ne_zero] at ht
    rw [Bool.xor_false]
    exact ht
  | true =>
    obtain ⟨sites', hheld', hgrows, hsub, hspec⟩ := cmp_spec (c := v.toCmp.not) sem hn hind
      (hheld.perm (.swap _ _ _)) rfl
    refine ⟨sites', hheld', hgrows, hsub, fun P hfinal a ha => ?_⟩
    obtain ⟨hF, hT, htested⟩ := hspec P hfinal a ha
    refine ⟨_, _, hT, hF, fun m x hat => ?_⟩
    have ht := htested m _ hat.toCmp.not
    rw [truth_ne_zero] at ht
    have hxor : (x != 0 ^^ true) = (truth (x != 0) == 0) := by
      cases x != 0 <;> rfl
    rw [hxor]
    exact ht

end Tests

/-! ## Values in registers, and values that are not needed -/

section Loads

variable {s : GenState L K} {chains : List (Nat × List Nat)} {sites sT sF : List Nat} {t : Nat}
  (sem : Sem L K S)

/-- The machine goes on behind the code, with `x` in the register `d`. -/
structure Loaded (P : Nat → Slot (Instr L K)) (s : GenState L K) (d : Nat) (m : Machine S)
    (x : BitVec 64) : Prop where
  reaches : Reaches sem P m
    { m with pc := some s.code.ind, regs := Function.update m.regs d x }
  live : s.dead = false

theorem loaded_li {P : Nat → Slot (Instr L K)} {m : Machine S} {d : Nat} {x : BitVec 64}
    (hlive : s.dead = false) (hfinal : Final P (s.o (.instr (.li d x))).code)
    (hpc : m.pc = some s.code.ind) : Loaded sem P (s.o (.instr (.li d x))) d m x := by
  refine ⟨?_, (GenState.dead_o _ _).trans hlive⟩
  rw [GenState.ind_o _ hlive]
  exact .single (step_instr sem hpc (GenState.final_o hlive rfl hfinal))

theorem loadJmp_spec (hn : s.nocode = 0) (d : Nat) (inv : Bool)
    (hheld : Held s.code ((t, sites) :: chains)) :
    Held (s.loadJmp d inv t).code chains ∧ s.Grows (s.loadJmp d inv t) ∧
      ∀ P, Final P (s.loadJmp d inv t).code → ∃ a, Lead P sites a ∧
        (∀ m : Machine S, m.pc = some a → t ≠ 0 →
          Loaded sem P (s.loadJmp d inv t) d m (truth !inv)) ∧
        ∀ m : Machine S, m.pc = some s.code.ind → s.dead = false →
          Loaded sem P (s.loadJmp d inv t) d m (truth inv) := by
  unfold GenState.loadJmp
  dsimp only
  generalize hs1 : s.o (.instr (.li d (truth inv))) = s1
  generalize hs2 : s1.o (.jump (s1.code.ind + 2)) = s2
  have hgrows1 : s.Grows s1 := hs1 ▸ GenState.grows_o _ _
  have hgrows2 : s1.Grows s2 := hs2 ▸ GenState.grows_o _ _
  have hheld2 : Held s2.code ((t, sites) :: chains) := by
    rw [← hs2, ← hs1]
    exact GenState.held_o _ (GenState.held_o _ hheld)
  obtain ⟨hheld3, hgrows3, hind3, hlive3, hon3, hlead⟩ := GenState.gsym_spec hheld2
  have hgrows4 := GenState.grows_o (s2.gsym t) (.instr (.li d (truth !inv)))
  refine ⟨GenState.held_o _ hheld3, (hgrows1.trans hgrows2).trans (hgrows3.trans hgrows4),
    fun P hfinal => ⟨s2.code.ind, hlead P (hgrows4.code.final hfinal), fun m hpc ht => ?_,
      fun m hpc hlive => ?_⟩⟩
  · have hlive := hon3 ((hgrows1.trans hgrows2).nocode.trans hn) ht
    exact loaded_li sem hlive hfinal (hind3 ▸ hpc)
  · have hlive1 : s1.dead = false := hs1 ▸ (GenState.dead_o _ _).trans hlive
    have hlive2 : s2.dead = false := hs2 ▸ (GenState.dead_o _ _).trans hlive1
    have hfinal2 : Final P s2.code := (hgrows3.code.trans hgrows4.code).final hfinal
    have hfinal1 : Final P s1.code := hgrows2.code.final hfinal2
    refine ⟨?_, (GenState.dead_o _ _).trans (hlive3 hlive2)⟩
    rw [GenState.ind_o _ (hlive3 hlive2), hind3]
    have hfirst := loaded_li sem hlive (hs1.symm ▸ hfinal1) hpc
    rw [hs1] at hfirst
    have hjump : P s1.code.ind = .jump (s1.code.ind + 2) :=
      GenState.final_o hlive1 rfl (hs2.symm ▸ hfinal2)
    refine hfirst.reaches.tail ?_
    rw [step_jump rfl hjump, ← hs2, GenState.ind_o _ hlive1]

/-- A value without jumps. -/
theorem SValue.Held.plain {v : SValue} (h : v.Held s sT sF chains) (hT : v.jtrue = 0)
    (hF : v.jfalse = 0) : sT = [] ∧ sF = [] ∧ Code.Held s.code chains :=
  ⟨not_not.1 fun hne => Code.Held.sites_ne_zero h |>.1 hne hT,
    not_not.1 fun hne => Code.Held.sites_ne_zero (Code.Held.tail h) |>.1 hne hF, h.tail.tail⟩

theorem SValue.At.plain {v : SValue} {aT aF : Nat} {m : Machine S} {x : BitVec 64}
    (h : v.At s aT aF x m) (hT : v.jtrue = 0) (hF : v.jfalse = 0) :
    m.pc = some s.code.ind ∧ s.dead = false ∧ x = v.val m := by
  cases h with
  | here hpc hlive hval => exact ⟨hpc, hlive, hval⟩
  | jtrue _ hchain => exact absurd hT hchain
  | jfalse _ hchain => exact absurd hF hchain

/-- A value without jumps that one instruction loads. -/
theorem gv_plain {v : SValue} {i : Instr L K} {d : Nat} (hheld : v.Held s sT sF chains)
    (hT : v.jtrue = 0) (hF : v.jfalse = 0) (hgv : s.gv d v = s.o (.instr i))
    (hi : ∀ (m : Machine S) pc, i.exec sem pc m = m.write (pc + 1) d (v.val m)) :
    Held (s.gv d v).code chains ∧ s.Grows (s.gv d v) ∧
      ∀ P, Final P (s.gv d v).code → ∃ aT aF, Lead P sT aT ∧ Lead P sF aF ∧
        ∀ (m : Machine S) x, v.At s aT aF x m → Loaded sem P (s.gv d v) d m x := by
  obtain ⟨rfl, rfl, hrest⟩ := hheld.plain hT hF
  rw [hgv]
  refine ⟨GenState.held_o _ hrest, GenState.grows_o _ _,
    fun P hfinal => ⟨0, 0, .nil, .nil, fun m x hat => ?_⟩⟩
  obtain ⟨hpc, hlive, rfl⟩ := hat.plain hT hF
  refine ⟨?_, (GenState.dead_o _ _).trans hlive⟩
  have hstep := step_instr sem hpc (GenState.final_o hlive rfl hfinal)
  rw [hi] at hstep
  rw [GenState.ind_o _ hlive]
  exact .single hstep

/-- A comparison with jumps. -/
theorem gv_jumps {c : Cmp} {d : Nat} (hn : s.nocode = 0) (hind : s.code.ind ≠ 0) (inv : Bool)
    (hheld : (SValue.cmp c).Held s sT sF chains) {s' : GenState L K}
    (hs' : s' = (s.gvtst inv 0 (.cmp c)).1.loadJmp d inv (s.gvtst inv 0 (.cmp c)).2) :
    Held s'.code chains ∧ s.Grows s' ∧
      ∀ P, Final P s'.code → ∃ aT aF, Lead P sT aT ∧ Lead P sF aF ∧
        ∀ (m : Machine S) x, (SValue.cmp c).At s aT aF x m → Loaded sem P s' d m x := by
  have hstart : (SValue.cmp c).Held s sT sF ((0, []) :: chains) :=
    hheld.cons_nil.perm ((List.Perm.swap _ _ _).trans (.cons _ (.swap _ _ _)))
  obtain ⟨sites', hheld', hgrows, -, htest⟩ := gvtst_spec sem hn hind inv hstart
  obtain ⟨hheld'', hgrows', hload⟩ := loadJmp_spec sem (hgrows.nocode.trans hn) d inv hheld'
  rw [← hs'] at hheld'' hgrows' hload
  refine ⟨hheld'', hgrows.trans hgrows', fun P hfinal => ?_⟩
  obtain ⟨a, ha, hjump, hon⟩ := hload P hfinal
  obtain ⟨aT, aF, hT, hF, htested⟩ := htest P (hgrows'.code.final hfinal) a ha
  refine ⟨aT, aF, hT, hF, fun m x hat => ?_⟩
  have hx : x = truth (x != 0) := by
    cases hat with
    | here _ _ hval =>
      rw [hval]
      exact congrArg truth (truth_ne_zero _).symm
    | jtrue _ _ hval =>
      rw [hval]
      rfl
    | jfalse _ _ hval =>
      rw [hval]
      rfl
  obtain ⟨hj, hg⟩ := htested m x hat
  cases hb : (x != 0 ^^ inv) with
  | true =>
    obtain ⟨hreach, hne⟩ := hj hb
    obtain ⟨hreach', hlive⟩ := hjump { m with pc := some a } rfl hne
    have hxv : truth (!inv) = x := by
      have hnot : (x != 0) = !inv := by
        revert hb
        cases x != 0 <;> cases inv <;> decide
      rw [hx, hnot]
    exact ⟨hreach.trans (hxv ▸ hreach'), hlive⟩
  | false =>
    obtain ⟨hreach, hlive⟩ := hg hb
    obtain ⟨hreach', hlive'⟩ := hon { m with pc := some _ } rfl hlive
    have hxv : truth inv = x := by
      have hsame : (x != 0) = inv := by
        revert hb
        cases x != 0 <;> cases inv <;> decide
      rw [hx, hsame]
    exact ⟨hreach.trans (hxv ▸ hreach'), hlive'⟩

/-- **`gv`**: the value is in the register `d`, whichever way it came. -/
theorem gv_spec {v : SValue} (hn : s.nocode = 0) (hind : s.code.ind ≠ 0) (d : Nat)
    (hheld : v.Held s sT sF chains) :
    Held (s.gv d v).code chains ∧ s.Grows (s.gv d v) ∧
      ∀ P, Final P (s.gv d v).code → ∃ aT aF, Lead P sT aT ∧ Lead P sF aF ∧
        ∀ (m : Machine S) x, v.At s aT aF x m → Loaded sem P (s.gv d v) d m x := by
  cases v with
  | const v => exact gv_plain sem hheld rfl rfl rfl fun _ _ => rfl
  | reg r =>
    by_cases hr : r = d
    · subst hr
      obtain ⟨rfl, rfl, hrest⟩ := hheld.plain rfl rfl
      have hgv : s.gv r (.reg r) = s := if_pos rfl
      rw [hgv]
      refine ⟨hrest, .refl s, fun P _ => ⟨0, 0, .nil, .nil, fun m x hat => ?_⟩⟩
      obtain ⟨hpc, hlive, rfl⟩ := hat.plain rfl rfl
      refine ⟨?_, hlive⟩
      have hself : Function.update m.regs r ((SValue.reg r).val m) = m.regs :=
        Function.update_eq_self r m.regs
      rw [← hpc, hself]
      exact .refl
    · exact gv_plain sem hheld rfl rfl (if_neg hr) fun _ _ => rfl
  | cmp c =>
    by_cases hjumps : c.jtrue ≠ 0 ∨ c.jfalse ≠ 0
    · exact gv_jumps sem hn hind (c.op == .always) hheld (if_pos hjumps)
    · obtain ⟨hT, hF⟩ := not_or.1 hjumps
      obtain ⟨op, a, b, jtrue, jfalse⟩ := c
      cases op with
      | never =>
        exact gv_plain sem hheld (not_not.1 hT) (not_not.1 hF) (if_neg hjumps) fun _ _ => rfl
      | always =>
        exact gv_plain sem hheld (not_not.1 hT) (not_not.1 hF) (if_neg hjumps) fun _ _ => rfl
      | test op =>
        exact gv_plain sem hheld (not_not.1 hT) (not_not.1 hF) (if_neg hjumps) fun _ _ => rfl

/-- **`vpop`**: all ways lead behind the code. -/
theorem vpop_spec {v : SValue} (hn : s.nocode = 0) (hheld : v.Held s sT sF chains) :
    Held (s.vpop v).code chains ∧ s.Grows (s.vpop v) ∧
      ∀ P, Final P (s.vpop v).code → ∃ aT aF, Lead P sT aT ∧ Lead P sF aF ∧
        ∀ (m : Machine S) x, v.At s aT aF x m →
          m.pc = some (s.vpop v).code.ind ∧ (s.vpop v).dead = false := by
  have hplain : v.jtrue = 0 → v.jfalse = 0 → s.vpop v = s →
      Held (s.vpop v).code chains ∧ s.Grows (s.vpop v) ∧
        ∀ P, Final P (s.vpop v).code → ∃ aT aF, Lead P sT aT ∧ Lead P sF aF ∧
          ∀ (m : Machine S) x, v.At s aT aF x m →
            m.pc = some (s.vpop v).code.ind ∧ (s.vpop v).dead = false := by
    intro hT hF hvpop
    obtain ⟨rfl, rfl, hrest⟩ := hheld.plain hT hF
    rw [hvpop]
    refine ⟨hrest, .refl s, fun P _ => ⟨0, 0, .nil, .nil, fun m x hat => ?_⟩⟩
    obtain ⟨hpc, hlive, -⟩ := hat.plain hT hF
    exact ⟨hpc, hlive⟩
  cases v with
  | const v => exact hplain rfl rfl rfl
  | reg r => exact hplain rfl rfl rfl
  | cmp c =>
    obtain ⟨hheld1, hgrows1, hind1, hlive1, hon1, hlead1⟩ := GenState.gsym_spec hheld
    obtain ⟨hheld2, hgrows2, hind2, hlive2, hon2, hlead2⟩ := GenState.gsym_spec hheld1
    have hindEq : (s.vpop (.cmp c)).code.ind = s.code.ind := hind2.trans hind1
    refine ⟨hheld2, hgrows1.trans hgrows2, fun P hfinal => ⟨s.code.ind, s.code.ind,
      hlead1 P (hgrows2.code.final hfinal), hind1 ▸ hlead2 P hfinal, fun m x hat => ?_⟩⟩
    rw [hindEq]
    cases hat with
    | here hpc hlive _ => exact ⟨hpc, hlive2 (hlive1 hlive)⟩
    | jtrue hpc hchain => exact ⟨hpc, hlive2 (hon1 hn hchain)⟩
    | jfalse hpc hchain => exact ⟨hpc, hon2 (hgrows1.nocode.trans hn) hchain⟩

end Loads

end TccRiscv64.Gen.Flow
