import TccRiscv64.Gen.ValueStack

set_option autoImplicit false

/-! # What emitted code does to registers

Code that loads a value writes the register it is loaded into and nothing else; code that saves a
register writes memory, and the scratch register `t0`. -/

namespace TccRiscv64.Gen

open TccRiscv64.Isa

/-! ## Canonical register contents -/

/-- The low word of a register. -/
def lowWord (x : BitVec 64) : BitVec 32 := x.setWidth 32

/-- A register content is the sign extension of its low word. -/
def Canonical (x : BitVec 64) : Prop := (lowWord x).signExtend 64 = x

instance (x : BitVec 64) : Decidable (Canonical x) := inferInstanceAs (Decidable (_ = _))

theorem lowWord_signExtend (w : BitVec 32) : lowWord (w.signExtend 64) = w := by
  apply BitVec.eq_of_getLsbD_eq
  intro i hi
  simp only [lowWord, BitVec.getLsbD_setWidth, BitVec.getLsbD_signExtend]
  grind

theorem canonical_signExtend (w : BitVec 32) : Canonical (w.signExtend 64) := by
  rw [Canonical, lowWord_signExtend]

/-- A narrower number stays canonical under either extension. -/
theorem canonical_signExtend_of_lt {n : Nat} (hn : n ≤ 32) (v : BitVec n) :
    Canonical (v.signExtend 64) := by
  have h : v.signExtend 64 = (v.signExtend 32).signExtend 64 := by
    apply BitVec.eq_of_getLsbD_eq
    intro i hi
    simp only [BitVec.getLsbD_signExtend, BitVec.msb_signExtend]
    grind
  rw [h]
  exact canonical_signExtend _

theorem canonical_setWidth_of_lt {n : Nat} (hn : n < 32) (v : BitVec n) :
    Canonical (v.setWidth 64) := by
  have h : v.setWidth 64 = (v.setWidth 32).signExtend 64 := by
    apply BitVec.eq_of_getLsbD_eq
    intro i hi
    simp only [BitVec.getLsbD_signExtend, BitVec.getLsbD_setWidth, BitVec.msb_setWidth]
    grind
  rw [h]
  exact canonical_signExtend _

/-! ## Words that write one register -/

/-- Executing `w` writes the register `rd` and nothing else. -/
def Sets (rd : XReg) (w : Word) : Prop := ∀ m, ∃ v, execWord m w = some (m.setReg rd v)

/-- All registers but `rd`, and the memory, are the same. -/
def SameBut (rd : XReg) (m m' : Machine) : Prop :=
  m'.mem = m.mem ∧ ∀ x, x ≠ rd → m'.reg x = m.reg x

theorem SameBut.refl (rd : XReg) (m : Machine) : SameBut rd m m := ⟨rfl, fun _ _ => rfl⟩

theorem SameBut.trans {rd : XReg} {m m' m'' : Machine} (h : SameBut rd m m')
    (h' : SameBut rd m' m'') : SameBut rd m m'' :=
  ⟨h'.1.trans h.1, fun x hx => (h'.2 x hx).trans (h.2 x hx)⟩

theorem sameBut_setReg (m : Machine) (rd : XReg) (v : BitVec 64) : SameBut rd m (m.setReg rd v) :=
  ⟨rfl, fun _ hx => m.reg_setReg_of_ne hx v⟩

/-- Code all of whose words write `rd`. -/
theorem run_of_sets {rd : XReg} {ws : List Word} (h : ∀ w ∈ ws, Sets rd w) (m : Machine) :
    ∃ m', run ws m = some m' ∧ SameBut rd m m' := by
  induction ws generalizing m with
  | nil => exact ⟨m, rfl, .refl rd m⟩
  | cons w ws ih =>
    obtain ⟨v, hw⟩ := h w List.mem_cons_self m
    obtain ⟨m', hrun, hsame⟩ := ih (fun w' hw' => h w' (List.mem_cons_of_mem w hw')) (m.setReg rd v)
    refine ⟨m', ?_, (sameBut_setReg m rd v).trans hsame⟩
    rw [← List.singleton_append, run_append, run_singleton, hw]
    exact hrun

theorem ei_eq_some {opcode : BitVec 7} {func3 : BitVec 3} {rd rs1 : XReg} {imm : BitVec 32} {w : Word}
    (h : ei opcode func3 rd rs1 imm = some w) : w = eiu opcode func3 rd rs1 imm := by
  unfold ei at h
  split at h
  · exact (Option.some.inj h).symm
  · cases h

theorem sets_oLui (rd : XReg) (fc : BitVec 32) : Sets rd (oLui rd fc) :=
  fun m => ⟨_, execWord_oLui m rd fc⟩

theorem sets_addi {rd rs1 : XReg} {imm : BitVec 32} {w : Word}
    (h : ei 0x13#7 0#3 rd rs1 imm = some w) : Sets rd w := by
  rw [ei_eq_some h]
  exact fun m => ⟨_, execWord_addi m false rd rs1 imm⟩

theorem sets_slli {rd rs1 : XReg} {imm : BitVec 32} {w : Word} (himm : imm.toNat < 64)
    (h : ei 0x13#7 1#3 rd rs1 imm = some w) : Sets rd w := by
  rw [ei_eq_some h]
  exact fun m => ⟨_, execWord_slli m false rd rs1 himm⟩

theorem sets_srli {rd rs1 : XReg} {imm : BitVec 32} {w : Word} (himm : imm.toNat < 64)
    (h : ei 0x13#7 5#3 rd rs1 imm = some w) : Sets rd w := by
  rw [ei_eq_some h]
  exact fun m => ⟨_, execWord_srli m false rd rs1 himm⟩

theorem loadFunc3_ne (t : IntType) : loadFunc3 t ≠ 7#3 := by
  rcases t with _ | (_ | _) | (_ | _) | (_ | _) | (_ | _) | _ <;> decide

theorem sets_er {rd rs1 rs2 : XReg} {func3 : BitVec 3} {func7 : BitVec 7} {op : AluOp}
    (hop : aluOpOf func3 func7 = some op) : Sets rd (er 0x33#7 func3 rd rs1 rs2 func7) :=
  fun m => ⟨_, execWord_er_alu m false rd rs1 rs2 hop (fun h => absurd h (by decide))⟩

theorem loadSymofs_sets {r : Reg} {ofs : BitVec 64} {ws : List Word} {br : XReg} {fc : BitVec 32}
    (h : loadSymofs (some r) ofs = some (ws, br, fc)) : ∀ w ∈ ws, Sets (ireg r) w := by
  simp only [loadSymofs] at h
  split at h
  · cases h
  · split at h
    · cases h
      simp only [List.mem_cons, List.not_mem_nil, or_false, forall_eq_or_imp, forall_eq]
      exact ⟨sets_oLui _ _, sets_er rfl⟩
    · cases h
      simp

theorem loadLargeConstant_sets {rr : XReg} {fc pi : BitVec 32} {ws : List Word}
    (h : loadLargeConstant rr fc pi = some ws) : ∀ w ∈ ws, Sets rr w := by
  obtain ⟨w1, h1, h⟩ := Option.bind_eq_some_iff.1 h
  obtain ⟨w2, h2, h⟩ := Option.bind_eq_some_iff.1 h
  obtain ⟨w3, h3, h⟩ := Option.bind_eq_some_iff.1 h
  obtain ⟨w4, h4, h⟩ := Option.bind_eq_some_iff.1 h
  obtain ⟨w5, h5, h⟩ := Option.bind_eq_some_iff.1 h
  obtain ⟨w6, h6, h⟩ := Option.bind_eq_some_iff.1 h
  cases h
  simp only [List.mem_cons, List.not_mem_nil, or_false, forall_eq_or_imp, forall_eq]
  exact ⟨sets_oLui _ _, sets_addi h1, sets_slli (by decide) h2, sets_addi h3,
    sets_slli (by decide) h4, sets_addi h5, sets_slli (by decide) h6⟩

/-! ## Constants -/

theorem low12_setWidth (fc : BitVec 32) : (low12 fc).setWidth 12 = fc.setWidth 12 := by
  apply BitVec.eq_of_getLsbD_eq
  intro i hi
  simp only [low12, BitVec.getLsbD_setWidth, BitVec.getLsbD_signExtend]
  grind

theorem lowWord_signExtend12 (v : BitVec 12) : lowWord (v.signExtend 64) = v.signExtend 32 := by
  apply BitVec.eq_of_getLsbD_eq
  intro i hi
  simp only [lowWord, BitVec.getLsbD_setWidth, BitVec.getLsbD_signExtend]
  grind

theorem toNat_low12 (fc : BitVec 32) :
    (low12 fc).toNat = if fc.toNat % 4096 < 2048 then fc.toNat % 4096
      else fc.toNat % 4096 + (2 ^ 32 - 4096) := by
  rw [low12, BitVec.toNat_signExtend]
  simp only [BitVec.toNat_setWidth, BitVec.msb_eq_decide, decide_eq_true_eq]
  split <;> split <;> omega

theorem toNat_and_upper (a : BitVec 32) :
    (a &&& 0xfffff000#32).toNat = a.toNat / 4096 * 4096 := by
  have h : a &&& 0xfffff000#32 = (a >>> 12) <<< 12 := by
    apply BitVec.eq_of_getLsbD_eq
    intro i hi
    simp only [BitVec.getLsbD_and, BitVec.getLsbD_shiftLeft, BitVec.getLsbD_ushiftRight]
    interval_cases i <;> simp
  rw [h, BitVec.toNat_shiftLeft, BitVec.toNat_ushiftRight, Nat.shiftRight_eq_div_pow,
    Nat.shiftLeft_eq]
  have := a.isLt
  omega

/-- `lui` with the rounded upper part and `addi` with the lower one give back the number. -/
theorem upper_add_low12 (fc : BitVec 32) :
    ((0x800#32 + fc) &&& 0xfffff000#32) + low12 fc = fc := by
  apply BitVec.eq_of_toNat_eq
  have := fc.isLt
  rw [BitVec.toNat_add, toNat_and_upper, toNat_low12, BitVec.toNat_add]
  simp only [BitVec.toNat_ofNat]
  split <;> omega

theorem fits12_iff (fc : BitVec 32) : Fits12 fc ↔ low12 fc = fc := by
  have := fc.isLt
  rw [Fits12, ← BitVec.toNat_inj, ← BitVec.toNat_inj, toNat_low12, BitVec.toNat_ushiftRight,
    BitVec.toNat_add, Nat.shiftRight_eq_div_pow]
  simp only [BitVec.toNat_ofNat]
  split <;> omega

/-- A constant of a type of at most 32 bits: extended either way from its low word. -/
def FitsWord (c : BitVec 64) : Prop :=
  (lowWord c).signExtend 64 = c ∨ (lowWord c).setWidth 64 = c

instance (c : BitVec 64) : Decidable (FitsWord c) := inferInstanceAs (Decidable (_ ∨ _))

/-- Such a constant is never loaded in two halves. -/
theorem FitsWord.high {c : BitVec 64} (h : FitsWord c) (hsign : (c.setWidth 32).signExtend 64 ≠ c) :
    c.extractLsb' 32 32 = 0#32 := by
  rcases h with h | h
  · exact absurd h hsign
  · rw [← h]
    apply BitVec.eq_of_getLsbD_eq
    intro i hi
    simp only [BitVec.getLsbD_extractLsb', BitVec.getLsbD_setWidth, lowWord]
    grind

theorem addiw_result (x : BitVec 64) (fc : BitVec 32) :
    AluOp.add.result true x (((low12 fc).setWidth 12).signExtend 64)
      = (lowWord x + low12 fc).signExtend 64 := by
  have h : lowWord (((low12 fc).setWidth 12).signExtend 64) = low12 fc := by
    rw [lowWord_signExtend12, low12_setWidth]
    rfl
  simp only [AluOp.result, if_true, wordForm, AluOp.eval]
  exact congrArg _ (congrArg _ h)

/-- `lui` and `addiw` load any 32-bit number, sign-extended. -/
theorem loadLow_word {rr : XReg} (hrr : rr ≠ 0#5) {fc : BitVec 32} {ws : List Word}
    (h : loadLow rr 0#5 8#7 fc = some ws) (m : Machine) :
    ∃ m', run ws m = some m' ∧ SameBut rr m m' ∧ m'.reg rr = fc.signExtend 64 := by
  simp only [loadLow, ne_eq, BitVec.reduceEq, not_false_eq_true, or_true, if_true] at h
  obtain ⟨w, hw, rfl⟩ := Option.map_eq_some_iff.1 h
  have hw := ei_eq_some hw
  change _ = eiu (0x13#7 ||| wordBit true) _ _ _ _ at hw
  by_cases hfits : Fits12 fc
  · rw [if_pos hfits] at hw ⊢
    refine ⟨_, (run_singleton w m).trans (hw ▸ execWord_addi ..), sameBut_setReg .., ?_⟩
    rw [Machine.reg_setReg_self m hrr, addiw_result, Machine.reg_zero, (fits12_iff _).1 hfits]
    congr 1
    exact BitVec.zero_add _
  · rw [if_neg hfits] at hw ⊢
    have haddi : ∀ m1, execWord m1 w = _ := fun m1 =>
      hw ▸ execWord_addi m1 true rr rr (low12 fc)
    refine ⟨_, run_snoc ((run_singleton _ m).trans (execWord_oLui m rr fc)) (haddi _), (sameBut_setReg m rr _).trans (sameBut_setReg _ rr _), ?_⟩
    rw [Machine.reg_setReg_self _ hrr, addiw_result, Machine.reg_setReg_self _ hrr,
      lowWord_signExtend, upper_add_low12]

/-- **A constant of at most 32 bits** is loaded in canonical form. -/
theorem loadConst_word {rr : XReg} (hrr : rr ≠ 0#5) {t : IntType} {c : BitVec 64} {ws : List Word}
    (ht : t.isLlong = false) (hc : FitsWord c) (h : loadConst rr t c = some ws) (m : Machine) :
    ∃ m', run ws m = some m' ∧ SameBut rr m m' ∧ m'.reg rr = (lowWord c).signExtend 64 := by
  simp only [loadConst, ht, Bool.false_eq_true, if_false] at h
  split at h
  · exact loadLow_word hrr h m
  · next hsign =>
    rw [if_neg (by simpa using hc.high hsign)] at h
    exact loadLow_word hrr h m

theorem loadLow_sets {rr rb : XReg} {do32bit : BitVec 7} {fc : BitVec 32} {ws : List Word}
    (h32 : do32bit = 0#7 ∨ do32bit = 8#7) (h : loadLow rr rb do32bit fc = some ws) :
    ∀ w ∈ ws, Sets rr w := by
  have hlui : ∀ w ∈ (if Fits12 fc then [] else [oLui rr fc]), Sets rr w := by
    split
    · simp
    · simpa using sets_oLui rr fc
  simp only [loadLow] at h
  generalize (if Fits12 fc then [] else [oLui rr fc]) = ws1 at hlui h
  generalize (if Fits12 fc then rb else rr) = rb at h
  split at h
  · obtain ⟨w', hw', rfl⟩ := Option.map_eq_some_iff.1 h
    rw [List.forall_mem_append, List.forall_mem_singleton]
    refine ⟨hlui, ?_⟩
    rcases h32 with rfl | rfl
    · exact sets_addi hw'
    · rw [ei_eq_some hw']
      exact fun m => ⟨_, execWord_addi m true _ _ _⟩
  · cases h
    exact hlui

theorem loadConst_sets {rr : XReg} {t : IntType} {c : BitVec 64} {ws : List Word}
    (h : loadConst rr t c = some ws) : ∀ w ∈ ws, Sets rr w := by
  simp only [loadConst] at h
  split at h
  · exact loadLow_sets (Or.inr rfl) h
  · split at h
    · obtain ⟨ws1, h1, h⟩ := Option.bind_eq_some_iff.1 h
      obtain ⟨ws2, h2, h⟩ := Option.bind_eq_some_iff.1 h
      cases h
      rw [List.forall_mem_append]
      exact ⟨loadLargeConstant_sets h1, loadLow_sets (Or.inl rfl) h2⟩
    · split at h
      · obtain ⟨ws1, h1, h⟩ := Option.bind_eq_some_iff.1 h
        obtain ⟨w1, hw1, h⟩ := Option.bind_eq_some_iff.1 h
        obtain ⟨w2, hw2, h⟩ := Option.bind_eq_some_iff.1 h
        cases h
        rw [List.forall_mem_append]
        refine ⟨loadLow_sets (Or.inr rfl) h1, ?_⟩
        simpa using ⟨sets_slli (by decide) hw1, sets_srli (by decide) hw2⟩
      · exact loadLow_sets (Or.inr rfl) h

/-! ## Comparisons -/

theorem canonical_ofBool (b : Bool) : Canonical (ofBool b) := by
  cases b <;> decide

/-- `sltu d, x0, d` and `sltiu d, d, 1` tell whether a register is zero. -/
theorem sltu_zero (x : BitVec 64) : AluOp.sltu.result false 0#64 x = ofBool (x != 0#64) := by
  simp only [AluOp.result, Bool.false_eq_true, if_false, AluOp.eval]
  congr 1
  rw [Bool.eq_iff_iff]
  simp only [BitVec.ult, decide_eq_true_eq, bne_iff_ne, ne_eq, ← BitVec.toNat_inj,
    BitVec.toNat_ofNat]
  omega

theorem sltu_one (x : BitVec 64) : AluOp.sltu.result false x 1#64 = ofBool (x == 0#64) := by
  simp only [AluOp.result, Bool.false_eq_true, if_false, AluOp.eval]
  congr 1
  rw [Bool.eq_iff_iff]
  simp only [BitVec.ult, decide_eq_true_eq, beq_iff_eq, ← BitVec.toNat_inj, BitVec.toNat_ofNat]
  omega

theorem sub_eq_zero_iff (x y : BitVec 64) : (x - y == 0#64) = (x == y) := by
  rw [Bool.eq_iff_iff, beq_iff_eq, beq_iff_eq]
  exact sub_eq_zero

theorem xor_ofBool (b : Bool) : AluOp.xor.result false (ofBool b) 1#64 = ofBool (!b) := by
  cases b <;> decide

/-- `slt` or `sltu`, and an `xori` if the result is to be complemented. -/
theorem run_slt {rr : XReg} (hrr : rr ≠ 0#5) {func3 : BitVec 3} {op : AluOp}
    (hop : aluOpOf func3 0#7 = some op) {b : BitVec 64 → BitVec 64 → Bool}
    (hb : ∀ x y, op.result false x y = ofBool (b x y)) {x y : XReg} (inv : Bool) {ws : List Word}
    (h : (if inv then do some [er 0x33#7 func3 rr x y 0#7, ← ei 0x13#7 4#3 rr rr 1#32]
      else some [er 0x33#7 func3 rr x y 0#7]) = some ws) (m : Machine) :
    ∃ m', run ws m = some m' ∧ SameBut rr m m' ∧
      m'.reg rr = ofBool (inv ^^ b (m.reg x) (m.reg y)) := by
  have hslt : execWord m (er 0x33#7 func3 rr x y 0#7)
      = some (m.setReg rr (ofBool (b (m.reg x) (m.reg y)))) := by
    rw [← hb]
    exact execWord_er_alu m false rr x y hop (fun h => absurd h (by decide))
  cases inv with
  | false =>
    cases h
    refine ⟨_, (run_singleton _ m).trans hslt, sameBut_setReg .., ?_⟩
    rw [Machine.reg_setReg_self m hrr, Bool.false_xor]
  | true =>
    rw [if_pos rfl] at h
    obtain ⟨w, hw, h⟩ := Option.bind_eq_some_iff.1 h
    cases h
    have hxori : execWord (m.setReg rr (ofBool (b (m.reg x) (m.reg y)))) w = _ :=
      ei_eq_some hw ▸ execWord_imm _ rr rr 1#32 (by decide) (by decide)
    refine ⟨_, run_snoc ((run_singleton _ m).trans hslt) hxori, (sameBut_setReg m rr _).trans (sameBut_setReg _ rr _), ?_⟩
    rw [Machine.reg_setReg_self _ hrr, Machine.reg_setReg_self _ hrr]
    exact (xor_ofBool _).trans (by rw [Bool.true_xor])

/-- `sub`, unless the register holds the difference from zero already. -/
theorem run_sub {rr : XReg} (hrr : rr ≠ 0#5) (a b : XReg) (m : Machine) :
    ∃ m', run (if rr ≠ a ∨ b ≠ 0#5 then [er 0x33#7 0#3 rr a b 0x20#7] else []) m = some m' ∧
      SameBut rr m m' ∧ m'.reg rr = m.reg a - m.reg b := by
  split
  · refine ⟨_, (run_singleton _ m).trans (execWord_er_alu m false rr a b rfl (by decide)),
      sameBut_setReg .., ?_⟩
    rw [Machine.reg_setReg_self m hrr]
    rfl
  · next h =>
    obtain ⟨rfl, rfl⟩ : rr = a ∧ b = 0#5 := by simpa using h
    exact ⟨m, rfl, .refl _ _, by rw [Machine.reg_zero, BitVec.sub_zero]⟩

/-- **The truth value of a comparison** is what `load` leaves in the register. -/
theorem loadCmp_holds {rr : XReg} (hrr : rr ≠ 0#5) {op : Cond} {a b : XReg} {ws : List Word}
    (h : loadCmp rr op a b = some ws) (m : Machine) :
    ∃ m', run ws m = some m' ∧ SameBut rr m m' ∧
      m'.reg rr = ofBool (op.holds (m.reg a) (m.reg b)) := by
  have hslt : ∀ x y, AluOp.slt.result false x y = ofBool (x.slt y) := fun _ _ => rfl
  have hsltu : ∀ x y, AluOp.sltu.result false x y = ofBool (x.ult y) := fun _ _ => rfl
  cases op with
  | ult => simpa [Cond.holds] using run_slt hrr rfl hsltu false h m
  | uge => simpa [Cond.holds] using run_slt hrr rfl hsltu true h m
  | ule => simpa [Cond.holds, BitVec.ule_eq_not_ult] using run_slt hrr rfl hsltu true h m
  | ugt => simpa [Cond.holds, BitVec.ule_eq_not_ult] using run_slt hrr rfl hsltu false h m
  | lt => simpa [Cond.holds] using run_slt hrr rfl hslt false h m
  | ge => simpa [Cond.holds] using run_slt hrr rfl hslt true h m
  | le => simpa [Cond.holds, BitVec.sle_eq_not_slt] using run_slt hrr rfl hslt true h m
  | gt => simpa [Cond.holds, BitVec.sle_eq_not_slt] using run_slt hrr rfl hslt false h m
  | ne =>
    simp only [loadCmp, true_or, if_true, Option.some.injEq] at h
    subst h
    obtain ⟨m1, hrun, hsame, hreg⟩ := run_sub hrr a b m
    have hlast : execWord m1 (er 0x33#7 3#3 rr 0#5 rr 0#7)
        = some (m1.setReg rr (AluOp.sltu.result false 0#64 (m1.reg rr))) :=
      execWord_er_alu m1 false rr 0#5 rr rfl (by decide)
    refine ⟨_, run_snoc hrun hlast, hsame.trans (sameBut_setReg m1 rr _), ?_⟩
    rw [Machine.reg_setReg_self _ hrr, sltu_zero, hreg]
    simp only [bne, sub_eq_zero_iff, Cond.holds]
  | eq =>
    simp only [loadCmp, or_true, if_true, reduceCtorEq, if_false] at h
    obtain ⟨w, hw, h⟩ := Option.bind_eq_some_iff.1 h
    cases h
    obtain ⟨m1, hrun, hsame, hreg⟩ := run_sub hrr a b m
    have hlast : execWord m1 w
        = some (m1.setReg rr (AluOp.sltu.result false (m1.reg rr) 1#64)) := by
      rw [ei_eq_some hw]
      exact execWord_imm m1 rr rr 1#32 (by decide) (by decide)
    refine ⟨_, run_snoc hrun hlast, hsame.trans (sameBut_setReg m1 rr _), ?_⟩
    rw [Machine.reg_setReg_self _ hrr, sltu_one, hreg, sub_eq_zero_iff, Cond.holds]

/-! ## Loads -/

theorem ireg_ne_zero (r : Reg) : ireg r ≠ 0#5 := by
  revert r
  decide

theorem ireg_inj {r r' : Reg} : ireg r = ireg r' ↔ r = r' := by
  revert r r'
  decide

theorem sets_loadPtr {rd rs1 : XReg} {imm : BitVec 32} {w : Word}
    (h : ei 0x03#7 3#3 rd rs1 imm = some w) : Sets rd w := by
  rw [ei_eq_some h]
  exact fun m => ⟨_, execWord_load m rd rs1 imm (by decide)⟩

/-- At most 32 bits, extended from memory. -/
theorem canonical_loadExt {n : Nat} {signed : Bool} (hn : n ≤ 4) (h4 : n = 4 → signed = true)
    (mem : Ram) (a : BitVec 64) : Canonical (mem.loadExt a n signed) := by
  unfold Ram.loadExt
  split
  · exact canonical_signExtend_of_lt (by omega) _
  · next h => exact canonical_setWidth_of_lt (by grind) _

theorem loadFunc3_narrow {t : IntType} (ht : t.size ≤ 4) :
    accessBytes (loadFunc3 t) ≤ 4 ∧
      (accessBytes (loadFunc3 t) = 4 → accessSigned (loadFunc3 t) = true) := by
  rcases t with _ | (_ | _) | (_ | _) | (_ | _) | (_ | _) | _ <;>
    first
    | exact absurd ht (by decide)
    | decide

/-- Code that ends in a load of a value of the given type. -/
theorem run_load {r : Reg} {t : IntType} {ws : List Word} (hws : ∀ w ∈ ws, Sets (ireg r) w)
    {rs1 : XReg} {imm : BitVec 32} {w : Word} (h : ei 0x03#7 (loadFunc3 t) (ireg r) rs1 imm = some w)
    (m : Machine) :
    ∃ m', run (ws ++ [w]) m = some m' ∧ SameBut (ireg r) m m' ∧
      (t.size ≤ 4 → Canonical (m'.reg (ireg r))) := by
  obtain ⟨m1, hrun, hsame⟩ := run_of_sets hws m
  have hload : ∀ m, execWord m w = _ := fun m =>
    ei_eq_some h ▸ execWord_load m (ireg r) rs1 imm (loadFunc3_ne t)
  refine ⟨_, run_snoc hrun (hload m1), hsame.trans (sameBut_setReg m1 _ _), fun ht => ?_⟩
  rw [Machine.reg_setReg_self _ (ireg_ne_zero r)]
  exact canonical_loadExt (loadFunc3_narrow ht).1 (loadFunc3_narrow ht).2 _ _

/-- What an entry of the value stack must satisfy for its value to be loaded in canonical form:
constants fit their type, and an address in the frame is not taken for a narrower number. -/
def Loadable (sv : SValue) : Prop :=
  match sv.loc with
  | .const c => sv.type.size ≤ 4 → FitsWord c
  | .local _ => ¬ sv.type.size ≤ 4
  | _ => True

/-- **Loading** writes the register only; a value of at most 32 bits is canonical there. -/
theorem load_spec {r : Reg} {sv : SValue} {ws : List Word} (h : load r sv = some ws)
    (hnot : ∀ v, sv.loc ≠ .reg v) (hsv : Loadable sv) (m : Machine) :
    ∃ m', run ws m = some m' ∧ SameBut (ireg r) m m' ∧
      (sv.type.size ≤ 4 → Canonical (m'.reg (ireg r))) := by
  obtain ⟨t, loc⟩ := sv
  cases loc with
  | reg v => exact absurd rfl (hnot v)
  | const c =>
    by_cases ht : t.size ≤ 4
    · have hllong : t.isLlong = false := by
        rcases t with _ | _ | _ | _ | _ | _ <;> first | rfl | exact absurd ht (by simp [IntType.size])
      obtain ⟨m', hrun, hsame, hreg⟩ := loadConst_word (ireg_ne_zero r) hllong (hsv ht) h m
      refine ⟨m', hrun, hsame, fun _ => ?_⟩
      rw [hreg]
      exact canonical_signExtend _
    · obtain ⟨m', hrun, hsame⟩ := run_of_sets (loadConst_sets h) m
      exact ⟨m', hrun, hsame, fun h => absurd h ht⟩
  | cmp op a b =>
    obtain ⟨m', hrun, hsame, hreg⟩ := loadCmp_holds (ireg_ne_zero r) h m
    refine ⟨m', hrun, hsame, fun _ => ?_⟩
    rw [hreg]
    exact canonical_ofBool _
  | «local» ofs =>
    obtain ⟨⟨ws1, br, fc⟩, hofs, h⟩ := Option.bind_eq_some_iff.1 h
    obtain ⟨w, hw, h⟩ := Option.bind_eq_some_iff.1 h
    cases h
    have hsets : ∀ w' ∈ ws1 ++ [w], Sets (ireg r) w' := by
      rw [List.forall_mem_append, List.forall_mem_singleton]
      exact ⟨loadSymofs_sets hofs, sets_addi hw⟩
    obtain ⟨m', hrun, hsame⟩ := run_of_sets hsets m
    exact ⟨m', hrun, hsame, fun h => absurd h hsv⟩
  | lvalConst c =>
    simp only [load] at h
    split at h
    · obtain ⟨ws1, h1, h⟩ := Option.bind_eq_some_iff.1 h
      obtain ⟨w, hw, h⟩ := Option.bind_eq_some_iff.1 h
      cases h
      exact run_load (loadLargeConstant_sets h1) hw m
    · obtain ⟨w, hw, h⟩ := Option.bind_eq_some_iff.1 h
      cases h
      exact run_load (List.forall_mem_singleton.2 (sets_oLui _ _)) hw m
  | lvalReg v =>
    simp only [load] at h
    obtain ⟨w, hw, h⟩ := Option.bind_eq_some_iff.1 h
    cases h
    exact run_load (List.forall_mem_nil _) hw m
  | lvalLocal ofs =>
    obtain ⟨⟨ws1, br, fc⟩, hofs, h⟩ := Option.bind_eq_some_iff.1 h
    obtain ⟨w, hw, h⟩ := Option.bind_eq_some_iff.1 h
    cases h
    exact run_load (loadSymofs_sets hofs) hw m
  | lvalLlocal ofs =>
    obtain ⟨⟨ws1, br, fc⟩, hofs, h⟩ := Option.bind_eq_some_iff.1 h
    obtain ⟨w1, hw1, h⟩ := Option.bind_eq_some_iff.1 h
    obtain ⟨w2, hw2, h⟩ := Option.bind_eq_some_iff.1 h
    cases h
    have hsets : ∀ w' ∈ ws1 ++ [w1], Sets (ireg r) w' := by
      rw [List.forall_mem_append, List.forall_mem_singleton]
      exact ⟨loadSymofs_sets hofs, sets_loadPtr hw1⟩
    have := run_load hsets hw2 m
    rwa [List.append_assoc] at this

end TccRiscv64.Gen
