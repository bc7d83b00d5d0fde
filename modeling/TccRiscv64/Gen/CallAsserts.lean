import TccRiscv64.Gen.CallAgree

set_option autoImplicit false

/-! # The assertions of calls

Where the assertions of `gfunc_call` and `gfunc_prolog` can fail. Those of the second and third loop
of `gfunc_call` never do: at most one argument is split, and the registers are in range. What is
left is a second piece far behind the first one (the type must be packed around an array of length 0
then), and in `gfunc_prolog` a parameter that is split between the last integer register and a stack
whose last parameter is no multiple of 8 bytes. A type has its first bytes at its start, as
`struct_layout` lays it out (`CType.Leads`). -/

namespace TccRiscv64.Gen

/-! ## Types with bytes at their start -/

mutual

/-- What has bytes first is at the start. -/
def CType.Leads : CType → Prop
  | .scalar _ => True
  | .struct _ size _ fields => fields.Leads ∧ (fields.Empty → size = 0)
  | .array elem _ => elem.Leads

def Fields.Leads : Fields → Prop
  | .nil => True
  | .cons ofs type rest => ofs = 0 ∧ type.Leads ∧ (type.size = 0 → rest.Leads)

/-- No field has bytes. -/
def Fields.Empty : Fields → Prop
  | .nil => True
  | .cons _ type rest => type.size = 0 ∧ rest.Empty

end

/-! ## The pieces of such a type -/

theorem Rc.push_first {rc : Rc} (c : RegClass) (f : FieldOf) (hn : rc.n ≠ 0) :
    (rc.push c f).n ≠ 0 ∧ (rc.push c f).f1 = rc.f1 := by
  rw [Rc.push, if_neg hn]
  split
  · exact ⟨show (2 : Int) ≠ 0 by decide, rfl⟩
  · exact ⟨show (2 : Int) ≠ 0 by decide, rfl⟩

theorem Rc.giveUp_first (rc : Rc) : rc.giveUp.n ≠ 0 ∧ rc.giveUp.f1 = rc.f1 :=
  ⟨show (-1 : Int) ≠ 0 by decide, rfl⟩

/-- The two elements of an array, after the first one. -/
theorem regPassRec_array {elem : CType} {c : Nat} {rc rc' : Rc} {ofs : Nat}
    (h : regPassRec (.array elem (some c)) rc ofs = some rc') :
    rc' = rc.giveUp ∨ ∃ rc1, regPassRec elem rc ofs = some rc1 ∧
      (rc' = rc1 ∧ c ≠ 2 ∨ rc' = rc1.giveUp ∨
        rc1.n ≠ 0 ∧ c = 2 ∧ rc' = rc1.push .float ⟨ofs + elem.size, elem.btype⟩) := by
  rw [regPassRec] at h
  split at h
  · exact Or.inl (Option.some.inj h).symm
  · obtain ⟨rc1, helem, h⟩ := Option.bind_eq_some_iff.1 h
    refine Or.inr ⟨rc1, helem, ?_⟩
    by_cases hfull : rc1.n > 2 ∨ rc1.n = 2 ∧ c > 1
    · rw [if_pos hfull] at h
      exact Or.inr (Or.inl (Option.some.inj h).symm)
    · rw [if_neg hfull] at h
      by_cases hc : c = 2
      · rw [if_pos hc] at h
        by_cases hn : rc1.n = 0
        · rw [if_pos hn] at h
          exact Or.inr (Or.inl (Option.some.inj h).symm)
        · rw [if_neg hn] at h
          obtain ⟨c1, -, h⟩ := Option.bind_eq_some_iff.1 h
          split at h
          · exact Or.inr (Or.inr ⟨hn, hc, (Option.some.inj h).symm⟩)
          · exact Or.inr (Or.inl (Option.some.inj h).symm)
      · rw [if_neg hc] at h
        exact Or.inl ⟨(Option.some.inj h).symm, hc⟩

mutual

/-- The first piece stays. -/
theorem regPassRec_first (type : CType) {rc rc' : Rc} {ofs : Nat} (hn : rc.n ≠ 0)
    (h : regPassRec type rc ofs = some rc') : rc'.n ≠ 0 ∧ rc'.f1 = rc.f1 := by
  match type with
  | .struct isUnion _ _ fields =>
    rw [regPassRec] at h
    split at h
    · cases h
      exact rc.giveUp_first
    · exact regPassFields_first fields hn h
  | .array elem none =>
    rw [regPassRec] at h
    cases h
    exact rc.giveUp_first
  | .array elem (some c) =>
    rcases regPassRec_array h with rfl | ⟨rc1, helem, hcases⟩
    · exact rc.giveUp_first
    · obtain ⟨hn1, hf1⟩ := regPassRec_first elem hn helem
      rcases hcases with ⟨rfl, -⟩ | rfl | ⟨-, -, rfl⟩
      · exact ⟨hn1, hf1⟩
      · exact ⟨rc1.giveUp_first.1, rc1.giveUp_first.2.trans hf1⟩
      · exact ⟨(rc1.push_first _ _ hn1).1, (rc1.push_first _ _ hn1).2.trans hf1⟩
  | .scalar s =>
    rw [regPassRec] at h
    split at h
    · cases h
      exact rc.giveUp_first
    · split at h
      · cases h
        exact rc.push_first _ _ hn
      · cases h
        exact rc.giveUp_first

theorem regPassFields_first (fields : Fields) {rc rc' : Rc} {ofs : Nat} (hn : rc.n ≠ 0)
    (h : regPassFields fields rc ofs = some rc') : rc'.n ≠ 0 ∧ rc'.f1 = rc.f1 := by
  match fields with
  | .nil =>
    rw [regPassFields] at h
    cases h
    exact ⟨hn, rfl⟩
  | .cons fofs type rest =>
    rw [regPassFields] at h
    obtain ⟨rc1, hfirst, h⟩ := Option.bind_eq_some_iff.1 h
    obtain ⟨hn1, hf1⟩ := regPassRec_first type hn hfirst
    obtain ⟨hn2, hf2⟩ := regPassFields_first rest hn1 h
    exact ⟨hn2, hf2.trans hf1⟩

end

/-- What the walk notes of the first piece: it is at `ofs`, and the basic type is one that fits a
register; if there is none, the object has no bytes. -/
structure Rc.Leads (rc : Rc) (ofs : Nat) (empty : Prop) : Prop where
  first : ∀ f ∈ rc.f1, f.ofs = ofs ∧ f.bt ≠ .scalar .ldouble
  none : rc.n = 0 → empty ∧ rc.f1 = .none

mutual

theorem regPassRec_leads (type : CType) {rc rc' : Rc} {ofs : Nat} (htype : type.Leads)
    (hn : rc.n = 0) (hf1 : rc.f1 = .none) (h : regPassRec type rc ofs = some rc') :
    rc'.Leads ofs (type.size = 0) := by
  have hgive : ∀ {empty : Prop}, rc.giveUp.Leads ofs empty := by
    refine ⟨fun f hf => ?_, fun h0 => absurd h0 rc.giveUp_first.1⟩
    rw [rc.giveUp_first.2, hf1] at hf
    cases hf
  match type with
  | .struct isUnion size _ fields =>
    obtain ⟨hfields, hempty⟩ := htype
    rw [regPassRec] at h
    split at h
    · cases h
      exact hgive
    · obtain ⟨hfirst, hnone⟩ := regPassFields_leads fields hfields hn hf1 h
      exact ⟨hfirst, fun h0 => (hnone h0).imp_left hempty⟩
  | .array elem none =>
    rw [regPassRec] at h
    cases h
    exact hgive
  | .array elem (some c) =>
    rcases regPassRec_array h with rfl | ⟨rc1, helem, hcases⟩
    · exact hgive
    · obtain ⟨hfirst, hnone⟩ := regPassRec_leads elem htype hn hf1 helem
      rcases hcases with ⟨rfl, -⟩ | rfl | ⟨hn1, -, rfl⟩
      · refine ⟨hfirst, fun h0 => (hnone h0).imp_left fun hsize => ?_⟩
        show elem.size * _ = 0
        rw [hsize, Nat.zero_mul]
      · exact ⟨hfirst, fun h0 => absurd h0 rc1.giveUp_first.1⟩
      · obtain ⟨hn2, hf2⟩ := rc1.push_first .float ⟨ofs + elem.size, elem.btype⟩ hn1
        exact ⟨hf2 ▸ hfirst, fun h0 => absurd h0 hn2⟩
  | .scalar s =>
    rw [regPassRec] at h
    split at h
    · cases h
      exact hgive
    · rename_i hroom
      split at h
      · cases h
        rw [Rc.push, if_pos hn]
        refine ⟨?_, fun h0 => absurd h0 (show (1 : Int) ≠ 0 by decide)⟩
        rintro f ⟨rfl⟩
        refine ⟨rfl, fun hld => ?_⟩
        dsimp only at hld
        unfold scalarCode at hld
        split at hld
        · cases hld
        · exact hroom (Or.inr (Or.inr (BType.scalar.inj hld)))
      · cases h
        exact hgive

theorem regPassFields_leads (fields : Fields) {rc rc' : Rc} {ofs : Nat} (hfields : fields.Leads)
    (hn : rc.n = 0) (hf1 : rc.f1 = .none) (h : regPassFields fields rc ofs = some rc') :
    rc'.Leads ofs fields.Empty := by
  match fields with
  | .nil =>
    rw [regPassFields] at h
    cases h
    refine ⟨fun f hf => ?_, fun _ => ⟨trivial, hf1⟩⟩
    rw [hf1] at hf
    cases hf
  | .cons fofs type rest =>
    obtain ⟨rfl, htype, hrest⟩ := hfields
    rw [regPassFields] at h
    obtain ⟨rc1, hfirst, h⟩ := Option.bind_eq_some_iff.1 h
    obtain ⟨hpiece, hnone⟩ := regPassRec_leads type htype hn hf1 hfirst
    by_cases hn1 : rc1.n = 0
    · obtain ⟨hsize, hf1'⟩ := hnone hn1
      obtain ⟨hpiece', hnone'⟩ := regPassFields_leads rest (hrest hsize) hn1 hf1' h
      exact ⟨hpiece', fun h0 => (hnone' h0).imp_left fun hempty => ⟨hsize, hempty⟩⟩
    · obtain ⟨hn2, hf2⟩ := regPassFields_first rest hn1 h
      rw [Nat.add_zero] at hpiece
      exact ⟨hf2 ▸ hpiece, fun h0 => absurd h0 hn2⟩

end

/-- Of an object with bytes, the first piece is at its start and has a type that fits a register. -/
theorem regPass_first {type : CType} {named : Bool} {p : RegPass} (htype : type.Leads)
    (h : regPass type named = some p) :
    p.f1.bt ≠ .scalar .ldouble ∧ (type.size ≠ 0 → p.f1.ofs = 0) := by
  have hwords : ∀ size, wordCode size ≠ .scalar .ldouble := by
    intro size
    unfold wordCode
    split
    · decide
    · split
      · decide
      · split <;> decide
  unfold regPass at h
  split at h
  · obtain ⟨rc, hrec, h⟩ := Option.bind_eq_some_iff.1 h
    split at h
    · cases h
      exact ⟨hwords _, fun _ => rfl⟩
    · obtain ⟨c1, -, h⟩ := Option.bind_eq_some_iff.1 h
      obtain ⟨f1, hf1, h⟩ := Option.bind_eq_some_iff.1 h
      cases h
      obtain ⟨hofs, hbt⟩ := (regPassRec_leads type htype rfl rfl hrec).first f1 hf1
      exact ⟨hbt, fun _ => hofs⟩
  · cases h
    exact ⟨hwords _, fun _ => rfl⟩

/-- An object of two pieces has an offset and a type for the second one. -/
theorem regPass_second {type : CType} {named : Bool} {p : RegPass} (h : regPass type named = some p)
    (hn : p.nregs = 2) : ∃ f2, p.f2 = some f2 := by
  cases named with
  | true => exact regPass_f2 h hn
  | false =>
    obtain rfl := Option.some.inj h
    exact ⟨_, rfl⟩

theorem regPass_ldouble (named : Bool) : regPass (.scalar .ldouble) named = some (.words 16) := by
  cases named <;> rfl

/-! ## The third loop -/

/-- `TREG_RA` -/
def tregRa : Nat := 17

/-- `r2`, as the third loop of `gfunc_call` reads it. -/
def ArgInfo.r2 (info : ArgInfo) : Nat := if info.byref then 0 else info.high &&& 31

/-- `loadt`, as a number; what is passed by reference is a pointer by then. -/
def ArgInfo.loadt (info : ArgInfo) (type : CType) : Nat :=
  if info.byref then charPointerType.btype.code
  else if type.isStruct then info.high >>> 5 &&& 15
  else type.btype.code

/-- The assertions of the third loop for one argument. What the register allocator gives for the
second half of a `long double` is an integer register. -/
def LoadAsserts (type : CType) (info : ArgInfo) : Prop :=
  info.stack = true ∨ info.r2 ≤ 16 ∧ (type.passSize = 0 ∨
    (info.split = true → info.r2 = 0) ∧
    let r2 := if info.split then 1 + tregRa else info.r2
    if info.loadt type = (BType.scalar .ldouble).code then
      r2 ≠ 0 ∧ (info.split = true ∨ r2 - 1 ≤ 7)
    else r2 = 0 ∨ r2 - 1 < 16 ∨ r2 - 1 = tregRa)

/-- The type of the first piece can be read off the record of an argument. -/
theorem firstType_of_high (f1 : FieldOf) {rest : Nat} (hrest : (rest >>> 5) % 2 ^ 4 = 0) :
    (firstBits false 0 f1 ||| rest) >>> 5 &&& 15 = f1.bt.code := by
  have hcode : f1.bt.code < 2 ^ 4 := by
    cases f1.bt with
    | scalar s => cases s <;> decide
    | struct => decide
  rw [firstBits, if_neg (by decide), show 15 = 2 ^ 4 - 1 by norm_num,
    Nat.and_two_pow_sub_one_eq_mod, Nat.shiftRight_or_distrib, Nat.shiftLeft_shiftRight,
    Nat.or_mod_two_pow, hrest, Nat.or_zero, Nat.mod_eq_of_lt hcode]

/-- Offset and type of the second piece are above the type of the first one. -/
theorem secondBits_type (f2 : FieldOf) : (secondBits false f2 >>> 5) % 2 ^ 4 = 0 := by
  rw [secondBits, if_neg (by decide), Nat.shiftRight_or_distrib, Nat.or_mod_two_pow,
    Nat.shiftRight_eq_div_pow, Nat.shiftRight_eq_div_pow, Nat.shiftLeft_eq, Nat.shiftLeft_eq,
    show f2.ofs * 2 ^ 13 / 2 ^ 5 % 2 ^ 4 = 0 by omega,
    show f2.bt.code * 2 ^ 9 / 2 ^ 5 % 2 ^ 4 = 0 by omega, Nat.or_zero]

/-- So is the second register below it. -/
theorem secondReg_type (f2 : FieldOf) {r : Nat} (hr : r < 31) :
    ((1 + r ||| secondBits false f2) >>> 5) % 2 ^ 4 = 0 := by
  rw [Nat.shiftRight_or_distrib, Nat.or_mod_two_pow, secondBits_type, Nat.shiftRight_eq_div_pow,
    show (1 + r) / 2 ^ 5 = 0 by omega, Nat.zero_mod, Nat.or_zero]

/-- A record without a second register has no bits where it would be. -/
theorem noSecondReg_of_high (f1 f2 : FieldOf) :
    (firstBits false 0 f1 ||| secondBits false f2) &&& 31 = 0 := by
  rw [Nat.and_or_distrib_right, firstBits_and, Nat.zero_or, secondBits, if_neg (by decide),
    show 31 = 2 ^ 5 - 1 by norm_num, Nat.and_two_pow_sub_one_eq_mod, Nat.or_mod_two_pow,
    Nat.shiftLeft_eq, Nat.shiftLeft_eq, show f2.ofs * 2 ^ 13 % 2 ^ 5 = 0 by omega,
    show f2.bt.code * 2 ^ 9 % 2 ^ 5 = 0 by omega, Nat.or_zero]

theorem btype_code_inj {b b' : BType} (h : b.code = b'.code) : b = b' := by
  cases b with
  | scalar s =>
    cases b' with
    | scalar s' => cases s <;> cases s' <;> first | rfl | exact absurd h (by decide)
    | struct => cases s <;> exact absurd h (by decide)
  | struct =>
    cases b' with
    | scalar s' => cases s' <;> exact absurd h (by decide)
    | struct => rfl

/-- What is noted of an argument in registers. -/
theorem passInRegs_cases {st st' : CallState} {p : RegPass} {byref : Bool} {tempofs : Nat}
    {info : ArgInfo} (h : passInRegs st p byref tempofs = some (info, st')) :
    info.stack = false ∧ info.byref = byref ∧ (p.nregs ≠ 2 ∧ info.split = false ∧
        info.high = firstBits byref tempofs p.f1 ∧ st' = st.next p.c1 ∨
      p.nregs = 2 ∧ ∃ c2 f2, p.c2 = some c2 ∧ p.f2 = some f2 ∧ (byref = false → f2.ofs < 2048) ∧
        ((c2 = .float ∨ (st.next p.c1).areg0 < 8) ∧ info.split = false ∧
            info.high = firstBits byref tempofs p.f1 ||| (1 + (st.next p.c1).areg c2)
              ||| secondBits byref f2 ∧
            st' = (st.next p.c1).next c2 ∨
          c2 = .int ∧ 8 ≤ (st.next p.c1).areg0 ∧ info.split = true ∧
            info.high = firstBits byref tempofs p.f1 ||| secondBits byref f2 ∧
            st' = { st.next p.c1 with stackAdj := (st.next p.c1).stackAdj + 8 })) := by
  unfold passInRegs at h
  dsimp only at h
  split at h
  · cases h
  · split at h
    · rename_i hn
      obtain ⟨c2, hc2, h⟩ := Option.bind_eq_some_iff.1 h
      obtain ⟨f2, hf2, h⟩ := Option.bind_eq_some_iff.1 h
      split at h
      · cases h
      · rename_i hsmall
        have hofs : byref = false → f2.ofs < 2048 := fun href =>
          Nat.lt_of_not_le fun hge => hsmall ⟨ne_true_of_eq_false href, hge⟩
        split at h
        · rename_i hfree
          cases h
          exact ⟨rfl, rfl, Or.inr ⟨hn, c2, f2, hc2, hf2, hofs, Or.inl ⟨hfree, rfl, rfl, rfl⟩⟩⟩
        · rename_i hfull
          obtain ⟨hclass, hints⟩ := not_or.1 hfull
          have hint : c2 = .int := by
            cases c2 with
            | int => rfl
            | float => exact absurd rfl hclass
          cases h
          exact ⟨rfl, rfl, Or.inr ⟨hn, c2, f2, hc2, hf2, hofs,
            Or.inr ⟨hint, Nat.le_of_not_lt hints, rfl, rfl, rfl⟩⟩⟩
    · rename_i hn
      cases h
      exact ⟨rfl, rfl, Or.inl ⟨hn, rfl, rfl, rfl⟩⟩

section Caller

variable {st st' : CallState} {type : CType} {named : Bool} {p : RegPass} {info : ArgInfo}

/-- Only a `long double` is loaded as one. -/
theorem loadt_ldouble (htype : type.Leads) (hp : regPass type named = some p)
    (href : info.byref = false) (hfirst : info.high >>> 5 &&& 15 = p.f1.bt.code)
    (h : info.loadt type = (BType.scalar .ldouble).code) : p = .words 16 := by
  have hbt := (regPass_first htype hp).1
  rw [ArgInfo.loadt, if_neg (ne_true_of_eq_false href)] at h
  cases type with
  | scalar s =>
    obtain rfl : s = .ldouble := BType.scalar.inj (btype_code_inj h)
    exact Option.some.inj (hp.symm.trans (regPass_ldouble named))
  | struct isUnion size align fields =>
    have hload : info.high >>> 5 &&& 15 = (BType.scalar .ldouble).code := h
    exact absurd (btype_code_inj (hfirst.symm.trans hload)) hbt
  | array elem count =>
    exact absurd (btype_code_inj (b := .scalar .ptr) h) (by decide)

/-- The assertions hold for an object that gets registers. -/
theorem loadAsserts_direct {tempofs : Nat} (htype : type.Leads)
    (hp : regPass type named = some p) (hout : outOfRegs p st.areg0 st.areg1 16 = some false)
    (htemp : tempofs = 0) (h : passInRegs st p false tempofs = some (info, st')) :
    LoadAsserts type info := by
  subst htemp
  obtain ⟨-, href, hcases⟩ := passInRegs_cases h
  have hr2 : info.r2 = info.high &&& 31 := if_neg (ne_true_of_eq_false href)
  obtain ⟨hints, hfloats, hpair⟩ := areg_lt_of_inRegs hout
  rcases hcases with ⟨hn, hsplit, hhigh, -⟩ | ⟨hn, c2, f2, hc2, -, -, hcases⟩
  · -- one piece, which is not a `long double`
    have hlow : info.r2 = 0 := by rw [hr2, hhigh, firstBits_and]
    have hload : info.loadt type ≠ (BType.scalar .ldouble).code := by
      intro hload
      refine hn ?_
      rw [loadt_ldouble htype hp href ?_ hload]
      · rfl
      · rw [hhigh]
        exact (congrArg (· >>> 5 &&& 15) (Nat.or_zero _)).symm.trans
          (firstType_of_high p.f1 (by decide))
    refine Or.inr ⟨hlow ▸ Nat.zero_le _, Or.inr ⟨fun _ => hlow, ?_⟩⟩
    rw [hsplit, if_neg hload]
    exact Or.inl hlow
  · obtain ⟨c2', hc2', hff, hif⟩ := hpair hn
    obtain rfl : c2 = c2' := Option.some.inj (hc2.symm.trans hc2')
    rcases hcases with ⟨hfree, hsplit, hhigh, -⟩ | ⟨rfl, hfull, hsplit, hhigh, -⟩
    · -- two registers
      have hr : (st.next p.c1).areg c2 < 16 := by
        cases c2 with
        | int =>
          have : (st.next p.c1).areg0 < 8 := hfree.resolve_left (by decide)
          exact Nat.lt_trans this (by decide)
        | float =>
          cases hc1 : p.c1 with
          | int =>
            have := (hif (by rw [hc1]; decide)).1
            exact this
          | float =>
            have := hff hc1 rfl
            show st.areg1 + 1 < 16
            omega
      have hlow : info.r2 = 1 + (st.next p.c1).areg c2 := by
        rw [hr2, hhigh, secondReg_of_high _ _ (by omega)]
      refine Or.inr ⟨by omega, Or.inr ⟨fun hs => absurd hs (ne_true_of_eq_false hsplit), ?_⟩⟩
      rw [hsplit]
      dsimp only
      rw [if_neg (show ¬false = true by decide), hlow]
      split
      · rename_i hload
        have hwords : p = .words 16 := by
          refine loadt_ldouble htype hp href ?_ hload
          rw [hhigh, Nat.or_assoc]
          exact firstType_of_high p.f1 (secondReg_type f2 (by omega))
        have hint : c2 = .int := by
          rw [hwords] at hc2
          exact (Option.some.inj hc2).symm
        have hlt : (st.next p.c1).areg0 < 8 := hfree.resolve_left (by rw [hint]; decide)
        rw [hint]
        exact ⟨by omega, Or.inr (show 1 + (st.next p.c1).areg0 - 1 ≤ 7 by omega)⟩
      · exact Or.inr (Or.inl (by omega))
    · -- the second half on the stack
      have hlow : info.r2 = 0 := by rw [hr2, hhigh, noSecondReg_of_high]
      refine Or.inr ⟨hlow ▸ Nat.zero_le _, Or.inr ⟨fun _ => hlow, ?_⟩⟩
      rw [hsplit]
      dsimp only
      rw [if_pos rfl]
      split
      · exact ⟨by decide, Or.inl rfl⟩
      · exact Or.inr (Or.inr rfl)

/-- The assertions hold for the address of an object. -/
theorem loadAsserts_byref (href : info.byref = true) : LoadAsserts type info := by
  have hr2 : info.r2 = 0 := if_pos href
  have hload : info.loadt type ≠ (BType.scalar .ldouble).code := by
    rw [ArgInfo.loadt, if_pos href]
    decide
  refine Or.inr ⟨hr2 ▸ Nat.zero_le _, Or.inr ⟨fun _ => hr2, ?_⟩⟩
  rw [hr2, if_neg hload]
  cases info.split with
  | true => exact Or.inr (Or.inr rfl)
  | false => exact Or.inl rfl

/-- **Step lemma**: the assertions of the third loop hold for an argument that was classified. -/
theorem loadAsserts_of_classifyArg (htype : type.Leads)
    (h : classifyArg st type named = some (info, st')) : LoadAsserts type info := by
  obtain ⟨p, hp, h⟩ := Option.bind_eq_some_iff.1 h
  dsimp only at h
  split at h
  · rename_i hzero
    cases h
    cases href : type.byref with
    | true => exact loadAsserts_byref rfl
    | false =>
      have hr2 : (ArgInfo.mk 0 false false false (st.tempofs type)).r2 = 0 := by
        rw [tempofs_of_direct href]
        rfl
      exact Or.inr ⟨hr2.trans_le (Nat.zero_le _), Or.inl hzero⟩
  · obtain ⟨b, hout, h⟩ := Option.bind_eq_some_iff.1 h
    cases b with
    | true =>
      cases h
      exact Or.inl rfl
    | false =>
      change passInRegs _ _ _ _ = _ at h
      cases href : type.byref with
      | true => exact loadAsserts_byref ((passInRegs_cases h).2.1.trans href)
      | false =>
        rw [href] at h
        exact loadAsserts_direct htype hp hout (tempofs_of_direct href) h

theorem ready_areg0_ge (st : CallState) (type : CType) (named : Bool) :
    st.areg0 ≤ (st.ready type named).areg0 := by
  have hreserve : (st.reserve type).areg0 = st.areg0 := by
    unfold CallState.reserve
    split <;> rfl
  rw [CallState.ready, CallState.roundInts]
  split
  · rw [hreserve]
    show st.areg0 ≤ (st.areg0 + 1) / 2 * 2
    omega
  · exact hreserve.ge

/-- Integer registers that were used up stay so, and it takes the last one to split an argument. -/
theorem classifyArg_split (h : classifyArg st type named = some (info, st')) :
    (8 ≤ st.areg0 → 8 ≤ st'.areg0) ∧ (info.split = true → st.areg0 < 8 ∧ 8 ≤ st'.areg0) := by
  obtain ⟨p, hp, h⟩ := Option.bind_eq_some_iff.1 h
  have hready := ready_areg0_ge st type named
  dsimp only at h
  split at h
  · cases h
    exact ⟨fun hfull => hfull.trans hready, fun hsplit => absurd hsplit Bool.false_ne_true⟩
  · obtain ⟨b, hout, h⟩ := Option.bind_eq_some_iff.1 h
    cases b with
    | true =>
      cases h
      refine ⟨fun hfull => ?_, fun hsplit => absurd hsplit Bool.false_ne_true⟩
      show 8 ≤ ((st.ready type named).push type named).areg0
      rw [CallState.push]
      split
      · exact hfull.trans hready
      · exact Nat.le_refl 8
    | false =>
      change passInRegs (st.ready type named) _ _ _ = _ at h
      have hnext : ∀ (s : CallState) (c : RegClass), s.areg0 ≤ (s.next c).areg0 := by
        intro s c
        cases c with
        | int => exact Nat.le_succ _
        | float => exact Nat.le_refl _
      obtain ⟨hints, -, hpair⟩ := areg_lt_of_inRegs hout
      obtain ⟨-, -, ⟨-, hsplit, -, rfl⟩ | ⟨hn, c2, f2, hc2, -, -, hcases⟩⟩ := passInRegs_cases h
      · exact ⟨fun hfull => (hfull.trans hready).trans (hnext _ _),
          fun hs => absurd hs (ne_true_of_eq_false hsplit)⟩
      · rcases hcases with ⟨-, hsplit, -, rfl⟩ | ⟨rfl, hfull, hsplit, -, rfl⟩
        · exact ⟨fun hfull => ((hfull.trans hready).trans (hnext _ _)).trans (hnext _ _),
            fun hs => absurd hs (ne_true_of_eq_false hsplit)⟩
        · refine ⟨fun _ => hfull, fun _ => ⟨hready.trans_lt ?_, hfull⟩⟩
          obtain ⟨c2, hc2', -, hif⟩ := hpair hn
          obtain rfl : RegClass.int = c2 := Option.some.inj (hc2.symm.trans hc2')
          cases hc1 : p.c1 with
          | int => exact hints hc1
          | float => exact (hif (by rw [hc1]; decide)).2

end Caller

/-- No assertion of `gfunc_call` fails. -/
def CallAsserts (types : List CType) (nparams : Nat) : Prop :=
  ∃ infos st, classifyArgs .start types nparams = some (infos, st) ∧
    (st.stackAdj + st.tempspace = 0 ∨ (stackOffsets 0 0 (types.zip infos)).isSome = true) ∧
    ∀ arg ∈ types.zip infos, LoadAsserts arg.1 arg.2

/-- At most one argument is split. -/
theorem stackOffsets_isSome {types : List CType} {st st' : CallState} {nparams : Nat}
    {infos : List ArgInfo} {splitofs : Nat} (ofs : Nat)
    (h : classifyArgs st types nparams = some (infos, st'))
    (hsplit : splitofs ≠ 0 → 8 ≤ st.areg0) :
    (stackOffsets splitofs ofs (types.zip infos)).isSome = true := by
  induction types generalizing st splitofs ofs nparams infos with
  | nil => rfl
  | cons type types ih =>
    obtain ⟨⟨info, st1⟩, hfirst, h⟩ := Option.bind_eq_some_iff.1 h
    obtain ⟨⟨infos, st2⟩, hrest, h⟩ := Option.bind_eq_some_iff.1 h
    cases h
    obtain ⟨hkeep, hlast⟩ := classifyArg_split hfirst
    have hrest' : ∀ ofs, (stackOffsets splitofs ofs (types.zip infos)).isSome = true :=
      fun ofs => ih ofs hrest fun hs => hkeep (hsplit hs)
    rw [List.zip_cons_cons, stackOffsets]
    split
    · obtain ⟨offsets, hoffsets⟩ := Option.isSome_iff_exists.1 (hrest' _)
      dsimp only
      rw [hoffsets]
      rfl
    · split
      · rename_i hs
        obtain ⟨hfree, hfull⟩ := hlast hs.2
        rw [if_neg fun hne => absurd (hsplit hne) (Nat.not_le.2 hfree)]
        have hrest'' : (stackOffsets ofs (ofs + 8) (types.zip infos)).isSome = true :=
          ih (ofs + 8) hrest fun _ => hfull
        obtain ⟨offsets, hoffsets⟩ := Option.isSome_iff_exists.1 hrest''
        rw [hoffsets]
        rfl
      · obtain ⟨offsets, hoffsets⟩ := Option.isSome_iff_exists.1 (hrest' ofs)
        rw [hoffsets]
        rfl

/-- **Run lemma**: the assertions of the third loop hold for the arguments that the first one
classified. -/
theorem loadAsserts_of_classifyArgs {types : List CType} {st st' : CallState} {nparams : Nat}
    {infos : List ArgInfo} (htypes : ∀ type ∈ types, type.Leads)
    (h : classifyArgs st types nparams = some (infos, st')) :
    ∀ arg ∈ types.zip infos, LoadAsserts arg.1 arg.2 := by
  induction types generalizing st nparams infos with
  | nil =>
    intro arg harg
    cases harg
  | cons type types ih =>
    obtain ⟨⟨info, st1⟩, hfirst, h⟩ := Option.bind_eq_some_iff.1 h
    obtain ⟨⟨infos, st2⟩, hrest, h⟩ := Option.bind_eq_some_iff.1 h
    cases h
    rw [List.zip_cons_cons]
    refine List.forall_mem_cons.2 ⟨?_, ?_⟩
    · exact loadAsserts_of_classifyArg (htypes type List.mem_cons_self) hfirst
    · exact ih (fun type' hmem => htypes type' (List.mem_cons_of_mem type hmem)) hrest

/-! ## When arguments are classified -/

/-- It is decided where an argument goes, and in registers its second piece is not too far behind
the first one. -/
def ArgFits (u : Used) (type : CType) (p : RegPass) : Prop :=
  type.size = 0 ∨ outOfRegs p u.ints u.floats 8 = some true ∨
    outOfRegs p u.ints u.floats 8 = some false ∧
      (type.byref = false → p.nregs = 2 → ∀ f2 ∈ p.f2, f2.ofs < 2048)

/-- What is used after an argument. -/
def Used.afterArg (u : Used) (type : CType) (p : RegPass) : Used :=
  if type.size = 0 then u
  else if outOfRegs p u.ints u.floats 8 = some true then u.push type
  else u.takeRegs p

/-- All arguments with a parameter fit, from `u` on. -/
def ArgsFit (u : Used) : List CType → Nat → Prop
  | type :: types, nparams + 1 =>
    ∃ p, regPass type true = some p ∧ ArgFits u type p ∧ ArgsFit (u.afterArg type p) types nparams
  | _, _ => True

/-- The registers that the caller counts. -/
structure Counted (u : Used) (st : CallState) : Prop where
  ints : st.areg0 = u.ints
  floats : st.areg1 = 8 + u.floats

namespace Counted

variable {u : Used} {st : CallState}

theorem take (h : Counted u st) (c : RegClass) : Counted (u.take c) (st.next c) := by
  obtain ⟨hints, hfloats⟩ := h
  cases c with
  | int => exact ⟨congrArg (· + 1) hints, hfloats⟩
  | float => exact ⟨hints, congrArg (· + 1) hfloats⟩

theorem ready (h : Counted u st) (type : CType) : Counted u (st.ready type true) :=
  ⟨(ready_named st type .int).trans h.ints, (ready_named st type .float).trans h.floats⟩

theorem outOfRegs (h : Counted u st) (p : RegPass) :
    outOfRegs p st.areg0 st.areg1 16 = outOfRegs p u.ints u.floats 8 := by
  rw [h.ints, h.floats, outOfRegs_shift]

end Counted

section Named

variable {u : Used} {st st' : CallState} {type : CType} {named : Bool} {p : RegPass}
  {info : ArgInfo}

/-- What an argument in registers takes. -/
theorem counted_passInRegs {byref : Bool} {tempofs : Nat} (hc : Counted u st)
    (h : passInRegs st p byref tempofs = some (info, st')) : Counted (u.takeRegs p) st' := by
  have htake := hc.take p.c1
  rw [Used.takeRegs]
  obtain ⟨-, -, ⟨hn, -, -, rfl⟩ | ⟨hn, c2, f2, hc2, -, -, hcases⟩⟩ := passInRegs_cases h
  · rw [if_neg hn]
    exact htake
  · rw [if_pos hn, hc2]
    rcases hcases with ⟨hfree, -, -, rfl⟩ | ⟨rfl, hfull, -, -, rfl⟩
    · cases c2 with
      | float => exact htake.take .float
      | int =>
        have hlt : (st.next p.c1).areg0 < 8 := hfree.resolve_left (by decide)
        dsimp only
        rw [if_neg (by rw [← htake.ints]; omega)]
        exact htake.take .int
    · dsimp only
      rw [if_pos (htake.ints ▸ hfull)]
      exact ⟨htake.ints, htake.floats⟩

/-- What the first loop does with an argument in registers. -/
theorem passInRegs_some (htype : type.Leads) (hsize : type.size ≠ 0)
    (hp : regPass type named = some p)
    (hout : outOfRegs p st.areg0 st.areg1 16 = some false) (tempofs : Nat)
    (hsmall : type.byref = false → p.nregs = 2 → ∀ f2 ∈ p.f2, f2.ofs < 2048) :
    ∃ r, passInRegs st p type.byref tempofs = some r := by
  unfold passInRegs
  dsimp only
  rw [if_neg (not_not_intro ((regPass_first htype hp).2 hsize))]
  by_cases hn : p.nregs = 2
  · obtain ⟨c2, hc2, -⟩ := (areg_lt_of_inRegs hout).2.2 hn
    obtain ⟨f2, hf2⟩ := regPass_second hp hn
    have hofs : ¬(¬type.byref = true ∧ f2.ofs ≥ 2048) := by
      rintro ⟨href, hge⟩
      exact absurd (hsmall (eq_false_of_ne_true href) hn f2 hf2) (Nat.not_lt.2 hge)
    rw [if_pos hn, secondPiece, hc2, hf2]
    dsimp only [Option.bind_eq_bind, Option.bind_some]
    rw [if_neg hofs]
    split
    · exact ⟨_, rfl⟩
    · exact ⟨_, rfl⟩
  · rw [if_neg hn]
    exact ⟨_, rfl⟩

/-- **Step lemma**: an argument with a parameter is classified exactly when it fits. -/
theorem classifyArg_named_iff (htype : type.Leads) (hp : regPass type true = some p)
    (hc : Counted u st) : (∃ r, classifyArg st type true = some r) ↔ ArgFits u type p := by
  have hready := hc.ready type
  have hregs := hready.outOfRegs p
  unfold classifyArg ArgFits
  rw [hp]
  dsimp only [Option.bind_eq_bind, Option.bind_some]
  by_cases hsize : type.size = 0
  · have hpass : type.passSize = 0 := by
      simp [CType.passSize, CType.byref, hsize]
    rw [if_pos hpass]
    exact iff_of_true ⟨_, rfl⟩ (Or.inl hsize)
  · rw [if_neg (passSize_ne_zero hsize), ← hregs]
    change (∃ r, (Option.bind (TccRiscv64.Gen.outOfRegs p (st.ready type true).areg0
      (st.ready type true).areg1 16) _) = some r) ↔ _
    cases hout : TccRiscv64.Gen.outOfRegs p (st.ready type true).areg0
      (st.ready type true).areg1 16 with
    | none => simp [hsize]
    | some b =>
      cases b with
      | true => exact iff_of_true ⟨_, rfl⟩ (Or.inr (Or.inl rfl))
      | false =>
        constructor
        · rintro ⟨⟨info, st'⟩, h⟩
          change passInRegs (st.ready type true) p type.byref _ = _ at h
          refine Or.inr (Or.inr ⟨rfl, fun href hn f2 hf2 => ?_⟩)
          obtain ⟨-, -, ⟨hn', -⟩ | ⟨-, c2, f2', -, hf2', hofs, -⟩⟩ := passInRegs_cases h
          · exact absurd hn hn'
          · obtain rfl : f2' = f2 := Option.some.inj (hf2'.symm.trans hf2)
            exact hofs href
        · rintro (h | h | ⟨-, hsmall⟩)
          · exact absurd h hsize
          · cases h
          · exact passInRegs_some htype hsize hp hout _ hsmall

/-- An argument without a parameter always is. -/
theorem classifyArg_unnamed (htype : type.Leads) :
    ∃ r, classifyArg st type false = some r := by
  have hp : regPass type false = some (.words type.size) := rfl
  unfold classifyArg
  rw [hp]
  dsimp only [Option.bind_eq_bind, Option.bind_some]
  by_cases hsize : type.size = 0
  · have hpass : type.passSize = 0 := by
      simp [CType.passSize, CType.byref, hsize]
    rw [if_pos hpass]
    exact ⟨_, rfl⟩
  · rw [if_neg (passSize_ne_zero hsize), outOfRegs_words]
    dsimp only [Option.bind_some]
    split
    · exact ⟨_, rfl⟩
    · rename_i hout
      refine passInRegs_some htype hsize hp ?_ _ ?_
      · rw [outOfRegs_words]
        exact congrArg some (eq_false_of_ne_true hout)
      · rintro - - f2 ⟨rfl⟩
        exact show 8 < 2048 by decide

/-- The registers that it takes. -/
theorem counted_classifyArg (hp : regPass type true = some p) (hc : Counted u st)
    (h : classifyArg st type true = some (info, st')) : Counted (u.afterArg type p) st' := by
  have hready := hc.ready type
  have hregs := hready.outOfRegs p
  obtain ⟨p', hp', h⟩ := Option.bind_eq_some_iff.1 h
  obtain rfl : p' = p := Option.some.inj (hp'.symm.trans hp)
  rw [Used.afterArg]
  dsimp only at h
  by_cases hsize : type.size = 0
  · have hpass : type.passSize = 0 := by
      simp [CType.passSize, CType.byref, hsize]
    rw [if_pos hpass] at h
    cases h
    rw [if_pos hsize]
    exact hready
  · rw [if_neg (passSize_ne_zero hsize)] at h
    rw [if_neg hsize, ← hregs]
    obtain ⟨b, hout, h⟩ := Option.bind_eq_some_iff.1 h
    change TccRiscv64.Gen.outOfRegs p' (st.ready type true).areg0 (st.ready type true).areg1 16
      = some b at hout
    cases b with
    | true =>
      cases h
      rw [if_pos hout]
      exact ⟨hready.ints, hready.floats⟩
    | false =>
      rw [if_neg (by rw [hout]; decide)]
      exact counted_passInRegs hready h

end Named

theorem classifyArgs_cons (st : CallState) (type : CType) (types : List CType) (nparams : Nat) :
    (∃ r, classifyArgs st (type :: types) nparams = some r) ↔
      ∃ info st', classifyArg st type (nparams > 0) = some (info, st') ∧
        ∃ r, classifyArgs st' types (nparams - 1) = some r := by
  constructor
  · rintro ⟨r, h⟩
    obtain ⟨⟨info, st'⟩, hfirst, h⟩ := Option.bind_eq_some_iff.1 h
    obtain ⟨r', hrest, -⟩ := Option.bind_eq_some_iff.1 h
    exact ⟨info, st', hfirst, r', hrest⟩
  · rintro ⟨info, st', hfirst, ⟨infos, st''⟩, hrest⟩
    refine ⟨(info :: infos, st''), ?_⟩
    rw [classifyArgs, hfirst]
    dsimp only [Option.bind_eq_bind, Option.bind_some]
    rw [hrest]
    rfl

/-- Without parameters left, all arguments are classified. -/
theorem classifyArgs_unnamed {types : List CType} (st : CallState)
    (htypes : ∀ type ∈ types, type.Leads) : ∃ r, classifyArgs st types 0 = some r := by
  induction types generalizing st with
  | nil => exact ⟨_, rfl⟩
  | cons type types ih =>
    obtain ⟨htype, hrest⟩ := List.forall_mem_cons.1 htypes
    obtain ⟨⟨info, st'⟩, hfirst⟩ : ∃ r, classifyArg st type false = some r :=
      classifyArg_unnamed htype
    exact (classifyArgs_cons st type types 0).2 ⟨info, st', hfirst, ih st' hrest⟩

/-- **Run lemma**: the arguments are classified exactly when those with a parameter fit. -/
theorem classifyArgs_iff {types : List CType} {u : Used} {st : CallState} {nparams : Nat}
    (htypes : ∀ type ∈ types, type.Leads) (hc : Counted u st) :
    (∃ r, classifyArgs st types nparams = some r) ↔ ArgsFit u types nparams := by
  induction types generalizing u st nparams with
  | nil => exact iff_of_true ⟨_, rfl⟩ (by cases nparams <;> exact trivial)
  | cons type types ih =>
    obtain ⟨htype, hrest⟩ := List.forall_mem_cons.1 htypes
    cases nparams with
    | zero => exact iff_of_true (classifyArgs_unnamed st htypes) trivial
    | succ nparams =>
      rw [classifyArgs_cons, ArgsFit]
      constructor
      · rintro ⟨info, st', hfirst, hargs⟩
        obtain ⟨p, hp, -⟩ := Option.bind_eq_some_iff.1 hfirst
        have hfirst' : classifyArg st type true = some (info, st') := hfirst
        exact ⟨p, hp, (classifyArg_named_iff htype hp hc).1 ⟨_, hfirst'⟩,
          (ih hrest (counted_classifyArg hp hc hfirst')).1 hargs⟩
      · rintro ⟨p, hp, hfits, hargs⟩
        obtain ⟨⟨info, st'⟩, hfirst⟩ := (classifyArg_named_iff htype hp hc).2 hfits
        exact ⟨info, st', hfirst, (ih hrest (counted_classifyArg hp hc hfirst)).2 hargs⟩

/-- Apart from the first loop, `gfunc_call` has no assertion that fails. -/
theorem callAsserts_iff {types : List CType} (nparams : Nat)
    (htypes : ∀ type ∈ types, type.Leads) :
    CallAsserts types nparams ↔ ArgsFit ⟨0, 0, 0, 0⟩ types nparams := by
  have hstart : Counted ⟨0, 0, 0, 0⟩ .start := ⟨rfl, rfl⟩
  rw [← classifyArgs_iff htypes hstart]
  constructor
  · rintro ⟨infos, st, h, -⟩
    exact ⟨_, h⟩
  · rintro ⟨⟨infos, st⟩, h⟩
    exact ⟨infos, st, h, Or.inr (stackOffsets_isSome 0 h fun hne => absurd rfl hne),
      loadAsserts_of_classifyArgs htypes h⟩

/-! ## The callee -/

/-- The type of what is passed for a parameter. -/
def CType.passed (type : CType) : CType := if type.byref then charPointerType else type

/-- No assertion of `gfunc_prolog` fails: the loop over the registers of a parameter has two rounds
at most, and a second half on the stack is aligned. -/
def PrologAsserts (f : FuncType) : Prop :=
  (∀ type ∈ f.params, ∀ p ∈ regPass type.passed true, p.nregs ≤ 2) ∧
    ∃ locs, prologLocations f = some locs

/-- What is passed has two pieces at most. -/
theorem regPass_passed_le {type : CType} {p : RegPass} (h : regPass type.passed true = some p) :
    p.nregs ≤ 2 := by
  have hsize : type.passed.size ≤ 16 := by
    unfold CType.passed
    split
    · decide
    · rename_i href
      simpa [CType.byref] using href
  rcases regPass_cases h with rfl | hone | ⟨htwo, -⟩
  · show (type.passed.size + 7) / 8 ≤ 2
    omega
  · omega
  · omega

/-- It is decided where a parameter comes from, and if it is two words of which only the first one is
in a register, the stack is aligned. -/
def ParamFits (u : Used) (p : RegPass) : Prop :=
  outOfRegs p u.ints u.floats 8 = some true ∨ outOfRegs p u.ints u.floats 8 = some false ∧
    (p.nregs = 2 → p.c1 = .int → p.c2 = some .int → u.ints = 7 → u.stack % 8 = 0)

/-- What is used after a parameter. -/
def Used.afterParam (u : Used) (type : CType) (p : RegPass) : Used :=
  if outOfRegs p u.ints u.floats 8 = some true then u.push type
  else if p.nregs = 0 then u
  else u.takeRegs p

/-- All parameters fit, from `u` on. -/
def ParamsFit (u : Used) : List CType → Prop
  | [] => True
  | type :: types => ∃ p, regPass type.passed true = some p ∧ ParamFits u p ∧
      ParamsFit (u.afterParam type p) types

/-- The locals of `gfunc_prolog`. -/
def Used.prolog (u : Used) : PrologState := ⟨u.ints, u.floats, u.stack⟩

theorem Used.prolog_take (u : Used) (c : RegClass) : (u.take c).prolog = u.prolog.next c := by
  cases c <;> rfl

/-- **Step lemma**: a parameter is received exactly when it fits. -/
theorem prologParam_iff {u : Used} {type : CType} {p : RegPass}
    (hp : regPass type.passed true = some p) :
    ((∃ r, prologParam u.prolog type = some r) ↔ ParamFits u p) ∧
      ∀ loc st, prologParam u.prolog type = some (loc, st) → st = (u.afterParam type p).prolog := by
  have hp' : regPass (if type.byref then charPointerType else type) true = some p := hp
  unfold prologParam ParamFits Used.afterParam
  rw [hp']
  dsimp only [Option.bind_eq_bind, Option.bind_some]
  change ((∃ r, Option.bind (outOfRegs p u.ints u.floats 8) _ = some r) ↔ _) ∧
    ∀ loc st, Option.bind (outOfRegs p u.ints u.floats 8) _ = some (loc, st) → _
  cases hout : outOfRegs p u.ints u.floats 8 with
  | none => simp
  | some b =>
    cases b with
    | true =>
      refine ⟨iff_of_true ⟨_, rfl⟩ (Or.inl rfl), fun loc st h => ?_⟩
      cases h
      rw [if_pos rfl]
      rfl
    | false =>
      obtain ⟨hints, hfloats, hpair⟩ := areg_lt_of_inRegs hout
      rw [if_neg (show ¬some false = some true by decide)]
      dsimp only [Option.bind_some]
      rw [if_neg (show ¬false = true by decide)]
      have htake := u.prolog_take p.c1
      by_cases hzero : p.nregs = 0
      · rw [if_pos hzero, if_pos hzero]
        refine ⟨iff_of_true ⟨_, rfl⟩ (Or.inr ⟨rfl, fun hn => by omega⟩), fun loc st h => ?_⟩
        cases h
        rfl
      · rw [if_neg hzero, if_neg hzero, Used.takeRegs]
        by_cases hn : p.nregs = 2
        · obtain ⟨c2, hc2, hff, hif⟩ := hpair hn
          rw [if_pos hn, if_pos hn, hc2, ← htake]
          dsimp only [Option.bind_some]
          cases c2 with
          | float =>
            have hfree : ¬(u.take p.c1).prolog.areg .float ≥ 8 := by
              cases hc1 : p.c1 with
              | int =>
                have := (hif (by rw [hc1]; decide)).1
                exact Nat.not_le.2 this
              | float =>
                have := hff hc1 rfl
                show ¬u.floats + 1 ≥ 8
                omega
            rw [if_neg hfree, ← Used.prolog_take]
            refine ⟨iff_of_true ⟨_, rfl⟩ (Or.inr ⟨rfl, fun _ _ hc => by cases hc⟩), ?_⟩
            intro loc st h
            cases h
            rfl
          | int =>
            -- the second piece may be on the stack
            have hlast : (u.take p.c1).ints ≥ 8 ↔ p.c1 = .int ∧ u.ints = 7 := by
              cases hc1 : p.c1 with
              | int =>
                have := hints hc1
                show u.ints + 1 ≥ 8 ↔ _
                simp only [true_and]
                omega
              | float =>
                have := (hif (by rw [hc1]; decide)).2
                show u.ints ≥ 8 ↔ _
                simp only [reduceCtorEq, false_and, iff_false]
                omega
            change ((∃ r, (if (u.take p.c1).ints ≥ 8 then _ else _) = some r) ↔ _) ∧
              ∀ loc st, (if (u.take p.c1).ints ≥ 8 then _ else _) = some (loc, st) → _
            dsimp only
            by_cases hfull : (u.take p.c1).ints ≥ 8
            · obtain ⟨hc1, h7⟩ := hlast.1 hfull
              have haddr : (u.take p.c1).prolog.addr = u.stack := u.take_stack p.c1
              rw [if_pos hfull, if_pos hfull, haddr]
              by_cases hrest : u.stack % 8 = 0
              · rw [if_neg (not_not_intro hrest)]
                refine ⟨iff_of_true ⟨_, rfl⟩ (Or.inr ⟨rfl, fun _ _ _ _ => hrest⟩), ?_⟩
                intro loc st h
                cases h
                rfl
              · rw [if_pos hrest]
                refine ⟨iff_of_false (by rintro ⟨r, h⟩; cases h) ?_, fun loc st h => by cases h⟩
                rintro (h | ⟨-, h⟩)
                · cases h
                · exact hrest (h hn hc1 rfl h7)
            · rw [if_neg hfull, if_neg hfull, ← Used.prolog_take]
              refine ⟨iff_of_true ⟨_, rfl⟩ (Or.inr ⟨rfl, fun _ hc1 _ h7 => ?_⟩), ?_⟩
              · exact absurd (hlast.2 ⟨hc1, h7⟩) hfull
              · intro loc st h
                cases h
                rfl
        · rw [if_neg hn, if_neg hn, ← htake]
          refine ⟨iff_of_true ⟨_, rfl⟩ (Or.inr ⟨rfl, fun h => absurd h hn⟩), fun loc st h => ?_⟩
          cases h
          rfl

/-- **Run lemma**: the parameters are received exactly when all fit. -/
theorem prologParams_iff (types : List CType) (u : Used) :
    (∃ locs, prologParams u.prolog types = some locs) ↔ ParamsFit u types := by
  induction types generalizing u with
  | nil => exact iff_of_true ⟨_, rfl⟩ trivial
  | cons type types ih =>
    rw [ParamsFit]
    constructor
    · rintro ⟨locs, h⟩
      obtain ⟨⟨loc, st⟩, hfirst, h⟩ := Option.bind_eq_some_iff.1 h
      obtain ⟨locs', hrest, -⟩ := Option.bind_eq_some_iff.1 h
      obtain ⟨p, hp, -⟩ := Option.bind_eq_some_iff.1 hfirst
      obtain ⟨hiff, hst⟩ := prologParam_iff (u := u) (p := p) hp
      refine ⟨p, hp, hiff.1 ⟨_, hfirst⟩, (ih _).1 ⟨locs', ?_⟩⟩
      rw [← hst loc st hfirst]
      exact hrest
    · rintro ⟨p, hp, hfits, hrest⟩
      obtain ⟨hiff, hst⟩ := prologParam_iff (u := u) (p := p) hp
      obtain ⟨⟨loc, st⟩, hfirst⟩ := hiff.2 hfits
      obtain ⟨locs, hlocs⟩ := (ih _).2 hrest
      rw [← hst loc st hfirst] at hlocs
      refine ⟨loc :: locs, ?_⟩
      rw [prologParams, hfirst]
      dsimp only [Option.bind_eq_bind, Option.bind_some]
      rw [hlocs]
      rfl

theorem prologAsserts_iff (f : FuncType) : PrologAsserts f ↔ ParamsFit f.used f.params := by
  rw [← prologParams_iff]
  have hregs : ∀ type ∈ f.params, ∀ p ∈ regPass type.passed true, p.nregs ≤ 2 :=
    fun type _ p hp => regPass_passed_le hp
  unfold PrologAsserts prologLocations FuncType.used FuncType.hidden
  rw [and_iff_right hregs]
  by_cases hlarge : retSize f.ret > 16
  · rw [if_pos (show retSize f.ret > 2 * xlen from hlarge), decide_eq_true hlarge]
    change (∃ locs, Option.bind (prologParams ⟨1, 0, 0⟩ f.params) _ = some locs) ↔
      ∃ locs, prologParams ⟨1, 0, 0⟩ f.params = some locs
    cases prologParams ⟨1, 0, 0⟩ f.params with
    | none => exact iff_of_false (by rintro ⟨locs, h⟩; cases h) (by rintro ⟨locs, h⟩; cases h)
    | some locs => exact iff_of_true ⟨_, rfl⟩ ⟨_, rfl⟩
  · rw [if_neg (show ¬retSize f.ret > 2 * xlen from hlarge), decide_eq_false hlarge]
    exact Iff.rfl

/-- **The assertions of calls.** No assertion of `gfunc_call` fails for the given arguments and none
of `gfunc_prolog` for the given function type exactly when the arguments and the parameters fit. -/
theorem callAndProlog_asserts_iff (f : FuncType) (types : List CType) (nparams : Nat)
    (htypes : ∀ type ∈ types, type.Leads) :
    CallAsserts types nparams ∧ PrologAsserts f ↔
      ArgsFit ⟨0, 0, 0, 0⟩ types nparams ∧ ParamsFit f.used f.params :=
  and_congr (callAsserts_iff nparams htypes) (prologAsserts_iff f)

/-- `struct { long a, b; }`. -/
def twoLongs : CType :=
  .struct false 16 8 (.cons 0 (.scalar .llong) (.cons 8 (.scalar .llong) .nil))

theorem twoLongs_leads : twoLongs.Leads :=
  ⟨⟨rfl, trivial, fun h => absurd h (by decide)⟩, fun h => absurd h.1 (by decide)⟩

/-- `void f(struct { long a, b; })`. -/
def voidOfTwoLongs : FuncType where
  ret := none
  params := [twoLongs]
  ret_not_array := by simp
  params_not_array := by simp [twoLongs, CType.isArray]

theorem callAndProlog_asserts_twoLongs :
    CallAsserts [twoLongs] 1 ∧ PrologAsserts voidOfTwoLongs := by
  refine (callAndProlog_asserts_iff voidOfTwoLongs [twoLongs] 1
    (List.forall_mem_singleton.2 twoLongs_leads)).2 ⟨?_, ?_⟩
  · refine ⟨.words 16, rfl, Or.inr (Or.inr ⟨rfl, ?_⟩), trivial⟩
    rintro - - f2 ⟨rfl⟩
    exact show 8 < 2048 by decide
  · exact ⟨.words 16, rfl, Or.inr ⟨rfl, fun _ _ _ h => absurd h (by decide)⟩, trivial⟩

/-- `void f(float, … (9 of them), int, … (7 of them), struct { long a, b; })`. -/
def raggedFunction : FuncType where
  ret := none
  params := List.replicate 9 (.scalar .float) ++ List.replicate 7 (.scalar .int) ++ [twoLongs]
  ret_not_array := by simp
  params_not_array := by simp [twoLongs, CType.isArray]

/-- The ninth `float` takes four bytes of the stack; the struct, of which one half is in `a7`, does
not find its other half aligned. -/
theorem not_prologAsserts_raggedFunction :
    (∀ type ∈ raggedFunction.params, type.Leads) ∧ ¬PrologAsserts raggedFunction := by
  refine ⟨fun type htype => ?_, ?_⟩
  · rcases List.mem_append.1 htype with hscalar | hstruct
    · rcases List.mem_append.1 hscalar with hmem | hmem
      · rw [List.eq_of_mem_replicate hmem]
        exact trivial
      · rw [List.eq_of_mem_replicate hmem]
        exact trivial
    · rw [List.mem_singleton.1 hstruct]
      exact twoLongs_leads
  rintro ⟨-, locs, h⟩
  have hnone : prologLocations raggedFunction = none := by decide
  rw [hnone] at h
  cases h

end TccRiscv64.Gen
