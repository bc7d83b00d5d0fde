import TccRiscv64.Gen.Call

set_option autoImplicit false

/-! # Caller and callee agree on where arguments are

The two loops of `gfunc_call` are merged into one walk over the arguments, which is then compared
with the loop of `gfunc_prolog` parameter by parameter. The state before a parameter is what the
preceding ones took: integer registers, float registers and stack bytes, and the float registers
that only the caller counts. -/

namespace TccRiscv64.Gen

/-! ## One walk for the caller -/

/-- The second loop of `gfunc_call` for one argument: its location, and the new `splitofs` and
`ofs`. -/
def placeArg (splitofs ofs : Nat) (type : CType) (info : ArgInfo) :
    Option (Location × Nat × Nat) :=
  if info.stack then
    let ofs := alignUp ofs (max type.passAlign xlen)
    some (info.location type ofs, splitofs, ofs + type.passSize)
  else if ¬info.byref ∧ info.split then
    if splitofs ≠ 0 then none else some (info.location type ofs, ofs, ofs + 8)
  else some (info.location type 0, splitofs, ofs)

/-- Both loops of `gfunc_call` for the arguments of the given types. -/
def callWalk (st : CallState) (splitofs ofs : Nat) (types : List CType) (nparams : Nat) :
    Option (List Location) :=
  match types with
  | [] => some []
  | type :: types => do
    let (info, st) ← classifyArg st type (nparams > 0)
    let (loc, splitofs, ofs) ← placeArg splitofs ofs type info
    let locs ← callWalk st splitofs ofs types (nparams - 1)
    some (loc :: locs)

/-- The locations of classified arguments at given offsets. -/
def locations (types : List CType) (infos : List ArgInfo) (offsets : List Nat) : List Location :=
  ((types.zip infos).zip offsets).map fun ((type, info), ofs) => info.location type ofs

/-- The walk classifies and lays out at once what the two loops do one after the other. -/
theorem callWalk_eq (st : CallState) (splitofs ofs : Nat) (types : List CType) (nparams : Nat) :
    callWalk st splitofs ofs types nparams =
      (classifyArgs st types nparams).bind fun (infos, _) =>
        (stackOffsets splitofs ofs (types.zip infos)).map (locations types infos) := by
  induction types generalizing st splitofs ofs nparams with
  | nil => rfl
  | cons type types ih =>
    rw [callWalk, classifyArgs]
    cases hclass : classifyArg st type (nparams > 0) with
    | none => rfl
    | some first =>
      obtain ⟨info, st1⟩ := first
      simp only [Option.bind_eq_bind, Option.bind_some]
      cases hrest : classifyArgs st1 types (nparams - 1) with
      | none =>
        simp only [ih, hrest, Option.bind_none]
        cases placeArg splitofs ofs type info <;> rfl
      | some rest =>
        obtain ⟨infos, st2⟩ := rest
        simp only [ih, hrest, Option.bind_some, List.zip_cons_cons, stackOffsets, placeArg]
        split
        · simp only [Option.bind_some]
          cases stackOffsets _ _ _ <;> rfl
        · split
          · split
            · rfl
            · simp only [Option.bind_some]
              cases stackOffsets _ _ _ <;> rfl
          · simp only [Option.bind_some]
            cases stackOffsets _ _ _ <;> rfl

/-! ## The second loop is skipped only when it has nothing to do -/

theorem alignUp_pos (x align : Nat) (hx : 0 < x) (ha : 0 < align) : 0 < alignUp x align := by
  have : 1 ≤ (x + align - 1) / align := (Nat.one_le_div_iff ha).2 (by omega)
  exact Nat.mul_pos this ha

namespace CallState

@[simp] theorem stackAdj_next (st : CallState) (c : RegClass) :
    (st.next c).stackAdj = st.stackAdj := by
  cases c <;> rfl

@[simp] theorem stackAdj_reserve (st : CallState) (type : CType) :
    (st.reserve type).stackAdj = st.stackAdj := by
  unfold reserve
  split <;> rfl

@[simp] theorem stackAdj_roundInts (st : CallState) (type : CType) (named : Bool) :
    (st.roundInts type named).stackAdj = st.stackAdj := by
  unfold roundInts
  split <;> rfl

theorem stackAdj_push (st : CallState) (type : CType) (named : Bool) :
    (st.push type named).stackAdj
      = st.stackAdj + alignUp type.passSize (max type.passAlign xlen) := by
  unfold push
  split <;> rfl

end CallState

/-- An argument that gets registers may leave its second half on the stack. -/
theorem passInRegs_stackAdj {st st' : CallState} {p : RegPass} {byref : Bool} {tempofs : Nat}
    {info : ArgInfo} (h : passInRegs st p byref tempofs = some (info, st')) :
    info.stack = false ∧ st.stackAdj ≤ st'.stackAdj ∧
      (info.split → st.stackAdj < st'.stackAdj) := by
  simp only [passInRegs] at h
  split at h
  · cases h
  · split at h
    · obtain ⟨c2, -, h⟩ := Option.bind_eq_some_iff.1 h
      obtain ⟨f2, -, h⟩ := Option.bind_eq_some_iff.1 h
      split at h
      · cases h
      · split at h
        · cases h
          simp
        · cases h
          simp
    · cases h
      simp

/-- Whatever goes to the stack is accounted for in `stack_adj`. -/
theorem classifyArg_stackAdj {st st' : CallState} {type : CType} {named : Bool} {info : ArgInfo}
    (h : classifyArg st type named = some (info, st')) :
    st.stackAdj ≤ st'.stackAdj ∧ (info.stack ∨ info.split → st.stackAdj < st'.stackAdj) := by
  obtain ⟨p, -, h⟩ := Option.bind_eq_some_iff.1 h
  simp only at h
  split at h
  · cases h
    simp
  · next hsize =>
    obtain ⟨onStack, -, h⟩ := Option.bind_eq_some_iff.1 h
    split at h
    · cases h
      have := alignUp_pos type.passSize (max type.passAlign xlen) (by omega)
        (lt_max_of_lt_right (by decide))
      rw [CallState.stackAdj_push, CallState.stackAdj_roundInts, CallState.stackAdj_reserve]
      omega
    · obtain ⟨hstack, hle, hsplit⟩ := passInRegs_stackAdj h
      rw [CallState.stackAdj_roundInts, CallState.stackAdj_reserve] at hle hsplit
      rw [hstack]
      exact ⟨hle, fun h => hsplit (h.resolve_left (by decide))⟩

/-- If `stack_adj` stays zero, the second loop finds no offsets. -/
theorem stackOffsets_of_stackAdj_eq_zero {st st' : CallState} {types : List CType} {nparams : Nat}
    {infos : List ArgInfo} (h : classifyArgs st types nparams = some (infos, st'))
    (hzero : st'.stackAdj = 0) (splitofs ofs : Nat) :
    stackOffsets splitofs ofs (types.zip infos) = some ((types.zip infos).map fun _ => 0) ∧
      st.stackAdj = 0 := by
  induction types generalizing st nparams infos with
  | nil =>
    cases h
    exact ⟨rfl, hzero⟩
  | cons type types ih =>
    obtain ⟨⟨info, st1⟩, hfirst, h⟩ := Option.bind_eq_some_iff.1 h
    obtain ⟨⟨infos', st2⟩, hrest, h⟩ := Option.bind_eq_some_iff.1 h
    cases h
    obtain ⟨hoffsets, hst1⟩ := ih hrest
    obtain ⟨hle, hstack⟩ := classifyArg_stackAdj hfirst
    have hnot : ¬ (info.stack = true ∨ info.split = true) := by
      intro hor
      have := hstack hor
      omega
    rw [List.zip_cons_cons, stackOffsets, if_neg (fun hs => hnot (Or.inl hs)),
      if_neg (fun hs => hnot (Or.inr hs.2)), hoffsets]
    exact ⟨rfl, by omega⟩

/-- **`gfunc_call` is one walk** over its arguments. -/
theorem gfuncCall_eq_callWalk (types : List CType) (nparams : Nat) :
    gfuncCall types nparams = callWalk .start 0 0 types nparams := by
  rw [callWalk_eq, gfuncCall]
  cases hclass : classifyArgs .start types nparams with
  | none => rfl
  | some result =>
    obtain ⟨infos, st⟩ := result
    simp only [Option.bind_eq_bind, Option.bind_some]
    split
    · next hzero =>
      rw [(stackOffsets_of_stackAdj_eq_zero hclass (by omega) 0 0).1]
      rfl
    · cases stackOffsets 0 0 (types.zip infos) <;> rfl

/-! ## One argument of the caller -/

/-- Classify and place one argument. -/
def callStep (st : CallState) (splitofs ofs : Nat) (type : CType) (named : Bool) :
    Option (Location × CallState × Nat × Nat) :=
  (classifyArg st type named).bind fun (info, st) =>
    (placeArg splitofs ofs type info).map fun (loc, splitofs, ofs) => (loc, st, splitofs, ofs)

theorem callWalk_cons (st : CallState) (splitofs ofs : Nat) (type : CType) (types : List CType)
    (nparams : Nat) :
    callWalk st splitofs ofs (type :: types) nparams =
      (callStep st splitofs ofs type (nparams > 0)).bind fun (loc, st, splitofs, ofs) =>
        (callWalk st splitofs ofs types (nparams - 1)).map (loc :: ·) := by
  rw [callWalk, callStep]
  cases classifyArg st type (nparams > 0) with
  | none => rfl
  | some first =>
    obtain ⟨info, st1⟩ := first
    simp only [Option.bind_eq_bind, Option.bind_some]
    cases placeArg splitofs ofs type info with
    | none => rfl
    | some placed =>
      obtain ⟨loc, splitofs', ofs'⟩ := placed
      simp only [Option.bind_some, Option.map_some]
      cases callWalk st1 splitofs' ofs' types (nparams - 1) <;> rfl

/-- The state in which the registers of an argument are chosen. -/
def CallState.ready (st : CallState) (type : CType) (named : Bool) : CallState :=
  (st.reserve type).roundInts type named

theorem callStep_none {st : CallState} {splitofs ofs : Nat} {type : CType} {named : Bool}
    (hp : regPass type named = none) : callStep st splitofs ofs type named = none := by
  rw [callStep, classifyArg, hp]
  rfl

theorem callStep_zero {st : CallState} {splitofs ofs : Nat} {type : CType} {named : Bool}
    {p : RegPass} (hp : regPass type named = some p) (hsize : type.size = 0) :
    callStep st splitofs ofs type named
      = some (⟨.nowhere, false⟩, st.ready type named, splitofs, ofs) := by
  have hbyref : type.byref = false := by simp [CType.byref, hsize]
  have hpass : type.passSize = 0 := by simp [CType.passSize, hbyref, hsize]
  simp [callStep, classifyArg, hp, hpass, placeArg, ArgInfo.location, hsize, hbyref,
    CallState.ready]

theorem passSize_ne_zero {type : CType} (hsize : type.size ≠ 0) : type.passSize ≠ 0 := by
  unfold CType.passSize
  split
  · decide
  · exact hsize

theorem callStep_stack {st : CallState} {splitofs ofs : Nat} {type : CType} {named : Bool}
    {p : RegPass} (hp : regPass type named = some p) (hsize : type.size ≠ 0)
    (hout : outOfRegs p (st.ready type named).areg0 (st.ready type named).areg1 16 = some true) :
    callStep st splitofs ofs type named
      = some (⟨.stack (alignUp ofs (max type.passAlign xlen)), type.byref⟩,
          (st.ready type named).push type named, splitofs,
          alignUp ofs (max type.passAlign xlen) + type.passSize) := by
  rw [CallState.ready] at hout
  simp [callStep, classifyArg, hp, passSize_ne_zero hsize, hout, placeArg, ArgInfo.location,
    CallState.ready]

theorem callStep_outOfRegs_none {st : CallState} {splitofs ofs : Nat} {type : CType} {named : Bool}
    {p : RegPass} (hp : regPass type named = some p) (hsize : type.size ≠ 0)
    (hout : outOfRegs p (st.ready type named).areg0 (st.ready type named).areg1 16 = none) :
    callStep st splitofs ofs type named = none := by
  rw [CallState.ready] at hout
  simp [callStep, classifyArg, hp, passSize_ne_zero hsize, hout]

/-- With registers left, the argument gets them. -/
theorem callStep_inRegs {st : CallState} {splitofs ofs : Nat} {type : CType} {named : Bool}
    {p : RegPass} (hp : regPass type named = some p) (hsize : type.size ≠ 0)
    (hout : outOfRegs p (st.ready type named).areg0 (st.ready type named).areg1 16 = some false) :
    callStep st splitofs ofs type named =
      (passInRegs (st.ready type named) p type.byref (st.tempofs type)).bind fun (info, st) =>
        (placeArg splitofs ofs type info).map fun (loc, splitofs, ofs) =>
          (loc, st, splitofs, ofs) := by
  rw [CallState.ready] at hout ⊢
  simp [callStep, classifyArg, hp, passSize_ne_zero hsize, hout]

theorem callStep_badOfs {st : CallState} {splitofs ofs : Nat} {type : CType} {named : Bool}
    {p : RegPass} (hp : regPass type named = some p) (hsize : type.size ≠ 0)
    (hout : outOfRegs p (st.ready type named).areg0 (st.ready type named).areg1 16 = some false)
    (hofs : p.f1.ofs ≠ 0) : callStep st splitofs ofs type named = none := by
  rw [callStep_inRegs hp hsize hout, passInRegs, if_pos hofs]
  rfl

theorem tempofs_of_direct {st : CallState} {type : CType} (h : type.byref = false) :
    st.tempofs type = 0 := by
  rw [CallState.tempofs, h]
  rfl

/-- The type of the first piece is above the bits of the second register. -/
theorem firstBits_and (f1 : FieldOf) : firstBits false 0 f1 &&& 31 = 0 := by
  rw [firstBits, if_neg (by decide), show 31 = 2 ^ 5 - 1 by norm_num,
    Nat.and_two_pow_sub_one_eq_mod, Nat.shiftLeft_eq, Nat.mul_mod_left]

/-- The second register can be read off the record of an argument: its number is below 31, and the
other parts of the record are in higher bits. -/
theorem secondReg_of_high (f1 f2 : FieldOf) {r : Nat} (hr : r < 31) :
    (firstBits false 0 f1 ||| (1 + r) ||| secondBits false f2) &&& 31 = 1 + r := by
  rw [firstBits, secondBits, if_neg (by decide), if_neg (by decide), show 31 = 2 ^ 5 - 1 by norm_num,
    Nat.and_two_pow_sub_one_eq_mod, Nat.or_mod_two_pow, Nat.or_mod_two_pow, Nat.or_mod_two_pow,
    Nat.shiftLeft_eq, Nat.shiftLeft_eq, Nat.shiftLeft_eq, Nat.mod_eq_of_lt (by omega : 1 + r < 2 ^ 5),
    show f2.ofs * 2 ^ 13 = f2.ofs * 2 ^ 8 * 2 ^ 5 by ring,
    show f2.bt.code * 2 ^ 9 = f2.bt.code * 2 ^ 4 * 2 ^ 5 by ring,
    Nat.mul_mod_left, Nat.mul_mod_left, Nat.mul_mod_left]
  simp

theorem callStep_one {st : CallState} {splitofs ofs : Nat} {type : CType} {named : Bool}
    {p : RegPass} (hp : regPass type named = some p) (hsize : type.size ≠ 0)
    (hout : outOfRegs p (st.ready type named).areg0 (st.ready type named).areg1 16 = some false)
    (hofs : p.f1.ofs = 0) (hn : p.nregs ≠ 2) :
    callStep st splitofs ofs type named
      = some (⟨.reg ((st.ready type named).areg p.c1), type.byref⟩,
          (st.ready type named).next p.c1, splitofs, ofs) := by
  rw [callStep_inRegs hp hsize hout, passInRegs, if_neg (by simpa using hofs), if_neg hn]
  cases href : type.byref with
  | false =>
    simp [placeArg, ArgInfo.location, hsize, tempofs_of_direct href, firstBits_and]
  | true => simp [placeArg, ArgInfo.location, hsize]

theorem callStep_badSecond {st : CallState} {splitofs ofs : Nat} {type : CType} {named : Bool}
    {p : RegPass} {f2 : FieldOf} (hp : regPass type named = some p) (hsize : type.size ≠ 0)
    (hout : outOfRegs p (st.ready type named).areg0 (st.ready type named).areg1 16 = some false)
    (hofs : p.f1.ofs = 0) (hn : p.nregs = 2) (hf2 : p.f2 = some f2) (href : type.byref = false)
    (hlarge : 2048 ≤ f2.ofs) : callStep st splitofs ofs type named = none := by
  rw [callStep_inRegs hp hsize hout, passInRegs, if_neg (by simpa using hofs), if_pos hn,
    secondPiece]
  cases p.c2 with
  | none => rfl
  | some c2 => simp [hf2, href, hlarge]

theorem callStep_pair {st : CallState} {splitofs ofs : Nat} {type : CType} {named : Bool}
    {p : RegPass} {c2 : RegClass} {f2 : FieldOf} (hp : regPass type named = some p)
    (hsize : type.size ≠ 0)
    (hout : outOfRegs p (st.ready type named).areg0 (st.ready type named).areg1 16 = some false)
    (hofs : p.f1.ofs = 0) (hn : p.nregs = 2) (hc2 : p.c2 = some c2) (hf2 : p.f2 = some f2)
    (href : type.byref = false) (hsmall : f2.ofs < 2048)
    (hfree : c2 = .float ∨ ((st.ready type named).next p.c1).areg0 < 8)
    (hr : ((st.ready type named).next p.c1).areg c2 < 31) :
    callStep st splitofs ofs type named
      = some (⟨.regPair ((st.ready type named).areg p.c1)
            (((st.ready type named).next p.c1).areg c2), false⟩,
          ((st.ready type named).next p.c1).next c2, splitofs, ofs) := by
  have hsecond : secondPiece ((st.ready type named).next p.c1) p false
      ((st.ready type named).areg p.c1) (firstBits false 0 p.f1)
      = some (⟨(st.ready type named).areg p.c1, false, false, false, firstBits false 0 p.f1 |||
          (1 + ((st.ready type named).next p.c1).areg c2) ||| secondBits false f2⟩,
        ((st.ready type named).next p.c1).next c2) := by
    simp [secondPiece, hc2, hf2, hsmall, hfree]
  rw [callStep_inRegs hp hsize hout, passInRegs, if_neg (by simpa using hofs), if_pos hn, href,
    tempofs_of_direct href, hsecond]
  simp [placeArg, ArgInfo.location, hsize, secondReg_of_high _ _ hr]

theorem callStep_split {st : CallState} {splitofs ofs : Nat} {type : CType} {named : Bool}
    {p : RegPass} {f2 : FieldOf} (hp : regPass type named = some p)
    (hsize : type.size ≠ 0)
    (hout : outOfRegs p (st.ready type named).areg0 (st.ready type named).areg1 16 = some false)
    (hofs : p.f1.ofs = 0) (hn : p.nregs = 2) (hc2 : p.c2 = some .int) (hf2 : p.f2 = some f2)
    (href : type.byref = false) (hsmall : f2.ofs < 2048)
    (hfull : 8 ≤ ((st.ready type named).next p.c1).areg0) (hsplit : splitofs = 0) :
    callStep st splitofs ofs type named
      = some (⟨.regStack ((st.ready type named).areg p.c1) ofs, false⟩,
          { (st.ready type named).next p.c1 with
            stackAdj := ((st.ready type named).next p.c1).stackAdj + 8 }, ofs, ofs + 8) := by
  have hsecond : secondPiece ((st.ready type named).next p.c1) p false
      ((st.ready type named).areg p.c1) (firstBits false 0 p.f1)
      = some (⟨(st.ready type named).areg p.c1, true, false, false,
          firstBits false 0 p.f1 ||| secondBits false f2⟩,
        { (st.ready type named).next p.c1 with
          stackAdj := ((st.ready type named).next p.c1).stackAdj + 8 }) := by
    simp [secondPiece, hc2, hf2, hsmall, hfull]
  rw [callStep_inRegs hp hsize hout, passInRegs, if_neg (by simpa using hofs), if_pos hn, href,
    tempofs_of_direct href, hsecond]
  simp [placeArg, ArgInfo.location, hsize, hsplit]

/-- The second register counted for a by-reference copy is not used. -/
theorem callStep_byrefFloat {st : CallState} {splitofs ofs : Nat} {type : CType} {named : Bool}
    {p : RegPass} {f2 : FieldOf} (hp : regPass type named = some p)
    (hsize : type.size ≠ 0)
    (hout : outOfRegs p (st.ready type named).areg0 (st.ready type named).areg1 16 = some false)
    (hofs : p.f1.ofs = 0) (hn : p.nregs = 2) (hc2 : p.c2 = some .float) (hf2 : p.f2 = some f2)
    (href : type.byref = true) :
    callStep st splitofs ofs type named
      = some (⟨.reg ((st.ready type named).areg p.c1), true⟩,
          ((st.ready type named).next p.c1).next .float, splitofs, ofs) := by
  rw [callStep_inRegs hp hsize hout, passInRegs, if_neg (by simpa using hofs), if_pos hn, href,
    secondPiece, hc2, hf2]
  simp [placeArg, ArgInfo.location, hsize]

/-- The register of the first piece. -/
def Place.firstReg : Place → Option Nat
  | nowhere | stack _ => none
  | reg r | regPair r _ | regStack r _ => some r

/-- An argument that gets registers starts in the next one of its first class. -/
theorem callStep_firstReg {st st' : CallState} {splitofs ofs splitofs' ofs' : Nat} {type : CType}
    {named : Bool} {loc : Location} {p : RegPass} (hp : regPass type named = some p)
    (hsize : type.size ≠ 0)
    (hout : outOfRegs p (st.ready type named).areg0 (st.ready type named).areg1 16 = some false)
    (hstep : callStep st splitofs ofs type named = some (loc, st', splitofs', ofs')) :
    p.f1.ofs = 0 ∧ loc.place.firstReg = some ((st.ready type named).areg p.c1) := by
  have hofs : p.f1.ofs = 0 := by
    by_contra hne
    rw [callStep_badOfs hp hsize hout hne] at hstep
    cases hstep
  refine ⟨hofs, ?_⟩
  rw [callStep_inRegs hp hsize hout] at hstep
  obtain ⟨⟨info, st1⟩, hregs, hplace⟩ := Option.bind_eq_some_iff.1 hstep
  obtain ⟨⟨loc', s', o'⟩, hplaced, heq⟩ := Option.map_eq_some_iff.1 hplace
  cases heq
  have hstack := (passInRegs_stackAdj hregs).1
  have hreg : info.reg = (st.ready type named).areg p.c1 := by
    simp only [passInRegs, if_neg (not_not_intro hofs)] at hregs
    split at hregs
    · obtain ⟨c2, -, hregs⟩ := Option.bind_eq_some_iff.1 hregs
      obtain ⟨f2, -, hregs⟩ := Option.bind_eq_some_iff.1 hregs
      split at hregs
      · cases hregs
      · split at hregs <;> cases hregs <;> rfl
    · cases hregs
      rfl
  have hloc : ∀ o, (info.location type o).place.firstReg = some info.reg := by
    intro o
    simp only [ArgInfo.location, hstack, hsize, Bool.false_eq_true, if_false]
    split
    · rfl
    · split <;> split <;> rfl
  simp only [placeArg, hstack, Bool.false_eq_true, if_false] at hplaced
  split at hplaced
  · split at hplaced
    · cases hplaced
    · cases hplaced
      rw [hloc, hreg]
  · cases hplaced
    rw [hloc, hreg]

/-! ## One parameter of the callee -/

theorem prologParam_eq {pst : PrologState} {type : CType} {p : RegPass}
    (hp : regPass type true = some p) (href : type.byref = false) :
    prologParam pst type = (outOfRegs p pst.areg0 pst.areg1 8).bind fun onStack =>
      if onStack then
        some (⟨.stack (alignUp pst.addr (max type.passAlign xlen)), false⟩,
          { pst with addr := alignUp pst.addr (max type.passAlign xlen) + type.passSize })
      else if p.nregs = 0 then some (⟨.nowhere, false⟩, pst)
      else if p.nregs = 2 then p.c2.bind fun c2 =>
        if (pst.next p.c1).areg c2 ≥ 8 then
          if (pst.next p.c1).addr % 8 ≠ 0 then none
          else some (⟨.regStack (pst.regNumber p.c1) (pst.next p.c1).addr, false⟩,
            { pst.next p.c1 with addr := (pst.next p.c1).addr + 8 })
        else some (⟨.regPair (pst.regNumber p.c1) ((pst.next p.c1).regNumber c2), false⟩,
          (pst.next p.c1).next c2)
      else some (⟨.reg (pst.regNumber p.c1), false⟩, pst.next p.c1) := by
  rw [prologParam, href]
  simp [hp]

theorem prologParam_byref {pst : PrologState} {type : CType} (href : type.byref = true) :
    prologParam pst type =
      if pst.areg0 ≥ 8 then some (⟨.stack (alignUp pst.addr 8), true⟩,
        { pst with addr := alignUp pst.addr 8 + 8 })
      else some (⟨.reg pst.areg0, true⟩, { pst with areg0 := pst.areg0 + 1 }) := by
  have hsize : type.passSize = 8 := by rw [CType.passSize, href]; rfl
  have halign : type.passAlign = 8 := by rw [CType.passAlign, href]; rfl
  rw [prologParam, href, hsize, halign]
  simp only [if_true, regPass_charPointer, Option.bind_eq_bind, Option.bind_some]
  by_cases hfull : pst.areg0 ≥ 8
  · simp [outOfRegs, hfull, xlen]
  · simp [outOfRegs, hfull, PrologState.next, PrologState.regNumber]

/-! ## When a parameter is passed and received alike -/

/-- What the parameters so far took: integer and float registers, bytes on the stack, and `lost`
float registers that the caller counted for structs it passes by reference. -/
structure Used where
  ints : Nat
  floats : Nat
  lost : Nat
  stack : Nat
  deriving DecidableEq, Repr

namespace Used

def take (u : Used) : RegClass → Used
  | .int => { u with ints := u.ints + 1 }
  | .float => { u with floats := u.floats + 1 }

/-- A parameter on the stack. -/
def push (u : Used) (type : CType) : Used :=
  { u with stack := alignUp u.stack (max type.passAlign xlen) + type.passSize }

/-- The registers of a parameter with pieces `p`. -/
def takeRegs (u : Used) (p : RegPass) : Used :=
  if p.nregs = 2 then
    match p.c2 with
    | some .float => (u.take p.c1).take .float
    | _ => if (u.take p.c1).ints ≥ 8 then { u.take p.c1 with stack := u.stack + 8 }
      else (u.take p.c1).take .int
  else u.take p.c1

/-- What is used after a parameter with pieces `p`. -/
def after (u : Used) (type : CType) (p : RegPass) : Used :=
  if type.size = 0 then u
  else if type.byref then
    if u.ints ≥ 8 then u.push type
    else { u with ints := u.ints + 1, lost := u.lost + if p.nregs = 2 then 1 else 0 }
  else if outOfRegs p u.ints u.floats 8 = some true then u.push type
  else u.takeRegs p

end Used

/-- A piece goes to a float register. -/
def RegPass.usesFloat (p : RegPass) : Prop :=
  p.c1 = .float ∨ (p.nregs = 2 ∧ p.c2 = some .float)

/-- Registers are assigned alike: the pieces are where a struct layout puts them, float registers
are counted alike, and an argument split between the last integer register and the stack finds the
stack aligned. -/
def RegsOk (u : Used) (p : RegPass) : Prop :=
  p.f1.ofs = 0 ∧ (p.nregs = 2 → ∀ f2 ∈ p.f2, f2.ofs < 2048) ∧ (p.usesFloat → u.lost = 0) ∧
  (p.nregs = 2 → p.c2 = some .int → (u.take p.c1).ints ≥ 8 → u.stack % 8 = 0)

/-- An object of at most 16 bytes is passed alike. -/
def DirectOk (u : Used) (p : RegPass) : Prop :=
  outOfRegs p u.ints u.floats 8 = some true ∨
    (outOfRegs p u.ints u.floats 8 = some false ∧ RegsOk u p)

/-- The address of a larger object is passed alike: the caller classifies the object, the callee its
address. -/
def ByrefOk (u : Used) (p : RegPass) : Prop :=
  if u.ints ≥ 8 then outOfRegs p u.ints (u.floats + u.lost) 8 = some true
  else p.c1 = .int ∧ p.f1.ofs = 0 ∧ outOfRegs p u.ints (u.floats + u.lost) 8 = some false

/-- A parameter with a declaration is passed and received alike. One without bytes must not hold a
scalar, nor come after the integer registers are used up: the caller skips it. -/
def ParamOk (u : Used) (type : CType) (p : RegPass) : Prop :=
  if type.size = 0 then p.nregs = 0 ∧ u.ints < 8
  else if type.byref then ByrefOk u p
  else DirectOk u p

/-! ## The step -/

/-- The states of caller and callee before a parameter, and what was used. -/
structure Sync (u : Used) (st : CallState) (splitofs ofs : Nat) (pst : PrologState) : Prop where
  ints : st.areg0 = u.ints
  floats : st.areg1 = 8 + (u.floats + u.lost)
  ofs : ofs = u.stack
  split : splitofs ≠ 0 → 8 ≤ u.ints
  callee : pst = ⟨u.ints, u.floats, u.stack⟩

/-- The numbering of the float registers does not matter. -/
theorem outOfRegs_shift (p : RegPass) (ints floats : Nat) :
    outOfRegs p ints (8 + floats) 16 = outOfRegs p ints floats 8 := by
  have h16 : 8 + floats ≥ 16 ↔ floats ≥ 8 := by omega
  have h15 : 8 + floats ≥ 16 - 1 ↔ floats ≥ 8 - 1 := by omega
  simp only [outOfRegs, h16, h15]

/-- With more float registers in use an argument on the stack stays there. -/
theorem outOfRegs_mono {p : RegPass} {ints floats floats' : Nat} (hle : floats ≤ floats')
    (h : outOfRegs p ints floats 8 = some true) : outOfRegs p ints floats' 8 = some true := by
  unfold outOfRegs at h ⊢
  cases hc2 : p.c2 with
  | none =>
    rw [hc2] at h
    simp only [Option.bind_eq_bind, Option.bind_none] at h ⊢
    grind
  | some c2 =>
    rw [hc2] at h
    simp only [Option.bind_eq_bind, Option.bind_some] at h ⊢
    grind

/-- Without a float piece the float registers in use have no influence. -/
theorem outOfRegs_of_not_usesFloat {p : RegPass} (h : ¬ p.usesFloat) (ints floats floats' : Nat) :
    outOfRegs p ints floats 8 = outOfRegs p ints floats' 8 := by
  have hc1 : p.c1 = .int := by
    cases hc : p.c1 with
    | int => rfl
    | float => exact absurd (Or.inl hc) h
  unfold outOfRegs
  by_cases hn : p.nregs = 2
  · cases hc2 : p.c2 with
    | none => simp [hc1, hn]
    | some c2 =>
      cases c2 with
      | int => simp [hc1, hn]
      | float => exact absurd (Or.inr ⟨hn, hc2⟩) h
  · simp [hc1, hn]

/-- Nothing goes to a full class of registers. -/
theorem areg_lt_of_inRegs {p : RegPass} {ints floats top : Nat}
    (h : outOfRegs p ints floats top = some false) :
    (p.c1 = .int → ints < 8) ∧ (p.c1 = .float → floats < top) ∧
    (p.nregs = 2 → ∃ c2, p.c2 = some c2 ∧
      (p.c1 = .float → c2 = .float → floats < top - 1) ∧
      (p.c1 ≠ c2 → floats < top ∧ ints < 8)) := by
  unfold outOfRegs at h
  split at h
  · cases h
  · next hfirst =>
    refine ⟨fun hc => ?_, fun hc => ?_, fun hn => ?_⟩
    · by_contra hge
      exact hfirst (Or.inl ⟨hc, by omega⟩)
    · by_contra hge
      exact hfirst (Or.inr ⟨hc, by omega⟩)
    · rw [if_pos hn] at h
      obtain ⟨c2, hc2, h⟩ := Option.bind_eq_some_iff.1 h
      have h := of_decide_eq_false (Option.some.inj h)
      refine ⟨c2, hc2, fun hc hc' => ?_, fun hne => ?_⟩
      · by_contra hge
        exact h (Or.inl ⟨hc, hc', by omega⟩)
      · by_contra hge
        exact h (Or.inr ⟨hne, by omega⟩)

theorem ready_named (st : CallState) (type : CType) (c : RegClass) :
    (st.ready type true).areg c = st.areg c := by
  cases c <;> simp only [CallState.ready, CallState.roundInts, CallState.reserve, CallState.areg] <;>
    simp <;> split <;> rfl

/-- An object with bytes has pieces. -/
theorem regPass_nregs_pos {type : CType} {p : RegPass} (hp : regPass type true = some p)
    (hsize : type.size ≠ 0) : p.nregs ≠ 0 := by
  rcases regPass_cases hp with rfl | h1 | ⟨h2, -⟩
  · simp only [RegPass.words]
    omega
  · omega
  · omega

/-- A second piece has an offset and a type. -/
theorem regPass_f2 {type : CType} {p : RegPass} (hp : regPass type true = some p)
    (hn : p.nregs = 2) : ∃ f2, p.f2 = some f2 := by
  rcases regPass_cases hp with rfl | h1 | ⟨-, hf2, -⟩
  · exact ⟨_, rfl⟩
  · omega
  · exact Option.isSome_iff_exists.1 hf2

/-- The conditions under which caller and callee put an argument on the stack agree when a
parameter is passed alike. -/
theorem outOfRegs_caller {u : Used} {p : RegPass} {b : Bool}
    (h : outOfRegs p u.ints u.floats 8 = some b) (hlost : b = false → p.usesFloat → u.lost = 0) :
    outOfRegs p u.ints (u.floats + u.lost) 8 = some b := by
  cases b with
  | true => exact outOfRegs_mono (by omega) h
  | false =>
    by_cases hf : p.usesFloat
    · rw [hlost rfl hf, Nat.add_zero]
      exact h
    · rwa [outOfRegs_of_not_usesFloat hf _ _ u.floats]

namespace Sync

variable {u : Used} {st : CallState} {splitofs ofs : Nat} {pst : PrologState}

theorem ready (h : Sync u st splitofs ofs pst) (type : CType) :
    Sync u (st.ready type true) splitofs ofs pst where
  ints := (ready_named st type .int).trans h.ints
  floats := (ready_named st type .float).trans h.floats
  ofs := h.ofs
  split := h.split
  callee := h.callee

/-- What the caller looks at before a parameter. -/
theorem outOfRegs (h : Sync u st splitofs ofs pst) (p : RegPass) :
    outOfRegs p st.areg0 st.areg1 16 = outOfRegs p u.ints (u.floats + u.lost) 8 := by
  rw [h.ints, h.floats, outOfRegs_shift]

/-- A parameter on the stack keeps caller and callee in step. -/
theorem push (h : Sync u st splitofs ofs pst) (type : CType) :
    Sync (u.push type) (st.push type true) splitofs
      (alignUp ofs (max type.passAlign xlen) + type.passSize)
      { pst with addr := alignUp pst.addr (max type.passAlign xlen) + type.passSize } where
  ints := h.ints
  floats := h.floats
  ofs := by rw [h.ofs]; rfl
  split := h.split
  callee := by rw [h.callee]; rfl

/-- So does a register of a class that both count alike. -/
theorem take (h : Sync u st splitofs ofs pst) (c : RegClass) :
    Sync (u.take c) (st.next c) splitofs ofs (pst.next c) := by
  obtain ⟨hints, hfloats, hofs, hsplit, rfl⟩ := h
  cases c with
  | int => exact ⟨congrArg (· + 1) hints, hfloats, hofs, fun hs => Nat.le_succ_of_le (hsplit hs), rfl⟩
  | float =>
    refine ⟨hints, ?_, hofs, hsplit, rfl⟩
    simp only [CallState.next, Used.take, hfloats]
    omega

/-- The registers of both sides have the same numbers. -/
theorem regNumber (h : Sync u st splitofs ofs pst) {c : RegClass}
    (hc : c = .float → u.lost = 0) : pst.regNumber c = st.areg c := by
  obtain ⟨hints, hfloats, -, -, rfl⟩ := h
  cases c with
  | int => exact hints.symm
  | float =>
    simp only [PrologState.regNumber, CallState.areg, hfloats, hc rfl, Nat.add_zero]

end Sync

@[simp] theorem Used.take_lost (u : Used) (c : RegClass) : (u.take c).lost = u.lost := by
  cases c <;> rfl

@[simp] theorem Used.take_stack (u : Used) (c : RegClass) : (u.take c).stack = u.stack := by
  cases c <;> rfl

/-- **A parameter that is passed alike keeps caller and callee in step**, in the case of an object
of at most 16 bytes. -/
theorem step_of_directOk {u : Used} {st : CallState} {splitofs ofs : Nat} {pst : PrologState}
    {type : CType} {p : RegPass} (hsync : Sync u st splitofs ofs pst)
    (hp : regPass type true = some p) (hsize : type.size ≠ 0) (href : type.byref = false)
    (hok : DirectOk u p) :
    ∃ loc st' splitofs' ofs' pst',
      callStep st splitofs ofs type true = some (loc, st', splitofs', ofs') ∧
      prologParam pst type = some (loc, pst') ∧
      Sync (u.after type p) st' splitofs' ofs' pst' := by
  have hafter : u.after type p = if outOfRegs p u.ints u.floats 8 = some true then u.push type
      else u.takeRegs p := by
    rw [Used.after, if_neg hsize, href, if_neg (by decide)]
  have hpst : outOfRegs p pst.areg0 pst.areg1 8 = outOfRegs p u.ints u.floats 8 := by
    rw [hsync.callee]
  have hready := hsync.ready type
  rw [hafter, prologParam_eq hp href, hpst]
  rcases hok with hout | ⟨hout, hf1, hf2small, hlost, haligned⟩
  · -- on the stack
    have hcall := (hready.outOfRegs p).trans (outOfRegs_caller hout (by simp))
    refine ⟨_, _, _, _, { pst with addr := alignUp pst.addr (max type.passAlign xlen) +
      type.passSize }, callStep_stack hp hsize hcall, ?_, ?_⟩
    · rw [hout, href, hsync.ofs, hsync.callee]
      rfl
    · rw [if_pos hout]
      exact hready.push type
  · have hcall := (hready.outOfRegs p).trans (outOfRegs_caller hout fun _ => hlost)
    have hfirst : pst.regNumber p.c1 = (st.ready type true).areg p.c1 :=
      hready.regNumber fun hc => hlost (Or.inl hc)
    have htake := hready.take p.c1
    simp only [hout, Option.bind_some, Bool.false_eq_true, if_false, Option.some.injEq]
    rw [if_neg (regPass_nregs_pos hp hsize), Used.takeRegs]
    by_cases hn : p.nregs = 2
    · obtain ⟨c2, hc2, hff, hmixed⟩ := (areg_lt_of_inRegs hout).2.2 hn
      obtain ⟨f2, hf2⟩ := regPass_f2 hp hn
      have hints : u.ints < 8 ∨ c2 = .float := by
        cases hc1 : p.c1 with
        | int => exact Or.inl ((areg_lt_of_inRegs hout).1 hc1)
        | float =>
          cases c2 with
          | int => exact Or.inl (hmixed (by rw [hc1]; decide)).2
          | float => exact Or.inr rfl
      rw [if_pos hn, if_pos hn, hc2]
      simp only [Option.bind_some]
      cases c2 with
      | float =>
        have hzero : u.lost = 0 := hlost (Or.inr ⟨hn, hc2⟩)
        have hfree : (pst.next p.c1).areg .float < 8 := by
          rw [hsync.callee]
          cases hc1 : p.c1 with
          | int => exact (hmixed (by rw [hc1]; decide)).1
          | float => exact Nat.succ_lt_succ (hff hc1 rfl)
        have hsecond := htake.regNumber (c := .float) fun _ => by rw [Used.take_lost, hzero]
        have hcallee : ((st.ready type true).next p.c1).areg .float
            = 8 + (pst.next p.c1).areg .float := hsecond.symm
        refine ⟨_, _, _, _, (pst.next p.c1).next .float,
          callStep_pair hp hsize hcall hf1 hn hc2 hf2 href (hf2small hn f2 hf2) (Or.inl rfl)
            (by omega), ?_, htake.take .float⟩
        rw [if_neg (by omega), hfirst, hsecond]
      | int =>
        have hint : u.ints < 8 := hints.resolve_right (by decide)
        have hcallee : (pst.next p.c1).areg .int = ((st.ready type true).next p.c1).areg .int :=
          htake.regNumber (c := .int) (by simp)
        have hused : (pst.next p.c1).areg .int = (u.take p.c1).ints :=
          congrArg PrologState.areg0 htake.callee
        by_cases hfull : (u.take p.c1).ints ≥ 8
        · -- the second half goes to the stack
          have hsplit : splitofs = 0 := by
            by_contra hne
            have := hsync.split hne
            omega
          have haddr : (pst.next p.c1).addr = u.stack := by
            rw [htake.callee, Used.take_stack]
          refine ⟨_, _, _, _, { pst.next p.c1 with addr := (pst.next p.c1).addr + 8 },
            callStep_split hp hsize hcall hf1 hn hc2 hf2 href (hf2small hn f2 hf2)
              (by rw [← hused, hcallee] at hfull; exact hfull) hsplit, ?_, ?_⟩
          · rw [if_pos (by omega), haddr, if_neg (by have := haligned hn hc2 hfull; omega), hfirst,
              hsync.ofs]
          · rw [if_pos hfull]
            exact ⟨htake.ints, htake.floats, by rw [hsync.ofs],
              fun _ => hfull, by rw [htake.callee, Used.take_stack]⟩
        · refine ⟨_, _, _, _, (pst.next p.c1).next .int,
            callStep_pair hp hsize hcall hf1 hn hc2 hf2 href (hf2small hn f2 hf2)
              (Or.inr (by rw [← hused, hcallee] at hfull; exact Nat.lt_of_not_le hfull)) (by omega),
            ?_, ?_⟩
          · rw [if_neg (by omega), hfirst, ← hcallee]
            rfl
          · rw [if_neg hfull]
            exact htake.take .int
    · -- one register
      refine ⟨_, _, _, _, pst.next p.c1, callStep_one hp hsize hcall hf1 hn, ?_, ?_⟩
      · rw [if_neg hn, href, hfirst]
      · rw [if_neg hn]
        exact htake

/-- The case of a larger object, whose address is passed. -/
theorem step_of_byrefOk {u : Used} {st : CallState} {splitofs ofs : Nat} {pst : PrologState}
    {type : CType} {p : RegPass} (hsync : Sync u st splitofs ofs pst)
    (hp : regPass type true = some p) (hsize : type.size ≠ 0) (href : type.byref = true)
    (hok : ByrefOk u p) :
    ∃ loc st' splitofs' ofs' pst',
      callStep st splitofs ofs type true = some (loc, st', splitofs', ofs') ∧
      prologParam pst type = some (loc, pst') ∧
      Sync (u.after type p) st' splitofs' ofs' pst' := by
  have hpassSize : type.passSize = 8 := by rw [CType.passSize, href]; rfl
  have hpassAlign : type.passAlign = 8 := by rw [CType.passAlign, href]; rfl
  have hready := hsync.ready type
  have hcallee : pst.areg0 = u.ints := by rw [hsync.callee]
  rw [Used.after, if_neg hsize, href, if_pos rfl, prologParam_byref href, hcallee]
  unfold ByrefOk at hok
  by_cases hfull : u.ints ≥ 8
  · rw [if_pos hfull] at hok
    have hcall := (hready.outOfRegs p).trans hok
    refine ⟨_, _, _, _, { pst with addr := alignUp pst.addr 8 + 8 }, callStep_stack hp hsize hcall,
      ?_, ?_⟩
    · rw [if_pos hfull, href, hpassAlign, hsync.ofs, hsync.callee]
      rfl
    · have hpush := hready.push type
      rw [if_pos hfull]
      rwa [hpassAlign, hpassSize] at hpush ⊢
  · rw [if_neg hfull] at hok
    obtain ⟨hc1, hf1, hout⟩ := hok
    have hcall := (hready.outOfRegs p).trans hout
    have htake := hready.take p.c1
    have hfirst : (st.ready type true).areg p.c1 = u.ints := by rw [hc1]; exact hready.ints
    rw [if_neg hfull, if_neg hfull]
    by_cases hn : p.nregs = 2
    · -- a second piece: the caller counts a float register for it
      obtain ⟨c2, hc2, -⟩ := (areg_lt_of_inRegs hout).2.2 hn
      obtain ⟨f2, hf2⟩ := regPass_f2 hp hn
      have hfloat : p.c2 = some .float := by
        rcases regPass_cases hp with hw | h1 | ⟨-, -, hnot⟩
        · have hlarge : type.size > 16 := by simpa [CType.byref] using href
          rw [hw] at hn
          simp only [RegPass.words] at hn
          omega
        · omega
        · cases c2 with
          | int => exact absurd hc2 (hnot hc1)
          | float => exact hc2
      refine ⟨_, _, _, _, { pst with areg0 := u.ints + 1 },
        callStep_byrefFloat hp hsize hcall hf1 hn hfloat hf2 href, ?_, ?_⟩
      · rw [hfirst]
      · rw [hc1] at htake ⊢
        refine ⟨htake.ints, ?_, htake.ofs, htake.split, by rw [hsync.callee]⟩
        have hfloats := htake.floats
        simp only [CallState.next, Used.take, if_pos hn] at hfloats ⊢
        omega
    · refine ⟨_, _, _, _, { pst with areg0 := u.ints + 1 }, callStep_one hp hsize hcall hf1 hn,
        ?_, ?_⟩
      · rw [hfirst, href]
      · rw [hc1] at htake ⊢
        rw [if_neg hn]
        exact ⟨htake.ints, htake.floats, htake.ofs, htake.split, by rw [hsync.callee]⟩

/-- A parameter without bytes, before the integer registers are used up. -/
theorem step_of_zero {u : Used} {st : CallState} {splitofs ofs : Nat} {pst : PrologState}
    {type : CType} {p : RegPass} (hsync : Sync u st splitofs ofs pst)
    (hp : regPass type true = some p) (hsize : type.size = 0) (hn : p.nregs = 0)
    (hints : u.ints < 8) :
    ∃ loc st' splitofs' ofs' pst',
      callStep st splitofs ofs type true = some (loc, st', splitofs', ofs') ∧
      prologParam pst type = some (loc, pst') ∧
      Sync (u.after type p) st' splitofs' ofs' pst' := by
  have hwords : p = .words type.size := by
    rcases regPass_cases hp with hw | h1 | ⟨h2, -⟩
    · exact hw
    · omega
    · omega
  have href : type.byref = false := by simp [CType.byref, hsize]
  have hout : outOfRegs p pst.areg0 pst.areg1 8 = some false := by
    rw [hsync.callee, hwords]
    simp [outOfRegs, RegPass.words, hsize, hints]
  refine ⟨_, _, _, _, pst, callStep_zero hp hsize, ?_, ?_⟩
  · rw [prologParam_eq hp href, hout]
    simp [hn]
  · rw [Used.after, if_pos hsize]
    exact hsync.ready type

/-- **A parameter that is passed alike keeps caller and callee in step.** -/
theorem step_of_paramOk {u : Used} {st : CallState} {splitofs ofs : Nat} {pst : PrologState}
    {type : CType} {p : RegPass} (hsync : Sync u st splitofs ofs pst)
    (hp : regPass type true = some p) (hok : ParamOk u type p) :
    ∃ loc st' splitofs' ofs' pst',
      callStep st splitofs ofs type true = some (loc, st', splitofs', ofs') ∧
      prologParam pst type = some (loc, pst') ∧
      Sync (u.after type p) st' splitofs' ofs' pst' := by
  unfold ParamOk at hok
  split at hok
  · next hsize => exact step_of_zero hsync hp hsize hok.1 hok.2
  · next hsize =>
    split at hok
    · next href => exact step_of_byrefOk hsync hp hsize href hok
    · next href => exact step_of_directOk hsync hp hsize (by simpa using href) hok

/-! ## The step, backwards -/

/-- In registers the callee, too, starts with the next one of the first class. -/
theorem prologParam_firstReg {pst pst' : PrologState} {type : CType} {p : RegPass} {loc : Location}
    (hp : regPass type true = some p) (hsize : type.size ≠ 0) (href : type.byref = false)
    (hout : outOfRegs p pst.areg0 pst.areg1 8 = some false)
    (hstep : prologParam pst type = some (loc, pst')) :
    loc.place.firstReg = some (pst.regNumber p.c1) := by
  rw [prologParam_eq hp href, hout] at hstep
  simp only [Option.bind_some, Bool.false_eq_true, if_false] at hstep
  rw [if_neg (regPass_nregs_pos hp hsize)] at hstep
  split at hstep
  · obtain ⟨c2, -, hstep⟩ := Option.bind_eq_some_iff.1 hstep
    split at hstep
    · split at hstep
      · cases hstep
      · cases hstep
        rfl
    · cases hstep
      rfl
  · cases hstep
    rfl

section Backwards

variable {u : Used} {st st' : CallState} {splitofs ofs splitofs' ofs' : Nat}
  {pst pst' : PrologState} {type : CType} {p : RegPass} {loc : Location}

theorem zero_of_step (hsync : Sync u st splitofs ofs pst) (hp : regPass type true = some p)
    (hsize : type.size = 0)
    (hcall : callStep st splitofs ofs type true = some (loc, st', splitofs', ofs'))
    (hprolog : prologParam pst type = some (loc, pst')) : p.nregs = 0 ∧ u.ints < 8 := by
  have href : type.byref = false := by simp [CType.byref, hsize]
  rw [callStep_zero hp hsize] at hcall
  cases hcall
  rw [prologParam_eq hp href] at hprolog
  obtain ⟨onStack, hout, hprolog⟩ := Option.bind_eq_some_iff.1 hprolog
  split at hprolog
  · cases hprolog
  · next hregs =>
    rw [Bool.not_eq_true] at hregs
    rw [hregs, hsync.callee] at hout
    split at hprolog
    · next hn =>
      refine ⟨hn, (areg_lt_of_inRegs hout).1 ?_⟩
      rcases regPass_cases hp with hw | h1 | ⟨h2, -⟩
      · rw [hw]
        rfl
      · omega
      · omega
    · split at hprolog
      · obtain ⟨c2, -, hprolog⟩ := Option.bind_eq_some_iff.1 hprolog
        split at hprolog
        · split at hprolog <;> cases hprolog
        · cases hprolog
      · cases hprolog

theorem byrefOk_of_step (hsync : Sync u st splitofs ofs pst) (hp : regPass type true = some p)
    (hsize : type.size ≠ 0) (href : type.byref = true)
    (hcall : callStep st splitofs ofs type true = some (loc, st', splitofs', ofs'))
    (hprolog : prologParam pst type = some (loc, pst')) : ByrefOk u p := by
  have hready := hsync.ready type
  have hcallee : pst.areg0 = u.ints := by rw [hsync.callee]
  rw [prologParam_byref href, hcallee] at hprolog
  rw [ByrefOk, ← hready.outOfRegs p]
  cases hout : outOfRegs p (st.ready type true).areg0 (st.ready type true).areg1 16 with
  | none =>
    rw [callStep_outOfRegs_none hp hsize hout] at hcall
    cases hcall
  | some onStack =>
    cases onStack with
    | true =>
      rw [callStep_stack hp hsize hout] at hcall
      cases hcall
      split at hprolog
      · next hfull => rw [if_pos hfull]
      · cases hprolog
    | false =>
      obtain ⟨hf1, hfirst⟩ := callStep_firstReg hp hsize hout hcall
      split at hprolog
      · cases hprolog
        cases hfirst
      · next hfull =>
        cases hprolog
        rw [if_neg hfull]
        refine ⟨?_, hf1, rfl⟩
        cases hc1 : p.c1 with
        | int => rfl
        | float =>
          rw [hc1] at hfirst
          have hreg : u.ints = (st.ready type true).areg1 := Option.some.inj hfirst
          have := hready.floats
          omega

/-- A second piece in a float register shows whether both sides count these alike. -/
theorem lost_of_pair (hsync : Sync u st splitofs ofs pst) (hp : regPass type true = some p)
    (hsize : type.size ≠ 0) (href : type.byref = false)
    (hout : outOfRegs p u.ints u.floats 8 = some false)
    (hcout : outOfRegs p (st.ready type true).areg0 (st.ready type true).areg1 16 = some false)
    (hf1 : p.f1.ofs = 0) (hn : p.nregs = 2) (hc2 : p.c2 = some .float)
    (hf2small : p.nregs = 2 → ∀ f2 ∈ p.f2, f2.ofs < 2048)
    (hcall : callStep st splitofs ofs type true = some (loc, st', splitofs', ofs'))
    (hprolog : prologParam pst type = some (loc, pst')) : u.lost = 0 := by
  have hready := hsync.ready type
  have htake := hready.take p.c1
  obtain ⟨f2, hf2⟩ := regPass_f2 hp hn
  obtain ⟨c2, hc2', hff, hmixed⟩ := (areg_lt_of_inRegs hout).2.2 hn
  obtain ⟨c2', hc2'', hff', hmixed'⟩ :=
    (areg_lt_of_inRegs ((hready.outOfRegs p).symm.trans hcout)).2.2 hn
  obtain rfl : c2 = .float := Option.some.inj (hc2'.symm.trans hc2)
  obtain rfl : c2' = .float := Option.some.inj (hc2''.symm.trans hc2)
  have hcaller := htake.floats
  have hcallee : (pst.next p.c1).areg .float = (u.take p.c1).floats :=
    congrArg PrologState.areg1 htake.callee
  have hbound : (u.take p.c1).floats < 8 ∧ (u.take p.c1).floats + u.lost < 8 := by
    cases hc1 : p.c1 with
    | int => exact ⟨(hmixed (by rw [hc1]; decide)).1, (hmixed' (by rw [hc1]; decide)).1⟩
    | float =>
      have h1 := hff hc1 rfl
      have h2 := hff' hc1 rfl
      simp only [Used.take]
      omega
  rw [Used.take_lost] at hcaller
  have hareg : ((st.ready type true).next p.c1).areg .float < 31 := by
    show ((st.ready type true).next p.c1).areg1 < 31
    omega
  rw [callStep_pair hp hsize hcout hf1 hn hc2 hf2 href (hf2small hn f2 hf2) (Or.inl rfl) hareg]
    at hcall
  rw [prologParam_eq hp href, hsync.callee, hout, ← hsync.callee] at hprolog
  simp only [Option.bind_some, Bool.false_eq_true, if_false] at hprolog
  rw [if_neg (regPass_nregs_pos hp hsize), if_pos hn, hc2, Option.bind_some, if_neg (by omega)]
    at hprolog
  cases hcall
  obtain ⟨hloc, -⟩ := Prod.mk.inj (Option.some.inj hprolog)
  obtain ⟨hplace, -⟩ := Location.mk.inj hloc
  obtain ⟨-, hsecond⟩ := Place.regPair.inj hplace
  have hnumber : 8 + (pst.next p.c1).areg .float = ((st.ready type true).next p.c1).areg1 := hsecond
  omega

theorem directOk_of_step (hsync : Sync u st splitofs ofs pst) (hp : regPass type true = some p)
    (hsize : type.size ≠ 0) (href : type.byref = false)
    (hcall : callStep st splitofs ofs type true = some (loc, st', splitofs', ofs'))
    (hprolog : prologParam pst type = some (loc, pst')) : DirectOk u p := by
  have hready := hsync.ready type
  have hpst : outOfRegs p pst.areg0 pst.areg1 8 = outOfRegs p u.ints u.floats 8 := by
    rw [hsync.callee]
  cases hout : outOfRegs p u.ints u.floats 8 with
  | none =>
    rw [prologParam_eq hp href, hpst, hout] at hprolog
    cases hprolog
  | some onStack =>
    cases onStack with
    | true => exact Or.inl hout
    | false =>
      refine Or.inr ⟨hout, ?_⟩
      have hfirst := prologParam_firstReg hp hsize href (hpst.trans hout) hprolog
      cases hcout : outOfRegs p (st.ready type true).areg0 (st.ready type true).areg1 16 with
      | none =>
        rw [callStep_outOfRegs_none hp hsize hcout] at hcall
        cases hcall
      | some callStack =>
        cases callStack with
        | true =>
          rw [callStep_stack hp hsize hcout] at hcall
          cases hcall
          cases hfirst
        | false =>
          obtain ⟨hf1, hcfirst⟩ := callStep_firstReg hp hsize hcout hcall
          have hf2small : p.nregs = 2 → ∀ f2 ∈ p.f2, f2.ofs < 2048 := by
            intro hn f2 hf2
            by_contra hlarge
            rw [callStep_badSecond hp hsize hcout hf1 hn hf2 href (by omega)] at hcall
            cases hcall
          have hreg : pst.regNumber p.c1 = (st.ready type true).areg p.c1 :=
            Option.some.inj (hfirst.symm.trans hcfirst)
          have hlost1 : p.c1 = .float → u.lost = 0 := by
            intro hc1
            rw [hc1, hsync.callee] at hreg
            have hnumber : 8 + u.floats = (st.ready type true).areg1 := hreg
            have := hready.floats
            omega
          refine ⟨hf1, hf2small, ?_, ?_⟩
          · rintro (hc1 | ⟨hn, hc2⟩)
            · exact hlost1 hc1
            · exact lost_of_pair hsync hp hsize href hout hcout hf1 hn hc2 hf2small hcall hprolog
          · intro hn hc2 hfull
            rw [prologParam_eq hp href, hpst, hout] at hprolog
            simp only [Option.bind_some, Bool.false_eq_true, if_false] at hprolog
            have htake := hready.take p.c1
            have hused : (pst.next p.c1).areg .int = (u.take p.c1).ints :=
              congrArg PrologState.areg0 htake.callee
            have haddr : (pst.next p.c1).addr = u.stack := by
              rw [htake.callee, Used.take_stack]
            rw [if_neg (regPass_nregs_pos hp hsize), if_pos hn, hc2, Option.bind_some,
              if_pos (by omega), haddr] at hprolog
            by_contra hne
            rw [if_pos hne] at hprolog
            cases hprolog

/-- **A parameter that both sides place alike satisfies the condition.** -/
theorem paramOk_of_step (hsync : Sync u st splitofs ofs pst)
    (hcall : callStep st splitofs ofs type true = some (loc, st', splitofs', ofs'))
    (hprolog : prologParam pst type = some (loc, pst')) :
    ∃ p, regPass type true = some p ∧ ParamOk u type p := by
  cases hp : regPass type true with
  | none =>
    rw [callStep_none hp] at hcall
    cases hcall
  | some p =>
    refine ⟨p, rfl, ?_⟩
    unfold ParamOk
    split
    · next hsize => exact zero_of_step hsync hp hsize hcall hprolog
    · next hsize =>
      split
      · next href => exact byrefOk_of_step hsync hp hsize href hcall hprolog
      · next href => exact directOk_of_step hsync hp hsize (by simpa using href) hcall hprolog

end Backwards

/-! ## The last argument of a function that returns a struct in memory

The address for the struct uses up the first declared parameter, so for the last argument none is
left and it is classified as an unnamed one. -/

/-- The first integer register of an unnamed argument. -/
def Used.unnamedInts (u : Used) (type : CType) : Nat :=
  if type.align = 16 then (u.ints + 1) / 2 * 2 else u.ints

/-- The last argument is passed as an unnamed one and received alike: it is passed by reference, or
goes to the stack either way, or is received as plain words from the same registers. -/
def LastOk (u : Used) (type : CType) : Prop :=
  type.byref = true ∨ ∃ p, regPass type true = some p ∧
    if type.size = 0 then p.nregs = 0 ∧ u.ints < 8
    else if u.unnamedInts type ≥ 8 then outOfRegs p u.ints u.floats 8 = some true
    else u.unnamedInts type = u.ints ∧ p.c1 = .int ∧ p.nregs = (type.size + 7) / 8 ∧
      (p.nregs = 2 → p.c2 = some .int ∧ (u.ints = 7 → u.stack % 8 = 0))

theorem outOfRegs_words (size ints floats top : Nat) :
    outOfRegs (.words size) ints floats top = some (decide (8 ≤ ints)) := by
  by_cases h : 8 ≤ ints
  · simp [outOfRegs, RegPass.words, h]
  · simp [outOfRegs, RegPass.words, h]

section Last

variable {u : Used} {st : CallState} {splitofs ofs : Nat} {pst : PrologState} {type : CType}

theorem Sync.ready_unnamed (h : Sync u st splitofs ofs pst) (href : type.byref = false) :
    (st.ready type false).areg0 = u.unnamedInts type := by
  have halign : type.passAlign = type.align := by rw [CType.passAlign, href]; rfl
  have hsize : type.passSize ≤ 16 := by
    rw [CType.passSize, href]
    simpa [CType.byref] using href
  rw [Used.unnamedInts, ← h.ints, CallState.ready, CallState.roundInts, CallState.reserve, href,
    halign]
  by_cases ha : type.align = 16
  · simp [ha, xlen, hsize]
  · simp [ha, xlen]

theorem last_byref (hsync : Sync u st splitofs ofs pst) (href : type.byref = true) :
    ∃ loc, (callStep st splitofs ofs type false).map Prod.fst = some loc ∧
      (prologParam pst type).map Prod.fst = some loc := by
  have hlarge : type.size > 16 := by simpa [CType.byref] using href
  have hpassAlign : type.passAlign = 8 := by rw [CType.passAlign, href]; rfl
  have hareg : (st.ready type false).areg0 = u.ints := by
    rw [← hsync.ints, CallState.ready, CallState.roundInts, CallState.reserve, href, hpassAlign]
    rfl
  have hcallee : pst.areg0 = u.ints := by rw [hsync.callee]
  have hout := outOfRegs_words type.size (st.ready type false).areg0 (st.ready type false).areg1 16
  rw [prologParam_byref href, hcallee]
  by_cases hfull : u.ints ≥ 8
  · rw [decide_eq_true (by omega)] at hout
    refine ⟨⟨.stack (alignUp u.stack 8), true⟩, ?_, ?_⟩
    · rw [callStep_stack rfl (by omega) hout, href, hpassAlign, hsync.ofs]
      rfl
    · rw [if_pos hfull, hsync.callee]
      rfl
  · rw [decide_eq_false (by omega)] at hout
    refine ⟨⟨.reg u.ints, true⟩, ?_, ?_⟩
    · rw [callStep_one rfl (by omega) hout rfl (by simp only [RegPass.words]; omega), href]
      exact congrArg (fun r => some (Location.mk (.reg r) true)) hareg
    · rw [if_neg hfull]
      rfl

/-- Where an unnamed argument of at most 16 bytes goes when the integer registers are not used
up. -/
theorem callStep_unnamed (hsync : Sync u st splitofs ofs pst) (hsize : type.size ≠ 0)
    (href : type.byref = false) (hfree : u.unnamedInts type < 8) :
    (callStep st splitofs ofs type false).map Prod.fst = some
      ⟨if type.size ≤ 8 then .reg (u.unnamedInts type)
        else if u.unnamedInts type < 7 then
          .regPair (u.unnamedInts type) (u.unnamedInts type + 1)
        else .regStack (u.unnamedInts type) u.stack, false⟩ := by
  have hareg := hsync.ready_unnamed href
  have hsmall : type.size ≤ 16 := by simpa [CType.byref] using href
  have hout := outOfRegs_words type.size (st.ready type false).areg0 (st.ready type false).areg1 16
  rw [decide_eq_false (by omega)] at hout
  have hfirst : (st.ready type false).areg (RegPass.words type.size).c1 = u.unnamedInts type :=
    hareg
  have hnext : ((st.ready type false).next (RegPass.words type.size).c1).areg0
      = u.unnamedInts type + 1 := congrArg (· + 1) hareg
  by_cases h8 : type.size ≤ 8
  · rw [callStep_one rfl hsize hout rfl (by simp only [RegPass.words]; omega), if_pos h8, href,
      hfirst]
    rfl
  · have hn : (RegPass.words type.size).nregs = 2 := by
      simp only [RegPass.words]
      omega
    rw [if_neg h8]
    by_cases h7 : u.unnamedInts type < 7
    · have hsecond : ((st.ready type false).next (RegPass.words type.size).c1).areg .int
          = u.unnamedInts type + 1 := hnext
      rw [callStep_pair rfl hsize hout rfl hn (show _ = some RegClass.int from rfl) rfl href (by simp)
        (Or.inr (by omega)) (by omega), if_pos h7, hfirst, hsecond]
      rfl
    · have hsplit : splitofs = 0 := by
        by_contra hne
        have := hsync.split hne
        simp only [Used.unnamedInts] at hfree
        split at hfree <;> omega
      rw [callStep_split rfl hsize hout rfl hn rfl rfl href (by simp) (by omega) hsplit, if_neg h7,
        hfirst, hsync.ofs]
      rfl

/-- The callee finds a parameter without bytes nowhere. -/
theorem prologParam_nowhere_iff (hsync : Sync u st splitofs ofs pst) (hsize : type.size = 0) :
    (prologParam pst type).map Prod.fst = some ⟨.nowhere, false⟩ ↔
      ∃ p, regPass type true = some p ∧ p.nregs = 0 ∧ u.ints < 8 := by
  constructor
  · intro h
    obtain ⟨⟨loc, pst'⟩, hprolog, hloc⟩ := Option.map_eq_some_iff.1 h
    obtain rfl : loc = _ := hloc
    cases hp : regPass type true with
    | none =>
      have href : type.byref = false := by simp [CType.byref, hsize]
      simp [prologParam, href, hp] at hprolog
    | some p => exact ⟨p, rfl, zero_of_step hsync hp hsize (callStep_zero hp hsize) hprolog⟩
  · rintro ⟨p, hp, hn, hints⟩
    obtain ⟨loc, st', s', o', pst', hcall, hprolog, -⟩ := step_of_zero hsync hp hsize hn hints
    rw [callStep_zero hp hsize] at hcall
    cases hcall
    rw [hprolog]
    rfl

/-- What the callee does with the last parameter when the caller puts it on the stack. -/
theorem prologParam_stack_iff (hsync : Sync u st splitofs ofs pst) {p : RegPass}
    (hp : regPass type true = some p) (hsize : type.size ≠ 0) (href : type.byref = false) :
    (prologParam pst type).map Prod.fst
        = some ⟨.stack (alignUp u.stack (max type.passAlign xlen)), false⟩ ↔
      outOfRegs p u.ints u.floats 8 = some true := by
  have hpst : outOfRegs p pst.areg0 pst.areg1 8 = outOfRegs p u.ints u.floats 8 := by
    rw [hsync.callee]
  constructor
  · intro h
    obtain ⟨⟨loc, pst'⟩, hprolog, hloc⟩ := Option.map_eq_some_iff.1 h
    obtain rfl : loc = _ := hloc
    cases hout : outOfRegs p u.ints u.floats 8 with
    | none =>
      rw [prologParam_eq hp href, hpst, hout] at hprolog
      cases hprolog
    | some onStack =>
      cases onStack with
      | true => rfl
      | false => cases prologParam_firstReg hp hsize href (hpst.trans hout) hprolog
  · intro hout
    rw [prologParam_eq hp href, hpst, hout, hsync.callee]
    rfl

/-- What the callee does with a parameter that starts in an integer register. -/
theorem prologParam_int (hsync : Sync u st splitofs ofs pst) {p : RegPass}
    (hp : regPass type true = some p) (hsize : type.size ≠ 0) (href : type.byref = false)
    (hout : outOfRegs p u.ints u.floats 8 = some false) (hc1 : p.c1 = .int) :
    (prologParam pst type).map Prod.fst =
      if p.nregs = 2 then
        if p.c2 = some .float then some ⟨.regPair u.ints (8 + u.floats), false⟩
        else if u.ints < 7 then some ⟨.regPair u.ints (u.ints + 1), false⟩
        else if u.stack % 8 = 0 then some ⟨.regStack u.ints u.stack, false⟩
        else none
      else some ⟨.reg u.ints, false⟩ := by
  have hpst : outOfRegs p pst.areg0 pst.areg1 8 = outOfRegs p u.ints u.floats 8 := by
    rw [hsync.callee]
  have hfirst : pst.regNumber .int = u.ints := by rw [hsync.callee]; rfl
  have hnext : (pst.next .int).areg .int = u.ints + 1 := by rw [hsync.callee]; rfl
  have hfloat : (pst.next .int).areg .float = u.floats := by rw [hsync.callee]; rfl
  have haddr : (pst.next .int).addr = u.stack := by rw [hsync.callee]; rfl
  rw [prologParam_eq hp href, hpst, hout, Option.bind_some, if_neg (by decide),
    if_neg (regPass_nregs_pos hp hsize), hc1, hfirst]
  by_cases hn : p.nregs = 2
  · rw [if_pos hn, if_pos hn]
    obtain ⟨c2, hc2, -, hmixed⟩ := (areg_lt_of_inRegs hout).2.2 hn
    rw [hc2, Option.bind_some]
    cases c2 with
    | float =>
      have hfree := (hmixed (by rw [hc1]; decide)).1
      have hsecond : (pst.next .int).regNumber .float = 8 + u.floats := by rw [hsync.callee]; rfl
      rw [if_neg (by omega), if_pos rfl, hsecond]
      rfl
    | int =>
      have hsecond : (pst.next .int).regNumber .int = u.ints + 1 := hnext
      rw [if_neg (by decide : ¬ some RegClass.int = some .float)]
      by_cases h7 : u.ints < 7
      · rw [if_neg (by omega), if_pos h7, hsecond]
        rfl
      · rw [if_pos (by omega), if_neg h7, haddr]
        by_cases h0 : u.stack % 8 = 0
        · rw [if_neg (not_not_intro h0), if_pos h0]
          rfl
        · rw [if_pos h0, if_neg h0]
          rfl
  · rw [if_neg hn, if_neg hn]
    rfl

/-- What the callee does with the last parameter when the caller puts it in integer registers from
`a` on. -/
theorem prologParam_words_iff (hsync : Sync u st splitofs ofs pst) {p : RegPass}
    (hp : regPass type true = some p) (hsize : type.size ≠ 0) (href : type.byref = false)
    {a : Nat} (ha : a < 8) :
    (prologParam pst type).map Prod.fst
        = some ⟨if type.size ≤ 8 then .reg a else if a < 7 then .regPair a (a + 1)
            else .regStack a u.stack, false⟩ ↔
      a = u.ints ∧ p.c1 = .int ∧ p.nregs = (type.size + 7) / 8 ∧
        (p.nregs = 2 → p.c2 = some .int ∧ (u.ints = 7 → u.stack % 8 = 0)) := by
  have hsmall : type.size ≤ 16 := by simpa [CType.byref] using href
  have hpst : outOfRegs p pst.areg0 pst.areg1 8 = outOfRegs p u.ints u.floats 8 := by
    rw [hsync.callee]
  have hnregs : p.nregs = 2 ∨ p.nregs = (type.size + 7) / 8 ∨ p.nregs = 1 := by
    rcases regPass_cases hp with hw | h1 | ⟨h2, -⟩
    · rw [hw]
      exact Or.inr (Or.inl rfl)
    · exact Or.inr (Or.inr h1)
    · exact Or.inl h2
  constructor
  · intro h
    obtain ⟨⟨loc, pst'⟩, hprolog, hloc⟩ := Option.map_eq_some_iff.1 h
    obtain rfl : loc = _ := hloc
    cases hout : outOfRegs p u.ints u.floats 8 with
    | none =>
      rw [prologParam_eq hp href, hpst, hout] at hprolog
      cases hprolog
    | some onStack =>
      cases onStack with
      | true =>
        rw [prologParam_eq hp href, hpst, hout] at hprolog
        simp only [Option.bind_some, if_true] at hprolog
        have hplace := congrArg Location.place (congrArg Prod.fst (Option.some.inj hprolog))
        simp only at hplace
        split at hplace
        · cases hplace
        · split at hplace <;> cases hplace
      | false =>
        have hfirst := prologParam_firstReg hp hsize href (hpst.trans hout) hprolog
        have ha' : a = pst.regNumber p.c1 := by
          split at hfirst
          · exact Option.some.inj hfirst
          · split at hfirst <;> exact Option.some.inj hfirst
        have hc1 : p.c1 = .int := by
          cases hc1 : p.c1 with
          | int => rfl
          | float =>
            rw [hc1, hsync.callee] at ha'
            simp only [PrologState.regNumber] at ha'
            omega
        have haints : a = u.ints := by
          rw [ha', hc1, hsync.callee]
          rfl
        subst haints
        rw [prologParam_int hsync hp hsize href hout hc1] at h
        refine ⟨rfl, hc1, ?_⟩
        by_cases hn : p.nregs = 2
        · obtain ⟨c2, hc2, -⟩ := (areg_lt_of_inRegs hout).2.2 hn
          rw [if_pos hn, hc2] at h
          cases c2 with
          | float =>
            rw [if_pos rfl] at h
            grind
          | int =>
            rw [if_neg (by decide)] at h
            grind
        · rw [if_neg hn] at h
          grind
  · rintro ⟨rfl, hc1, hn, hpair⟩
    have hout : outOfRegs p u.ints u.floats 8 = some false := by
      by_cases h2 : p.nregs = 2
      · simp [outOfRegs, hc1, ha, h2, (hpair h2).1]
      · simp [outOfRegs, hc1, ha, h2]
    rw [prologParam_int hsync hp hsize href hout hc1]
    by_cases h8 : type.size ≤ 8
    · rw [if_neg (by omega), if_pos h8]
    · have h2 : p.nregs = 2 := by omega
      obtain ⟨hc2, haligned⟩ := hpair h2
      rw [if_pos h2, if_neg h8, hc2, if_neg (by decide)]
      by_cases h7 : u.ints < 7
      · rw [if_pos h7, if_pos h7]
      · rw [if_neg h7, if_neg h7, if_pos (haligned (by omega))]

/-- **The last argument of a function that returns in memory** is placed alike exactly when
`LastOk` says so. -/
theorem last_iff (hsync : Sync u st splitofs ofs pst) :
    (∃ loc, (callStep st splitofs ofs type false).map Prod.fst = some loc ∧
      (prologParam pst type).map Prod.fst = some loc) ↔ LastOk u type := by
  cases href : type.byref with
  | true => exact iff_of_true (last_byref hsync href) (Or.inl href)
  | false =>
    rw [LastOk, href]
    simp only [Bool.false_eq_true, false_or]
    by_cases hsize : type.size = 0
    · simp only [hsize, if_true]
      rw [← prologParam_nowhere_iff hsync hsize, callStep_zero rfl hsize]
      simp
    · simp only [hsize, if_false]
      cases hp : regPass type true with
      | none =>
        have hnone : prologParam pst type = none := by simp [prologParam, href, hp]
        simp [hnone]
      | some p =>
        simp only [Option.some.injEq, exists_eq_left']
        by_cases hfull : u.unnamedInts type ≥ 8
        · have hout := outOfRegs_words type.size (st.ready type false).areg0
            (st.ready type false).areg1 16
          rw [decide_eq_true (by rw [hsync.ready_unnamed href]; omega)] at hout
          rw [if_pos hfull, callStep_stack rfl hsize hout, href, hsync.ofs,
            ← prologParam_stack_iff hsync hp hsize href]
          simp
        · rw [if_neg hfull, callStep_unnamed hsync hsize href (by omega),
            ← prologParam_words_iff hsync hp hsize href (by omega)]
          simp

end Last

/-! ## All parameters -/

/-- All parameters are passed and received alike, from `u` on. With `hidden`, the address for the
returned object has used up one entry of the parameter list. -/
def ParamsOk (hidden : Bool) (u : Used) : List CType → Prop
  | [] => True
  | type :: types =>
    if hidden && types.isEmpty then LastOk u type
    else ∃ p, regPass type true = some p ∧ ParamOk u type p ∧ ParamsOk hidden (u.after type p) types

/-- **Run lemma**: from states in step, caller and callee find the same locations for a list of
parameters exactly when every parameter is passed and received alike. -/
theorem walk_iff (hidden : Bool) (types : List CType) {u : Used} {st : CallState}
    {splitofs ofs : Nat} {pst : PrologState} (hsync : Sync u st splitofs ofs pst) :
    (∃ locs, callWalk st splitofs ofs types (types.length - hidden.toNat) = some locs ∧
      prologParams pst types = some locs) ↔ ParamsOk hidden u types := by
  induction types generalizing u st splitofs ofs pst with
  | nil => exact iff_of_true ⟨[], rfl, rfl⟩ trivial
  | cons type types ih =>
    rw [ParamsOk]
    split
    · next hlast =>
      -- the last argument of a function that returns in memory
      obtain ⟨rfl, hempty⟩ : hidden = true ∧ types = [] := by simpa using hlast
      subst hempty
      rw [← last_iff hsync, callWalk_cons]
      simp only [List.length_singleton, Bool.toNat_true, Nat.sub_self, gt_iff_lt, lt_self_iff_false,
        decide_false, callWalk, prologParams]
      constructor
      · rintro ⟨locs, hcall, hprolog⟩
        obtain ⟨⟨loc, rest⟩, hstep, hlocs⟩ := Option.bind_eq_some_iff.1 hcall
        obtain ⟨⟨loc', pst'⟩, hparam, hlocs'⟩ := Option.bind_eq_some_iff.1 hprolog
        cases hlocs
        obtain rfl : loc' = loc := (List.cons.inj (Option.some.inj hlocs')).1
        exact ⟨loc', by rw [hstep]; rfl, by rw [hparam]; rfl⟩
      · rintro ⟨loc, hcall, hprolog⟩
        obtain ⟨⟨loc1, rest⟩, hstep, rfl⟩ := Option.map_eq_some_iff.1 hcall
        obtain ⟨⟨loc2, pst'⟩, hparam, rfl⟩ := Option.map_eq_some_iff.1 hprolog
        exact ⟨[_], by rw [hstep]; rfl, by rw [hparam]; rfl⟩
    · next hnot =>
      have hnamed : (type :: types).length - hidden.toNat > 0 := by
        cases hidden with
        | false => simp
        | true =>
          have hne : types ≠ [] := by simpa using hnot
          have := List.length_pos_iff.2 hne
          simp only [List.length_cons, Bool.toNat_true]
          omega
      have hrest : (type :: types).length - hidden.toNat - 1 = types.length - hidden.toNat := by
        simp only [List.length_cons]
        omega
      rw [callWalk_cons, hrest, decide_eq_true hnamed, prologParams]
      constructor
      · rintro ⟨locs, hcall, hprolog⟩
        obtain ⟨⟨loc, st', s', o'⟩, hstep, hcall⟩ := Option.bind_eq_some_iff.1 hcall
        obtain ⟨locs1, hwalk, rfl⟩ := Option.map_eq_some_iff.1 hcall
        obtain ⟨⟨loc', pst'⟩, hparam, hprolog⟩ := Option.bind_eq_some_iff.1 hprolog
        obtain ⟨locs2, hparams, heq⟩ := Option.bind_eq_some_iff.1 hprolog
        obtain ⟨rfl, rfl⟩ := List.cons.inj (Option.some.inj heq)
        obtain ⟨p, hp, hok⟩ := paramOk_of_step hsync hstep hparam
        obtain ⟨_, _, _, _, _, hstep', hparam', hsync'⟩ := step_of_paramOk hsync hp hok
        cases hstep.symm.trans hstep'
        cases hparam.symm.trans hparam'
        exact ⟨p, hp, hok, (ih hsync').1 ⟨locs2, hwalk, hparams⟩⟩
      · rintro ⟨p, hp, hok, hrestOk⟩
        obtain ⟨loc, st', s', o', pst', hstep, hparam, hsync'⟩ := step_of_paramOk hsync hp hok
        obtain ⟨locs, hwalk, hparams⟩ := (ih hsync').2 hrestOk
        exact ⟨loc :: locs, by rw [hstep]; simp [hwalk], by rw [hparam]; simp [hparams]⟩

theorem callWalk_length {types : List CType} {st : CallState} {splitofs ofs nparams : Nat}
    {locs : List Location} (h : callWalk st splitofs ofs types nparams = some locs) :
    locs.length = types.length := by
  induction types generalizing st splitofs ofs nparams locs with
  | nil =>
    cases h
    rfl
  | cons type types ih =>
    rw [callWalk_cons] at h
    obtain ⟨⟨loc, st', s', o'⟩, -, h⟩ := Option.bind_eq_some_iff.1 h
    obtain ⟨locs', hwalk, rfl⟩ := Option.map_eq_some_iff.1 h
    exact congrArg (· + 1) (ih hwalk)

theorem prologParams_length {types : List CType} {pst : PrologState} {locs : List Location}
    (h : prologParams pst types = some locs) : locs.length = types.length := by
  induction types generalizing pst locs with
  | nil =>
    cases h
    rfl
  | cons type types ih =>
    obtain ⟨⟨loc, pst'⟩, -, h⟩ := Option.bind_eq_some_iff.1 h
    obtain ⟨locs', hparams, heq⟩ := Option.bind_eq_some_iff.1 h
    cases heq
    exact congrArg (· + 1) (ih hparams)

/-! ## The function type -/

/-- Whether the callee expects the address for the returned object. -/
def FuncType.hidden (f : FuncType) : Bool := retSize f.ret > 16

/-- A struct of at most 16 bytes is returned in registers: at least one, of a known class. -/
def RetOk (f : FuncType) : Prop :=
  ∀ vt ∈ f.ret, vt.isStruct = true → vt.size ≤ 16 →
    ∃ p, regPass vt true = some p ∧ p.nregs ≠ 0 ∧ (p.nregs = 2 → p.c2.isSome)

/-- Caller and callee agree on the locations of the arguments. -/
def CallAgrees (f : FuncType) : Prop :=
  ∃ locs, callLocations f = some locs ∧ prologLocations f = some locs

/-- The address for the returned object goes to the first integer register, named or not. -/
theorem callStep_hidden (named : Bool) :
    ∃ st, callStep .start 0 0 (.scalar .int) named = some (⟨.reg 0, false⟩, st, 0, 0) ∧
      Sync ⟨1, 0, 0, 0⟩ st 0 0 ⟨1, 0, 0⟩ := by
  cases named <;> exact ⟨⟨1, 8, 0, 0⟩, rfl, rfl, rfl, rfl, fun h => absurd rfl h, rfl⟩

/-- What the first argument is when both sides agree on the address for the returned object. -/
def FuncType.used (f : FuncType) : Used := ⟨f.hidden.toNat, 0, 0, 0⟩

theorem callLocations_of_hidden {f : FuncType} (h : callPassesRet f.ret = some true) :
    callLocations f = callWalk .start 0 0 (.scalar .int :: f.params) f.params.length := by
  rw [callLocations, h]
  exact gfuncCall_eq_callWalk _ _

theorem callLocations_of_plain {f : FuncType} (h : callPassesRet f.ret = some false) :
    callLocations f = callWalk .start 0 0 f.params f.params.length := by
  rw [callLocations, h]
  exact gfuncCall_eq_callWalk _ _

/-- When the caller passes an address for a returned struct exactly as the callee expects. -/
theorem callPassesRet_struct_iff {vt : CType} (hstruct : vt.isStruct = true) :
    callPassesRet (some vt) = some (decide (vt.size > 16)) ↔
      (vt.size ≤ 16 →
        ∃ p, regPass vt true = some p ∧ p.nregs ≠ 0 ∧ (p.nregs = 2 → p.c2.isSome)) := by
  simp only [callPassesRet, hstruct, if_true, gfuncSret]
  by_cases hlarge : vt.size > 16
  · simp [hlarge, Nat.not_le.2 hlarge]
  · simp only [if_neg hlarge, decide_eq_false hlarge, Nat.le_of_not_gt hlarge, forall_const]
    cases hp : regPass vt true with
    | none => simp
    | some p =>
      by_cases hn : p.nregs = 2
      · cases hc2 : p.c2 with
        | none => simp [hn, hc2]
        | some c2 =>
          by_cases hc : p.c1 = c2
          · simp [hn, hc2, hc]
          · simp [hn, hc2, hc]
      · simp [hn]

theorem callPassesRet_eq_hidden_iff (f : FuncType) :
    callPassesRet f.ret = some f.hidden ↔ RetOk f := by
  have hret := f.ret_not_array
  unfold FuncType.hidden RetOk
  cases hf : f.ret with
  | none => simp [callPassesRet, retSize]
  | some vt =>
    simp only [Option.mem_def, Option.some.injEq, forall_eq']
    cases hstruct : vt.isStruct with
    | true => simpa [retSize] using callPassesRet_struct_iff hstruct
    | false =>
      have hsmall : vt.size ≤ 16 := by
        cases vt with
        | scalar s => exact s.size_le
        | struct => cases hstruct
        | array => cases hret _ hf
      simp [callPassesRet, hstruct, retSize, hsmall]

/-- **Calls.** For a prototyped function type, the locations that `gfunc_call` gives to the
arguments are those from which `gfunc_prolog` takes the parameters exactly when the returned struct
needs an address on both sides or on none, and every parameter is passed and received alike. -/
theorem callAgrees_iff (f : FuncType) :
    CallAgrees f ↔ RetOk f ∧ ParamsOk f.hidden f.used f.params := by
  have hcallee : prologLocations f = if f.hidden then
      (prologParams ⟨1, 0, 0⟩ f.params).map (⟨.reg 0, false⟩ :: ·)
      else prologParams ⟨0, 0, 0⟩ f.params := by
    unfold prologLocations FuncType.hidden
    by_cases hlarge : retSize f.ret > 2 * xlen
    · rw [if_pos hlarge, if_pos (by simpa [xlen] using hlarge)]
      cases prologParams ⟨1, 0, 0⟩ f.params <;> rfl
    · rw [if_neg hlarge, if_neg (by simpa [xlen] using hlarge)]
  have hagree : callPassesRet f.ret = some f.hidden →
      (CallAgrees f ↔ ParamsOk f.hidden f.used f.params) := by
    intro hpass
    unfold CallAgrees FuncType.used
    cases hhidden : f.hidden with
    | false =>
      rw [hhidden] at hpass hcallee
      have hsync : Sync ⟨0, 0, 0, 0⟩ .start 0 0 ⟨0, 0, 0⟩ := ⟨rfl, rfl, rfl, by simp, rfl⟩
      rw [callLocations_of_plain hpass, hcallee]
      exact walk_iff false f.params hsync
    | true =>
      rw [hhidden] at hpass hcallee
      obtain ⟨st, hstep, hsync⟩ := callStep_hidden (f.params.length > 0)
      rw [callLocations_of_hidden hpass, hcallee, callWalk_cons, hstep]
      simp only [Option.bind_some, if_true]
      refine Iff.trans ?_ (walk_iff true f.params hsync)
      constructor
      · rintro ⟨locs, hcall, hprolog⟩
        obtain ⟨locs1, hwalk, rfl⟩ := Option.map_eq_some_iff.1 hcall
        obtain ⟨locs2, hparams, heq⟩ := Option.map_eq_some_iff.1 hprolog
        obtain rfl := (List.cons.inj heq).2
        exact ⟨_, hwalk, hparams⟩
      · rintro ⟨locs, hwalk, hparams⟩
        exact ⟨_, by rw [show f.params.length - 1 = f.params.length - true.toNat from rfl, hwalk]; rfl,
          by rw [hparams]; rfl⟩
  rw [← callPassesRet_eq_hidden_iff]
  constructor
  · intro h
    suffices hpass : callPassesRet f.ret = some f.hidden from ⟨hpass, (hagree hpass).1 h⟩
    -- otherwise one side has a location more than the other
    obtain ⟨locs, hcall, hprolog⟩ := h
    rw [hcallee] at hprolog
    cases hpass : callPassesRet f.ret with
    | none => simp [callLocations, hpass] at hcall
    | some b =>
      cases b with
      | false =>
        rw [callLocations_of_plain hpass] at hcall
        cases hhidden : f.hidden with
        | false => rfl
        | true =>
          rw [hhidden, if_pos rfl] at hprolog
          obtain ⟨locs', hparams, rfl⟩ := Option.map_eq_some_iff.1 hprolog
          have h1 := callWalk_length hcall
          have h2 := prologParams_length hparams
          simp only [List.length_cons] at h1
          omega
      | true =>
        rw [callLocations_of_hidden hpass] at hcall
        cases hhidden : f.hidden with
        | true => rfl
        | false =>
          rw [hhidden, if_neg (by decide)] at hprolog
          have h1 := callWalk_length hcall
          have h2 := prologParams_length hprolog
          simp only [List.length_cons] at h1
          omega
  · rintro ⟨hpass, hok⟩
    exact (hagree hpass).2 hok

/-- `struct { long a, b, c; }`. -/
def threeLongs : CType :=
  .struct false 24 8 (.cons 0 (.scalar .llong) (.cons 8 (.scalar .llong) (.cons 16 (.scalar .llong)
    .nil)))

/-- `struct { long a, b, c; } f(double)`. -/
def structOfDouble : FuncType where
  ret := some threeLongs
  params := [.scalar .double]
  ret_not_array := by simp [threeLongs, CType.isArray]
  params_not_array := by simp [CType.isArray]

/-- The caller passes the `double` of such a function in `a1`, the callee takes it from `fa0`. -/
theorem callAgrees_structOfDouble : ¬ CallAgrees structOfDouble := by
  rintro ⟨locs, hcall, hprolog⟩
  have hcaller : callLocations structOfDouble = some [⟨.reg 0, false⟩, ⟨.reg 1, false⟩] := by decide
  have hcallee : prologLocations structOfDouble = some [⟨.reg 0, false⟩, ⟨.reg 8, false⟩] := by decide
  rw [hcaller] at hcall
  rw [hcallee, ← hcall] at hprolog
  exact absurd hprolog (by decide)

end TccRiscv64.Gen
