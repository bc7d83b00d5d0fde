import Mathlib

set_option autoImplicit false

/-! # Comparing types

`compare_types` and `is_compatible_func` on types as the compiler keeps them: a word of flags and a
pointer to a symbol, which has the type that is pointed to, the element type of an array and its
bound, or the type of a function's result with the parameters behind it. -/

namespace TccRiscv64.Types

/-! ## The flags -/

def vtBtype : BitVec 32 := 0x000f#32
def vtByte : BitVec 32 := 1#32
def vtPtr : BitVec 32 := 5#32
def vtFunc : BitVec 32 := 6#32
def vtStruct : BitVec 32 := 7#32
def vtDefsign : BitVec 32 := 0x0020#32
def vtArray : BitVec 32 := 0x0040#32
def vtBitfield : BitVec 32 := 0x0080#32
def vtConstant : BitVec 32 := 0x0100#32
def vtVolatile : BitVec 32 := 0x0200#32
def vtExtern : BitVec 32 := 0x1000#32
def vtStatic : BitVec 32 := 0x2000#32
def vtTypedef : BitVec 32 := 0x4000#32
def vtInline : BitVec 32 := 0x8000#32
def vtStructMask : BitVec 32 := ((1#32 <<< 12) - 1#32) <<< 20 ||| vtBitfield
def vtEnum : BitVec 32 := 2#32 <<< 20
def vtStorage : BitVec 32 := vtExtern ||| vtStatic ||| vtTypedef ||| vtInline
def vtType : BitVec 32 := ~~~(vtStorage ||| vtStructMask)

/-- `IS_ENUM`. -/
def isEnum (t : BitVec 32) : Bool := t &&& vtStructMask == vtEnum

/-- `FUNC_OLD`. -/
def funcOld : BitVec 32 := 2#32

/-! ## Types and symbols -/

/-- A pointer to a symbol is an address, or none for `NULL`. -/
structure CType where
  t : BitVec 32
  ref : Option Nat
  deriving DecidableEq, Repr

/-- A symbol. `scope` is the word that `sym_scope` shares with the attributes `f` of a function. -/
structure Sym where
  c : Int
  scope : BitVec 32
  type : CType
  next : Option Nat
  deriving DecidableEq, Repr

/-- `f.func_call`. -/
def Sym.funcCall (s : Sym) : BitVec 32 := s.scope &&& 7#32

/-- `f.func_type`. -/
def Sym.funcType (s : Sym) : BitVec 32 := s.scope >>> 3 &&& 3#32

/-- The symbols by their addresses. -/
abbrev Heap := Nat → Sym

/-- The flags of two types as they are compared. -/
def comparedFlags (unqualified : Bool) (t1 t2 : BitVec 32) : BitVec 32 × BitVec 32 :=
  let t1 := t1 &&& vtType
  let t2 := t2 &&& vtType
  let (t1, t2) :=
    if unqualified then
      (t1 &&& ~~~(vtConstant ||| vtVolatile), t2 &&& ~~~(vtConstant ||| vtVolatile))
    else (t1, t2)
  if t1 &&& vtBtype ≠ vtByte then (t1 &&& ~~~vtDefsign, t2 &&& ~~~vtDefsign) else (t1, t2)

/-- The bounds of two arrays agree, or one has none. -/
def boundsAgree (h : Heap) (t1 : BitVec 32) (type1 type2 : CType) : Option Bool :=
  if t1 &&& vtArray = 0 then some true
  else do
    let a1 ← type1.ref
    if (h a1).c < 0 then some true
    else do
      let a2 ← type2.ref
      some ((h a2).c < 0 || (h a1).c == (h a2).c)

/-- `pointed_type`. -/
def pointedType (h : Heap) (type : CType) : Option CType := type.ref.map fun a => (h a).type

mutual

/-- `compare_types`. It is `none` if it has run out of fuel or follows `NULL`. -/
def compareTypes (h : Heap) (fuel : Nat) (type1 type2 : CType) (unqualified : Bool) : Option Bool :=
  match fuel with
  | 0 => none
  | fuel + 1 =>
    let (t1, t2) := comparedFlags unqualified type1.t type2.t
    if t1 ≠ t2 then some false
    else do
      let agree ← boundsAgree h t1 type1 type2
      if !agree then some false
      else if t1 &&& vtBtype = vtPtr then
        compareTypes h fuel (← pointedType h type1) (← pointedType h type2) false
      else if t1 &&& vtBtype = vtStruct then some (type1.ref == type2.ref)
      else if t1 &&& vtBtype = vtFunc then
        isCompatibleFunc h fuel (← type1.ref) (← type2.ref)
      else if isEnum type1.t && isEnum type2.t then some (type1.ref == type2.ref)
      else some true

/-- `is_compatible_func`, for the symbols that the two types refer to. -/
def isCompatibleFunc (h : Heap) (fuel : Nat) (a1 a2 : Nat) : Option Bool :=
  match fuel with
  | 0 => none
  | fuel + 1 =>
    if (h a1).funcCall ≠ (h a2).funcCall then some false
    else if (h a1).funcType ≠ (h a2).funcType ∧ (h a1).funcType ≠ funcOld ∧
        (h a2).funcType ≠ funcOld then some false
    else paramsCompatible h fuel a1 a2

/-- The loop of `is_compatible_func` over the result and the parameters. -/
def paramsCompatible (h : Heap) (fuel : Nat) (a1 a2 : Nat) : Option Bool :=
  match fuel with
  | 0 => none
  | fuel + 1 => do
    -- `is_compatible_unqualified_types`
    let same ← compareTypes h fuel (h a1).type (h a2).type true
    if !same then some false
    else if (h a1).funcType = funcOld ∨ (h a2).funcType = funcOld then some true
    else
      match (h a1).next, (h a2).next with
      | none, s2 => some s2.isNone
      | some _, none => some false
      | some b1, some b2 => paramsCompatible h fuel b1 b2

end

/-! ## The types of a program -/

/-- The symbols behind `a` are those in the list. -/
def Follow (h : Heap) : Nat → List Nat → Prop
  | a, [] => (h a).next = none
  | a, b :: rest => (h a).next = some b ∧ Follow h b rest

/-- A type that is built from basic types, structs and enumerations, which may refer to anything, by
pointers, arrays and functions. -/
inductive IsType (h : Heap) : CType → Prop
  | basic {type : CType} (array : type.t &&& vtArray = 0) (ptr : type.t &&& vtBtype ≠ vtPtr)
      (func : type.t &&& vtBtype ≠ vtFunc) : IsType h type
  | pointer {type : CType} {a : Nat} (ptr : type.t &&& vtBtype = vtPtr) (ref : type.ref = some a)
      (pointed : IsType h (h a).type) : IsType h type
  | func {type : CType} {a : Nat} {params : List Nat} (array : type.t &&& vtArray = 0)
      (func : type.t &&& vtBtype = vtFunc) (ref : type.ref = some a) (follow : Follow h a params)
      (types : ∀ b ∈ a :: params, IsType h (h b).type) : IsType h type

/-! ## The flags that are compared -/

/-- What is left of the flags at first. -/
def keptMask (unqualified : Bool) : BitVec 32 :=
  if unqualified then vtType &&& ~~~(vtConstant ||| vtVolatile) else vtType

/-- The flags of one type, with what does not count left out. -/
def countedFlags (unqualified : Bool) (t : BitVec 32) : BitVec 32 :=
  if t &&& vtBtype ≠ vtByte then t &&& keptMask unqualified &&& ~~~vtDefsign
  else t &&& keptMask unqualified

/-- A field of the flags that is kept. -/
theorem and_kept (unqualified : Bool) (t : BitVec 32) {m : BitVec 32}
    (hm : m &&& (vtType &&& ~~~(vtConstant ||| vtVolatile)) = m) :
    t &&& keptMask unqualified &&& m = t &&& m := by
  have hkept : keptMask unqualified &&& m = m := by
    cases unqualified
    · rw [keptMask, if_neg Bool.false_ne_true, ← hm]
      ac_rfl
    · rw [keptMask, if_pos rfl, BitVec.and_comm, hm]
  rw [BitVec.and_assoc, hkept]

theorem comparedFlags_eq (unqualified : Bool) (t1 t2 : BitVec 32) :
    comparedFlags unqualified t1 t2 =
      if t1 &&& vtBtype ≠ vtByte then
        (t1 &&& keptMask unqualified &&& ~~~vtDefsign, t2 &&& keptMask unqualified &&& ~~~vtDefsign)
      else (t1 &&& keptMask unqualified, t2 &&& keptMask unqualified) := by
  have hbtype := and_kept unqualified t1 (m := vtBtype) (by decide)
  cases unqualified
  · simp only [keptMask, Bool.false_eq_true, if_false] at hbtype ⊢
    simp only [comparedFlags, Bool.false_eq_true, if_false, hbtype]
  · simp only [keptMask, if_true] at hbtype ⊢
    simp only [comparedFlags, if_true, BitVec.and_assoc _ vtType, hbtype]

theorem and_counted (unqualified : Bool) (t : BitVec 32) {m : BitVec 32}
    (hm : m &&& (vtType &&& ~~~(vtConstant ||| vtVolatile)) = m) (hsign : ~~~vtDefsign &&& m = m) :
    countedFlags unqualified t &&& m = t &&& m := by
  rw [countedFlags]
  split
  · rw [BitVec.and_assoc, hsign, and_kept unqualified t hm]
  · exact and_kept unqualified t hm

theorem btype_counted (unqualified : Bool) (t : BitVec 32) :
    countedFlags unqualified t &&& vtBtype = t &&& vtBtype :=
  and_counted unqualified t (by decide) (by decide)

theorem array_counted (unqualified : Bool) (t : BitVec 32) :
    countedFlags unqualified t &&& vtArray = t &&& vtArray :=
  and_counted unqualified t (by decide) (by decide)

/-- What is left of the first type is what counts of it. -/
theorem comparedFlags_fst (unqualified : Bool) (t1 t2 : BitVec 32) :
    (comparedFlags unqualified t1 t2).1 = countedFlags unqualified t1 := by
  rw [comparedFlags_eq, countedFlags]
  split <;> rfl

/-- Types are taken for equal if the flags that count are equal. -/
theorem comparedFlags_eq_iff (unqualified : Bool) (t1 t2 : BitVec 32) :
    (comparedFlags unqualified t1 t2).1 = (comparedFlags unqualified t1 t2).2 ↔
      countedFlags unqualified t1 = countedFlags unqualified t2 := by
  by_cases hb : t1 &&& vtBtype = t2 &&& vtBtype
  · rw [comparedFlags_eq, countedFlags, countedFlags, hb]
    split <;> rfl
  · -- neither side can hold, as the basic types are kept by both
    refine iff_of_false (fun h => hb ?_) (fun h => hb ?_)
    · rw [comparedFlags_eq] at h
      split at h
      · have := congrArg (· &&& vtBtype) h
        dsimp only at this
        rw [BitVec.and_assoc, BitVec.and_assoc (t2 &&& _), show ~~~vtDefsign &&& vtBtype = vtBtype
          by decide, and_kept _ _ (by decide), and_kept _ _ (by decide)] at this
        exact this
      · have := congrArg (· &&& vtBtype) h
        dsimp only at this
        rwa [and_kept _ _ (by decide), and_kept _ _ (by decide)] at this
    · rw [← btype_counted unqualified t1, h, btype_counted]

/-! ## One call -/

/-- What is compared behind the flags and the bounds. -/
def compareRest (h : Heap) (fuel : Nat) (type1 type2 : CType) : Option Bool :=
  if type1.t &&& vtBtype = vtPtr then
    (pointedType h type1).bind fun p1 => (pointedType h type2).bind fun p2 =>
      compareTypes h fuel p1 p2 false
  else if type1.t &&& vtBtype = vtStruct then some (type1.ref == type2.ref)
  else if type1.t &&& vtBtype = vtFunc then
    type1.ref.bind fun a1 => type2.ref.bind fun a2 => isCompatibleFunc h fuel a1 a2
  else if isEnum type1.t && isEnum type2.t then some (type1.ref == type2.ref)
  else some true

theorem compareTypes_of_ne {h : Heap} {type1 type2 : CType} {unqualified : Bool} (fuel : Nat)
    (hne : countedFlags unqualified type1.t ≠ countedFlags unqualified type2.t) :
    compareTypes h (fuel + 1) type1 type2 unqualified = some false := by
  rw [compareTypes]
  exact if_pos fun heq => hne ((comparedFlags_eq_iff _ _ _).1 heq)

theorem compareTypes_of_eq {h : Heap} {type1 type2 : CType} {unqualified : Bool} (fuel : Nat)
    (heq : countedFlags unqualified type1.t = countedFlags unqualified type2.t) :
    compareTypes h (fuel + 1) type1 type2 unqualified =
      (boundsAgree h type1.t type1 type2).bind fun agree =>
        if !agree then some false else compareRest h fuel type1 type2 := by
  have hflags := (comparedFlags_eq_iff _ _ _).2 heq
  have harray := array_counted unqualified type1.t
  have hbtype := btype_counted unqualified type1.t
  rw [← comparedFlags_fst unqualified type1.t type2.t] at harray hbtype
  rw [compareTypes]
  generalize comparedFlags unqualified type1.t type2.t = flags at hflags harray hbtype ⊢
  obtain ⟨t1, t2⟩ := flags
  dsimp only at hflags harray hbtype ⊢
  rw [if_neg (not_not.2 hflags), hbtype, boundsAgree, harray]
  rfl

/-! ## Order does not matter -/

/-- Both orders give the same answer, if there is fuel enough. -/
def Agree (x y : Nat → Option Bool) : Prop := ∃ n r, ∀ m ≥ n, x m = some r ∧ y m = some r

theorem Agree.of_eq {x y : Nat → Option Bool} {r : Bool} (hx : ∀ m ≥ 1, x m = some r)
    (hy : ∀ m ≥ 1, y m = some r) : Agree x y :=
  ⟨1, r, fun m hm => ⟨hx m hm, hy m hm⟩⟩

theorem Agree.const (r : Bool) : Agree (fun _ => some r) fun _ => some r :=
  .of_eq (fun _ _ => rfl) fun _ _ => rfl

/-- One more call on both sides. -/
theorem Agree.succ {x y x' y' : Nat → Option Bool} (h : Agree x y)
    (hx : ∀ m, x' (m + 1) = x m) (hy : ∀ m, y' (m + 1) = y m) : Agree x' y' := by
  obtain ⟨n, r, hr⟩ := h
  refine ⟨n + 1, r, fun m hm => ?_⟩
  obtain ⟨m, rfl⟩ := Nat.exists_eq_add_of_le' (Nat.one_le_of_lt hm)
  rw [hx, hy]
  exact hr m (by omega)

theorem boundsAgree_basic {h : Heap} {type1 type2 : CType} (harray : type1.t &&& vtArray = 0) :
    boundsAgree h type1.t type1 type2 = some true :=
  if_pos harray

theorem boundsAgree_comm {h : Heap} {type1 type2 : CType} {a1 a2 : Nat}
    (harray : type1.t &&& vtArray = type2.t &&& vtArray) (h1 : type1.ref = some a1)
    (h2 : type2.ref = some a2) :
    ∃ r, boundsAgree h type1.t type1 type2 = some r ∧
      boundsAgree h type2.t type2 type1 = some r := by
  rw [boundsAgree, boundsAgree, ← harray, h1, h2]
  by_cases ht : type1.t &&& vtArray = 0
  · exact ⟨true, if_pos ht, if_pos ht⟩
  · refine ⟨decide ((h a1).c < 0) || decide ((h a2).c < 0) || (h a1).c == (h a2).c, ?_, ?_⟩
    · rw [if_neg ht]
      change (if (h a1).c < 0 then some true else
        some (decide ((h a2).c < 0) || (h a1).c == (h a2).c)) = _
      split <;> simp [*]
    · rw [if_neg ht]
      change (if (h a2).c < 0 then some true else
        some (decide ((h a1).c < 0) || (h a2).c == (h a1).c)) = _
      rw [BEq.comm]
      split <;> simp [*]

/-- A test in front of the rest. -/
theorem Agree.bind {x y k l : Nat → Option Bool} (h : Agree x y) (hk : Agree k l) :
    Agree (fun m => (x m).bind fun same => if !same then some false else k m)
      fun m => (y m).bind fun same => if !same then some false else l m := by
  obtain ⟨n, r, hr⟩ := h
  obtain ⟨n', r', hr'⟩ := hk
  refine ⟨max n n', r && r', fun m hm => ?_⟩
  obtain ⟨hx, hy⟩ := hr m (le_trans (le_max_left _ _) hm)
  obtain ⟨hk, hl⟩ := hr' m (le_trans (le_max_right _ _) hm)
  dsimp only
  rw [hx, hy, hk, hl]
  cases r <;> simp

/-- The loop of `is_compatible_func` behind its test of the types. -/
def paramsNext (h : Heap) (fuel : Nat) (a1 a2 : Nat) : Option Bool :=
  if (h a1).funcType = funcOld ∨ (h a2).funcType = funcOld then some true
  else
    match (h a1).next, (h a2).next with
    | none, s2 => some s2.isNone
    | some _, none => some false
    | some b1, some b2 => paramsCompatible h fuel b1 b2

theorem paramsCompatible_succ (h : Heap) (fuel : Nat) (a1 a2 : Nat) :
    paramsCompatible h (fuel + 1) a1 a2 =
      (compareTypes h fuel (h a1).type (h a2).type true).bind fun same =>
        if !same then some false else paramsNext h fuel a1 a2 := by
  rw [paramsCompatible]
  rfl

theorem paramsNext_agree {h : Heap} {a1 a2 : Nat}
    (hrest : ∀ b1 b2, (h a1).next = some b1 → (h a2).next = some b2 →
      Agree (fun m => paramsCompatible h m b1 b2) fun m => paramsCompatible h m b2 b1) :
    Agree (fun m => paramsNext h m a1 a2) fun m => paramsNext h m a2 a1 := by
  by_cases hold : (h a1).funcType = funcOld ∨ (h a2).funcType = funcOld
  · exact .of_eq (fun m _ => if_pos hold) fun m _ => if_pos hold.symm
  · have hold' : ¬ ((h a2).funcType = funcOld ∨ (h a1).funcType = funcOld) := fun h => hold h.symm
    unfold paramsNext
    simp only [if_neg hold, if_neg hold']
    cases h1 : (h a1).next with
    | none =>
      cases h2 : (h a2).next with
      | none => exact .const true
      | some b2 => exact .const false
    | some b1 =>
      cases h2 : (h a2).next with
      | none => exact .const false
      | some b2 => exact hrest b1 b2 h1 h2

/-- The parameters of two functions, where both orders agree on each pair of types. -/
theorem paramsCompatible_agree {h : Heap} {a1 a2 : Nat} {params1 params2 : List Nat}
    (hfollow1 : Follow h a1 params1) (hfollow2 : Follow h a2 params2)
    (htypes : ∀ b1 ∈ a1 :: params1, ∀ b2 ∈ a2 :: params2,
      Agree (fun m => compareTypes h m (h b1).type (h b2).type true)
        fun m => compareTypes h m (h b2).type (h b1).type true) :
    Agree (fun m => paramsCompatible h m a1 a2) fun m => paramsCompatible h m a2 a1 := by
  have hstep (hnext : Agree (fun m => paramsNext h m a1 a2) fun m => paramsNext h m a2 a1) :
      Agree (fun m => paramsCompatible h m a1 a2) fun m => paramsCompatible h m a2 a1 :=
    ((htypes a1 List.mem_cons_self a2 List.mem_cons_self).bind hnext).succ
      (fun m => paramsCompatible_succ h m a1 a2) fun m => paramsCompatible_succ h m a2 a1
  induction params1 generalizing a1 a2 params2 with
  | nil =>
    refine hstep (paramsNext_agree fun b1 b2 h1 h2 => ?_)
    rw [Follow] at hfollow1
    rw [h1] at hfollow1
    cases hfollow1
  | cons b1 params1 ih =>
    refine hstep (paramsNext_agree fun c1 c2 h1 h2 => ?_)
    obtain ⟨hnext1, hrest1⟩ := hfollow1
    obtain rfl := Option.some.inj (hnext1.symm.trans h1)
    cases params2 with
    | nil =>
      rw [Follow, h2] at hfollow2
      cases hfollow2
    | cons b2 params2 =>
      obtain ⟨hnext2, hrest2⟩ := hfollow2
      obtain rfl := Option.some.inj (hnext2.symm.trans h2)
      have htypes' : ∀ c1 ∈ b1 :: params1, ∀ c2 ∈ b2 :: params2,
          Agree (fun m => compareTypes h m (h c1).type (h c2).type true)
            fun m => compareTypes h m (h c2).type (h c1).type true := fun c1 hc1 c2 hc2 =>
        htypes c1 (List.mem_cons_of_mem _ hc1) c2 (List.mem_cons_of_mem _ hc2)
      exact ih hrest1 hrest2 htypes' fun hnext =>
        ((htypes' b1 List.mem_cons_self b2 List.mem_cons_self).bind hnext).succ
          (fun m => paramsCompatible_succ h m b1 b2) fun m => paramsCompatible_succ h m b2 b1

theorem isCompatibleFunc_agree {h : Heap} {a1 a2 : Nat}
    (hparams : Agree (fun m => paramsCompatible h m a1 a2) fun m => paramsCompatible h m a2 a1) :
    Agree (fun m => isCompatibleFunc h m a1 a2) fun m => isCompatibleFunc h m a2 a1 := by
  have hsucc (b1 b2 : Nat) (m : Nat) : isCompatibleFunc h (m + 1) b1 b2 =
      if (h b1).funcCall ≠ (h b2).funcCall then some false
      else if (h b1).funcType ≠ (h b2).funcType ∧ (h b1).funcType ≠ funcOld ∧
        (h b2).funcType ≠ funcOld then some false
      else paramsCompatible h m b1 b2 := by rw [isCompatibleFunc]
  by_cases hcall : (h a1).funcCall = (h a2).funcCall
  · by_cases htype : (h a1).funcType ≠ (h a2).funcType ∧ (h a1).funcType ≠ funcOld ∧
        (h a2).funcType ≠ funcOld
    · refine (Agree.const false).succ (fun m => ?_) fun m => ?_
      · rw [hsucc, if_neg (not_not.2 hcall), if_pos htype]
      · rw [hsucc, if_neg (not_not.2 hcall.symm), if_pos ⟨htype.1.symm, htype.2.2, htype.2.1⟩]
    · refine hparams.succ (fun m => ?_) fun m => ?_
      · rw [hsucc, if_neg (not_not.2 hcall), if_neg htype]
      · have htype' : ¬ ((h a2).funcType ≠ (h a1).funcType ∧ (h a2).funcType ≠ funcOld ∧
            (h a1).funcType ≠ funcOld) := fun h => htype ⟨h.1.symm, h.2.2, h.2.1⟩
        rw [hsucc, if_neg (not_not.2 hcall.symm), if_neg htype']
  · refine (Agree.const false).succ (fun m => ?_) fun m => ?_
    · rw [hsucc, if_pos hcall]
    · rw [hsucc, if_pos (Ne.symm hcall)]

/-- Both orders agree if they agree behind the flags and the bounds. -/
theorem compareTypes_agree_of_rest {h : Heap} {type1 type2 : CType} {unqualified r : Bool}
    (heq : countedFlags unqualified type1.t = countedFlags unqualified type2.t)
    (hb1 : boundsAgree h type1.t type1 type2 = some r)
    (hb2 : boundsAgree h type2.t type2 type1 = some r)
    (hrest : Agree (fun m => compareRest h m type1 type2) fun m => compareRest h m type2 type1) :
    Agree (fun m => compareTypes h m type1 type2 unqualified)
      fun m => compareTypes h m type2 type1 unqualified := by
  refine ((Agree.const r).bind hrest).succ (fun m => ?_) fun m => ?_
  · rw [compareTypes_of_eq m heq, hb1]
  · rw [compareTypes_of_eq m heq.symm, hb2]

theorem compareTypes_agree_of_ne {h : Heap} {type1 type2 : CType} {unqualified : Bool}
    (hne : countedFlags unqualified type1.t ≠ countedFlags unqualified type2.t) :
    Agree (fun m => compareTypes h m type1 type2 unqualified)
      fun m => compareTypes h m type2 type1 unqualified :=
  (Agree.const false).succ (fun m => compareTypes_of_ne m hne) fun m => compareTypes_of_ne m hne.symm

/-- The basic types, structs and enumerations. -/
def compareBasic (type1 type2 : CType) : Bool :=
  if type1.t &&& vtBtype = vtStruct ∨ isEnum type1.t && isEnum type2.t then type1.ref == type2.ref
  else true

theorem compareBasic_comm {type1 type2 : CType}
    (hbtype : type1.t &&& vtBtype = type2.t &&& vtBtype) :
    compareBasic type1 type2 = compareBasic type2 type1 := by
  rw [compareBasic, compareBasic, hbtype, Bool.and_comm, BEq.comm]

theorem compareRest_basic {h : Heap} {type1 type2 : CType} (hptr : type1.t &&& vtBtype ≠ vtPtr)
    (hfunc : type1.t &&& vtBtype ≠ vtFunc) (fuel : Nat) :
    compareRest h fuel type1 type2 = some (compareBasic type1 type2) := by
  rw [compareRest, if_neg hptr, compareBasic]
  by_cases hs : type1.t &&& vtBtype = vtStruct
  · rw [if_pos hs, if_pos (.inl hs)]
  · rw [if_neg hs, if_neg hfunc]
    by_cases he : isEnum type1.t && isEnum type2.t
    · rw [if_pos he, if_pos (.inr he)]
    · rw [if_neg he, if_neg (not_or.2 ⟨hs, he⟩)]

theorem compareRest_ptr {h : Heap} {type1 type2 : CType} {a1 a2 : Nat}
    (hptr : type1.t &&& vtBtype = vtPtr) (h1 : type1.ref = some a1) (h2 : type2.ref = some a2)
    (fuel : Nat) :
    compareRest h fuel type1 type2 = compareTypes h fuel (h a1).type (h a2).type false := by
  rw [compareRest, if_pos hptr, pointedType, pointedType, h1, h2]
  rfl

theorem compareRest_func {h : Heap} {type1 type2 : CType} {a1 a2 : Nat}
    (hfunc : type1.t &&& vtBtype = vtFunc) (h1 : type1.ref = some a1) (h2 : type2.ref = some a2)
    (fuel : Nat) : compareRest h fuel type1 type2 = isCompatibleFunc h fuel a1 a2 := by
  rw [compareRest, hfunc, if_neg (by decide), if_neg (by decide), if_pos rfl, h1, h2]
  rfl

/-- Both orders of two types agree. -/
theorem compareTypes_agree {h : Heap} {type1 type2 : CType} (h1 : IsType h type1)
    (h2 : IsType h type2) (unqualified : Bool) :
    Agree (fun m => compareTypes h m type1 type2 unqualified)
      fun m => compareTypes h m type2 type1 unqualified := by
  induction h1 generalizing type2 unqualified with
  | @basic type1 harray hptr hfunc =>
    by_cases heq : countedFlags unqualified type1.t = countedFlags unqualified type2.t
    · have hbtype : type1.t &&& vtBtype = type2.t &&& vtBtype := by
        rw [← btype_counted unqualified, heq, btype_counted]
      have harray2 : type2.t &&& vtArray = 0 := by
        rw [← array_counted unqualified, ← heq, array_counted, harray]
      refine compareTypes_agree_of_rest heq (boundsAgree_basic harray) (boundsAgree_basic harray2)
        (.of_eq (fun m _ => compareRest_basic hptr hfunc m) fun m _ => ?_)
      rw [compareBasic_comm hbtype]
      exact compareRest_basic (hbtype ▸ hptr) (hbtype ▸ hfunc) m
    · exact compareTypes_agree_of_ne heq
  | @pointer type1 a1 hptr href hpointed ih =>
    by_cases heq : countedFlags unqualified type1.t = countedFlags unqualified type2.t
    · have hbtype : type1.t &&& vtBtype = type2.t &&& vtBtype := by
        rw [← btype_counted unqualified, heq, btype_counted]
      have harray : type1.t &&& vtArray = type2.t &&& vtArray := by
        rw [← array_counted unqualified, heq, array_counted]
      cases h2 with
      | basic _ hptr2 => exact absurd (hbtype ▸ hptr) hptr2
      | func _ hfunc2 =>
        rw [hbtype, hfunc2] at hptr
        exact absurd hptr (by decide)
      | @pointer _ a2 hptr2 href2 hpointed2 =>
        obtain ⟨r, hb1, hb2⟩ := boundsAgree_comm (h := h) harray href href2
        refine compareTypes_agree_of_rest heq hb1 hb2 ?_
        simp only [compareRest_ptr hptr href href2, compareRest_ptr hptr2 href2 href]
        exact ih hpointed2 false
    · exact compareTypes_agree_of_ne heq
  | @func type1 a1 params1 harray hfunc href hfollow htypes ih =>
    by_cases heq : countedFlags unqualified type1.t = countedFlags unqualified type2.t
    · have hbtype : type1.t &&& vtBtype = type2.t &&& vtBtype := by
        rw [← btype_counted unqualified, heq, btype_counted]
      cases h2 with
      | basic _ _ hfunc2 => exact absurd (hbtype ▸ hfunc) hfunc2
      | pointer hptr2 =>
        rw [hbtype, hptr2] at hfunc
        exact absurd hfunc (by decide)
      | @func _ a2 params2 harray2 hfunc2 href2 hfollow2 htypes2 =>
        refine compareTypes_agree_of_rest heq (boundsAgree_basic harray)
          (boundsAgree_basic harray2) ?_
        simp only [compareRest_func hfunc href href2, compareRest_func hfunc2 href2 href]
        exact isCompatibleFunc_agree (paramsCompatible_agree hfollow hfollow2
          fun b1 hb1 b2 hb2 => ih b1 hb1 (htypes2 b2 hb2) true)
    · exact compareTypes_agree_of_ne heq

/-! ## A type is compatible with itself -/

theorem bind_ne_some_false {x k : Option Bool} (hx : x ≠ some false) (hk : k ≠ some false) :
    (x.bind fun same => if !same then some false else k) ≠ some false := by
  cases x with
  | none => simp
  | some r =>
    cases r with
    | false => exact absurd rfl hx
    | true => simpa using hk

theorem boundsAgree_self (h : Heap) (type : CType) :
    boundsAgree h type.t type type ≠ some false := by
  rw [boundsAgree]
  split
  · simp
  · cases href : type.ref with
    | none => simp
    | some a =>
      change (if (h a).c < 0 then some true else
        some (decide ((h a).c < 0) || (h a).c == (h a).c)) ≠ some false
      split <;> simp

/-- No amount of fuel lets a type or a function be incompatible with itself. -/
theorem self_ne_false (h : Heap) (fuel : Nat) :
    (∀ type unqualified, compareTypes h fuel type type unqualified ≠ some false) ∧
      (∀ a, isCompatibleFunc h fuel a a ≠ some false) ∧
        ∀ a, paramsCompatible h fuel a a ≠ some false := by
  induction fuel with
  | zero =>
    refine ⟨fun type unqualified => ?_, fun a => ?_, fun a => ?_⟩
    · rw [compareTypes]
      simp
    · rw [isCompatibleFunc]
      simp
    · rw [paramsCompatible]
      simp
  | succ fuel ih =>
    obtain ⟨htypes, hfunc, hparams⟩ := ih
    refine ⟨fun type unqualified => ?_, fun a => ?_, fun a => ?_⟩
    · rw [compareTypes_of_eq fuel rfl]
      refine bind_ne_some_false (boundsAgree_self h type) ?_
      rw [compareRest]
      split_ifs
      · cases hp : pointedType h type with
        | none => simp
        | some p => exact htypes p false
      · simp
      · cases href : type.ref with
        | none => simp
        | some a => exact hfunc a
      · simp
      · simp
    · rw [isCompatibleFunc, if_neg (not_not.2 rfl), if_neg fun h => h.1 rfl]
      exact hparams a
    · rw [paramsCompatible_succ]
      refine bind_ne_some_false (htypes _ true) ?_
      rw [paramsNext]
      split
      · simp
      · cases hnext : (h a).next with
        | none => simp
        | some b => exact hparams b

/-- **Comparing types.** With enough fuel `compare_types` finds each type compatible with itself and
gives the same answer for both orders of two types, whether qualifiers count or not. -/
theorem compareTypes_refl_symm {h : Heap} {type1 type2 : CType} (h1 : IsType h type1)
    (h2 : IsType h type2) (unqualified : Bool) :
    (∃ n, ∀ m ≥ n, compareTypes h m type1 type1 unqualified = some true) ∧
      ∃ n r, ∀ m ≥ n, compareTypes h m type1 type2 unqualified = some r ∧
        compareTypes h m type2 type1 unqualified = some r := by
  refine ⟨?_, compareTypes_agree h1 h2 unqualified⟩
  obtain ⟨n, r, hr⟩ := compareTypes_agree h1 h1 unqualified
  refine ⟨n, fun m hm => ?_⟩
  have hself := (self_ne_false h m).1 type1 unqualified
  have hanswer : compareTypes h m type1 type1 unqualified = some r := (hr m hm).1
  rw [hanswer] at hself ⊢
  cases r with
  | false => exact absurd rfl hself
  | true => rfl

/-- The symbols of `int (*)[]`, from address 0 on, and of `int (*)[4]`, from address 2 on. -/
def arrays : Heap
  | 0 => ⟨0, 0#32, ⟨vtPtr ||| vtArray, some 1⟩, none⟩
  | 1 => ⟨-1, 0#32, ⟨3#32, none⟩, none⟩
  | 2 => ⟨0, 0#32, ⟨vtPtr ||| vtArray, some 3⟩, none⟩
  | _ => ⟨4, 0#32, ⟨3#32, none⟩, none⟩

/-- Pointers to an array without a bound and to one of four elements. -/
theorem compareTypes_refl_symm_arrays :
    (∃ n, ∀ m ≥ n, compareTypes arrays m ⟨vtPtr, some 0⟩ ⟨vtPtr, some 0⟩ false = some true) ∧
      ∃ n r, ∀ m ≥ n, compareTypes arrays m ⟨vtPtr, some 0⟩ ⟨vtPtr, some 2⟩ false = some r ∧
        compareTypes arrays m ⟨vtPtr, some 2⟩ ⟨vtPtr, some 0⟩ false = some r := by
  have hint (a : Nat) (ha : (arrays a).type = ⟨3#32, none⟩) : IsType arrays (arrays a).type := by
    rw [ha]
    exact .basic (by decide) (by decide) (by decide)
  have harray (a b : Nat) (ha : (arrays a).type = ⟨vtPtr ||| vtArray, some b⟩)
      (hb : IsType arrays (arrays b).type) : IsType arrays (arrays a).type := by
    have hptr : (vtPtr ||| vtArray) &&& vtBtype = vtPtr := by decide
    rw [ha]
    exact .pointer hptr rfl hb
  exact compareTypes_refl_symm (.pointer (by decide) rfl (harray 0 1 rfl (hint 1 rfl)))
    (.pointer (by decide) rfl (harray 2 3 rfl (hint 3 rfl))) false

end TccRiscv64.Types
