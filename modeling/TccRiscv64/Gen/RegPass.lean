import TccRiscv64.Gen.CType

set_option autoImplicit false

/-! # Register classes of an object: `reg_pass`

`reg_pass_rec` walks over the scalars of a type and notes class, offset and basic type of the
first two in the arrays `rc` and `fieldofs`; `rc[0]` counts them and is `-1` once the type has to
be passed as plain words. The arrays are not initialised by the caller, so an entry that was not
written yet is `none`, and the result is `none` when such an entry decides. -/

namespace TccRiscv64.Gen

/-- `RC_INT` and `RC_FLOAT`. -/
inductive RegClass
  | int | float
  deriving DecidableEq, Repr

/-- An entry of `fieldofs`: `(ofs << 4) | bt`. -/
structure FieldOf where
  ofs : Nat
  bt : BType
  deriving DecidableEq, Repr

/-- The arrays `rc` and `fieldofs` while `reg_pass_rec` fills them. -/
structure Rc where
  n : Int
  c1 : Option RegClass
  c2 : Option RegClass
  f1 : Option FieldOf
  f2 : Option FieldOf
  deriving DecidableEq, Repr

namespace Rc

/-- The arrays as `reg_pass` hands them over: `prc[0] = 0`, the rest indeterminate. -/
def start : Rc := ⟨0, none, none, none, none⟩

/-- `rc[0] = -1`. -/
def giveUp (rc : Rc) : Rc := { rc with n := -1 }

/-- `rc[++rc[0]] = c; fieldofs[rc[0]] = f`. With `rc[0] = -1` the class, only `RC_FLOAT = 2` in
that case, lands in `rc[0]` itself. -/
def push (rc : Rc) (c : RegClass) (f : FieldOf) : Rc :=
  if rc.n = 0 then { rc with n := 1, c1 := some c, f1 := some f }
  else if rc.n = 1 then { rc with n := 2, c2 := some c, f2 := some f }
  else { rc with n := 2, f2 := some f }

end Rc

/-- The class of a scalar. -/
def scalarClass (s : Scalar) : RegClass := if s.isFloat then .float else .int

/-- The basic type noted for a scalar: a pointer is loaded and stored as `long long`. -/
def scalarCode (s : Scalar) : BType := if s = .ptr then .scalar .llong else .scalar s

mutual

/-- `reg_pass_rec`. -/
def regPassRec (type : CType) (rc : Rc) (ofs : Nat) : Option Rc :=
  match type with
  | .struct isUnion _ _ fields =>
    if isUnion then some rc.giveUp else regPassFields fields rc ofs
  | .array elem count =>
    match count with
    | none => some rc.giveUp
    | some c =>
      if c > 2 then some rc.giveUp
      else do
        let rc ← regPassRec elem rc ofs
        if rc.n > 2 ∨ (rc.n = 2 ∧ c > 1) then some rc.giveUp
        else if c = 2 then
          if rc.n = 0 then some rc.giveUp
          else do
            -- `rc[1]` is read here even when nothing was noted in it
            let c1 ← rc.c1
            if c1 = .float then some (rc.push .float ⟨ofs + elem.size, elem.btype⟩)
            else some rc.giveUp
        else some rc
  | .scalar s =>
    if rc.n = 2 ∨ rc.n < 0 ∨ s = .ldouble then some rc.giveUp
    else if rc.n = 0 ∨ rc.c1 = some .float ∨ s.isFloat then
      some (rc.push (scalarClass s) ⟨ofs, scalarCode s⟩)
    else some rc.giveUp

/-- The loop of `reg_pass_rec` over the fields of a struct. -/
def regPassFields (fields : Fields) (rc : Rc) (ofs : Nat) : Option Rc :=
  match fields with
  | .nil => some rc
  | .cons fofs type rest => do
    let rc ← regPassRec type rc (ofs + fofs)
    regPassFields rest rc ofs

end

/-- What `reg_pass` returns: the number of registers, their classes and, for the pieces that go
there, offset and type. The second class is meaningful for two registers only. -/
structure RegPass where
  nregs : Nat
  c1 : RegClass
  c2 : Option RegClass
  f1 : FieldOf
  f2 : Option FieldOf
  deriving DecidableEq, Repr

/-- The type that a piece of `size` bytes is loaded with. -/
def wordCode (size : Nat) : BType :=
  if size ≤ 1 then .scalar .byte
  else if size ≤ 2 then .scalar .short
  else if size ≤ 4 then .scalar .int
  else .scalar .llong

/-- The result of `reg_pass` for an object passed as plain words. -/
def RegPass.words (size : Nat) : RegPass where
  nregs := (size + 7) / 8
  c1 := .int
  c2 := some .int
  f1 := ⟨0, wordCode size⟩
  f2 := some ⟨8, wordCode (size - 8)⟩

/-- `reg_pass`. What the walk found is dropped for an unnamed argument. -/
def regPass (type : CType) (named : Bool) : Option RegPass :=
  if named then do
    let rc ← regPassRec type .start 0
    if rc.n ≤ 0 then some (.words type.size)
    else some ⟨rc.n.toNat, ← rc.c1, rc.c2, ← rc.f1, rc.f2⟩
  else some (.words type.size)

/-! ## What `reg_pass` can return -/

/-- What holds of the arrays at every step of the walk. -/
structure Rc.Valid (rc : Rc) : Prop where
  range : rc.n = -1 ∨ rc.n = 0 ∨ rc.n = 1 ∨ rc.n = 2
  field : rc.c1.isSome → rc.f1.isSome
  pos : 1 ≤ rc.n → rc.c1.isSome
  zero : rc.n = 0 → rc.c1 = none
  one : rc.n = 0 ∨ rc.n = 1 → rc.c2 = none
  two : rc.n = 2 → rc.f2.isSome
  notInts : rc.c1 = some .int → rc.c2 ≠ some .int

theorem Rc.start_valid : Rc.start.Valid := by
  constructor <;> simp [Rc.start]

theorem Rc.Valid.giveUp {rc : Rc} (h : rc.Valid) : rc.giveUp.Valid where
  range := Or.inl rfl
  field := h.field
  pos hn := absurd hn (by simp [Rc.giveUp])
  zero hn := absurd hn (by simp [Rc.giveUp])
  one hn := absurd hn (by simp [Rc.giveUp])
  two hn := absurd hn (by simp [Rc.giveUp])
  notInts := h.notInts

/-- Noting a piece, which is a float piece unless it is the first one or follows a float. -/
theorem Rc.Valid.push {rc : Rc} (h : rc.Valid) {c : RegClass} {f : FieldOf}
    (hroom : rc.n ≠ 2) (hc : rc.n = 0 ∨ rc.c1 = some .float ∨ (rc.n = 1 ∧ c = .float)) :
    (rc.push c f).Valid := by
  obtain ⟨range, field, pos, zero, one, two, notInts⟩ := h
  unfold Rc.push
  split
  · constructor <;> grind
  · split
    · constructor <;> grind
    · constructor <;> grind

mutual

/-- The walk keeps the arrays valid. -/
theorem regPassRec_valid (type : CType) {rc rc' : Rc} {ofs : Nat} (h : rc.Valid)
    (hrec : regPassRec type rc ofs = some rc') : rc'.Valid := by
  match type with
  | .struct isUnion _ _ fields =>
    rw [regPassRec] at hrec
    split at hrec
    · obtain rfl := Option.some.inj hrec
      exact h.giveUp
    · exact regPassFields_valid fields h hrec
  | .array elem none =>
    rw [regPassRec] at hrec
    obtain rfl := Option.some.inj hrec
    exact h.giveUp
  | .array elem (some c) =>
    rw [regPassRec] at hrec
    split at hrec
    · obtain rfl := Option.some.inj hrec
      exact h.giveUp
    · obtain ⟨rc1, helem, hrest⟩ := Option.bind_eq_some_iff.1 hrec
      have h1 := regPassRec_valid elem h helem
      split at hrest
      · obtain rfl := Option.some.inj hrest
        exact h1.giveUp
      · next hroom =>
        split at hrest
        · split at hrest
          · obtain rfl := Option.some.inj hrest
            exact h1.giveUp
          · obtain ⟨c1, hc1, hpush⟩ := Option.bind_eq_some_iff.1 hrest
            split at hpush
            · next hfloat =>
              obtain rfl := Option.some.inj hpush
              exact h1.push (by omega) (Or.inr (Or.inl (hfloat ▸ hc1)))
            · obtain rfl := Option.some.inj hpush
              exact h1.giveUp
        · obtain rfl := Option.some.inj hrest
          exact h1
  | .scalar s =>
    rw [regPassRec] at hrec
    split at hrec
    · obtain rfl := Option.some.inj hrec
      exact h.giveUp
    · next hroom =>
      split at hrec
      · next hclass =>
        obtain rfl := Option.some.inj hrec
        refine h.push (fun h2 => hroom (Or.inl h2)) ?_
        rcases hclass with h0 | hf | hf
        · exact Or.inl h0
        · exact Or.inr (Or.inl hf)
        · by_cases h0 : rc.n = 0
          · exact Or.inl h0
          · refine Or.inr (Or.inr ⟨?_, by rw [scalarClass, if_pos hf]⟩)
            have := h.range
            omega
      · obtain rfl := Option.some.inj hrec
        exact h.giveUp

/-- So does the loop over the fields. -/
theorem regPassFields_valid (fields : Fields) {rc rc' : Rc} {ofs : Nat} (h : rc.Valid)
    (hrec : regPassFields fields rc ofs = some rc') : rc'.Valid := by
  match fields with
  | .nil =>
    rw [regPassFields] at hrec
    obtain rfl := Option.some.inj hrec
    exact h
  | .cons fofs type rest =>
    rw [regPassFields] at hrec
    obtain ⟨rc1, hfirst, hrest⟩ := Option.bind_eq_some_iff.1 hrec
    exact regPassFields_valid rest (regPassRec_valid type h hfirst) hrest

end

/-- What `reg_pass` can return: one or two pieces, not both in integer registers, or plain
words. -/
theorem regPass_cases {type : CType} {p : RegPass} (h : regPass type true = some p) :
    p = .words type.size ∨ p.nregs = 1 ∨
      (p.nregs = 2 ∧ p.f2.isSome ∧ (p.c1 = .int → p.c2 ≠ some .int)) := by
  rw [regPass, if_pos rfl] at h
  obtain ⟨rc, hrec, hrest⟩ := Option.bind_eq_some_iff.1 h
  have hvalid := regPassRec_valid type Rc.start_valid hrec
  split at hrest
  · exact Or.inl (Option.some.inj hrest).symm
  · next hpos =>
    obtain ⟨c1, hc1, hrest⟩ := Option.bind_eq_some_iff.1 hrest
    obtain ⟨f1, hf1, hrest⟩ := Option.bind_eq_some_iff.1 hrest
    obtain rfl := Option.some.inj hrest
    right
    rcases hvalid.range with hn | hn | hn | hn
    · omega
    · omega
    · left
      rw [hn]
      rfl
    · right
      refine ⟨by rw [hn]; rfl, hvalid.two hn, fun hint => ?_⟩
      exact hvalid.notInts (hc1.trans (congrArg some hint))

/-- A pointer takes one integer register. -/
theorem regPass_charPointer :
    regPass charPointerType true = some ⟨1, .int, none, ⟨0, .scalar .llong⟩, none⟩ := rfl

end TccRiscv64.Gen
