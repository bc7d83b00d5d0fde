import TccRiscv64.Decl.Declarator

set_option autoImplicit false

/-! # `type_decl` and `post_type`

The two functions that read a declarator. A type is built in place: `type` points to a `CType`
that is overwritten with each derivation, after a copy of it went into a new symbol that the
derived type refers to. Cells of memory stand for the symbols and for `CType` variables. The
declaration specifiers (`parse_btype`) and the expressions in array bounds are one token each;
attributes are left out. -/

namespace TccRiscv64.Decl

/-! ## Tokens -/

inductive Tok
  | star | qual (q : Qual)
  | lparen | rparen | lbrack | rbrack | comma | dots
  | ident (v : Nat)
  | btype (b : Base)
  | const (n : Int)
  | expr (e : Nat)
  | static
  | other
  deriving DecidableEq, Repr

inductive Error
  | expected (what : String)
  /-- `parameter declared as void` -/
  | paramVoid
  /-- `invalid type` -/
  | invalidType
  /-- `invalid array size` -/
  | invalidArraySize
  /-- `constant expression expected` -/
  | constantExpected
  /-- `declaration of an array of functions` -/
  | arrayOfFunctions
  /-- `declaration of an array of incomplete type elements` -/
  | incompleteElements
  /-- `need explicit inner array size in VLAs` -/
  | innerArraySize
  /-- The recursion was cut off; never the result of `typeDecl`. -/
  | outOfFuel
  deriving DecidableEq, Repr

/-- The bits of `td`. -/
structure Td where
  abstract : Bool
  direct : Bool
  param : Bool
  nest : Bool

/-- `TYPE_DIRECT | TYPE_ABSTRACT | TYPE_PARAM` -/
def Td.ofParam : Td := ⟨true, true, true, false⟩

/-- `td & ~(TYPE_DIRECT|TYPE_ABSTRACT)` -/
def Td.post (td : Td) : Td := { td with abstract := false, direct := false }

/-- What the two functions read of their surroundings: whether there is a `local_stack`, and the
sizes of types, which are negative for incomplete ones. -/
structure Cx where
  localStack : Bool
  typeSize : Ty → Int

/-! ## Memory -/

/-- `type->t` without the storage bits, and `type->ref`. -/
inductive Kind
  | base (b : Base)
  | ptr (q : Quals) (ref : Nat)
  | array (vla : Bool) (ref : Nat)
  | func (ref : Nat)

/-- `CType`. The storage bits are apart. -/
structure CType where
  kind : Kind
  storage : BitVec 32

def vtStatic : BitVec 32 := 0x2000#32

/-- A symbol: its type, the array size `c` (for a variable-length array the slot that holds the
size computed from the bound), and for a function the types of its parameters and
`f.func_type`. -/
structure Cell where
  type : CType
  c : Bound
  next : List Ty
  funcType : FuncType

def voidBase : Base := ⟨0, .void, Quals.none, false⟩

abbrev Mem := List Cell

namespace Mem

/-- `*type` -/
def type (mem : Mem) (loc : Nat) : CType := (mem[loc]?.map Cell.type).getD ⟨.base voidBase, 0⟩

def kind (mem : Mem) (loc : Nat) : Kind := (mem.type loc).kind

def setType (mem : Mem) (loc : Nat) (t : CType) : Mem :=
  mem.modify loc fun cell => { cell with type := t }

def setKind (mem : Mem) (loc : Nat) (k : Kind) : Mem :=
  mem.modify loc fun cell => { cell with type := { cell.type with kind := k } }

def setStorage (mem : Mem) (loc : Nat) (storage : BitVec 32) : Mem :=
  mem.modify loc fun cell => { cell with type := { cell.type with storage := storage } }

/-- `sym_push(SYM_FIELD, type, 0, c)`; the symbol is the last cell. -/
def symPush (mem : Mem) (loc : Nat) (c : Bound) (next : List Ty) (funcType : FuncType) : Mem :=
  mem ++ [⟨mem.type loc, c, next, funcType⟩]

/-- `mk_pointer` -/
def mkPointer (mem : Mem) (loc : Nat) : Mem :=
  (mem.symPush loc .unspecified [] .old).setType loc
    ⟨.ptr Quals.none mem.length, (mem.type loc).storage⟩

/-- The type that the cells from `loc` on make up. -/
def typeAt (mem : Mem) : Nat → Nat → Ty
  | 0, _ => ([], voidBase)
  | fuel + 1, loc =>
    match mem.kind loc with
    | .base b => ([], b)
    | .ptr q ref => (.ptr q :: (typeAt mem fuel ref).1, (typeAt mem fuel ref).2)
    | .array vla ref =>
      (.array vla ((mem[ref]?.map Cell.c).getD .unspecified) :: (typeAt mem fuel ref).1,
        (typeAt mem fuel ref).2)
    | .func ref =>
      (.func ((mem[ref]?.map Cell.funcType).getD .old) ((mem[ref]?.map Cell.next).getD []) ::
        (typeAt mem fuel ref).1, (typeAt mem fuel ref).2)

/-- A chain of references has no more cells than there are. -/
def readType (mem : Mem) (loc : Nat) : Ty := mem.typeAt mem.length loc

/-- `type->t & VT_VLA` -/
def isVla (mem : Mem) (loc : Nat) : Bool :=
  match mem.kind loc with
  | .array vla _ => vla
  | .base b => b.kind == .vla
  | _ => false

/-- `(type->t & VT_BTYPE) == VT_FUNC` -/
def isFunc (mem : Mem) (loc : Nat) : Bool :=
  match mem.kind loc with
  | .func _ => true
  | .base b => b.kind == .func
  | _ => false

/-- `(type->t & VT_BTYPE) == VT_VOID` -/
def isVoid (mem : Mem) (loc : Nat) : Bool :=
  match mem.kind loc with
  | .base b => b.kind == .void
  | _ => false

/-- `type->t &= ~VT_CONSTANT` -/
def clearConst (mem : Mem) (loc : Nat) : Mem :=
  match mem.kind loc with
  | .base b => mem.setKind loc (.base { b with quals := { b.quals with constant := false } })
  | .ptr q ref => mem.setKind loc (.ptr { q with constant := false } ref)
  | _ => mem

/-- `convert_parameter_type` -/
def convertParameterType (mem : Mem) (loc : Nat) : Mem :=
  match mem.kind loc with
  | .base b =>
    let quals := { b.quals with constant := false, volatile := false }
    match b.kind with
    | .func => (mem.setKind loc (.base { b with quals := quals })).mkPointer loc
    | .array | .vla => mem.setKind loc (.base { b with kind := .decayed, quals := quals })
    | _ => mem.setKind loc (.base { b with quals := quals })
  | .ptr q ref => mem.setKind loc (.ptr { q with constant := false, volatile := false } ref)
  | .array _ ref => mem.setKind loc (.ptr Quals.none ref)
  | .func _ => mem.mkPointer loc

end Mem

/-! ## Pointer signs and bounds -/

/-- The qualifiers at the start of the tokens. -/
def readQuals (q : Quals) : List Tok → Quals × List Tok
  | .qual x :: toks => readQuals (q.add x) toks
  | toks => (q, toks)

/-- The loop over `*`; `ret` stays `none` until the first. -/
def readStars (mem : Mem) (loc : Nat) : Nat → Option Nat → List Tok → Mem × Option Nat × List Tok
  | fuel + 1, ret, .star :: toks =>
    let (q, toks) := readQuals Quals.none toks
    let ref := mem.length
    let mem := (mem.mkPointer loc).setType loc ⟨.ptr q ref, (mem.type loc).storage⟩
    -- `ret` becomes `pointed_type(type)`, the type in the new symbol
    readStars mem loc fuel (ret.or (some ref)) toks
  | _, ret, toks => (mem, ret, toks)

/-- What a parameter may have before its array bound. -/
def Tok.skipped : Tok → Bool
  | .qual .atomic => false
  | .qual _ | .static | .star => true
  | _ => false

/-- The bound of an array, up to `]`. -/
def readBound (cx : Cx) (storage : BitVec 32) (td : Td) (toks : List Tok) :
    Except Error (Bound × List Tok) :=
  let toks := if td.param then toks.dropWhile Tok.skipped else toks
  match toks with
  | .rbrack :: _ => .ok (.unspecified, toks)
  | .const n :: toks => if n < 0 then .error .invalidArraySize else .ok (.const n.toNat, toks)
  | .expr e :: toks =>
    if td.param || (cx.localStack && storage &&& vtStatic == 0) then .ok (.expr e, toks)
    else .error .constantExpected
  | _ => .error (.expected "expression")

def skip (tok : Tok) (what : String) : List Tok → Except Error (List Tok)
  | t :: toks => if t = tok then .ok toks else .error (.expected what)
  | [] => .error (.expected what)

/-- The identifiers of an old-style parameter list, whose types are not known yet. -/
def readIdents : List Tok → Except Error (List Ty × List Tok)
  | .ident _ :: .comma :: toks => do
    let (tys, toks) ← readIdents toks
    .ok (([], voidBase) :: tys, toks)
  | .ident _ :: .rparen :: toks => .ok ([([], voidBase)], .rparen :: toks)
  | .ident _ :: _ => .error (.expected "','")
  | _ => .error (.expected "identifier")

/-! ## Derivations -/

/-- The end of the first case of `post_type`: the function type is made, from the closing
parenthesis on. -/
def finishFunc (mem : Mem) (loc : Nat) (next : List Ty) (funcType : FuncType) (toks : List Tok) :
    Except Error (Bool × Mem × List Tok) := do
  let toks ← skip .rparen "')'" toks
  let mem := mem.clearConst loc
  if toks.head? = some .lbrack then do
    -- `int c()[]`: a function returning an array is taken as one returning a pointer
    let toks ← skip .rbrack "']'" toks.tail
    let mem := mem.mkPointer loc
    .ok (true, (mem.symPush loc .unspecified next funcType).setType loc ⟨.func mem.length, 0⟩, toks)
  else
    .ok (true, (mem.symPush loc .unspecified next funcType).setType loc ⟨.func mem.length, 0⟩, toks)

/-- The end of the second case of `post_type`: the array type is made once what follows the
bound has been read. -/
def finishArray (cx : Cx) (mem : Mem) (loc : Nat) (b : Bound) (td : Td) : Except Error Mem :=
  if mem.isFunc loc then .error .arrayOfFunctions
  else if mem.isVoid loc || cx.typeSize (mem.readType loc) < 0 then .error .incompleteElements
  else
    let vla := b.isExpr || mem.isVla loc
    if vla && b == .unspecified && td.nest then .error .innerArraySize
    else .ok ((mem.symPush loc b [] .old).setType loc ⟨.array vla mem.length, 0⟩)

/-! ## The functions -/

mutual

/-- `type_decl`: the memory, the name if there is one, and the place that suffixes after a closing
parenthesis modify. -/
def typeDeclFuel (cx : Cx) : Nat → Mem → Nat → Td → List Tok →
    Except Error (Mem × Option Nat × Nat × List Tok)
  | 0, _, _, _, _ => .error .outOfFuel
  | fuel + 1, mem, loc, td, toks => do
    -- the storage bits are removed first and applied again later
    let storage := (mem.type loc).storage
    let (mem, star, toks) := readStars (mem.setStorage loc 0) loc toks.length none toks
    let ret := star.getD loc
    let (mem, v, post, toks) ← typeDeclCore cx fuel mem loc td toks
    let (_, mem, toks) ←
      postTypeFuel cx fuel mem post (if post ≠ ret then 0 else storage) td.post toks
    .ok (mem.setStorage loc storage, v, ret, toks)

/-- The middle of `type_decl`: a function type, a declarator in parentheses, an identifier, or
nothing. -/
def typeDeclCore (cx : Cx) : Nat → Mem → Nat → Td → List Tok →
    Except Error (Mem × Option Nat × Nat × List Tok)
  | 0, _, _, _, _ => .error .outOfFuel
  | fuel + 1, mem, loc, td, toks =>
    let abstractCore (mem : Mem) (toks : List Tok) :=
      if td.abstract then Except.ok (mem, none, loc, toks) else .error (.expected "identifier")
    match toks with
    | .lparen :: _ => do
      let (done, mem, toks) ← postTypeFuel cx fuel mem loc 0 td toks
      if done then abstractCore mem toks
      else do
        let (mem, v, post, toks) ← typeDeclFuel cx fuel mem loc td toks
        let toks ← skip .rparen "')'" toks
        .ok (mem, v, post, toks)
    | .ident v :: toks =>
      if td.direct then .ok (mem, some v, loc, toks) else abstractCore mem (.ident v :: toks)
    | _ => abstractCore mem toks

/-- `post_type`; the first result is false if what follows is a declarator in parentheses. -/
def postTypeFuel (cx : Cx) : Nat → Mem → Nat → BitVec 32 → Td → List Tok →
    Except Error (Bool × Mem × List Tok)
  | 0, _, _, _, _, _ => .error .outOfFuel
  | fuel + 1, mem, loc, storage, td, toks =>
    match toks with
    | .lparen :: toks =>
      if td.direct && !td.abstract then .ok (false, mem, toks)
      else
        match toks with
        | .rparen :: _ => finishFunc mem loc [] .old toks
        | .btype b :: toks => do
          let (mem, next, funcType, toks) ← paramsFuel cx fuel mem b toks
          finishFunc mem loc next funcType toks
        | _ =>
          if td.direct || td.abstract then .ok (false, mem, toks)
          else do
            let (next, toks) ← readIdents toks
            finishFunc mem loc next .old toks
    | .lbrack :: toks => do
      let (b, toks) ← readBound cx storage td toks
      let toks ← skip .rbrack "']'" toks
      let (_, mem, toks) ← postTypeFuel cx fuel mem loc storage { td.post with nest := true } toks
      let mem ← finishArray cx mem loc b td
      .ok (true, mem, toks)
    | _ => .ok (true, mem, toks)

/-- The parameters after the specifiers `b` of the first one, up to `)`. -/
def paramsFuel (cx : Cx) : Nat → Mem → Base → List Tok →
    Except Error (Mem × List Ty × FuncType × List Tok)
  | 0, _, _, _ => .error .outOfFuel
  | fuel + 1, mem, b, toks =>
    if b.kind = .void ∧ toks.head? = some .rparen then .ok (mem, [], .new, toks)
    else do
      let loc := mem.length
      let (mem, _, _, toks) ←
        typeDeclFuel cx fuel (mem ++ [⟨⟨.base b, 0⟩, .unspecified, [], .old⟩]) loc Td.ofParam toks
      if mem.isVoid loc then .error .paramVoid
      else
        let mem := mem.convertParameterType loc
        let ty := mem.readType loc
        match toks with
        | .rparen :: _ => .ok (mem, [ty], .new, toks)
        | .comma :: .dots :: toks => .ok (mem, [ty], .ellipsis, toks)
        | .comma :: .btype b :: toks => do
          let (mem, tys, funcType, toks) ← paramsFuel cx fuel mem b toks
          .ok (mem, ty :: tys, funcType, toks)
        | .comma :: _ => .error .invalidType
        | _ => .error (.expected "','")

end

/-- `type_decl` -/
def typeDecl (cx : Cx) (mem : Mem) (loc : Nat) (td : Td) (toks : List Tok) :
    Except Error (Mem × Option Nat × Nat × List Tok) :=
  typeDeclFuel cx (2 * toks.length + 2) mem loc td toks

/-! ## The recursion ends by itself -/

/-- The recursion was not cut off, and a result satisfies `P`. -/
def Yields {α : Type} (x : Except Error α) (P : α → Prop) : Prop :=
  x ≠ .error .outOfFuel ∧ ∀ a, x = .ok a → P a

section Yields

variable {α β : Type} {x : Except Error α} {f : α → Except Error β} {P : α → Prop} {Q : β → Prop}

theorem yields_ok {a : α} (h : P a) : Yields (.ok a) P := by
  refine ⟨fun h => (by cases h), fun a' heq => ?_⟩
  cases heq
  exact h

theorem yields_error {e : Error} (h : e ≠ .outOfFuel) : Yields (.error e) P := by
  refine ⟨fun heq => ?_, fun a' heq => by cases heq⟩
  cases heq
  exact h rfl

theorem yields_bind (hx : Yields x P) (hf : ∀ a, P a → Yields (f a) Q) : Yields (x >>= f) Q := by
  cases x with
  | error e =>
    refine ⟨fun heq => hx.1 ?_, fun b heq => by cases heq⟩
    cases heq
    rfl
  | ok a => exact hf a (hx.2 a rfl)

end Yields

theorem readQuals_length (q : Quals) (toks : List Tok) :
    (readQuals q toks).2.length ≤ toks.length := by
  fun_induction readQuals q toks with
  | case1 q x toks ih => exact Nat.le_succ_of_le ih
  | case2 q toks h => exact Nat.le_refl _

theorem readStars_length (mem : Mem) (loc fuel : Nat) (ret : Option Nat) (toks : List Tok) :
    (readStars mem loc fuel ret toks).2.2.length ≤ toks.length := by
  fun_induction readStars mem loc fuel ret toks with
  | case1 mem fuel ret toks q toks' hq ref mem' ih =>
    have hle := readQuals_length Quals.none toks
    rw [hq] at hle
    exact Nat.le_succ_of_le (Nat.le_trans ih hle)
  | case2 mem fuel ret toks h => exact Nat.le_refl _

theorem readBound_yields (cx : Cx) (storage : BitVec 32) (td : Td) (toks : List Tok) :
    Yields (readBound cx storage td toks) fun r => r.2.length ≤ toks.length := by
  have hskip : (if td.param then toks.dropWhile Tok.skipped else toks).length ≤ toks.length := by
    split
    · exact (List.dropWhile_suffix _).length_le
    · exact Nat.le_refl _
  rw [readBound]
  generalize (if td.param then toks.dropWhile Tok.skipped else toks) = toks₁ at hskip
  cases toks₁ with
  | nil => exact yields_error (by simp)
  | cons t toks₁ =>
    have hle : toks₁.length ≤ toks.length := Nat.le_of_succ_le hskip
    cases t with
    | rbrack => exact yields_ok hskip
    | const n =>
      dsimp only
      split
      · exact yields_error (by simp)
      · exact yields_ok hle
    | expr e =>
      dsimp only
      split
      · exact yields_ok hle
      · exact yields_error (by simp)
    | _ => exact yields_error (by simp)

theorem skip_yields (tok : Tok) (what : String) (toks : List Tok) :
    Yields (skip tok what toks) fun toks' => toks'.length < toks.length := by
  cases toks with
  | nil => exact yields_error (by simp)
  | cons t toks =>
    rw [skip]
    split
    · exact yields_ok (Nat.lt_succ_self _)
    · exact yields_error (by simp)

theorem readIdents_yields (toks : List Tok) :
    Yields (readIdents toks) fun r => r.2.length ≤ toks.length := by
  fun_induction readIdents toks with
  | case1 v toks ih =>
    refine yields_bind ih fun r hr => yields_ok ?_
    simp only [List.length_cons]
    omega
  | case2 v toks => exact yields_ok (Nat.le_succ _)
  | case3 v toks h₁ h₂ => exact yields_error (by simp)
  | case4 toks h₁ h₂ h₃ => exact yields_error (by simp)

theorem finishFunc_yields (mem : Mem) (loc : Nat) (next : List Ty) (k : FuncType)
    (toks : List Tok) :
    Yields (finishFunc mem loc next k toks) fun r => r.1 = true ∧ r.2.2.length < toks.length := by
  refine yields_bind (skip_yields _ _ toks) fun toks₁ h₁ => ?_
  dsimp only
  split
  · refine yields_bind (skip_yields _ _ _) fun toks₂ h₂ => yields_ok ⟨rfl, ?_⟩
    rw [List.length_tail] at h₂
    dsimp only
    omega
  · exact yields_ok ⟨rfl, h₁⟩

theorem finishArray_yields (cx : Cx) (mem : Mem) (loc : Nat) (b : Bound) (td : Td) :
    Yields (finishArray cx mem loc b td) fun _ => True := by
  unfold finishArray
  dsimp only
  split
  · exact yields_error (by simp)
  · split
    · exact yields_error (by simp)
    · split
      · exact yields_error (by simp)
      · exact yields_ok trivial

/-- The fuel that each function needs for so many tokens is enough, and no function returns more
tokens than it was given. -/
structure Enough (cx : Cx) (fuel : Nat) : Prop where
  decl : ∀ mem loc td toks, 2 * toks.length + 2 ≤ fuel →
    Yields (typeDeclFuel cx fuel mem loc td toks) fun r => r.2.2.2.length ≤ toks.length
  core : ∀ mem loc td toks, 2 * toks.length + 1 ≤ fuel →
    Yields (typeDeclCore cx fuel mem loc td toks) fun r => r.2.2.2.length ≤ toks.length
  post : ∀ mem loc storage td toks, 2 * toks.length ≤ fuel → 0 < fuel →
    Yields (postTypeFuel cx fuel mem loc storage td toks) fun r =>
      r.2.2.length ≤ toks.length ∧ (r.1 = false → r.2.2.length < toks.length)
  params : ∀ mem b toks, 2 * toks.length + 3 ≤ fuel →
    Yields (paramsFuel cx fuel mem b toks) fun r => r.2.2.2.length ≤ toks.length

theorem Enough.decl_succ {cx : Cx} {fuel : Nat} (h : Enough cx fuel) (mem : Mem) (loc : Nat)
    (td : Td) (toks : List Tok) (hfuel : 2 * toks.length + 2 ≤ fuel + 1) :
    Yields (typeDeclFuel cx (fuel + 1) mem loc td toks) fun r =>
      r.2.2.2.length ≤ toks.length := by
  have hstars := readStars_length (mem.setStorage loc 0) loc toks.length none toks
  rw [typeDeclFuel]
  generalize readStars (mem.setStorage loc 0) loc toks.length none toks = stars at hstars
  obtain ⟨mem₁, star, toks₁⟩ := stars
  have hstars : toks₁.length ≤ toks.length := hstars
  refine yields_bind (h.core mem₁ loc td toks₁ (by omega)) fun r hr => ?_
  obtain ⟨mem₂, v, post, toks₂⟩ := r
  have hr : toks₂.length ≤ toks₁.length := hr
  refine yields_bind (h.post _ _ _ _ toks₂ (by omega) (by omega)) fun r' hr' => yields_ok ?_
  exact Nat.le_trans hr'.1 (Nat.le_trans hr hstars)

theorem Enough.core_succ {cx : Cx} {fuel : Nat} (h : Enough cx fuel) (mem : Mem) (loc : Nat)
    (td : Td) (toks : List Tok) (hfuel : 2 * toks.length + 1 ≤ fuel + 1) :
    Yields (typeDeclCore cx (fuel + 1) mem loc td toks) fun r =>
      r.2.2.2.length ≤ toks.length := by
  have habstract (mem : Mem) (toks' : List Tok) (hle : toks'.length ≤ toks.length) :
      Yields (if td.abstract then Except.ok (mem, (none : Option Nat), loc, toks')
        else .error (.expected "identifier")) fun r => r.2.2.2.length ≤ toks.length := by
    split
    · exact yields_ok hle
    · exact yields_error (by simp)
  unfold typeDeclCore
  dsimp only
  split
  · rename_i toks₁
    have hlen : (Tok.lparen :: toks₁).length = toks₁.length + 1 := List.length_cons
    refine yields_bind (h.post mem loc 0 td _ (by omega) (by omega)) fun r hr => ?_
    obtain ⟨done, mem', toks'⟩ := r
    dsimp only at hr ⊢
    split
    · exact habstract mem' toks' hr.1
    · have hlt := hr.2 (by simpa using ‹¬done = true›)
      refine yields_bind (h.decl _ _ _ _ (by omega)) fun r' hr' => ?_
      obtain ⟨mem₂, v, post, toks₂⟩ := r'
      refine yields_bind (skip_yields _ _ toks₂) fun toks₃ h₃ => yields_ok ?_
      dsimp only at hr' h₃ ⊢
      omega
  · rename_i v toks₁
    split
    · exact yields_ok (Nat.le_succ _)
    · exact habstract mem _ (Nat.le_refl _)
  · exact habstract mem toks (Nat.le_refl _)

theorem Enough.post_succ {cx : Cx} {fuel : Nat} (h : Enough cx fuel) (mem : Mem) (loc : Nat)
    (storage : BitVec 32) (td : Td) (toks : List Tok) (hfuel : 2 * toks.length ≤ fuel + 1) :
    Yields (postTypeFuel cx (fuel + 1) mem loc storage td toks) fun r =>
      r.2.2.length ≤ toks.length ∧ (r.1 = false → r.2.2.length < toks.length) := by
  have hfinish (mem : Mem) (next : List Ty) (k : FuncType) (toks' : List Tok)
      (hle : toks'.length ≤ toks.length) :
      Yields (finishFunc mem loc next k toks') fun r =>
        r.2.2.length ≤ toks.length ∧ (r.1 = false → r.2.2.length < toks.length) := by
    obtain ⟨hfuel, hok⟩ := finishFunc_yields mem loc next k toks'
    refine ⟨hfuel, fun r hr => ?_⟩
    have hlt := (hok r hr).2
    exact ⟨by omega, fun _ => by omega⟩
  unfold postTypeFuel
  split
  · rename_i toks₁
    have hlen : (Tok.lparen :: toks₁).length = toks₁.length + 1 := List.length_cons
    split
    · exact yields_ok ⟨Nat.le_succ _, fun _ => Nat.lt_succ_self _⟩
    · split
      · exact hfinish mem [] .old _ (Nat.le_succ _)
      · rename_i b toks₂
        have hlen₂ : (Tok.btype b :: toks₂).length = toks₂.length + 1 := List.length_cons
        refine yields_bind (h.params mem b toks₂ (by omega)) fun r hr => ?_
        obtain ⟨mem₁, next, k, toks₃⟩ := r
        have hr : toks₃.length ≤ toks₂.length := hr
        exact hfinish mem₁ next k toks₃ (by omega)
      · split
        · exact yields_ok ⟨Nat.le_succ _, fun _ => Nat.lt_succ_self _⟩
        · refine yields_bind (readIdents_yields toks₁) fun r hr => ?_
          obtain ⟨next, toks₂⟩ := r
          have hr : toks₂.length ≤ toks₁.length := hr
          exact hfinish mem next .old toks₂ (by omega)
  · rename_i toks₁
    have hlen : (Tok.lbrack :: toks₁).length = toks₁.length + 1 := List.length_cons
    refine yields_bind (readBound_yields cx storage td toks₁) fun r hr => ?_
    obtain ⟨b, toks₂⟩ := r
    have hr : toks₂.length ≤ toks₁.length := hr
    refine yields_bind (skip_yields _ _ toks₂) fun toks₃ h₃ => ?_
    refine yields_bind (h.post mem loc storage _ toks₃ (by omega) (by omega)) fun r' hr' => ?_
    obtain ⟨done, mem₁, toks₄⟩ := r'
    have hr' : toks₄.length ≤ toks₃.length := hr'.1
    refine yields_bind (finishArray_yields _ mem₁ _ _ _) fun mem' _ => yields_ok ?_
    exact ⟨by dsimp only; omega, fun heq => by cases heq⟩
  · exact yields_ok ⟨Nat.le_refl _, fun heq => by cases heq⟩

theorem Enough.params_succ {cx : Cx} {fuel : Nat} (h : Enough cx fuel) (mem : Mem) (b : Base)
    (toks : List Tok) (hfuel : 2 * toks.length + 3 ≤ fuel + 1) :
    Yields (paramsFuel cx (fuel + 1) mem b toks) fun r => r.2.2.2.length ≤ toks.length := by
  rw [paramsFuel]
  split
  · exact yields_ok (Nat.le_refl _)
  · refine yields_bind (h.decl _ _ _ _ (by omega)) fun r hr => ?_
    obtain ⟨mem₁, v, ret, toks₁⟩ := r
    dsimp only at hr ⊢
    split
    · exact yields_error (by simp)
    · split
      · exact yields_ok hr
      · exact yields_ok (by simp only [List.length_cons] at hr ⊢; omega)
      · rename_i b' toks₂
        have hlen : toks₂.length + 2 ≤ toks.length := hr
        refine yields_bind (h.params _ _ toks₂ (by omega)) fun r' hr' => yields_ok ?_
        obtain ⟨mem₂, tys, k, toks₃⟩ := r'
        dsimp only at hr' ⊢
        omega
      · exact yields_error (by simp)
      · exact yields_error (by simp)

theorem enough (cx : Cx) (fuel : Nat) : Enough cx fuel := by
  induction fuel with
  | zero =>
    constructor
    · intro _ _ _ _ h
      omega
    · intro _ _ _ _ h
      omega
    · intro _ _ _ _ _ _ h
      omega
    · intro _ _ _ h
      omega
  | succ fuel ih =>
    exact ⟨ih.decl_succ, ih.core_succ, fun mem loc storage td toks hfuel _ =>
      ih.post_succ mem loc storage td toks hfuel, ih.params_succ⟩

/-- The bound on the recursion is never reached. -/
theorem typeDecl_ne_outOfFuel (cx : Cx) (mem : Mem) (loc : Nat) (td : Td) (toks : List Tok) :
    typeDecl cx mem loc td toks ≠ .error .outOfFuel :=
  ((enough cx _).decl mem loc td toks (Nat.le_refl _)).1

end TccRiscv64.Decl
