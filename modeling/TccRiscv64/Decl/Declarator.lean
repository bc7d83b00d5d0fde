import Mathlib.Data.List.Basic

set_option autoImplicit false

/-! # Declarators and the types they stand for

A type is a list of derivations, outermost first, over a base type. The rules of C read a
declarator inside out; `type_decl` reads it from left to right and inserts derivations in the
middle of what it has built so far. Both are functions on such types here, and it is shown when
they agree. -/

namespace TccRiscv64.Decl

/-! ## Types -/

/-- A type qualifier. -/
inductive Qual
  | const | volatile | restrict | atomic
  deriving DecidableEq, Repr

/-- `VT_CONSTANT`, `VT_VOLATILE` and `VT_ATOMIC`; `restrict` is not recorded in a type. -/
structure Quals where
  constant : Bool
  volatile : Bool
  atomic : Bool
  deriving DecidableEq, Repr

def Quals.none : Quals := ⟨false, false, false⟩

def Quals.add (q : Quals) : Qual → Quals
  | .const => { q with constant := true }
  | .volatile => { q with volatile := true }
  | .atomic => { q with atomic := true }
  | .restrict => q

/-- The qualifiers in a list. -/
def qualsOf (qs : List Qual) : Quals := qs.foldl Quals.add Quals.none

/-- What a base type is, as far as declarators ask: a typedef may be a function or an array. -/
inductive BaseKind
  | void | func | array | vla | decayed | other
  deriving DecidableEq, Repr

/-- The type that declaration specifiers denote. -/
structure Base where
  id : Nat
  kind : BaseKind
  quals : Quals
  incomplete : Bool
  deriving DecidableEq, Repr

/-- The bound of an array: `[]`, a constant, or an expression known at run time only. -/
inductive Bound
  | unspecified
  | const (n : Nat)
  | expr (e : Nat)
  deriving DecidableEq, Repr

def Bound.isExpr : Bound → Bool
  | expr _ => true
  | _ => false

/-- `FUNC_NEW`, `FUNC_OLD` and `FUNC_ELLIPSIS`. -/
inductive FuncType
  | new | old | ellipsis
  deriving DecidableEq, Repr

/-- One derivation. The flag of an array is `VT_VLA`. -/
inductive Deriv
  | ptr (q : Quals)
  | array (vla : Bool) (bound : Bound)
  | func (kind : FuncType) (params : List (List Deriv × Base))

/-- A type: derivations, outermost first, and the base. -/
abbrev Ty := List Deriv × Base

namespace Ty

def isVla : Ty → Bool
  | ([], b) => b.kind == .vla
  | (.array vla _ :: _, _) => vla
  | _ => false

/-- Pointer to the type. -/
def ptr (q : Quals) (T : Ty) : Ty := (.ptr q :: T.1, T.2)

/-- Array of the type; it is of variable length if its bound or its element is. -/
def array (b : Bound) (T : Ty) : Ty := (.array (b.isExpr || T.isVla) b :: T.1, T.2)

/-- The type without `const`. -/
def dropConst : Ty → Ty
  | ([], b) => ([], { b with quals := { b.quals with constant := false } })
  | (.ptr q :: ds, b) => (.ptr { q with constant := false } :: ds, b)
  | T => T

/-- Function returning the type; a `const` of a returned type means nothing. -/
def func (kind : FuncType) (params : List Ty) (T : Ty) : Ty :=
  (.func kind params :: T.dropConst.1, T.dropConst.2)

/-- The type of a parameter: arrays and functions become pointers, and the type is taken without
its own qualifiers. -/
def adjust : Ty → Ty
  | ([], b) =>
    let quals := { b.quals with constant := false, volatile := false }
    match b.kind with
    | .func => ([.ptr Quals.none], { b with quals := quals })
    | .array | .vla => ([], { b with kind := .decayed, quals := quals })
    | _ => ([], { b with quals := quals })
  | (.ptr q :: ds, b) => (.ptr { q with constant := false, volatile := false } :: ds, b)
  | (.array _ _ :: ds, b) => (.ptr Quals.none :: ds, b)
  | (.func kind params :: ds, b) => (.ptr Quals.none :: .func kind params :: ds, b)

/-- `f` on the type that is left under the first `n` derivations. -/
def applyAt (n : Nat) (f : Ty → Ty) (T : Ty) : Ty :=
  (T.1.take n ++ (f (T.1.drop n, T.2)).1, (f (T.1.drop n, T.2)).2)

end Ty

/-! ## Declarators -/

mutual

/-- Pointer signs with their qualifiers, what they stand before, and what follows that. -/
inductive Declarator
  | mk (stars : List (List Qual)) (core : Core) (suffix : Suffix)

/-- An identifier, nothing, or a declarator in parentheses. -/
inductive Core
  | ident (v : Nat)
  | abstract
  | paren (d : Declarator)

/-- Array bounds or a parameter list: a function returns no array and no function, and there are
no arrays of functions. -/
inductive Suffix
  | none
  | arrays (b : Bound) (bs : List Bound)
  | func (ps : Params)

/-- `()`, `(void)` or a list of parameters. -/
inductive Params
  | empty
  | void (b : Base)
  | list (ps : ParamList) (ellipsis : Bool)

inductive ParamList
  | single (b : Base) (d : Declarator)
  | cons (b : Base) (d : Declarator) (ps : ParamList)

end

/-- The declarator begins with a pointer sign. -/
def Declarator.starred : Declarator → Bool
  | mk stars _ _ => !stars.isEmpty

/-- The abstract declarator of no tokens. -/
def Declarator.isEmpty : Declarator → Bool
  | mk [] .abstract .none => true
  | _ => false

/-- Pointer signs from left to right. -/
def applyStars (stars : List (List Qual)) (T : Ty) : Ty :=
  stars.foldl (fun T qs => T.ptr (qualsOf qs)) T

/-! ## The rules of C -/

def Params.kind : Params → FuncType
  | empty => .old
  | void _ => .new
  | list _ ellipsis => if ellipsis then .ellipsis else .new

mutual

/-- The type of what is declared: first the pointer signs, then the suffix, then what stands
inside. -/
def Declarator.cType : Declarator → Ty → Ty
  | .mk stars core suffix, T => core.cType (suffix.cApply (applyStars stars T))

def Core.cType : Core → Ty → Ty
  | .ident _, T => T
  | .abstract, T => T
  | .paren d, T => d.cType T

/-- The bound on the right is the innermost. -/
def Suffix.cApply : Suffix → Ty → Ty
  | .none, T => T
  | .arrays b bs, T => (b :: bs).foldr Ty.array T
  | .func ps, T => T.func ps.kind ps.cTypes

def Params.cTypes : Params → List Ty
  | .empty => []
  | .void _ => []
  | .list ps _ => ps.cTypes

def ParamList.cTypes : ParamList → List Ty
  | .single b d => [(d.cType ([], b)).adjust]
  | .cons b d ps => (d.cType ([], b)).adjust :: ps.cTypes

end

/-! ## What `type_decl` builds -/

mutual

/-- The type, and how many derivations stand above the place that the result of `type_decl`
refers to: the type that the first pointer sign points to, or else the whole type. -/
def Declarator.built : Declarator → Ty → Ty × Nat
  | .mk stars core suffix, T =>
    let inner := core.built (applyStars stars T)
    let T' := inner.1.applyAt inner.2 suffix.build
    (T', if stars.isEmpty then 0 else T'.1.length - T.1.length)

def Core.built : Core → Ty → Ty × Nat
  | .ident _, T => (T, 0)
  | .abstract, T => (T, 0)
  | .paren d, T => d.built T

def Suffix.build : Suffix → Ty → Ty
  | .none, T => T
  | .arrays b bs, T => (b :: bs).foldr Ty.array T
  | .func ps, T => T.func ps.kind ps.builtTypes

def Params.builtTypes : Params → List Ty
  | .empty => []
  | .void _ => []
  | .list ps _ => ps.builtTypes

def ParamList.builtTypes : ParamList → List Ty
  | .single b d => [(d.built ([], b)).1.adjust]
  | .cons b d ps => (d.built ([], b)).1.adjust :: ps.builtTypes

end

mutual

/-- The calls of `type_decl` in a run, each with the type it starts from. -/
def Declarator.calls : Declarator → Ty → List (Declarator × Ty)
  | .mk stars core suffix, T =>
    (.mk stars core suffix, T) :: (core.calls (applyStars stars T) ++ suffix.calls)

def Core.calls : Core → Ty → List (Declarator × Ty)
  | .ident _, _ => []
  | .abstract, _ => []
  | .paren d, T => d.calls T

def Suffix.calls : Suffix → List (Declarator × Ty)
  | .none => []
  | .arrays _ _ => []
  | .func ps => ps.calls

def Params.calls : Params → List (Declarator × Ty)
  | .empty => []
  | .void _ => []
  | .list ps _ => ps.calls

def ParamList.calls : ParamList → List (Declarator × Ty)
  | .single b d => d.calls ([], b)
  | .cons b d ps => d.calls ([], b) ++ ps.calls

end

mutual

/-- A declarator in parentheses begins with a pointer sign, or it makes no difference whether it
is applied before what follows the parentheses or after it. -/
def Declarator.InOrder : Declarator → Ty → Prop
  | .mk stars core suffix, T =>
    core.InOrder suffix (applyStars stars T) ∧ suffix.InOrder

def Core.InOrder : Core → Suffix → Ty → Prop
  | .ident _, _, _ => True
  | .abstract, _, _ => True
  | .paren d, suffix, T =>
    d.InOrder T ∧
      (d.starred = false → suffix.cApply (d.cType T) = d.cType (suffix.cApply T))

def Suffix.InOrder : Suffix → Prop
  | .none => True
  | .arrays _ _ => True
  | .func ps => ps.InOrder

def Params.InOrder : Params → Prop
  | .empty => True
  | .void _ => True
  | .list ps _ => ps.InOrder

def ParamList.InOrder : ParamList → Prop
  | .single b d => d.InOrder ([], b)
  | .cons b d ps => d.InOrder ([], b) ∧ ps.InOrder

end

/-! ## What stands under a derivation is not touched -/

/-- `f` changes only the derivations above a tail, once there is one. -/
def Above (f : Ty → Ty) : Prop :=
  ∀ d ds, ∃ d' ds', ∀ T : Ty, f (d :: ds ++ T.1, T.2) = (d' :: ds' ++ T.1, T.2)

theorem Above.id : Above id := fun d ds => ⟨d, ds, fun _ => rfl⟩

theorem Above.comp {f g : Ty → Ty} (hg : Above g) (hf : Above f) : Above (g ∘ f) := by
  intro d ds
  obtain ⟨d', ds', hf⟩ := hf d ds
  obtain ⟨d'', ds'', hg⟩ := hg d' ds'
  refine ⟨d'', ds'', fun T => ?_⟩
  rw [Function.comp_apply, hf T, ← hg T]

theorem above_ptr (q : Quals) : Above (Ty.ptr q) := fun d ds => ⟨.ptr q, d :: ds, fun _ => rfl⟩

theorem above_array (b : Bound) : Above (Ty.array b) := by
  intro d ds
  cases d with
  | ptr q => exact ⟨.array (b.isExpr || false) b, .ptr q :: ds, fun _ => rfl⟩
  | array vla b' => exact ⟨.array (b.isExpr || vla) b, .array vla b' :: ds, fun _ => rfl⟩
  | func k ps => exact ⟨.array (b.isExpr || false) b, .func k ps :: ds, fun _ => rfl⟩

theorem above_func (kind : FuncType) (params : List Ty) : Above (Ty.func kind params) := by
  intro d ds
  cases d with
  | ptr q => exact ⟨.func kind params, .ptr { q with constant := false } :: ds, fun _ => rfl⟩
  | array vla b => exact ⟨.func kind params, .array vla b :: ds, fun _ => rfl⟩
  | func k ps => exact ⟨.func kind params, .func k ps :: ds, fun _ => rfl⟩

theorem above_applyStars (stars : List (List Qual)) : Above (applyStars stars) := by
  induction stars with
  | nil => exact Above.id
  | cons qs stars ih => exact ih.comp (above_ptr (qualsOf qs))

theorem above_cApply (suffix : Suffix) : Above suffix.cApply := by
  cases suffix with
  | none => exact Above.id
  | func ps => exact above_func _ _
  | arrays b bs =>
    have hall (bs : List Bound) : Above fun T => bs.foldr Ty.array T := by
      induction bs with
      | nil => exact Above.id
      | cons b bs ih => exact (above_array b).comp ih
    exact hall (b :: bs)

mutual

theorem Declarator.above_cType : (d : Declarator) → Above d.cType
  | .mk stars core suffix =>
    (core.above_cType.comp (above_cApply suffix)).comp (above_applyStars stars)

theorem Core.above_cType : (core : Core) → Above core.cType
  | .ident _ => Above.id
  | .abstract => Above.id
  | .paren d => d.above_cType

end

/-- A declarator that begins with a pointer sign puts derivations above the type it starts
from. -/
theorem Declarator.exists_cType {d : Declarator} (h : d.starred = true) :
    ∃ ds, ∀ T : Ty, d.cType T = (ds ++ T.1, T.2) := by
  cases d with
  | mk stars core suffix =>
    cases stars with
    | nil => cases h
    | cons qs stars =>
      have habove := (core.above_cType.comp (above_cApply suffix)).comp (above_applyStars stars)
      obtain ⟨d', ds', hds⟩ := habove (.ptr (qualsOf qs)) []
      exact ⟨d' :: ds', fun T => hds T⟩

/-! ## When the two agree -/

theorem applyAt_zero (f : Ty → Ty) (T : Ty) : T.applyAt 0 f = f T := rfl

theorem applyAt_append (f : Ty → Ty) (ds : List Deriv) (T : Ty) :
    Ty.applyAt ds.length f (ds ++ T.1, T.2) = (ds ++ (f T).1, (f T).2) := by
  simp [Ty.applyAt]

/-- The type that a declarator in parentheses and what follows it give, if the parentheses alone
give the right one. -/
theorem core_built_eq {core : Core} {suffix : Suffix} {T : Ty}
    (hcore : ∀ d, core = .paren d → (d.built T).1 = d.cType T) :
    (core.built T).1.applyAt (core.built T).2 suffix.cApply = core.cType (suffix.cApply T) ↔
      ∀ d, core = .paren d → d.starred = false →
        suffix.cApply (d.cType T) = d.cType (suffix.cApply T) := by
  cases core with
  | ident v => exact iff_of_true (applyAt_zero _ _) fun _ h => by cases h
  | abstract => exact iff_of_true (applyAt_zero _ _) fun _ h => by cases h
  | paren d =>
    have hd := hcore d rfl
    cases hstar : d.starred with
    | true =>
      refine iff_of_true ?_ fun d' h h' => ?_
      · obtain ⟨ds, hds⟩ := Declarator.exists_cType hstar
        have hpos : (d.built T).2 = (d.cType T).1.length - T.1.length := by
          rw [← hd]
          cases d with
          | mk stars core suffix =>
            cases stars with
            | nil => cases hstar
            | cons qs stars => rfl
        rw [Core.built, hd, hpos, Core.cType, hds T, hds (suffix.cApply T)]
        simp only [List.length_append, Nat.add_sub_cancel]
        exact applyAt_append suffix.cApply ds T
      · cases h
        rw [hstar] at h'
        cases h'
    | false =>
      have hpos : (d.built T).2 = 0 := by
        cases d with
        | mk stars core suffix =>
          cases stars with
          | nil => rfl
          | cons qs stars => cases hstar
      rw [Core.built, hd, hpos, applyAt_zero, Core.cType]
      constructor
      · intro h d' heq _
        cases heq
        exact h
      · exact fun h => h d rfl hstar

/-- The calls in a list of declarators with their types are right. -/
def AllRight (calls : List (Declarator × Ty)) : Prop :=
  ∀ p ∈ calls, (p.1.built p.2).1 = p.1.cType p.2

theorem allRight_nil : AllRight [] := fun _ h => by cases h

theorem allRight_cons (d : Declarator) (T : Ty) (calls : List (Declarator × Ty)) :
    AllRight ((d, T) :: calls) ↔ (d.built T).1 = d.cType T ∧ AllRight calls :=
  List.forall_mem_cons

theorem allRight_append (calls calls' : List (Declarator × Ty)) :
    AllRight (calls ++ calls') ↔ AllRight calls ∧ AllRight calls' :=
  List.forall_mem_append

/-- The call itself is among its calls. -/
theorem Declarator.right_of_calls {d : Declarator} {T : Ty} (h : AllRight (d.calls T)) :
    (d.built T).1 = d.cType T := by
  cases d with
  | mk stars core suffix => exact ((allRight_cons _ _ _).1 h).1

mutual

/-- Parameter types are right when the calls for them are. -/
theorem Params.builtTypes_eq (ps : Params) (h : AllRight ps.calls) :
    ps.builtTypes = ps.cTypes := by
  cases ps with
  | empty => rfl
  | void b => rfl
  | list ps ellipsis => exact ParamList.builtTypes_eq ps h

theorem ParamList.builtTypes_eq (ps : ParamList) (h : AllRight ps.calls) :
    ps.builtTypes = ps.cTypes := by
  cases ps with
  | single b d =>
    have hd : AllRight (d.calls ([], b)) := h
    rw [ParamList.builtTypes, ParamList.cTypes, Declarator.right_of_calls hd]
  | cons b d ps =>
    obtain ⟨hd, hps⟩ := (allRight_append _ _).1 h
    rw [ParamList.builtTypes, ParamList.cTypes, Declarator.right_of_calls hd,
      ParamList.builtTypes_eq ps hps]

end

theorem Suffix.build_eq (suffix : Suffix) (h : AllRight suffix.calls) :
    suffix.build = suffix.cApply := by
  funext T
  cases suffix with
  | none => rfl
  | arrays b bs => rfl
  | func ps => rw [Suffix.build, Suffix.cApply, ps.builtTypes_eq h]

mutual

/-- Every call builds the type of C exactly when the declarators in parentheses are in order. -/
theorem Declarator.calls_right_iff (d : Declarator) (T : Ty) :
    AllRight (d.calls T) ↔ d.InOrder T := by
  cases d with
  | mk stars core suffix =>
    have hcore := core.calls_right_iff suffix (applyStars stars T)
    rw [Declarator.calls, Declarator.InOrder, allRight_cons, allRight_append,
      ← suffix.calls_right_iff, ← hcore]
    constructor
    · rintro ⟨hright, hcalls, hps⟩
      rw [Declarator.built, Declarator.cType, suffix.build_eq hps] at hright
      exact ⟨⟨hright, hcalls⟩, hps⟩
    · rintro ⟨⟨hright, hcalls⟩, hps⟩
      refine ⟨?_, hcalls, hps⟩
      rw [Declarator.built, Declarator.cType, suffix.build_eq hps]
      exact hright

theorem Core.calls_right_iff (core : Core) (suffix : Suffix) (T : Ty) :
    (core.built T).1.applyAt (core.built T).2 suffix.cApply = core.cType (suffix.cApply T) ∧
      AllRight (core.calls T) ↔ core.InOrder suffix T := by
  cases core with
  | ident v => exact iff_of_true ⟨applyAt_zero _ _, allRight_nil⟩ trivial
  | abstract => exact iff_of_true ⟨applyAt_zero _ _, allRight_nil⟩ trivial
  | paren d =>
    rw [Core.InOrder, ← d.calls_right_iff T, Core.calls, and_comm]
    refine and_congr_right fun hcalls => ?_
    have hd := Declarator.right_of_calls hcalls
    rw [core_built_eq fun d' h => by cases h; exact hd]
    constructor
    · exact fun h => h d rfl
    · intro h d' heq
      cases heq
      exact h

theorem Suffix.calls_right_iff (suffix : Suffix) : AllRight suffix.calls ↔ suffix.InOrder := by
  cases suffix with
  | none => exact iff_of_true allRight_nil trivial
  | arrays b bs => exact iff_of_true allRight_nil trivial
  | func ps => exact ps.calls_right_iff

theorem Params.calls_right_iff (ps : Params) : AllRight ps.calls ↔ ps.InOrder := by
  cases ps with
  | empty => exact iff_of_true allRight_nil trivial
  | void b => exact iff_of_true allRight_nil trivial
  | list ps ellipsis => exact ps.calls_right_iff

theorem ParamList.calls_right_iff (ps : ParamList) : AllRight ps.calls ↔ ps.InOrder := by
  cases ps with
  | single b d => exact d.calls_right_iff ([], b)
  | cons b d ps =>
    rw [ParamList.calls, ParamList.InOrder, allRight_append, d.calls_right_iff ([], b),
      ps.calls_right_iff]

end

end TccRiscv64.Decl
