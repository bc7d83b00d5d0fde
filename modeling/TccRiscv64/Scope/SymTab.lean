import Mathlib

set_option autoImplicit false

/-! # Symbol tables

`sym_push2`, `sym_push`, `global_identifier_push`, `sym_copy`, `sym_pop`, `sym_find` and
`struct_find`, on symbols at addresses that an allocator hands out and takes back. The stacks are
lists, with the last symbol first. -/

namespace TccRiscv64.Scope

/-- The address of a symbol. -/
abbrev SymId := Nat

/-- `SYM_FIRST_ANOM`. -/
def symFirstAnom : Nat := 0x10000000

/-- `v` of a symbol: a token, `SYM_STRUCT` and `SYM_FIELD`. -/
structure SymTok where
  tok : Nat
  isStruct : Bool
  isField : Bool
  deriving DecidableEq

/-- The places of `TokenSym` that `sym_find` and `struct_find` read. -/
inductive Key
  | ident (tok : Nat)
  | tag (tok : Nat)
  deriving DecidableEq

/-- Where a symbol is recorded: fields and anonymous symbols are not. -/
def SymTok.key (v : SymTok) : Option Key :=
  if v.isField = false ∧ v.tok < symFirstAnom then
    some (if v.isStruct then .tag v.tok else .ident v.tok)
  else none

/-- `Sym`. The value of an enumeration constant, `enum_val`, has its upper half in the place of
`sym_scope`; `refScope` is `type.ref->sym_scope` of such a constant. -/
structure Sym where
  v : SymTok
  symScope : BitVec 32
  refScope : Option (BitVec 32)
  prevTok : Option SymId
  deriving DecidableEq

/-- The symbols with their stacks and places, and `local_scope`. -/
structure SymTab where
  heap : SymId → Option Sym
  localStack : List SymId
  globalStack : List SymId
  table : Key → Option SymId
  localScope : BitVec 32

/-- What ends a run: `tcc_error` for a redeclaration, the use of a null or freed pointer, or a step
that does not follow block nesting. -/
inductive Stop
  | redeclaration
  | fault
  | nesting
  deriving DecidableEq

namespace SymTab

variable (st : SymTab)

/-- `sym_malloc`, of an address that is free. -/
def symMalloc (s : SymId) (sym : Sym) : Except Stop SymTab :=
  if st.heap s = none then .ok { st with heap := Function.update st.heap s (some sym) }
  else .error .nesting

/-- The function `sym_scope`. -/
def scopeOf (sym : Sym) : BitVec 32 := sym.refScope.getD sym.symScope

/-- `*ps` of `sym_push`: whether symbols go to `local_stack`. -/
def onLocal : Bool := st.localStack ≠ []

/-- The stack that `sym_push` pushes to. -/
def stack : List SymId := if st.onLocal then st.localStack else st.globalStack

/-- Adds a symbol to a stack. -/
def addTo (onLocal : Bool) (s : SymId) : SymTab :=
  if onLocal then { st with localStack := s :: st.localStack }
  else { st with globalStack := s :: st.globalStack }

section AddTo

variable (b : Bool) (s : SymId)

@[simp] theorem addTo_heap : (st.addTo b s).heap = st.heap := by
  cases b <;> rfl

@[simp] theorem addTo_table : (st.addTo b s).table = st.table := by
  cases b <;> rfl

@[simp] theorem addTo_localStack :
    (st.addTo b s).localStack = if b then s :: st.localStack else st.localStack := by
  cases b <;> rfl

@[simp] theorem addTo_globalStack :
    (st.addTo b s).globalStack = if b then st.globalStack else s :: st.globalStack := by
  cases b <;> rfl

end AddTo

/-- `sym_push2`. -/
def symPush2 (onLocal : Bool) (s : SymId) (v : SymTok) : Except Stop SymTab := do
  let st' ← st.symMalloc s { v, symScope := 0, refScope := none, prevTok := none }
  pure (st'.addTo onLocal s)

/-- `sym_push`, of a symbol with `type.ref->sym_scope` in `refScope` if it is an enumeration
constant. -/
def symPush (s : SymId) (v : SymTok) (refScope : Option (BitVec 32)) : Except Stop SymTab :=
  match v.key with
  | none => st.symPush2 st.onLocal s v
  | some k => do
    let prev := st.table k
    let st' ← st.symMalloc s { v, symScope := st.localScope, refScope, prevTok := prev }
    let st' := st'.addTo st.onLocal s
    let st' := { st' with table := Function.update st'.table k (some s) }
    match prev with
    | none => pure st'
    | some p =>
      match st.heap p with
      | none => .error .fault
      | some sym => if scopeOf sym = st.localScope then .error .redeclaration else pure st'

/-- The assignment to `enum_val` that follows the push of an enumeration constant. -/
def setEnumVal (s : SymId) (value : BitVec 64) : SymTab :=
  { st with
    heap := Function.update st.heap s
      ((st.heap s).map fun sym => { sym with symScope := value.extractLsb' 32 32 }) }

/-- `sym_copy` to `local_stack`. -/
def symCopy (s s0 : SymId) : Except Stop SymTab :=
  match st.heap s0 with
  | none => .error .fault
  | some sym =>
    match sym.v.key with
    | none => do
      let st' ← st.symMalloc s sym
      pure (st'.addTo true s)
    | some k => do
      let st' ← st.symMalloc s { sym with prevTok := st.table k }
      let st' := st'.addTo true s
      pure { st' with table := Function.update st'.table k (some s) }

/-- The loop of `global_identifier_push`: the symbol whose `prev_tok` is changed, if it is not
`sym_identifier` itself, and what is there now. -/
def insertPlace (heap : SymId → Option Sym) :
    Nat → Option SymId → Option SymId → Except Stop (Option SymId × Option SymId)
  | 0, _, _ => .error .fault
  | _ + 1, place, none => .ok (place, none)
  | fuel + 1, place, some p =>
    match heap p with
    | none => .error .fault
    | some sym =>
      if sym.symScope ≠ 0 then insertPlace heap fuel (some p) sym.prevTok else .ok (place, some p)

/-- The assignment to `*ps`. -/
def setPlace (k : Key) (place : Option SymId) (s : SymId) : SymTab :=
  match place with
  | none => { st with table := Function.update st.table k (some s) }
  | some p =>
    { st with
      heap := Function.update st.heap p
        ((st.heap p).map fun sym => { sym with prevTok := some s }) }

/-- `global_identifier_push`. -/
def globalIdentifierPush (s : SymId) (tok : Nat) : Except Stop SymTab := do
  let v : SymTok := { tok, isStruct := false, isField := false }
  if tok < symFirstAnom then
    let fuel := st.localStack.length + st.globalStack.length + 1
    let (place, next) ← insertPlace st.heap fuel none (st.table (.ident tok))
    let st' ← st.symMalloc s { v, symScope := 0, refScope := none, prevTok := next }
    pure ((st'.addTo false s).setPlace (.ident tok) place s)
  else st.symPush2 false s v

/-- What `sym_pop` does with one symbol. -/
def popSym (keep : Bool) (s : SymId) : Except Stop SymTab :=
  match st.heap s with
  | none => .error .fault
  | some sym =>
    .ok { st with
      table := match sym.v.key with
        | some k => Function.update st.table k sym.prevTok
        | none => st.table
      heap := if keep then st.heap else Function.update st.heap s none }

/-- The loop of `sym_pop`, with the symbols that are left. -/
def popSyms (b : Option SymId) (keep : Bool) : List SymId → SymTab → Except Stop (List SymId × SymTab)
  | [], st => if b = none then .ok ([], st) else .error .fault
  | s :: rest, st =>
    if b = some s then .ok (s :: rest, st)
    else do
      let st' ← st.popSym keep s
      popSyms b keep rest st'

/-- `sym_pop` of `local_stack` or `global_stack`. -/
def symPop (onLocal : Bool) (b : Option SymId) (keep : Bool) : Except Stop SymTab := do
  let (rest, st') ← popSyms b keep (if onLocal then st.localStack else st.globalStack) st
  if keep then pure st'
  else if onLocal then pure { st' with localStack := rest }
  else pure { st' with globalStack := rest }

end SymTab

/-! ## Runs -/

/-- The tables, and the stack marks that the open scopes have saved. -/
structure Config where
  st : SymTab
  marks : List (Option SymId)

/-- What the compiler does with its symbols while it reads declarations and blocks. -/
inductive Op
  /-- `sym_push`. -/
  | push (s : SymId) (v : SymTok)
  /-- `sym_push` of an enumeration constant whose enumeration has the scope `refScope`. -/
  | pushEnum (s : SymId) (v : SymTok) (refScope : BitVec 32) (value : BitVec 64)
  /-- `sym_copy` of a symbol that is not a tag. -/
  | copy (s s0 : SymId) (v : SymTok)
  | globalPush (s : SymId) (tok : Nat)
  /-- `sym_push2` of a symbol that is not recorded. -/
  | push2 (onLocal : Bool) (s : SymId) (v : SymTok)
  /-- `new_scope`, `new_scope_s`, or the beginning of a parameter list. -/
  | enter
  /-- `prev_scope`, `prev_scope_s`, or the end of a parameter list. -/
  | leave (keep : Bool)
  /-- The beginning of `gen_function`, with its dummy symbol. -/
  | enterFunction (s : SymId) (v : SymTok)
  /-- The end of the parameters of `gen_function`. -/
  | startBody
  | leaveFunction

namespace Config

variable (c : Config)

def exec : Op → Except Stop Config
  | .push s v => do pure { c with st := ← c.st.symPush s v none }
  | .pushEnum s v refScope value => do
    let st ← c.st.symPush s v (some refScope)
    pure { c with st := st.setEnumVal s value }
  | .copy s s0 v =>
    if c.st.onLocal ∧ v.isStruct = false ∧ (c.st.heap s0).map Sym.v = some v then do
      pure { c with st := ← c.st.symCopy s s0 }
    else .error .nesting
  | .globalPush s tok => do pure { c with st := ← c.st.globalIdentifierPush s tok }
  | .push2 onLocal s v =>
    if v.key = none ∧ (onLocal → c.st.onLocal) then do
      pure { c with st := ← c.st.symPush2 onLocal s v }
    else .error .nesting
  | .enter =>
    .ok { st := { c.st with localScope := c.st.localScope + 1 }, marks := c.st.stack.head? :: c.marks }
  | .leave keep =>
    match c.marks with
    | [] => .error .nesting
    | b :: marks => do
      let st ← c.st.symPop c.st.onLocal b keep
      pure { st := { st with localScope := st.localScope - 1 }, marks }
  | .enterFunction s v =>
    if c.st.onLocal = false ∧ c.marks = [] ∧ v.key = none then do
      let st ← c.st.symPush2 true s v
      pure { c with st := { st with localScope := 1 } }
    else .error .nesting
  | .startBody =>
    if c.st.onLocal ∧ c.marks = [] then .ok { c with st := { c.st with localScope := 0 } }
    else .error .nesting
  | .leaveFunction =>
    if c.st.onLocal ∧ c.marks = [] then do
      let st ← c.st.symPop true none false
      pure { c with st := { st with localScope := 0 } }
    else .error .nesting

/-- The state before the first declaration. -/
def init : Config where
  st :=
    { heap := fun _ => none, localStack := [], globalStack := [], table := fun _ => none,
      localScope := 0 }
  marks := []

end Config

end TccRiscv64.Scope
