import TccRiscv64.Gen.RegPass

set_option autoImplicit false

/-! # Where arguments are passed: `gfunc_call` and `gfunc_prolog`

The caller classifies its arguments in one loop (`classifyArgs`), lays out those on the stack in a
second one (`stackOffsets`) and loads the registers in a third one, from the same records; the
callee has a single loop of its own (`prologParams`). `none` stands for a failed assertion, or for a
decision on an entry of `prc` that was never written. -/

namespace TccRiscv64.Gen

def xlen : Nat := 8

/-! ## Locations -/

/-- Where the bytes of an argument are at the call. Integer registers are numbered 0 to 7, float
registers 8 to 15, stack offsets count from the stack pointer at the call. -/
inductive Place
  /-- the argument has no bytes -/
  | nowhere
  | reg (r : Nat)
  | regPair (r r2 : Nat)
  | regStack (r ofs : Nat)
  | stack (ofs : Nat)
  deriving DecidableEq, Repr

/-- A place, and whether it holds the object or a pointer to it. -/
structure Location where
  place : Place
  byref : Bool
  deriving DecidableEq, Repr

/-! ## The caller -/

/-- `info[i]`: the register in bits 0 to 3, the flags 16, 32 and 64, and the bits from 7 up, in which
the second register (plus one), the types of the pieces and the offset of a by-reference copy are
combined. -/
structure ArgInfo where
  reg : Nat
  /-- `16`: the second half goes to the stack -/
  split : Bool
  /-- `32`: the argument goes to the stack -/
  stack : Bool
  /-- `64`: a pointer to a copy is passed -/
  byref : Bool
  high : Nat
  deriving DecidableEq, Repr

/-- The locals of `gfunc_call` that its first loop carries along. -/
structure CallState where
  areg0 : Nat
  areg1 : Nat
  stackAdj : Nat
  tempspace : Nat
  deriving DecidableEq, Repr

def CallState.start : CallState := ⟨0, 8, 0, 0⟩

/-- `areg[c - 1]`. -/
def CallState.areg (st : CallState) : RegClass → Nat
  | .int => st.areg0
  | .float => st.areg1

/-- `areg[c - 1]++`. -/
def CallState.next (st : CallState) : RegClass → CallState
  | .int => { st with areg0 := st.areg0 + 1 }
  | .float => { st with areg1 := st.areg1 + 1 }

/-- The condition under which an argument goes to the stack, with `ints` integer registers in use
and float registers from `floats` on free up to `top`. The classes are looked at in the order of
the source. -/
def outOfRegs (p : RegPass) (ints floats top : Nat) : Option Bool :=
  if (p.c1 = .int ∧ ints ≥ 8) ∨ (p.c1 = .float ∧ floats ≥ top) then some true
  else if p.nregs = 2 then do
    let c2 ← p.c2
    some (decide ((p.c1 = .float ∧ c2 = .float ∧ floats ≥ top - 1) ∨
      (p.c1 ≠ c2 ∧ (floats ≥ top ∨ ints ≥ 8))))
  else some false

/-- An object of more than 16 bytes is copied and its address passed. -/
def CType.byref (type : CType) : Bool := type.size > 16

/-- Size and alignment of what is passed: the object, or its address. -/
def CType.passSize (type : CType) : Nat := if type.byref then 8 else type.size
def CType.passAlign (type : CType) : Nat := if type.byref then 8 else type.align

/-- `tempofs`, the offset of the copy, if there is one. -/
def CallState.tempofs (st : CallState) (type : CType) : Nat :=
  if type.byref then alignUp st.tempspace (max type.align xlen) else 0

/-- Reserve the space for the copy. -/
def CallState.reserve (st : CallState) (type : CType) : CallState :=
  if type.byref then { st with tempspace := st.tempofs type + type.size } else st

/-- An unnamed argument with the alignment of two registers starts at an even one. -/
def CallState.roundInts (st : CallState) (type : CType) (named : Bool) : CallState :=
  if ¬named ∧ type.passAlign = 2 * xlen ∧ type.passSize ≤ 2 * xlen then
    { st with areg0 := (st.areg0 + 1) / 2 * 2 }
  else st

/-- Account for an argument on the stack. After an unnamed one all others go there too. -/
def CallState.push (st : CallState) (type : CType) (named : Bool) : CallState :=
  let align := max type.passAlign xlen
  let st := { st with stackAdj := st.stackAdj + alignUp type.passSize align }
  if named then st else { st with areg0 := 8, areg1 := 16 }

/-- The bits from 7 up of `info[i]` that hold the type of the first piece, or the offset of the copy
if there is one. -/
def firstBits (byref : Bool) (tempofs : Nat) (f1 : FieldOf) : Nat :=
  if byref then tempofs else f1.bt.code <<< 5

/-- The bits from 7 up of `info[i]` that hold offset and type of the second piece. -/
def secondBits (byref : Bool) (f2 : FieldOf) : Nat :=
  if byref then 0 else f2.ofs <<< 13 ||| f2.bt.code <<< 9

/-- The second register of an argument, or the stack slot for its second half. -/
def secondPiece (st : CallState) (p : RegPass) (byref : Bool) (reg high : Nat) :
    Option (ArgInfo × CallState) := do
  let c2 ← p.c2
  let f2 ← p.f2
  if ¬byref ∧ f2.ofs ≥ 2048 then none
  else if c2 = .float ∨ st.areg0 < 8 then
    some (⟨reg, false, false, byref, high ||| (1 + st.areg c2) ||| secondBits byref f2⟩,
      st.next c2)
  else
    some (⟨reg, true, false, byref, high ||| secondBits byref f2⟩,
      { st with stackAdj := st.stackAdj + 8 })

/-- The registers of an argument. -/
def passInRegs (st : CallState) (p : RegPass) (byref : Bool) (tempofs : Nat) :
    Option (ArgInfo × CallState) :=
  let reg := st.areg p.c1
  let st := st.next p.c1
  let high := firstBits byref tempofs p.f1
  if p.f1.ofs ≠ 0 then none
  else if p.nregs = 2 then secondPiece st p byref reg high
  else some (⟨reg, false, false, byref, high⟩, st)

/-- One round of the first loop of `gfunc_call`, for an argument of type `type`; `named` tells
whether a parameter is left for it. -/
def classifyArg (st : CallState) (type : CType) (named : Bool) : Option (ArgInfo × CallState) := do
  let p ← regPass type named
  let tempofs := st.tempofs type
  let st := (st.reserve type).roundInts type named
  if type.passSize = 0 then
    some (⟨0, false, false, type.byref, tempofs⟩, st)
  else if ← outOfRegs p st.areg0 st.areg1 16 then
    some (⟨0, false, true, type.byref, tempofs⟩, st.push type named)
  else
    passInRegs st p type.byref tempofs

/-- The first loop of `gfunc_call`. `nparams` parameters are left (`sa`). -/
def classifyArgs (st : CallState) (types : List CType) (nparams : Nat) :
    Option (List ArgInfo × CallState) :=
  match types with
  | [] => some ([], st)
  | type :: types => do
    let (info, st) ← classifyArg st type (nparams > 0)
    let (infos, st) ← classifyArgs st types (nparams - 1)
    some (info :: infos, st)

/-- The second loop of `gfunc_call`: the offset at which each argument, or its second half, is
stored, if it is on the stack at all. Only one argument may be split. -/
def stackOffsets (splitofs ofs : Nat) (args : List (CType × ArgInfo)) : Option (List Nat) :=
  match args with
  | [] => some []
  | (type, info) :: args =>
    if info.stack then do
      let ofs := alignUp ofs (max type.passAlign xlen)
      some (ofs :: (← stackOffsets splitofs (ofs + type.passSize) args))
    else if ¬info.byref ∧ info.split then
      if splitofs ≠ 0 then none
      else do some (ofs :: (← stackOffsets ofs (ofs + 8) args))
    else do
      some (0 :: (← stackOffsets splitofs ofs args))

/-- Where the record of an argument places it; `ofs` is what `stackOffsets` found. -/
def ArgInfo.location (info : ArgInfo) (type : CType) (ofs : Nat) : Location :=
  let r2 := if info.byref then 0 else info.high &&& 31
  let place :=
    if info.stack then .stack ofs
    else if type.size = 0 then .nowhere
    else if info.split then .regStack info.reg ofs
    else if r2 ≠ 0 then .regPair info.reg (r2 - 1)
    else .reg info.reg
  ⟨place, info.byref⟩

/-- The locations `gfunc_call` assigns to arguments of the given types, of which `nparams` have a
parameter. The second loop does not run when nothing was put on the stack. -/
def gfuncCall (types : List CType) (nparams : Nat) : Option (List Location) := do
  let (infos, st) ← classifyArgs .start types nparams
  let args := types.zip infos
  let offsets ←
    if st.stackAdj + st.tempspace = 0 then some (args.map fun _ => 0) else stackOffsets 0 0 args
  some ((args.zip offsets).map fun ((type, info), ofs) => info.location type ofs)

/-! ## The callee -/

/-- The locals of `gfunc_prolog` that its loop carries along. -/
structure PrologState where
  areg0 : Nat
  areg1 : Nat
  addr : Nat
  deriving DecidableEq, Repr

def PrologState.areg (st : PrologState) : RegClass → Nat
  | .int => st.areg0
  | .float => st.areg1

/-- Save the register of the first piece to the frame. -/
def PrologState.next (st : PrologState) : RegClass → PrologState
  | .int => { st with areg0 := st.areg0 + 1 }
  | .float => { st with areg1 := st.areg1 + 1 }

/-- The number of the register a class is read from. -/
def PrologState.regNumber (st : PrologState) : RegClass → Nat
  | .int => st.areg0
  | .float => 8 + st.areg1

/-- One round of the loop of `gfunc_prolog`: the location the parameter is taken from. -/
def prologParam (st : PrologState) (type : CType) : Option (Location × PrologState) := do
  let p ← regPass (if type.byref then charPointerType else type) true
  if ← outOfRegs p st.areg0 st.areg1 8 then
    let addr := alignUp st.addr (max type.passAlign xlen)
    some (⟨.stack addr, type.byref⟩, { st with addr := addr + type.passSize })
  else if p.nregs = 0 then
    some (⟨.nowhere, type.byref⟩, st)
  else
    let r := st.regNumber p.c1
    let st := st.next p.c1
    if p.nregs = 2 then do
      let c2 ← p.c2
      if st.areg c2 ≥ 8 then
        if st.addr % 8 ≠ 0 then none
        else some (⟨.regStack r st.addr, type.byref⟩, { st with addr := st.addr + 8 })
      else
        some (⟨.regPair r (st.regNumber c2), type.byref⟩, st.next c2)
    else
      some (⟨.reg r, type.byref⟩, st)

/-- The loop of `gfunc_prolog`. -/
def prologParams (st : PrologState) (types : List CType) : Option (List Location) :=
  match types with
  | [] => some []
  | type :: types => do
    let (loc, st) ← prologParam st type
    let locs ← prologParams st types
    some (loc :: locs)

/-! ## A call of a function with a prototype -/

/-- A prototyped function type without ellipsis: what is returned (`none` for `void`) and the types
of the parameters, which are not arrays any more. -/
structure FuncType where
  ret : Option CType
  params : List CType
  ret_not_array : ∀ t ∈ ret, t.isArray = false
  params_not_array : ∀ t ∈ params, t.isArray = false

/-- `gfunc_sret`: the number of registers a struct is returned in, `-1` for one of each class, `0`
for memory. -/
def gfuncSret (vt : CType) : Option Int := do
  if vt.size > 16 then some 0
  else
    let p ← regPass vt true
    if p.nregs = 2 then
      if p.c1 ≠ (← p.c2) then some (-1) else some 2
    else some p.nregs

/-- Whether the call passes the address for the returned object as an additional first argument. -/
def callPassesRet (ret : Option CType) : Option Bool :=
  match ret with
  | none => some false
  | some vt => if vt.isStruct then do some (decide ((← gfuncSret vt) = 0)) else some false

/-- The locations the caller uses: the address of the returned object, passed as an `int`, comes
first if there is one. It uses up the first entry of the parameter list. -/
def callLocations (f : FuncType) : Option (List Location) := do
  if ← callPassesRet f.ret then
    gfuncCall (.scalar .int :: f.params) f.params.length
  else
    gfuncCall f.params f.params.length

/-- `type_size(&func_vt)`; `void` has size 1. -/
def retSize (ret : Option CType) : Nat :=
  match ret with
  | none => 1
  | some vt => vt.size

/-- The locations the callee uses: the implicit pointer comes first if the function returns by
reference. -/
def prologLocations (f : FuncType) : Option (List Location) :=
  if retSize f.ret > 2 * xlen then do
    let locs ← prologParams ⟨1, 0, 0⟩ f.params
    some (⟨.reg 0, false⟩ :: locs)
  else
    prologParams ⟨0, 0, 0⟩ f.params

end TccRiscv64.Gen
