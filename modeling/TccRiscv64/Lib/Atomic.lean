import TccRiscv64.Data.Simulation
import Mathlib.Data.BitVec
import Mathlib.Tactic.Common

set_option autoImplicit false

/-! # Atomic operations

The functions of `lib/stdatomic.c`, over the compare-and-exchange functions for RISC-V of
`lib/atomic.S`. A step of a thread is one access to the memory with the computations behind it, up
to the next access. Threads take turns in any order; a store conditional may fail whenever it likes,
and has to if another thread stored to bytes reserved by its load. -/

namespace TccRiscv64.Lib.Atomic

/-! ## Places -/

/-- `SIZE` in `ATOMIC_GEN`. -/
inductive Width
  | one | two | four | eight
  deriving DecidableEq, Repr

def Width.bytes : Width → Nat
  | one => 1
  | two => 2
  | four => 4
  | eight => 8

def Width.bits (w : Width) : Nat := 8 * w.bytes

/-- An aligned object in the aligned double word with number `dword`. -/
structure Place where
  dword : Nat
  ofs : Nat
  width : Width
  inside : ofs < 8
  aligned : width.bytes ∣ ofs
  deriving DecidableEq

namespace Place

variable (p : Place)

abbrev bits : Nat := p.width.bits

/-- `slli a0,a0,0x3` -/
def shift : Nat := 8 * p.ofs

/-- `li a3,255; sll a3,a3,a0` -/
def mask : BitVec 64 := (BitVec.allOnes p.bits).setWidth 64 <<< p.shift

/-- The value of the object. -/
def lane (d : BitVec 64) : BitVec p.bits := d.extractLsb' p.shift p.bits

/-- `not a4,a3; and a4,a4,a5; or a4,a4,a2`: the double word with another value of the object. -/
def setLane (d : BitVec 64) (v : BitVec p.bits) : BitVec 64 :=
  ~~~p.mask &&& d ||| v.setWidth 64 <<< p.shift

end Place

/-! ## Calls -/

/-- The functions that `ATOMIC_GEN_OP` makes. -/
inductive GenOp
  | exchange | addFetch | subFetch | andFetch | orFetch | xorFetch | nandFetch
  | fetchAdd | fetchSub | fetchAnd | fetchOr | fetchXor | fetchNand
  deriving DecidableEq, Repr

/-- `OP` -/
def GenOp.op {n : Nat} (cmp value : BitVec n) : GenOp → BitVec n
  | exchange => value
  | addFetch | fetchAdd => cmp + value
  | subFetch | fetchSub => cmp - value
  | andFetch | fetchAnd => cmp &&& value
  | orFetch | fetchOr => cmp ||| value
  | xorFetch | fetchXor => cmp ^^^ value
  | nandFetch | fetchNand => ~~~(cmp &&& value)

/-- `RET` -/
def GenOp.ret {n : Nat} (cmp xchg : BitVec n) : GenOp → BitVec n
  | addFetch | subFetch | andFetch | orFetch | xorFetch | nandFetch => xchg
  | exchange | fetchAdd | fetchSub | fetchAnd | fetchOr | fetchXor | fetchNand => cmp

/-- What a function returns; `differs` is a compare-and-exchange that stored the value it saw to
`*ref` and returned 0. -/
inductive Result (n : Nat)
  | done
  | value (v : BitVec n)
  | exchanged
  | differs (seen : BitVec n)
  deriving DecidableEq, Repr

/-- A call around a compare-and-exchange. -/
inductive Cas (n : Nat)
  | genOp (op : GenOp) (value : BitVec n)
  | compareExchange (expected desired : BitVec n)
  deriving DecidableEq, Repr

namespace Cas

variable {n : Nat}

/-- The value to store. -/
def xchg (cmp : BitVec n) : Cas n → BitVec n
  | genOp op value => op.op cmp value
  | compareExchange _ desired => desired

/-- What is returned once the exchange was made. -/
def success (cmp : BitVec n) : Cas n → Result n
  | genOp op value => .value (op.ret cmp (op.op cmp value))
  | compareExchange _ _ => .exchanged

end Cas

inductive Call (n : Nat)
  | load
  | store (value : BitVec n)
  | cas (c : Cas n)
  deriving DecidableEq, Repr

/-! ## Threads -/

/-- Where a thread is: before which access to the memory. -/
inductive Pc
  | idle
  /-- the load of `__atomic_load` -/
  | load (p : Place)
  /-- the store of `__atomic_store` -/
  | store (p : Place) (value : BitVec p.bits)
  /-- the `__atomic_load` of `ATOMIC_GEN_OP` -/
  | first (p : Place) (op : GenOp) (value : BitVec p.bits)
  /-- `ld a5,0(a7)` of `__atomic_compare_exchange_1` and `_2` -/
  | read (p : Place) (c : Cas p.bits) (cmp : BitVec p.bits)
  /-- `lr.d` at `.L2`, with `a5` -/
  | lr (p : Place) (c : Cas p.bits) (cmp : BitVec p.bits) (a5 : BitVec 64)
  /-- `sc.d` behind it -/
  | sc (p : Place) (c : Cas p.bits) (cmp : BitVec p.bits) (a5 : BitVec 64)
  /-- `lr.w` and `lr.d` of `__atomic_compare_exchange_4` and `_8` -/
  | lrWord (p : Place) (c : Cas p.bits) (cmp : BitVec p.bits)
  | scWord (p : Place) (c : Cas p.bits) (cmp : BitVec p.bits)
  /-- the return -/
  | ret (p : Place) (r : Result p.bits)

namespace Pc

/-- The start of a compare-and-exchange. -/
def enter (p : Place) (c : Cas p.bits) (cmp : BitVec p.bits) : Pc :=
  match p.width with
  | .one | .two => .read p c cmp
  | .four | .eight => .lrWord p c cmp

/-- Behind a compare-and-exchange that returned 0: the loop of `ATOMIC_GEN_OP` goes on with the
value that was seen. -/
def failed (p : Place) (seen : BitVec p.bits) (c : Cas p.bits) : Pc :=
  match c with
  | .genOp op value => enter p (.genOp op value) seen
  | .compareExchange _ _ => .ret p (.differs seen)

/-- `.L1`, and `.L4` -/
def check (p : Place) (c : Cas p.bits) (cmp : BitVec p.bits) (a5 : BitVec 64) : Pc :=
  if p.mask &&& a5 ≠ cmp.setWidth 64 <<< p.shift then
    failed p ((a5 >>> p.shift).setWidth p.bits) c
  else .lr p c cmp a5

/-- Where a call starts. -/
def start (p : Place) (call : Call p.bits) : Pc :=
  match call with
  | .load => .load p
  | .store value => .store p value
  | .cas (.genOp op value) => .first p op value
  | .cas (.compareExchange expected desired) =>
    enter p (.compareExchange expected desired) expected

/-- What an access does: where the thread is then, what it stored to the double word, and whether it
holds a reservation. -/
structure Effect where
  pc : Pc
  write : Option (BitVec 64)
  reserves : Bool

/-- The access of a thread to a double word with the value `d`; `scOk` tells whether a store
conditional succeeds. -/
def access (d : BitVec 64) (scOk : Bool) : Pc → Option Effect
  | .idle | .ret _ _ => none
  | .load p => some ⟨.ret p (.value (p.lane d)), none, false⟩
  | .store p value => some ⟨.ret p .done, some (p.setLane d value), false⟩
  | .first p op value => some ⟨enter p (.genOp op value) (p.lane d), none, false⟩
  | .read p c cmp => some ⟨check p c cmp d, none, false⟩
  | .lr p c cmp a5 =>
    if d ≠ a5 then some ⟨check p c cmp d, none, false⟩ else some ⟨.sc p c cmp a5, none, true⟩
  | .sc p c cmp a5 =>
    if scOk then some ⟨.ret p (c.success cmp), some (p.setLane a5 (c.xchg cmp)), false⟩
    else some ⟨.lr p c cmp a5, none, false⟩
  | .lrWord p c cmp =>
    if p.lane d ≠ cmp then some ⟨failed p (p.lane d) c, none, false⟩
    else some ⟨.scWord p c cmp, none, true⟩
  | .scWord p c cmp =>
    if scOk then some ⟨.ret p (c.success cmp), some (p.setLane d (c.xchg cmp)), false⟩
    else some ⟨.lrWord p c cmp, none, false⟩

/-- The object of the call. -/
def place? : Pc → Option Place
  | .idle => none
  | .load p | .store p _ | .first p _ _ | .read p _ _ | .lr p _ _ _ | .sc p _ _ _ | .lrWord p _ _
  | .scWord p _ _ | .ret p _ => some p

/-- Is a store conditional the next access? -/
def isSc : Pc → Bool
  | .sc .. | .scWord .. => true
  | _ => false

/-- The bytes of the double word that are reserved or stored to: `sc.d` stores all of them. -/
def span : Pc → Nat × Nat
  | .sc _ _ _ _ => (0, 8)
  | .scWord p _ _ | .store p _ => (p.ofs, p.width.bytes)
  | _ => (0, 0)

/-- Both access a byte of the same double word. -/
def overlaps (pc pc' : Pc) : Bool :=
  pc.place?.map Place.dword = pc'.place?.map Place.dword ∧
    pc.span.1 < pc'.span.1 + pc'.span.2 ∧ pc'.span.1 < pc.span.1 + pc.span.2

end Pc

/-! ## The system -/

/-- The shared memory by double words, and the threads. -/
structure State (T : Type) where
  mem : Nat → BitVec 64
  pc : T → Pc
  reserved : T → Bool

/-- What can be seen of a run: the calls and their results. -/
inductive Event (T : Type)
  | invoke (t : T) (p : Place) (call : Call p.bits)
  | ret (t : T) (p : Place) (r : Result p.bits)

section System

variable {T : Type} [DecidableEq T]

inductive Action (T : Type)
  | invoke (t : T) (p : Place) (call : Call p.bits)
  | run (t : T) (scOk : Bool)
  | ret (t : T)

/-- The state after an access of thread `t` to the double word `dword`. -/
def State.apply (s : State T) (t : T) (dword : Nat) (e : Pc.Effect) : State T where
  mem := (e.write.map fun d => Function.update s.mem dword d).getD s.mem
  pc := Function.update s.pc t e.pc
  reserved u :=
    if u = t then e.reserves
    else s.reserved u && !(e.write.isSome && (s.pc t).overlaps (s.pc u))

/-- One step of the system. -/
def State.step (s : State T) : Action T → Option (Option (Event T) × State T)
  | .invoke t p call =>
    match s.pc t with
    | .idle =>
      some (some (.invoke t p call), { s with pc := Function.update s.pc t (.start p call) })
    | _ => none
  | .run t scOk =>
    match (s.pc t).place? with
    | none => none
    | some p =>
      -- a store conditional succeeds with a reservation only
      if (s.pc t).isSc && scOk && !s.reserved t then none
      else
        ((s.pc t).access (s.mem p.dword) scOk).map fun e => (none, s.apply t p.dword e)
  | .ret t =>
    match s.pc t with
    | .ret p r => some (some (.ret t p r), { s with pc := Function.update s.pc t .idle })
    | _ => none

/-- Steps one after the other, with their events. -/
def State.steps (s : State T) : List (Action T) → Option (List (Event T) × State T)
  | [] => some ([], s)
  | a :: as => do
    let (e, s') ← s.step a
    let (tr, s'') ← s'.steps as
    some (e.toList ++ tr, s'')

/-- All runs from a memory, with all threads idle. -/
def machine (T : Type) [DecidableEq T] (mem : Nat → BitVec 64) :
    Data.System (State T) (Event T) where
  init s := s.mem = mem ∧ (∀ t, s.pc t = .idle) ∧ ∀ t, s.reserved t = false
  step s e s' := ∃ a, s.step a = some (e, s')

end System

/-! ## What the functions are for -/

/-- A call with its object, as one indivisible step sees it. -/
inductive Status
  | idle
  | called (p : Place) (call : Call p.bits)
  | done (p : Place) (r : Result p.bits)

/-- The new value of the object and the result. -/
def Call.perform {n : Nat} (v : BitVec n) : Call n → BitVec n × Result n
  | .load => (v, .value v)
  | .store value => (value, .done)
  | .cas (.genOp op value) => (op.op v value, .value (op.ret v (op.op v value)))
  | .cas (.compareExchange expected desired) =>
    if v = expected then (desired, .exchanged) else (v, .differs v)

structure SpecState (T : Type) where
  mem : Nat → BitVec 64
  status : T → Status

section Spec

variable {T : Type} [DecidableEq T]

/-- A call takes effect at one moment between its start and its return. -/
inductive SpecStep : SpecState T → Option (Event T) → SpecState T → Prop
  | invoke {s : SpecState T} {t : T} (p : Place) (call : Call p.bits) (h : s.status t = .idle) :
    SpecStep s (some (.invoke t p call))
      { s with status := Function.update s.status t (.called p call) }
  | commit {s : SpecState T} {t : T} {p : Place} {call : Call p.bits}
    (h : s.status t = .called p call) :
    SpecStep s none
      { mem := Function.update s.mem p.dword
          (p.setLane (s.mem p.dword) (call.perform (p.lane (s.mem p.dword))).1)
        status :=
          Function.update s.status t (.done p (call.perform (p.lane (s.mem p.dword))).2) }
  | ret {s : SpecState T} {t : T} {p : Place} {r : Result p.bits} (h : s.status t = .done p r) :
    SpecStep s (some (.ret t p r)) { s with status := Function.update s.status t .idle }

def spec (T : Type) [DecidableEq T] (mem : Nat → BitVec 64) :
    Data.System (SpecState T) (Event T) where
  init s := s.mem = mem ∧ ∀ t, s.status t = .idle
  step := SpecStep

end Spec

end TccRiscv64.Lib.Atomic
