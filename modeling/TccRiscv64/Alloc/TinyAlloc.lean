import TccRiscv64.Isa.Memory

set_option autoImplicit false

/-! # The allocator for tiny objects

Blocks are cut off the free end of a pool, each after a header that holds its size. Pools form a
chain in which a new one, twice as large, comes first; large blocks are left to `malloc`. What
`malloc` answers is not known: every call is given the addresses that it returns in turn, and there
is no call where one of them could not be an answer. -/

namespace TccRiscv64.Alloc

open TccRiscv64.Isa

/-- The kinds of pools that have a size and a limit. -/
inductive Kind
  | toksym | tokstr | cstr
  deriving DecidableEq, Repr

namespace Kind

/-- `TOKSYM_TAL_LIMIT`, `TOKSTR_TAL_LIMIT`, `CSTR_TAL_LIMIT`. -/
def limit : Kind → Nat
  | toksym => 256
  | tokstr => 128
  | cstr => 1024

/-- `TOKSYM_TAL_SIZE`, `TOKSTR_TAL_SIZE`, `CSTR_TAL_SIZE`. -/
def size : Kind → Nat
  | toksym | tokstr => 768 * 1024
  | cstr => 256 * 1024

end Kind

/-- A pool. Of the links only `next` is kept, as the order of a list: `top` is read in the last pool
only, and there it is the first one, or null where that is the same. -/
structure TinyAlloc where
  limit : Nat
  size : Nat
  buffer : Nat
  p : Nat
  nbAllocs : Nat
  deriving DecidableEq, Repr

/-- A block that has been given out: where it is, the size asked for, and whether it is in a pool. -/
structure Block where
  addr : Nat
  size : Nat
  pooled : Bool
  deriving DecidableEq, Repr

/-- Memory, the chain of pools from `*pal` on, and the blocks that are live. -/
structure State where
  mem : Memory
  pools : List TinyAlloc
  live : List Block

/-- `adj_size = (size + 3) & -4`. -/
def adjSize (size : Nat) : Nat := (size + 3) % 2 ^ 32 / 4 * 4

/-- `memcpy`. -/
def memcpy (m : Memory) (dst src n : Nat) : Memory :=
  fun a => if dst ≤ a ∧ a < dst + n then m (src + (a - dst)) else m a

namespace TinyAlloc

/-- `is_own`. -/
def Owns (al : TinyAlloc) (p : Nat) : Prop := al.buffer ≤ p ∧ p < al.buffer + al.size

instance (al : TinyAlloc) (p : Nat) : Decidable (al.Owns p) := inferInstanceAs (Decidable (_ ∧ _))

/-- `al->p - al->buffer + adj_size + sizeof(tal_header_t) < al->size`. -/
def HasRoom (al : TinyAlloc) (size : Nat) : Prop := al.p - al.buffer + adjSize size + 4 < al.size

instance (al : TinyAlloc) (size : Nat) : Decidable (al.HasRoom size) :=
  inferInstanceAs (Decidable (_ < _))

/-- The pool after a block has been cut off. -/
def bump (al : TinyAlloc) (size : Nat) : TinyAlloc := { al with p := al.p + (adjSize size + 4) }

/-- `al->nb_allocs++`. -/
def count (al : TinyAlloc) : TinyAlloc := { al with nbAllocs := al.nbAllocs + 1 }

/-- `al->nb_allocs--`. -/
def uncount (al : TinyAlloc) : TinyAlloc := { al with nbAllocs := al.nbAllocs - 1 }

end TinyAlloc

/-- `tal_new`, with its buffer at `a`. -/
def talNew (a limit size : Nat) : TinyAlloc := ⟨limit, size, a, a, 0⟩

/-! ## The walk along the chain -/

/-- Where the walk of `tal_realloc_impl` ends: at a pool, given with those before and after it, or
after the last one. -/
inductive Walk
  /-- the block is cut off this pool -/
  | here (pre : List TinyAlloc) (al : TinyAlloc) (post : List TinyAlloc)
  /-- the block is in this pool, which has no room left -/
  | moveOut (pre : List TinyAlloc) (al : TinyAlloc) (post : List TinyAlloc)
  /-- the block is in this pool, and gets too large for one -/
  | moveToMalloc (pre : List TinyAlloc) (al : TinyAlloc) (post : List TinyAlloc)
  /-- no pool has room -/
  | newPool
  /-- the block is in no pool, and none is meant for it -/
  | tccRealloc
  deriving DecidableEq, Repr

/-- The walk, after the pools of `pre`. -/
def walk (p size : Nat) (pre : List TinyAlloc) : List TinyAlloc → Walk
  | [] => .tccRealloc
  | al :: post =>
    if (p = 0 ∨ al.Owns p) ∧ size ≤ al.limit then
      if al.HasRoom size then .here pre al post
      else if al.Owns p then .moveOut pre al post
      else if post = [] then .newPool
      else walk p size (pre ++ [al]) post
    else if al.Owns p then .moveToMalloc pre al post
    else if post = [] then .tccRealloc
    else walk p size (pre ++ [al]) post

/-! ## Allocation -/

/-- Whether `malloc` can answer a request of `n` bytes with `a`: the bytes there belong to no pool
and to no other block of its own. -/
def Fresh (pools : List TinyAlloc) (live : List Block) (a n : Nat) : Prop :=
  0 < a ∧ (∀ al ∈ pools, a + n ≤ al.buffer ∨ al.buffer + al.size ≤ a) ∧
    ∀ b ∈ live, b.pooled = true ∨ a + n ≤ b.addr ∨ b.addr + b.size ≤ a

instance (pools : List TinyAlloc) (live : List Block) (a n : Nat) :
    Decidable (Fresh pools live a n) :=
  inferInstanceAs (Decidable (_ ∧ _ ∧ _))

/-- `header->size = adj_size` for the block that is cut off next. -/
def writeHeader (m : Memory) (al : TinyAlloc) (size : Nat) : Memory :=
  m.store al.p 4 (BitVec.ofNat 32 (adjSize size))

/-- `header->size` of the block at `p`. -/
def headerSize (m : Memory) (p : Nat) : Nat := (m.load (p - 4) 4).toNat

/-- `tal_realloc_impl(pal, 0, size)`. Where the sizes of the pools have wrapped around to 0, there is
never room, and no list of addresses is long enough. -/
def talMalloc (live : List Block) (size : Nat) :
    List Nat → Memory → List TinyAlloc → Option (Memory × List TinyAlloc × Block)
  | addrs, mem, pools =>
    match walk 0 size [] pools with
    | .here pre al post =>
      some (writeHeader mem al size, pre ++ (al.bump size).count :: post, ⟨al.p + 4, size, true⟩)
    | .newPool =>
      match addrs with
      | [] => none
      | a :: addrs =>
        match pools with
        | [] => none
        | next :: rest =>
          if Fresh (next :: rest) live a (next.size * 2 % 2 ^ 32) then
            talMalloc live size addrs mem
              (talNew a next.limit (next.size * 2 % 2 ^ 32) :: next :: rest)
          else none
    | .tccRealloc =>
      match addrs with
      | [] => none
      | a :: _ => if Fresh pools live a size then some (mem, pools, ⟨a, size, false⟩) else none
    | .moveOut _ _ _ | .moveToMalloc _ _ _ => none

/-- The size by which `realloc` knows a block of its own. -/
def sizeOf (live : List Block) (p : Nat) : Nat :=
  match live.find? (·.addr = p) with
  | some b => b.size
  | none => 0

/-- `tal_realloc_impl`: the state after the call, and what it returns. -/
def talRealloc (s : State) (p size : Nat) (addrs : List Nat) : Option (State × Nat) :=
  if p = 0 then
    match talMalloc s.live size addrs s.mem s.pools with
    | none => none
    | some (mem, pools, b) => some (⟨mem, pools, b :: s.live⟩, b.addr)
  else
    let others := s.live.eraseP (·.addr = p)
    match walk p size [] s.pools with
    | .here pre al post =>
      let mem := writeHeader s.mem al size
      let ret := al.p + 4
      some (⟨memcpy mem ret p (headerSize mem p), pre ++ al.bump size :: post,
        ⟨ret, size, true⟩ :: others⟩, ret)
    | .moveOut pre al post =>
      match talMalloc s.live size addrs s.mem (pre ++ al.uncount :: post) with
      | none => none
      | some (mem, pools, b) =>
        some (⟨memcpy mem b.addr p (headerSize mem p), pools, b :: others⟩, b.addr)
    | .moveToMalloc pre al post =>
      match addrs with
      | [] => none
      | a :: _ =>
        if Fresh s.pools s.live a size then
          some (⟨memcpy s.mem a p (headerSize s.mem p), pre ++ al.uncount :: post,
            ⟨a, size, false⟩ :: others⟩, a)
        else none
    | .tccRealloc =>
      if size = 0 then some (⟨s.mem, s.pools, others⟩, 0)
      else
        match addrs with
        | [] => none
        | a :: _ =>
          if Fresh s.pools others a size then
            some (⟨memcpy s.mem a p (min (sizeOf s.live p) size), s.pools,
              ⟨a, size, false⟩ :: others⟩, a)
          else none
    | .newPool => none

/-! ## Release -/

/-- The walk of `tal_free_impl`. -/
def freeWalk (p : Nat) : List TinyAlloc → List TinyAlloc
  | [] => []
  | al :: rest =>
    if al.Owns p then
      (if al.uncount.nbAllocs = 0 then { al.uncount with p := al.buffer } else al.uncount) :: rest
    else al :: freeWalk p rest

/-- `tal_free_impl`. -/
def talFree (s : State) (p : Nat) : State :=
  if p = 0 then s else ⟨s.mem, freeWalk p s.pools, s.live.eraseP (·.addr = p)⟩

/-! ## Runs -/

/-- What a client of the allocator does: it calls it, or writes to a block. -/
inductive Call
  | realloc (p size : Nat)
  | free (p : Nat)
  | write (a : Nat) (v : BitVec 8)

/-- A client passes live blocks, and writes to them only. -/
def Call.Valid (s : State) : Call → Prop
  | realloc p size => (p = 0 ∨ ∃ b ∈ s.live, b.addr = p) ∧ size < 2 ^ 32
  | free p => p = 0 ∨ ∃ b ∈ s.live, b.addr = p
  | write a _ => ∃ b ∈ s.live, b.addr ≤ a ∧ a < b.addr + b.size

/-- The state after a call, and what it returns. -/
def exec (s : State) (addrs : List Nat) : Call → Option (State × Nat)
  | .realloc p size => talRealloc s p size addrs
  | .free p => some (talFree s p, 0)
  | .write a v => some ({ s with mem := Function.update s.mem a v }, 0)

/-- The states that runs reach whose calls all are such as `ok` says. -/
inductive Reachable (ok : State → Call → Prop) (kind : Kind) : State → Prop
  | init (mem : Memory) {a : Nat} (ha : 0 < a) :
      Reachable ok kind ⟨mem, [talNew a kind.limit kind.size], []⟩
  | step {s s' : State} {c : Call} {addrs : List Nat} {ret : Nat} (hs : Reachable ok kind s)
      (hv : c.Valid s) (hok : ok s c) (hc : exec s addrs c = some (s', ret)) :
      Reachable ok kind s'

/-- The pool that a block of a pool is moved to, where that is one of the chain. -/
def movesTo (pools : List TinyAlloc) (p size : Nat) : Option TinyAlloc :=
  match walk p size [] pools with
  | .here _ al _ => some al
  | .moveOut pre al post =>
    match walk 0 size [] (pre ++ al.uncount :: post) with
    | .here _ al _ => some al
    | _ => none
  | _ => none

/-- The block that is moved reaches past the end of the pool with its old size. -/
def Overruns (s : State) : Call → Prop
  | .realloc p size =>
    ∃ al, p ≠ 0 ∧ movesTo s.pools p size = some al ∧
      al.buffer + al.size < al.p + 4 + headerSize s.mem p
  | _ => False

/-! ## What is promised -/

/-- Live blocks do not overlap, those in a pool are inside it, and it counts them. -/
structure State.Safe (s : State) : Prop where
  apart : s.live.Pairwise fun b c => b.addr + b.size ≤ c.addr ∨ c.addr + c.size ≤ b.addr
  inside : ∀ b ∈ s.live, ∀ al ∈ s.pools, al.Owns b.addr → b.addr + b.size ≤ al.buffer + al.size
  counted : ∀ al ∈ s.pools, al.nbAllocs = s.live.countP fun b => al.Owns b.addr

/-- A block that is reallocated keeps its bytes, up to the smaller size; and every pool stays, with
its free end moved back only where it has no block left. -/
structure StepSafe (s : State) (c : Call) (s' : State) (ret : Nat) : Prop where
  keeps : ∀ p size, c = .realloc p size → ∀ b ∈ s.live, b.addr = p →
    ∀ j < min b.size size, s'.mem (ret + j) = s.mem (p + j)
  reset : ∀ al ∈ s.pools, ∃ al' ∈ s'.pools, al'.buffer = al.buffer ∧ al'.size = al.size ∧
    (al.p ≤ al'.p ∨ al'.p = al.buffer ∧ s'.live.countP (fun b => al'.Owns b.addr) = 0)

end TccRiscv64.Alloc
