import TccRiscv64.Bcheck.RegionRuns

set_option autoImplicit false

/-! # The heap under the bounds checker

The wrappers of the allocation functions ask the underlying allocator for one byte more and keep the
blocks in the tree of regions. A block that is freed is first kept in a list, so that the underlying
allocator does not give it out again soon. -/

namespace TccRiscv64.Bcheck

open Data

def tccTypeMalloc : BitVec 8 := 1
def tccTypeCalloc : BitVec 8 := 2
def tccTypeRealloc : BitVec 8 := 3
def tccTypeMemalign : BitVec 8 := 4

/-- `FREE_REUSE_SIZE` -/
def freeReuseSize : Nat := 100

/-- The variables of the bounds checker that the wrappers use. -/
structure State where
  tree : Tree
  freeReuseList : List (BitVec 64)
  freeReuseIndex : Nat

/-- A region is inserted, and the root gets a type if it is that region. -/
def insertTyped (ptr size : BitVec 64) (type : BitVec 8) (t : Tree) : Tree :=
  match splayInsert ptr size t with
  | .nil => .nil
  | .node left x right =>
    if x.start = ptr then .node left { x with type } right else .node left x right

/-- What all allocation functions do with a block; `size ? size : size + 1`. -/
def State.register (st : State) (ptr size : BitVec 64) (type : BitVec 8) : State :=
  { st with tree := insertTyped ptr (if size ≠ 0 then size else size + 1) type st.tree }

/-- `__bound_malloc`, where `ptr` is `BOUND_MALLOC (size + 1)` -/
def boundMalloc (size ptr : BitVec 64) (st : State) : State :=
  if ptr ≠ 0 then st.register ptr size tccTypeMalloc else st

/-- `__bound_memalign`, where `ptr` is `BOUND_MEMALIGN (align, size + 1)` -/
def boundMemalign (size ptr : BitVec 64) (st : State) : State :=
  if ptr ≠ 0 then st.register ptr size tccTypeMemalign else st

/-- `__bound_calloc`, where `ptr` is `BOUND_MALLOC (nmemb * size + 1)` -/
def boundCalloc (nmemb size ptr : BitVec 64) (st : State) : State :=
  let size := size * nmemb
  if ptr ≠ 0 then st.register ptr size tccTypeCalloc else st

/-- `__bound_free`, and the pointer that goes to `BOUND_FREE`; the program ends if there is an error
and errors are fatal. -/
def boundFree (neverFatal : Int) (ptr : BitVec 64) (st : State) : Option (State × BitVec 64) :=
  if ptr = 0 ∨ st.tree = .nil then some (st, 0)
  else
    match splay ptr st.tree with
    | .nil => some (st, ptr)
    | .node left x right =>
      if x.start = ptr then
        if x.isInvalid ≠ 0 then
          -- freeing invalid region
          if neverFatal = 0 then none else some ({ st with tree := .node left x right }, 0)
        else
          let tree : Tree := .node left { x with isInvalid := 1 } right
          let p := st.freeReuseList.getD st.freeReuseIndex 0
          some ({ tree := if p ≠ 0 then splayDelete p tree else tree
                  freeReuseList := st.freeReuseList.set st.freeReuseIndex ptr
                  freeReuseIndex := (st.freeReuseIndex + 1) % freeReuseSize }, p)
      else some ({ st with tree := .node left x right }, ptr)

/-- `__bound_realloc` for a size other than 0, where `newPtr` is `BOUND_REALLOC (ptr, size + 1)` -/
def boundRealloc (ptr size newPtr : BitVec 64) (st : State) : State :=
  let st := if ptr ≠ 0 then { st with tree := splayDelete ptr st.tree } else st
  if newPtr ≠ 0 then st.register newPtr size tccTypeRealloc else st

/-! ## The underlying allocator and the program -/

/-- A block of the underlying allocator. -/
structure Block where
  ptr : BitVec 64
  size : Nat

/-- A block that the program holds, with the size that it asked for. -/
structure Held where
  block : Block
  requested : Nat
  type : BitVec 8

/-- The variables of the bounds checker, the blocks that are not really freed, the blocks that the
program holds, and whether the underlying allocator was given a pointer to anything else. -/
structure World where
  st : State
  blocks : List Block
  held : List Held
  misused : Bool

/-- A call of a wrapper, with the answer of the underlying allocator. -/
inductive Call
  | malloc (size : BitVec 64) (answer : Option Block)
  | memalign (align size : BitVec 64) (answer : Option Block)
  | calloc (nmemb size : BitVec 64) (answer : Option Block)
  | realloc (ptr size : BitVec 64) (answer : Option Block)
  | free (ptr : BitVec 64)

def ptrOf (answer : Option Block) : BitVec 64 := (answer.map Block.ptr).getD 0

/-- `BOUND_FREE` -/
def World.reallyFree (w : World) (p : BitVec 64) : World :=
  if p = 0 then w
  else if ∃ b ∈ w.blocks, b.ptr = p then { w with blocks := w.blocks.filter (·.ptr ≠ p) }
  else { w with misused := true }

/-- `BOUND_REALLOC`; the old block stays if there is no new one. -/
def World.reallyRealloc (w : World) (p : BitVec 64) (answer : Option Block) : World :=
  match answer with
  | none => { w with misused := w.misused || decide (p ≠ 0 ∧ ¬ ∃ b ∈ w.blocks, b.ptr = p) }
  | some b => { w.reallyFree p with blocks := (w.reallyFree p).blocks ++ [b] }

/-- The program gets the block of an answer. -/
def World.give (w : World) (st : State) (answer : Option Block) (requested : Nat)
    (type : BitVec 8) : World :=
  { w with
    st, blocks := w.blocks ++ answer.toList
    held := w.held ++ (answer.map fun b => ⟨b, requested, type⟩).toList }

def World.free (neverFatal : Int) (w : World) (ptr : BitVec 64) : Option World :=
  (boundFree neverFatal ptr w.st).map fun (st, p) =>
    { w.reallyFree p with st, held := w.held.filter (·.block.ptr ≠ ptr) }

/-- One call. -/
def World.step (neverFatal : Int) (w : World) : Call → Option World
  | .malloc size answer =>
    some (w.give (boundMalloc size (ptrOf answer) w.st) answer size.toNat tccTypeMalloc)
  | .memalign _ size answer =>
    some (w.give (boundMemalign size (ptrOf answer) w.st) answer size.toNat tccTypeMemalign)
  | .calloc nmemb size answer =>
    some (w.give (boundCalloc nmemb size (ptrOf answer) w.st) answer (nmemb.toNat * size.toNat)
      tccTypeCalloc)
  | .realloc ptr size answer =>
    if size = 0 then w.free neverFatal ptr
    else some { w.reallyRealloc ptr answer with
      st := boundRealloc ptr size (ptrOf answer) w.st
      held := match answer with
        | none => w.held
        | some b => w.held.filter (·.block.ptr ≠ ptr) ++ [⟨b, size.toNat, tccTypeRealloc⟩] }
  | .free ptr => w.free neverFatal ptr

/-! ## What is asked and promised -/

/-- The size that the underlying allocator is asked for, and its answer. -/
def Call.request : Call → Option (BitVec 64 × Option Block)
  | malloc size answer => some (size + 1, answer)
  | memalign _ size answer => some (size + 1, answer)
  | calloc nmemb size answer => some (size * nmemb + 1, answer)
  | realloc _ size answer => if size = 0 then none else some (size + 1, answer)
  | free _ => none

/-- The block that goes away when there is an answer. -/
def Call.old : Call → BitVec 64
  | realloc ptr _ _ => ptr
  | _ => 0

/-- A block and a range of addresses have no address in common. -/
def Block.Apart (b : Block) (start size : Nat) : Prop :=
  b.ptr.toNat + b.size ≤ start ∨ start + size ≤ b.ptr.toNat

/-- The underlying allocator gives out a block of memory, at least as large as it is asked to, that
nothing else is in. -/
structure GivesOut (other : List Region) (blocks : List Block) (asked : BitVec 64) (b : Block) :
    Prop where
  notNull : b.ptr ≠ 0
  asked : asked.toNat ≤ b.size
  bounded : b.ptr.toNat + b.size < 2 ^ 64
  blocks : ∀ b' ∈ blocks, b.Apart b'.ptr.toNat b'.size
  other : ∀ r ∈ other, b.Apart r.start.toNat r.size.toNat

/-- The answer to a call is no block, or one that is given out. -/
def Promised (other : List Region) (w : World) (call : Call) : Prop :=
  ∀ asked b, call.request = some (asked, some b) →
    GivesOut other (w.blocks.filter (·.ptr ≠ call.old)) asked b

/-- A block, as long as it is held. -/
def Held.region (h : Held) : Region :=
  ⟨h.block.ptr, BitVec.ofNat 64 (if h.requested = 0 then 1 else h.requested), h.type, 0⟩

/-- The regions of the heap are the blocks that the program holds, and those that are freed but not
really freed. -/
structure HeapOk (other : List Region) (w : World) : Prop where
  valid : ∀ r, (r ∈ w.st.tree.inorder ∧ r ∉ other ∧ r.isInvalid = 0) ↔ ∃ h ∈ w.held, r = h.region
  size : ∀ h ∈ w.held, h.region.size.toNat = (if h.requested = 0 then 1 else h.requested) ∧
    h.region.size.toNat ≤ h.block.size
  allocated : ∀ h ∈ w.held, h.block ∈ w.blocks
  freed : ∀ b ∈ w.blocks, (∀ h ∈ w.held, h.block.ptr ≠ b.ptr) →
    ∃ r ∈ w.st.tree.inorder, r.start = b.ptr ∧ r.isInvalid ≠ 0
  handed : w.misused = false

/-- The worlds that calls lead to, when each of them meets a condition. -/
inductive Reaches (cond : World → Call → Prop) (neverFatal : Int) (start : World) : World → Prop
  | start : Reaches cond neverFatal start start
  | step {w w' : World} (call : Call) : Reaches cond neverFatal start w → cond w call →
    w.step neverFatal call = some w' → Reaches cond neverFatal start w'

/-- Where a program starts: there are no blocks, and the other regions are registered. -/
structure Starts (other : List Region) (w : World) : Prop where
  represents : Represents w.st.tree other
  list : w.st.freeReuseList = List.replicate freeReuseSize 0
  index : w.st.freeReuseIndex < freeReuseSize
  blocks : w.blocks = []
  held : w.held = []
  misused : w.misused = false

/-- A pointer that the program may free: a block that it holds, or again one that is not really
freed. -/
def MayFree (w : World) (ptr : BitVec 64) : Prop :=
  ptr = 0 ∨ (∃ h ∈ w.held, h.block.ptr = ptr) ∨ ptr ∈ w.st.freeReuseList

/-- Sizes do not wrap around where there is a block, a block that is reallocated gets a new one, and
the program passes pointers to its own blocks. -/
def Call.Fits (w : World) : Call → Prop
  | malloc size answer | memalign _ size answer => answer = none ∨ size.toNat + 1 < 2 ^ 64
  | calloc nmemb size answer => answer = none ∨ nmemb.toNat * size.toNat + 1 < 2 ^ 64
  | realloc ptr size answer =>
    if size = 0 then MayFree w ptr
    else (ptr = 0 ∨ ∃ h ∈ w.held, h.block.ptr = ptr) ∧
      (answer = none ∧ ptr = 0 ∨ answer ≠ none ∧ size.toNat + 1 < 2 ^ 64)
  | free ptr => MayFree w ptr

end TccRiscv64.Bcheck
