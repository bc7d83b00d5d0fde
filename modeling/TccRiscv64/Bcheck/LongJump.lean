import TccRiscv64.Bcheck.RegionRuns

set_option autoImplicit false

/-! # Jumps under the bounds checker

The bounds checker puts the local objects of a function into the tree of regions when it is entered,
and takes them out when it is left. Objects of variable size and the buffers of `setjmp` are kept in
lists. A jump takes out the regions that start between two addresses of the stack. -/

namespace TccRiscv64.Bcheck.LongJump

open Data

/-! ## The lists -/

/-- `alloca_list_type` -/
structure AllocaNode where
  fp : BitVec 64
  p : BitVec 64
  size : BitVec 64
  deriving DecidableEq

/-- `jmp_list_type` -/
structure JmpNode where
  penv : BitVec 64
  fp : BitVec 64
  endFp : BitVec 64
  tid : BitVec 64
  deriving DecidableEq

/-- The tree and the lists; new nodes are put in front. -/
structure Lists where
  tree : Tree
  allocaList : List AllocaNode
  jmpList : List JmpNode
  deriving DecidableEq

/-- A table of local objects, each with its offset from the frame pointer and its size. -/
abbrev Table := List (BitVec 64 × BitVec 64)

/-- The offset 0 ends a table. -/
def Table.entries (table : Table) : Table := table.takeWhile fun e => e.1 ≠ 0

/-- `__bound_local_new`, where `fp` is the frame pointer of the caller -/
def localNew (table : Table) (fp : BitVec 64) (st : Lists) : Lists :=
  { st with tree := table.entries.foldl (fun t e => splayInsert (e.1 + fp) e.2 t) st.tree }

/-- `__bound_local_delete` -/
def localDelete (table : Table) (fp : BitVec 64) (st : Lists) : Lists :=
  let tree := table.entries.foldl (fun t e => splayDelete (e.1 + fp) t) st.tree
  let left := st.allocaList.filter fun cur => cur.fp = fp
  { tree := left.foldl (fun t cur => splayDelete cur.p t) tree
    allocaList := st.allocaList.filter fun cur => cur.fp ≠ fp
    jmpList := st.jmpList.filter fun cur => cur.fp ≠ fp }

/-- The memory that an object of the size takes: `(size + align) & -align`. -/
def extent (size : BitVec 64) : BitVec 64 := (size + 16) &&& -16

/-- The node is one of the frame, and its object has memory in common with a new one. -/
def AllocaNode.overlaps (fp p size : BitVec 64) (cur : AllocaNode) : Bool :=
  cur.fp = fp && (cur.p ≤ p && p < cur.p + extent cur.size ||
    p ≤ cur.p && cur.p < p + extent size)

/-- `__bound_new_region` -/
def newRegion (p size fp : BitVec 64) (st : Lists) : Lists :=
  let cur? := st.allocaList.find? (·.overlaps fp p size)
  let tree := match cur? with
    | none => st.tree
    | some cur => splayDelete cur.p st.tree
  { st with
    tree := splayInsert p size tree
    allocaList := ⟨fp, p, size⟩ :: st.allocaList.eraseP (·.overlaps fp p size) }

/-- The first node of a buffer is set, or a new one is put in front. -/
def setJmp (node : JmpNode) : List JmpNode → Option (List JmpNode)
  | [] => none
  | jl :: rest =>
    if jl.penv = node.penv then some (node :: rest) else (setJmp node rest).map (jl :: ·)

/-- `__bound_setjmp`, where `endFp` is its own frame pointer -/
def setjmp (env tid fp endFp : BitVec 64) (st : Lists) : Lists :=
  let node : JmpNode := ⟨env, fp, endFp, tid⟩
  { st with jmpList := (setJmp node st.jmpList).getD (node :: st.jmpList) }

/-! ## `__bound_long_jump` -/

/-- The search for a region that starts between two addresses. -/
def findStart (startFp endFp : BitVec 64) : Tree → Option Region
  | .nil => none
  | .node left x right =>
    if x.start < startFp then findStart startFp endFp right
    else if endFp < x.start then findStart startFp endFp left
    else some x

/-- The loop over the regions, for so many rounds; `none` if it is not done then. -/
def cleanUp (startFp endFp : BitVec 64) : Nat → Tree → List AllocaNode →
    Option (Tree × List AllocaNode)
  | 0, _, _ => none
  | n + 1, t, allocaList =>
    match findStart startFp endFp t with
    | none => some (t, allocaList)
    | some x =>
      cleanUp startFp endFp n (splayDelete x.start t)
        (allocaList.eraseP fun cur => cur.p = x.start)

/-- The node of a buffer. -/
def JmpNode.isFor (env tid : BitVec 64) (jl : JmpNode) : Bool := jl.penv = env && jl.tid = tid

/-- `__bound_long_jump` up to the jump, where `startFp` is its own frame pointer -/
def longJump (env tid startFp : BitVec 64) (n : Nat) (st : Lists) : Option Lists :=
  match st.jmpList.find? (·.isFor env tid) with
  | none => some st
  | some jl =>
    (cleanUp startFp jl.endFp n st.tree st.allocaList).map fun r =>
      { tree := r.1
        allocaList := r.2
        jmpList := (st.jmpList.takeWhile fun cur => !cur.isFor env tid).filter (·.tid ≠ tid) ++
          st.jmpList.dropWhile fun cur => !cur.isFor env tid }

end TccRiscv64.Bcheck.LongJump
