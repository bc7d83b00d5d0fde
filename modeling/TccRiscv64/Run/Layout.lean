import TccRiscv64.Data.Placement

set_option autoImplicit false

/-! # The layout of a program that is run in memory

`tcc_relocate_ex` is called twice. Without memory it adds up what the sections take from address
0; `rt_mem` allocates that and a page more, and with that memory the sections get their addresses,
in three groups by their flags. Then the pages of the executable group are made executable. -/

namespace TccRiscv64.Run

open Data

def shfWrite : BitVec 32 := 1
def shfAlloc : BitVec 32 := 2
def shfExecinstr : BitVec 32 := 4

/-- What the layout reads of a section and what it sets. -/
structure Section where
  shFlags : BitVec 32
  dataOffset : BitVec 64
  shAddralign : BitVec 32
  shAddr : BitVec 64
  pow : ∃ k < 32, shAddralign.toNat = 2 ^ k

/-- `PAGESIZE` -/
structure PageSize where
  size : BitVec 32
  pow : ∃ k < 31, size.toNat = 2 ^ k

/-- `CONFIG_RUNMEM_RO` -/
def runmemRo : Nat := 0

/-- `shf`: rx, ro and rw sections. -/
def shf : Nat → BitVec 32
  | 0 => shfAlloc ||| shfExecinstr
  | 1 => shfAlloc
  | _ => shfAlloc ||| shfWrite

def Section.inGroup (k : Nat) (s : Section) : Bool :=
  shf k == s.shFlags &&& (shfAlloc ||| shfWrite ||| shfExecinstr)

/-- `PAGEALIGN` -/
def pageAlign (page : PageSize) (n : BitVec 64) : BitVec 64 :=
  n + (-n &&& (page.size - 1).setWidth 64)

theorem PageSize.pow_lt (page : PageSize) : ∃ k < 32, page.size.toNat = 2 ^ k := by
  obtain ⟨k, hk, hsize⟩ := page.pow
  exact ⟨k, hk.trans (by decide), hsize⟩

/-- The first section of a group starts a page for different permissions. -/
def Section.startPage (page : PageSize) (k n : Nat) (s : Section) : Section :=
  if n = 1 ∧ k ≤ runmemRo then { s with shAddralign := page.size, pow := page.pow_lt } else s

/-- A section gets its place behind `offset`, in the memory at `mem`. -/
def assign (mem : BitVec 64) (offset : BitVec 32) (s : Section) : Section × BitVec 32 :=
  let length := s.dataOffset.setWidth 32
  let offset := offset +
    (-(mem + offset.setWidth 64) &&& (s.shAddralign - 1).setWidth 64).setWidth 32
  ({ s with shAddr := if mem ≠ 0 then mem + offset.setWidth 64 else 0 }, offset + length)

/-- The loop over the sections, for one group; `n` of the group are placed. -/
def placeGroup (page : PageSize) (mem : BitVec 64) (k : Nat) :
    Nat → BitVec 32 → List Section → List Section × BitVec 32
  | _, offset, [] => ([], offset)
  | n, offset, s :: secs =>
    if s.inGroup k then
      let r := assign mem offset (s.startPage page k (n + 1))
      let rest := placeGroup page mem k (n + 1) r.2 secs
      (r.1 :: rest.1, rest.2)
    else
      let rest := placeGroup page mem k n offset secs
      (s :: rest.1, rest.2)

/-- The groups one behind the other, from the start of the memory. -/
def placeSections (page : PageSize) (mem : BitVec 64) (secs : List Section) :
    List Section × BitVec 32 :=
  let rx := placeGroup page mem 0 0 0 secs
  let ro := placeGroup page mem 1 0 rx.2 rx.1
  placeGroup page mem 2 0 ro.2 ro.1

/-- What `tcc_relocate_ex` returns when there is no memory yet; it is an `int`. -/
def measuredSize (page : PageSize) (secs : List Section) : BitVec 32 :=
  (pageAlign page ((placeSections page 0 secs).2.setWidth 64)).setWidth 32

/-- `rt_mem`: what `malloc` is asked for. A negative size is an error, or a number of bytes that
`malloc` does not have. -/
def runSize (page : PageSize) (secs : List Section) : Option Nat :=
  let size := measuredSize page secs
  if size.toInt < 0 ∨ (size + page.size).toInt < 0 then none else some (size + page.size).toNat

/-- The second call: the sections with their addresses in the memory at `mem`. -/
def runSections (page : PageSize) (mem : BitVec 64) (secs : List Section) : List Section :=
  (placeSections page mem (placeSections page 0 secs).1).1

/-- The start and the length of a group, where `addr` is 0 as long as none is found. -/
def groupRange (k : Nat) : BitVec 64 → BitVec 32 → List Section → BitVec 64 × BitVec 32
  | addr, n, [] => (addr, n)
  | addr, n, s :: secs =>
    if s.inGroup k then
      let addr := if addr = 0 then s.shAddr else addr
      let n := (s.shAddr - addr + (s.dataOffset.setWidth 32).setWidth 64).setWidth 32
      groupRange k addr n secs
    else
      groupRange k addr n secs

/-- The pages whose protection is changed for a group, and the mode. -/
def protectGroup (page : PageSize) (secs : List Section) (k : Nat) :
    Option (BitVec 64 × BitVec 32 × Nat) :=
  let r := groupRange k 0 0 secs
  if r.2 = 0 then none
  else if runmemRo ≤ k ∧ k ≠ 0 then none
  else
    some (r.1, (pageAlign page (r.2.setWidth 64)).setWidth 32, if runmemRo ≤ k then 3 else k)

/-- All the pages whose protection is changed. -/
def protectPages (page : PageSize) (secs : List Section) : List (BitVec 64 × BitVec 32 × Nat) :=
  [0, 1, 2].filterMap (protectGroup page secs)

end TccRiscv64.Run
