import Mathlib

set_option autoImplicit false

/-! # The layout of an executable or a shared library

`sort_sections` orders the sections by a class and finds the program headers that they need;
`layout_sections` then goes through them once, with the address and the file offset. The layout is
the one of an ELF file with the default section alignment and text address. -/

namespace TccRiscv64.Elf.File

def shfWrite : BitVec 32 := 0x1
def shfAlloc : BitVec 32 := 0x2
def shfExecinstr : BitVec 32 := 0x4
def shfTls : BitVec 32 := 0x400

def shtSymtab : BitVec 32 := 2
def shtStrtab : BitVec 32 := 3
def shtRelx : BitVec 32 := 4
def shtHash : BitVec 32 := 5
def shtDynamic : BitVec 32 := 6
def shtNote : BitVec 32 := 7
def shtNobits : BitVec 32 := 8
def shtDynsym : BitVec 32 := 11
def shtInitArray : BitVec 32 := 14
def shtFiniArray : BitVec 32 := 15
def shtPreinitArray : BitVec 32 := 16
def shtGnuHash : BitVec 32 := 0x6ffffff6

/-- `ELF_PAGE_SIZE`, which is the section alignment. -/
def pageSize : Int := 0x1000

/-- `ELF_START_ADDR` -/
def startAddr : Int := 0x10000

/-- What the layout reads of a section; the alignment is a power of two. -/
structure Section where
  name : String
  shName : BitVec 32
  shType : BitVec 32
  shFlags : BitVec 32
  shSize : Nat
  shAddralign : Nat
  pow : ∃ k < 31, shAddralign = 2 ^ k

/-- The sections that are known by a pointer, as their indices. -/
structure Special where
  pltReloc : Option Nat
  bounds : Option Nat
  lbounds : Option Nat
  rodata : Option Nat
  got : Option Nat
  interp : Option Nat

/-- What `layout_sections` is called with besides the sections. -/
structure Config where
  special : Special
  outputDyn : Bool
  note : Option Nat
  dynamic : Option Nat
  roinf : Bool

/-! ## `sort_sections` -/

/-- What is loaded comes first, read-only before writable before thread-local. -/
def classGroup (s : Section) : Nat :=
  if s.shFlags &&& shfAlloc ≠ 0 then
    (if s.shFlags &&& shfWrite ≠ 0 then 0x200 else 0x100) +
      (if s.shFlags &&& shfTls ≠ 0 then 0x200 else 0)
  else if s.shName ≠ 0 then 0x700
  else 0x900

/-- The order inside a group, by the type of section `i`; `last` is the last index. -/
def classKind (special : Special) (last i : Nat) (s : Section) : Nat :=
  if s.shType = shtSymtab ∨ s.shType = shtDynsym then 0x10
  else if s.shType = shtStrtab ∧ s.name ≠ ".stabstr" then
    -- `.shstrtab` is assumed to remain the last one.
    if i = last then 0xff else 0x11
  else if s.shType = shtHash ∨ s.shType = shtGnuHash then 0x12
  else if s.shType = shtRelx then
    if special.pltReloc = some i then 0x21 else 0x20
  else if s.shType = shtPreinitArray then 0x41
  else if s.shType = shtInitArray then 0x42
  else if s.shType = shtFiniArray then 0x43
  else if special.bounds = some i ∨ special.lbounds = some i then 0x44
  else if special.rodata = some i ∨ s.name = ".data.rel.ro" then 0x45
  else if s.shType = shtDynamic then 0x46
  else if special.got = some i then 0x47
  else if special.interp = some i then 0x00
  else if s.shType = shtNobits then 0x80
  else if s.shFlags &&& shfExecinstr ≠ 0 then 0x70
  else if s.shType = shtNote then 0x60
  else 0x50

def sectionClass (special : Special) (last i : Nat) (s : Section) : Nat :=
  classKind special last i s + classGroup s

/-- A section with its index and its class. -/
structure Classed where
  index : Nat
  sec : Section
  cls : Nat

/-- The insertion goes down as long as the class is smaller. -/
def insertClass (new : Classed) (order : List Classed) : List Classed :=
  order.rdropWhile (fun c => new.cls < c.cls) ++
    new :: order.rtakeWhile fun c => new.cls < c.cls

/-- The sections, from index 1 on, ordered by their classes. -/
def sortClasses (special : Special) (secs : List Section) : List Classed :=
  (secs.zipIdx 1).foldl (fun order p =>
    insertClass ⟨p.2, p.1, sectionClass special secs.length p.2 p.1⟩ order) []

/-- `1 << 8`: a new program header; `1 << 4`: a section for `PT_GNU_RELRO`. -/
def newHeader : BitVec 32 := 0x100
def relroFlag : BitVec 32 := 0x10

/-- A section with its index and the flags of its segment. -/
structure Slot where
  index : Nat
  sec : Section
  f : BitVec 32

/-- The flags of the segment of a section, 0 for one that is not loaded. -/
def segmentFlags (c : Classed) : BitVec 32 :=
  if c.cls < 0x700 then
    let f := c.sec.shFlags &&& (shfAlloc ||| shfWrite ||| shfExecinstr ||| shfTls)
    if c.cls &&& 0xfff0 = 0x240 then f ||| relroFlag else f
  else 0

/-- A new header is needed where the flags change; `f0` are those before. -/
def markHeaders : BitVec 32 → List Classed → List Slot
  | _, [] => []
  | f0, c :: rest =>
    let f := segmentFlags c
    if c.cls < 0x700 ∧ f ≠ f0 then ⟨c.index, c.sec, f ||| newHeader⟩ :: markHeaders f rest
    else ⟨c.index, c.sec, f⟩ :: markHeaders f0 rest

def sortSections (special : Special) (secs : List Section) : List Slot :=
  markHeaders 0 (sortClasses special secs)

/-- How many program headers the sections need. -/
def countHeaders (slots : List Slot) : Nat :=
  slots.countP fun slot => slot.f &&& newHeader ≠ 0

/-! ## `layout_sections` -/

inductive PhType
  | load
  | tls
  | phdr
  | interp
  | note
  | dynamic
  | gnuRelro
  deriving DecidableEq

structure Phdr where
  type : PhType
  write : Bool
  exec : Bool
  offset : Int
  vaddr : Int
  filesz : Int
  memsz : Int
  align : Int

/-- A section with its place in the file and in memory. -/
structure Placed where
  slot : Slot
  shOffset : Int
  shAddr : Int

/-- The range that `PT_GNU_RELRO` is made of. -/
structure RoInf where
  shOffset : Int
  shAddr : Int
  shSize : Int
  shAddralign : Int

/-- The variables of the loop; the newest program header comes first. -/
structure Layout where
  addr : Int
  fileOffset : Int
  phdrs : List Phdr
  roinf : RoInf
  placed : List Placed

/-- How a result is brought into the range of `addr_t` and of `int`. -/
structure Wrap where
  u64 : Int → Int
  i32 : Int → Int

/-- The arithmetic of the machine. -/
def machine : Wrap := ⟨fun x => x % 2 ^ 64, fun x => Int.bmod x (2 ^ 32)⟩

/-- `(x + align - 1) & -align` -/
def alignTo (x : Int) (align : Nat) : Int := x + -x % align

/-- The header that a section starts. -/
def startHeader (base addr fileOffset : Int) (n : Nat) (slot : Slot) : Phdr where
  type := if slot.f &&& shfTls ≠ 0 then .tls else .load
  write := slot.f &&& shfWrite != 0
  exec := slot.f &&& shfExecinstr != 0
  -- The first segment includes the program headers and the ELF header.
  offset := if n = 0 then 0 else fileOffset
  vaddr := if n = 0 then base else addr
  filesz := 0
  memsz := 0
  align := if slot.f &&& shfTls ≠ 0 then slot.sec.shAddralign else pageSize

/-- The newest header goes up to here. -/
def extendHeader (wrap : Wrap) (addr fileOffset : Int) : List Phdr → List Phdr
  | [] => []
  | ph :: phdrs =>
    { ph with
      filesz := wrap.u64 (fileOffset - ph.offset)
      memsz := wrap.u64 (addr - ph.vaddr) } :: phdrs

/-- The range for `PT_GNU_RELRO` goes up to a section. -/
def RoInf.extend (wrap : Wrap) (roinf : RoInf) (slot : Slot) (fileOffset addr : Int) : RoInf :=
  let roinf := if roinf.shSize = 0 then
    { roinf with shOffset := fileOffset, shAddr := addr, shAddralign := 1 } else roinf
  { roinf with shSize := wrap.u64 (addr - roinf.shAddr + slot.sec.shSize) }

/-- What the loop does with a section. -/
def layoutStep (wrap : Wrap) (base : Int) (st : Layout) (slot : Slot) : Layout :=
  let s := slot.sec
  if slot.f = 0 then
    let fileOffset := wrap.i32 (alignTo st.fileOffset s.shAddralign)
    { st with
      fileOffset := if s.shType ≠ shtNobits then wrap.i32 (fileOffset + s.shSize) else fileOffset
      placed := st.placed ++ [⟨slot, wrap.u64 fileOffset, 0⟩] }
  else
    let starts := slot.f &&& newHeader ≠ 0
    -- In the middle of a page, the page is there twice.
    let addr := if starts ∧ st.phdrs.length ≠ 0 ∧ st.addr % pageSize ≠ 0 then
      wrap.u64 (st.addr + pageSize) else st.addr
    let tmp := addr
    let addr := wrap.u64 (alignTo addr s.shAddralign)
    let fileOffset := wrap.i32 (st.fileOffset + (addr - tmp))
    let phdrs := if starts then
      startHeader base addr (wrap.u64 fileOffset) st.phdrs.length slot :: st.phdrs else st.phdrs
    let roinf := if slot.f &&& relroFlag ≠ 0 then
      st.roinf.extend wrap slot (wrap.u64 fileOffset) addr else st.roinf
    let placed := st.placed ++ [⟨slot, wrap.u64 fileOffset, addr⟩]
    let addr := wrap.u64 (addr + s.shSize)
    let fileOffset := if s.shType ≠ shtNobits then wrap.i32 (fileOffset + s.shSize) else fileOffset
    ⟨addr, fileOffset, extendHeader wrap addr fileOffset phdrs, roinf, placed⟩

def sizeofEhdr : Int := 64
def sizeofPhdr : Int := 56

/-- How many program headers there are. -/
def phnum (config : Config) (slots : List Slot) : Nat :=
  countHeaders slots + (if config.special.interp.isSome then 2 else 0) +
    (if config.note.isSome then 1 else 0) + (if config.dynamic.isSome then 1 else 0) +
    (if config.roinf then 1 else 0)

/-- The file offset behind the headers. -/
def headersEnd (config : Config) (slots : List Slot) : Int :=
  sizeofEhdr + phnum config slots * sizeofPhdr

/-- The address that the file starts at. -/
def baseAddr (config : Config) : Int := if config.outputDyn then 0 else startAddr

/-- The loop over the sections. -/
def layoutLoop (wrap : Wrap) (config : Config) (slots : List Slot) : Layout :=
  let fileOffset := wrap.i32 (headersEnd config slots)
  slots.foldl (layoutStep wrap (baseAddr config))
    ⟨baseAddr config + fileOffset % pageSize, fileOffset, [], ⟨0, 0, 0, 0⟩, []⟩

/-- `fill_phdr` for a section. -/
def fillPhdr (type : PhType) (write : Bool) (placed : List Placed) (index : Nat) : Option Phdr :=
  (placed.find? fun p => p.slot.index = index).map fun p =>
    { type, write, exec := false, offset := p.shOffset, vaddr := p.shAddr,
      filesz := p.slot.sec.shSize, memsz := p.slot.sec.shSize, align := p.slot.sec.shAddralign }

/-- The header that describes the program headers. -/
def phdrHeader (config : Config) (slots : List Slot) : Phdr where
  type := .phdr
  write := false
  exec := false
  offset := sizeofEhdr
  vaddr := baseAddr config + sizeofEhdr
  filesz := phnum config slots * sizeofPhdr
  memsz := phnum config slots * sizeofPhdr
  align := 4

/-- The headers behind those of the segments. -/
def otherHeaders (config : Config) (st : Layout) : List Phdr :=
  (config.note.bind (fillPhdr .note false st.placed)).toList ++
    (config.dynamic.bind (fillPhdr .dynamic true st.placed)).toList ++
    (if config.roinf then
      [⟨.gnuRelro, true, false, st.roinf.shOffset, st.roinf.shAddr, st.roinf.shSize,
        st.roinf.shSize, st.roinf.shAddralign⟩] else [])

/-- The program headers, as they stand in the file. -/
def programHeaders (config : Config) (slots : List Slot) (st : Layout) : List Phdr :=
  (match config.special.interp with
    | some i => phdrHeader config slots :: (fillPhdr .interp false st.placed i).toList
    | none => []) ++ st.phdrs.reverse ++ otherHeaders config st

/-- `layout_sections`: the sections in the order of the file, and the program headers. -/
def layoutSections (config : Config) (secs : List Section) : List Placed × List Phdr :=
  let slots := sortSections config.special secs
  let st := layoutLoop machine config slots
  (st.placed, programHeaders config slots st)

end TccRiscv64.Elf.File
