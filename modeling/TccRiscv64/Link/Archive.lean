import TccRiscv64.Elf.EndFileRuns

set_option autoImplicit false

/-! # Loading archives

`tcc_load_archive` and `tcc_load_alacarte`, as a machine that makes one turn of one of their loops
at a time. What `tcc_load_object_file` does to the rest of the linker is a parameter; of it this
much is known, that it changes the symbol table by calls of `set_elf_sym`. -/

namespace TccRiscv64.Link.Archive

open Elf

/-! ## Reading the file -/

/-- `get_be` -/
def getBe (b : List UInt8) (n : Nat) : BitVec 64 :=
  (b.take n).foldl (fun ret x => (ret <<< 8) ||| x.toBitVec.setWidth 64) 0

/-- `isspace` -/
def isSpace (c : UInt8) : Bool := c == 32 || (9 ≤ c && c ≤ 13)

/-- The value of a digit; 36 for what is none. -/
def digit (c : UInt8) : Nat :=
  if 48 ≤ c ∧ c ≤ 57 then c.toNat - 48
  else if 65 ≤ c ∧ c ≤ 90 then c.toNat - 55
  else if 97 ≤ c ∧ c ≤ 122 then c.toNat - 87
  else 36

def digits (base : Nat) (s : List UInt8) : Nat :=
  (s.takeWhile fun c => digit c < base).foldl (fun acc c => base * acc + digit c) 0

/-- `strtol(s, NULL, 0)`, where no number is too large -/
def strtol (s : List UInt8) : Int :=
  let s := s.dropWhile isSpace
  let minus := s.head? = some 45
  let s := if minus ∨ s.head? = some 43 then s.tail else s
  let value :=
    if s.head? = some 48 then
      if (s[1]? = some 120 ∨ s[1]? = some 88) ∧ (s[2]?.any fun c => digit c < 16) then
        digits 16 (s.drop 2)
      else digits 8 s
    else digits 10 s
  if minus then -value else value

/-- `ArchiveHeader`, as far as it is read: the strings in `ar_name` and `ar_size`, and `ar_fmag`. -/
structure ArchiveHeader where
  arName : List UInt8
  arSize : List UInt8
  arFmag : List UInt8

/-- `sizeof(ArchiveHeader)` -/
def headerSize : Nat := 60

/-- The result of `read_ar_header`, the header, and the position in the file after it. A negative
offset is no position: `lseek` fails, and what is read comes from the position `pos` before. -/
def readArHeader (file : List UInt8) (pos : Nat) (offset : BitVec 32) :
    Int × ArchiveHeader × Nat :=
  let pos := if offset.msb then pos else offset.toNat
  let bytes := (file.drop pos).take headerSize
  let name := ((bytes.take 16).reverse.dropWhile (· == 32)).reverse
  let hdr : ArchiveHeader :=
    { arName := name.takeWhile (· != 0)
      arSize := ((bytes.drop 48).take 9).takeWhile (· != 0)
      arFmag := (bytes.drop 58).take 2 }
  (if bytes.length = headerSize then headerSize else if bytes.length = 0 then 0 else -1, hdr,
    pos + bytes.length)

/-- `ARFMAG` -/
def arfmag : List UInt8 := [96, 10]

/-- The size of a member, even. -/
def ArchiveHeader.size (hdr : ArchiveHeader) : BitVec 32 :=
  (BitVec.ofInt 32 (strtol hdr.arSize) + 1) &&& ~~~1

/-- The size of the entries, if the member is a symbol index: `/` or `/SYM64/`. -/
def ArchiveHeader.entrySize? (hdr : ArchiveHeader) : Option Nat :=
  if hdr.arName = [47] then some 4
  else if hdr.arName = [47, 83, 89, 77, 54, 52, 47] then some 8
  else none

/-- `tcc_object_type(fd, &ehdr) == AFF_BINTYPE_REL`, and the position after it. -/
def isObject (file : List UInt8) (pos : Nat) : Bool × Nat :=
  let ehdr := (file.drop pos).take 64
  (ehdr.length == 64 && ehdr.take 4 == [127, 69, 76, 70] && (ehdr.drop 16).take 2 == [1, 0],
    pos + ehdr.length)

/-! ## The linker -/

/-- `tcc_load_object_file`: what it makes of the linker and of the position in the file, or `none`
where it fails. -/
structure Loader (σ : Type) where
  ctx : Ctx
  tab : σ → LinkState
  load : σ → BitVec 64 → Nat → Option (σ × Nat)
  calls : ∀ s offset pos s' pos', load s offset pos = some (s', pos') →
    ∃ defs : List SymDef, runCalls ctx (tab s) (defs.map .set) = some (tab s')

/-- The index of an archive: the numbers of its entries, and their names one after the other. -/
structure Index where
  data : List UInt8
  entrySize : Nat
  deriving DecidableEq

namespace Index

variable (ix : Index)

/-- `nsyms`, an `int` -/
def nsyms : Int := ((getBe ix.data ix.entrySize).setWidth 32).toInt

/-- `ar_names` -/
def arNames : Nat := ix.entrySize * (ix.nsyms.toNat + 1)

/-- The offset of the header of a member. -/
def offset (i : Nat) : BitVec 64 := getBe (ix.data.drop (ix.entrySize * (i + 1))) ix.entrySize

/-- `p + strlen(p) + 1` -/
def next (p : Nat) : Nat := p + (strAt ix.data p).length + 1

/-- There is a string at `p`. -/
def Holds (p : Nat) : Prop := ix.next p ≤ ix.data.length

instance (p : Nat) : Decidable (ix.Holds p) := inferInstanceAs (Decidable (_ ≤ _))

end Index

/-! ## The machine -/

inductive Pc
  /-- The loop of `tcc_load_archive`, with `file_offset`. -/
  | header (fileOffset : BitVec 64)
  /-- The loops of `tcc_load_alacarte`. -/
  | visit (ix : Index) (i p bound : Nat)
  /-- What was returned, and the index if there was one. -/
  | ret (code : Int) (index : Option Index)
  /-- Something behind the index was read. -/
  | stray
  deriving DecidableEq

/-- `loaded` keeps the offsets that `tcc_load_object_file` succeeded at, newest first. -/
structure Config (σ : Type) where
  pc : Pc
  linker : σ
  pos : Nat
  loaded : List (BitVec 64)

section Machine

variable {σ : Type} (L : Loader σ) (file : List UInt8) (alacarte : Bool)

/-- The start of `tcc_load_alacarte`. -/
def startAlacarte (c : Config σ) (pos : Nat) (size : BitVec 32) (entrySize : Nat) : Config σ :=
  -- `tcc_malloc` does not give so much
  if size.msb then { c with pos, pc := .ret (-1) none }
  else
    let data := (file.drop pos).take size.toNat
    let ix : Index := ⟨data, entrySize⟩
    let pc :=
      if data.length ≠ size.toNat then .ret (-1) none
      else if data.length < entrySize then .stray
      else .visit ix 0 ix.arNames 0
    { c with pos := pos + data.length, pc }

/-- One turn of the loop of `tcc_load_archive`. -/
def archiveStep (c : Config σ) (fileOffset : BitVec 64) : Config σ :=
  let (len, hdr, pos) := readArHeader file c.pos (fileOffset.setWidth 32)
  if len = 0 then { c with pos, pc := .ret 0 none }
  else if len < 0 then { c with pos, pc := .ret (-1) none }
  else
    let fileOffset := fileOffset + BitVec.ofInt 64 len
    let size := hdr.size
    let next := fileOffset + size.signExtend 64
    if alacarte then
      match hdr.entrySize? with
      | some entrySize => startAlacarte file c pos size entrySize
      | none => { c with pos, pc := .header next }
    else
      let (object, pos) := isObject file pos
      if object then
        match L.load c.linker fileOffset pos with
        | none => { c with pos, pc := .ret (-1) none }
        | some (linker, pos) =>
          { linker, pos, pc := .header next, loaded := fileOffset :: c.loaded }
      else { c with pos, pc := .header next }

/-- The symbol that `find_elf_sym` finds is undefined. -/
def undefinedSym (t : SymTab) (name : CString) : Bool :=
  match findElfSym t name with
  | none => false
  | some symIndex =>
    symIndex ≠ 0 && (t.syms[symIndex]?.map fun sym => decide (sym.stShndx = shnUndef)).getD false

/-- One turn of the loop over the names, or its end. -/
def alacarteStep (c : Config σ) (ix : Index) (i p bound : Nat) : Config σ :=
  if i < ix.nsyms.toNat then
    if ix.Holds p then
      if undefinedSym (L.tab c.linker).tab (cstrAt ix.data p) then
        let off := ix.offset i
        let (len, hdr, pos) := readArHeader file c.pos (off.setWidth 32)
        if len ≤ 0 ∨ hdr.arFmag ≠ arfmag then { c with pos, pc := .ret (-1) (some ix) }
        else
          let off := off + BitVec.ofInt 64 len
          match L.load c.linker off pos with
          | none => { c with pos, pc := .ret (-1) (some ix) }
          | some (linker, pos) =>
            { linker, pos, pc := .visit ix (i + 1) (ix.next p) (bound + 1)
              loaded := off :: c.loaded }
      else { c with pc := .visit ix (i + 1) (ix.next p) bound }
    else { c with pc := .stray }
  else if bound ≠ 0 then { c with pc := .visit ix 0 ix.arNames 0 }
  else { c with pc := .ret 0 (some ix) }

def step (c : Config σ) : Config σ :=
  match c.pc with
  | .header fileOffset => archiveStep L file alacarte c fileOffset
  | .visit ix i p bound => alacarteStep L file c ix i p bound
  | .ret _ _ => c
  | .stray => c

/-- The call of `tcc_load_archive`, after the magic. -/
def start (s : σ) : Config σ := ⟨.header 8, s, 8, []⟩

/-- The run after so many turns. -/
def run (s : σ) (n : Nat) : Config σ := (step L file alacarte)^[n] (start s)

end Machine

end TccRiscv64.Link.Archive
