import TccRiscv64.Data.Chain

set_option autoImplicit false

/-! # Symbol tables

The symbols, their names and the hash table over them, as `new_symtab`, `put_elf_sym`,
`rebuild_hash`, `find_elf_sym` and `set_elf_sym` keep them. A section is the part of it that is in
use. -/

namespace TccRiscv64.Elf

open Data

/-- A string of C. -/
structure CString where
  bytes : List UInt8
  noZero : 0 ∉ bytes
  deriving DecidableEq

/-- The string at an offset of a section. -/
def strAt (strtab : List UInt8) (offset : Nat) : List UInt8 :=
  (strtab.drop offset).takeWhile (· != 0)

/-- `ElfW(Sym)` -/
structure Sym where
  stName : Nat
  stValue : BitVec 64
  stSize : BitVec 64
  stInfo : BitVec 8
  stOther : BitVec 8
  stShndx : BitVec 16
  deriving DecidableEq

/-- What a symbol is put in with, and what `set_elf_sym` is called with. -/
structure SymDef where
  value : BitVec 64
  size : BitVec 64
  info : BitVec 8
  other : BitVec 8
  shndx : BitVec 16
  name : CString

/-- `ST_BIND` -/
def stBind (info : BitVec 8) : BitVec 4 := info.extractLsb' 4 4

/-- `ST_TYPE` -/
def stType (info : BitVec 8) : BitVec 4 := info.extractLsb' 0 4

/-- `ST_VISIBILITY` -/
def stVisibility (other : BitVec 8) : BitVec 2 := other.extractLsb' 0 2

/-- `ST_INFO` -/
def stInfoOf (bind type : BitVec 4) : BitVec 8 := bind ++ type

def stbLocal : BitVec 4 := 0
def stbGlobal : BitVec 4 := 1
def stbWeak : BitVec 4 := 2

def stvDefault : BitVec 2 := 0
def stvInternal : BitVec 2 := 1
def stvHidden : BitVec 2 := 2

def shnUndef : BitVec 16 := 0
def shnLoreserve : BitVec 16 := 0xff00
def shnCommon : BitVec 16 := 0xfff2

/-- `ST_ASM_SET` -/
def stAsmSet : BitVec 8 := 0x04

/-- The section of the hash table, word by word. -/
structure Hash where
  words : List Nat
  nbHashedSyms : Nat

/-- A symbol table, with its string table and its hash table. -/
structure SymTab where
  syms : List Sym
  strtab : List UInt8
  hash : Option Hash

/-- The name of a symbol. -/
def SymTab.nameOf (t : SymTab) (k : Nat) : List UInt8 :=
  strAt t.strtab ((t.syms[k]?.map Sym.stName).getD 0)

/-- Whether a symbol is global or weak, so that it is hashed. -/
def SymTab.isHashed (t : SymTab) (k : Nat) : Bool :=
  (t.syms[k]?.map fun sym => decide (stBind sym.stInfo ≠ stbLocal)).getD false

/-- `elf_hash` -/
def elfHash (name : List UInt8) : BitVec 32 :=
  name.foldl (fun h c =>
    let h := (h <<< 4) + (c.toBitVec.setWidth 32)
    let g := h &&& 0xf0000000
    let h := if g ≠ 0 then h ^^^ (g >>> 24) else h
    h &&& ~~~g) 0

/-- `new_symtab`: there is a symbol without a name, and one bucket. -/
def newSymtab : SymTab where
  syms := [⟨0, 0, 0, 0, 0, 0⟩]
  strtab := [0]
  hash := some ⟨[1, 1, 0, 0], 0⟩

/-- `put_elf_str`, and the offset of the string. -/
def putElfStr (strtab : List UInt8) (name : CString) : List UInt8 × Nat :=
  (strtab ++ (name.bytes ++ [0]), strtab.length)

/-- The chain word of one more symbol. A symbol that is hashed becomes the head of its bucket. -/
def hashSym (t : SymTab) (nbuckets : Nat) (words : List Nat) (k : Nat) : List Nat :=
  if t.isHashed k then
    let h := (elfHash (t.nameOf k)).toNat % nbuckets
    (words ++ [words.getD (2 + h) 0]).set (2 + h) k
  else words ++ [0]

/-- `rebuild_hash` -/
def rebuildHash (t : SymTab) (nbBuckets : Nat) : List Nat :=
  (List.range' 1 (t.syms.length - 1)).foldl (hashSym t nbBuckets)
    (nbBuckets :: t.syms.length :: List.replicate (nbBuckets + 1) 0)

/-- The part of `put_elf_sym` that adds the symbol and its name. -/
def addSym (t : SymTab) (d : SymDef) : SymTab :=
  let (strtab, stName) := if d.name.bytes = [] then (t.strtab, 0) else putElfStr t.strtab d.name
  let sym : Sym :=
    { stName, stValue := d.value, stSize := d.size, stInfo := d.info, stOther := d.other,
      stShndx := d.shndx }
  { syms := t.syms ++ [sym], strtab, hash := t.hash }

/-- The part of `put_elf_sym` that adds the last symbol of the table to the hash table. -/
def addHash (t : SymTab) (hs : Hash) : Hash :=
  let k := t.syms.length - 1
  let nbuckets := hs.words.getD 0 0
  let words := hashSym t nbuckets hs.words k
  let words := words.set 1 (words.getD 1 0 + 1)
  if t.isHashed k then
    if 2 * nbuckets < hs.nbHashedSyms + 1 then
      ⟨rebuildHash t (2 * nbuckets), hs.nbHashedSyms + 1⟩
    else ⟨words, hs.nbHashedSyms + 1⟩
  else ⟨words, hs.nbHashedSyms⟩

/-- `put_elf_sym`, and the number of the symbol. -/
def putElfSym (t : SymTab) (d : SymDef) : SymTab × Nat :=
  ({ addSym t d with hash := t.hash.map (addHash (addSym t d)) }, t.syms.length)

/-- `find_elf_sym`, if it comes to an end. -/
def findElfSym (t : SymTab) (name : CString) : Option Nat :=
  match t.hash with
  | none => some 0
  | some hs =>
    let nbuckets := hs.words.getD 0 0
    let h := (elfHash name.bytes).toNat % nbuckets
    findLinked (fun k => hs.words.getD (2 + nbuckets + k) 0) (fun k => t.nameOf k = name.bytes)
      t.syms.length (hs.words.getD (2 + h) 0)

/-! ## `set_elf_sym` -/

/-- What `set_elf_sym` knows about the table: the number of the section `.bss`, and whether it is a
table of dynamic symbols. -/
structure Ctx where
  bss : BitVec 16
  dynsym : Bool

/-- What is done with a symbol that is defined already. -/
inductive Merge
  | keep
  | patch
  | definedTwice
  deriving DecidableEq

/-- The most constraining visibility. -/
def newVis (esymVis symVis : BitVec 2) : BitVec 2 :=
  if esymVis = stvDefault then symVis
  else if symVis = stvDefault then esymVis
  else if esymVis < symVis then esymVis else symVis

/-- The symbol that is defined already is kept, or replaced, or there is an error. -/
def mergeDefined (ctx : Ctx) (esym : Sym) (d : SymDef) : Merge :=
  let symBind := stBind d.info
  let esymBind := stBind esym.stInfo
  let symVis := stVisibility d.other
  if d.shndx = shnUndef then .keep
  else if symBind = stbGlobal ∧ esymBind = stbWeak then .patch
  else if symBind = stbWeak ∧ esymBind = stbGlobal then .keep
  else if symBind = stbWeak ∧ esymBind = stbWeak then .keep
  else if symVis = stvHidden ∨ symVis = stvInternal then .keep
  else if (esym.stShndx = shnCommon ∨ esym.stShndx = ctx.bss) ∧
      (d.shndx < shnLoreserve ∧ d.shndx ≠ ctx.bss) then .patch
  else if d.shndx = shnCommon ∨ d.shndx = ctx.bss then .keep
  else if ctx.dynsym then .keep
  else if esym.stOther &&& stAsmSet ≠ 0 then .patch
  else .definedTwice

/-- `do_patch` -/
def Sym.patch (esym : Sym) (d : SymDef) : Sym :=
  { esym with
    stInfo := stInfoOf (stBind d.info) (stType d.info), stShndx := d.shndx, stValue := d.value
    stSize := d.size }

/-- What `set_elf_sym` makes of the symbol that has the name already. -/
def mergeSym (ctx : Ctx) (esym : Sym) (d : SymDef) : Sym × Merge :=
  if esym.stValue = d.value ∧ esym.stSize = d.size ∧ esym.stInfo = d.info ∧
      esym.stOther = d.other ∧ esym.stShndx = d.shndx then (esym, .keep)
  else if esym.stShndx ≠ shnUndef then
    let esym := { esym with
      stOther := esym.stOther.extractLsb' 2 6 ++
        newVis (stVisibility esym.stOther) (stVisibility d.other) }
    match mergeDefined ctx esym d with
    | .keep => (esym, .keep)
    | .patch => (esym.patch d, .patch)
    | .definedTwice => (esym, .definedTwice)
  else ({ esym with stOther := d.other }.patch d, .patch)

/-- A symbol table, whether `new_undef_sym` is set, and the names that were defined twice. -/
structure LinkState where
  tab : SymTab
  newUndefSym : Bool
  definedTwice : List CString

/-- `set_elf_sym`, if the search for the name comes to an end. -/
def setElfSym (ctx : Ctx) (st : LinkState) (d : SymDef) : Option (LinkState × Nat) :=
  let put :=
    let (tab, symIndex) := putElfSym st.tab { d with info := stInfoOf (stBind d.info) (stType d.info) }
    ({ st with tab }, symIndex)
  if stBind d.info = stbLocal then some put
  else (findElfSym st.tab d.name).map fun symIndex =>
    if symIndex = 0 then put
    else match st.tab.syms[symIndex]? with
      | none => (st, symIndex)
      | some esym =>
        let (esym, merge) := mergeSym ctx esym d
        ({ tab := { st.tab with syms := st.tab.syms.set symIndex esym }
           newUndefSym := st.newUndefSym || merge = .patch
           definedTwice :=
             if merge = .definedTwice then st.definedTwice ++ [d.name] else st.definedTwice },
          symIndex)

end TccRiscv64.Elf
