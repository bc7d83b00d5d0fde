import TccRiscv64.Data.Reorder
import TccRiscv64.Elf.EndFile

set_option autoImplicit false

/-! # The order of a symbol table and its GNU hash table

`sort_syms` puts the local symbols first. `create_gnu_hash` and `update_gnu_hash` put the undefined
symbols of a table of dynamic symbols first and the others behind them, bucket by bucket. Both
rewrite what refers to the symbols by number. -/

namespace TccRiscv64.Elf

open Data

/-- A section of relocations, if it is one, with the number of the symbol table it is linked to. -/
structure RelocSection where
  isRelx : Bool
  link : Nat
  relocs : List Reloc

/-- `modify_reloctions_old_to_new` -/
def modifyRelocations (symtab : Nat) (oldToNew : List Nat) (secs : List RelocSection) :
    List RelocSection :=
  secs.map fun sr =>
    if sr.isRelx ∧ sr.link = symtab then
      { sr with relocs := sr.relocs.map fun rel => { rel with sym := oldToNew.getD rel.sym 0 } }
    else sr

def Sym.isLocal (sym : Sym) : Bool := stBind sym.stInfo == stbLocal

/-- The two passes of `sort_syms`: `old_to_new_syms[i] = q - new_syms; *q++ = *p`. -/
def sortPasses (syms : List Sym) : Copied Sym :=
  (Copied.pass ⟨[], List.replicate syms.length 0⟩ Sym.isLocal syms).pass (fun sym => !sym.isLocal) syms

/-- `sort_syms`, on symbol table number `symtab`: the symbols, how many are local, and the sections
of relocations. -/
def sortSyms (symtab : Nat) (syms : List Sym) (secs : List RelocSection) :
    List Sym × Nat × List RelocSection :=
  let st := sortPasses syms
  (st.new, (Copied.pass ⟨[], List.replicate syms.length 0⟩ Sym.isLocal syms).new.length,
    modifyRelocations symtab st.oldToNew secs)

/-! ## The GNU hash table -/

/-- The section `.gnu.hash`; `chainSize` words are there for the chains. -/
structure GnuHash where
  nbuckets : Nat
  symoffset : Nat
  bloomSize : Nat
  bloomShift : Nat
  bloom : List (BitVec 64)
  buckets : List Nat
  chain : List (BitVec 32)
  chainSize : Nat

def Sym.isDefined (sym : Sym) : Bool := sym.stShndx != shnUndef

/-- The size of the bloom filter; it must be a power of two. -/
def bloomSizeFrom (ndef bloomSize : Nat) : Nat :=
  if 0 < bloomSize ∧ bloomSize * 2 ^ (6 - 3) ≤ ndef then bloomSizeFrom ndef (bloomSize * 2)
  else bloomSize
  termination_by ndef - bloomSize

/-- `create_gnu_hash` -/
def createGnuHash (syms : List Sym) : GnuHash :=
  let ndef := syms.countP Sym.isDefined
  let nbuckets := ndef / 4 + 1
  let bloomSize := bloomSizeFrom ndef 1
  { nbuckets, symoffset := syms.length - ndef, bloomSize, bloomShift := 6
    bloom := List.replicate bloomSize 0, buckets := List.replicate nbuckets 0, chain := []
    chainSize := ndef }

/-- `elf_gnu_hash` -/
def elfGnuHash (name : List UInt8) : BitVec 32 :=
  name.foldl (fun h c => h * 33 + c.toBitVec.setWidth 32) 5381

/-- `hash[i]`, for the symbols that are defined. -/
def gnuHashes (t : SymTab) : List (BitVec 32) :=
  t.syms.map fun sym => if sym.isDefined then elfGnuHash (strAt t.strtab sym.stName) else 0

/-- `buck` and `nextbuck`: the first and the last symbol of each bucket, and the symbol behind a
symbol. -/
structure Bucks where
  first : List (Option Nat)
  last : List Nat
  next : List Nat

/-- A symbol goes to the end of its bucket. -/
def Bucks.add (st : Bucks) (bucket i : Nat) : Bucks :=
  match st.first.getD bucket none with
  | none => { st with first := st.first.set bucket (some i), last := st.last.set bucket i }
  | some _ =>
    { st with next := st.next.set (st.last.getD bucket 0) i, last := st.last.set bucket i }

/-- The buckets of all the symbols that are defined. -/
def findBuckets (t : SymTab) (nbuckets : Nat) : Bucks :=
  t.syms.zipIdx.foldl (fun st e =>
    if e.1.isDefined then st.add (((gnuHashes t).getD e.2 0).toNat % nbuckets) e.2 else st)
    ⟨List.replicate nbuckets none, List.replicate nbuckets 0, List.replicate t.syms.length 0⟩

/-- The variables of the loop that fills the table. -/
structure Fill where
  copied : Copied Sym
  gnu : GnuHash

/-- The bits of a hash value in its word of the bloom filter. -/
def bloomBits (shift : Nat) (hash : BitVec 32) : BitVec 64 :=
  (1 : BitVec 64) <<< (hash.toNat % 64) ||| (1 : BitVec 64) <<< ((hash >>> shift).toNat % 64)

/-- The body of the inner loop, for symbol `cur`. -/
def Fill.addSym (t : SymTab) (st : Fill) (cur : Nat) : Fill :=
  let hash := (gnuHashes t).getD cur 0
  let word := (hash.toNat / 64) % st.gnu.bloomSize
  { copied := st.copied.copy (t.syms.getD cur ⟨0, 0, 0, 0, 0, 0⟩, cur)
    gnu :=
      { st.gnu with
        chain := st.gnu.chain ++ [hash &&& ~~~1]
        bloom := st.gnu.bloom.modify word (· ||| bloomBits st.gnu.bloomShift hash) } }

/-- The symbols of a bucket from `cur` on, up to the last one. -/
def Fill.walk (t : SymTab) (next : List Nat) (last : Nat) : Nat → Nat → Fill → Fill
  | 0, _, st => st
  | fuel + 1, cur, st =>
    let st := st.addSym t cur
    if cur = last then st else Fill.walk t next last fuel (next.getD cur 0) st

/-- The last word of a chain is marked. -/
def markLast (chain : List (BitVec 32)) : List (BitVec 32) :=
  chain.modify (chain.length - 1) (· ||| 1)

/-- The body of the outer loop, for bucket `i`. -/
def Fill.addBucket (t : SymTab) (bucks : Bucks) (st : Fill) (i : Nat) : Fill :=
  match bucks.first.getD i none with
  | none => st
  | some first =>
    let st := { st with
      gnu := { st.gnu with buckets := st.gnu.buckets.set i st.copied.new.length } }
    let st := st.walk t bucks.next (bucks.last.getD i 0) t.syms.length first
    { st with gnu := { st.gnu with chain := markLast st.gnu.chain } }

/-- The symbols are copied and the hash table is filled. -/
def fillGnuHash (t : SymTab) (gnu : GnuHash) : Fill :=
  let undefs := Copied.pass ⟨[], List.replicate t.syms.length 0⟩ (fun sym => !sym.isDefined) t.syms
  (List.range gnu.nbuckets).foldl (Fill.addBucket t (findBuckets t gnu.nbuckets)) ⟨undefs, gnu⟩

/-- What `update_gnu_hash` changes. -/
structure DynState where
  dynsym : SymTab
  gnu : GnuHash
  versym : Option (List (BitVec 16))
  secs : List RelocSection
  sizeIncorrect : Bool

/-- `update_gnu_hash`, where the dynamic symbols are symbol table number `symtab`. -/
def updateGnuHash (symtab : Nat) (st : DynState) : DynState :=
  let t := st.dynsym
  let fill := fillGnuHash t st.gnu
  let dynsym := { t with syms := fill.copied.new }
  { dynsym := { dynsym with
      hash := t.hash.map fun hs =>
        { hs with words := rebuildHash dynsym (hs.words.getD 0 0) } }
    gnu := fill.gnu
    versym := st.versym.map (permute fill.copied.oldToNew)
    secs := modifyRelocations symtab fill.copied.oldToNew st.secs
    sizeIncorrect := st.sizeIncorrect ||
      st.gnu.chainSize ≠ t.syms.length - (t.syms.countP fun sym => !sym.isDefined) }

/-! ## The lookup of the dynamic loader -/

/-- The walk along a chain of hash values, from symbol `k` on; local symbols are ignored. -/
def gnuWalk (gnu : GnuHash) (t : SymTab) (name : List UInt8) : Nat → Nat → Option Nat
  | 0, _ => none
  | fuel + 1, k =>
    let word := gnu.chain.getD (k - gnu.symoffset) 1
    if (word ^^^ elfGnuHash name) >>> 1 = 0 ∧ t.isHashed k ∧ t.nameOf k = name then some k
    else if word &&& 1 ≠ 0 then none
    else gnuWalk gnu t name fuel (k + 1)

/-- The symbol that a name has, by the GNU hash table. -/
def gnuLookup (gnu : GnuHash) (t : SymTab) (name : List UInt8) : Option Nat :=
  let hash := elfGnuHash name
  let word := gnu.bloom.getD ((hash.toNat / 64) &&& (gnu.bloomSize - 1)) 0
  if (word >>> (hash.toNat % 64)) &&& (word >>> ((hash >>> gnu.bloomShift).toNat % 64)) &&& 1 = 0
  then none
  else
    let k := gnu.buckets.getD (hash.toNat % gnu.nbuckets) 0
    if k = 0 then none else gnuWalk gnu t name t.syms.length k

end TccRiscv64.Elf
