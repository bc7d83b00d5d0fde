import TccRiscv64.Link.Archive
import Mathlib.Data.Set.Card
import Mathlib.Order.OrderIsoNat
import Mathlib.Tactic.IntervalCases

set_option autoImplicit false

/-! # Archives are loaded to the end

Where the sizes of the members lead forward, the index stays inside its member, and no symbol that
the index lists for a member is undefined once that was loaded, the loops end, no member is loaded
twice, and no undefined symbol is left in the index. -/

namespace TccRiscv64.Link.Archive

open Elf

/-! ## Definitions stay -/

/-- The symbol with the name is defined. -/
def Defined (t : SymTab) (name : CString) : Prop :=
  ∃ k sym, t.lookup name = some k ∧ t.syms[k]? = some sym ∧ sym.stShndx ≠ shnUndef

/-- The symbol with the name is a reference. -/
def Undefined (t : SymTab) (name : CString) : Prop :=
  ∃ k sym, t.lookup name = some k ∧ t.syms[k]? = some sym ∧ sym.stShndx = shnUndef

section Tables

variable {ctx : Ctx} {t : SymTab} {st st' : LinkState} {d : SymDef} {name : CString} {k : Nat}

theorem undefinedSym_iff (h : TabInv t) {hs : Hash} (hhash : t.hash = some hs) :
    undefinedSym t name = true ↔ Undefined t name := by
  unfold undefinedSym
  rw [h.findElfSym_eq hhash]
  dsimp only
  constructor
  · intro hu
    cases hk : t.lookup name with
    | none => simp [hk] at hu
    | some k =>
      obtain ⟨-, hlt, -⟩ := h.lookup_some hk
      have hsym : t.syms[k]? = some t.syms[k] := List.getElem?_eq_getElem hlt
      rw [hk, Option.getD_some, hsym, Bool.and_eq_true] at hu
      exact ⟨k, _, hk, hsym, of_decide_eq_true hu.2⟩
  · rintro ⟨k, sym, hk, hsym, hundef⟩
    obtain ⟨hne, -⟩ := h.lookup_some hk
    rw [hk, Option.getD_some, hsym, Bool.and_eq_true]
    exact ⟨decide_eq_true hne, decide_eq_true hundef⟩

/-- A name in the table that is no reference is defined. -/
theorem defined_of_not_undefined (h : TabInv t) (hfound : (t.lookup name).isSome = true)
    (hnot : ¬Undefined t name) : Defined t name := by
  obtain ⟨k, hk⟩ := Option.isSome_iff_exists.1 hfound
  obtain ⟨-, hlt, -⟩ := h.lookup_some hk
  have hsym : t.syms[k]? = some t.syms[k] := List.getElem?_eq_getElem hlt
  exact ⟨k, _, hk, hsym, fun hundef => hnot ⟨k, _, hk, hsym, hundef⟩⟩

theorem Defined.not_undefined (h : Defined t name) : ¬Undefined t name := by
  rintro ⟨k', sym', hk', hsym', hundef⟩
  obtain ⟨k, sym, hk, hsym, hdef⟩ := h
  cases hk.symm.trans hk'
  cases hsym.symm.trans hsym'
  exact hdef hundef

/-- A definition is kept or replaced by a definition. -/
theorem mergeSym_defined (ctx : Ctx) (d : SymDef) {sym : Sym} (h : sym.stShndx ≠ shnUndef) :
    (mergeSym ctx sym d).1.stShndx ≠ shnUndef := by
  unfold mergeSym
  split
  · exact h
  · dsimp only
    split
    · exact h
    · rename_i hpatch
      -- a reference does not replace anything
      intro hundef
      have hundef : d.shndx = shnUndef := hundef
      rw [mergeDefined] at hpatch
      dsimp only at hpatch
      rw [if_pos hundef] at hpatch
      cases hpatch
    · exact h

theorem SetStep.defined (hstep : SetStep ctx st d st' k) (h : TabInv st.tab) {hs : Hash}
    (hhash : st.tab.hash = some hs) (hdef : Defined st.tab name) : Defined st'.tab name := by
  obtain ⟨-, -, hlookup⟩ := hstep.inv h hhash
  obtain ⟨k₀, sym, hk₀, hsym, hshndx⟩ := hdef
  have hfound := hlookup name
  cases hstep with
  | put hnew =>
    have hold : ¬(stBind d.info ≠ stbLocal ∧ d.name = name) := by
      rintro ⟨hbind, rfl⟩
      rcases hnew with hnew | hnew
      · exact hbind hnew
      · rw [hk₀] at hnew
        cases hnew
    rw [if_neg hold, hk₀] at hfound
    refine ⟨k₀, sym, hfound, ?_, hshndx⟩
    obtain ⟨hlt, -⟩ := List.getElem?_eq_some_iff.1 hsym
    show (st.tab.syms ++ _)[k₀]? = some sym
    rw [List.getElem?_append_left hlt]
    exact hsym
  | @merge hbind k hk esym hesym =>
    have hk₀' : (st.tab.setSym k (mergeSym ctx esym d).1).lookup name = some k₀ := by
      refine hfound.trans ?_
      split
      · rename_i hd
        rw [← hk, hd.2, hk₀]
      · exact hk₀
    obtain ⟨hlt, -⟩ := List.getElem?_eq_some_iff.1 hsym
    by_cases heq : k = k₀
    · subst heq
      cases hesym.symm.trans hsym
      refine ⟨k, _, hk₀', ?_, mergeSym_defined ctx d hshndx⟩
      exact List.getElem?_set_self hlt
    · refine ⟨k₀, sym, hk₀', ?_, hshndx⟩
      exact (List.getElem?_set_ne heq).trans hsym

/-- What calls of `set_elf_sym` keep. -/
theorem runCalls_keeps (defs : List SymDef) (h : TabInv st.tab) {hs : Hash}
    (hhash : st.tab.hash = some hs) (hrun : runCalls ctx st (defs.map .set) = some st') :
    TabInv st'.tab ∧ (∃ hs', st'.tab.hash = some hs') ∧
      (∀ name, Defined st.tab name → Defined st'.tab name) ∧
      ∀ name, (st.tab.lookup name).isSome = true → (st'.tab.lookup name).isSome = true := by
  induction defs generalizing st hs with
  | nil =>
    cases hrun
    exact ⟨h, ⟨hs, hhash⟩, fun _ => id, fun _ => id⟩
  | cons d defs ih =>
    obtain ⟨st₁, k, hset, hstep⟩ := h.setElfSym ctx d hhash
    obtain ⟨hinv, ⟨hs₁, hhash₁⟩, hlookup⟩ := hstep.inv h hhash
    rw [List.map_cons, runCalls, List.foldlM_cons, SymCall.run, hset] at hrun
    obtain ⟨hinv', hhash', hdef, hfound⟩ := ih hinv hhash₁ hrun
    refine ⟨hinv', hhash', fun name hname => hdef name (SetStep.defined hstep h hhash hname),
      fun name hname => hfound name ?_⟩
    rw [hlookup name]
    split
    · rfl
    · exact hname

end Tables

/-! ## What the turns have to meet -/

namespace Index

variable (ix : Index)

/-- Where the name of an entry starts. -/
def nameAt : Nat → Nat
  | 0 => ix.arNames
  | i + 1 => ix.next (nameAt i)

/-- The name of an entry. -/
def name (i : Nat) : CString := cstrAt ix.data (ix.nameAt i)

/-- The offset of the member of an entry, behind the header. -/
def member (i : Nat) : BitVec 64 := ix.offset i + BitVec.ofInt 64 headerSize

/-- The entries and their names lie inside the index. -/
structure Ok : Prop where
  entrySize_le : ix.entrySize ≤ ix.data.length
  holds : ∀ i < ix.nsyms.toNat, ix.Holds (ix.nameAt i)

end Index

/-- The size of a member leads forward and not beyond what an `int` holds, and an index stays
inside its member. -/
structure HeaderOk (file : List UInt8) (alacarte : Bool) (pos : Nat) (fileOffset : BitVec 64)
    (hdr : ArchiveHeader) : Prop where
  size : (alacarte = true → hdr.entrySize? = none) → hdr.size.msb = false ∧
    fileOffset.toNat + headerSize + hdr.size.toNat < 2 ^ 31
  index : ∀ entrySize, alacarte = true → hdr.entrySize? = some entrySize →
    hdr.size.msb = false → ((file.drop pos).take hdr.size.toNat).length = hdr.size.toNat →
    Index.Ok ⟨(file.drop pos).take hdr.size.toNat, entrySize⟩

section Turns

variable {σ : Type} (L : Loader σ) (file : List UInt8) (alacarte : Bool)

/-- What a turn has to meet: where a header is read, it is as above, and of a member that was
loaded no symbol in the index is undefined. -/
def StepOk (c : Config σ) : Prop :=
  match c.pc with
  | .header fileOffset =>
    let r := readArHeader file c.pos (fileOffset.setWidth 32)
    r.1 = headerSize → HeaderOk file alacarte r.2.2 fileOffset r.2.1
  | .visit ix _ _ _ => ∀ j < ix.nsyms.toNat, ix.member j ∈ c.loaded →
      ¬Undefined (L.tab c.linker).tab (ix.name j)
  | .ret _ _ => True
  | .stray => True

/-! ## What a turn does -/

variable {L file alacarte} {c : Config σ} {off : BitVec 64} {ix : Index} {i p bound : Nat}

/-- A header is read whole or not. -/
theorem readArHeader_fst (pos : Nat) (offset : BitVec 32) :
    (readArHeader file pos offset).1 =
      if ((file.drop (if offset.msb then pos else offset.toNat)).take headerSize).length =
        headerSize then (headerSize : Int)
      else if ((file.drop (if offset.msb then pos else offset.toNat)).take headerSize).length = 0
      then 0 else -1 := rfl

theorem readArHeader_len (pos : Nat) (offset : BitVec 32) :
    (readArHeader file pos offset).1 = headerSize ∨ (readArHeader file pos offset).1 ≤ 0 := by
  rw [readArHeader_fst]
  generalize List.length _ = n
  by_cases hn : n = headerSize
  · exact Or.inl (if_pos hn)
  · right
    rw [if_neg hn]
    split
    · exact Int.le_refl _
    · decide

theorem readArHeader_bound {pos : Nat} {offset : BitVec 32} (hmsb : offset.msb = false)
    (h : (readArHeader file pos offset).1 = headerSize) :
    offset.toNat + headerSize ≤ file.length := by
  rw [readArHeader_fst, hmsb, if_neg Bool.false_ne_true, List.length_take,
    List.length_drop] at h
  have hpos : 0 < headerSize := by decide
  by_cases hle : offset.toNat + headerSize ≤ file.length
  · exact hle
  · rw [if_neg (by omega)] at h
    split at h
    · exact absurd h (by decide)
    · exact absurd h (by decide)

theorem setWidth_offset (h : off.toNat < 2 ^ 31) :
    (off.setWidth 32).msb = false ∧ (off.setWidth 32).toNat = off.toNat := by
  have hnat : (off.setWidth 32).toNat = off.toNat := by
    rw [BitVec.toNat_setWidth, Nat.mod_eq_of_lt (by omega)]
  refine ⟨?_, hnat⟩
  rw [BitVec.msb_eq_false_iff_two_mul_lt, hnat]
  omega

theorem toNat_nextOffset {size : BitVec 32} (hsize : size.msb = false)
    (h : off.toNat + headerSize + size.toNat < 2 ^ 31) :
    (off + BitVec.ofInt 64 headerSize + size.signExtend 64).toNat =
      off.toNat + headerSize + size.toNat := by
  rw [BitVec.signExtend_eq_setWidth_of_msb_false hsize, BitVec.toNat_add, BitVec.toNat_add,
    BitVec.toNat_setWidth]
  have hheader : (BitVec.ofInt 64 headerSize).toNat = headerSize := by decide
  rw [hheader, Nat.mod_eq_of_lt (a := size.toNat) (by omega),
    Nat.mod_eq_of_lt (a := off.toNat + headerSize) (by omega), Nat.mod_eq_of_lt (by omega)]

/-- What an index leads to. -/
theorem startAlacarte_cases (c : Config σ) {pos : Nat} {size : BitVec 32} {entrySize : Nat}
    (hok : size.msb = false → ((file.drop pos).take size.toNat).length = size.toNat →
      Index.Ok ⟨(file.drop pos).take size.toNat, entrySize⟩) :
    (startAlacarte file c pos size entrySize).linker = c.linker ∧
      (startAlacarte file c pos size entrySize).loaded = c.loaded ∧
      ((startAlacarte file c pos size entrySize).pc = .ret (-1) none ∨
        ∃ ix : Index, ix.Ok ∧
          (startAlacarte file c pos size entrySize).pc = .visit ix 0 ix.arNames 0) := by
  unfold startAlacarte
  cases hmsb : size.msb with
  | true => exact ⟨rfl, rfl, Or.inl rfl⟩
  | false =>
    rw [if_neg Bool.false_ne_true]
    refine ⟨rfl, rfl, ?_⟩
    dsimp only
    by_cases hlength : ((file.drop pos).take size.toNat).length = size.toNat
    · have hix := hok hmsb hlength
      refine Or.inr ⟨_, hix, ?_⟩
      rw [if_neg (not_not_intro hlength), if_neg (Nat.not_lt.2 hix.entrySize_le)]
    · exact Or.inl (if_pos hlength)

/-- The loop goes on behind the member, or is left. -/
theorem archiveStep_cases (hpc : c.pc = .header off) (hoff : off.toNat < 2 ^ 31)
    (hok : StepOk L file alacarte c) :
    (∃ next, (archiveStep L file alacarte c off).pc = .header next ∧
      off.toNat + headerSize ≤ file.length ∧ off.toNat + headerSize ≤ next.toNat ∧
      next.toNat < 2 ^ 31 ∧
      ((archiveStep L file alacarte c off).linker = c.linker ∧
          (archiveStep L file alacarte c off).loaded = c.loaded ∨
        alacarte = false ∧ ∃ start pos pos', L.load c.linker start pos =
          some ((archiveStep L file alacarte c off).linker, pos'))) ∨
    (archiveStep L file alacarte c off).linker = c.linker ∧
      (archiveStep L file alacarte c off).loaded = c.loaded ∧
      ((∃ code, (archiveStep L file alacarte c off).pc = .ret code none) ∨
        ∃ ix : Index, ix.Ok ∧
          (archiveStep L file alacarte c off).pc = .visit ix 0 ix.arNames 0) := by
  have hheader : (readArHeader file c.pos (off.setWidth 32)).1 = headerSize →
      HeaderOk file alacarte (readArHeader file c.pos (off.setWidth 32)).2.2 off
        (readArHeader file c.pos (off.setWidth 32)).2.1 := by
    rw [StepOk, hpc] at hok
    exact hok
  obtain ⟨hmsb, hnat⟩ := setWidth_offset hoff
  have hbound : (readArHeader file c.pos (off.setWidth 32)).1 = headerSize →
      (off.setWidth 32).toNat + headerSize ≤ file.length := readArHeader_bound hmsb
  have hlen : (readArHeader file c.pos (off.setWidth 32)).1 = headerSize ∨
      (readArHeader file c.pos (off.setWidth 32)).1 ≤ 0 := readArHeader_len _ _
  rw [hnat] at hbound
  unfold archiveStep
  generalize readArHeader file c.pos (off.setWidth 32) = r at hheader hbound hlen
  obtain ⟨len, hdr, pos⟩ := r
  dsimp only at hheader hbound hlen ⊢
  rcases hlen with hlen | hlen
  · have hpos : (0 : Int) < len := by
      rw [hlen]
      decide
    obtain ⟨hsize, hindex⟩ := hheader hlen
    rw [if_neg (by omega), if_neg (by omega), hlen]
    have hnext : ∀ hsize' : hdr.size.msb = false ∧
        off.toNat + headerSize + hdr.size.toNat < 2 ^ 31,
        off.toNat + headerSize ≤
          (off + BitVec.ofInt 64 headerSize + hdr.size.signExtend 64).toNat ∧
        (off + BitVec.ofInt 64 headerSize + hdr.size.signExtend 64).toNat < 2 ^ 31 := by
      intro hsize'
      rw [toNat_nextOffset hsize'.1 hsize'.2]
      exact ⟨Nat.le_add_right _ _, hsize'.2⟩
    cases alacarte with
    | true =>
      rw [if_pos rfl]
      cases hentry : hdr.entrySize? with
      | some entrySize =>
        obtain ⟨hlinker, hloaded, hstart⟩ :=
          startAlacarte_cases c (hindex entrySize rfl hentry)
        exact Or.inr ⟨hlinker, hloaded, hstart.imp_left fun hret => ⟨_, hret⟩⟩
      | none =>
        obtain ⟨hle, hlt⟩ := hnext (hsize fun _ => hentry)
        exact Or.inl ⟨_, rfl, hbound hlen, hle, hlt, Or.inl ⟨rfl, rfl⟩⟩
    | false =>
      rw [if_neg Bool.false_ne_true]
      obtain ⟨hle, hlt⟩ := hnext (hsize fun h => absurd h Bool.false_ne_true)
      split
      · cases hload : L.load c.linker (off + BitVec.ofInt 64 headerSize)
            (isObject file pos).2 with
        | none => exact Or.inr ⟨rfl, rfl, Or.inl ⟨_, rfl⟩⟩
        | some r =>
          exact Or.inl ⟨_, rfl, hbound hlen, hle, hlt, Or.inr ⟨rfl, _, _, r.2, hload⟩⟩
      · exact Or.inl ⟨_, rfl, hbound hlen, hle, hlt, Or.inl ⟨rfl, rfl⟩⟩
  · by_cases hzero : len = 0
    · rw [if_pos hzero]
      exact Or.inr ⟨rfl, rfl, Or.inl ⟨_, rfl⟩⟩
    · rw [if_neg hzero, if_pos (by omega)]
      exact Or.inr ⟨rfl, rfl, Or.inl ⟨_, rfl⟩⟩

/-- A name is passed, its member is loaded, or the loop over the names is left. -/
theorem alacarteStep_cases (c : Config σ) (hix : ix.Ok) (hp : p = ix.nameAt i) :
    (i < ix.nsyms.toNat ∧ undefinedSym (L.tab c.linker).tab (ix.name i) = false ∧
      alacarteStep L file c ix i p bound =
        { c with pc := .visit ix (i + 1) (ix.nameAt (i + 1)) bound }) ∨
    (i < ix.nsyms.toNat ∧ undefinedSym (L.tab c.linker).tab (ix.name i) = true ∧
      ((∃ pos, alacarteStep L file c ix i p bound = { c with pos, pc := .ret (-1) (some ix) }) ∨
        ∃ pos linker pos', L.load c.linker (ix.member i) pos = some (linker, pos') ∧
          alacarteStep L file c ix i p bound =
            ⟨.visit ix (i + 1) (ix.nameAt (i + 1)) (bound + 1), linker, pos',
              ix.member i :: c.loaded⟩)) ∨
    (ix.nsyms.toNat ≤ i ∧ bound ≠ 0 ∧
      alacarteStep L file c ix i p bound = { c with pc := .visit ix 0 ix.arNames 0 }) ∨
    (ix.nsyms.toNat ≤ i ∧ bound = 0 ∧
      alacarteStep L file c ix i p bound = { c with pc := .ret 0 (some ix) }) := by
  subst hp
  unfold alacarteStep
  by_cases hi : i < ix.nsyms.toNat
  · rw [if_pos hi, if_pos (hix.holds i hi)]
    by_cases hundef : undefinedSym (L.tab c.linker).tab (ix.name i) = true
    · right; left
      have hlen : (readArHeader file c.pos ((ix.offset i).setWidth 32)).1 = headerSize ∨
          (readArHeader file c.pos ((ix.offset i).setWidth 32)).1 ≤ 0 := readArHeader_len _ _
      rw [Index.name] at hundef
      refine ⟨hi, hundef, ?_⟩
      dsimp only
      rw [if_pos hundef]
      split
      · exact Or.inl ⟨_, rfl⟩
      · rename_i hheader
        rw [not_or] at hheader
        rw [hlen.resolve_right hheader.1]
        cases hload : L.load c.linker (ix.offset i + BitVec.ofInt 64 headerSize)
            (readArHeader file c.pos ((ix.offset i).setWidth 32)).2.2 with
        | none => exact Or.inl ⟨_, rfl⟩
        | some r => exact Or.inr ⟨_, r.1, r.2, hload, rfl⟩
    · left
      refine ⟨hi, Bool.eq_false_of_not_eq_true hundef, ?_⟩
      exact if_neg hundef
  · rw [if_neg hi]
    by_cases hbound : bound ≠ 0
    · right; right; left
      exact ⟨Nat.le_of_not_lt hi, hbound, if_pos hbound⟩
    · right; right; right
      exact ⟨Nat.le_of_not_lt hi, not_not.1 hbound, if_neg hbound⟩

end Turns

/-! ## What every turn keeps -/

section Runs

variable {σ : Type} (L : Loader σ) (file : List UInt8) (alacarte : Bool)

/-- What holds at a place of the loops. -/
def Pc.Inv (tab : SymTab) (loaded : List (BitVec 64)) : Pc → Prop
  | .header fileOffset => fileOffset.toNat < 2 ^ 31 ∧ (alacarte = true → loaded = [])
  | .visit ix i p bound => ix.Ok ∧ p = ix.nameAt i ∧
      (bound = 0 → ∀ j < i, ¬Undefined tab (ix.name j))
  | .ret code index => ∀ ix, code = 0 → index = some ix →
      ∀ j < ix.nsyms.toNat, ¬Undefined tab (ix.name j)
  | .stray => False

structure RunInv (c : Config σ) : Prop where
  tab : TabInv (L.tab c.linker).tab
  hash : ∃ hs, (L.tab c.linker).tab.hash = some hs
  nodup : alacarte = true → c.loaded.Nodup
  pc : c.pc.Inv alacarte (L.tab c.linker).tab c.loaded

variable {L file alacarte} {c : Config σ} {s : σ}

theorem runInv_start (htab : TabInv (L.tab s).tab) (hhash : ∃ hs, (L.tab s).tab.hash = some hs) :
    RunInv L alacarte (start s) :=
  ⟨htab, hhash, fun _ => List.nodup_nil, by decide, fun _ => rfl⟩

/-- What a member that is loaded keeps. -/
theorem Loader.load_keeps {s s' : σ} {off : BitVec 64} {pos pos' : Nat}
    (htab : TabInv (L.tab s).tab) (hhash : ∃ hs, (L.tab s).tab.hash = some hs)
    (h : L.load s off pos = some (s', pos')) :
    TabInv (L.tab s').tab ∧ (∃ hs, (L.tab s').tab.hash = some hs) ∧
      (∀ name, Defined (L.tab s).tab name → Defined (L.tab s').tab name) ∧
      ∀ name, ((L.tab s).tab.lookup name).isSome = true →
        ((L.tab s').tab.lookup name).isSome = true := by
  obtain ⟨defs, hrun⟩ := L.calls s off pos s' pos' h
  obtain ⟨hs, hhash⟩ := hhash
  exact runCalls_keeps defs htab hhash hrun

theorem RunInv.step (h : RunInv L alacarte c) (hok : StepOk L file alacarte c) :
    RunInv L alacarte (step L file alacarte c) := by
  obtain ⟨htab, hhash, hnodup, hinv⟩ := h
  unfold Archive.step
  cases hpc : c.pc with
  | header off =>
    rw [hpc] at hinv
    obtain ⟨hoff, hloaded⟩ := hinv
    rcases archiveStep_cases hpc hoff hok with
      ⟨next, hnext, -, -, hlt, hsame | ⟨hmode, start, pos, pos', hload⟩⟩ |
        ⟨hlinker, hsame, hcases⟩
    · obtain ⟨hlinker, hsame⟩ := hsame
      refine ⟨by rwa [hlinker], by rwa [hlinker], by rwa [hsame], ?_⟩
      rw [hnext, hsame]
      exact ⟨hlt, hloaded⟩
    · obtain ⟨htab', hhash', -⟩ := Loader.load_keeps htab hhash hload
      have hfalse : alacarte ≠ true := fun htrue =>
        Bool.false_ne_true (hmode.symm.trans htrue)
      refine ⟨htab', hhash', fun htrue => absurd htrue hfalse, ?_⟩
      rw [hnext]
      exact ⟨hlt, fun htrue => absurd htrue hfalse⟩
    · refine ⟨by rwa [hlinker], by rwa [hlinker], by rwa [hsame], ?_⟩
      rcases hcases with ⟨code, hret⟩ | ⟨ix, hix, hvisit⟩
      · rw [hret]
        intro ix _ hsome
        cases hsome
      · rw [hvisit]
        exact ⟨hix, rfl, fun _ j hj => absurd hj (Nat.not_lt_zero j)⟩
  | visit ix i p bound =>
    rw [hpc] at hinv
    obtain ⟨hix, hp, hpassed⟩ := hinv
    rw [StepOk, hpc] at hok
    have hundef : undefinedSym (L.tab c.linker).tab (ix.name i) = true ↔
        Undefined (L.tab c.linker).tab (ix.name i) :=
      hhash.elim fun _ hsome => undefinedSym_iff htab hsome
    rcases alacarteStep_cases c hix hp with
      ⟨hi, hdef, heq⟩ | ⟨hi, hu, ⟨pos, heq⟩ | ⟨pos, linker, pos', hload, heq⟩⟩ |
        ⟨hi, hbound, heq⟩ | ⟨hi, hbound, heq⟩
    · dsimp only
      rw [heq]
      refine ⟨htab, hhash, hnodup, hix, rfl, fun hzero j hj => ?_⟩
      rcases Nat.lt_succ_iff_lt_or_eq.1 hj with hlt | rfl
      · exact hpassed hzero j hlt
      · rw [← hundef, hdef]
        exact Bool.false_ne_true
    · dsimp only
      rw [heq]
      exact ⟨htab, hhash, hnodup, fun _ hcode => absurd hcode (by decide)⟩
    · dsimp only
      rw [heq]
      obtain ⟨htab', hhash', -⟩ := Loader.load_keeps htab hhash hload
      refine ⟨htab', hhash', fun hmode => ?_, hix, rfl,
        fun hzero => absurd hzero (Nat.succ_ne_zero _)⟩
      exact List.nodup_cons.2 ⟨fun hmem => hok i hi hmem (hundef.1 hu), hnodup hmode⟩
    · dsimp only
      rw [heq]
      exact ⟨htab, hhash, hnodup, hix, rfl, fun _ j hj => absurd hj (Nat.not_lt_zero j)⟩
    · dsimp only
      rw [heq]
      refine ⟨htab, hhash, hnodup, fun ix' _ hsome j hj => ?_⟩
      cases hsome
      exact hpassed hbound j (Nat.lt_of_lt_of_le hj hi)
  | ret code index =>
    rw [hpc] at hinv
    exact ⟨htab, hhash, hnodup, by rw [hpc]; exact hinv⟩
  | stray =>
    rw [hpc] at hinv
    exact hinv.elim

theorem run_succ (n : Nat) : run L file alacarte s (n + 1) =
    step L file alacarte (run L file alacarte s n) :=
  Function.iterate_succ_apply' _ _ _

theorem runInv_run (htab : TabInv (L.tab s).tab)
    (hhash : ∃ hs, (L.tab s).tab.hash = some hs)
    (hok : ∀ n, StepOk L file alacarte (run L file alacarte s n)) (n : Nat) :
    RunInv L alacarte (run L file alacarte s n) := by
  induction n with
  | zero => exact runInv_start htab hhash
  | succ n ih =>
    rw [run_succ]
    exact ih.step (hok n)

/-! ## The end -/

/-- What gets smaller as long as a run stays in a set of states does not stay there. -/
theorem exists_not_of_lt {α : Type} (P : α → Prop) (μ : α → Nat) (f : Nat → α)
    (h : ∀ n, P (f n) → P (f (n + 1)) → μ (f (n + 1)) < μ (f n)) : ∃ n, ¬P (f n) := by
  by_contra hall
  have hall : ∀ n, P (f n) := fun n => not_not.1 fun hn => hall ⟨n, hn⟩
  exact not_strictAnti_of_wellFoundedLT (fun n => μ (f n))
    (strictAnti_nat_of_succ_lt fun n => h n (hall n) (hall (n + 1)))

/-- The offset of the header that is read. -/
def Pc.offset : Pc → Nat
  | .header fileOffset => fileOffset.toNat
  | .visit .. => 0
  | .ret .. => 0
  | .stray => 0

/-- How many names of the index are not defined. -/
noncomputable def Index.missing (ix : Index) (tab : SymTab) : Nat :=
  {j | j < ix.nsyms.toNat ∧ ¬Defined tab (ix.name j)}.ncard

/-- What every turn of the loops over the names makes smaller. -/
noncomputable def Pc.measure (tab : SymTab) : Pc → Nat
  | .header _ => 0
  | .visit ix i _ bound => (2 * ix.missing tab + min bound 1) * (ix.nsyms.toNat + 1) +
      (ix.nsyms.toNat - i)
  | .ret .. => 0
  | .stray => 0

theorem Index.missing_lt {ix : Index} {t t' : SymTab} {i : Nat} (hi : i < ix.nsyms.toNat)
    (hbefore : ¬Defined t (ix.name i)) (hafter : Defined t' (ix.name i))
    (hkeeps : ∀ name, Defined t name → Defined t' name) : ix.missing t' < ix.missing t := by
  refine Set.ncard_lt_ncard ⟨?_, ?_⟩
    ((Set.finite_lt_nat ix.nsyms.toNat).subset fun j => And.left)
  · rintro j ⟨hj, hnot⟩
    exact ⟨hj, fun hdef => hnot (hkeeps _ hdef)⟩
  · intro hsub
    have hmem := hsub (show i ∈ {j | _} from ⟨hi, hbefore⟩)
    exact hmem.2 hafter

theorem measure_lt {a b n i j : Nat} (hab : a < b) (hi : i ≤ n) :
    a * (n + 1) + i < b * (n + 1) + j := by
  have hmul := Nat.mul_le_mul_right (n + 1) hab
  rw [Nat.succ_mul] at hmul
  omega

/-- The headers lie behind one another. -/
theorem exists_not_header (htab : TabInv (L.tab s).tab)
    (hhash : ∃ hs, (L.tab s).tab.hash = some hs)
    (hok : ∀ n, StepOk L file alacarte (run L file alacarte s n)) :
    ∃ n, ∀ off, (run L file alacarte s n).pc ≠ .header off := by
  have hinv := runInv_run htab hhash hok
  obtain ⟨n, hn⟩ := exists_not_of_lt (fun c : Config σ => ∃ off, c.pc = .header off)
    (fun c => file.length - c.pc.offset) (run L file alacarte s) (by
      rintro n ⟨off, hpc⟩ ⟨off', hpc'⟩
      have hoff := (hinv n).pc
      rw [hpc] at hoff
      rw [run_succ, Archive.step, hpc] at hpc' ⊢
      dsimp only at hpc' ⊢
      rcases archiveStep_cases hpc hoff.1 (hok n) with
        ⟨next, hnext, hle, hlt, -⟩ | ⟨-, -, ⟨code, hret⟩ | ⟨ix, -, hvisit⟩⟩
      · rw [hnext, Pc.offset, Pc.offset]
        have hpos : 0 < headerSize := by decide
        omega
      · rw [hret] at hpc'
        cases hpc'
      · rw [hvisit] at hpc'
        cases hpc')
  exact ⟨n, fun off hpc => hn ⟨off, hpc⟩⟩

/-- A turn of the loops over the names stays there and makes the measure smaller, or returns. -/
theorem step_visit {ix : Index} {i p bound : Nat} (h : RunInv L alacarte c)
    (hpc : c.pc = .visit ix i p bound) (hok : StepOk L file alacarte (step L file alacarte c)) :
    (∃ i p bound, (step L file alacarte c).pc = .visit ix i p bound ∧
      (step L file alacarte c).pc.measure (L.tab (step L file alacarte c).linker).tab <
        c.pc.measure (L.tab c.linker).tab) ∨
    ∃ code index, (step L file alacarte c).pc = .ret code index := by
  obtain ⟨htab, hhash, -, hinv⟩ := h
  rw [hpc] at hinv ⊢
  obtain ⟨hix, hp, -⟩ := hinv
  have hundef : undefinedSym (L.tab c.linker).tab (ix.name i) = true ↔
      Undefined (L.tab c.linker).tab (ix.name i) :=
    hhash.elim fun _ hsome => undefinedSym_iff htab hsome
  unfold Archive.step at hok ⊢
  rw [hpc] at hok ⊢
  dsimp only at hok ⊢
  rcases alacarteStep_cases c hix hp with
    ⟨hi, -, heq⟩ | ⟨hi, hu, ⟨pos, heq⟩ | ⟨pos, linker, pos', hload, heq⟩⟩ |
      ⟨hi, hbound, heq⟩ | ⟨hi, hbound, heq⟩
  · rw [heq]
    refine Or.inl ⟨_, _, _, rfl, ?_⟩
    simp only [Pc.measure]
    omega
  · rw [heq]
    exact Or.inr ⟨_, _, rfl⟩
  · rw [heq] at hok ⊢
    refine Or.inl ⟨_, _, _, rfl, ?_⟩
    obtain ⟨htab', hhash', hkeeps, hfound⟩ := Loader.load_keeps htab hhash hload
    have hbefore := hundef.1 hu
    obtain ⟨k, sym, hk, -⟩ := hbefore
    have hafter : Defined (L.tab linker).tab (ix.name i) :=
      defined_of_not_undefined htab' (hfound _ (by rw [hk]; rfl)) (hok i hi List.mem_cons_self)
    have hlt := Index.missing_lt hi (fun hdef => hdef.not_undefined (hundef.1 hu)) hafter hkeeps
    simp only [Pc.measure]
    exact measure_lt (by omega) (Nat.sub_le _ _)
  · rw [heq]
    refine Or.inl ⟨_, _, _, rfl, ?_⟩
    simp only [Pc.measure]
    exact measure_lt (by omega) (Nat.sub_le _ _)
  · rw [heq]
    exact Or.inr ⟨_, _, rfl⟩

theorem exists_ret (htab : TabInv (L.tab s).tab)
    (hhash : ∃ hs, (L.tab s).tab.hash = some hs)
    (hok : ∀ n, StepOk L file alacarte (run L file alacarte s n)) :
    ∃ n code index, (run L file alacarte s n).pc = .ret code index := by
  have hinv := runInv_run htab hhash hok
  obtain ⟨m, hm⟩ := exists_not_header htab hhash hok
  cases hpc : (run L file alacarte s m).pc with
  | header off => exact absurd hpc (hm off)
  | stray =>
    have hstray := (hinv m).pc
    rw [hpc] at hstray
    exact hstray.elim
  | ret code index => exact ⟨m, code, index, hpc⟩
  | visit ix i p bound =>
    by_contra hnone
    have hnone : ∀ n code index, (run L file alacarte s n).pc ≠ .ret code index :=
      fun n code index hret => hnone ⟨n, code, index, hret⟩
    -- the loops over the names would never be left
    have hstep : ∀ n ix i p bound, (run L file alacarte s n).pc = .visit ix i p bound →
        ∃ i p bound, (run L file alacarte s (n + 1)).pc = .visit ix i p bound ∧
          (run L file alacarte s (n + 1)).pc.measure
              (L.tab (run L file alacarte s (n + 1)).linker).tab <
            (run L file alacarte s n).pc.measure
              (L.tab (run L file alacarte s n).linker).tab := by
      intro n ix i p bound hvisit
      have hok' := hok (n + 1)
      have hret := hnone (n + 1)
      rw [run_succ] at hok' hret ⊢
      rcases step_visit (hinv n) hvisit hok' with hnext | ⟨code, index, hnext⟩
      · exact hnext
      · exact absurd hnext (hret code index)
    have hvisit : ∀ n, ∃ i p bound,
        (run L file alacarte s (m + n)).pc = .visit ix i p bound := by
      intro n
      induction n with
      | zero => exact ⟨i, p, bound, hpc⟩
      | succ n ih =>
        obtain ⟨i, p, bound, hvisit⟩ := ih
        obtain ⟨i', p', bound', hvisit', -⟩ := hstep (m + n) ix i p bound hvisit
        exact ⟨i', p', bound', hvisit'⟩
    obtain ⟨n, hn⟩ := exists_not_of_lt (fun _ : Config σ => True)
      (fun c => c.pc.measure (L.tab c.linker).tab) (fun n => run L file alacarte s (m + n)) (by
        intro n _ _
        obtain ⟨i, p, bound, hvisit⟩ := hvisit n
        obtain ⟨-, -, -, -, hlt⟩ := hstep (m + n) ix i p bound hvisit
        exact hlt)
    exact hn trivial

/-- The loops end. In the mode where single members are loaded, none is loaded twice, and where no
error is returned, no symbol that an entry of the index names is undefined without the member of the
entry having been loaded. -/
theorem loadArchive_correct (htab : TabReachable L.ctx (L.tab s).tab)
    (hok : ∀ n, StepOk L file alacarte (run L file alacarte s n)) :
    (∃ n code index, (run L file alacarte s n).pc = .ret code index) ∧
    (∀ n, alacarte = true → (run L file alacarte s n).loaded.Nodup) ∧
    ∀ n ix, (run L file alacarte s n).pc = .ret 0 (some ix) → ∀ i < ix.nsyms.toNat,
      Undefined (L.tab (run L file alacarte s n).linker).tab (ix.name i) →
        ix.member i ∈ (run L file alacarte s n).loaded := by
  obtain ⟨hinv, hhash⟩ := htab.inv
  have hrun := runInv_run hinv hhash hok
  refine ⟨exists_ret hinv hhash hok, fun n => (hrun n).nodup, fun n ix hpc i hi hundef => ?_⟩
  have hret := (hrun n).pc
  rw [hpc] at hret
  exact absurd hundef (hret ix rfl rfl i hi)

end Runs

/-! ## Two archives -/

instance (t : SymTab) (name : CString) : Decidable (Undefined t name) :=
  decidable_of_iff
    ((((t.lookup name).bind fun k => t.syms[k]?).any fun sym =>
      decide (sym.stShndx = shnUndef)) = true)
    (by
      unfold Undefined
      cases t.lookup name with
      | none => simp
      | some k => simp [Option.any_eq_true])

theorem zero_not_mem_nameF : (0 : UInt8) ∉ [102] := by decide

/-- `f` -/
def nameF : CString := ⟨[102], zero_not_mem_nameF⟩

/-- A global symbol `f`. -/
def symF (shndx : BitVec 16) : SymDef := ⟨0, 0, stInfoOf stbGlobal 0, 0, shndx, nameF⟩

/-- A linker that refers to `f`. -/
def refersF : LinkState := ⟨(putElfSym newSymtab (symF shnUndef)).1, false, []⟩

/-- Every member is an object with these symbols. -/
def objectOf (defs : List SymDef) : Loader LinkState where
  ctx := ⟨4, false⟩
  tab := id
  load s _ pos := (runCalls ⟨4, false⟩ s (defs.map .set)).map fun s => (s, pos)
  calls s _ _ s' _ h := by
    obtain ⟨st, hrun, heq⟩ := Option.map_eq_some_iff.1 h
    obtain ⟨rfl, -⟩ := Prod.mk.inj heq
    exact ⟨defs, hrun⟩

/-- A header. -/
def headerOf (name size : List UInt8) : List UInt8 :=
  name ++ List.replicate (48 - name.length) 32 ++ size ++ List.replicate (10 - size.length) 32 ++
    arfmag

/-- `!<arch>`, and a line end. -/
def armag : List UInt8 := [33, 60, 97, 114, 99, 104, 62, 10]

/-- An archive with an index, where `f` is in the only member. -/
def archiveF : List UInt8 :=
  armag ++ headerOf [47] [49, 48] ++ [0, 0, 0, 1, 0, 0, 0, 78, 102, 0] ++ headerOf [102, 47] [48]

/-- An archive whose member has the size -60. -/
def archiveBack : List UInt8 := armag ++ headerOf [102, 47] [45, 54, 48]

/-- The index of the archive. -/
def indexF : Index := ⟨[0, 0, 0, 1, 0, 0, 0, 78, 102, 0], 4⟩

/-- What was returned stays. -/
theorem run_ret {σ : Type} {L : Loader σ} {file : List UInt8} {alacarte : Bool} {s : σ} {k : Nat}
    {code : Int} {index : Option Index} (h : (run L file alacarte s k).pc = .ret code index)
    (n : Nat) : run L file alacarte s (k + n) = run L file alacarte s k := by
  induction n with
  | zero => rfl
  | succ n ih => rw [← Nat.add_assoc, run_succ, ih, step, h]

theorem stepOk_archiveF (n : Nat) :
    StepOk (objectOf [symF 1]) archiveF true
      (run (objectOf [symF 1]) archiveF true refersF n) := by
  have hlast : (run (objectOf [symF 1]) archiveF true refersF 5).pc =
      .ret 0 (some indexF) := by decide
  rcases Nat.lt_or_ge n 5 with hlt | hge
  · interval_cases n
    · intro _
      refine ⟨fun hnone => absurd (hnone rfl) (by decide), fun entrySize _ hentry _ _ => ?_⟩
      have hfour : some 4 = some entrySize := hentry
      cases hfour
      exact ⟨by decide, by decide⟩
    all_goals
      show ∀ j < indexF.nsyms.toNat, _
      decide
  · obtain ⟨k, rfl⟩ := Nat.exists_eq_add_of_le hge
    rw [run_ret hlast k, StepOk, hlast]
    trivial

theorem loadArchive_correct_archiveF :
    (∃ n code index, (run (objectOf [symF 1]) archiveF true refersF n).pc = .ret code index) ∧
    ∀ n, (run (objectOf [symF 1]) archiveF true refersF n).loaded.Nodup := by
  have htab : TabReachable ⟨4, false⟩ refersF.tab :=
    @TabReachable.call _ ⟨newSymtab, false, []⟩ refersF .new (.put (symF shnUndef)) rfl
  obtain ⟨hret, hnodup, -⟩ := loadArchive_correct htab stepOk_archiveF
  exact ⟨hret, fun n => hnodup n rfl⟩

/-- The header is read again and again. -/
theorem run_archiveBack (alacarte : Bool) (n : Nat) :
    ∃ pos, (pos = 8 ∨ pos = 68) ∧
      run (objectOf []) archiveBack alacarte refersF n = ⟨.header 8, refersF, pos, []⟩ := by
  induction n with
  | zero => exact ⟨8, Or.inl rfl, rfl⟩
  | succ n ih =>
    obtain ⟨pos, hpos, hrun⟩ := ih
    refine ⟨68, Or.inr rfl, ?_⟩
    rw [run_succ, hrun]
    have hpc : (step (objectOf []) archiveBack alacarte ⟨.header 8, refersF, pos, []⟩).pc =
        .header 8 := by
      rcases hpos with rfl | rfl <;> cases alacarte <;> decide
    rw [← hpc]
    rcases hpos with rfl | rfl <;> cases alacarte <;> rfl

/-- A size of -60 leads back to the header, and a member that does not define the symbol of the
index is loaded a second time. -/
theorem run_archiveBack_endless :
    (∀ alacarte n code index,
      (run (objectOf []) archiveBack alacarte refersF n).pc ≠ .ret code index) ∧
    ¬(run (objectOf []) archiveF true refersF 4).loaded.Nodup := by
  refine ⟨fun alacarte n code index hret => ?_, by decide⟩
  obtain ⟨pos, -, hrun⟩ := run_archiveBack alacarte n
  rw [hrun] at hret
  cases hret

end TccRiscv64.Link.Archive
