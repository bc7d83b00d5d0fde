import TccRiscv64.Elf.Calls

set_option autoImplicit false

/-! # The end of a file

While a file is compiled its symbols are put behind those of the files before it, without a hash
table. `tccelf_end_file` then cuts the table back and puts them in once more, reading them from the
memory that it writes to. -/

namespace TccRiscv64.Elf

/-! ## The tables in memory -/

/-- The data of a symbol table and of its string table, and how much of them is in use. -/
structure SymMem where
  syms : List Sym
  nbSyms : Nat
  strtab : List UInt8
  strOffset : Nat
  hash : Option Hash

/-- The part that is in use. -/
def SymMem.view (m : SymMem) : SymTab :=
  { syms := m.syms.take m.nbSyms, strtab := m.strtab.take m.strOffset, hash := m.hash }

/-- The part that is in use is replaced; what grows covers the memory behind it. -/
def SymMem.write (m : SymMem) (t : SymTab) : SymMem where
  syms := t.syms ++ m.syms.drop t.syms.length
  nbSyms := t.syms.length
  strtab := t.strtab ++ m.strtab.drop t.strtab.length
  strOffset := t.strtab.length
  hash := t.hash

/-- The string at an offset of a section. -/
def cstrAt (strtab : List UInt8) (offset : Nat) : CString where
  bytes := strAt strtab offset
  noZero hmem := absurd (List.mem_takeWhile_imp hmem) (by decide)

/-! ## `tccelf_begin_file` and the file -/

/-- What a file does to the symbol table: it adds symbols, and changes them, but for their names. -/
inductive FileOp
  | put (d : SymDef)
  | update (k : Nat) (sym : Sym)

/-- The symbols of the files before, of which there are `first`, are left alone. -/
def FileOp.run (first : Nat) (t : SymTab) : FileOp → SymTab
  | .put d => (putElfSym t d).1
  | .update k sym =>
    { t with
      syms := t.syms.modify (first + k) fun old => { sym with stName := old.stName } }

/-- `tccelf_begin_file`: there is no hash table. -/
def beginFile (t : SymTab) : SymTab := { t with hash := none }

/-- A file. -/
def compileFile (t : SymTab) (ops : List FileOp) : SymTab :=
  ops.foldl (FileOp.run t.syms.length) (beginFile t)

/-! ## `tccelf_end_file` -/

/-- `STT_NOTYPE` -/
def sttNotype : BitVec 4 := 0

/-- Undefined symbols are made global; `isObj` says that an object file is written. -/
def endSym (isObj : Bool) (sym : Sym) : Sym :=
  if sym.stShndx = shnUndef then
    let symBind := stBind sym.stInfo
    let symType := stType sym.stInfo
    let symBind := if symBind = stbLocal then stbGlobal else symBind
    let symType := if symBind = stbGlobal ∧ isObj = true then sttNotype else symType
    { sym with stInfo := stInfoOf symBind symType }
  else sym

/-- What a symbol is put in with once more, under the name that its string table gives it. -/
def Sym.toDef (strtab : List UInt8) (sym : Sym) : SymDef :=
  { value := sym.stValue, size := sym.stSize, info := sym.stInfo, other := sym.stOther
    shndx := sym.stShndx, name := cstrAt strtab sym.stName }

/-- The loop of `tccelf_end_file`: the memory, what the linker has noted, and the table `tr`. -/
structure EndState where
  mem : SymMem
  newUndefSym : Bool
  definedTwice : List CString
  tr : List Nat

/-- The symbol number `i` of the file is put in once more. -/
def endStep (ctx : Ctx) (isObj : Bool) (firstSym : Nat) (s : EndState) (i : Nat) :
    Option EndState :=
  match s.mem.syms[firstSym + i]? with
  | none => none
  | some sym =>
    let sym := endSym isObj sym
    let mem := { s.mem with syms := s.mem.syms.set (firstSym + i) sym }
    (setElfSym ctx ⟨mem.view, s.newUndefSym, s.definedTwice⟩ (sym.toDef mem.strtab)).map
      fun (st, k) => ⟨mem.write st.tab, st.newUndefSym, st.definedTwice, s.tr ++ [k]⟩

/-- The table is cut back to the files before, and the symbols of the file are put in once more. The
memory behind the table may hold anything. -/
def endLoop (ctx : Ctx) (isObj : Bool) (before file : SymTab) (slackSyms : List Sym)
    (slackStr : List UInt8) : Option EndState :=
  let mem : SymMem :=
    { syms := file.syms ++ slackSyms, nbSyms := before.syms.length
      strtab := file.strtab ++ slackStr, strOffset := before.strtab.length, hash := before.hash }
  (List.range' 0 (file.syms.length - before.syms.length)).foldlM
    (endStep ctx isObj before.syms.length) ⟨mem, false, [], []⟩

/-- Symbols are put in from a copy, with the numbers that they get. -/
def reinsert (ctx : Ctx) (st : LinkState) (defs : List SymDef) : Option (LinkState × List Nat) :=
  defs.foldlM (fun (st, tr) d => (setElfSym ctx st d).map fun (st, k) => (st, tr ++ [k])) (st, [])

/-- The symbols of a file, as they are put in once more. -/
def fileDefs (isObj : Bool) (before file : SymTab) : List SymDef :=
  (file.syms.drop before.syms.length).map fun sym => (endSym isObj sym).toDef file.strtab

/-- A relocation, by its symbol and its type. -/
structure Reloc where
  sym : Nat
  type : BitVec 32
  deriving DecidableEq

/-- A section of relocations against the symbol table, and how many of them there were when the file
began. -/
structure RelSection where
  relocs : List Reloc
  shOffset : Nat

/-- The relocations of the file are made to refer to the new numbers. -/
def updateRelocs (firstSym : Nat) (tr : List Nat) (sr : RelSection) : RelSection :=
  { sr with
    relocs := sr.relocs.take sr.shOffset ++ (sr.relocs.drop sr.shOffset).map fun rel =>
      if rel.sym < firstSym then rel else { rel with sym := tr.getD (rel.sym - firstSym) 0 } }

/-! ## The order of symbols and strings -/

/-- The strings of some symbols, one behind the other from an offset on. -/
def Layout : Nat → List Sym → List UInt8 → Prop
  | _, [], bytes => bytes = []
  | offset, sym :: syms, bytes =>
    sym.stName = 0 ∧ Layout offset syms bytes ∨
      ∃ (name : CString) (rest : List UInt8), sym.stName = offset ∧
        bytes = name.bytes ++ 0 :: rest ∧ Layout (offset + (name.bytes.length + 1)) syms rest

section Order

variable {offset : Nat} {syms : List Sym} {bytes : List UInt8}

theorem Layout.append (h : Layout offset syms bytes) (name : CString) {sym : Sym}
    (hname : sym.stName = offset + bytes.length) :
    Layout offset (syms ++ [sym]) (bytes ++ (name.bytes ++ [0])) := by
  induction syms generalizing offset bytes with
  | nil =>
      obtain rfl : bytes = [] := h
      exact .inr ⟨name, [], hname, rfl, rfl⟩
  | cons sym' syms ih =>
      rcases h with ⟨hnone, h⟩ | ⟨name', rest, hname', rfl, h⟩
      · exact .inl ⟨hnone, ih h hname⟩
      · refine .inr ⟨name', rest ++ (name.bytes ++ [0]), hname', by simp, ih h ?_⟩
        rw [hname, List.length_append, List.length_cons]
        omega

theorem Layout.append_unnamed (h : Layout offset syms bytes) {sym : Sym} (hname : sym.stName = 0) :
    Layout offset (syms ++ [sym]) bytes := by
  induction syms generalizing offset bytes with
  | nil => exact .inl ⟨hname, h⟩
  | cons sym' syms ih =>
      rcases h with ⟨hnone, h⟩ | ⟨name', rest, hname', rfl, h⟩
      · exact .inl ⟨hnone, ih h⟩
      · exact .inr ⟨name', rest, hname', rfl, ih h⟩

/-- Only the names of the symbols count. -/
theorem Layout.congr {syms' : List Sym} (h : Layout offset syms bytes)
    (hnames : syms'.map Sym.stName = syms.map Sym.stName) : Layout offset syms' bytes := by
  induction syms generalizing offset bytes syms' with
  | nil =>
      obtain rfl : syms' = [] := by simpa using hnames
      exact h
  | cons sym syms ih =>
      cases syms' with
      | nil => exact absurd hnames (by simp)
      | cons sym' syms' =>
          rw [List.map_cons, List.map_cons, List.cons.injEq] at hnames
          rcases h with ⟨hnone, h⟩ | ⟨name, rest, hname, rfl, h⟩
          · exact .inl ⟨hnames.1.trans hnone, ih h hnames.2⟩
          · exact .inr ⟨name, rest, hnames.1.trans hname, rfl, ih h hnames.2⟩

/-- The symbols of the file lie behind those before, and so do their strings. -/
structure FileInv (before file : SymTab) : Prop where
  hash : file.hash = none
  layout : ∃ syms bytes, file.syms = before.syms ++ syms ∧ file.strtab = before.strtab ++ bytes ∧
    Layout before.strtab.length syms bytes

theorem fileInv_begin (t : SymTab) : FileInv t (beginFile t) :=
  ⟨rfl, [], [], (List.append_nil _).symm, (List.append_nil _).symm, rfl⟩

theorem FileInv.run {before file : SymTab} (h : FileInv before file) (op : FileOp) :
    FileInv before (op.run before.syms.length file) := by
  obtain ⟨syms, bytes, hsyms, hstrtab, hlayout⟩ := h.layout
  cases op with
  | put d =>
      refine ⟨by simp [FileOp.run, putElfSym, h.hash], ?_⟩
      show ∃ syms' bytes', (addSym file d).syms = _ ∧ (addSym file d).strtab = _ ∧ _
      unfold addSym
      by_cases hempty : d.name.bytes = []
      · rw [if_pos hempty]
        let sym : Sym := ⟨0, d.value, d.size, d.info, d.other, d.shndx⟩
        refine ⟨syms ++ [sym], bytes, ?_, hstrtab, hlayout.append_unnamed rfl⟩
        dsimp only
        rw [hsyms, List.append_assoc]
      · rw [if_neg hempty]
        let sym : Sym := ⟨file.strtab.length, d.value, d.size, d.info, d.other, d.shndx⟩
        refine ⟨syms ++ [sym], bytes ++ (d.name.bytes ++ [0]), ?_, ?_, hlayout.append d.name ?_⟩
        · dsimp only
          rw [hsyms, List.append_assoc]
          rfl
        · show file.strtab ++ (d.name.bytes ++ [0]) = _
          rw [hstrtab, List.append_assoc]
        · show file.strtab.length = _
          rw [hstrtab, List.length_append]
  | update k sym =>
      refine ⟨h.hash, syms.modify k fun old => { sym with stName := old.stName }, bytes, ?_, hstrtab,
        hlayout.congr ?_⟩
      · show file.syms.modify _ _ = _
        rw [hsyms]
        refine List.ext_getElem? fun j => ?_
        rw [List.getElem?_modify]
        by_cases hj : j < before.syms.length
        · have hne : before.syms.length + k ≠ j := by omega
          rw [List.getElem?_append_left hj, List.getElem?_append_left hj]
          simp [hne]
        · have hle : before.syms.length ≤ j := Nat.le_of_not_lt hj
          rw [List.getElem?_append_right hle, List.getElem?_append_right hle,
            List.getElem?_modify]
          have hiff : before.syms.length + k = j ↔ k = j - before.syms.length := by omega
          simp only [hiff]
      · refine List.ext_getElem? fun j => ?_
        rw [List.getElem?_map, List.getElem?_map, List.getElem?_modify]
        cases syms[j]? with
        | none => rfl
        | some old =>
            by_cases hk : k = j
            · simp [hk]
            · simp [hk]

theorem fileInv_compileFile (t : SymTab) (ops : List FileOp) : FileInv t (compileFile t ops) := by
  have hrun : ∀ file, FileInv t file → FileInv t (ops.foldl (FileOp.run t.syms.length) file) := by
    induction ops with
    | nil => exact fun file h => h
    | cons op ops ih => exact fun file h => ih _ (h.run op)
  exact hrun _ (fileInv_begin t)

end Order

/-! ## Reading behind the writer -/

section Loop

variable {ctx : Ctx} {isObj : Bool} {firstSym : Nat} {m : SymMem} {t : SymTab}

theorem view_write : (m.write t).view = t := by
  unfold SymMem.view SymMem.write
  dsimp only
  rw [List.take_left, List.take_left]

/-- Memory behind what is written stays. -/
theorem write_syms_drop {i : Nat} (hi : t.syms.length ≤ i) :
    (m.write t).syms.drop i = m.syms.drop i := by
  unfold SymMem.write
  dsimp only
  rw [List.drop_append, List.drop_eq_nil_of_le hi, List.nil_append, List.drop_drop,
    Nat.add_sub_of_le hi]

theorem write_strtab_drop {i : Nat} (hi : t.strtab.length ≤ i) :
    (m.write t).strtab.drop i = m.strtab.drop i := by
  unfold SymMem.write
  dsimp only
  rw [List.drop_append, List.drop_eq_nil_of_le hi, List.nil_append, List.drop_drop,
    Nat.add_sub_of_le hi]

/-- A call of `set_elf_sym` writes one symbol and one name at most. -/
theorem SetStep.length_le {st st' : LinkState} {d : SymDef} {k : Nat}
    (hstep : SetStep ctx st d st' k) :
    st'.tab.syms.length ≤ st.tab.syms.length + 1 ∧
      st'.tab.strtab.length ≤ st.tab.strtab.length +
        if d.name.bytes = [] then 0 else d.name.bytes.length + 1 := by
  cases hstep with
  | put hnew =>
      refine ⟨Nat.le_of_eq putElfSym_syms_length, ?_⟩
      show (addSym st.tab d.normal).strtab.length ≤ _
      unfold addSym
      by_cases hempty : d.name.bytes = []
      · rw [if_pos hempty, if_pos (show d.normal.name.bytes = [] from hempty)]
        exact Nat.le_refl _
      · rw [if_neg hempty, if_neg (show ¬ d.normal.name.bytes = [] from hempty)]
        show (st.tab.strtab ++ (d.name.bytes ++ [0])).length ≤ _
        simp
  | merge hbind hk hesym =>
      refine ⟨?_, Nat.le_add_right _ _⟩
      show (st.tab.setSym _ _).syms.length ≤ _
      rw [setSym_syms_length]
      exact Nat.le_succ _

theorem strAt_of_drop {strtab rest : List UInt8} {offset : Nat} {name : CString}
    (hdrop : strtab.drop offset = name.bytes ++ 0 :: rest) : strAt strtab offset = name.bytes := by
  unfold strAt
  rw [hdrop, List.takeWhile_append_of_pos]
  · simp
  · intro c hc
    have hne : c ≠ 0 := by
      rintro rfl
      exact name.noZero hc
    simpa using hne

theorem CString.ext_bytes {name name' : CString} (h : name.bytes = name'.bytes) : name = name' := by
  cases name
  cases name'
  simpa using h

/-- The symbols that are still to be read lie behind what is in use, in the same order as their
names. -/
structure Behind (firstSym : Nat) (m : SymMem) (i offset : Nat) (syms : List Sym)
    (bytes slack : List UInt8) (slackSyms : List Sym) : Prop where
  inv : TabInv m.view
  hash : ∃ hs, m.hash = some hs
  nbSyms_le : m.nbSyms ≤ firstSym + i
  syms_le : m.nbSyms ≤ m.syms.length
  strOffset_le : m.strOffset ≤ offset
  strtab_le : m.strOffset ≤ m.strtab.length
  syms_drop : m.syms.drop (firstSym + i) = syms ++ slackSyms
  strtab_drop : m.strtab.drop offset = bytes ++ slack
  layout : Layout offset syms bytes

/-- The symbols are read from the memory that is written to as they were before. -/
theorem Behind.foldlM (ctx : Ctx) (isObj : Bool) {i offset : Nat} {syms slackSyms : List Sym} {bytes slack : List UInt8}
    {strtab slack' : List UInt8} (h : Behind firstSym m i offset syms bytes slack slackSyms)
    (hstrtab : strtab.drop offset = bytes ++ slack') (hzero : strtab[0]? = some 0) (nu : Bool)
    (twice : List CString) (tr : List Nat) :
    ∃ st trs, (syms.map fun sym => (endSym isObj sym).toDef strtab).foldlM
        (fun (st, tr) d => (setElfSym ctx st d).map fun (st, k) => (st, tr ++ [k]))
        ((⟨m.view, nu, twice⟩ : LinkState), tr) = some (st, trs) ∧
      ∃ s, (List.range' i syms.length).foldlM (endStep ctx isObj firstSym) ⟨m, nu, twice, tr⟩ =
          some s ∧
        s.mem.view = st.tab ∧ s.newUndefSym = st.newUndefSym ∧
        s.definedTwice = st.definedTwice ∧ s.tr = trs := by
  induction syms generalizing m i offset bytes nu twice tr with
  | nil => exact ⟨_, _, rfl, _, rfl, rfl, rfl, rfl, rfl⟩
  | cons sym syms ih =>
      obtain ⟨hs, hhash⟩ := h.hash
      -- the symbol is where it was, and so is its name
      have hlen : firstSym + i < m.syms.length := by
        by_contra hle
        have hdrop := h.syms_drop
        rw [List.drop_eq_nil_of_le (Nat.le_of_not_lt hle)] at hdrop
        exact absurd hdrop (by simp)
      have hsym : m.syms[firstSym + i]? = some sym := by
        have hdrop := congrArg (·[0]?) h.syms_drop
        simpa using hdrop
      have hstName : (endSym isObj sym).stName = sym.stName := by
        unfold endSym
        split <;> rfl
      have hname : cstrAt m.strtab sym.stName = cstrAt strtab sym.stName := by
        refine CString.ext_bytes ?_
        show strAt m.strtab sym.stName = strAt strtab sym.stName
        rcases h.layout with ⟨hnone, -⟩ | ⟨name, rest, hoffset, hbytes, -⟩
        · have hview := h.inv.empty
          have hzero' : m.strtab[0]? = some 0 := by
            unfold SymMem.view at hview
            rw [List.getElem?_take] at hview
            split at hview
            · exact hview
            · exact absurd hview (by simp)
          have hempty : ∀ strtab : List UInt8, strtab[0]? = some 0 → strAt strtab 0 = [] := by
            intro strtab hstr
            cases strtab with
            | nil => exact absurd hstr (by simp)
            | cons c strtab =>
                obtain rfl := Option.some.inj hstr
                rfl
          rw [hnone, hempty _ hzero', hempty _ hzero]
        · have hread : ∀ strtab slack : List UInt8, strtab.drop offset = bytes ++ slack →
              strAt strtab sym.stName = name.bytes := by
            intro strtab slack hdrop
            rw [hoffset]
            have hdrop' : strtab.drop offset = name.bytes ++ 0 :: (rest ++ slack) := by
              rw [hdrop, hbytes, List.append_assoc]
              rfl
            exact strAt_of_drop hdrop'
          rw [hread _ _ h.strtab_drop, hread _ _ hstrtab]
      set m₁ : SymMem := { m with syms := m.syms.set (firstSym + i) (endSym isObj sym) } with hm₁
      have hview : m₁.view = m.view := by
        unfold SymMem.view
        rw [hm₁]
        dsimp only
        rw [List.take_set_of_le h.nbSyms_le]
      set d := (endSym isObj sym).toDef strtab with hd
      have hdm : (endSym isObj sym).toDef m₁.strtab = d := by
        rw [hd]
        unfold Sym.toDef
        rw [hstName]
        show (⟨_, _, _, _, _, cstrAt m.strtab sym.stName⟩ : SymDef) = _
        rw [hname]
      obtain ⟨st', k, hset, hstep⟩ :=
        (show TabInv (⟨m.view, nu, twice⟩ : LinkState).tab from h.inv).setElfSym ctx d hhash
      obtain ⟨hinv', hhash', -⟩ :=
        hstep.inv (show TabInv (⟨m.view, nu, twice⟩ : LinkState).tab from h.inv) hhash
      obtain ⟨hsymsLe, hstrLe⟩ := hstep.length_le
      have hviewSyms : m.view.syms.length = m.nbSyms := by
        unfold SymMem.view
        rw [List.length_take, Nat.min_eq_left h.syms_le]
      have hviewStr : m.view.strtab.length = m.strOffset := by
        unfold SymMem.view
        rw [List.length_take, Nat.min_eq_left h.strtab_le]
      have hsymsLe : st'.tab.syms.length ≤ firstSym + (i + 1) := by
        have hle := h.nbSyms_le
        have hle' : st'.tab.syms.length ≤ m.view.syms.length + 1 := hsymsLe
        omega
      have hstrLe : st'.tab.strtab.length ≤ m.strOffset +
          if d.name.bytes = [] then 0 else d.name.bytes.length + 1 := by
        rw [← hviewStr]
        exact hstrLe
      have hsymsDrop : (m₁.write st'.tab).syms.drop (firstSym + (i + 1)) = syms ++ slackSyms := by
        have hdrop := congrArg (List.drop 1) h.syms_drop
        rw [List.drop_drop] at hdrop
        rw [write_syms_drop hsymsLe, hm₁]
        dsimp only
        rw [List.drop_set_of_lt (by omega), ← Nat.add_assoc, hdrop]
        rfl
      -- the names behind this one
      obtain ⟨offset', bytes', hoffset', hlayout', hdrops⟩ : ∃ offset' bytes',
          st'.tab.strtab.length ≤ offset' ∧ Layout offset' syms bytes' ∧
          ∀ strtab slack : List UInt8, strtab.drop offset = bytes ++ slack →
            strtab.drop offset' = bytes' ++ slack := by
        have hle := h.strOffset_le
        rcases h.layout with ⟨hnone, hlayout⟩ | ⟨name, rest, hoffset, hbytes, hlayout⟩
        · have hempty : d.name.bytes = [] := by
            show strAt strtab (endSym isObj sym).stName = []
            rw [hstName, hnone]
            cases strtab with
            | nil => exact absurd hzero (by simp)
            | cons c strtab =>
                obtain rfl := Option.some.inj hzero
                rfl
          rw [if_pos hempty] at hstrLe
          exact ⟨offset, bytes, by omega, hlayout, fun _ _ hdrop => hdrop⟩
        · have hbytes' : d.name.bytes = name.bytes := by
            show strAt strtab (endSym isObj sym).stName = name.bytes
            rw [hstName, hoffset]
            have hdrop' : strtab.drop offset = name.bytes ++ 0 :: (rest ++ slack') := by
              rw [hstrtab, hbytes, List.append_assoc]
              rfl
            exact strAt_of_drop hdrop'
          rw [hbytes'] at hstrLe
          refine ⟨offset + (name.bytes.length + 1), rest, ?_, hlayout, fun strtab slack hdrop => ?_⟩
          · split at hstrLe <;> omega
          · rw [← List.drop_drop, hdrop, hbytes, List.append_assoc, ← List.drop_drop,
              List.drop_left]
            rfl
      have hbehind : Behind firstSym (m₁.write st'.tab) (i + 1) offset' syms bytes' slack
          slackSyms :=
        { inv := by rw [view_write]; exact hinv'
          hash := hhash'
          nbSyms_le := hsymsLe
          syms_le := by
            show st'.tab.syms.length ≤ (st'.tab.syms ++ _).length
            rw [List.length_append]
            exact Nat.le_add_right _ _
          strOffset_le := hoffset'
          strtab_le := by
            show st'.tab.strtab.length ≤ (st'.tab.strtab ++ _).length
            rw [List.length_append]
            exact Nat.le_add_right _ _
          syms_drop := hsymsDrop
          strtab_drop := by
            rw [write_strtab_drop hoffset']
            exact hdrops _ _ h.strtab_drop
          layout := hlayout' }
      obtain ⟨st, trs, hcopy, s, hrun, hs⟩ := ih hbehind (hdrops _ _ hstrtab) st'.newUndefSym
        st'.definedTwice (tr ++ [k])
      refine ⟨st, trs, ?_, s, ?_, hs⟩
      · rw [List.map_cons, List.foldlM_cons]
        show Option.map _ (setElfSym ctx ⟨m.view, nu, twice⟩ d) >>= _ = _
        rw [hset]
        rw [view_write] at hcopy
        exact hcopy
      · rw [List.length_cons, List.range'_succ, List.foldlM_cons]
        have hstep' : endStep ctx isObj firstSym ⟨m, nu, twice, tr⟩ i =
            some ⟨m₁.write st'.tab, st'.newUndefSym, st'.definedTwice, tr ++ [k]⟩ := by
          unfold endStep
          dsimp only
          rw [hsym]
          show (setElfSym ctx ⟨m₁.view, nu, twice⟩ ((endSym isObj sym).toDef m₁.strtab)).map _ = _
          rw [hview, hdm, hset]
          rfl
        rw [hstep']
        exact hrun

end Loop

end TccRiscv64.Elf
