import TccRiscv64.Elf.EndFile

set_option autoImplicit false

/-! # What the end of a file keeps

The symbols of a file get the numbers of symbols with the same names, and the symbols before them
change only where `set_elf_sym` merges a symbol of the file into them. -/

namespace TccRiscv64.Elf

/-! ## One call -/

section Step

variable {ctx : Ctx} {st st' : LinkState} {d : SymDef} {k j : Nat}

/-- What a call of `set_elf_sym` makes of a symbol that is there. -/
theorem SetStep.keeps (hstep : SetStep ctx st d st' k) (h : TabInv st.tab)
    (hj : j < st.tab.syms.length) :
    j < st'.tab.syms.length ∧ st'.tab.nameOf j = st.tab.nameOf j ∧
      st'.tab.isHashed j = st.tab.isHashed j ∧
      st'.tab.syms[j]? =
        if stBind d.info ≠ stbLocal ∧ st.tab.lookup d.name = some j then
          st.tab.syms[j]?.map fun sym => (mergeSym ctx sym d).1
        else st.tab.syms[j]? := by
  cases hstep with
  | put hnew =>
      have hno : ¬ (stBind d.info ≠ stbLocal ∧ st.tab.lookup d.name = some j) := by
        rintro ⟨hbind, hsome⟩
        rcases hnew with hlocal | hnone
        · exact hbind hlocal
        · rw [hnone] at hsome
          exact absurd hsome (by simp)
      rw [if_neg hno]
      refine ⟨?_, h.nameOf_addSym_lt hj, isHashed_addSym_lt hj, List.getElem?_append_left hj⟩
      show j < (putElfSym st.tab d.normal).1.syms.length
      rw [putElfSym_syms_length]
      exact Nat.lt_succ_of_lt hj
  | merge hbind hk hesym =>
      obtain ⟨-, -, hhashed, -⟩ := h.lookup_some hk
      have hb := mergeSym_bind_iff ctx hbind hhashed hesym
      refine ⟨?_, setSym_nameOf hesym mergeSym_stName j, setSym_isHashed hesym hb j, ?_⟩
      · show j < (st.tab.setSym k _).syms.length
        rw [setSym_syms_length]
        exact hj
      · show (st.tab.syms.set k _)[j]? = _
        by_cases hkj : k = j
        · subst hkj
          rw [if_pos ⟨hbind, hk⟩, hesym, List.getElem?_set_self hj]
          rfl
        · rw [if_neg fun hno => hkj (Option.some.inj (hk.symm.trans hno.2)),
            List.getElem?_set_ne hkj]

/-- The symbol that a call gives has the name, and a local one is a symbol of its own. -/
theorem SetStep.result (hstep : SetStep ctx st d st' k) (h : TabInv st.tab) :
    k < st'.tab.syms.length ∧ st'.tab.nameOf k = d.name.bytes ∧
      (stBind d.info = stbLocal → k = st.tab.syms.length ∧ st'.tab.isHashed k = false ∧
        ∃ sym, st'.tab.syms[k]? = some sym ∧ sym.stValue = d.value ∧ sym.stSize = d.size ∧
          stBind sym.stInfo = stbLocal ∧ stType sym.stInfo = stType d.info ∧
          sym.stOther = d.other ∧ sym.stShndx = d.shndx) := by
  cases hstep with
  | put hnew =>
      refine ⟨?_, h.nameOf_addSym_self, fun hlocal => ⟨rfl, ?_, _, List.getElem?_concat_length, rfl,
        rfl, ?_, ?_, rfl, rfl⟩⟩
      · show _ < (putElfSym st.tab d.normal).1.syms.length
        rw [putElfSym_syms_length]
        exact Nat.lt_succ_self _
      · show (addSym st.tab d.normal).isHashed _ = false
        rw [isHashed_addSym_self]
        unfold SymDef.normal
        dsimp only
        rw [stBind_stInfoOf]
        simp [hlocal]
      · show stBind (stInfoOf _ _) = _
        rw [stBind_stInfoOf, hlocal]
      · show stType (stInfoOf _ _) = _
        unfold stInfoOf stType
        apply BitVec.eq_of_getLsbD_eq
        intro i hi
        rw [BitVec.getLsbD_extractLsb', BitVec.getLsbD_append]
        simp [hi]
  | merge hbind hk hesym =>
      obtain ⟨-, hlt, hhashed, hname⟩ := h.lookup_some hk
      refine ⟨?_, ?_, fun hlocal => absurd hlocal hbind⟩
      · show k < (st.tab.setSym k _).syms.length
        rw [setSym_syms_length]
        exact hlt
      · show (st.tab.setSym k _).nameOf k = _
        rw [setSym_nameOf hesym mergeSym_stName]
        exact hname

/-- A name whose symbol is there keeps it. -/
theorem SetStep.lookup_iff (hstep : SetStep ctx st d st' k) (h : TabInv st.tab) {hs : Hash}
    (hhash : st.tab.hash = some hs) (hj : j < st.tab.syms.length) (name : CString) :
    st'.tab.lookup name = some j ↔ st.tab.lookup name = some j := by
  obtain ⟨-, -, hlookup⟩ := hstep.inv h hhash
  rw [hlookup name]
  split
  · next habout =>
      obtain ⟨hbind, rfl⟩ := habout
      cases hstep with
      | put hnew =>
          rcases hnew with hlocal | hnone
          · exact absurd hlocal hbind
          · rw [hnone]
            refine iff_of_false (fun heq => ?_) (by simp)
            rw [← Option.some.inj heq] at hj
            exact absurd hj (Nat.lt_irrefl _)
      | merge _ hk _ => rw [hk]
  · exact Iff.rfl

end Step

/-! ## All symbols of the file -/

/-- What the calls for some symbols make of the table. -/
structure Reinserted (ctx : Ctx) (defs : List SymDef) (t t' : SymTab) (trs : List Nat) : Prop where
  length : trs.length = defs.length
  keeps : ∀ j, j < t.syms.length → j < t'.syms.length ∧ t'.nameOf j = t.nameOf j ∧
    t'.isHashed j = t.isHashed j ∧
    t'.syms[j]? = t.syms[j]?.map fun sym =>
      (defs.filter fun d => stBind d.info ≠ stbLocal ∧ t.lookup d.name = some j).foldl
        (fun sym d => (mergeSym ctx sym d).1) sym
  result : ∀ (i : Nat) (d : SymDef), defs[i]? = some d → ∃ k, trs[i]? = some k ∧ k < t'.syms.length ∧
    t'.nameOf k = d.name.bytes ∧
    (stBind d.info = stbLocal → t.syms.length ≤ k ∧
      ∃ sym, t'.syms[k]? = some sym ∧ sym.stValue = d.value ∧ sym.stSize = d.size ∧
        stBind sym.stInfo = stbLocal ∧ stType sym.stInfo = stType d.info ∧
        sym.stOther = d.other ∧ sym.stShndx = d.shndx)

section Defs

variable {ctx : Ctx} {st : LinkState}

theorem reinserted_foldlM (ctx : Ctx) (st : LinkState) (defs : List SymDef) (h : TabInv st.tab) {hs : Hash}
    (hhash : st.tab.hash = some hs) (tr : List Nat) :
    ∃ st' trs, defs.foldlM
        (fun (st, tr) d => (setElfSym ctx st d).map fun (st, k) => (st, tr ++ [k])) (st, tr) =
          some (st', tr ++ trs) ∧
      TabInv st'.tab ∧ (∃ hs', st'.tab.hash = some hs') ∧
      Reinserted ctx defs st.tab st'.tab trs := by
  induction defs generalizing st hs tr with
  | nil =>
      refine ⟨st, [], by rw [List.append_nil]; rfl, h, ⟨hs, hhash⟩, rfl,
        fun j hj => ⟨hj, rfl, rfl, ?_⟩, fun i d hd => absurd hd (by simp)⟩
      simp
  | cons d defs ih =>
      obtain ⟨st₁, k, hset, hstep⟩ := h.setElfSym ctx d hhash
      obtain ⟨hinv₁, ⟨hs₁, hhash₁⟩, -⟩ := hstep.inv h hhash
      obtain ⟨st', trs, hrun, hinv', hhash', hdefs⟩ := ih st₁ hinv₁ hhash₁ (tr ++ [k])
      refine ⟨st', k :: trs, ?_, hinv', hhash', ?_, fun j hj => ?_, fun i d' hd' => ?_⟩
      · rw [List.foldlM_cons]
        show Option.map _ (setElfSym ctx st d) >>= _ = _
        rw [hset]
        rw [List.append_assoc] at hrun
        exact hrun
      · rw [List.length_cons, List.length_cons, hdefs.length]
      · obtain ⟨hj₁, hname₁, hhashed₁, hsym₁⟩ := hstep.keeps h hj
        obtain ⟨hj', hname', hhashed', hsym'⟩ := hdefs.keeps j hj₁
        refine ⟨hj', hname'.trans hname₁, hhashed'.trans hhashed₁, ?_⟩
        have hfilter : defs.filter (fun d => stBind d.info ≠ stbLocal ∧
              st₁.tab.lookup d.name = some j) =
            defs.filter fun d => stBind d.info ≠ stbLocal ∧ st.tab.lookup d.name = some j := by
          refine List.filter_congr fun d' _ => ?_
          rw [decide_eq_decide, hstep.lookup_iff h hhash hj]
        rw [hsym', hsym₁, hfilter, List.filter_cons]
        by_cases habout : stBind d.info ≠ stbLocal ∧ st.tab.lookup d.name = some j
        · rw [if_pos habout, if_pos (decide_eq_true habout), Option.map_map]
          rfl
        · rw [if_neg habout, if_neg (by simpa using habout)]
      · cases i with
        | zero =>
            obtain rfl : d = d' := Option.some.inj hd'
            obtain ⟨hk, hname, hlocal⟩ := hstep.result h
            obtain ⟨hk', hname', -, hsym'⟩ := hdefs.keeps k hk
            refine ⟨k, rfl, hk', hname'.trans hname, fun hbind => ?_⟩
            obtain ⟨rfl, hhashed, sym, hsym, hfields⟩ := hlocal hbind
            refine ⟨Nat.le_refl _, sym, ?_, hfields⟩
            -- no later symbol is merged into a local one
            have hempty : defs.filter (fun d => stBind d.info ≠ stbLocal ∧
                st₁.tab.lookup d.name = some st.tab.syms.length) = [] := by
              rw [List.filter_eq_nil_iff]
              intro d' _ hd'
              have hsome := (of_decide_eq_true hd').2
              rw [(hinv₁.lookup_some hsome).2.2.1] at hhashed
              exact absurd hhashed (by simp)
            rw [hsym', hempty, hsym]
            rfl
        | succ i =>
            obtain ⟨k', hk', hlt, hname, hlocal⟩ := hdefs.result i d' hd'
            refine ⟨k', hk', hlt, hname, fun hbind => ?_⟩
            obtain ⟨hle, hrest⟩ := hlocal hbind
            refine ⟨?_, hrest⟩
            rcases Nat.eq_zero_or_pos st.tab.syms.length with hzero | hpos
            · rw [hzero]
              exact Nat.zero_le _
            · have hlast := (hstep.keeps h (Nat.sub_lt hpos Nat.one_pos)).1
              omega

end Defs

/-! ## The tables that are reached -/

/-- The symbol tables that calls and files lead to. -/
inductive TabReachable (ctx : Ctx) : SymTab → Prop
  | new : TabReachable ctx newSymtab
  | call {st st' : LinkState} (h : TabReachable ctx st.tab) (c : SymCall)
    (hrun : c.run ctx st = some st') : TabReachable ctx st'.tab
  | file {t : SymTab} (h : TabReachable ctx t) (isObj : Bool) (ops : List FileOp)
    (slackSyms : List Sym) (slackStr : List UInt8) {s : EndState}
    (hrun : endLoop ctx isObj t (compileFile t ops) slackSyms slackStr = some s) :
    TabReachable ctx s.mem.view

section Reachable

variable {ctx : Ctx} {t : SymTab}

/-- The loop reads what a copy would hold. -/
theorem endLoop_eq (ctx : Ctx) (h : TabInv t) {hs : Hash} (hhash : t.hash = some hs) (isObj : Bool)
    (ops : List FileOp) (slackSyms : List Sym) (slackStr : List UInt8) :
    ∃ st trs s, reinsert ctx ⟨t, false, []⟩ (fileDefs isObj t (compileFile t ops)) =
        some (st, trs) ∧
      endLoop ctx isObj t (compileFile t ops) slackSyms slackStr = some s ∧
      s.mem.view = st.tab ∧ s.newUndefSym = st.newUndefSym ∧
      s.definedTwice = st.definedTwice ∧ s.tr = trs := by
  obtain ⟨syms, bytes, hsyms, hstrtab, hlayout⟩ := (fileInv_compileFile t ops).layout
  set file := compileFile t ops with hfile
  set m : SymMem :=
    { syms := file.syms ++ slackSyms, nbSyms := t.syms.length
      strtab := file.strtab ++ slackStr, strOffset := t.strtab.length, hash := t.hash } with hm
  have hview : m.view = t := by
    unfold SymMem.view
    rw [hm, hsyms, hstrtab]
    dsimp only
    rw [List.append_assoc, List.append_assoc, List.take_left, List.take_left]
  have hbehind : Behind t.syms.length m 0 t.strtab.length syms bytes slackStr slackSyms :=
    { inv := by rw [hview]; exact h
      hash := ⟨hs, hhash⟩
      nbSyms_le := Nat.le_refl _
      syms_le := by
        rw [hm, hsyms]
        simp only [List.length_append]
        omega
      strOffset_le := Nat.le_refl _
      strtab_le := by
        rw [hm, hstrtab]
        simp only [List.length_append]
        omega
      syms_drop := by
        rw [hm, hsyms]
        dsimp only
        rw [Nat.add_zero, List.append_assoc, List.drop_left]
      strtab_drop := by
        rw [hm, hstrtab]
        dsimp only
        rw [List.append_assoc, List.drop_left]
      layout := hlayout }
  have hcopy : file.strtab.drop t.strtab.length = bytes ++ [] := by
    rw [hstrtab, List.drop_left, List.append_nil]
  have hzero : file.strtab[0]? = some 0 := by
    rw [hstrtab, List.getElem?_append_left (List.getElem?_eq_some_iff.mp h.empty).1]
    exact h.empty
  obtain ⟨st, trs, hreinsert, s, hrun, hrest⟩ :=
    hbehind.foldlM ctx isObj hcopy hzero false [] []
  refine ⟨st, trs, s, ?_, ?_, hrest⟩
  · unfold reinsert fileDefs
    rw [hsyms, List.drop_left]
    rw [hview] at hreinsert
    exact hreinsert
  · unfold endLoop
    rw [hsyms, List.length_append, Nat.add_sub_cancel_left, ← hsyms]
    exact hrun

theorem TabReachable.inv (h : TabReachable ctx t) : TabInv t ∧ ∃ hs, t.hash = some hs := by
  induction h with
  | new => exact ⟨tabInv_new, _, rfl⟩
  | call _ c hrun ih =>
      obtain ⟨hinv, hs, hhash⟩ := ih
      obtain ⟨st', hrun', hinv', hhash', -⟩ := c.run_inv ctx hinv hhash
      obtain rfl := Option.some.inj (hrun'.symm.trans hrun)
      exact ⟨hinv', hhash'⟩
  | @file t _ isObj ops slackSyms slackStr s hrun ih =>
      obtain ⟨hinv, hs, hhash⟩ := ih
      obtain ⟨st, trs, s', hreinsert, hrun', hview, -⟩ :=
        endLoop_eq ctx hinv hhash isObj ops slackSyms slackStr
      obtain rfl := Option.some.inj (hrun'.symm.trans hrun)
      obtain ⟨st', trs', hfold, hinv', hhash', -⟩ :=
        reinserted_foldlM ctx ⟨t, false, []⟩
          (fileDefs isObj t (compileFile t ops)) hinv hhash []
      have hst := Option.some.inj (hfold.symm.trans hreinsert)
      rw [hview, ← (Prod.mk.inj hst).1]
      exact ⟨hinv', hhash'⟩

end Reachable

/-! ## The end of a file -/

/-- A relocation of the file refers to the symbol that it referred to. -/
structure RelocKept (isObj : Bool) (t file t' : SymTab) (r r' : Reloc) : Prop where
  name : t'.nameOf r'.sym = file.nameOf r.sym
  local_ : ∀ sym, file.syms[r.sym]? = some sym → stBind (endSym isObj sym).stInfo = stbLocal →
    t.syms.length ≤ r'.sym ∧ ∃ sym', t'.syms[r'.sym]? = some sym' ∧ sym'.stValue = sym.stValue ∧
      sym'.stSize = sym.stSize ∧ stBind sym'.stInfo = stbLocal ∧
      stType sym'.stInfo = stType (endSym isObj sym).stInfo ∧ sym'.stOther = sym.stOther ∧
      sym'.stShndx = sym.stShndx

theorem endSym_stName (isObj : Bool) (sym : Sym) : (endSym isObj sym).stName = sym.stName := by
  unfold endSym
  split <;> rfl

/-- A relocation of an earlier file stays, and one of this file gets the new number. -/
theorem updateRelocs_getElem? {firstSym : Nat} {tr : List Nat} {sr : RelSection} {p : Nat}
    {r : Reloc} (hr : sr.relocs[p]? = some r) :
    (updateRelocs firstSym tr sr).relocs[p]? =
      some (if p < sr.shOffset ∨ r.sym < firstSym then r
        else { r with sym := tr.getD (r.sym - firstSym) 0 }) := by
  have hlt : p < sr.relocs.length := (List.getElem?_eq_some_iff.mp hr).1
  unfold updateRelocs
  dsimp only
  by_cases hp : p < sr.shOffset
  · rw [List.getElem?_append_left (by rw [List.length_take]; omega), List.getElem?_take, if_pos hp,
      hr, if_pos (.inl hp)]
  · have hle : sr.shOffset ≤ p := Nat.le_of_not_lt hp
    have htake : (sr.relocs.take sr.shOffset).length = sr.shOffset := by
      rw [List.length_take]
      omega
    rw [List.getElem?_append_right (by rw [htake]; exact hle), htake, List.getElem?_map,
      List.getElem?_drop, Nat.add_sub_of_le hle, hr, Option.map_some]
    by_cases hold : r.sym < firstSym
    · rw [if_pos hold, if_pos (.inr hold)]
    · rw [if_neg hold, if_neg (by tauto)]

theorem Reinserted.relocs {ctx : Ctx} {isObj : Bool} {t file t' : SymTab} {trs : List Nat}
    (h : Reinserted ctx (fileDefs isObj t file) t t' trs) {sr : RelSection} {p : Nat} {r : Reloc}
    (hr : sr.relocs[p]? = some r) :
    ∃ r', (updateRelocs t.syms.length trs sr).relocs[p]? = some r' ∧ r'.type = r.type ∧
      (p < sr.shOffset ∨ r.sym < t.syms.length → r' = r) ∧
      (sr.shOffset ≤ p → t.syms.length ≤ r.sym → r.sym < file.syms.length →
        RelocKept isObj t file t' r r') := by
  refine ⟨_, updateRelocs_getElem? hr, ?_, fun hold => if_pos hold, fun hp hsym hlt => ?_⟩
  · split <;> rfl
  · rw [if_neg (by omega)]
    have hget : file.syms[r.sym]? = some file.syms[r.sym] := List.getElem?_eq_getElem hlt
    have hdef : (fileDefs isObj t file)[r.sym - t.syms.length]? =
        some ((endSym isObj file.syms[r.sym]).toDef file.strtab) := by
      unfold fileDefs
      rw [List.getElem?_map, List.getElem?_drop, Nat.add_sub_of_le hsym, hget]
      rfl
    obtain ⟨k, hk, -, hname, hlocal⟩ := h.result _ _ hdef
    have htr : trs.getD (r.sym - t.syms.length) 0 = k := by
      rw [List.getD_eq_getElem?_getD, hk]
      rfl
    rw [htr]
    refine ⟨?_, fun sym hsym' hbind => ?_⟩
    · rw [hname]
      unfold SymTab.nameOf
      rw [hget]
      show strAt file.strtab (endSym isObj _).stName = _
      rw [endSym_stName]
      rfl
    · obtain rfl := Option.some.inj (hget.symm.trans hsym')
      obtain ⟨hle, sym', hsym'', hvalue, hsize, hb, htype, hother, hshndx⟩ := hlocal hbind
      have hend : ∀ sym, (endSym isObj sym).stValue = sym.stValue ∧
          (endSym isObj sym).stSize = sym.stSize ∧ (endSym isObj sym).stOther = sym.stOther ∧
          (endSym isObj sym).stShndx = sym.stShndx := by
        intro sym
        unfold endSym
        split <;> exact ⟨rfl, rfl, rfl, rfl⟩
      obtain ⟨hv, hsz, ho, hs⟩ := hend file.syms[r.sym]
      exact ⟨hle, sym', hsym'', hvalue.trans hv, hsize.trans hsz, hb, htype, hother.trans ho,
        hshndx.trans hs⟩

/-- The end of a file is as if its symbols were put in from a copy; symbols before them change only
where they are merged, and relocations refer to the same symbols. -/
theorem endFile_correct (ctx : Ctx) (t : SymTab) (h : TabReachable ctx t) (isObj : Bool)
    (ops : List FileOp) (slackSyms : List Sym) (slackStr : List UInt8) :
    ∃ st trs s, reinsert ctx ⟨t, false, []⟩ (fileDefs isObj t (compileFile t ops)) =
        some (st, trs) ∧
      endLoop ctx isObj t (compileFile t ops) slackSyms slackStr = some s ∧
      s.mem.view = st.tab ∧ s.newUndefSym = st.newUndefSym ∧
      s.definedTwice = st.definedTwice ∧ s.tr = trs ∧
      (∀ j, j < t.syms.length → st.tab.nameOf j = t.nameOf j ∧
        st.tab.syms[j]? = t.syms[j]?.map fun sym =>
          ((fileDefs isObj t (compileFile t ops)).filter fun d =>
            stBind d.info ≠ stbLocal ∧ t.lookup d.name = some j).foldl
              (fun sym d => (mergeSym ctx sym d).1) sym) ∧
      ∀ (sr : RelSection) (p : Nat) (r : Reloc), sr.relocs[p]? = some r →
        ∃ r', (updateRelocs t.syms.length s.tr sr).relocs[p]? = some r' ∧ r'.type = r.type ∧
          (p < sr.shOffset ∨ r.sym < t.syms.length → r' = r) ∧
          (sr.shOffset ≤ p → t.syms.length ≤ r.sym →
            r.sym < (compileFile t ops).syms.length →
            RelocKept isObj t (compileFile t ops) st.tab r r') := by
  obtain ⟨hinv, hs, hhash⟩ := h.inv
  obtain ⟨st, trs, s, hreinsert, hrun, hview, hnu, htwice, htr⟩ :=
    endLoop_eq ctx hinv hhash isObj ops slackSyms slackStr
  obtain ⟨st', trs', hfold, -, -, hdefs⟩ :=
    reinserted_foldlM ctx ⟨t, false, []⟩
      (fileDefs isObj t (compileFile t ops)) hinv hhash []
  have hst := Option.some.inj (hfold.symm.trans hreinsert)
  obtain ⟨rfl, rfl⟩ := Prod.mk.inj hst
  refine ⟨st', _, s, hreinsert, hrun, hview, hnu, htwice, htr, fun j hj => ?_,
    fun sr p r hr => ?_⟩
  · obtain ⟨-, hname, -, hsym⟩ := hdefs.keeps j hj
    exact ⟨hname, hsym⟩
  · rw [htr, List.nil_append]
    exact hdefs.relocs hr

/-- A file with one symbol: the undefined global `f`. -/
def fileOfF : List FileOp := [.put ⟨0, 0, stInfoOf stbGlobal 0, 0, shnUndef, ⟨[102], by decide⟩⟩]

theorem endFile_correct_fileOfF :
    ∃ st trs s,
      reinsert ⟨4, false⟩ ⟨newSymtab, false, []⟩
        (fileDefs true newSymtab (compileFile newSymtab fileOfF)) = some (st, trs) ∧
      endLoop ⟨4, false⟩ true newSymtab (compileFile newSymtab fileOfF) [] [] = some s ∧
      s.mem.view = st.tab ∧ s.tr = trs := by
  obtain ⟨st, trs, s, hreinsert, hrun, hview, -, -, htr, -⟩ :=
    endFile_correct ⟨4, false⟩ newSymtab .new true fileOfF [] []
  exact ⟨st, trs, s, hreinsert, hrun, hview, htr⟩

end TccRiscv64.Elf
