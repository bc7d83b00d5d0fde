import TccRiscv64.Elf.HashTable

set_option autoImplicit false

/-! # Calls of `put_elf_sym` and `set_elf_sym`

A table that is made by any calls is looked up by `find_elf_sym` in a list of symbols, and each call
says what becomes of that list. -/

namespace TccRiscv64.Elf

open Data

/-! ## Looking up a name -/

/-- The newest non-local symbol with a name. -/
def SymTab.lookup (t : SymTab) (name : CString) : Option Nat :=
  (List.range t.syms.length).reverse.find? fun k =>
    t.isHashed k && decide (t.nameOf k = name.bytes)

section Lookup

variable {t : SymTab} {d : SymDef} {k : Nat} {name : CString}

theorem TabInv.lookup_some (h : TabInv t) (hk : t.lookup name = some k) :
    k ≠ 0 ∧ k < t.syms.length ∧ t.isHashed k = true ∧ t.nameOf k = name.bytes := by
  have hmem := List.mem_of_find?_eq_some hk
  rw [List.mem_reverse, List.mem_range] at hmem
  have hp := List.find?_some hk
  rw [Bool.and_eq_true, decide_eq_true_eq] at hp
  refine ⟨?_, hmem, hp⟩
  rintro rfl
  rw [h.null] at hp
  exact absurd hp.1 Bool.false_ne_true

/-- `find_elf_sym` comes to an end, and finds the newest symbol. -/
theorem TabInv.findElfSym_eq (h : TabInv t) {hs : Hash} (hhash : t.hash = some hs) :
    findElfSym t name = some ((t.lookup name).getD 0) := by
  obtain ⟨hhashed, -⟩ := h.hash hs hhash
  unfold findElfSym
  rw [hhash]
  dsimp only
  have hlt : (elfHash name.bytes).toNat % hs.words.getD 0 0 < hs.words.getD 0 0 :=
    Nat.mod_lt _ hhashed.pos
  have hlength : (bucketSyms t (hs.words.getD 0 0) t.syms.length
      ((elfHash name.bytes).toNat % hs.words.getD 0 0)).length ≤ t.syms.length := by
    unfold bucketSyms
    rw [List.length_reverse]
    exact (List.length_filter_le _ _).trans (by rw [List.length_range])
  rw [(hhashed.chain _ hlt).find hlength]
  -- a symbol with the name is in its bucket
  unfold SymTab.lookup bucketSyms
  rw [← List.filter_reverse, List.find?_filter]
  congr 3
  funext k
  by_cases hname : t.nameOf k = name.bytes
  · simp [inBucket, hname]
  · simp [hname]

/-- What one more symbol does to the lookup. -/
theorem TabInv.lookup_put (h : TabInv t) :
    (putElfSym t d).1.lookup name =
      if stBind d.info ≠ stbLocal ∧ d.name = name then some t.syms.length else t.lookup name := by
  unfold SymTab.lookup
  rw [putElfSym_syms_length, List.range_succ, List.reverse_append, List.reverse_singleton,
    List.singleton_append, List.find?_cons, putElfSym_isHashed, putElfSym_nameOf,
    isHashed_addSym_self, h.nameOf_addSym_self]
  have hname : d.name.bytes = name.bytes ↔ d.name = name := by
    cases d.name
    cases name
    simp
  by_cases hnew : stBind d.info ≠ stbLocal ∧ d.name = name
  · rw [if_pos hnew, decide_eq_true hnew.1, decide_eq_true (hname.mpr hnew.2)]
    rfl
  · rw [if_neg hnew]
    have hfalse : (decide (stBind d.info ≠ stbLocal) &&
        decide (d.name.bytes = name.bytes)) = false := by
      rw [← Bool.not_eq_true, Bool.and_eq_true, decide_eq_true_eq, decide_eq_true_eq, hname]
      exact hnew
    rw [hfalse]
    refine List.find?_congr fun k hk => ?_
    rw [List.mem_reverse, List.mem_range] at hk
    rw [putElfSym_isHashed, putElfSym_nameOf, isHashed_addSym_lt hk, h.nameOf_addSym_lt hk]

end Lookup

/-! ## A symbol that is changed -/

section Set

variable {t : SymTab} {k : Nat} {esym esym' : Sym} {name : CString}

/-- An entry is replaced. -/
def SymTab.setSym (t : SymTab) (k : Nat) (sym : Sym) : SymTab := { t with syms := t.syms.set k sym }

theorem setSym_syms_length : (t.setSym k esym).syms.length = t.syms.length := List.length_set

theorem setSym_nameOf (hesym : t.syms[k]? = some esym) (hname : esym'.stName = esym.stName)
    (j : Nat) : (t.setSym k esym').nameOf j = t.nameOf j := by
  unfold SymTab.nameOf SymTab.setSym
  dsimp only
  by_cases hj : k = j
  · subst hj
    rw [List.getElem?_set_self (List.getElem?_eq_some_iff.mp hesym).1, hesym, Option.map_some,
      Option.map_some, hname]
  · rw [List.getElem?_set_ne hj]

theorem setSym_isHashed (hesym : t.syms[k]? = some esym)
    (hbind : stBind esym'.stInfo = stbLocal ↔ stBind esym.stInfo = stbLocal) (j : Nat) :
    (t.setSym k esym').isHashed j = t.isHashed j := by
  unfold SymTab.isHashed SymTab.setSym
  dsimp only
  by_cases hj : k = j
  · subst hj
    rw [List.getElem?_set_self (List.getElem?_eq_some_iff.mp hesym).1, hesym, Option.map_some,
      Option.map_some]
    simp [hbind]
  · rw [List.getElem?_set_ne hj]

/-- The name of a symbol and whether it is local are all that the tables depend on. -/
theorem TabInv.setSym (h : TabInv t) (hesym : t.syms[k]? = some esym)
    (hname : esym'.stName = esym.stName)
    (hbind : stBind esym'.stInfo = stbLocal ↔ stBind esym.stInfo = stbLocal) :
    TabInv (t.setSym k esym') where
  nonempty := by
    rw [setSym_syms_length]
    exact h.nonempty
  null := by
    rw [setSym_isHashed hesym hbind]
    exact h.null
  empty := h.empty
  names sym hsym := by
    rcases List.mem_or_eq_of_mem_set hsym with hold | rfl
    · exact h.names sym hold
    · rw [hname]
      exact h.names esym (List.mem_of_getElem? hesym)
  hash hs hhash := by
    obtain ⟨hhashed, hcount⟩ := h.hash hs hhash
    rw [setSym_syms_length]
    exact ⟨hhashed.congr (fun j _ => setSym_nameOf hesym hname j)
      fun j _ => setSym_isHashed hesym hbind j, hcount⟩

theorem lookup_setSym (hesym : t.syms[k]? = some esym) (hname : esym'.stName = esym.stName)
    (hbind : stBind esym'.stInfo = stbLocal ↔ stBind esym.stInfo = stbLocal) :
    (t.setSym k esym').lookup name = t.lookup name := by
  unfold SymTab.lookup
  rw [setSym_syms_length]
  refine List.find?_congr fun j _ => ?_
  rw [setSym_isHashed hesym hbind, setSym_nameOf hesym hname]

end Set

/-! ## `set_elf_sym` -/

section SetElfSym

variable {ctx : Ctx} {st : LinkState} {d : SymDef} {esym : Sym} {bind type : BitVec 4}

@[simp]
theorem stBind_stInfoOf : stBind (stInfoOf bind type) = bind := by
  apply BitVec.eq_of_getLsbD_eq
  intro i hi
  unfold stBind stInfoOf
  rw [BitVec.getLsbD_extractLsb', BitVec.getLsbD_append]
  simp [hi]

theorem Sym.patch_bind (esym : Sym) (d : SymDef) : stBind (esym.patch d).stInfo = stBind d.info :=
  stBind_stInfoOf

theorem mergeSym_stName : (mergeSym ctx esym d).1.stName = esym.stName := by
  unfold mergeSym
  split
  · rfl
  · split
    · dsimp only
      split <;> rfl
    · rfl

theorem mergeSym_bind (ctx : Ctx) (hbind : stBind d.info ≠ stbLocal)
    (hesym : stBind esym.stInfo ≠ stbLocal) : stBind (mergeSym ctx esym d).1.stInfo ≠ stbLocal := by
  unfold mergeSym
  split
  · exact hesym
  · split
    · dsimp only
      split
      · exact hesym
      · rw [Sym.patch_bind]
        exact hbind
      · exact hesym
    · dsimp only
      rw [Sym.patch_bind]
      exact hbind

/-- The definition that `put_elf_sym` gets from `set_elf_sym`. -/
def SymDef.normal (d : SymDef) : SymDef :=
  { d with info := stInfoOf (stBind d.info) (stType d.info) }

/-- What a call of `set_elf_sym` does: it adds a symbol, or it changes the one with the name. -/
inductive SetStep (ctx : Ctx) (st : LinkState) (d : SymDef) : LinkState → Nat → Prop
  | put (hnew : stBind d.info = stbLocal ∨ st.tab.lookup d.name = none) :
    SetStep ctx st d { st with tab := (putElfSym st.tab d.normal).1 } st.tab.syms.length
  | merge (hbind : stBind d.info ≠ stbLocal) {k : Nat} (hk : st.tab.lookup d.name = some k)
    {esym : Sym} (hesym : st.tab.syms[k]? = some esym) :
    SetStep ctx st d
      { tab := st.tab.setSym k (mergeSym ctx esym d).1
        newUndefSym := st.newUndefSym || (mergeSym ctx esym d).2 = .patch
        definedTwice :=
          if (mergeSym ctx esym d).2 = .definedTwice then st.definedTwice ++ [d.name]
          else st.definedTwice } k

/-- A call of `set_elf_sym` comes to an end, and does one of its steps. -/
theorem TabInv.setElfSym (ctx : Ctx) (d : SymDef) (h : TabInv st.tab) {hs : Hash}
    (hhash : st.tab.hash = some hs) :
    ∃ st' k, setElfSym ctx st d = some (st', k) ∧ SetStep ctx st d st' k := by
  unfold Elf.setElfSym
  by_cases hlocal : stBind d.info = stbLocal
  · dsimp only
    rw [if_pos hlocal]
    exact ⟨_, _, rfl, .put (.inl hlocal)⟩
  · dsimp only
    rw [if_neg hlocal, h.findElfSym_eq hhash]
    cases hk : st.tab.lookup d.name with
    | none => exact ⟨_, _, rfl, .put (.inr hk)⟩
    | some k =>
        obtain ⟨hne, hlt, -⟩ := h.lookup_some hk
        have hesym : st.tab.syms[k]? = some st.tab.syms[k] := List.getElem?_eq_getElem hlt
        refine ⟨_, _, ?_, .merge hlocal hk hesym⟩
        rw [Option.getD_some, Option.map_some, if_neg hne, hesym]
        rfl

theorem SymTab.bind_of_isHashed {t : SymTab} {k : Nat} (h : t.isHashed k = true)
    (hesym : t.syms[k]? = some esym) : stBind esym.stInfo ≠ stbLocal := by
  unfold SymTab.isHashed at h
  rw [hesym] at h
  exact of_decide_eq_true h

/-- A change leaves a symbol of the chains one that is not local. -/
theorem mergeSym_bind_iff (ctx : Ctx) {t : SymTab} {k : Nat} (hbind : stBind d.info ≠ stbLocal)
    (hhashed : t.isHashed k = true) (hesym : t.syms[k]? = some esym) :
    stBind (mergeSym ctx esym d).1.stInfo = stbLocal ↔ stBind esym.stInfo = stbLocal :=
  have hne := SymTab.bind_of_isHashed hhashed hesym
  iff_of_false (mergeSym_bind ctx hbind hne) hne

/-- What holds of a table with a hash table stays, and so does the lookup of the other names. -/
theorem SetStep.inv {st' : LinkState} {k : Nat} (hstep : SetStep ctx st d st' k)
    (h : TabInv st.tab) {hs : Hash} (hhash : st.tab.hash = some hs) :
    TabInv st'.tab ∧ (∃ hs', st'.tab.hash = some hs') ∧
      ∀ name, st'.tab.lookup name =
        if stBind d.info ≠ stbLocal ∧ d.name = name then some k else st.tab.lookup name := by
  cases hstep with
  | put hnew =>
      refine ⟨h.put, ⟨_, by rw [putElfSym, hhash]; rfl⟩, fun name => ?_⟩
      show (putElfSym st.tab d.normal).1.lookup name = _
      rw [h.lookup_put]
      unfold SymDef.normal
      dsimp only
      rw [stBind_stInfoOf]
  | merge hbind hk hesym =>
      obtain ⟨-, -, hhashed, hname⟩ := h.lookup_some hk
      have hb := mergeSym_bind_iff ctx hbind hhashed hesym
      refine ⟨h.setSym hesym mergeSym_stName hb, ⟨hs, hhash⟩, fun name => ?_⟩
      show (st.tab.setSym k _).lookup name = _
      rw [lookup_setSym hesym mergeSym_stName hb]
      split
      · next hd => rw [← hd.2, hk]
      · rfl

end SetElfSym

/-! ## Runs -/

/-- A call on a symbol table. -/
inductive SymCall
  | put (d : SymDef)
  | set (d : SymDef)

/-- What the call is about. -/
def SymCall.sym : SymCall → SymDef
  | .put d => d
  | .set d => d

/-- A call, if it comes to an end. -/
def SymCall.run (ctx : Ctx) (st : LinkState) : SymCall → Option LinkState
  | .put d => some { st with tab := (putElfSym st.tab d).1 }
  | .set d => (setElfSym ctx st d).map Prod.fst

/-- Calls, one after the other. -/
def runCalls (ctx : Ctx) (st : LinkState) (calls : List SymCall) : Option LinkState :=
  calls.foldlM (SymCall.run ctx) st

/-- A state with a new table. -/
def linkStart : LinkState := ⟨newSymtab, false, []⟩

section Runs

variable {ctx : Ctx} {st st' : LinkState}

theorem SymCall.run_inv (ctx : Ctx) (c : SymCall) (h : TabInv st.tab) {hs : Hash}
    (hhash : st.tab.hash = some hs) :
    ∃ st', c.run ctx st = some st' ∧ TabInv st'.tab ∧ (∃ hs', st'.tab.hash = some hs') ∧
      ∀ name, (st'.tab.lookup name).isSome = true ↔
        (stBind c.sym.info ≠ stbLocal ∧ c.sym.name = name) ∨
          (st.tab.lookup name).isSome = true := by
  cases c with
  | put d =>
      refine ⟨_, rfl, h.put, ⟨_, by rw [putElfSym, hhash]; rfl⟩, fun name => ?_⟩
      rw [h.lookup_put]
      show _ ↔ (stBind d.info ≠ stbLocal ∧ d.name = name) ∨ _
      by_cases hnew : stBind d.info ≠ stbLocal ∧ d.name = name
      · simp [hnew]
      · rw [if_neg hnew]
        exact (or_iff_right hnew).symm
  | set d =>
      obtain ⟨st', k, hset, hstep⟩ := h.setElfSym ctx d hhash
      obtain ⟨hinv, hhash', hlookup⟩ := hstep.inv h hhash
      refine ⟨st', by rw [SymCall.run, hset]; rfl, hinv, hhash', fun name => ?_⟩
      rw [hlookup name]
      show _ ↔ (stBind d.info ≠ stbLocal ∧ d.name = name) ∨ _
      by_cases hnew : stBind d.info ≠ stbLocal ∧ d.name = name
      · simp [hnew]
      · rw [if_neg hnew]
        exact (or_iff_right hnew).symm

/-- A run comes to an end, and the names that are found are those of its non-local symbols. -/
theorem runCalls_inv (ctx : Ctx) (calls : List SymCall) (h : TabInv st.tab) {hs : Hash}
    (hhash : st.tab.hash = some hs) :
    ∃ st', runCalls ctx st calls = some st' ∧ TabInv st'.tab ∧ (∃ hs', st'.tab.hash = some hs') ∧
      ∀ name, (st'.tab.lookup name).isSome = true ↔
        (∃ c ∈ calls, stBind c.sym.info ≠ stbLocal ∧ c.sym.name = name) ∨
          (st.tab.lookup name).isSome = true := by
  induction calls generalizing st hs with
  | nil => exact ⟨st, rfl, h, ⟨hs, hhash⟩, fun name => by simp⟩
  | cons c calls ih =>
      obtain ⟨st₁, hrun, hinv, ⟨hs₁, hhash₁⟩, hlookup⟩ := c.run_inv ctx h hhash
      obtain ⟨st', hruns, hinv', hhash', hlookup'⟩ := ih hinv hhash₁
      refine ⟨st', ?_, hinv', hhash', fun name => ?_⟩
      · rw [runCalls, List.foldlM_cons, hrun]
        exact hruns
      · rw [hlookup', hlookup, List.exists_mem_cons_iff, or_assoc, or_left_comm]

/-- The hash table of a symbol table, after any calls. -/
theorem symtab_hashed (ctx : Ctx) (calls : List SymCall) :
    ∃ st hs, runCalls ctx linkStart calls = some st ∧ st.tab.hash = some hs ∧
      0 < hs.words.getD 0 0 ∧
      hs.words.length = 2 + hs.words.getD 0 0 + st.tab.syms.length ∧
      (∀ b, b < hs.words.getD 0 0 → ∃ list : List Nat, list.Nodup ∧
        Linked (fun k => hs.words.getD (2 + hs.words.getD 0 0 + k) 0) (hs.words.getD (2 + b) 0)
          list ∧
        ∀ k, k ∈ list ↔ k < st.tab.syms.length ∧ st.tab.isHashed k = true ∧
          (elfHash (st.tab.nameOf k)).toNat % hs.words.getD 0 0 = b) ∧
      ∀ name, ∃ k, findElfSym st.tab name = some k ∧
        (k ≠ 0 ↔ ∃ c ∈ calls, stBind c.sym.info ≠ stbLocal ∧ c.sym.name = name) ∧
        (k ≠ 0 → k < st.tab.syms.length ∧ st.tab.isHashed k = true ∧
          st.tab.nameOf k = name.bytes) := by
  obtain ⟨st, hrun, hinv, ⟨hs, hhash⟩, hlookup⟩ :=
    runCalls_inv ctx calls (show TabInv linkStart.tab from tabInv_new) rfl
  obtain ⟨hhashed, -⟩ := hinv.hash hs hhash
  refine ⟨st, hs, hrun, hhash, hhashed.pos, hhashed.length, fun b hb => ?_, fun name => ?_⟩
  · refine ⟨bucketSyms st.tab (hs.words.getD 0 0) st.tab.syms.length b, ?_, hhashed.chain b hb,
      fun k => ?_⟩
    · unfold bucketSyms
      rw [List.nodup_reverse]
      exact List.nodup_range.filter _
    · rw [mem_bucketSyms, inBucket, Bool.and_eq_true, beq_iff_eq]
  · refine ⟨_, hinv.findElfSym_eq hhash, ?_, ?_⟩
    · have hstart : (linkStart.tab.lookup name).isSome = false := by
        simp [linkStart, SymTab.lookup, newSymtab, SymTab.isHashed, stBind, stbLocal]
      have hiff := hlookup name
      rw [hstart] at hiff
      rw [or_iff_left Bool.false_ne_true] at hiff
      rw [← hiff]
      cases hk : st.tab.lookup name with
      | none => simp
      | some k =>
          have hne := (hinv.lookup_some hk).1
          simp [hne]
    · cases hk : st.tab.lookup name with
      | none => exact fun h => absurd rfl h
      | some k => exact fun _ => (hinv.lookup_some hk).2

end Runs

end TccRiscv64.Elf
