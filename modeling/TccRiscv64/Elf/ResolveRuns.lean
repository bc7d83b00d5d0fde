import TccRiscv64.Elf.Resolve

set_option autoImplicit false

/-! # Resolution in a run

The entry of a name after any calls of `set_elf_sym`, for it and for other names. -/

namespace TccRiscv64.Elf

/-! ## The entry of a name -/

/-- The entry that a name has. -/
def entryOf (st : LinkState) (name : CString) : Option Sym :=
  (st.tab.lookup name).bind fun k => st.tab.syms[k]?

/-- A call for the non-local name. -/
def SymDef.IsAbout (name : CString) (d : SymDef) : Prop :=
  stBind d.info ≠ stbLocal ∧ d.name = name

instance (name : CString) (d : SymDef) : Decidable (d.IsAbout name) :=
  inferInstanceAs (Decidable (_ ∧ _))

/-- The calls for a non-local name. -/
def about (name : CString) (calls : List SymDef) : List SymDef := calls.filter (·.IsAbout name)

/-- The calls are made one after the other on a new table. -/
def runSet (ctx : Ctx) (calls : List SymDef) : Option LinkState :=
  runCalls ctx linkStart (calls.map .set)

section Entry

variable {ctx : Ctx} {st st' : LinkState} {d : SymDef} {k : Nat} {name : CString} {sym : Sym}

/-- A call for another name leaves the entry alone. -/
theorem SetStep.other (hstep : SetStep ctx st d st' k) (h : TabInv st.tab)
    (hd : ¬ d.IsAbout name) :
    entryOf st' name = entryOf st name ∧ (name ∈ st'.definedTwice ↔ name ∈ st.definedTwice) := by
  cases hstep with
  | put hnew =>
      refine ⟨?_, Iff.rfl⟩
      have hlookup : (putElfSym st.tab d.normal).1.lookup name = st.tab.lookup name := by
        rw [h.lookup_put, if_neg]
        unfold SymDef.normal
        dsimp only
        rw [stBind_stInfoOf]
        exact hd
      unfold entryOf
      dsimp only
      rw [hlookup]
      cases hk : st.tab.lookup name with
      | none => rfl
      | some j =>
          have hj := (h.lookup_some hk).2.1
          exact List.getElem?_append_left hj
  | merge hbind hk hesym =>
      have hname : d.name ≠ name := fun hname => hd ⟨hbind, hname⟩
      obtain ⟨-, -, hhashed, hnameOf⟩ := h.lookup_some hk
      have hb := mergeSym_bind_iff ctx hbind hhashed hesym
      refine ⟨?_, ?_⟩
      · unfold entryOf
        dsimp only
        rw [lookup_setSym hesym mergeSym_stName hb]
        cases hj : st.tab.lookup name with
        | none => rfl
        | some j =>
            have hne : k ≠ j := by
              rintro rfl
              have hother := (h.lookup_some hj).2.2.2
              rw [hnameOf] at hother
              refine hname ?_
              cases hdname : d.name
              cases name
              rw [hdname] at hother
              simpa using hother
            exact List.getElem?_set_ne hne
      · dsimp only
        split
        · rw [List.mem_append, List.mem_singleton]
          exact or_iff_left fun heq => hname heq.symm
        · exact Iff.rfl

/-- The first call for a name makes its entry. -/
theorem SetStep.first (hstep : SetStep ctx st d st' k) (h : TabInv st.tab) (hd : d.IsAbout name)
    (hnone : st.tab.lookup name = none) :
    (∃ sym, entryOf st' name = some sym ∧ sym.Holds d ∧ sym.stOther = d.other) ∧
      st'.definedTwice = st.definedTwice := by
  obtain ⟨hbind, rfl⟩ := hd
  cases hstep with
  | put hnew =>
      refine ⟨?_, rfl⟩
      have hlookup : (putElfSym st.tab d.normal).1.lookup d.name = some st.tab.syms.length := by
        rw [h.lookup_put, if_pos]
        unfold SymDef.normal
        dsimp only
        rw [stBind_stInfoOf]
        exact ⟨hbind, rfl⟩
      unfold entryOf
      dsimp only
      rw [hlookup]
      refine ⟨_, List.getElem?_concat_length, ⟨rfl, rfl, ?_, rfl⟩, rfl⟩
      exact stInfoOf_eq d.info
  | merge hbind hk hesym =>
      rw [hnone] at hk
      exact absurd hk (by simp)

/-- Another call for a name is merged into its entry. -/
theorem SetStep.again (hstep : SetStep ctx st d st' k) (h : TabInv st.tab) (hd : d.IsAbout name)
    (hsym : entryOf st name = some sym) :
    entryOf st' name = some (mergeSym ctx sym d).1 ∧
      (name ∈ st'.definedTwice ↔
        name ∈ st.definedTwice ∨ (mergeSym ctx sym d).2 = .definedTwice) := by
  obtain ⟨hbind, rfl⟩ := hd
  cases hstep with
  | put hnew =>
      rcases hnew with hlocal | hnone
      · exact absurd hlocal hbind
      · unfold entryOf at hsym
        rw [hnone] at hsym
        exact absurd hsym (by simp)
  | merge _ hk hesym =>
      obtain ⟨-, -, hhashed, -⟩ := h.lookup_some hk
      have hb := mergeSym_bind_iff ctx hbind hhashed hesym
      unfold entryOf at hsym
      rw [hk, Option.bind_some, hesym] at hsym
      obtain rfl := Option.some.inj hsym
      refine ⟨?_, ?_⟩
      · unfold entryOf
        dsimp only
        rw [lookup_setSym hesym mergeSym_stName hb, hk, Option.bind_some]
        exact List.getElem?_set_self (List.getElem?_eq_some_iff.mp hesym).1
      · dsimp only
        split
        · next htwice => simp [htwice]
        · next htwice => simp [htwice]

/-- An entry stays global or weak, and is not set by `.set`. -/
theorem mergeSym_plain (hctx : ctx.Static) (hd : d.Plain)
    (hbind : stBind sym.stInfo = stbGlobal ∨ stBind sym.stInfo = stbWeak)
    (hset : sym.stOther &&& stAsmSet = 0) :
    (stBind (mergeSym ctx sym d).1.stInfo = stbGlobal ∨
        stBind (mergeSym ctx sym d).1.stInfo = stbWeak) ∧
      (mergeSym ctx sym d).1.stOther &&& stAsmSet = 0 := by
  by_cases hsame : sym.Same d
  · rw [mergeSym_same hsame]
    exact ⟨hbind, hset⟩
  · by_cases hkind : sym.kind ctx.bss = .reference
    · rw [mergeSym_reference hsame hkind]
      dsimp only
      rw [Sym.patch_bind]
      exact ⟨hd.bind, hd.notSet⟩
    · rw [mergeSym_defined hsame hctx hd hbind hset hkind]
      dsimp only
      split
      · rw [Sym.patch_bind]
        exact ⟨hd.bind, constrain_notSet hset⟩
      · exact ⟨hbind, constrain_notSet hset⟩

/-- The rules for the first call. -/
theorem resolved_singleton {bss : BitVec 16} {reported : Prop} (hholds : sym.Holds d)
    (hother : sym.stOther = d.other) (hreported : ¬ reported) :
    Resolved bss [d] sym reported := by
  refine ⟨⟨d, by simp, hholds, fun d' hd' => ?_⟩, fun hweak => ⟨d, ?_, hholds⟩, fun _ => ?_, ?_, ?_⟩
  · rw [List.mem_singleton.mp hd']
  · rw [List.find?_singleton, if_pos (by simp [← hholds.kind_eq, hweak])]
  · rw [hholds.2.2.1]
    simp
  · refine iff_of_false hreported ?_
    rw [List.countP_singleton]
    split <;> omega
  · rw [hother]
    exact mostConstraining_singleton

end Entry

/-! ## Runs -/

/-- The entry of the name follows the rules throughout the run. -/
def MeetsRules (ctx : Ctx) (name : CString) (calls : List SymDef) : Prop :=
  ∀ p, p <+: calls → about name p ≠ [] → ∃ st sym, runSet ctx p = some st ∧
    entryOf st name = some sym ∧
    Resolved ctx.bss (about name p) sym (name ∈ st.definedTwice)

/-- Every call for the name keeps to the rules where it is made. -/
def StepsOk (ctx : Ctx) (name : CString) (calls : List SymDef) : Prop :=
  ∀ p d, p ++ [d] <+: calls → d.IsAbout name → ∀ st sym, runSet ctx p = some st →
    entryOf st name = some sym → StepOk ctx.bss sym (name ∈ st.definedTwice) d

/-- What a run comes to, as far as a name goes. -/
structure NameRun (ctx : Ctx) (name : CString) (calls : List SymDef) (st : LinkState) : Prop where
  run : runSet ctx calls = some st
  inv : TabInv st.tab
  hash : ∃ hs, st.tab.hash = some hs
  fresh : about name calls = [] → st.tab.lookup name = none ∧ name ∉ st.definedTwice
  entry : about name calls ≠ [] → ∃ sym, entryOf st name = some sym ∧
    (stBind sym.stInfo = stbGlobal ∨ stBind sym.stInfo = stbWeak) ∧ sym.stOther &&& stAsmSet = 0

section Runs

variable {ctx : Ctx} {name : CString} {calls : List SymDef} {d : SymDef} {st : LinkState}

theorem about_append : about name (calls ++ [d]) = about name calls ++ if d.IsAbout name then [d] else [] := by
  unfold about
  rw [List.filter_append, List.filter_singleton]
  by_cases hd : d.IsAbout name
  · simp [hd]
  · simp [hd]

theorem runSet_append {st' : LinkState} {k : Nat} (hrun : runSet ctx calls = some st)
    (hset : setElfSym ctx st d = some (st', k)) : runSet ctx (calls ++ [d]) = some st' := by
  unfold runSet runCalls at *
  rw [List.map_append, List.foldlM_append, hrun]
  show (SymCall.set d).run ctx st >>= _ = _
  rw [SymCall.run, hset]
  rfl

theorem nameRun_nil : NameRun ctx name [] linkStart where
  run := rfl
  inv := tabInv_new
  hash := ⟨_, rfl⟩
  fresh _ := by
    refine ⟨?_, by simp [linkStart]⟩
    simp [linkStart, SymTab.lookup, newSymtab, SymTab.isHashed, stBind, stbLocal]
  entry h := absurd rfl h

/-- One more call, for another name or for this one. -/
theorem NameRun.step (h : NameRun ctx name calls st) (hctx : ctx.Static)
    (hd : d.IsAbout name → d.Plain) :
    ∃ st', NameRun ctx name (calls ++ [d]) st' ∧
      (¬ d.IsAbout name → entryOf st' name = entryOf st name ∧
        (name ∈ st'.definedTwice ↔ name ∈ st.definedTwice)) ∧
      (d.IsAbout name → about name calls = [] → ∃ sym, entryOf st' name = some sym ∧
        sym.Holds d ∧ sym.stOther = d.other ∧ name ∉ st'.definedTwice) ∧
      (d.IsAbout name → ∀ sym, entryOf st name = some sym →
        entryOf st' name = some (mergeSym ctx sym d).1 ∧
        (name ∈ st'.definedTwice ↔
          name ∈ st.definedTwice ∨ (mergeSym ctx sym d).2 = .definedTwice)) := by
  obtain ⟨hs, hhash⟩ := h.hash
  obtain ⟨st', k, hset, hstep⟩ := h.inv.setElfSym ctx d hhash
  obtain ⟨hinv', hhash', hlookup⟩ := hstep.inv h.inv hhash
  refine ⟨st', ⟨runSet_append h.run hset, hinv', hhash', fun hempty => ?_, fun hne => ?_⟩,
    fun hother => hstep.other h.inv hother, fun habout hempty => ?_,
    fun habout sym hsym => hstep.again h.inv habout hsym⟩
  · rw [about_append, List.append_eq_nil_iff] at hempty
    have hother : ¬ d.IsAbout name := by
      intro habout
      rw [if_pos habout] at hempty
      exact absurd hempty.2 (by simp)
    obtain ⟨hnone, hreported⟩ := h.fresh hempty.1
    refine ⟨?_, ?_⟩
    · rw [hlookup name,
        if_neg (show ¬ (stBind d.info ≠ stbLocal ∧ d.name = name) from hother)]
      exact hnone
    · rw [(hstep.other h.inv hother).2]
      exact hreported
  · by_cases habout : d.IsAbout name
    · by_cases hempty : about name calls = []
      · obtain ⟨⟨sym, hsym, hholds, hother⟩, -⟩ := hstep.first h.inv habout (h.fresh hempty).1
        refine ⟨sym, hsym, ?_, ?_⟩
        · rw [hholds.2.2.1]
          exact (hd habout).bind
        · rw [hother]
          exact (hd habout).notSet
      · obtain ⟨sym, hsym, hbind, hnotset⟩ := h.entry hempty
        exact ⟨_, (hstep.again h.inv habout hsym).1,
          mergeSym_plain hctx (hd habout) hbind hnotset⟩
    · rw [about_append, if_neg habout, List.append_nil] at hne
      rw [(hstep.other h.inv habout).1]
      exact h.entry hne
  · obtain ⟨⟨sym, hsym, hholds, hother⟩, htwice⟩ :=
      hstep.first h.inv habout (h.fresh hempty).1
    refine ⟨sym, hsym, hholds, hother, ?_⟩
    rw [htwice]
    exact (h.fresh hempty).2

/-- Every run comes to an end. -/
theorem exists_nameRun (hctx : ctx.Static)
    (hplain : ∀ d ∈ calls, d.IsAbout name → d.Plain) : ∃ st, NameRun ctx name calls st := by
  induction calls using List.reverseRecOn with
  | nil => exact ⟨_, nameRun_nil⟩
  | append_singleton calls d ih =>
      obtain ⟨st, h⟩ := ih fun d' hd' => hplain d' (List.mem_append_left _ hd')
      obtain ⟨st', h', -⟩ := h.step hctx (hplain d (by simp))
      exact ⟨st', h'⟩

/-- One more call for the name keeps the rules if and only if its step does. -/
theorem NameRun.resolved_iff {st' : LinkState} {sym : Sym} (h : NameRun ctx name calls st)
    (hctx : ctx.Static) (hd : d.Plain) (habout : d.IsAbout name)
    (hsym : entryOf st name = some sym)
    (hres : Resolved ctx.bss (about name calls) sym (name ∈ st.definedTwice))
    (h' : NameRun ctx name (calls ++ [d]) st') :
    (∃ sym', entryOf st' name = some sym' ∧
        Resolved ctx.bss (about name (calls ++ [d])) sym' (name ∈ st'.definedTwice)) ↔
      StepOk ctx.bss sym (name ∈ st.definedTwice) d := by
  obtain ⟨st'', h'', -, -, hagain⟩ := h.step hctx fun _ => hd
  obtain rfl : st'' = st' := Option.some.inj (h''.run.symm.trans h'.run)
  obtain ⟨hentry, htwice⟩ := hagain habout sym hsym
  have hne : about name calls ≠ [] := by
    intro hempty
    have hnone := (h.fresh hempty).1
    unfold entryOf at hsym
    rw [hnone] at hsym
    exact absurd hsym (by simp)
  obtain ⟨sym₁, hsym₁, hbind, hnotset⟩ := h.entry hne
  obtain rfl : sym₁ = sym := Option.some.inj (hsym₁.symm.trans hsym)
  rw [← hres.step_iff hctx hd hbind hnotset, about_append, if_pos habout, hentry]
  constructor
  · rintro ⟨sym', hsym', hres'⟩
    obtain rfl := Option.some.inj hsym'
    rw [propext htwice] at hres'
    exact hres'
  · intro hres'
    refine ⟨_, rfl, ?_⟩
    rw [propext htwice]
    exact hres'

/-- The entry of a name follows the rules throughout a run if and only if no call for it hides a
definition, or takes a visibility or a global binding back. -/
theorem meetsRules_iff (ctx : Ctx) (name : CString) (calls : List SymDef) (hctx : ctx.Static)
    (hplain : ∀ d ∈ calls, d.IsAbout name → d.Plain) :
    MeetsRules ctx name calls ↔ StepsOk ctx name calls := by
  constructor
  · intro hmeets p d hp habout st sym hrun hsym
    have hmem : ∀ d' ∈ p ++ [d], d'.IsAbout name → d'.Plain := fun d' hd' =>
      hplain d' (hp.subset hd')
    have hd : d.Plain := hmem d (by simp) habout
    obtain ⟨st₁, h⟩ := exists_nameRun hctx fun d' hd' => hmem d' (List.mem_append_left _ hd')
    obtain rfl : st₁ = st := Option.some.inj (h.run.symm.trans hrun)
    obtain ⟨st', h'⟩ := exists_nameRun hctx hmem
    have hne : about name p ≠ [] := by
      intro hempty
      have hnone := (h.fresh hempty).1
      unfold entryOf at hsym
      rw [hnone] at hsym
      exact absurd hsym (by simp)
    have hmeet := hmeets p ((List.prefix_append p [d]).trans hp) hne
    obtain ⟨st₂, sym₂, hrun₂, hsym₂, hres⟩ := hmeet
    obtain rfl : st₂ = st₁ := Option.some.inj (hrun₂.symm.trans hrun)
    obtain rfl : sym₂ = sym := Option.some.inj (hsym₂.symm.trans hsym)
    refine (h.resolved_iff hctx hd habout hsym hres h').mp ?_
    obtain ⟨st₃, sym₃, hrun₃, hsym₃, hres₃⟩ := hmeets (p ++ [d]) hp (by
      rw [about_append, if_pos habout]
      simp)
    obtain rfl : st₃ = st' := Option.some.inj (hrun₃.symm.trans h'.run)
    exact ⟨sym₃, hsym₃, hres₃⟩
  · intro hsteps p hp
    induction p using List.reverseRecOn with
    | nil => exact fun hne => absurd rfl hne
    | append_singleton p d ih =>
        intro hne
        have hmem : ∀ d' ∈ p ++ [d], d'.IsAbout name → d'.Plain := fun d' hd' =>
          hplain d' (hp.subset hd')
        have hpre := (List.prefix_append p [d]).trans hp
        obtain ⟨st, h⟩ := exists_nameRun hctx fun d' hd' => hmem d' (List.mem_append_left _ hd')
        obtain ⟨st', h', hother, hfirst, -⟩ := h.step hctx (hmem d (by simp))
        by_cases habout : d.IsAbout name
        · by_cases hempty : about name p = []
          · obtain ⟨sym, hsym, hholds, hvis, hreported⟩ := hfirst habout hempty
            refine ⟨st', sym, h'.run, hsym, ?_⟩
            rw [about_append, hempty, if_pos habout, List.nil_append]
            exact resolved_singleton hholds hvis hreported
          · obtain ⟨st₁, sym, hrun, hsym, hres⟩ := ih hpre hempty
            obtain rfl : st₁ = st := Option.some.inj (hrun.symm.trans h.run)
            have hok := hsteps p d hp habout st₁ sym hrun hsym
            obtain ⟨sym', hsym', hres'⟩ :=
              (h.resolved_iff hctx (hmem d (by simp) habout) habout hsym hres h').mpr hok
            exact ⟨st', sym', h'.run, hsym', hres'⟩
        · rw [about_append, if_neg habout, List.append_nil] at hne ⊢
          obtain ⟨st₁, sym, hrun, hsym, hres⟩ := ih hpre hne
          obtain rfl : st₁ = st := Option.some.inj (hrun.symm.trans h.run)
          obtain ⟨hentry, htwice⟩ := hother habout
          refine ⟨st', sym, h'.run, hentry.trans hsym, ?_⟩
          rw [propext htwice]
          exact hres

end Runs

/-! ## A reference that is taken back -/

def staticCtx : Ctx := ⟨4, false⟩

theorem noZero_nameF : 0 ∉ [(102 : UInt8)] := by decide

def nameF : CString := ⟨[102], noZero_nameF⟩

/-- A reference to `f`, global or weak. -/
def reference (bind : BitVec 4) : SymDef := ⟨0, 0, stInfoOf bind 0, 0, shnUndef, nameF⟩

theorem staticCtx_static : staticCtx.Static := ⟨rfl, by decide, by decide⟩

theorem meetsRules_iff_reference :
    MeetsRules staticCtx nameF [reference stbWeak, reference stbGlobal] ↔
      StepsOk staticCtx nameF [reference stbWeak, reference stbGlobal] :=
  meetsRules_iff staticCtx nameF _ staticCtx_static fun d hd _ => by
    rcases List.mem_cons.mp hd with rfl | hd
    · exact ⟨.inr (by decide), by decide⟩
    · rw [List.mem_singleton.mp hd]
      exact ⟨.inl (by decide), by decide⟩

theorem weakReference_not_meetsRules :
    ¬ MeetsRules staticCtx nameF [reference stbGlobal, reference stbWeak] := by
  intro hmeets
  obtain ⟨st, sym, hrun, hsym, hres⟩ := hmeets _ (List.prefix_refl _) (by decide)
  have hentry : (runSet staticCtx [reference stbGlobal, reference stbWeak]).bind
      (entryOf · nameF) = some ⟨1, 0, 0, stInfoOf stbWeak 0, 0, 0⟩ := by
    decide
  rw [hrun, Option.bind_some, hsym] at hentry
  obtain rfl := Option.some.inj hentry
  have hglobal := (hres.undefined (by decide)).mpr ⟨reference stbGlobal, List.mem_cons_self, by decide⟩
  exact absurd hglobal (by decide)

end TccRiscv64.Elf
