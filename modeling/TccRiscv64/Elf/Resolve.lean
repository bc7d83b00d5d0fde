import TccRiscv64.Elf.Calls

set_option autoImplicit false

/-! # The linker's resolution of a name

A strong definition wins over a common one, that over a weak one, and that over a reference, whatever
the order. What `set_elf_sym` makes of any number of calls for a name is compared with these rules. -/

namespace TccRiscv64.Elf

/-! ## The rules -/

/-- What a symbol is to the linker, from the weakest on. -/
inductive Kind
  | reference
  | weak
  /-- common, or in `.bss` -/
  | tentative
  | strong
  deriving DecidableEq

def Kind.rank : Kind → Nat
  | .reference => 0
  | .weak => 1
  | .tentative => 2
  | .strong => 3

/-- The kind of a symbol of some section, and with some `st_info`. -/
def kindOf (bss shndx : BitVec 16) (info : BitVec 8) : Kind :=
  if shndx = shnUndef then .reference
  else if stBind info = stbWeak then .weak
  else if shndx = shnCommon ∨ shndx = bss then .tentative
  else .strong

def SymDef.kind (bss : BitVec 16) (d : SymDef) : Kind := kindOf bss d.shndx d.info

def Sym.kind (bss : BitVec 16) (sym : Sym) : Kind := kindOf bss sym.stShndx sym.stInfo

/-- How constraining a visibility is. -/
def visRank (vis : BitVec 2) : Nat :=
  if vis = stvInternal then 3 else if vis = stvHidden then 2 else if vis = stvDefault then 0 else 1

/-- A symbol is what a call says, but for its visibility. -/
def Sym.Holds (sym : Sym) (d : SymDef) : Prop :=
  sym.stValue = d.value ∧ sym.stSize = d.size ∧ sym.stInfo = d.info ∧ sym.stShndx = d.shndx

/-- The entry is what the call says already. -/
def Sym.Same (sym : Sym) (d : SymDef) : Prop := sym.Holds d ∧ sym.stOther = d.other

/-- The most constraining visibility of some calls. -/
def MostConstraining (ds : List SymDef) (vis : BitVec 2) : Prop :=
  (∃ d ∈ ds, stVisibility d.other = vis) ∧ ∀ d ∈ ds, visRank (stVisibility d.other) ≤ visRank vis

/-- The entry of a name follows the rules after some calls; `reported` says that an error was. -/
structure Resolved (bss : BitVec 16) (ds : List SymDef) (sym : Sym) (reported : Prop) : Prop where
  wins : ∃ d ∈ ds, sym.Holds d ∧ ∀ d' ∈ ds, (d'.kind bss).rank ≤ (d.kind bss).rank
  firstWeak : sym.kind bss = .weak → ∃ d, ds.find? (·.kind bss = .weak) = some d ∧ sym.Holds d
  undefined : sym.kind bss = .reference →
    (stBind sym.stInfo = stbGlobal ↔ ∃ d ∈ ds, stBind d.info = stbGlobal)
  twice : reported ↔ 2 ≤ ds.countP (·.kind bss = .strong)
  visibility : MostConstraining ds (stVisibility sym.stOther)

/-- A call for a global or weak symbol that is not set by `.set`. -/
structure SymDef.Plain (d : SymDef) : Prop where
  bind : stBind d.info = stbGlobal ∨ stBind d.info = stbWeak
  notSet : d.other &&& stAsmSet = 0

/-- The table is a static one, and `.bss` is a section. -/
structure Ctx.Static (ctx : Ctx) : Prop where
  static : ctx.dynsym = false
  defined : ctx.bss ≠ shnUndef
  section_ : ctx.bss < shnLoreserve

/-- A call for a name whose entry is `sym` keeps to the rules. -/
def StepOk (bss : BitVec 16) (sym : Sym) (reported : Prop) (d : SymDef) : Prop :=
  match sym.kind bss, d.kind bss with
  | .reference, .reference =>
    visRank (stVisibility sym.stOther) ≤ visRank (stVisibility d.other) ∧
      (stBind sym.stInfo = stbGlobal → stBind d.info = stbGlobal)
  | .reference, _ => visRank (stVisibility sym.stOther) ≤ visRank (stVisibility d.other)
  | .tentative, .strong =>
    stVisibility d.other ≠ stvHidden ∧ stVisibility d.other ≠ stvInternal ∧
      d.shndx < shnLoreserve
  | .strong, .strong =>
    reported ∨ stVisibility d.other ≠ stvHidden ∧ stVisibility d.other ≠ stvInternal ∧
      ¬ sym.Same d
  | _, _ => True

/-! ## Visibilities -/

section Visibility

variable {ds : List SymDef} {d : SymDef} {vis : BitVec 2}

theorem visRank_newVis (v w : BitVec 2) :
    newVis v w = v ∧ visRank w ≤ visRank v ∨ newVis v w = w ∧ visRank v ≤ visRank w := by
  revert v w
  decide

theorem stVisibility_append (other : BitVec 6) : stVisibility (other ++ vis) = vis := by
  apply BitVec.eq_of_getLsbD_eq
  intro i hi
  unfold stVisibility
  rw [BitVec.getLsbD_extractLsb', BitVec.getLsbD_append]
  simp [hi]

theorem mostConstraining_singleton : MostConstraining [d] (stVisibility d.other) :=
  ⟨⟨d, by simp, rfl⟩, by simp⟩

theorem MostConstraining.append (h : MostConstraining ds vis) :
    MostConstraining (ds ++ [d]) (newVis vis (stVisibility d.other)) := by
  obtain ⟨⟨d₀, hd₀, hvis⟩, hmax⟩ := h
  rcases visRank_newVis vis (stVisibility d.other) with ⟨hnew, hle⟩ | ⟨hnew, hle⟩
  · rw [hnew]
    refine ⟨⟨d₀, List.mem_append_left _ hd₀, hvis⟩, fun d' hd' => ?_⟩
    rcases List.mem_append.mp hd' with hold | hd'
    · exact hmax d' hold
    · rw [List.mem_singleton.mp hd']
      exact hle
  · rw [hnew]
    refine ⟨⟨d, by simp, rfl⟩, fun d' hd' => ?_⟩
    rcases List.mem_append.mp hd' with hold | hd'
    · exact (hmax d' hold).trans hle
    · rw [List.mem_singleton.mp hd']

/-- The visibility of the last call is the most constraining one. -/
theorem MostConstraining.last_iff (h : MostConstraining ds vis) :
    MostConstraining (ds ++ [d]) (stVisibility d.other) ↔
      visRank vis ≤ visRank (stVisibility d.other) := by
  obtain ⟨⟨d₀, hd₀, hvis⟩, hmax⟩ := h
  constructor
  · rintro ⟨-, hall⟩
    rw [← hvis]
    exact hall d₀ (List.mem_append_left _ hd₀)
  · intro hle
    refine ⟨⟨d, by simp, rfl⟩, fun d' hd' => ?_⟩
    rcases List.mem_append.mp hd' with hold | hd'
    · exact (hmax d' hold).trans hle
    · rw [List.mem_singleton.mp hd']

end Visibility

/-! ## What a call makes of an entry -/

section Merge

variable {ctx : Ctx} {sym : Sym} {d : SymDef}

theorem Sym.Holds.kind_eq {bss : BitVec 16} (h : sym.Holds d) : sym.kind bss = d.kind bss := by
  obtain ⟨-, -, hinfo, hshndx⟩ := h
  unfold Sym.kind SymDef.kind
  rw [hinfo, hshndx]

theorem stInfoOf_eq (info : BitVec 8) : stInfoOf (stBind info) (stType info) = info := by
  apply BitVec.eq_of_getLsbD_eq
  intro i hi
  unfold stInfoOf stBind stType
  rw [BitVec.getLsbD_append]
  split
  · next hlt => rw [BitVec.getLsbD_extractLsb']; simp [hlt]
  · next hlt =>
      rw [BitVec.getLsbD_extractLsb', show 4 + (i - 4) = i by omega]
      simp [show i - 4 < 4 by omega]

theorem patch_holds : (sym.patch d).Holds d := ⟨rfl, rfl, stInfoOf_eq d.info, rfl⟩

theorem kindOf_reference {bss shndx : BitVec 16} {info : BitVec 8} :
    kindOf bss shndx info = .reference ↔ shndx = shnUndef := by
  unfold kindOf
  split_ifs <;> simp [*]

theorem kindOf_weak {bss shndx : BitVec 16} {info : BitVec 8} :
    kindOf bss shndx info = .weak ↔ shndx ≠ shnUndef ∧ stBind info = stbWeak := by
  unfold kindOf
  split_ifs <;> simp [*]

theorem kindOf_tentative {bss shndx : BitVec 16} {info : BitVec 8} :
    kindOf bss shndx info = .tentative ↔
      shndx ≠ shnUndef ∧ stBind info ≠ stbWeak ∧ (shndx = shnCommon ∨ shndx = bss) := by
  unfold kindOf
  split_ifs <;> simp [*]

theorem kindOf_strong {bss shndx : BitVec 16} {info : BitVec 8} :
    kindOf bss shndx info = .strong ↔
      shndx ≠ shnUndef ∧ stBind info ≠ stbWeak ∧ ¬ (shndx = shnCommon ∨ shndx = bss) := by
  unfold kindOf
  split_ifs <;> simp [*]

/-- What is done with an entry that is defined, by the kinds of the entry and of the call. -/
def mergeKind (symKind kind : Kind) (d : SymDef) : Merge :=
  match symKind, kind with
  | .weak, .tentative => .patch
  | .weak, .strong => .patch
  | .tentative, .strong =>
    if stVisibility d.other = stvHidden ∨ stVisibility d.other = stvInternal then .keep
    else if d.shndx < shnLoreserve then .patch
    else .definedTwice
  | .strong, .strong =>
    if stVisibility d.other = stvHidden ∨ stVisibility d.other = stvInternal then .keep
    else .definedTwice
  | _, _ => .keep

theorem mergeDefined_eq (hctx : ctx.Static) (hd : d.Plain)
    (hbind : stBind sym.stInfo = stbGlobal ∨ stBind sym.stInfo = stbWeak)
    (hset : sym.stOther &&& stAsmSet = 0) (hdef : sym.kind ctx.bss ≠ .reference) :
    mergeDefined ctx sym d = mergeKind (sym.kind ctx.bss) (d.kind ctx.bss) d := by
  have hgw : stbGlobal ≠ stbWeak := by decide
  have hcommon : ¬ shnCommon < shnLoreserve := by decide
  cases hkd : d.kind ctx.bss with
  | reference =>
      have hundef := kindOf_reference.mp hkd
      cases sym.kind ctx.bss <;> simp [mergeDefined, mergeKind, hundef]
  | weak =>
      obtain ⟨hshndx, hweak⟩ := kindOf_weak.mp hkd
      have hkeep : mergeDefined ctx sym d = .keep := by
        rcases hbind with h | h <;> simp [mergeDefined, hshndx, hweak, h, hgw.symm, hgw]
      rw [hkeep]
      cases sym.kind ctx.bss <;> rfl
  | tentative =>
      obtain ⟨hshndx, hglobal, hsec⟩ := kindOf_tentative.mp hkd
      have hglobal : stBind d.info = stbGlobal := hd.bind.resolve_right hglobal
      have hlate : ¬ (d.shndx < shnLoreserve ∧ d.shndx ≠ ctx.bss) := by
        rintro ⟨hlt, hne⟩
        rw [hsec.resolve_right hne] at hlt
        exact hcommon hlt
      cases hks : sym.kind ctx.bss with
      | reference => exact absurd hks hdef
      | weak =>
          have hweak := (kindOf_weak.mp hks).2
          simp [mergeDefined, mergeKind, hshndx, hglobal, hweak]
      | tentative =>
          have hstrong := (kindOf_tentative.mp hks).2.1
          simp [mergeDefined, mergeKind, hshndx, hglobal, hstrong, hgw, hlate, hsec]
      | strong =>
          have hstrong := (kindOf_strong.mp hks).2.1
          simp [mergeDefined, mergeKind, hshndx, hglobal, hstrong, hgw, hlate, hsec]
  | strong =>
      obtain ⟨hshndx, hglobal, hsec⟩ := kindOf_strong.mp hkd
      have hglobal : stBind d.info = stbGlobal := hd.bind.resolve_right hglobal
      have hbss : d.shndx ≠ ctx.bss := fun h => hsec (.inr h)
      cases hks : sym.kind ctx.bss with
      | reference => exact absurd hks hdef
      | weak =>
          have hweak := (kindOf_weak.mp hks).2
          simp [mergeDefined, mergeKind, hshndx, hglobal, hweak]
      | tentative =>
          obtain ⟨-, hstrong, htent⟩ := kindOf_tentative.mp hks
          have hcom : d.shndx ≠ shnCommon := fun h => hsec (.inl h)
          by_cases hlt : d.shndx < shnLoreserve
          · simp [mergeDefined, mergeKind, hshndx, hglobal, hstrong, hgw, hbss, htent, hlt]
          · simp [mergeDefined, mergeKind, hshndx, hglobal, hstrong, hgw, hbss, hcom, hlt,
              hctx.static, hset]
      | strong =>
          obtain ⟨-, hstrong, htent⟩ := kindOf_strong.mp hks
          simp [mergeDefined, mergeKind, hshndx, hglobal, hstrong, hgw, hsec, htent, hctx.static,
            hset]

/-- The entry with the visibility of a call in it. -/
def Sym.constrain (sym : Sym) (d : SymDef) : Sym :=
  { sym with
    stOther := sym.stOther.extractLsb' 2 6 ++
      newVis (stVisibility sym.stOther) (stVisibility d.other) }

theorem mergeSym_same (h : sym.Same d) : mergeSym ctx sym d = (sym, .keep) := by
  obtain ⟨⟨hvalue, hsize, hinfo, hshndx⟩, hother⟩ := h
  unfold mergeSym
  rw [if_pos ⟨hvalue, hsize, hinfo, hother, hshndx⟩]

theorem mergeSym_reference (h : ¬ sym.Same d) (hkind : sym.kind ctx.bss = .reference) :
    mergeSym ctx sym d = ({ sym with stOther := d.other }.patch d, .patch) := by
  have hundef : sym.stShndx = shnUndef := kindOf_reference.mp hkind
  unfold mergeSym
  rw [if_neg, if_neg (not_not_intro hundef)]
  rintro ⟨hvalue, hsize, hinfo, hother, hshndx⟩
  exact h ⟨⟨hvalue, hsize, hinfo, hshndx⟩, hother⟩

theorem constrain_notSet (hset : sym.stOther &&& stAsmSet = 0) :
    (sym.constrain d).stOther &&& stAsmSet = 0 := by
  apply BitVec.eq_of_getLsbD_eq
  intro i hi
  have hbit := congrArg (·.getLsbD i) hset
  simp only [BitVec.getLsbD_and] at hbit ⊢
  by_cases h2 : i = 2
  · subst h2
    rw [← hbit]
    unfold Sym.constrain
    rw [BitVec.getLsbD_append]
    simp
  · have hset : stAsmSet.getLsbD i = false := by
      have hall : ∀ i < 8, i ≠ 2 → stAsmSet.getLsbD i = false := by decide
      exact hall i hi h2
    rw [hset, Bool.and_false]
    simp

theorem mergeSym_defined (h : ¬ sym.Same d) (hctx : ctx.Static) (hd : d.Plain)
    (hbind : stBind sym.stInfo = stbGlobal ∨ stBind sym.stInfo = stbWeak)
    (hset : sym.stOther &&& stAsmSet = 0) (hdef : sym.kind ctx.bss ≠ .reference) :
    mergeSym ctx sym d =
      (if mergeKind (sym.kind ctx.bss) (d.kind ctx.bss) d = .patch then (sym.constrain d).patch d
        else sym.constrain d, mergeKind (sym.kind ctx.bss) (d.kind ctx.bss) d) := by
  have hundef : sym.stShndx ≠ shnUndef := fun h => hdef (kindOf_reference.mpr h)
  have hmerge : mergeDefined ctx (sym.constrain d) d =
      mergeKind (sym.kind ctx.bss) (d.kind ctx.bss) d :=
    mergeDefined_eq hctx hd hbind (constrain_notSet hset) hdef
  unfold mergeSym
  rw [if_neg, if_pos hundef]
  · rw [Sym.constrain] at hmerge
    dsimp only
    rw [hmerge]
    cases mergeKind (sym.kind ctx.bss) (d.kind ctx.bss) d <;> rfl
  · rintro ⟨hvalue, hsize, hinfo, hother, hshndx⟩
    exact h ⟨⟨hvalue, hsize, hinfo, hshndx⟩, hother⟩

end Merge

/-! ## The rules, call by call -/

section Step

variable {ctx : Ctx} {bss : BitVec 16} {ds : List SymDef} {d : SymDef} {sym sym' : Sym}
  {reported reported' : Prop}

/-- No call is of a stronger kind than the entry. -/
theorem Resolved.rank_le (h : Resolved bss ds sym reported) {d' : SymDef} (hd' : d' ∈ ds) :
    (d'.kind bss).rank ≤ (sym.kind bss).rank := by
  obtain ⟨d₀, -, hholds, hmax⟩ := h.wins
  rw [hholds.kind_eq]
  exact hmax d' hd'

theorem Resolved.countP_eq_zero (h : Resolved bss ds sym reported)
    (hkind : sym.kind bss ≠ .strong) : ds.countP (·.kind bss = .strong) = 0 := by
  rw [List.countP_eq_zero]
  intro d' hd' hstrong
  have hle := h.rank_le hd'
  rw [of_decide_eq_true hstrong] at hle
  cases hs : sym.kind bss with
  | strong => exact hkind hs
  | reference | weak | tentative =>
      rw [hs] at hle
      exact absurd hle (by decide)

theorem Resolved.countP_pos (h : Resolved bss ds sym reported) (hkind : sym.kind bss = .strong) :
    0 < ds.countP (·.kind bss = .strong) := by
  obtain ⟨d₀, hd₀, hholds, -⟩ := h.wins
  rw [List.countP_pos_iff]
  exact ⟨d₀, hd₀, decide_eq_true (by rw [← hholds.kind_eq, hkind])⟩

theorem countP_append_singleton :
    (ds ++ [d]).countP (·.kind bss = .strong) =
      ds.countP (·.kind bss = .strong) + if d.kind bss = .strong then 1 else 0 := by
  rw [List.countP_append, List.countP_singleton]
  by_cases hd : d.kind bss = .strong
  · simp [hd]
  · simp [hd]

/-- The entry is kept. -/
theorem Resolved.kept (h : Resolved bss ds sym reported)
    (hholds : ∀ d, sym.Holds d → sym'.Holds d) (hinfo : sym'.stInfo = sym.stInfo)
    (hle : (d.kind bss).rank ≤ (sym.kind bss).rank)
    (hundef : sym.kind bss = .reference →
      stBind d.info = stbGlobal → stBind sym.stInfo = stbGlobal)
    (hvis : MostConstraining (ds ++ [d]) (stVisibility sym'.stOther))
    (htwice : reported' ↔ 2 ≤ (ds ++ [d]).countP (·.kind bss = .strong)) :
    Resolved bss (ds ++ [d]) sym' reported' := by
  obtain ⟨d₀, hd₀, hsym, hmax⟩ := h.wins
  have hkind : sym'.kind bss = sym.kind bss := by
    rw [hsym.kind_eq, (hholds d₀ hsym).kind_eq]
  refine ⟨⟨d₀, List.mem_append_left _ hd₀, hholds d₀ hsym, fun d' hd' => ?_⟩, fun hweak => ?_,
    fun href => ?_, htwice, hvis⟩
  · rcases List.mem_append.mp hd' with hold | hd'
    · exact hmax d' hold
    · rw [List.mem_singleton.mp hd', ← hsym.kind_eq]
      exact hle
  · obtain ⟨d₁, hfind, hd₁⟩ := h.firstWeak (hkind.symm.trans hweak)
    exact ⟨d₁, by rw [List.find?_append, hfind]; rfl, hholds d₁ hd₁⟩
  · have href : sym.kind bss = .reference := hkind.symm.trans href
    rw [hinfo, h.undefined href]
    constructor
    · rintro ⟨d', hd', hglobal⟩
      exact ⟨d', List.mem_append_left _ hd', hglobal⟩
    · rintro ⟨d', hd', hglobal⟩
      rcases List.mem_append.mp hd' with hold | hd'
      · exact ⟨d', hold, hglobal⟩
      · rw [List.mem_singleton.mp hd'] at hglobal
        exact (h.undefined href).mp (hundef href hglobal)

/-- The entry is replaced by what the call says. -/
theorem Resolved.patched (h : Resolved bss ds sym reported) (hholds : sym'.Holds d)
    (hle : (sym.kind bss).rank ≤ (d.kind bss).rank)
    (hweak : d.kind bss = .weak → sym.kind bss = .reference)
    (hundef : d.kind bss = .reference →
      stBind sym.stInfo = stbGlobal → stBind d.info = stbGlobal)
    (hvis : MostConstraining (ds ++ [d]) (stVisibility sym'.stOther))
    (htwice : reported' ↔ 2 ≤ (ds ++ [d]).countP (·.kind bss = .strong)) :
    Resolved bss (ds ++ [d]) sym' reported' := by
  have hkind : sym'.kind bss = d.kind bss := hholds.kind_eq
  refine ⟨⟨d, by simp, hholds, fun d' hd' => ?_⟩, fun hw => ⟨d, ?_, hholds⟩, fun href => ?_, htwice,
    hvis⟩
  · rcases List.mem_append.mp hd' with hold | hd'
    · exact (h.rank_le hold).trans hle
    · rw [List.mem_singleton.mp hd']
  · -- the calls before are references
    rw [hkind] at hw
    have hnone : ds.find? (·.kind bss = .weak) = none := by
      rw [List.find?_eq_none]
      intro d' hd' hd'w
      have hrank := h.rank_le hd'
      rw [of_decide_eq_true hd'w, hweak hw] at hrank
      exact absurd hrank (by decide)
    rw [List.find?_append, hnone, Option.none_or, List.find?_singleton, if_pos (by simp [hw])]
  · have hd : d.kind bss = .reference := hkind.symm.trans href
    rw [hholds.2.2.1]
    constructor
    · exact fun hglobal => ⟨d, by simp, hglobal⟩
    · rintro ⟨d', hd', hglobal⟩
      rcases List.mem_append.mp hd' with hold | hd'
      · have hsym : sym.kind bss = .reference := by
          rw [hd] at hle
          cases hs : sym.kind bss with
          | reference => rfl
          | weak | tentative | strong =>
              rw [hs] at hle
              exact absurd hle (by decide)
        exact hundef hd ((h.undefined hsym).mpr ⟨d', hold, hglobal⟩)
      · rw [List.mem_singleton.mp hd'] at hglobal
        exact hglobal

/-- An entry that is weaker than a call does not follow the rules. -/
theorem Resolved.not_of_rank_lt (hlt : (sym'.kind bss).rank < (d.kind bss).rank) :
    ¬ Resolved bss (ds ++ [d]) sym' reported' := by
  intro h
  exact absurd (h.rank_le (by simp)) (Nat.not_le.mpr hlt)

/-- The call is what the entry says already. -/
theorem Resolved.same_iff (h : Resolved bss ds sym reported) (hsame : sym.Same d) :
    Resolved bss (ds ++ [d]) sym reported ↔ StepOk bss sym reported d := by
  obtain ⟨hholds, hother⟩ := hsame
  have hkind : sym.kind bss = d.kind bss := hholds.kind_eq
  have hvis : MostConstraining (ds ++ [d]) (stVisibility sym.stOther) := by
    have happend := h.visibility.append (d := d)
    rw [← hother] at happend
    rcases visRank_newVis (stVisibility sym.stOther) (stVisibility sym.stOther) with hv | hv
    · rw [hv.1] at happend
      exact happend
    · rw [hv.1] at happend
      exact happend
  have hkept : (reported ↔ 2 ≤ (ds ++ [d]).countP (·.kind bss = .strong)) →
      Resolved bss (ds ++ [d]) sym reported :=
    h.kept (fun _ hd => hd) rfl (by rw [hkind])
      (fun _ hglobal => by rw [hholds.2.2.1]; exact hglobal) hvis
  cases hk : sym.kind bss with
  | strong =>
      have hpos := h.countP_pos hk
      have hok : StepOk bss sym reported d ↔ reported := by
        unfold StepOk
        rw [← hkind, hk]
        exact or_iff_left fun hno => hno.2.2 ⟨hholds, hother⟩
      have hcount : 2 ≤ (ds ++ [d]).countP (·.kind bss = .strong) := by
        rw [countP_append_singleton, if_pos (hkind.symm.trans hk)]
        omega
      rw [hok]
      exact ⟨fun hres => hres.twice.mpr hcount, fun hrep => hkept (iff_of_true hrep hcount)⟩
  | reference | weak | tentative =>
      refine iff_of_true (hkept ?_) ?_
      · rw [countP_append_singleton, if_neg (by rw [← hkind, hk]; decide), Nat.add_zero]
        exact h.twice
      · unfold StepOk
        rw [← hkind, hk]
        first
          | trivial
          | exact ⟨by rw [hother], fun hglobal => by rw [← hholds.2.2.1]; exact hglobal⟩

/-- The entry is a reference, and the call replaces it. -/
theorem Resolved.reference_iff (h : Resolved bss ds sym reported)
    (hkind : sym.kind bss = .reference) (hholds : sym'.Holds d) (hother : sym'.stOther = d.other) :
    Resolved bss (ds ++ [d]) sym' reported ↔ StepOk bss sym reported d := by
  have hzero := h.countP_eq_zero (by rw [hkind]; decide)
  have htwice : reported ↔ 2 ≤ (ds ++ [d]).countP (·.kind bss = .strong) := by
    rw [h.twice, countP_append_singleton, hzero]
    refine iff_of_false (by decide) ?_
    split <;> omega
  have hle : (sym.kind bss).rank ≤ (d.kind bss).rank := by
    rw [hkind]
    exact Nat.zero_le _
  have hvis := h.visibility.last_iff (d := d)
  have hpatched : (d.kind bss = .reference →
        stBind sym.stInfo = stbGlobal → stBind d.info = stbGlobal) →
      MostConstraining (ds ++ [d]) (stVisibility d.other) →
      Resolved bss (ds ++ [d]) sym' reported := fun hundef hmost =>
    h.patched hholds hle (fun _ => hkind) hundef (by rw [hother]; exact hmost) htwice
  cases hd : d.kind bss with
  | reference =>
      unfold StepOk
      rw [hkind, hd]
      constructor
      · intro hres
        have hresvis := hres.visibility
        rw [hother] at hresvis
        refine ⟨hvis.mp hresvis, fun hglobal => ?_⟩
        obtain ⟨d', hd', hd'g⟩ := (h.undefined hkind).mp hglobal
        have hundef := hres.undefined (hholds.kind_eq.trans hd)
        rw [hholds.2.2.1] at hundef
        exact hundef.mpr ⟨d', List.mem_append_left _ hd', hd'g⟩
      · rintro ⟨hrank, hglobal⟩
        exact hpatched (fun _ => hglobal) (hvis.mpr hrank)
  | weak | tentative | strong =>
      unfold StepOk
      rw [hkind, hd]
      constructor
      · intro hres
        have hresvis := hres.visibility
        rw [hother] at hresvis
        exact hvis.mp hresvis
      · intro hrank
        exact hpatched (fun href => by rw [hd] at href; exact absurd href (by decide))
          (hvis.mpr hrank)

/-- The entry is defined, and is kept or replaced. -/
theorem Resolved.defined_iff {m : Merge} (h : Resolved bss ds sym reported)
    (hkind : sym.kind bss ≠ .reference) (hnotsame : ¬ sym.Same d)
    (hm : m = mergeKind (sym.kind bss) (d.kind bss) d) :
    Resolved bss (ds ++ [d]) (if m = .patch then (sym.constrain d).patch d else sym.constrain d)
        (reported ∨ m = .definedTwice) ↔ StepOk bss sym reported d := by
  have hvis : MostConstraining (ds ++ [d]) (stVisibility (sym.constrain d).stOther) := by
    unfold Sym.constrain
    rw [stVisibility_append]
    exact h.visibility.append
  have hcount := @countP_append_singleton bss ds d
  have htwice := h.twice
  -- what the entry comes to in the two ways
  have hkept : (d.kind bss).rank ≤ (sym.kind bss).rank → ∀ rep : Prop,
      (rep ↔ 2 ≤ (ds ++ [d]).countP (·.kind bss = .strong)) →
      Resolved bss (ds ++ [d]) (sym.constrain d) rep := fun hle _ =>
    h.kept (fun _ hd => hd) rfl hle (fun href => absurd href hkind) hvis
  have hpatched : (sym.kind bss).rank < (d.kind bss).rank → ∀ rep : Prop,
      (rep ↔ 2 ≤ (ds ++ [d]).countP (·.kind bss = .strong)) →
      Resolved bss (ds ++ [d]) ((sym.constrain d).patch d) rep := by
    intro hlt _
    have hone : 1 ≤ (sym.kind bss).rank := by
      cases hs : sym.kind bss with
      | reference => exact absurd hs hkind
      | weak | tentative | strong => decide
    refine h.patched patch_holds hlt.le (fun hw => ?_) (fun hr => ?_) hvis
    · rw [hw] at hlt
      exact absurd hlt (Nat.not_lt.mpr hone)
    · rw [hr] at hlt
      exact absurd hlt (Nat.not_lt_zero _)
  have hconstrain : (sym.constrain d).kind bss = sym.kind bss := rfl
  cases hs : sym.kind bss with
  | reference => exact absurd hs hkind
  | weak =>
      have hzero := h.countP_eq_zero (by rw [hs]; decide)
      cases hd : d.kind bss with
      | reference | weak =>
          rw [hs, hd] at hm
          obtain rfl : m = .keep := hm
          rw [hs, hd] at hkept
          rw [hd, if_neg (by decide)] at hcount
          refine iff_of_true (hkept (by decide) _ ?_) (by unfold StepOk; rw [hs, hd]; trivial)
          rw [or_iff_left (by decide), hcount, Nat.add_zero]
          exact htwice
      | tentative | strong =>
          rw [hs, hd] at hm
          obtain rfl : m = .patch := hm
          rw [hs, hd] at hpatched
          refine iff_of_true (hpatched (by decide) _ ?_) (by unfold StepOk; rw [hs, hd]; trivial)
          rw [or_iff_left (by decide), hcount, htwice, hzero]
          refine iff_of_false (by decide) ?_
          split <;> omega
  | tentative =>
      have hzero := h.countP_eq_zero (by rw [hs]; decide)
      cases hd : d.kind bss with
      | reference | weak | tentative =>
          rw [hs, hd] at hm
          obtain rfl : m = .keep := hm
          rw [hs, hd] at hkept
          rw [hd, if_neg (by decide)] at hcount
          refine iff_of_true (hkept (by decide) _ ?_) (by unfold StepOk; rw [hs, hd]; trivial)
          rw [or_iff_left (by decide), hcount, Nat.add_zero]
          exact htwice
      | strong =>
          rw [hs, hd] at hm
          rw [hs, hd] at hpatched
          rw [hd, if_pos rfl] at hcount
          have hlost : ∀ rep, ¬ Resolved bss (ds ++ [d]) (sym.constrain d) rep := fun _ =>
            Resolved.not_of_rank_lt (by rw [hconstrain, hs, hd]; decide)
          unfold StepOk
          rw [hs, hd]
          dsimp only
          change m = if _ then _ else _ at hm
          split at hm
          · next hhidden =>
              subst hm
              refine iff_of_false (hlost _) fun hno => ?_
              exact hhidden.elim hno.1 hno.2.1
          · next hhidden =>
              split at hm
              · next hlt =>
                  subst hm
                  refine iff_of_true (hpatched (by decide) _ ?_) ?_
                  · rw [or_iff_left (by decide), hcount, htwice, hzero]
                    exact iff_of_false (by decide) (by decide)
                  · exact ⟨fun hh => hhidden (.inl hh), fun hi => hhidden (.inr hi), hlt⟩
              · next hlt =>
                  subst hm
                  exact iff_of_false (hlost _) fun hno => hlt hno.2.2
  | strong =>
      have hpos := h.countP_pos hs
      cases hd : d.kind bss with
      | reference | weak | tentative =>
          rw [hs, hd] at hm
          obtain rfl : m = .keep := hm
          rw [hs, hd] at hkept
          rw [hd, if_neg (by decide)] at hcount
          refine iff_of_true (hkept (by decide) _ ?_) (by unfold StepOk; rw [hs, hd]; trivial)
          rw [or_iff_left (by decide), hcount, Nat.add_zero]
          exact htwice
      | strong =>
          rw [hs, hd] at hm
          rw [hs, hd] at hkept
          rw [hd, if_pos rfl] at hcount
          have htwo : 2 ≤ (ds ++ [d]).countP (·.kind bss = .strong) := by
            rw [hcount]
            omega
          unfold StepOk
          rw [hs, hd]
          dsimp only
          change m = if _ then _ else _ at hm
          split at hm
          · next hhidden =>
              subst hm
              rw [or_iff_left (by decide), if_neg (by decide)]
              constructor
              · exact fun hres => .inl (hres.twice.mpr htwo)
              · rintro (hrep | hno)
                · exact hkept (by decide) _ (iff_of_true hrep htwo)
                · exact (hhidden.elim hno.1 hno.2.1).elim
          · next hhidden =>
              subst hm
              rw [if_neg (by decide)]
              refine iff_of_true (hkept (by decide) _ (iff_of_true (.inr rfl) htwo)) (.inr ?_)
              exact ⟨fun hh => hhidden (.inl hh), fun hi => hhidden (.inr hi), hnotsame⟩

/-- A call keeps an entry to the rules if and only if the step does. -/
theorem Resolved.step_iff (h : Resolved ctx.bss ds sym reported) (hctx : ctx.Static) (hd : d.Plain)
    (hbind : stBind sym.stInfo = stbGlobal ∨ stBind sym.stInfo = stbWeak)
    (hset : sym.stOther &&& stAsmSet = 0) :
    Resolved ctx.bss (ds ++ [d]) (mergeSym ctx sym d).1
        (reported ∨ (mergeSym ctx sym d).2 = .definedTwice) ↔
      StepOk ctx.bss sym reported d := by
  by_cases hsame : sym.Same d
  · rw [mergeSym_same hsame]
    dsimp only
    rw [or_iff_left (by decide)]
    exact h.same_iff hsame
  · by_cases hkind : sym.kind ctx.bss = .reference
    · rw [mergeSym_reference hsame hkind]
      dsimp only
      rw [or_iff_left (by decide)]
      exact h.reference_iff hkind patch_holds rfl
    · rw [mergeSym_defined hsame hctx hd hbind hset hkind]
      exact h.defined_iff hkind hsame rfl

end Step

end TccRiscv64.Elf
