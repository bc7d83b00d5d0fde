import Mathlib

set_option autoImplicit false

/-! # Numeric local labels

`N:` defines a label, `Nb` and `Nf` refer to the definition before and after them. The assembler
keeps one chain of symbols for each name `L..N` (`prev_tok`, newest first): the definitions so far
and, in front of them, at most one symbol that forward references wait for. -/

namespace TccRiscv64.Asm.Labels

/-! ## Symbols -/

/-- `ElfSym`, the part that labels use. -/
structure ElfSym where
  stShndx : Nat
  stValue : Int
  deriving DecidableEq, Repr

def shnUndef : Nat := 0

/-- `Sym` of a label: its name, its ELF symbol (`sym->c`) and the flag `VT_EXTERN`. `VT_ASM` and
`VT_STATIC` are set in all of them. -/
structure Sym where
  v : String
  esym : Option ElfSym
  isExtern : Bool
  deriving DecidableEq, Repr

inductive Error
  /-- `local label '%d' not found backward` -/
  | notFoundBackward (n : Int)
  /-- `assembler label '%s' already defined` -/
  | alreadyDefined (label : String)
  deriving DecidableEq, Repr

/-- The symbols in the order they were made, and for each name the chain that starts at
`sym_identifier`. -/
structure AsmState where
  syms : List Sym
  chain : String → List Nat

namespace AsmState

def empty : AsmState := ⟨[], fun _ => []⟩

/-- `elfsym`: the ELF symbol of a symbol, if it has one. -/
def elfsym (s1 : AsmState) (sym : Nat) : Option ElfSym := s1.syms[sym]?.bind Sym.esym

def isExtern (s1 : AsmState) (sym : Nat) : Bool := (s1.syms[sym]?.map Sym.isExtern).getD false

/-- `!sym->c || elfsym(sym)->st_shndx == SHN_UNDEF` -/
def isUndef (s1 : AsmState) (sym : Nat) : Bool :=
  match s1.elfsym sym with
  | none => true
  | some esym => esym.stShndx == shnUndef

/-- `asm_label_find` -/
def asmLabelFind (s1 : AsmState) (label : String) : Option Nat := (s1.chain label).head?

/-- `asm_label_push`: a new symbol in front of the chain, to which the second part of the result
refers. -/
def asmLabelPush (s1 : AsmState) (label : String) : AsmState × Nat :=
  let sym := s1.syms.length
  (⟨s1.syms ++ [⟨label, none, true⟩], Function.update s1.chain label (sym :: s1.chain label)⟩, sym)

/-- `put_extern_sym2` where the symbol has no ELF symbol yet. -/
def putExternSym (s1 : AsmState) (sym : Nat) : AsmState :=
  match s1.elfsym sym with
  | some _ => s1
  | none => { s1 with syms := s1.syms.modify sym fun s => { s with esym := some ⟨shnUndef, 0⟩ } }

/-- The end of `asm_new_label1`: the symbol gets its section and value. -/
def setLabel (s1 : AsmState) (sym : Nat) (isLocal shNum : Nat) (value : Int) : AsmState :=
  let s1 := s1.putExternSym sym
  { s1 with syms := s1.syms.modify sym fun s =>
    ⟨s.v, some ⟨shNum, value⟩, if isLocal ≠ 2 then false else s.isExtern⟩ }

end AsmState

/-- `asm_new_label1` -/
def asmNewLabel1 (s1 : AsmState) (label : String) (isLocal shNum : Nat) (value : Int) :
    Except Error (AsmState × Nat) :=
  match s1.asmLabelFind label with
  | some sym =>
    if s1.isUndef sym then
      .ok (s1.setLabel sym isLocal shNum value, sym)
    else if isLocal = 1 ∨ s1.isExtern sym then
      let (s1, sym) := s1.asmLabelPush label
      .ok (s1.setLabel sym isLocal shNum value, sym)
    else
      .error (.alreadyDefined label)
  | none =>
    let (s1, sym) := s1.asmLabelPush label
    .ok (s1.setLabel sym isLocal shNum value, sym)

/-! ## Lines -/

/-- `strtoul` and `strtoull` of a decimal number. -/
def strtoull (n : Nat) : Nat := min n (2 ^ 64 - 1)

/-- The argument of `asm_get_local_label_name`: both callers narrow to an `unsigned int`. -/
def labelNumber (n : Nat) : Nat := strtoull n % 2 ^ 32

/-- `asm_get_local_label_name` -/
def asmGetLocalLabelName (n : Nat) : String := "L.." ++ Nat.repr n

/-- The name of the label that a number in the source stands for. -/
def labelOf (n : Nat) : String := asmGetLocalLabelName (labelNumber n)

/-- A section that code can go to: `sh_num` is an index of the section table, whose first entry
is reserved. -/
structure TextSection where
  shNum : Nat
  ne_undef : shNum ≠ shnUndef

/-- What the source has of local labels: `N:` in a section at the offset `ind`, `Nb` and `Nf`. A
reference may be passed on to `greloca`, which gives its symbol an ELF symbol. -/
inductive Line
  | define (n : Nat) (sec : TextSection) (ind : Int)
  | back (n : Nat) (reloc : Bool)
  | forward (n : Nat) (reloc : Bool)

/-- `greloca`, the part that changes the symbol. -/
def greloca (s1 : AsmState) (sym : Nat) (reloc : Bool) : AsmState :=
  if reloc then s1.putExternSym sym else s1

/-- The local labels of `asm_expr_unary` and `tcc_assemble_internal`, with the symbol defined or
referred to. -/
def assembleLine (s1 : AsmState) : Line → Except Error (AsmState × Nat)
  | .define n sec ind => asmNewLabel1 s1 (labelOf n) 1 sec.shNum ind
  | .back n reloc =>
    -- `prev_tok` of a symbol that is still waiting is the last definition
    let sym := match s1.chain (labelOf n) with
      | sym :: prevTok => if s1.isUndef sym then prevTok.head? else some sym
      | [] => none
    match sym with
    | some sym => .ok (greloca s1 sym reloc, sym)
    | none => .error (.notFoundBackward (BitVec.ofNat 32 (strtoull n)).toInt)
  | .forward n reloc =>
    match s1.asmLabelFind (labelOf n) with
    | some sym =>
      if s1.isUndef sym then
        .ok (greloca s1 sym reloc, sym)
      else
        let (s1, sym) := s1.asmLabelPush (labelOf n)
        .ok (greloca s1 sym reloc, sym)
    | none =>
      let (s1, sym) := s1.asmLabelPush (labelOf n)
      .ok (greloca s1 sym reloc, sym)

/-- The lines one after the other; `tcc_error` ends the run. -/
def assemble (s1 : AsmState) : List Line → Except Error (AsmState × List Nat)
  | [] => .ok (s1, [])
  | line :: lines => do
    let (s1, sym) ← assembleLine s1 line
    let (s1, syms) ← assemble s1 lines
    .ok (s1, sym :: syms)

/-! ## What the operations change -/

namespace AsmState

/-- The symbol exists and has the name `label`. -/
def Named (s1 : AsmState) (sym : Nat) (label : String) : Prop :=
  ∃ s, s1.syms[sym]? = some s ∧ s.v = label

/-- A step that touches no symbol but `sym`, which has the name `label`. -/
structure Moves (s1 s1' : AsmState) (sym : Nat) (label : String) : Prop where
  named : s1'.Named sym label
  keepsNames : ∀ s l, s1.Named s l → s1'.Named s l
  chain : ∀ l, l ≠ label → s1'.chain l = s1.chain l
  elfsym : ∀ s, s ≠ sym → s1'.elfsym s = s1.elfsym s

variable {s1 s1' s1'' : AsmState} {sym : Nat} {label : String}

theorem Named.unique {l : String} (h : s1.Named sym label) (h' : s1.Named sym l) : label = l := by
  obtain ⟨s, hs, rfl⟩ := h
  obtain ⟨s', hs', rfl⟩ := h'
  rw [hs] at hs'
  cases hs'
  rfl

theorem isUndef_congr (h : s1'.elfsym sym = s1.elfsym sym) : s1'.isUndef sym = s1.isUndef sym := by
  rw [isUndef, isUndef, h]

theorem Moves.trans (h : s1.Moves s1' sym label) (h' : s1'.Moves s1'' sym label) :
    s1.Moves s1'' sym label where
  named := h'.named
  keepsNames s l hs := h'.keepsNames s l (h.keepsNames s l hs)
  chain l hl := (h'.chain l hl).trans (h.chain l hl)
  elfsym s hs := (h'.elfsym s hs).trans (h.elfsym s hs)

/-- A change of one symbol that keeps its name. -/
theorem moves_modify (f : Sym → Sym) (hf : ∀ s, (f s).v = s.v) (h : s1.Named sym label) :
    s1.Moves { s1 with syms := s1.syms.modify sym f } sym label := by
  have hkeep (s : Nat) (l : String) (hs : s1.Named s l) :
      Named { s1 with syms := s1.syms.modify sym f } s l := by
    obtain ⟨old, hold, rfl⟩ := hs
    by_cases heq : sym = s
    · refine ⟨f old, ?_, hf old⟩
      simp [hold, heq]
    · refine ⟨old, ?_, rfl⟩
      simp [hold, heq]
  refine ⟨hkeep sym label h, hkeep, fun _ _ => rfl, fun s hs => ?_⟩
  have hget : (s1.syms.modify sym f)[s]? = s1.syms[s]? := by
    simp [Ne.symm hs]
  rw [AsmState.elfsym, hget, AsmState.elfsym]

theorem asmLabelPush_snd : (s1.asmLabelPush label).2 = s1.syms.length := rfl

theorem moves_asmLabelPush :
    s1.Moves (s1.asmLabelPush label).1 (s1.asmLabelPush label).2 label where
  named := ⟨⟨label, none, true⟩, List.getElem?_concat_length, rfl⟩
  keepsNames s l := by
    rintro ⟨old, hold, rfl⟩
    refine ⟨old, ?_, rfl⟩
    exact (List.getElem?_append_left (List.getElem?_eq_some_iff.1 hold).1).trans hold
  chain l hl := Function.update_of_ne hl _ _
  elfsym s hs := by
    rw [asmLabelPush_snd] at hs
    simp only [AsmState.elfsym, asmLabelPush]
    rcases Nat.lt_or_gt_of_ne hs with hlt | hgt
    · rw [List.getElem?_append_left hlt]
    · rw [List.getElem?_eq_none (by simpa using hgt), List.getElem?_eq_none (by omega)]

theorem chain_asmLabelPush :
    (s1.asmLabelPush label).1.chain label = (s1.asmLabelPush label).2 :: s1.chain label :=
  Function.update_self _ _ _

/-- A new symbol has no ELF symbol, and the index was not one of a symbol before. -/
theorem isUndef_asmLabelPush :
    (s1.asmLabelPush label).1.isUndef (s1.asmLabelPush label).2 = true ∧
      s1.isUndef (s1.asmLabelPush label).2 = true := by
  constructor
  · simp only [isUndef, AsmState.elfsym, asmLabelPush, List.getElem?_concat_length,
      Option.bind_some]
  · simp only [isUndef, AsmState.elfsym, asmLabelPush, List.getElem?_eq_none (Nat.le_refl _),
      Option.bind_none]

theorem putExternSym_chain : (s1.putExternSym sym).chain = s1.chain := by
  rw [putExternSym]
  split <;> rfl

/-- An ELF symbol made for a relocation leaves the symbol undefined. -/
theorem putExternSym_spec (h : s1.Named sym label) :
    s1.Moves (s1.putExternSym sym) sym label ∧
      (s1.putExternSym sym).isUndef sym = s1.isUndef sym := by
  cases hesym : s1.elfsym sym with
  | some esym =>
    have heq : s1.putExternSym sym = s1 := by rw [putExternSym, hesym]
    rw [heq]
    exact ⟨⟨h, fun _ _ hs => hs, fun _ _ => rfl, fun _ _ => rfl⟩, rfl⟩
  | none =>
    have heq : s1.putExternSym sym = { s1 with
        syms := s1.syms.modify sym fun s => { s with esym := some ⟨shnUndef, 0⟩ } } := by
      rw [putExternSym, hesym]
    rw [heq]
    refine ⟨moves_modify _ (fun _ => rfl) h, ?_⟩
    obtain ⟨old, hold, -⟩ := h
    have hnew : AsmState.elfsym { s1 with
        syms := s1.syms.modify sym fun s => { s with esym := some ⟨shnUndef, 0⟩ } } sym
        = some ⟨shnUndef, 0⟩ := by
      simp [AsmState.elfsym, hold]
    rw [isUndef, hnew, isUndef, hesym]
    rfl

theorem putExternSym_of_defined (h : s1.isUndef sym = false) : s1.putExternSym sym = s1 := by
  rw [isUndef] at h
  rw [putExternSym]
  cases hesym : s1.elfsym sym with
  | some esym => rfl
  | none =>
    rw [hesym] at h
    cases h

theorem setLabel_chain (isLocal shNum : Nat) (value : Int) :
    (s1.setLabel sym isLocal shNum value).chain = s1.chain := putExternSym_chain

/-- A definition gives the symbol its section and value. -/
theorem setLabel_spec (isLocal shNum : Nat) (value : Int) (h : s1.Named sym label) :
    s1.Moves (s1.setLabel sym isLocal shNum value) sym label ∧
      (s1.setLabel sym isLocal shNum value).elfsym sym = some ⟨shNum, value⟩ := by
  have hput := (putExternSym_spec h).1
  refine ⟨hput.trans (moves_modify _ (fun _ => rfl) hput.named), ?_⟩
  obtain ⟨old, hold, -⟩ := hput.named
  simp [setLabel, AsmState.elfsym, hold]

end AsmState

/-! ## Chains -/

/-- The chain of a name: at most one symbol that waits, then definitions. -/
structure Chain (s1 : AsmState) (label : String) (pending : Option Nat) (defs : List Nat) :
    Prop where
  eq : s1.chain label = pending.toList ++ defs
  named : ∀ s ∈ s1.chain label, s1.Named s label
  waits : ∀ s ∈ pending, s1.isUndef s = true
  defined : ∀ s ∈ defs, s1.isUndef s = false

open AsmState

variable {s1 s1' : AsmState} {label : String} {pending : Option Nat} {defs : List Nat}

/-- A step on another name keeps the chain. -/
theorem Chain.of_moves {sym : Nat} {l : String} (h : Chain s1 label pending defs)
    (hmoves : s1.Moves s1' sym l) (hne : label ≠ l) : Chain s1' label pending defs := by
  have hchain := hmoves.chain label hne
  have hundef (s : Nat) (hs : s ∈ s1.chain label) : s1'.isUndef s = s1.isUndef s := by
    apply isUndef_congr
    apply hmoves.elfsym
    rintro rfl
    exact hne ((hmoves.keepsNames s label (h.named s hs)).unique hmoves.named)
  have hmem_pending (s : Nat) (hs : s ∈ pending) : s ∈ s1.chain label := by
    rw [h.eq]
    exact List.mem_append_left _ (Option.mem_toList.2 hs)
  have hmem_defs (s : Nat) (hs : s ∈ defs) : s ∈ s1.chain label := by
    rw [h.eq]
    exact List.mem_append_right _ hs
  refine ⟨hchain.trans h.eq, ?_, ?_, ?_⟩
  · intro s hs
    rw [hchain] at hs
    exact hmoves.keepsNames s label (h.named s hs)
  · intro s hs
    rw [hundef s (hmem_pending s hs)]
    exact h.waits s hs
  · intro s hs
    rw [hundef s (hmem_defs s hs)]
    exact h.defined s hs

/-- What follows the symbol in front of a chain is not that symbol. -/
theorem Chain.ne_of_mem {sym s : Nat} (h : Chain s1 label pending defs)
    (hsym : s1.isUndef sym = true) (hs : s ∈ defs) : s ≠ sym := by
  rintro rfl
  have hdef := h.defined s hs
  rw [hsym] at hdef
  cases hdef

/-- The symbol that a forward reference or a definition takes: the one that waits, or a new one.
It is undefined, in front of the definitions, and named. -/
structure Takes (s1 s1' : AsmState) (label : String) (pending : Option Nat) (defs : List Nat)
    (sym : Nat) : Prop where
  moves : s1.Moves s1' sym label
  before : s1.isUndef sym = true
  chain : Chain s1' label (some sym) defs
  pending_eq : ∀ s ∈ pending, s = sym

theorem Chain.takes_pending {sym : Nat} (h : Chain s1 label (some sym) defs) :
    Takes s1 s1 label (some sym) defs sym where
  moves := ⟨h.named sym (by rw [h.eq]; exact List.mem_cons_self), fun _ _ hs => hs,
    fun _ _ => rfl, fun _ _ => rfl⟩
  before := h.waits sym rfl
  chain := h
  pending_eq _ hs := (Option.some.inj hs).symm

theorem Chain.takes_push (h : Chain s1 label none defs) :
    Takes s1 (s1.asmLabelPush label).1 label none defs (s1.asmLabelPush label).2 where
  moves := moves_asmLabelPush
  before := isUndef_asmLabelPush.2
  chain := by
    have hmoves : s1.Moves (s1.asmLabelPush label).1 (s1.asmLabelPush label).2 label :=
      moves_asmLabelPush
    have hnew : s1.isUndef (s1.asmLabelPush label).2 = true := isUndef_asmLabelPush.2
    have hchain : (s1.asmLabelPush label).1.chain label
        = (s1.asmLabelPush label).2 :: s1.chain label := chain_asmLabelPush
    refine ⟨?_, ?_, ?_, ?_⟩
    · rw [hchain, h.eq]
      rfl
    · intro s hs
      rw [hchain] at hs
      rcases List.mem_cons.1 hs with rfl | hs
      · exact hmoves.named
      · exact hmoves.keepsNames s label (h.named s hs)
    · rintro s ⟨⟩
      exact isUndef_asmLabelPush.1
    · intro s hs
      have hne := h.ne_of_mem hnew hs
      rw [isUndef_congr (hmoves.elfsym s hne)]
      exact h.defined s hs
  pending_eq _ hs := by cases hs

/-- The chain after its first symbol got an ELF symbol for a relocation. -/
theorem Takes.greloca {sym : Nat} (h : Takes s1 s1' label pending defs sym) (reloc : Bool) :
    Takes s1 (greloca s1' sym reloc) label pending defs sym := by
  cases reloc with
  | false => exact h
  | true =>
    have hname := h.moves.named
    obtain ⟨hmoves, hundef⟩ := putExternSym_spec hname
    have hchain : (s1'.putExternSym sym).chain = s1'.chain := putExternSym_chain
    refine ⟨h.moves.trans hmoves, h.before, ⟨?_, ?_, ?_, ?_⟩, h.pending_eq⟩
    · exact (congrFun hchain label).trans h.chain.eq
    · intro s hs
      rw [Labels.greloca, if_pos rfl, hchain] at hs
      exact hmoves.keepsNames s label (h.chain.named s hs)
    · rintro s ⟨⟩
      exact hundef.trans (h.chain.waits sym rfl)
    · intro s hs
      have hne := h.chain.ne_of_mem (h.chain.waits sym rfl) hs
      exact (isUndef_congr (hmoves.elfsym s hne)).trans (h.chain.defined s hs)

/-- The chain after its first symbol was defined. -/
theorem Takes.setLabel {sym shNum : Nat} (h : Takes s1 s1' label pending defs sym) (value : Int)
    (hsec : shNum ≠ shnUndef) :
    s1.Moves (s1'.setLabel sym 1 shNum value) sym label ∧
      Chain (s1'.setLabel sym 1 shNum value) label none (sym :: defs) := by
  obtain ⟨hmoves, hesym⟩ := setLabel_spec 1 shNum value h.moves.named
  have hchain : (s1'.setLabel sym 1 shNum value).chain = s1'.chain := setLabel_chain 1 shNum value
  refine ⟨h.moves.trans hmoves, ⟨?_, ?_, ?_, ?_⟩⟩
  · rw [hchain, h.chain.eq]
    rfl
  · intro s hs
    rw [hchain] at hs
    exact hmoves.keepsNames s label (h.chain.named s hs)
  · rintro s ⟨⟩
  · intro s hs
    by_cases heq : s = sym
    · rw [isUndef, heq, hesym]
      exact beq_eq_false_iff_ne.2 hsec
    · have hmem := (List.mem_cons.1 hs).resolve_left heq
      rw [isUndef_congr (hmoves.elfsym s heq)]
      exact h.chain.defined s hmem

/-! ## One line -/

section Line

variable {n : Nat}

theorem asmLabelFind_eq (h : Chain s1 label pending defs) :
    s1.asmLabelFind label = (pending.toList ++ defs).head? := by
  rw [asmLabelFind, h.eq]

/-- `N:` defines the symbol that waits, or a new one. -/
theorem assembleLine_define (h : Chain s1 (labelOf n) pending defs) (sec : TextSection)
    (ind : Int) :
    ∃ s1' s1'' sym, Takes s1 s1' (labelOf n) pending defs sym ∧
      s1'' = s1'.setLabel sym 1 sec.shNum ind ∧
      assembleLine s1 (.define n sec ind) = .ok (s1'', sym) := by
  have hfind := asmLabelFind_eq h
  cases pending with
  | some sym =>
    have hundef : s1.isUndef sym = true := h.waits sym rfl
    refine ⟨s1, _, sym, h.takes_pending, rfl, ?_⟩
    rw [assembleLine, asmNewLabel1, hfind]
    exact if_pos hundef
  | none =>
    refine ⟨_, _, _, h.takes_push, rfl, ?_⟩
    rw [assembleLine, asmNewLabel1, hfind]
    cases defs with
    | nil => rfl
    | cons d defs =>
      have hdef : s1.isUndef d = false := h.defined d List.mem_cons_self
      refine (if_neg (by rw [hdef]; decide)).trans ?_
      exact if_pos (.inl rfl)

/-- `Nf` refers to the symbol that waits, or to a new one. -/
theorem assembleLine_forward (h : Chain s1 (labelOf n) pending defs) (reloc : Bool) :
    ∃ s1' sym, Takes s1 s1' (labelOf n) pending defs sym ∧
      assembleLine s1 (.forward n reloc) = .ok (s1', sym) := by
  have hfind := asmLabelFind_eq h
  cases pending with
  | some sym =>
    have hundef : s1.isUndef sym = true := h.waits sym rfl
    refine ⟨_, sym, h.takes_pending.greloca reloc, ?_⟩
    rw [assembleLine, hfind]
    exact if_pos hundef
  | none =>
    refine ⟨_, _, h.takes_push.greloca reloc, ?_⟩
    rw [assembleLine, hfind]
    cases defs with
    | nil => rfl
    | cons d defs =>
      have hdef : s1.isUndef d = false := h.defined d List.mem_cons_self
      exact if_neg (by rw [hdef]; decide)

/-- `Nb` refers to the last definition; without one it is an error. -/
theorem assembleLine_back (h : Chain s1 (labelOf n) pending defs) (reloc : Bool) :
    assembleLine s1 (.back n reloc) =
      defs.head?.elim (.error (.notFoundBackward (BitVec.ofNat 32 (strtoull n)).toInt))
        fun sym => .ok (s1, sym) := by
  have hkeep (d : Nat) (hd : d ∈ defs) : greloca s1 d reloc = s1 := by
    cases reloc with
    | false => rfl
    | true => exact putExternSym_of_defined (h.defined d hd)
  rw [assembleLine, h.eq]
  cases pending with
  | some sym =>
    have hundef : s1.isUndef sym = true := h.waits sym rfl
    simp only [Option.toList_some, List.cons_append, List.nil_append, hundef, if_true]
    cases defs with
    | nil => rfl
    | cons d defs =>
      simp only [List.head?_cons, hkeep d List.mem_cons_self, Option.elim_some]
  | none =>
    cases defs with
    | nil => rfl
    | cons d defs =>
      have hdef : s1.isUndef d = false := h.defined d List.mem_cons_self
      simp only [Option.toList_none, List.nil_append, hdef, Bool.false_eq_true, if_false,
        hkeep d List.mem_cons_self, List.head?_cons, Option.elim_some]

end Line

/-! ## Definitions before and after a line -/

/-- Line `j` defines a label whose number satisfies `P`. -/
def Defines (P : Nat → Prop) (lines : List Line) (j : Nat) : Prop :=
  ∃ n sec ind, lines[j]? = some (.define n sec ind) ∧ P n

/-- `j` is the most recent such line before line `k`. -/
def IsLast (P : Nat → Prop) (lines : List Line) (k j : Nat) : Prop :=
  j < k ∧ Defines P lines j ∧ ∀ i, j < i → i < k → ¬ Defines P lines i

/-- `j` is the next such line after line `k`. -/
def IsNext (P : Nat → Prop) (lines : List Line) (k j : Nat) : Prop :=
  k < j ∧ Defines P lines j ∧ ∀ i, k < i → i < j → ¬ Defines P lines i

section Positions

variable {P : Nat → Prop} {lines : List Line} {j k : Nat}

theorem Defines.lt (h : Defines P lines j) : j < lines.length := by
  obtain ⟨n, sec, ind, hline, -⟩ := h
  exact (List.getElem?_eq_some_iff.1 hline).1

theorem IsLast.unique {j' : Nat} (h : IsLast P lines k j) (h' : IsLast P lines k j') : j = j' := by
  rcases Nat.lt_trichotomy j j' with hlt | heq | hlt
  · exact absurd h'.2.1 (h.2.2 j' hlt h'.1)
  · exact heq
  · exact absurd h.2.1 (h'.2.2 j hlt h.1)

theorem IsNext.unique {j' : Nat} (h : IsNext P lines k j) (h' : IsNext P lines k j') : j = j' := by
  rcases Nat.lt_trichotomy j j' with hlt | heq | hlt
  · exact absurd h.2.1 (h'.2.2 j h.1 hlt)
  · exact heq
  · exact absurd h'.2.1 (h.2.2 j' h'.1 hlt)

theorem exists_isLast {i : Nat} (hi : i < k) (h : Defines P lines i) :
    ∃ j, IsLast P lines k j := by
  induction k with
  | zero => exact absurd hi (Nat.not_lt_zero i)
  | succ k ih =>
    by_cases hk : Defines P lines k
    · exact ⟨k, Nat.lt_succ_self k, hk, fun i hki hi => by omega⟩
    · have hik : i < k := by
        rcases Nat.lt_succ_iff_lt_or_eq.1 hi with hlt | rfl
        · exact hlt
        · exact absurd h hk
      obtain ⟨j, hjk, hj, hrest⟩ := ih hik
      refine ⟨j, Nat.lt_succ_of_lt hjk, hj, fun i hji hi => ?_⟩
      rcases Nat.lt_succ_iff_lt_or_eq.1 hi with hlt | rfl
      · exact hrest i hji hlt
      · exact hk

open Classical in
theorem exists_isNext {i : Nat} (hi : k < i) (h : Defines P lines i) :
    ∃ j, IsNext P lines k j := by
  have hex : ∃ j, k < j ∧ Defines P lines j := ⟨i, hi, h⟩
  obtain ⟨hlt, hdef⟩ := Nat.find_spec hex
  exact ⟨Nat.find hex, hlt, hdef, fun i hki hi hd => Nat.find_min hex hi ⟨hki, hd⟩⟩

theorem defines_append_of_lt (line : Line) (h : j < lines.length) :
    Defines P (lines ++ [line]) j ↔ Defines P lines j := by
  rw [Defines, Defines, List.getElem?_append_left h]

theorem defines_append_length (line : Line) :
    Defines P (lines ++ [line]) lines.length ↔ ∃ n sec ind, line = .define n sec ind ∧ P n := by
  simp only [Defines, List.getElem?_concat_length, Option.some.injEq]

theorem isLast_append (line : Line) (h : k ≤ lines.length) :
    IsLast P (lines ++ [line]) k j ↔ IsLast P lines k j := by
  refine and_congr_right fun hj => and_congr (defines_append_of_lt line (by omega)) ?_
  refine forall_congr' fun i => forall_congr' fun _ => forall_congr' fun hi => ?_
  exact not_congr (defines_append_of_lt line (by omega))

/-- A line that defines nothing of the kind leaves the last definition as it is. -/
theorem isLast_append_of_not (line : Line) (h : ¬ ∃ n sec ind, line = .define n sec ind ∧ P n) :
    IsLast P (lines ++ [line]) (lines ++ [line]).length j ↔ IsLast P lines lines.length j := by
  rw [List.length_append, List.length_singleton]
  constructor
  · rintro ⟨-, hj, hrest⟩
    have hne : j ≠ lines.length := by
      rintro rfl
      exact h ((defines_append_length line).1 hj)
    have hlt : j < lines.length := by
      have hbound := hj.lt
      rw [List.length_append, List.length_singleton] at hbound
      omega
    refine (isLast_append line (Nat.le_refl _)).1 ⟨hlt, hj, fun i hji hi => hrest i hji (by omega)⟩
  · intro hlast
    obtain ⟨hlt, hj, hrest⟩ := (isLast_append line (Nat.le_refl _)).2 hlast
    refine ⟨by omega, hj, fun i hji hi => ?_⟩
    rcases Nat.lt_succ_iff_lt_or_eq.1 hi with hi | rfl
    · exact hrest i hji hi
    · exact fun hd => h ((defines_append_length line).1 hd)

/-- The next definition is there already, or it is the line just added. -/
theorem isNext_append (line : Line) (h : IsNext P (lines ++ [line]) k j) :
    IsNext P lines k j ∨
      j = lines.length ∧ (∃ n sec ind, line = .define n sec ind ∧ P n) ∧
        ∀ i, k < i → ¬ Defines P lines i := by
  obtain ⟨hkj, hj, hrest⟩ := h
  have hbound := hj.lt
  rw [List.length_append, List.length_singleton] at hbound
  rcases Nat.lt_succ_iff_lt_or_eq.1 hbound with hlt | rfl
  · refine .inl ⟨hkj, (defines_append_of_lt line hlt).1 hj, fun i hki hi hd => ?_⟩
    exact hrest i hki hi ((defines_append_of_lt line (by omega)).2 hd)
  · refine .inr ⟨rfl, (defines_append_length line).1 hj, fun i hki hd => ?_⟩
    exact hrest i hki hd.lt ((defines_append_of_lt line hd.lt).2 hd)

end Positions

/-! ## The invariant of a run -/

/-- The chain of a name after the lines `lines`, which defined or referred to the symbols `ids`:
the definitions start with the last one, and the forward references since then wait for the
symbol in front. -/
structure ChainAt (s1 : AsmState) (lines : List Line) (ids : List Nat) (label : String)
    (pending : Option Nat) (defs : List Nat) : Prop where
  chain : Chain s1 label pending defs
  head : ∀ j, IsLast (labelOf · = label) lines lines.length j → defs.head? = ids[j]?
  start : (∀ j, ¬ Defines (labelOf · = label) lines j) → defs = []
  waiting : ∀ (k n : Nat) reloc, lines[k]? = some (.forward n reloc) → labelOf n = label →
    (∀ j, k < j → ¬ Defines (labelOf · = label) lines j) → ids[k]? = pending

/-- References are resolved by the name of the label. -/
structure Resolved (s1 : AsmState) (lines : List Line) (ids : List Nat) : Prop where
  length_eq : ids.length = lines.length
  defined : ∀ (j n : Nat) sec ind, lines[j]? = some (.define n sec ind) →
    ∃ s, ids[j]? = some s ∧ s1.elfsym s = some ⟨sec.shNum, ind⟩
  distinct : ∀ j j' P P', Defines P lines j → Defines P' lines j' → ids[j]? = ids[j']? → j = j'
  chains : ∀ label, ∃ pending defs, ChainAt s1 lines ids label pending defs
  back : ∀ (k n : Nat) reloc, lines[k]? = some (.back n reloc) →
    ∃ j, IsLast (labelOf · = labelOf n) lines k j ∧ ids[k]? = ids[j]?
  forward : ∀ (k n : Nat) reloc j, lines[k]? = some (.forward n reloc) →
    IsNext (labelOf · = labelOf n) lines k j → ids[k]? = ids[j]?

theorem resolved_empty : Resolved .empty [] [] where
  length_eq := rfl
  defined _ _ _ _ h := by cases h
  distinct _ _ _ _ h := absurd h.lt (Nat.not_lt_zero _)
  chains label := by
    refine ⟨none, [], ⟨rfl, ?_, ?_, ?_⟩, ?_, fun _ => rfl, ?_⟩
    · intro s hs
      cases hs
    · intro s hs
      cases hs
    · intro s hs
      cases hs
    · intro j hj
      exact absurd hj.1 (Nat.not_lt_zero j)
    · intro k n reloc h
      cases h
  back _ _ _ h := by cases h
  forward _ _ _ _ h := by cases h

section Step

variable {lines : List Line} {ids : List Nat} {line : Line} {sym : Nat}

/-- The entry of a list with one more at its end. -/
theorem getElem?_concat {α : Type} {xs : List α} {x y : α} {k : Nat}
    (h : (xs ++ [x])[k]? = some y) : xs[k]? = some y ∧ k < xs.length ∨ k = xs.length ∧ x = y := by
  rcases Nat.lt_trichotomy k xs.length with hlt | rfl | hgt
  · rw [List.getElem?_append_left hlt] at h
    exact .inl ⟨h, hlt⟩
  · rw [List.getElem?_concat_length] at h
    exact .inr ⟨rfl, Option.some.inj h⟩
  · rw [List.getElem?_eq_none (by simpa using hgt)] at h
    cases h

/-- A symbol that was defined is not undefined. -/
theorem isUndef_of_elfsym {s : Nat} {sec : TextSection} {ind : Int}
    (h : s1.elfsym s = some ⟨sec.shNum, ind⟩) : s1.isUndef s = false := by
  rw [isUndef, h]
  exact beq_eq_false_iff_ne.2 sec.ne_undef

/-- A line that neither defines the label nor refers forward to it keeps what is known of its
chain. -/
theorem ChainAt.concat (h : ChainAt s1 lines ids label pending defs)
    (hlen : ids.length = lines.length) (hchain : Chain s1' label pending defs)
    (hdef : ∀ n sec ind, line = .define n sec ind → labelOf n ≠ label)
    (hfwd : ∀ n reloc, line = .forward n reloc → labelOf n ≠ label) :
    ChainAt s1' (lines ++ [line]) (ids ++ [sym]) label pending defs where
  chain := hchain
  head j hj := by
    have hnot : ¬ ∃ n sec ind, line = .define n sec ind ∧ labelOf n = label := by
      rintro ⟨n, sec, ind, hline, hn⟩
      exact hdef n sec ind hline hn
    have hold := (isLast_append_of_not line hnot).1 hj
    rw [h.head j hold, List.getElem?_append_left (by rw [hlen]; exact hold.1)]
  start hno := by
    apply h.start
    intro j hj
    exact hno j ((defines_append_of_lt line hj.lt).2 hj)
  waiting k n reloc hk hn hno := by
    rcases getElem?_concat hk with ⟨hold, hlt⟩ | ⟨-, hline⟩
    · rw [List.getElem?_append_left (by rw [hlen]; exact hlt)]
      refine h.waiting k n reloc hold hn fun j hkj hj => ?_
      exact hno j hkj ((defines_append_of_lt line hj.lt).2 hj)
    · exact absurd hn (hfwd n reloc hline)

/-- What one line has to do for the references to stay resolved. -/
theorem Resolved.concat (h : Resolved s1 lines ids)
    (hkeep : ∀ s, s1.isUndef s = false → s1'.elfsym s = s1.elfsym s)
    (hdefine : ∀ n sec ind, line = .define n sec ind →
      s1'.elfsym sym = some ⟨sec.shNum, ind⟩ ∧ s1.isUndef sym = true ∧
        ∀ pending defs, ChainAt s1 lines ids (labelOf n) pending defs → ∀ s ∈ pending, s = sym)
    (hback : ∀ n reloc, line = .back n reloc →
      ∃ j, IsLast (labelOf · = labelOf n) lines lines.length j ∧ some sym = ids[j]?)
    (hchains : ∀ label, ∃ pending defs,
      ChainAt s1' (lines ++ [line]) (ids ++ [sym]) label pending defs) :
    Resolved s1' (lines ++ [line]) (ids ++ [sym]) := by
  have hlen := h.length_eq
  have hleft {k : Nat} (hk : k < lines.length) : (ids ++ [sym])[k]? = ids[k]? :=
    List.getElem?_append_left (by rwa [hlen])
  have hright : (ids ++ [sym])[lines.length]? = some sym := by
    rw [← hlen, List.getElem?_concat_length]
  -- the symbol of an earlier definition is not the one the line defines
  have hfresh {j n : Nat} {sec : TextSection} {ind : Int}
      (hj : lines[j]? = some (.define n sec ind)) {n' : Nat} {sec' : TextSection} {ind' : Int}
      (hline : line = .define n' sec' ind') : ids[j]? ≠ some sym := by
    obtain ⟨s, hs, helf⟩ := h.defined j n sec ind hj
    rw [hs]
    rintro ⟨⟩
    have hdefd := isUndef_of_elfsym helf
    rw [(hdefine n' sec' ind' hline).2.1] at hdefd
    cases hdefd
  refine ⟨by simp [hlen], ?_, ?_, hchains, ?_, ?_⟩
  · intro j n sec ind hj
    rcases getElem?_concat hj with ⟨hold, hlt⟩ | ⟨rfl, hline⟩
    · obtain ⟨s, hs, helf⟩ := h.defined j n sec ind hold
      exact ⟨s, (hleft hlt).trans hs, (hkeep s (isUndef_of_elfsym helf)).trans helf⟩
    · exact ⟨sym, hright, (hdefine n sec ind hline).1⟩
  · rintro j j' P P' ⟨n, sec, ind, hj, hP⟩ ⟨n', sec', ind', hj', hP'⟩ heq
    rcases getElem?_concat hj with ⟨hold, hlt⟩ | ⟨rfl, hline⟩ <;>
      rcases getElem?_concat hj' with ⟨hold', hlt'⟩ | ⟨rfl, hline'⟩
    · rw [hleft hlt, hleft hlt'] at heq
      exact h.distinct j j' P P' ⟨n, sec, ind, hold, hP⟩ ⟨n', sec', ind', hold', hP'⟩ heq
    · rw [hleft hlt, hright] at heq
      exact absurd heq (hfresh hold hline')
    · rw [hleft hlt', hright] at heq
      exact absurd heq.symm (hfresh hold' hline)
    · rfl
  · intro k n reloc hk
    rcases getElem?_concat hk with ⟨hold, hlt⟩ | ⟨rfl, hline⟩
    · obtain ⟨j, hlast, heq⟩ := h.back k n reloc hold
      refine ⟨j, (isLast_append line hlt.le).2 hlast, ?_⟩
      rw [hleft hlt, hleft (hlast.1.trans hlt), heq]
    · obtain ⟨j, hlast, heq⟩ := hback n reloc hline
      refine ⟨j, (isLast_append line (Nat.le_refl _)).2 hlast, ?_⟩
      rw [hright, hleft hlast.1, heq]
  · intro k n reloc j hk hnext
    have hlt : k < lines.length := by
      have hbound := hnext.2.1.lt
      rw [List.length_append, List.length_singleton] at hbound
      exact lt_of_lt_of_le hnext.1 (Nat.lt_succ_iff.1 hbound)
    have hold : lines[k]? = some (.forward n reloc) := by
      rwa [List.getElem?_append_left hlt] at hk
    rcases isNext_append line hnext with hnext | ⟨rfl, ⟨m, sec, ind, hline, hm⟩, hno⟩
    · rw [hleft hlt, hleft hnext.2.1.lt]
      exact h.forward k n reloc j hold hnext
    · obtain ⟨pending, defs, hat⟩ := h.chains (labelOf n)
      have hwait := hat.waiting k n reloc hold rfl hno
      have hsome : ids[k]? = some (ids.get ⟨k, by rwa [hlen]⟩) :=
        List.getElem?_eq_getElem (by rwa [hlen])
      have hsym := (hdefine m sec ind hline).2.2
      rw [hm] at hsym
      rw [hleft hlt, hright, hsome]
      rw [hsome] at hwait
      exact congrArg some (hsym pending defs hat _ hwait.symm)

/-- `N:` -/
theorem Resolved.define (h : Resolved s1 lines ids) (n : Nat) (sec : TextSection) (ind : Int) :
    ∃ s1' sym, assembleLine s1 (.define n sec ind) = .ok (s1', sym) ∧
      Resolved s1' (lines ++ [.define n sec ind]) (ids ++ [sym]) := by
  obtain ⟨pending, defs, hat⟩ := h.chains (labelOf n)
  obtain ⟨s1', s1'', sym, htakes, rfl, hstep⟩ := assembleLine_define hat.chain sec ind
  obtain ⟨hmoves, hchain⟩ := htakes.setLabel ind sec.ne_undef
  refine ⟨_, sym, hstep, h.concat ?_ ?_ ?_ ?_⟩
  · intro s hs
    apply hmoves.elfsym
    rintro rfl
    rw [htakes.before] at hs
    cases hs
  · rintro m sec' ind' ⟨⟩
    refine ⟨(setLabel_spec 1 sec.shNum ind htakes.moves.named).2, htakes.before, ?_⟩
    intro pending' defs' hat' s hs
    -- both descriptions are of one chain, which starts with the symbol that waits
    have hchains : pending.toList ++ defs = pending'.toList ++ defs' :=
      hat.chain.eq.symm.trans hat'.chain.eq
    cases hs
    cases hpend : pending with
    | some p =>
      rw [hpend] at hchains
      have hps : p = s := (List.cons.inj hchains).1
      rw [← hps]
      exact htakes.pending_eq p hpend
    | none =>
      rw [hpend, Option.toList_none, List.nil_append] at hchains
      have hmem : s ∈ defs := by
        rw [hchains]
        exact List.mem_cons_self
      have hdefd := hat.chain.defined s hmem
      rw [hat'.chain.waits s rfl] at hdefd
      cases hdefd
  · rintro m reloc ⟨⟩
  · intro label
    by_cases hlabel : label = labelOf n
    · subst hlabel
      have hnew : Defines (labelOf · = labelOf n) (lines ++ [.define n sec ind]) lines.length :=
        (defines_append_length _).2 ⟨n, sec, ind, rfl, rfl⟩
      refine ⟨none, sym :: defs, hchain, ?_, fun hno => absurd hnew (hno _), ?_⟩
      · intro j hj
        have hlast : IsLast (labelOf · = labelOf n) (lines ++ [.define n sec ind])
            (lines ++ [Line.define n sec ind]).length lines.length :=
          ⟨hnew.lt, hnew, fun i hi hi' => by simp at hi'; omega⟩
        rw [hj.unique hlast, ← h.length_eq, List.getElem?_concat_length, List.head?_cons]
      · intro k m reloc hk hm hno
        rcases getElem?_concat hk with ⟨-, hlt⟩ | ⟨-, hline⟩
        · exact absurd hnew (hno _ hlt)
        · cases hline
    · obtain ⟨pending', defs', hat'⟩ := h.chains label
      refine ⟨pending', defs', hat'.concat h.length_eq (hat'.chain.of_moves hmoves hlabel) ?_ ?_⟩
      · rintro m sec' ind' ⟨⟩ hm
        exact hlabel hm.symm
      · rintro m reloc ⟨⟩

/-- `Nf` -/
theorem Resolved.refForward (h : Resolved s1 lines ids) (n : Nat) (reloc : Bool) :
    ∃ s1' sym, assembleLine s1 (.forward n reloc) = .ok (s1', sym) ∧
      Resolved s1' (lines ++ [.forward n reloc]) (ids ++ [sym]) := by
  obtain ⟨pending, defs, hat⟩ := h.chains (labelOf n)
  obtain ⟨s1', sym, htakes, hstep⟩ := assembleLine_forward hat.chain reloc
  have hmoves := htakes.moves
  refine ⟨s1', sym, hstep, h.concat ?_ ?_ ?_ ?_⟩
  · intro s hs
    apply hmoves.elfsym
    rintro rfl
    rw [htakes.before] at hs
    cases hs
  · rintro m sec ind ⟨⟩
  · rintro m reloc' ⟨⟩
  · intro label
    by_cases hlabel : label = labelOf n
    · subst hlabel
      have hnot : ¬ ∃ m sec ind, Line.forward n reloc = Line.define m sec ind ∧
          labelOf m = labelOf n := by
        rintro ⟨m, sec, ind, ⟨⟩, -⟩
      refine ⟨some sym, defs, htakes.chain, ?_, ?_, ?_⟩
      · intro j hj
        have hold := (isLast_append_of_not _ hnot).1 hj
        rw [hat.head j hold, List.getElem?_append_left (by rw [h.length_eq]; exact hold.1)]
      · intro hno
        apply hat.start
        intro j hj
        exact hno j ((defines_append_of_lt _ hj.lt).2 hj)
      · intro k m reloc' hk hm hno
        rcases getElem?_concat hk with ⟨hold, hlt⟩ | ⟨rfl, -⟩
        · have hwait := hat.waiting k m reloc' hold hm fun j hkj hj =>
            hno j hkj ((defines_append_of_lt _ hj.lt).2 hj)
          have hsome : ids[k]? = some (ids.get ⟨k, by rwa [h.length_eq]⟩) :=
            List.getElem?_eq_getElem (by rwa [h.length_eq])
          rw [List.getElem?_append_left (by rwa [h.length_eq]), hsome]
          rw [hsome] at hwait
          exact congrArg some (htakes.pending_eq _ hwait.symm)
        · rw [← h.length_eq, List.getElem?_concat_length]
    · obtain ⟨pending', defs', hat'⟩ := h.chains label
      refine ⟨pending', defs', hat'.concat h.length_eq (hat'.chain.of_moves hmoves hlabel) ?_ ?_⟩
      · rintro m sec ind ⟨⟩
      · rintro m reloc' ⟨⟩ hm
        exact hlabel hm.symm

/-- `Nb` -/
theorem Resolved.refBack (h : Resolved s1 lines ids) (n : Nat) (reloc : Bool) :
    (∃ sym, assembleLine s1 (.back n reloc) = .ok (s1, sym) ∧
      Resolved s1 (lines ++ [.back n reloc]) (ids ++ [sym])) ∨
    (∃ e, assembleLine s1 (.back n reloc) = .error e) ∧
      ∀ j, ¬ Defines (labelOf · = labelOf n) lines j := by
  obtain ⟨pending, defs, hat⟩ := h.chains (labelOf n)
  have hstep := assembleLine_back hat.chain reloc
  by_cases hdef : ∃ j, Defines (labelOf · = labelOf n) lines j
  · obtain ⟨i, hi⟩ := hdef
    obtain ⟨j, hlast⟩ := exists_isLast hi.lt hi
    have hhead := hat.head j hlast
    have hsome : ids[j]? = some (ids.get ⟨j, by rw [h.length_eq]; exact hlast.1⟩) :=
      List.getElem?_eq_getElem (by rw [h.length_eq]; exact hlast.1)
    rw [hhead, hsome] at hstep
    refine .inl ⟨_, hstep, h.concat (fun _ _ => rfl) ?_ ?_ ?_⟩
    · rintro m sec ind ⟨⟩
    · rintro m reloc' ⟨⟩
      exact ⟨j, hlast, hsome.symm⟩
    · intro label
      obtain ⟨pending', defs', hat'⟩ := h.chains label
      refine ⟨pending', defs', hat'.concat h.length_eq hat'.chain ?_ ?_⟩
      · rintro m sec ind ⟨⟩
      · rintro m reloc' ⟨⟩
  · have hno : ∀ j, ¬ Defines (labelOf · = labelOf n) lines j := fun j hj => hdef ⟨j, hj⟩
    rw [hat.start hno] at hstep
    exact .inr ⟨⟨_, hstep⟩, hno⟩

end Step

/-! ## Runs -/

/-- A run keeps references resolved; it stops only at an `Nb` with no definition before it. -/
theorem Resolved.assemble (todo : List Line) {lines : List Line} {ids : List Nat}
    (h : Resolved s1 lines ids) :
    (∃ s1' syms, assemble s1 todo = .ok (s1', syms) ∧
      Resolved s1' (lines ++ todo) (ids ++ syms)) ∨
    ∃ e k n reloc, assemble s1 todo = .error e ∧
      (lines ++ todo)[k]? = some (.back n reloc) ∧
      ∀ j, j < k → ¬ Defines (labelOf · = labelOf n) (lines ++ todo) j := by
  induction todo generalizing s1 lines ids with
  | nil => exact .inl ⟨s1, [], rfl, by simpa using h⟩
  | cons line todo ih =>
    have hgo {s1' : AsmState} {sym : Nat} (hstep : assembleLine s1 line = .ok (s1', sym))
        (hnew : Resolved s1' (lines ++ [line]) (ids ++ [sym])) :
        (∃ s1' syms, Labels.assemble s1 (line :: todo) = .ok (s1', syms) ∧
          Resolved s1' (lines ++ line :: todo) (ids ++ syms)) ∨
        ∃ e k n reloc, Labels.assemble s1 (line :: todo) = .error e ∧
          (lines ++ line :: todo)[k]? = some (.back n reloc) ∧
          ∀ j, j < k → ¬ Defines (labelOf · = labelOf n) (lines ++ line :: todo) j := by
      have hsplit : lines ++ line :: todo = (lines ++ [line]) ++ todo := by simp
      rw [hsplit]
      rcases ih hnew with ⟨s1'', syms, hrun, hres⟩ | ⟨e, k, n, reloc, hrun, hk, hno⟩
      · refine .inl ⟨s1'', sym :: syms, ?_, by simpa using hres⟩
        rw [Labels.assemble, hstep]
        simp only [bind, Except.bind, hrun]
      · refine .inr ⟨e, k, n, reloc, ?_, hk, hno⟩
        rw [Labels.assemble, hstep]
        simp only [bind, Except.bind, hrun]
    cases line with
    | define n sec ind =>
      obtain ⟨s1', sym, hstep, hnew⟩ := h.define n sec ind
      exact hgo hstep hnew
    | forward n reloc =>
      obtain ⟨s1', sym, hstep, hnew⟩ := h.refForward n reloc
      exact hgo hstep hnew
    | back n reloc =>
      rcases h.refBack n reloc with ⟨sym, hstep, hnew⟩ | ⟨⟨e, hstep⟩, hno⟩
      · exact hgo hstep hnew
      · refine .inr ⟨e, lines.length, n, reloc, ?_, ?_, ?_⟩
        · rw [Labels.assemble, hstep]
          rfl
        · simp
        · rintro j hj ⟨m, sec, ind, hline, hm⟩
          rw [List.getElem?_append_left hj] at hline
          exact hno j ⟨m, sec, ind, hline, hm⟩

/-! ## References by number -/

/-- Two numbers have one label name exactly when they agree after `strtoull` and the conversion
to `unsigned int`. -/
theorem labelOf_inj {m n : Nat} : labelOf m = labelOf n ↔ labelNumber m = labelNumber n := by
  constructor
  · intro h
    have hrepr : Nat.repr (labelNumber m) = Nat.repr (labelNumber n) :=
      (String.append_right_inj "L..").1 h
    exact Nat.repr_injective hrepr
  · intro h
    rw [labelOf, labelOf, h]

/-- The symbol of line `k` is the one line `j` defined, and has the place of line `j`. -/
def Denotes (s1 : AsmState) (lines : List Line) (ids : List Nat) (k j : Nat) : Prop :=
  ∃ n sec ind s, lines[j]? = some (.define n sec ind) ∧ ids[j]? = some s ∧ ids[k]? = some s ∧
    s1.elfsym s = some ⟨sec.shNum, ind⟩

/-- What the labels of a source should mean, for a notion `Same` of when two numbers are the same
label: the run fails only at an `Nb` with no definition before it; else each `Nb` denotes the
last definition before it, and each `Nf` the next one after it or an undefined symbol. -/
structure Right (Same : Nat → Nat → Prop) (lines : List Line) : Prop where
  fails : ∀ e, assemble .empty lines = .error e →
    ∃ (k n : Nat) (reloc : Bool), lines[k]? = some (.back n reloc) ∧
      ∀ j, ¬ IsLast (Same n) lines k j
  back : ∀ s1 ids, assemble .empty lines = .ok (s1, ids) →
    ∀ (k n : Nat) reloc, lines[k]? = some (.back n reloc) →
      ∃ j, IsLast (Same n) lines k j ∧ Denotes s1 lines ids k j
  forward : ∀ s1 ids, assemble .empty lines = .ok (s1, ids) →
    ∀ (k n : Nat) reloc, lines[k]? = some (.forward n reloc) →
      (∃ j, IsNext (Same n) lines k j ∧ Denotes s1 lines ids k j) ∨
      (∀ j, ¬ IsNext (Same n) lines k j) ∧ ∃ s, ids[k]? = some s ∧ s1.isUndef s = true

/-- The condition under which the names of labels do not mix up numbers: an `Nb` without any
definition of the name before it stops the run, or the definition of the name nearest to each
reference is one of `N`. -/
def Unmixed (lines : List Line) : Prop :=
  (∃ (k n : Nat) (reloc : Bool), lines[k]? = some (.back n reloc) ∧
    ∀ j, ¬ IsLast (labelNumber · = labelNumber n) lines k j) ∨
  (∀ (k n : Nat) reloc j, lines[k]? = some (.back n reloc) →
    IsLast (labelNumber · = labelNumber n) lines k j → Defines (· = n) lines j) ∧
  ∀ (k n : Nat) reloc j, lines[k]? = some (.forward n reloc) →
    IsNext (labelNumber · = labelNumber n) lines k j → Defines (· = n) lines j

section Number

variable {lines : List Line} {ids : List Nat} {j k n : Nat}

/-- A reference denotes the definition whose symbol it has. -/
theorem Resolved.denotes {P : Nat → Prop} (h : Resolved s1 lines ids) (hdef : Defines P lines j)
    (heq : ids[k]? = ids[j]?) : Denotes s1 lines ids k j := by
  obtain ⟨m, sec, ind, hline, -⟩ := hdef
  obtain ⟨s, hs, helf⟩ := h.defined j m sec ind hline
  exact ⟨m, sec, ind, s, hline, hs, heq.trans hs, helf⟩

/-- The symbol of a forward reference with no definition after it stays undefined. -/
theorem Resolved.undefined {reloc : Bool} (h : Resolved s1 lines ids)
    (hk : lines[k]? = some (.forward n reloc))
    (hno : ∀ j, ¬ IsNext (labelOf · = labelOf n) lines k j) :
    ∃ s, ids[k]? = some s ∧ s1.isUndef s = true := by
  obtain ⟨pending, defs, hat⟩ := h.chains (labelOf n)
  have hlt : k < ids.length := by
    rw [h.length_eq]
    exact (List.getElem?_eq_some_iff.1 hk).1
  have hwait := hat.waiting k n reloc hk rfl fun j hkj hj => by
    obtain ⟨j', hnext⟩ := exists_isNext hkj hj
    exact hno j' hnext
  have hsome : ids[k]? = some (ids.get ⟨k, hlt⟩) := List.getElem?_eq_getElem hlt
  exact ⟨_, hsome, hat.chain.waits _ (hwait.symm.trans hsome)⟩

/-- Whatever the source, references are right if labels are told apart by their names. -/
theorem right_names (lines : List Line) : Right (fun n m => labelOf m = labelOf n) lines := by
  rcases resolved_empty.assemble lines with ⟨s1', syms, hrun, hres⟩ |
    ⟨e, k, n, reloc, hrun, hk, hno⟩
  · rw [List.nil_append, List.nil_append] at hres
    refine ⟨fun e he => ?_, fun s1 ids hok k n reloc hk => ?_, fun s1 ids hok k n reloc hk => ?_⟩
    · rw [hrun] at he
      cases he
    · rw [hrun] at hok
      cases hok
      obtain ⟨j, hlast, heq⟩ := hres.back k n reloc hk
      exact ⟨j, hlast, hres.denotes hlast.2.1 heq⟩
    · rw [hrun] at hok
      cases hok
      by_cases hnext : ∃ j, IsNext (labelOf · = labelOf n) lines k j
      · obtain ⟨j, hnext⟩ := hnext
        exact .inl ⟨j, hnext, hres.denotes hnext.2.1 (hres.forward k n reloc j hk hnext)⟩
      · have hno : ∀ j, ¬ IsNext (labelOf · = labelOf n) lines k j := fun j hj => hnext ⟨j, hj⟩
        exact .inr ⟨hno, hres.undefined hk hno⟩
  · rw [List.nil_append] at hk hno
    refine ⟨fun e' _ => ⟨k, n, reloc, hk, fun j hj => hno j hj.1 hj.2.1⟩, ?_, ?_⟩
    · intro s1 ids hok
      rw [hrun] at hok
      cases hok
    · intro s1 ids hok
      rw [hrun] at hok
      cases hok

/-- Different definitions have different symbols. -/
theorem Denotes.unique {j' : Nat} (hrun : assemble .empty lines = .ok (s1, ids))
    (h : Denotes s1 lines ids k j) (h' : Denotes s1 lines ids k j') : j = j' := by
  rcases resolved_empty.assemble lines with ⟨s1', syms, hok, hres⟩ | ⟨e, -, -, -, herr, -⟩
  · rw [hrun] at hok
    cases hok
    rw [List.nil_append, List.nil_append] at hres
    obtain ⟨m, sec, ind, s, hj, hsj, hsk, -⟩ := h
    obtain ⟨m', sec', ind', s', hj', hsj', hsk', -⟩ := h'
    refine hres.distinct j j' (fun _ => True) (fun _ => True) ⟨m, sec, ind, hj, trivial⟩
      ⟨m', sec', ind', hj', trivial⟩ ?_
    rw [hsj, hsj', ← hsk, hsk']
  · rw [hrun] at herr
    cases herr

/-- Being the nearest definition of a name and a definition of `N` is being the nearest
definition of `N`. -/
theorem isLast_number (h : IsLast (labelNumber · = labelNumber n) lines k j)
    (hdef : Defines (· = n) lines j) : IsLast (· = n) lines k j := by
  refine ⟨h.1, hdef, fun i hji hi => ?_⟩
  rintro ⟨m, sec, ind, hline, rfl⟩
  exact h.2.2 i hji hi ⟨m, sec, ind, hline, rfl⟩

theorem isNext_number (h : IsNext (labelNumber · = labelNumber n) lines k j)
    (hdef : Defines (· = n) lines j) : IsNext (· = n) lines k j := by
  refine ⟨h.1, hdef, fun i hki hi => ?_⟩
  rintro ⟨m, sec, ind, hline, rfl⟩
  exact h.2.2 i hki hi ⟨m, sec, ind, hline, rfl⟩

/-- Without a definition of the name there is none of the number. -/
theorem not_isLast_number (hno : ∀ j, ¬ IsLast (labelNumber · = labelNumber n) lines k j) :
    ∀ j, ¬ IsLast (· = n) lines k j := by
  rintro j ⟨hjk, ⟨m, sec, ind, hline, rfl⟩, -⟩
  have hname : Defines (labelNumber · = labelNumber m) lines j := ⟨m, sec, ind, hline, rfl⟩
  obtain ⟨i, hlast⟩ := exists_isLast hjk hname
  exact hno i hlast

theorem not_isNext_number (hno : ∀ j, ¬ IsNext (labelNumber · = labelNumber n) lines k j) :
    ∀ j, ¬ IsNext (· = n) lines k j := by
  rintro j ⟨hkj, ⟨m, sec, ind, hline, rfl⟩, -⟩
  have hname : Defines (labelNumber · = labelNumber m) lines j := ⟨m, sec, ind, hline, rfl⟩
  obtain ⟨i, hnext⟩ := exists_isNext hkj hname
  exact hno i hnext

/-- The right sources by the numbers the names are made from. -/
theorem right_labelNumbers (lines : List Line) :
    Right (fun n m => labelNumber m = labelNumber n) lines := by
  have h := right_names lines
  simp only [labelOf_inj] at h
  exact h

end Number

/-- Main result: numeric labels mean what they should exactly when the narrowing of their numbers
to 32 bits mixes up no reference. -/
theorem local_labels_right_iff (lines : List Line) :
    Right (fun n m => m = n) lines ↔ Unmixed lines := by
  have hnames := right_labelNumbers lines
  constructor
  · intro h
    cases hrun : assemble .empty lines with
    | error e => exact .inl (hnames.fails e hrun)
    | ok out =>
      obtain ⟨s1, ids⟩ := out
      refine .inr ⟨fun k n reloc j hk hlast => ?_, fun k n reloc j hk hnext => ?_⟩
      · obtain ⟨j', hlast', hden'⟩ := hnames.back s1 ids hrun k n reloc hk
        obtain ⟨i, hlast_n, hden⟩ := h.back s1 ids hrun k n reloc hk
        have hji : i = j := (hden.unique hrun hden').trans (hlast'.unique hlast)
        rw [← hji]
        exact hlast_n.2.1
      · rcases hnames.forward s1 ids hrun k n reloc hk with ⟨j', hnext', hden'⟩ | ⟨hno, -⟩
        · rcases h.forward s1 ids hrun k n reloc hk with ⟨i, hnext_n, hden⟩ | ⟨-, s, hs, hundef⟩
          · have hji : i = j := (hden.unique hrun hden').trans (hnext'.unique hnext)
            rw [← hji]
            exact hnext_n.2.1
          · obtain ⟨m, sec, ind, s', -, -, hs', helf⟩ := hden'
            rw [hs] at hs'
            cases hs'
            rw [isUndef_of_elfsym helf] at hundef
            cases hundef
        · exact absurd hnext (hno j)
  · rintro (⟨k, n, reloc, hk, hno⟩ | ⟨hback, hforward⟩)
    · have hfail : ∀ s1 ids, assemble .empty lines ≠ .ok (s1, ids) := by
        intro s1 ids hok
        obtain ⟨j, hlast, -⟩ := hnames.back s1 ids hok k n reloc hk
        exact hno j hlast
      refine ⟨fun e _ => ⟨k, n, reloc, hk, not_isLast_number hno⟩, fun s1 ids hok => ?_,
        fun s1 ids hok => ?_⟩
      · exact absurd hok (hfail s1 ids)
      · exact absurd hok (hfail s1 ids)
    · refine ⟨fun e he => ?_, fun s1 ids hok k n reloc hk => ?_, fun s1 ids hok k n reloc hk => ?_⟩
      · obtain ⟨k, n, reloc, hk, hno⟩ := hnames.fails e he
        exact ⟨k, n, reloc, hk, not_isLast_number hno⟩
      · obtain ⟨j, hlast, hden⟩ := hnames.back s1 ids hok k n reloc hk
        exact ⟨j, isLast_number hlast (hback k n reloc j hk hlast), hden⟩
      · rcases hnames.forward s1 ids hok k n reloc hk with ⟨j, hnext, hden⟩ | ⟨hno, hundef⟩
        · exact .inl ⟨j, isNext_number hnext (hforward k n reloc j hk hnext), hden⟩
        · exact .inr ⟨not_isNext_number hno, hundef⟩

/-- A reference to 4294967297 finds the label 1. -/
theorem local_labels_mixed : ¬ ∀ lines, Right (fun n m => m = n) lines := by
  intro h
  have hright := h [.define 1 ⟨1, by decide⟩ 0, .back 4294967297 true]
  have hnames := right_labelNumbers [.define 1 ⟨1, by decide⟩ 0, .back 4294967297 true]
  have hdef : Defines (labelNumber · = labelNumber 4294967297)
      [.define 1 ⟨1, by decide⟩ 0, .back 4294967297 true] 0 := ⟨1, _, _, rfl, by decide⟩
  cases hrun : assemble .empty [.define 1 ⟨1, by decide⟩ 0, .back 4294967297 true] with
  | error e =>
    obtain ⟨k, n, reloc, hk, hno⟩ := hnames.fails e hrun
    rcases k with _ | _ | k
    · cases hk
    · cases hk
      obtain ⟨j, hlast⟩ := exists_isLast Nat.zero_lt_one hdef
      exact hno j hlast
    · cases hk
  | ok out =>
    obtain ⟨j, ⟨hj, ⟨m, sec, ind, hline, hm⟩, -⟩, -⟩ := hright.back out.1 out.2 hrun 1 _ true rfl
    have hzero : j = 0 := Nat.lt_one_iff.1 hj
    subst hzero
    cases hline
    exact absurd hm (by decide)

end TccRiscv64.Asm.Labels
