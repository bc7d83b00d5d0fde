import TccRiscv64.Asm.Expr

set_option autoImplicit false

/-! # What assembler expressions denote

An expression is a tree of operations on numbers and addresses, with a value for every assignment
of addresses to symbols and sections. The result of `asm_expr` denotes that value as long as the
flag `pcrel` of an operand is not lost on the way. -/

namespace TccRiscv64.Asm.Expr

open Labels

/-! ## Trees -/

/-- Expressions. A label stands for its symbol; an absolute one is told apart when it is read. -/
inductive Tree
  | num (n : Nat)
  | char (i : BitVec 64)
  | label (sym : Nat)
  | absolute (sym : Nat)
  | here (sym : Nat)
  | neg (a : Tree)
  | not (a : Tree)
  | bin (op : BinOp) (a b : Tree)

/-- Final addresses of symbols and sections. -/
structure Addresses where
  sym : Nat → BitVec 64
  sec : Nat → BitVec 64

/-- Defined symbols are in their section; absolute ones have their value. -/
def Consistent (s1 : AsmState) (A : Addresses) : Prop :=
  ∀ sym esym, s1.elfsym sym = some esym →
    (esym.stShndx = shnAbs → A.sym sym = BitVec.ofInt 64 esym.stValue) ∧
    (esym.stShndx ≠ shnUndef → esym.stShndx ≠ shnAbs → esym.stShndx ≠ shnCommon →
      A.sym sym = A.sec esym.stShndx + BitVec.ofInt 64 esym.stValue)

/-- The operators on 64-bit words: `/`, `%` and `>>` unsigned, comparisons signed with all ones for
true. -/
def BinOp.value (op : BinOp) (a b : BitVec 64) : BitVec 64 :=
  match op with
  | mul => a * b
  | div => a / b
  | mod => a % b
  | shl => a <<< b.toNat
  | sar => a >>> b.toNat
  | and => a &&& b
  | or => a ||| b
  | xor => a ^^^ b
  | add => a + b
  | sub => a - b
  | eq => if a = b then -1 else 0
  | ne => if a ≠ b then -1 else 0
  | lt => if a.toInt < b.toInt then -1 else 0
  | ge => if b.toInt ≤ a.toInt then -1 else 0
  | le => if a.toInt ≤ b.toInt then -1 else 0
  | gt => if b.toInt < a.toInt then -1 else 0

def BinOp.isShift (op : BinOp) : Bool := op == .shl || op == .sar

/-- The value of a tree. -/
def Tree.value (cx : Place) (A : Addresses) : Tree → BitVec 64
  | num n => BitVec.ofNat 64 n
  | char i => i
  | label sym | absolute sym => A.sym sym
  | here _ => A.sec cx.curTextSection.shNum + cx.ind.signExtend 64
  | neg a => -a.value cx A
  | not a => ~~~a.value cx A
  | bin op a b => op.value (a.value cx A) (b.value cx A)

/-- What a result stands for. -/
def ExprValue.denotes (cx : Place) (A : Addresses) (e : ExprValue) : BitVec 64 :=
  e.v + (e.sym.map A.sym).getD 0 - if e.pcrel then A.sec cx.curTextSection.shNum else 0

/-! ## Reading a tree -/

/-- The number a text spells, of any size. -/
def numeral (text : List Char) : Nat :=
  let (base, text) := numberBase text
  ofDigits base (text.takeWhile (digit · < base))

/-- A number, or a local label; `m` is the number of any size that the text spells. -/
def readNumber (s1 : AsmState) (m n : Nat) (p : List Char) : Except Error (Tree × AsmState) :=
  if p.head? = some 'b' then do
    let (s1, sym) ← liftLabel (assembleLine s1 (.back n false))
    .ok (.label sym, s1)
  else if p.head? = some 'f' then do
    let (s1, sym) ← liftLabel (assembleLine s1 (.forward n false))
    .ok (.label sym, s1)
  else if p = [] then .ok (.num m, s1)
  else .error .invalidNumber

def labelTree (s1 : AsmState) (sym : Nat) : Tree :=
  if (s1.elfsym sym).any fun esym => esym.stShndx == shnAbs then .absolute sym else .label sym

def readAtom (cx : Place) (s1 : AsmState) : Tok → Except Error (Tree × AsmState)
  | .ppnum c text =>
    readNumber s1 (numeral (c :: text)) (strtoull (c :: text)).1 (strtoull (c :: text)).2
  | .cchar i => .ok (.char i, s1)
  | .dot => do
    let (s1, sym) ← liftLabel (asmSectionSym s1 cx.curTextSection)
    .ok (.here sym, s1)
  | .ident name =>
    .ok (labelTree (getAsmSym s1 name).1 (getAsmSym s1 name).2, (getAsmSym s1 name).1)
  | _ => .error .badSyntax

def readUnary (cx : Place) (expr : Parser Tree) : Parser Tree := fun s1 toks =>
  match toks with
  | .plus :: toks => readUnary cx expr s1 toks
  | .minus :: toks => do
    let (a, s1, toks) ← readUnary cx expr s1 toks
    .ok (.neg a, s1, toks)
  | .tilde :: toks => do
    let (a, s1, toks) ← readUnary cx expr s1 toks
    .ok (.not a, s1, toks)
  | .lparen :: toks => do
    let (a, s1, toks) ← expr s1 toks
    if toks.head? = some .rparen then .ok (a, s1, toks.tail) else .error .expectedParen
  | tok :: toks => do
    let (a, s1) ← readAtom cx s1 tok
    .ok (a, s1, toks)
  | [] => .error .badSyntax
termination_by structural _ toks => toks

/-- A node of the tree. -/
def node (_ : AsmState) (op : BinOp) (a b : Tree) : Except Error Tree := .ok (.bin op a b)

/-- The levels of precedence, from `*` down to the comparisons. -/
def readLevels (cx : Place) (expr : Parser Tree) (fuel : Nat) : Parser Tree :=
  binaryLevel (binaryLevel (binaryLevel (binaryLevel (readUnary cx expr) prodOp node fuel)
    logicOp node fuel) sumOp node fuel) cmpOp node fuel

def readTreeFuel (cx : Place) : Nat → Parser Tree
  | 0 => fun _ _ => .error .outOfFuel
  | fuel + 1 => readLevels cx (readTreeFuel cx fuel) (fuel + 1)

/-- The tree at the start of the tokens. -/
def readTree (cx : Place) : Parser Tree := fun s1 toks =>
  readTreeFuel cx (toks.length + 1) s1 toks

/-! ## The condition -/

/-- The labels of two terms are both defined in one section. -/
def sameSection (s1 : AsmState) (x y : Option Nat) : Bool :=
  ((x.bind s1.elfsym).bind fun esym1 => (y.bind s1.elfsym).map fun esym2 =>
    esym1.stShndx == esym2.stShndx && esym1.stShndx != shnUndef).getD false

namespace Tree

/-- The label whose address a term contains, once differences in one section are numbers. -/
def sym (s1 : AsmState) : Tree → Option Nat
  | label sym | here sym => some sym
  | bin .add a b => (a.sym s1).or (b.sym s1)
  | bin .sub a b =>
    if (b.sym s1).isNone then a.sym s1
    else if a.sym s1 = b.sym s1 ∨ sameSection s1 (a.sym s1) (b.sym s1) then none
    else a.sym s1
  | _ => none

/-- The term `a - b` is relative to the current section: the label of `b` does not go away. -/
def relative (s1 : AsmState) (a b : Tree) : Bool :=
  (b.sym s1).isSome && a.sym s1 != b.sym s1 && !sameSection s1 (a.sym s1) (b.sym s1)

/-- The start of the term, before any right operand, is such a difference. -/
def anchored (s1 : AsmState) : Tree → Bool
  | neg a | not a => a.anchored s1
  | bin .sub a b => a.anchored s1 || a.relative s1 b
  | bin _ a _ => a.anchored s1
  | _ => false

/-- The labels of two terms are different and both common. -/
def bothCommon (s1 : AsmState) (a b : Tree) : Prop :=
  a.sym s1 ≠ b.sym s1 ∧ ∃ esym1 esym2, (a.sym s1).bind s1.elfsym = some esym1 ∧
    (b.sym s1).bind s1.elfsym = some esym2 ∧
    esym1.stShndx = shnCommon ∧ esym2.stShndx = shnCommon

/-- No term loses its `pcrel`: only a left operand of `+` and `-` is a difference relative to the
current section, and no second label of that section is subtracted from it. Numbers and shift
counts are in range, common symbols are not subtracted from each other, and the name of the
current section's symbol is not one of the source. -/
def Clean (cx : Place) (s1 : AsmState) (A : Addresses) : Tree → Prop
  | num n => n < 2 ^ 64
  | here sym => s1.elfsym sym = some ⟨cx.curTextSection.shNum, 0⟩
  | neg a | not a => a.Clean cx s1 A ∧ a.anchored s1 = false
  | bin op a b =>
    a.Clean cx s1 A ∧ b.Clean cx s1 A ∧ b.anchored s1 = false ∧
      (op ≠ .add → (op = .sub → a.relative s1 b) → a.anchored s1 = false) ∧
      (op = .sub → ¬ a.bothCommon s1 b) ∧
      (op.isShift → (b.value cx A).toNat < 64)
  | _ => True

end Tree

/-! ## The symbol table -/

/-- The chains hold symbols that exist. -/
def WellFormed (s1 : AsmState) : Prop := ∀ label, ∀ sym ∈ s1.chain label, sym < s1.syms.length

/-- New symbols may come, the old ones stay as they are. -/
structure Extends (s1 s1' : AsmState) : Prop where
  length_le : s1.syms.length ≤ s1'.syms.length
  elfsym : ∀ sym, sym < s1.syms.length → s1'.elfsym sym = s1.elfsym sym

theorem Extends.refl (s1 : AsmState) : Extends s1 s1 := ⟨Nat.le_refl _, fun _ _ => rfl⟩

theorem Extends.trans {s1 s1' s1'' : AsmState} (h : Extends s1 s1') (h' : Extends s1' s1'') :
    Extends s1 s1'' where
  length_le := h.length_le.trans h'.length_le
  elfsym sym hsym := (h'.elfsym sym (hsym.trans_le h.length_le)).trans (h.elfsym sym hsym)

theorem wellFormed_empty : WellFormed .empty := by
  intro label sym hsym
  cases hsym

section Table

variable {s1 : AsmState} {label : String}

/-- A new symbol at the front of a chain. -/
theorem asmLabelPush_spec (hs : WellFormed s1) (label : String) :
    Extends s1 (s1.asmLabelPush label).1 ∧ WellFormed (s1.asmLabelPush label).1 ∧
      (s1.asmLabelPush label).2 < (s1.asmLabelPush label).1.syms.length := by
  have hlen : (s1.asmLabelPush label).1.syms.length = s1.syms.length + 1 := by
    simp [AsmState.asmLabelPush]
  have hmoves : s1.Moves (s1.asmLabelPush label).1 (s1.asmLabelPush label).2 label :=
    AsmState.moves_asmLabelPush
  refine ⟨⟨by omega, fun sym hsym => hmoves.elfsym sym (Nat.ne_of_lt hsym)⟩, ?_, ?_⟩
  · intro l sym hsym
    rw [hlen]
    by_cases hl : l = label
    · rw [hl, AsmState.chain_asmLabelPush, AsmState.asmLabelPush_snd] at hsym
      rcases List.mem_cons.1 hsym with rfl | hsym
      · exact Nat.lt_succ_self _
      · exact (hs label sym hsym).trans (Nat.lt_succ_self _)
    · rw [hmoves.chain l hl] at hsym
      exact (hs l sym hsym).trans (Nat.lt_succ_self _)
  · rw [hlen]
    exact Nat.lt_succ_self _

theorem setLabel_length (s1 : AsmState) (sym isLocal shNum : Nat) (value : Int) :
    (s1.setLabel sym isLocal shNum value).syms.length = s1.syms.length := by
  rw [AsmState.setLabel, AsmState.putExternSym]
  split <;> simp

theorem asmLabelFind_lt {sym : Nat} (hs : WellFormed s1)
    (h : s1.asmLabelFind label = some sym) : sym < s1.syms.length :=
  hs label sym (List.mem_of_mem_head? h)

/-- What reading a label leaves behind: a symbol that exists. -/
structure Found (s1 s1' : AsmState) (sym : Nat) : Prop where
  ext : Extends s1 s1'
  wf : WellFormed s1'
  lt : sym < s1'.syms.length

theorem getAsmSym_found (hs : WellFormed s1) (name : String) :
    Found s1 (getAsmSym s1 name).1 (getAsmSym s1 name).2 := by
  rw [getAsmSym]
  cases hfind : s1.asmLabelFind name with
  | some sym => exact ⟨Extends.refl s1, hs, asmLabelFind_lt hs hfind⟩
  | none =>
    obtain ⟨hext, hwf, hlt⟩ := asmLabelPush_spec hs name
    exact ⟨hext, hwf, hlt⟩

theorem asmSectionSym_found {s1' : AsmState} {sym : Nat} (hs : WellFormed s1) (sec : Section)
    (h : asmSectionSym s1 sec = .ok (s1', sym)) : Found s1 s1' sym := by
  rw [asmSectionSym] at h
  cases hfind : s1.asmLabelFind ("L." ++ sec.name) with
  | some sym' =>
    simp only [hfind] at h
    cases h
    exact ⟨Extends.refl s1, hs, asmLabelFind_lt hs hfind⟩
  | none =>
    simp only [hfind, asmNewLabel1] at h
    cases h
    obtain ⟨hext, hwf, hlt⟩ := asmLabelPush_spec hs ("L." ++ sec.name)
    have hlen := setLabel_length (s1.asmLabelPush ("L." ++ sec.name)).1
      (s1.asmLabelPush ("L." ++ sec.name)).2 1 sec.shNum 0
    have hname : (s1.asmLabelPush ("L." ++ sec.name)).1.Named
        (s1.asmLabelPush ("L." ++ sec.name)).2 ("L." ++ sec.name) :=
      AsmState.moves_asmLabelPush.named
    have hset := (AsmState.setLabel_spec 1 sec.shNum 0 hname).1
    refine ⟨⟨hext.length_le.trans hlen.ge, fun sym hsym => ?_⟩, fun l sym hsym => ?_, ?_⟩
    · exact (hset.elfsym sym (Nat.ne_of_lt hsym)).trans (hext.elfsym sym hsym)
    · rw [AsmState.setLabel_chain] at hsym
      rw [hlen]
      exact hwf l sym hsym
    · rw [hlen]
      exact hlt

theorem assembleLine_back_found {s1' : AsmState} {n sym : Nat} (hs : WellFormed s1)
    (h : assembleLine s1 (.back n false) = .ok (s1', sym)) : Found s1 s1' sym := by
  rw [assembleLine] at h
  cases hchain : s1.chain (labelOf n) with
  | nil =>
    simp only [hchain] at h
    cases h
  | cons first rest =>
    have hmem (t : Nat) (ht : t ∈ first :: rest) : t < s1.syms.length :=
      hs (labelOf n) t (by rw [hchain]; exact ht)
    simp only [hchain] at h
    by_cases hundef : s1.isUndef first = true
    · rw [if_pos hundef] at h
      cases rest with
      | nil => cases h
      | cons second rest =>
        cases h
        exact ⟨Extends.refl s1, hs, hmem _ (by simp)⟩
    · rw [if_neg hundef] at h
      cases h
      exact ⟨Extends.refl s1, hs, hmem _ List.mem_cons_self⟩

theorem assembleLine_forward_found {s1' : AsmState} {n sym : Nat} (hs : WellFormed s1)
    (h : assembleLine s1 (.forward n false) = .ok (s1', sym)) : Found s1 s1' sym := by
  obtain ⟨hext, hwf, hlt⟩ := asmLabelPush_spec hs (labelOf n)
  rw [assembleLine] at h
  cases hfind : s1.asmLabelFind (labelOf n) with
  | none =>
    simp only [hfind] at h
    cases h
    exact ⟨hext, hwf, hlt⟩
  | some first =>
    simp only [hfind] at h
    by_cases hundef : s1.isUndef first = true
    · rw [if_pos hundef] at h
      cases h
      exact ⟨Extends.refl s1, hs, asmLabelFind_lt hs hfind⟩
    · rw [if_neg hundef] at h
      cases h
      exact ⟨hext, hwf, hlt⟩

end Table

/-! ## Results and trees -/

/-- A result fits a tree, whatever symbols come later. -/
structure Fits (cx : Place) (s1 : AsmState) (e : ExprValue) (tree : Tree) : Prop where
  sym : e.sym = tree.sym s1
  pcrel : e.pcrel = tree.anchored s1
  value : ∀ A, Consistent s1 A → tree.Clean cx s1 A → e.denotes cx A = tree.value cx A

/-- What was read fits in every later symbol table. -/
structure Reads (cx : Place) (s1 s1' : AsmState) (e : ExprValue) (tree : Tree) : Prop where
  ext : Extends s1 s1'
  wf : WellFormed s1'
  lt : ∀ sym ∈ e.sym, sym < s1'.syms.length
  fits : ∀ s1'', Extends s1' s1'' → Fits cx s1'' e tree

/-- Whenever `p` reads a value, `q` reads a tree from the same tokens which it fits. -/
def Follows (cx : Place) (p : Parser ExprValue) (q : Parser Tree) : Prop :=
  ∀ s1 toks e s1' rest, WellFormed s1 → p s1 toks = .ok (e, s1', rest) →
    ∃ tree, q s1 toks = .ok (tree, s1', rest) ∧ Reads cx s1 s1' e tree

theorem Reads.of_extends {cx : Place} {s1 s1' s1'' : AsmState} {e : ExprValue} {tree : Tree}
    (h : Reads cx s1 s1' e tree) (hext : Extends s1' s1'') (hwf : WellFormed s1'') :
    Reads cx s1 s1'' e tree where
  ext := h.ext.trans hext
  wf := hwf
  lt sym hsym := (h.lt sym hsym).trans_le hext.length_le
  fits t ht := h.fits t (hext.trans ht)

/-- A bind succeeds when both parts do. -/
theorem bind_ok {α β : Type} {x : Except Error α} {f : α → Except Error β} {b : β}
    (h : (x >>= f) = .ok b) : ∃ a, x = .ok a ∧ f a = .ok b := by
  cases x with
  | error e => cases h
  | ok a => exact ⟨a, rfl, h⟩

theorem bind_of_ok {α β : Type} {x : Except Error α} {f : α → Except Error β} {a : α}
    (h : x = .ok a) : (x >>= f) = f a := by
  rw [h]
  rfl

theorem liftLabel_ok {α : Type} {x : Except Labels.Error α} {a : α} (h : liftLabel x = .ok a) :
    x = .ok a := by
  cases x with
  | error e => cases h
  | ok b =>
    cases h
    rfl

/-! ## Atoms -/

section Atom

variable {cx : Place} {s1 s1' : AsmState}

/-- A number or a character. -/
theorem reads_const (hs : WellFormed s1) {v : BitVec 64} {tree : Tree}
    (hsym : ∀ t, tree.sym t = none) (hanchored : ∀ t, tree.anchored t = false)
    (hvalue : ∀ t A, tree.Clean cx t A → tree.value cx A = v) :
    Reads cx s1 s1 ⟨v, none, false⟩ tree where
  ext := Extends.refl s1
  wf := hs
  lt _ h := by cases h
  fits t _ := by
    refine ⟨(hsym t).symm, (hanchored t).symm, fun A _ hclean => ?_⟩
    rw [hvalue t A hclean]
    simp [ExprValue.denotes]

/-- A label whose symbol is kept. -/
theorem reads_label {sym : Nat} (h : Found s1 s1' sym) :
    Reads cx s1 s1' ⟨0, some sym, false⟩ (.label sym) where
  ext := h.ext
  wf := h.wf
  lt t ht := by
    cases ht
    exact h.lt
  fits t _ := by
    refine ⟨rfl, rfl, fun A _ _ => ?_⟩
    simp [ExprValue.denotes, Tree.value]

/-- A label with an absolute value. -/
theorem reads_absolute {sym : Nat} {esym : ElfSym} (h : Found s1 s1' sym)
    (hesym : s1'.elfsym sym = some esym) (habs : esym.stShndx = shnAbs) :
    Reads cx s1 s1' ⟨BitVec.ofInt 64 esym.stValue, none, false⟩ (.absolute sym) where
  ext := h.ext
  wf := h.wf
  lt _ ht := by cases ht
  fits t hext := by
    refine ⟨rfl, rfl, fun A hA _ => ?_⟩
    have hsame : t.elfsym sym = some esym := (hext.elfsym sym h.lt).trans hesym
    simp [ExprValue.denotes, Tree.value, (hA sym esym hsame).1 habs]

theorem Section.ne_special (sec : Section) :
    sec.shNum ≠ shnUndef ∧ sec.shNum ≠ shnAbs ∧ sec.shNum ≠ shnCommon := by
  have hlt := sec.lt_loreserve
  refine ⟨sec.ne_undef, ?_, ?_⟩
  · rintro heq
    rw [heq] at hlt
    exact absurd hlt (by decide)
  · rintro heq
    rw [heq] at hlt
    exact absurd hlt (by decide)

/-- The current place. -/
theorem reads_here {sym : Nat} (h : Found s1 s1' sym) :
    Reads cx s1 s1' ⟨cx.ind.signExtend 64, some sym, false⟩ (.here sym) where
  ext := h.ext
  wf := h.wf
  lt t ht := by
    cases ht
    exact h.lt
  fits t _ := by
    refine ⟨rfl, rfl, fun A hA hclean => ?_⟩
    obtain ⟨hundef, habs, hcommon⟩ := cx.curTextSection.ne_special
    have haddr := (hA sym _ hclean).2 hundef habs hcommon
    have hzero : A.sym sym = A.sec cx.curTextSection.shNum := by simpa using haddr
    simp [ExprValue.denotes, Tree.value, hzero, BitVec.add_comm]

theorem strtoull_eq {text rest : List Char} {n : Nat} (h : strtoull text = (n, rest)) :
    n = min (numeral text) (2 ^ 64 - 1) := by
  simp only [strtoull, Prod.mk.injEq] at h
  rw [← h.1, numeral]

/-- A number in range is read as it is. -/
theorem reads_num (hs : WellFormed s1) {text rest : List Char} {n : Nat}
    (h : strtoull text = (n, rest)) :
    Reads cx s1 s1 ⟨BitVec.ofNat 64 n, none, false⟩ (.num (numeral text)) := by
  refine reads_const hs (fun _ => rfl) (fun _ => rfl) fun t A hclean => ?_
  have hlt : numeral text < 2 ^ 64 := hclean
  have hmin := strtoull_eq h
  have hn : n = numeral text := by omega
  rw [Tree.value, hn]

/-- The cases of a `TOK_PPNUM`, by the character after the number. -/
theorem asmExprNumber_reads {e : ExprValue} {text p : List Char} {n : Nat} (hs : WellFormed s1)
    (hnum : strtoull text = (n, p)) (h : asmExprNumber s1 n p = .ok (e, s1')) :
    ∃ tree, readNumber s1 (numeral text) n p = .ok (tree, s1') ∧ Reads cx s1 s1' e tree := by
  rw [asmExprNumber] at h
  rw [readNumber]
  by_cases hb : p.head? = some 'b'
  · rw [if_pos hb] at h ⊢
    obtain ⟨⟨s1'', sym⟩, hline, h⟩ := bind_ok h
    cases h
    refine ⟨.label sym, ?_, reads_label (assembleLine_back_found hs (liftLabel_ok hline))⟩
    exact bind_of_ok hline
  · rw [if_neg hb] at h ⊢
    by_cases hf : p.head? = some 'f'
    · rw [if_pos hf] at h ⊢
      obtain ⟨⟨s1'', sym⟩, hline, h⟩ := bind_ok h
      cases h
      refine ⟨.label sym, ?_, reads_label (assembleLine_forward_found hs (liftLabel_ok hline))⟩
      exact bind_of_ok hline
    · rw [if_neg hf] at h ⊢
      by_cases hnil : p = []
      · rw [if_pos hnil] at h ⊢
        simp only [Except.ok.injEq, Prod.mk.injEq] at h
        obtain ⟨rfl, rfl⟩ := h
        exact ⟨_, rfl, reads_num hs hnum⟩
      · rw [if_neg hnil] at h
        cases h

/-- A label that is not local. -/
theorem labelValue_reads {sym : Nat} (h : Found s1 s1' sym) :
    Reads cx s1 s1' (labelValue s1' sym) (labelTree s1' sym) := by
  rw [labelValue, labelTree]
  cases hesym : s1'.elfsym sym with
  | none => exact reads_label h
  | some esym =>
    by_cases habs : esym.stShndx = shnAbs
    · simp only [if_pos habs, Option.any_some, beq_iff_eq]
      exact reads_absolute h hesym habs
    · simp only [if_neg habs, Option.any_some, beq_iff_eq]
      exact reads_label h

/-- The cases that read one token. -/
theorem asmExprAtom_reads {e : ExprValue} {tok : Tok} (hs : WellFormed s1)
    (h : asmExprAtom cx s1 tok = .ok (e, s1')) :
    ∃ tree, readAtom cx s1 tok = .ok (tree, s1') ∧ Reads cx s1 s1' e tree := by
  cases tok with
  | ppnum c text =>
    have h : asmExprNumber s1 (strtoull (c :: text)).1 (strtoull (c :: text)).2
      = .ok (e, s1') := h
    obtain ⟨tree, hread, hreads⟩ := asmExprNumber_reads hs rfl h
    exact ⟨tree, hread, hreads⟩
  | cchar i =>
    have h : Except.ok (⟨i, none, false⟩, s1) = Except.ok (e, s1') := h
    simp only [Except.ok.injEq, Prod.mk.injEq] at h
    obtain ⟨rfl, rfl⟩ := h
    exact ⟨.char i, rfl, reads_const hs (fun _ => rfl) (fun _ => rfl) fun _ _ _ => rfl⟩
  | dot =>
    obtain ⟨⟨s1'', sym⟩, hsec, h⟩ := bind_ok h
    cases h
    refine ⟨.here sym, ?_, reads_here (asmSectionSym_found hs _ (liftLabel_ok hsec))⟩
    exact bind_of_ok hsec
  | ident name =>
    have h : Except.ok (labelValue (getAsmSym s1 name).1 (getAsmSym s1 name).2,
      (getAsmSym s1 name).1) = Except.ok (e, s1') := h
    simp only [Except.ok.injEq, Prod.mk.injEq] at h
    obtain ⟨rfl, rfl⟩ := h
    exact ⟨_, rfl, labelValue_reads (getAsmSym_found hs name)⟩
  | _ => cases h

end Atom

/-! ## Operators -/

/-- A truth value, negated, is all ones or zero. -/
theorem neg_ofBool (p : Bool) :
    -(BitVec.ofBool p).setWidth 64 = if p = true then -1 else (0 : BitVec 64) := by
  cases p <;> rfl

theorem arith_eq {cx : Place} {op : BinOp} {a b v : BitVec 64} (h : arith cx op a b = .ok v)
    (hshift : op.isShift → b.toNat < 64) : v = op.value a b := by
  cases op with
  | mul | and | or | xor | add | sub =>
    cases h
    rfl
  | div | mod =>
    rw [arith] at h
    by_cases hb : b = 0
    · rw [if_pos hb] at h
      cases h
    · rw [if_neg hb] at h
      cases h
      rfl
  | shl | sar =>
    rw [arith, if_pos (hshift rfl)] at h
    cases h
    rfl
  | eq | ne | lt | ge | le | gt =>
    cases h
    rw [neg_ofBool]
    simp [BinOp.value, BitVec.slt, BitVec.sle]

section Fits

variable {cx : Place} {s1 : AsmState} {pe e2 e : ExprValue} {a b : Tree}

/-- Without a symbol and the flag a result is a number. -/
theorem denotes_plain {A : Addresses} (hsym : pe.sym = none) (hpcrel : pe.pcrel = false) :
    pe.denotes cx A = pe.v := by
  simp [ExprValue.denotes, hsym, hpcrel]

theorem denotes_mk {A : Addresses} (v : BitVec 64) {sym : Option Nat} {pcrel : Bool}
    (hsym : sym = none) (hpcrel : pcrel = false) :
    (ExprValue.mk v sym pcrel).denotes cx A = v := denotes_plain hsym hpcrel

theorem Fits.neg (h : Fits cx s1 pe a) (hsym : pe.sym = none) :
    Fits cx s1 { pe with v := -pe.v } (.neg a) where
  sym := hsym
  pcrel := h.pcrel
  value A hA hclean := by
    have hp : pe.pcrel = false := h.pcrel.trans hclean.2
    have hval := h.value A hA hclean.1
    rw [denotes_plain hsym hp] at hval
    exact (denotes_mk _ hsym hp).trans (congrArg (- ·) hval)

theorem Fits.not (h : Fits cx s1 pe a) (hsym : pe.sym = none) :
    Fits cx s1 { pe with v := ~~~pe.v } (.not a) where
  sym := hsym
  pcrel := h.pcrel
  value A hA hclean := by
    have hp : pe.pcrel = false := h.pcrel.trans hclean.2
    have hval := h.value A hA hclean.1
    rw [denotes_plain hsym hp] at hval
    exact (denotes_mk _ hsym hp).trans (congrArg (~~~ ·) hval)

/-- The operators of `asm_expr_prod`, `asm_expr_logic` and `asm_expr_cmp`. -/
theorem Fits.plain {op : BinOp} (ha : Fits cx s1 pe a) (hb : Fits cx s1 e2 b)
    (hadd : op ≠ .add) (hsub : op ≠ .sub) (h : combinePlain cx s1 op pe e2 = .ok e) :
    Fits cx s1 e (.bin op a b) := by
  rw [combinePlain] at h
  by_cases hsyms : pe.sym.isSome ∨ e2.sym.isSome
  · rw [if_pos hsyms] at h
    cases h
  · rw [if_neg hsyms] at h
    obtain ⟨v, hv, h⟩ := bind_ok h
    cases h
    obtain ⟨hpe, he2⟩ := not_or.1 hsyms
    have hpe : pe.sym = none := by simpa using hpe
    have he2 : e2.sym = none := by simpa using he2
    refine ⟨?_, ?_, fun A hA hclean => ?_⟩
    · rw [hpe]
      cases op <;> first | rfl | exact absurd rfl hadd | exact absurd rfl hsub
    · rw [ha.pcrel]
      cases op <;> first | rfl | exact absurd rfl hsub
    · obtain ⟨hca, hcb, hbp, hap, -, hshift⟩ := hclean
      have hpa : pe.pcrel = false := ha.pcrel.trans (hap hadd fun heq => absurd heq hsub)
      have hpb : e2.pcrel = false := hb.pcrel.trans hbp
      have hva := ha.value A hA hca
      have hvb := hb.value A hA hcb
      rw [denotes_plain hpe hpa] at hva
      rw [denotes_plain he2 hpb] at hvb
      refine (denotes_mk v hpe hpa).trans ?_
      rw [Tree.value, ← hva, ← hvb]
      exact arith_eq hv fun hs => by rw [hvb]; exact hshift hs

/-- `+`: at most one operand has a symbol. -/
theorem Fits.add (ha : Fits cx s1 pe a) (hb : Fits cx s1 e2 b)
    (h : combineSum cx s1 .add pe e2 = .ok e) : Fits cx s1 e (.bin .add a b) := by
  rw [combineSum, if_pos rfl] at h
  by_cases hsyms : pe.sym.isSome ∧ e2.sym.isSome
  · rw [if_pos hsyms] at h
    cases h
  · rw [if_neg hsyms] at h
    cases h
    have hor : (if pe.sym.isNone then e2.sym else pe.sym) = pe.sym.or e2.sym := by
      cases pe.sym <;> rfl
    refine ⟨?_, ha.pcrel, fun A hA hclean => ?_⟩
    · rw [Tree.sym, ← ha.sym, ← hb.sym]
      exact hor
    · obtain ⟨hca, hcb, hbp, -⟩ := hclean
      have hva := ha.value A hA hca
      have hvb := hb.value A hA hcb
      have hpb : e2.pcrel = false := hb.pcrel.trans hbp
      rw [ExprValue.denotes] at hva hvb
      rw [hpb, if_neg Bool.false_ne_true] at hvb
      rw [ExprValue.denotes, Tree.value, BinOp.value, ← hva, ← hvb]
      cases hpe : pe.sym with
      | none =>
        simp only [Option.isNone_none, if_true, Option.map_none, Option.getD_none]
        ring
      | some x =>
        have he2 : e2.sym = none := by simpa [hpe] using hsyms
        simp only [Option.isNone_some, Bool.false_eq_true, if_false, he2, Option.map_none,
          Option.getD_none]
        ring

/-- The addresses of two symbols of one section differ by their values. -/
theorem sub_of_sameSection {A : Addresses} {x y : Nat} {esym1 esym2 : ElfSym}
    (hA : Consistent s1 A) (hx : s1.elfsym x = some esym1) (hy : s1.elfsym y = some esym2)
    (hsec : esym1.stShndx = esym2.stShndx) (hundef : esym1.stShndx ≠ shnUndef)
    (hcommon : esym1.stShndx ≠ shnCommon) :
    A.sym x - A.sym y = BitVec.ofInt 64 esym1.stValue - BitVec.ofInt 64 esym2.stValue := by
  by_cases habs : esym1.stShndx = shnAbs
  · rw [(hA x esym1 hx).1 habs, (hA y esym2 hy).1 (hsec ▸ habs)]
  · rw [(hA x esym1 hx).2 hundef habs hcommon,
      (hA y esym2 hy).2 (hsec ▸ hundef) (hsec ▸ habs) (hsec ▸ hcommon), hsec]
    ring

theorem sameSection_some {x y : Nat} {esym1 esym2 : ElfSym} (hx : s1.elfsym x = some esym1)
    (hy : s1.elfsym y = some esym2) :
    sameSection s1 (some x) (some y) = true ↔
      esym1.stShndx = esym2.stShndx ∧ esym1.stShndx ≠ shnUndef := by
  simp [sameSection, hx, hy]

/-- What `-` does when it is no error. -/
theorem combineSum_sub_cases (h : combineSum cx s1 .sub pe e2 = .ok e) :
    (e2.sym = none ∧ e = { pe with v := pe.v - e2.v }) ∨
    (∃ y, e2.sym = some y ∧ pe.sym = some y ∧ e = { pe with v := pe.v - e2.v, sym := none }) ∨
    (∃ x y esym1 esym2, pe.sym = some x ∧ e2.sym = some y ∧ pe.sym ≠ e2.sym ∧
      s1.elfsym x = some esym1 ∧ s1.elfsym y = some esym2 ∧ sameSection s1 pe.sym e2.sym = true ∧
      e = { pe with
        v := pe.v - e2.v + (BitVec.ofInt 64 esym1.stValue - BitVec.ofInt 64 esym2.stValue)
        sym := none }) ∨
    ∃ y esym2, e2.sym = some y ∧ pe.sym ≠ e2.sym ∧ s1.elfsym y = some esym2 ∧
      sameSection s1 pe.sym e2.sym = false ∧ esym2.stShndx = cx.curTextSection.shNum ∧
      e = { pe with v := pe.v - e2.v + (0 - BitVec.ofInt 64 esym2.stValue), pcrel := true } := by
  rw [combineSum, if_neg (by decide)] at h
  cases he2 : e2.sym with
  | none =>
    simp only [he2] at h
    cases h
    exact .inl ⟨rfl, rfl⟩
  | some y =>
    right
    simp only [he2] at h
    by_cases hsame : pe.sym = some y
    · rw [if_pos hsame] at h
      cases h
      exact .inl ⟨y, rfl, hsame, rfl⟩
    · right
      rw [if_neg hsame] at h
      cases hy : s1.elfsym y with
      | none =>
        simp only [hy] at h
        cases h
      | some esym2 =>
        simp only [hy] at h
        cases hx : (pe.sym.bind s1.elfsym).filter fun esym1 =>
            esym1.stShndx = esym2.stShndx ∧ esym1.stShndx ≠ shnUndef with
        | some esym1 =>
          simp only [hx] at h
          cases h
          obtain ⟨hbind, hsec⟩ := Option.filter_eq_some_iff.1 hx
          obtain ⟨x, hpe, hesym⟩ := Option.bind_eq_some_iff.1 hbind
          refine .inl ⟨x, y, esym1, esym2, hpe, rfl, hsame, hesym, hy, ?_, rfl⟩
          rw [hpe]
          exact (sameSection_some hesym hy).2 (of_decide_eq_true hsec)
        | none =>
          simp only [hx] at h
          by_cases hcur : esym2.stShndx = cx.curTextSection.shNum
          · rw [if_pos hcur] at h
            cases h
            refine .inr ⟨y, esym2, rfl, hsame, hy, ?_, hcur, rfl⟩
            rw [Bool.eq_false_iff]
            intro htrue
            cases hbind : pe.sym.bind s1.elfsym with
            | none =>
              rw [sameSection, hbind] at htrue
              cases htrue
            | some esym1 =>
              obtain ⟨x, hpe, hesym⟩ := Option.bind_eq_some_iff.1 hbind
              rw [hpe] at htrue
              have hsec := (sameSection_some hesym hy).1 htrue
              rw [hbind, Option.filter_some, if_pos (decide_eq_true hsec)] at hx
              cases hx
          · rw [if_neg hcur] at h
            cases h

/-- `-`: the label of the right operand goes away, or the flag is set for it. -/
theorem Fits.sub (ha : Fits cx s1 pe a) (hb : Fits cx s1 e2 b)
    (h : combineSum cx s1 .sub pe e2 = .ok e) : Fits cx s1 e (.bin .sub a b) := by
  -- the values of the operands, once the flag of the right one is known to be unset
  have hvals (A : Addresses) (hA : Consistent s1 A) (hclean : (Tree.bin .sub a b).Clean cx s1 A) :
      a.value cx A = pe.v + (pe.sym.map A.sym).getD 0
          - (if pe.pcrel then A.sec cx.curTextSection.shNum else 0) ∧
        b.value cx A = e2.v + (e2.sym.map A.sym).getD 0 := by
    obtain ⟨hca, hcb, hbp, -⟩ := hclean
    have hvb := hb.value A hA hcb
    have hpb : e2.pcrel = false := hb.pcrel.trans hbp
    rw [ExprValue.denotes, hpb, if_neg Bool.false_ne_true] at hvb
    refine ⟨(ha.value A hA hca).symm, hvb.symm.trans ?_⟩
    ring
  have hrel : a.relative s1 b = (e2.sym.isSome && pe.sym != e2.sym &&
      !sameSection s1 pe.sym e2.sym) := by rw [Tree.relative, ha.sym, hb.sym]
  have hsymof : (Tree.bin .sub a b).sym s1 = if e2.sym.isNone then pe.sym
      else if pe.sym = e2.sym ∨ sameSection s1 pe.sym e2.sym then none else pe.sym := by
    rw [Tree.sym, ha.sym, hb.sym]
  have hanchored : (Tree.bin .sub a b).anchored s1 = (pe.pcrel || a.relative s1 b) := by
    rw [Tree.anchored, ha.pcrel]
  rcases combineSum_sub_cases h with ⟨he2, rfl⟩ | ⟨y, he2, hpe, rfl⟩ |
    ⟨x, y, esym1, esym2, hpe, he2, hne, hx, hy, hsec, rfl⟩ |
    ⟨y, esym2, he2, hne, hy, hsec, hcur, rfl⟩
  · refine ⟨?_, ?_, fun A hA hclean => ?_⟩
    · rw [hsymof, he2]
      rfl
    · rw [hanchored, hrel, he2]
      simp
    · obtain ⟨hva, hvb⟩ := hvals A hA hclean
      rw [Tree.value, BinOp.value, hva, hvb, he2, ExprValue.denotes]
      simp only [Option.map_none, Option.getD_none]
      ring
  · refine ⟨?_, ?_, fun A hA hclean => ?_⟩
    · rw [hsymof, he2, hpe]
      simp
    · rw [hanchored, hrel, he2, hpe]
      simp
    · obtain ⟨hva, hvb⟩ := hvals A hA hclean
      rw [Tree.value, BinOp.value, hva, hvb, he2, hpe, ExprValue.denotes]
      simp only [Option.map_none, Option.getD_none]
      ring
  · refine ⟨?_, ?_, fun A hA hclean => ?_⟩
    · rw [hsymof, hsec, he2]
      simp
    · rw [hanchored, hrel, hsec]
      simp
    · obtain ⟨hva, hvb⟩ := hvals A hA hclean
      obtain ⟨hshndx, hundef⟩ := (sameSection_some hx hy).1 (by rw [← hpe, ← he2]; exact hsec)
      have hcommon : esym1.stShndx ≠ shnCommon := by
        intro heq
        refine hclean.2.2.2.2.1 rfl ⟨?_, esym1, esym2, ?_, ?_, heq, hshndx ▸ heq⟩
        · rw [← ha.sym, ← hb.sym]
          exact hne
        · rw [← ha.sym, hpe]
          exact hx
        · rw [← hb.sym, he2]
          exact hy
      have hdiff := sub_of_sameSection hA hx hy hshndx hundef hcommon
      rw [Tree.value, BinOp.value, hva, hvb, he2, hpe, ExprValue.denotes, ← hdiff]
      simp only [Option.map_none, Option.map_some, Option.getD_none, Option.getD_some]
      ring
  · have hrelative : a.relative s1 b = true := by
      rw [hrel, hsec, he2, bne_iff_ne.2 (he2 ▸ hne)]
      rfl
    refine ⟨?_, ?_, fun A hA hclean => ?_⟩
    · rw [hsymof, hsec, he2, if_neg (by simp), if_neg (by simpa [he2] using hne)]
    · rw [hanchored, hrelative, Bool.or_true]
    · obtain ⟨hva, hvb⟩ := hvals A hA hclean
      have hp : pe.pcrel = false :=
        ha.pcrel.trans (hclean.2.2.2.1 (by decide) fun _ => hrelative)
      obtain ⟨hundef, habs, hcommon⟩ := cx.curTextSection.ne_special
      have haddr := (hA y esym2 hy).2 (by rw [hcur]; exact hundef) (by rw [hcur]; exact habs)
        (by rw [hcur]; exact hcommon)
      rw [Tree.value, BinOp.value, hva, hvb, he2, hp, ExprValue.denotes]
      simp only [Option.map_some, Option.getD_some, haddr, hcur, if_true, Bool.false_eq_true,
        if_false]
      ring

end Fits

/-! ## Levels -/

/-- A step of a level: on operands whose symbols exist it gives a result that fits the node. -/
def Combines (cx : Place) (opOf : Tok → Option BinOp)
    (combine : AsmState → BinOp → ExprValue → ExprValue → Except Error ExprValue) : Prop :=
  ∀ s1 tok op pe e2 e, opOf tok = some op → combine s1 op pe e2 = .ok e →
    (∀ sym ∈ pe.sym, sym < s1.syms.length) → (∀ sym ∈ e2.sym, sym < s1.syms.length) →
    (∀ sym ∈ e.sym, sym < s1.syms.length) ∧
    ∀ t a b, Extends s1 t → Fits cx t pe a → Fits cx t e2 b → Fits cx t e (.bin op a b)

section Levels

variable {cx : Place} {s1 t : AsmState} {op : BinOp} {pe e2 e : ExprValue}

theorem combines_plain {opOf : Tok → Option BinOp}
    (hop : ∀ tok op, opOf tok = some op → op ≠ .add ∧ op ≠ .sub) :
    Combines cx opOf (combinePlain cx) := by
  intro s1 tok op pe e2 e htok h hpe _
  obtain ⟨hadd, hsub⟩ := hop tok op htok
  refine ⟨?_, fun t a b _ ha hb => ha.plain hb hadd hsub h⟩
  rw [combinePlain] at h
  by_cases hsyms : pe.sym.isSome ∨ e2.sym.isSome
  · rw [if_pos hsyms] at h
    cases h
  · rw [if_neg hsyms] at h
    obtain ⟨v, -, h⟩ := bind_ok h
    cases h
    exact hpe

/-- The symbols of the operands keep their ELF symbols. -/
theorem combineSum_congr (hext : Extends s1 t) (hpe : ∀ sym ∈ pe.sym, sym < s1.syms.length)
    (he2 : ∀ sym ∈ e2.sym, sym < s1.syms.length) :
    combineSum cx t op pe e2 = combineSum cx s1 op pe e2 := by
  have hbind : pe.sym.bind t.elfsym = pe.sym.bind s1.elfsym := by
    cases hsym : pe.sym with
    | none => rfl
    | some x => exact hext.elfsym x (hpe x hsym)
  rw [combineSum, combineSum, hbind]
  cases hsym : e2.sym with
  | none => rfl
  | some y => simp only [hext.elfsym y (he2 y hsym)]

theorem combineSum_sym_lt {n : Nat} (h : combineSum cx s1 op pe e2 = .ok e)
    (hop : op = .add ∨ op = .sub) (hpe : ∀ sym ∈ pe.sym, sym < n)
    (he2 : ∀ sym ∈ e2.sym, sym < n) : ∀ sym ∈ e.sym, sym < n := by
  rcases hop with rfl | rfl
  · rw [combineSum, if_pos rfl] at h
    split at h
    · cases h
    · cases h
      intro sym hsym
      split at hsym
      · exact he2 sym hsym
      · exact hpe sym hsym
  · rcases combineSum_sub_cases h with ⟨-, rfl⟩ | ⟨y, -, -, rfl⟩ |
      ⟨x, y, -, -, -, -, -, -, -, -, rfl⟩ | ⟨y, -, -, -, -, -, -, rfl⟩
    · exact hpe
    · intro sym hsym
      cases hsym
    · intro sym hsym
      cases hsym
    · exact hpe

theorem combines_sum : Combines cx sumOp (combineSum cx) := by
  intro s1 tok op pe e2 e htok h hpe he2
  have hop : op = .add ∨ op = .sub := by
    cases tok <;> simp [sumOp] at htok
    · exact .inl htok.symm
    · exact .inr htok.symm
  refine ⟨combineSum_sym_lt h hop hpe he2, fun t a b hext ha hb => ?_⟩
  rw [← combineSum_congr hext hpe he2] at h
  rcases hop with rfl | rfl
  · exact ha.add hb h
  · exact ha.sub hb h

/-- The turns of a loop add nodes on the right. -/
theorem binaryLoop_follows {operand : Parser ExprValue} {subtree : Parser Tree}
    {opOf : Tok → Option BinOp}
    {combine : AsmState → BinOp → ExprValue → ExprValue → Except Error ExprValue}
    (hoperand : Follows cx operand subtree) (hcombine : Combines cx opOf combine) (fuel : Nat)
    {s0 s1' : AsmState} {toks rest : List Tok} {a : Tree} (ha : Reads cx s0 s1 pe a)
    (h : binaryLoop operand opOf combine fuel pe s1 toks = .ok (e, s1', rest)) :
    ∃ tree, binaryLoop subtree opOf node fuel a s1 toks = .ok (tree, s1', rest) ∧
      Reads cx s0 s1' e tree := by
  induction fuel generalizing pe s1 toks a with
  | zero => cases h
  | succ fuel ih =>
    rw [binaryLoop] at h
    cases hop : toks.head?.bind opOf with
    | none =>
      simp only [hop] at h
      cases h
      refine ⟨a, ?_, ha⟩
      rw [binaryLoop]
      simp only [hop]
    | some op =>
      simp only [hop] at h
      obtain ⟨⟨e2, s2, toks'⟩, hread, h⟩ := bind_ok h
      obtain ⟨pe', hpe', h⟩ := bind_ok h
      obtain ⟨b, hsub, hb⟩ := hoperand s1 _ e2 s2 toks' ha.wf hread
      obtain ⟨tok, -, htok⟩ := Option.bind_eq_some_iff.1 hop
      have ha' := ha.of_extends hb.ext hb.wf
      obtain ⟨hlt, hfits⟩ := hcombine s2 tok op pe e2 pe' htok hpe' ha'.lt hb.lt
      have hnode : Reads cx s0 s2 pe' (.bin op a b) :=
        ⟨ha'.ext, hb.wf, hlt, fun t ht => hfits t a b ht (ha'.fits t ht) (hb.fits t ht)⟩
      obtain ⟨tree, hloop, htree⟩ := ih hnode h
      refine ⟨tree, ?_, htree⟩
      rw [binaryLoop]
      simp only [hop]
      exact (bind_of_ok hsub).trans hloop

theorem binaryLevel_follows {operand : Parser ExprValue} {subtree : Parser Tree}
    {opOf : Tok → Option BinOp}
    {combine : AsmState → BinOp → ExprValue → ExprValue → Except Error ExprValue}
    (hoperand : Follows cx operand subtree) (hcombine : Combines cx opOf combine) (fuel : Nat) :
    Follows cx (binaryLevel operand opOf combine fuel) (binaryLevel subtree opOf node fuel) := by
  intro s1 toks e s1' rest hs h
  obtain ⟨⟨pe, s2, toks'⟩, hread, h⟩ := bind_ok h
  obtain ⟨a, hsub, ha⟩ := hoperand s1 toks pe s2 toks' hs hread
  obtain ⟨tree, hloop, htree⟩ := binaryLoop_follows hoperand hcombine fuel ha h
  exact ⟨tree, (bind_of_ok hsub).trans hloop, htree⟩

/-- The prefix operators, parentheses and atoms. -/
theorem asmExprUnary_follows {expr : Parser ExprValue} {tree : Parser Tree}
    (hexpr : Follows cx expr tree) :
    Follows cx (asmExprUnary cx expr) (readUnary cx tree) := by
  intro s1 toks
  induction toks generalizing s1 with
  | nil =>
    intro e s1' rest _ h
    cases h
  | cons tok toks ih =>
    intro e s1' rest hs h
    have hatom (h : (asmExprAtom cx s1 tok >>= fun r => Except.ok (r.1, r.2, toks))
        = .ok (e, s1', rest)) :
        ∃ tree, (readAtom cx s1 tok >>= fun r => Except.ok (r.1, r.2, toks))
          = .ok (tree, s1', rest) ∧ Reads cx s1 s1' e tree := by
      obtain ⟨⟨pe, s2⟩, hread, h⟩ := bind_ok h
      cases h
      obtain ⟨a, hsub, ha⟩ := asmExprAtom_reads hs hread
      exact ⟨a, bind_of_ok hsub, ha⟩
    cases tok with
    | plus => exact ih s1 e s1' rest hs h
    | minus =>
      obtain ⟨⟨pe, s2, toks'⟩, hread, h⟩ := bind_ok h
      obtain ⟨a, hsub, ha⟩ := ih s1 pe s2 toks' hs hread
      by_cases hsym : pe.sym.isSome
      · simp only [if_pos hsym] at h
        cases h
      · simp only [if_neg hsym] at h
        cases h
        refine ⟨.neg a, bind_of_ok hsub, ha.ext, ha.wf, ha.lt, fun t ht => ?_⟩
        exact (ha.fits t ht).neg (by simpa using hsym)
    | tilde =>
      obtain ⟨⟨pe, s2, toks'⟩, hread, h⟩ := bind_ok h
      obtain ⟨a, hsub, ha⟩ := ih s1 pe s2 toks' hs hread
      by_cases hsym : pe.sym.isSome
      · simp only [if_pos hsym] at h
        cases h
      · simp only [if_neg hsym] at h
        cases h
        refine ⟨.not a, bind_of_ok hsub, ha.ext, ha.wf, ha.lt, fun t ht => ?_⟩
        exact (ha.fits t ht).not (by simpa using hsym)
    | lparen =>
      obtain ⟨⟨pe, s2, toks'⟩, hread, h⟩ := bind_ok h
      obtain ⟨a, hsub, ha⟩ := hexpr s1 toks pe s2 toks' hs hread
      by_cases hparen : toks'.head? = some .rparen
      · simp only [if_pos hparen] at h
        cases h
        exact ⟨a, (bind_of_ok hsub).trans (if_pos hparen), ha⟩
      · simp only [if_neg hparen] at h
        cases h
    | _ => exact hatom h

end Levels

/-! ## Expressions -/

theorem prodOp_ne {tok : Tok} {op : BinOp} (h : prodOp tok = some op) : op ≠ .add ∧ op ≠ .sub := by
  unfold prodOp at h
  split at h <;> cases h <;> decide

theorem logicOp_ne {tok : Tok} {op : BinOp} (h : logicOp tok = some op) :
    op ≠ .add ∧ op ≠ .sub := by
  unfold logicOp at h
  split at h <;> cases h <;> decide

theorem cmpOp_ne {tok : Tok} {op : BinOp} (h : cmpOp tok = some op) : op ≠ .add ∧ op ≠ .sub := by
  unfold cmpOp at h
  split at h <;> cases h <;> decide

/-- Whatever the bound, the functions follow the trees. -/
theorem asmExprFuel_follows (cx : Place) (fuel : Nat) :
    Follows cx (asmExprFuel cx fuel) (readTreeFuel cx fuel) := by
  induction fuel with
  | zero =>
    intro s1 toks e s1' rest _ h
    cases h
  | succ fuel ih =>
    have hunary := asmExprUnary_follows ih
    have hprod_op : Combines cx prodOp (combinePlain cx) := combines_plain fun _ _ => prodOp_ne
    have hlogic_op : Combines cx logicOp (combinePlain cx) := combines_plain fun _ _ => logicOp_ne
    have hcmp_op : Combines cx cmpOp (combinePlain cx) := combines_plain fun _ _ => cmpOp_ne
    have hprod := binaryLevel_follows hunary hprod_op (fuel + 1)
    have hlogic := binaryLevel_follows hprod hlogic_op (fuel + 1)
    have hsum := binaryLevel_follows hlogic combines_sum (fuel + 1)
    exact binaryLevel_follows hsum hcmp_op (fuel + 1)

/-- Main result: the result of an accepted expression denotes its value, for every assignment of
addresses that agrees with the symbol table, if the expression is clean. -/
theorem asmExpr_denotes (cx : Place) {s1 s1' : AsmState} {toks rest : List Tok} {e : ExprValue}
    (hs : WellFormed s1) (h : asmExpr cx s1 toks = .ok (e, s1', rest)) :
    ∃ tree, readTree cx s1 toks = .ok (tree, s1', rest) ∧
      ∀ A, Consistent s1' A → tree.Clean cx s1' A → e.denotes cx A = tree.value cx A := by
  obtain ⟨tree, htree, hreads⟩ := asmExprFuel_follows cx _ s1 toks e s1' rest hs h
  exact ⟨tree, htree, (hreads.fits s1' (Extends.refl s1')).value⟩

/-- Four bytes into the section `.text`. -/
def examplePlace : Place where
  curTextSection := ⟨⟨1, by decide⟩, ".text", by decide⟩
  ind := 4
  wideShift _ a _ := a

/-- `x - .` with an undefined `x` is relative to the current section. -/
theorem asmExpr_denotes_here :
    ∃ s1' tree, readTree examplePlace .empty [.ident "x", .minus, .dot] = .ok (tree, s1', []) ∧
      ∀ A, Consistent s1' A → tree.Clean examplePlace s1' A →
        (ExprValue.mk (-4) (some 0) true).denotes examplePlace A = tree.value examplePlace A :=
  ⟨_, asmExpr_denotes examplePlace wellFormed_empty rfl⟩

/-- In `1 + (x - .)` the address of the section is not subtracted. -/
theorem asmExpr_loses_pcrel :
    ¬ ∀ (cx : Place) (s1 s1' : AsmState) (toks rest : List Tok) (e : ExprValue) (tree : Tree)
      (A : Addresses), WellFormed s1 → asmExpr cx s1 toks = .ok (e, s1', rest) →
      readTree cx s1 toks = .ok (tree, s1', rest) → Consistent s1' A →
      e.denotes cx A = tree.value cx A := by
  intro h
  have hbad := h examplePlace .empty _
    [.ppnum '1' [], .plus, .lparen, .ident "x", .minus, .dot, .rparen] [] _ _
    ⟨fun _ => 8, fun _ => 8⟩ wellFormed_empty rfl rfl ?_
  · exact absurd hbad (by decide)
  · intro sym esym hesym
    rcases sym with _ | _ | sym
    · cases hesym
    · cases hesym
      refine ⟨fun habs => absurd habs (by decide), fun _ _ _ => by decide⟩
    · cases hesym

/-! ## The bound is never reached -/

/-- On fewer than `n` tokens the parser is not cut off, and it consumes a token. -/
def Bounded {α : Type} (n : Nat) (p : Parser α) : Prop :=
  ∀ s1 toks, toks.length < n → p s1 toks ≠ .error .outOfFuel ∧
    ∀ a s1' rest, p s1 toks = .ok (a, s1', rest) → rest.length < toks.length

theorem bind_ne_outOfFuel {α β : Type} {x : Except Error α} {f : α → Except Error β}
    (hx : x ≠ .error .outOfFuel) (hf : ∀ a, x = .ok a → f a ≠ .error .outOfFuel) :
    (x >>= f) ≠ .error .outOfFuel := by
  cases x with
  | error e =>
    intro h
    cases h
    exact hx rfl
  | ok a => exact hf a rfl

theorem ok_ne_outOfFuel {α : Type} (a : α) : (.ok a : Except Error α) ≠ .error .outOfFuel := by
  intro h
  cases h

section Bounded

variable {α : Type} {n : Nat} {operand : Parser α} {opOf : Tok → Option BinOp}
  {combine : AsmState → BinOp → α → α → Except Error α}

theorem binaryLoop_bounded (hoperand : Bounded n operand)
    (hcombine : ∀ s1 op pe e2, combine s1 op pe e2 ≠ .error .outOfFuel) (fuel : Nat) (pe : α)
    (s1 : AsmState) (toks : List Tok) (hn : toks.length < n) (hfuel : toks.length < fuel) :
    binaryLoop operand opOf combine fuel pe s1 toks ≠ .error .outOfFuel ∧
      ∀ a s1' rest, binaryLoop operand opOf combine fuel pe s1 toks = .ok (a, s1', rest) →
        rest.length ≤ toks.length := by
  induction fuel generalizing pe s1 toks with
  | zero => exact absurd hfuel (Nat.not_lt_zero _)
  | succ fuel ih =>
    rw [binaryLoop]
    cases hop : toks.head?.bind opOf with
    | none =>
      refine ⟨ok_ne_outOfFuel _, fun a s1' rest h => ?_⟩
      cases h
      exact Nat.le_refl _
    | some op =>
      have htail : toks.tail.length < toks.length := by
        cases toks with
        | nil => cases hop
        | cons tok toks => exact Nat.lt_succ_self _
      obtain ⟨hne, hlt⟩ := hoperand s1 toks.tail (htail.trans hn)
      constructor
      · refine bind_ne_outOfFuel hne fun r hr => ?_
        refine bind_ne_outOfFuel (hcombine _ _ _ _) fun pe' _ => ?_
        have hrest := hlt r.1 r.2.1 r.2.2 hr
        exact (ih pe' r.2.1 r.2.2 (by omega) (by omega)).1
      · intro a s1' rest h
        obtain ⟨r, hr, h⟩ := bind_ok h
        obtain ⟨pe', -, h⟩ := bind_ok h
        have hrest := hlt r.1 r.2.1 r.2.2 hr
        have hloop := (ih pe' r.2.1 r.2.2 (by omega) (by omega)).2 a s1' rest h
        omega

theorem binaryLevel_bounded (hoperand : Bounded n operand)
    (hcombine : ∀ s1 op pe e2, combine s1 op pe e2 ≠ .error .outOfFuel) :
    Bounded n (binaryLevel operand opOf combine n) := by
  intro s1 toks hn
  obtain ⟨hne, hlt⟩ := hoperand s1 toks hn
  constructor
  · refine bind_ne_outOfFuel hne fun r hr => ?_
    have hrest := hlt r.1 r.2.1 r.2.2 hr
    exact (binaryLoop_bounded hoperand hcombine n r.1 r.2.1 r.2.2 (by omega) (by omega)).1
  · intro a s1' rest h
    obtain ⟨r, hr, h⟩ := bind_ok h
    have hrest := hlt r.1 r.2.1 r.2.2 hr
    have hloop := (binaryLoop_bounded hoperand hcombine n r.1 r.2.1 r.2.2 (by omega)
      (by omega)).2 a s1' rest h
    omega

end Bounded

theorem combinePlain_ne_outOfFuel (cx : Place) (s1 : AsmState) (op : BinOp) (pe e2 : ExprValue) :
    combinePlain cx s1 op pe e2 ≠ .error .outOfFuel := by
  rw [combinePlain]
  split
  · exact fun h => by cases h
  · refine bind_ne_outOfFuel ?_ fun _ _ => ok_ne_outOfFuel _
    cases op with
    | div | mod =>
      rw [arith]
      split <;> exact fun h => by cases h
    | _ => exact fun h => by cases h

theorem combineSum_ne_outOfFuel (cx : Place) (s1 : AsmState) (op : BinOp) (pe e2 : ExprValue) :
    combineSum cx s1 op pe e2 ≠ .error .outOfFuel := by
  rw [combineSum]
  split
  · split
    · exact fun h => by cases h
    · exact ok_ne_outOfFuel _
  · cases e2.sym with
    | none => exact ok_ne_outOfFuel _
    | some y =>
      simp only
      split
      · exact ok_ne_outOfFuel _
      · cases s1.elfsym y with
        | none => exact fun h => by cases h
        | some esym2 =>
          simp only
          cases (pe.sym.bind s1.elfsym).filter fun esym1 =>
              esym1.stShndx = esym2.stShndx ∧ esym1.stShndx ≠ shnUndef with
          | some esym1 => exact ok_ne_outOfFuel _
          | none =>
            simp only
            split
            · exact ok_ne_outOfFuel _
            · exact fun h => by cases h

theorem liftLabel_ne_outOfFuel {α : Type} (x : Except Labels.Error α) :
    liftLabel x ≠ .error .outOfFuel := by
  cases x <;> exact fun h => by cases h

theorem asmExprAtom_ne_outOfFuel (cx : Place) (s1 : AsmState) (tok : Tok) :
    asmExprAtom cx s1 tok ≠ .error .outOfFuel := by
  cases tok with
  | ppnum c text =>
    change asmExprNumber s1 _ _ ≠ _
    rw [asmExprNumber]
    split
    · exact bind_ne_outOfFuel (liftLabel_ne_outOfFuel _) fun _ _ => ok_ne_outOfFuel _
    · split
      · exact bind_ne_outOfFuel (liftLabel_ne_outOfFuel _) fun _ _ => ok_ne_outOfFuel _
      · split <;> exact fun h => by cases h
  | dot => exact bind_ne_outOfFuel (liftLabel_ne_outOfFuel _) fun _ _ => ok_ne_outOfFuel _
  | _ => exact fun h => by cases h

theorem asmExprUnary_bounded (cx : Place) {n : Nat} {expr : Parser ExprValue}
    (hexpr : Bounded n expr) : Bounded (n + 1) (asmExprUnary cx expr) := by
  intro s1 toks
  induction toks generalizing s1 with
  | nil =>
    refine fun _ => ⟨fun h => ?_, fun _ _ _ h => ?_⟩
    · cases h
    · cases h
  | cons tok toks ih =>
    intro hn
    have hn' : toks.length < n := Nat.lt_of_succ_lt_succ hn
    have hatom : (asmExprAtom cx s1 tok >>= fun r => Except.ok (r.1, r.2, toks))
          ≠ .error .outOfFuel ∧
        ∀ a s1' rest, (asmExprAtom cx s1 tok >>= fun r => Except.ok (r.1, r.2, toks))
          = .ok (a, s1', rest) → rest.length < (tok :: toks).length := by
      refine ⟨bind_ne_outOfFuel (asmExprAtom_ne_outOfFuel cx s1 tok) fun _ _ =>
        ok_ne_outOfFuel _, ?_⟩
      intro a s1' rest h
      obtain ⟨r, -, h⟩ := bind_ok h
      cases h
      exact Nat.lt_succ_self _
    obtain ⟨hne, hlt⟩ := ih s1 (by omega)
    cases tok with
    | plus =>
      refine ⟨hne, fun a s1' rest h => ?_⟩
      have hrest := hlt a s1' rest h
      exact hrest.trans (Nat.lt_succ_self _)
    | minus | tilde =>
      constructor
      · refine bind_ne_outOfFuel hne fun r _ => ?_
        simp only
        split <;> exact fun h => by cases h
      · intro a s1' rest h
        obtain ⟨r, hr, h⟩ := bind_ok h
        have hrest := hlt r.1 r.2.1 r.2.2 hr
        simp only at h
        split at h
        · cases h
        · cases h
          exact hrest.trans (Nat.lt_succ_self _)
    | lparen =>
      obtain ⟨hne, hlt⟩ := hexpr s1 toks hn'
      constructor
      · refine bind_ne_outOfFuel hne fun r _ => ?_
        simp only
        split <;> exact fun h => by cases h
      · intro a s1' rest h
        obtain ⟨r, hr, h⟩ := bind_ok h
        have hrest := hlt r.1 r.2.1 r.2.2 hr
        simp only at h
        split at h
        · cases h
          have htail : r.2.2.tail.length ≤ r.2.2.length := by simp
          exact (htail.trans_lt hrest).trans (Nat.lt_succ_self _)
        · cases h
    | _ => exact hatom

theorem asmExprFuel_bounded (cx : Place) (fuel : Nat) : Bounded fuel (asmExprFuel cx fuel) := by
  induction fuel with
  | zero => exact fun _ _ h => absurd h (Nat.not_lt_zero _)
  | succ fuel ih =>
    have hplain := combinePlain_ne_outOfFuel cx
    have hunary := asmExprUnary_bounded cx ih
    have hprod : Bounded (fuel + 1) (asmExprProd cx (asmExprFuel cx fuel) (fuel + 1)) :=
      binaryLevel_bounded hunary hplain
    have hlogic : Bounded (fuel + 1) (asmExprLogic cx (asmExprFuel cx fuel) (fuel + 1)) :=
      binaryLevel_bounded hprod hplain
    have hsum : Bounded (fuel + 1) (asmExprSum cx (asmExprFuel cx fuel) (fuel + 1)) :=
      binaryLevel_bounded hlogic (combineSum_ne_outOfFuel cx)
    exact binaryLevel_bounded hsum hplain

/-- The bound on the recursion plays no part: `asm_expr` ends with a result or an error of its
own. -/
theorem asmExpr_ne_outOfFuel (cx : Place) (s1 : AsmState) (toks : List Tok) :
    asmExpr cx s1 toks ≠ .error .outOfFuel :=
  (asmExprFuel_bounded cx (toks.length + 1) s1 toks (Nat.lt_succ_self _)).1

end TccRiscv64.Asm.Expr
