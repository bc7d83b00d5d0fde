import TccRiscv64.Decl.Cells

set_option autoImplicit false

/-! # Single derivations

What the pointer loop of `type_decl` and the two ends of `post_type` do to the type in a cell. -/

namespace TccRiscv64.Decl

variable {mem mem' : Mem} {loc : Nat} {post : List Nat} {T : Ty}

/-! ## Reading the first cell -/

theorem Holds.isVla_eq (h : Holds mem (loc :: post) T) : mem.isVla loc = T.isVla := by
  obtain ⟨ds, b⟩ := T
  cases post with
  | nil =>
    cases ds with
    | nil =>
      have hkind : mem.kind loc = .base b := h.chain
      rw [Mem.isVla, hkind]
      rfl
    | cons d ds => cases h.chain
  | cons r post =>
    cases ds with
    | nil => cases h.chain
    | cons d ds =>
      cases d with
      | ptr q =>
        have hkind : mem.kind loc = .ptr q r := h.chain.1
        rw [Mem.isVla, hkind]
        rfl
      | array vla b =>
        rw [Mem.isVla, h.chain.1.1]
        rfl
      | func k ps =>
        rw [Mem.isVla, h.chain.1.1]
        rfl

/-! ## Changes of the first cell -/

theorem keeps_clearConst (mem : Mem) (loc : Nat) : Keeps mem (mem.clearConst loc) loc := by
  unfold Mem.clearConst
  split
  · exact keeps_setKind mem loc _
  · exact keeps_setKind mem loc _
  · exact Keeps.refl mem loc

theorem kind_setKind (h : loc < mem.length) (k : Kind) : (mem.setKind loc k).kind loc = k := by
  rw [Mem.setKind, Mem.kind_modify_self _ _ _ h]

theorem Holds.clearConst (h : Holds mem (loc :: post) T) :
    Holds (mem.clearConst loc) (loc :: post) T.dropConst := by
  have hloc := h.lt loc List.mem_cons_self
  obtain ⟨ds, b⟩ := T
  cases post with
  | nil =>
    cases ds with
    | nil =>
      have hkind : mem.kind loc = .base b := h.chain
      rw [Mem.clearConst, hkind]
      exact h.rebase (keeps_setKind mem loc _) (kind_setKind hloc _)
    | cons d ds => cases h.chain
  | cons r post =>
    cases ds with
    | nil => cases h.chain
    | cons d ds =>
      cases d with
      | ptr q =>
        have hkind : mem.kind loc = .ptr q r := h.chain.1
        rw [Mem.clearConst, hkind]
        exact h.relink (keeps_setKind mem loc _) (kind_setKind hloc _)
      | array vla b =>
        rw [Mem.clearConst, h.chain.1.1]
        exact h
      | func k ps =>
        rw [Mem.clearConst, h.chain.1.1]
        exact h

/-! ## Derivations -/

/-- A pointer to the type. -/
theorem Holds.pointer (h : Holds mem (loc :: post) T) (q : Quals) (storage : BitVec 32) :
    Holds ((mem.symPush loc .unspecified [] .old).setType loc ⟨.ptr q mem.length, storage⟩)
      (loc :: ([mem.length] ++ post)) (T.ptr q) :=
  h.derive (d := .ptr q) (kind_derive (h.lt loc List.mem_cons_self) _ _ _ _)

/-- `mk_pointer` followed by the assignment of the qualifiers. -/
theorem setType_mkPointer (mem : Mem) (loc : Nat) (t : CType) :
    (mem.mkPointer loc).setType loc t =
      (mem.symPush loc .unspecified [] .old).setType loc t := by
  rw [Mem.mkPointer, Mem.setType, Mem.setType, Mem.setType, List.modify_modify_eq]
  rfl

theorem finishFunc_applies {next : List Ty} {k : FuncType} {toks toks' : List Tok} {done : Bool}
    (hrest : toks.head? ≠ some .lbrack)
    (h : finishFunc mem loc next k (.rparen :: toks) = .ok (done, mem', toks')) :
    done = true ∧ toks' = toks ∧ Applies mem mem' loc (Ty.func k next) := by
  have h : (if toks.head? = some .lbrack then _ else _) = Except.ok (done, mem', toks') := h
  rw [if_neg hrest] at h
  cases h
  refine ⟨rfl, rfl, (keeps_clearConst mem loc).trans (keeps_derive _ loc _ _ _ _), ?_⟩
  intro post T hT
  have hclear := hT.clearConst
  have hloc := hclear.lt loc List.mem_cons_self
  refine ⟨[(mem.clearConst loc).length], ?_, ?_⟩
  · intro l hl
    rw [List.mem_singleton.1 hl]
    exact (keeps_clearConst mem loc).length_le
  · refine hclear.derive (d := .func k next) ⟨kind_derive hloc _ _ _ _, ?_⟩
    rw [info_derive]
    rfl

theorem finishArray_applies {cx : Cx} {b : Bound} {td : Td}
    (h : finishArray cx mem loc b td = .ok mem') : Applies mem mem' loc (Ty.array b) := by
  have hmem : mem' = (mem.symPush loc b [] .old).setType loc
      ⟨.array (b.isExpr || mem.isVla loc) mem.length, 0⟩ := by
    unfold finishArray at h
    split at h
    · cases h
    · split at h
      · cases h
      · dsimp only at h
        split at h
        · cases h
        · cases h
          rfl
  subst hmem
  refine ⟨keeps_derive _ loc _ _ _ _, fun post T hT => ⟨[mem.length], ?_, ?_⟩⟩
  · intro l hl
    rw [List.mem_singleton.1 hl]
  · have hloc := hT.lt loc List.mem_cons_self
    rw [hT.isVla_eq]
    refine hT.derive (d := .array (b.isExpr || T.isVla) b) ⟨kind_derive hloc _ _ _ _, ?_⟩
    rw [info_derive]
    rfl

/-! ## Parameters -/

theorem keeps_mkPointer (mem : Mem) (loc : Nat) : Keeps mem (mem.mkPointer loc) loc :=
  keeps_derive mem loc _ _ _ _

theorem keeps_convertParameterType (mem : Mem) (loc : Nat) :
    Keeps mem (mem.convertParameterType loc) loc := by
  unfold Mem.convertParameterType
  split
  · rename_i b _
    cases hk : b.kind with
    | func => exact (keeps_setKind mem loc _).trans (keeps_mkPointer _ loc)
    | void => exact keeps_setKind mem loc _
    | array => exact keeps_setKind mem loc _
    | vla => exact keeps_setKind mem loc _
    | decayed => exact keeps_setKind mem loc _
    | other => exact keeps_setKind mem loc _
  · exact keeps_setKind mem loc _
  · exact keeps_setKind mem loc _
  · exact keeps_mkPointer mem loc

theorem Holds.mkPointer (h : Holds mem (loc :: post) T) :
    Holds (mem.mkPointer loc) (loc :: ([mem.length] ++ post)) (T.ptr Quals.none) :=
  h.pointer Quals.none _

/-- The type of a parameter is adjusted. -/
theorem Holds.convertParameterType (h : Holds mem (loc :: post) T) :
    ∃ post', Holds (mem.convertParameterType loc) (loc :: post') T.adjust := by
  have hloc := h.lt loc List.mem_cons_self
  have hset (k : Kind) : (mem.setKind loc k).kind loc = k := kind_setKind hloc k
  have hkeeps (k : Kind) : Keeps mem (mem.setKind loc k) loc := keeps_setKind mem loc k
  obtain ⟨ds, b⟩ := T
  cases post with
  | nil =>
    cases ds with
    | nil =>
      have hkind : mem.kind loc = .base b := h.chain
      rw [Mem.convertParameterType, hkind]
      obtain ⟨id, k, quals, incomplete⟩ := b
      cases k with
      | func => exact ⟨_, (h.rebase (hkeeps _) (hset _)).mkPointer⟩
      | void => exact ⟨_, h.rebase (hkeeps _) (hset _)⟩
      | array => exact ⟨_, h.rebase (hkeeps _) (hset _)⟩
      | vla => exact ⟨_, h.rebase (hkeeps _) (hset _)⟩
      | decayed => exact ⟨_, h.rebase (hkeeps _) (hset _)⟩
      | other => exact ⟨_, h.rebase (hkeeps _) (hset _)⟩
    | cons d ds => cases h.chain
  | cons r post =>
    cases ds with
    | nil => cases h.chain
    | cons d ds =>
      cases d with
      | ptr q =>
        have hkind : mem.kind loc = .ptr q r := h.chain.1
        rw [Mem.convertParameterType, hkind]
        exact ⟨_, h.relink (hkeeps _) (hset _)⟩
      | array vla b =>
        rw [Mem.convertParameterType, h.chain.1.1]
        have hlink : (mem.setKind loc (.ptr Quals.none r)).Link loc (.ptr Quals.none) r := hset _
        exact ⟨_, h.relink (hkeeps _) hlink⟩
      | func k ps =>
        rw [Mem.convertParameterType, h.chain.1.1]
        exact ⟨_, h.mkPointer⟩

end TccRiscv64.Decl
