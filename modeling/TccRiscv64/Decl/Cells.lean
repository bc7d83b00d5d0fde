import Mathlib.Data.List.Perm.Subperm
import Mathlib.Order.Nat
import TccRiscv64.Decl.TypeDecl

set_option autoImplicit false

/-! # Types as chains of cells

A type in memory is a chain of cells, each referring to the next, that ends in a base type. A
derivation at a cell of the chain puts a new cell behind it; what stands before that cell is not
touched, nor is any other chain. -/

namespace TccRiscv64.Decl

namespace Mem

/-- What a symbol holds besides its type. -/
def info (mem : Mem) (loc : Nat) : Option (Bound × List Ty × FuncType) :=
  mem[loc]?.map fun cell => (cell.c, cell.next, cell.funcType)

/-! ## What the updates change -/

section Updates

variable (mem : Mem) (loc l : Nat) (c : Bound) (next : List Ty) (k : FuncType)

theorem kind_modify_self (f : Cell → Cell) (h : loc < mem.length) :
    kind (mem.modify loc f) loc = (f mem[loc]).type.kind := by
  simp [kind, type, List.getElem?_eq_getElem h]

theorem kind_modify_of_ne (f : Cell → Cell) (h : l ≠ loc) :
    kind (mem.modify loc f) l = mem.kind l := by
  simp [kind, type, Ne.symm h]

theorem info_modify (f : Cell → Cell) (hf : ∀ cell, (f cell).c = cell.c ∧
    (f cell).next = cell.next ∧ (f cell).funcType = cell.funcType) :
    info (mem.modify loc f) l = mem.info l := by
  simp only [info, List.getElem?_modify]
  by_cases h : loc = l
  · cases mem[l]? <;> simp [h, hf]
  · simp [h]

@[simp] theorem length_setType (t : CType) : (mem.setType loc t).length = mem.length :=
  List.length_modify _ _ _

@[simp] theorem length_setKind (kd : Kind) : (mem.setKind loc kd).length = mem.length :=
  List.length_modify _ _ _

@[simp] theorem length_setStorage (s : BitVec 32) :
    (mem.setStorage loc s).length = mem.length :=
  List.length_modify _ _ _

@[simp] theorem length_symPush : (mem.symPush loc c next k).length = mem.length + 1 := by
  simp [symPush]

@[simp] theorem info_setType (t : CType) : (mem.setType loc t).info l = mem.info l :=
  info_modify mem loc l _ fun _ => ⟨rfl, rfl, rfl⟩

@[simp] theorem info_setKind (kd : Kind) : (mem.setKind loc kd).info l = mem.info l :=
  info_modify mem loc l _ fun _ => ⟨rfl, rfl, rfl⟩

@[simp] theorem info_setStorage (s : BitVec 32) : (mem.setStorage loc s).info l = mem.info l :=
  info_modify mem loc l _ fun _ => ⟨rfl, rfl, rfl⟩

@[simp] theorem kind_setStorage (s : BitVec 32) : (mem.setStorage loc s).kind l = mem.kind l := by
  by_cases h : loc = l
  · simp only [kind, type, setStorage, List.getElem?_modify, h]
    cases mem[l]? <;> rfl
  · exact kind_modify_of_ne mem loc l _ (Ne.symm h)

theorem kind_append (cell : Cell) (h : l < mem.length) : kind (mem ++ [cell]) l = mem.kind l := by
  simp [kind, type, List.getElem?_append_left h]

theorem info_append (cell : Cell) (h : l < mem.length) : info (mem ++ [cell]) l = mem.info l := by
  simp [info, List.getElem?_append_left h]

theorem kind_append_self (cell : Cell) : kind (mem ++ [cell]) mem.length = cell.type.kind := by
  simp [kind, type]

theorem info_append_self (cell : Cell) :
    info (mem ++ [cell]) mem.length = some (cell.c, cell.next, cell.funcType) := by
  simp [info]

end Updates

/-! ## Chains -/

/-- The cell `l` holds the type that `d` derives from the type in the cell `r`. -/
def Link (mem : Mem) (l : Nat) (d : Deriv) (r : Nat) : Prop :=
  match d with
  | .ptr q => mem.kind l = .ptr q r
  | .array vla b => mem.kind l = .array vla r ∧ (mem.info r).map Prod.fst = some b
  | .func k ps => mem.kind l = .func r ∧ (mem.info r).map Prod.snd = some (ps, k)

/-- The cells `locs` hold the type `T`. -/
def Chain (mem : Mem) : List Nat → Ty → Prop
  | [l], ([], b) => mem.kind l = .base b
  | l :: r :: locs, (d :: ds, b) => mem.Link l d r ∧ mem.Chain (r :: locs) (ds, b)
  | _, _ => False

end Mem

/-- What was in the memory stays, but for the type in the cell `loc`. -/
structure Keeps (mem mem' : Mem) (loc : Nat) : Prop where
  length_le : mem.length ≤ mem'.length
  info : ∀ l, l < mem.length → mem'.info l = mem.info l
  kind : ∀ l, l < mem.length → l ≠ loc → mem'.kind l = mem.kind l

theorem Keeps.trans {mem mem' mem'' : Mem} {loc : Nat} (h : Keeps mem mem' loc)
    (h' : Keeps mem' mem'' loc) : Keeps mem mem'' loc where
  length_le := Nat.le_trans h.length_le h'.length_le
  info l hl := (h'.info l (Nat.lt_of_lt_of_le hl h.length_le)).trans (h.info l hl)
  kind l hl hne := (h'.kind l (Nat.lt_of_lt_of_le hl h.length_le) hne).trans (h.kind l hl hne)

/-- A later change in a new cell is no change of what was there. -/
theorem Keeps.trans_new {mem mem' mem'' : Mem} {loc ret : Nat} (h : Keeps mem mem' loc)
    (h' : Keeps mem' mem'' ret) (hret : ret = loc ∨ mem.length ≤ ret) : Keeps mem mem'' loc where
  length_le := Nat.le_trans h.length_le h'.length_le
  info l hl := (h'.info l (Nat.lt_of_lt_of_le hl h.length_le)).trans (h.info l hl)
  kind l hl hne := by
    refine (h'.kind l (Nat.lt_of_lt_of_le hl h.length_le) ?_).trans (h.kind l hl hne)
    rcases hret with rfl | hret
    · exact hne
    · omega

theorem Keeps.refl (mem : Mem) (loc : Nat) : Keeps mem mem loc :=
  ⟨Nat.le_refl _, fun _ _ => rfl, fun _ _ _ => rfl⟩

section Chain

variable {mem mem' : Mem} {l l' r loc : Nat} {d d' : Deriv} {b b' : Base} {ds : List Deriv}
  {T : Ty} {locs post : List Nat}

theorem link_congr (hkind : mem'.kind l' = mem.kind l) (hinfo : mem'.info r = mem.info r) :
    mem'.Link l' d r ↔ mem.Link l d r := by
  cases d <;> simp only [Mem.Link, hkind, hinfo]

/-- A chain depends only on its own cells; the first may be a copy. -/
theorem Mem.Chain.copy (h : mem.Chain (l :: post) T) (hhead : mem'.kind l' = mem.kind l)
    (hkind : ∀ x ∈ post, mem'.kind x = mem.kind x)
    (hinfo : ∀ x ∈ post, mem'.info x = mem.info x) : mem'.Chain (l' :: post) T := by
  obtain ⟨ds, b⟩ := T
  induction ds generalizing l l' post with
  | nil =>
    cases post with
    | nil => exact hhead.trans h
    | cons r post => cases h
  | cons d ds ih =>
    cases post with
    | nil => cases h
    | cons r post =>
      refine ⟨(link_congr hhead (hinfo r List.mem_cons_self)).2 h.1, ?_⟩
      exact ih (hkind r List.mem_cons_self) (fun x hx => hkind x (List.mem_cons_of_mem _ hx))
        (fun x hx => hinfo x (List.mem_cons_of_mem _ hx)) h.2

/-- A chain has one cell more than derivations. -/
theorem Mem.Chain.length_eq (h : mem.Chain locs T) : locs.length = T.1.length + 1 := by
  obtain ⟨ds, b⟩ := T
  induction ds generalizing locs with
  | nil =>
    rcases locs with _ | ⟨l, _ | ⟨r, locs⟩⟩
    · cases h
    · rfl
    · cases h
  | cons d ds ih =>
    rcases locs with _ | ⟨l, _ | ⟨r, locs⟩⟩
    · cases h
    · cases h
    · have hrest := ih h.2
      simpa using hrest

/-- The type of a chain is the one that is read from its first cell. -/
theorem Mem.Chain.typeAt_eq (h : mem.Chain (l :: locs) T) {fuel : Nat}
    (hfuel : locs.length < fuel) : mem.typeAt fuel l = T := by
  obtain ⟨ds, b⟩ := T
  induction ds generalizing l locs fuel with
  | nil =>
    cases locs with
    | nil =>
      have hkind : mem.kind l = .base b := h
      cases fuel with
      | zero => exact absurd hfuel (Nat.not_lt_zero _)
      | succ fuel => rw [Mem.typeAt, hkind]
    | cons r locs => cases h
  | cons d ds ih =>
    cases locs with
    | nil => cases h
    | cons r locs =>
      cases fuel with
      | zero => exact absurd hfuel (Nat.not_lt_zero _)
      | succ fuel =>
        have hrest := ih (Nat.lt_of_succ_lt_succ hfuel) h.2
        have hlink := h.1
        rw [Mem.typeAt]
        cases d with
        | ptr q =>
          rw [show mem.kind l = .ptr q r from hlink]
          simp only [hrest]
        | array vla bd =>
          obtain ⟨hkind, hinfo⟩ := hlink
          obtain ⟨i, hi, rfl⟩ := Option.map_eq_some_iff.1 hinfo
          obtain ⟨cell, hcell, rfl⟩ := Option.map_eq_some_iff.1 hi
          simp only [hkind, hrest, hcell, Option.map_some, Option.getD_some]
        | func k ps =>
          obtain ⟨hkind, hinfo⟩ := hlink
          obtain ⟨i, hi, hps⟩ := Option.map_eq_some_iff.1 hinfo
          obtain ⟨cell, hcell, rfl⟩ := Option.map_eq_some_iff.1 hi
          cases hps
          simp only [hkind, hrest, hcell, Option.map_some, Option.getD_some]

/-- The cells after the first ones hold what is left of the type. -/
theorem Mem.Chain.drop (above : List Nat) (h : mem.Chain (above ++ l :: post) T) :
    mem.Chain (l :: post) (T.1.drop above.length, T.2) := by
  obtain ⟨ds, b⟩ := T
  induction above generalizing ds with
  | nil => exact h
  | cons x above ih =>
    cases ds with
    | nil => cases above <;> cases h
    | cons d ds =>
      cases above with
      | nil => exact h.2
      | cons y above => exact ih ds h.2

/-- What is left of the type after the first derivations may be replaced. -/
theorem Mem.Chain.replace {below : List Nat} {T' : Ty} (above : List Nat)
    (h : mem.Chain (above ++ l :: post) T)
    (h' : mem'.Chain (l :: below) T') (hkind : ∀ x ∈ above, mem'.kind x = mem.kind x)
    (hinfo : ∀ x ∈ above ++ [l], mem'.info x = mem.info x) :
    mem'.Chain (above ++ l :: below) (T.1.take above.length ++ T'.1, T'.2) := by
  obtain ⟨ds, b⟩ := T
  induction above generalizing ds with
  | nil => exact h'
  | cons x above ih =>
    cases ds with
    | nil => cases above <;> cases h
    | cons d ds =>
      cases above with
      | nil =>
        refine ⟨(link_congr (hkind x List.mem_cons_self) (hinfo l ?_)).2 h.1, h'⟩
        exact List.mem_cons_of_mem _ List.mem_cons_self
      | cons y above =>
        refine ⟨(link_congr (hkind x List.mem_cons_self) (hinfo y ?_)).2 h.1, ?_⟩
        · exact List.mem_cons_of_mem _ List.mem_cons_self
        · exact ih (fun z hz => hkind z (List.mem_cons_of_mem _ hz))
            (fun z hz => hinfo z (List.mem_cons_of_mem _ hz)) ds h.2

/-! ## A type in memory -/

/-- The cells `locs` of the memory hold the type `T`. -/
structure Holds (mem : Mem) (locs : List Nat) (T : Ty) : Prop where
  chain : mem.Chain locs T
  nodup : locs.Nodup
  lt : ∀ l ∈ locs, l < mem.length

theorem Holds.readType (h : Holds mem (loc :: post) T) : mem.readType loc = T := by
  have hsub : loc :: post ⊆ List.range mem.length := fun l hl => List.mem_range.2 (h.lt l hl)
  have hle := (List.subperm_of_subset h.nodup hsub).length_le
  rw [List.length_range] at hle
  exact h.chain.typeAt_eq hle

/-- A change elsewhere. -/
theorem Holds.congr (h : Holds mem (l :: post) T) (hkeep : Keeps mem mem' loc)
    (hnot : loc ∉ l :: post) : Holds mem' (l :: post) T where
  chain := by
    have hkind : ∀ x ∈ l :: post, mem'.kind x = mem.kind x := by
      intro x hx
      refine hkeep.kind x (h.lt x hx) ?_
      rintro rfl
      exact hnot hx
    exact h.chain.copy (hkind l List.mem_cons_self)
      (fun x hx => hkind x (List.mem_cons_of_mem _ hx))
      fun x hx => hkeep.info x (h.lt x (List.mem_cons_of_mem _ hx))
  nodup := h.nodup
  lt x hx := Nat.lt_of_lt_of_le (h.lt x hx) hkeep.length_le

/-- Only the base type was changed. -/
theorem Holds.rebase (h : Holds mem [loc] ([], b)) (hkeep : Keeps mem mem' loc)
    (hkind : mem'.kind loc = .base b') : Holds mem' [loc] ([], b') where
  chain := hkind
  nodup := h.nodup
  lt x hx := Nat.lt_of_lt_of_le (h.lt x hx) hkeep.length_le

/-- Only the first derivation was changed. -/
theorem Holds.relink (h : Holds mem (loc :: r :: post) (d :: ds, b))
    (hkeep : Keeps mem mem' loc) (hlink : mem'.Link loc d' r) :
    Holds mem' (loc :: r :: post) (d' :: ds, b) where
  chain := by
    have hnot : loc ∉ r :: post := (List.nodup_cons.1 h.nodup).1
    have htail : Holds mem (r :: post) (ds, b) :=
      ⟨h.chain.2, (List.nodup_cons.1 h.nodup).2, fun x hx => h.lt x (List.mem_cons_of_mem _ hx)⟩
    exact ⟨hlink, (htail.congr hkeep hnot).chain⟩
  nodup := h.nodup
  lt x hx := Nat.lt_of_lt_of_le (h.lt x hx) hkeep.length_le

/-- The type under the first derivations. -/
theorem Holds.under {above : List Nat} (h : Holds mem (above ++ l :: post) T) :
    Holds mem (l :: post) (T.1.drop above.length, T.2) where
  chain := h.chain.drop above
  nodup := (List.nodup_append.1 h.nodup).2.1
  lt x hx := h.lt x (List.mem_append_right _ hx)

end Chain

/-! ## Steps at a cell -/

section Keeps

variable (mem : Mem) (loc : Nat)

theorem keeps_append (cell : Cell) : Keeps mem (mem ++ [cell]) loc where
  length_le := by simp
  info l hl := Mem.info_append mem l cell hl
  kind l hl _ := Mem.kind_append mem l cell hl

theorem keeps_setType (t : CType) : Keeps mem (mem.setType loc t) loc where
  length_le := (Mem.length_setType mem loc t).ge
  info l _ := Mem.info_setType mem loc l t
  kind l _ hne := Mem.kind_modify_of_ne mem loc l _ hne

theorem keeps_setKind (k : Kind) : Keeps mem (mem.setKind loc k) loc where
  length_le := (Mem.length_setKind mem loc k).ge
  info l _ := Mem.info_setKind mem loc l k
  kind l _ hne := Mem.kind_modify_of_ne mem loc l _ hne

theorem keeps_setStorage (s : BitVec 32) : Keeps mem (mem.setStorage loc s) loc where
  length_le := (Mem.length_setStorage mem loc s).ge
  info l _ := Mem.info_setStorage mem loc l s
  kind l _ _ := Mem.kind_setStorage mem loc l s

end Keeps

/-- What is at `loc` was changed by `f`, with new cells only, and nothing else was. -/
structure Applies (mem mem' : Mem) (loc : Nat) (f : Ty → Ty) : Prop where
  keeps : Keeps mem mem' loc
  holds : ∀ post T, Holds mem (loc :: post) T →
    ∃ added, (∀ l ∈ added, mem.length ≤ l) ∧ Holds mem' (loc :: (added ++ post)) (f T)

section Applies

variable {mem mem' mem'' : Mem} {loc : Nat} {f g : Ty → Ty}

theorem Applies.trans (h : Applies mem mem' loc f) (h' : Applies mem' mem'' loc g) :
    Applies mem mem'' loc fun T => g (f T) where
  keeps := h.keeps.trans h'.keeps
  holds post T hT := by
    obtain ⟨added, hfresh, hholds⟩ := h.holds post T hT
    obtain ⟨added', hfresh', hholds'⟩ := h'.holds _ _ hholds
    refine ⟨added' ++ added, fun l hl => ?_, by rwa [List.append_assoc]⟩
    rcases List.mem_append.1 hl with hl | hl
    · exact Nat.le_trans h.keeps.length_le (hfresh' l hl)
    · exact hfresh l hl

/-- The step is made at a cell further down. -/
theorem Applies.under {above below : List Nat} {T : Ty} (h : Applies mem mem' loc f)
    (hT : Holds mem (above ++ loc :: below) T) :
    ∃ added, (∀ l ∈ added, mem.length ≤ l) ∧
      Holds mem' (above ++ loc :: (added ++ below)) (T.applyAt above.length f) := by
  obtain ⟨added, hfresh, hholds⟩ := h.holds _ _ hT.under
  refine ⟨added, hfresh, ?_⟩
  obtain ⟨-, hbelow, hdisj⟩ := List.nodup_append.1 hT.nodup
  have hlt : ∀ x ∈ above ++ [loc], x < mem.length := by
    intro x hx
    refine hT.lt x ?_
    rcases List.mem_append.1 hx with hx | hx
    · exact List.mem_append_left _ hx
    · rw [List.mem_singleton.1 hx]
      exact List.mem_append_right _ List.mem_cons_self
  constructor
  · refine Mem.Chain.replace above hT.chain hholds.chain (fun x hx => ?_) fun x hx =>
      h.keeps.info x (hlt x hx)
    exact h.keeps.kind x (hlt x (List.mem_append_left _ hx)) (hdisj x hx loc List.mem_cons_self)
  · refine List.nodup_append.2 ⟨(List.nodup_append.1 hT.nodup).1, hholds.nodup, ?_⟩
    intro x hx y hy
    rcases List.mem_cons.1 hy with rfl | hy
    · exact hdisj x hx y List.mem_cons_self
    · rcases List.mem_append.1 hy with hy | hy
      · have hx := hlt x (List.mem_append_left _ hx)
        have hy := hfresh y hy
        omega
      · exact hdisj x hx y (List.mem_cons_of_mem _ hy)
  · intro x hx
    rcases List.mem_append.1 hx with hx | hx
    · exact Nat.lt_of_lt_of_le (hlt x (List.mem_append_left _ hx)) h.keeps.length_le
    · exact hholds.lt x hx

theorem Holds.setStorage {l : Nat} {post : List Nat} {T : Ty} (hT : Holds mem (l :: post) T)
    (loc : Nat) (s : BitVec 32) : Holds (mem.setStorage loc s) (l :: post) T where
  chain := hT.chain.copy (Mem.kind_setStorage mem loc l s)
    (fun x _ => Mem.kind_setStorage mem loc x s) fun x _ => Mem.info_setStorage mem loc x s
  nodup := hT.nodup
  lt x hx := by
    rw [Mem.length_setStorage]
    exact hT.lt x hx

/-- A copy of the type goes into a new symbol, and the type becomes one that refers to it. -/
theorem keeps_derive (mem : Mem) (loc : Nat) (c : Bound) (next : List Ty) (k : FuncType)
    (t : CType) : Keeps mem ((mem.symPush loc c next k).setType loc t) loc :=
  (keeps_append mem loc _).trans (keeps_setType _ loc t)

theorem Holds.derive {post : List Nat} {T : Ty} {d : Deriv} (hT : Holds mem (loc :: post) T)
    {c : Bound} {next : List Ty} {k : FuncType} {t : CType}
    (hlink : ((mem.symPush loc c next k).setType loc t).Link loc d mem.length) :
    Holds ((mem.symPush loc c next k).setType loc t) (loc :: ([mem.length] ++ post))
      (d :: T.1, T.2) := by
  have hloc : loc < mem.length := hT.lt loc List.mem_cons_self
  have hnew : ∀ x ∈ loc :: post, x ≠ mem.length := fun x hx => (hT.lt x hx).ne
  have hkeep := keeps_derive mem loc c next k t
  obtain ⟨hnot, hnodup⟩ := List.nodup_cons.1 hT.nodup
  constructor
  · refine ⟨hlink, hT.chain.copy ?_ (fun x hx => ?_) fun x hx => ?_⟩
    · rw [Mem.setType, Mem.kind_modify_of_ne _ _ _ _ hloc.ne', Mem.symPush, Mem.kind_append_self]
      rfl
    · refine hkeep.kind x (hT.lt x (List.mem_cons_of_mem _ hx)) ?_
      rintro rfl
      exact hnot hx
    · exact hkeep.info x (hT.lt x (List.mem_cons_of_mem _ hx))
  · refine List.nodup_cons.2 ⟨?_, List.nodup_cons.2 ⟨?_, hnodup⟩⟩
    · intro hmem
      rcases List.mem_cons.1 hmem with h | h
      · exact hloc.ne h
      · exact hnot h
    · exact fun hmem => hnew _ (List.mem_cons_of_mem _ hmem) rfl
  · intro x hx
    rw [Mem.length_setType, Mem.length_symPush]
    rcases List.mem_cons.1 hx with rfl | hx
    · omega
    · rcases List.mem_cons.1 hx with rfl | hx
      · omega
      · have hlt := hT.lt x (List.mem_cons_of_mem _ hx)
        omega

theorem kind_derive (hloc : loc < mem.length) (c : Bound) (next : List Ty) (k : FuncType)
    (t : CType) : ((mem.symPush loc c next k).setType loc t).kind loc = t.kind := by
  rw [Mem.setType, Mem.kind_modify_self]
  rw [Mem.length_symPush]
  omega

theorem info_derive (mem : Mem) (loc : Nat) (c : Bound) (next : List Ty) (k : FuncType)
    (t : CType) :
    ((mem.symPush loc c next k).setType loc t).info mem.length = some (c, next, k) := by
  rw [Mem.info_setType, Mem.symPush, Mem.info_append_self]

end Applies

end TccRiscv64.Decl
