import TccRiscv64.Scope.Links

set_option autoImplicit false

/-! # The symbol tables refine the scopes

What holds between the tables and the scopes in every state, and that each operation keeps it, under
a condition on `global_identifier_push` only. -/

namespace TccRiscv64.Scope

/-- `prev_tok` of a symbol. -/
def prevOf (heap : SymId → Option Sym) (s : SymId) : Option SymId := (heap s).bind Sym.prevTok

/-- The addresses of entries. -/
abbrev ids (entries : List Entry) : List SymId := entries.map Entry.id

/-- The symbols at the addresses of entries have their names. -/
def Named (heap : SymId → Option Sym) (entries : List Entry) : Prop :=
  ∀ e ∈ entries, ∃ sym, heap e.id = some sym ∧ sym.v.key = e.key

/-- The tables and the scopes. The symbols in `base` are those of the global scope, and others on
`global_stack` that are not looked at again. -/
structure Refines (c : Config) (a : Scopes) (base : List SymId) : Prop where
  onLocal : c.st.onLocal = a.inFunction
  inFunction : a.inFunction = true → c.st.localStack = ids a.entries ∧ c.st.globalStack = base
  outside : a.inFunction = false → c.st.globalStack = ids a.entries ++ base
  noEntries : a.inner = false → a.entries = []
  marks_pos : a.inFunction = true → ∀ m ∈ a.marks, 0 < m
  marks_last : a.inFunction = false → ∀ m ∈ a.marks.getLast?, m = 0
  nodup : (ids a.entries ++ base).Nodup
  alloc : ∀ s ∈ base, c.st.heap s ≠ none
  named : Named c.st.heap a.entries
  globals : ∀ d ∈ a.globals, d.2 ∈ base
  table : ∀ k, c.st.table k = a.lookup k
  linked : Linked (prevOf c.st.heap) (globalLookup a.globals) a.entries
  marks : MarksOk (prevOf c.st.heap) (globalLookup a.globals) (if a.inFunction then [] else base)
    a.entries c.marks a.marks

/-! ## Popping -/

section Pop

variable {st : SymTab} {b : Option SymId} {keep : Bool} {pre : List Entry} {rest : List SymId}

/-- The tables after the symbols of `pre` are popped. -/
structure Popped (st st' : SymTab) (keep : Bool) (pre : List Entry) : Prop where
  localStack : st'.localStack = st.localStack
  globalStack : st'.globalStack = st.globalStack
  table : ∀ k, st'.table k
    = match oldest k pre with
      | some e => prevOf st.heap e.id
      | none => st.table k
  heap : ∀ s, s ∉ ids pre → st'.heap s = st.heap s
  heap_keep : keep = true → st'.heap = st.heap

variable (keep) in
/-- One symbol is popped. -/
theorem popSym_eq {s : SymId} {sym : Sym} (hsym : st.heap s = some sym) :
    ∃ st1, st.popSym keep s = .ok st1 ∧ st1.localStack = st.localStack ∧
      st1.globalStack = st.globalStack ∧
      st1.heap = (if keep then st.heap else Function.update st.heap s none) ∧
      ∀ k, st1.table k = if sym.v.key = some k then sym.prevTok else st.table k := by
  unfold SymTab.popSym
  rw [hsym]
  refine ⟨_, rfl, rfl, rfl, rfl, fun k => ?_⟩
  dsimp only
  cases sym.v.key with
  | none => rfl
  | some k' =>
    by_cases hk : k' = k
    · rw [if_pos (congrArg some hk), ← hk]
      exact Function.update_self _ _ _
    · rw [if_neg fun h => hk (Option.some.inj h)]
      exact Function.update_of_ne (Ne.symm hk) _ _

variable (keep) in
/-- `sym_pop` unlinks the symbols above its mark, the last one first. -/
theorem popSyms_eq (hnamed : Named st.heap pre) (hnodup : (ids pre ++ rest).Nodup)
    (hb : b = rest.head?) :
    ∃ st', SymTab.popSyms b keep (ids pre ++ rest) st = .ok (rest, st') ∧ Popped st st' keep pre := by
  induction pre generalizing st with
  | nil =>
    refine ⟨st, ?_, rfl, rfl, fun k => rfl, fun s _ => rfl, fun _ => rfl⟩
    cases rest with
    | nil => exact if_pos hb
    | cons s rest => exact if_pos hb
  | cons e pre ih =>
    obtain ⟨sym, hsym, hkey⟩ := hnamed e List.mem_cons_self
    rw [ids, List.map_cons, List.cons_append, List.nodup_cons] at hnodup
    have hne : b ≠ some e.id := by
      intro hbe
      cases rest with
      | nil => rw [hb] at hbe; cases hbe
      | cons s rest =>
        rw [hb] at hbe
        cases hbe
        exact hnodup.1 (List.mem_append_right _ List.mem_cons_self)
    have hother : ∀ e' ∈ pre, e'.id ≠ e.id := fun e' he' hid =>
      hnodup.1 (List.mem_append_left _ (hid ▸ List.mem_map_of_mem he'))
    obtain ⟨st1, hpop, hlocal, hglobal, hheap1, htable⟩ := popSym_eq keep hsym
    have hheap : ∀ s, s ≠ e.id → st1.heap s = st.heap s := by
      intro s hs
      rw [hheap1]
      split
      · rfl
      · rw [Function.update_of_ne hs]
    have hnamed1 : Named st1.heap pre := by
      intro e' he'
      rw [hheap e'.id (hother e' he')]
      exact hnamed e' (List.mem_cons_of_mem _ he')
    obtain ⟨st', hst', hpopped⟩ := ih hnamed1 hnodup.2
    refine ⟨st', ?_, hpopped.localStack.trans hlocal, hpopped.globalStack.trans hglobal, fun k => ?_,
      fun s hs => ?_, ?_⟩
    · show SymTab.popSyms b keep (e.id :: (ids pre ++ rest)) st = _
      rw [SymTab.popSyms, if_neg hne, hpop]
      exact hst'
    · rw [hpopped.table k, oldest]
      cases hold : oldest k pre with
      | some e' =>
        rw [Option.some_or]
        show prevOf st1.heap e'.id = prevOf st.heap e'.id
        rw [prevOf, prevOf, hheap e'.id (hother e' (oldest_mem hold).1)]
      | none =>
        rw [Option.none_or]
        show st1.table k = _
        rw [htable k, hkey]
        by_cases hk : e.key = some k
        · rw [if_pos hk, if_pos hk]
          show sym.prevTok = prevOf st.heap e.id
          rw [prevOf, hsym]
          rfl
        · rw [if_neg hk, if_neg hk]
    · rw [ids, List.map_cons, List.mem_cons, not_or] at hs
      rw [hpopped.heap s hs.2, hheap s hs.1]
    · intro hkeep
      rw [hpopped.heap_keep hkeep]
      rw [hheap1, if_pos hkeep]

/-- Popping down to a mark leads lookup back to the entries behind it. -/
theorem Popped.table_eq {st' : SymTab} {suf : List Entry} {g : Key → Option SymId}
    (h : Popped st st' keep pre) (hrestores : Restores (prevOf st.heap) g pre suf)
    (htable : ∀ k, st.table k = look g k (pre ++ suf)) (k : Key) : st'.table k = look g k suf := by
  rw [h.table k]
  cases hold : oldest k pre with
  | some e => exact hrestores k e hold
  | none =>
    show st.table k = _
    rw [htable k, look_append_of_forall_ne (oldest_eq_none_iff.1 hold)]

end Pop

/-! ## Declaring -/

section Step

variable {c c' : Config} {a : Scopes} {base : List SymId}

theorem Refines.heap_ne_none (h : Refines c a base) {s : SymId}
    (hs : s ∈ ids a.entries ++ base) : c.st.heap s ≠ none := by
  rcases List.mem_append.1 hs with hs | hs
  · obtain ⟨e, he, rfl⟩ := List.mem_map.1 hs
    obtain ⟨sym, hsym, -⟩ := h.named e he
    rw [hsym]
    exact Option.some_ne_none _
  · exact h.alloc s hs

theorem Refines.notMem (h : Refines c a base) {s : SymId} (hs : c.st.heap s = none) :
    s ∉ ids a.entries ∧ s ∉ base := by
  have hnot : s ∉ ids a.entries ++ base := fun hmem => h.heap_ne_none hmem hs
  rwa [List.mem_append, not_or] at hnot

theorem prevOf_update_of_ne {heap : SymId → Option Sym} {s s' : SymId} {sym : Option Sym}
    (h : s' ≠ s) : prevOf (Function.update heap s sym) s' = prevOf heap s' := by
  rw [prevOf, prevOf, Function.update_of_ne h]

/-- A new symbol leaves the links of entries as they are. -/
theorem prevOf_update_of_mem (heap : SymId → Option Sym) (sym : Option Sym) {s : SymId}
    {entries : List Entry} (hs : s ∉ ids entries) :
    ∀ e ∈ entries, prevOf (Function.update heap s sym) e.id = prevOf heap e.id :=
  fun _ he => prevOf_update_of_ne fun h => hs (h ▸ List.mem_map_of_mem he)

theorem Named.update {heap : SymId → Option Sym} {s : SymId} {sym : Option Sym}
    {entries : List Entry} (h : Named heap entries) (hs : s ∉ ids entries) :
    Named (Function.update heap s sym) entries := by
  intro e he
  have hne : e.id ≠ s := fun h' => hs (h' ▸ List.mem_map_of_mem he)
  rw [Function.update_of_ne hne]
  exact h e he

/-- A symbol is added to `global_stack` without being declared in an open scope. -/
structure AddsGlobal (c c' : Config) (s : SymId) (sym : Sym) : Prop where
  free : c.st.heap s = none
  heap : c'.st.heap = Function.update c.st.heap s (some sym)
  localStack : c'.st.localStack = c.st.localStack
  globalStack : c'.st.globalStack = s :: c.st.globalStack
  table : c'.st.table = c.st.table
  marks : c'.marks = c.marks

theorem Refines.addsGlobal {s : SymId} {sym : Sym} (h : Refines c a base)
    (hadds : AddsGlobal c c' s sym) (hin : a.inFunction = true ∨ a.entries = [])
    (hmarks : a.inFunction = true ∨ a.marks = []) : Refines c' a (s :: base) := by
  obtain ⟨hs, hbase⟩ := h.notMem hadds.free
  refine
    { onLocal := ?_, inFunction := fun hf => ?_, outside := fun hf => ?_, noEntries := h.noEntries,
      marks_pos := h.marks_pos, marks_last := h.marks_last, nodup := ?_, alloc := ?_, named := ?_, globals := fun d hd => ?_, table := fun k => ?_,
      linked := ?_, marks := ?_ }
  · rw [SymTab.onLocal, hadds.localStack]
    exact h.onLocal
  · rw [hadds.localStack, hadds.globalStack, (h.inFunction hf).2]
    exact ⟨(h.inFunction hf).1, rfl⟩
  · have hnil : a.entries = [] := hin.resolve_left (by rw [hf]; exact Bool.false_ne_true)
    rw [hadds.globalStack, h.outside hf, hnil]
    rfl
  · rw [List.nodup_append_comm, List.cons_append, List.nodup_cons, List.nodup_append_comm]
    refine ⟨?_, h.nodup⟩
    rw [List.mem_append, not_or]
    exact ⟨hbase, hs⟩
  · intro s' hs'
    rw [hadds.heap]
    rcases List.mem_cons.1 hs' with rfl | hs'
    · rw [Function.update_self]
      exact Option.some_ne_none _
    · have hne : s' ≠ s := fun h' => hbase (h' ▸ hs')
      rw [Function.update_of_ne hne]
      exact h.alloc s' hs'
  · rw [hadds.heap]
    exact h.named.update hs
  · exact List.mem_cons_of_mem _ (h.globals d hd)
  · rw [hadds.table]
    exact h.table k
  · rw [hadds.heap]
    exact h.linked.congr (prevOf_update_of_mem _ _ hs)
  · have hmarksOk := h.marks.congr (prevOf_update_of_mem c.st.heap (some sym) hs)
    rw [hadds.marks, hadds.heap]
    rcases hmarks with hf | hnil
    · rw [if_pos hf] at hmarksOk ⊢
      exact hmarksOk
    · rw [hnil] at hmarksOk ⊢
      cases hm : c.marks with
      | nil =>
        rw [hm] at hmarksOk
        exact hmarksOk
      | cons b bs =>
        rw [hm] at hmarksOk
        exact hmarksOk.elim

/-- A symbol is declared in the innermost scope. -/
structure Declares (c c' : Config) (s : SymId) (key : Option Key) (sym : Sym) : Prop where
  free : c.st.heap s = none
  heap : c'.st.heap = Function.update c.st.heap s (some sym)
  named : sym.v.key = key
  prevTok : ∀ k, key = some k → sym.prevTok = c.st.table k
  localStack : c'.st.localStack = if c.st.onLocal then s :: c.st.localStack else c.st.localStack
  globalStack : c'.st.globalStack = if c.st.onLocal then c.st.globalStack else s :: c.st.globalStack
  table : ∀ k, c'.st.table k = if key = some k then some s else c.st.table k
  marks : c'.marks = c.marks

/-- A declaration in an inner scope. -/
theorem Refines.declares_inner {s : SymId} {key : Option Key} {sym : Sym} (h : Refines c a base)
    (hd : Declares c c' s key sym) (hinner : a.inner = true) :
    Refines c' (a.declare s key) base := by
  obtain ⟨hs, hbase⟩ := h.notMem hd.free
  have hother := prevOf_update_of_mem c.st.heap (some sym) hs
  have hself : ∀ k, key = some k →
      prevOf c'.st.heap s = look (globalLookup a.globals) k a.entries := by
    intro k hk
    rw [hd.heap, prevOf, Function.update_self]
    show sym.prevTok = _
    rw [hd.prevTok k hk, h.table k]
    rfl
  rw [Scopes.declare_of_inner hinner]
  refine
    { onLocal := ?_, inFunction := fun hf => ?_, outside := fun hf => ?_,
      noEntries := fun hi => absurd hinner (Bool.eq_false_iff.1 hi),
      marks_pos := h.marks_pos, marks_last := h.marks_last, nodup := ?_, alloc := fun s' hs' => ?_, named := ?_, globals := h.globals, table := fun k => ?_,
      linked := ⟨fun k _ hk => hself k hk, ?_⟩, marks := ?_ }
  · rw [← h.onLocal, SymTab.onLocal, hd.localStack]
    cases hon : c.st.onLocal with
    | true => rfl
    | false =>
      rw [if_neg Bool.false_ne_true]
      exact hon
  · rw [hd.localStack, hd.globalStack, h.onLocal, if_pos hf, if_pos hf, (h.inFunction hf).1,
      (h.inFunction hf).2]
    exact ⟨rfl, rfl⟩
  · rw [hd.globalStack, h.onLocal, if_neg (Bool.eq_false_iff.1 hf), h.outside hf]
    rfl
  · show (s :: (ids a.entries ++ base)).Nodup
    rw [List.nodup_cons, List.mem_append, not_or]
    exact ⟨⟨hs, hbase⟩, h.nodup⟩
  · have hne : s' ≠ s := fun h' => hbase (h' ▸ hs')
    rw [hd.heap, Function.update_of_ne hne]
    exact h.alloc s' hs'
  · intro e he
    rw [hd.heap]
    rcases List.mem_cons.1 he with rfl | he
    · exact ⟨sym, Function.update_self _ _ _, hd.named⟩
    · exact h.named.update hs e he
  · rw [hd.table k, Scopes.lookup, look, h.table k]
    by_cases hk : key = some k
    · rw [if_pos hk, if_pos ⟨rfl, hk⟩]
    · rw [if_neg hk, if_neg fun h' => hk h'.2]
      rfl
  · rw [hd.heap]
    exact h.linked.congr hother
  · have hmarks := h.marks.congr hother
    rw [hd.marks]
    rw [← hd.heap] at hmarks
    have hrestores : Restores (prevOf c'.st.heap) (globalLookup a.globals) [⟨s, key, true⟩] a.entries := by
      intro k e he
      obtain ⟨hmem, hkey⟩ := oldest_mem he
      obtain rfl := List.mem_singleton.1 hmem
      exact hself k hkey
    exact hmarks.append hrestores

/-- A declaration in the global scope. -/
theorem Refines.declares_outer {s : SymId} {key : Option Key} {sym : Sym} (h : Refines c a base)
    (hd : Declares c c' s key sym) (hinner : a.inner = false) :
    Refines c' (a.declare s key) (s :: base) := by
  have hnil := h.noEntries hinner
  obtain ⟨hf, hm⟩ : a.inFunction = false ∧ a.marks = [] := by
    simpa [Scopes.inner] using hinner
  have hmarks : c.marks = [] := by
    have hok := h.marks
    rw [hm] at hok
    cases hc : c.marks with
    | nil => rfl
    | cons b bs =>
      rw [hc] at hok
      exact hok.elim
  obtain ⟨-, hbase⟩ := h.notMem hd.free
  have hon : c.st.onLocal = false := by rw [h.onLocal, hf]
  rw [Scopes.declare_of_outer hinner]
  refine
    { onLocal := ?_, inFunction := fun hf' => ?_, outside := fun _ => ?_, noEntries := fun _ => hnil,
      marks_pos := h.marks_pos, marks_last := h.marks_last, nodup := ?_, alloc := fun s' hs' => ?_, named := ?_, globals := ?_, table := fun k => ?_,
      linked := ?_, marks := ?_ }
  · rw [SymTab.onLocal, hd.localStack, hon, if_neg Bool.false_ne_true]
    exact h.onLocal
  · rw [hf] at hf'
    cases hf'
  · rw [hd.globalStack, hon, if_neg Bool.false_ne_true, h.outside hf, hnil]
    rfl
  · have hnodup := h.nodup
    rw [hnil] at hnodup ⊢
    exact List.nodup_cons.2 ⟨hbase, hnodup⟩
  · rw [hd.heap]
    rcases List.mem_cons.1 hs' with rfl | hs'
    · rw [Function.update_self]
      exact Option.some_ne_none _
    · have hne : s' ≠ s := fun h' => hbase (h' ▸ hs')
      rw [Function.update_of_ne hne]
      exact h.alloc s' hs'
  · rw [hnil]
    intro e he
    cases he
  · cases key with
    | none => exact fun d hd' => List.mem_cons_of_mem _ (h.globals d hd')
    | some k =>
      refine List.forall_mem_cons.2 ⟨List.mem_cons_self, fun d hd' => ?_⟩
      exact List.mem_cons_of_mem _ (h.globals d hd')
  · have hlook := h.table k
    rw [Scopes.lookup, hnil, look] at hlook
    rw [hd.table k, Scopes.lookup, hnil, look, hlook]
    cases key with
    | none => rfl
    | some k' =>
      show _ = if k' = k then some s else globalLookup a.globals k
      simp only [Option.some.injEq]
  · rw [hnil]
    trivial
  · rw [hnil, hm, hd.marks, hmarks]
    exact restores_nil

theorem Refines.declares {s : SymId} {key : Option Key} {sym : Sym} (h : Refines c a base)
    (hd : Declares c c' s key sym) : ∃ base', Refines c' (a.declare s key) base' := by
  cases hinner : a.inner with
  | true => exact ⟨base, h.declares_inner hd hinner⟩
  | false => exact ⟨s :: base, h.declares_outer hd hinner⟩

/-! ## Opening and leaving scopes -/

/-- The stack that `sym_push` uses holds the entries, above what the global scope has. -/
theorem Refines.stack_eq (h : Refines c a base) :
    c.st.stack = ids a.entries ++ if a.inFunction then [] else base := by
  rw [SymTab.stack, h.onLocal]
  cases hf : a.inFunction with
  | true =>
    rw [if_pos rfl, if_pos rfl, List.append_nil]
    exact (h.inFunction hf).1
  | false =>
    rw [if_neg Bool.false_ne_true, if_neg Bool.false_ne_true]
    exact h.outside hf

theorem Refines.enter (h : Refines c a base) (localScope : BitVec 32) :
    Refines { st := { c.st with localScope }, marks := c.st.stack.head? :: c.marks }
      { a with marks := a.entries.length :: a.marks } base where
  onLocal := h.onLocal
  inFunction := h.inFunction
  outside := h.outside
  noEntries hi := by
    simp [Scopes.inner] at hi
  marks_pos hf := by
    have hne : a.entries ≠ [] := by
      intro hnil
      have hon := h.onLocal
      rw [SymTab.onLocal, (h.inFunction hf).1, hnil, hf] at hon
      exact absurd hon (by decide)
    exact List.forall_mem_cons.2 ⟨List.length_pos_of_ne_nil hne, h.marks_pos hf⟩
  marks_last hf m hm := by
    cases hmarks : a.marks with
    | nil =>
      rw [hmarks] at hm
      obtain rfl := Option.mem_some_iff.1 hm
      rw [h.noEntries (by rw [Scopes.inner, hf, hmarks]; rfl)]
      rfl
    | cons m' ms =>
      rw [hmarks, List.getLast?_cons_cons, ← hmarks] at hm
      exact h.marks_last hf m hm
  nodup := h.nodup
  alloc := h.alloc
  named := h.named
  globals := h.globals
  table := h.table
  linked := h.linked
  marks := ⟨[], a.entries, rfl, rfl, by rw [h.stack_eq], restores_nil, h.marks⟩

/-- A mark and the entries above and behind it. -/
theorem MarksOk.split {prev : SymId → Option SymId} {g : Key → Option SymId} {base : List SymId}
    {entries : List Entry} {b : Option SymId} {bs : List (Option SymId)} {ms : List Nat}
    (h : MarksOk prev g base entries (b :: bs) ms) :
    ∃ m ms' pre suf, ms = m :: ms' ∧ entries = pre ++ suf ∧ suf.length = m ∧
      b = (suf.map Entry.id ++ base).head? ∧ Restores prev g pre suf ∧
      MarksOk prev g base suf bs ms' := by
  cases ms with
  | nil => exact h.elim
  | cons m ms' =>
    obtain ⟨pre, suf, heq, hlen, hb, hrestores, hrest⟩ := h
    exact ⟨m, ms', pre, suf, rfl, heq, hlen, hb, hrestores, hrest⟩

theorem cut_eq {pre suf : List Entry} {m : Nat} (hm : suf.length = m) (keep : Bool) :
    Scopes.cut (pre ++ suf) m keep = (if keep then pre.map Entry.kill else []) ++ suf := by
  rw [Scopes.cut, List.length_append, hm, Nat.add_sub_cancel, List.take_left', List.drop_left']
  all_goals rfl

theorem ids_map_kill (entries : List Entry) : ids (entries.map Entry.kill) = ids entries := by
  rw [ids, ids, List.map_map]
  rfl

theorem Named.kill {heap : SymId → Option Sym} {entries : List Entry} (h : Named heap entries) :
    Named heap (entries.map Entry.kill) := by
  intro e he
  obtain ⟨e', he', rfl⟩ := List.mem_map.1 he
  exact h e' he'

/-- What is left of the entries of a scope. -/
def leftOf (keep : Bool) (pre : List Entry) : List Entry :=
  if keep then pre.map Entry.kill else []

/-- The tables after a scope is left, with what is left of its entries. -/
structure Left (st st' : SymTab) (g : Key → Option SymId) (left suf : List Entry)
    (base : List SymId) : Prop where
  dead : ∀ e ∈ left, e.live = false
  named : Named st'.heap (left ++ suf)
  alloc : ∀ s ∈ base, st'.heap s ≠ none
  nodup : (ids (left ++ suf) ++ base).Nodup
  restores : Restores (prevOf st'.heap) g left suf
  links : ∀ e ∈ suf, prevOf st'.heap e.id = prevOf st.heap e.id
  table : ∀ k, st'.table k = look g k suf

theorem Popped.left {st st' : SymTab} {keep : Bool} {pre suf : List Entry}
    {g : Key → Option SymId} (h : Popped st st' keep pre)
    (hrestores : Restores (prevOf st.heap) g pre suf) (hnamed : Named st.heap (pre ++ suf))
    (halloc : ∀ s ∈ base, st.heap s ≠ none) (hnodup : (ids pre ++ (ids suf ++ base)).Nodup)
    (htable : ∀ k, st.table k = look g k (pre ++ suf)) :
    Left st st' g (leftOf keep pre) suf base := by
  have hheap : ∀ s ∈ ids suf ++ base, st'.heap s = st.heap s := fun s hs =>
    h.heap s fun hs' => List.disjoint_of_nodup_append hnodup hs' hs
  have hsuf : Named st'.heap suf := by
    intro e he
    rw [hheap e.id (List.mem_append_left _ (List.mem_map_of_mem he))]
    exact hnamed e (List.mem_append_right _ he)
  have hbase : ∀ s ∈ base, st'.heap s ≠ none := fun s hs => by
    rw [hheap s (List.mem_append_right _ hs)]
    exact halloc s hs
  have hlinks : ∀ e ∈ suf, prevOf st'.heap e.id = prevOf st.heap e.id := fun e he => by
    rw [prevOf, prevOf, hheap e.id (List.mem_append_left _ (List.mem_map_of_mem he))]
  cases keep with
  | true =>
    refine ⟨fun e he => ?_, fun e he => ?_, hbase, ?_, ?_, hlinks, h.table_eq hrestores htable⟩
    · obtain ⟨e', -, rfl⟩ := List.mem_map.1 he
      rfl
    · rcases List.mem_append.1 he with he | he
      · rw [h.heap_keep rfl]
        exact Named.kill (fun e he => hnamed e (List.mem_append_left _ he)) e he
      · exact hsuf e he
    · rw [leftOf, if_pos rfl, ids, List.map_append, ← ids, ← ids, ids_map_kill, List.append_assoc]
      exact hnodup
    · rw [h.heap_keep rfl]
      exact hrestores.kill
  | false =>
    refine ⟨fun e he => ?_, hsuf, hbase, ?_, restores_nil, hlinks, h.table_eq hrestores htable⟩
    · cases he
    · exact (List.nodup_append.1 hnodup).2.1

/-- The scopes after one of them is left. -/
theorem Left.refines {st' : SymTab} {pre suf left : List Entry} {bs : List (Option SymId)}
    {m : Nat} {ms : List Nat} (h : Refines c a base) (hentries : a.entries = pre ++ suf)
    (ham : a.marks = m :: ms) (hlen : suf.length = m)
    (hleft : Left c.st st' (globalLookup a.globals) left suf base)
    (hrest : MarksOk (prevOf c.st.heap) (globalLookup a.globals) (if a.inFunction then [] else base)
      suf bs ms)
    (hfun : a.inFunction = true →
      st'.localStack = ids (left ++ suf) ∧ st'.globalStack = base)
    (hout : a.inFunction = false →
      st'.localStack = [] ∧ st'.globalStack = ids (left ++ suf) ++ base ∧ ms ≠ []) :
    Refines { st := st', marks := bs } { a with entries := left ++ suf, marks := ms } base where
  onLocal := by
    cases hf : a.inFunction with
    | true =>
      have hpos := h.marks_pos hf m (by rw [ham]; exact List.mem_cons_self)
      rw [SymTab.onLocal, (hfun hf).1, decide_eq_true_eq]
      intro hnil
      have hlength := congrArg List.length hnil
      rw [List.length_map, List.length_append] at hlength
      rw [List.length_nil] at hlength
      omega
    | false =>
      rw [SymTab.onLocal, (hout hf).1]
      rfl
  inFunction := hfun
  outside hf := (hout hf).2.1
  noEntries hi := by
    rw [Scopes.inner, Bool.or_eq_false_iff] at hi
    have hne := (hout hi.1).2.2
    cases ms with
    | nil => exact absurd rfl hne
    | cons m' ms => cases hi.2
  marks_pos hf m' hm' := h.marks_pos hf m' (by rw [ham]; exact List.mem_cons_of_mem _ hm')
  marks_last hf m' hm' := by
    refine h.marks_last hf m' ?_
    rw [ham]
    cases ms with
    | nil => cases hm'
    | cons m'' ms => rwa [List.getLast?_cons_cons]
  nodup := hleft.nodup
  alloc := hleft.alloc
  named := hleft.named
  globals := h.globals
  table k := by rw [hleft.table k, Scopes.lookup, look_append_of_forall_dead hleft.dead]
  linked := by
    have hlinked := h.linked
    rw [hentries] at hlinked
    exact (hlinked.of_append.congr hleft.links).dead_append hleft.dead
  marks := (hrest.congr hleft.links).append hleft.restores

/-- The same in the global scope, where the symbols that are left stay on `global_stack`. -/
theorem Left.refines_outer {st' : SymTab} {left : List Entry} {bs : List (Option SymId)}
    (h : Refines c a base) (hf : a.inFunction = false)
    (hleft : Left c.st st' (globalLookup a.globals) left [] base)
    (hrest : MarksOk (prevOf c.st.heap) (globalLookup a.globals) (if a.inFunction then [] else base)
      [] bs [])
    (hlocal : st'.localStack = []) (hglobal : st'.globalStack = ids left ++ base) :
    Refines { st := st', marks := bs } { a with entries := [], marks := [] } (ids left ++ base) where
  onLocal := by
    rw [SymTab.onLocal, hlocal, hf]
    rfl
  inFunction hf' := by
    rw [hf] at hf'
    cases hf'
  outside _ := hglobal
  noEntries _ := rfl
  marks_pos _ := List.forall_mem_nil _
  marks_last _ m hm := by cases hm
  nodup := by
    have hnodup := hleft.nodup
    rwa [List.append_nil] at hnodup
  alloc s hs := by
    rcases List.mem_append.1 hs with hs | hs
    · obtain ⟨e, he, rfl⟩ := List.mem_map.1 hs
      obtain ⟨sym, hsym, -⟩ := hleft.named e (List.mem_append_left _ he)
      rw [hsym]
      exact Option.some_ne_none _
    · exact hleft.alloc s hs
  named e he := by cases he
  globals d hd := List.mem_append_right _ (h.globals d hd)
  table k := hleft.table k
  linked := trivial
  marks := by
    cases bs with
    | nil => exact restores_nil
    | cons b bs => exact hrest.elim

theorem ids_leftOf (keep : Bool) (pre : List Entry) :
    ids (leftOf keep pre) = if keep then ids pre else [] := by
  cases keep with
  | true => exact ids_map_kill pre
  | false => rfl

/-- `sym_pop` of the stack that holds `pre` above `rest`. -/
theorem symPop_eq {st : SymTab} {b : Option SymId} (keep onLocal : Bool) {pre : List Entry}
    {rest : List SymId}
    (hstack : (if onLocal then st.localStack else st.globalStack) = ids pre ++ rest)
    (hnamed : Named st.heap pre) (hnodup : (ids pre ++ rest).Nodup) (hb : b = rest.head?) :
    ∃ st', Popped st st' keep pre ∧ st.symPop onLocal b keep
      = .ok { st' with
          localStack := if onLocal then ids (leftOf keep pre) ++ rest else st.localStack
          globalStack := if onLocal then st.globalStack else ids (leftOf keep pre) ++ rest } := by
  obtain ⟨st', hpop, hpopped⟩ := popSyms_eq keep hnamed hnodup hb
  refine ⟨st', hpopped, ?_⟩
  rw [SymTab.symPop, hstack, hpop, ids_leftOf, ← hpopped.localStack, ← hpopped.globalStack]
  rw [← hpopped.localStack, ← hpopped.globalStack] at hstack
  cases keep with
  | true =>
    cases onLocal with
    | true =>
      rw [if_pos rfl] at hstack
      rw [if_pos rfl, if_pos rfl, if_pos rfl, ← hstack]
      rfl
    | false =>
      rw [if_neg Bool.false_ne_true] at hstack
      rw [if_neg Bool.false_ne_true, if_neg Bool.false_ne_true, if_pos rfl, ← hstack]
      rfl
  | false => cases onLocal <;> rfl

/-- Leaving a scope brings back what names stood for at its beginning. -/
theorem Refines.leave {b : Option SymId} {bs : List (Option SymId)} (h : Refines c a base)
    (hmarks : c.marks = b :: bs) (keep : Bool) (localScope : SymTab → BitVec 32) :
    ∃ st base', c.st.symPop c.st.onLocal b keep = .ok st ∧
      Refines { st := { st with localScope := localScope st }, marks := bs }
        (a.step (.leave keep)) base' := by
  have hok := h.marks
  rw [hmarks] at hok
  obtain ⟨m, ms, pre, suf, ham, hentries, hlen, hb, hrestores, hrest⟩ := hok.split
  have hnodup := h.nodup
  rw [hentries, ids, List.map_append, List.append_assoc] at hnodup
  have hnamed := h.named
  rw [hentries] at hnamed
  have hnamedPre : Named c.st.heap pre := fun e he => hnamed e (List.mem_append_left _ he)
  have htable : ∀ k, c.st.table k = look (globalLookup a.globals) k (pre ++ suf) := fun k => by
    rw [h.table k, Scopes.lookup, hentries]
  cases hf : a.inFunction with
  | true =>
    rw [hf, if_pos rfl, List.append_nil] at hb
    have hlocal := (h.inFunction hf).1
    rw [hentries, ids, List.map_append] at hlocal
    have hon : c.st.onLocal = true := by rw [h.onLocal, hf]
    obtain ⟨st', hpopped, hpop⟩ := symPop_eq keep true hlocal hnamedPre
      (by rw [← List.append_assoc] at hnodup; exact (List.nodup_append.1 hnodup).1) hb
    have hleft := hpopped.left hrestores hnamed h.alloc hnodup htable
    refine ⟨_, base, by rw [hon]; exact hpop, ?_⟩
    have hstep : a.step (.leave keep) = { a with entries := leftOf keep pre ++ suf, marks := ms } := by
      rw [Scopes.step, ham]
      dsimp only
      rw [if_pos (Or.inl hf), hentries, cut_eq hlen]
      rfl
    rw [hstep]
    refine Left.refines h hentries ham hlen ⟨hleft.dead, hleft.named, hleft.alloc, hleft.nodup,
      hleft.restores, hleft.links, hleft.table⟩ hrest (fun _ => ?_) fun hf' => ?_
    · exact ⟨List.map_append.symm, (h.inFunction hf).2⟩
    · rw [hf] at hf'
      cases hf'
  | false =>
    rw [hf, if_neg Bool.false_ne_true] at hb
    have hglobal := h.outside hf
    rw [hentries, ids, List.map_append, List.append_assoc] at hglobal
    have hon : c.st.onLocal = false := by rw [h.onLocal, hf]
    have hlocal : c.st.localStack = [] := by
      rw [SymTab.onLocal, decide_eq_false_iff_not, not_not] at hon
      exact hon
    obtain ⟨st', hpopped, hpop⟩ := symPop_eq keep false hglobal hnamedPre
      hnodup hb
    have hleft := hpopped.left hrestores hnamed h.alloc hnodup htable
    by_cases hms : ms = []
    · have hm : m = 0 := h.marks_last hf m (by rw [ham, hms]; rfl)
      have hsuf : suf = [] := List.eq_nil_of_length_eq_zero (by rw [hlen, hm])
      subst hms hsuf
      refine ⟨_, ids (leftOf keep pre) ++ base, by rw [hon]; exact hpop, ?_⟩
      have hstep : a.step (.leave keep) = { a with entries := [], marks := [] } := by
        rw [Scopes.step, ham]
        dsimp only
        rw [if_neg]
        rw [hf]
        simp
      rw [hstep]
      exact Left.refines_outer h hf ⟨hleft.dead, hleft.named, hleft.alloc, hleft.nodup,
        hleft.restores, hleft.links, hleft.table⟩ hrest hlocal rfl
    · refine ⟨_, base, by rw [hon]; exact hpop, ?_⟩
      have hstep : a.step (.leave keep) = { a with entries := leftOf keep pre ++ suf, marks := ms } := by
        rw [Scopes.step, ham]
        dsimp only
        rw [if_pos (Or.inr hms), hentries, cut_eq hlen]
        rfl
      rw [hstep]
      refine Left.refines h hentries ham hlen ⟨hleft.dead, hleft.named, hleft.alloc, hleft.nodup,
        hleft.restores, hleft.links, hleft.table⟩ hrest (fun hf' => ?_) fun _ => ?_
      · rw [hf] at hf'
        cases hf'
      · refine ⟨hlocal, ?_, hms⟩
        have hids : ids (leftOf keep pre ++ suf) = ids (leftOf keep pre) ++ ids suf :=
          List.map_append
        rw [hids, List.append_assoc]
        rfl

/-! ## Global identifiers -/

/-- When `global_identifier_push` links a global symbol where later pops leave it: no parameter list
of the global scope is open, the oldest declaration of its name in the function is not one that was
removed but kept on the stack, and `sym_scope` tells the declarations of its name in open scopes from
the last global one. -/
structure GlobalPushOk (heap : SymId → Option Sym) (a : Scopes) (k : Key) : Prop where
  outside : a.inFunction = true ∨ a.marks = []
  oldest_live : ∀ e, oldest k a.entries = some e → e.live
  local_scope : ∀ e ∈ a.entries, e.live → e.key = some k →
    ∀ sym, heap e.id = some sym → sym.symScope ≠ 0
  global_scope : ∀ s, globalLookup a.globals k = some s →
    ∀ sym, heap s = some sym → sym.symScope = 0

/-- The loop of `global_identifier_push` goes past the live declarations in open scopes. -/
theorem insertPlace_eq {heap : SymId → Option Sym} {g : Key → Option SymId} {k : Key}
    {entries : List Entry} {fuel : Nat} (hlinked : Linked (prevOf heap) g entries)
    (hnamed : Named heap entries) (hfuel : entries.length < fuel)
    (hlocal : ∀ e ∈ entries, e.live → e.key = some k → ∀ sym, heap e.id = some sym → sym.symScope ≠ 0)
    (hglobal : ∀ s, g k = some s → ∃ sym, heap s = some sym ∧ sym.symScope = 0)
    (place : Option SymId) :
    SymTab.insertPlace heap fuel place (look g k entries)
      = .ok ((lastLive k entries).or place, g k) := by
  induction entries generalizing fuel place with
  | nil =>
    obtain ⟨fuel, rfl⟩ := Nat.exists_eq_succ_of_ne_zero (by omega : fuel ≠ 0)
    show SymTab.insertPlace heap (fuel + 1) place (g k) = .ok (place, g k)
    cases hg : g k with
    | none => rfl
    | some p =>
      obtain ⟨sym, hsym, hscope⟩ := hglobal p hg
      rw [SymTab.insertPlace, hsym]
      exact if_neg (not_not.2 hscope)
  | cons e rest ih =>
    obtain ⟨fuel, rfl⟩ := Nat.exists_eq_succ_of_ne_zero (by omega : fuel ≠ 0)
    rw [List.length_cons] at hfuel
    have hnamed' : Named heap rest := fun e' he' => hnamed e' (List.mem_cons_of_mem _ he')
    have hlocal' := fun e' he' => hlocal e' (List.mem_cons_of_mem _ he')
    by_cases he : e.live = true ∧ e.key = some k
    · obtain ⟨sym, hsym, -⟩ := hnamed e List.mem_cons_self
      have hprev : sym.prevTok = look g k rest := by
        rw [← hlinked.1 k he.1 he.2, prevOf, hsym]
        rfl
      rw [look, if_pos he, lastLive, if_pos he, SymTab.insertPlace, hsym]
      dsimp only
      rw [if_pos (hlocal e List.mem_cons_self he.1 he.2 sym hsym), hprev,
        ih hlinked.2 hnamed' (by omega) hlocal' (some e.id), Option.or_assoc]
      rfl
    · rw [look, if_neg he, lastLive, if_neg he, Option.or_none]
      exact ih hlinked.2 hnamed' (by omega) hlocal' place

theorem globalLookup_mem {globals : List (Key × SymId)} {k : Key} {s : SymId}
    (h : globalLookup globals k = some s) : ∃ d ∈ globals, d.2 = s := by
  induction globals with
  | nil => cases h
  | cons d rest ih =>
    rw [globalLookup] at h
    split at h
    · cases h
      exact ⟨d, List.mem_cons_self, rfl⟩
    · obtain ⟨d', hd', hs⟩ := ih h
      exact ⟨d', List.mem_cons_of_mem _ hd', hs⟩

/-- The tables after a global symbol is linked in. -/
structure Linking (st st' : SymTab) (k : Key) (place : Option SymId) (s : SymId) : Prop where
  localStack : st'.localStack = st.localStack
  globalStack : st'.globalStack = s :: st.globalStack
  new : st'.heap s ≠ none
  names : ∀ x, x ≠ s → (st'.heap x).map Sym.v = (st.heap x).map Sym.v
  same_link : ∀ p, place = some p → prevOf st'.heap p = some s
  other_link : ∀ p, place ≠ some p → p ≠ s → prevOf st'.heap p = prevOf st.heap p
  table : ∀ k', st'.table k' = if place = none ∧ k' = k then some s else st.table k'

theorem linking_setPlace (sym : Sym) {st : SymTab} {k : Key} {place : Option SymId} {s : SymId}
    (hplace : ∀ p, place = some p → p ≠ s ∧ st.heap p ≠ none) :
    Linking st
      ((SymTab.addTo { st with heap := Function.update st.heap s (some sym) } false s).setPlace k
        place s) k place s := by
  cases place with
  | none =>
    refine ⟨rfl, rfl, ?_, fun x hx => ?_, fun p hp => ?_, fun p _ hp => ?_, fun k' => ?_⟩
    · show Function.update st.heap s (some sym) s ≠ none
      rw [Function.update_self]
      exact Option.some_ne_none _
    · show (Function.update st.heap s (some sym) x).map Sym.v = _
      rw [Function.update_of_ne hx]
    · cases hp
    · exact prevOf_update_of_ne hp
    · show Function.update st.table k (some s) k' = _
      by_cases hk : k' = k
      · rw [if_pos ⟨rfl, hk⟩, hk, Function.update_self]
      · rw [if_neg fun h => hk h.2, Function.update_of_ne hk]
  | some p =>
    obtain ⟨hps, hp⟩ := hplace p rfl
    obtain ⟨symp, hsymp⟩ := Option.ne_none_iff_exists'.1 hp
    have hheap : ((SymTab.addTo { st with heap := Function.update st.heap s (some sym) } false
        s).setPlace k (some p) s).heap
        = Function.update (Function.update st.heap s (some sym)) p
          (some { symp with prevTok := some s }) := by
      show Function.update (Function.update st.heap s (some sym)) p
        ((Function.update st.heap s (some sym) p).map fun sym => { sym with prevTok := some s }) = _
      rw [Function.update_of_ne hps, hsymp]
      rfl
    refine ⟨rfl, rfl, ?_, fun x hx => ?_, fun p' hp' => ?_, fun p' hne hp' => ?_, fun k' => ?_⟩
    · rw [hheap, Function.update_of_ne hps.symm, Function.update_self]
      exact Option.some_ne_none _
    · rw [hheap]
      by_cases hxp : x = p
      · rw [hxp, Function.update_self, hsymp]
        rfl
      · rw [Function.update_of_ne hxp, Function.update_of_ne hx]
    · cases hp'
      rw [prevOf, hheap, Function.update_self]
      rfl
    · have hpp : p' ≠ p := fun h => hne (by rw [h])
      rw [prevOf, prevOf, hheap, Function.update_of_ne hpp, Function.update_of_ne hp']
    · rw [if_neg fun h => by cases h.1]
      rfl

theorem Refines.linking {s : SymId} {k : Key} {st' : SymTab} (h : Refines c a base)
    (hs : c.st.heap s = none) (hok : GlobalPushOk c.st.heap a k)
    (hlink : Linking c.st st' k (lastLive k a.entries) s) :
    Refines { c with st := st' } { a with globals := (k, s) :: a.globals } (s :: base) := by
  obtain ⟨hids, hbase⟩ := h.notMem hs
  have hself : globalLookup ((k, s) :: a.globals) k = some s := if_pos rfl
  have hother : ∀ k', k' ≠ k →
      globalLookup ((k, s) :: a.globals) k' = globalLookup a.globals k' := fun k' hk =>
    if_neg fun h' => hk h'.symm
  have hbehind : Behind (prevOf c.st.heap) (prevOf st'.heap) (globalLookup a.globals)
      (globalLookup ((k, s) :: a.globals)) k (lastLive k a.entries) s :=
    ⟨hself, hother, hlink.same_link, hlink.other_link⟩
  have hnodup : (ids a.entries).Nodup := (List.nodup_append.1 h.nodup).1
  have hnil : a.inFunction = false → a.entries = [] := fun hf => by
    refine h.noEntries ?_
    rw [Scopes.inner, hf, hok.outside.resolve_left (by rw [hf]; exact Bool.false_ne_true)]
    rfl
  refine
    { onLocal := ?_, inFunction := fun hf => ?_, outside := fun hf => ?_, noEntries := h.noEntries,
      marks_pos := h.marks_pos, marks_last := h.marks_last, nodup := ?_, alloc := fun x hx => ?_,
      named := fun e he => ?_, globals := ?_, table := fun k' => ?_,
      linked := h.linked.behind hbehind (List.nil_append _).symm hnodup hids, marks := ?_ }
  · show SymTab.onLocal st' = a.inFunction
    rw [SymTab.onLocal, hlink.localStack]
    exact h.onLocal
  · show st'.localStack = _ ∧ st'.globalStack = _
    rw [hlink.localStack, hlink.globalStack, (h.inFunction hf).2]
    exact ⟨(h.inFunction hf).1, rfl⟩
  · show st'.globalStack = ids a.entries ++ _
    rw [hlink.globalStack, h.outside hf, hnil hf]
    rfl
  · rw [List.nodup_append_comm, List.cons_append, List.nodup_cons, List.nodup_append_comm]
    refine ⟨?_, h.nodup⟩
    rw [List.mem_append, not_or]
    exact ⟨hbase, hids⟩
  · rcases List.mem_cons.1 hx with rfl | hx
    · exact hlink.new
    · have hne : x ≠ s := fun h' => hbase (h' ▸ hx)
      intro hnone
      have hv := hlink.names x hne
      rw [hnone] at hv
      exact h.alloc x hx (Option.map_eq_none_iff.1 hv.symm)
  · obtain ⟨sym, hsym, hkey⟩ := h.named e he
    have hne : e.id ≠ s := fun h' => hids (h' ▸ List.mem_map_of_mem he)
    have hv := hlink.names e.id hne
    rw [hsym] at hv
    obtain ⟨sym', hsym', hv'⟩ := Option.map_eq_some_iff.1 hv
    exact ⟨sym', hsym', by rw [hv', hkey]⟩
  · refine List.forall_mem_cons.2 ⟨List.mem_cons_self, fun d hd => ?_⟩
    exact List.mem_cons_of_mem _ (h.globals d hd)
  · show st'.table k' = look (globalLookup ((k, s) :: a.globals)) k' a.entries
    rw [hlink.table k']
    by_cases hk : k' = k
    · subst hk
      by_cases hnone : lastLive k' a.entries = none
      · rw [if_pos ⟨hnone, rfl⟩, look_of_lastLive_eq_none hnone, hself]
      · rw [if_neg fun h' => hnone h'.1, h.table k', Scopes.lookup, look_of_lastLive_ne_none hnone]
    · rw [if_neg fun h' => hk h'.2, h.table k', Scopes.lookup, look_congr (hother k' hk).symm]
  · have hmarks := h.marks.behind hbehind (List.nil_append _).symm hnodup hids hok.oldest_live
    cases hf : a.inFunction with
    | true =>
      rw [hf] at hmarks
      exact hmarks
    | false =>
      have ham := hok.outside.resolve_left (by rw [hf]; exact Bool.false_ne_true)
      show MarksOk (prevOf st'.heap) _ _ a.entries c.marks a.marks
      rw [ham] at hmarks ⊢
      cases hm : c.marks with
      | nil =>
        rw [hm] at hmarks
        exact hmarks
      | cons b bs =>
        rw [hm] at hmarks
        exact hmarks.elim

/-- The loop of `global_identifier_push` ends behind the live declarations in open scopes. -/
theorem Refines.walk {tok : Nat} (h : Refines c a base)
    (hok : GlobalPushOk c.st.heap a (.ident tok)) :
    SymTab.insertPlace c.st.heap (c.st.localStack.length + c.st.globalStack.length + 1) none
        (c.st.table (.ident tok))
      = .ok (lastLive (.ident tok) a.entries, globalLookup a.globals (.ident tok)) := by
  have hglobal : ∀ s', globalLookup a.globals (.ident tok) = some s' →
      ∃ sym, c.st.heap s' = some sym ∧ sym.symScope = 0 := by
    intro s' hs'
    obtain ⟨d, hd, rfl⟩ := globalLookup_mem hs'
    obtain ⟨sym, hsym⟩ := Option.ne_none_iff_exists'.1 (h.alloc d.2 (h.globals d hd))
    exact ⟨sym, hsym, hok.global_scope d.2 hs' sym hsym⟩
  have hfuel : a.entries.length < c.st.localStack.length + c.st.globalStack.length + 1 := by
    cases hf : a.inFunction with
    | true =>
      rw [(h.inFunction hf).1, List.length_map]
      omega
    | false =>
      rw [h.outside hf, List.length_append, List.length_map]
      omega
  have hwalk := insertPlace_eq h.linked h.named hfuel hok.local_scope hglobal none
  rw [Option.or_none] at hwalk
  rw [h.table]
  exact hwalk

/-- `global_identifier_push` of a name. -/
theorem Refines.globalPush {s : SymId} {tok : Nat} (h : Refines c a base) (hs : c.st.heap s = none)
    (htok : tok < symFirstAnom) (hok : GlobalPushOk c.st.heap a (.ident tok)) :
    ∃ st, c.st.globalIdentifierPush s tok = .ok st ∧
      Refines { c with st } { a with globals := (.ident tok, s) :: a.globals } (s :: base) := by
  obtain ⟨hids, -⟩ := h.notMem hs
  let sym : Sym :=
    { v := { tok, isStruct := false, isField := false }, symScope := 0, refScope := none,
      prevTok := globalLookup a.globals (.ident tok) }
  refine ⟨_, ?_, h.linking hs hok (linking_setPlace sym fun p hp => ?_)⟩
  · rw [SymTab.globalIdentifierPush]
    dsimp only
    rw [if_pos htok, h.walk hok]
    show (c.st.symMalloc s _ >>= fun st' => _) = _
    rw [SymTab.symMalloc, if_pos hs]
    rfl
  · obtain ⟨e, he, rfl, -, -⟩ := lastLive_mem hp
    refine ⟨fun h' => hids (h' ▸ List.mem_map_of_mem he), ?_⟩
    exact h.heap_ne_none (List.mem_append_left _ (List.mem_map_of_mem he))

end Step

end TccRiscv64.Scope
