import TccRiscv64.Scope.Refines

set_option autoImplicit false

/-! # Runs of declarations

Every operation keeps the relation between the tables and the scopes, so lookup finds the innermost
live declaration in every state of a run, and a scope that is left brings back what names stood for
before it. -/

namespace TccRiscv64.Scope

variable {c c' : Config} {a : Scopes} {base : List SymId}

/-- The result of an operation: tables for the scopes, or a stop for another reason than the use of a
null or freed pointer. -/
def Good (a : Scopes) : Except Stop Config → Prop
  | .ok c => ∃ base, Refines c a base
  | .error e => e ≠ .fault

/-- The condition on an operation. -/
def OpOk (c : Config) (a : Scopes) : Op → Prop
  | .globalPush _ tok => tok < symFirstAnom → GlobalPushOk c.st.heap a (.ident tok)
  | _ => True

/-! ## Single operations -/

theorem look_mem {g : Key → Option SymId} {k : Key} {entries : List Entry} {s : SymId}
    (h : look g k entries = some s) : s ∈ ids entries ∨ g k = some s := by
  induction entries with
  | nil => exact Or.inr h
  | cons e rest ih =>
    rw [look] at h
    split at h
    · cases h
      exact Or.inl List.mem_cons_self
    · exact (ih h).imp_left (List.mem_cons_of_mem _)

/-- What lookup finds is allocated. -/
theorem Refines.table_alloc (h : Refines c a base) {k : Key} {p : SymId}
    (hp : c.st.table k = some p) : c.st.heap p ≠ none := by
  rw [h.table k] at hp
  rcases look_mem hp with hp | hp
  · exact h.heap_ne_none (List.mem_append_left _ hp)
  · obtain ⟨d, hd, rfl⟩ := globalLookup_mem hp
    exact h.alloc d.2 (h.globals d hd)

/-- The tables with a new symbol on a stack. -/
def withSym (st : SymTab) (onLocal : Bool) (s : SymId) (sym : Sym) : SymTab :=
  SymTab.addTo { st with heap := Function.update st.heap s (some sym) } onLocal s

/-- What `sym_push2` leaves in the symbol. -/
def blankSym (v : SymTok) : Sym := { v, symScope := 0, refScope := none, prevTok := none }

theorem symPush2_eq (st : SymTab) (onLocal : Bool) (s : SymId) (v : SymTok) :
    st.symPush2 onLocal s v
      = if st.heap s = none then .ok (withSym st onLocal s (blankSym v)) else .error .nesting := by
  rw [SymTab.symPush2, SymTab.symMalloc]
  split <;> rfl

/-- A symbol that is not recorded, on the stack of `sym_push`, is a declaration without a name. -/
theorem declares_withSym {s : SymId} {sym : Sym} (hs : c.st.heap s = none)
    (hkey : sym.v.key = none) :
    Declares c { c with st := withSym c.st c.st.onLocal s sym } s none sym where
  free := hs
  heap := SymTab.addTo_heap _ _ _
  named := hkey
  prevTok k hk := by cases hk
  localStack := SymTab.addTo_localStack _ _ _
  globalStack := SymTab.addTo_globalStack _ _ _
  table k := by
    show (SymTab.addTo _ _ _).table k = _
    rw [SymTab.addTo_table, if_neg fun h => by cases h]
  marks := rfl

/-- On `global_stack`, while a function is compiled, it is in no open scope. -/
theorem addsGlobal_blankSym {s : SymId} {v : SymTok} (hs : c.st.heap s = none) :
    AddsGlobal c { c with st := withSym c.st false s (blankSym v) } s (blankSym v) where
  free := hs
  heap := rfl
  localStack := rfl
  globalStack := rfl
  table := rfl
  marks := rfl

/-- `sym_push2` of a symbol that is not recorded. -/
theorem Refines.push2 (h : Refines c a base) (onLocal : Bool) (s : SymId) {v : SymTok}
    (hv : v.key = none) (hon : onLocal = true → c.st.onLocal = true) :
    Good (if onLocal = a.inFunction then a.declare s none else a)
      (do pure { c with st := ← c.st.symPush2 onLocal s v }) := by
  rw [symPush2_eq]
  by_cases hs : c.st.heap s = none
  · rw [if_pos hs]
    by_cases hfun : onLocal = a.inFunction
    · rw [if_pos hfun, hfun, ← h.onLocal]
      exact h.declares (declares_withSym hs hv)
    · have hfalse : onLocal = false := by
        cases hb : onLocal with
        | false => rfl
        | true => rw [hb, ← h.onLocal, hon hb] at hfun; exact absurd rfl hfun
      have hin : a.inFunction = true := by
        rw [hfalse] at hfun
        cases hf : a.inFunction with
        | true => rfl
        | false => exact absurd hf.symm hfun
      rw [if_neg hfun, hfalse]
      exact ⟨_, h.addsGlobal (addsGlobal_blankSym hs) (Or.inl hin) (Or.inl hin)⟩
  · rw [if_neg hs]
    exact fun h' => by cases h'

/-- The tables with a recorded symbol on the stack of `sym_push`. -/
def withNamed (st : SymTab) (k : Key) (s : SymId) (sym : Sym) : SymTab :=
  let st' := withSym st st.onLocal s sym
  { st' with table := Function.update st'.table k (some s) }

theorem declares_withNamed (sym : Sym) {s : SymId} {k : Key} (hs : c.st.heap s = none)
    (hkey : sym.v.key = some k) (hprev : sym.prevTok = c.st.table k) :
    Declares c { c with st := withNamed c.st k s sym } s (some k) sym where
  free := hs
  heap := SymTab.addTo_heap _ _ _
  named := hkey
  prevTok k' hk' := by
    cases hk'
    exact hprev
  localStack := SymTab.addTo_localStack _ _ _
  globalStack := SymTab.addTo_globalStack _ _ _
  table k' := by
    show Function.update (withSym c.st c.st.onLocal s sym).table k (some s) k' = _
    rw [withSym, SymTab.addTo_table]
    by_cases hk : k = k'
    · rw [if_pos (by rw [hk]), hk, Function.update_self]
    · rw [if_neg fun h => hk (Option.some.inj h), Function.update_of_ne fun h => hk h.symm]
  marks := rfl

/-- What `sym_push` leaves in a recorded symbol. -/
def pushedSym (st : SymTab) (k : Key) (v : SymTok) (refScope : Option (BitVec 32)) : Sym :=
  { v, symScope := st.localScope, refScope, prevTok := st.table k }

theorem symPush_eq (h : Refines c a base) (s : SymId) {v : SymTok} {k : Key} (hk : v.key = some k)
    (refScope : Option (BitVec 32)) :
    c.st.symPush s v refScope = .ok (withNamed c.st k s (pushedSym c.st k v refScope))
        ∧ c.st.heap s = none
      ∨ ∃ e, c.st.symPush s v refScope = .error e ∧ e ≠ .fault := by
  rw [SymTab.symPush, hk]
  dsimp only
  rw [SymTab.symMalloc]
  by_cases hs : c.st.heap s = none
  · rw [if_pos hs]
    cases hp : c.st.table k with
    | none =>
      refine Or.inl ⟨?_, hs⟩
      rw [pushedSym, hp]
      rfl
    | some p =>
      obtain ⟨sym, hsym⟩ := Option.ne_none_iff_exists'.1 (h.table_alloc hp)
      simp only [bind, Except.bind, hsym]
      by_cases hscope : SymTab.scopeOf sym = c.st.localScope
      · rw [if_pos hscope]
        exact Or.inr ⟨_, rfl, fun h' => by cases h'⟩
      · rw [if_neg hscope]
        refine Or.inl ⟨?_, hs⟩
        rw [pushedSym, hp]
        rfl
  · rw [if_neg hs]
    exact Or.inr ⟨_, rfl, fun h' => by cases h'⟩

/-- `sym_push`, also of an enumeration constant. -/
theorem Refines.push (h : Refines c a base) (s : SymId) (v : SymTok) :
    Good (a.declare s v.key) (do pure { c with st := ← c.st.symPush s v none }) := by
  cases hk : v.key with
  | none =>
    have hgood := h.push2 c.st.onLocal s hk id
    rw [if_pos h.onLocal] at hgood
    rw [SymTab.symPush, hk]
    exact hgood
  | some k =>
    rcases symPush_eq h s hk none with ⟨hpush, hs⟩ | ⟨e, hpush, he⟩
    · rw [hpush]
      exact h.declares (declares_withNamed _ hs hk rfl)
    · rw [hpush]
      exact he

/-- The value of an enumeration constant takes the place of `sym_scope` only. -/
theorem Declares.setEnumVal {s : SymId} {key : Option Key} {sym : Sym} (h : Declares c c' s key sym)
    (value : BitVec 64) :
    Declares c { c' with st := c'.st.setEnumVal s value } s key
      { sym with symScope := value.extractLsb' 32 32 } where
  free := h.free
  heap := by
    show Function.update c'.st.heap s ((c'.st.heap s).map fun sym => _) = _
    rw [h.heap, Function.update_self, Function.update_idem]
    rfl
  named := h.named
  prevTok := h.prevTok
  localStack := h.localStack
  globalStack := h.globalStack
  table := h.table
  marks := h.marks

theorem Refines.pushEnum (h : Refines c a base) (s : SymId) (v : SymTok) (refScope : BitVec 32)
    (value : BitVec 64) :
    Good (a.declare s v.key) (c.exec (.pushEnum s v refScope value)) := by
  rw [Config.exec]
  cases hk : v.key with
  | none =>
    rw [SymTab.symPush, hk]
    dsimp only
    rw [symPush2_eq]
    by_cases hs : c.st.heap s = none
    · rw [if_pos hs]
      exact h.declares ((declares_withSym hs hk).setEnumVal value)
    · rw [if_neg hs]
      exact fun h' => by cases h'
  | some k =>
    rcases symPush_eq h s hk (some refScope) with ⟨hpush, hs⟩ | ⟨e, hpush, he⟩
    · rw [hpush]
      exact h.declares ((declares_withNamed _ hs hk rfl).setEnumVal value)
    · rw [hpush]
      exact he

/-- `sym_copy` to `local_stack`. -/
theorem Refines.copy (h : Refines c a base) (s s0 : SymId) (v : SymTok) :
    Good (a.declare s v.key) (c.exec (.copy s s0 v)) := by
  rw [Config.exec]
  split
  · next hguard =>
    obtain ⟨hon, -, hs0⟩ := hguard
    obtain ⟨sym, hsym, hv⟩ := Option.map_eq_some_iff.1 hs0
    rw [SymTab.symCopy, hsym]
    dsimp only
    rw [← hv]
    cases hk : sym.v.key with
    | none =>
      dsimp only
      rw [SymTab.symMalloc]
      by_cases hs : c.st.heap s = none
      · rw [if_pos hs]
        have hd := declares_withSym hs hk
        rw [hon] at hd
        exact h.declares hd
      · rw [if_neg hs]
        exact fun h' => by cases h'
    | some k =>
      dsimp only
      rw [SymTab.symMalloc]
      by_cases hs : c.st.heap s = none
      · rw [if_pos hs]
        have hd := declares_withNamed { sym with prevTok := c.st.table k } hs hk rfl
        rw [withNamed, hon] at hd
        exact h.declares hd
      · rw [if_neg hs]
        exact fun h' => by cases h'
  · exact fun h' => by cases h'

theorem Refines.localScope (h : Refines c a base) (localScope : BitVec 32) :
    Refines { c with st := { c.st with localScope } } a base :=
  { h with }

theorem Refines.marks_eq_nil (h : Refines c a base) (hmarks : c.marks = []) : a.marks = [] := by
  have hok := h.marks
  rw [hmarks] at hok
  cases hm : a.marks with
  | nil => rfl
  | cons m ms =>
    rw [hm] at hok
    exact hok.elim

/-- The beginning of a function, at its dummy symbol. -/
theorem Refines.enterFunction (h : Refines c a base) (hon : c.st.onLocal = false)
    (hmarks : c.marks = []) {s : SymId} {v : SymTok} (hv : v.key = none) (hs : c.st.heap s = none) :
    Refines { c with st := withSym c.st true s (blankSym v) }
      { a with inFunction := true, entries := [⟨s, none, true⟩] } base := by
  have hf : a.inFunction = false := by rw [← h.onLocal, hon]
  have ham := h.marks_eq_nil hmarks
  have hnil : a.entries = [] := h.noEntries (by rw [Scopes.inner, hf, ham]; rfl)
  have hlocal : c.st.localStack = [] := by
    rw [SymTab.onLocal, decide_eq_false_iff_not, not_not] at hon
    exact hon
  obtain ⟨-, hbase⟩ := h.notMem hs
  have hother : ∀ s' ∈ base, s' ≠ s := fun s' hs' h' => hbase (h' ▸ hs')
  refine
    { onLocal := rfl, inFunction := fun _ => ⟨?_, ?_⟩, outside := fun hf' => (by cases hf'),
      noEntries := fun hi => (by cases hi), marks_pos := fun _ m hm => ?_,
      marks_last := fun hf' => (by cases hf'), nodup := ?_, alloc := fun s' hs' => ?_, named := ?_,
      globals := h.globals, table := fun k => ?_, linked := ?_, marks := ?_ }
  · show s :: c.st.localStack = _
    rw [hlocal]
    rfl
  · show c.st.globalStack = base
    rw [h.outside hf, hnil]
    rfl
  · rw [ham] at hm
    cases hm
  · have hnodup := h.nodup
    rw [hnil] at hnodup
    exact List.nodup_cons.2 ⟨hbase, hnodup⟩
  · show Function.update c.st.heap s _ s' ≠ none
    rw [Function.update_of_ne (hother s' hs')]
    exact h.alloc s' hs'
  · intro e he
    obtain rfl := List.mem_singleton.1 he
    exact ⟨_, Function.update_self _ _ _, hv⟩
  · show c.st.table k = look _ k [_]
    rw [h.table k, Scopes.lookup, hnil]
    exact (if_neg (by simp)).symm
  · exact ⟨fun k _ hk => (by cases hk), trivial⟩
  · rw [hmarks, ham]
    intro k e he
    obtain ⟨hmem, hkey⟩ := oldest_mem he
    obtain rfl := List.mem_singleton.1 hmem
    cases hkey

/-- The end of a function. -/
theorem Refines.leaveFunction (h : Refines c a base) (hon : c.st.onLocal = true)
    (hmarks : c.marks = []) :
    ∃ st, c.st.symPop true none false = .ok st ∧
      Refines { c with st } { a with inFunction := false, entries := [] } base := by
  have hf : a.inFunction = true := by rw [← h.onLocal, hon]
  have ham := h.marks_eq_nil hmarks
  have hlocal := (h.inFunction hf).1
  rw [← List.append_nil (ids a.entries)] at hlocal
  have hrestores := h.marks
  rw [hmarks, ham] at hrestores
  have hnodup := h.nodup
  obtain ⟨st', hpopped, hpop⟩ := symPop_eq false true hlocal h.named
    (by rw [List.append_nil]; exact (List.nodup_append.1 hnodup).1) rfl
  have hnamed : Named c.st.heap (a.entries ++ []) := by rw [List.append_nil]; exact h.named
  have hleft := hpopped.left hrestores hnamed h.alloc
    hnodup fun k => by rw [h.table k, Scopes.lookup, List.append_nil]
  refine ⟨_, hpop, ?_⟩
  refine
    { onLocal := rfl, inFunction := fun hf' => (by cases hf'), outside := fun _ => ?_,
      noEntries := fun _ => rfl, marks_pos := fun hf' => (by cases hf'), marks_last := fun _ m hm => ?_,
      nodup := (List.nodup_append.1 hnodup).2.1, alloc := hleft.alloc,
      named := fun e he => (by cases he), globals := h.globals, table := hleft.table,
      linked := trivial, marks := ?_ }
  · exact (h.inFunction hf).2
  · rw [ham] at hm
    cases hm
  · rw [hmarks, ham]
    exact restores_nil

/-- Every operation keeps the relation, and uses no null or freed pointer. -/
theorem Refines.exec (h : Refines c a base) (op : Op) (hop : OpOk c a op) :
    Good (a.step op) (c.exec op) := by
  cases op with
  | push s v => exact h.push s v
  | pushEnum s v refScope value => exact h.pushEnum s v refScope value
  | copy s s0 v => exact h.copy s s0 v
  | globalPush s tok =>
    rw [Config.exec, Scopes.step]
    by_cases htok : tok < symFirstAnom
    · rw [if_pos htok]
      by_cases hs : c.st.heap s = none
      · obtain ⟨st, hst, hrefines⟩ := h.globalPush hs htok (hop htok)
        rw [hst]
        exact ⟨_, hrefines⟩
      · have hst : c.st.globalIdentifierPush s tok = .error .nesting := by
          rw [SymTab.globalIdentifierPush]
          dsimp only
          rw [if_pos htok, h.walk (hop htok)]
          show (c.st.symMalloc s _ >>= fun st' => _) = _
          rw [SymTab.symMalloc, if_neg hs]
          rfl
        rw [hst]
        exact fun h' => by cases h'
    · have hv : ({ tok, isStruct := false, isField := false } : SymTok).key = none :=
        if_neg fun h' => htok h'.2
      have hgood := h.push2 false s hv fun h' => by cases h'
      rw [if_neg htok, SymTab.globalIdentifierPush]
      dsimp only
      rw [if_neg htok]
      cases hf : a.inFunction with
      | true =>
        rw [hf, if_neg Bool.false_ne_true] at hgood
        exact hgood
      | false =>
        rw [hf, if_pos rfl] at hgood
        exact hgood
  | push2 onLocal s v =>
    rw [Config.exec]
    by_cases hguard : v.key = none ∧ (onLocal = true → c.st.onLocal = true)
    · rw [if_pos hguard]
      exact h.push2 onLocal s hguard.1 hguard.2
    · rw [if_neg hguard]
      exact fun h' => by cases h'
  | enter => exact ⟨_, h.enter _⟩
  | leave keep =>
    rw [Config.exec]
    cases hm : c.marks with
    | nil => exact fun h' => by cases h'
    | cons b bs =>
      obtain ⟨st, base', hst, hrefines⟩ := h.leave hm keep fun st => st.localScope - 1
      dsimp only
      rw [hst]
      exact ⟨base', hrefines⟩
  | enterFunction s v =>
    rw [Config.exec]
    split
    · next hguard =>
      rw [symPush2_eq]
      by_cases hs : c.st.heap s = none
      · rw [if_pos hs]
        exact ⟨_, (h.enterFunction hguard.1 hguard.2.1 hguard.2.2 hs).localScope 1⟩
      · rw [if_neg hs]
        exact fun h' => by cases h'
    · exact fun h' => by cases h'
  | startBody =>
    rw [Config.exec]
    split
    · exact ⟨_, h.localScope 0⟩
    · exact fun h' => by cases h'
  | leaveFunction =>
    rw [Config.exec]
    split
    · next hguard =>
      obtain ⟨st, hst, hrefines⟩ := h.leaveFunction hguard.1 hguard.2
      rw [hst]
      exact ⟨_, hrefines.localScope 0⟩
    · exact fun h' => by cases h'

/-! ## Runs -/

/-- Operations one after the other, each under its condition, on the tables and on the scopes. -/
inductive Run : Config → Scopes → List Op → Config → Scopes → Prop
  | nil {c : Config} {a : Scopes} : Run c a [] c a
  | cons {c c1 c' : Config} {a a' : Scopes} {op : Op} {ops : List Op} (hop : OpOk c a op)
      (hexec : c.exec op = .ok c1) (hrun : Run c1 (a.step op) ops c' a') : Run c a (op :: ops) c' a'

theorem Run.append {ops ops' : List Op} {a' : Scopes} (h : Run c a (ops ++ ops') c' a') :
    ∃ c1 a1, Run c a ops c1 a1 ∧ Run c1 a1 ops' c' a' := by
  induction ops generalizing c a with
  | nil => exact ⟨c, a, .nil, h⟩
  | cons op ops ih =>
    cases h with
    | cons hop hexec hrun =>
      obtain ⟨c1, a1, hfirst, hsecond⟩ := ih hrun
      exact ⟨c1, a1, .cons hop hexec hfirst, hsecond⟩

theorem Refines.step (h : Refines c a base) {op : Op} (hop : OpOk c a op)
    (hexec : c.exec op = .ok c') : ∃ base', Refines c' (a.step op) base' := by
  have hgood := h.exec op hop
  rw [hexec] at hgood
  exact hgood

theorem Refines.run {ops : List Op} {a' : Scopes} (h : Refines c a base)
    (hrun : Run c a ops c' a') : ∃ base', Refines c' a' base' := by
  induction hrun generalizing base with
  | nil => exact ⟨base, h⟩
  | cons hop hexec _ ih =>
    obtain ⟨base', h'⟩ := h.step hop hexec
    exact ih h'

/-- Operations that open and leave no scope. -/
def Op.IsPlain : Op → Prop
  | .push _ _ | .pushEnum _ _ _ _ | .copy _ _ _ | .globalPush _ _ | .push2 _ _ _ | .startBody => True
  | _ => False

/-- Operations that leave the scopes and functions that they open. -/
inductive Nested : List Op → Prop
  | nil : Nested []
  | plain {op ops} (hop : op.IsPlain) (hops : Nested ops) : Nested (op :: ops)
  | scope {body keep ops} (hbody : Nested body) (hops : Nested ops) :
      Nested (.enter :: body ++ .leave keep :: ops)
  | function {s v body ops} (hbody : Nested body) (hops : Nested ops) :
      Nested (.enterFunction s v :: body ++ .leaveFunction :: ops)

/-- The global identifiers that are pushed, the last one first. -/
def pushedGlobals : List Op → List (Key × SymId)
  | [] => []
  | .globalPush s tok :: ops =>
    pushedGlobals ops ++ if tok < symFirstAnom then [(.ident tok, s)] else []
  | _ :: ops => pushedGlobals ops

theorem pushedGlobals_append (ops ops' : List Op) :
    pushedGlobals (ops ++ ops') = pushedGlobals ops' ++ pushedGlobals ops := by
  induction ops with
  | nil => rw [List.nil_append, pushedGlobals, List.append_nil]
  | cons op ops ih =>
    cases op
    case globalPush s tok =>
      rw [List.cons_append, pushedGlobals, pushedGlobals, ih, List.append_assoc]
    all_goals exact ih

/-- What operations in an open scope do to the scopes: entries are added in front, and global
identifiers. -/
structure Extends (a a' : Scopes) (ops : List Op) : Prop where
  marks : a'.marks = a.marks
  inFunction : a'.inFunction = a.inFunction
  entries : ∃ new, a'.entries = new ++ a.entries
  globals : a'.globals = pushedGlobals ops ++ a.globals

theorem extends_plain {op : Op} (hop : op.IsPlain) (hinner : a.inner = true) :
    Extends a (a.step op) [op] := by
  have hdeclare : ∀ s key, pushedGlobals [op] = [] → Extends a (a.declare s key) [op] := by
    intro s key hpushed
    rw [Scopes.declare_of_inner hinner]
    exact ⟨rfl, rfl, ⟨[_], rfl⟩, by rw [hpushed]; rfl⟩
  cases op with
  | push s v => exact hdeclare s v.key rfl
  | pushEnum s v refScope value => exact hdeclare s v.key rfl
  | copy s s0 v => exact hdeclare s v.key rfl
  | globalPush s tok =>
    rw [Scopes.step]
    by_cases htok : tok < symFirstAnom
    · rw [if_pos htok]
      refine ⟨rfl, rfl, ⟨[], rfl⟩, ?_⟩
      rw [pushedGlobals, if_pos htok]
      rfl
    · rw [if_neg htok]
      have hpushed : pushedGlobals [.globalPush s tok] = [] := by
        rw [pushedGlobals, if_neg htok]
        rfl
      split
      · exact ⟨rfl, rfl, ⟨[], rfl⟩, by rw [hpushed]; rfl⟩
      · exact hdeclare s none hpushed
  | push2 onLocal s v =>
    rw [Scopes.step]
    split
    · exact hdeclare s none rfl
    · exact ⟨rfl, rfl, ⟨[], rfl⟩, rfl⟩
  | startBody => exact ⟨rfl, rfl, ⟨[], rfl⟩, rfl⟩
  | enter | leave keep | enterFunction s v | leaveFunction => exact hop.elim

theorem Extends.inner {a' : Scopes} {ops : List Op} (h : Extends a a' ops) (hinner : a.inner = true) :
    a'.inner = true := by
  rw [Scopes.inner, h.inFunction, h.marks]
  exact hinner

theorem Extends.trans {a' a'' : Scopes} {ops ops' : List Op} (h : Extends a a' ops)
    (h' : Extends a' a'' ops') : Extends a a'' (ops ++ ops') where
  marks := by rw [h'.marks, h.marks]
  inFunction := by rw [h'.inFunction, h.inFunction]
  entries := by
    obtain ⟨new, hnew⟩ := h.entries
    obtain ⟨new', hnew'⟩ := h'.entries
    exact ⟨new' ++ new, by rw [hnew', hnew, List.append_assoc]⟩
  globals := by rw [h'.globals, h.globals, pushedGlobals_append, List.append_assoc]

/-- A scope inside an open one, with the operations in it. -/
theorem Extends.leave {a' : Scopes} {body : List Op} {keep : Bool} (hinner : a.inner = true)
    (h : Extends (a.step .enter) a' body) :
    Extends a (a'.step (.leave keep)) (.enter :: body ++ [.leave keep]) := by
  obtain ⟨new, hnew⟩ := h.entries
  have hopen : a'.inFunction = true ∨ a.marks ≠ [] := by
    rw [h.inFunction]
    rw [Scopes.inner, Bool.or_eq_true] at hinner
    refine hinner.imp_right fun hm hnil => ?_
    rw [hnil] at hm
    cases hm
  have hmarks : a'.marks = a.entries.length :: a.marks := h.marks
  have hstep : a'.step (.leave keep)
      = { a' with entries := leftOf keep new ++ a.entries, marks := a.marks } := by
    rw [Scopes.step, hmarks]
    dsimp only
    rw [if_pos hopen, hnew]
    show ({ a' with entries := Scopes.cut (new ++ a.entries) _ _, marks := _ } : Scopes) = _
    rw [cut_eq rfl]
    rfl
  rw [hstep]
  refine ⟨rfl, h.inFunction, ⟨_, rfl⟩, ?_⟩
  show a'.globals = _
  rw [h.globals, pushedGlobals_append]
  rfl

/-- Nested operations in an open scope. -/
theorem Nested.extends {ops : List Op} (hops : Nested ops) {a' : Scopes}
    (hrun : Run c a ops c' a') (h : Refines c a base) (hinner : a.inner = true) :
    Extends a a' ops := by
  induction hops generalizing c a c' a' base with
  | nil =>
    cases hrun
    exact ⟨rfl, rfl, ⟨[], rfl⟩, rfl⟩
  | @plain op ops hop hops ih =>
    cases hrun with
    | cons hopok hexec hrun =>
      obtain ⟨base', h'⟩ := h.step hopok hexec
      have hfirst := extends_plain hop hinner
      exact hfirst.trans (ih hrun h' (hfirst.inner hinner))
  | @scope body keep ops hbody hops ihbody ihops =>
    cases hrun with
    | cons hopok hexec hrun =>
      obtain ⟨base1, h1⟩ := h.step hopok hexec
      obtain ⟨c2, a2, hrunBody, hrunRest⟩ := hrun.append
      have hinner1 : (a.step .enter).inner = true := by
        simp [Scopes.step, Scopes.inner]
      have hextends := ihbody hrunBody h1 hinner1
      obtain ⟨base2, h2⟩ := h1.run hrunBody
      cases hrunRest with
      | cons hopok' hexec' hrun' =>
        obtain ⟨base3, h3⟩ := h2.step hopok' hexec'
        have hscope : Extends a (a2.step (.leave keep)) _ := hextends.leave hinner
        have hall := hscope.trans (ihops hrun' h3 (hscope.inner hinner))
        rw [List.append_assoc] at hall
        exact hall
  | function hbody hops ihbody ihops =>
    cases hrun with
    | cons hopok hexec hrun =>
      rw [Config.exec] at hexec
      split at hexec
      · next hguard =>
        rw [Scopes.inner, ← h.onLocal, hguard.1, h.marks_eq_nil hguard.2.1] at hinner
        cases hinner
      · cases hexec

/-- What a name stands for once a scope is left: what it stood for before the scope, or the last
global identifier pushed in it if no declaration in an open scope hides that. -/
def restored (c : Config) (a : Scopes) (body : List Op) (k : Key) : Option SymId :=
  if a.entries.any fun e => e.live && e.key = some k then c.st.table k
  else (globalLookup (pushedGlobals body) k).or (c.st.table k)

end TccRiscv64.Scope
