import TccRiscv64.Gen.StatementsParts

set_option autoImplicit false

/-! # The code of statements is built

What `block` emits for a statement is code for it in the end, when all chains are patched. -/

namespace TccRiscv64.Gen.Flow

open TccRiscv64.Data TccRiscv64.Data.Backpatch TccRiscv64.Data.Backpatch.Code

variable {L K N S : Type}

/-! ## Chains of a function -/

/-- The jumps in the chains of a function. -/
structure Sites (N : Type) where
  brk : List Nat
  cont : List Nat
  ret : List Nat
  label : N → List Nat

def Label.chain : Label → Nat
  | .forward t => t
  | .defined _ => 0

def Label.place? : Label → Option Nat
  | .forward _ => none
  | .defined a => some a

namespace FunState

variable (s : FunState L K N)

def chains (g : Sites N) : List (Nat × List Nat) :=
  (s.bsym.getD 0, g.brk) :: (s.csym.getD 0, g.cont) :: (s.rsym, g.ret) ::
    s.labels.map fun x => (x.2.chain, g.label x.1)

/-- Where a label is, if it is defined. -/
def definedAt [DecidableEq N] (n : N) : Option Nat := (s.findLabel n).bind Label.place?

/-- The chains are those of the function, and `rest` around it. -/
structure Good (g : Sites N) (rest : List (Nat × List Nat)) : Prop where
  held : Held s.gen.code (s.chains g ++ rest)
  keys : (s.labels.map Prod.fst).Nodup
  nocode : s.gen.nocode = 0
  ind : s.gen.code.ind ≠ 0

end FunState

/-- The chains are patched in the end: `break`, `continue`, `return` and `goto` go to their
places. -/
structure Resolved [DecidableEq N] (P : Nat → Slot (Instr L K)) (fin : Nat) (lab : N → Option Nat)
    (env : Env) (s : FunState L K N) (g : Sites N) : Prop where
  brk : ∀ t, s.bsym = some t → ∃ q, env.brk = some q ∧ GenState.Chained P t g.brk q
  cont : ∀ t, s.csym = some t → ∃ q, env.cont = some q ∧ GenState.Chained P t g.cont q
  ret : Lead P g.ret fin
  forward : ∀ n t, s.findLabel n = some (.forward t) →
    ∃ a, lab n = some a ∧ Lead P (g.label n) a
  defined : ∀ n a, s.findLabel n = some (.defined a) → lab n = some a
  cases : ∀ sw, s.curSwitch = some sw → env.cases = !sw.nocode

/-- What a statement adds to the cases of its switch and to the labels. -/
structure Enters [DecidableEq N] (s s' : FunState L K N) (ent : Entries K N) : Prop where
  switch : ∀ sw, s.curSwitch = some sw → ∃ sw', s'.curSwitch = some sw' ∧
    sw'.nocode = sw.nocode ∧ (sw.nocode = false → sw'.cases = sw.cases ++ ent.cases ∧
      sw'.defSym = sw.defSym.or ent.default)
  label : ∀ n, s'.definedAt n = (s.definedAt n).or (ent.label? n)

/-- `s'` is behind the code of a statement at `s`. -/
def Built [DecidableEq N] (sem : Sem L K S) (a : Stmt L K N) (last : Bool)
    (s s' : FunState L K N) : Prop :=
  ∀ g rest, s.Good g rest → ∃ g' ent, s'.Good g' rest ∧ Extends s.gen.code s'.gen.code ∧
    Enters s s' ent ∧ ∀ P fin lab env, Final P s'.gen.code → Resolved P fin lab env s' g' →
      (last = true → fin = s'.gen.code.ind) → Resolved P fin lab env s g ∧
        a.Laid sem P fin lab env s.gen.place s'.gen.place ent

section Lemmas

variable {P : Nat → Slot (Instr L K)} {fin : Nat} {lab : N → Option Nat}
  {env : Env} {s s' s'' : FunState L K N} {g g' : Sites N} {gen' : GenState L K}
  {rest rest' : List (Nat × List Nat)} {ent ent' : Entries K N} {t : Nat}
  {sites sites' : List Nat}

theorem FunState.Good.gen (h : s.Good g rest) (hheld : Held gen'.code (s.chains g ++ rest'))
    (hgrows : s.gen.Grows gen') : FunState.Good { s with gen := gen' } g rest' :=
  ⟨hheld, h.keys, hgrows.nocode.trans h.nocode, hgrows.ind_ne h.ind⟩

theorem FunState.Good.perm (h : s.Good g rest) (hperm : rest.Perm rest') : s.Good g rest' :=
  ⟨h.held.perm (hperm.append_left _), h.keys, h.nocode, h.ind⟩

theorem FunState.Good.cons_nil (h : s.Good g rest) : s.Good g ((0, []) :: rest) :=
  ⟨h.held.cons_nil.sink _, h.keys, h.nocode, h.ind⟩

theorem FunState.Good.tail {x : Nat × List Nat} (h : s.Good g (x :: rest)) : s.Good g rest :=
  ⟨(h.held.bring _).tail, h.keys, h.nocode, h.ind⟩

theorem perm_exchange {α : Type} (x y : α) (l l' : List α) :
    (x :: (l ++ y :: l')).Perm (y :: (l ++ x :: l')) :=
  (List.perm_middle.cons x).trans ((List.Perm.swap y x _).trans (List.perm_middle.symm.cons y))

/-- Another chain for `break`. -/
theorem FunState.Good.swapBrk {b : Option Nat} (h : s.Good g ((b.getD 0, sites) :: rest)) :
    FunState.Good { s with bsym := b } { g with brk := sites } ((s.bsym.getD 0, g.brk) :: rest) :=
  ⟨h.held.perm (perm_exchange _ _ _ _), h.keys, h.nocode, h.ind⟩

/-- Another chain for `continue`. -/
theorem FunState.Good.swapCont {c : Option Nat} (h : s.Good g ((c.getD 0, sites) :: rest)) :
    FunState.Good { s with csym := c } { g with cont := sites }
      ((s.csym.getD 0, g.cont) :: rest) :=
  ⟨h.held.perm ((perm_exchange _ _ _ _).cons _), h.keys, h.nocode, h.ind⟩

/-- Another chain for `return`. -/
theorem FunState.Good.swapRet (h : s.Good g ((t, sites) :: rest)) :
    FunState.Good { s with rsym := t } { g with ret := sites } ((s.rsym, g.ret) :: rest) :=
  ⟨h.held.perm (((perm_exchange _ _ _ _).cons _).cons _), h.keys, h.nocode, h.ind⟩

theorem FunState.Good.enterLoop (h : s.Good g ((t, sites) :: rest)) :
    FunState.Good { s with bsym := some t, csym := some 0 } { g with brk := sites, cont := [] }
      ((s.csym.getD 0, g.cont) :: (s.bsym.getD 0, g.brk) :: rest) :=
  (FunState.Good.swapBrk (b := some t) h).cons_nil.swapCont (c := some 0)

theorem FunState.Good.leaveLoop
    (h : s'.Good g' ((s.csym.getD 0, sites) :: (s.bsym.getD 0, sites') :: rest)) :
    (s.leaveLoop s').Good { g' with brk := sites', cont := sites }
      ((s'.bsym.getD 0, g'.brk) :: (s'.csym.getD 0, g'.cont) :: rest) :=
  (h.swapCont.perm (.swap _ _ _)).swapBrk

variable [DecidableEq N]

theorem Resolved.gen (h : Resolved P fin lab env { s with gen := gen' } g) :
    Resolved P fin lab env s g := ⟨h.brk, h.cont, h.ret, h.forward, h.defined, h.cases⟩

/-- Inside of a loop. -/
theorem Resolved.body {b c : Option Nat} {q q' : Place}
    (h : Resolved P fin lab env { s with bsym := b, csym := c, gen := gen' }
      { g with brk := sites, cont := sites' })
    (hbrk : GenState.Chained P (s.bsym.getD 0) g.brk q)
    (hcont : GenState.Chained P (s.csym.getD 0) g.cont q') :
    Resolved P fin lab { env with brk := some q, cont := some q' } s g where
  brk t ht := ⟨q, rfl, by rwa [ht] at hbrk⟩
  cont t ht := ⟨q', rfl, by rwa [ht] at hcont⟩
  ret := h.ret
  forward := h.forward
  defined := h.defined
  cases := h.cases

/-- Around a loop. -/
theorem Resolved.around {b c : Option Nat} {q q' : Option Place} {gen'' : GenState L K}
    (h : Resolved P fin lab env { s' with bsym := s.bsym, csym := s.csym, gen := gen'' }
      { g' with brk := g.brk, cont := g.cont })
    (hbody : Resolved P fin lab { env with brk := q, cont := q' }
      { s with bsym := b, csym := c, gen := gen' } { g with brk := sites, cont := sites' }) :
    Resolved P fin lab env s g where
  brk := h.brk
  cont := h.cont
  ret := hbody.ret
  forward := hbody.forward
  defined := hbody.defined
  cases := hbody.cases

theorem Enters.refl (s : FunState L K N) (gen' : GenState L K) :
    Enters s { s with gen := gen' } .nil where
  switch sw hsw := ⟨sw, hsw, rfl, fun _ => ⟨(List.append_nil _).symm, (Option.or_none).symm⟩⟩
  label _ := (Option.or_none).symm

theorem Enters.trans (h : Enters s s' ent) (h' : Enters s' s'' ent') :
    Enters s s'' (ent.append ent') where
  switch sw hsw := by
    obtain ⟨sw', hsw', hnocode, hadd⟩ := h.switch sw hsw
    obtain ⟨sw'', hsw'', hnocode', hadd'⟩ := h'.switch sw' hsw'
    refine ⟨sw'', hsw'', hnocode'.trans hnocode, fun hlive => ?_⟩
    obtain ⟨hcases, hdef⟩ := hadd hlive
    obtain ⟨hcases', hdef'⟩ := hadd' (hnocode.trans hlive)
    rw [hcases', hcases, hdef', hdef]
    exact ⟨List.append_assoc _ _ _, Option.or_assoc⟩
  label n := by
    rw [h'.label n, h.label n, Option.or_assoc]
    exact congrArg _ (map_find?_append _ _ _).symm

/-- A state with another `gen` has the same entries. -/
theorem Enters.gen {gen'' : GenState L K}
    (h : Enters { s with gen := gen' } s' ent) : Enters s { s' with gen := gen'' } ent :=
  ⟨h.switch, h.label⟩

theorem Enters.gen_right (h : Enters s s' ent) : Enters s { s' with gen := gen' } ent :=
  ⟨h.switch, h.label⟩

end Lemmas

/-! ## Labels -/

section Labels

variable [DecidableEq N] {n : N} {l : Label} {labels : List (N × Label)} {s : FunState L K N}
  {g : Sites N} {rest : List (Nat × List Nat)} {sites : List Nat}

/-- Without the label `n`. -/
def FunState.dropLabel (s : FunState L K N) (n : N) : FunState L K N :=
  { s with labels := s.labels.filter fun x => x.1 ≠ n }

theorem filter_ne_of_find (h : (labels.find? fun x => x.1 = n).map Prod.snd = none) :
    (labels.filter fun x => x.1 ≠ n) = labels := by
  rw [Option.map_eq_none_iff, List.find?_eq_none] at h
  refine List.filter_eq_self.2 fun x hx => ?_
  simpa using h x hx

theorem perm_of_find (hkeys : (labels.map Prod.fst).Nodup)
    (h : (labels.find? fun x => x.1 = n).map Prod.snd = some l) :
    labels.Perm ((n, l) :: labels.filter fun x => x.1 ≠ n) := by
  induction labels with
  | nil => cases h
  | cons x labels ih =>
    rw [List.map_cons, List.nodup_cons] at hkeys
    by_cases hx : x.1 = n
    · have hfind : List.find? (fun x => decide (x.1 = n)) (x :: labels) = some x :=
        List.find?_cons_of_pos (by simpa using hx)
      rw [hfind] at h
      obtain rfl : x.2 = l := Option.some.inj h
      have hrest : (labels.filter fun x => x.1 ≠ n) = labels := by
        refine List.filter_eq_self.2 fun y hy => ?_
        have hne : y.1 ≠ n := fun hyn =>
          hkeys.1 (hx.trans hyn.symm ▸ List.mem_map_of_mem hy)
        simpa using hne
      rw [List.filter_cons_of_neg (by simpa using hx), hrest, ← hx]
    · have hfind : List.find? (fun x => decide (x.1 = n)) (x :: labels) =
          labels.find? fun x => decide (x.1 = n) :=
        List.find?_cons_of_neg (by simpa using hx)
      rw [hfind] at h
      rw [List.filter_cons_of_pos (by simpa using hx)]
      exact ((ih hkeys.2 h).cons x).trans (.swap _ _ _)

omit [DecidableEq N] in
theorem nodup_filter (hkeys : (labels.map Prod.fst).Nodup) (f : N × Label → Bool) :
    ((labels.filter f).map Prod.fst).Nodup :=
  hkeys.sublist (List.filter_sublist.map Prod.fst)

theorem FunState.Good.dropLabel (h : s.Good g rest) (hfind : s.findLabel n = some l) :
    (s.dropLabel n).Good g ((l.chain, g.label n) :: rest) where
  held := by
    have hperm := (perm_of_find h.keys hfind).map fun x => (x.2.chain, g.label x.1)
    have hheld := h.held.perm ((((hperm.cons _).cons _).cons _).append_right rest)
    exact (Held.bring [(_, _), (_, _), (_, _)] hheld).sink ((s.dropLabel n).chains g)
  keys := nodup_filter h.keys _
  nocode := h.nocode
  ind := h.ind

theorem FunState.Good.dropLabel_none (h : s.Good g rest) (hfind : s.findLabel n = none) :
    (s.dropLabel n).Good g rest where
  held := by
    have hlabels := filter_ne_of_find hfind
    unfold FunState.dropLabel FunState.chains
    dsimp only
    rw [hlabels]
    exact h.held
  keys := nodup_filter h.keys _
  nocode := h.nocode
  ind := h.ind

theorem FunState.Good.addLabel (h : (s.dropLabel n).Good g ((l.chain, sites) :: rest)) :
    (s.setLabel n l).Good { g with label := Function.update g.label n sites } rest where
  held := by
    have hmap : (s.dropLabel n).labels.map (fun x => (x.2.chain, g.label x.1)) =
        (s.dropLabel n).labels.map
          fun x => (x.2.chain, Function.update g.label n sites x.1) := by
      refine List.map_congr_left fun x hx => ?_
      have hne : x.1 ≠ n := by simpa using (List.mem_filter.1 hx).2
      rw [Function.update_of_ne hne]
    have hheld := h.held.bring _
    unfold FunState.chains at hheld
    rw [hmap] at hheld
    refine hheld.perm ?_
    unfold FunState.chains
    have hself : Function.update g.label n sites n = sites := Function.update_self _ _ _
    show List.Perm _ (_ :: _ :: _ :: (l.chain, Function.update g.label n sites n) :: _)
    rw [hself]
    exact (List.perm_append_comm_assoc [(l.chain, sites)] [_, _, _] _)
  keys := by
    refine List.nodup_cons.2 ⟨fun hmem => ?_, h.keys⟩
    obtain ⟨x, hx, rfl⟩ := List.mem_map.1 hmem
    exact of_decide_eq_true (List.mem_filter.1 hx).2 rfl
  nocode := h.nocode
  ind := h.ind

theorem findLabel_congr {s' : FunState L K N} (h : s'.labels = s.labels) (n : N) :
    s'.findLabel n = s.findLabel n := by
  rw [FunState.findLabel, FunState.findLabel, h]

theorem findLabel_setLabel (s : FunState L K N) (n n' : N) (l : Label) :
    (s.setLabel n l).findLabel n' = if n' = n then some l else s.findLabel n' := by
  unfold FunState.findLabel FunState.setLabel
  dsimp only
  by_cases hn : n' = n
  · subst hn
    rw [if_pos rfl, List.find?_cons_of_pos (by simp)]
    rfl
  · rw [if_neg hn, List.find?_cons_of_neg (by simpa using Ne.symm hn), List.find?_filter]
    congr 2
    funext x
    by_cases hx : x.1 = n'
    · simp [hx, hn]
    · simp [hx]

end Labels

/-! ## Tests -/

section Tests

variable {sem : Sem L K S}

/-- Behind the value the code leads on. -/
theorem Evaluates.reach {P : Nat → Slot (Instr L K)} {p : Place} {e : Expr L}
    {Q Q' : Machine S → BitVec 64 → Machine S → Prop} (h : Evaluates sem P p e Q)
    (hQ : ∀ m x m', Q m x m' → ∃ m'', Reaches sem P m' m'' ∧ m''.st = m'.st ∧ Q' m x m'') :
    Evaluates sem P p e Q' := by
  refine fun m hm => (h m hm).imp fun x m' hx => ?_
  obtain ⟨m'', hreach, hst, hx'⟩ := hQ m x m' hx
  exact ⟨m'', hreach, hst, fun k hk => absurd hk (Nat.not_lt_zero k), hx'⟩

theorem Evaluates.imp {P : Nat → Slot (Instr L K)} {p : Place} {e : Expr L}
    {Q Q' : Machine S → BitVec 64 → Machine S → Prop} (h : Evaluates sem P p e Q)
    (hQ : ∀ m x m', Q m x m' → Q' m x m') : Evaluates sem P p e Q' :=
  h.reach fun m x m' hx => ⟨m', .refl, rfl, hQ m x m' hx⟩

/-- A test whose jumps are taken for 0. -/
theorem Evaluates.unless {P : Nat → Slot (Instr L K)} {p q r : Place} {e : Expr L}
    (h : Evaluates sem P p e fun m x m' =>
      if (x != 0 ^^ true) = true then q.Here m' ∧ Moves (step sem P) m m' else r.Here m') :
    Evaluates sem P p e fun _ x m => if x ≠ 0 then r.Here m else q.Here m := by
  refine h.imp fun m x m' hx => ?_
  by_cases h0 : x = 0
  · subst h0
    exact hx.1
  · rw [if_pos h0]
    rwa [Bool.xor_true, bne_iff_ne.2 h0, if_neg (by decide)] at hx

/-- A test whose jumps are taken unless it is 0. -/
theorem Evaluates.when {P : Nat → Slot (Instr L K)} {p q r r' : Place} {e : Expr L}
    (h : Evaluates sem P p e fun m x m' =>
      if (x != 0 ^^ false) = true then q.Here m' ∧ Moves (step sem P) m m' else r.Here m')
    (hleads : Leads sem P r r') :
    Evaluates sem P p e fun m x m' =>
      if x ≠ 0 then q.Here m' ∧ Moves (step sem P) m m' else r'.Here m' := by
  refine h.reach fun m x m' hx => ?_
  by_cases h0 : x = 0
  · subst h0
    exact hleads m' hx
  · rw [Bool.xor_false, bne_iff_ne.2 h0, if_pos rfl] at hx
    refine ⟨m', .refl, rfl, ?_⟩
    rwa [if_pos h0]

/-- Behind the value, if there is one, the code leads on. -/
theorem EvaluatesOption.reach {P : Nat → Slot (Instr L K)} {p : Place} {e : Option (Expr L)}
    {Q Q' : Machine S → Option (BitVec 64) → Machine S → Prop} (h : EvaluatesOption sem P p e Q)
    (hQ : ∀ m x m', Q m x m' → ∃ m'', Reaches sem P m' m'' ∧ m''.st = m'.st ∧ Q' m x m'') :
    EvaluatesOption sem P p e Q' := by
  cases e with
  | none =>
    intro m hm
    obtain ⟨m', hreach, hst, hx⟩ := h m hm
    obtain ⟨m'', hreach', hst', hx'⟩ := hQ m none m' hx
    exact ⟨m'', hreach.trans hreach', hst'.trans hst, hx'⟩
  | some e => exact Evaluates.reach h fun m x => hQ m (some x)

theorem EvaluatesOption.test {P : Nat → Slot (Instr L K)} {p q r r' : Place} {e : Option (Expr L)}
    (h : EvaluatesOption sem P p e fun _ x m => if x ≠ some 0 then r.Here m else q.Here m)
    (hleads : Leads sem P r r') :
    EvaluatesOption sem P p e fun _ x m => if x ≠ some 0 then r'.Here m else q.Here m := by
  refine h.reach fun m x m' hx => ?_
  split at hx
  · rename_i hne
    simp only [if_pos hne]
    exact hleads m' hx
  · rename_i hne
    simp only [if_neg hne]
    exact ⟨m', .refl, rfl, hx⟩

end Tests

/-! ## Parts -/

section Parts

variable {s : FunState L K N} {g : Sites N} {rest : List (Nat × List Nat)}
  {t : Nat} {sites : List Nat} {noret : L → Bool}

theorem gsym_ind (s : FunState L K N) (t : Nat) :
    (s.gsym t).gen.code.ind = s.gen.code.ind := by
  show (s.gen.gsym t).code.ind = s.gen.code.ind
  unfold GenState.gsym
  split <;> rfl

theorem gsym_built (h : s.Good g ((t, sites) :: rest)) :
    (s.gsym t).Good g rest ∧ Extends s.gen.code (s.gsym t).gen.code ∧
      ∀ P, Final P (s.gsym t).gen.code → GenState.Chained P t sites (s.gsym t).gen.place ∧
        ∀ sem : Sem L K S, Leads sem P s.gen.place (s.gsym t).gen.place := by
  obtain ⟨hheld, hgrows, hright⟩ := GenState.gsym_right (S := S) h.nocode (h.held.bring _)
  exact ⟨h.gen hheld hgrows, hgrows.code, hright⟩

theorem gjmp_built (h : s.Good g rest) :
    ∃ sites, (s.gjmp 0).1.Good g (((s.gjmp 0).2, sites) :: rest) ∧
      Extends s.gen.code (s.gjmp 0).1.gen.code ∧
      ∀ (sem : Sem L K S) P q, GenState.Chained P (s.gjmp 0).2 sites q →
        Jumps sem P s.gen.place q := by
  obtain ⟨sites, hheld, hgrows, -, -, hjump⟩ := GenState.gjmp_right (S := S) h.held.cons_nil h.ind
  exact ⟨sites, h.gen (hheld.sink _) hgrows, hgrows.code, fun sem P q hq =>
    GenState.jumps_of_step (hjump sem P q hq)⟩

/-- A jump in front of a chain. -/
theorem gjmpChain_built (h : s.Good g ((t, sites) :: rest)) :
    ∃ sites', (s.gjmp t).1.Good g (((s.gjmp t).2, sites') :: rest) ∧
      Extends s.gen.code (s.gjmp t).1.gen.code ∧
      ∀ (sem : Sem L K S) P q, GenState.Chained P (s.gjmp t).2 sites' q →
        GenState.Chained P t sites q ∧ Jumps sem P s.gen.place q := by
  obtain ⟨sites', hheld, hgrows, hsub, hne, hjump⟩ :=
    GenState.gjmp_right (S := S) (h.held.bring _) h.ind
  exact ⟨sites', h.gen (hheld.sink _) hgrows, hgrows.code, fun sem P q hq =>
    ⟨⟨fun k hk => hq.1 k (hsub hk), fun ht => hq.2 (hne ht)⟩,
      GenState.jumps_of_step (hjump sem P q hq)⟩⟩

theorem gjmpAddr_built (h : s.Good g rest) (a : Nat) :
    (s.gjmpAddr a).Good g rest ∧ Extends s.gen.code (s.gjmpAddr a).gen.code ∧
      ∀ (sem : Sem L K S) P, Final P (s.gjmpAddr a).gen.code →
        Jumps sem P s.gen.place ⟨a, true⟩ := by
  obtain ⟨hheld, hgrows, hjump⟩ := GenState.gjmpAddr_right (S := S) h.held a
  exact ⟨h.gen hheld hgrows, hgrows.code, hjump⟩

theorem gsymAddr_built (h : s.Good g ((t, sites) :: rest)) (a : Nat) :
    (s.gsymAddr t a).Good g rest ∧ Extends s.gen.code (s.gsymAddr t a).gen.code ∧
      (s.gsymAddr t a).gen.place = s.gen.place ∧
      ∀ P, Final P (s.gsymAddr t a).gen.code → Lead P sites a := by
  obtain ⟨hheld, hext, hlead⟩ := (h.held.bring _).patch a
  exact ⟨h.gen hheld ⟨hext, rfl⟩, hext, rfl, hlead⟩

theorem codeOn_built (h : s.Good g rest) :
    s.codeOn.Good g rest ∧ s.codeOn.gen.place = s.gen.place.on :=
  ⟨h.gen h.held ⟨.refl _, rfl⟩, GenState.place_codeOn h.nocode⟩

variable {sem : Sem L K S} (hnoret : ∀ l st, noret l = true → (sem.leaf l st).1 = none)
include hnoret

theorem gexprVpop_built (h : s.Good g rest) (e : Expr L) :
    (s.gexprVpop noret e).Good g rest ∧ Extends s.gen.code (s.gexprVpop noret e).gen.code ∧
      ∀ P, Final P (s.gexprVpop noret e).gen.code → Evaluates sem P s.gen.place e
        fun _ _ m => (s.gexprVpop noret e).gen.place.Here m := by
  obtain ⟨hheld, hgrows, hright⟩ := GenState.vpop_right sem hnoret e h.nocode h.ind h.held rfl
  exact ⟨h.gen hheld hgrows, hgrows.code, hright⟩

theorem gexprGv_built (h : s.Good g rest) (e : Expr L) :
    (s.gexprGv noret e).Good g rest ∧ Extends s.gen.code (s.gexprGv noret e).gen.code ∧
      ∀ P, Final P (s.gexprGv noret e).gen.code → Evaluates sem P s.gen.place e
        fun _ x m => (s.gexprGv noret e).gen.place.Here m ∧ m.regs 0 = x := by
  obtain ⟨hheld, hgrows, hright⟩ := GenState.gv_right sem hnoret e h.nocode h.ind h.held rfl
  exact ⟨h.gen hheld hgrows, hgrows.code, hright⟩

theorem gexprTest_built (h : s.Good g rest) (e : Expr L) (inv : Bool) :
    ∃ sites, (s.gexprTest noret e inv).1.Good g (((s.gexprTest noret e inv).2, sites) :: rest) ∧
      Extends s.gen.code (s.gexprTest noret e inv).1.gen.code ∧
      ∀ P, Final P (s.gexprTest noret e inv).1.gen.code →
        ∀ q, GenState.Chained P (s.gexprTest noret e inv).2 sites q →
          Evaluates sem P s.gen.place e fun m x m' =>
            if (x != 0 ^^ inv) = true then q.Here m' ∧ Moves (step sem P) m m'
            else (s.gexprTest noret e inv).1.gen.place.Here m' := by
  obtain ⟨sites, hheld, hgrows, hright⟩ :=
    GenState.gvtst_right sem hnoret e inv h.nocode h.ind h.held rfl
  exact ⟨sites, h.gen (hheld.sink _) hgrows, hgrows.code, hright⟩

/-- The value of a switch, and the jump to the search. -/
theorem switchStart_built (h : s.Good g rest) (e : Expr L) {r : GenState L K × SValue}
    (hr : r = e.gen noret none 0 s.gen) :
    ∃ sites sT sF, FunState.Good { s with gen := (r.1.gjmp 0).1 } g
        (((r.1.gjmp 0).2, sites) :: (r.2.jtrue, sT) :: (r.2.jfalse, sF) :: rest) ∧
      Extends s.gen.code (r.1.gjmp 0).1.code ∧
      ∀ P, Final P (r.1.gjmp 0).1.code → ∀ s' : GenState L K,
        GenState.Chained P (r.1.gjmp 0).2 sites s'.place → ∀ aT aF, Lead P sT aT → Lead P sF aF →
          Evaluates sem P s.gen.place e fun _ x m => r.2.At s' aT aF x m := by
  obtain ⟨⟨sT, sF, hheld1, hrun⟩, hgrows1, -⟩ :=
    (e.right hnoret).value 0 s.gen (s.chains g ++ rest) h.nocode h.ind h.held
  rw [← hr] at hheld1 hrun hgrows1
  obtain ⟨sites, hheld2, hgrows2, -, -, hjump⟩ :=
    GenState.gjmp_right (S := S) (Held.cons_nil hheld1) (hgrows1.ind_ne h.ind)
  have hgrows := hgrows1.trans hgrows2
  have hheld := hheld2.perm
    (List.perm_append_comm_assoc [(_, sites), (_, sT), (_, sF)] (s.chains g) rest)
  refine ⟨sites, sT, sF, h.gen hheld hgrows, hgrows.code,
    fun P hfinal s' hs' aT aF hT hF m hm => ?_⟩
  obtain ⟨hpc, hlive⟩ := GenState.here_iff.1 hm
  refine (hrun P (hgrows2.code.final hfinal) aT aF hT hF hlive m hpc).imp fun x m' hx => ?_
  cases hx with
  | here hpc' hlive' hval =>
    obtain ⟨hstep, hon⟩ := hjump sem P _ hs' m' (GenState.here_iff.2 ⟨hpc', hlive'⟩)
    have hlive : s'.dead = false := by simpa [GenState.place] using hon
    have hsame : r.2.val m' = r.2.val { m' with pc := some s'.code.ind } := by cases r.2 <;> rfl
    exact ⟨_, .single hstep, rfl, fun _ _ => rfl, .here rfl hlive (hval.trans hsame)⟩
  | jtrue hpc' hchain hval => exact ⟨m', .refl, rfl, fun _ _ => rfl, .jtrue hpc' hchain hval⟩
  | jfalse hpc' hchain hval => exact ⟨m', .refl, rfl, fun _ _ => rfl, .jfalse hpc' hchain hval⟩

variable (sem) in
omit hnoret in
/-- The search for a case. -/
theorem search_built {v : SValue} {sT sF : List Nat}
    (h : s.Good g ((v.jtrue, sT) :: (v.jfalse, sF) :: rest)) (cases : List (K × Nat))
    {d : GenState L K × Nat} (hd : d = ((s.gen.gv 0 v).o (.instr (.search 0 cases))).gjmp 0) :
    ∃ sites, FunState.Good { s with gen := d.1 } g ((d.2, sites) :: rest) ∧
      Extends s.gen.code d.1.code ∧
      ∀ P, Final P d.1.code → ∃ aT aF, Lead P sT aT ∧ Lead P sF aF ∧
        ∀ q, GenState.Chained P d.2 sites q → ∀ x (m : Machine S), v.At s.gen aT aF x m →
          ∃ m', Reaches sem P m m' ∧ m'.st = m.st ∧
            (∀ a, ((cases.find? fun c => sem.has c.1 x).map Prod.snd) = some a →
              m'.pc = some a) ∧
            (((cases.find? fun c => sem.has c.1 x).map Prod.snd) = none → q.Here m') := by
  have hheld : v.Held s.gen sT sF (s.chains g ++ rest) :=
    h.held.perm (List.perm_append_comm_assoc (s.chains g) [(_, sT), (_, sF)] rest)
  obtain ⟨hheld1, hgrows1, hgv⟩ := gv_spec sem h.nocode h.ind 0 hheld
  have hgrows2 := GenState.grows_o (s.gen.gv 0 v) (.instr (.search 0 cases))
  have hheld2 := GenState.held_o (.instr (.search 0 cases)) hheld1
  have hgrows12 := hgrows1.trans hgrows2
  obtain ⟨sites, hheld3, hgrows3, -, -, hjump⟩ :=
    GenState.gjmp_right (S := S) hheld2.cons_nil (hgrows12.ind_ne h.ind)
  rw [← hd] at hheld3 hgrows3 hjump
  have hgrows := hgrows12.trans hgrows3
  refine ⟨sites, h.gen (hheld3.sink _) hgrows, hgrows.code, fun P hfinal => ?_⟩
  have hfinal2 := hgrows3.code.final hfinal
  obtain ⟨aT, aF, hT, hF, hat⟩ := hgv P (hgrows2.code.final hfinal2)
  refine ⟨aT, aF, hT, hF, fun q hq x m hm => ?_⟩
  obtain ⟨hreach, hlive⟩ := hat m x hm
  have hsearch := step_instr sem (m := { m with
    pc := some (s.gen.gv 0 v).code.ind, regs := Function.update m.regs 0 x }) rfl
      (GenState.final_o hlive rfl hfinal2)
  have hx : Function.update m.regs 0 x 0 = x := Function.update_self 0 x m.regs
  have hplace : ((s.gen.gv 0 v).o (.instr (.search 0 cases))).place =
      ⟨(s.gen.gv 0 v).code.ind + 1, true⟩ := by
    rw [GenState.o_of_live _ hlive]
    show Place.mk _ (!(s.gen.gv 0 v).dead) = _
    rw [hlive]
    rfl
  unfold Instr.exec at hsearch
  dsimp only at hsearch
  rw [hx] at hsearch
  cases hfind : (cases.find? fun c => sem.has c.1 x).map Prod.snd with
  | some a =>
    rw [hfind] at hsearch
    exact ⟨_, hreach.tail hsearch, rfl, fun b hb => congrArg some (Option.some.inj hb),
      fun h => by cases h⟩
  | none =>
    rw [hfind] at hsearch
    have hhere : ((s.gen.gv 0 v).o (.instr (.search 0 cases))).place.Here { m with
        pc := some ((s.gen.gv 0 v).code.ind + 1), regs := Function.update m.regs 0 x } := by
      rw [hplace]
      exact ⟨rfl, rfl⟩
    obtain ⟨hstep, hon⟩ := hjump sem P q hq _ hhere
    exact ⟨_, (hreach.tail hsearch).tail hstep, rfl,
      fun b hb => absurd hb.symm (Option.some_ne_none b), fun _ => ⟨rfl, hon⟩⟩

variable (sem) in
omit hnoret in
/-- Behind the statement of a switch: the search, and the end of the jumps. -/
theorem switchSearch_built {v : SValue} {sT sF : List Nat}
    (h : s.Good g ((v.jtrue, sT) :: (v.jfalse, sF) :: (t, sites) :: rest)) {sw : SwitchState K}
    {d : GenState L K × Nat} {s' : FunState L K N}
    (hd : d = ((s.gen.gv 0 v).o (.instr (.search 0 sw.cases))).gjmp 0)
    (hs' : (∃ a, sw.defSym = some a ∧
        s' = (FunState.gsymAddr { s with gen := d.1 } d.2 a).gsym t) ∨
      sw.defSym = none ∧ s' = (FunState.gsym { s with gen := d.1 } d.2).gsym t)
    (labels : List (N × Nat)) :
    ∃ gen', s' = { s with gen := gen' } ∧ s'.Good g rest ∧ Extends s.gen.code s'.gen.code ∧
      ∀ P, Final P s'.gen.code → GenState.Chained P t sites s'.gen.place ∧
        ∃ aT aF, Lead P sT aT ∧ Lead P sF aF ∧
          ∀ x (m : Machine S), v.At s.gen aT aF x m → ∃ m', Reaches sem P m m' ∧ m'.st = m.st ∧
            (⟨sw.cases, sw.defSym, labels⟩ : Entries K N).Goes sem x s'.gen.place m' := by
  obtain ⟨sites', hgood1, hext1, hsearch⟩ := search_built sem h sw.cases hd
  obtain ⟨a, hdef, rfl⟩ | ⟨hdef, rfl⟩ := hs'
  · obtain ⟨hgood2, hext2, -, hlead⟩ := gsymAddr_built hgood1 a
    obtain ⟨hgood3, hext3, hsym⟩ := gsym_built (S := S) hgood2
    refine ⟨_, rfl, hgood3, hext1.trans (hext2.trans hext3), fun P hfinal => ?_⟩
    have hfinal2 := hext3.final hfinal
    obtain ⟨aT, aF, hT, hF, hat⟩ := hsearch P (hext2.final hfinal2)
    refine ⟨(hsym P hfinal).1, aT, aF, hT, hF, fun x m hm => ?_⟩
    obtain ⟨m', hreach, hst, hsome, hnone⟩ := hat ⟨a, true⟩ ⟨hlead P hfinal2, fun _ => rfl⟩ x m hm
    refine ⟨m', hreach, hst, ?_⟩
    unfold Entries.Goes Entries.case?
    dsimp only
    rw [hdef]
    cases hfind : (sw.cases.find? fun c => sem.has c.1 x).map Prod.snd with
    | some b => exact hsome b hfind
    | none => exact (hnone hfind).pc
  · obtain ⟨hgood2, hext2, hsym2⟩ := gsym_built (S := S) hgood1
    obtain ⟨hgood3, hext3, hsym3⟩ := gsym_built (S := S) hgood2
    refine ⟨_, rfl, hgood3, hext1.trans (hext2.trans hext3), fun P hfinal => ?_⟩
    have hfinal2 := hext3.final hfinal
    obtain ⟨aT, aF, hT, hF, hat⟩ := hsearch P (hext2.final hfinal2)
    refine ⟨(hsym3 P hfinal).1, aT, aF, hT, hF, fun x m hm => ?_⟩
    obtain ⟨m', hreach, hst, hsome, hnone⟩ := hat _ (hsym2 P hfinal2).1 x m hm
    unfold Entries.Goes Entries.case?
    dsimp only
    rw [hdef]
    cases hfind : (sw.cases.find? fun c => sem.has c.1 x).map Prod.snd with
    | some b => exact ⟨m', hreach, hst, hsome b hfind⟩
    | none =>
      obtain ⟨m'', hreach', hst', hhere⟩ := (hsym3 P hfinal).2 sem m' (hnone hfind)
      exact ⟨m'', hreach.trans hreach', hst'.trans hst, hhere⟩

theorem gexprVpopOption_built (h : s.Good g rest) (e : Option (Expr L)) :
    (s.gexprVpopOption noret e).Good g rest ∧
      Extends s.gen.code (s.gexprVpopOption noret e).gen.code ∧
      ∀ P, Final P (s.gexprVpopOption noret e).gen.code → EvaluatesOption sem P s.gen.place e
        fun _ _ m => (s.gexprVpopOption noret e).gen.place.Here m := by
  cases e with
  | none => exact ⟨h, .refl _, fun P _ m hm => ⟨m, .refl, rfl, hm⟩⟩
  | some e => exact gexprVpop_built hnoret h e

theorem gexprTestOption_built (h : s.Good g rest) (e : Option (Expr L)) :
    ∃ sites,
      (s.gexprTestOption noret e).1.Good g (((s.gexprTestOption noret e).2, sites) :: rest) ∧
      Extends s.gen.code (s.gexprTestOption noret e).1.gen.code ∧
      ∀ P, Final P (s.gexprTestOption noret e).1.gen.code →
        ∀ q, GenState.Chained P (s.gexprTestOption noret e).2 sites q →
          EvaluatesOption sem P s.gen.place e fun _ x m =>
            if x ≠ some 0 then (s.gexprTestOption noret e).1.gen.place.Here m else q.Here m := by
  cases e with
  | none => exact ⟨[], h.cons_nil, .refl _, fun P _ q _ m hm => ⟨m, .refl, rfl, hm⟩⟩
  | some e =>
    obtain ⟨sites, hgood, hext, htest⟩ := gexprTest_built hnoret h e true
    refine ⟨sites, hgood, hext, fun P hfinal q hq => ?_⟩
    refine (htest P hfinal q hq).unless.imp fun m x m' hx => ?_
    by_cases h0 : x = 0
    · subst h0
      exact hx
    · have hne : some x ≠ some 0 := fun h => h0 (Option.some.inj h)
      rw [if_pos h0] at hx
      show if some x ≠ some 0 then _ else _
      rwa [if_pos hne]

theorem forNext_built (h : s.Good g rest) (c : Nat) (e : Option (Expr L)) :
    (s.forNext noret c e).1.Good g rest ∧
      Extends s.gen.code (s.forNext noret c e).1.gen.code ∧
      ∀ P, Final P (s.forNext noret c e).1.gen.code →
        Leads sem P s.gen.place (s.forNext noret c e).1.gen.place ∧
          EvaluatesOption sem P ⟨(s.forNext noret c e).2, true⟩ e
            fun _ _ m => (⟨c, true⟩ : Place).Here m := by
  cases e with
  | none =>
    exact ⟨h, .refl _, fun P _ => ⟨.refl sem P _, fun m hm => ⟨m, .refl, rfl, hm⟩⟩⟩
  | some e =>
    obtain ⟨sites, hgood1, hext1, hjump⟩ := gjmp_built (S := S) h
    obtain ⟨hgood2, hplace⟩ := codeOn_built hgood1
    obtain ⟨hgood3, hext3, heval⟩ := gexprVpop_built hnoret hgood2 e
    obtain ⟨hgood4, hext4, hback⟩ := gjmpAddr_built (S := S) hgood3 c
    obtain ⟨hgood5, hext5, hsym⟩ := gsym_built (S := S) hgood4
    refine ⟨hgood5, hext1.trans (hext3.trans (hext4.trans hext5)), fun P hfinal => ?_⟩
    have hfinal4 := hext5.final hfinal
    refine ⟨(hjump sem P _ (hsym P hfinal).1).leads, ?_⟩
    have heval' := heval P (hext4.final hfinal4)
    rw [hplace] at heval'
    exact heval'.reach fun _ _ m' hx => (hback sem P hfinal4).leads m' hx

end Parts

/-! ## Statements without loops -/

section Plain

variable [DecidableEq N] {sem : Sem L K S} {noret : L → Bool} {a b : Stmt L K N} {last : Bool}
  {s s1 s2 : FunState L K N}

theorem Built.empty (s : FunState L K N) : Built sem .empty last s s := by
  intro g rest hgood
  exact ⟨g, .nil, hgood, .refl _, .refl s s.gen, fun P fin lab env _ hres _ => ⟨hres, rfl, rfl⟩⟩

theorem Built.seq (ha : Built sem a false s s1) (hb : Built sem b last s1 s2) :
    Built sem (.seq a b) last s s2 := by
  intro g rest hgood
  obtain ⟨g1, x, hgood1, hext1, hent1, hlaid1⟩ := ha g rest hgood
  obtain ⟨g2, y, hgood2, hext2, hent2, hlaid2⟩ := hb g1 rest hgood1
  refine ⟨g2, x.append y, hgood2, hext1.trans hext2, hent1.trans hent2,
    fun P fin lab env hfinal hres hlast => ?_⟩
  obtain ⟨hres1, hb'⟩ := hlaid2 P fin lab env hfinal hres hlast
  obtain ⟨hres0, ha'⟩ := hlaid1 P fin lab env (hext2.final hfinal) hres1 fun h => by cases h
  exact ⟨hres0, _, x, y, ha', hb', rfl⟩

theorem Built.block (ha : Built sem a false s s1) : Built sem (.block a) last s s1 := by
  intro g rest hgood
  obtain ⟨g1, x, hgood1, hext1, hent1, hlaid1⟩ := ha g rest hgood
  exact ⟨g1, x, hgood1, hext1, hent1, fun P fin lab env hfinal hres _ =>
    hlaid1 P fin lab env hfinal hres fun h => by cases h⟩

section Expressions

variable (hnoret : ∀ l st, noret l = true → (sem.leaf l st).1 = none)
include hnoret

theorem Built.expr (e : Expr L) : Built sem (.expr e) last s (s.gexprVpop noret e) := by
  intro g rest hgood
  obtain ⟨hgood1, hext, hright⟩ := gexprVpop_built hnoret hgood e
  exact ⟨g, .nil, hgood1, hext, .refl s _, fun P fin lab env hfinal hres _ =>
    ⟨hres.gen, hright P hfinal, rfl⟩⟩

theorem Built.ifThen (c : Expr L) (ha : Built sem a false (s.gexprTest noret c true).1 s1) :
    Built sem (.ifThen c a) last s (s1.gsym (s.gexprTest noret c true).2) := by
  intro g rest hgood
  obtain ⟨sites, hgood1, hext1, htest⟩ := gexprTest_built hnoret hgood c true
  obtain ⟨g2, x, hgood2, hext2, hent2, hlaid2⟩ := ha g _ hgood1
  obtain ⟨hgood3, hext3, hsym⟩ := gsym_built (S := S) hgood2
  refine ⟨g2, x, hgood3, hext1.trans (hext2.trans hext3), hent2.gen,
    fun P fin lab env hfinal hres _ => ?_⟩
  have hfinal2 := hext3.final hfinal
  obtain ⟨hchained, hleads⟩ := hsym P hfinal
  obtain ⟨hres1, ha'⟩ := hlaid2 P fin lab env hfinal2 hres.gen fun h => by cases h
  exact ⟨hres1.gen, _, _, (htest P (hext2.final hfinal2) _ hchained).unless, ha', hleads sem⟩

theorem Built.ifElse (c : Expr L) (ha : Built sem a false (s.gexprTest noret c true).1 s1)
    (hb : Built sem b false ((s1.gjmp 0).1.gsym (s.gexprTest noret c true).2) s2) :
    Built sem (.ifElse c a b) last s (s2.gsym (s1.gjmp 0).2) := by
  intro g rest hgood
  obtain ⟨sites, hgood1, hext1, htest⟩ := gexprTest_built hnoret hgood c true
  obtain ⟨g2, x, hgood2, hext2, hent2, hlaid2⟩ := ha g _ hgood1
  obtain ⟨sites', hgood3, hext3, hjump⟩ := gjmp_built (S := S) hgood2
  obtain ⟨hgood4, hext4, hsym4⟩ := gsym_built (S := S) (hgood3.perm (.swap _ _ _))
  obtain ⟨g5, y, hgood5, hext5, hent5, hlaid5⟩ := hb g2 _ hgood4
  obtain ⟨hgood6, hext6, hsym6⟩ := gsym_built (S := S) hgood5
  refine ⟨g5, x.append y, hgood6,
    hext1.trans (hext2.trans (hext3.trans (hext4.trans (hext5.trans hext6)))),
    (hent2.gen_right.trans hent5).gen, fun P fin lab env hfinal hres _ => ?_⟩
  have hfinal5 := hext6.final hfinal
  have hfinal4 := hext5.final hfinal5
  have hfinal2 := (hext3.trans hext4).final hfinal4
  obtain ⟨hchained6, hleads6⟩ := hsym6 P hfinal
  obtain ⟨hchained4, -⟩ := hsym4 P hfinal4
  obtain ⟨hres4, hb'⟩ := hlaid5 P fin lab env hfinal5 hres.gen fun h => by cases h
  obtain ⟨hres1, ha'⟩ := hlaid2 P fin lab env hfinal2 hres4.gen.gen fun h => by cases h
  exact ⟨hres1.gen, _, _, _, _, x, y, (htest P (hext2.final hfinal2) _ hchained4).unless, ha',
    (hjump sem P _ hchained6).leads, hb', hleads6 sem, rfl⟩

/-! ## Loops -/

theorem Built.while (c : Expr L)
    (ha : Built sem a false { (s.codeOn.gexprTest noret c true).1 with
      bsym := some (s.codeOn.gexprTest noret c true).2, csym := some 0 } s1) :
    Built sem (.while c a) last s
      ((((s.leaveLoop s1).gjmpAddr s.gen.code.ind).gsymAddr (s1.csym.getD 0)
        s.gen.code.ind).gsym (s1.bsym.getD 0)) := by
  intro g rest hgood
  obtain ⟨hgood0, hplace⟩ := codeOn_built hgood
  obtain ⟨sites, hgood1, hext1, htest⟩ := gexprTest_built hnoret hgood0 c true
  obtain ⟨g2, x, hgood2, hext2, hent2, hlaid2⟩ := ha _ _ hgood1.enterLoop
  obtain ⟨hgood3, hext3, hjump⟩ :=
    gjmpAddr_built (S := S) (FunState.Good.leaveLoop (s := s) hgood2) s.gen.code.ind
  obtain ⟨hgood4, hext4, -, hlead⟩ :=
    gsymAddr_built (hgood3.perm (.swap _ _ _)) s.gen.code.ind
  obtain ⟨hgood5, hext5, hsym⟩ := gsym_built (S := S) hgood4
  refine ⟨_, x, hgood5, hext1.trans (hext2.trans (hext3.trans (hext4.trans hext5))),
    ⟨hent2.switch, hent2.label⟩, fun P fin lab env hfinal hres _ => ?_⟩
  have hfinal4 := hext5.final hfinal
  have hfinal3 := hext4.final hfinal4
  have hfinal2 := hext3.final hfinal3
  obtain ⟨hbrk, -⟩ := hsym P hfinal
  have hcont : GenState.Chained P (s1.csym.getD 0) g2.cont s.gen.place.on :=
    ⟨hlead P hfinal4, fun _ => rfl⟩
  obtain ⟨hres1, ha'⟩ := hlaid2 P fin lab _ hfinal2
    (Resolved.body (s := s1) (g := g2) hres hbrk hcont) fun h => by cases h
  obtain ⟨q, hq, htarget⟩ := hres1.brk _ rfl
  cases hq
  have htest' := (htest P (hext2.final hfinal2) _ htarget).unless
  rw [hplace] at htest'
  exact ⟨Resolved.around (s := s) (g := g) hres hres1, _, _, htest', ha', hjump sem P hfinal3⟩

theorem Built.doWhile (c : Expr L)
    (ha : Built sem a false { s.codeOn with bsym := some 0, csym := some 0 } s1) :
    Built sem (.doWhile a c) last s
      (((((s.leaveLoop s1).gsym (s1.csym.getD 0)).gexprTest noret c false).1.gsymAddr
        (((s.leaveLoop s1).gsym (s1.csym.getD 0)).gexprTest noret c false).2
          s.gen.code.ind).gsym (s1.bsym.getD 0)) := by
  intro g rest hgood
  obtain ⟨hgood0, hplace⟩ := codeOn_built hgood
  obtain ⟨g2, x, hgood2, hext2, hent2, hlaid2⟩ := ha _ _ hgood0.cons_nil.enterLoop
  obtain ⟨hgood3, hext3, hsym3⟩ := gsym_built (S := S)
    ((FunState.Good.leaveLoop (s := s) hgood2).perm (.swap _ _ _))
  obtain ⟨sites, hgood4, hext4, htest⟩ := gexprTest_built hnoret hgood3 c false
  obtain ⟨hgood5, hext5, hplace5, hlead⟩ := gsymAddr_built hgood4 s.gen.code.ind
  obtain ⟨hgood6, hext6, hsym6⟩ := gsym_built (S := S) hgood5
  refine ⟨_, x, hgood6, hext2.trans (hext3.trans (hext4.trans (hext5.trans hext6))),
    ⟨hent2.switch, hent2.label⟩, fun P fin lab env hfinal hres _ => ?_⟩
  have hfinal5 := hext6.final hfinal
  have hfinal4 := hext5.final hfinal5
  have hfinal3 := hext4.final hfinal4
  obtain ⟨hbrk, hleads6⟩ := hsym6 P hfinal
  obtain ⟨hcont, hleads3⟩ := hsym3 P hfinal3
  obtain ⟨hres1, ha'⟩ := hlaid2 P fin lab _ (hext3.final hfinal3)
    (Resolved.body (s := s1) (g := g2) hres hbrk hcont) fun h => by cases h
  rw [hplace] at ha'
  exact ⟨Resolved.around (s := s) (g := g) hres hres1, _, _, ha', hleads3 sem,
    (htest P hfinal4 s.gen.place.on ⟨hlead P hfinal5, fun _ => rfl⟩).when (hleads6 sem)⟩

theorem Built.for (init cond third : Option (Expr L)) {s0 : FunState L K N}
    {r r' : FunState L K N × Nat} (hs0 : s0 = (s.gexprVpopOption noret init).codeOn)
    (hr : r = s0.gexprTestOption noret cond)
    (hr' : r' = r.1.forNext noret s0.gen.code.ind third)
    (ha : Built sem a false { r'.1 with bsym := some r.2, csym := some 0 } s1) :
    Built sem (.for init cond third a) last s
      ((((s.leaveLoop s1).gjmpAddr r'.2).gsymAddr (s1.csym.getD 0) r'.2).gsym
        (s1.bsym.getD 0)) := by
  intro g rest hgood
  obtain ⟨hgoodi, hexti, hinit⟩ := gexprVpopOption_built hnoret hgood init
  obtain ⟨hgood0, hplace⟩ := codeOn_built hgoodi
  rw [← hs0] at hgood0 hplace
  obtain ⟨sites, hgood1, hext1, htest⟩ := gexprTestOption_built hnoret hgood0 cond
  rw [← hr] at hgood1 hext1 htest
  have hcode : s0.gen.code = (s.gexprVpopOption noret init).gen.code :=
    congrArg (fun s => s.gen.code) hs0
  rw [hcode] at hext1
  obtain ⟨hgood1', hext1', hnext⟩ := forNext_built hnoret hgood1 s0.gen.code.ind third
  rw [← hr'] at hgood1' hext1' hnext
  obtain ⟨gen', hgen⟩ : ∃ gen', r'.1 = { s with gen := gen' } := by
    refine ⟨r'.1.gen, ?_⟩
    subst hr' hr hs0
    cases init <;> cases cond <;> cases third <;> rfl
  rw [hgen] at hgood1' hext1' hnext ha
  obtain ⟨g2, x, hgood2, hext2, hent2, hlaid2⟩ := ha _ _ hgood1'.enterLoop
  obtain ⟨hgood3, hext3, hjump⟩ :=
    gjmpAddr_built (S := S) (FunState.Good.leaveLoop (s := s) hgood2) r'.2
  obtain ⟨hgood4, hext4, -, hlead⟩ := gsymAddr_built (hgood3.perm (.swap _ _ _)) r'.2
  obtain ⟨hgood5, hext5, hsym⟩ := gsym_built (S := S) hgood4
  refine ⟨_, x, hgood5, hexti.trans (hext1.trans (hext1'.trans (hext2.trans
    (hext3.trans (hext4.trans hext5))))), ⟨hent2.switch, hent2.label⟩,
    fun P fin lab env hfinal hres _ => ?_⟩
  have hfinal4 := hext5.final hfinal
  have hfinal3 := hext4.final hfinal4
  have hfinal2 := hext3.final hfinal3
  have hfinal1' := hext2.final hfinal2
  have hfinal1 := hext1'.final hfinal1'
  obtain ⟨hbrk, -⟩ := hsym P hfinal
  have hcont : GenState.Chained P (s1.csym.getD 0) g2.cont ⟨r'.2, true⟩ :=
    ⟨hlead P hfinal4, fun _ => rfl⟩
  obtain ⟨hres1, ha'⟩ := hlaid2 P fin lab _ hfinal2
    (Resolved.body (s := s1) (g := g2) hres hbrk hcont) fun h => by cases h
  obtain ⟨q, hq, htarget⟩ := hres1.brk _ rfl
  cases hq
  obtain ⟨hleads, hthird⟩ := hnext P hfinal1'
  have htest' := (htest P hfinal1 _ htarget).test hleads
  rw [hplace] at htest'
  rw [hcode] at hthird
  exact ⟨Resolved.around (s := s) (g := g) hres hres1, _, _, _, ⟨r'.2, true⟩,
    hinit P ((hext1.trans hext1').final hfinal1'), htest', hthird, ha', hjump sem P hfinal3⟩

/-! ## Switches -/

section SwitchEnd

omit hnoret [DecidableEq N]

variable {sw : SwitchState K} {v : SValue} {b : Nat} {j : FunState L K N × Nat}
  {d : GenState L K × Nat}

theorem switchEnd_dead (hsw : s1.curSwitch = some sw) (hn : sw.nocode = true)
    (hj : j = FunState.gjmp { s1 with bsym := s.bsym, curSwitch := s.curSwitch }
      (s1.bsym.getD 0)) : s.switchEnd s1 v b = (j.1.gsym b).gsym j.2 := by
  subst hj
  unfold FunState.switchEnd
  rw [hsw]
  exact if_pos hn

theorem switchEnd_live (hsw : s1.curSwitch = some sw) (hn : sw.nocode = false)
    (hj : j = FunState.gjmp { s1 with bsym := s.bsym, curSwitch := s.curSwitch }
      (s1.bsym.getD 0))
    (hd : d = (((j.1.gsym b).gen.gv 0 v).o (.instr (.search 0 sw.cases))).gjmp 0) :
    (∃ a, sw.defSym = some a ∧ s.switchEnd s1 v b =
        (FunState.gsymAddr { j.1.gsym b with gen := d.1 } d.2 a).gsym j.2) ∨
      sw.defSym = none ∧ s.switchEnd s1 v b =
        (FunState.gsym { j.1.gsym b with gen := d.1 } d.2).gsym j.2 := by
  subst hd hj
  unfold FunState.switchEnd
  rw [hsw]
  dsimp only [Option.getD_some]
  rw [if_neg (ne_true_of_eq_false hn)]
  cases sw.defSym with
  | some a => exact Or.inl ⟨a, rfl, rfl⟩
  | none => exact Or.inr ⟨rfl, rfl⟩

end SwitchEnd

theorem Built.switch (e : Expr L) {r : GenState L K × SValue} (hr : r = e.gen noret none 0 s.gen)
    (ha : Built sem a false { s with
      gen := (r.1.gjmp 0).1, bsym := some 0, curSwitch := some ⟨[], none, s.gen.dead⟩ } s1) :
    Built sem (.switch e a) last s (s.switchEnd s1 r.2 (r.1.gjmp 0).2) := by
  intro g rest hgood
  obtain ⟨sites, sT, sF, hgood1, hext1, hvalue⟩ := switchStart_built hnoret hgood e hr
  have hgood1' := FunState.Good.swapBrk (b := some 0) hgood1.cons_nil
  obtain ⟨g2, x, hgood2, hext2, hent2, hlaid2⟩ :=
    ha _ _ ⟨hgood1'.held, hgood1'.keys, hgood1'.nocode, hgood1'.ind⟩
  obtain ⟨sw, hsw, hnocode, hadd⟩ := hent2.switch _ rfl
  have hgood2' := FunState.Good.swapBrk (b := s.bsym) hgood2
  have hgood2'' : FunState.Good { s1 with bsym := s.bsym, curSwitch := s.curSwitch }
      { g2 with brk := g.brk } _ :=
    ⟨hgood2'.held, hgood2'.keys, hgood2'.nocode, hgood2'.ind⟩
  obtain ⟨sites', hgood3, hext3, hjump⟩ := gjmpChain_built (S := S) hgood2''
  generalize hj : FunState.gjmp { s1 with bsym := s.bsym, curSwitch := s.curSwitch }
    (s1.bsym.getD 0) = j at hgood3 hext3 hjump
  replace hj := hj.symm
  have hperm : ((j.2, sites') :: ((r.1.gjmp 0).2, sites) :: (r.2.jtrue, sT) :: (r.2.jfalse, sF) ::
      rest).Perm (((r.1.gjmp 0).2, sites) :: (r.2.jtrue, sT) :: (r.2.jfalse, sF) ::
        (j.2, sites') :: rest) :=
    List.perm_append_comm_assoc [(j.2, sites')] [(_, sites), (_, sT), (_, sF)] rest
  obtain ⟨hgood4, hext4, hsym4⟩ := gsym_built (S := S) (hgood3.perm hperm)
  generalize hs4 : j.1.gsym (r.1.gjmp 0).2 = s4 at hgood4 hext4 hsym4
  replace hs4 := hs4.symm
  obtain ⟨gen', hend, hgood5, hext5, hrun⟩ : ∃ gen', s.switchEnd s1 r.2 (r.1.gjmp 0).2 =
      { s1 with bsym := s.bsym, curSwitch := s.curSwitch, gen := gen' } ∧
      (s.switchEnd s1 r.2 (r.1.gjmp 0).2).Good { g2 with brk := g.brk } rest ∧
      Extends s4.gen.code (s.switchEnd s1 r.2 (r.1.gjmp 0).2).gen.code ∧
      ∀ P, Final P (s.switchEnd s1 r.2 (r.1.gjmp 0).2).gen.code →
        GenState.Chained P j.2 sites' (s.switchEnd s1 r.2 (r.1.gjmp 0).2).gen.place ∧
          (sw.nocode = false → ∃ aT aF, Lead P sT aT ∧ Lead P sF aF ∧
            ∀ v (m : Machine S), r.2.At s4.gen aT aF v m →
              ∃ m', Reaches sem P m m' ∧ m'.st = m.st ∧
                (⟨sw.cases, sw.defSym, x.labels⟩ : Entries K N).Goes sem v
                  (s.switchEnd s1 r.2 (r.1.gjmp 0).2).gen.place m') := by
    cases hn : sw.nocode with
    | true =>
      have hchain : s4.Good { g2 with brk := g.brk } ((j.2, sites') :: rest) :=
        hgood4.tail.tail
      obtain ⟨hgood5, hext5, hsym5⟩ := gsym_built (S := S) hchain
      have heq : s.switchEnd s1 r.2 (r.1.gjmp 0).2 = s4.gsym j.2 := by
        rw [switchEnd_dead hsw hn hj, ← hs4]
      rw [heq]
      refine ⟨(s4.gsym j.2).gen, ?_, hgood5, hext5, fun P hfinal =>
        ⟨(hsym5 P hfinal).1, fun h => by cases h⟩⟩
      rw [hs4, hj]
      rfl
    | false =>
      have hcases := switchEnd_live (v := r.2) (b := (r.1.gjmp 0).2) hsw hn hj rfl
      rw [← hs4] at hcases
      obtain ⟨gen', heq, hgood5, hext5, hsearch⟩ :=
        switchSearch_built sem hgood4 rfl hcases x.labels
      refine ⟨gen', ?_, hgood5, hext5, fun P hfinal => ?_⟩
      · rw [heq, hs4, hj]
        rfl
      · exact ⟨(hsearch P hfinal).1, fun _ => (hsearch P hfinal).2⟩
  refine ⟨{ g2 with brk := g.brk }, ⟨[], none, x.labels⟩, hgood5,
    hext1.trans (hext2.trans (hext3.trans (hext4.trans hext5))),
    ⟨fun sw' hsw' => ⟨sw', ?_, rfl, fun _ => ⟨(List.append_nil _).symm, Option.or_none.symm⟩⟩,
      fun n => ?_⟩, fun P fin lab env hfinal hres _ => ?_⟩
  · rw [hend]
    exact hsw'
  · rw [hend]
    exact hent2.label n
  have hfinal4 := hext5.final hfinal
  have hfinal2 := hext3.final (hext4.final hfinal4)
  obtain ⟨hchain, hsearch⟩ := hrun P hfinal
  obtain ⟨hbrk, hto⟩ := hjump sem P _ hchain
  generalize (s.switchEnd s1 r.2 (r.1.gjmp 0).2).gen.place = q at hchain hsearch hbrk hto ⊢
  rw [hend] at hres
  have hbody : Resolved P fin lab { env with brk := some q, cases := !sw.nocode } s1 g2 :=
    ⟨fun t ht => ⟨q, rfl, by rwa [ht] at hbrk⟩, hres.cont, hres.ret, hres.forward, hres.defined,
      fun sw' hsw' => by
        rw [hsw] at hsw'
        cases hsw'
        rfl⟩
  obtain ⟨hres1, ha'⟩ := hlaid2 P fin lab _ hfinal2 hbody fun h => by cases h
  refine ⟨⟨hres.brk, hres1.cont, hres1.ret, hres1.forward, hres1.defined, hres.cases⟩,
    _, _, x, !sw.nocode, fun m hm => ?_, fun hlive => ?_, ha', hto, rfl⟩
  · have hn : sw.nocode = false := hnocode.trans (GenState.here_iff.1 hm).2
    obtain ⟨aT, aF, hT, hF, hat⟩ := hsearch hn
    have hval := hvalue P (hext2.final hfinal2) s4.gen (hsym4 P hfinal4).1 aT aF hT hF
    obtain ⟨hcases, hdef⟩ := hadd (GenState.here_iff.1 hm).2
    rw [hcases, hdef] at hat
    exact hval.reach (fun _ v m' hv => hat v m' hv) m hm
  · rw [hnocode]
    exact hlive

end Expressions

end Plain

end TccRiscv64.Gen.Flow
