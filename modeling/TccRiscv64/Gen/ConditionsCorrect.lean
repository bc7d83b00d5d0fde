import TccRiscv64.Gen.ConditionsSilent

set_option autoImplicit false

/-! # The code of logical and conditional expressions is right

Run in the code in the end, with all chains patched, an expression does what C says and has the value
that C gives to it, whether it is used as a value or in a test. -/

namespace TccRiscv64.Gen.Flow

open TccRiscv64.Data.Backpatch TccRiscv64.Data.Backpatch.Code

variable {L K S : Type}

/-! ## What a run leads to -/

/-- From `m` the machine comes to what `r` says: to a state with the value, or to the end of the
program. The registers below `d` keep their values. -/
structure Computes (sem : Sem L K S) (P : Nat → Slot (Instr L K)) (d : Nat) (m : Machine S)
    (r : Option (BitVec 64) × S) (Q : BitVec 64 → Machine S → Prop) : Prop where
  value : ∀ x, r.1 = some x → ∃ m', Reaches sem P m m' ∧ m'.st = r.2 ∧
    (∀ k < d, m'.regs k = m.regs k) ∧ Q x m'
  ended : r.1 = none → ∃ m', Reaches sem P m m' ∧ m'.pc = none ∧ m'.st = r.2

namespace Computes

variable {sem : Sem L K S} {P : Nat → Slot (Instr L K)} {d d' : Nat} {m m' : Machine S}
  {r : Option (BitVec 64) × S} {Q Q' : BitVec 64 → Machine S → Prop}
  {k : BitVec 64 → S → Option (BitVec 64) × S}

theorem mono (h : Computes sem P d m r Q) (hd : d' ≤ d) : Computes sem P d' m r Q where
  value x hx := by
    obtain ⟨m', hreach, hst, hregs, hQ⟩ := h.value x hx
    exact ⟨m', hreach, hst, fun k hk => hregs k (hk.trans_le hd), hQ⟩
  ended := h.ended

/-- The registers of the value are those that were kept. -/
theorem frame (h : Computes sem P d m r Q) :
    Computes sem P d m r fun x m' => Q x m' ∧ ∀ k < d, m'.regs k = m.regs k where
  value x hx := by
    obtain ⟨m', hreach, hst, hregs, hQ⟩ := h.value x hx
    exact ⟨m', hreach, hst, hregs, hQ, hregs⟩
  ended := h.ended

/-- Steps in front of a run. -/
theorem of_reaches (hreach : Reaches sem P m m') (hregs : ∀ k < d, m'.regs k = m.regs k)
    (h : Computes sem P d m' r Q) : Computes sem P d m r Q where
  value x hx := by
    obtain ⟨m'', hreach', hst, hregs', hQ⟩ := h.value x hx
    exact ⟨m'', hreach.trans hreach', hst, fun k hk => (hregs' k hk).trans (hregs k hk), hQ⟩
  ended hnone := by
    obtain ⟨m'', hreach', hpc, hst⟩ := h.ended hnone
    exact ⟨m'', hreach.trans hreach', hpc, hst⟩

/-- The machine has the value. -/
theorem pure {x : BitVec 64} {st : S} (hreach : Reaches sem P m m') (hst : m'.st = st)
    (hregs : ∀ k < d, m'.regs k = m.regs k) (hQ : Q x m') :
    Computes sem P d m (some x, st) Q where
  value y hy := by
    cases hy
    exact ⟨m', hreach, hst, hregs, hQ⟩
  ended hnone := by cases hnone

/-- A run behind another one. -/
theorem andThen (h : Computes sem P d m r Q)
    (hk : ∀ x m', Q x m' → m'.st = r.2 → Computes sem P d m' (k x r.2) Q') :
    Computes sem P d m (Flow.andThen r k) Q' := by
  obtain ⟨x, st⟩ := r
  cases x with
  | none =>
    refine ⟨fun x hx => ?_, h.ended⟩
    cases hx
  | some x =>
    obtain ⟨m', hreach, hst, hregs, hQ⟩ := h.value x rfl
    exact of_reaches hreach hregs (hk x m' hQ hst)

/-- Steps behind a run. -/
theorem imp (h : Computes sem P d m r Q)
    (hk : ∀ x m', Q x m' → ∃ m'', Reaches sem P m' m'' ∧ m''.st = m'.st ∧
      (∀ k < d, m''.regs k = m'.regs k) ∧ Q' x m'') : Computes sem P d m r Q' where
  value x hx := by
    obtain ⟨m', hreach, hst, hregs, hQ⟩ := h.value x hx
    obtain ⟨m'', hreach', hst', hregs', hQ'⟩ := hk x m' hQ
    exact ⟨m'', hreach.trans hreach', hst'.trans hst, fun k hk => (hregs' k hk).trans (hregs k hk),
      hQ'⟩
  ended := h.ended

/-- Another reading of the value. -/
theorem map {g : BitVec 64 → BitVec 64} (h : Computes sem P d m r Q)
    (hk : ∀ x m', Q x m' → ∃ m'', Reaches sem P m' m'' ∧ m''.st = m'.st ∧
      (∀ k < d, m''.regs k = m'.regs k) ∧ Q' (g x) m'') :
    Computes sem P d m (Flow.andThen r fun x st => (some (g x), st)) Q' := by
  refine h.andThen fun x m' hQ hst => ?_
  obtain ⟨m'', hreach, hst', hregs, hQ'⟩ := hk x m' hQ
  exact .pure hreach (hst'.trans hst) hregs hQ'

end Computes

/-! ## Parts of the code generator -/

section Parts

variable {s : GenState L K} {chains : List (Nat × List Nat)} {sites sT sF : List Nat} {t : Nat}
  {v : SValue}

/-- A chain that goes on has jumps. -/
theorem ne_zero_of_subset {c c' : Code (Instr L K)} {chains' : List (Nat × List Nat)} {t' : Nat}
    {sites' : List Nat} (h : Held c ((t, sites) :: chains))
    (h' : Held c' ((t', sites') :: chains')) (hsub : sites ⊆ sites') (ht : t ≠ 0) : t' ≠ 0 := by
  obtain ⟨k, hk⟩ := List.exists_mem_of_ne_nil _ (h.sites_ne_zero.2 ht)
  exact h'.sites_ne_zero.1 (List.ne_nil_of_mem (hsub hk))

theorem gjmp_spec (sem : Sem L K S) (hheld : Held s.code chains) (hind : s.code.ind ≠ 0) :
    ∃ sites, Held (s.gjmp 0).1.code (((s.gjmp 0).2, sites) :: chains) ∧ s.Grows (s.gjmp 0).1 ∧
      ∀ P, Final P (s.gjmp 0).1.code → ∀ x, Lead P sites x → s.dead = false →
        ∀ m : Machine S, m.pc = some s.code.ind →
          Reaches sem P m { m with pc := some x } ∧ (s.gjmp 0).2 ≠ 0 := by
  obtain ⟨sites, hheld', hgrows, -, htested⟩ :=
    gvtstJump_spec sem hind hheld.cons_nil .always none none
  exact ⟨sites, hheld', hgrows, fun P hfinal x hlead hlive m hpc =>
    (htested P hfinal x hlead hlive m hpc).jumps rfl⟩

/-- **`gvtst_set`**: the chain comes to those who know already. -/
theorem gvtstSet_spec (inv : Bool) (hheld : v.Held s sT sF ((t, sites) :: chains)) :
    ∃ sT' sF', (SValue.cmp (s.gvtstSet inv t v).2).Held (s.gvtstSet inv t v).1 sT' sF' chains ∧
      s.Grows (s.gvtstSet inv t v).1 ∧ sT ⊆ sT' ∧ sF ⊆ sF' ∧
      (sites ⊆ if inv then sF' else sT') ∧
      (∀ (aT aF : Nat) (m : Machine S) x, v.At s aT aF x m →
        (SValue.cmp (s.gvtstSet inv t v).2).At (s.gvtstSet inv t v).1 aT aF (truth (x != 0)) m) ∧
      ∀ (aT aF : Nat) (m : Machine S), t ≠ 0 → m.pc = some (if inv then aF else aT) →
        (SValue.cmp (s.gvtstSet inv t v).2).At (s.gvtstSet inv t v).1 aT aF (truth !inv) m := by
  rw [SValue.Held, ← v.jtrue_toCmp, ← v.jfalse_toCmp] at hheld
  cases inv with
  | false =>
    obtain ⟨hheld', hext, hindEq⟩ := (hheld.perm (.cons _ (.swap _ _ _))).append
    have hne := fun h => ne_zero_of_subset hheld hheld' (List.subset_append_left _ _) h
    have hne' := fun h => ne_zero_of_subset (hheld.tail.tail) hheld'
      (List.subset_append_right _ _) h
    refine ⟨_, _, hheld', ⟨hext, rfl⟩, List.subset_append_left _ _, List.Subset.refl _,
      List.subset_append_right _ _, fun aT aF m x hat => ?_, fun aT aF m ht hpc => ?_⟩
    · cases hat.toCmp with
      | here hpc hlive hval => exact .here (hpc.trans (congrArg some hindEq.symm)) hlive hval
      | jtrue hpc hchain hval => exact .jtrue hpc (hne hchain) hval
      | jfalse hpc hchain hval => exact .jfalse hpc hchain hval
    · exact .jtrue hpc (hne' ht) rfl
  | true =>
    obtain ⟨hheld', hext, hindEq⟩ :=
      ((hheld.perm (.swap _ _ _)).perm (.cons _ (.swap _ _ _))).append
    have hne := fun h => ne_zero_of_subset hheld.tail hheld' (List.subset_append_left _ _) h
    have hne' := fun h => ne_zero_of_subset (hheld.tail.tail) hheld'
      (List.subset_append_right _ _) h
    refine ⟨_, _, hheld'.perm (.swap _ _ _), ⟨hext, rfl⟩, List.Subset.refl _,
      List.subset_append_left _ _, List.subset_append_right _ _, fun aT aF m x hat => ?_,
      fun aT aF m ht hpc => ?_⟩
    · cases hat.toCmp with
      | here hpc hlive hval => exact .here (hpc.trans (congrArg some hindEq.symm)) hlive hval
      | jtrue hpc hchain hval => exact .jtrue hpc hchain hval
      | jfalse hpc hchain hval => exact .jfalse hpc (hne hchain) hval
    · exact .jfalse hpc (hne' ht) rfl

/-- What comes of the value of an operand when the operands behind it, or the end of them, are dealt
with: those who know the result by the chain `t` have it, and so do those who have the value of the
operand. -/
structure Ends (s : GenState L K) (v : SValue) (sT sF sites : List Nat) (l : Landor)
    (chains : List (Nat × List Nat)) (r : GenState L K × SValue) : Prop where
  held : ∃ sT' sF', r.2.Held r.1 sT' sF' chains ∧
    ∀ P, Final P r.1.code → ∀ aT aF, Lead P sT' aT → Lead P sF' aF →
      ∃ a aT' aF', Lead P sites a ∧ Lead P sT aT' ∧ Lead P sF aF' ∧
        (l.t ≠ 0 → ∀ m : Machine S, m.pc = some a → r.2.At r.1 aT aF (truth !l.isAnd) m) ∧
        ∀ (m : Machine S) x, v.At s aT' aF' x m → r.2.At r.1 aT aF (truth (x != 0)) m
  grows : s.Grows r.1
  notReg : ∀ k, r.2 ≠ .reg k

theorem gsym_nocodeInc (s : GenState L K) (t : Nat) :
    (s.nocodeInc.gsym t).nocodeDec = s.gsym t := by
  unfold GenState.gsym
  split <;> rfl

/-- An operand that decides: everything behind it is dropped. -/
theorem ends_decides {l : Landor} (hn : s.nocode = 0) (hc : v.condition3way = some !l.isAnd)
    (hheld : v.Held s sT sF ((l.t, sites) :: chains)) :
    Ends (S := S) s v sT sF sites l chains (s.gsym l.t, .const (truth !l.isAnd)) := by
  cases v with
  | reg r => cases hc
  | cmp c => cases hc
  | const v =>
    obtain ⟨rfl, rfl, hrest⟩ := hheld.plain rfl rfl
    obtain ⟨hheld', hgrows, hindEq, hlive, hon, hlead⟩ := GenState.gsym_spec hrest
    refine ⟨⟨[], [], hheld'.cons_nil.cons_nil, fun P hfinal aT aF _ _ =>
      ⟨s.code.ind, 0, 0, hlead P hfinal, .nil, .nil, fun ht m hpc => ?_, fun m x hat => ?_⟩⟩,
      hgrows, fun k hk => by cases hk⟩
    · exact .here (hpc.trans (congrArg some hindEq.symm)) (hon hn ht) rfl
    · obtain ⟨hpc, hlive', rfl⟩ := hat.plain rfl rfl
      refine .here (hpc.trans (congrArg some hindEq.symm)) (hlive hlive') ?_
      exact congrArg truth (Option.some.inj hc)

/-- **The last operand**. -/
theorem landorEnd_spec {l : Landor} (hn : s.nocode = 0) (hf : l.f = false)
    (hcc : l.cc = true → l.t = 0) (hheld : v.Held s sT sF ((l.t, sites) :: chains)) :
    Ends (S := S) s v sT sF sites l chains (s.landorEnd l v) := by
  have hset : Ends (S := S) s v sT sF sites l chains
      ((s.gvtstSet l.isAnd l.t v).1, .cmp (s.gvtstSet l.isAnd l.t v).2) := by
    obtain ⟨sT', sF', hheld', hgrows, hsT, hsF, hsites, hat, hchain⟩ :=
      gvtstSet_spec (S := S) l.isAnd hheld
    refine ⟨⟨sT', sF', hheld', fun P hfinal aT aF hT hF => ⟨if l.isAnd then aF else aT, aT, aF,
      ?_, fun k hk => hT k (hsT hk), fun k hk => hF k (hsF hk), fun ht m hpc => hchain aT aF m ht hpc,
      fun m x h => hat aT aF m x h⟩⟩, hgrows, fun k hk => by cases hk⟩
    intro k hk
    cases hAnd : l.isAnd with
    | false =>
      rw [hAnd] at hsites
      exact hT k (hsites hk)
    | true =>
      rw [hAnd] at hsites
      exact hF k (hsites hk)
  unfold GenState.landorEnd
  rcases GenState.condition3way_cases v l.isAnd with hc | hc | hc
  · rw [GenState.landorHead_open hf hc]
    dsimp only
    rw [hf, Bool.or_false, if_neg Bool.false_ne_true]
    exact hset
  · rw [GenState.landorHead_keeps hf hc]
    dsimp only
    rw [hf, Bool.or_false]
    split
    · rename_i h
      cases v with
      | reg r => cases hc
      | cmp c => cases hc
      | const v =>
        have ht := hcc h
        obtain ⟨rfl, rfl, hrest⟩ := hheld.plain rfl rfl
        have hnil : sites = [] := not_not.1 fun hne => hrest.sites_ne_zero.1 hne ht
        rw [if_neg Bool.false_ne_true, ht, Bool.xor_false, hnil]
        refine ⟨⟨[], [], hrest.tail.cons_nil.cons_nil, fun P hfinal aT aF _ _ =>
          ⟨0, 0, 0, .nil, .nil, .nil, fun ht' => absurd ht ht', fun m x hat => ?_⟩⟩, .refl s,
          fun k hk => by cases hk⟩
        obtain ⟨hpc, hlive, rfl⟩ := hat.plain rfl rfl
        exact .here hpc hlive (congrArg truth (Option.some.inj hc))
    · exact hset
  · rw [GenState.landorHead_decides hf hc]
    dsimp only
    rw [Bool.or_true, if_pos rfl, if_pos rfl, Bool.xor_true]
    have hvpop : s.nocodeInc.vpop v = s.nocodeInc := by
      cases v with
      | reg r => rfl
      | cmp c => cases hc
      | const v => rfl
    rw [hvpop, gsym_nocodeInc]
    exact ends_decides hn hc hheld

end Parts

/-! ## Expressions -/

/-- `r` is the code of an expression at depth `d` behind `s`. -/
structure Correct (sem : Sem L K S) (d : Nat) (s : GenState L K) (chains : List (Nat × List Nat))
    (out : S → Option (BitVec 64) × S) (r : GenState L K × SValue) : Prop where
  held : ∃ sT sF, r.2.Held r.1 sT sF chains ∧
    ∀ P, Final P r.1.code → ∀ aT aF, Lead P sT aT → Lead P sF aF → s.dead = false →
      ∀ m : Machine S, m.pc = some s.code.ind →
        Computes sem P d m (out m.st) (r.2.At r.1 aT aF)
  grows : s.Grows r.1
  inReg : ∀ k, r.2 = .reg k → k = d

/-- `r` is the code of the last operands behind `s`, whose value is `out`. -/
structure CorrectOperand (sem : Sem L K S) (d : Nat) (s : GenState L K) (l : Landor)
    (sites : List Nat) (chains : List (Nat × List Nat)) (out : S → Option (BitVec 64) × S)
    (r : GenState L K × SValue) : Prop where
  held : ∃ sT sF, r.2.Held r.1 sT sF chains ∧
    ∀ P, Final P r.1.code → ∀ aT aF, Lead P sT aT → Lead P sF aF →
      ∃ a, Lead P sites a ∧
        (l.t ≠ 0 → ∀ m : Machine S, m.pc = some a → r.2.At r.1 aT aF (truth !l.isAnd) m) ∧
        (s.dead = false → ∀ m : Machine S, m.pc = some s.code.ind →
          Computes sem P d m (andThen (out m.st) fun y st => (some (truth (y != 0)), st))
            (r.2.At r.1 aT aF))
  grows : s.Grows r.1
  notReg : ∀ k, r.2 ≠ .reg k

/-- The code of an expression, also as the rest of operands. -/
structure Expr.Right (noret : L → Bool) (sem : Sem L K S) (e : Expr L) : Prop where
  value : ∀ (d : Nat) (s : GenState L K) chains, s.nocode = 0 → s.code.ind ≠ 0 →
    Held s.code chains → Correct sem d s chains (e.eval sem) (e.gen noret none d s)
  operand : ∀ (l : Landor) (d : Nat) (s : GenState L K) sites chains, s.nocode = 0 →
    s.code.ind ≠ 0 → l.f = false → (l.cc = true → l.t = 0) →
      Held s.code ((l.t, sites) :: chains) →
        CorrectOperand sem d s l sites chains (e.eval sem) (e.gen noret (some l) d s)

section Right

variable {noret : L → Bool} {sem : Sem L K S} {e a b c : Expr L} {s : GenState L K}
  {chains : List (Nat × List Nat)} {sites sT sF : List Nat} {d t : Nat} {v : SValue}

/-- An expression behind which the operands end. -/
theorem Correct.operand {l : Landor} {out : S → Option (BitVec 64) × S} {r : GenState L K × SValue}
    (h : Correct sem d s ((l.t, sites) :: chains) out r) (hn : s.nocode = 0) (hf : l.f = false)
    (hcc : l.cc = true → l.t = 0) :
    CorrectOperand sem d s l sites chains out (r.1.landorEnd l r.2) := by
  obtain ⟨⟨sT, sF, hheld, hrun⟩, hgrows, -⟩ := h
  obtain ⟨⟨sT', sF', hheld', hends⟩, hgrows', hnotReg⟩ :=
    landorEnd_spec (S := S) (hgrows.nocode.trans hn) hf hcc hheld
  refine ⟨⟨sT', sF', hheld', fun P hfinal aT aF hT hF => ?_⟩, hgrows.trans hgrows', hnotReg⟩
  obtain ⟨a, aT', aF', ha, hT', hF', hchain, hat⟩ := hends P hfinal aT aF hT hF
  refine ⟨a, ha, hchain, fun hlive m hpc => ?_⟩
  refine (hrun P (hgrows'.code.final hfinal) aT' aF' hT' hF' hlive m hpc).map fun x m' h => ?_
  exact ⟨m', .refl, rfl, fun _ _ => rfl, hat m' x h⟩

/-- An expression that is no chain of operands. -/
theorem Expr.Right.of_value (hl : e.landor? = none)
    (hvalue : ∀ (d : Nat) (s : GenState L K) chains, s.nocode = 0 → s.code.ind ≠ 0 →
      Held s.code chains → Correct sem d s chains (e.eval sem) (e.gen noret none d s)) :
    e.Right noret sem where
  value := hvalue
  operand l d s sites chains hn hind hf hcc hheld := by
    rw [Expr.gen_some noret (by rw [hl]; exact (Option.some_ne_none _).symm)]
    exact (hvalue d s _ hn hind hheld).operand hn hf hcc

/-- The value of `&&` and `||` is a truth value. -/
theorem eval_landor_truth (isAnd : Bool) (a b : Expr L) (st : S) :
    andThen ((Expr.landor isAnd a b).eval sem st) (fun y st => (some (truth (y != 0)), st))
      = (Expr.landor isAnd a b).eval sem st := by
  unfold Expr.eval
  obtain ⟨x, st'⟩ := a.eval sem st
  cases x with
  | none => rfl
  | some x =>
    show andThen (if (x != 0) = isAnd then _ else _) _ = if (x != 0) = isAnd then _ else _
    split
    · obtain ⟨y, st''⟩ := b.eval sem st'
      cases y with
      | none => rfl
      | some y =>
        show (some (truth (truth (y != 0) != 0)), st'') = (some (truth (y != 0)), st'')
        rw [truth_ne_zero]
    · show (some (truth (truth (!isAnd) != 0)), st') = (some (truth !isAnd), st')
      rw [truth_ne_zero]

/-- **Operands**: the first one and the rest of them. -/
theorem landor_right {l : Landor} (ha : a.Right noret sem) (hb : b.Right noret sem)
    (hn : s.nocode = 0) (hind : s.code.ind ≠ 0) (hf : l.f = false) (hcc : l.cc = true → l.t = 0)
    (hheld : Held s.code ((l.t, sites) :: chains)) :
    CorrectOperand sem d s l sites chains ((Expr.landor l.isAnd a b).eval sem)
      (b.gen noret (some ((a.gen noret none d s).1.landorNext l (a.gen noret none d s).2).2) d
        ((a.gen noret none d s).1.landorNext l (a.gen noret none d s).2).1) := by
  obtain ⟨⟨sT, sF, hheld1, hrun1⟩, hgrows1, -⟩ := ha.value d s _ hn hind hheld
  generalize a.gen noret none d s = ra at hheld1 hrun1 hgrows1
  have hn1 := hgrows1.nocode.trans hn
  have hind1 := hgrows1.ind_ne hind
  -- the value that decides for the whole, or goes on
  have heval : ∀ st, (Expr.landor l.isAnd a b).eval sem st = andThen (a.eval sem st) fun x st =>
      if (x != 0) = l.isAnd then andThen (b.eval sem st) fun y st => (some (truth (y != 0)), st)
      else (some (truth !l.isAnd), st) := fun _ => rfl
  unfold GenState.landorNext
  rcases GenState.condition3way_cases ra.2 l.isAnd with hc | hc | hc
  · rw [GenState.landorHead_open hf hc]
    dsimp only
    obtain ⟨sites2, hheld2, hgrows2, hsub, htest⟩ := gvtst_spec sem hn1 hind1 l.isAnd hheld1
    have hnext := hb.operand { l with cc := false, t := (ra.1.gvtst l.isAnd l.t ra.2).2 } d
      (ra.1.gvtst l.isAnd l.t ra.2).1 sites2 chains (hgrows2.nocode.trans hn1)
      (hgrows2.ind_ne hind1) hf (fun h => by cases h) hheld2
    obtain ⟨⟨sT', sF', hheld3, hrun3⟩, hgrows3, hnotReg⟩ := hnext
    refine ⟨⟨sT', sF', hheld3, fun P hfinal aT aF hT hF => ?_⟩,
      hgrows1.trans (hgrows2.trans hgrows3), hnotReg⟩
    obtain ⟨x, hx, hchain, hrun⟩ := hrun3 P hfinal aT aF hT hF
    obtain ⟨aT', aF', hT', hF', htested⟩ := htest P (hgrows3.code.final hfinal) x hx
    refine ⟨x, fun k hk => hx k (hsub hk),
      fun ht => hchain (ne_zero_of_subset hheld1.tail.tail hheld2 hsub ht), fun hlive m hpc => ?_⟩
    rw [eval_landor_truth, heval]
    refine (hrun1 P ((hgrows2.trans hgrows3).code.final hfinal) aT' aF' hT' hF' hlive m hpc).andThen
      fun y m' hat hst => ?_
    obtain ⟨hjumps, hgoesOn⟩ := htested m' y hat
    split
    · rename_i hy
      obtain ⟨hreach, hlive'⟩ := hgoesOn (by rw [hy, Bool.xor_self])
      refine .of_reaches hreach (fun _ _ => rfl) ?_
      rw [← hst]
      exact hrun hlive' _ rfl
    · rename_i hy
      have hxor : (y != 0 ^^ l.isAnd) = true := by
        revert hy
        cases y != 0 <;> cases l.isAnd <;> decide
      obtain ⟨hreach, hne⟩ := hjumps hxor
      exact .pure hreach hst (fun _ _ => rfl) (hchain hne _ rfl)
  · rw [GenState.landorHead_keeps hf hc]
    dsimp only
    obtain ⟨s1, v⟩ := ra
    cases v with
    | reg r => cases hc
    | cmp c => cases hc
    | const v =>
      obtain ⟨rfl, rfl, hrest⟩ := hheld1.plain rfl rfl
      obtain ⟨⟨sT', sF', hheld3, hrun3⟩, hgrows3, hnotReg⟩ :=
        hb.operand l d s1 sites chains hn1 hind1 hf hcc hrest
      refine ⟨⟨sT', sF', hheld3, fun P hfinal aT aF hT hF => ?_⟩, hgrows1.trans hgrows3, hnotReg⟩
      obtain ⟨x, hx, hchain, hrun⟩ := hrun3 P hfinal aT aF hT hF
      refine ⟨x, hx, hchain, fun hlive m hpc => ?_⟩
      rw [eval_landor_truth, heval]
      refine (hrun1 P (hgrows3.code.final hfinal) 0 0 .nil .nil hlive m hpc).andThen
        fun y m' hat hst => ?_
      obtain ⟨hpc', hlive', rfl⟩ := hat.plain rfl rfl
      rw [if_pos (Option.some.inj hc), ← hst]
      exact hrun hlive' m' hpc'
  · rw [GenState.landorHead_decides hf hc]
    dsimp only
    have hvpop : ra.1.nocodeInc.vpop ra.2 = ra.1.nocodeInc := by
      cases hv : ra.2 with
      | reg r => rfl
      | cmp c =>
        rw [hv] at hc
        cases hc
      | const v => rfl
    rw [hvpop, (b.silent noret).decided _ d _ ra.1.dead_nocodeInc rfl, gsym_nocodeInc]
    obtain ⟨⟨sT', sF', hheld', hends⟩, hgrows', hnotReg⟩ := ends_decides (S := S) hn1 hc hheld1
    refine ⟨⟨sT', sF', hheld', fun P hfinal aT aF hT hF => ?_⟩, hgrows1.trans hgrows', hnotReg⟩
    obtain ⟨x, aT', aF', hx, hT', hF', hchain, hat⟩ := hends P hfinal aT aF hT hF
    refine ⟨x, hx, hchain, fun hlive m hpc => ?_⟩
    rw [eval_landor_truth, heval]
    refine (hrun1 P (hgrows'.code.final hfinal) aT' aF' hT' hF' hlive m hpc).andThen
      fun y m' h hst => ?_
    have hy : (y != 0) = !l.isAnd := by
      cases hv : ra.2 with
      | reg r =>
        rw [hv] at hc
        cases hc
      | cmp c =>
        rw [hv] at hc
        cases hc
      | const v =>
        rw [hv] at hc h
        obtain ⟨-, -, rfl⟩ := h.plain rfl rfl
        exact Option.some.inj hc
    have hres := hat m' y h
    rw [hy] at hres ⊢
    rw [if_neg (Bool.not_ne_self l.isAnd)]
    exact .pure .refl hst (fun _ _ => rfl) hres

/-! ### Operators -/

variable (sem) in
/-- **`vcheck_cmp`**: the value of the first operand is a constant or in its register. -/
theorem vcheckCmp_spec (hn : s.nocode = 0) (hind : s.code.ind ≠ 0)
    (hreg : ∀ k, v = .reg k → k = d) (hheld : v.Held s sT sF chains) :
    Held (s.vcheckCmp d v).1.code chains ∧ s.Grows (s.vcheckCmp d v).1 ∧
      ((∃ y, (s.vcheckCmp d v).2 = .const y) ∨ (s.vcheckCmp d v).2 = .reg d) ∧
      ∀ P, Final P (s.vcheckCmp d v).1.code → ∃ aT aF, Lead P sT aT ∧ Lead P sF aF ∧
        ∀ (m : Machine S) x, v.At s aT aF x m → ∃ m', Reaches sem P m m' ∧ m'.st = m.st ∧
          (∀ k < d, m'.regs k = m.regs k) ∧ m'.pc = some (s.vcheckCmp d v).1.code.ind ∧
          (s.vcheckCmp d v).1.dead = false ∧ x = (s.vcheckCmp d v).2.val m' := by
  have hplain : v.jtrue = 0 → v.jfalse = 0 → s.vcheckCmp d v = (s, v) →
      Held (s.vcheckCmp d v).1.code chains ∧ s.Grows (s.vcheckCmp d v).1 ∧
        ∀ P, Final P (s.vcheckCmp d v).1.code → ∃ aT aF, Lead P sT aT ∧ Lead P sF aF ∧
          ∀ (m : Machine S) x, v.At s aT aF x m → ∃ m', Reaches sem P m m' ∧ m'.st = m.st ∧
            (∀ k < d, m'.regs k = m.regs k) ∧ m'.pc = some (s.vcheckCmp d v).1.code.ind ∧
            (s.vcheckCmp d v).1.dead = false ∧ x = (s.vcheckCmp d v).2.val m' := by
    intro hT hF heq
    obtain ⟨rfl, rfl, hrest⟩ := hheld.plain hT hF
    rw [heq]
    refine ⟨hrest, .refl s, fun P _ => ⟨0, 0, .nil, .nil, fun m x hat => ?_⟩⟩
    obtain ⟨hpc, hlive, hval⟩ := hat.plain hT hF
    exact ⟨m, .refl, rfl, fun _ _ => rfl, hpc, hlive, hval⟩
  cases v with
  | const y =>
    obtain ⟨hheld', hgrows, hrun⟩ := hplain rfl rfl rfl
    exact ⟨hheld', hgrows, Or.inl ⟨y, rfl⟩, hrun⟩
  | reg k =>
    obtain rfl := hreg k rfl
    obtain ⟨hheld', hgrows, hrun⟩ := hplain rfl rfl rfl
    exact ⟨hheld', hgrows, Or.inr rfl, hrun⟩
  | cmp c =>
    have heq : s.vcheckCmp d (.cmp c) = (s.gv d (.cmp c), .reg d) := if_pos hn
    rw [heq]
    obtain ⟨hheld', hgrows, hload⟩ := gv_spec sem hn hind d hheld
    refine ⟨hheld', hgrows, Or.inr rfl, fun P hfinal => ?_⟩
    obtain ⟨aT, aF, hT, hF, hload⟩ := hload P hfinal
    refine ⟨aT, aF, hT, hF, fun m x hat => ?_⟩
    obtain ⟨hreach, hlive⟩ := hload m x hat
    refine ⟨_, hreach, rfl, fun k hk => Function.update_of_ne hk.ne _ _, rfl, hlive, ?_⟩
    exact (Function.update_self d x m.regs).symm

/-- The operands of an operator are in their registers. -/
structure Operands (sem : Sem L K S) (P : Nat → Slot (Instr L K)) (s : GenState L K) (d : Nat)
    (m : Machine S) (x y : BitVec 64) : Prop where
  exists_reaches : ∃ m', Reaches sem P m m' ∧ m'.st = m.st ∧ (∀ k < d, m'.regs k = m.regs k) ∧
    m'.pc = some s.code.ind ∧ m'.regs d = x ∧ m'.regs (d + 1) = y
  live : s.dead = false

variable (sem) in
theorem gv2_spec {va vb : SValue} (hn : s.nocode = 0) (hind : s.code.ind ≠ 0)
    (ha : (∃ y, va = .const y) ∨ va = .reg d) (hb : ∀ k, vb = .reg k → k = d + 1)
    (hheld : vb.Held s sT sF chains) :
    Held (s.gv2 d va vb).code chains ∧ s.Grows (s.gv2 d va vb) ∧
      ∀ P, Final P (s.gv2 d va vb).code → ∃ aT aF, Lead P sT aT ∧ Lead P sF aF ∧
        ∀ (m : Machine S) y, vb.At s aT aF y m →
          Operands sem P (s.gv2 d va vb) d m (va.val m) y := by
  have hplain : va.jtrue = 0 ∧ va.jfalse = 0 := by
    rcases ha with ⟨y, rfl⟩ | rfl
    · exact ⟨rfl, rfl⟩
    · exact ⟨rfl, rfl⟩
  have hval : ∀ (m : Machine S) (y : BitVec 64) pc,
      va.val (S := S) { m with pc := pc, regs := Function.update m.regs (d + 1) y } = va.val m := by
    intro m y pc
    rcases ha with ⟨y', rfl⟩ | rfl
    · rfl
    · exact Function.update_of_ne (Nat.succ_ne_self d).symm y m.regs
  have hplainHeld : ∀ {s : GenState L K}, Held s.code chains → va.Held s [] [] chains := by
    intro s h
    rw [SValue.Held, hplain.1, hplain.2]
    exact h.cons_nil.cons_nil
  by_cases hcmp : ∃ c, vb = .cmp c
  · obtain ⟨c, rfl⟩ := hcmp
    obtain ⟨hheld1, hgrows1, hload1⟩ := gv_spec sem hn hind (d + 1) hheld
    obtain ⟨hheld2, hgrows2, hload2⟩ := gv_spec (v := va) sem (hgrows1.nocode.trans hn)
      (hgrows1.ind_ne hind) d (hplainHeld hheld1)
    refine ⟨hheld2, hgrows1.trans hgrows2, fun P hfinal => ?_⟩
    obtain ⟨aT, aF, hT, hF, hload1⟩ := hload1 P (hgrows2.code.final hfinal)
    obtain ⟨aT', aF', -, -, hload2⟩ := hload2 P hfinal
    refine ⟨aT, aF, hT, hF, fun m y hat => ?_⟩
    obtain ⟨hreach1, hlive1⟩ := hload1 m y hat
    obtain ⟨hreach2, hlive2⟩ := hload2
      { m with pc := some _, regs := Function.update m.regs (d + 1) y } (va.val m)
      (.here rfl hlive1 (hval m y _).symm)
    refine ⟨⟨_, hreach1.trans hreach2, rfl, fun k hk => ?_, rfl, Function.update_self _ _ _, ?_⟩,
      hlive2⟩
    · show Function.update (Function.update m.regs (d + 1) y) d (va.val m) k = m.regs k
      rw [Function.update_of_ne hk.ne, Function.update_of_ne (hk.trans (Nat.lt_succ_self d)).ne]
    · show Function.update (Function.update m.regs (d + 1) y) d (va.val m) (d + 1) = y
      rw [Function.update_of_ne (Nat.succ_ne_self d), Function.update_self]
  · have hgv2 : s.gv2 d va vb = (s.gv d va).gv (d + 1) vb := by
      cases vb with
      | const y => rfl
      | reg k => rfl
      | cmp c => exact absurd ⟨c, rfl⟩ hcmp
    have hvb : vb.jtrue = 0 ∧ vb.jfalse = 0 := by
      cases vb with
      | const y => exact ⟨rfl, rfl⟩
      | reg k => exact ⟨rfl, rfl⟩
      | cmp c => exact absurd ⟨c, rfl⟩ hcmp
    obtain ⟨rfl, rfl, hrest⟩ := hheld.plain hvb.1 hvb.2
    rw [hgv2]
    obtain ⟨hheld1, hgrows1, hload1⟩ := gv_spec (v := va) sem hn hind d (hplainHeld hrest)
    have hheldb : vb.Held (s.gv d va) [] [] chains := by
      rw [SValue.Held, hvb.1, hvb.2]
      exact hheld1.cons_nil.cons_nil
    obtain ⟨hheld2, hgrows2, hload2⟩ := gv_spec sem (hgrows1.nocode.trans hn)
      (hgrows1.ind_ne hind) (d + 1) hheldb
    refine ⟨hheld2, hgrows1.trans hgrows2, fun P hfinal => ⟨0, 0, .nil, .nil, fun m y hat => ?_⟩⟩
    obtain ⟨hpc, hlive, rfl⟩ := hat.plain hvb.1 hvb.2
    obtain ⟨aT, aF, -, -, hload1⟩ := hload1 P (hgrows2.code.final hfinal)
    obtain ⟨aT', aF', -, -, hload2⟩ := hload2 P hfinal
    obtain ⟨hreach1, hlive1⟩ := hload1 m (va.val m) (.here hpc hlive rfl)
    have hvalb : vb.val m =
        vb.val (S := S) { m with pc := some (s.gv d va).code.ind, regs := Function.update m.regs d (va.val m) } := by
      cases vb with
      | const y => rfl
      | reg k =>
        obtain rfl := hb k rfl
        exact (Function.update_of_ne (Nat.succ_ne_self d) _ m.regs).symm
      | cmp c => exact absurd ⟨c, rfl⟩ hcmp
    obtain ⟨hreach2, hlive2⟩ := hload2 _ (vb.val m) (.here rfl hlive1 hvalb)
    refine ⟨⟨_, hreach1.trans hreach2, rfl, fun k hk => ?_, rfl, ?_, Function.update_self _ _ _⟩,
      hlive2⟩
    · show Function.update (Function.update m.regs d (va.val m)) (d + 1) (vb.val m) k = m.regs k
      rw [Function.update_of_ne (hk.trans (Nat.lt_succ_self d)).ne, Function.update_of_ne hk.ne]
    · show Function.update (Function.update m.regs d (va.val m)) (d + 1) (vb.val m) d = va.val m
      rw [Function.update_of_ne (Nat.succ_ne_self d).symm, Function.update_self]

/-- **Both operands** of an operator, up to what is done with their values. -/
theorem operands_right (ha : a.Right noret sem) (hb : b.Right noret sem) (hn : s.nocode = 0)
    (hind : s.code.ind ≠ 0) (hheld : Held s.code chains) {rc rb : GenState L K × SValue}
    (hrc : rc = (a.gen noret none d s).1.vcheckCmp d (a.gen noret none d s).2)
    (hrb : rb = b.gen noret none (d + 1) rc.1) :
    s.Grows rb.1 ∧ ((∃ y, rc.2 = .const y) ∨ rc.2 = .reg d) ∧ (∀ k, rb.2 = .reg k → k = d + 1) ∧
      ∃ sT sF, rb.2.Held rb.1 sT sF chains ∧
        ∀ P, Final P rb.1.code → ∀ aT aF, Lead P sT aT → Lead P sF aF → s.dead = false →
          ∀ m : Machine S, m.pc = some s.code.ind → ∀ g : BitVec 64 → BitVec 64 → BitVec 64,
            ∀ Q : BitVec 64 → Machine S → Prop,
              (∀ y m', rb.2.At rb.1 aT aF y m' → ∃ m'', Reaches sem P m' m'' ∧ m''.st = m'.st ∧
                (∀ k < d, m''.regs k = m'.regs k) ∧ Q (g (rc.2.val m') y) m'') →
              Computes sem P d m (andThen (a.eval sem m.st) fun x st =>
                andThen (b.eval sem st) fun y st => (some (g x y), st)) Q := by
  obtain ⟨⟨sTa, sFa, hheld1, hrun1⟩, hgrows1, hreg1⟩ := ha.value d s chains hn hind hheld
  obtain ⟨hheld2, hgrows2, hcase, hrun2⟩ := vcheckCmp_spec sem (hgrows1.nocode.trans hn)
    (hgrows1.ind_ne hind) hreg1 hheld1
  rw [← hrc] at hheld2 hgrows2 hcase hrun2
  have hgrows12 := hgrows1.trans hgrows2
  obtain ⟨⟨sTb, sFb, hheld3, hrun3⟩, hgrows3, hreg3⟩ := hb.value (d + 1) rc.1 chains
    (hgrows12.nocode.trans hn) (hgrows12.ind_ne hind) hheld2
  rw [← hrb] at hheld3 hrun3 hgrows3 hreg3
  refine ⟨hgrows12.trans hgrows3, hcase, hreg3, sTb, sFb, hheld3,
    fun P hfinal aT aF hT hF hlive m hpc g Q hQ => ?_⟩
  obtain ⟨aT', aF', hT', hF', hcheck⟩ := hrun2 P (hgrows3.code.final hfinal)
  refine (hrun1 P ((hgrows2.trans hgrows3).code.final hfinal) aT' aF' hT' hF' hlive m hpc).andThen
    fun x m1 hat hst => ?_
  obtain ⟨m2, hreach, hst2, hregs2, hpc2, hlive2, rfl⟩ := hcheck m1 x hat
  refine .of_reaches hreach hregs2 ?_
  rw [← hst, ← hst2]
  refine ((hrun3 P hfinal aT aF hT hF hlive2 m2 hpc2).frame.mono (Nat.le_succ d)).map
    fun y m3 hat3 => ?_
  obtain ⟨hat3, hframe⟩ := hat3
  have hval : rc.2.val m2 = rc.2.val m3 := by
    rcases hcase with ⟨z, hz⟩ | hz
    · rw [hz]
      rfl
    · rw [hz]
      exact (hframe d (Nat.lt_succ_self d)).symm
  rw [hval]
  exact hQ y m3 hat3

/-- An operator on two constants. -/
theorem operator_const {g : BitVec 64 → BitVec 64 → BitVec 64} {x y : BitVec 64}
    {rb : GenState L K × SValue} {out : S → Option (BitVec 64) × S}
    (hout : ∀ st, out st = andThen (a.eval sem st) fun x st =>
      andThen (b.eval sem st) fun y st => (some (g x y), st))
    (ha : a.Right noret sem) (hb : b.Right noret sem) (hn : s.nocode = 0)
    (hind : s.code.ind ≠ 0) (hheld : Held s.code chains) {rc : GenState L K × SValue}
    (hrc : rc = (a.gen noret none d s).1.vcheckCmp d (a.gen noret none d s).2)
    (hrb : rb = b.gen noret none (d + 1) rc.1) (hx : rc.2 = .const x) (hy : rb.2 = .const y) :
    Correct sem d s chains out (rb.1, .const (g x y)) := by
  obtain ⟨hgrows, -, -, sT, sF, hheld', hrun⟩ := operands_right ha hb hn hind hheld hrc hrb
  rw [hx, hy] at hrun
  rw [hy] at hheld'
  obtain ⟨rfl, rfl, hrest⟩ := hheld'.plain rfl rfl
  refine ⟨⟨[], [], hrest.cons_nil.cons_nil, fun P hfinal aT aF hT hF hlive m hpc => ?_⟩, hgrows,
    fun k hk => by cases hk⟩
  rw [hout]
  refine hrun P hfinal aT aF hT hF hlive m hpc g _ fun z m' hat => ?_
  obtain ⟨hpc', hlive', rfl⟩ := hat.plain rfl rfl
  exact ⟨m', .refl, rfl, fun _ _ => rfl, .here hpc' hlive' rfl⟩

/-- An operator on two values in registers, from where on `hend` says what is made of them. -/
theorem operator_gv2 {g : BitVec 64 → BitVec 64 → BitVec 64} {rb r : GenState L K × SValue}
    {out : S → Option (BitVec 64) × S}
    (hout : ∀ st, out st = andThen (a.eval sem st) fun x st =>
      andThen (b.eval sem st) fun y st => (some (g x y), st))
    (ha : a.Right noret sem) (hb : b.Right noret sem) (hn : s.nocode = 0)
    (hind : s.code.ind ≠ 0) (hheld : Held s.code chains) {rc : GenState L K × SValue}
    (hrc : rc = (a.gen noret none d s).1.vcheckCmp d (a.gen noret none d s).2)
    (hrb : rb = b.gen noret none (d + 1) rc.1)
    (hend : ∀ s' : GenState L K, s' = rb.1.gv2 d rc.2 rb.2 → Held s'.code chains →
      r.2.Plain ∧ Held r.1.code chains ∧ s'.Grows r.1 ∧ (∀ k, r.2 = .reg k → k = d) ∧
        ∀ P, Final P r.1.code → s'.dead = false → ∀ m : Machine S, m.pc = some s'.code.ind →
          ∃ m', Reaches sem P m m' ∧ m'.st = m.st ∧ (∀ k < d, m'.regs k = m.regs k) ∧
            r.2.At r.1 0 0 (g (m.regs d) (m.regs (d + 1))) m') :
    Correct sem d s chains out r := by
  obtain ⟨hgrows, hcase, hreg, sT, sF, hheld', hrun⟩ :=
    operands_right ha hb hn hind hheld hrc hrb
  obtain ⟨hheld2, hgrows2, hload⟩ := gv2_spec sem (hgrows.nocode.trans hn)
    (hgrows.ind_ne hind) hcase hreg hheld'
  obtain ⟨hplain, hheld3, hgrows3, hreg3, hrun3⟩ := hend _ rfl hheld2
  refine ⟨⟨[], [], ?_, fun P hfinal aT aF _ _ hlive m hpc => ?_⟩,
    hgrows.trans (hgrows2.trans hgrows3), hreg3⟩
  · rw [SValue.Held, hplain.1, hplain.2]
    exact hheld3.cons_nil.cons_nil
  · rw [hout]
    obtain ⟨aT', aF', hT', hF', hload⟩ := hload P (hgrows3.code.final hfinal)
    refine hrun P ((hgrows2.trans hgrows3).code.final hfinal) aT' aF' hT' hF' hlive m hpc g _
      fun y m1 hat => ?_
    obtain ⟨⟨m2, hreach2, hst2, hregs2, hpc2, hx, hy⟩, hlive2⟩ := hload m1 y hat
    obtain ⟨m3, hreach3, hst3, hregs3, hat3⟩ := hrun3 P hfinal hlive2 m2 hpc2
    rw [hx, hy] at hat3
    obtain ⟨hpc3, hlive3, hval3⟩ := hat3.plain hplain.1 hplain.2
    exact ⟨m3, hreach2.trans hreach3, hst3.trans hst2,
      fun k hk => (hregs3 k hk).trans (hregs2 k hk), .here hpc3 hlive3 hval3⟩

/-! ### Conditional expressions -/

/-- Those who have the value of the second operand: by the jumps `u`, or by the chains of it. -/
inductive SValue.Via (v : SValue) (u au aT aF : Nat) (x : BitVec 64) (m : Machine S) : Prop
  | jump (hpc : m.pc = some au) (hchain : u ≠ 0) (hval : x = v.val m)
  | jtrue (hpc : m.pc = some aT) (hchain : v.jtrue ≠ 0) (hval : x = 1)
  | jfalse (hpc : m.pc = some aF) (hchain : v.jfalse ≠ 0) (hval : x = 0)

/-- The jumps `u` go behind the code. -/
theorem SValue.Via.gsym {u aT aF : Nat} {x : BitVec 64} {m : Machine S} {s' : GenState L K}
    (h : v.Via u s.code.ind aT aF x m) (hind : s'.code.ind = s.code.ind)
    (hlive : u ≠ 0 → s'.dead = false) : v.At s' aT aF x m := by
  cases h with
  | jump hpc hchain hval =>
    exact .here (hpc.trans (congrArg some hind.symm)) (hlive hchain) hval
  | jtrue hpc hchain hval => exact .jtrue hpc hchain hval
  | jfalse hpc hchain hval => exact .jfalse hpc hchain hval

/-- The value of a condition is a truth value. -/
theorem SValue.At.truth {aT aF : Nat} {x : BitVec 64} {m : Machine S} (h : v.At s aT aF x m)
    (hv : v.isCondBool = true) : Flow.truth (x != 0) = x := by
  cases h with
  | here _ _ hval =>
    subst hval
    cases v with
    | const y =>
      rcases Bool.or_eq_true_iff.1 hv with hy | hy
      · rw [SValue.val, eq_of_beq hy]
        rfl
      · rw [SValue.val, eq_of_beq hy]
        rfl
    | reg k => cases hv
    | cmp c => exact congrArg Flow.truth (truth_ne_zero _)
  | jtrue _ _ hval =>
    subst hval
    rfl
  | jfalse _ _ hval =>
    subst hval
    rfl

/-- What is made of the second and the third operand of `?:`. -/
structure Joins (sem : Sem L K S) (d : Nat) (s : GenState L K) (va vb : SValue) (u : Nat)
    (sTa sFa sTb sFb su : List Nat) (chains : List (Nat × List Nat))
    (r : GenState L K × SValue) : Prop where
  held : ∃ sT sF, r.2.Held r.1 sT sF chains ∧
    ∀ P, Final P r.1.code → ∀ aT aF, Lead P sT aT → Lead P sF aF →
      ∃ aTb aFb au aTa aFa, Lead P sTb aTb ∧ Lead P sFb aFb ∧ Lead P su au ∧ Lead P sTa aTa ∧
        Lead P sFa aFa ∧
        (∀ (m : Machine S) x, vb.At s aTb aFb x m → ∃ m', Reaches sem P m m' ∧ m'.st = m.st ∧
          (∀ k < d, m'.regs k = m.regs k) ∧ r.2.At r.1 aT aF x m') ∧
        ∀ (m : Machine S) x, va.Via u au aTa aFa x m → ∃ m', Reaches sem P m m' ∧
          m'.st = m.st ∧ (∀ k < d, m'.regs k = m.regs k) ∧ r.2.At r.1 aT aF x m'
  grows : s.Grows r.1
  inReg : ∀ k, r.2 = .reg k → k = d

section Join

variable {va vb : SValue} {u : Nat} {sTa sFa sTb sFb su : List Nat}

/-- Two conditions: their jumps are put together. -/
theorem condJoin_bool (hn : s.nocode = 0) (hind : s.code.ind ≠ 0)
    (ha : va.isCondBool = true) (hb : vb.isCondBool = true)
    (hheld : Held s.code ((vb.jtrue, sTb) :: (vb.jfalse, sFb) :: (u, su) :: (va.jtrue, sTa) ::
      (va.jfalse, sFa) :: chains)) :
    Joins sem d s va vb u sTa sFa sTb sFb su chains (s.condJoin d va vb u) := by
  unfold GenState.condJoin
  rw [ha, hb, Bool.and_self, if_pos rfl]
  dsimp only
  obtain ⟨s1, hheld1, hgrows1, -, htest⟩ := gvtst_spec sem hn hind false
    (Held.sink [(vb.jtrue, sTb), (vb.jfalse, sFb)] hheld.cons_nil)
  generalize s.gvtst false 0 vb = r1 at *
  obtain ⟨s2, hheld2, hgrows2, hjump⟩ := gjmp_spec sem hheld1 (hgrows1.ind_ne hind)
  generalize r1.1.gjmp 0 = r2 at *
  obtain ⟨hheld3, hgrows3, hind3, -, hon3, hlead3⟩ :=
    GenState.gsym_spec (Held.bring [(r2.2, s2), (r1.2, s1)] hheld2)
  generalize r2.1.gsym u = g3 at *
  have hfront := Held.bring [(va.jfalse, sFa), (r2.2, s2), (r1.2, s1)]
    (Held.bring [(r2.2, s2), (r1.2, s1), (va.jtrue, sTa)] hheld3)
  obtain ⟨sT4, sF4, hheld4, hgrows4, hsT4, hsF4, hs4, hat4, hchain4⟩ :=
    gvtstSet_spec (S := S) (v := va) false (hfront.perm (.cons _ (.cons _ (.swap _ _ _))))
  generalize g3.gvtstSet false r1.2 va = r4 at *
  obtain ⟨sT5, sF5, hheld5, hgrows5, hsT5, hsF5, hs5, hat5, hchain5⟩ :=
    gvtstSet_spec (S := S) (v := .cmp r4.2) true hheld4
  generalize r4.1.gvtstSet true r2.2 (.cmp r4.2) = r5 at *
  have hgrows45 := hgrows4.trans hgrows5
  have hgrows345 := hgrows3.trans hgrows45
  have hgrows2345 := hgrows2.trans hgrows345
  have hn2 : r2.1.nocode = 0 := hgrows2.nocode.trans (hgrows1.nocode.trans hn)
  refine ⟨⟨sT5, sF5, hheld5, fun P hfinal aT aF hT hF => ?_⟩, hgrows1.trans hgrows2345,
    fun k hk => by cases hk⟩
  have hlead1 : Lead P s1 aT := fun k hk => hT k (hsT5 (hs4 hk))
  obtain ⟨aTb, aFb, hTb, hFb, htested⟩ :=
    htest P (hgrows2345.code.final hfinal) aT hlead1
  have hjump := hjump P (hgrows345.code.final hfinal) aF fun k hk => hF k (hs5 hk)
  refine ⟨aTb, aFb, r2.1.code.ind, aT, aF, hTb, hFb, hlead3 P (hgrows45.code.final hfinal),
    fun k hk => hT k (hsT5 (hsT4 hk)), fun k hk => hF k (hsF5 (hsF4 hk)), fun m x hat => ?_,
    fun m x hvia => ?_⟩
  · obtain ⟨hjumps, hgoesOn⟩ := htested m x hat
    have hx := hat.truth hb
    cases hb' : x != 0 with
    | true =>
      rw [hb'] at hx
      obtain ⟨hreach, hne⟩ := hjumps (by rw [hb']; rfl)
      have h5 := hat5 aT aF _ _ (hchain4 aT aF { m with pc := some aT } hne rfl)
      rw [truth_ne_zero] at h5
      exact ⟨_, hreach, rfl, fun _ _ => rfl, hx ▸ h5⟩
    | false =>
      rw [hb'] at hx
      obtain ⟨hreach, hlive⟩ := hgoesOn (by rw [hb']; rfl)
      obtain ⟨hreach', hne⟩ := hjump hlive { m with pc := some r1.1.code.ind } rfl
      exact ⟨_, hreach.trans hreach', rfl, fun _ _ => rfl,
        hx ▸ hchain5 aT aF { m with pc := some aF } hne rfl⟩
  · have hat := hvia.gsym hind3 (hon3 hn2)
    have h5 := hat5 aT aF m _ (hat4 aT aF m x hat)
    rw [truth_ne_zero, hat.truth ha] at h5
    exact ⟨m, .refl, rfl, fun _ _ => rfl, h5⟩

/-- Any other values are loaded into the register. -/
theorem condJoin_reg (hn : s.nocode = 0) (hind : s.code.ind ≠ 0)
    (hab : (va.isCondBool && vb.isCondBool) = false)
    (hheld : Held s.code ((vb.jtrue, sTb) :: (vb.jfalse, sFb) :: (u, su) :: (va.jtrue, sTa) ::
      (va.jfalse, sFa) :: chains)) :
    Joins sem d s va vb u sTa sFa sTb sFb su chains (s.condJoin d va vb u) := by
  unfold GenState.condJoin
  rw [hab, if_neg Bool.false_ne_true]
  dsimp only
  obtain ⟨hheld1, hgrows1, hload1⟩ := gv_spec sem hn hind d hheld
  generalize s.gv d vb = g1 at *
  obtain ⟨s2, hheld2, hgrows2, hjump⟩ := gjmp_spec sem hheld1 (hgrows1.ind_ne hind)
  generalize g1.gjmp 0 = r2 at *
  obtain ⟨hheld3, hgrows3, hind3, -, hon3, hlead3⟩ :=
    GenState.gsym_spec (Held.bring [(r2.2, s2)] hheld2)
  have hgrows12 := hgrows1.trans hgrows2
  have hgrows123 := hgrows12.trans hgrows3
  generalize r2.1.gsym u = g3 at *
  have hfront := Held.bring [(va.jfalse, sFa), (r2.2, s2)]
    (Held.bring [(r2.2, s2), (va.jtrue, sTa)] hheld3)
  obtain ⟨hheld4, hgrows4, hload4⟩ := gv_spec (v := va) sem (hgrows123.nocode.trans hn)
    (hgrows123.ind_ne hind) d hfront
  generalize g3.gv d va = g4 at *
  obtain ⟨hheld5, hgrows5, hind5, hlive5, hon5, hlead5⟩ := GenState.gsym_spec hheld4
  generalize g4.gsym r2.2 = g5 at *
  have hgrows45 := hgrows4.trans hgrows5
  have hgrows345 := hgrows3.trans hgrows45
  have hgrows2345 := hgrows2.trans hgrows345
  refine ⟨⟨[], [], hheld5.cons_nil.cons_nil, fun P hfinal aT aF _ _ => ?_⟩,
    hgrows1.trans hgrows2345, fun k hk => (SValue.reg.inj hk).symm⟩
  obtain ⟨aTb, aFb, hTb, hFb, hload1⟩ := hload1 P (hgrows2345.code.final hfinal)
  obtain ⟨aTa, aFa, hTa, hFa, hload4⟩ := hload4 P (hgrows5.code.final hfinal)
  have hjump := hjump P (hgrows345.code.final hfinal) g4.code.ind (hlead5 P hfinal)
  refine ⟨aTb, aFb, r2.1.code.ind, aTa, aFa, hTb, hFb, hlead3 P (hgrows45.code.final hfinal), hTa,
    hFa, fun m x hat => ?_, fun m x hvia => ?_⟩
  · obtain ⟨hreach, hlive⟩ := hload1 m x hat
    obtain ⟨hreach', hne⟩ := hjump hlive
      { m with pc := some g1.code.ind, regs := Function.update m.regs d x } rfl
    refine ⟨_, hreach.trans hreach', rfl, fun k hk => Function.update_of_ne hk.ne _ _, ?_⟩
    refine .here (congrArg some hind5.symm) ?_ (Function.update_self d x m.regs).symm
    exact hon5 (hgrows4.nocode.trans (hgrows123.nocode.trans hn)) hne
  · have hat := hvia.gsym hind3 (hon3 (hgrows12.nocode.trans hn))
    obtain ⟨hreach, hlive⟩ := hload4 m x hat
    refine ⟨_, hreach, rfl, fun k hk => Function.update_of_ne hk.ne _ _, ?_⟩
    exact .here (congrArg some hind5.symm) (hlive5 hlive) (Function.update_self d x m.regs).symm

variable (sem) in
theorem condJoin_spec (hn : s.nocode = 0) (hind : s.code.ind ≠ 0)
    (hheld : Held s.code ((vb.jtrue, sTb) :: (vb.jfalse, sFb) :: (u, su) :: (va.jtrue, sTa) ::
      (va.jfalse, sFa) :: chains)) :
    Joins sem d s va vb u sTa sFa sTb sFb su chains (s.condJoin d va vb u) := by
  cases hab : va.isCondBool && vb.isCondBool with
  | false => exact condJoin_reg hn hind hab hheld
  | true =>
    obtain ⟨ha, hb⟩ := Bool.and_eq_true_iff.1 hab
    exact condJoin_bool hn hind ha hb hheld

end Join

/-- Other readings of a value, with the same jumps. -/
theorem isZero_spec {aT aF : Nat} {x : BitVec 64} {m : Machine S} (h : v.At s aT aF x m) :
    v.isZero.At s aF aT (truth (x == 0)) m := by
  cases v with
  | const y =>
    obtain ⟨hpc, hlive, rfl⟩ := h.plain rfl rfl
    refine .here hpc hlive ?_
    show truth (x == 0) = if x = 0 then 1 else 0
    by_cases hx : x = 0
    · rw [if_pos hx, hx]
      rfl
    · rw [if_neg hx, beq_eq_false_iff_ne.2 hx]
      rfl
  | reg k =>
    obtain ⟨hpc, hlive, rfl⟩ := h.plain rfl rfl
    exact .here hpc hlive rfl
  | cmp c => exact h.not

theorem jtrue_isZero (v : SValue) : v.isZero.jtrue = v.jfalse := by
  cases v <;> rfl

theorem jfalse_isZero (v : SValue) : v.isZero.jfalse = v.jtrue := by
  cases v <;> rfl

theorem not_right (h : e.Right noret sem) : (Expr.not e).Right noret sem := by
  refine .of_value rfl fun d s chains hn hind hheld => ?_
  obtain ⟨⟨sT, sF, hheld', hrun⟩, hgrows, -⟩ := h.value d s chains hn hind hheld
  refine ⟨⟨sF, sT, ?_, fun P hfinal aT aF hT hF hlive m hpc => ?_⟩, hgrows, fun k hk => ?_⟩
  · show Held _ (((e.gen noret none d s).2.isZero.jtrue, sF) :: _)
    rw [SValue.Held] at hheld'
    show Held (e.gen noret none d s).1.code (((e.gen noret none d s).2.isZero.jtrue, sF) ::
      ((e.gen noret none d s).2.isZero.jfalse, sT) :: chains)
    rw [jtrue_isZero, jfalse_isZero]
    exact hheld'.perm (.swap _ _ _)
  · refine (hrun P hfinal aF aT hF hT hlive m hpc).map fun x m' hat => ?_
    exact ⟨m', .refl, rfl, fun _ _ => rfl, isZero_spec hat⟩
  · have hk : (e.gen noret none d s).2.isZero = .reg k := hk
    generalize (e.gen noret none d s).2 = v at hk
    cases v <;> cases hk

theorem cond_right (hc : c.Right noret sem) (ha : a.Right noret sem) (hb : b.Right noret sem) :
    (Expr.cond c a b).Right noret sem := by
  refine .of_value rfl fun d s chains hn hind hheld => ?_
  have heval : ∀ st, (Expr.cond c a b).eval sem st = andThen (c.eval sem st) fun x st =>
      if x ≠ 0 then a.eval sem st else b.eval sem st := fun _ => rfl
  obtain ⟨⟨sTc, sFc, hheldc, hrunc⟩, hgrowsc, -⟩ := hc.value d s chains hn hind hheld
  unfold Expr.gen
  dsimp only
  generalize c.gen noret none d s = rc at *
  have hnc := hgrowsc.nocode.trans hn
  have hindc := hgrowsc.ind_ne hind
  split
  · -- the condition is tested
    obtain ⟨st, hheldt, hgrowst, -, htest⟩ := gvtst_spec sem hnc hindc true
      (Held.sink [(rc.2.jtrue, sTc), (rc.2.jfalse, sFc)] hheldc.cons_nil)
    generalize rc.1.gvtst true 0 rc.2 = rt at *
    have hnt := hgrowst.nocode.trans hnc
    have hindt := hgrowst.ind_ne hindc
    obtain ⟨⟨sTa, sFa, hhelda, hruna⟩, hgrowsa, -⟩ := ha.value d rt.1 _ hnt hindt hheldt
    generalize a.gen noret none d rt.1 = ra at *
    obtain ⟨su, hheldu, hgrowsu, hjump⟩ := gjmp_spec sem hhelda (hgrowsa.ind_ne hindt)
    generalize ra.1.gjmp 0 = ru at *
    obtain ⟨hheldg, hgrowsg, hindg, hliveg, hong, hleadg⟩ := GenState.gsym_spec
      (Held.bring [(ru.2, su), (ra.2.jtrue, sTa), (ra.2.jfalse, sFa)] hheldu)
    generalize ru.1.gsym rt.2 = g at *
    have hgrowstg := (hgrowst.trans hgrowsa).trans (hgrowsu.trans hgrowsg)
    have hng := hgrowstg.nocode.trans hnc
    have hindg' := hgrowstg.ind_ne hindc
    obtain ⟨⟨sTb, sFb, hheldb, hrunb⟩, hgrowsb, -⟩ := hb.value d g _ hng hindg' hheldg
    generalize b.gen noret none d g = rb at *
    obtain ⟨⟨sT, sF, hheldj, hjoin⟩, hgrowsj, hreg⟩ := condJoin_spec sem (d := d)
      (hgrowsb.nocode.trans hng) (hgrowsb.ind_ne hindg') hheldb
    generalize rb.1.condJoin d ra.2 rb.2 ru.2 = rj at *
    have hgrowsbj := hgrowsb.trans hgrowsj
    have hgrowsgj := hgrowsg.trans hgrowsbj
    have hgrowsuj := hgrowsu.trans hgrowsgj
    have hgrowsaj := hgrowsa.trans hgrowsuj
    have hgrowstj := hgrowst.trans hgrowsaj
    refine ⟨⟨sT, sF, hheldj, fun P hfinal aT aF hT hF hlive m hpc => ?_⟩,
      hgrowsc.trans hgrowstj, hreg⟩
    obtain ⟨aTb, aFb, au, aTa, aFa, hTb, hFb, hau, hTa, hFa, hvb, hva⟩ :=
      hjoin P hfinal aT aF hT hF
    obtain ⟨aTc, aFc, hTc, hFc, htested⟩ := htest P (hgrowsaj.code.final hfinal) ru.1.code.ind
      (hleadg P (hgrowsbj.code.final hfinal))
    have hjump := hjump P (hgrowsgj.code.final hfinal) au hau
    show Computes sem P d m ((Expr.cond c a b).eval sem m.st) (rj.2.At rj.1 aT aF)
    rw [heval]
    refine (hrunc P (hgrowstj.code.final hfinal) aTc aFc hTc hFc hlive m hpc).andThen
      fun x m1 hat1 hst1 => ?_
    obtain ⟨hjumps, hgoesOn⟩ := htested m1 x hat1
    rw [← hst1]
    split
    · rename_i hx
      obtain ⟨hreach, hlivet⟩ := hgoesOn (by rw [bne_iff_ne.2 hx]; rfl)
      refine .of_reaches hreach (fun _ _ => rfl) ?_
      refine (hruna P (hgrowsuj.code.final hfinal) aTa aFa hTa hFa hlivet
        { m1 with pc := some rt.1.code.ind } rfl).imp fun y m2 hat2 => ?_
      cases hat2 with
      | here hpc2 hlive2 hval2 =>
        obtain ⟨hreach2, hne⟩ := hjump hlive2 m2 hpc2
        obtain ⟨m3, hreach3, hst3, hregs3, hat3⟩ :=
          hva { m2 with pc := some au } y (.jump rfl hne (by rw [hval2]; cases ra.2 <;> rfl))
        exact ⟨m3, hreach2.trans hreach3, hst3, hregs3, hat3⟩
      | jtrue hpc2 hchain2 hval2 => exact hva m2 y (.jtrue hpc2 hchain2 hval2)
      | jfalse hpc2 hchain2 hval2 => exact hva m2 y (.jfalse hpc2 hchain2 hval2)
    · rename_i hx
      obtain ⟨hreach, hne⟩ := hjumps (by rw [not_not.1 hx]; rfl)
      refine .of_reaches hreach (fun _ _ => rfl) ?_
      have hliveg' := hong (hgrowsu.nocode.trans (hgrowsa.nocode.trans hnt)) hne
      exact (hrunb P (hgrowsj.code.final hfinal) aTb aFb hTb hFb hliveg'
        { m1 with pc := some ru.1.code.ind } (congrArg some hindg.symm)).imp fun y m2 hat2 =>
          hvb m2 y hat2
  · -- the condition is 0
    rename_i hfalse
    obtain ⟨s1, v⟩ := rc
    cases v with
    | reg k => cases hfalse
    | cmp k => cases hfalse
    | const y =>
      obtain ⟨rfl, rfl, hrest⟩ := hheldc.plain rfl rfl
      have ha1 := ((a.silent noret).value d s1.nocodeInc s1.dead_nocodeInc).1
      dsimp only
      rw [ha1, s1.nocodeDec_nocodeInc]
      obtain ⟨⟨sT, sF, hheldb, hrunb⟩, hgrowsb, hreg⟩ := hb.value d s1 chains hnc hindc hrest
      refine ⟨⟨sT, sF, hheldb, fun P hfinal aT aF hT hF hlive m hpc => ?_⟩,
        hgrowsc.trans hgrowsb, hreg⟩
      rw [heval]
      refine (hrunc P (hgrowsb.code.final hfinal) 0 0 .nil .nil hlive m hpc).andThen
        fun x m1 hat1 hst1 => ?_
      obtain ⟨hpc1, hlive1, hx⟩ := hat1.plain rfl rfl
      have hx : x = y := hx
      have hy : y = 0 := not_not.1 fun hne => by
        rw [SValue.condition3way, bne_iff_ne.2 hne] at hfalse
        cases hfalse
      rw [if_neg (not_not_intro (hx.trans hy)), ← hst1]
      exact hrunb P hfinal aT aF hT hF hlive1 m1 hpc1
  · -- the condition is a constant other than 0
    rename_i htrue
    obtain ⟨s1, v⟩ := rc
    cases v with
    | reg k => cases htrue
    | cmp k => cases htrue
    | const y =>
      obtain ⟨rfl, rfl, hrest⟩ := hheldc.plain rfl rfl
      obtain ⟨⟨sT, sF, hhelda, hruna⟩, hgrowsa, hreg⟩ := ha.value d s1 chains hnc hindc hrest
      dsimp only
      generalize a.gen noret none d s1 = ra at *
      have hb1 := ((b.silent noret).value d ra.1.nocodeInc ra.1.dead_nocodeInc).1
      rw [hb1, ra.1.nocodeDec_nocodeInc]
      refine ⟨⟨sT, sF, hhelda, fun P hfinal aT aF hT hF hlive m hpc => ?_⟩,
        hgrowsc.trans hgrowsa, hreg⟩
      rw [heval]
      refine (hrunc P (hgrowsa.code.final hfinal) 0 0 .nil .nil hlive m hpc).andThen
        fun x m1 hat1 hst1 => ?_
      obtain ⟨hpc1, hlive1, hx⟩ := hat1.plain rfl rfl
      have hx : x = y := hx
      have hy : y ≠ 0 := by
        rintro rfl
        cases htrue
      rw [if_pos (hx ▸ hy), ← hst1]
      exact hruna P hfinal aT aF hT hF hlive1 m1 hpc1

theorem elvis_right (hc : c.Right noret sem) (hb : b.Right noret sem) :
    (Expr.elvis c b).Right noret sem := by
  refine .of_value rfl fun d s chains hn hind hheld => ?_
  have heval : ∀ st, (Expr.elvis c b).eval sem st = andThen (c.eval sem st) fun x st =>
      if x ≠ 0 then (some x, st) else b.eval sem st := fun _ => rfl
  obtain ⟨⟨sTc, sFc, hheldc, hrunc⟩, hgrowsc, hregc⟩ := hc.value d s chains hn hind hheld
  unfold Expr.gen
  dsimp only
  generalize c.gen noret none d s = rc at *
  have hnc := hgrowsc.nocode.trans hn
  have hindc := hgrowsc.ind_ne hind
  split
  · -- the condition is tested
    obtain ⟨hheldl, hgrowsl, hload⟩ := gv_spec sem hnc hindc d hheldc
    generalize rc.1.gv d rc.2 = gl at *
    have hgrowsm := GenState.grows_o gl (.instr (.mv (d + 1) d))
    have hheldm := GenState.held_o (.instr (.mv (d + 1) d)) hheldl
    have hdeadm := GenState.dead_o gl (.instr (.mv (d + 1) d))
    have hfinalm : ∀ P, gl.dead = false → Slot.isLink (.instr (Instr.mv (d + 1) d : Instr L K)) = false →
        Final P (gl.o (.instr (.mv (d + 1) d))).code → P gl.code.ind = .instr (.mv (d + 1) d) :=
      fun _ => GenState.final_o
    have hindm := GenState.ind_o (s := gl) (.instr (.mv (d + 1) d))
    generalize gl.o (.instr (.mv (d + 1) d)) = gm at *
    have hgrowslm := hgrowsl.trans hgrowsm
    have hnm := hgrowslm.nocode.trans hnc
    have hindm' := hgrowslm.ind_ne hindc
    obtain ⟨su, hheldu, hgrowsu, -, htest⟩ := gvtst_spec (v := .reg (d + 1)) sem hnm hindm' false
      hheldm.cons_nil.cons_nil.cons_nil
    generalize gm.gvtst false 0 (.reg (d + 1)) = ru at *
    have hnu := hgrowsu.nocode.trans hnm
    have hindu := hgrowsu.ind_ne hindm'
    obtain ⟨⟨sTb, sFb, hheldb, hrunb⟩, hgrowsb, -⟩ := hb.value d ru.1 _ hnu hindu hheldu
    generalize b.gen noret none d ru.1 = rb at *
    have hheldj : Held rb.1.code ((rb.2.jtrue, sTb) :: (rb.2.jfalse, sFb) :: (ru.2, su) ::
        ((SValue.reg d).jtrue, []) :: ((SValue.reg d).jfalse, []) :: chains) :=
      Held.sink [(rb.2.jtrue, sTb), (rb.2.jfalse, sFb), (ru.2, su)]
        (Held.sink [(rb.2.jtrue, sTb), (rb.2.jfalse, sFb), (ru.2, su)] hheldb.cons_nil).cons_nil
    obtain ⟨⟨sT, sF, hheldr, hjoin⟩, hgrowsj, hreg⟩ := condJoin_spec sem (d := d)
      (hgrowsb.nocode.trans hnu) (hgrowsb.ind_ne hindu) hheldj
    generalize rb.1.condJoin d (.reg d) rb.2 ru.2 = rj at *
    have hgrowsbj := hgrowsb.trans hgrowsj
    have hgrowsuj := hgrowsu.trans hgrowsbj
    have hgrowsmj := hgrowsm.trans hgrowsuj
    have hgrowslj := hgrowsl.trans hgrowsmj
    refine ⟨⟨sT, sF, hheldr, fun P hfinal aT aF hT hF hlive m hpc => ?_⟩,
      hgrowsc.trans hgrowslj, hreg⟩
    obtain ⟨aTb, aFb, au, aTa, aFa, hTb, hFb, hau, -, -, hvb, hva⟩ := hjoin P hfinal aT aF hT hF
    obtain ⟨aTl, aFl, hTl, hFl, hload⟩ := hload P (hgrowsmj.code.final hfinal)
    obtain ⟨aTm, aFm, -, -, htested⟩ := htest P (hgrowsbj.code.final hfinal) au hau
    show Computes sem P d m ((Expr.elvis c b).eval sem m.st) (rj.2.At rj.1 aT aF)
    rw [heval]
    refine (hrunc P (hgrowslj.code.final hfinal) aTl aFl hTl hFl hlive m hpc).andThen
      fun x m1 hat1 hst1 => ?_
    obtain ⟨hreach1, hlive1⟩ := hload m1 x hat1
    -- both registers have the value
    generalize hm2 : (Machine.mk (some gm.code.ind)
      (Function.update (Function.update m1.regs d x) (d + 1) x) m1.st) = m2
    have hst2 : m2.st = m1.st := by rw [← hm2]
    have hreach2 : Reaches sem P m1 m2 := by
      refine hreach1.tail ?_
      have hP := hfinalm P hlive1 rfl (hgrowsuj.code.final hfinal)
      rw [step_instr sem rfl hP, ← hm2, hindm hlive1]
      show some (Machine.mk _ (Function.update (Function.update m1.regs d x) (d + 1)
        (Function.update m1.regs d x d)) _) = _
      rw [Function.update_self]
    have hregs2 : ∀ k < d, m2.regs k = m1.regs k := by
      intro k hk
      rw [← hm2]
      show Function.update (Function.update m1.regs d x) (d + 1) x k = m1.regs k
      rw [Function.update_of_ne (hk.trans (Nat.lt_succ_self d)).ne, Function.update_of_ne hk.ne]
    have hval2 : m2.regs d = x := by
      rw [← hm2]
      show Function.update (Function.update m1.regs d x) (d + 1) x d = x
      rw [Function.update_of_ne (Nat.succ_ne_self d).symm, Function.update_self]
    have hpc2 : m2.pc = some gm.code.ind := by rw [← hm2]
    have hat2 : (SValue.reg (d + 1)).At gm aTm aFm x m2 := by
      refine .here hpc2 (hdeadm.trans hlive1) ?_
      rw [← hm2]
      show x = Function.update (Function.update m1.regs d x) (d + 1) x (d + 1)
      rw [Function.update_self]
    obtain ⟨hjumps, hgoesOn⟩ := htested m2 x hat2
    refine .of_reaches hreach2 hregs2 ?_
    rw [← hst1, ← hst2]
    split
    · rename_i hx
      obtain ⟨hreach3, hne⟩ := hjumps (by rw [bne_iff_ne.2 hx]; rfl)
      obtain ⟨m4, hreach4, hst4, hregs4, hat4⟩ :=
        hva { m2 with pc := some au } x (.jump rfl hne hval2.symm)
      exact .pure (hreach3.trans hreach4) hst4 hregs4 hat4
    · rename_i hx
      obtain ⟨hreach3, hlive3⟩ := hgoesOn (by rw [not_not.1 hx]; rfl)
      refine .of_reaches hreach3 (fun _ _ => rfl) ?_
      exact (hrunb P (hgrowsj.code.final hfinal) aTb aFb hTb hFb hlive3
        { m2 with pc := some ru.1.code.ind } rfl).imp fun y m4 hat4 => hvb m4 y hat4
  · -- the condition is 0
    rename_i hfalse
    obtain ⟨s1, v⟩ := rc
    cases v with
    | reg k => cases hfalse
    | cmp k => cases hfalse
    | const y =>
      obtain ⟨rfl, rfl, hrest⟩ := hheldc.plain rfl rfl
      dsimp only
      rw [s1.nocodeDec_nocodeInc]
      obtain ⟨⟨sT, sF, hheldb, hrunb⟩, hgrowsb, hreg⟩ := hb.value d s1 chains hnc hindc hrest
      refine ⟨⟨sT, sF, hheldb, fun P hfinal aT aF hT hF hlive m hpc => ?_⟩,
        hgrowsc.trans hgrowsb, hreg⟩
      rw [heval]
      refine (hrunc P (hgrowsb.code.final hfinal) 0 0 .nil .nil hlive m hpc).andThen
        fun x m1 hat1 hst1 => ?_
      obtain ⟨hpc1, hlive1, hx⟩ := hat1.plain rfl rfl
      have hx : x = y := hx
      have hy : y = 0 := not_not.1 fun hne => by
        rw [SValue.condition3way, bne_iff_ne.2 hne] at hfalse
        cases hfalse
      rw [if_neg (not_not_intro (hx.trans hy)), ← hst1]
      exact hrunb P hfinal aT aF hT hF hlive1 m1 hpc1
  · -- the condition is a constant other than 0
    rename_i htrue
    obtain ⟨s1, v⟩ := rc
    cases v with
    | reg k => cases htrue
    | cmp k => cases htrue
    | const y =>
      obtain ⟨rfl, rfl, hrest⟩ := hheldc.plain rfl rfl
      have hb1 := ((b.silent noret).value d s1.nocodeInc s1.dead_nocodeInc).1
      dsimp only
      rw [hb1, s1.nocodeDec_nocodeInc]
      refine ⟨⟨[], [], hrest.cons_nil.cons_nil, fun P hfinal aT aF _ _ hlive m hpc => ?_⟩, hgrowsc,
        hregc⟩
      rw [heval]
      refine (hrunc P hfinal 0 0 .nil .nil hlive m hpc).andThen fun x m1 hat1 hst1 => ?_
      obtain ⟨hpc1, hlive1, hx⟩ := hat1.plain rfl rfl
      have hx : x = y := hx
      have hy : y ≠ 0 := by
        rintro rfl
        cases htrue
      rw [if_pos (hx ▸ hy)]
      exact .pure .refl hst1 (fun _ _ => rfl) (.here hpc1 hlive1 hx)

theorem const_right (v : BitVec 64) : (Expr.const v : Expr L).Right noret sem :=
  .of_value rfl fun _ s _ _ _ hheld =>
    ⟨⟨[], [], hheld.cons_nil.cons_nil, fun _ _ _ _ _ _ hlive _ hpc =>
      .pure .refl rfl (fun _ _ => rfl) (.here hpc hlive rfl)⟩, .refl s, fun _ hk => by cases hk⟩

theorem leaf_right (hnoret : ∀ l st, noret l = true → (sem.leaf l st).1 = none) (i : L) :
    (Expr.leaf i).Right noret sem := by
  refine .of_value rfl fun d s chains hn hind hheld => ?_
  have hgen : (Expr.leaf i).gen noret none d s =
      (if noret i then (s.o (.instr (.leaf i d))).codeOff else s.o (.instr (.leaf i d)), .reg d) :=
    rfl
  have hcode : ((Expr.leaf i).gen noret none d s).1.code = (s.o (.instr (.leaf i d))).code := by
    rw [hgen]
    dsimp only
    split
    · exact GenState.codeOff_code _
    · rfl
  have hnocode : ((Expr.leaf i).gen noret none d s).1.nocode = s.nocode := by
    rw [hgen]
    dsimp only
    split
    · exact (GenState.codeOff_nocode _).trans (GenState.grows_o _ _).nocode
    · exact (GenState.grows_o _ _).nocode
  have hgrows := GenState.grows_o s (.instr (.leaf i d))
  refine ⟨⟨[], [], ?_, fun P hfinal aT aF _ _ hlive m hpc => ?_⟩, ⟨?_, hnocode⟩,
    fun k hk => (SValue.reg.inj hk).symm⟩
  · show Held ((Expr.leaf i).gen noret none d s).1.code ((0, []) :: (0, []) :: chains)
    rw [hcode]
    exact (GenState.held_o _ hheld).cons_nil.cons_nil
  · rw [hcode] at hfinal
    have hstep := step_instr sem hpc (GenState.final_o hlive rfl hfinal)
    have heval : (Expr.leaf i).eval sem m.st = sem.leaf i m.st := rfl
    rw [heval]
    unfold Instr.exec at hstep
    dsimp only at hstep
    generalize hout : sem.leaf i m.st = out at hstep
    obtain ⟨x, st⟩ := out
    cases x with
    | none =>
      refine ⟨fun x hx => ?_, fun _ => ⟨_, .single hstep, rfl, rfl⟩⟩
      cases hx
    | some x =>
      have hi : noret i = false := eq_false_of_ne_true fun h => by
        have hnone := hnoret i m.st h
        rw [hout] at hnone
        cases hnone
      refine .pure (.single hstep) rfl (fun k hk => Function.update_of_ne hk.ne _ _) ?_
      rw [hgen, hi, if_neg Bool.false_ne_true]
      refine .here ?_ ((GenState.dead_o _ _).trans hlive) ?_
      · rw [GenState.ind_o _ hlive]
        rfl
      · show x = Function.update m.regs d x d
        rw [Function.update_self]
  · rw [hcode]
    exact hgrows.code

theorem binary_right (f : BitVec 64 → BitVec 64 → BitVec 64) (ha : a.Right noret sem)
    (hb : b.Right noret sem) : (Expr.binary f a b).Right noret sem := by
  refine .of_value rfl fun d s chains hn hind hheld => ?_
  unfold Expr.gen
  dsimp only
  split
  · rename_i hx hy
    exact operator_const (fun _ => rfl) ha hb hn hind hheld rfl rfl hx hy
  · refine operator_gv2 (fun _ => rfl) ha hb hn hind hheld rfl rfl fun s' hs' hheld' => ?_
    rw [← hs']
    refine ⟨⟨rfl, rfl⟩, GenState.held_o _ hheld', GenState.grows_o _ _,
      fun k hk => (SValue.reg.inj hk).symm, fun P hfinal hlive m hpc => ?_⟩
    refine ⟨_, .single (step_instr sem hpc (GenState.final_o hlive rfl hfinal)), rfl,
      fun k hk => Function.update_of_ne hk.ne _ _, .here ?_ ((GenState.dead_o _ _).trans hlive) ?_⟩
    · show some (s'.code.ind + 1) = some (s'.o (.instr (.binary f d))).code.ind
      rw [GenState.ind_o _ hlive]
    · show f (m.regs d) (m.regs (d + 1))
        = Function.update m.regs d (f (m.regs d) (m.regs (d + 1))) d
      rw [Function.update_self]

theorem rel_right (op : Cond) (ha : a.Right noret sem) (hb : b.Right noret sem) :
    (Expr.rel op a b).Right noret sem := by
  refine .of_value rfl fun d s chains hn hind hheld => ?_
  unfold Expr.gen
  dsimp only
  split
  · rename_i hx hy
    exact operator_const (g := fun x y => truth (op.holds x y)) (fun _ => rfl) ha hb hn hind hheld
      rfl rfl hx hy
  · refine operator_gv2 (g := fun x y => truth (op.holds x y)) (fun _ => rfl) ha hb hn hind hheld
      rfl rfl fun s' hs' hheld' => ?_
    rw [← hs']
    refine ⟨⟨rfl, rfl⟩, hheld', .refl s', fun k hk => ?_, fun P _ hlive m hpc =>
      ⟨m, .refl, rfl, fun _ _ => rfl, .here hpc hlive rfl⟩⟩
    cases hk

theorem comma_right (ha : a.Right noret sem) (hb : b.Right noret sem) :
    (Expr.comma a b).Right noret sem := by
  refine .of_value rfl fun d s chains hn hind hheld => ?_
  obtain ⟨⟨sTa, sFa, hhelda, hruna⟩, hgrowsa, -⟩ := ha.value d s chains hn hind hheld
  obtain ⟨hheldv, hgrowsv, hvpop⟩ := vpop_spec (S := S) (hgrowsa.nocode.trans hn) hhelda
  have hgrowsav := hgrowsa.trans hgrowsv
  obtain ⟨⟨sT, sF, hheldb, hrunb⟩, hgrowsb, hreg⟩ := hb.value d _ chains
    (hgrowsav.nocode.trans hn) (hgrowsav.ind_ne hind) hheldv
  -- the last value, before it is put into a register if it is a constant in code not wanted
  have hcorrect : Correct sem d s chains ((Expr.comma a b).eval sem) (b.gen noret none d
      ((a.gen noret none d s).1.vpop (a.gen noret none d s).2)) := by
    refine ⟨⟨sT, sF, hheldb, fun P hfinal aT aF hT hF hlive m hpc => ?_⟩,
      hgrowsav.trans hgrowsb, hreg⟩
    obtain ⟨aT', aF', hT', hF', hvpop⟩ := hvpop P (hgrowsb.code.final hfinal)
    refine (hruna P ((hgrowsv.trans hgrowsb).code.final hfinal) aT' aF' hT' hF' hlive m hpc).andThen
      fun x m1 hat1 hst1 => ?_
    obtain ⟨hpc1, hlive1⟩ := hvpop m1 x hat1
    rw [← hst1]
    exact hrunb P hfinal aT aF hT hF hlive1 m1 hpc1
  unfold Expr.gen
  dsimp only
  generalize b.gen noret none d _ = rb at *
  split
  · rename_i y hy
    split
    · rename_i hdead
      have hgv : rb.1.gv d (.const y) = rb.1 := GenState.gv_of_dead hdead d ⟨rfl, rfl⟩
      rw [hgv]
      obtain ⟨⟨sT, sF, hheld', hrun⟩, hgrows, -⟩ := hcorrect
      rw [hy] at hheld' hrun
      obtain ⟨rfl, rfl, hrest⟩ := hheld'.plain rfl rfl
      refine ⟨⟨[], [], hrest.cons_nil.cons_nil, fun P hfinal aT aF hT hF hlive m hpc => ?_⟩,
        hgrows, fun k hk => (SValue.reg.inj hk).symm⟩
      refine (hrun P hfinal aT aF hT hF hlive m hpc).imp fun x m1 hat => ?_
      obtain ⟨-, hlive1, -⟩ := hat.plain rfl rfl
      rw [hdead] at hlive1
      cases hlive1
    · have heq : (rb.1, SValue.const y) = rb := by rw [← hy]
      show Correct sem d s chains _ (rb.1, SValue.const y)
      rw [heq]
      exact hcorrect
  · exact hcorrect

/-- A chain of operands, by itself or as the rest of the operands of another one. -/
theorem landor_value (isAnd : Bool) (ha : a.Right noret sem) (hb : b.Right noret sem) (d : Nat)
    (s : GenState L K) (chains : List (Nat × List Nat)) (hn : s.nocode = 0)
    (hind : s.code.ind ≠ 0) (hheld : Held s.code chains) :
    Correct sem d s chains ((Expr.landor isAnd a b).eval sem)
      ((Expr.landor isAnd a b).gen noret none d s) := by
  obtain ⟨⟨sT, sF, hheld', hrun⟩, hgrows, hnotReg⟩ := landor_right (d := d)
    (l := ⟨isAnd, 0, true, false⟩) ha hb hn hind rfl (fun _ => rfl) hheld.cons_nil
  refine ⟨⟨sT, sF, hheld', fun P hfinal aT aF hT hF hlive m hpc => ?_⟩, hgrows,
    fun k hk => absurd hk (hnotReg k)⟩
  obtain ⟨x, -, -, hrun⟩ := hrun P hfinal aT aF hT hF
  have h := hrun hlive m hpc
  rw [eval_landor_truth] at h
  exact h

/-- **Expressions**: the code of every expression is right. -/
theorem Expr.right (hnoret : ∀ l st, noret l = true → (sem.leaf l st).1 = none) (e : Expr L) :
    e.Right noret sem := by
  induction e with
  | const v => exact const_right v
  | leaf i => exact leaf_right hnoret i
  | paren e ih => exact .of_value rfl ih.value
  | binary f a b iha ihb => exact binary_right f iha ihb
  | rel op a b iha ihb => exact rel_right op iha ihb
  | not e ih => exact not_right ih
  | landor isAnd a b iha ihb =>
    refine ⟨landor_value isAnd iha ihb, fun l d s sites chains hn hind hf hcc hheld => ?_⟩
    by_cases hl : l.isAnd = isAnd
    · subst hl
      have hgen : (Expr.landor l.isAnd a b).gen noret (some l) d s = b.gen noret
          (some ((a.gen noret none d s).1.landorNext l (a.gen noret none d s).2).2) d
            ((a.gen noret none d s).1.landorNext l (a.gen noret none d s).2).1 := if_pos rfl
      rw [hgen]
      exact landor_right iha ihb hn hind hf hcc hheld
    · have hother : (Expr.landor isAnd a b).landor? ≠ some l.isAnd := fun h =>
        hl (Option.some.inj (show some isAnd = some l.isAnd from h)).symm
      rw [Expr.gen_some noret hother]
      exact (landor_value isAnd iha ihb d s _ hn hind hheld).operand hn hf hcc
  | cond c a b ihc iha ihb => exact cond_right ihc iha ihb
  | elvis c b ihc ihb => exact elvis_right ihc ihb
  | comma a b iha ihb => exact comma_right iha ihb

end Right

/-! ## In a register and in a test -/

/-- **Expressions in registers and tests**: in code that is patched, an expression in a register has
the value that C gives to it, and a test of it jumps if and only if C says so. What is below it on the
stack is kept, and the program ends where C ends it. -/
theorem gen_correct (noret : L → Bool) (sem : Sem L K S)
    (hnoret : ∀ l st, noret l = true → (sem.leaf l st).1 = none) (e : Expr L) (d : Nat) (inv : Bool)
    {s : GenState L K} {chains : List (Nat × List Nat)} (hn : s.nocode = 0)
    (hlive : s.dead = false) (hind : s.code.ind ≠ 0) (hheld : Held s.code chains) :
    (∀ P, Final P ((e.gen noret none d s).1.gv d (e.gen noret none d s).2).code →
      ∀ m : Machine S, m.pc = some s.code.ind →
        Computes sem P d m (e.eval sem m.st) fun x m' =>
          m'.pc = some ((e.gen noret none d s).1.gv d (e.gen noret none d s).2).code.ind ∧
            m'.regs d = x) ∧
      ∃ sites,
        Held ((e.gen noret none d s).1.gvtst inv 0 (e.gen noret none d s).2).1.code
          ((((e.gen noret none d s).1.gvtst inv 0 (e.gen noret none d s).2).2, sites) :: chains) ∧
        ∀ P a, Final P ((e.gen noret none d s).1.gvtst inv 0 (e.gen noret none d s).2).1.code →
          Lead P sites a → ∀ m : Machine S, m.pc = some s.code.ind →
            Computes sem P d m (e.eval sem m.st) fun x m' =>
              m'.pc = some (if (x != 0 ^^ inv) = true then a else
                ((e.gen noret none d s).1.gvtst inv 0 (e.gen noret none d s).2).1.code.ind) := by
  obtain ⟨⟨sT, sF, hheld1, hrun⟩, hgrows1, -⟩ :=
    (e.right hnoret).value d s chains hn hind hheld
  refine ⟨fun P hfinal m hpc => ?_, ?_⟩
  · obtain ⟨-, hgrows2, hgv⟩ := gv_spec sem (hgrows1.nocode.trans hn) (hgrows1.ind_ne hind) d hheld1
    obtain ⟨aT, aF, hT, hF, hat⟩ := hgv P hfinal
    refine (hrun P (hgrows2.code.final hfinal) aT aF hT hF hlive m hpc).imp fun x m' h => ?_
    obtain ⟨hreach, -⟩ := hat m' x h
    exact ⟨_, hreach, rfl, fun k hk => Function.update_of_ne hk.ne x m'.regs, rfl,
      Function.update_self d x m'.regs⟩
  · have hstart : (e.gen noret none d s).2.Held (e.gen noret none d s).1 sT sF
        ((0, []) :: chains) :=
      hheld1.cons_nil.perm ((List.Perm.swap _ _ _).trans (.cons _ (.swap _ _ _)))
    obtain ⟨sites, hheld2, hgrows2, -, htest⟩ :=
      gvtst_spec sem (hgrows1.nocode.trans hn) (hgrows1.ind_ne hind) inv hstart
    refine ⟨sites, hheld2, fun P a hfinal ha m hpc => ?_⟩
    obtain ⟨aT, aF, hT, hF, hat⟩ := htest P hfinal a ha
    refine (hrun P (hgrows2.code.final hfinal) aT aF hT hF hlive m hpc).imp fun x m' h => ?_
    obtain ⟨hjumps, hgoesOn⟩ := hat m' x h
    cases hx : (x != 0 ^^ inv) with
    | true =>
      obtain ⟨hreach, -⟩ := hjumps hx
      exact ⟨_, hreach, rfl, fun _ _ => rfl, rfl⟩
    | false =>
      obtain ⟨hreach, -⟩ := hgoesOn hx
      exact ⟨_, hreach, rfl, fun _ _ => rfl, rfl⟩

/-- `3 && 4`, where the state counts what was evaluated. -/
theorem gen_correct_and :
    ∃ m' : Machine Nat,
      Reaches (⟨fun v n => (some v, n + 1), fun _ _ => false⟩ : Sem (BitVec 64) Unit Nat)
        (((Expr.landor true (.leaf 3) (.leaf 4)).gen (fun _ => false) none 0
          (⟨⟨fun _ => .link 0, 1⟩, 0, false⟩ : GenState (BitVec 64) Unit)).1.gv 0
            ((Expr.landor true (.leaf 3) (.leaf 4)).gen (fun _ => false) none 0
              (⟨⟨fun _ => .link 0, 1⟩, 0, false⟩ : GenState (BitVec 64) Unit)).2).code.slots
        ⟨some 1, fun _ => 0, 0⟩ m' ∧ m'.st = 2 ∧ m'.regs 0 = 1 := by
  obtain ⟨m', hreach, hst, -, -, hval⟩ := ((gen_correct (fun _ => false)
    (⟨fun v n => (some v, n + 1), fun _ _ => false⟩ : Sem (BitVec 64) Unit Nat)
    (fun _ _ h => Bool.noConfusion h) (.landor true (.leaf 3) (.leaf 4)) 0 true
    (s := ⟨⟨fun _ => .link 0, 1⟩, 0, false⟩) rfl rfl Nat.one_ne_zero
    (⟨by simp, by simp, by simp, by simp⟩ : Held _ [])).1 _ (fun _ _ _ => rfl) ⟨some 1, fun _ => 0, 0⟩
      rfl).value 1 rfl
  exact ⟨m', hreach, hst, hval⟩

end TccRiscv64.Gen.Flow
