import TccRiscv64.Gen.StatementsRun

set_option autoImplicit false

/-! # The parts of statements

What the code generator emits for the expressions and the jumps of a statement, as ways between places
of the code in the end. -/

namespace TccRiscv64.Gen.Flow

open TccRiscv64.Data TccRiscv64.Data.Backpatch TccRiscv64.Data.Backpatch.Code

variable {L K S : Type}

/-! ## A jump takes a step -/

section Redirect

variable {sem : Sem L K S} {P : Nat → Slot (Instr L K)} {c : Code (Instr L K)} {sites : List Nat}
  {a b : Nat} {m m' : Machine S}

/-- The code in the end, but the jumps of a chain go to `b` and the machine halts behind `c`. -/
def redirect (P : Nat → Slot (Instr L K)) (c : Code (Instr L K)) (sites : List Nat) (b : Nat)
    (p : Nat) : Slot (Instr L K) :=
  if p ∈ sites then .patched p b else if p < c.ind then P p else .link 0

/-- The steps in `c` that are no jumps of the chain. -/
def freeStep (sem : Sem L K S) (P : Nat → Slot (Instr L K)) (c : Code (Instr L K))
    (sites : List Nat) (m : Machine S) : Option (Machine S) :=
  match m.pc with
  | none => none
  | some p => if p < c.ind ∧ p ∉ sites then step sem P m else none

theorem freeStep_eq_none {p : Nat} (hpc : m.pc = some p) (hp : c.ind ≤ p) :
    freeStep sem P c sites m = none := by
  unfold freeStep
  rw [hpc]
  exact if_neg fun h => absurd h.1 (Nat.not_lt.2 hp)

theorem step_of_freeStep (h : freeStep sem P c sites m = some m') :
    step sem P m = some m' := by
  unfold freeStep at h
  split at h
  · cases h
  · split at h
    · exact h
    · cases h

theorem step_congr {P' : Nat → Slot (Instr L K)} {p : Nat} (hpc : m.pc = some p)
    (hP : P p = P' p) : step sem P m = step sem P' m := by
  unfold step
  rw [hpc]
  dsimp only
  rw [hP]

theorem step_link {p next : Nat} (hpc : m.pc = some p) (hP : P p = .link next) :
    step sem P m = none := by
  unfold step
  rw [hpc]
  dsimp only
  rw [hP]

theorem final_redirect (hfinal : Final P c) (hlink : ∀ k ∈ sites, (c.slots k).isLink = true) :
    Final (redirect P c sites b) c := by
  intro p hp hslot
  have hmem : p ∉ sites := fun hmem => absurd (hlink p hmem) (ne_true_of_eq_false hslot)
  rw [redirect, if_neg hmem, if_pos hp]
  exact hfinal p hp hslot

theorem lead_redirect : Lead (redirect P c sites b) sites b := fun _ hk => if_pos hk

/-- A run takes a jump of the chain at the end, or none of them. -/
theorem redirect_run (hbelow : ∀ k ∈ sites, k < c.ind) (hb : c.ind ≤ b)
    (hrun : Reaches sem (redirect P c sites b) m m') :
    (∃ n k, Steps (freeStep sem P c sites) m n ∧ n.pc = some k ∧ k ∈ sites ∧ m'.st = n.st) ∨
      Steps (freeStep sem P c sites) m m' := by
  induction hrun using Relation.ReflTransGen.head_induction_on with
  | refl => exact Or.inr .refl
  | @head m m1 hstep hrest ih =>
    cases hm : m.pc with
    | none =>
      rw [step, hm] at hstep
      cases hstep
    | some p =>
      by_cases hmem : p ∈ sites
      · left
        rw [step_patched hm (if_pos hmem)] at hstep
        obtain rfl := Option.some.inj hstep
        have hnot : b ∉ sites := fun h => absurd (hbelow b h) (Nat.not_lt.2 hb)
        have hstuck : redirect P c sites b b = .link 0 := by
          rw [redirect, if_neg hnot, if_neg (Nat.not_lt.2 hb)]
        have hend := Steps.eq_of_end hrest (step_link rfl hstuck)
        exact ⟨m, p, .refl, hm, hmem, by rw [hend]⟩
      · by_cases hp : p < c.ind
        · have hsame : step sem P m = some m1 := by
            rw [← hstep]
            refine step_congr hm ?_
            rw [redirect, if_neg hmem, if_pos hp]
          have hfree : freeStep sem P c sites m = some m1 := by
            unfold freeStep
            rw [hm]
            exact (if_pos ⟨hp, hmem⟩).trans hsame
          obtain ⟨n, k, hsteps, hrest'⟩ | hsteps := ih
          · exact Or.inl ⟨n, k, .head hfree hsteps, hrest'⟩
          · exact Or.inr (.head hfree hsteps)
        · rw [step_link hm (by rw [redirect, if_neg hmem, if_neg hp])] at hstep
          cases hstep

/-- **A jump takes a step**: if code leads wherever a chain is made to lead, then it takes a jump of
the chain. -/
theorem moves_of_lead (hlink : ∀ k ∈ sites, (c.slots k).isLink = true)
    (hbelow : ∀ k ∈ sites, k < c.ind) (hfinal : Final P c) (hlead : Lead P sites a) {st : S}
    (h : ∀ P' b, Final P' c → Lead P' sites b →
      ∃ m', Reaches sem P' m m' ∧ m'.st = st ∧ m'.pc = some b) :
    ∃ m', Moves (step sem P) m m' ∧ m'.st = st ∧ m'.pc = some a := by
  have hjump : ∀ n k, Steps (freeStep sem P c sites) m n → n.pc = some k → k ∈ sites →
      st = n.st → ∃ m', Moves (step sem P) m m' ∧ m'.st = st ∧ m'.pc = some a := by
    intro n k hsteps hk hmem hst
    have hreach : Steps (step sem P) m n := hsteps.lift id fun _ _ => step_of_freeStep
    exact ⟨{ n with pc := some a }, .tail' hreach (step_patched hk (hlead k hmem)), hst.symm, rfl⟩
  -- two targets behind the code: without a jump of the chain the run would end at both
  obtain ⟨m1, hrun1, hst1, hpc1⟩ := h _ (c.ind + 1) (final_redirect hfinal hlink) lead_redirect
  obtain ⟨m2, hrun2, hst2, hpc2⟩ := h _ (c.ind + 2) (final_redirect hfinal hlink) lead_redirect
  obtain ⟨n, k, hsteps, hk, hmem, hst⟩ | hsteps1 :=
    redirect_run hbelow (Nat.le_add_right _ 1) hrun1
  · exact hjump n k hsteps hk hmem (hst1.symm.trans hst)
  obtain ⟨n, k, hsteps, hk, hmem, hst⟩ | hsteps2 :=
    redirect_run hbelow (Nat.le_add_right _ 2) hrun2
  · exact hjump n k hsteps hk hmem (hst2.symm.trans hst)
  have hsame := hsteps1.end_unique (freeStep_eq_none hpc1 (Nat.le_add_right _ _)) hsteps2
    (freeStep_eq_none hpc2 (Nat.le_add_right _ _))
  rw [hsame, hpc2] at hpc1
  exact absurd (Option.some.inj hpc1) (Nat.succ_ne_self _)

end Redirect

/-! ## Expressions and jumps -/

/-- Behind the code so far. -/
def GenState.place (s : GenState L K) : Place := ⟨s.code.ind, !s.dead⟩

namespace GenState

variable {s : GenState L K} {chains : List (Nat × List Nat)} {sites : List Nat} {t : Nat}
  {m : Machine S}

theorem here_iff : s.place.Here m ↔ m.pc = some s.code.ind ∧ s.dead = false := by
  refine ⟨fun h => ⟨h.pc, ?_⟩, fun h => ⟨h.1, ?_⟩⟩
  · have hlive : (!s.dead) = true := h.live
    simpa using hlive
  · show (!s.dead) = true
    rw [h.2]
    rfl

theorem place_codeOn (hn : s.nocode = 0) : s.codeOn.place = s.place.on := by
  have hlive : s.codeOn.dead = false := dead_eq_false.2 ⟨hn, rfl⟩
  unfold place
  rw [hlive]
  rfl

/-- The jumps of a chain go to `q`, if there are any. -/
def Chained (P : Nat → Slot (Instr L K)) (t : Nat) (sites : List Nat) (q : Place) : Prop :=
  Lead P sites q.pc ∧ (t ≠ 0 → q.live = true)

section Expressions

variable (sem : Sem L K S) {noret : L → Bool}
  (hnoret : ∀ l st, noret l = true → (sem.leaf l st).1 = none)
include hnoret

/-- An expression that is not needed. -/
theorem vpop_right (e : Expr L) (hn : s.nocode = 0) (hind : s.code.ind ≠ 0)
    (hheld : Held s.code chains) {s' : GenState L K}
    (hs' : s' = (e.gen noret none 0 s).1.vpop (e.gen noret none 0 s).2) :
    Held s'.code chains ∧ s.Grows s' ∧
      ∀ P, Final P s'.code → Evaluates sem P s.place e fun _ _ m => s'.place.Here m := by
  obtain ⟨⟨sT, sF, hheld1, hrun⟩, hgrows1, -⟩ := (e.right hnoret).value 0 s chains hn hind hheld
  obtain ⟨hheld2, hgrows2, hpop⟩ := vpop_spec (S := S) (hgrows1.nocode.trans hn) hheld1
  rw [← hs'] at hheld2 hgrows2 hpop
  refine ⟨hheld2, hgrows1.trans hgrows2, fun P hfinal m hm => ?_⟩
  obtain ⟨hpc, hlive⟩ := here_iff.1 hm
  obtain ⟨aT, aF, hT, hF, hat⟩ := hpop P hfinal
  exact (hrun P (hgrows2.code.final hfinal) aT aF hT hF hlive m hpc).imp fun x m' h =>
    ⟨m', .refl, rfl, fun _ _ => rfl, here_iff.2 (hat m' x h)⟩

/-- An expression in the register of the return value. -/
theorem gv_right (e : Expr L) (hn : s.nocode = 0) (hind : s.code.ind ≠ 0)
    (hheld : Held s.code chains) {s' : GenState L K}
    (hs' : s' = (e.gen noret none 0 s).1.gv 0 (e.gen noret none 0 s).2) :
    Held s'.code chains ∧ s.Grows s' ∧ ∀ P, Final P s'.code →
      Evaluates sem P s.place e fun _ x m => s'.place.Here m ∧ m.regs 0 = x := by
  obtain ⟨⟨sT, sF, hheld1, hrun⟩, hgrows1, -⟩ := (e.right hnoret).value 0 s chains hn hind hheld
  obtain ⟨hheld2, hgrows2, hgv⟩ :=
    gv_spec sem (hgrows1.nocode.trans hn) (hgrows1.ind_ne hind) 0 hheld1
  rw [← hs'] at hheld2 hgrows2 hgv
  refine ⟨hheld2, hgrows1.trans hgrows2, fun P hfinal m hm => ?_⟩
  obtain ⟨hpc, hlive⟩ := here_iff.1 hm
  obtain ⟨aT, aF, hT, hF, hat⟩ := hgv P hfinal
  refine (hrun P (hgrows2.code.final hfinal) aT aF hT hF hlive m hpc).imp fun x m' h => ?_
  obtain ⟨hreach, hlive'⟩ := hat m' x h
  refine ⟨_, hreach, rfl, fun k hk => absurd hk (Nat.not_lt_zero k),
    here_iff.2 ⟨rfl, hlive'⟩, ?_⟩
  exact Function.update_self 0 x m'.regs

/-- A test of an expression. -/
theorem gvtst_right (e : Expr L) (inv : Bool) (hn : s.nocode = 0) (hind : s.code.ind ≠ 0)
    (hheld : Held s.code chains) {r : GenState L K × Nat}
    (hr : r = (e.gen noret none 0 s).1.gvtst inv 0 (e.gen noret none 0 s).2) :
    ∃ sites, Held r.1.code ((r.2, sites) :: chains) ∧ s.Grows r.1 ∧
      ∀ P, Final P r.1.code → ∀ q, Chained P r.2 sites q →
        Evaluates sem P s.place e fun m x m' =>
          if (x != 0 ^^ inv) = true then q.Here m' ∧ Moves (step sem P) m m'
          else r.1.place.Here m' := by
  obtain ⟨⟨sT, sF, hheld1, hrun⟩, hgrows1, -⟩ := (e.right hnoret).value 0 s chains hn hind hheld
  have hstart : (e.gen noret none 0 s).2.Held (e.gen noret none 0 s).1 sT sF ((0, []) :: chains) :=
    hheld1.cons_nil.perm ((List.Perm.swap _ _ _).trans (.cons _ (.swap _ _ _)))
  obtain ⟨sites, hheld2, hgrows2, -, htest⟩ :=
    gvtst_spec sem (hgrows1.nocode.trans hn) (hgrows1.ind_ne hind) inv hstart
  rw [← hr] at hheld2 hgrows2 htest
  refine ⟨sites, hheld2, hgrows1.trans hgrows2, fun P hfinal q hq m hm => ?_⟩
  obtain ⟨hpc, hlive⟩ := here_iff.1 hm
  have hcomputes : ∀ P' b, Final P' r.1.code → Lead P' sites b →
      Computes sem P' 0 m (e.eval sem m.st) fun x m' =>
        if (x != 0 ^^ inv) = true then m'.pc = some b ∧ r.2 ≠ 0 else r.1.place.Here m' := by
    intro P' b hfinal' hb
    obtain ⟨aT, aF, hT, hF, hat⟩ := htest P' hfinal' b hb
    refine (hrun P' (hgrows2.code.final hfinal') aT aF hT hF hlive m hpc).imp fun x m' h => ?_
    obtain ⟨hjumps, hgoesOn⟩ := hat m' x h
    cases hx : (x != 0 ^^ inv) with
    | true =>
      obtain ⟨hreach, hne⟩ := hjumps hx
      exact ⟨_, hreach, rfl, fun _ _ => rfl, rfl, hne⟩
    | false =>
      obtain ⟨hreach, hlive'⟩ := hgoesOn hx
      exact ⟨_, hreach, rfl, fun _ _ => rfl, here_iff.2 ⟨rfl, hlive'⟩⟩
  refine ⟨fun x hx => ?_, (hcomputes P q.pc hfinal hq.1).ended⟩
  cases hb : (x != 0 ^^ inv) with
  | false =>
    obtain ⟨m', hreach, hst, hregs, hQ⟩ := (hcomputes P q.pc hfinal hq.1).value x hx
    rw [hb] at hQ
    refine ⟨m', hreach, hst, hregs, ?_⟩
    show if (x != 0 ^^ inv) = true then _ else _
    rw [hb]
    exact hQ
  | true =>
    obtain ⟨m', hreach, hst, hregs, hQ⟩ := (hcomputes P q.pc hfinal hq.1).value x hx
    rw [hb] at hQ
    have hany : ∀ P' b, Final P' r.1.code → Lead P' sites b →
        ∃ m', Reaches sem P' m m' ∧ m'.st = (e.eval sem m.st).2 ∧ m'.pc = some b := by
      intro P' b hfinal' hb'
      obtain ⟨m1, hreach1, hst1, -, hQ1⟩ := (hcomputes P' b hfinal' hb').value x hx
      rw [hb] at hQ1
      exact ⟨m1, hreach1, hst1, hQ1.1⟩
    obtain ⟨m'', hmoves, hst'', hpc''⟩ := moves_of_lead
      (fun k hk => hheld2.isLink _ List.mem_cons_self k hk)
      (fun k hk => hheld2.below _ List.mem_cons_self k hk) hfinal hq.1 hany
    refine ⟨m'', hmoves.to_reflTransGen, hst'', fun k hk => absurd hk (Nat.not_lt_zero k), ?_⟩
    show if (x != 0 ^^ inv) = true then _ else _
    rw [hb]
    exact ⟨⟨hpc'', hq.2 hQ.2⟩, hmoves⟩

end Expressions

/-- A jump in front of a chain. -/
theorem gjmp_right (hheld : Held s.code ((t, sites) :: chains)) (hind : s.code.ind ≠ 0) :
    ∃ sites', Held (s.gjmp t).1.code (((s.gjmp t).2, sites') :: chains) ∧ s.Grows (s.gjmp t).1 ∧
      sites ⊆ sites' ∧ (t ≠ 0 → (s.gjmp t).2 ≠ 0) ∧
      ∀ (sem : Sem L K S) P, ∀ q, Chained P (s.gjmp t).2 sites' q → ∀ m, s.place.Here m →
        step sem P m = some { m with pc := some q.pc } ∧ q.live = true := by
  obtain ⟨sites', hheld', hgrows, -, hsub, hlive⟩ := gjmpRaw_spec hheld hind
  refine ⟨sites', ?_, ⟨?_, ?_⟩, hsub, fun ht => ?_, fun sem P q hq m hm => ?_⟩
  · show Held (s.gjmpRaw t).1.codeOff.code _
    rwa [codeOff_code]
  · show Extends s.code (s.gjmpRaw t).1.codeOff.code
    rw [codeOff_code]
    exact hgrows.code
  · show (s.gjmpRaw t).1.codeOff.nocode = s.nocode
    rw [codeOff_nocode]
    exact hgrows.nocode
  · obtain ⟨k, hk⟩ := List.exists_mem_of_ne_nil _ (hheld.sites_ne_zero.2 ht)
    exact hheld'.sites_ne_zero.1 (List.ne_nil_of_mem (hsub hk))
  · obtain ⟨hpc, hdead⟩ := here_iff.1 hm
    obtain ⟨hmem, -⟩ := hlive hdead
    exact ⟨step_patched hpc (hq.1 _ hmem),
      hq.2 (hheld'.sites_ne_zero.1 (List.ne_nil_of_mem hmem))⟩

theorem jumps_of_step {sem : Sem L K S} {P : Nat → Slot (Instr L K)} {p q : Place}
    (h : ∀ m, p.Here m → step sem P m = some { m with pc := some q.pc } ∧ q.live = true) :
    Jumps sem P p q := fun m hm => ⟨_, .single (h m hm).1, rfl, rfl, (h m hm).2⟩

/-- A jump back. -/
theorem gjmpAddr_right (hheld : Held s.code chains) (a : Nat) :
    Held (s.gjmpAddr a).code chains ∧ s.Grows (s.gjmpAddr a) ∧
      ∀ (sem : Sem L K S) P, Final P (s.gjmpAddr a).code → Jumps sem P s.place ⟨a, true⟩ := by
  have hcode : (s.gjmpAddr a).code = (s.o (.jump a)).code := codeOff_code _
  have hnocode : (s.gjmpAddr a).nocode = (s.o (.jump a)).nocode := codeOff_nocode _
  have hgrows := grows_o s (.jump a)
  refine ⟨hcode ▸ held_o _ hheld, ⟨hcode ▸ hgrows.code, hnocode.trans hgrows.nocode⟩,
    fun sem P hfinal m hm => ?_⟩
  obtain ⟨hpc, hlive⟩ := here_iff.1 hm
  rw [hcode] at hfinal
  exact ⟨{ m with pc := some a }, .single (step_jump hpc (final_o hlive rfl hfinal)), rfl, rfl,
    rfl⟩

/-- The end of a chain behind the code so far. -/
theorem gsym_right (hn : s.nocode = 0) (hheld : Held s.code ((t, sites) :: chains)) :
    Held (s.gsym t).code chains ∧ s.Grows (s.gsym t) ∧
      ∀ P, Final P (s.gsym t).code → Chained P t sites (s.gsym t).place ∧
        ∀ sem : Sem L K S, Leads sem P s.place (s.gsym t).place := by
  obtain ⟨hheld', hgrows, hind, hlive, hon, hlead⟩ := gsym_spec hheld
  refine ⟨hheld', hgrows, fun P hfinal => ⟨⟨?_, fun ht => ?_⟩, fun sem m hm => ?_⟩⟩
  · show Lead P sites (s.gsym t).code.ind
    rw [hind]
    exact hlead P hfinal
  · show (!(s.gsym t).dead) = true
    rw [hon hn ht]
    rfl
  · obtain ⟨hpc, hdead⟩ := here_iff.1 hm
    exact ⟨m, .refl, rfl, here_iff.2 ⟨hpc.trans (congrArg some hind.symm), hlive hdead⟩⟩

end GenState

end TccRiscv64.Gen.Flow
