import TccRiscv64.Gen.StatementsBuilt

set_option autoImplicit false

/-! # The code of functions is right

Cases, labels and jumps have code too, so that the code of a function runs as its statements do. -/

namespace TccRiscv64.Gen.Flow

open TccRiscv64.Data TccRiscv64.Data.Backpatch TccRiscv64.Data.Backpatch.Code

variable {L K N S : Type}

section Jumps

variable [DecidableEq N] {sem : Sem L K S} {noret : L → Bool} {a b : Stmt L K N} {last : Bool}
  {s s1 s2 : FunState L K N}

/-! ## Cases -/

section Cases

variable {sw : SwitchState K}

/-- A case of a switch that cannot be reached. -/
theorem Built.deadEntry (sw' : SwitchState K) (hsw : s.curSwitch = some sw)
    (hn : sw.nocode = true) (hsw' : sw'.nocode = true)
    (hlaid : ∀ P fin lab (env : Env) p q ent, env.cases = false →
      a.Laid sem P fin lab env p q ent → b.Laid sem P fin lab env p q ent)
    (ha : Built sem a last { s with curSwitch := some sw' } s1) : Built sem b last s s1 := by
  intro g rest hgood
  obtain ⟨g1, x, hgood1, hext1, hent1, hlaid1⟩ :=
    ha g rest ⟨hgood.held, hgood.keys, hgood.nocode, hgood.ind⟩
  refine ⟨g1, x, hgood1, hext1, ⟨fun sw1 hsw1 => ?_, hent1.label⟩,
    fun P fin lab env hfinal hres hlast => ?_⟩
  · obtain rfl : sw = sw1 := Option.some.inj (hsw.symm.trans hsw1)
    obtain ⟨sw2, hsw2, hnocode, -⟩ := hent1.switch _ rfl
    exact ⟨sw2, hsw2, hnocode.trans (hsw'.trans hn.symm), fun h => by rw [hn] at h; cases h⟩
  · obtain ⟨hres1, ha'⟩ := hlaid1 P fin lab env hfinal hres hlast
    have hcases : env.cases = false := by rw [hres1.cases _ rfl, hsw']; rfl
    refine ⟨⟨hres1.brk, hres1.cont, hres1.ret, hres1.forward, hres1.defined, fun sw1 hsw1 => ?_⟩,
      hlaid P fin lab env _ _ _ hcases ha'⟩
    obtain rfl : sw = sw1 := Option.some.inj (hsw.symm.trans hsw1)
    rw [hcases, hn]
    rfl

/-- A case of a switch. -/
theorem Built.liveEntry (sw' : SwitchState K) (hsw : s.curSwitch = some sw)
    (hn : sw.nocode = false) (hsw' : sw'.nocode = false) (f : Entries K N → Entries K N)
    (hcases : ∀ x, sw'.cases ++ x.cases = sw.cases ++ (f x).cases)
    (hdef : ∀ x, sw'.defSym.or x.default = sw.defSym.or (f x).default)
    (hlabels : ∀ x, (f x).labels = x.labels)
    (hlaid : ∀ P fin lab (env : Env) q x, env.cases = true →
      a.Laid sem P fin lab env s.gen.place.on q x → b.Laid sem P fin lab env s.gen.place q (f x))
    (ha : Built sem a last { s.codeOn with curSwitch := some sw' } s1) :
    Built sem b last s s1 := by
  intro g rest hgood
  obtain ⟨hgood0, hplace⟩ := codeOn_built hgood
  obtain ⟨g1, x, hgood1, hext1, hent1, hlaid1⟩ :=
    ha g rest ⟨hgood0.held, hgood0.keys, hgood0.nocode, hgood0.ind⟩
  refine ⟨g1, f x, hgood1, hext1, ⟨fun sw1 hsw1 => ?_, fun n => ?_⟩,
    fun P fin lab env hfinal hres hlast => ?_⟩
  · obtain rfl : sw = sw1 := Option.some.inj (hsw.symm.trans hsw1)
    obtain ⟨sw2, hsw2, hnocode, hadd⟩ := hent1.switch _ rfl
    refine ⟨sw2, hsw2, hnocode.trans (hsw'.trans hn.symm), fun _ => ?_⟩
    obtain ⟨h1, h2⟩ := hadd hsw'
    exact ⟨h1.trans (hcases x), h2.trans (hdef x)⟩
  · unfold Entries.label?
    rw [hlabels]
    exact hent1.label n
  · obtain ⟨hres1, ha'⟩ := hlaid1 P fin lab env hfinal hres hlast
    have hlive : env.cases = true := by rw [hres1.cases _ rfl, hsw']; rfl
    rw [hplace] at ha'
    refine ⟨⟨hres1.brk, hres1.cont, hres1.ret, hres1.forward, hres1.defined, fun sw1 hsw1 => ?_⟩,
      hlaid P fin lab env _ _ hlive ha'⟩
    obtain rfl : sw = sw1 := Option.some.inj (hsw.symm.trans hsw1)
    rw [hlive, hn]
    rfl

theorem Built.caseDead (k : K) (hsw : s.curSwitch = some sw) (hn : sw.nocode = true)
    (ha : Built sem a last s s1) : Built sem (.case k a) last s s1 := by
  have hsame : { s with curSwitch := some sw } = s := by rw [← hsw]
  refine .deadEntry sw hsw hn hn (fun P fin lab env p q ent hcases h => ?_) (hsame ▸ ha)
  show if env.cases = true then _ else _
  rwa [if_neg (ne_true_of_eq_false hcases)]

theorem Built.caseLive (k : K) (hsw : s.curSwitch = some sw) (hn : sw.nocode = false)
    (ha : Built sem a last { s.codeOn with
      curSwitch := some { sw with cases := sw.cases ++ [(k, s.gen.code.ind)] } } s1) :
    Built sem (.case k a) last s s1 := by
  refine .liveEntry { sw with cases := sw.cases ++ [(k, s.gen.code.ind)] } hsw hn hn
    (fun x => ⟨(k, s.gen.code.ind) :: x.cases, x.default, x.labels⟩)
    (fun x => List.append_assoc _ _ _) (fun _ => rfl) (fun _ => rfl)
    (fun P fin lab env q x hcases h => ?_) ha
  show if env.cases = true then _ else _
  rw [if_pos hcases]
  exact ⟨x, h, rfl⟩

theorem Built.defaultDead (hsw : s.curSwitch = some sw) (hn : sw.nocode = true)
    (ha : Built sem a last { s with curSwitch := some { sw with defSym := some 1 } } s1) :
    Built sem (.default a) last s s1 := by
  refine .deadEntry { sw with defSym := some 1 } hsw hn hn
    (fun P fin lab env p q ent hcases h => ?_) ha
  show if env.cases = true then _ else _
  rwa [if_neg (ne_true_of_eq_false hcases)]

theorem Built.defaultLive (hsw : s.curSwitch = some sw) (hn : sw.nocode = false)
    (hdef : sw.defSym = none)
    (ha : Built sem a last { s.codeOn with
      curSwitch := some { sw with defSym := some s.gen.code.ind } } s1) :
    Built sem (.default a) last s s1 := by
  refine .liveEntry { sw with defSym := some s.gen.code.ind } hsw hn hn
    (fun x => ⟨x.cases, some s.gen.code.ind, x.labels⟩) (fun _ => rfl)
    (fun x => by rw [hdef]; rfl) (fun _ => rfl) (fun P fin lab env q x hcases h => ?_) ha
  show if env.cases = true then _ else _
  rw [if_pos hcases]
  exact ⟨x, h, rfl⟩

end Cases

/-! ## Jumps -/

theorem Built.break {t : Nat} (ht : s.bsym = some t) :
    Built sem .break last s { (s.gjmp t).1 with bsym := some (s.gjmp t).2 } := by
  intro g rest hgood
  have hgood1 := FunState.Good.swapBrk (b := none) hgood.cons_nil
  rw [ht] at hgood1
  obtain ⟨sites, hgood2, hext2, hjump⟩ := gjmpChain_built (S := S) hgood1
  have hgood3 := (FunState.Good.swapBrk (b := some (s.gjmp t).2) hgood2).tail
  refine ⟨_, .nil, hgood3, hext2, ⟨(Enters.refl s s.gen).switch, (Enters.refl s s.gen).label⟩,
    fun P fin lab env hfinal hres _ => ?_⟩
  obtain ⟨q, hq, hchain⟩ := hres.brk _ rfl
  obtain ⟨hbrk, hto⟩ := hjump sem P q hchain
  refine ⟨⟨fun t' ht' => ?_, hres.cont, hres.ret, hres.forward, hres.defined, hres.cases⟩,
    ⟨q, hq, hto⟩, rfl⟩
  obtain rfl : t = t' := Option.some.inj (ht.symm.trans ht')
  exact ⟨q, hq, hbrk⟩

theorem Built.continue {t : Nat} (ht : s.csym = some t) :
    Built sem .continue last s { (s.gjmp t).1 with csym := some (s.gjmp t).2 } := by
  intro g rest hgood
  have hgood1 := FunState.Good.swapCont (c := none) hgood.cons_nil
  rw [ht] at hgood1
  obtain ⟨sites, hgood2, hext2, hjump⟩ := gjmpChain_built (S := S) hgood1
  have hgood3 := (FunState.Good.swapCont (c := some (s.gjmp t).2) hgood2).tail
  refine ⟨_, .nil, hgood3, hext2, ⟨(Enters.refl s s.gen).switch, (Enters.refl s s.gen).label⟩,
    fun P fin lab env hfinal hres _ => ?_⟩
  obtain ⟨q, hq, hchain⟩ := hres.cont _ rfl
  obtain ⟨hcont, hto⟩ := hjump sem P q hchain
  refine ⟨⟨hres.brk, fun t' ht' => ?_, hres.ret, hres.forward, hres.defined, hres.cases⟩,
    ⟨q, hq, hto⟩, rfl⟩
  obtain rfl : t = t' := Option.some.inj (ht.symm.trans ht')
  exact ⟨q, hq, hcont⟩

/-- `t` is the chain of the jumps to a label that is not defined so far. -/
def FunState.Awaits (s : FunState L K N) (n : N) (t : Nat) : Prop :=
  s.findLabel n = none ∧ t = 0 ∨ s.findLabel n = some (.forward t)

theorem awaits_built {n : N} {t : Nat} {g : Sites N} {rest : List (Nat × List Nat)}
    (h : s.Good g rest) (ht : s.Awaits n t) :
    ∃ sites, (s.dropLabel n).Good g ((t, sites) :: rest) ∧
      ∀ t', s.findLabel n = some (.forward t') → g.label n = sites := by
  obtain ⟨hnone, rfl⟩ | hsome := ht
  · exact ⟨[], (h.dropLabel_none hnone).cons_nil, fun t' ht' => by rw [hnone] at ht'; cases ht'⟩
  · exact ⟨_, h.dropLabel hsome, fun _ _ => rfl⟩

theorem FunState.Awaits.definedAt {n : N} {t : Nat} (ht : s.Awaits n t) :
    s.definedAt n = none := by
  unfold FunState.definedAt
  obtain ⟨hnone, -⟩ | hsome := ht
  · rw [hnone]
    rfl
  · rw [hsome]
    rfl

theorem FunState.Awaits.not_defined {n : N} {t a : Nat} (ht : s.Awaits n t) :
    s.findLabel n ≠ some (.defined a) := by
  obtain ⟨hnone, -⟩ | hsome := ht
  · rw [hnone]
    exact (Option.some_ne_none _).symm
  · rw [hsome]
    exact fun h => Label.noConfusion (Option.some.inj h)

theorem definedAt_setLabel (s : FunState L K N) (n n' : N) (l : Label) :
    (s.setLabel n l).definedAt n' = if n' = n then l.place? else s.definedAt n' := by
  unfold FunState.definedAt
  rw [findLabel_setLabel]
  split <;> rfl

/-- The labels around a label that was set, if the jumps to it go to its place. -/
theorem Resolved.setLabel {P : Nat → Slot (Instr L K)} {fin : Nat} {lab : N → Option Nat}
    {env : Env} {g : Sites N} {n : N} {t : Nat} {l : Label} {sites : List Nat}
    (h : Resolved P fin lab env (s1.setLabel n l)
      { g with label := Function.update g.label n sites })
    (ht : s.Awaits n t) (hlabels : s1.labels = s.labels) (hbrk : s1.bsym = s.bsym)
    (hcont : s1.csym = s.csym) (hsw : s1.curSwitch = s.curSwitch)
    (hto : ∀ t, s.findLabel n = some (.forward t) → ∃ a, lab n = some a ∧ Lead P (g.label n) a) :
    Resolved P fin lab env s g where
  brk t' ht' := h.brk t' (hbrk.trans ht')
  cont t' ht' := h.cont t' (hcont.trans ht')
  ret := h.ret
  forward n' t' ht' := by
    by_cases hn : n' = n
    · subst hn
      exact hto t' ht'
    · have hfind : s1.findLabel n' = s.findLabel n' := findLabel_congr hlabels n'
      obtain ⟨a, ha, hlead⟩ := h.forward n' t' (by rw [findLabel_setLabel, if_neg hn, hfind, ht'])
      refine ⟨a, ha, ?_⟩
      dsimp only at hlead
      rwa [Function.update_of_ne hn] at hlead
  defined n' a ha := by
    have hfind : s1.findLabel n' = s.findLabel n' := findLabel_congr hlabels n'
    have hn : n' ≠ n := by
      rintro rfl
      exact ht.not_defined ha
    exact h.defined n' a (by rw [findLabel_setLabel, if_neg hn, hfind, ha])
  cases sw hsw' := h.cases sw (hsw.trans hsw')

theorem Built.goto {n : N} {t : Nat} (ht : s.Awaits n t) :
    Built sem (.goto n) last s ((s.gjmp t).1.setLabel n (.forward (s.gjmp t).2)) := by
  intro g rest hgood
  obtain ⟨sites, hgood1, hsites⟩ := awaits_built hgood ht
  obtain ⟨sites', hgood2, hext2, hjump⟩ := gjmpChain_built (S := S) hgood1
  have hgood3 := FunState.Good.addLabel (s := (s.gjmp t).1) (n := n)
    (l := .forward (s.gjmp t).2) hgood2
  refine ⟨_, .nil, hgood3, hext2, ⟨(Enters.refl s s.gen).switch, fun n' => ?_⟩,
    fun P fin lab env hfinal hres _ => ?_⟩
  · rw [definedAt_setLabel]
    split
    · rename_i hn
      subst hn
      rw [ht.definedAt]
      rfl
    · exact Option.or_none.symm
  · obtain ⟨a, ha, hlead⟩ := hres.forward n _ (by rw [findLabel_setLabel, if_pos rfl])
    have hlead' : Lead P sites' a := by
      dsimp only at hlead
      rwa [Function.update_self] at hlead
    obtain ⟨hchain, hto⟩ := hjump sem P ⟨a, true⟩ ⟨hlead', fun _ => rfl⟩
    refine ⟨hres.setLabel ht rfl rfl rfl rfl fun t' ht' => ⟨a, ha, ?_⟩, ⟨a, ha, hto⟩, rfl⟩
    rw [hsites t' ht']
    exact hchain.1

theorem Built.gotoBack {n : N} {a : Nat} (hn : s.findLabel n = some (.defined a)) :
    Built sem (.goto n) last s (s.gjmpAddr a) := by
  intro g rest hgood
  obtain ⟨hgood1, hext, hjump⟩ := gjmpAddr_built (S := S) hgood a
  exact ⟨g, .nil, hgood1, hext, .refl s _, fun P fin lab env hfinal hres _ =>
    ⟨hres.gen, ⟨a, hres.defined n a hn, hjump sem P hfinal⟩, rfl⟩⟩

theorem Built.label {n : N} {t : Nat} (ht : s.Awaits n t)
    (ha : Built sem a last ((s.gsym t).codeOn.setLabel n (.defined s.gen.code.ind)) s1) :
    Built sem (.label n a) last s s1 := by
  intro g rest hgood
  obtain ⟨sites, hgood1, hsites⟩ := awaits_built hgood ht
  obtain ⟨hgood2, hext2, hsym⟩ := gsym_built (S := S) hgood1
  obtain ⟨hgood3, hplace⟩ := codeOn_built hgood2
  have hgood4 := FunState.Good.addLabel (s := (s.gsym t).codeOn) (n := n)
    (l := .defined s.gen.code.ind) hgood3.cons_nil
  obtain ⟨g5, x, hgood5, hext5, hent5, hlaid5⟩ := ha _ _ hgood4
  have hind : (s.gsym t).gen.code.ind = s.gen.code.ind := gsym_ind s t
  refine ⟨g5, ⟨x.cases, x.default, (n, s.gen.code.ind) :: x.labels⟩, hgood5, hext2.trans hext5,
    ⟨hent5.switch, fun n' => ?_⟩, fun P fin lab env hfinal hres hlast => ?_⟩
  · rw [hent5.label, definedAt_setLabel]
    unfold Entries.label?
    rw [map_find?_cons]
    by_cases hn : n' = n
    · subst hn
      rw [if_pos rfl, if_pos (decide_eq_true rfl), ht.definedAt]
      rfl
    · rw [if_neg hn, if_neg (by simpa using Ne.symm hn)]
      rfl
  · have hfinal2 := hext5.final hfinal
    obtain ⟨hchain, -⟩ := hsym P hfinal2
    obtain ⟨hres1, ha'⟩ := hlaid5 P fin lab env hfinal hres hlast
    have hlab := hres1.defined n s.gen.code.ind (by rw [findLabel_setLabel, if_pos rfl])
    have hon : (s.gsym t).codeOn.gen.place = s.gen.place.on := by
      rw [show (s.gsym t).codeOn.gen.place = (s.gsym t).gen.place.on from hplace]
      show Place.mk (s.gsym t).gen.code.ind true = Place.mk s.gen.code.ind true
      rw [hind]
    refine ⟨hres1.setLabel ht rfl rfl rfl rfl fun t' ht' => ⟨_, hlab, ?_⟩, x, ?_, rfl⟩
    · rw [hsites t' ht', ← hind]
      exact hchain.1
    · exact hon ▸ ha'

section Return

variable {e : Option (Expr L)} {gen' : GenState L K}

/-- The value of a `return` is in its register. -/
def ReturnValue (sem : Sem L K S) (s : FunState L K N) (e : Option (Expr L))
    (gen' : GenState L K) : Prop :=
  ∀ g rest, s.Good g rest → FunState.Good { s with gen := gen' } g rest ∧
    Extends s.gen.code gen'.code ∧ ∀ P, Final P gen'.code →
      EvaluatesOption sem P s.gen.place e fun _ x m =>
        gen'.place.Here m ∧ ∀ v, x = some v → m.regs 0 = v

omit [DecidableEq N] in
theorem FunState.Good.codeOff {g : Sites N} {rest : List (Nat × List Nat)} (h : s.Good g rest) :
    FunState.Good { s with gen := s.gen.codeOff } g rest where
  held := by
    show Held s.gen.codeOff.code _
    rw [GenState.codeOff_code]
    exact h.held
  keys := h.keys
  nocode := (GenState.codeOff_nocode _).trans h.nocode
  ind := by
    show s.gen.codeOff.code.ind ≠ 0
    rw [GenState.codeOff_code]
    exact h.ind

theorem EvaluatesOption.jump {P : Nat → Slot (Instr L K)} {p q : Place} {a : Nat}
    (h : EvaluatesOption sem P p e fun _ x m => q.Here m ∧ ∀ v, x = some v → m.regs 0 = v)
    (hjump : ∀ m : Machine S, q.Here m →
      ∃ m', Reaches sem P m m' ∧ m'.st = m.st ∧ m'.regs = m.regs ∧ m'.pc = some a) :
    EvaluatesOption sem P p e fun _ x m => m.pc = some a ∧ ∀ v, x = some v → m.regs 0 = v := by
  refine h.reach fun m x m' hx => ?_
  obtain ⟨m'', hreach, hst, hregs, hpc⟩ := hjump m' hx.1
  exact ⟨m'', hreach, hst, hpc, fun v hv => hregs ▸ hx.2 v hv⟩

theorem Built.returnLast (h0 : ReturnValue sem s e gen') :
    Built sem (.return e) true s { s with gen := gen'.codeOff } := by
  intro g rest hgood
  obtain ⟨hgood1, hext1, hval⟩ := h0 g rest hgood
  have hcode : gen'.codeOff.code = gen'.code := GenState.codeOff_code gen'
  refine ⟨g, .nil, hgood1.codeOff, hcode ▸ hext1, .refl s _, fun P fin lab env hfinal hres hlast =>
    ⟨hres.gen, ?_, rfl⟩⟩
  have hfin : fin = gen'.code.ind := by
    rw [hlast rfl]
    exact congrArg Code.ind hcode
  refine (hval P (hcode ▸ hfinal)).jump fun m hm => ⟨m, .refl, rfl, rfl, ?_⟩
  rw [hfin]
  exact hm.pc

theorem Built.returnJump {s0 : FunState L K N} (hs0 : s0 = { s with gen := gen' })
    (h0 : ReturnValue sem s e gen') :
    Built sem (.return e) false s { (s0.gjmp s0.rsym).1 with
      rsym := (s0.gjmp s0.rsym).2, gen := (s0.gjmp s0.rsym).1.gen.codeOff } := by
  subst hs0
  intro g rest hgood
  obtain ⟨hgood1, hext1, hval⟩ := h0 g rest hgood
  have hgood2 := hgood1.cons_nil.swapRet
  obtain ⟨sites, hheld, hgrows, hsub, -, hjump⟩ :=
    GenState.gjmp_right (S := S) (hgood2.held.bring _) hgood2.ind
  have hgood3 := (hgood2.gen (hheld.sink _) hgrows).swapRet.tail.codeOff
  have hcode : (gen'.gjmp s.rsym).1.codeOff.code = (gen'.gjmp s.rsym).1.code :=
    GenState.codeOff_code _
  refine ⟨_, .nil, hgood3, hcode ▸ hext1.trans hgrows.code,
    ⟨(Enters.refl s s.gen).switch, (Enters.refl s s.gen).label⟩,
    fun P fin lab env hfinal hres _ => ⟨⟨hres.brk, hres.cont, fun k hk => hres.ret k (hsub hk),
      hres.forward, hres.defined, hres.cases⟩, ?_, rfl⟩⟩
  have hfinal' : Final P (gen'.gjmp s.rsym).1.code := hcode ▸ hfinal
  refine (hval P (hgrows.code.final hfinal')).jump fun m hm => ?_
  exact ⟨_, .single (hjump sem P ⟨fin, true⟩ ⟨hres.ret, fun _ => rfl⟩ m hm).1, rfl, rfl, rfl⟩

end Return

end Jumps

/-! ## The code of a function -/

theorem bind_eq_ok {ε α β : Type} {x : Except ε α} {f : α → Except ε β} {b : β}
    (h : (x >>= f) = .ok b) : ∃ a, x = .ok a ∧ f a = .ok b := by
  cases x with
  | error e => cases h
  | ok a => exact ⟨a, rfl, h⟩

section Function

variable [DecidableEq N] {sem : Sem L K S} {noret : L → Bool}
  (hnoret : ∀ l st, noret l = true → (sem.leaf l st).1 = none)
include hnoret

/-- What is emitted for a statement is code for it in the end. -/
theorem Stmt.built (a : Stmt L K N) {last : Bool} {s s' : FunState L K N}
    (h : a.gen noret last s = .ok s') : Built sem a last s s' := by
  induction a generalizing last s s' with
  | empty =>
    obtain rfl := Except.ok.inj h
    exact .empty s
  | expr e =>
    obtain rfl := Except.ok.inj h
    exact .expr hnoret e
  | seq a b iha ihb =>
    obtain ⟨s1, ha, hb⟩ := bind_eq_ok h
    exact (iha ha).seq (ihb hb)
  | block a ih => exact (ih h).block
  | ifThen c a ih =>
    obtain ⟨s1, ha, hb⟩ := bind_eq_ok h
    obtain rfl := Except.ok.inj hb
    exact .ifThen hnoret c (ih ha)
  | ifElse c a b iha ihb =>
    obtain ⟨s1, ha, h⟩ := bind_eq_ok h
    obtain ⟨s2, hb, h⟩ := bind_eq_ok h
    obtain rfl := Except.ok.inj h
    exact .ifElse hnoret c (iha ha) (ihb hb)
  | «while» c a ih =>
    obtain ⟨s1, ha, h⟩ := bind_eq_ok h
    obtain rfl := Except.ok.inj h
    exact .while hnoret c (ih ha)
  | doWhile a c ih =>
    obtain ⟨s1, ha, h⟩ := bind_eq_ok h
    obtain rfl := Except.ok.inj h
    exact .doWhile hnoret c (ih ha)
  | «for» init cond third a ih =>
    obtain ⟨s1, ha, h⟩ := bind_eq_ok h
    obtain rfl := Except.ok.inj h
    exact .for hnoret init cond third rfl rfl rfl (ih ha)
  | switch e a ih =>
    obtain ⟨s1, ha, h⟩ := bind_eq_ok h
    obtain rfl := Except.ok.inj h
    exact .switch hnoret e rfl (ih ha)
  | case k a ih =>
    unfold Stmt.gen at h
    split at h
    · cases h
    · rename_i sw hsw
      split at h
      · rename_i hn
        exact .caseDead k hsw hn (ih h)
      · rename_i hn
        exact .caseLive k hsw (eq_false_of_ne_true hn) (ih h)
  | default a ih =>
    unfold Stmt.gen at h
    split at h
    · cases h
    · rename_i sw hsw
      split at h
      · cases h
      · rename_i hdef
        split at h
        · rename_i hn
          exact .defaultDead hsw hn (ih h)
        · rename_i hn
          exact .defaultLive hsw (eq_false_of_ne_true hn) (by simpa using hdef) (ih h)
  | «break» =>
    unfold Stmt.gen at h
    split at h
    · cases h
    · rename_i t ht
      obtain rfl := Except.ok.inj h
      exact .break ht
  | «continue» =>
    unfold Stmt.gen at h
    split at h
    · cases h
    · rename_i t ht
      obtain rfl := Except.ok.inj h
      exact .continue ht
  | goto n =>
    unfold Stmt.gen at h
    split at h
    · rename_i hn
      obtain rfl := Except.ok.inj h
      exact .goto (Or.inl ⟨hn, rfl⟩)
    · rename_i t hn
      obtain rfl := Except.ok.inj h
      exact .goto (Or.inr hn)
    · rename_i a hn
      obtain rfl := Except.ok.inj h
      exact .gotoBack hn
  | label n a ih =>
    unfold Stmt.gen at h
    split at h
    · rename_i hn
      exact .label (Or.inl ⟨hn, rfl⟩) (ih h)
    · rename_i t hn
      exact .label (Or.inr hn) (ih h)
    · cases h
  | «return» e =>
    cases e with
    | none =>
      have hval : ReturnValue sem s none s.gen := fun g rest hgood =>
        ⟨hgood, .refl _, fun P _ m hm => ⟨m, .refl, rfl, hm, fun v hv => by cases hv⟩⟩
      cases last with
      | true =>
        obtain rfl := Except.ok.inj h
        exact .returnLast hval
      | false =>
        obtain rfl := Except.ok.inj h
        exact .returnJump rfl hval
    | some e =>
      have hval : ReturnValue sem s (some e) (s.gexprGv noret e).gen := by
        intro g rest hgood
        obtain ⟨hgood1, hext, heval⟩ := gexprGv_built hnoret hgood e
        refine ⟨hgood1, hext, fun P hfinal => (heval P hfinal).imp fun m x m' hx => ?_⟩
        exact ⟨hx.1, fun v hv => Option.some.inj hv ▸ hx.2⟩
      cases last with
      | true =>
        obtain rfl := Except.ok.inj h
        exact .returnLast hval
      | false =>
        obtain rfl := Except.ok.inj h
        exact .returnJump rfl hval

end Function

/-! ## Runs -/

section Runs

variable [DecidableEq N] {sem : Sem L K S} {noret : L → Bool} {P : Nat → Slot (Instr L K)}
  {fin n : Nat} {lab : N → Option Nat} {body : Stmt L K N} {c : Config L K N S} {m : Machine S}

/-- One step of a function, if it is not done. -/
theorem Matches.step
    (hlab : ∀ l, Found sem P fin lab n (body.find (Stmt.isLabel l) true .stop) (lab l))
    (h : Matches sem P fin lab c m) :
    (∃ c', Config.step sem body c = some c' ∧ Comes sem P fin lab c.size m c') ∨
      Config.step sem body c = none ∧ ((∃ x, c = .returned x m.st ∧ m.pc = some fin ∧
        ∀ v, x = some v → m.regs 0 = v) ∨ c = .ended m.st ∧ m.pc = none) := by
  cases h with
  | run hhere hst hlaid hk => exact Or.inl (hlaid.step hlab hk hhere hst)
  | next hhere hst hthird hlaid hk =>
    refine Or.inl ⟨_, rfl, hthird.bind hhere hst (Nat.succ_pos _) fun x m' hsteps hhere' =>
      .steps hsteps (.stay (.run hhere' rfl hlaid hk) ?_)⟩
    simp only [Config.size, Stmt.size, Option.isSome_none, Bool.false_eq_true, if_false]
    omega
  | returned hpc hst hval =>
    subst hst
    exact Or.inr ⟨rfl, Or.inl ⟨_, rfl, hpc, hval⟩⟩
  | ended hpc hst =>
    subst hst
    exact Or.inr ⟨rfl, Or.inr ⟨rfl, hpc⟩⟩

theorem stutters_matches
    (hlab : ∀ l, Found sem P fin lab n (body.find (Stmt.isLabel l) true .stop) (lab l)) :
    Stutters (Config.step sem body) (step sem P) (Matches sem P fin lab) Config.size := by
  intro c m c' hmatches hstep
  obtain ⟨c1, hc1, m', hmatches', hmoves⟩ | ⟨hnone, -⟩ := hmatches.step hlab
  · obtain rfl := Option.some.inj (hc1.symm.trans hstep)
    exact ⟨m', hmatches', hmoves⟩
  · rw [hnone] at hstep
    cases hstep

/-- There is no `bsym` and no `csym` behind a statement that is outside of loops. -/
theorem Stmt.gen_outside (a : Stmt L K N) {last : Bool} {s s' : FunState L K N}
    (h : a.gen noret last s = .ok s') :
    (s.bsym = none → s'.bsym = none) ∧ (s.csym = none → s'.csym = none) := by
  induction a generalizing last s s' with
  | empty =>
    obtain rfl := Except.ok.inj h
    exact ⟨id, id⟩
  | expr e =>
    obtain rfl := Except.ok.inj h
    exact ⟨id, id⟩
  | seq a b iha ihb =>
    obtain ⟨s1, ha, hb⟩ := bind_eq_ok h
    exact ⟨fun h => (ihb hb).1 ((iha ha).1 h), fun h => (ihb hb).2 ((iha ha).2 h)⟩
  | block a ih => exact ih h
  | ifThen c a ih =>
    obtain ⟨s1, ha, hb⟩ := bind_eq_ok h
    obtain rfl := Except.ok.inj hb
    exact ⟨fun hs => (ih ha).1 hs, fun hs => (ih ha).2 hs⟩
  | ifElse c a b iha ihb =>
    obtain ⟨s1, ha, h⟩ := bind_eq_ok h
    obtain ⟨s2, hb, h⟩ := bind_eq_ok h
    obtain rfl := Except.ok.inj h
    exact ⟨fun h => (ihb hb).1 ((iha ha).1 h), fun h => (ihb hb).2 ((iha ha).2 h)⟩
  | «while» c a ih =>
    obtain ⟨s1, ha, h⟩ := bind_eq_ok h
    obtain rfl := Except.ok.inj h
    exact ⟨id, id⟩
  | doWhile a c ih =>
    obtain ⟨s1, ha, h⟩ := bind_eq_ok h
    obtain rfl := Except.ok.inj h
    exact ⟨id, id⟩
  | «for» init cond third a ih =>
    obtain ⟨s1, ha, h⟩ := bind_eq_ok h
    obtain rfl := Except.ok.inj h
    exact ⟨id, id⟩
  | switch e a ih =>
    obtain ⟨s1, ha, h⟩ := bind_eq_ok h
    obtain rfl := Except.ok.inj h
    have hkeep : (s.switchEnd s1 (e.gen noret none 0 s.gen).2
        ((e.gen noret none 0 s.gen).1.gjmp 0).2).bsym = s.bsym ∧
        (s.switchEnd s1 (e.gen noret none 0 s.gen).2
          ((e.gen noret none 0 s.gen).1.gjmp 0).2).csym = s1.csym := by
      unfold FunState.switchEnd
      dsimp only
      split
      · exact ⟨rfl, rfl⟩
      · split <;> exact ⟨rfl, rfl⟩
    exact ⟨fun h => hkeep.1.trans h, fun h => hkeep.2.trans ((ih ha).2 h)⟩
  | case k a ih =>
    unfold Stmt.gen at h
    split at h
    · cases h
    · split at h
      · exact ⟨fun hs => (ih h).1 hs, fun hs => (ih h).2 hs⟩
      · exact ⟨fun hs => (ih h).1 hs, fun hs => (ih h).2 hs⟩
  | default a ih =>
    unfold Stmt.gen at h
    split at h
    · cases h
    · split at h
      · cases h
      · split at h
        · exact ⟨fun hs => (ih h).1 hs, fun hs => (ih h).2 hs⟩
        · exact ⟨fun hs => (ih h).1 hs, fun hs => (ih h).2 hs⟩
  | «break» =>
    unfold Stmt.gen at h
    split at h
    · cases h
    · rename_i t ht
      obtain rfl := Except.ok.inj h
      exact ⟨fun h => absurd (ht.symm.trans h) (Option.some_ne_none _), id⟩
  | «continue» =>
    unfold Stmt.gen at h
    split at h
    · cases h
    · rename_i t ht
      obtain rfl := Except.ok.inj h
      exact ⟨id, fun h => absurd (ht.symm.trans h) (Option.some_ne_none _)⟩
  | goto n =>
    unfold Stmt.gen at h
    split at h <;> obtain rfl := Except.ok.inj h <;> exact ⟨id, id⟩
  | label n a ih =>
    unfold Stmt.gen at h
    split at h
    · exact ⟨fun hs => (ih h).1 hs, fun hs => (ih h).2 hs⟩
    · exact ⟨fun hs => (ih h).1 hs, fun hs => (ih h).2 hs⟩
    · cases h
  | «return» e =>
    obtain rfl := Except.ok.inj h
    cases e <;> cases last <;> exact ⟨id, id⟩

/-- The code of a function. Nothing is behind it. -/
def FunState.program (s : FunState L K N) (p : Nat) : Slot (Instr L K) :=
  if p < s.gen.code.ind then s.gen.code.slots p else .link 0

omit [DecidableEq N] in
theorem final_program (s : FunState L K N) : Final s.program s.gen.code := fun _ hp _ => if_pos hp

omit [DecidableEq N] in
theorem step_program_end {s : FunState L K N} (hpc : m.pc = some s.gen.code.ind) :
    step sem s.program m = none := step_link hpc (if_neg (Nat.lt_irrefl _))

/-- The machine at the start of a function has its statements to do. -/
theorem genFunction_matches (hnoret : ∀ l st, noret l = true → (sem.leaf l st).1 = none) {ind : Nat}
    (hind : ind ≠ 0) {s : FunState L K N} (h : genFunction noret ind body = .ok s)
    (hpc : m.pc = some ind) :
    ∃ lab n, (∀ l, Found sem s.program s.gen.code.ind lab n
        (body.find (Stmt.isLabel l) true .stop) (lab l)) ∧
      Matches sem s.program s.gen.code.ind lab (.run body .stop m.st) m := by
  obtain ⟨s1, hgen, h⟩ := bind_eq_ok h
  split at h
  · cases h
  rename_i hforward
  obtain rfl := Except.ok.inj h
  have hempty : Held (⟨fun _ => .link 0, ind⟩ : Code (Instr L K)) [] :=
    ⟨fun _ h => absurd h List.not_mem_nil, fun _ h => absurd h List.not_mem_nil, .nil,
      fun _ h => absurd h List.not_mem_nil⟩
  obtain ⟨g1, ent, hgood1, -, hent, hlaid⟩ := body.built hnoret hgen ⟨[], [], [], fun _ => []⟩ []
    ⟨hempty.cons_nil.cons_nil.cons_nil, .nil, rfl, hind⟩
  obtain ⟨hgood2, hext2, hsym⟩ := gsym_built (S := S) hgood1.cons_nil.swapRet
  have hfinal := final_program (s1.gsym s1.rsym)
  obtain ⟨hchain, hleads⟩ := hsym _ hfinal
  have hend : (s1.gsym s1.rsym).gen.code.ind = s1.gen.code.ind := gsym_ind s1 s1.rsym
  obtain ⟨hbrk, hcont⟩ := body.gen_outside hgen
  have hdefined : ∀ n l, s1.findLabel n = some l → l.isForward = false := by
    intro n l hl
    obtain ⟨x, hx, rfl⟩ := Option.map_eq_some_iff.1 hl
    have hnot := List.find?_eq_none.1 hforward x (List.mem_of_find?_eq_some hx)
    exact eq_false_of_ne_true hnot
  have hres : Resolved (s1.gsym s1.rsym).program (s1.gsym s1.rsym).gen.code.ind s1.definedAt
      ⟨none, none, !(s1.curSwitch.elim false SwitchState.nocode)⟩ s1 g1 :=
    ⟨fun t ht => absurd (ht.symm.trans (hbrk rfl)) (Option.some_ne_none t),
      fun t ht => absurd (ht.symm.trans (hcont rfl)) (Option.some_ne_none t), hchain.1,
      fun n t hn => absurd (hdefined n _ hn) Bool.noConfusion,
      fun n a hn => by rw [FunState.definedAt, hn]; rfl,
      fun sw hsw => by rw [hsw]; rfl⟩
  obtain ⟨-, hlaid⟩ := hlaid _ _ _ _ (hext2.final hfinal) hres fun _ => hend
  have hbehind : (Cont.stop : Cont L K N).Behind sem (s1.gsym s1.rsym).program
      (s1.gsym s1.rsym).gen.code.ind s1.definedAt
      ⟨none, none, !(s1.curSwitch.elim false SwitchState.nocode)⟩ s1.gen.place := by
    refine ⟨rfl, rfl, fun m hm => ?_⟩
    obtain ⟨m', hreach, hst, hhere⟩ := hleads sem m hm
    exact ⟨m', hreach, hst, hhere.pc, rfl⟩
  refine ⟨s1.definedAt, body.size + Cont.size (.stop : Cont L K N), fun l => ?_,
    .run ⟨hpc, rfl⟩ rfl hlaid hbehind⟩
  have hlabel : s1.definedAt l = ent.label? l := hent.label l
  rw [hlabel]
  exact find_found (agrees_label l) body hlaid hbehind (Or.inr rfl)

/-- **Functions**: the code of a function runs as the statements do. It comes to its end with the
value in the register if and only if they return, ends the program if and only if they do, and is
never stuck. -/
theorem genFunction_correct (noret : L → Bool) (sem : Sem L K S)
    (hnoret : ∀ l st, noret l = true → (sem.leaf l st).1 = none) {ind : Nat} (hind : ind ≠ 0)
    (body : Stmt L K N) {s : FunState L K N} (h : genFunction noret ind body = .ok s)
    (m : Machine S) (hpc : m.pc = some ind) :
    (∀ c, Steps (Config.step sem body) (.run body .stop m.st) c →
      (∃ c', Config.step sem body c = some c') ∨
      (∃ x st, c = .returned x st ∧ ∃ m', Steps (step sem s.program) m m' ∧
        m'.pc = some s.gen.code.ind ∧ m'.st = st ∧ ∀ v, x = some v → m'.regs 0 = v) ∨
      ∃ st, c = .ended st ∧ ∃ m', Steps (step sem s.program) m m' ∧ m'.pc = none ∧ m'.st = st) ∧
    ∀ m', Steps (step sem s.program) m m' → step sem s.program m' = none →
      (∃ x, Steps (Config.step sem body) (.run body .stop m.st) (.returned x m'.st) ∧
        m'.pc = some s.gen.code.ind ∧ ∀ v, x = some v → m'.regs 0 = v) ∨
      Steps (Config.step sem body) (.run body .stop m.st) (.ended m'.st) ∧ m'.pc = none := by
  obtain ⟨lab, n, hlab, hmatches⟩ := genFunction_matches hnoret hind h hpc
  have hstutters := stutters_matches hlab
  refine ⟨fun c hc => ?_, fun m' hm' hend => ?_⟩
  · obtain ⟨m', hmatches', hsteps⟩ := hstutters.run hc hmatches
    obtain ⟨c', hc', -⟩ | ⟨-, ⟨x, rfl, hpc', hval⟩ | ⟨rfl, hpc'⟩⟩ := hmatches'.step hlab
    · exact Or.inl ⟨c', hc'⟩
    · exact Or.inr (Or.inl ⟨x, _, rfl, m', hsteps, hpc', rfl, hval⟩)
    · exact Or.inr (Or.inr ⟨_, rfl, m', hsteps, hpc', rfl⟩)
  · obtain ⟨c, m1, hc, hdone, hmatches', hsteps⟩ := hstutters.ends hm' hend hmatches
    obtain ⟨c', hc', -⟩ | ⟨-, ⟨x, rfl, hpc', hval⟩ | ⟨rfl, hpc'⟩⟩ := hmatches'.step hlab
    · rw [hdone] at hc'
      cases hc'
    · obtain rfl := hsteps.end_unique (step_program_end hpc') hm' hend
      exact Or.inl ⟨x, hc, hpc', hval⟩
    · have hdone' : step sem s.program m1 = none := by
        unfold step
        rw [hpc']
      obtain rfl := hsteps.end_unique hdone' hm' hend
      exact Or.inr ⟨hc, hpc'⟩

/-- A loop that counts to 2. -/
theorem genFunction_correct_while :
    ∃ s, genFunction (K := Unit) (N := Unit) (fun _ => false) 1
        (.while (.leaf true) (.expr (.leaf false))) = .ok s ∧
      ∃ m' : Machine Nat, Steps (step ⟨fun l st => if l then (some (if st < 2 then 1 else 0), st)
        else (some 0, st + 1), fun _ _ => false⟩ s.program) ⟨some 1, fun _ => 0, 0⟩ m' ∧
          m'.pc = some s.gen.code.ind ∧ m'.st = 2 := by
  obtain ⟨s, hs⟩ : ∃ s, genFunction (K := Unit) (N := Unit) (fun _ => false) 1
      (.while (.leaf true) (.expr (.leaf false))) = .ok s := ⟨_, rfl⟩
  refine ⟨s, hs, ?_⟩
  have hrun := (genFunction_correct (fun _ => false)
    (⟨fun l st => if l then (some (if st < 2 then 1 else 0), st) else (some 0, st + 1),
      fun _ _ => false⟩ : Sem Bool Unit Nat)
      (fun _ _ h => Bool.noConfusion h) Nat.one_ne_zero _ hs ⟨some 1, fun _ => 0, 0⟩ rfl).1
    (.returned none 2) (.head rfl (.head rfl (.head rfl (.head rfl (.head rfl (.head rfl
      (.head rfl (.head rfl .refl))))))))
  obtain ⟨c', hc'⟩ | ⟨x, st, hx, m', hsteps, hpc, hst, -⟩ | ⟨st, hx, -⟩ := hrun
  · cases hc'
  · cases hx
    exact ⟨m', hsteps, hpc, hst⟩
  · cases hx

end Runs

end TccRiscv64.Gen.Flow
