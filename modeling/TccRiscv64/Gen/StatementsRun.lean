import TccRiscv64.Gen.StatementsCode

set_option autoImplicit false

/-! # The code of statements runs as they do

Every step of a statement is matched by steps of its code. -/

namespace TccRiscv64.Gen.Flow

open TccRiscv64.Data TccRiscv64.Data.Backpatch

variable {L K N S : Type}

section Ways

variable {sem : Sem L K S} {P : Nat → Slot (Instr L K)} {p q r : Place} {m : Machine S}

theorem Place.Here.on (h : p.Here m) : p.on.Here m := ⟨h.pc, rfl⟩

theorem Leads.refl (sem : Sem L K S) (P : Nat → Slot (Instr L K)) (p : Place) : Leads sem P p p :=
  fun m h => ⟨m, .refl, rfl, h⟩

theorem Leads.trans (h : Leads sem P p q) (h' : Leads sem P q r) : Leads sem P p r := by
  intro m hm
  obtain ⟨m', hreach, hst, hm'⟩ := h m hm
  obtain ⟨m'', hreach', hst', hm''⟩ := h' m' hm'
  exact ⟨m'', hreach.trans hreach', hst'.trans hst, hm''⟩

theorem Leads.jumps (h : Leads sem P p q) (h' : Jumps sem P q r) : Jumps sem P p r := by
  intro m hm
  obtain ⟨m', hreach, hst, hm'⟩ := h m hm
  obtain ⟨m'', hmoves, hst', hm''⟩ := h' m' hm'
  exact ⟨m'', hmoves.trans_right hreach, hst'.trans hst, hm''⟩

theorem Jumps.leads (h : Jumps sem P p q) : Leads sem P p q := by
  intro m hm
  obtain ⟨m', hmoves, hst, hm'⟩ := h m hm
  exact ⟨m', hmoves.to_reflTransGen, hst, hm'⟩

variable {fin : Nat} {lab : N → Option Nat}

/-- What comes behind a place comes behind those that lead there. -/
theorem Cont.Behind.leads {k : Cont L K N} {env : Env} (hleads : Leads sem P p q)
    (h : k.Behind sem P fin lab env q) : k.Behind sem P fin lab env p := by
  cases k with
  | stop =>
    obtain ⟨hbrk, hcont, hfin⟩ := h
    exact ⟨hbrk, hcont, hleads.trans hfin⟩
  | seq b k =>
    obtain ⟨p', q', ent, hto, hlaid, hk⟩ := h
    exact ⟨p', q', ent, hleads.trans hto, hlaid, hk⟩
  | «while» c a k =>
    obtain ⟨env', q', r, ent, henv, hlaid, hto, hk⟩ := h
    exact ⟨env', q', r, ent, henv, hlaid, hleads.jumps hto, hk⟩
  | doWhile a c k =>
    obtain ⟨env', q', r, t, ent, henv, hto, hlaid, htest, hk⟩ := h
    exact ⟨env', q', r, t, ent, henv, hleads.trans hto, hlaid, htest, hk⟩
  | «for» cond third a k =>
    obtain ⟨env', q', r, t, ent, henv, hlaid, hthird, hto, hk⟩ := h
    exact ⟨env', q', r, t, ent, henv, hlaid, hthird, hleads.jumps hto, hk⟩
  | switch k =>
    obtain ⟨env', q', cases, henv, hto, hk⟩ := h
    exact ⟨env', q', cases, henv, hleads.jumps hto, hk⟩

/-! What comes behind the statement of a loop. -/

variable {k : Cont L K N} {a : Stmt L K N} {c : Expr L} {env : Env} {r' t : Place}
  {ent : Entries K N}

theorem Cont.Behind.while (h : k.Behind sem P fin lab env q)
    (htest : Evaluates sem P p.on c fun _ x m => if x ≠ 0 then r.Here m else q.Here m)
    (hlaid : a.Laid sem P fin lab { env with brk := some q, cont := some p.on } r r' ent)
    (hback : Jumps sem P r' p.on) :
    (Cont.while c a k).Behind sem P fin lab { env with brk := some q, cont := some p.on } r' :=
  ⟨env, q, p, ent, rfl, ⟨r, r', htest, hlaid, hback⟩, hback, h⟩

theorem Cont.Behind.doWhile (h : k.Behind sem P fin lab env q)
    (hlaid : a.Laid sem P fin lab { env with brk := some q, cont := some t } p.on r ent)
    (hto : Leads sem P r t)
    (htest : Evaluates sem P t c fun m x m' =>
      if x ≠ 0 then p.on.Here m' ∧ Moves (step sem P) m m' else q.Here m') :
    (Cont.doWhile a c k).Behind sem P fin lab { env with brk := some q, cont := some t } r :=
  ⟨env, q, p, t, ent, rfl, hto, ⟨r, t, hlaid, hto, htest⟩, htest, h⟩

theorem Cont.Behind.for {cond third : Option (Expr L)} (h : k.Behind sem P fin lab env q)
    (hcond : EvaluatesOption sem P p.on cond fun _ x m =>
      if x ≠ some 0 then r.Here m else q.Here m)
    (hthird : EvaluatesOption sem P t.on third fun _ _ m => p.on.Here m)
    (hlaid : a.Laid sem P fin lab { env with brk := some q, cont := some t.on } r r' ent)
    (hback : Jumps sem P r' t.on) :
    (Cont.for cond third a k).Behind sem P fin lab
      { env with brk := some q, cont := some t.on } r' :=
  ⟨env, q, p, t, ent, rfl, ⟨p.on, r, r', t, fun m hm => ⟨m, .refl, rfl, hm⟩, hcond, hthird, hlaid,
    hback⟩, hthird, hback, h⟩

theorem Cont.Behind.switch {cases : Bool} (h : k.Behind sem P fin lab env q)
    (hto : Jumps sem P r q) :
    (Cont.switch k).Behind sem P fin lab { env with brk := some q, cases := cases } r :=
  ⟨env, q, cases, rfl, hto, h⟩

end Ways

/-! ## Entries -/

section Find

variable (sem : Sem L K S) (P : Nat → Slot (Instr L K)) (fin : Nat) (lab : N → Option Nat)

/-- The code of a statement and of what is left to do is at `p`. -/
def RunsAt (a : Stmt L K N) (k : Cont L K N) (p : Place) : Prop :=
  ∃ env q ent, a.Laid sem P fin lab env p q ent ∧ k.Behind sem P fin lab env q

/-- What is found in the source is at the place that is found in the entries. -/
def Found (n : Nat) (found : Option (Stmt L K N × Cont L K N)) (pc : Option Nat) : Prop :=
  match found with
  | some (a, k) => ∃ a', pc = some a' ∧ RunsAt sem P fin lab a k ⟨a', true⟩ ∧ a.size + k.size ≤ n
  | none => pc = none

/-- `place` finds in the entries what `hit` finds in the source. -/
structure Agrees (hit : Stmt L K N → Bool) (deep : Bool) (place : Entries K N → Option Nat) :
    Prop where
  nil : place .nil = none
  append : ∀ x y, place (x.append y) = (place x).or (place y)
  case : ∀ k a pc x, place ⟨(k, pc) :: x.cases, x.default, x.labels⟩ =
    if hit (.case k a) then some pc else place x
  default : ∀ a pc x, place ⟨x.cases, some pc, x.labels⟩ =
    if hit (.default a) then some pc else place x
  label : ∀ n a pc x, place ⟨x.cases, x.default, (n, pc) :: x.labels⟩ =
    if hit (.label n a) then some pc else place x
  switch : ∀ x, place ⟨[], none, x.labels⟩ = if deep then place x else none
  case_deep : deep = true → ∀ k a, hit (.case k a) = false
  default_deep : deep = true → ∀ a, hit (.default a) = false

end Find

section FindLemmas

variable {sem : Sem L K S} {P : Nat → Slot (Instr L K)} {fin : Nat} {lab : N → Option Nat}
  {n n' : Nat} {f f' : Option (Stmt L K N × Cont L K N)} {o o' : Option Nat}

theorem Found.mono (h : Found sem P fin lab n f o) (hn : n ≤ n') : Found sem P fin lab n' f o := by
  cases f with
  | none => exact h
  | some r =>
    obtain ⟨a', hpc, hruns, hsize⟩ := h
    exact ⟨a', hpc, hruns, hsize.trans hn⟩

theorem Found.or (h : Found sem P fin lab n f o) (h' : Found sem P fin lab n f' o') :
    Found sem P fin lab n (f.or f') (o.or o') := by
  cases f with
  | none =>
    obtain rfl : o = none := h
    exact h'
  | some r =>
    obtain ⟨a', rfl, hrest⟩ := h
    exact ⟨a', rfl, hrest⟩

/-- A statement that is looked for, or one inside. -/
theorem Found.hit {a : Stmt L K N} {k : Cont L K N} {env : Env} {p q : Place}
    {ent : Entries K N} {found : Bool} (hlaid : a.Laid sem P fin lab env p.on q ent)
    (hk : k.Behind sem P fin lab env q) (h : Found sem P fin lab (a.size + k.size) f o)
    (hn : a.size + k.size ≤ n) :
    Found sem P fin lab n (if found then some (a, k) else f) (if found then some p.pc else o) := by
  cases found with
  | false => exact h.mono hn
  | true => exact ⟨p.pc, rfl, ⟨env, q, ent, hlaid, hk⟩, hn⟩

/-- **Search**: what is found in a statement is where the entries say. -/
theorem find_found {hit : Stmt L K N → Bool} {deep : Bool} {place : Entries K N → Option Nat}
    (hagrees : Agrees hit deep place) (a : Stmt L K N) {k : Cont L K N} {env : Env} {p q : Place}
    {ent : Entries K N} (hlaid : a.Laid sem P fin lab env p q ent)
    (hk : k.Behind sem P fin lab env q) (hcases : env.cases = true ∨ deep = true) :
    Found sem P fin lab (a.size + k.size) (a.find hit deep k) (place ent) := by
  induction a generalizing k env p q ent with
  | empty =>
    obtain ⟨-, rfl⟩ := hlaid
    exact hagrees.nil
  | expr e =>
    obtain ⟨-, rfl⟩ := hlaid
    exact hagrees.nil
  | «break» =>
    obtain ⟨-, rfl⟩ := hlaid
    exact hagrees.nil
  | «continue» =>
    obtain ⟨-, rfl⟩ := hlaid
    exact hagrees.nil
  | goto l =>
    obtain ⟨-, rfl⟩ := hlaid
    exact hagrees.nil
  | «return» e =>
    obtain ⟨-, rfl⟩ := hlaid
    exact hagrees.nil
  | seq a b iha ihb =>
    obtain ⟨r, x, y, ha, hb, rfl⟩ := hlaid
    rw [hagrees.append]
    have hseq : (Cont.seq b k).Behind sem P fin lab env r := ⟨r, q, y, .refl sem P r, hb, hk⟩
    refine ((iha ha hseq hcases).mono ?_).or ((ihb hb hk hcases).mono ?_)
    · simp only [Stmt.size, Cont.size]
      omega
    · simp only [Stmt.size]
      omega
  | block a ih =>
    refine (ih hlaid hk hcases).mono ?_
    simp only [Stmt.size]
    omega
  | ifThen c a ih =>
    obtain ⟨r, r', -, ha, hto⟩ := hlaid
    refine (ih ha (hk.leads hto) hcases).mono ?_
    simp only [Stmt.size]
    omega
  | ifElse c a b iha ihb =>
    obtain ⟨r, r', t, t', x, y, -, ha, hto, hb, hto', rfl⟩ := hlaid
    rw [hagrees.append]
    refine ((iha ha (hk.leads hto) hcases).mono ?_).or ((ihb hb (hk.leads hto') hcases).mono ?_)
    · simp only [Stmt.size]
      omega
    · simp only [Stmt.size]
      omega
  | «while» c a ih =>
    obtain ⟨r, r', htest, ha, hback⟩ := hlaid
    refine (ih ha (hk.while htest ha hback) hcases).mono ?_
    simp only [Stmt.size, Cont.size]
    omega
  | doWhile a c ih =>
    obtain ⟨r, t, ha, hto, htest⟩ := hlaid
    refine (ih ha (hk.doWhile ha hto htest) hcases).mono ?_
    simp only [Stmt.size, Cont.size]
    omega
  | «for» init cond third a ih =>
    obtain ⟨p', r, r', t, -, hcond, hthird, ha, hback⟩ := hlaid
    refine (ih ha (hk.for hcond hthird ha hback) hcases).mono ?_
    simp only [Stmt.size, Cont.size]
    omega
  | switch e a ih =>
    obtain ⟨r, r', x, cases, -, -, ha, hto, rfl⟩ := hlaid
    rw [hagrees.switch]
    cases deep with
    | false => exact rfl
    | true =>
      refine (ih ha (hk.switch hto) (Or.inr rfl)).mono ?_
      simp only [Stmt.size, Cont.size]
      omega
  | case c a ih =>
    unfold Stmt.Laid at hlaid
    unfold Stmt.find
    split at hlaid
    · obtain ⟨x, ha, rfl⟩ := hlaid
      rw [hagrees.case c a]
      exact .hit ha hk (ih ha hk hcases) (Nat.add_le_add_right (Nat.le_succ _) _)
    · rename_i hoff
      rw [hagrees.case_deep (hcases.resolve_left hoff), if_neg Bool.false_ne_true]
      exact (ih hlaid hk hcases).mono (Nat.add_le_add_right (Nat.le_succ _) _)
  | default a ih =>
    unfold Stmt.Laid at hlaid
    unfold Stmt.find
    split at hlaid
    · obtain ⟨x, ha, rfl⟩ := hlaid
      rw [hagrees.default a]
      exact .hit ha hk (ih ha hk hcases) (Nat.add_le_add_right (Nat.le_succ _) _)
    · rename_i hoff
      rw [hagrees.default_deep (hcases.resolve_left hoff), if_neg Bool.false_ne_true]
      exact (ih hlaid hk hcases).mono (Nat.add_le_add_right (Nat.le_succ _) _)
  | label l a ih =>
    obtain ⟨x, ha, rfl⟩ := hlaid
    rw [hagrees.label l a]
    unfold Stmt.find
    exact .hit ha hk (ih ha hk hcases) (Nat.add_le_add_right (Nat.le_succ _) _)

theorem map_find?_append {α : Type} (f : α × Nat → Bool) (x y : List (α × Nat)) :
    ((x ++ y).find? f).map Prod.snd = ((x.find? f).map Prod.snd).or ((y.find? f).map Prod.snd) := by
  rw [List.find?_append, Option.map_or]

theorem map_find?_cons {α : Type} (f : α × Nat → Bool) (a : α × Nat) (x : List (α × Nat)) :
    ((a :: x).find? f).map Prod.snd = if f a then some a.2 else (x.find? f).map Prod.snd := by
  rw [List.find?_cons]
  cases f a <;> rfl

theorem agrees_case (sem : Sem L K S) (v : BitVec 64) :
    Agrees (L := L) (N := N) (Stmt.isCase (sem.has · v)) false (Entries.case? sem · v) where
  nil := rfl
  append _ _ := map_find?_append _ _ _
  case _ _ _ _ := map_find?_cons _ _ _
  default _ _ _ := rfl
  label _ _ _ _ := rfl
  switch _ := rfl
  case_deep h := absurd h Bool.false_ne_true
  default_deep h := absurd h Bool.false_ne_true

theorem agrees_default : Agrees (L := L) (K := K) (N := N) Stmt.isDefault false
    Entries.default where
  nil := rfl
  append _ _ := rfl
  case _ _ _ _ := rfl
  default _ _ _ := rfl
  label _ _ _ _ := rfl
  switch _ := rfl
  case_deep h := absurd h Bool.false_ne_true
  default_deep h := absurd h Bool.false_ne_true

theorem agrees_label [DecidableEq N] (l : N) :
    Agrees (L := L) (K := K) (Stmt.isLabel l) true (Entries.label? · l) where
  nil := rfl
  append _ _ := map_find?_append _ _ _
  case _ _ _ _ := rfl
  default _ _ _ := rfl
  label _ _ _ _ := map_find?_cons _ _ _
  switch _ := rfl
  case_deep _ _ _ := rfl
  default_deep _ _ := rfl

end FindLemmas

/-! ## Steps -/

section Simulation

variable (sem : Sem L K S) (P : Nat → Slot (Instr L K)) (fin : Nat) (lab : N → Option Nat)

/-- The machine comes from `m` to what is left to do, and moves if that is not smaller than `n`. -/
def Comes (n : Nat) (m : Machine S) (c : Config L K N S) : Prop :=
  ∃ m', Matches sem P fin lab c m' ∧
    (Moves (step sem P) m m' ∨ Steps (step sem P) m m' ∧ c.size < n)

variable {sem P fin lab} {n : Nat} {m m' : Machine S} {st : S} {p : Place} {e : Expr L}
  {k : Cont L K N} {env : Env} {c : Config L K N S}

theorem Comes.stay (h : Matches sem P fin lab c m) (hn : c.size < n) :
    Comes sem P fin lab n m c := ⟨m, h, Or.inr ⟨.refl, hn⟩⟩

theorem Comes.moves (hmoves : Moves (step sem P) m m') (h : Matches sem P fin lab c m') :
    Comes sem P fin lab n m c := ⟨m', h, Or.inl hmoves⟩

theorem Comes.steps (hsteps : Steps (step sem P) m m') (h : Comes sem P fin lab n m' c) :
    Comes sem P fin lab n m c := by
  obtain ⟨m'', hmatches, hmoves | ⟨hsteps', hn⟩⟩ := h
  · exact ⟨m'', hmatches, Or.inl (hmoves.trans_right hsteps)⟩
  · exact ⟨m'', hmatches, Or.inr ⟨hsteps.trans hsteps', hn⟩⟩

/-- Behind a test. -/
theorem Comes.test {x : BitVec 64} {a b : Prop} {c' : Config L K N S}
    (h : if x ≠ 0 then a else b) (ha : a → Comes sem P fin lab n m c)
    (hb : b → Comes sem P fin lab n m c') :
    Comes sem P fin lab n m (if x ≠ 0 then c else c') := by
  split at h
  · rename_i hx
    rw [if_pos hx]
    exact ha h
  · rename_i hx
    rw [if_neg hx]
    exact hb h

/-- Behind an expression. -/
theorem Evaluates.bind {Q : Machine S → BitVec 64 → Machine S → Prop}
    {f : BitVec 64 → S → Config L K N S} (h : Evaluates sem P p e Q) (hhere : p.Here m)
    (hst : m.st = st) (hn : 0 < n)
    (hf : ∀ x m', Steps (step sem P) m m' → Q m x m' → Comes sem P fin lab n m (f x m'.st)) :
    Comes sem P fin lab n m (e.bind sem st f) := by
  subst hst
  obtain ⟨hvalue, hended⟩ := h m hhere
  unfold Expr.bind
  generalize e.eval sem m.st = r at hvalue hended ⊢
  obtain ⟨x, st'⟩ := r
  cases x with
  | none =>
    obtain ⟨m', hreach, hpc, hst⟩ := hended rfl
    exact .steps hreach (.stay (.ended hpc hst) hn)
  | some x =>
    obtain ⟨m', hreach, hst, -, hQ⟩ := hvalue x rfl
    obtain rfl : m'.st = st' := hst
    exact hf x m' hreach hQ

/-- Behind an expression that may be missing. -/
theorem EvaluatesOption.bind {Q : Machine S → Option (BitVec 64) → Machine S → Prop}
    {f : Option (BitVec 64) → S → Config L K N S} {e : Option (Expr L)}
    (h : EvaluatesOption sem P p e Q) (hhere : p.Here m) (hst : m.st = st) (hn : 0 < n)
    (hf : ∀ x m', Steps (step sem P) m m' → Q m x m' → Comes sem P fin lab n m (f x m'.st)) :
    Comes sem P fin lab n m (bindOption sem e st f) := by
  cases e with
  | some e => exact Evaluates.bind h hhere hst hn fun x => hf (some x)
  | none =>
    obtain ⟨m', hreach, hst', hQ⟩ := h m hhere
    show Comes sem P fin lab n m (f none st)
    rw [← hst, ← hst']
    exact hf none m' hreach hQ

/-- Behind a statement that is done. -/
theorem Cont.Behind.resume (hk : k.Behind sem P fin lab env p) (hhere : p.Here m)
    (hst : m.st = st) : Comes sem P fin lab (1 + k.size) m (k.resume sem st) := by
  cases k with
  | stop =>
    obtain ⟨-, -, hto⟩ := hk
    obtain ⟨m', hreach, hst', hhere'⟩ := hto m hhere
    exact .steps hreach (.stay (.returned hhere'.pc (hst'.trans hst) fun v hv => by cases hv)
      (Nat.lt_of_lt_of_le Nat.zero_lt_one (Nat.le_add_right _ _)))
  | seq b k =>
    obtain ⟨p', q, ent, hto, hlaid, hk⟩ := hk
    obtain ⟨m', hreach, hst', hhere'⟩ := hto m hhere
    refine .steps hreach (.stay (.run hhere' (hst'.trans hst) hlaid hk) ?_)
    simp only [Cont.resume, Config.size, Cont.size]
    omega
  | «while» c a k =>
    obtain ⟨env', q, r, ent, -, hlaid, hto, hk⟩ := hk
    obtain ⟨m', hmoves, hst', hhere'⟩ := hto m hhere
    exact .moves hmoves (.run hhere' (hst'.trans hst) hlaid hk)
  | doWhile a c k =>
    obtain ⟨env', q, r, t, ent, -, hto, hlaid, htest, hk⟩ := hk
    obtain ⟨m', hreach, hst', hhere'⟩ := hto m hhere
    refine .steps hreach (htest.bind hhere' (hst'.trans hst) (Nat.add_pos_left Nat.zero_lt_one _)
      fun x m'' hsteps hQ => ?_)
    split at hQ
    · rename_i hx
      rw [if_pos hx]
      exact .moves hQ.2 (.run hQ.1 rfl hlaid hk)
    · rename_i hx
      rw [if_neg hx]
      refine .steps hsteps (.stay (.run hQ rfl ⟨rfl, rfl⟩ hk) ?_)
      simp only [Config.size, Stmt.size, Cont.size]
      omega
  | «for» cond third a k =>
    obtain ⟨env', q, r, t, ent, -, hlaid, hthird, hto, hk⟩ := hk
    obtain ⟨m', hmoves, hst', hhere'⟩ := hto m hhere
    exact .moves hmoves (.next hhere' (hst'.trans hst) hthird hlaid hk)
  | switch k =>
    obtain ⟨env', q, cases, -, hto, hk⟩ := hk
    obtain ⟨m', hmoves, hst', hhere'⟩ := hto m hhere
    exact .moves hmoves (.run hhere' (hst'.trans hst) ⟨rfl, rfl⟩ hk)

/-- What is left of a `break`. -/
theorem Cont.Behind.break (hk : k.Behind sem P fin lab env p) {r q : Place}
    (hbrk : env.brk = some r) (hto : Jumps sem P q r) (hhere : q.Here m) (hst : m.st = st) :
    ∃ c, k.break st = some c ∧ Comes sem P fin lab (1 + k.size) m c := by
  cases k with
  | stop =>
    obtain ⟨hnone, -, -⟩ := hk
    rw [hnone] at hbrk
    cases hbrk
  | seq b k =>
    obtain ⟨p', q', ent, -, -, hk⟩ := hk
    refine ⟨_, rfl, .stay (.run hhere hst (q := q') ⟨⟨r, hbrk, hto⟩, rfl⟩ hk) ?_⟩
    simp only [Config.size, Stmt.size, Cont.size]
    omega
  | «while» c a k =>
    obtain ⟨env', q', r', ent, rfl, -, -, hk⟩ := hk
    obtain rfl := Option.some.inj hbrk
    obtain ⟨m', hmoves, hst', hhere'⟩ := hto m hhere
    exact ⟨_, rfl, .moves hmoves (.run hhere' (hst'.trans hst) ⟨rfl, rfl⟩ hk)⟩
  | doWhile a c k =>
    obtain ⟨env', q', r', t, ent, rfl, -, -, -, hk⟩ := hk
    obtain rfl := Option.some.inj hbrk
    obtain ⟨m', hmoves, hst', hhere'⟩ := hto m hhere
    exact ⟨_, rfl, .moves hmoves (.run hhere' (hst'.trans hst) ⟨rfl, rfl⟩ hk)⟩
  | «for» cond third a k =>
    obtain ⟨env', q', r', t, ent, rfl, -, -, -, hk⟩ := hk
    obtain rfl := Option.some.inj hbrk
    obtain ⟨m', hmoves, hst', hhere'⟩ := hto m hhere
    exact ⟨_, rfl, .moves hmoves (.run hhere' (hst'.trans hst) ⟨rfl, rfl⟩ hk)⟩
  | switch k =>
    obtain ⟨env', q', cases, rfl, -, hk⟩ := hk
    obtain rfl := Option.some.inj hbrk
    obtain ⟨m', hmoves, hst', hhere'⟩ := hto m hhere
    exact ⟨_, rfl, .moves hmoves (.run hhere' (hst'.trans hst) ⟨rfl, rfl⟩ hk)⟩

/-- What is left of a `continue`. -/
theorem Cont.Behind.continue (hk : k.Behind sem P fin lab env p) {r q : Place}
    (hcont : env.cont = some r) (hto : Jumps sem P q r) (hhere : q.Here m) (hst : m.st = st) :
    ∃ c, k.continue st = some c ∧ Comes sem P fin lab (1 + k.size) m c := by
  cases k with
  | stop =>
    obtain ⟨-, hnone, -⟩ := hk
    rw [hnone] at hcont
    cases hcont
  | seq b k =>
    obtain ⟨p', q', ent, -, -, hk⟩ := hk
    refine ⟨_, rfl, .stay (.run hhere hst (q := q') ⟨⟨r, hcont, hto⟩, rfl⟩ hk) ?_⟩
    simp only [Config.size, Stmt.size, Cont.size]
    omega
  | «while» c a k =>
    obtain ⟨env', q', r', ent, rfl, hlaid, -, hk⟩ := hk
    obtain rfl := Option.some.inj hcont
    obtain ⟨m', hmoves, hst', hhere'⟩ := hto m hhere
    exact ⟨_, rfl, .moves hmoves (.run hhere' (hst'.trans hst) hlaid hk)⟩
  | doWhile a c k =>
    obtain ⟨env', q', r', t, ent, rfl, -, hlaid, htest, hk⟩ := hk
    obtain rfl := Option.some.inj hcont
    obtain ⟨m', hmoves, hst', hhere'⟩ := hto m hhere
    exact ⟨_, rfl, .moves hmoves (.run hhere' (hst'.trans hst) ⟨rfl, rfl⟩
      ⟨env', q', r', _, ent, rfl, .refl sem P _, hlaid, htest, hk⟩)⟩
  | «for» cond third a k =>
    obtain ⟨env', q', r', t, ent, rfl, hlaid, hthird, -, hk⟩ := hk
    obtain rfl := Option.some.inj hcont
    obtain ⟨m', hmoves, hst', hhere'⟩ := hto m hhere
    exact ⟨_, rfl, .moves hmoves (.next hhere' (hst'.trans hst) hthird hlaid hk)⟩
  | switch k =>
    obtain ⟨env', q', cases, rfl, -, hk⟩ := hk
    have hlaid : (Stmt.continue : Stmt L K N).Laid sem P fin lab env' q q' .nil :=
      ⟨⟨r, hcont, hto⟩, rfl⟩
    refine ⟨_, rfl, .stay (.run hhere hst hlaid hk) ?_⟩
    simp only [Config.size, Stmt.size, Cont.size]
    omega

variable [DecidableEq N] {body : Stmt L K N}

/-- One step of a statement. The labels are where they are in the body. -/
theorem Stmt.Laid.step {a : Stmt L K N} {q : Place} {ent : Entries K N} {n' : Nat}
    (hlab : ∀ l, Found sem P fin lab n' (body.find (Stmt.isLabel l) true .stop) (lab l))
    (hlaid : a.Laid sem P fin lab env p q ent) (hk : k.Behind sem P fin lab env q)
    (hhere : p.Here m) (hst : m.st = st) :
    ∃ c, Config.step sem body (.run a k st) = some c ∧
      Comes sem P fin lab (a.size + k.size) m c := by
  cases a with
  | empty =>
    obtain ⟨rfl, -⟩ := hlaid
    exact ⟨_, rfl, hk.resume hhere hst⟩
  | expr e =>
    refine ⟨_, rfl, hlaid.1.bind hhere hst (Nat.add_pos_left Nat.zero_lt_two _)
      fun x m' hsteps hhere' => .steps hsteps (.stay (.run hhere' rfl ⟨rfl, rfl⟩ hk) ?_)⟩
    simp only [Config.size, Stmt.size]
    omega
  | «break» =>
    obtain ⟨⟨r, hbrk, hto⟩, -⟩ := hlaid
    exact hk.break hbrk hto hhere hst
  | «continue» =>
    obtain ⟨⟨r, hcont, hto⟩, -⟩ := hlaid
    exact hk.continue hcont hto hhere hst
  | goto l =>
    obtain ⟨⟨a, ha, hto⟩, -⟩ := hlaid
    have hfound := hlab l
    rw [ha] at hfound
    cases hr : body.find (Stmt.isLabel l) true .stop with
    | none =>
      rw [hr] at hfound
      cases hfound
    | some r =>
      rw [hr] at hfound
      obtain ⟨a', hpc, ⟨env', q', ent', hlaid', hk'⟩, -⟩ := hfound
      obtain rfl := Option.some.inj hpc
      obtain ⟨m', hmoves, hst', hhere'⟩ := hto m hhere
      refine ⟨.run r.1 r.2 st, ?_, .moves hmoves (.run hhere' (hst'.trans hst) hlaid' hk')⟩
      rw [Config.step, hr]
      rfl
  | «return» e =>
    refine ⟨_, rfl, hlaid.1.bind hhere hst (Nat.add_pos_left Nat.zero_lt_one _)
      fun x m' hsteps hQ => .steps hsteps (.stay (.returned hQ.1 rfl hQ.2)
        (Nat.add_pos_left Nat.zero_lt_one _))⟩
  | seq a b =>
    obtain ⟨r, x, y, ha, hb, rfl⟩ := hlaid
    refine ⟨_, rfl, .stay (.run hhere hst ha ⟨r, q, y, .refl sem P r, hb, hk⟩) ?_⟩
    simp only [Config.size, Stmt.size, Cont.size]
    omega
  | block a =>
    refine ⟨_, rfl, .stay (.run hhere hst hlaid hk) ?_⟩
    simp only [Config.size, Stmt.size]
    omega
  | ifThen c a =>
    obtain ⟨r, r', htest, ha, hto⟩ := hlaid
    refine ⟨_, rfl, htest.bind hhere hst (Nat.add_pos_left (Nat.succ_pos _) _)
      fun x m' hsteps hQ => .steps hsteps (.test hQ (fun hhere' => ?_) fun hhere' => ?_)⟩
    · refine .stay (.run hhere' rfl ha (hk.leads hto)) ?_
      simp only [Config.size, Stmt.size]
      omega
    · refine .stay (.run hhere' rfl ⟨rfl, rfl⟩ hk) ?_
      simp only [Config.size, Stmt.size]
      omega
  | ifElse c a b =>
    obtain ⟨r, r', t, t', x, y, htest, ha, hto, hb, hto', -⟩ := hlaid
    refine ⟨_, rfl, htest.bind hhere hst (Nat.add_pos_left (Nat.succ_pos _) _)
      fun x m' hsteps hQ => .steps hsteps (.test hQ (fun hhere' => ?_) fun hhere' => ?_)⟩
    · refine .stay (.run hhere' rfl ha (hk.leads hto)) ?_
      simp only [Config.size, Stmt.size]
      omega
    · refine .stay (.run hhere' rfl hb (hk.leads hto')) ?_
      simp only [Config.size, Stmt.size]
      omega
  | «while» c a =>
    obtain ⟨r, r', htest, ha, hback⟩ := hlaid
    refine ⟨_, rfl, htest.bind hhere.on hst (Nat.add_pos_left (Nat.succ_pos _) _)
      fun x m' hsteps hQ => .steps hsteps (.test hQ (fun hhere' => ?_) fun hhere' => ?_)⟩
    · refine .stay (.run hhere' rfl ha (hk.while htest ha hback)) ?_
      simp only [Config.size, Stmt.size, Cont.size]
      omega
    · refine .stay (.run hhere' rfl ⟨rfl, rfl⟩ hk) ?_
      simp only [Config.size, Stmt.size]
      omega
  | doWhile a c =>
    obtain ⟨r, t, ha, hto, htest⟩ := hlaid
    refine ⟨_, rfl, .stay (.run hhere.on hst ha (hk.doWhile ha hto htest)) ?_⟩
    simp only [Config.size, Stmt.size, Cont.size]
    omega
  | «for» init cond third a =>
    obtain ⟨p', r, r', t, hinit, hcond, hthird, ha, hback⟩ := hlaid
    cases init with
    | some e =>
      refine ⟨_, rfl, Evaluates.bind hinit hhere hst (Nat.add_pos_left (Nat.succ_pos _) _)
        fun x m' hsteps hhere' => .steps hsteps (.stay (.run hhere'.on rfl
          ⟨p'.on, r, r', t, fun m hm => ⟨m, .refl, rfl, hm⟩, hcond, hthird, ha, hback⟩ hk) ?_)⟩
      simp only [Config.size, Stmt.size]
      simp
    | none =>
      obtain ⟨m', hreach, hst', hhere'⟩ := hinit m hhere
      refine ⟨_, rfl, .steps hreach (hcond.bind hhere'.on (hst'.trans hst)
        (Nat.add_pos_left (Nat.succ_pos _) _) fun x m'' hsteps hQ => .steps hsteps ?_)⟩
      split at hQ
      · rename_i hx
        rw [if_pos hx]
        refine .stay (.run hQ rfl ha (hk.for hcond hthird ha hback)) ?_
        simp only [Config.size, Stmt.size, Cont.size]
        omega
      · rename_i hx
        rw [if_neg hx]
        refine .stay (.run hQ rfl ⟨rfl, rfl⟩ hk) ?_
        simp only [Config.size, Stmt.size]
        omega
  | switch e a =>
    obtain ⟨r, r', x, cases, htest, hcases, ha, hto, -⟩ := hlaid
    refine ⟨_, rfl, htest.bind hhere hst (Nat.add_pos_left (Nat.succ_pos _) _)
      fun v m' hsteps hQ => .steps hsteps ?_⟩
    have hk' : (Cont.switch k).Behind sem P fin lab
        { env with brk := some q, cases := cases } r' := hk.switch hto
    have hfound := (find_found (agrees_case sem v) a ha hk' (Or.inl (hcases hhere.live))).or
      (find_found agrees_default a ha hk' (Or.inl (hcases hhere.live)))
    unfold Entries.Goes at hQ
    generalize (a.find _ _ _).or _ = found at hfound ⊢
    cases found with
    | none =>
      rw [show (x.case? sem v).or x.default = none from hfound] at hQ
      refine .stay (.run hQ rfl ⟨rfl, rfl⟩ hk) ?_
      simp only [Config.size, Stmt.size]
      omega
    | some found =>
      obtain ⟨a', hpc, ⟨env', q', ent', hlaid', hk'⟩, hsize⟩ := hfound
      rw [show (x.case? sem v).or x.default = some a' from hpc] at hQ
      refine .stay (.run ⟨hQ, rfl⟩ rfl hlaid' hk') ?_
      simp only [Config.size, Stmt.size, Cont.size] at hsize ⊢
      omega
  | case c a =>
    unfold Stmt.Laid at hlaid
    split at hlaid
    · obtain ⟨x, ha, -⟩ := hlaid
      exact ⟨_, rfl, .stay (.run hhere.on hst ha hk)
        (Nat.add_lt_add_right (Nat.lt_succ_self _) _)⟩
    · exact ⟨_, rfl, .stay (.run hhere hst hlaid hk)
        (Nat.add_lt_add_right (Nat.lt_succ_self _) _)⟩
  | default a =>
    unfold Stmt.Laid at hlaid
    split at hlaid
    · obtain ⟨x, ha, -⟩ := hlaid
      exact ⟨_, rfl, .stay (.run hhere.on hst ha hk)
        (Nat.add_lt_add_right (Nat.lt_succ_self _) _)⟩
    · exact ⟨_, rfl, .stay (.run hhere hst hlaid hk)
        (Nat.add_lt_add_right (Nat.lt_succ_self _) _)⟩
  | label l a =>
    obtain ⟨x, ha, -⟩ := hlaid
    exact ⟨_, rfl, .stay (.run hhere.on hst ha hk)
      (Nat.add_lt_add_right (Nat.lt_succ_self _) _)⟩

end Simulation

end TccRiscv64.Gen.Flow
