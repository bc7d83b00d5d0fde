import TccRiscv64.Data.Stutter
import TccRiscv64.Gen.ConditionsCorrect
import TccRiscv64.Gen.Statements

set_option autoImplicit false

/-! # The code of statements in the end

What the code of a statement looks like when all its jumps are patched, and that code of this kind
does what the statement says. -/

namespace TccRiscv64.Gen.Flow

open TccRiscv64.Data TccRiscv64.Data.Backpatch

variable {L K N S : Type}

/-! ## Places -/

/-- A place in the code, and whether it can be reached. -/
structure Place where
  pc : Nat
  live : Bool

/-- A label is put there. -/
def Place.on (p : Place) : Place := ⟨p.pc, true⟩

/-- The machine is there. -/
structure Place.Here (p : Place) (m : Machine S) : Prop where
  pc : m.pc = some p.pc
  live : p.live = true

section Code

variable (sem : Sem L K S) (P : Nat → Slot (Instr L K))

/-- Who is at `p` evaluates `e`, and goes where `Q` says then. -/
def Evaluates (p : Place) (e : Expr L) (Q : Machine S → BitVec 64 → Machine S → Prop) : Prop :=
  ∀ m, p.Here m → Computes sem P 0 m (e.eval sem m.st) (Q m)

/-- The same for an expression that may be missing. -/
def EvaluatesOption (p : Place) (e : Option (Expr L))
    (Q : Machine S → Option (BitVec 64) → Machine S → Prop) : Prop :=
  match e with
  | some e => Evaluates sem P p e fun m x => Q m (some x)
  | none => ∀ m, p.Here m → ∃ m', Reaches sem P m m' ∧ m'.st = m.st ∧ Q m none m'

/-- Who is at `p` goes to `q`. -/
def Leads (p q : Place) : Prop :=
  ∀ m, p.Here m → ∃ m', Reaches sem P m m' ∧ m'.st = m.st ∧ q.Here m'

/-- There is a jump on the way from `p` to `q`. -/
def Jumps (p q : Place) : Prop :=
  ∀ m, p.Here m → ∃ m', Moves (step sem P) m m' ∧ m'.st = m.st ∧ q.Here m'

/-! ## Statements -/

/-- The cases and the default of the switch around a statement, and the labels in the statement. -/
structure Entries (K N : Type) where
  cases : List (K × Nat)
  default : Option Nat
  labels : List (N × Nat)

namespace Entries

def nil : Entries K N := ⟨[], none, []⟩

def append (x y : Entries K N) : Entries K N :=
  ⟨x.cases ++ y.cases, x.default.or y.default, x.labels ++ y.labels⟩

/-- Where the case for a value is. -/
def case? (x : Entries K N) (v : BitVec 64) : Option Nat :=
  (x.cases.find? fun c => sem.has c.1 v).map Prod.snd

def label? [DecidableEq N] (x : Entries K N) (n : N) : Option Nat :=
  (x.labels.find? fun l => l.1 = n).map Prod.snd

end Entries

/-- Where a switch goes for the value `v`; `q` is behind it. -/
def Entries.Goes (x : Entries K N) (v : BitVec 64) (q : Place) (m : Machine S) : Prop :=
  match (x.case? sem v).or x.default with
  | some a => m.pc = some a
  | none => q.Here m

/-- Where `break` and `continue` go, and whether cases are wanted. -/
structure Env where
  brk : Option Place
  cont : Option Place
  cases : Bool

variable (fin : Nat) (lab : N → Option Nat)

/-- The code of a statement is between two places, and these are its entries. `fin` is the end of the
function, and `lab` the places of labels. -/
def Stmt.Laid : Stmt L K N → Env → Place → Place → Entries K N → Prop
  | .empty, _, p, q, ent => q = p ∧ ent = .nil
  | .expr e, _, p, q, ent => Evaluates sem P p e (fun _ _ m => q.Here m) ∧ ent = .nil
  | .seq a b, env, p, q, ent =>
    ∃ r x y, a.Laid env p r x ∧ b.Laid env r q y ∧ ent = x.append y
  | .block a, env, p, q, ent => a.Laid env p q ent
  | .ifThen c a, env, p, q, ent =>
    ∃ r r', Evaluates sem P p c (fun _ x m => if x ≠ 0 then r.Here m else q.Here m) ∧
      a.Laid env r r' ent ∧ Leads sem P r' q
  | .ifElse c a b, env, p, q, ent =>
    ∃ r r' t t' x y, Evaluates sem P p c (fun _ x m => if x ≠ 0 then r.Here m else t.Here m) ∧
      a.Laid env r r' x ∧ Leads sem P r' q ∧ b.Laid env t t' y ∧ Leads sem P t' q ∧
      ent = x.append y
  | .while c a, env, p, q, ent =>
    ∃ r r', Evaluates sem P p.on c (fun _ x m => if x ≠ 0 then r.Here m else q.Here m) ∧
      a.Laid { env with brk := some q, cont := some p.on } r r' ent ∧ Jumps sem P r' p.on
  | .doWhile a c, env, p, q, ent =>
    ∃ r t, a.Laid { env with brk := some q, cont := some t } p.on r ent ∧ Leads sem P r t ∧
      Evaluates sem P t c fun m x m' =>
        if x ≠ 0 then p.on.Here m' ∧ Moves (step sem P) m m' else q.Here m'
  | .for init cond third a, env, p, q, ent =>
    ∃ p' r r' t : Place, EvaluatesOption sem P p init (fun _ _ m => p'.Here m) ∧
      EvaluatesOption sem P p'.on cond
        (fun _ x m => if x ≠ some 0 then r.Here m else q.Here m) ∧
      EvaluatesOption sem P t.on third (fun _ _ m => p'.on.Here m) ∧
      a.Laid { env with brk := some q, cont := some t.on } r r' ent ∧ Jumps sem P r' t.on
  | .switch e a, env, p, q, ent =>
    ∃ r r' x cases, Evaluates sem P p e (fun _ v m => x.Goes sem v q m) ∧
      (p.live = true → cases = true) ∧
      a.Laid { env with brk := some q, cases := cases } r r' x ∧ Jumps sem P r' q ∧
      ent = ⟨[], none, x.labels⟩
  | .case k a, env, p, q, ent =>
    if env.cases then ∃ x, a.Laid env p.on q x ∧ ent = ⟨(k, p.pc) :: x.cases, x.default, x.labels⟩
    else a.Laid env p q ent
  | .default a, env, p, q, ent =>
    if env.cases then ∃ x, a.Laid env p.on q x ∧ ent = ⟨x.cases, some p.pc, x.labels⟩
    else a.Laid env p q ent
  | .break, env, p, _, ent => (∃ r, env.brk = some r ∧ Jumps sem P p r) ∧ ent = .nil
  | .continue, env, p, _, ent => (∃ r, env.cont = some r ∧ Jumps sem P p r) ∧ ent = .nil
  | .goto n, _, p, _, ent => (∃ a, lab n = some a ∧ Jumps sem P p ⟨a, true⟩) ∧ ent = .nil
  | .label n a, env, p, q, ent =>
    ∃ x, a.Laid env p.on q x ∧ ent = ⟨x.cases, x.default, (n, p.pc) :: x.labels⟩
  | .return e, _, p, _, ent =>
    EvaluatesOption sem P p e (fun _ x m => m.pc = some fin ∧ ∀ v, x = some v → m.regs 0 = v) ∧
      ent = .nil

/-- What is left to do comes behind the place. -/
def Cont.Behind : Cont L K N → Env → Place → Prop
  | .stop, env, p => env.brk = none ∧ env.cont = none ∧ Leads sem P p ⟨fin, true⟩
  | .seq b k, env, p =>
    ∃ p' q ent, Leads sem P p p' ∧ b.Laid sem P fin lab env p' q ent ∧ k.Behind env q
  | .while c a k, env, p =>
    ∃ (env' : Env) (q r : Place) (ent : Entries K N),
      env = { env' with brk := some q, cont := some r.on } ∧
      (Stmt.while c a).Laid sem P fin lab env' r q ent ∧ Jumps sem P p r.on ∧ k.Behind env' q
  | .doWhile a c k, env, p =>
    ∃ (env' : Env) (q r t : Place) (ent : Entries K N),
      env = { env' with brk := some q, cont := some t } ∧ Leads sem P p t ∧
      (Stmt.doWhile a c).Laid sem P fin lab env' r q ent ∧
      Evaluates sem P t c (fun m x m' =>
        if x ≠ 0 then r.on.Here m' ∧ Moves (step sem P) m m' else q.Here m') ∧ k.Behind env' q
  | .for cond third a k, env, p =>
    ∃ (env' : Env) (q r t : Place) (ent : Entries K N),
      env = { env' with brk := some q, cont := some t.on } ∧
      (Stmt.for none cond third a).Laid sem P fin lab env' r.on q ent ∧
      EvaluatesOption sem P t.on third (fun _ _ m => r.on.Here m) ∧ Jumps sem P p t.on ∧
      k.Behind env' q
  | .switch k, env, p =>
    ∃ (env' : Env) (q : Place) (cases : Bool), env = { env' with brk := some q, cases := cases } ∧
      Jumps sem P p q ∧ k.Behind env' q

/-- The machine has the rest of the function to do. -/
inductive Matches : Config L K N S → Machine S → Prop
  | run {a : Stmt L K N} {k : Cont L K N} {env : Env} {p q : Place} {ent : Entries K N}
      {m : Machine S} {st : S} (hhere : p.Here m) (hst : m.st = st)
      (hlaid : a.Laid sem P fin lab env p q ent) (hbehind : k.Behind sem P fin lab env q) :
      Matches (.run a k st) m
  | next {cond third : Option (Expr L)} {a : Stmt L K N} {k : Cont L K N} {env : Env}
      {p q r : Place} {ent : Entries K N} {m : Machine S} {st : S} (hhere : p.Here m)
      (hst : m.st = st) (hthird : EvaluatesOption sem P p third fun _ _ m => r.on.Here m)
      (hlaid : (Stmt.for none cond third a).Laid sem P fin lab env r.on q ent)
      (hbehind : k.Behind sem P fin lab env q) : Matches (.next cond third a k st) m
  | returned {x : Option (BitVec 64)} {m : Machine S} {st : S} (hpc : m.pc = some fin)
      (hst : m.st = st) (hval : ∀ v, x = some v → m.regs 0 = v) : Matches (.returned x st) m
  | ended {m : Machine S} {st : S} (hpc : m.pc = none) (hst : m.st = st) : Matches (.ended st) m

end Code

/-! ## The measure -/

def Stmt.size : Stmt L K N → Nat
  | .empty => 1
  | .expr _ => 2
  | .seq a b => a.size + b.size + 2
  | .block a => a.size + 1
  | .ifThen _ a => a.size + 2
  | .ifElse _ a b => a.size + b.size + 2
  | .while _ a => a.size + 3
  | .doWhile a _ => a.size + 3
  | .for init _ _ a => a.size + 3 + (if init.isSome then 1 else 0)
  | .switch _ a => a.size + 3
  | .case _ a => a.size + 1
  | .default a => a.size + 1
  | .break => 1
  | .continue => 1
  | .goto _ => 1
  | .label _ a => a.size + 1
  | .return _ => 1

def Cont.size : Cont L K N → Nat
  | .stop => 0
  | .seq b k => b.size + 1 + k.size
  | .while _ _ k => k.size + 1
  | .doWhile _ _ k => k.size + 1
  | .for _ _ _ k => k.size + 1
  | .switch k => k.size + 1

/-- It gets smaller with every step that the machine has nothing to do for. -/
def Config.size : Config L K N S → Nat
  | .run a k _ => a.size + k.size
  | .next _ _ a k _ => a.size + k.size + 4
  | .returned _ _ => 0
  | .ended _ => 0

end TccRiscv64.Gen.Flow
