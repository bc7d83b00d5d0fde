import TccRiscv64.Gen.Conditions

set_option autoImplicit false

/-! # Statements

What `block` makes of the statements of a function, and what the statements mean. Declarations,
variable length arrays, cleanup attributes and computed gotos are left out. -/

namespace TccRiscv64.Gen.Flow

open TccRiscv64.Data.Backpatch

variable {L K N S : Type}

/-- A statement; `K` are the constants of cases and `N` the names of labels. -/
inductive Stmt (L K N : Type)
  | empty
  | expr (e : Expr L)
  /-- one statement of a block, and those behind it -/
  | seq (a b : Stmt L K N)
  | block (a : Stmt L K N)
  | ifThen (c : Expr L) (a : Stmt L K N)
  | ifElse (c : Expr L) (a b : Stmt L K N)
  | while (c : Expr L) (a : Stmt L K N)
  | doWhile (a : Stmt L K N) (c : Expr L)
  | for (init cond third : Option (Expr L)) (a : Stmt L K N)
  | switch (e : Expr L) (a : Stmt L K N)
  | case (k : K) (a : Stmt L K N)
  | default (a : Stmt L K N)
  | break
  | continue
  | goto (n : N)
  | label (n : N) (a : Stmt L K N)
  | return (e : Option (Expr L))

/-! ## Meaning -/

/-- What is left to do behind a statement. -/
inductive Cont (L K N : Type)
  | stop
  | seq (b : Stmt L K N) (k : Cont L K N)
  | while (c : Expr L) (a : Stmt L K N) (k : Cont L K N)
  | doWhile (a : Stmt L K N) (c : Expr L) (k : Cont L K N)
  | for (cond third : Option (Expr L)) (a : Stmt L K N) (k : Cont L K N)
  | switch (k : Cont L K N)

inductive Config (L K N S : Type)
  | run (a : Stmt L K N) (k : Cont L K N) (st : S)
  /-- in front of the third expression of a `for` -/
  | next (cond third : Option (Expr L)) (a : Stmt L K N) (k : Cont L K N) (st : S)
  | returned (v : Option (BitVec 64)) (st : S)
  /-- the program has ended -/
  | ended (st : S)

def Stmt.isLabel [DecidableEq N] (n : N) : Stmt L K N → Bool
  | .label n' _ => n' = n
  | _ => false

def Stmt.isCase (p : K → Bool) : Stmt L K N → Bool
  | .case k _ => p k
  | _ => false

def Stmt.isDefault : Stmt L K N → Bool
  | .default _ => true
  | _ => false

/-- The statement behind the first label, case or default that is meant, with what is left to do
behind it. Only a label is looked for in the switches inside. -/
def Stmt.find (hit : Stmt L K N → Bool) (deep : Bool) :
    Stmt L K N → Cont L K N → Option (Stmt L K N × Cont L K N)
  | .seq a b, k => (a.find hit deep (.seq b k)).or (b.find hit deep k)
  | .block a, k => a.find hit deep k
  | .ifThen _ a, k => a.find hit deep k
  | .ifElse _ a b, k => (a.find hit deep k).or (b.find hit deep k)
  | .while c a, k => a.find hit deep (.while c a k)
  | .doWhile a c, k => a.find hit deep (.doWhile a c k)
  | .for _ cond third a, k => a.find hit deep (.for cond third a k)
  | .switch _ a, k => if deep then a.find hit deep (.switch k) else none
  | .case c a, k => if hit (.case c a) then some (a, k) else a.find hit deep k
  | .default a, k => if hit (.default a) then some (a, k) else a.find hit deep k
  | .label n a, k => if hit (.label n a) then some (a, k) else a.find hit deep k
  | _, _ => none

/-- Behind the value of an expression. -/
def Expr.bind (sem : Sem L K S) (e : Expr L) (st : S) (f : BitVec 64 → S → Config L K N S) :
    Config L K N S :=
  match e.eval sem st with
  | (some x, st) => f x st
  | (none, st) => .ended st

/-- Behind an expression that may be missing. -/
def bindOption (sem : Sem L K S) (e : Option (Expr L)) (st : S)
    (f : Option (BitVec 64) → S → Config L K N S) : Config L K N S :=
  match e with
  | some e => e.bind sem st fun x => f (some x)
  | none => f none st

/-- Behind a statement that is done. -/
def Cont.resume (sem : Sem L K S) (st : S) : Cont L K N → Config L K N S
  | .stop => .returned none st
  | .seq b k => .run b k st
  | .while c a k => .run (.while c a) k st
  | .doWhile a c k =>
    c.bind sem st fun x st => if x ≠ 0 then .run (.doWhile a c) k st else .run .empty k st
  | .for cond third a k => .next cond third a k st
  | .switch k => .run .empty k st

/-- The step of `break`, if there is something to leave. -/
def Cont.break (st : S) : Cont L K N → Option (Config L K N S)
  | .stop => none
  | .seq _ k => some (.run .break k st)
  | .while _ _ k | .doWhile _ _ k | .for _ _ _ k | .switch k => some (.run .empty k st)

/-- The step of `continue`. -/
def Cont.continue (st : S) : Cont L K N → Option (Config L K N S)
  | .stop => none
  | .seq _ k | .switch k => some (.run .continue k st)
  | .while c a k => some (.run (.while c a) k st)
  | .doWhile a c k => some (.run .empty (.doWhile a c k) st)
  | .for cond third a k => some (.next cond third a k st)

/-- One step of a function with the statement `body`. -/
def Config.step [DecidableEq N] (sem : Sem L K S) (body : Stmt L K N) :
    Config L K N S → Option (Config L K N S)
  | .run .empty k st => some (k.resume sem st)
  | .run (.expr e) k st => some (e.bind sem st fun _ st => .run .empty k st)
  | .run (.seq a b) k st => some (.run a (.seq b k) st)
  | .run (.block a) k st => some (.run a k st)
  | .run (.ifThen c a) k st =>
    some (c.bind sem st fun x st => if x ≠ 0 then .run a k st else .run .empty k st)
  | .run (.ifElse c a b) k st =>
    some (c.bind sem st fun x st => if x ≠ 0 then .run a k st else .run b k st)
  | .run (.while c a) k st =>
    some (c.bind sem st fun x st => if x ≠ 0 then .run a (.while c a k) st else .run .empty k st)
  | .run (.doWhile a c) k st => some (.run a (.doWhile a c k) st)
  | .run (.for (some e) cond third a) k st =>
    some (e.bind sem st fun _ st => .run (.for none cond third a) k st)
  | .run (.for none cond third a) k st =>
    some (bindOption sem cond st fun x st =>
      if x ≠ some 0 then .run a (.for cond third a k) st else .run .empty k st)
  | .run (.switch e a) k st =>
    some (e.bind sem st fun x st =>
      match (a.find (Stmt.isCase (sem.has · x)) false (.switch k)).or
          (a.find Stmt.isDefault false (.switch k)) with
      | some (a', k') => .run a' k' st
      | none => .run .empty k st)
  | .run (.case _ a) k st => some (.run a k st)
  | .run (.default a) k st => some (.run a k st)
  | .run (.label _ a) k st => some (.run a k st)
  | .run .break k st => k.break st
  | .run .continue k st => k.continue st
  | .run (.goto n) _ st => (body.find (Stmt.isLabel n) true .stop).map fun r => .run r.1 r.2 st
  | .run (.return e) _ st => some (bindOption sem e st fun x st => .returned x st)
  | .next cond third a k st =>
    some (bindOption sem third st fun _ st => .run (.for none cond third a) k st)
  | .returned _ _ => none
  | .ended _ => none

/-! ## Code -/

/-- A label: jumps to it, or its place. -/
inductive Label
  | forward (jnext : Nat)
  | defined (a : Nat)

/-- `struct switch_t`; `nocode` is `nocode_wanted` at its start. -/
structure SwitchState (K : Type) where
  cases : List (K × Nat)
  defSym : Option Nat
  nocode : Bool

/-- The state of `block`. There is no `bsym` outside of loops and switches. -/
structure FunState (L K N : Type) where
  gen : GenState L K
  bsym : Option Nat
  csym : Option Nat
  rsym : Nat
  labels : List (N × Label)
  curSwitch : Option (SwitchState K)

inductive Err (N : Type)
  | cannotBreak
  | cannotContinue
  | expectSwitch
  | tooManyDefault
  | duplicateLabel (n : N)
  | notDefined (n : N)

namespace FunState

variable (s : FunState L K N)

/-- An expression whose value is not needed. -/
def gexprVpop (noret : L → Bool) (e : Expr L) : FunState L K N :=
  { s with gen := (e.gen noret none 0 s.gen).1.vpop (e.gen noret none 0 s.gen).2 }

/-- An expression, and `gvtst`. -/
def gexprTest (noret : L → Bool) (e : Expr L) (inv : Bool) : FunState L K N × Nat :=
  let r := (e.gen noret none 0 s.gen).1.gvtst inv 0 (e.gen noret none 0 s.gen).2
  ({ s with gen := r.1 }, r.2)

/-- An expression, into the register of the return value. -/
def gexprGv (noret : L → Bool) (e : Expr L) : FunState L K N :=
  { s with gen := (e.gen noret none 0 s.gen).1.gv 0 (e.gen noret none 0 s.gen).2 }

def gsym (t : Nat) : FunState L K N := { s with gen := s.gen.gsym t }

def gsymAddr (t a : Nat) : FunState L K N := { s with gen := s.gen.gsymAddr t a }

def gjmp (t : Nat) : FunState L K N × Nat := ({ s with gen := (s.gen.gjmp t).1 }, (s.gen.gjmp t).2)

def gjmpAddr (a : Nat) : FunState L K N := { s with gen := s.gen.gjmpAddr a }

/-- `gind` -/
def codeOn : FunState L K N := { s with gen := s.gen.codeOn }

/-- The label `n` is what `label` says. -/
def setLabel [DecidableEq N] (n : N) (label : Label) : FunState L K N :=
  { s with labels := (n, label) :: s.labels.filter fun x => x.1 ≠ n }

/-- `label_find` -/
def findLabel [DecidableEq N] (n : N) : Option Label :=
  (s.labels.find? fun x => x.1 = n).map Prod.snd

/-- An expression in the head of a `for`, if there is one. -/
def gexprVpopOption (noret : L → Bool) (e : Option (Expr L)) : FunState L K N :=
  match e with
  | some e => s.gexprVpop noret e
  | none => s

/-- The test of a `for`, if there is one. -/
def gexprTestOption (noret : L → Bool) (e : Option (Expr L)) : FunState L K N × Nat :=
  match e with
  | some e => s.gexprTest noret e true
  | none => (s, 0)

/-- The third expression of a `for`, with the test at `c`, and where the statement goes on then. -/
def forNext (noret : L → Bool) (c : Nat) (e : Option (Expr L)) : FunState L K N × Nat :=
  match e with
  | some e =>
    let j := s.gjmp 0
    (((j.1.codeOn.gexprVpop noret e).gjmpAddr c).gsym j.2, j.1.gen.code.ind)
  | none => (s, c)

/-- `bsym` and `csym` of `s`, as they were around a loop. -/
def leaveLoop (s' : FunState L K N) : FunState L K N := { s' with bsym := s.bsym, csym := s.csym }

/-- Behind the statement of a switch for the value `v`, with the jump `b` to the search. -/
def switchEnd (s' : FunState L K N) (v : SValue) (b : Nat) : FunState L K N :=
  let sw := s'.curSwitch.getD ⟨[], none, s.gen.dead⟩
  let j := s'.gjmp (s'.bsym.getD 0)
  let s1 := { j.1.gsym b with bsym := s.bsym, curSwitch := s.curSwitch }
  if sw.nocode then s1.gsym j.2
  else
    let d := ((s1.gen.gv 0 v).o (.instr (.search 0 sw.cases))).gjmp 0
    let s2 := { s1 with gen := d.1 }
    match sw.defSym with
    | some a => (s2.gsymAddr d.2 a).gsym j.2
    | none => (s2.gsym d.2).gsym j.2

end FunState

/-- `block`; `last` tells that the statement is the last one in the outermost block. -/
def Stmt.gen [DecidableEq N] (noret : L → Bool) :
    Stmt L K N → Bool → FunState L K N → Except (Err N) (FunState L K N)
  | .empty, _, s => .ok s
  | .expr e, _, s => .ok (s.gexprVpop noret e)
  | .seq a b, last, s => do b.gen noret last (← a.gen noret false s)
  | .block a, _, s => a.gen noret false s
  | .ifThen c a, _, s => do
    let r := s.gexprTest noret c true
    return (← a.gen noret false r.1).gsym r.2
  | .ifElse c a b, _, s => do
    let r := s.gexprTest noret c true
    let d := (← a.gen noret false r.1).gjmp 0
    return (← b.gen noret false (d.1.gsym r.2)).gsym d.2
  | .while c a, _, s => do
    let d := s.gen.code.ind
    let r := s.codeOn.gexprTest noret c true
    let s' ← a.gen noret false { r.1 with bsym := some r.2, csym := some 0 }
    return (((s.leaveLoop s').gjmpAddr d).gsymAddr (s'.csym.getD 0) d).gsym (s'.bsym.getD 0)
  | .doWhile a c, _, s => do
    let d := s.gen.code.ind
    let s' ← a.gen noret false { s.codeOn with bsym := some 0, csym := some 0 }
    let r := ((s.leaveLoop s').gsym (s'.csym.getD 0)).gexprTest noret c false
    return (r.1.gsymAddr r.2 d).gsym (s'.bsym.getD 0)
  | .for init cond third a, _, s => do
    let s1 := (s.gexprVpopOption noret init).codeOn
    let r := s1.gexprTestOption noret cond
    let r2 := r.1.forNext noret s1.gen.code.ind third
    let s' ← a.gen noret false { r2.1 with bsym := some r.2, csym := some 0 }
    return (((s.leaveLoop s').gjmpAddr r2.2).gsymAddr (s'.csym.getD 0) r2.2).gsym (s'.bsym.getD 0)
  | .switch e a, _, s => do
    let r := e.gen noret none 0 s.gen
    let b := r.1.gjmp 0
    let s' ← a.gen noret false { s with
      gen := b.1
      bsym := some 0
      curSwitch := some ⟨[], none, s.gen.dead⟩ }
    return s.switchEnd s' r.2 b.2
  | .case k a, last, s =>
    match s.curSwitch with
    | none => .error .expectSwitch
    | some sw =>
      if sw.nocode then a.gen noret last s
      else
        a.gen noret last { s.codeOn with
          curSwitch := some { sw with cases := sw.cases ++ [(k, s.gen.code.ind)] } }
  | .default a, last, s =>
    match s.curSwitch with
    | none => .error .expectSwitch
    | some sw =>
      if sw.defSym.isSome then .error .tooManyDefault
      else if sw.nocode then
        a.gen noret last { s with curSwitch := some { sw with defSym := some 1 } }
      else
        a.gen noret last { s.codeOn with
          curSwitch := some { sw with defSym := some s.gen.code.ind } }
  | .break, _, s =>
    match s.bsym with
    | none => .error .cannotBreak
    | some t => .ok { (s.gjmp t).1 with bsym := some (s.gjmp t).2 }
  | .continue, _, s =>
    match s.csym with
    | none => .error .cannotContinue
    | some t => .ok { (s.gjmp t).1 with csym := some (s.gjmp t).2 }
  | .goto n, _, s =>
    match s.findLabel n with
    | none => .ok ((s.gjmp 0).1.setLabel n (.forward (s.gjmp 0).2))
    | some (.forward t) => .ok ((s.gjmp t).1.setLabel n (.forward (s.gjmp t).2))
    | some (.defined a) => .ok (s.gjmpAddr a)
  | .label n a, last, s =>
    match s.findLabel n with
    | none => a.gen noret last (s.codeOn.setLabel n (.defined s.gen.code.ind))
    | some (.forward t) =>
      a.gen noret last ((s.gsym t).codeOn.setLabel n (.defined s.gen.code.ind))
    | some (.defined _) => .error (.duplicateLabel n)
  | .return e, last, s =>
    let s1 := match e with | some e => s.gexprGv noret e | none => s
    let s2 := if last then s1 else { (s1.gjmp s1.rsym).1 with rsym := (s1.gjmp s1.rsym).2 }
    .ok { s2 with gen := s2.gen.codeOff }

/-- The jumps to a label that is not defined. -/
def Label.isForward : Label → Bool
  | .forward _ => true
  | .defined _ => false

/-- `gen_function`, where the body starts at `ind`, and the check for labels behind it. -/
def genFunction [DecidableEq N] (noret : L → Bool) (ind : Nat) (body : Stmt L K N) :
    Except (Err N) (FunState L K N) := do
  let s ← body.gen noret true ⟨⟨⟨fun _ => .link 0, ind⟩, 0, false⟩, none, none, 0, [], none⟩
  match s.labels.find? fun x => x.2.isForward with
  | some x => .error (.notDefined x.1)
  | none => .ok (s.gsym s.rsym)

end TccRiscv64.Gen.Flow
