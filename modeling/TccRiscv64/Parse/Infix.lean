import Mathlib

set_option autoImplicit false

/-! # Binary operators: two expression parsers

The tower of functions `expr_prod` to `expr_lor`, one for each precedence level, and the loop
`expr_infix` with its table of precedences, both over the same parser for `unary` and with the same
`expr_landor`. A parser maps the tokens that are left to a tree of operations and the tokens it
leaves; `gen_op` and the evaluation of `&&` and `||` are the nodes of that tree. -/

namespace TccRiscv64.Parse

/-! ## Tokens -/

abbrev tokShl : Int := 60
abbrev tokSar : Int := 62
abbrev tokLand : Int := 0x90
abbrev tokLor : Int := 0x91
abbrev tokUlt : Int := 0x92
abbrev tokUge : Int := 0x93
abbrev tokEq : Int := 0x94
abbrev tokNe : Int := 0x95
abbrev tokUle : Int := 0x96
abbrev tokGt : Int := 0x9f
abbrev tokEof : Int := -1

/-- `precedence`, as a function of the token. -/
def precedence (tok : Int) : Nat :=
  if tok = tokLor then 1
  else if tok = tokLand then 2
  else if tok = 124 then 3
  else if tok = 94 then 4
  else if tok = 38 then 5
  else if tok = tokEq ∨ tok = tokNe then 6
  else if tok = tokUlt ∨ tok = tokUge then 7
  else if tok = tokShl ∨ tok = tokSar then 8
  else if tok = 43 ∨ tok = 45 then 9
  else if tok = 42 ∨ tok = 47 ∨ tok = 37 then 10
  else if tokUle ≤ tok ∧ tok ≤ tokGt then 7
  else 0

/-- `prec`, the table that `init_prec` fills. -/
def precTable : Array Nat := Array.ofFn fun i : Fin 256 => precedence i

/-- The macro `precedence`: a token outside the table has precedence 0. -/
def prec (tok : Int) : Nat := if 0 ≤ tok ∧ tok < 256 then precTable[tok.toNat]?.getD 0 else 0

/-! ## Parsers -/

/-- A tree of operations over the results of `unary`. A chain of `&&` or `||` is one node. -/
inductive Expr (β : Type)
  | unary (b : β)
  | op (t : Int) (lhs rhs : Expr β)
  | landor (t : Int) (operands : List (Expr β))

/-- A parser that fails or consumes at least one token. -/
structure TokParser (α ε : Type) where
  run : List α → Option (ε × List α)
  consumes : ∀ {ts e ts'}, run ts = some (e, ts') → ts'.length < ts.length

variable {α β : Type}

/-- `tok`: the code of the first token. -/
def tok (code : α → Int) : List α → Int
  | [] => tokEof
  | t :: _ => code t

/-- What is left after a token: fewer tokens than `ts` has, or as many. -/
abbrev Rest (ts : List α) := { ts' : List α // ts'.length ≤ ts.length }

/-- What is left after tokens were consumed. -/
abbrev Shorter (ts : List α) := { ts' : List α // ts'.length < ts.length }

theorem tail_length_le (ts : List α) : ts.tail.length ≤ ts.length := by
  rw [List.length_tail]
  omega

/-! ## One level of the tower -/

section Tower

variable (code : α → Int)

/-- The loop of a level: while the token is one of its operators, parse an operand of the next
level. -/
def levelLoop (isOp : Int → Bool) (operand : TokParser α (Expr β)) (e : Expr β) (ts : List α) :
    Option (Expr β × Rest ts) :=
  if isOp (tok code ts) then
    match h : operand.run ts.tail with
    | none => none
    | some (r, ts') =>
      have hlt : ts'.length < ts.length :=
        lt_of_lt_of_le (operand.consumes h) (tail_length_le ts)
      (levelLoop isOp operand (.op (tok code ts) e r) ts').map fun (e, rest) =>
        (e, ⟨rest.1, rest.2.trans hlt.le⟩)
  else some (e, ⟨ts, le_rfl⟩)
termination_by ts.length

/-- The operands of a chain of `op` after the first one: the loop of `expr_landor`, which is entered
at a token `op`. -/
def landorLoop (op : Int) (operand : TokParser α (Expr β)) (ts : List α) :
    Option (List (Expr β) × Shorter ts) :=
  match h : operand.run ts.tail with
  | none => none
  | some (r, ts') =>
    have hlt : ts'.length < ts.length :=
      lt_of_lt_of_le (operand.consumes h) (tail_length_le ts)
    if tok code ts' = op then
      (landorLoop op operand ts').map fun (es, rest) => (r :: es, ⟨rest.1, rest.2.trans hlt⟩)
    else some ([r], ⟨ts', hlt⟩)
termination_by ts.length

/-- A parser followed by code that goes on from what it found. -/
def TokParser.andThen (p : TokParser α (Expr β))
    (k : Expr β → (ts : List α) → Option (Expr β × Rest ts)) : TokParser α (Expr β) where
  run ts := (p.run ts).bind fun (e, ts) => (k e ts).map fun (e, rest) => (e, rest.1)
  consumes := by
    intro ts e ts' h
    obtain ⟨⟨e1, ts1⟩, h1, h⟩ := Option.bind_eq_some_iff.1 h
    obtain ⟨⟨e2, rest⟩, -, h⟩ := Option.map_eq_some_iff.1 h
    cases h
    exact lt_of_le_of_lt rest.2 (p.consumes h1)

/-- `expr_landor` after a first operand, if the token is `op`. -/
def landorRest (op : Int) (operand : TokParser α (Expr β)) (e : Expr β) (ts : List α) :
    Option (Expr β × Rest ts) :=
  if tok code ts = op then
    (landorLoop code op operand ts).map fun (es, rest) =>
      (.landor op (e :: es), ⟨rest.1, rest.2.le⟩)
  else some (e, ⟨ts, le_rfl⟩)

variable (unary : TokParser α (Expr β))

def exprProd : TokParser α (Expr β) :=
  unary.andThen (levelLoop code (fun t => t = 42 ∨ t = 47 ∨ t = 37) unary)

def exprSum : TokParser α (Expr β) :=
  (exprProd code unary).andThen (levelLoop code (fun t => t = 43 ∨ t = 45) (exprProd code unary))

def exprShift : TokParser α (Expr β) :=
  (exprSum code unary).andThen
    (levelLoop code (fun t => t = tokShl ∨ t = tokSar) (exprSum code unary))

def exprCmp : TokParser α (Expr β) :=
  (exprShift code unary).andThen
    (levelLoop code (fun t => (t ≥ tokUle ∧ t ≤ tokGt) ∨ t = tokUlt ∨ t = tokUge)
      (exprShift code unary))

def exprCmpeq : TokParser α (Expr β) :=
  (exprCmp code unary).andThen
    (levelLoop code (fun t => t = tokEq ∨ t = tokNe) (exprCmp code unary))

def exprAnd : TokParser α (Expr β) :=
  (exprCmpeq code unary).andThen (levelLoop code (fun t => t = 38) (exprCmpeq code unary))

def exprXor : TokParser α (Expr β) :=
  (exprAnd code unary).andThen (levelLoop code (fun t => t = 94) (exprAnd code unary))

def exprOr : TokParser α (Expr β) :=
  (exprXor code unary).andThen (levelLoop code (fun t => t = 124) (exprXor code unary))

def exprLand : TokParser α (Expr β) :=
  (exprOr code unary).andThen (landorRest code tokLand (exprOr code unary))

def exprLor : TokParser α (Expr β) :=
  (exprLand code unary).andThen (landorRest code tokLor (exprLand code unary))

end Tower

/-! ## Precedence climbing -/

section Climbing

variable (code : α → Int) (unary : TokParser α (Expr β))

mutual

/-- `expr_infix`. -/
def exprInfix (p : Nat) (e : Expr β) (ts : List α) : Option (Expr β × Rest ts) :=
  let t := tok code ts
  if prec t < p then some (e, ⟨ts, le_rfl⟩)
  else if t = tokLor ∨ t = tokLand then
    match infixLandor t ts with
    | none => none
    | some (es, ⟨ts', hlt⟩) =>
      (exprInfix p (.landor t (e :: es)) ts').map fun (e, rest) =>
        (e, ⟨rest.1, rest.2.trans hlt.le⟩)
  else
    match h : unary.run ts.tail with
    | none => none
    | some (r, ts') =>
      have hlt : ts'.length < ts.length := lt_of_lt_of_le (unary.consumes h) (tail_length_le ts)
      let operand : Option (Expr β × Rest ts') :=
        if prec (tok code ts') > prec t then exprInfix (prec t + 1) r ts'
        else some (r, ⟨ts', le_rfl⟩)
      match operand with
      | none => none
      | some (r, ⟨ts'', hle⟩) =>
        have hlt' : ts''.length < ts.length := lt_of_le_of_lt hle hlt
        (exprInfix p (.op t e r) ts'').map fun (e, rest) => (e, ⟨rest.1, rest.2.trans hlt'.le⟩)
termination_by (ts.length, 1)

/-- The loop of `expr_landor`, with the operands that `expr_landor_next` parses here. -/
def infixLandor (op : Int) (ts : List α) : Option (List (Expr β) × Shorter ts) :=
  match h : unary.run ts.tail with
  | none => none
  | some (r, ts') =>
    have hlt : ts'.length < ts.length := lt_of_lt_of_le (unary.consumes h) (tail_length_le ts)
    match exprInfix (prec op + 1) r ts' with
    | none => none
    | some (r, ⟨ts'', hle⟩) =>
      have hlt' : ts''.length < ts.length := lt_of_le_of_lt hle hlt
      if tok code ts'' = op then
        (infixLandor op ts'').map fun (es, rest) => (r :: es, ⟨rest.1, rest.2.trans hlt'⟩)
      else some ([r], ⟨ts'', hlt'⟩)
termination_by (ts.length, 0)

end

/-- The macro `expr_lor` of the precedence parser. -/
def infixLor : TokParser α (Expr β) := unary.andThen (exprInfix code unary 1)

end Climbing

/-! ## The functions without the bounds in their results -/

/-- A result without the bound on the number of tokens left. -/
def forget {ε : Type} {P : List α → Prop} (o : Option (ε × { ts : List α // P ts })) :
    Option (ε × List α) := o.map fun (e, rest) => (e, rest.1)

section Equations

variable (code : α → Int) (unary : TokParser α (Expr β))

theorem run_andThen (p : TokParser α (Expr β))
    (k : Expr β → (ts : List α) → Option (Expr β × Rest ts)) (ts : List α) :
    (p.andThen k).run ts = (p.run ts).bind fun (e, ts) => forget (k e ts) := rfl

theorem forget_levelLoop (isOp : Int → Bool) (operand : TokParser α (Expr β)) (e : Expr β)
    (ts : List α) :
    forget (levelLoop code isOp operand e ts) =
      if isOp (tok code ts) then
        (operand.run ts.tail).bind fun (r, ts') =>
          forget (levelLoop code isOp operand (.op (tok code ts) e r) ts')
      else some (e, ts) := by
  rw [levelLoop]
  split
  · split
    · next h =>
      rw [h]
      rfl
    · next r ts' h =>
      simp only [h, Option.bind_some]
      cases levelLoop code isOp operand (.op (tok code ts) e r) ts' <;> rfl
  · rfl

theorem forget_landorLoop (op : Int) (operand : TokParser α (Expr β)) (ts : List α) :
    forget (landorLoop code op operand ts) =
      (operand.run ts.tail).bind fun (r, ts') =>
        if tok code ts' = op then
          (forget (landorLoop code op operand ts')).map fun (es, ts) => (r :: es, ts)
        else some ([r], ts') := by
  rw [landorLoop]
  split
  · next h =>
    rw [h]
    rfl
  · next r ts' h =>
    simp only [h, Option.bind_some]
    split
    · cases landorLoop code op operand ts' <;> rfl
    · rfl

theorem forget_landorRest (op : Int) (operand : TokParser α (Expr β)) (e : Expr β) (ts : List α) :
    forget (landorRest code op operand e ts) =
      if tok code ts = op then
        (forget (landorLoop code op operand ts)).map fun (es, ts) => (.landor op (e :: es), ts)
      else some (e, ts) := by
  unfold landorRest
  split
  · cases landorLoop code op operand ts <;> rfl
  · rfl

theorem forget_exprInfix (p : Nat) (e : Expr β) (ts : List α) :
    forget (exprInfix code unary p e ts) =
      if prec (tok code ts) < p then some (e, ts)
      else if tok code ts = tokLor ∨ tok code ts = tokLand then
        (forget (infixLandor code unary (tok code ts) ts)).bind fun (es, ts') =>
          forget (exprInfix code unary p (.landor (tok code ts) (e :: es)) ts')
      else
        (unary.run ts.tail).bind fun (r, ts') =>
          (if prec (tok code ts') > prec (tok code ts) then
            forget (exprInfix code unary (prec (tok code ts) + 1) r ts')
          else some (r, ts')).bind fun (r, ts'') =>
            forget (exprInfix code unary p (.op (tok code ts) e r) ts'') := by
  rw [exprInfix]
  simp only
  split
  · rfl
  · split
    · cases infixLandor code unary (tok code ts) ts with
      | none => rfl
      | some result =>
        obtain ⟨es, ts', hlt⟩ := result
        simp only [forget, Option.map_some, Option.bind_some]
        cases exprInfix code unary p (.landor (tok code ts) (e :: es)) ts' <;> rfl
    · split
      · next h =>
        rw [h]
        rfl
      · next r ts' h =>
        simp only [h, Option.bind_some]
        by_cases hgt : prec (tok code ts') > prec (tok code ts)
        · simp only [if_pos hgt]
          cases exprInfix code unary (prec (tok code ts) + 1) r ts' with
          | none => rfl
          | some result =>
            obtain ⟨r2, ts'', hle⟩ := result
            simp only [forget, Option.map_some, Option.bind_some]
            cases exprInfix code unary p (.op (tok code ts) e r2) ts'' <;> rfl
        · simp only [if_neg hgt, forget, Option.bind_some]
          cases exprInfix code unary p (.op (tok code ts) e r) ts' <;> rfl

theorem forget_infixLandor (op : Int) (ts : List α) :
    forget (infixLandor code unary op ts) =
      (unary.run ts.tail).bind fun (r, ts') =>
        (forget (exprInfix code unary (prec op + 1) r ts')).bind fun (r, ts'') =>
          if tok code ts'' = op then
            (forget (infixLandor code unary op ts'')).map fun (es, ts) => (r :: es, ts)
          else some ([r], ts'') := by
  rw [infixLandor]
  split
  · next h =>
    rw [h]
    rfl
  · next r ts' h =>
    simp only [h, Option.bind_some]
    cases exprInfix code unary (prec op + 1) r ts' with
    | none => rfl
    | some result =>
      obtain ⟨r2, ts'', hle⟩ := result
      simp only [forget, Option.map_some, Option.bind_some]
      split
      · cases infixLandor code unary op ts'' <;> rfl
      · rfl

end Equations

/-! ## Climbing through one level -/

theorem TokParser.ext_run {p q : TokParser α (Expr β)} (h : ∀ ts, p.run ts = q.run ts) : p = q := by
  cases p
  cases q
  congr
  exact funext h

theorem forget_prop {ε : Type} {P : List α → Prop} {o : Option (ε × { ts : List α // P ts })}
    {e : ε} {ts : List α} (h : forget o = some (e, ts)) : P ts := by
  obtain ⟨⟨e', rest⟩, -, h⟩ := Option.map_eq_some_iff.1 h
  cases h
  exact rest.2

section Climb

variable (code : α → Int) (unary : TokParser α (Expr β))

/-- An operand and all operators of precedence at least `p` after it. -/
def climb (p : Nat) : TokParser α (Expr β) := unary.andThen (exprInfix code unary p)

theorem precedence_le (t : Int) : precedence t ≤ 10 := by
  have hite : ∀ (c : Prop) [Decidable c] (a b : Nat), a ≤ 10 → b ≤ 10 →
      (if c then a else b) ≤ 10 := by
    intro c _ a b ha hb
    split
    · exact ha
    · exact hb
  unfold precedence
  iterate 11 refine hite _ _ _ (by decide) ?_
  decide

theorem precedence_eq_zero {t : Int} (h : ¬(0 ≤ t ∧ t < 256)) : precedence t = 0 := by
  have hne : ∀ c : Int, 0 ≤ c → c < 256 → t ≠ c := by
    rintro c h0 h256 rfl
    exact h ⟨h0, h256⟩
  have hcmp : ¬(tokUle ≤ t ∧ t ≤ tokGt) := fun hc =>
    h ⟨le_trans (by decide) hc.1, lt_of_le_of_lt hc.2 (by decide)⟩
  simp only [tokUle, tokGt] at hcmp
  simp [precedence, tokLor, tokLand, tokEq, tokNe, tokUlt, tokUge, tokShl, tokSar, tokUle, tokGt,
    hne, hcmp]

/-- The table holds what `precedence` computes, and no token outside it is an operator. -/
theorem prec_eq (t : Int) : prec t = precedence t := by
  unfold prec
  split
  · next h =>
    have hsize : t.toNat < 256 := by omega
    have hcast : ((t.toNat : Nat) : Int) = t := Int.toNat_of_nonneg h.1
    rw [precTable, Array.getElem?_ofFn, dif_pos hsize, Option.getD_some, hcast]
  · next h => exact (precedence_eq_zero h).symm

/-- With `p` out of reach, nothing is done. -/
theorem forget_exprInfix_of_lt {p : Nat} {ts : List α} (h : prec (tok code ts) < p) (e : Expr β) :
    forget (exprInfix code unary p e ts) = some (e, ts) := by
  rw [forget_exprInfix, if_pos h]

/-- `expr_infix` stops at a token of lower precedence. -/
theorem exprInfix_stops {p : Nat} {e e' : Expr β} {ts ts' : List α}
    (h : forget (exprInfix code unary p e ts) = some (e', ts')) : prec (tok code ts') < p := by
  induction hn : ts.length using Nat.strong_induction_on generalizing e ts with
  | _ n ih =>
    rw [forget_exprInfix] at h
    split at h
    · next hlt =>
      cases h
      exact hlt
    · split at h
      · obtain ⟨⟨es, ts1⟩, hland, h⟩ := Option.bind_eq_some_iff.1 h
        exact ih _ (hn ▸ forget_prop hland) h rfl
      · obtain ⟨⟨r, ts1⟩, hunary, h⟩ := Option.bind_eq_some_iff.1 h
        obtain ⟨⟨r2, ts2⟩, hoperand, h⟩ := Option.bind_eq_some_iff.1 h
        have hlt : ts1.length < n := hn ▸ lt_of_lt_of_le (unary.consumes hunary) (tail_length_le ts)
        have hle : ts2.length ≤ ts1.length := by
          split at hoperand
          · exact forget_prop hoperand
          · cases hoperand
            exact le_rfl
        exact ih _ (lt_of_le_of_lt hle hlt) h rfl

theorem climb_stops {p : Nat} {e : Expr β} {ts ts' : List α}
    (h : (climb code unary p).run ts = some (e, ts')) : prec (tok code ts') < p := by
  obtain ⟨⟨e1, ts1⟩, -, h⟩ := Option.bind_eq_some_iff.1 h
  exact exprInfix_stops code unary h

/-- The operands of a chain are parsed by `climb`. -/
theorem forget_infixLandor_eq (op : Int) (ts : List α) :
    forget (infixLandor code unary op ts)
      = forget (landorLoop code op (climb code unary (prec op + 1)) ts) := by
  obtain ⟨n, hn⟩ : ∃ n, ts.length = n := ⟨_, rfl⟩
  induction n using Nat.strong_induction_on generalizing ts with
  | _ n ih =>
    rw [forget_infixLandor, forget_landorLoop, climb, run_andThen, Option.bind_assoc]
    refine Option.bind_congr fun ⟨r, ts1⟩ hunary => Option.bind_congr fun ⟨r2, ts2⟩ hinfix => ?_
    have hlt : ts2.length < n := by
      have := lt_of_lt_of_le (unary.consumes hunary) (tail_length_le ts)
      have : ts2.length ≤ ts1.length := forget_prop hinfix
      omega
    simp only [ih _ hlt ts2 rfl]
    rfl

/-- **One round of `expr_infix`**: a chain, or an operator with an operand of higher precedence. -/
theorem forget_exprInfix_step {p : Nat} {e : Expr β} {ts : List α} (h : p ≤ prec (tok code ts)) :
    forget (exprInfix code unary p e ts) =
      if tok code ts = tokLor ∨ tok code ts = tokLand then
        (forget (landorLoop code (tok code ts) (climb code unary (prec (tok code ts) + 1)) ts)).bind
          fun (es, ts') => forget (exprInfix code unary p (.landor (tok code ts) (e :: es)) ts')
      else
        ((climb code unary (prec (tok code ts) + 1)).run ts.tail).bind fun (r, ts') =>
          forget (exprInfix code unary p (.op (tok code ts) e r) ts') := by
  rw [forget_exprInfix, if_neg (by omega), forget_infixLandor_eq]
  split
  · rfl
  · rw [climb, run_andThen, Option.bind_assoc]
    refine Option.bind_congr fun ⟨r, ts1⟩ hunary => ?_
    simp only
    split
    · rfl
    · next hle => rw [forget_exprInfix_of_lt code unary (by omega)]

theorem landorLoop_stops {op : Int} {operand : TokParser α (Expr β)} {p : Nat}
    (hstop : ∀ {ts e ts'}, operand.run ts = some (e, ts') → prec (tok code ts') < p)
    {ts ts' : List α} {es : List (Expr β)}
    (h : forget (landorLoop code op operand ts) = some (es, ts')) :
    tok code ts' ≠ op ∧ prec (tok code ts') < p := by
  obtain ⟨n, hn⟩ : ∃ n, ts.length = n := ⟨_, rfl⟩
  induction n using Nat.strong_induction_on generalizing ts es with
  | _ n ih =>
    rw [forget_landorLoop] at h
    obtain ⟨⟨r, ts1⟩, hoperand, h⟩ := Option.bind_eq_some_iff.1 h
    simp only at h
    split at h
    · obtain ⟨⟨es', ts2⟩, hloop, h⟩ := Option.map_eq_some_iff.1 h
      cases h
      have hlt : ts1.length < n :=
        hn ▸ lt_of_lt_of_le (operand.consumes hoperand) (tail_length_le ts)
      exact ih _ hlt hloop rfl
    · next hne =>
      cases h
      exact ⟨hne, hstop hoperand⟩

/-- Going on at precedence `p` is going on at `p + 1` and then with the operators of precedence
`p`, if these form a level of left-associative operators. -/
theorem exprInfix_level {p : Nat} (hp : 3 ≤ p) (e : Expr β) (ts : List α) :
    forget (exprInfix code unary p e ts) =
      (forget (exprInfix code unary (p + 1) e ts)).bind fun (e, ts) =>
        forget (levelLoop code (fun t => prec t = p) (climb code unary (p + 1)) e ts) := by
  obtain ⟨n, hn⟩ : ∃ n, ts.length = n := ⟨_, rfl⟩
  induction n using Nat.strong_induction_on generalizing ts e with
  | _ n ih =>
    rcases lt_trichotomy (prec (tok code ts)) p with hlt | heq | hgt
    · rw [forget_exprInfix_of_lt code unary hlt, forget_exprInfix_of_lt code unary (by omega),
        Option.bind_some]
      change _ = forget (levelLoop code _ _ e ts)
      rw [forget_levelLoop, if_neg (by simpa using hlt.ne)]
    · have hop : ¬(tok code ts = tokLor ∨ tok code ts = tokLand) := by
        rintro (h | h) <;> rw [h, prec_eq] at heq <;> exact absurd hp (by rw [← heq]; decide)
      rw [forget_exprInfix_step code unary heq.ge, if_neg hop, forget_exprInfix_of_lt code unary
        (by omega : prec (tok code ts) < p + 1), Option.bind_some]
      change _ = forget (levelLoop code _ _ e ts)
      rw [forget_levelLoop, if_pos (by simpa using heq), heq]
      refine Option.bind_congr fun ⟨r, ts1⟩ hoperand => ?_
      have hlt : ts1.length < n :=
        hn ▸ lt_of_lt_of_le ((climb code unary (p + 1)).consumes hoperand) (tail_length_le ts)
      -- the operand ends before an operator that the upper level would take
      change forget (exprInfix code unary p _ ts1) = forget (levelLoop code _ _ _ ts1)
      rw [ih _ hlt _ _ rfl, forget_exprInfix_of_lt code unary (climb_stops code unary hoperand),
        Option.bind_some]
    · rw [forget_exprInfix_step code unary hgt.le, forget_exprInfix_step code unary hgt]
      split
      · rw [Option.bind_assoc]
        refine Option.bind_congr fun ⟨es, ts1⟩ hloop => ?_
        exact ih _ (hn ▸ forget_prop hloop) _ _ rfl
      · rw [Option.bind_assoc]
        refine Option.bind_congr fun ⟨r, ts1⟩ hoperand => ?_
        have hlt : ts1.length < n :=
          hn ▸ lt_of_lt_of_le ((climb code unary _).consumes hoperand) (tail_length_le ts)
        exact ih _ hlt _ _ rfl

/-- The same for `&&` and `||`, whose level is a chain of one operator. -/
theorem exprInfix_landor {p : Nat} {op : Int} (hop : op = tokLor ∨ op = tokLand)
    (honly : ∀ t, prec t = p ↔ t = op) (e : Expr β) (ts : List α) :
    forget (exprInfix code unary p e ts) =
      (forget (exprInfix code unary (p + 1) e ts)).bind fun (e, ts) =>
        forget (landorRest code op (climb code unary (p + 1)) e ts) := by
  obtain ⟨n, hn⟩ : ∃ n, ts.length = n := ⟨_, rfl⟩
  induction n using Nat.strong_induction_on generalizing ts e with
  | _ n ih =>
    rcases lt_trichotomy (prec (tok code ts)) p with hlt | heq | hgt
    · rw [forget_exprInfix_of_lt code unary hlt, forget_exprInfix_of_lt code unary (by omega),
        Option.bind_some]
      change _ = forget (landorRest code op _ e ts)
      rw [forget_landorRest, if_neg (fun h => hlt.ne ((honly _).2 h))]
    · have htok := (honly _).1 heq
      rw [forget_exprInfix_step code unary heq.ge, if_pos (htok ▸ hop),
        forget_exprInfix_of_lt code unary (by omega : prec (tok code ts) < p + 1),
        Option.bind_some]
      change _ = forget (landorRest code op _ e ts)
      rw [forget_landorRest, if_pos htok, heq, htok, Option.map_eq_bind]
      refine Option.bind_congr fun ⟨es, ts1⟩ hloop => ?_
      obtain ⟨hne, hlt⟩ := landorLoop_stops code (climb_stops code unary) hloop
      have hnot : prec (tok code ts1) ≠ p := fun h => hne ((honly _).1 h)
      exact forget_exprInfix_of_lt code unary (by omega) _
    · rw [forget_exprInfix_step code unary hgt.le, forget_exprInfix_step code unary hgt]
      split
      · rw [Option.bind_assoc]
        refine Option.bind_congr fun ⟨es, ts1⟩ hloop => ?_
        exact ih _ (hn ▸ forget_prop hloop) _ _ rfl
      · rw [Option.bind_assoc]
        refine Option.bind_congr fun ⟨r, ts1⟩ hoperand => ?_
        have hlt : ts1.length < n :=
          hn ▸ lt_of_lt_of_le ((climb code unary _).consumes hoperand) (tail_length_le ts)
        exact ih _ hlt _ _ rfl


/-! ## The two parsers -/

theorem exprInfix_above (e : Expr β) (ts : List α) :
    forget (exprInfix code unary 11 e ts) = some (e, ts) :=
  forget_exprInfix_of_lt code unary (by rw [prec_eq]; exact Nat.lt_succ_of_le (precedence_le _)) e

/-- No operator binds tighter than `*`. -/
theorem climb_top : climb code unary 11 = unary := by
  refine TokParser.ext_run fun ts => ?_
  rw [climb, run_andThen]
  rcases unary.run ts with _ | ⟨e, ts1⟩
  · rfl
  · exact exprInfix_above code unary e ts1

/-- The operators of a level are those of its precedence, if they are so in the table. -/
theorem isOp_eq_precedence {p : Nat} (hp : 0 < p) {isOp : Int → Bool}
    (htable : ∀ i : Fin 256, isOp i = decide (precedence i = p))
    (hout : ∀ t, isOp t → 0 ≤ t ∧ t < 256) (t : Int) : isOp t = decide (precedence t = p) := by
  by_cases ht : 0 ≤ t ∧ t < 256
  · have hsize : t.toNat < 256 := by omega
    have hcast : ((t.toNat : Nat) : Int) = t := Int.toNat_of_nonneg ht.1
    simpa only [hcast] using htable ⟨t.toNat, hsize⟩
  · rw [precedence_eq_zero ht, decide_eq_false hp.ne, ← Bool.not_eq_true]
    exact fun h => ht (hout t h)

/-- One level of left-associative operators: those of its precedence in the table. -/
theorem climb_level {p : Nat} (hp : 3 ≤ p) (isOp : Int → Bool)
    (htable : ∀ i : Fin 256, isOp i = decide (precedence i = p))
    (hout : ∀ t, isOp t → 0 ≤ t ∧ t < 256) :
    climb code unary p
      = (climb code unary (p + 1)).andThen (levelLoop code isOp (climb code unary (p + 1))) := by
  have hisOp : isOp = fun t => decide (prec t = p) := funext fun t => by
    rw [prec_eq, isOp_eq_precedence (by omega) htable hout]
  refine TokParser.ext_run fun ts => ?_
  rw [hisOp, run_andThen]
  nth_rewrite 1 [climb]
  nth_rewrite 1 [climb]
  rw [run_andThen, run_andThen, Option.bind_assoc]
  exact Option.bind_congr fun ⟨e, ts1⟩ _ => exprInfix_level code unary hp e ts1

/-- The level of `&&` or `||`. -/
theorem climb_landor {p : Nat} {op : Int} (hop : op = tokLor ∨ op = tokLand)
    (hp : 0 < p) (htable : ∀ i : Fin 256, decide ((i : Int) = op) = decide (precedence i = p)) :
    climb code unary p
      = (climb code unary (p + 1)).andThen (landorRest code op (climb code unary (p + 1))) := by
  have hout : ∀ t : Int, decide (t = op) = true → 0 ≤ t ∧ t < 256 := by
    rcases hop with rfl | rfl <;> simp [tokLor, tokLand]
  have honly : ∀ t, prec t = p ↔ t = op := fun t => by
    rw [prec_eq, ← decide_eq_decide, isOp_eq_precedence hp htable hout]
  refine TokParser.ext_run fun ts => ?_
  rw [run_andThen]
  nth_rewrite 1 [climb]
  nth_rewrite 1 [climb]
  rw [run_andThen, run_andThen, Option.bind_assoc]
  exact Option.bind_congr fun ⟨e, ts1⟩ _ =>
    exprInfix_landor code unary hop (fun t => honly t) e ts1

/-- **Precedence climbing parses as the tower of levels does**: for every parser of operands, it
builds the same tree, stops at the same token and accepts the same tokens. -/
theorem infixLor_eq_exprLor : infixLor code unary = exprLor code unary := by
  have hprod : climb code unary 10 = exprProd code unary := by
    rw [climb_level code unary (by decide) (fun t => t = 42 ∨ t = 47 ∨ t = 37) (by decide +kernel)
      (by simp), climb_top]
    rfl
  have hsum : climb code unary 9 = exprSum code unary := by
    rw [climb_level code unary (by decide) (fun t => t = 43 ∨ t = 45) (by decide +kernel)
      (by simp), hprod]
    rfl
  have hshift : climb code unary 8 = exprShift code unary := by
    rw [climb_level code unary (by decide) (fun t => t = tokShl ∨ t = tokSar) (by decide +kernel)
      (by simp [tokShl, tokSar]), hsum]
    rfl
  have hcmp : climb code unary 7 = exprCmp code unary := by
    rw [climb_level code unary (by decide)
      (fun t => (t ≥ tokUle ∧ t ≤ tokGt) ∨ t = tokUlt ∨ t = tokUge) (by decide +kernel)
      (by simp [tokUle, tokGt, tokUlt, tokUge]; omega), hshift]
    rfl
  have hcmpeq : climb code unary 6 = exprCmpeq code unary := by
    rw [climb_level code unary (by decide) (fun t => t = tokEq ∨ t = tokNe) (by decide +kernel)
      (by simp [tokEq, tokNe]), hcmp]
    rfl
  have hand : climb code unary 5 = exprAnd code unary := by
    rw [climb_level code unary (by decide) (fun t => t = 38) (by decide +kernel) (by simp), hcmpeq]
    rfl
  have hxor : climb code unary 4 = exprXor code unary := by
    rw [climb_level code unary (by decide) (fun t => t = 94) (by decide +kernel) (by simp), hand]
    rfl
  have hor : climb code unary 3 = exprOr code unary := by
    rw [climb_level code unary (by decide) (fun t => t = 124) (by decide +kernel) (by simp), hxor]
    rfl
  have hland : climb code unary 2 = exprLand code unary := by
    rw [climb_landor code unary (Or.inr rfl) (by decide) (by decide +kernel), hor]
    rfl
  calc infixLor code unary = climb code unary 1 := rfl
    _ = (climb code unary 2).andThen (landorRest code tokLor (climb code unary 2)) :=
        climb_landor code unary (Or.inl rfl) (by decide) (by decide +kernel)
    _ = exprLor code unary := by
        rw [hland]
        rfl

end Climb

end TccRiscv64.Parse
