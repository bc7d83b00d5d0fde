import TccRiscv64.Decl.Steps

set_option autoImplicit false

/-! # What `type_decl` builds

A run of `type_decl` that accepts the tokens of a declarator leaves in memory the type that
`Declarator.built` describes. -/

namespace TccRiscv64.Decl

/-! ## The tokens of a declarator -/

def starTokens (qs : List Qual) : List Tok := .star :: qs.map .qual

def Bound.tokens : Bound → List Tok
  | unspecified => [.lbrack, .rbrack]
  | const n => [.lbrack, .const n, .rbrack]
  | expr e => [.lbrack, .expr e, .rbrack]

mutual

def Declarator.tokens : Declarator → List Tok
  | .mk stars core suffix => stars.flatMap starTokens ++ (core.tokens ++ suffix.tokens)

def Core.tokens : Core → List Tok
  | .ident v => [.ident v]
  | .abstract => []
  | .paren d => .lparen :: (d.tokens ++ [.rparen])

def Suffix.tokens : Suffix → List Tok
  | .none => []
  | .arrays b bs => (b :: bs).flatMap Bound.tokens
  | .func ps => .lparen :: (ps.tokens ++ [.rparen])

def Params.tokens : Params → List Tok
  | .empty => []
  | .void b => [.btype b]
  | .list ps ellipsis => ps.tokens ++ if ellipsis then [.comma, .dots] else []

def ParamList.tokens : ParamList → List Tok
  | .single b d => .btype b :: d.tokens
  | .cons b d ps => .btype b :: (d.tokens ++ .comma :: ps.tokens)

end

mutual

/-- The declarator is one of C for the given `td`: it has an identifier only where there may be
one, it lacks one only where it may, the parentheses hold something, and no parameter is of type
`void`. -/
def Declarator.Valid : Td → Declarator → Prop
  | td, .mk _ core suffix => core.Valid td ∧ suffix.Valid

def Core.Valid : Td → Core → Prop
  | td, .ident _ => td.direct = true
  | td, .abstract => td.abstract = true
  | td, .paren d => d.Valid td ∧ d.isEmpty = false

def Suffix.Valid : Suffix → Prop
  | .none => True
  | .arrays _ _ => True
  | .func ps => ps.Valid

def Params.Valid : Params → Prop
  | .empty => True
  | .void b => b.kind = .void
  | .list ps _ => ps.Valid

def ParamList.Valid : ParamList → Prop
  | .single b d => d.Valid Td.ofParam ∧ (b.kind = .void → d.isEmpty = false)
  | .cons _ d ps => d.Valid Td.ofParam ∧ ps.Valid

end

/-- No declarator goes on with the token. -/
def Tok.ends : Tok → Bool
  | .star | .qual _ | .lparen | .lbrack | .ident _ => false
  | _ => true

/-- A declarator before the tokens ends there. -/
def Stops (toks : List Tok) : Prop := ∀ t, toks.head? = some t → t.ends = true

theorem stops_cons {t : Tok} (toks : List Tok) (h : t.ends = true) : Stops (t :: toks) := by
  intro t' h'
  cases h'
  exact h

/-! ## Pointer signs -/

/-- The tokens do not go on with `*` or a qualifier. -/
def StarsStop (toks : List Tok) : Prop :=
  toks.head? ≠ some .star ∧ ∀ q, toks.head? ≠ some (.qual q)

theorem Stops.starsStop {toks : List Tok} (h : Stops toks) : StarsStop toks := by
  constructor
  · intro hs
    cases h _ hs
  · intro q hq
    cases h _ hq

theorem readQuals_tokens {toks : List Tok} (h : ∀ q, toks.head? ≠ some (.qual q))
    (qs : List Qual) (q : Quals) :
    readQuals q (qs.map Tok.qual ++ toks) = (qs.foldl Quals.add q, toks) := by
  induction qs generalizing q with
  | nil =>
    cases toks with
    | nil => rfl
    | cons t toks =>
      cases t with
      | qual x => exact absurd rfl (h x)
      | _ => rfl
  | cons x qs ih => exact ih (q.add x)

/-- The tokens that a pointer sign stands before do not begin with a qualifier. -/
theorem head_stars {toks : List Tok} (h : StarsStop toks) (stars : List (List Qual)) (q : Qual) :
    (stars.flatMap starTokens ++ toks).head? ≠ some (.qual q) := by
  cases stars with
  | nil => exact h.2 q
  | cons qs stars =>
    intro heq
    cases heq

/-- The loop over the pointer signs. -/
theorem readStars_tokens {toks : List Tok} (h : StarsStop toks) (stars : List (List Qual))
    (mem : Mem) (loc fuel : Nat) (ret : Option Nat) (hfuel : stars.length ≤ fuel) :
    ∃ mem', readStars mem loc fuel ret (stars.flatMap starTokens ++ toks) =
        (mem', if stars.isEmpty then ret else ret.or (some mem.length), toks) ∧
      Keeps mem mem' loc ∧ ∀ post T, Holds mem (loc :: post) T →
        ∃ added, (∀ l ∈ added, mem.length ≤ l) ∧
          Holds mem' (loc :: (added ++ post)) (applyStars stars T) ∧
          (stars.isEmpty = false → added.getLast? = some mem.length) := by
  induction stars generalizing mem fuel ret with
  | nil =>
    refine ⟨mem, ?_, Keeps.refl mem loc, fun post T hT => ⟨[], by simp, hT, by simp⟩⟩
    cases fuel with
    | zero => rfl
    | succ fuel =>
      cases toks with
      | nil => rfl
      | cons t toks =>
        cases t with
        | star => exact absurd rfl h.1
        | _ => rfl
  | cons qs stars ih =>
    cases fuel with
    | zero => exact absurd hfuel (Nat.not_succ_le_zero _)
    | succ fuel =>
      let mem₁ := (mem.symPush loc .unspecified [] .old).setType loc
        ⟨.ptr (qualsOf qs) mem.length, (mem.type loc).storage⟩
      have hkeep₁ : Keeps mem mem₁ loc := keeps_derive mem loc _ _ _ _
      obtain ⟨mem', hrun, hkeep, hholds⟩ :=
        ih mem₁ fuel (ret.or (some mem.length)) (Nat.le_of_succ_le_succ hfuel)
      refine ⟨mem', ?_, hkeep₁.trans hkeep, fun post T hT => ?_⟩
      · have hq : readQuals Quals.none
            (qs.map Tok.qual ++ (stars.flatMap starTokens ++ toks)) = (qualsOf qs, _) :=
          readQuals_tokens (head_stars h stars) qs Quals.none
        rw [List.flatMap_cons, List.append_assoc, starTokens, List.cons_append, readStars, hq]
        simp only [setType_mkPointer]
        rw [hrun]
        cases ret <;> simp
      · have hptr : Holds mem₁ (loc :: ([mem.length] ++ post)) (T.ptr (qualsOf qs)) :=
          hT.pointer (qualsOf qs) _
        obtain ⟨added, hfresh, hT', hlast⟩ := hholds _ _ hptr
        refine ⟨added ++ [mem.length], ?_, ?_, fun _ => List.getLast?_concat⟩
        · intro l hl
          rcases List.mem_append.1 hl with hl | hl
          · exact Nat.le_trans hkeep₁.length_le (hfresh l hl)
          · rw [List.mem_singleton.1 hl]
        · rw [List.append_assoc]
          exact hT'

/-! ## Steps of a run -/

theorem bind_eq_ok {α β : Type} {x : Except Error α} {f : α → Except Error β} {b : β}
    (h : (x >>= f) = .ok b) : ∃ a, x = .ok a ∧ f a = .ok b := by
  cases x with
  | error e => cases h
  | ok a => exact ⟨a, rfl, h⟩

theorem skip_eq_ok {t t' : Tok} {what : String} {toks toks' : List Tok}
    (h : skip t what (t' :: toks) = .ok toks') : t' = t ∧ toks' = toks := by
  rw [skip] at h
  split at h
  · cases h
    exact ⟨by assumption, rfl⟩
  · cases h

theorem readBound_tokens {cx : Cx} {storage : BitVec 32} {td : Td} {b b' : Bound}
    {toks toks' : List Tok}
    (h : readBound cx storage td (b.tokens.tail ++ toks) = .ok (b', toks')) :
    b' = b ∧ toks' = .rbrack :: toks := by
  have hskip : (if td.param then (b.tokens.tail ++ toks).dropWhile Tok.skipped
      else b.tokens.tail ++ toks) = b.tokens.tail ++ toks := by
    split
    · cases b <;> rfl
    · rfl
  rw [readBound, hskip] at h
  cases b with
  | unspecified =>
    cases h
    exact ⟨rfl, rfl⟩
  | const n =>
    have h : (if (n : Int) < 0 then _ else _) = Except.ok (b', toks') := h
    rw [if_neg (by omega)] at h
    cases h
    exact ⟨rfl, rfl⟩
  | expr e =>
    have h : (if (td.param || (cx.localStack && storage &&& vtStatic == 0)) = true then
      Except.ok (Bound.expr e, Tok.rbrack :: toks) else _) = Except.ok (b', toks') := h
    split at h
    · cases h
      exact ⟨rfl, rfl⟩
    · cases h

/-- A `post_type` that finds nothing to read. -/
theorem postTypeFuel_stops {cx : Cx} {mem mem' : Mem} {loc : Nat} {storage : BitVec 32} {td : Td}
    {toks toks' : List Tok} {done : Bool} (hstop : Stops toks) (fuel : Nat)
    (h : postTypeFuel cx fuel mem loc storage td toks = .ok (done, mem', toks')) :
    done = true ∧ mem' = mem ∧ toks' = toks := by
  cases fuel with
  | zero =>
    rw [postTypeFuel] at h
    cases h
  | succ fuel =>
    have hrun : postTypeFuel cx (fuel + 1) mem loc storage td toks = .ok (true, mem, toks) := by
      cases toks with
      | nil => simp [postTypeFuel]
      | cons t toks =>
        cases t with
        | lparen => cases hstop _ rfl
        | lbrack => cases hstop _ rfl
        | _ => simp [postTypeFuel]
    rw [hrun] at h
    cases h
    exact ⟨rfl, rfl, rfl⟩

/-- The bounds of an array type. -/
theorem postTypeFuel_arrays {cx : Cx} {toks : List Tok} (hstop : Stops toks) (bs : List Bound)
    (fuel : Nat) {mem mem' : Mem} {loc : Nat} {storage : BitVec 32} {td : Td}
    {toks' : List Tok} {done : Bool}
    (h : postTypeFuel cx fuel mem loc storage td (bs.flatMap Bound.tokens ++ toks) =
      .ok (done, mem', toks')) :
    done = true ∧ toks' = toks ∧ Applies mem mem' loc fun T => bs.foldr Ty.array T := by
  induction bs generalizing fuel mem' done td toks' with
  | nil =>
    obtain ⟨rfl, rfl, rfl⟩ := postTypeFuel_stops hstop fuel h
    exact ⟨rfl, rfl, Keeps.refl _ loc, fun post T hT => ⟨[], by simp, hT⟩⟩
  | cons b bs ih =>
    cases fuel with
    | zero =>
      rw [postTypeFuel] at h
      cases h
    | succ fuel =>
      have htoks : (b :: bs).flatMap Bound.tokens ++ toks =
          .lbrack :: (b.tokens.tail ++ (bs.flatMap Bound.tokens ++ toks)) := by
        cases b <;> rfl
      rw [htoks, postTypeFuel] at h
      obtain ⟨⟨b', toks₁⟩, hbound, h₁⟩ := bind_eq_ok h
      obtain ⟨rfl, rfl⟩ := readBound_tokens hbound
      obtain ⟨toks₂, hskip, h₂⟩ := bind_eq_ok h₁
      obtain ⟨-, rfl⟩ := skip_eq_ok hskip
      obtain ⟨⟨done₁, mem₁, toks₃⟩, hrest, h₃⟩ := bind_eq_ok h₂
      obtain ⟨rfl, rfl, happly⟩ := ih fuel hrest
      obtain ⟨mem₂, harray, h₄⟩ := bind_eq_ok h₃
      cases h₄
      exact ⟨rfl, rfl, happly.trans (finishArray_applies harray)⟩

/-- The parts of a `type_decl` that succeeds, after its pointer signs. -/
theorem typeDeclFuel_eq_ok {cx : Cx} {fuel : Nat} {mem mem₁ mem' : Mem} {loc ret : Nat} {td : Td}
    {toks toks₁ toks' : List Tok} {v star : Option Nat}
    (hstars : readStars (mem.setStorage loc 0) loc toks.length none toks = (mem₁, star, toks₁))
    (h : typeDeclFuel cx (fuel + 1) mem loc td toks = .ok (mem', v, ret, toks')) :
    ret = star.getD loc ∧ ∃ mem₂ post toks₂ storage done mem₃ storage',
      typeDeclCore cx fuel mem₁ loc td toks₁ = .ok (mem₂, v, post, toks₂) ∧
      postTypeFuel cx fuel mem₂ post storage td.post toks₂ = .ok (done, mem₃, toks') ∧
      mem' = mem₃.setStorage loc storage' := by
  rw [typeDeclFuel] at h
  simp only [hstars] at h
  obtain ⟨⟨mem₂, v', post, toks₂⟩, hcore, h₁⟩ := bind_eq_ok h
  obtain ⟨⟨done, mem₃, toks₃⟩, hpost, h₂⟩ := bind_eq_ok h₁
  cases h₂
  exact ⟨rfl, mem₂, post, toks₂, _, done, mem₃, _, hcore, hpost, rfl⟩

/-! ## Runs -/

/-- The type `R.1` was built at `loc`, and `ret` is the cell under its first `R.2`
derivations. -/
structure Built (mem mem' : Mem) (loc ret : Nat) (post : List Nat) (R : Ty × Nat) : Prop where
  keeps : Keeps mem mem' loc
  holds : ∃ added, (∀ l ∈ added, mem.length ≤ l) ∧ Holds mem' (loc :: (added ++ post)) R.1 ∧
    (loc :: added)[R.2]? = some ret

/-- A suffix is applied where the declarator before it says. -/
theorem Built.suffix {mem mem' mem'' : Mem} {loc ret : Nat} {post : List Nat} {R : Ty × Nat}
    {f : Ty → Ty} (h : Built mem mem' loc ret post R) (hf : Applies mem' mem'' ret f) :
    Keeps mem mem'' loc ∧ ∃ added, (∀ l ∈ added, mem.length ≤ l) ∧
      Holds mem'' (loc :: (added ++ post)) (R.1.applyAt R.2 f) := by
  obtain ⟨added, hfresh, hholds, hret⟩ := h.holds
  cases hn : R.2 with
  | zero =>
    rw [hn] at hret
    cases hret
    refine ⟨h.keeps.trans hf.keeps, ?_⟩
    obtain ⟨added', hfresh', hholds'⟩ := hf.holds _ _ hholds
    refine ⟨added' ++ added, fun l hl => ?_, by rwa [List.append_assoc]⟩
    rcases List.mem_append.1 hl with hl | hl
    · exact Nat.le_trans h.keeps.length_le (hfresh' l hl)
    · exact hfresh l hl
  | succ n =>
    rw [hn] at hret
    have hret : added[n]? = some ret := hret
    obtain ⟨hlt, hget⟩ := List.getElem?_eq_some_iff.1 hret
    have hsplit : added = added.take n ++ ret :: added.drop (n + 1) := by
      rw [← hget, List.getElem_cons_drop, List.take_append_drop]
    have hlen : (loc :: added.take n).length = n + 1 := by
      rw [List.length_cons, List.length_take, Nat.min_eq_left hlt.le]
    have hold : Holds mem' ((loc :: added.take n) ++ ret :: (added.drop (n + 1) ++ post)) R.1 := by
      have hlocs : (loc :: added.take n) ++ ret :: (added.drop (n + 1) ++ post) =
          loc :: (added ++ post) := by
        have happend := congrArg (· ++ post) hsplit
        rw [List.append_assoc, List.cons_append] at happend
        rw [List.cons_append, ← happend]
      rw [hlocs]
      exact hholds
    have hnew : mem.length ≤ ret := by
      rw [← hget]
      exact hfresh _ (List.getElem_mem hlt)
    refine ⟨h.keeps.trans_new hf.keeps (.inr hnew), ?_⟩
    obtain ⟨added', hfresh', hholds'⟩ := hf.under hold
    rw [hlen] at hholds'
    refine ⟨added.take n ++ ret :: (added' ++ added.drop (n + 1)), fun l hl => ?_, ?_⟩
    · rcases List.mem_append.1 hl with hl | hl
      · exact hfresh l (List.mem_of_mem_take hl)
      · rcases List.mem_cons.1 hl with rfl | hl
        · exact hnew
        · rcases List.mem_append.1 hl with hl | hl
          · exact Nat.le_trans h.keeps.length_le (hfresh' l hl)
          · exact hfresh l (List.mem_of_mem_drop hl)
    · simpa only [List.cons_append, List.append_assoc] using hholds'

/-- A run of `type_decl` on the declarator that starts from the type `T` and leaves `T'`. -/
def Builds (cx : Cx) (d : Declarator) (T T' : Ty) : Prop :=
  ∃ fuel mem mem' loc post td toks v ret,
    Holds mem (loc :: post) T ∧ d.Valid td ∧ Stops toks ∧
      typeDeclFuel cx fuel mem loc td (d.tokens ++ toks) = .ok (mem', v, ret, toks) ∧
      mem'.readType loc = T'

/-- Every call is made in some run. -/
def Made (cx : Cx) (calls : List (Declarator × Ty)) : Prop :=
  ∀ p ∈ calls, ∃ T', Builds cx p.1 p.2 T'

theorem made_nil (cx : Cx) : Made cx [] := fun _ h => by cases h

theorem Made.append {cx : Cx} {calls calls' : List (Declarator × Ty)} (h : Made cx calls)
    (h' : Made cx calls') : Made cx (calls ++ calls') :=
  List.forall_mem_append.2 ⟨h, h'⟩

/-- A declarator that holds something begins with a token that belongs to it. -/
theorem Declarator.tokens_head {d : Declarator} (h : d.isEmpty = false) :
    ∃ t toks, d.tokens = t :: toks ∧ t.ends = false := by
  cases d with
  | mk stars core suffix =>
    cases stars with
    | cons qs stars => exact ⟨.star, _, rfl, rfl⟩
    | nil =>
      cases core with
      | ident v => exact ⟨.ident v, _, rfl, rfl⟩
      | paren d => exact ⟨.lparen, _, rfl, rfl⟩
      | abstract =>
        cases suffix with
        | none => cases h
        | arrays b bs => cases b <;> exact ⟨.lbrack, _, rfl, rfl⟩
        | func ps => exact ⟨.lparen, _, rfl, rfl⟩

mutual

/-- There is something that a declarator may be. -/
theorem Declarator.Valid.td {td : Td} (d : Declarator) (h : d.Valid td) :
    (td.direct || td.abstract) = true := by
  cases d with
  | mk stars core suffix => exact Core.Valid.td core h.1

theorem Core.Valid.td {td : Td} (core : Core) (h : core.Valid td) :
    (td.direct || td.abstract) = true := by
  cases core with
  | ident v => rw [show td.direct = true from h, Bool.true_or]
  | abstract => rw [show td.abstract = true from h, Bool.or_true]
  | paren d => exact Declarator.Valid.td d h.1

end

/-! ## One constructor at a time -/

def Declarator.Runs (d : Declarator) : Prop :=
  ∀ (cx : Cx) (fuel : Nat) (mem mem' : Mem) (loc ret : Nat) (post : List Nat) (T : Ty) (td : Td)
    (toks toks' : List Tok) (v : Option Nat),
    Holds mem (loc :: post) T → d.Valid td → Stops toks →
    typeDeclFuel cx fuel mem loc td (d.tokens ++ toks) = .ok (mem', v, ret, toks') →
    toks' = toks ∧ Built mem mem' loc ret post (d.built T) ∧ Made cx (d.calls T)

def Core.Runs (core : Core) : Prop :=
  ∀ (cx : Cx) (fuel : Nat) (mem mem' : Mem) (loc ret : Nat) (post : List Nat) (T : Ty) (td : Td)
    (toks toks' : List Tok) (v : Option Nat),
    Holds mem (loc :: post) T → core.Valid td →
    (core = .abstract → toks.head? ≠ some .lparen ∧ ∀ v, toks.head? ≠ some (.ident v)) →
    typeDeclCore cx fuel mem loc td (core.tokens ++ toks) = .ok (mem', v, ret, toks') →
    toks' = toks ∧ Built mem mem' loc ret post (core.built T) ∧ Made cx (core.calls T)

def Suffix.Runs (suffix : Suffix) : Prop :=
  ∀ (cx : Cx) (fuel : Nat) (mem mem' : Mem) (loc : Nat) (storage : BitVec 32) (td : Td)
    (toks toks' : List Tok) (done : Bool),
    (td.direct && !td.abstract) = false → suffix.Valid → Stops toks →
    postTypeFuel cx fuel mem loc storage td (suffix.tokens ++ toks) = .ok (done, mem', toks') →
    done = true ∧ toks' = toks ∧ Applies mem mem' loc suffix.build ∧ Made cx suffix.calls

/-- With the parentheses around the parameters. -/
def Params.Runs (ps : Params) : Prop :=
  ∀ (cx : Cx) (fuel : Nat) (mem mem' : Mem) (loc : Nat) (storage : BitVec 32) (td : Td)
    (toks toks' : List Tok) (done : Bool),
    (td.direct && !td.abstract) = false → ps.Valid → Stops toks →
    postTypeFuel cx fuel mem loc storage td (.lparen :: (ps.tokens ++ .rparen :: toks)) =
      .ok (done, mem', toks') →
    done = true ∧ toks' = toks ∧ Applies mem mem' loc (Ty.func ps.kind ps.builtTypes) ∧
      Made cx ps.calls

/-- The specifiers of the first parameter have been read. -/
def ParamList.Runs (ps : ParamList) : Prop :=
  ∀ (cx : Cx) (fuel : Nat) (mem mem' : Mem) (b : Base) (ellipsis : Bool)
    (toks toks' more : List Tok) (tys : List Ty) (k : FuncType),
    ps.Valid →
    ps.tokens ++ ((if ellipsis then [.comma, .dots] else []) ++ .rparen :: more) =
      .btype b :: toks →
    paramsFuel cx fuel mem b toks = .ok (mem', tys, k, toks') →
    toks' = .rparen :: more ∧ tys = ps.builtTypes ∧ k = (if ellipsis then .ellipsis else .new) ∧
      Keeps mem mem' mem.length ∧ Made cx ps.calls

theorem Core.runs_ident (v : Nat) : (Core.ident v).Runs := by
  intro cx fuel mem mem' loc ret post T td toks toks' v' hT hvalid _ h
  cases fuel with
  | zero =>
    rw [typeDeclCore] at h
    cases h
  | succ fuel =>
    have hvalid : td.direct = true := hvalid
    have hrun : typeDeclCore cx (fuel + 1) mem loc td (.ident v :: toks) =
        .ok (mem, some v, loc, toks) := by simp [typeDeclCore, hvalid]
    have h : typeDeclCore cx (fuel + 1) mem loc td (.ident v :: toks) =
      .ok (mem', v', ret, toks') := h
    rw [hrun] at h
    cases h
    exact ⟨rfl, ⟨Keeps.refl mem loc, [], by simp, hT, rfl⟩, made_nil cx⟩

theorem Core.runs_abstract : Core.abstract.Runs := by
  intro cx fuel mem mem' loc ret post T td toks toks' v' hT hvalid hhead h
  obtain ⟨hparen, hident⟩ := hhead rfl
  cases fuel with
  | zero =>
    rw [typeDeclCore] at h
    cases h
  | succ fuel =>
    have hvalid : td.abstract = true := hvalid
    have hrun : typeDeclCore cx (fuel + 1) mem loc td toks = .ok (mem, none, loc, toks) := by
      cases toks with
      | nil => simp [typeDeclCore, hvalid]
      | cons t toks =>
        cases t with
        | lparen => exact absurd rfl hparen
        | ident v => exact absurd rfl (hident v)
        | _ => simp [typeDeclCore, hvalid]
    have h : typeDeclCore cx (fuel + 1) mem loc td toks = .ok (mem', v', ret, toks') := h
    rw [hrun] at h
    cases h
    exact ⟨rfl, ⟨Keeps.refl mem loc, [], by simp, hT, rfl⟩, made_nil cx⟩

/-- `post_type` sees that the parentheses belong to a declarator. -/
theorem postTypeFuel_paren {cx : Cx} {fuel : Nat} {mem mem' : Mem} {loc : Nat}
    {storage : BitVec 32} {td : Td} {d : Declarator} {toks toks' : List Tok} {done : Bool}
    (hvalid : d.Valid td) (hne : d.isEmpty = false)
    (h : postTypeFuel cx fuel mem loc storage td (.lparen :: (d.tokens ++ toks)) =
      .ok (done, mem', toks')) : done = false ∧ mem' = mem ∧ toks' = d.tokens ++ toks := by
  obtain ⟨t, toks₁, htoks, hends⟩ := Declarator.tokens_head hne
  cases fuel with
  | zero =>
    rw [postTypeFuel] at h
    cases h
  | succ fuel =>
    have htd := Declarator.Valid.td d hvalid
    have hrun : postTypeFuel cx (fuel + 1) mem loc storage td (.lparen :: (d.tokens ++ toks)) =
        .ok (false, mem, d.tokens ++ toks) := by
      rw [htoks]
      cases t with
      | star => simp [postTypeFuel, htd]
      | qual q => simp [postTypeFuel, htd]
      | lparen => simp [postTypeFuel, htd]
      | lbrack => simp [postTypeFuel, htd]
      | ident v => simp [postTypeFuel, htd]
      | _ => cases hends
    rw [hrun] at h
    cases h
    exact ⟨rfl, rfl, rfl⟩

theorem Core.runs_paren {d : Declarator} (hd : d.Runs) : (Core.paren d).Runs := by
  intro cx fuel mem mem' loc ret post T td toks toks' v' hT hvalid _ h
  obtain ⟨hvalid, hne⟩ : d.Valid td ∧ d.isEmpty = false := hvalid
  cases fuel with
  | zero =>
    rw [typeDeclCore] at h
    cases h
  | succ fuel =>
    have htoks : (Core.paren d).tokens ++ toks = .lparen :: (d.tokens ++ .rparen :: toks) := by
      rw [Core.tokens, List.cons_append, List.append_assoc]
      rfl
    rw [htoks, typeDeclCore] at h
    obtain ⟨⟨done, mem₁, toks₁⟩, hparen, h₁⟩ := bind_eq_ok h
    obtain ⟨rfl, rfl, rfl⟩ := postTypeFuel_paren hvalid hne hparen
    obtain ⟨⟨mem₂, v₂, ret₂, toks₂⟩, hdecl, h₂⟩ := bind_eq_ok h₁
    obtain ⟨rfl, hbuilt, hmade⟩ := hd cx fuel _ _ _ _ post T td _ _ _ hT hvalid
      (stops_cons toks rfl) hdecl
    obtain ⟨toks₃, hskip, h₃⟩ := bind_eq_ok h₂
    obtain ⟨-, rfl⟩ := skip_eq_ok hskip
    cases h₃
    exact ⟨rfl, hbuilt, hmade⟩

theorem Suffix.runs_none : Suffix.none.Runs := by
  intro cx fuel mem mem' loc storage td toks toks' done _ _ hstop h
  obtain ⟨rfl, rfl, rfl⟩ := postTypeFuel_stops hstop fuel h
  exact ⟨rfl, rfl, ⟨Keeps.refl _ loc, fun post T hT => ⟨[], by simp, hT⟩⟩, made_nil cx⟩

theorem Suffix.runs_arrays (b : Bound) (bs : List Bound) : (Suffix.arrays b bs).Runs := by
  intro cx fuel mem mem' loc storage td toks toks' done _ _ hstop h
  obtain ⟨rfl, rfl, happly⟩ := postTypeFuel_arrays hstop (b :: bs) fuel h
  exact ⟨rfl, rfl, happly, made_nil cx⟩

theorem Suffix.runs_func {ps : Params} (hps : ps.Runs) : (Suffix.func ps).Runs := by
  intro cx fuel mem mem' loc storage td toks toks' done htd hvalid hstop h
  have htoks : (Suffix.func ps).tokens ++ toks = .lparen :: (ps.tokens ++ .rparen :: toks) := by
    rw [Suffix.tokens, List.cons_append, List.append_assoc]
    rfl
  rw [htoks] at h
  exact hps cx fuel mem mem' loc storage td toks toks' done htd hvalid hstop h

/-! ### Parameters -/

/-- Reading the parameters only adds cells. -/
theorem Applies.after {mem mem₁ mem' : Mem} {loc : Nat} {f : Ty → Ty}
    (h : Keeps mem mem₁ mem.length) (h' : Applies mem₁ mem' loc f) : Applies mem mem' loc f where
  keeps :=
    { length_le := Nat.le_trans h.length_le h'.keeps.length_le
      info := fun l hl =>
        (h'.keeps.info l (Nat.lt_of_lt_of_le hl h.length_le)).trans (h.info l hl)
      kind := fun l hl hne =>
        (h'.keeps.kind l (Nat.lt_of_lt_of_le hl h.length_le) hne).trans (h.kind l hl hl.ne) }
  holds post T hT := by
    have hnot : mem.length ∉ loc :: post := fun hmem => Nat.lt_irrefl _ (hT.lt _ hmem)
    obtain ⟨added, hfresh, hholds⟩ := h'.holds post T (hT.congr h hnot)
    exact ⟨added, fun l hl => Nat.le_trans h.length_le (hfresh l hl), hholds⟩

/-- The type of a parameter, after its declarator. -/
theorem Built.param {mem mem' : Mem} {b : Base} {ret : Nat} {R : Ty × Nat}
    (h : Built (mem ++ [⟨⟨.base b, 0⟩, .unspecified, [], .old⟩]) mem' mem.length ret [] R) :
    (mem'.convertParameterType mem.length).readType mem.length = R.1.adjust ∧
      Keeps mem (mem'.convertParameterType mem.length) mem.length := by
  obtain ⟨added, -, hholds, -⟩ := h.holds
  obtain ⟨post', hadjust⟩ := hholds.convertParameterType
  refine ⟨hadjust.readType, (keeps_append mem _ _).trans (h.keeps.trans ?_)⟩
  exact keeps_convertParameterType mem' mem.length

theorem holds_new (mem : Mem) (b : Base) :
    Holds (mem ++ [⟨⟨.base b, 0⟩, .unspecified, [], .old⟩]) [mem.length] ([], b) where
  chain := Mem.kind_append_self mem _
  nodup := List.pairwise_singleton _ _
  lt l hl := by
    rw [List.mem_singleton.1 hl, List.length_append]
    exact Nat.lt_succ_self _

theorem ParamList.runs_single (b : Base) {d : Declarator} (hd : d.Runs) :
    (ParamList.single b d).Runs := by
  intro cx fuel mem mem' b' ellipsis toks toks' more tys k hvalid htoks h
  obtain ⟨hvalid, hvoid⟩ : d.Valid Td.ofParam ∧ (b.kind = .void → d.isEmpty = false) := hvalid
  have htoks : Tok.btype b :: (d.tokens ++
      ((if ellipsis then [Tok.comma, .dots] else []) ++ .rparen :: more)) = .btype b' :: toks :=
    htoks
  cases htoks
  cases fuel with
  | zero =>
    rw [paramsFuel] at h
    cases h
  | succ fuel =>
    have hmore : Stops ((if ellipsis then [Tok.comma, .dots] else []) ++ .rparen :: more) := by
      cases ellipsis <;> exact stops_cons _ rfl
    have hne : ¬(b.kind = .void ∧ (d.tokens ++
        ((if ellipsis then [Tok.comma, .dots] else []) ++ .rparen :: more)).head? =
          some .rparen) := by
      rintro ⟨hkind, hhead⟩
      obtain ⟨t, toks₁, htoks, hends⟩ := Declarator.tokens_head (hvoid hkind)
      rw [htoks] at hhead
      cases hhead
      cases hends
    rw [paramsFuel, if_neg hne] at h
    obtain ⟨⟨mem₁, v, ret, toks₁⟩, hdecl, h₁⟩ := bind_eq_ok h
    obtain ⟨rfl, hbuilt, hmade⟩ := hd cx fuel _ _ _ _ [] ([], b) _ _ _ _ (holds_new mem b) hvalid
      hmore hdecl
    obtain ⟨hty, hkeep⟩ := hbuilt.param
    dsimp only at h₁
    split at h₁
    · cases h₁
    · rw [ParamList.builtTypes, ← hty]
      cases ellipsis with
      | false =>
        cases h₁
        exact ⟨rfl, rfl, rfl, hkeep, hmade⟩
      | true =>
        cases h₁
        exact ⟨rfl, rfl, rfl, hkeep, hmade⟩

theorem ParamList.runs_cons (b : Base) {d : Declarator} {ps : ParamList} (hd : d.Runs)
    (hps : ps.Runs) : (ParamList.cons b d ps).Runs := by
  intro cx fuel mem mem' b' ellipsis toks toks' more tys k hvalid htoks h
  obtain ⟨hvalid, hvalids⟩ : d.Valid Td.ofParam ∧ ps.Valid := hvalid
  obtain ⟨b₁, toks₁, hps₁⟩ : ∃ b₁ toks₁, ps.tokens ++
      ((if ellipsis then [Tok.comma, .dots] else []) ++ .rparen :: more) = .btype b₁ :: toks₁ := by
    cases ps <;> exact ⟨_, _, rfl⟩
  have htoks : Tok.btype b :: (d.tokens ++ .comma :: .btype b₁ :: toks₁) = .btype b' :: toks := by
    rw [← htoks, ParamList.tokens, List.cons_append, List.append_assoc, List.cons_append, hps₁]
  cases htoks
  cases fuel with
  | zero =>
    rw [paramsFuel] at h
    cases h
  | succ fuel =>
    have hne : ¬(b.kind = .void ∧ (d.tokens ++ .comma :: .btype b₁ :: toks₁).head? =
        some .rparen) := by
      rintro ⟨-, hhead⟩
      cases hd : d.isEmpty with
      | true =>
        have hnil : d.tokens = [] := by
          obtain ⟨stars, core, suffix⟩ := d
          cases stars <;> cases core <;> cases suffix <;> first | rfl | cases hd
        rw [hnil] at hhead
        cases hhead
      | false =>
        obtain ⟨t, toks₂, htoks, hends⟩ := Declarator.tokens_head hd
        rw [htoks] at hhead
        cases hhead
        cases hends
    rw [paramsFuel, if_neg hne] at h
    obtain ⟨⟨mem₁, v, ret, toks₂⟩, hdecl, h₁⟩ := bind_eq_ok h
    obtain ⟨rfl, hbuilt, hmade⟩ := hd cx fuel _ _ _ _ [] ([], b) _ _ _ _ (holds_new mem b) hvalid
      (stops_cons _ rfl) hdecl
    obtain ⟨hty, hkeep⟩ := hbuilt.param
    dsimp only at h₁
    split at h₁
    · cases h₁
    · obtain ⟨⟨mem₂, tys₂, k₂, toks₃⟩, hrest, h₂⟩ := bind_eq_ok h₁
      obtain ⟨rfl, rfl, rfl, hkeep₂, hmades⟩ := hps cx fuel _ _ _ _ _ _ _ _ _ hvalids hps₁ hrest
      cases h₂
      refine ⟨rfl, ?_, rfl, hkeep.trans_new hkeep₂ (.inr hkeep.length_le), hmade.append hmades⟩
      rw [ParamList.builtTypes, ← hty]

theorem Params.runs_empty : Params.empty.Runs := by
  intro cx fuel mem mem' loc storage td toks toks' done htd _ hstop h
  cases fuel with
  | zero =>
    rw [postTypeFuel] at h
    cases h
  | succ fuel =>
    have h : postTypeFuel cx (fuel + 1) mem loc storage td (.lparen :: .rparen :: toks) =
      .ok (done, mem', toks') := h
    rw [postTypeFuel, if_neg (by rw [htd]; exact Bool.false_ne_true)] at h
    have hhead : toks.head? ≠ some .lbrack := fun heq => by cases hstop _ heq
    obtain ⟨rfl, rfl, happly⟩ := finishFunc_applies hhead h
    exact ⟨rfl, rfl, happly, made_nil cx⟩

/-- A parameter list that begins with declaration specifiers. -/
theorem postTypeFuel_params {cx : Cx} {fuel : Nat} {mem mem' : Mem} {loc : Nat}
    {storage : BitVec 32} {td : Td} {b : Base} {toks toks' : List Tok} {done : Bool}
    (htd : (td.direct && !td.abstract) = false)
    (h : postTypeFuel cx fuel mem loc storage td (.lparen :: .btype b :: toks) =
      .ok (done, mem', toks')) :
    ∃ fuel' mem₁ next k toks₁, paramsFuel cx fuel' mem b toks = .ok (mem₁, next, k, toks₁) ∧
      finishFunc mem₁ loc next k toks₁ = .ok (done, mem', toks') := by
  cases fuel with
  | zero =>
    rw [postTypeFuel] at h
    cases h
  | succ fuel =>
    rw [postTypeFuel, if_neg (by rw [htd]; exact Bool.false_ne_true)] at h
    obtain ⟨⟨mem₁, next, k, toks₁⟩, hparams, h₁⟩ := bind_eq_ok h
    exact ⟨fuel, mem₁, next, k, toks₁, hparams, h₁⟩

theorem Params.runs_void (b : Base) : (Params.void b).Runs := by
  intro cx fuel mem mem' loc storage td toks toks' done htd hvalid hstop h
  have hvalid : b.kind = .void := hvalid
  have h : postTypeFuel cx fuel mem loc storage td (.lparen :: .btype b :: .rparen :: toks) =
    .ok (done, mem', toks') := h
  obtain ⟨fuel', mem₁, next, k, toks₁, hparams, hfinish⟩ := postTypeFuel_params htd h
  cases fuel' with
  | zero =>
    rw [paramsFuel] at hparams
    cases hparams
  | succ fuel' =>
    have hvoid : b.kind = .void ∧ (Tok.rparen :: toks).head? = some .rparen := ⟨hvalid, rfl⟩
    rw [paramsFuel, if_pos hvoid] at hparams
    cases hparams
    have hhead : toks.head? ≠ some .lbrack := fun heq => by cases hstop _ heq
    obtain ⟨rfl, rfl, happly⟩ := finishFunc_applies hhead hfinish
    exact ⟨rfl, rfl, happly, made_nil cx⟩

theorem Params.runs_list {ps : ParamList} (hps : ps.Runs) (ellipsis : Bool) :
    (Params.list ps ellipsis).Runs := by
  intro cx fuel mem mem' loc storage td toks toks' done htd hvalid hstop h
  obtain ⟨b, toks₁, htoks⟩ : ∃ b toks₁, ps.tokens ++
      ((if ellipsis then [Tok.comma, .dots] else []) ++ .rparen :: toks) = .btype b :: toks₁ := by
    cases ps <;> exact ⟨_, _, rfl⟩
  rw [Params.tokens, List.append_assoc, htoks] at h
  obtain ⟨fuel', mem₁, next, k, toks₂, hparams, hfinish⟩ := postTypeFuel_params htd h
  obtain ⟨rfl, rfl, rfl, hkeep, hmade⟩ :=
    hps cx fuel' _ _ _ _ _ _ _ _ _ hvalid htoks hparams
  have hhead : toks.head? ≠ some .lbrack := fun heq => by cases hstop _ heq
  obtain ⟨rfl, rfl, happly⟩ := finishFunc_applies hhead hfinish
  exact ⟨rfl, rfl, happly.after hkeep, hmade⟩

/-! ### Declarators -/

theorem starsStop_core (core : Core) (suffix : Suffix) {toks : List Tok} (hstop : Stops toks) :
    StarsStop (core.tokens ++ (suffix.tokens ++ toks)) := by
  cases core with
  | ident v => exact ⟨fun h => (by cases h), fun q h => by cases h⟩
  | paren d => exact ⟨fun h => (by cases h), fun q h => by cases h⟩
  | abstract =>
    cases suffix with
    | none => exact hstop.starsStop
    | arrays b bs => cases b <;> exact ⟨fun h => (by cases h), fun q h => by cases h⟩
    | func ps => exact ⟨fun h => (by cases h), fun q h => by cases h⟩

/-- The middle of a declarator and its suffix. -/
theorem Core.Runs.suffix {core : Core} {suffix : Suffix} (hcore : core.Runs)
    (hsuffix : suffix.Runs) {cx : Cx} {fuel : Nat} {mem mem₂ mem₃ : Mem} {loc inner : Nat}
    {post : List Nat} {T : Ty} {td : Td} {storage : BitVec 32} {toks toks₂ toks' : List Tok}
    {v : Option Nat} {done : Bool}
    (hT : Holds mem (loc :: post) T) (hvalid : core.Valid td) (hvalid' : suffix.Valid)
    (hstop : Stops toks)
    (hrun : typeDeclCore cx fuel mem loc td (core.tokens ++ (suffix.tokens ++ toks)) =
      .ok (mem₂, v, inner, toks₂))
    (hpost : postTypeFuel cx fuel mem₂ inner storage td.post toks₂ = .ok (done, mem₃, toks')) :
    toks' = toks ∧ Keeps mem mem₃ loc ∧
      (∃ added, (∀ l ∈ added, mem.length ≤ l) ∧ Holds mem₃ (loc :: (added ++ post))
        ((core.built T).1.applyAt (core.built T).2 suffix.build)) ∧
      Made cx (core.calls T ++ suffix.calls) := by
  by_cases hfunc : core = .abstract ∧ ∃ ps, suffix = .func ps
  · -- the parameter list is read before the `post_type` at the end
    obtain ⟨rfl, ps, rfl⟩ := hfunc
    have hvalid : td.abstract = true := hvalid
    have htd : (td.direct && !td.abstract) = false := by rw [hvalid, Bool.not_true, Bool.and_false]
    cases fuel with
    | zero =>
      rw [typeDeclCore] at hrun
      cases hrun
    | succ fuel =>
      have hrun : typeDeclCore cx (fuel + 1) mem loc td
        (.lparen :: (ps.tokens ++ [.rparen] ++ toks)) = .ok (mem₂, v, inner, toks₂) := hrun
      rw [typeDeclCore] at hrun
      obtain ⟨⟨done₁, mem₁, toks₁⟩, hfunc, h₁⟩ := bind_eq_ok hrun
      obtain ⟨rfl, rfl, happly, hmade⟩ := hsuffix cx fuel _ _ _ _ td toks _ _ htd hvalid' hstop hfunc
      simp only [hvalid, if_true] at h₁
      cases h₁
      obtain ⟨-, rfl, rfl⟩ := postTypeFuel_stops hstop _ hpost
      exact ⟨rfl, happly.keeps, happly.holds post T hT, hmade⟩
  · have hhead : core = .abstract → (suffix.tokens ++ toks).head? ≠ some .lparen ∧
        ∀ v, (suffix.tokens ++ toks).head? ≠ some (.ident v) := by
      intro hcore
      cases suffix with
      | none =>
        constructor
        · intro heq
          cases hstop _ heq
        · intro v heq
          cases hstop _ heq
      | arrays b bs => cases b <;> exact ⟨fun h => (by cases h), fun v h => by cases h⟩
      | func ps => exact absurd ⟨hcore, ps, rfl⟩ hfunc
    obtain ⟨rfl, hbuilt, hmade⟩ := hcore cx fuel _ _ _ _ post T td _ _ _ hT hvalid hhead hrun
    obtain ⟨rfl, rfl, happly, hmade'⟩ := hsuffix cx fuel _ _ _ _ td.post toks _ _ rfl hvalid' hstop
      hpost
    obtain ⟨hkeep, hholds⟩ := hbuilt.suffix happly
    exact ⟨rfl, hkeep, hholds, hmade.append hmade'⟩

theorem Declarator.runs_mk (stars : List (List Qual)) {core : Core} {suffix : Suffix}
    (hcore : core.Runs) (hsuffix : suffix.Runs) : (Declarator.mk stars core suffix).Runs := by
  intro cx fuel mem mem' loc ret post T td toks toks' v hT hvalid hstop h
  have hwhole := h
  cases fuel with
  | zero =>
    rw [typeDeclFuel] at h
    cases h
  | succ fuel =>
    have htoks : (Declarator.mk stars core suffix).tokens ++ toks =
        stars.flatMap starTokens ++ (core.tokens ++ (suffix.tokens ++ toks)) := by
      rw [Declarator.tokens, List.append_assoc, List.append_assoc]
    rw [htoks] at h
    have hfuel : stars.length ≤
        (stars.flatMap starTokens ++ (core.tokens ++ (suffix.tokens ++ toks))).length := by
      have hlen : stars.length ≤ (stars.flatMap starTokens).length := by
        clear * -
        induction stars with
        | nil => exact Nat.le_refl _
        | cons qs stars ih =>
          rw [List.flatMap_cons, List.length_append, starTokens, List.length_cons,
            List.length_cons]
          omega
      rw [List.length_append]
      omega
    obtain ⟨mem₁, hread, hkeep₁, hholds₁⟩ := readStars_tokens (starsStop_core core suffix hstop)
      stars (mem.setStorage loc 0) loc _ none hfuel
    obtain ⟨hret, mem₂, inner, toks₂, storage, done, mem₃, storage', hrun, hpost, rfl⟩ :=
      typeDeclFuel_eq_ok hread h
    obtain ⟨stars₁, hfresh₁, hT₁, hlast⟩ := hholds₁ post T (hT.setStorage loc 0)
    rw [Mem.length_setStorage] at hfresh₁ hlast
    obtain ⟨rfl, hkeep₃, ⟨added, hfresh, hholds₃⟩, hmade⟩ :=
      hcore.suffix hsuffix hT₁ hvalid.1 hvalid.2 hstop hrun hpost
    have hkeep₀ : Keeps mem mem₁ loc := (keeps_setStorage mem loc 0).trans hkeep₁
    have hkeep := (hkeep₀.trans hkeep₃).trans (keeps_setStorage mem₃ loc storage')
    have hholds : Holds (mem₃.setStorage loc storage') (loc :: ((added ++ stars₁) ++ post))
        ((Declarator.mk stars core suffix).built T).1 := by
      rw [List.append_assoc]
      exact hholds₃.setStorage loc storage'
    have hbuilt : Built mem (mem₃.setStorage loc storage') loc ret post
        ((Declarator.mk stars core suffix).built T) := by
      refine ⟨hkeep, added ++ stars₁, fun l hl => ?_, hholds, ?_⟩
      · rcases List.mem_append.1 hl with hl | hl
        · exact Nat.le_trans hkeep₀.length_le (hfresh l hl)
        · exact hfresh₁ l hl
      · rw [hret]
        cases hempty : stars.isEmpty with
        | true => simp [Declarator.built, hempty]
        | false =>
          -- the cell of the first pointer sign is the last one that was added
          have hlen := hholds.chain.length_eq
          have hlen₀ := hT.chain.length_eq
          have hpos : ((Declarator.mk stars core suffix).built T).2 = (added ++ stars₁).length := by
            rw [List.length_cons, List.length_append] at hlen
            rw [List.length_cons] at hlen₀
            simp only [Declarator.built, hempty, Bool.false_eq_true, if_false] at hlen ⊢
            omega
          have hget : (loc :: (added ++ stars₁)).getLast? = some mem.length := by
            have hlast := hlast hempty
            cases stars₁ with
            | nil => cases hlast
            | cons x xs =>
              rw [← List.cons_append, List.getLast?_append, hlast]
              rfl
          rw [hpos, ← Nat.add_sub_cancel (added ++ stars₁).length 1, ← List.length_cons (a := loc),
            ← List.getLast?_eq_getElem?, hget]
          simp
    have hself : Builds cx (.mk stars core suffix) T
        ((mem₃.setStorage loc storage').readType loc) :=
      ⟨_, _, _, _, _, _, _, _, _, hT, hvalid, hstop, hwhole, rfl⟩
    refine ⟨rfl, hbuilt, ?_⟩
    rw [Declarator.calls]
    exact List.forall_mem_cons.2 ⟨⟨_, hself⟩, hmade⟩

mutual

theorem Declarator.runs : (d : Declarator) → d.Runs
  | .mk stars core suffix => Declarator.runs_mk stars core.runs suffix.runs

theorem Core.runs : (core : Core) → core.Runs
  | .ident v => Core.runs_ident v
  | .abstract => Core.runs_abstract
  | .paren d => Core.runs_paren d.runs

theorem Suffix.runs : (suffix : Suffix) → suffix.Runs
  | .none => Suffix.runs_none
  | .arrays b bs => Suffix.runs_arrays b bs
  | .func ps => Suffix.runs_func ps.runs

theorem Params.runs : (ps : Params) → ps.Runs
  | .empty => Params.runs_empty
  | .void b => Params.runs_void b
  | .list ps ellipsis => Params.runs_list ps.runs ellipsis

theorem ParamList.runs : (ps : ParamList) → ps.Runs
  | .single b d => ParamList.runs_single b d.runs
  | .cons b d ps => ParamList.runs_cons b d.runs ps.runs

end

/-! ## The type of a declaration -/

theorem Built.readType_eq {mem mem' : Mem} {loc ret : Nat} {post : List Nat} {R : Ty × Nat}
    (h : Built mem mem' loc ret post R) : mem'.readType loc = R.1 := by
  obtain ⟨added, -, hholds, -⟩ := h.holds
  exact hholds.readType

theorem Builds.eq_built {cx : Cx} {d : Declarator} {T T' : Ty} (h : Builds cx d T T') :
    T' = (d.built T).1 := by
  obtain ⟨fuel, mem, mem', loc, post, td, toks, v, ret, hT, hvalid, hstop, hrun, rfl⟩ := h
  obtain ⟨-, hbuilt, -⟩ := d.runs cx fuel _ _ _ _ post T td _ _ _ hT hvalid hstop hrun
  exact hbuilt.readType_eq

/-- Runs of calls give the types of C exactly when the calls are right. -/
theorem Made.right_iff {cx : Cx} {calls : List (Declarator × Ty)} (h : Made cx calls) :
    (∀ p ∈ calls, ∀ T', Builds cx p.1 p.2 T' → T' = p.1.cType p.2) ↔ AllRight calls := by
  constructor
  · intro hright p hp
    obtain ⟨T', hT'⟩ := h p hp
    rw [← hT'.eq_built]
    exact hright p hp T' hT'
  · intro hright p hp T' hT'
    rw [hT'.eq_built]
    exact hright p hp

end TccRiscv64.Decl
