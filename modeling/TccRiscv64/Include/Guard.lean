import TccRiscv64.Include.Machine

set_option autoImplicit false

/-! # Guarded include files

A file is recorded as guarded by a macro only if all of it lies between the `#ifndef` of the macro
and the `#endif` that ends it, with no `#else` or `#elif` in between. To read such a file while the
macro is defined changes nothing, so it may be skipped. -/

namespace TccRiscv64.Include

variable {Key Def Tok Name Path : Type}

/-! ## Guards -/

/-- A line without tokens. -/
def Line.isBlank : Line Key Def Tok Name Path → Bool
  | .text [] => true
  | .directive .tokLinefeed => true
  | _ => false

/-- How deep the groups of some lines are nested behind them, from depth `n` on. There is none if a
line belongs to a group around them. -/
def nesting (n : Nat) : List (Line Key Def Tok Name Path) → Option Nat
  | [] => some n
  | .text _ :: lines => nesting n lines
  | .directive d :: lines =>
    if d.opens then nesting (n + 1) lines
    else if d.isEndif then if n = 0 then none else nesting (n - 1) lines
    else if d.isElse && n = 0 then none
    else nesting n lines

/-- All of a file is in one group, which `#ifndef v` opens. -/
def GuardedBy (v : Key) (lines : List (Line Key Def Tok Name Path)) : Prop :=
  ∃ before body after, lines = before ++ .directive (.tokIfndef v) :: (body ++ .directive .tokEndif :: after) ∧
    before.all Line.isBlank = true ∧ after.all Line.isBlank = true ∧ nesting 0 body = some 0

/-- No `#line` has a name. -/
def Config.NoLineNames (cfg : Config Key Def Tok Name Path) : Prop :=
  ∀ path lines, cfg.files path = some lines → ∀ name, Line.directive (.tokLine (some name)) ∉ lines

section Nesting

variable {n : Nat} {lines lines' : List (Line Key Def Tok Name Path)}
  {d : Directive Key Def Name Path}

theorem nesting_append : nesting n (lines ++ lines') = (nesting n lines).bind (nesting · lines') := by
  induction lines generalizing n with
  | nil => rfl
  | cons line lines ih =>
      cases line with
      | text toks => exact ih
      | directive d =>
          rw [List.cons_append, nesting, nesting]
          split
          · exact ih
          · split
            · split
              · rfl
              · exact ih
            · split
              · rfl
              · exact ih

end Nesting

/-! ## What holds of the files that are being read -/

/-- What has been read of a file since the `#ifndef` at its beginning: `base` groups were open at its
start, `height` are now, and `a` more are skipped. -/
structure InGuard (base height a : Nat) (done : List (Line Key Def Tok Name Path)) (v : Key) :
    Prop where
  above : base < height
  lines : ∃ before body n, done = before ++ .directive (.tokIfndef v) :: body ∧
    before.all Line.isBlank = true ∧ nesting 0 body = some n ∧ n + 1 + base = height + a

/-- What holds of a file of which some lines are done, while `height` groups are open. -/
structure FileInv (cfg : Config Key Def Tok Name Path) (height : Nat)
    (f : BufferedFile Key Def Tok Name Path) (done : List (Line Key Def Tok Name Path)) : Prop where
  content : cfg.files f.trueFilename = some (done ++ f.lines)
  filename : f.filename = f.trueFilename
  height_le : f.ifdefStackPtr ≤ height
  bof : f.bof = true → done.all Line.isBlank = true ∧ height = f.ifdefStackPtr
  skip : f.skip.isSome = true → f.bof = false ∧ f.endif = false
  guard : ∀ v, f.ifndefMacro = some v → InGuard f.ifdefStackPtr height (f.skip.getD 0) done v
  endif : f.endif = true → ∃ v, f.ifndefMacroSaved = some v ∧ GuardedBy v done

/-- The files that are being read, the innermost first. -/
def FilesInv (cfg : Config Key Def Tok Name Path) :
    Nat → List (BufferedFile Key Def Tok Name Path) → Prop
  | _, [] => True
  | height, f :: files => (∃ done, FileInv cfg height f done) ∧ FilesInv cfg f.ifdefStackPtr files

/-- An entry of the cache is about a file, and right about its guard. -/
def CachedInclude.Right (cfg : Config Key Def Tok Name Path) (e : CachedInclude Key Path) : Prop :=
  ∃ lines, cfg.files e.filename = some lines ∧ ∀ v, e.ifndefMacro = some v → GuardedBy v lines

def CacheInv (cfg : Config Key Def Tok Name Path) (cached : List (CachedInclude Key Path)) : Prop :=
  ∀ e ∈ cached, e.Right cfg

/-- What holds of every state of a run. -/
structure Inv (cfg : Config Key Def Tok Name Path) (st : State Key Def Tok Name Path) : Prop where
  cache : CacheInv cfg st.cachedIncludes
  files : FilesInv cfg st.ifdefStack.length (st.file :: st.includeStack)

/-! ## Lines that are done -/

section Done

variable {cfg : Config Key Def Tok Name Path} {base height height' a a' : Nat} {v : Key}
  {f : BufferedFile Key Def Tok Name Path} {done : List (Line Key Def Tok Name Path)}
  {line : Line Key Def Tok Name Path}

theorem InGuard.next (h : InGuard base height a done v) (habove : base < height')
    (hnext : ∀ n, n + 1 + base = height + a →
      ∃ n', nesting n [line] = some n' ∧ n' + 1 + base = height' + a') :
    InGuard base height' a' (done ++ [line]) v := by
  obtain ⟨before, body, n, rfl, hbefore, hnest, hn⟩ := h.lines
  obtain ⟨n', hline, hn'⟩ := hnext n hn
  refine ⟨habove, before, body ++ [line], n', by simp, hbefore, ?_, hn'⟩
  rw [nesting_append, hnest]
  exact hline

/-- The group at the beginning of the file is opened. -/
theorem InGuard.start (hdone : done.all Line.isBlank = true) :
    InGuard base (base + 1) 0 (done ++ [.directive (.tokIfndef v)]) v :=
  ⟨Nat.lt_succ_self base, done, [], 0, rfl, hdone, rfl, by omega⟩

/-- The group at the beginning of the file is ended. -/
theorem InGuard.guardedBy (h : InGuard base height a done v) (hend : height + a = base + 1) :
    GuardedBy v (done ++ [.directive .tokEndif]) := by
  obtain ⟨before, body, n, rfl, hbefore, hnest, hn⟩ := h.lines
  obtain rfl : n = 0 := by omega
  exact ⟨before, body, [], by simp, hbefore, rfl, hnest⟩

theorem GuardedBy.append_blank (h : GuardedBy v done) (hline : line.isBlank = true) :
    GuardedBy v (done ++ [line]) := by
  obtain ⟨before, body, after, rfl, hbefore, hafter, hnest⟩ := h
  refine ⟨before, body, after ++ [line], by simp, hbefore, ?_, hnest⟩
  rw [List.all_append, hafter, List.all_cons, hline]
  rfl

/-- A blank line leaves the file as it is. -/
theorem FileInv.blank {lines : List (Line Key Def Tok Name Path)} (h : FileInv cfg height f done)
    (hf : f.lines = line :: lines) (hline : line.isBlank = true) :
    FileInv cfg height { f with lines } (done ++ [line]) where
  content := by
    rw [List.append_assoc, List.singleton_append, ← hf]
    exact h.content
  filename := h.filename
  height_le := h.height_le
  bof hbof := by
    refine ⟨?_, (h.bof hbof).2⟩
    rw [List.all_append, (h.bof hbof).1, List.all_cons, hline]
    rfl
  skip := h.skip
  guard v hv := by
    refine (h.guard v hv).next (h.guard v hv).above fun n hn => ⟨n, ?_, hn⟩
    cases line with
    | text toks => rfl
    | directive d =>
        cases d with
        | tokLinefeed => rfl
        | _ => exact absurd hline (by simp [Line.isBlank])
  endif hend := by
    obtain ⟨v, hv, hguard⟩ := h.endif hend
    exact ⟨v, hv, hguard.append_blank hline⟩

/-- A file at a line that has tokens: the line is taken off, and the flags are cleared. -/
structure Ready (cfg : Config Key Def Tok Name Path) (height : Nat)
    (f : BufferedFile Key Def Tok Name Path) (isBof : Bool)
    (done : List (Line Key Def Tok Name Path)) (line : Line Key Def Tok Name Path) : Prop where
  content : cfg.files f.trueFilename = some (done ++ line :: f.lines)
  filename : f.filename = f.trueFilename
  height_le : f.ifdefStackPtr ≤ height
  bof : f.bof = false
  endif : f.endif = false
  start : isBof = true → done.all Line.isBlank = true ∧ height = f.ifdefStackPtr
  guard : ∀ v, f.ifndefMacro = some v → InGuard f.ifdefStackPtr height (f.skip.getD 0) done v

theorem FileInv.ready {lines : List (Line Key Def Tok Name Path)} (h : FileInv cfg height f done)
    (hf : f.lines = line :: lines) :
    Ready cfg height { f with lines, bof := false, endif := false } f.bof done line where
  content := by
    rw [← hf]
    exact h.content
  filename := h.filename
  height_le := h.height_le
  bof := rfl
  endif := rfl
  start := h.bof
  guard := h.guard

theorem FileInv.readySkip {lines : List (Line Key Def Tok Name Path)} (h : FileInv cfg height f done)
    (hf : f.lines = line :: lines) (hskip : f.skip.isSome = true) :
    Ready cfg height { f with lines } false done line where
  content := by
    rw [← hf]
    exact h.content
  filename := h.filename
  height_le := h.height_le
  bof := (h.skip hskip).1
  endif := (h.skip hskip).2
  start he := absurd he Bool.false_ne_true
  guard := h.guard

/-- What the line has to keep. -/
theorem Ready.next {isBof e : Bool} {m s : Option Key} {k : Option Nat}
    (h : Ready cfg height f isBof done line) (hle : f.ifdefStackPtr ≤ height')
    (hguard : ∀ v, m = some v → InGuard f.ifdefStackPtr height' (k.getD 0) (done ++ [line]) v)
    (hend : e = true → k = none ∧ ∃ v, s = some v ∧ GuardedBy v (done ++ [line])) :
    FileInv cfg height'
      { f with ifndefMacro := m, ifndefMacroSaved := s, endif := e, skip := k } (done ++ [line]) where
  content := by
    rw [List.append_assoc, List.singleton_append]
    exact h.content
  filename := h.filename
  height_le := hle
  bof hbof := absurd (hbof.symm.trans h.bof) (by decide)
  skip hk := by
    refine ⟨h.bof, ?_⟩
    rw [← Bool.not_eq_true]
    intro he
    have hk : k.isSome = true := hk
    rw [(hend he).1] at hk
    exact absurd hk (by decide)
  guard := hguard
  endif he := (hend he).2

/-- A line that belongs to no group. -/
theorem Ready.stays {isBof : Bool} (h : Ready cfg height f isBof done line)
    (hline : ∀ n, nesting n [line] = some n) : FileInv cfg height f (done ++ [line]) := by
  have hnext := h.next (m := f.ifndefMacro) (s := f.ifndefMacroSaved) (e := f.endif) (k := f.skip)
    h.height_le (fun v hv => (h.guard v hv).next (h.guard v hv).above fun n hn => ⟨n, hline n, hn⟩)
    (fun he => absurd (he.symm.trans h.endif) (by decide))
  exact hnext

end Done

/-! ## Directives -/

section Directives

variable [DecidableEq Key] [DecidableEq Path] {cfg : Config Key Def Tok Name Path}
  {st st' : State Key Def Tok Name Path} {isBof : Bool}
  {done : List (Line Key Def Tok Name Path)} {d : Directive Key Def Name Path}

omit [DecidableEq Key] [DecidableEq Path] in
theorem doIf_eq {c : Bool} (h : doIf st c = .ok st') :
    ∃ k : Option Nat, k.getD 0 = 0 ∧ st.ifdefStack.length < ifdefStackSize ∧
      st' = { st with ifdefStack := c.toNat :: st.ifdefStack, file.skip := k } := by
  unfold doIf at h
  split at h
  · exact absurd h (by simp)
  · next hroom =>
      obtain rfl := Except.ok.inj h
      refine ⟨_, ?_, Nat.lt_of_not_le hroom, rfl⟩
      split <;> rfl

/-- What `#else` and `#elif` change, when they do not fail. -/
structure ElseStep (st st' : State Key Def Tok Name Path) : Prop where
  eq : ∃ c c' stack k, st.ifdefStack = c :: stack ∧ k.getD 0 = 0 ∧
    st' = { st with
      ifdefStack := c' :: stack
      file := { st.file with
        ifndefMacro :=
          if st.ifdefStack.length = st.file.ifdefStackPtr + 1 then none else st.file.ifndefMacro
        skip := k } }

omit [DecidableEq Key] [DecidableEq Path] in
theorem testElse_eq {c c' : Nat} {stack : List Nat} (hstack : st.ifdefStack = c :: stack) (b : Nat) :
    ElseStep st (testElse { st with ifdefStack := c' :: stack } b) := by
  refine ⟨c, c', stack, if b % 2 = 1 then none else some 0, hstack, ?_, ?_⟩
  · split <;> rfl
  · unfold testElse testSkip
    rw [hstack]
    dsimp only [List.length_cons]
    split <;> rfl

omit [DecidableEq Key] [DecidableEq Path] in
theorem doElse_step (h : doElse st = .ok st') : ElseStep st st' := by
  unfold doElse at h
  split at h
  · exact absurd h (by simp)
  · next c stack hstack =>
      split at h
      · exact absurd h (by simp)
      · obtain rfl := Except.ok.inj h
        exact testElse_eq hstack _

omit [DecidableEq Key] [DecidableEq Path] in
theorem doElif_step {expr : Macros Key Def → Except String Bool} (h : doElif st expr = .ok st') :
    ElseStep st st' := by
  unfold doElif at h
  split at h
  · exact absurd h (by simp)
  · next c stack hstack =>
      split at h
      · exact absurd h (by simp)
      · split at h
        · obtain rfl := Except.ok.inj h
          have hsame : st = { st with ifdefStack := c :: stack } := by rw [← hstack]
          nth_rewrite 2 [hsame]
          exact testElse_eq hstack _
        · cases hexpr : expr st.macros with
          | error msg =>
              rw [hexpr] at h
              exact absurd h (by simp [Except.bind])
          | ok b =>
              rw [hexpr] at h
              obtain rfl := Except.ok.inj h
              exact testElse_eq hstack _

omit [DecidableEq Key] [DecidableEq Path] in
theorem doEndif_eq (h : doEndif st = .ok st') :
    ∃ c stack, st.ifdefStack = c :: stack ∧ st.file.ifdefStackPtr ≤ stack.length ∧
      st' = if st.file.ifndefMacro.isSome = true ∧ stack.length = st.file.ifdefStackPtr then
          { st with
            ifdefStack := stack
            file := { st.file with
              ifndefMacroSaved := st.file.ifndefMacro, ifndefMacro := none, endif := true
              skip := none } }
        else { st with ifdefStack := stack, file.skip := none } := by
  unfold doEndif at h
  split at h
  · exact absurd h (by simp)
  · next hlt =>
      cases hstack : st.ifdefStack with
      | nil =>
          rw [hstack] at hlt
          exact absurd (Nat.zero_le _) hlt
      | cons c stack =>
          rw [hstack] at h hlt
          refine ⟨c, stack, rfl, by simpa using hlt, ?_⟩
          change (if st.file.ifndefMacro.isSome = true ∧ stack.length = st.file.ifdefStackPtr then _
            else _) = Except.ok st' at h
          by_cases hcond : st.file.ifndefMacro.isSome = true ∧ stack.length = st.file.ifdefStackPtr
          · rw [if_pos hcond] at h ⊢
            exact (Except.ok.inj h).symm
          · rw [if_neg hcond] at h ⊢
            exact (Except.ok.inj h).symm

omit [DecidableEq Key] [DecidableEq Path] in
/-- A group is opened. -/
theorem Ready.doIf {c : Bool} (hr : Ready cfg st.ifdefStack.length st.file isBof done (.directive d))
    (hskip : st.file.skip.getD 0 = 0) (hopens : d.opens = true) (h : doIf st c = .ok st') :
    FileInv cfg st'.ifdefStack.length st'.file (done ++ [.directive d]) := by
  obtain ⟨k, hk, -, rfl⟩ := doIf_eq h
  refine hr.next (Nat.le_succ_of_le hr.height_le) (fun v hv => ?_) fun he => ?_
  · have hin := hr.guard v hv
    refine hin.next (Nat.lt_succ_of_lt hin.above) fun n hn => ⟨n + 1, ?_, ?_⟩
    · rw [nesting, if_pos hopens]
      rfl
    · show n + 1 + 1 + _ = st.ifdefStack.length + 1 + k.getD 0
      omega
  · exact absurd (he.symm.trans hr.endif) (by decide)

omit [DecidableEq Key] [DecidableEq Path] in
/-- The group that an `#ifndef` opens, at the beginning of the file or not. -/
theorem Ready.doIfndef {c : Bool} {v : Key}
    (hr : Ready cfg st.ifdefStack.length st.file isBof done (.directive (.tokIfndef v)))
    (hskip : st.file.skip.getD 0 = 0)
    (h : Include.doIf (if isBof then { st with file.ifndefMacro := some v } else st) c = .ok st') :
    FileInv cfg st'.ifdefStack.length st'.file (done ++ [.directive (.tokIfndef v)]) := by
  cases isBof with
  | false => exact hr.doIf hskip rfl h
  | true =>
      obtain ⟨hdone, hheight⟩ := hr.start rfl
      obtain ⟨k, hk, -, rfl⟩ := doIf_eq h
      refine hr.next (Nat.le_succ_of_le hr.height_le) (fun v' hv => ?_) fun he => ?_
      · obtain rfl := Option.some.inj hv
        show InGuard _ (st.ifdefStack.length + 1) (k.getD 0) _ _
        rw [hk, hheight]
        exact .start hdone
      · exact absurd (he.symm.trans hr.endif) (by decide)

omit [DecidableEq Key] [DecidableEq Path] in
theorem Ready.doElse (hr : Ready cfg st.ifdefStack.length st.file isBof done (.directive d))
    (hskip : st.file.skip.getD 0 = 0) (helse : d.isElse = true) (h : ElseStep st st') :
    FileInv cfg st'.ifdefStack.length st'.file (done ++ [.directive d]) := by
  obtain ⟨c, c', stack, k, hstack, hk, rfl⟩ := h.eq
  have hlen : st.ifdefStack.length = (c' :: stack).length := by rw [hstack]; rfl
  have hle := hr.height_le
  refine hr.next (by rw [← hlen]; exact hle) (fun v hv => ?_) fun he => ?_
  · split at hv
    · exact absurd hv (by simp)
    · next hne =>
        have hin := hr.guard v hv
        refine hin.next (by rw [← hlen]; exact hin.above) fun n hn => ⟨n, ?_, ?_⟩
        · have hn0 : n ≠ 0 := by
            rintro rfl
            omega
          cases d with
          | tokElse | tokElif expr =>
              rw [nesting, if_neg (by simp [Directive.opens]), if_neg (by simp [Directive.isEndif]),
                if_neg (by simp [hn0])]
              rfl
          | _ => exact absurd helse (by simp [Directive.isElse])
        · rw [← hlen]
          omega
  · exact absurd (he.symm.trans hr.endif) (by decide)

omit [DecidableEq Key] [DecidableEq Path] in
theorem Ready.doEndif (hr : Ready cfg st.ifdefStack.length st.file isBof done (.directive .tokEndif))
    (hskip : st.file.skip.getD 0 = 0) (h : Include.doEndif st = .ok st') :
    FileInv cfg st'.ifdefStack.length st'.file (done ++ [.directive .tokEndif]) := by
  obtain ⟨c, stack, hstack, hle, hst'⟩ := doEndif_eq h
  have hlen : st.ifdefStack.length = stack.length + 1 := by rw [hstack]; rfl
  split at hst'
  · next hcond =>
      -- the group may be all of the file
      obtain ⟨hsome, hend⟩ := hcond
      subst hst'
      refine hr.next hle (fun v hv => absurd hv (by simp)) fun _ => ⟨rfl, ?_⟩
      obtain ⟨v, hv⟩ := Option.isSome_iff_exists.mp hsome
      exact ⟨v, hv, (hr.guard v hv).guardedBy (by omega)⟩
  · next hcond =>
      subst hst'
      refine hr.next hle (fun v hv => ?_) fun he => absurd (he.symm.trans hr.endif) (by decide)
      have hin := hr.guard v hv
      obtain ⟨-, -, n, -, -, -, hn⟩ := hin.lines
      have hdeep : st.file.ifdefStackPtr < stack.length := by
        have hne : stack.length ≠ st.file.ifdefStackPtr := fun heq =>
          hcond ⟨by rw [hv]; rfl, heq⟩
        omega
      refine hin.next hdeep fun n hn => ⟨n - 1, ?_, ?_⟩
      · rw [nesting, if_neg (by simp [Directive.opens]),
          if_pos (show Directive.tokEndif.isEndif = true from rfl), if_neg (by omega)]
        rfl
      · show n - 1 + 1 + _ = stack.length + 0
        omega

end Directives

/-! ## The cache -/

section Cache

variable [DecidableEq Path] {cfg : Config Key Def Tok Name Path} {filename : Path}
  {cached : List (CachedInclude Key Path)} {e : CachedInclude Key Path}
  {f : CachedInclude Key Path → CachedInclude Key Path}

/-- An entry that is taken for a path is about the file with that path. -/
theorem CachedInclude.files_of_isFor (h : e.isFor cfg filename = true) :
    cfg.files e.filename = cfg.files filename := by
  unfold CachedInclude.isFor at h
  rcases Bool.or_eq_true_iff.mp h with heq | hsame
  · rw [of_decide_eq_true heq]
  · exact (cfg.files_eq _ _ (Bool.and_eq_true_iff.mp hsame).2).symm

theorem mem_modifyCached {e' : CachedInclude Key Path}
    (h : e' ∈ modifyCached cfg filename f cached) :
    e' ∈ cached ∨ ∃ e ∈ cached, e.isFor cfg filename = true ∧ e' = f e := by
  induction cached with
  | nil => exact absurd h (by simp [modifyCached])
  | cons e cached ih =>
      rw [modifyCached] at h
      split at h
      · next hfor =>
          rcases List.mem_cons.mp h with rfl | hmem
          · exact .inr ⟨e, by simp, hfor, rfl⟩
          · exact .inl (List.mem_cons_of_mem e hmem)
      · rcases List.mem_cons.mp h with rfl | hmem
        · exact .inl (by simp)
        · rcases ih hmem with hold | ⟨e₁, he₁, hfor, heq⟩
          · exact .inl (List.mem_cons_of_mem e hold)
          · exact .inr ⟨e₁, List.mem_cons_of_mem e he₁, hfor, heq⟩

/-- The cache stays right if the entries for the path that is added do. -/
theorem CacheInv.add {lines : List (Line Key Def Tok Name Path)} (h : CacheInv cfg cached)
    (hlines : cfg.files filename = some lines)
    (hf : ∀ e : CachedInclude Key Path, e.isFor cfg filename = true → e.Right cfg → (f e).Right cfg) :
    CacheInv cfg (addCached cfg filename f cached) := by
  intro e' he'
  unfold addCached at he'
  split at he'
  · rcases mem_modifyCached he' with hold | ⟨e, he, hfor, rfl⟩
    · exact h e' hold
    · exact hf e hfor (h e he)
  · rcases List.mem_cons.mp he' with rfl | hold
    · refine hf _ ?_ ⟨lines, hlines, fun v hv => absurd hv (by simp)⟩
      simp [CachedInclude.isFor]
    · exact h e' hold

theorem CacheInv.once {lines : List (Line Key Def Tok Name Path)} (h : CacheInv cfg cached)
    (hlines : cfg.files filename = some lines) :
    CacheInv cfg (addCached cfg filename (fun e => { e with once := true }) cached) :=
  h.add hlines fun _ _ hright => hright

/-- The guard of a file is recorded. -/
theorem CacheInv.guard {lines : List (Line Key Def Tok Name Path)} {v : Key}
    (h : CacheInv cfg cached) (hlines : cfg.files filename = some lines) (hguard : GuardedBy v lines) :
    CacheInv cfg (addCached cfg filename (fun e => { e with ifndefMacro := some v }) cached) := by
  refine h.add hlines fun e hfor _ => ⟨lines, ?_, fun v' hv' => ?_⟩
  · rw [← hlines]
    exact CachedInclude.files_of_isFor hfor
  · obtain rfl := Option.some.inj hv'
    exact hguard

end Cache

/-! ## Steps -/

section Runs

variable [DecidableEq Key] [DecidableEq Path] {cfg : Config Key Def Tok Name Path}
  {st st' : State Key Def Tok Name Path} {isBof : Bool}
  {done : List (Line Key Def Tok Name Path)} {d : Directive Key Def Name Path}
  {line : Line Key Def Tok Name Path}

/-- What the directives of a group leave as it is. -/
structure Frame (st st' : State Key Def Tok Name Path) : Prop where
  cachedIncludes : st'.cachedIncludes = st.cachedIncludes
  includeStack : st'.includeStack = st.includeStack
  ifdefStackPtr : st'.file.ifdefStackPtr = st.file.ifdefStackPtr

omit [DecidableEq Key] [DecidableEq Path] in
theorem doIf_frame {c : Bool} (h : doIf st c = .ok st') : Frame st st' := by
  obtain ⟨k, -, -, rfl⟩ := doIf_eq h
  exact ⟨rfl, rfl, rfl⟩

omit [DecidableEq Key] [DecidableEq Path] in
theorem ElseStep.frame (h : ElseStep st st') : Frame st st' := by
  obtain ⟨c, c', stack, k, -, -, rfl⟩ := h.eq
  exact ⟨rfl, rfl, rfl⟩

omit [DecidableEq Key] [DecidableEq Path] in
theorem doEndif_frame (h : doEndif st = .ok st') : Frame st st' := by
  obtain ⟨c, stack, -, -, rfl⟩ := doEndif_eq h
  split
  · exact ⟨rfl, rfl, rfl⟩
  · exact ⟨rfl, rfl, rfl⟩

omit [DecidableEq Key] in
/-- What is found at a path. -/
theorem searchInclude_some {buf : Path} {paths : List (Option Path)} {i : Nat}
    {found : Found Key Def Tok Name Path}
    (h : searchInclude cfg st i (some buf :: paths) = .ok found) :
    (∃ e, searchCachedInclude cfg buf st.cachedIncludes = some e ∧ found = .skipped buf e) ∨
      (∃ lines, cfg.files buf = some lines ∧ found = .opened buf lines i) ∨
      searchInclude cfg st (i + 1) paths = .ok found := by
  rw [searchInclude] at h
  cases hfind : searchCachedInclude cfg buf st.cachedIncludes with
  | none =>
      rw [hfind] at h
      cases hbuf : cfg.files buf with
      | none =>
          rw [hbuf] at h
          exact .inr (.inr h)
      | some lines =>
          rw [hbuf] at h
          exact .inr (.inl ⟨lines, rfl, (Except.ok.inj h).symm⟩)
  | some e =>
      rw [hfind] at h
      dsimp only at h
      split at h
      · exact .inl ⟨e, rfl, (Except.ok.inj h).symm⟩
      · cases hbuf : cfg.files buf with
        | none =>
            rw [hbuf] at h
            exact .inr (.inr h)
        | some lines =>
            rw [hbuf] at h
            exact .inr (.inl ⟨lines, rfl, (Except.ok.inj h).symm⟩)

omit [DecidableEq Key] in
/-- A file that is found can be opened. -/
theorem files_of_searchInclude {path : Path} {lines : List (Line Key Def Tok Name Path)} {j : Nat}
    {paths : List (Option Path)} {i : Nat}
    (h : searchInclude cfg st i paths = .ok (.opened path lines j)) :
    cfg.files path = some lines := by
  induction paths generalizing i with
  | nil => exact absurd h (by simp [searchInclude])
  | cons p paths ih =>
      cases p with
      | none => exact ih h
      | some buf =>
          rcases searchInclude_some h with ⟨e, -, hfound⟩ | ⟨lines', hbuf, hfound⟩ | hrest
          · exact absurd hfound (by simp)
          · injection hfound with hpath hlines
            rw [hpath, hlines]
            exact hbuf
          · exact ih hrest

omit [DecidableEq Key] in
theorem parseInclude_eq {doNext : Bool} {name : Name} (h : parseInclude cfg st doNext name = .ok st') :
    (∃ path e, findInclude cfg st doNext name = .ok (.skipped path e) ∧ st' = st) ∨
      ∃ path lines i, cfg.files path = some lines ∧ st' = st.push path lines i := by
  unfold parseInclude at h
  cases hfind : findInclude cfg st doNext name with
  | error msg =>
      rw [hfind] at h
      exact absurd h (by simp [Except.bind])
  | ok found =>
      rw [hfind] at h
      cases found with
      | skipped path e => exact .inl ⟨path, e, rfl, (Except.ok.inj h).symm⟩
      | opened path lines i =>
          change (if _ then _ else _) = Except.ok st' at h
          split at h
          · exact absurd h (by simp)
          · exact .inr ⟨path, lines, i, files_of_searchInclude hfind, (Except.ok.inj h).symm⟩

omit [DecidableEq Key] [DecidableEq Path] in
/-- The invariant behind a directive of a group. -/
theorem Inv.of_frame (hcache : CacheInv cfg st.cachedIncludes)
    (hfiles : FilesInv cfg st.file.ifdefStackPtr st.includeStack) (hframe : Frame st st')
    {done' : List (Line Key Def Tok Name Path)}
    (hfile : FileInv cfg st'.ifdefStack.length st'.file done') : Inv cfg st' where
  cache := by
    rw [hframe.cachedIncludes]
    exact hcache
  files := by
    refine ⟨⟨done', hfile⟩, ?_⟩
    rw [hframe.includeStack, hframe.ifdefStackPtr]
    exact hfiles

/-- A directive that is read keeps the invariant. -/
theorem Ready.preprocess (h : preprocess cfg st isBof d = .ok st') (hnames : cfg.NoLineNames)
    (hcache : CacheInv cfg st.cachedIncludes)
    (hfiles : FilesInv cfg st.file.ifdefStackPtr st.includeStack)
    (hr : Ready cfg st.ifdefStack.length st.file isBof done (.directive d))
    (hskip : st.file.skip.getD 0 = 0) : Inv cfg st' := by
  cases d with
  | tokLinefeed | tokDefine v body | tokUndef v =>
      obtain rfl := Except.ok.inj h
      exact ⟨hcache, ⟨_, hr.stays fun n => rfl⟩, hfiles⟩
  | tokInclude doNext name =>
      rcases parseInclude_eq h with ⟨path, e, -, rfl⟩ | ⟨path, lines, i, hlines, rfl⟩
      · exact ⟨hcache, ⟨_, hr.stays fun n => rfl⟩, hfiles⟩
      · refine ⟨hcache, ⟨[], ?_⟩, ⟨_, hr.stays fun n => rfl⟩, hfiles⟩
        exact
          { content := hlines
            filename := rfl
            height_le := Nat.le_refl _
            bof := fun _ => ⟨rfl, rfl⟩
            skip := fun hk => absurd hk Bool.false_ne_true
            guard := fun v hv => absurd hv (by simp [State.push, tccOpen])
            endif := fun he => absurd he Bool.false_ne_true }
  | tokIf expr =>
      cases hexpr : expr st.macros with
      | error msg => exact absurd h (by simp [Include.preprocess, hexpr, Except.bind])
      | ok c =>
          rw [Include.preprocess, hexpr] at h
          exact .of_frame hcache hfiles (doIf_frame h) (hr.doIf hskip rfl h)
  | tokIfdef v => exact .of_frame hcache hfiles (doIf_frame h) (hr.doIf hskip rfl h)
  | tokIfndef v =>
      refine .of_frame hcache hfiles ?_ (hr.doIfndef hskip h)
      cases isBof with
      | false => exact doIf_frame h
      | true =>
          have hframe := doIf_frame h
          exact ⟨hframe.cachedIncludes, hframe.includeStack, hframe.ifdefStackPtr⟩
  | tokElif expr =>
      have hstep := doElif_step h
      exact .of_frame hcache hfiles hstep.frame (hr.doElse hskip rfl hstep)
  | tokElse =>
      have hstep := doElse_step h
      exact .of_frame hcache hfiles hstep.frame (hr.doElse hskip rfl hstep)
  | tokEndif => exact .of_frame hcache hfiles (doEndif_frame h) (hr.doEndif hskip h)
  | tokLine name =>
      obtain rfl := Except.ok.inj h
      cases name with
      | some name => exact absurd (by simp) (hnames _ _ hr.content name)
      | none => exact ⟨hcache, ⟨_, hr.stays fun n => rfl⟩, hfiles⟩
  | once =>
      obtain rfl := Except.ok.inj h
      have hcontent := hr.content
      rw [← hr.filename] at hcontent
      exact ⟨hcache.once hcontent, ⟨_, hr.stays fun n => rfl⟩, hfiles⟩
  | other act =>
      cases hact : act st.macros with
      | error msg => exact absurd h (by simp [Include.preprocess, hact, Except.bind])
      | ok macros =>
          rw [Include.preprocess, hact] at h
          obtain rfl := Except.ok.inj h
          exact ⟨hcache, ⟨_, hr.stays fun n => rfl⟩, hfiles⟩

/-- A line that is skipped keeps the invariant. -/
theorem Ready.preprocessSkip {a : Nat} (h : preprocessSkip cfg st a line = .ok st')
    (hnames : cfg.NoLineNames) (hcache : CacheInv cfg st.cachedIncludes)
    (hfiles : FilesInv cfg st.file.ifdefStackPtr st.includeStack)
    (hr : Ready cfg st.ifdefStack.length st.file false done line) (hskip : st.file.skip = some a) :
    Inv cfg st' := by
  cases line with
  | text toks =>
      obtain rfl := Except.ok.inj h
      exact ⟨hcache, ⟨_, hr.stays fun n => rfl⟩, hfiles⟩
  | directive d =>
      rw [Include.preprocessSkip] at h
      have hin : ∀ v, st.file.ifndefMacro = some v →
          InGuard st.file.ifdefStackPtr st.ifdefStack.length a done v := by
        intro v hv
        have hin := hr.guard v hv
        rw [hskip] at hin
        exact hin
      split at h
      · next hcond =>
          -- the group ends at this line
          refine hr.preprocess h hnames hcache hfiles ?_
          rw [hskip, hcond.1]
          rfl
      · next hcond =>
          split at h
          · next hopens =>
              obtain rfl := Except.ok.inj h
              refine ⟨hcache, ⟨_, hr.next hr.height_le (fun v hv => ?_) fun he => ?_⟩, hfiles⟩
              · refine (hin v hv).next (hin v hv).above fun n hn => ⟨n + 1, ?_, ?_⟩
                · rw [nesting, if_pos hopens]
                  rfl
                · show n + 1 + 1 + st.file.ifdefStackPtr = st.ifdefStack.length + (a + 1)
                  change n + 1 + st.file.ifdefStackPtr = st.ifdefStack.length + a at hn
                  omega
              · exact absurd (he.symm.trans hr.endif) (by decide)
          · next hopens =>
              split at h
              · next hend =>
                  obtain rfl := Except.ok.inj h
                  have ha : a ≠ 0 := by
                    rintro rfl
                    exact hcond ⟨rfl, by rw [hend, Bool.or_true]⟩
                  refine ⟨hcache, ⟨_, hr.next hr.height_le (fun v hv => ?_) fun he => ?_⟩, hfiles⟩
                  · have habove : st.file.ifdefStackPtr < st.ifdefStack.length := (hin v hv).above
                    refine (hin v hv).next habove fun n hn => ⟨n - 1, ?_, ?_⟩
                    · have hn0 : n ≠ 0 := by
                        rintro rfl
                        change 0 + 1 + st.file.ifdefStackPtr = _ at hn
                        omega
                      rw [nesting, if_neg hopens, if_pos hend, if_neg hn0]
                      rfl
                    · show n - 1 + 1 + st.file.ifdefStackPtr = st.ifdefStack.length + (a - 1)
                      omega
                  · exact absurd (he.symm.trans hr.endif) (by decide)
              · next hend =>
                  obtain rfl := Except.ok.inj h
                  refine ⟨hcache, ⟨_, hr.next (m := st.file.ifndefMacro) (k := st.file.skip)
                    hr.height_le (fun v hv => ?_) fun he => ?_⟩, hfiles⟩
                  · rw [hskip]
                    have habove : st.file.ifdefStackPtr < st.ifdefStack.length := (hin v hv).above
                    refine (hin v hv).next habove fun n hn => ⟨n, ?_, hn⟩
                    rw [nesting, if_neg hopens, if_neg hend, if_neg ?_]
                    · rfl
                    · intro helse
                      obtain ⟨helse, hn0⟩ := Bool.and_eq_true_iff.mp helse
                      have hn0 := of_decide_eq_true hn0
                      exact hcond ⟨by omega, by rw [helse, Bool.true_or]⟩
                  · exact absurd (he.symm.trans hr.endif) (by decide)

/-- A step on a line. -/
theorem step_cons_iff {lines : List (Line Key Def Tok Name Path)}
    (hlines : st.file.lines = line :: lines) :
    step cfg st = .ok (some st') ↔
      (st.file.skip = none ∧ readLine cfg { st with file.lines := lines } line = .ok st') ∨
        ∃ a, st.file.skip = some a ∧
          preprocessSkip cfg { st with file.lines := lines } a line = .ok st' := by
  obtain ⟨macros, cached, stack, out, ⟨_, fn, tfn, m, s, ptr, i, bof, endif, skip⟩, files⟩ := st
  subst hlines
  have hmap : ∀ r : Except String (State Key Def Tok Name Path),
      r.map some = .ok (some st') ↔ r = .ok st' := by
    intro r
    cases r with
    | error msg => simp [Except.map]
    | ok st₁ => simp [Except.map]
  cases skip with
  | none => exact (hmap _).trans (by simp)
  | some a => exact (hmap _).trans (by simp)

omit [DecidableEq Key] in
/-- The end of a file keeps the invariant. -/
theorem Inv.endOfFile (hinv : Inv cfg st) (hlines : st.file.lines = [])
    (h : endOfFile cfg st = .ok (some st')) : Inv cfg st' := by
  obtain ⟨⟨done, hfile⟩, hfiles⟩ := hinv.files
  unfold Include.endOfFile at h
  split at h
  · exact absurd h (by simp)
  · split at h
    · exact absurd h (by simp)
    · next hheight =>
        cases hstack : st.includeStack with
        | nil => exact absurd h (by simp [hstack])
        | cons f files =>
            rw [hstack] at h hfiles
            obtain rfl := Option.some.inj (Except.ok.inj h)
            refine ⟨?_, ?_⟩
            · dsimp only
              split
              · next hend =>
                  obtain ⟨v, hv, hguard⟩ := hfile.endif hend
                  rw [hv]
                  refine hinv.cache.guard ?_ hguard
                  rw [hfile.filename, hfile.content, hlines, List.append_nil]
              · exact hinv.cache
            · dsimp only
              rw [Decidable.not_not.mp hheight]
              exact hfiles

/-- A line that is read keeps the invariant. -/
theorem Inv.readLine {lines : List (Line Key Def Tok Name Path)} (hnames : cfg.NoLineNames)
    (hinv : Inv cfg st) (hlines : st.file.lines = line :: lines) (hskip : st.file.skip = none)
    (h : readLine cfg { st with file.lines := lines } line = .ok st') : Inv cfg st' := by
  obtain ⟨⟨done, hfile⟩, hfiles⟩ := hinv.files
  have hr := hfile.ready hlines
  cases line with
  | text toks =>
      cases toks with
      | nil =>
          obtain rfl := Except.ok.inj h
          exact ⟨hinv.cache, ⟨_, hfile.blank hlines rfl⟩, hfiles⟩
      | cons tok toks =>
          obtain rfl := Except.ok.inj h
          exact ⟨hinv.cache, ⟨_, hr.stays fun n => rfl⟩, hfiles⟩
  | directive d =>
      by_cases hblank : d = .tokLinefeed
      · subst hblank
        obtain rfl := Except.ok.inj h
        exact ⟨hinv.cache, ⟨_, hfile.blank hlines rfl⟩, hfiles⟩
      · rw [Include.readLine] at h
        · refine Ready.preprocess h hnames hinv.cache hfiles hr ?_
          dsimp only
          rw [hskip]
          rfl
        · exact hblank

/-- A step keeps the invariant. -/
theorem Inv.step (hnames : cfg.NoLineNames) (hinv : Inv cfg st)
    (h : step cfg st = .ok (some st')) : Inv cfg st' := by
  cases hlines : st.file.lines with
  | nil =>
      unfold Include.step at h
      rw [hlines] at h
      exact hinv.endOfFile hlines h
  | cons line lines =>
      rcases (step_cons_iff hlines).mp h with ⟨hskip, hread⟩ | ⟨a, hskip, hread⟩
      · exact hinv.readLine hnames hlines hskip hread
      · obtain ⟨⟨done, hfile⟩, hfiles⟩ := hinv.files
        have hr := hfile.readySkip hlines (by rw [hskip]; rfl)
        exact Ready.preprocessSkip hread hnames hinv.cache hfiles hr hskip

/-- A run keeps the invariant. -/
theorem Inv.steps (hnames : cfg.NoLineNames) (hinv : Inv cfg st) (h : Steps cfg st st') :
    Inv cfg st' := by
  induction h with
  | refl st => exact hinv
  | head hstep hsteps ih => exact ih (hinv.step hnames hstep)

omit [DecidableEq Key] [DecidableEq Path] in
theorem Inv.preprocessStart {cmdline main : Path × List (Line Key Def Tok Name Path)}
    (hcmdline : cfg.files cmdline.1 = some cmdline.2) (hmain : cfg.files main.1 = some main.2) :
    Inv cfg (preprocessStart cmdline main) := by
  have hopen : ∀ {path : Path} {lines : List (Line Key Def Tok Name Path)},
      cfg.files path = some lines → FileInv cfg 0 (tccOpen path lines 0) [] := fun hlines =>
    { content := hlines
      filename := rfl
      height_le := Nat.le_refl _
      bof := fun _ => ⟨rfl, rfl⟩
      skip := fun hk => absurd hk Bool.false_ne_true
      guard := fun v hv => absurd hv (by simp [tccOpen])
      endif := fun he => absurd he Bool.false_ne_true }
  exact ⟨fun e he => absurd he (by simp [Include.preprocessStart]),
    ⟨[], hopen hcmdline⟩, ⟨[], hopen hmain⟩, trivial⟩

/-- The invariant holds of every state that is reached. -/
theorem Reachable.inv (hnames : cfg.NoLineNames) (h : Reachable cfg st) : Inv cfg st := by
  obtain ⟨cmdline, main, hcmdline, hmain, hsteps⟩ := h
  exact (Inv.preprocessStart hcmdline hmain).steps hnames hsteps

end Runs

end TccRiscv64.Include
