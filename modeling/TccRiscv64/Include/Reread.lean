import TccRiscv64.Include.Guard

set_option autoImplicit false

/-! # An include that is skipped

To skip a file by its guard is to read it once more: the macros, the tokens and the groups that are
open come out the same. A file that is skipped by `#pragma once` alone is one that reading would
change something. -/

namespace TccRiscv64.Include

variable {Key Def Tok Name Path : Type} [DecidableEq Key] [DecidableEq Path]
  {cfg : Config Key Def Tok Name Path} {st st' st'' : State Key Def Tok Name Path}

theorem Steps.trans (h : Steps cfg st st') (h' : Steps cfg st' st'') : Steps cfg st st'' := by
  induction h with
  | refl st => exact h'
  | head hstep hsteps ih => exact .head hstep (ih h')

theorem Steps.one (h : step cfg st = .ok (some st')) : Steps cfg st st' :=
  .head h (.refl st')

/-- The state behind a line with tokens, as `preprocess` gets it. -/
def State.behind (st : State Key Def Tok Name Path) (lines : List (Line Key Def Tok Name Path)) :
    State Key Def Tok Name Path :=
  { st with file := { st.file with lines, bof := false, endif := false } }

/-! ## Reading a guarded file -/

section Reading

variable {before body after rest : List (Line Key Def Tok Name Path)}

/-- Lines without tokens are read. -/
theorem steps_blank (hlines : st.file.lines = before ++ rest) (hskip : st.file.skip = none)
    (hblank : before.all Line.isBlank = true) :
    Steps cfg st { st with file := { st.file with lines := rest } } := by
  induction before generalizing st with
  | nil =>
      rw [List.nil_append] at hlines
      subst hlines
      exact .refl st
  | cons line before ih =>
      rw [List.all_cons, Bool.and_eq_true] at hblank
      have hread : readLine cfg { st with file.lines := before ++ rest } line =
          .ok { st with file.lines := before ++ rest } := by
        cases line with
        | text toks =>
            cases toks with
            | nil => rfl
            | cons tok toks => exact absurd hblank.1 (by simp [Line.isBlank])
        | directive d =>
            cases d with
            | tokLinefeed => rfl
            | _ => exact absurd hblank.1 (by simp [Line.isBlank])
      refine .head ((step_cons_iff hlines).mpr (.inl ⟨hskip, hread⟩)) ?_
      exact ih rfl hskip hblank.2

/-- The lines of a group are skipped; the depth follows how they are nested. -/
theorem steps_skip {a b : Nat} (hlines : st.file.lines = body ++ rest)
    (hskip : st.file.skip = some a) (hnest : nesting a body = some b) :
    Steps cfg st { st with file := { st.file with lines := rest, skip := some b } } := by
  induction body generalizing st a with
  | nil =>
      obtain rfl := Option.some.inj hnest
      rw [List.nil_append] at hlines
      rw [← hlines, ← hskip]
      exact .refl st
  | cons line body ih =>
      -- what the line does, and from which depth the rest is nested
      obtain ⟨a', hread, hnest'⟩ : ∃ a',
          preprocessSkip cfg { st with file.lines := body ++ rest } a line =
            .ok { st with file := { st.file with lines := body ++ rest, skip := some a' } } ∧
          nesting a' body = some b := by
        cases line with
        | text toks => exact ⟨a, by rw [preprocessSkip, ← hskip], hnest⟩
        | directive d =>
            rw [nesting] at hnest
            rw [preprocessSkip]
            split at hnest
            · next hopens =>
                refine ⟨a + 1, ?_, hnest⟩
                rw [if_neg, if_pos hopens]
                rintro ⟨-, hend⟩
                cases d <;> simp [Directive.opens, Directive.isElse, Directive.isEndif] at hopens hend
            · next hopens =>
                split at hnest
                · next hend =>
                    split at hnest
                    · exact absurd hnest (by simp)
                    · next ha =>
                        exact ⟨a - 1, by rw [if_neg fun h => ha h.1, if_neg hopens, if_pos hend], hnest⟩
                · next hend =>
                    split at hnest
                    · exact absurd hnest (by simp)
                    · next helse =>
                        refine ⟨a, ?_, hnest⟩
                        rw [if_neg, if_neg hopens, if_neg hend, ← hskip]
                        rintro ⟨ha, hor⟩
                        rcases Bool.or_eq_true_iff.mp hor with h | h
                        · exact helse (by rw [h, ha]; rfl)
                        · exact hend h
      refine .head ((step_cons_iff hlines).mpr (.inr ⟨a, hskip, hread⟩)) ?_
      exact ih rfl rfl hnest'

/-- The group that a guard opens, while the macro is defined. -/
theorem step_guard {v : Key} (hlines : st.file.lines = .directive (.tokIfndef v) :: rest)
    (hskip : st.file.skip = none) (hbof : st.file.bof = true) (hv : (st.macros v).isSome = true)
    (hroom : st.ifdefStack.length < ifdefStackSize) :
    step cfg st = .ok (some { st with
      ifdefStack := 0 :: st.ifdefStack
      file := { st.file with
        lines := rest, bof := false, endif := false, ifndefMacro := some v, skip := some 0 } }) := by
  refine (step_cons_iff hlines).mpr (.inl ⟨hskip, ?_⟩)
  rw [readLine, preprocess, hbof, if_pos rfl, hv, Bool.true_or]
  · unfold doIf
    rw [if_neg (Nat.not_le_of_lt hroom)]
    rfl
  · simp

/-- The `#endif` of a guard. -/
theorem step_endif {v : Key} {c : Nat} {stack : List Nat}
    (hlines : st.file.lines = .directive .tokEndif :: rest) (hskip : st.file.skip = some 0)
    (hguard : st.file.ifndefMacro = some v) (hstack : st.ifdefStack = c :: stack)
    (hheight : stack.length = st.file.ifdefStackPtr) :
    step cfg st = .ok (some { st with
      ifdefStack := stack
      file := { st.file with
        lines := rest, ifndefMacroSaved := some v, ifndefMacro := none, endif := true
        skip := none } }) := by
  refine (step_cons_iff hlines).mpr (.inr ⟨0, hskip, ?_⟩)
  rw [preprocessSkip, if_pos ⟨rfl, rfl⟩, preprocess]
  unfold doEndif
  rw [hstack, if_neg (by simp [hheight])]
  change (if st.file.ifndefMacro.isSome = true ∧ stack.length = st.file.ifdefStackPtr then _
    else _) = _
  rw [if_pos ⟨by rw [hguard]; rfl, hheight⟩, ← hguard]
  rfl

/-- A file that is guarded by a macro that is defined is read without effect. -/
theorem steps_guarded {v : Key} {path : Path} {lines : List (Line Key Def Tok Name Path)}
    (hguard : GuardedBy v lines) (hv : (st.macros v).isSome = true)
    (hroom : st.ifdefStack.length < ifdefStackSize) (i : Nat) :
    ∃ cached, Steps cfg (st.push path lines i) { st with cachedIncludes := cached } := by
  obtain ⟨before, body, after, rfl, hbefore, hafter, hnest⟩ := hguard
  refine ⟨addCached cfg path (fun e => { e with ifndefMacro := some v }) st.cachedIncludes, ?_⟩
  refine (steps_blank rfl rfl hbefore).trans (.head (step_guard rfl rfl rfl hv hroom) ?_)
  refine (steps_skip rfl rfl hnest).trans (.head (step_endif rfl rfl rfl rfl rfl) ?_)
  refine (steps_blank (List.append_nil after).symm rfl hafter).trans (.one ?_)
  show endOfFile cfg _ = _
  unfold endOfFile
  rw [if_neg (by simp), if_neg (by simp [State.push, tccOpen])]
  rfl

end Reading

/-! ## Skipping a file -/

omit [DecidableEq Key] in
/-- A file is skipped only by an entry for its path. -/
theorem searchInclude_skipped {path : Path} {e : CachedInclude Key Path} {paths : List (Option Path)}
    {i : Nat} (h : searchInclude cfg st i paths = .ok (.skipped path e)) :
    e ∈ st.cachedIncludes ∧ e.isFor cfg path = true := by
  induction paths generalizing i with
  | nil => exact absurd h (by simp [searchInclude])
  | cons p paths ih =>
      cases p with
      | none => exact ih h
      | some buf =>
          rcases searchInclude_some h with ⟨e', hfind, hfound⟩ | ⟨lines, -, hfound⟩ | hrest
          · injection hfound with hpath he
            rw [hpath, he]
            exact ⟨List.mem_of_find?_eq_some hfind, List.find?_some hfind⟩
          · exact absurd hfound (by simp)
          · exact ih hrest

/-- The effect of a file that is skipped is that of reading it. -/
def SameAsReading (cfg : Config Key Def Tok Name Path) (st : State Key Def Tok Name Path)
    (path : Path) : Prop :=
  ∃ lines, cfg.files path = some lines ∧
    ∀ i, ∃ cached, Steps cfg (st.push path lines i) { st with cachedIncludes := cached }

/-- Every file that is skipped might as well be read. -/
def SkippedLikeRead (cfg : Config Key Def Tok Name Path) : Prop :=
  ∀ st, Reachable cfg st → ∀ doNext name rest path e,
    st.file.lines = .directive (.tokInclude doNext name) :: rest → st.file.skip = none →
    findInclude cfg (st.behind rest) doNext name = .ok (.skipped path e) →
    st.ifdefStack.length < ifdefStackSize → SameAsReading cfg (st.behind rest) path

/-- A guard in the cache is a guard of the file. A file that is skipped leaves the state as it is, and
so does reading it where its guard is defined: there is a group left for it to open. -/
theorem includes_skipped (hnames : cfg.NoLineNames) (hst : Reachable cfg st) :
    (∀ e ∈ st.cachedIncludes, ∀ v, e.ifndefMacro = some v →
      ∃ lines, cfg.files e.filename = some lines ∧ GuardedBy v lines) ∧
    ∀ doNext name rest path e, st.file.lines = .directive (.tokInclude doNext name) :: rest →
      st.file.skip = none → findInclude cfg (st.behind rest) doNext name = .ok (.skipped path e) →
      step cfg st = .ok (some (st.behind rest)) ∧
        ((e.ifndefMacro.bind st.macros).isSome = true → st.ifdefStack.length < ifdefStackSize →
          SameAsReading cfg (st.behind rest) path) := by
  have hcache := (hst.inv hnames).cache
  refine ⟨fun e he v hv => ?_, fun doNext name rest path e hlines hskip hfind => ⟨?_, ?_⟩⟩
  · obtain ⟨lines, hfile, hguard⟩ := hcache e he
    exact ⟨lines, hfile, hguard v hv⟩
  · refine (step_cons_iff hlines).mpr (.inl ⟨hskip, ?_⟩)
    show parseInclude cfg (st.behind rest) doNext name = _
    unfold parseInclude
    rw [hfind]
    rfl
  · intro hdef hroom
    obtain ⟨he, hfor⟩ := searchInclude_skipped hfind
    obtain ⟨lines, hfile, hguard⟩ := hcache e he
    obtain ⟨v, hv⟩ : ∃ v, e.ifndefMacro = some v := by
      cases hguard : e.ifndefMacro with
      | none => exact absurd hdef (by simp [hguard])
      | some v => exact ⟨v, rfl⟩
    rw [hv] at hdef
    refine ⟨lines, ?_, steps_guarded (hguard v hv) hdef hroom⟩
    rw [← hfile]
    exact (CachedInclude.files_of_isFor hfor).symm

/-! ## A file that is included twice -/

/-- Some steps, as far as there are any. -/
def after (cfg : Config Key Def Tok Name Path) : Nat → State Key Def Tok Name Path →
    State Key Def Tok Name Path
  | 0, st => st
  | n + 1, st =>
    match step cfg st with
    | .ok (some st') => after cfg n st'
    | _ => st

theorem steps_after (n : Nat) : Steps cfg st (after cfg n st) := by
  induction n generalizing st with
  | zero => exact .refl st
  | succ n ih =>
      rw [after]
      split
      · next hstep => exact .head hstep ih
      · exact .refl st

theorem Steps.eq_after (h : Steps cfg st st') : ∃ n, st' = after cfg n st := by
  induction h with
  | refl st => exact ⟨0, rfl⟩
  | head hstep hsteps ih =>
      obtain ⟨n, hn⟩ := ih
      exact ⟨n + 1, by rw [after, hstep]; exact hn⟩

abbrev SmallLine := Line Nat Unit Nat Nat Nat

/-- A main file, number 1, that includes file 2 twice. -/
def twiceConfig (lines : List SmallLine) : Config Nat Unit Nat Nat Nat where
  files path := match path with
    | 0 => some []
    | 1 => some [.directive (.tokInclude false 2), .directive (.tokInclude false 2)]
    | 2 => some lines
    | _ => none
  search _ name := [some name]
  samePath p q := p = q
  isHasInclude _ := false
  files_eq p q h := by rw [of_decide_eq_true h]

theorem twice_noLineNames {lines : List SmallLine}
    (h : ∀ name, Line.directive (.tokLine (some name)) ∉ lines) : (twiceConfig lines).NoLineNames := by
  intro path lines' hlines name
  rcases path with _ | _ | _ | path
  · obtain rfl := Option.some.inj hlines
    simp
  · obtain rfl := Option.some.inj hlines
    simp
  · obtain rfl := Option.some.inj hlines
    exact h name
  · exact absurd hlines (by simp [twiceConfig])

/-- The state of the main file behind some steps. -/
def twiceState (lines : List SmallLine) (n : Nat) : State Nat Unit Nat Nat Nat :=
  after (twiceConfig lines) n (preprocessStart (0, [])
    (1, [.directive (.tokInclude false 2), .directive (.tokInclude false 2)]))

theorem twiceState_reachable (lines : List SmallLine) (n : Nat) :
    Reachable (twiceConfig lines) (twiceState lines n) :=
  ⟨(0, []), (1, _), rfl, rfl, steps_after n⟩

/-- A file with a token and no guard. -/
def onceLines : List SmallLine := [.directive .once, .text [7]]

theorem once_not_skippedLikeRead :
    (twiceConfig onceLines).NoLineNames ∧ ¬ SkippedLikeRead (twiceConfig onceLines) := by
  constructor
  · exact twice_noLineNames (by simp [onceLines])
  · intro h
    obtain ⟨lines, hlines, hread⟩ := h (twiceState onceLines 5) (twiceState_reachable _ 5) false 2 []
      2 ⟨2, none, true⟩ rfl rfl rfl (by decide)
    obtain rfl := Option.some.inj hlines
    obtain ⟨cached, hsteps⟩ := hread 0
    obtain ⟨n, hn⟩ := hsteps.eq_after
    have hclosed : (after (twiceConfig onceLines) n
        (((twiceState onceLines 5).behind []).push 2 onceLines 0)).includeStack.length = 0 := by
      rw [← hn]
      rfl
    have hout : (after (twiceConfig onceLines) n
        (((twiceState onceLines 5).behind []).push 2 onceLines 0)).out = [7] := by
      rw [← hn]
      rfl
    -- the file is open until its token has been read again
    rcases n with _ | _ | _ | n
    · exact absurd hclosed (by decide)
    · exact absurd hclosed (by decide)
    · exact absurd hclosed (by decide)
    · have hagain : (after (twiceConfig onceLines) (n + 3)
          (((twiceState onceLines 5).behind []).push 2 onceLines 0)).out = [7, 7] := by
        cases n <;> rfl
      exact absurd (hout.symm.trans hagain) (by decide)

/-- A file with a guard. -/
def guardLines : List SmallLine :=
  [.directive (.tokIfndef 5), .directive (.tokDefine 5 ()), .text [7], .directive .tokEndif]

theorem includes_skipped_twice :
    SameAsReading (twiceConfig guardLines) ((twiceState guardLines 7).behind []) 2 :=
  ((includes_skipped (twice_noLineNames (by simp [guardLines])) (twiceState_reachable _ 7)).2 false 2 [] 2 ⟨2, some 5, false⟩
    rfl rfl rfl).2 rfl (by decide)

end TccRiscv64.Include
