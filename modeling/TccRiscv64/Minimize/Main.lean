import TccRiscv64.Minimize.Ddmin

set_option autoImplicit false

/-! # From the original text to the minimised one

`main` splits a text that the oracle accepts into lines, removes lines until nothing changes, cuts
every line short, and writes the result after a last check of it. -/

namespace TccRiscv64.Minimize

/-! ## Lines of a text -/

/-- The characters besides `\\r` and `\\n` at which `str.splitlines` ends a line. -/
def isBoundary (c : Char) : Bool :=
  c ∈ ['\x0b', '\x0c', '\x1c', '\x1d', '\x1e', '\u0085', '\u2028', '\u2029']

/-- `str.splitlines`, with the line that has been read so far. A text that does not end a line has
its last line ended by the end of the text. -/
def splitlinesFrom (line : Text) : Text → List Text
  | [] => if line = [] then [] else [line]
  | '\r' :: '\n' :: rest => line :: splitlinesFrom [] rest
  | c :: rest =>
    if c = '\n' ∨ c = '\r' ∨ isBoundary c then line :: splitlinesFrom [] rest
    else splitlinesFrom (line ++ [c]) rest

/-- `text.splitlines()`. -/
def splitlines (text : Text) : List Text := splitlinesFrom [] text

/-! ## Trimming -/

/-- The binary search of `trim_line_chars`. -/
def trimSearch (fits : Nat → Bool) (lo hi : Nat) : Nat :=
  if lo < hi then
    if fits ((lo + hi) / 2) then trimSearch fits lo ((lo + hi) / 2)
    else trimSearch fits ((lo + hi) / 2 + 1) hi
  else hi
termination_by hi - lo

/-- The loop of `trim_line_chars`, after the lines of `done`. -/
def trimFrom (interesting : Text → Bool) (done : List Text) : List Text → List Text
  | [] => done
  | line :: rest =>
    let fits := fun mid => interesting (joinLines (done ++ [line.take mid] ++ rest))
    let hi := trimSearch fits 0 line.length
    trimFrom interesting (done ++ [if hi < line.length then line.take hi else line]) rest

/-- `trim_line_chars`. The filter on its result keeps every line. -/
def trimLineChars (interesting : Text → Bool) (lines : List Text) : List Text :=
  (trimFrom interesting [] lines).filter fun _ => true

/-! ## The program -/

/-- How a run ends. -/
inductive Outcome
  /-- the input is not interesting -/
  | exit
  /-- `assert interesting(out)` fails -/
  | assertionError
  /-- `minimized.l` has been written -/
  | written (out : Text)
  deriving DecidableEq, Repr

/-- A run: every list of lines that one part of it has handed to the next one, and its outcome. -/
structure Run where
  handed : List (List Text)
  outcome : Outcome
  deriving DecidableEq, Repr

/-- The loop around `ddmin_lines`, with the lists handed on so far. -/
def fixpoint (interesting : Text → Bool) (handed : List (List Text)) (lines : List Text) :
    List (List Text) × List Text :=
  if ddminLines interesting lines = lines then
    (handed ++ [ddminLines interesting lines], ddminLines interesting lines)
  else
    fixpoint interesting (handed ++ [ddminLines interesting lines]) (ddminLines interesting lines)
termination_by lines.length
decreasing_by
  rename_i h
  have hsub : (ddminLines interesting lines).Sublist lines := ddmin_sublist lines 2 le_rfl
  exact lt_of_le_of_ne hsub.length_le fun hlen => h (hsub.eq_of_length hlen)

/-- `main`. -/
def main (interesting : Text → Bool) (text : Text) : Run :=
  if interesting text then
    let lines := splitlines text
    let (handed, lines) := fixpoint interesting [lines] lines
    let lines := trimLineChars interesting lines
    let out := joinLines lines
    ⟨handed ++ [lines], if interesting out then .written out else .assertionError⟩
  else ⟨[], .exit⟩

/-- Every list of lines handed on has an interesting text, and one such text is written. -/
def Run.Safe (interesting : Text → Bool) (run : Run) : Prop :=
  (∀ lines ∈ run.handed, interesting (joinLines lines) = true) ∧
    ∃ out, run.outcome = .written out ∧ interesting out = true

/-! ## What every part keeps -/

section Parts

variable {interesting : Text → Bool}

theorem ddminLines_interesting {lines : List Text} (h : interesting (joinLines lines) = true) :
    interesting (joinLines (ddminLines interesting lines)) = true := by
  by_cases hne : lines = []
  · have hnil : ddminLines interesting lines = [] := by
      rw [hne]
      exact List.eq_nil_of_sublist_nil (ddmin_sublist [] 2 le_rfl)
    rwa [hnil, ← hne]
  · exact (ddmin_accepts (fun ls => interesting (joinLines ls)) 2 le_rfl ⟨hne, h⟩).2

theorem fixpoint_interesting {handed : List (List Text)} {lines : List Text}
    (hh : ∀ ls ∈ handed, interesting (joinLines ls) = true)
    (h : interesting (joinLines lines) = true) :
    (∀ ls ∈ (fixpoint interesting handed lines).1, interesting (joinLines ls) = true) ∧
      interesting (joinLines (fixpoint interesting handed lines).2) = true := by
  induction handed, lines using fixpoint.induct interesting with
  | case1 handed lines hsame =>
      have hd := ddminLines_interesting h
      rw [fixpoint, if_pos hsame]
      refine ⟨fun ls hls => ?_, hd⟩
      rcases List.mem_append.mp hls with hmem | hmem
      · exact hh ls hmem
      · rw [List.mem_singleton.mp hmem]
        exact hd
  | case2 handed lines hdiff ih =>
      have hd := ddminLines_interesting h
      rw [fixpoint, if_neg hdiff]
      refine ih (fun ls hls => ?_) hd
      rcases List.mem_append.mp hls with hmem | hmem
      · exact hh ls hmem
      · rw [List.mem_singleton.mp hmem]
        exact hd

/-- The lists handed on before are not lost. -/
theorem mem_fixpoint {handed : List (List Text)} {lines ls : List Text} (h : ls ∈ handed) :
    ls ∈ (fixpoint interesting handed lines).1 := by
  induction handed, lines using fixpoint.induct interesting with
  | case1 handed lines hsame =>
      rw [fixpoint, if_pos hsame]
      exact List.mem_append_left _ h
  | case2 handed lines hdiff ih =>
      rw [fixpoint, if_neg hdiff]
      exact ih (List.mem_append_left _ h)

/-- The search ends where it began or at a length that fits. -/
theorem trimSearch_spec (fits : Nat → Bool) (lo hi : Nat) :
    trimSearch fits lo hi = hi ∨ fits (trimSearch fits lo hi) = true := by
  induction lo, hi using trimSearch.induct fits with
  | case1 lo hi hlt hfits ih =>
      rw [trimSearch, if_pos hlt, if_pos hfits]
      rcases ih with h | h
      · rw [h]
        exact Or.inr hfits
      · exact Or.inr h
  | case2 lo hi hlt hfits ih =>
      rw [trimSearch, if_pos hlt, if_neg hfits]
      exact ih
  | case3 lo hi hlt =>
      rw [trimSearch, if_neg hlt]
      exact Or.inl rfl

theorem trimFrom_interesting {done lines : List Text}
    (h : interesting (joinLines (done ++ lines)) = true) :
    interesting (joinLines (trimFrom interesting done lines)) = true := by
  induction lines generalizing done with
  | nil =>
      rw [List.append_nil] at h
      exact h
  | cons line rest ih =>
      rw [trimFrom]
      apply ih
      rw [List.append_assoc, List.singleton_append]
      have hspec := trimSearch_spec
        (fun mid => interesting (joinLines (done ++ [line.take mid] ++ rest))) 0 line.length
      split
      · next hlt =>
          rcases hspec with heq | hfits
          · exact absurd heq (Nat.ne_of_lt hlt)
          · rwa [List.append_assoc, List.singleton_append] at hfits
      · exact h

theorem trimLineChars_interesting {lines : List Text} (h : interesting (joinLines lines) = true) :
    interesting (joinLines (trimLineChars interesting lines)) = true := by
  rw [trimLineChars, List.filter_true]
  exact trimFrom_interesting h

end Parts

/-! ## What the program keeps -/

/-- **A run is safe exactly if the oracle also accepts the text put together from its lines.** The
text itself is all that the oracle has been asked about. -/
theorem main_safe_iff (interesting : Text → Bool) (text : Text) (h : interesting text = true) :
    (main interesting text).Safe interesting ↔
      interesting (joinLines (splitlines text)) = true := by
  constructor
  · intro hsafe
    apply hsafe.1
    rw [main, if_pos h]
    exact List.mem_append_left _ (mem_fixpoint (List.mem_singleton_self _))
  · intro hlines
    have hfirst : ∀ ls ∈ [splitlines text], interesting (joinLines ls) = true := fun ls hls => by
      rwa [List.mem_singleton.mp hls]
    obtain ⟨hhanded, hfix⟩ := fixpoint_interesting hfirst hlines
    have htrim := trimLineChars_interesting hfix
    rw [main, if_pos h]
    refine ⟨fun ls hls => ?_, _, if_pos htrim, htrim⟩
    rcases List.mem_append.mp hls with hmem | hmem
    · exact hhanded ls hmem
    · rw [List.mem_singleton.mp hmem]
      exact htrim

/-- A text whose line is ended. -/
theorem main_safe_ended :
    (main (fun t => t.contains 'a') ['a', '\n']).Safe (fun t => t.contains 'a') ↔
      List.contains (joinLines (splitlines ['a', '\n'])) 'a' = true :=
  main_safe_iff (fun t => t.contains 'a') ['a', '\n'] (by decide)

/-- A text whose last line is not ended, and an oracle that wants it so: what is put together from
lines always ends a line. -/
theorem main_assertion_fails :
    let interesting : Text → Bool := fun t => decide (t = ['a'])
    interesting ['a'] = true ∧ (main interesting ['a']).outcome = .assertionError := by
  intro interesting
  have hjoin : ∀ lines, interesting (joinLines lines) = false := by
    intro lines
    apply decide_eq_false
    intro h
    have hlast := congrArg List.getLast? h
    rw [joinLines, List.getLast?_append] at hlast
    exact absurd (Option.some.inj hlast) (by decide)
  refine ⟨by decide, ?_⟩
  rw [main, if_pos (by decide)]
  exact if_neg (by rw [hjoin]; decide)

/-! ## Texts that are what their lines say -/

theorem joinLines_cons_cons (line next : Text) (rest : List Text) :
    joinLines (line :: next :: rest) = line ++ '\n' :: joinLines (next :: rest) := by
  simp [joinLines, List.intercalate]

/-- No character of a text ends a line but `\\n`. -/
def OnlyNewlines (text : Text) : Prop := ∀ c ∈ text, c ≠ '\r' ∧ isBoundary c = false

theorem splitlinesFrom_cons {line rest : Text} {c : Char} (hr : c ≠ '\r')
    (hb : isBoundary c = false) :
    splitlinesFrom line (c :: rest)
      = if c = '\n' then line :: splitlinesFrom [] rest else splitlinesFrom (line ++ [c]) rest := by
  have hcond : (c = '\n' ∨ c = '\r' ∨ isBoundary c = true) ↔ c = '\n' := by
    constructor
    · rintro (h | h | h)
      · exact h
      · exact absurd h hr
      · exact absurd (h.symm.trans hb) (by decide)
    · exact Or.inl
  rw [splitlinesFrom, if_congr hcond rfl rfl]
  exact fun _ h _ => hr h

theorem splitlinesFrom_ended {body : Text} (hbody : OnlyNewlines body) (line : Text) :
    splitlinesFrom line (body ++ ['\n']) ≠ [] ∧
      joinLines (splitlinesFrom line (body ++ ['\n'])) = line ++ body ++ ['\n'] := by
  induction body generalizing line with
  | nil =>
      have hone : splitlinesFrom line ['\n'] = [line] := by
        rw [splitlinesFrom_cons (by decide) (by decide), if_pos rfl]
        rfl
      rw [List.nil_append, hone, List.append_nil]
      exact ⟨List.cons_ne_nil _ _, by simp [joinLines, List.intercalate]⟩
  | cons c rest ih =>
      obtain ⟨hr, hb⟩ := hbody c List.mem_cons_self
      have hrest : OnlyNewlines rest := fun d hd => hbody d (List.mem_cons_of_mem _ hd)
      rw [List.cons_append, splitlinesFrom_cons hr hb]
      split
      · next hnl =>
          obtain ⟨hne, hjoin⟩ := ih hrest []
          refine ⟨List.cons_ne_nil _ _, ?_⟩
          cases hlines : splitlinesFrom [] (rest ++ ['\n']) with
          | nil => exact absurd hlines hne
          | cons next more =>
              rw [hlines] at hjoin
              rw [joinLines_cons_cons, hjoin, hnl]
              simp
      · obtain ⟨hne, hjoin⟩ := ih hrest (line ++ [c])
        refine ⟨hne, ?_⟩
        rw [hjoin]
        simp

/-- **A text of ended lines is minimised safely under every oracle.** -/
theorem main_safe_of_ended (interesting : Text → Bool) {body : Text} (hbody : OnlyNewlines body)
    (h : interesting (body ++ ['\n']) = true) :
    (main interesting (body ++ ['\n'])).Safe interesting := by
  rw [main_safe_iff interesting _ h, splitlines, (splitlinesFrom_ended hbody []).2]
  exact h

end TccRiscv64.Minimize
