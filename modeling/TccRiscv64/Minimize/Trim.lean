import TccRiscv64.Minimize.Main

set_option autoImplicit false

/-! # What trimming leaves of every line

`trim_line_chars` cuts each line by a binary search for the length of its shortest interesting
prefix, with the lines before it already cut. Under every oracle the upper end of the search stays
interesting; that the search ends at the shortest such length needs an oracle that accepts, with a
prefix, all longer ones. -/

namespace TccRiscv64.Minimize

/-! ## The search -/

/-- With a length, all longer ones fit, up to `n`. -/
def UpwardClosed (n : Nat) (fits : Nat → Bool) : Prop :=
  ∀ j k, j ≤ k → k ≤ n → fits j = true → fits k = true

theorem trimSearch_le (fits : Nat → Bool) (lo hi : Nat) : trimSearch fits lo hi ≤ hi := by
  induction lo, hi using trimSearch.induct fits with
  | case1 lo hi hlt hfits ih =>
      rw [trimSearch, if_pos hlt, if_pos hfits]
      exact ih.trans (by omega)
  | case2 lo hi hlt hfits ih =>
      rw [trimSearch, if_pos hlt, if_neg hfits]
      exact ih
  | case3 lo hi hlt =>
      rw [trimSearch, if_neg hlt]

/-- Nothing below the lower end fits, and the search ends where the two ends meet. -/
theorem trimSearch_least {fits : Nat → Bool} {n : Nat} (hclosed : UpwardClosed n fits)
    {lo hi : Nat} (hle : lo ≤ hi) (hn : hi ≤ n) (hlow : ∀ j < lo, fits j = false) :
    ∀ j < trimSearch fits lo hi, fits j = false := by
  induction lo, hi using trimSearch.induct fits with
  | case1 lo hi hlt hfits ih =>
      rw [trimSearch, if_pos hlt, if_pos hfits]
      exact ih (by omega) (by omega) hlow
  | case2 lo hi hlt hfits ih =>
      rw [trimSearch, if_pos hlt, if_neg hfits]
      refine ih (by omega) hn fun j hj => ?_
      -- a length up to the middle that fits would make the middle fit
      rw [← Bool.not_eq_true]
      exact fun hfit => hfits (hclosed j _ (by omega) (by omega) hfit)
  | case3 lo hi hlt =>
      rw [trimSearch, if_neg hlt]
      intro j hj
      exact hlow j (by omega)

/-! ## Every line -/

section Lines

variable (interesting : Text → Bool)

/-- Whether the text is interesting when one of its lines is cut to `k` characters. -/
def cutFits (before : List Text) (line : Text) (after : List Text) (k : Nat) : Bool :=
  interesting (joinLines (before ++ [line.take k] ++ after))

/-- What is left of a line, between the trimmed lines before it and the lines after it. -/
def IsTrimmed (before : List Text) (line : Text) (after : List Text) (result : Text) : Prop :=
  ∃ k ≤ line.length, result = line.take k ∧
    (UpwardClosed line.length (cutFits interesting before line after) →
      IsLeast {j | cutFits interesting before line after j = true} k)

/-- One turn of the loop. -/
def trimLine (before : List Text) (line : Text) (after : List Text) : Text :=
  let hi := trimSearch (cutFits interesting before line after) 0 line.length
  if hi < line.length then line.take hi else line

variable {interesting}

theorem trimFrom_cons (done : List Text) (line : Text) (rest : List Text) :
    trimFrom interesting done (line :: rest) =
      trimFrom interesting (done ++ [trimLine interesting done line rest]) rest := rfl

/-- The line is cut, and the text stays interesting. -/
theorem trimLine_spec {before after : List Text} {line : Text}
    (h : interesting (joinLines (before ++ line :: after)) = true) :
    IsTrimmed interesting before line after (trimLine interesting before line after) ∧
      interesting (joinLines (before ++ trimLine interesting before line after :: after)) =
        true := by
  have hspec := trimSearch_spec (cutFits interesting before line after) 0 line.length
  have hle := trimSearch_le (cutFits interesting before line after) 0 line.length
  have hleast (hclosed : UpwardClosed line.length (cutFits interesting before line after)) :=
    trimSearch_least hclosed (Nat.zero_le _) le_rfl fun j hj => absurd hj (Nat.not_lt_zero j)
  rw [trimLine]
  generalize trimSearch (cutFits interesting before line after) 0 line.length = hi
    at hspec hle hleast
  have htake : (if hi < line.length then line.take hi else line) = line.take hi := by
    split
    · rfl
    · next hlt => rw [List.take_of_length_le (not_lt.1 hlt)]
  have hfits : cutFits interesting before line after hi = true := by
    rcases hspec with rfl | hfit
    · rw [cutFits, List.take_length, List.append_assoc, List.singleton_append]
      exact h
    · exact hfit
  rw [htake]
  constructor
  · refine ⟨hi, hle, rfl, fun hclosed => ⟨hfits, fun j hj => ?_⟩⟩
    by_contra hlt
    exact absurd (hj.symm.trans (hleast hclosed j (not_le.1 hlt))) (by decide)
  · rw [cutFits, List.append_assoc, List.singleton_append] at hfits
    exact hfits

/-- The loop, after the lines of `done`. -/
theorem trimFrom_isTrimmed {done lines : List Text}
    (h : interesting (joinLines (done ++ lines)) = true) :
    ∃ trimmed, trimFrom interesting done lines = done ++ trimmed ∧
      trimmed.length = lines.length ∧
      ∀ i line, lines[i]? = some line → ∃ result, trimmed[i]? = some result ∧
        IsTrimmed interesting (done ++ trimmed.take i) line (lines.drop (i + 1)) result := by
  induction lines generalizing done with
  | nil =>
      refine ⟨[], (List.append_nil done).symm, rfl, fun i line hline => ?_⟩
      cases hline
  | cons line rest ih =>
      obtain ⟨hfirst, hnext⟩ := trimLine_spec h
      rw [trimFrom_cons]
      generalize trimLine interesting done line rest = first at hfirst hnext ⊢
      have hassoc (ls : List Text) : done ++ [first] ++ ls = done ++ first :: ls := by simp
      obtain ⟨trimmed, heq, hlength, hlines⟩ := ih (by rwa [hassoc])
      refine ⟨first :: trimmed, by rw [heq, hassoc], by simp [hlength], fun i l hl => ?_⟩
      cases i with
      | zero =>
          obtain rfl := Option.some.inj hl
          refine ⟨first, rfl, ?_⟩
          rwa [List.take_zero, List.append_nil]
      | succ i =>
          obtain ⟨result, hresult, htrimmed⟩ := hlines i l hl
          refine ⟨result, hresult, ?_⟩
          rwa [hassoc] at htrimmed

end Lines

/-- **`trim_line_chars` under every oracle.** As many interesting lines are left, each of them the
beginning of the line that it was, and the shortest one that is interesting wherever the lengths
that are interesting are upward closed. -/
theorem trimLineChars_correct (interesting : Text → Bool) (lines : List Text)
    (h : interesting (joinLines lines) = true) :
    interesting (joinLines (trimLineChars interesting lines)) = true ∧
      (trimLineChars interesting lines).length = lines.length ∧
      ∀ i line, lines[i]? = some line →
        ∃ result, (trimLineChars interesting lines)[i]? = some result ∧
          IsTrimmed interesting ((trimLineChars interesting lines).take i) line
            (lines.drop (i + 1)) result := by
  have hstart : interesting (joinLines ([] ++ lines)) = true := h
  obtain ⟨trimmed, heq, hlength, hlines⟩ := trimFrom_isTrimmed hstart
  refine ⟨trimLineChars_interesting h, ?_⟩
  rw [trimLineChars, List.filter_true, heq, List.nil_append]
  exact ⟨hlength, hlines⟩

/-- Two lines, of which the end of the first one is not wanted. -/
theorem trimLineChars_correct_two :
    let interesting : Text → Bool := fun t => t.contains 'b'
    let lines := [['a', 'b', 'c'], ['d']]
    interesting (joinLines (trimLineChars interesting lines)) = true ∧
      (trimLineChars interesting lines).length = lines.length ∧
      ∀ i line, lines[i]? = some line →
        ∃ result, (trimLineChars interesting lines)[i]? = some result ∧
          IsTrimmed interesting ((trimLineChars interesting lines).take i) line
            (lines.drop (i + 1)) result :=
  trimLineChars_correct (fun t => t.contains 'b') [['a', 'b', 'c'], ['d']] (by decide)

end TccRiscv64.Minimize
