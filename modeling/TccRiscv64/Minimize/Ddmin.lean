import Mathlib

set_option autoImplicit false

/-! # Delta debugging of a list of lines

`ddmin_lines` removes chunks of a list as long as an oracle accepts what is left. It is stated here
for lists of anything and any oracle on them: the result is accepted, and no single element of it
can go. -/

namespace TccRiscv64.Minimize

section Ddmin

variable {α : Type} (accepts : List α → Bool)

/-- `lines[:i] + lines[i + chunk:]`. -/
def cut (lines : List α) (i chunk : Nat) : List α := lines.take i ++ lines.drop (i + chunk)

theorem cut_sublist (lines : List α) (i chunk : Nat) : (cut lines i chunk).Sublist lines := by
  have hsub : (lines.drop (i + chunk)).Sublist (lines.drop i) := by
    rw [← List.drop_drop]
    exact List.drop_sublist _ _
  have happ := hsub.append_left (lines.take i)
  rwa [List.take_append_drop] at happ

theorem length_cut_lt {lines : List α} {i chunk : Nat} (hi : i < lines.length) (hc : 0 < chunk) :
    (cut lines i chunk).length < lines.length := by
  rw [cut, List.length_append, List.length_take, List.length_drop]
  omega

theorem cut_one (lines : List α) (i : Nat) : cut lines i 1 = lines.eraseIdx i := by
  rw [cut, List.eraseIdx_eq_take_drop_succ]

/-! ## One pass over the list -/

/-- The inner loop: the list that is left, and `reduced`. After a chunk has gone, the next one is
at the same index. -/
def sweep (chunk : Nat) (hc : 0 < chunk) (lines : List α) (reduced : Bool) (i : Nat) :
    List α × Bool :=
  if _hi : i < lines.length then
    if cut lines i chunk ≠ [] ∧ accepts (cut lines i chunk) = true then
      sweep chunk hc (cut lines i chunk) true i
    else
      sweep chunk hc lines reduced (i + chunk)
  else (lines, reduced)
termination_by lines.length - i
decreasing_by
  · have := length_cut_lt _hi hc
    omega
  · omega

section Sweep

variable {accepts} {chunk : Nat} {hc : 0 < chunk}

theorem sweep_sublist (lines : List α) (reduced : Bool) (i : Nat) :
    (sweep accepts chunk hc lines reduced i).1.Sublist lines := by
  induction lines, reduced, i using sweep.induct accepts chunk hc with
  | case1 lines reduced i hi hcut ih =>
      rw [sweep, dif_pos hi, if_pos hcut]
      exact ih.trans (cut_sublist lines i chunk)
  | case2 lines reduced i hi hcut ih =>
      rw [sweep, dif_pos hi, if_neg hcut]
      exact ih
  | case3 lines reduced i hi =>
      rw [sweep, dif_neg hi]

/-- A pass hands on an accepted list that is not empty. -/
theorem sweep_accepts {lines : List α} (reduced : Bool) (i : Nat)
    (h : lines ≠ [] ∧ accepts lines = true) :
    (sweep accepts chunk hc lines reduced i).1 ≠ [] ∧
      accepts (sweep accepts chunk hc lines reduced i).1 = true := by
  induction lines, reduced, i using sweep.induct accepts chunk hc with
  | case1 lines reduced i hi hcut ih =>
      rw [sweep, dif_pos hi, if_pos hcut]
      exact ih hcut
  | case2 lines reduced i hi hcut ih =>
      rw [sweep, dif_pos hi, if_neg hcut]
      exact ih h
  | case3 lines reduced i hi =>
      rw [sweep, dif_neg hi]
      exact h

/-- Once set, `reduced` stays. -/
theorem sweep_reduced {lines : List α} {reduced : Bool} {i : Nat} (hr : reduced = true) :
    (sweep accepts chunk hc lines reduced i).2 = true := by
  induction lines, reduced, i using sweep.induct accepts chunk hc with
  | case1 lines reduced i hi hcut ih =>
      rw [sweep, dif_pos hi, if_pos hcut]
      exact ih rfl
  | case2 lines reduced i hi hcut ih =>
      rw [sweep, dif_pos hi, if_neg hcut]
      exact ih hr
  | case3 lines reduced i hi =>
      rw [sweep, dif_neg hi]
      exact hr

/-- A pass that removes nothing has been refused every chunk from `i` on. -/
theorem sweep_not_reduced {lines : List α} {reduced : Bool} {i : Nat}
    (h : (sweep accepts chunk hc lines reduced i).2 = false) :
    (sweep accepts chunk hc lines reduced i).1 = lines ∧
      ∀ k, i + k * chunk < lines.length →
        ¬(cut lines (i + k * chunk) chunk ≠ [] ∧ accepts (cut lines (i + k * chunk) chunk) = true) := by
  induction lines, reduced, i using sweep.induct accepts chunk hc with
  | case1 lines reduced i hi hcut ih =>
      rw [sweep, dif_pos hi, if_pos hcut, sweep_reduced rfl] at h
      exact absurd h (by decide)
  | case2 lines reduced i hi hcut ih =>
      rw [sweep, dif_pos hi, if_neg hcut] at h ⊢
      obtain ⟨hsame, hrefused⟩ := ih h
      refine ⟨hsame, fun k hk => ?_⟩
      cases k with
      | zero => simpa using hcut
      | succ k =>
          have heq : i + (k + 1) * chunk = i + chunk + k * chunk := by
            rw [Nat.succ_mul]
            omega
          rw [heq] at hk ⊢
          exact hrefused k hk
  | case3 lines reduced i hi =>
      rw [sweep, dif_neg hi]
      refine ⟨rfl, fun k hk => ?_⟩
      omega

/-- A pass that removes something makes the list shorter. -/
theorem sweep_length_lt {lines : List α} {i : Nat}
    (h : (sweep accepts chunk hc lines false i).2 = true) :
    (sweep accepts chunk hc lines false i).1.length < lines.length := by
  generalize hr : false = reduced at h ⊢
  induction lines, reduced, i using sweep.induct accepts chunk hc with
  | case1 lines reduced i hi hcut ih =>
      rw [sweep, dif_pos hi, if_pos hcut]
      have hsub : (sweep accepts chunk hc (cut lines i chunk) true i).1.Sublist (cut lines i chunk) :=
        sweep_sublist _ true i
      have hle := hsub.length_le
      have hlt := length_cut_lt hi hc
      omega
  | case2 lines reduced i hi hcut ih =>
      rw [sweep, dif_pos hi, if_neg hcut] at h ⊢
      exact ih hr h
  | case3 lines reduced i hi =>
      rw [sweep, dif_neg hi] at h
      exact absurd (hr.trans h) (by decide)

end Sweep

/-! ## All passes -/

/-- `chunk = max(1, len(lines) // n)`. -/
def chunkSize (lines : List α) (n : Nat) : Nat := max 1 (lines.length / n)

theorem chunkSize_pos (lines : List α) (n : Nat) : 0 < chunkSize lines n :=
  lt_of_lt_of_le Nat.one_pos (le_max_left _ _)

/-- One pass at granularity `n`. -/
def pass (lines : List α) (n : Nat) : List α × Bool :=
  sweep accepts (chunkSize lines n) (chunkSize_pos lines n) lines false 0

/-- The outer loop at granularity `n`, which never is less than 2. Either the list gets shorter, or
the granularity gets closer to its length. -/
def ddmin (lines : List α) (n : Nat) (hn : 2 ≤ n) : List α :=
  if 2 ≤ lines.length then
    if hred : (pass accepts lines n).2 = true then
      ddmin (pass accepts lines n).1 (max (n - 1) 2) (le_max_right _ _)
    else if hlen : lines.length ≤ n then lines
    else ddmin lines (min (n * 2) lines.length) (by omega)
  else lines
termination_by (lines.length, lines.length - n)
decreasing_by
  · have := sweep_length_lt hred
    exact Prod.Lex.left _ _ this
  · apply Prod.Lex.right
    omega

/-- No single element can be removed, as long as something is left. -/
def OneMinimal (lines : List α) : Prop :=
  ∀ i < lines.length, lines.eraseIdx i ≠ [] → accepts (lines.eraseIdx i) = false

variable {accepts}

theorem ddmin_sublist (lines : List α) (n : Nat) (hn : 2 ≤ n) :
    (ddmin accepts lines n hn).Sublist lines := by
  induction lines, n, hn using ddmin.induct accepts with
  | case1 lines n hn hlen hred ih =>
      rw [ddmin, if_pos hlen, dif_pos hred]
      exact ih.trans (sweep_sublist lines false 0)
  | case2 lines n hn hlen hred hle =>
      rw [ddmin, if_pos hlen, dif_neg hred, dif_pos hle]
  | case3 lines n hn hlen hred hle ih =>
      rw [ddmin, if_pos hlen, dif_neg hred, dif_neg hle]
      exact ih
  | case4 lines n hn hlen =>
      rw [ddmin, if_neg hlen]

theorem ddmin_accepts (accepts : List α → Bool) {lines : List α} (n : Nat) (hn : 2 ≤ n)
    (h : lines ≠ [] ∧ accepts lines = true) :
    ddmin accepts lines n hn ≠ [] ∧ accepts (ddmin accepts lines n hn) = true := by
  induction lines, n, hn using ddmin.induct accepts with
  | case1 lines n hn hlen hred ih =>
      rw [ddmin, if_pos hlen, dif_pos hred]
      exact ih (sweep_accepts false 0 h)
  | case2 lines n hn hlen hred hle =>
      rw [ddmin, if_pos hlen, dif_neg hred, dif_pos hle]
      exact h
  | case3 lines n hn hlen hred hle ih =>
      rw [ddmin, if_pos hlen, dif_neg hred, dif_neg hle]
      exact ih h
  | case4 lines n hn hlen =>
      rw [ddmin, if_neg hlen]
      exact h

/-- The loop is left only after a pass over single elements that removes none. -/
theorem ddmin_oneMinimal (lines : List α) (n : Nat) (hn : 2 ≤ n) :
    OneMinimal accepts (ddmin accepts lines n hn) := by
  induction lines, n, hn using ddmin.induct accepts with
  | case1 lines n hn hlen hred ih =>
      rw [ddmin, if_pos hlen, dif_pos hred]
      exact ih
  | case2 lines n hn hlen hred hle =>
      rw [ddmin, if_pos hlen, dif_neg hred, dif_pos hle]
      have hone : chunkSize lines n = 1 := by
        have hdiv : lines.length / n ≤ 1 := by
          calc lines.length / n ≤ n / n := Nat.div_le_div_right hle
            _ = 1 := Nat.div_self (by omega)
        exact max_eq_left hdiv
      obtain ⟨-, hrefused⟩ := sweep_not_reduced (Bool.not_eq_true _ ▸ hred)
      intro i hi hne
      have hcut := hrefused i (by rw [hone]; omega)
      rw [hone, Nat.zero_add, Nat.mul_one, cut_one] at hcut
      rw [← Bool.not_eq_true]
      exact fun hacc => hcut ⟨hne, hacc⟩
  | case3 lines n hn hlen hred hle ih =>
      rw [ddmin, if_pos hlen, dif_neg hred, dif_neg hle]
      exact ih
  | case4 lines n hn hlen =>
      rw [ddmin, if_neg hlen]
      intro i hi hne
      have hlast : lines.eraseIdx i = [] := by
        apply List.eq_nil_of_length_eq_zero
        rw [List.length_eraseIdx_of_lt hi]
        omega
      exact absurd hlast hne

end Ddmin

/-! ## Lines of text -/

/-- A text, and a line of one without its end. -/
abbrev Text := List Char

/-- `"\n".join(lines) + "\n"`. -/
def joinLines (lines : List Text) : Text := ['\n'].intercalate lines ++ ['\n']

/-- `ddmin_lines`. -/
def ddminLines (interesting : Text → Bool) (lines : List Text) : List Text :=
  ddmin (fun ls => interesting (joinLines ls)) lines 2 le_rfl

/-- **`ddmin_lines` is right for every oracle.** From a list of lines whose text is interesting, some
of them are left whose text still is, and which it no longer is without any single one of them. -/
theorem ddminLines_correct (interesting : Text → Bool) (lines : List Text) (hne : lines ≠ [])
    (h : interesting (joinLines lines) = true) :
    ddminLines interesting lines ≠ [] ∧
      (ddminLines interesting lines).Sublist lines ∧
      interesting (joinLines (ddminLines interesting lines)) = true ∧
      ∀ i < (ddminLines interesting lines).length,
        (ddminLines interesting lines).eraseIdx i ≠ [] →
          interesting (joinLines ((ddminLines interesting lines).eraseIdx i)) = false := by
  obtain ⟨hresult, hint⟩ :=
    ddmin_accepts (fun ls => interesting (joinLines ls)) 2 le_rfl ⟨hne, h⟩
  exact ⟨hresult, ddmin_sublist lines 2 le_rfl, hint, ddmin_oneMinimal lines 2 le_rfl⟩

/-- Two lines of which the second one is wanted. -/
theorem ddminLines_correct_two :
    let interesting : Text → Bool := fun t => t.contains 'b'
    let result := ddminLines interesting [['a'], ['b']]
    result ≠ [] ∧ result.Sublist [['a'], ['b']] ∧ interesting (joinLines result) = true ∧
      ∀ i < result.length, result.eraseIdx i ≠ [] →
        interesting (joinLines (result.eraseIdx i)) = false :=
  ddminLines_correct (fun t => t.contains 'b') [['a'], ['b']] (by decide) (by decide)

end TccRiscv64.Minimize
