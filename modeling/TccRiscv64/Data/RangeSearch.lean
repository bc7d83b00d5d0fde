import Mathlib

set_option autoImplicit false

/-! # Searching among ranges

A list of ranges is searched by halving as long as it is longer than a bound, and from front to back
from then on. The search is right exactly if every range at which it halves lies between those before
it and those behind it. -/

namespace TccRiscv64.Data

section RangeSearch

variable {ι V : Type} {k : Nat} {above below : ι → V → Bool} {inside : ι → V → Bool}

/-- The range that a value is found in; `above` and `below` tell on which side of the middle range it
is. -/
def rangeSearch (k : Nat) (above below inside : ι → V → Bool) (base : List ι) (v : V) : Option ι :=
  if k < base.length then
    match h : base[base.length / 2]? with
    | none => none
    | some p =>
      if above p v then
        rangeSearch k above below inside (base.drop (base.length / 2 + 1)) v
      else if below p v then rangeSearch k above below inside (base.take (base.length / 2)) v
      else some p
  else base.find? fun p => inside p v
termination_by base.length
decreasing_by
  all_goals
    obtain ⟨hlt, -⟩ := List.getElem?_eq_some_iff.mp h
    simp only [List.length_drop, List.length_take]
    omega

/-- The ranges before a middle one are below it, and those behind it above. -/
def Separated (k : Nat) (above below : ι → V → Bool) (contains : ι → V → Prop) (base : List ι) :
    Prop :=
  if k < base.length then
    match h : base[base.length / 2]? with
    | none => True
    | some p =>
      (∀ q ∈ base.take (base.length / 2), ∀ v, contains q v → above p v = false ∧ below p v) ∧
      (∀ q ∈ base.drop (base.length / 2 + 1), ∀ v, contains q v → above p v) ∧
      Separated k above below contains (base.take (base.length / 2)) ∧
      Separated k above below contains (base.drop (base.length / 2 + 1))
  else True
termination_by base.length
decreasing_by
  all_goals
    obtain ⟨hlt, -⟩ := List.getElem?_eq_some_iff.mp h
    simp only [List.length_drop, List.length_take]
    omega

/-- A list that is halved, by its middle. -/
theorem exists_middle {base : List ι} (h : k < base.length) :
    ∃ pre p post, base = pre ++ p :: post ∧ pre.length = base.length / 2 := by
  have hlt : base.length / 2 < base.length := Nat.div_lt_self (by omega) (by decide)
  refine ⟨base.take (base.length / 2), base[base.length / 2], base.drop (base.length / 2 + 1), ?_,
    List.length_take_of_le hlt.le⟩
  rw [List.cons_getElem_drop_succ, List.take_append_drop]

section Middle

variable {pre post : List ι} {p : ι} {v : V}

/-- The parts of a list around its middle. -/
theorem middle_parts (hlen : pre.length = (pre ++ p :: post).length / 2) :
    (pre ++ p :: post)[(pre ++ p :: post).length / 2]? = some p ∧
      (pre ++ p :: post).take ((pre ++ p :: post).length / 2) = pre ∧
      (pre ++ p :: post).drop ((pre ++ p :: post).length / 2 + 1) = post := by
  rw [← hlen]
  refine ⟨?_, List.take_left, ?_⟩
  · rw [List.getElem?_append_right (Nat.le_refl _), Nat.sub_self]
    rfl
  · rw [List.drop_append, List.drop_of_length_le (Nat.le_succ _), Nat.add_sub_cancel_left]
    rfl

theorem rangeSearch_middle (h : k < (pre ++ p :: post).length)
    (hlen : pre.length = (pre ++ p :: post).length / 2) :
    rangeSearch k above below inside (pre ++ p :: post) v =
      if above p v then rangeSearch k above below inside post v
      else if below p v then rangeSearch k above below inside pre v
      else some p := by
  obtain ⟨hget, htake, hdrop⟩ := @middle_parts ι pre post p hlen
  rw [rangeSearch, if_pos h]
  split
  · rename_i hnone
    rw [hget] at hnone
    cases hnone
  · rename_i p' hsome
    rw [hget] at hsome
    obtain rfl := Option.some.inj hsome
    rw [htake, hdrop]

theorem rangeSearch_linear {base : List ι} (h : ¬ k < base.length) :
    rangeSearch k above below inside base v = base.find? fun p => inside p v := by
  rw [rangeSearch, if_neg h]

theorem separated_middle {contains : ι → V → Prop} (h : k < (pre ++ p :: post).length)
    (hlen : pre.length = (pre ++ p :: post).length / 2) :
    Separated k above below contains (pre ++ p :: post) ↔
      (∀ q ∈ pre, ∀ v, contains q v → above p v = false ∧ below p v) ∧
      (∀ q ∈ post, ∀ v, contains q v → above p v) ∧
      Separated k above below contains pre ∧ Separated k above below contains post := by
  obtain ⟨hget, htake, hdrop⟩ := @middle_parts ι pre post p hlen
  rw [Separated, if_pos h]
  split
  · rename_i hnone
    rw [hget] at hnone
    cases hnone
  · rename_i p' hsome
    rw [hget] at hsome
    obtain rfl := Option.some.inj hsome
    rw [htake, hdrop]

theorem separated_linear {contains : ι → V → Prop} {base : List ι} (h : ¬ k < base.length) :
    Separated k above below contains base := by
  rw [Separated, if_neg h]
  trivial

end Middle

/-! ## What the search finds -/

variable {contains : ι → V → Prop}

/-- The comparisons with the bounds of a range say whether it contains a value. -/
structure Bounds (above below inside : ι → V → Bool) (contains : ι → V → Prop) (base : List ι) :
    Prop where
  middle : ∀ p ∈ base, ∀ v, contains p v ↔ above p v = false ∧ below p v = false
  inside : ∀ p ∈ base, ∀ v, inside p v ↔ contains p v

theorem Bounds.mono {base base' : List ι} (h : Bounds above below inside contains base)
    (hsub : ∀ p ∈ base', p ∈ base) : Bounds above below inside contains base' :=
  ⟨fun p hp => h.middle p (hsub p hp), fun p hp => h.inside p (hsub p hp)⟩

/-- Only the comparisons with the ranges of the list matter. -/
theorem rangeSearch_congr {W : Type} {above' below' inside' : ι → W → Bool} {base : List ι} {v : V}
    {w : W} (h : ∀ p ∈ base, above p v = above' p w ∧ below p v = below' p w ∧
      inside p v = inside' p w) :
    rangeSearch k above below inside base v = rangeSearch k above' below' inside' base w := by
  induction hlen : base.length using Nat.strong_induction_on generalizing base with
  | _ n ih =>
    by_cases hk : k < base.length
    · obtain ⟨pre, p, post, rfl, hmid⟩ := exists_middle hk
      rw [List.length_append, List.length_cons] at hlen
      obtain ⟨habove, hbelow, -⟩ := h p (List.mem_append_right _ List.mem_cons_self)
      rw [rangeSearch_middle hk hmid, rangeSearch_middle hk hmid, habove, hbelow,
        ih pre.length (by omega) (fun q hq => h q (List.mem_append_left _ hq)) rfl,
        ih post.length (by omega)
          (fun q hq => h q (List.mem_append_right _ (List.mem_cons_of_mem _ hq))) rfl]
    · rw [rangeSearch_linear hk, rangeSearch_linear hk]
      refine List.find?_congr fun p hp => ?_
      exact (h p hp).2.2

/-- What is found has passed a comparison with its bounds. -/
theorem rangeSearch_some {base : List ι} {v : V} {p : ι}
    (hfound : rangeSearch k above below inside base v = some p) :
    p ∈ base ∧ (above p v = false ∧ below p v = false ∨ inside p v) := by
  induction hlen : base.length using Nat.strong_induction_on generalizing base with
  | _ n ih =>
    by_cases hk : k < base.length
    · obtain ⟨pre, q, post, rfl, hmid⟩ := exists_middle hk
      rw [List.length_append, List.length_cons] at hlen
      rw [rangeSearch_middle hk hmid] at hfound
      split at hfound
      · obtain ⟨hp, hc⟩ := ih post.length (by omega) hfound rfl
        exact ⟨List.mem_append_right _ (List.mem_cons_of_mem _ hp), hc⟩
      · rename_i habove
        split at hfound
        · obtain ⟨hp, hc⟩ := ih pre.length (by omega) hfound rfl
          exact ⟨List.mem_append_left _ hp, hc⟩
        · rename_i hbelow
          obtain rfl := Option.some.inj hfound
          exact ⟨List.mem_append_right _ List.mem_cons_self,
            .inl ⟨Bool.eq_false_of_not_eq_true habove, Bool.eq_false_of_not_eq_true hbelow⟩⟩
    · rw [rangeSearch_linear hk] at hfound
      exact ⟨List.mem_of_find?_eq_some hfound,
        .inr (List.find?_some (p := fun p => inside p v) hfound)⟩

/-- What is found contains the value. -/
theorem contains_of_rangeSearch {base : List ι} (h : Bounds above below inside contains base) {v : V}
    {p : ι} (hfound : rangeSearch k above below inside base v = some p) : p ∈ base ∧ contains p v := by
  obtain ⟨hp, hc | hc⟩ := rangeSearch_some hfound
  · exact ⟨hp, (h.middle p hp v).mpr hc⟩
  · exact ⟨hp, (h.inside p hp v).mp hc⟩

/-- Every value that a range contains is found in that range. -/
def Finds (k : Nat) (above below inside : ι → V → Bool) (contains : ι → V → Prop) (base : List ι) :
    Prop :=
  ∀ v, ∀ q ∈ base, contains q v → rangeSearch k above below inside base v = some q

/-- Ranges that have no value in common. -/
def Disjoint (contains : ι → V → Prop) (base : List ι) : Prop :=
  base.Pairwise fun p q => ∀ v, contains p v → ¬ contains q v

theorem Disjoint.perm {base base' : List ι} (h : Disjoint contains base) (hp : base.Perm base') :
    Disjoint contains base' :=
  (hp.pairwise_iff fun hpq v hq hp => hpq v hp hq).mp h

theorem Disjoint.unique {base : List ι} (h : Disjoint contains base) {p q : ι} (hp : p ∈ base)
    (hq : q ∈ base) {v : V} (hcp : contains p v) (hcq : contains q v) : p = q := by
  by_contra hne
  have hsymm : Std.Symm fun p q : ι => ∀ v, contains p v → ¬ contains q v :=
    ⟨fun _ _ hpq v hq hp => hpq v hp hq⟩
  exact List.Pairwise.forall h hp hq hne v hcp hcq

/-- Of disjoint ranges, only one contains a value. -/
theorem Disjoint.find {base : List ι} (h : Bounds above below inside contains base)
    (hdisj : Disjoint contains base) {v : V} {q : ι} (hq : q ∈ base) (hc : contains q v) :
    base.find? (fun p => inside p v) = some q := by
  induction base with
  | nil => exact absurd hq List.not_mem_nil
  | cons p base ih =>
    obtain ⟨hhead, htail⟩ := List.pairwise_cons.mp hdisj
    rcases List.mem_cons.mp hq with rfl | hq
    · exact List.find?_cons_of_pos ((h.inside q List.mem_cons_self v).mpr hc)
    · have hnot : ¬ inside p v = true := fun hp =>
        hhead q hq v ((h.inside p List.mem_cons_self v).mp hp) hc
      rw [List.find?_cons_of_neg (p := fun p => inside p v) hnot]
      exact ih (h.mono fun _ hp => List.mem_cons_of_mem _ hp) htail hq

/-- The search is right exactly if each range in the middle separates the others. -/
theorem finds_iff_separated {base : List ι} (h : Bounds above below inside contains base)
    (hdisj : Disjoint contains base) :
    Finds k above below inside contains base ↔ Separated k above below contains base := by
  induction hlen : base.length using Nat.strong_induction_on generalizing base with
  | _ n ih =>
    by_cases hk : k < base.length
    · obtain ⟨pre, p, post, rfl, hmid⟩ := exists_middle hk
      rw [List.length_append, List.length_cons] at hlen
      have hpre : ∀ q ∈ pre, q ∈ pre ++ p :: post := fun _ hq => List.mem_append_left _ hq
      have hpost : ∀ q ∈ post, q ∈ pre ++ p :: post := fun _ hq =>
        List.mem_append_right _ (List.mem_cons_of_mem _ hq)
      have hp : p ∈ pre ++ p :: post := List.mem_append_right _ List.mem_cons_self
      obtain ⟨hdpre, hdpost, hcross⟩ := List.pairwise_append.mp hdisj
      obtain ⟨hdp, hdpost⟩ := List.pairwise_cons.mp hdpost
      have ihpre := ih pre.length (by omega) (h.mono hpre) hdpre rfl
      have ihpost := ih post.length (by omega) (h.mono hpost) hdpost rfl
      rw [separated_middle hk hmid, ← ihpre, ← ihpost]
      constructor
      · intro hfinds
        have hleft : ∀ q ∈ pre, ∀ v, contains q v → above p v = false ∧ below p v := by
          intro q hq v hc
          have hnot := fun hcp => hcross q hq p List.mem_cons_self v hc hcp
          rw [h.middle p hp v] at hnot
          have hfound := hfinds v q (hpre q hq) hc
          rw [rangeSearch_middle hk hmid] at hfound
          split at hfound
          · obtain ⟨hq', -⟩ := contains_of_rangeSearch (h.mono hpost) hfound
            exact absurd hc (hcross q hq q (List.mem_cons_of_mem _ hq') v hc)
          · rename_i habove
            have habove := Bool.eq_false_of_not_eq_true habove
            exact ⟨habove, Bool.eq_true_of_not_eq_false fun hbelow => hnot ⟨habove, hbelow⟩⟩
        have hright : ∀ q ∈ post, ∀ v, contains q v → above p v := by
          intro q hq v hc
          have hfound := hfinds v q (hpost q hq) hc
          rw [rangeSearch_middle hk hmid] at hfound
          split at hfound
          · assumption
          · split at hfound
            · obtain ⟨hq', -⟩ := contains_of_rangeSearch (h.mono hpre) hfound
              exact absurd hc (hcross q hq' q (List.mem_cons_of_mem _ hq) v hc)
            · obtain rfl := Option.some.inj hfound
              exact absurd hc (hdp p hq v hc)
        refine ⟨hleft, hright, fun v q hq hc => ?_, fun v q hq hc => ?_⟩
        · have hfound := hfinds v q (hpre q hq) hc
          obtain ⟨habove, hbelow⟩ := hleft q hq v hc
          rw [rangeSearch_middle hk hmid, if_neg (Bool.not_eq_true _ ▸ habove), if_pos hbelow] at hfound
          exact hfound
        · have hfound := hfinds v q (hpost q hq) hc
          rw [rangeSearch_middle hk hmid, if_pos (hright q hq v hc)] at hfound
          exact hfound
      · rintro ⟨hleft, hright, hfpre, hfpost⟩ v q hq hc
        rw [rangeSearch_middle hk hmid]
        rcases List.mem_append.mp hq with hq | hq
        · obtain ⟨habove, hbelow⟩ := hleft q hq v hc
          rw [if_neg (Bool.not_eq_true _ ▸ habove), if_pos hbelow]
          exact hfpre v q hq hc
        · rcases List.mem_cons.mp hq with rfl | hq
          · obtain ⟨habove, hbelow⟩ := (h.middle q hp v).mp hc
            rw [if_neg (Bool.not_eq_true _ ▸ habove), if_neg (Bool.not_eq_true _ ▸ hbelow)]
          · rw [if_pos (hright q hq v hc)]
            exact hfpost v q hq hc
    · refine iff_of_true (fun v q hq hc => ?_) (separated_linear hk)
      rw [rangeSearch_linear hk]
      exact hdisj.find h hq hc

end RangeSearch

end TccRiscv64.Data
