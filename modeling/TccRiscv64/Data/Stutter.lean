import Mathlib.Logic.Relation

set_option autoImplicit false

/-! # Deterministic systems, and simulations that stutter

A step of the source is matched by steps of the target, or by none if a measure gets smaller. Then the
target ends if and only if the source does. -/

namespace TccRiscv64.Data

variable {σ τ : Type}

/-- Some steps of a deterministic system. -/
def Steps (f : σ → Option σ) : σ → σ → Prop := Relation.ReflTransGen fun s s' => f s = some s'

/-- At least one step. -/
def Moves (f : σ → Option σ) : σ → σ → Prop := Relation.TransGen fun s s' => f s = some s'

section Deterministic

variable {f : σ → Option σ} {s s' s'' : σ}

/-- Nothing comes behind an end. -/
theorem Steps.eq_of_end (h : Steps f s s') (hend : f s = none) : s' = s := by
  induction h with
  | refl => rfl
  | tail _ hstep ih =>
    subst ih
    rw [hend] at hstep
    cases hstep

theorem Moves.not_end (h : Moves f s s') : f s ≠ none := by
  induction h with
  | single hstep =>
    rw [hstep]
    exact Option.some_ne_none _
  | tail _ _ ih => exact ih

/-- What is reached from `s`, but for `s` itself, is reached from the next state. -/
theorem Steps.next (h : Steps f s s'') (hstep : f s = some s') : s'' = s ∨ Steps f s' s'' := by
  induction h with
  | refl => exact Or.inl rfl
  | tail _ hlast ih =>
    right
    obtain rfl | hrest := ih
    · rw [hstep] at hlast
      cases hlast
      exact .refl
    · exact hrest.tail hlast

theorem Moves.next (h : Moves f s s'') (hstep : f s = some s') : Steps f s' s'' := by
  induction h with
  | single hlast =>
    rw [hstep] at hlast
    cases hlast
    exact .refl
  | tail _ hlast ih => exact ih.tail hlast

/-- The end of a run is the only one. -/
theorem Steps.end_unique (h : Steps f s s') (hend : f s' = none) (h' : Steps f s s'')
    (hend' : f s'' = none) : s' = s'' := by
  induction h using Relation.ReflTransGen.head_induction_on with
  | refl => exact (h'.eq_of_end hend).symm
  | head hstep _ ih =>
    obtain rfl | hrest := h'.next hstep
    · rw [hend'] at hstep
      cases hstep
    · exact ih hrest

end Deterministic

/-- `R` is kept by the steps of the source. -/
def Stutters (f : σ → Option σ) (g : τ → Option τ) (R : σ → τ → Prop) (μ : σ → Nat) : Prop :=
  ∀ s t s', R s t → f s = some s' →
    ∃ t', R s' t' ∧ (Moves g t t' ∨ Steps g t t' ∧ μ s' < μ s)

section Stutters

variable {f : σ → Option σ} {g : τ → Option τ} {R : σ → τ → Prop} {μ : σ → Nat} {s s' : σ}
  {t t' : τ}

/-- A run of the source is matched by one of the target. -/
theorem Stutters.run (h : Stutters f g R μ) (hrun : Steps f s s') (hR : R s t) :
    ∃ t', R s' t' ∧ Steps g t t' := by
  induction hrun with
  | refl => exact ⟨t, hR, .refl⟩
  | tail _ hstep ih =>
    obtain ⟨t', hR', hsteps⟩ := ih
    obtain ⟨t'', hR'', hmoves | ⟨hsteps', -⟩⟩ := h _ _ _ hR' hstep
    · exact ⟨t'', hR'', hsteps.trans hmoves.to_reflTransGen⟩
    · exact ⟨t'', hR'', hsteps.trans hsteps'⟩

/-- **A run of the target that ends** belongs to one of the source that does. -/
theorem Stutters.ends (h : Stutters f g R μ) (hrun : Steps g t t') (hend : g t' = none)
    (hR : R s t) : ∃ s' u, Steps f s s' ∧ f s' = none ∧ R s' u ∧ Steps g t u := by
  -- for all states on the way to the end, the last one first
  suffices hall : ∀ u, Steps g t u → ∀ s, R s u →
      ∃ s' v, Steps f s s' ∧ f s' = none ∧ R s' v ∧ Steps g u v from hall t .refl s hR
  -- at one of them, steps that do not move end because of the measure
  have hstay : ∀ u, (∀ v, Moves g u v → ∀ s, R s v →
        ∃ s' w, Steps f s s' ∧ f s' = none ∧ R s' w ∧ Steps g v w) → ∀ s, R s u →
      ∃ s' w, Steps f s s' ∧ f s' = none ∧ R s' w ∧ Steps g u w := by
    intro u hlater s
    induction hm : μ s using Nat.strongRecOn generalizing s with
    | ind n ih =>
      subst hm
      intro hR
      cases hstep : f s with
      | none => exact ⟨s, u, .refl, hstep, hR, .refl⟩
      | some s1 =>
        obtain ⟨v, hRv, hmove⟩ := h _ _ _ hR hstep
        have hcases : Moves g u v ∨ v = u ∧ μ s1 < μ s := by
          obtain hmoves | ⟨hsteps, hless⟩ := hmove
          · exact Or.inl hmoves
          · exact (Relation.reflTransGen_iff_eq_or_transGen.1 hsteps).symm.imp id fun h => ⟨h, hless⟩
        obtain hmoves | ⟨rfl, hless⟩ := hcases
        · obtain ⟨s', w, hsteps, hdone, hRw, hw⟩ := hlater v hmoves s1 hRv
          exact ⟨s', w, .head hstep hsteps, hdone, hRw, hmoves.to_reflTransGen.trans hw⟩
        · obtain ⟨s', w, hsteps, hdone, hRw, hw⟩ := ih (μ s1) hless s1 rfl hRv
          exact ⟨s', w, .head hstep hsteps, hdone, hRw, hw⟩
  clear hR
  induction hrun using Relation.ReflTransGen.head_induction_on with
  | refl =>
    intro u hu
    obtain rfl := hu.eq_of_end hend
    exact hstay u fun v hv => absurd hend hv.not_end
  | head hstep _ ih =>
    intro u hu
    obtain rfl | hrest := hu.next hstep
    · exact hstay _ fun v hv => ih v (hv.next hstep)
    · exact ih u hrest

end Stutters

end TccRiscv64.Data
