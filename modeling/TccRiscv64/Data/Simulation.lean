import Mathlib.Data.List.Basic

set_option autoImplicit false

/-! # Systems with silent and visible steps

Runs with the events seen on the way, and forward simulations: every run of the implementation has a
run of the specification with the same events. -/

namespace TccRiscv64.Data

/-- States with a step relation; a step without an event is silent. -/
structure System (σ ε : Type) where
  init : σ → Prop
  step : σ → Option ε → σ → Prop

namespace System

variable {σ τ ε : Type}

/-- Finitely many steps, with their events in order. -/
inductive Run (S : System σ ε) : σ → List ε → σ → Prop
  | nil (s : σ) : Run S s [] s
  | snoc {s s' s'' : σ} {tr : List ε} {e : Option ε} (hrun : Run S s tr s')
      (hstep : S.step s' e s'') : Run S s (tr ++ e.toList) s''

variable {S : System σ ε} {A : System τ ε}

theorem Run.single {s s' : σ} {e : Option ε} (h : S.step s e s') : S.Run s e.toList s' := by
  have hrun := (Run.nil (S := S) s).snoc h
  rwa [List.nil_append] at hrun

theorem Run.append {s s' s'' : σ} {tr tr' : List ε} (h : S.Run s tr s') (h' : S.Run s' tr' s'') :
    S.Run s (tr ++ tr') s'' := by
  induction h' with
  | nil => rwa [List.append_nil]
  | snoc _ hstep ih =>
    rw [← List.append_assoc]
    exact ih.snoc hstep

/-- Every step of `S` is a run of `A` with the same event. -/
structure Simulates (S : System σ ε) (A : System τ ε) (R : σ → τ → Prop) : Prop where
  start : ∀ s, S.init s → ∃ a, A.init a ∧ R s a
  step : ∀ s a e s', R s a → S.step s e s' → ∃ a', A.Run a e.toList a' ∧ R s' a'

/-- **Simulation**: a run of `S` is matched by a run of `A` with the same events. -/
theorem Simulates.run {R : σ → τ → Prop} (h : Simulates S A R) {s s' : σ} {tr : List ε} {a : τ}
    (hrun : S.Run s tr s') (hR : R s a) : ∃ a', A.Run a tr a' ∧ R s' a' := by
  induction hrun with
  | nil => exact ⟨a, .nil a, hR⟩
  | snoc _ hstep ih =>
    obtain ⟨a', hrun', hR'⟩ := ih
    obtain ⟨a'', hmatch, hR''⟩ := h.step _ _ _ _ hR' hstep
    exact ⟨a'', hrun'.append hmatch, hR''⟩

/-- A run from a first state of `S` is matched from a first state of `A`. -/
theorem Simulates.traces {R : σ → τ → Prop} (h : Simulates S A R) {s s' : σ} {tr : List ε}
    (hs : S.init s) (hrun : S.Run s tr s') :
    ∃ a a', A.init a ∧ A.Run a tr a' ∧ R s' a' := by
  obtain ⟨a, ha, hR⟩ := h.start s hs
  obtain ⟨a', hrun', hR'⟩ := h.run hrun hR
  exact ⟨a, a', ha, hrun', hR'⟩

end System

end TccRiscv64.Data
