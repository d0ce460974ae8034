import Mathlib.Data.List.Basic

/-!
# Runs of a transition system

`Run step s₀ hist s`: the system goes from `s₀` to `s` by the steps recorded in `hist`,
newest first, each with the state it was taken in. Properties of runs are proved by
`Run.invariant`, which hands the step lemma the history so far; `Run.mem_split` cuts a run
at one of its steps.
-/

namespace Lib

open List

variable {σ ε : Type*} {step : σ → ε → σ → Prop} {s₀ s s' : σ} {hist : List (σ × ε)}

inductive Run (step : σ → ε → σ → Prop) (s₀ : σ) : List (σ × ε) → σ → Prop where
  | init : Run step s₀ [] s₀
  | step {hist : List (σ × ε)} {s s' : σ} {e : ε} :
      Run step s₀ hist s → step s e s' → Run step s₀ ((s, e) :: hist) s'

namespace Run

/-- **Invariant rule.** What holds at the start and is kept by every step that meets
`good` holds at the end of every run of such steps. -/
theorem invariant {good : σ → ε → Prop} {I : List (σ × ε) → σ → Prop} (hinit : I [] s₀)
  (hstep : ∀ hist s e s', I hist s → good s e → step s e s' → I ((s, e) :: hist) s')
  (hrun : Run step s₀ hist s) (hgood : ∀ p ∈ hist, good p.1 p.2) : I hist s := by
  induction hrun with
  | init => exact hinit
  | @step hist s s' e _ hs ih =>
    have hhist := ih fun p hp => hgood p (mem_cons_of_mem _ hp)
    exact hstep hist s e s' hhist (hgood (s, e) (mem_cons_self ..)) hs

lemma mem_split (hrun : Run step s₀ hist s) {p : σ × ε} (hp : p ∈ hist) :
  ∃ early, (∀ q ∈ early, q ∈ hist) ∧ Run step s₀ early p.1 := by
  induction hrun with
  | init => simp at hp
  | @step hist s s' e hr hs ih =>
    rcases mem_cons.mp hp with rfl | hmem
    · exact ⟨hist, fun q hq => mem_cons_of_mem _ hq, hr⟩
    obtain ⟨early, hsub, hearly⟩ := ih hmem
    exact ⟨early, fun q hq => mem_cons_of_mem _ (hsub q hq), hearly⟩

end Run

end Lib
