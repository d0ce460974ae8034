import Mathlib.Data.Nat.Basic

/-!
# Loops with a result

A loop whose body either ends with a result or goes on with a new state, run for a number of
rounds (`iterate`).
-/

namespace Lib

variable {σ ρ : Type} {step : σ → ρ ⊕ σ}

def iterate (step : σ → ρ ⊕ σ) : Nat → σ → Option ρ
  | 0, _ => none
  | rounds + 1, s =>
    match step s with
    | .inl r => some r
    | .inr s' => iterate step rounds s'

def Terminates (f : Nat → Option ρ) : Prop := ∃ n r, ∀ k, n ≤ k → f k = some r

lemma iterate_mono {r : ρ} : ∀ {n k : Nat} {s : σ}, iterate step n s = some r → n ≤ k →
  iterate step k s = some r
  | 0, _, _, h, _ => by cases h
  | n + 1, 0, _, _, hle => absurd hle (Nat.not_succ_le_zero n)
  | n + 1, k + 1, s, h, hle => by
    rw [iterate] at h ⊢
    cases hs : step s with
    | inl r' =>
      rw [hs] at h
      exact h
    | inr s' =>
      rw [hs] at h
      exact iterate_mono h (Nat.le_of_succ_le_succ hle)

/-- **The last state of a run** keeps what every round keeps. -/
theorem iterate_result {I : σ → Prop} (hstep : ∀ s s', I s → step s = .inr s' → I s') {r : ρ} :
  ∀ {n : Nat} {s : σ}, I s → iterate step n s = some r → ∃ s', I s' ∧ step s' = .inl r
  | 0, _, _, h => by cases h
  | n + 1, s, hI, h => by
    rw [iterate] at h
    cases hs : step s with
    | inl r' =>
      rw [hs] at h
      exact ⟨s, hI, by rw [hs, Option.some_inj.mp h]⟩
    | inr s' =>
      rw [hs] at h
      exact iterate_result hstep (hstep s s' hI hs) h

variable {μ : σ → Nat}

lemma iterate_total (hstep : ∀ s s', step s = .inr s' → μ s' < μ s) :
  ∀ {n : Nat} {s : σ}, μ s < n → ∃ r, iterate step n s = some r
  | 0, _, h => absurd h (Nat.not_lt_zero _)
  | n + 1, s, h => by
    rw [iterate]
    cases hs : step s with
    | inl r => exact ⟨r, rfl⟩
    | inr s' => exact iterate_total hstep (by have := hstep s s' hs; omega)

/-- **A loop whose measure falls has a result.** -/
theorem Terminates.of_measure (hstep : ∀ s s', step s = .inr s' → μ s' < μ s) (s : σ) :
  Terminates fun n => iterate step n s := by
  obtain ⟨r, hr⟩ := iterate_total hstep (Nat.lt_succ_self (μ s))
  exact ⟨_, r, fun k hk => iterate_mono hr hk⟩

end Lib
