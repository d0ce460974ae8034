import Mathlib.Data.List.Basic
import Mathlib.Data.List.Forall2
import Mathlib.Data.List.Induction

/-!
# Computations that can fail

When a chain of `Except` computations succeeds, each of its steps did. The lemmas invert
`bind`, `map`, `mapError` and the monadic loops over lists.
-/

namespace Lib

open List Except

universe u

variable {ε ε' α β : Type*}

@[simp] lemma except_bind_eq_ok {x : Except ε α} {f : α → Except ε β} {b : β} :
  x.bind f = .ok b ↔ ∃ a, x = .ok a ∧ f a = .ok b := by
  cases x <;> simp [Except.bind]

@[simp] lemma except_do_eq_ok {α β : Type u} {x : Except ε α} {f : α → Except ε β} {b : β} :
  (x >>= f) = .ok b ↔ ∃ a, x = .ok a ∧ f a = .ok b :=
  except_bind_eq_ok

variable {a : α}

lemma guard_eq_ok {p : Prop} [Decidable p] {b : α} {e : ε} :
  (if p then Except.ok a else .error e) = .ok b ↔ p ∧ b = a := by
  split
  · rename_i h
    exact ⟨fun hab => ⟨h, (ok.inj hab).symm⟩, fun hab => congrArg Except.ok hab.2.symm⟩
  rename_i h
  exact ⟨nofun, fun hab => absurd hab.1 h⟩

@[simp] lemma except_map_eq_ok {x : Except ε α} {f : α → β} {b : β} :
  x.map f = .ok b ↔ ∃ a, x = .ok a ∧ f a = b := by
  cases x <;> simp [Except.map]

@[simp] lemma except_mapError_eq_ok {x : Except ε α} {f : ε → ε'} :
  x.mapError f = .ok a ↔ x = .ok a := by
  cases x <;> simp [Except.mapError]

lemma forall₂_of_mapM_eq_ok {f : α → Except ε β} : ∀ {l : List α} {r : List β},
  l.mapM f = .ok r → List.Forall₂ (fun a b => f a = .ok b) l r
  | [], r, h => by
    obtain rfl : r = [] := by simpa [pure, Except.pure] using h.symm
    exact .nil
  | a :: l, r, h => by
    rw [mapM_cons] at h
    obtain ⟨b, hb, h⟩ := except_bind_eq_ok.mp h
    obtain ⟨rest, hrest, h⟩ := except_bind_eq_ok.mp h
    obtain rfl := ok.inj h
    exact .cons hb (forall₂_of_mapM_eq_ok hrest)

lemma mapM_eq_ok_map {α β : Type u} {f : α → Except ε β} {g : α → β} {l : List α}
  (h : ∀ a ∈ l, f a = .ok (g a)) : l.mapM f = .ok (l.map g) := by
  induction l with
  | nil => rfl
  | cons a l ih =>
    rw [mapM_cons, except_do_eq_ok]
    refine ⟨g a, h a (mem_cons_self ..), ?_⟩
    rw [ih fun b hb => h b (mem_cons_of_mem _ hb)]
    rfl

end Lib
