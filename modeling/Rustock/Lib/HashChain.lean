import Mathlib.Data.List.Induction
import Mathlib.Data.List.Zip

/-!
# Iterated hashing

A Merkle–Damgård hash folds a compression function over the blocks of its input;
a Merkle branch folds a node function over the siblings of a leaf. What such a
fold commits to depends on which inputs the folded function was really called on,
so collision freedom is stated about those calls and nothing else.
-/

namespace Lib

open List

variable {σ β : Type*}

/-- The pairs `f` is applied to while it is folded over a list from state `s`. -/
def foldCalls (f : σ → β → σ) : σ → List β → List (σ × β)
  | _, [] => []
  | s, b :: bs => (s, b) :: foldCalls f (f s b) bs

def CollisionFreeBetween {α γ : Type*} (f : α → γ) (xs ys : List α) : Prop :=
  ∀ p ∈ List.zip xs.reverse ys.reverse, f p.1 = f p.2 → p.1 = p.2

lemma foldCalls_append (f : σ → β → σ) : ∀ (s : σ) (bs cs : List β),
  foldCalls f s (bs ++ cs) = foldCalls f s bs ++ foldCalls f (bs.foldl f s) cs
  | _, [], _ => rfl
  | s, b :: bs, cs => by simp [foldCalls, foldCalls_append f (f s b) bs cs]

@[simp] lemma length_foldCalls (f : σ → β → σ) : ∀ (s : σ) (bs : List β),
  (foldCalls f s bs).length = bs.length
  | _, [] => rfl
  | s, b :: bs => by simp [foldCalls, length_foldCalls f (f s b) bs]

namespace CollisionFreeBetween

variable {α γ : Type*} {f : α → γ} {xs ys : List α} {x y : α}

lemma last (h : CollisionFreeBetween f (xs ++ [x]) (ys ++ [y])) (hf : f x = f y) : x = y :=
  h (x, y) (by simp) hf

lemma init (h : CollisionFreeBetween f (xs ++ [x]) (ys ++ [y])) :
  CollisionFreeBetween f xs ys := fun p hp => h p (by simp [hp])

lemma of_append {us vs : List α} (h : CollisionFreeBetween f (xs ++ us) (ys ++ vs))
  (hlen : us.length = vs.length) : CollisionFreeBetween f xs ys ∧ CollisionFreeBetween f us vs := by
  have hzip : List.zip (xs ++ us).reverse (ys ++ vs).reverse =
      List.zip us.reverse vs.reverse ++ List.zip xs.reverse ys.reverse := by
    rw [reverse_append, reverse_append, zip_append (by simpa using hlen)]
  unfold CollisionFreeBetween at h
  rw [hzip] at h
  exact ⟨fun p hp => h p (mem_append_right _ hp),
    fun p hp => h p (mem_append_left _ hp)⟩

lemma symm (h : CollisionFreeBetween f xs ys) : CollisionFreeBetween f ys xs := by
  rintro ⟨a, b⟩ hp hf
  have hswap : (b, a) ∈ List.zip xs.reverse ys.reverse := by
    rw [← zip_swap]
    exact List.mem_map_of_mem hp
  exact (h (b, a) hswap hf.symm).symm

lemma refl (f : α → γ) (xs : List α) : CollisionFreeBetween f xs xs := by
  rintro ⟨a, b⟩ hp -
  obtain ⟨i, hi, hget⟩ := mem_iff_getElem.mp hp
  simp only [getElem_zip, Prod.mk.injEq] at hget
  exact hget.1.symm.trans hget.2

end CollisionFreeBetween

variable {f : σ → β → σ}

/-- **A fold commits to its blocks from the end.** If two collision-free folds give
the same result, the one with fewer blocks ran over a suffix of the other's, from
the state the other had reached there. -/
theorem foldl_suffix : ∀ {bs cs : List β} {s t : σ},
  CollisionFreeBetween (fun p : σ × β => f p.1 p.2) (foldCalls f s bs) (foldCalls f t cs) →
  bs.foldl f s = cs.foldl f t → bs.length ≤ cs.length →
  ∃ pre, cs = pre ++ bs ∧ pre.foldl f t = s := by
  intro bs
  induction bs using List.reverseRecOn with
  | nil =>
    intro cs s t _ hfold _
    exact ⟨cs, by simp, hfold.symm⟩
  | append_singleton bs b ih =>
    intro cs s t hcf hfold hlen
    obtain ⟨cs, c, rfl⟩ : ∃ cs' c, cs = cs' ++ [c] := by
      rcases eq_nil_or_concat cs with rfl | ⟨cs', c, rfl⟩
      · simp at hlen
      · exact ⟨cs', c, concat_eq_append⟩
    rw [foldCalls_append, foldCalls_append] at hcf
    simp only [foldl_append, foldl_cons, foldl_nil] at hfold
    -- The last calls agree, so the earlier parts have equal results.
    have hlast := hcf.last hfold
    obtain ⟨hstate, rfl⟩ : bs.foldl f s = cs.foldl f t ∧ b = c := by simpa using hlast
    obtain ⟨pre, rfl, hpre⟩ := ih hcf.init hstate (by simpa using hlen)
    exact ⟨pre, by simp, hpre⟩

lemma foldl_eq_of_length_eq {bs cs : List β} {s t : σ}
  (hcf : CollisionFreeBetween (fun p : σ × β => f p.1 p.2)
    (foldCalls f s bs) (foldCalls f t cs)) (hfold : bs.foldl f s = cs.foldl f t)
  (hlen : bs.length = cs.length) : bs = cs ∧ s = t := by
  obtain ⟨pre, rfl, hpre⟩ := foldl_suffix hcf hfold (Nat.le_of_eq hlen)
  obtain rfl : pre = [] := by simpa using hlen
  exact ⟨rfl, hpre.symm⟩

end Lib
