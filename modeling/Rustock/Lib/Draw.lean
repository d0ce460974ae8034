import Mathlib

/-!
# Drawing without replacement

A partial Fisher–Yates shuffle: at every turn one entry of the pool is swapped to the front, kept,
and the rest of the pool goes on. Which entry is read off a stream of words, each reduced modulo
the size of what is left.
-/

namespace Lib

open List Function

variable {α : Type*}

/-- The entry at `j` of the pool comes first, and the first one takes its place. -/
def pick (x : α) (rest : List α) : Nat → α × List α
  | 0 => (x, rest)
  | j + 1 => (rest.getD j x, rest.set j x)

def draw (words : Nat → Nat) : Nat → Nat → List α → List α
  | _, 0, _ => []
  | _, _ + 1, [] => []
  | pos, want + 1, x :: rest =>
    let picked := pick x rest (words pos % (rest.length + 1))
    picked.1 :: draw words (pos + 1) want picked.2

lemma pick_perm (x : α) (rest : List α) {j : Nat} (hj : j < rest.length + 1) :
  ((pick x rest j).1 :: (pick x rest j).2).Perm (x :: rest) := by
  cases j with
  | zero => exact .refl _
  | succ j =>
    have hlt : j < rest.length := by omega
    show (rest.getD j x :: rest.set j x).Perm (x :: rest)
    rw [getD_eq_getElem _ _ hlt]
    calc (rest[j] :: rest.set j x).Perm (rest[j] :: x :: rest.eraseIdx j) :=
          (set_perm_cons_eraseIdx hlt x).cons _
      _ |>.Perm (x :: rest[j] :: rest.eraseIdx j) := .swap ..
      _ |>.Perm (x :: rest) := (getElem_cons_eraseIdx_perm hlt).cons _

lemma length_pick (x : α) (rest : List α) (j : Nat) : (pick x rest j).2.length = rest.length := by
  cases j <;> simp [pick]

variable {words : Nat → Nat}

lemma draw_congr {words' : Nat → Nat} : ∀ {want pos : Nat} {pool : List α},
    (∀ n, pos ≤ n → n < pos + want → words n = words' n) →
    draw words pos want pool = draw words' pos want pool
  | 0, _, _, _ => by simp [draw]
  | _ + 1, _, [], _ => rfl
  | want + 1, pos, x :: rest, h => by
    rw [draw, draw, h pos le_rfl (by omega)]
    congr 1
    exact draw_congr fun n hlow hhigh => h n (by omega) (by omega)

lemma draw_subperm (words : Nat → Nat) :
  ∀ (want pos : Nat) (pool : List α), (draw words pos want pool).Subperm pool
  | 0, _, _ => by simp [draw]
  | _ + 1, _, [] => by simp [draw]
  | want + 1, pos, x :: rest => by
    have hperm := pick_perm x rest (Nat.mod_lt (words pos) (Nat.succ_pos rest.length))
    exact (subperm_cons _ |>.mpr (draw_subperm words want (pos + 1) _)).trans hperm.subperm

lemma length_draw (words : Nat → Nat) : ∀ {want pos : Nat} {pool : List α}, want ≤ pool.length →
    (draw words pos want pool).length = want
  | 0, _, _, _ => by simp [draw]
  | want + 1, _, [], h => by simp at h
  | want + 1, pos, x :: rest, h => by
    rw [draw, length_cons, length_draw words]
    rw [length_pick]
    simpa using h

variable {pool : List α}

lemma mem_of_mem_draw {want pos : Nat} {x : α} (h : x ∈ draw words pos want pool) : x ∈ pool :=
  (draw_subperm words want pos pool).subset h

lemma nodup_draw {want pos : Nat} (h : pool.Nodup) : (draw words pos want pool).Nodup := by
  obtain ⟨l, hperm, hsub⟩ := draw_subperm words want pos pool
  exact hperm.nodup_iff.mp (h.sublist hsub)

/-- **Every list of different entries is drawn**, by words below the size of the pool. -/
theorem draw_surjective [DecidableEq α] :
  ∀ {target pool : List α} (pos : Nat), target.Nodup → pool.Nodup → target ⊆ pool →
    ∃ words : Nat → Nat, (∀ n, words n ≤ pool.length - 1) ∧
      draw words pos target.length pool = target
  | [], pool, pos, _, _, _ => ⟨fun _ => 0, fun _ => Nat.zero_le _, by simp [draw]⟩
  | t :: target, [], pos, _, _, hsub => by simp at hsub
  | t :: target, x :: rest, pos, htarget, hpool, hsub => by
    obtain ⟨hfresh, htarget⟩ := nodup_cons.mp htarget
    obtain ⟨j, hj, hpicked⟩ : ∃ j, j < rest.length + 1 ∧ (pick x rest j).1 = t := by
      rcases mem_cons.mp (hsub mem_cons_self) with rfl | hmem
      · exact ⟨0, Nat.succ_pos _, rfl⟩
      obtain ⟨i, hi, hget⟩ := mem_iff_getElem.mp hmem
      exact ⟨i + 1, by omega, by rw [pick, getD_eq_getElem _ _ hi, hget]⟩
    have hperm := pick_perm x rest hj
    have hnodup := hperm.nodup_iff.mpr hpool
    have hrest : target ⊆ (pick x rest j).2 := by
      intro y hy
      have hmem := hperm.symm.subset (hsub (mem_cons_of_mem _ hy))
      rcases mem_cons.mp hmem with heq | hmem
      · exact absurd (hpicked ▸ heq ▸ hy) hfresh
      · exact hmem
    obtain ⟨words, hwords, hdraw⟩ :=
      draw_surjective (pos + 1) htarget (nodup_cons.mp hnodup).2 hrest
    rw [length_pick] at hwords
    refine ⟨Function.update words pos j, ?_, ?_⟩
    · intro n
      rw [length_cons]
      by_cases hn : n = pos
      · rw [hn, update_self]
        omega
      rw [update_of_ne hn]
      have := hwords n
      omega
    rw [length_cons, draw, update_self, Nat.mod_eq_of_lt hj, hpicked]
    congr 1
    exact (draw_congr fun n hlow _ => update_of_ne (by omega) _ _).trans hdraw

end Lib
