import Mathlib

/-!
# Binary hash trees

Trees over a list of leaves in which a level's last entry is paired with itself if it has no
neighbour. The way two entries are combined is a parameter.
-/

namespace Lib.MerkleTree

open List

variable {α : Type} (combine : α → α → α)

def pairs : List α → List (α × α)
  | [] => []
  | [a] => [(a, a)]
  | a :: b :: rest => (a, b) :: pairs rest

def parents (l : List α) : List α := (pairs l).map fun p => combine p.1 p.2

def level (l : List α) : Nat → List α
  | 0 => l
  | h + 1 => parents combine (level l h)

lemma length_pairs : ∀ l : List α, (pairs l).length = (l.length + 1) / 2
  | [] => by simp [pairs]
  | [_] => by simp [pairs]
  | a :: b :: rest => by
    simp only [pairs, length_cons, length_pairs rest]
    omega

lemma getElem?_pairs : ∀ (l : List α) (i : Nat),
  (pairs l)[i]? = l[2 * i]?.map fun a => (a, l[2 * i + 1]?.getD a)
  | [], i => by simp [pairs]
  | [a], 0 => by simp [pairs]
  | [a], i + 1 => by simp [pairs, show 2 * (i + 1) = 2 * i + 1 + 1 by omega]
  | a :: b :: rest, 0 => by simp [pairs]
  | a :: b :: rest, i + 1 => by
    rw [pairs, getElem?_cons_succ, getElem?_pairs rest i,
      show 2 * (i + 1) = 2 * i + 1 + 1 by omega]
    simp only [getElem?_cons_succ]

lemma getElem?_level_succ (l : List α) (h i : Nat) :
  (level combine l (h + 1))[i]? = (level combine l h)[2 * i]?.map fun a =>
    combine a ((level combine l h)[2 * i + 1]?.getD a) := by
  rw [level, parents, getElem?_map, getElem?_pairs, Option.map_map]
  rfl

lemma ceil_half (n w : Nat) (hw : 0 < w) :
  ((n + w - 1) / w + 1) / 2 = (n + w * 2 - 1) / (w * 2) := by
  rw [← Nat.div_div_eq_div_mul]
  congr 1
  rw [show n + w * 2 - 1 = n + w - 1 + w by omega, Nat.add_div_right _ hw]

lemma length_level (l : List α) (h : Nat) :
  (level combine l h).length = (l.length + 2 ^ h - 1) / 2 ^ h := by
  induction h with
  | zero => simp [level]
  | succ h ih =>
    rw [level, parents, length_map, length_pairs, ih, pow_succ]
    exact ceil_half _ _ (Nat.two_pow_pos h)

def root : List α → Option α
  | [] => none
  | [a] => some a
  | a :: b :: rest => root (parents combine (a :: b :: rest))
termination_by l => l.length
decreasing_by
  simp only [parents, List.length_map, length_pairs, List.length_cons]
  omega

lemma level_parents (l : List α) (h : Nat) :
  level combine (parents combine l) h = level combine l (h + 1) := by
  induction h with
  | zero => rfl
  | succ h ih => exact congrArg (parents combine) ih

lemma root_eq_level : ∀ (h : Nat) (l : List α), (level combine l h).length = 1 →
  (∀ k, k < h → 1 < (level combine l k).length) → root combine l = (level combine l h)[0]?
  | 0, [a], _, _ => by simp [root, level]
  | 0, [], hone, _ => by simp [level] at hone
  | 0, _ :: _ :: _, hone, _ => by simp [level] at hone
  | h + 1, l, hone, habove => by
    have hl := habove 0 (Nat.succ_pos h)
    match l, hl with
    | a :: b :: rest, _ =>
      rw [root, ← level_parents]
      refine root_eq_level h _ (by rwa [level_parents]) fun k hk => ?_
      rw [level_parents]
      exact habove (k + 1) (Nat.succ_lt_succ hk)

def treePairs (l : List α) (height : Nat) : List (α × α) :=
  (List.range height).flatMap fun h => pairs (level combine l h)

lemma mem_treePairs {l : List α} {height h i : Nat} {a : α} (hh : h < height)
  (ha : (level combine l h)[2 * i]? = some a) :
  (a, (level combine l h)[2 * i + 1]?.getD a) ∈ treePairs combine l height := by
  refine mem_flatMap.mpr ⟨h, mem_range.mpr hh, mem_iff_getElem?.mpr ⟨i, ?_⟩⟩
  rw [getElem?_pairs, ha]
  rfl

end Lib.MerkleTree
