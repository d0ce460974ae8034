import Mathlib

/-!
# Slots filled in order

A row of slots, some filled and the rest empty, and the insertion of a filled one at an index by
one pass that keeps the filled slots and then pads (`insertSlot`). `scan` finds the index from a
rank of each filled slot.
-/

namespace Lib

open List

variable {α : Type}

def fill (free : α → Bool) (new : α) (target : Nat) : List α → Nat → List α × Nat
  | [], pos => ([], pos)
  | slot :: rest, pos =>
    let put := if pos = target then [new] else []
    let keep := if free slot then [] else [slot]
    let (out, pos) := fill free new target rest (pos + put.length + keep.length)
    (put ++ keep ++ out, pos)

/-- `fill`, then empty slots up to the old length. -/
def insertSlot (free : α → Bool) (zero new : α) (target : Nat) (slots : List α) : List α :=
  let (out, pos) := fill free new target slots 0
  out ++ (range' pos (slots.length - pos)).map fun p => if p = target then new else zero

variable {free : α → Bool} {zero new : α} {target : Nat}

lemma fill_before : ∀ (filled rest : List α) (pos : Nat), (∀ x ∈ filled, free x = false) →
  pos + filled.length ≤ target → fill free new target (filled ++ rest) pos =
    (filled ++ (fill free new target rest (pos + filled.length)).1,
      (fill free new target rest (pos + filled.length)).2)
  | [], _, _, _, _ => rfl
  | x :: filled, rest, pos, hfree, hle => by
    rw [length_cons] at hle
    have hx := hfree x mem_cons_self
    have hih := fill_before filled rest (pos + 1) (fun y hy => hfree y (mem_cons_of_mem _ hy))
      (by omega)
    have hnext : pos + 1 + filled.length = pos + (x :: filled).length := by
      rw [length_cons]
      omega
    rw [hnext] at hih
    simp only [cons_append, fill, if_neg (show pos ≠ target by omega), hx, length_nil,
      length_singleton, Nat.add_zero, nil_append, Bool.false_eq_true, if_false]
    rw [hih]

lemma fill_after : ∀ (filled : List α) (k pos : Nat), (∀ x ∈ filled, free x = false) →
  free zero = true → target < pos →
  fill free new target (filled ++ replicate k zero) pos = (filled, pos + filled.length)
  | [], 0, _, _, _, _ => rfl
  | [], k + 1, pos, hfree, hzero, hlt => by
    have hih := fill_after [] k pos hfree hzero hlt
    simp only [nil_append, length_nil, Nat.add_zero] at hih ⊢
    simp only [replicate_succ, fill, if_neg (show pos ≠ target by omega), hzero, if_true,
      length_nil, Nat.add_zero, hih, nil_append]
  | x :: filled, k, pos, hfree, hzero, hlt => by
    have hx := hfree x mem_cons_self
    have hih := fill_after filled k (pos + 1) (fun y hy => hfree y (mem_cons_of_mem _ hy))
      hzero (by omega)
    simp only [cons_append, fill, if_neg (show pos ≠ target by omega), hx, length_nil,
      Nat.add_zero, nil_append, Bool.false_eq_true, if_false, hih, length_cons]
    rw [show pos + (filled.length + 1) = pos + 1 + filled.length by omega]

/-- **One insertion.** -/
theorem insertSlot_eq {before after : List α} {k : Nat} (hzero : free zero = true)
  (hbefore : ∀ x ∈ before, free x = false) (hafter : ∀ x ∈ after, free x = false)
  (htarget : before.length = target) :
  insertSlot free zero new target (before ++ after ++ replicate (k + 1) zero) =
    before ++ new :: after ++ replicate k zero := by
  subst htarget
  have hrest : fill free new before.length (after ++ replicate (k + 1) zero) before.length =
      (new :: after, before.length + 1 + after.length) := by
    cases after with
    | nil =>
      have hdrop := @fill_after α free zero new before.length [] k (before.length + 1)
        (fun _ h => absurd h not_mem_nil) hzero (by omega)
      simp only [nil_append] at hdrop ⊢
      simp [replicate_succ, fill, hzero, hdrop]
    | cons x after =>
      have hx := hafter x mem_cons_self
      have hdrop := @fill_after α free zero new before.length after (k + 1) (before.length + 1 + 1)
        (fun y hy => hafter y (mem_cons_of_mem _ hy)) hzero (by omega)
      have hpos : before.length + [new].length + [x].length = before.length + 1 + 1 := rfl
      have hend : before.length + 1 + (x :: after).length =
          before.length + 1 + 1 + after.length := by
        rw [length_cons]
        omega
      simp only [cons_append, fill, if_true, hx, Bool.false_eq_true, if_false,
        nil_append, hpos, hdrop, hend]
  have hall := @fill_before α free new before.length before
    (after ++ replicate (k + 1) zero) 0 hbefore (by omega)
  rw [Nat.zero_add, hrest] at hall
  have hpad : ((range' (before.length + 1 + after.length) k).map fun p =>
      if p = before.length then new else zero) = replicate k zero := by
    refine eq_replicate_iff.mpr ⟨by simp, fun y hy => ?_⟩
    obtain ⟨p, hp, rfl⟩ := mem_map.mp hy
    have := (mem_range'_1.mp hp).1
    rw [if_neg (by omega)]
  have hlen : (before ++ after ++ replicate (k + 1) zero).length -
      (before.length + 1 + after.length) = k := by
    simp only [length_append, length_replicate]
    omega
  rw [insertSlot, append_assoc, hall]
  dsimp only
  rw [← append_assoc, hlen, hpad]

/-- The number of filled slots before the first whose rank is above `mine`. -/
def scan (rank : α → Option Nat) (mine : Nat) : List α → Nat → Nat
  | [], index => index
  | slot :: rest, index =>
    match rank slot with
    | none => scan rank mine rest index
    | some r => if mine < r then index else scan rank mine rest (index + 1)

variable {rank : α → Option Nat} {mine : Nat}

lemma scan_none : ∀ (l : List α) (index : Nat), (∀ x ∈ l, rank x = none) →
  scan rank mine l index = index
  | [], _, _ => rfl
  | x :: l, index, h => by
    rw [scan, h x mem_cons_self]
    exact scan_none l index fun y hy => h y (mem_cons_of_mem _ hy)

/-- **The index is found.** -/
theorem scan_eq {after zeros : List α} (hafter : ∀ x ∈ after, ∃ r, rank x = some r ∧ mine < r)
  (hzeros : ∀ x ∈ zeros, rank x = none) : ∀ (before : List α) (index : Nat),
  (∀ x ∈ before, ∃ r, rank x = some r ∧ r ≤ mine) →
  scan rank mine (before ++ after ++ zeros) index = index + before.length
  | [], index, _ => by
    cases after with
    | nil => exact scan_none zeros index hzeros
    | cons x after =>
      obtain ⟨r, hr, hlt⟩ := hafter x mem_cons_self
      simp [scan, hr, hlt]
  | x :: before, index, hbefore => by
    obtain ⟨r, hr, hle⟩ := hbefore x mem_cons_self
    have hih := scan_eq hafter hzeros before (index + 1) fun y hy =>
      hbefore y (mem_cons_of_mem _ hy)
    simp only [cons_append, scan, hr, if_neg (Nat.not_lt.mpr hle), hih, length_cons]
    omega

end Lib
