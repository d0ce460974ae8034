import Mathlib.Tactic.Ring

/-!
# Linear probing

Cells `0 … n - 1` are visited cyclically from a start; each either decides the search or
passes it on. `probe` stops after a given number of cells.
-/

namespace Lib

open Option

namespace Probe

variable {β : Type*} {n : Nat}

/-- The `j`-th cell visited from `start`. -/
def cell (n start j : Nat) : Nat := (start + j) % n

/-- The first outcome among `fuel` cells from `i` on. -/
def probe (n : Nat) (decide : Nat → Option β) : Nat → Nat → Option β
  | 0, _ => none
  | fuel + 1, i =>
    match decide i with
    | some b => some b
    | none => probe n decide fuel ((i + 1) % n)

lemma cell_lt (hn : 0 < n) (start j : Nat) : cell n start j < n := Nat.mod_lt _ hn

variable {start : Nat}

lemma cell_zero (h : start < n) : cell n start 0 = start := Nat.mod_eq_of_lt h

lemma cell_succ (start j : Nat) : cell n ((start + 1) % n) j = cell n start (j + 1) := by
  unfold cell
  rw [Nat.mod_add_mod]
  congr 1
  ring

variable {decide : Nat → Option β}

lemma probe_eq_none_iff {fuel : Nat} (hstart : start < n) :
  probe n decide fuel start = none ↔ ∀ j < fuel, decide (cell n start j) = none := by
  induction fuel generalizing start with
  | zero => simp [probe]
  | succ fuel ih =>
    have hnext : (start + 1) % n < n := Nat.mod_lt _ (Nat.zero_lt_of_lt hstart)
    unfold probe
    rcases hd : decide start with _ | b
    · simp only [ih hnext, cell_succ]
      constructor
      · rintro h (_ | j) hj
        · rwa [cell_zero hstart]
        · exact h j (by omega)
      intro h j hj
      exact h (j + 1) (by omega)
    simp only [reduceCtorEq, false_iff, not_forall]
    exact ⟨0, by omega, by simp [cell_zero hstart, hd]⟩

lemma probe_eq_some_iff {fuel : Nat} (hstart : start < n) {b : β} :
  probe n decide fuel start = some b ↔ ∃ j < fuel, decide (cell n start j) = some b ∧
      ∀ j' < j, decide (cell n start j') = none := by
  induction fuel generalizing start with
  | zero => simp [probe]
  | succ fuel ih =>
    have hnext : (start + 1) % n < n := Nat.mod_lt _ (Nat.zero_lt_of_lt hstart)
    unfold probe
    rcases hd : decide start with _ | b'
    · simp only [ih hnext, cell_succ]
      constructor
      · rintro ⟨j, hj, hb, hbefore⟩
        refine ⟨j + 1, by omega, hb, ?_⟩
        rintro (_ | j') hj'
        · rwa [cell_zero hstart]
        · exact hbefore j' (by omega)
      rintro ⟨_ | j, hj, hb, hbefore⟩
      · rw [cell_zero hstart, hd] at hb
        cases hb
      · exact ⟨j, by omega, hb, fun j' hj' => hbefore (j' + 1) (by omega)⟩
    simp only [some.injEq]
    constructor
    · rintro rfl
      exact ⟨0, by omega, by rw [cell_zero hstart, hd], by omega⟩
    rintro ⟨_ | j, hj, hb, hbefore⟩
    · rw [cell_zero hstart, hd] at hb
      exact some.inj hb
    have h0 := hbefore 0 (by omega)
    rw [cell_zero hstart, hd] at h0
    cases h0

variable {target : Nat}

lemma exists_cell_eq (hstart : start < n) (htarget : target < n) :
  ∃ j < n, cell n start j = target := by
  by_cases hle : start ≤ target
  · refine ⟨target - start, by omega, ?_⟩
    rw [cell, Nat.add_sub_cancel' hle, Nat.mod_eq_of_lt htarget]
  refine ⟨target + n - start, by omega, ?_⟩
  rw [cell, show start + (target + n - start) = target + n by omega, Nat.add_mod_right,
    Nat.mod_eq_of_lt htarget]

lemma probe_isSome_of_decides (hstart : start < n) (htarget : target < n)
  (hdecides : decide target ≠ none) : ∃ b, probe n decide n start = some b := by
  rw [← isSome_iff_exists, isSome_iff_ne_none]
  intro hnone
  obtain ⟨j, hj, rfl⟩ := exists_cell_eq hstart htarget
  exact hdecides ((probe_eq_none_iff hstart).mp hnone j hj)

lemma probe_eq_none_forever (hstart : start < n) (hlap : probe n decide n start = none)
  (fuel : Nat) : probe n decide fuel start = none := by
  rw [probe_eq_none_iff hstart] at hlap ⊢
  intro j _
  obtain ⟨j', hj', hcell⟩ := exists_cell_eq hstart (cell_lt (Nat.zero_lt_of_lt hstart) start j)
  rw [← hcell]
  exact hlap j' hj'

end Probe

end Lib
