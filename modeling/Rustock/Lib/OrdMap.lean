import Mathlib

/-!
# Ordered maps by their entries

A finite map with ordered keys, as the list of its entries in key order, and a set of such keys.
Insertion drops the entry of the key and places the new one, so that the lemmas on membership do
not need the order; the order is what makes two maps of the same keys have the same list of keys.
-/

namespace Lib

open List Option

namespace OrdMap

variable {κ ν : Type*} [DecidableEq κ]

def erase (k : κ) (m : List (κ × ν)) : List (κ × ν) := m.filter fun e => e.1 ≠ k

def insert (le : κ → κ → Prop) [DecidableRel le] (k : κ) (v : ν) (m : List (κ × ν)) :
  List (κ × ν) :=
  (erase k m).orderedInsert (fun a b => le a.1 b.1) (k, v)

def keys (m : List (κ × ν)) : List κ := m.map Prod.fst

def get? (k : κ) (m : List (κ × ν)) : Option ν := (m.find? fun e => e.1 = k).map Prod.snd

variable {le : κ → κ → Prop} [DecidableRel le] {m : List (κ × ν)} {k x : κ} {v w : ν}

lemma mem_erase : (x, w) ∈ erase k m ↔ x ≠ k ∧ (x, w) ∈ m := by simp [erase, and_comm]

omit [DecidableEq κ] in
lemma mem_keys : x ∈ keys m ↔ ∃ w, (x, w) ∈ m := by simp [keys]

lemma mem_keys_erase : x ∈ keys (erase k m) ↔ x ≠ k ∧ x ∈ keys m := by
  simp only [mem_keys, mem_erase, exists_and_left]

lemma mem_insert : (x, w) ∈ insert le k v m ↔ (x = k ∧ w = v) ∨ (x ≠ k ∧ (x, w) ∈ m) := by
  rw [insert, mem_orderedInsert, mem_erase, Prod.mk.injEq]

lemma mem_keys_insert : x ∈ keys (insert le k v m) ↔ x = k ∨ x ∈ keys m := by
  simp only [mem_keys, mem_insert]
  by_cases h : x = k <;> simp [h]

lemma nodup_keys_erase (h : (keys m).Nodup) : (keys (erase k m)).Nodup :=
  h.sublist (filter_sublist.map _)

lemma nodup_keys_insert (h : (keys m).Nodup) : (keys (insert le k v m)).Nodup := by
  have hperm : (keys (insert le k v m)).Perm (k :: keys (erase k m)) :=
    (perm_orderedInsert _ _ _).map _
  rw [hperm.nodup_iff, nodup_cons]
  exact ⟨fun hk => (mem_keys_erase.mp hk).1 rfl, nodup_keys_erase h⟩

lemma sorted_keys_insert [Std.Total le] [IsTrans κ le] (h : (keys m).Pairwise le) :
  (keys (insert le k v m)).Pairwise le := by
  have : Std.Total fun a b : κ × ν => le a.1 b.1 := ⟨fun a b => Std.Total.total a.1 b.1⟩
  have : IsTrans (κ × ν) fun a b => le a.1 b.1 := ⟨fun _ _ _ => IsTrans.trans _ _ _⟩
  rw [keys, pairwise_map] at h ⊢
  exact List.Pairwise.orderedInsert _ _ (h.sublist filter_sublist)

lemma get?_isSome : (get? k m).isSome ↔ k ∈ keys m := by
  rw [get?, isSome_map, find?_isSome]
  simp [keys]

lemma mem_of_get? (h : get? k m = some v) : (k, v) ∈ m := by
  obtain ⟨e, he, rfl⟩ := map_eq_some_iff.mp h
  have hkey : e.1 = k := by simpa using find?_some he
  exact hkey ▸ mem_of_find?_eq_some he

lemma get?_eq_none : get? k m = none ↔ k ∉ keys m := by
  rw [← get?_isSome, Bool.not_eq_true, isSome_eq_false_iff, isNone_iff_eq_none]

lemma get?_eq_some_iff (h : (keys m).Nodup) : get? k m = some v ↔ (k, v) ∈ m := by
  refine ⟨mem_of_get?, fun hmem => ?_⟩
  obtain ⟨w, hw⟩ := isSome_iff_exists.mp (get?_isSome.mpr (mem_keys.mpr ⟨v, hmem⟩))
  have heq := inj_on_of_nodup_map h (mem_of_get? hw) hmem rfl
  rw [hw, (Prod.mk.inj heq).2]

lemma erase_eq_self (h : k ∉ keys m) : erase k m = m :=
  filter_eq_self.mpr fun e he => by
    simp only [ne_eq, decide_eq_true_eq]
    rintro rfl
    exact h (mem_keys.mpr ⟨e.2, he⟩)

lemma insert_erase : insert le k v (erase k m) = insert le k v m := by
  simp [insert, erase, List.filter_filter]

end OrdMap

namespace OrdSet

variable {κ : Type*} [DecidableEq κ] {le : κ → κ → Prop} [DecidableRel le] {s : List κ} {k x : κ}

def insert (le : κ → κ → Prop) [DecidableRel le] (k : κ) (s : List κ) : List κ :=
  if s.any (· = k) then s else s.orderedInsert le k

def extend (le : κ → κ → Prop) [DecidableRel le] (s l : List κ) : List κ :=
  l.foldl (fun s k => insert le k s) s

def ofList (le : κ → κ → Prop) [DecidableRel le] (l : List κ) : List κ := extend le [] l

lemma mem_insert : x ∈ insert le k s ↔ x = k ∨ x ∈ s := by
  unfold insert
  split
  · rename_i h
    obtain ⟨y, hy, heq⟩ := List.any_eq_true.mp h
    rw [decide_eq_true_eq] at heq
    subst heq
    constructor
    · exact .inr
    rintro (rfl | hx)
    · exact hy
    · exact hx
  · exact mem_orderedInsert ..

lemma nodup_insert (h : s.Nodup) : (insert le k s).Nodup := by
  unfold insert
  split
  · exact h
  rename_i hk
  rw [(perm_orderedInsert _ _ _).nodup_iff, nodup_cons]
  refine ⟨fun hmem => hk (List.any_eq_true.mpr ⟨k, hmem, by simp⟩), h⟩

variable {l : List κ}

lemma mem_extend : x ∈ extend le s l ↔ x ∈ s ∨ x ∈ l := by
  induction l generalizing s with
  | nil => simp [extend]
  | cons y l ih =>
    rw [extend, foldl_cons, ← extend, ih, mem_insert, mem_cons]
    tauto

lemma nodup_extend (h : s.Nodup) : (extend le s l).Nodup := by
  induction l generalizing s with
  | nil => exact h
  | cons y l ih => exact ih (nodup_insert h)

lemma mem_ofList : x ∈ ofList le l ↔ x ∈ l := by simp [ofList, mem_extend]

end OrdSet

end Lib
