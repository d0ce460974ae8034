import Rustock.Trie.Refine

/-!
# How large a tree is

With values of one length, the bytes of a tree are bounded from both sides by its number of keys:
a message is short, and a canonical tree has fewer inner nodes than keys.
-/

namespace Rustock

open Lib Radix

lemma compactSize_le (n : Nat) : CompactSize.size n ≤ 9 := by
  unfold CompactSize.size
  split_ifs <;> omega

lemma serializedLength_path_le {n : Nat} (h : n ≤ maxSharedPathBits) :
  SharedPath.serializedLength n ≤ 138 := by
  have := compactSize_le n
  unfold maxSharedPathBits at h
  unfold SharedPath.serializedLength SharedPath.lengthPrefixSize packedLength
  split_ifs <;> omega

lemma serializedLength_ref_le (ref : NodeRef) : ref.serializedLength ≤ 45 := by
  unfold NodeRef.serializedLength NodeRef.serializedLengthOf
  split_ifs with hempty hembeds
  · omega
  · cases ref with
    | empty | hash => cases hembeds
    | node p v vh ll l r cs =>
      have hle := of_decide_eq_true (Bool.and_eq_true_iff.mp hembeds).2
      unfold maxEmbeddedNodeSize at hle
      omega
  · omega

section

variable {keccak : Bytes → B256}

lemma messageLength_le {path : TrieKeySlice} {value : Option Bytes} {left right : StateTree}
  (h : path.length ≤ maxSharedPathBits) :
  (image keccak (.node path value left right)).messageLength ≤ 300 := by
  have hpath := serializedLength_path_le h
  have hleft := serializedLength_ref_le (image keccak left)
  have hright := serializedLength_ref_le (image keccak right)
  have hsize := compactSize_le ((image keccak left).memorySize + (image keccak right).memorySize).toNat
  simp only [NodeRef.serializedLength] at hleft hright
  simp only [image, NodeRef.messageLength, hasLongValue_eq (Or.inl rfl), valueLength_eq (Or.inl rfl)]
  split_ifs with h₁ h₂ h₂ <;> simp at h₂ <;> omega

/-- Values of length `len`, each stored outside its node. -/
def LongEntries (len : Nat) (t : StateTree) : Prop :=
  32 < len ∧ ∀ key x, t.lookup key = some x → x.length = len

namespace LongEntries

variable {len : Nat} {path : TrieKeySlice} {value : Option Bytes} {l r : StateTree}

section

variable (h : LongEntries len (.node path value l r))

include h

lemma left : LongEntries len l :=
  ⟨h.1, fun key x hkey => h.2 (path ++ false :: key) x
    (by rw [lookup_node, under_append]; exact hkey)⟩

lemma right : LongEntries len r :=
  ⟨h.1, fun key x hkey => h.2 (path ++ true :: key) x
    (by rw [lookup_node, under_append]; exact hkey)⟩

lemma external : (if 32 < (value.getD []).length then (value.getD []).length else 0) =
    len * (if value.isSome then 1 else 0) := by
  rcases value with _ | x
  · rfl
  have hx := h.2 (path ++ []) x (by rw [lookup_node, under_append]; rfl)
  simp [hx, h.1]

end

end LongEntries

lemma le_treeSize {len : Nat} {t : StateTree} (h : LongEntries len t) :
  len * t.count ≤ treeSize keccak t := by
  induction t with
  | nil => exact Nat.le_refl _
  | node path value l r ihl ihr =>
    have hl := ihl h.left
    have hr := ihr h.right
    rw [treeSize, h.external, count, Nat.mul_add, Nat.mul_add]
    omega

lemma treeSize_le {len : Nat} {t : StateTree} (hvalid : Valid t) (h : LongEntries len t)
  (hne : t ≠ .nil) : treeSize keccak t + 300 ≤ (len + 600) * t.count := by
  induction t with
  | nil => exact absurd rfl hne
  | node path value l r ihl ihr =>
    have hmessage := @messageLength_le keccak path value l r hvalid.path_le
    have hbound : ∀ {s : StateTree}, (s ≠ .nil → treeSize keccak s + 300 ≤ (len + 600) * s.count) →
        treeSize keccak s ≤ (len + 600) * s.count := by
      intro s hs
      cases s with
      | nil => exact Nat.zero_le _
      | node => exact (Nat.le_add_right _ _).trans (hs (by simp))
    have hl := hbound (ihl hvalid.left h.left)
    have hr := hbound (ihr hvalid.right h.right)
    rw [treeSize, h.external, count, Nat.mul_add, Nat.mul_add]
    rcases value with _ | x
    · -- a node without a value has two subtrees, each with a key to spare
      obtain ⟨hnl, hnr⟩ := hvalid.canon.1.resolve_left (by simp)
      have hl' := ihl hvalid.left h.left hnl
      have hr' := ihr hvalid.right h.right hnr
      simp only [Option.isSome_none, Bool.false_eq_true, if_false, Nat.mul_zero]
      omega
    simp only [Option.isSome_some, if_true, Nat.mul_one]
    omega

end

end Rustock
