import Rustock.Lib.Radix
import Rustock.Trie.Node

/-!
# The tree behind a trie

What a node stands for, whatever part of it is in memory: a radix tree from keys to values.
-/

namespace Rustock

open Lib Bool
open NodeRef (isEmbeddable serializedLength hashOf toMessage valueBytes serializedLengthOf
  serializeOf messageLength embeds)

abbrev StateTree := Radix Bytes

section

variable (keccak : Bytes → B256)

def NodeRef.memorySize : NodeRef → UInt64
  | .node sharedPath value valueHash longValueLen left right childrenSize =>
    let n : TrieNode := ⟨sharedPath, value, valueHash, longValueLen, left, right, childrenSize⟩
    n.childrenSize + NodeRef.externalLength n + UInt64.ofNat n.messageLength
  | _ => 0

def image : StateTree → NodeRef
  | .nil => .empty
  | .node path value left right =>
    .node path value (value.map keccak) none (image left) (image right)
      ((image left).memorySize + (image right).memorySize)

/-- The size of a tree as the nodes record it, modulo `2 ^ 64`. -/
def weight (t : StateTree) : UInt64 := (image keccak t).memorySize

def Embedded (t : StateTree) : Prop := (image keccak t).isEmbeddable = true

def message (t : StateTree) : Bytes := (image keccak t).toMessage keccak

def digest (t : StateTree) : B256 := keccak (message keccak t)

variable {t : StateTree}

lemma isEmpty_image : (image keccak t).isEmpty = true ↔ t = .nil := by
  cases t <;> simp [image, NodeRef.isEmpty]

lemma length_le_of_embedded (h : Embedded keccak t) :
  (image keccak t).messageLength ≤ maxEmbeddedNodeSize := by
  cases t with
  | nil => cases h
  | node path value left right =>
    have := (and_eq_true_iff.mp h).2
    simpa using this

lemma terminal_of_embedded {path : TrieKeySlice} {value : Option Bytes} {left right : StateTree}
  (h : Embedded keccak (.node path value left right)) : left = .nil ∧ right = .nil := by
  obtain ⟨hl, hr⟩ := and_eq_true_iff.mp (and_eq_true_iff.mp h).1
  exact ⟨(isEmpty_image keccak).mp hl, (isEmpty_image keccak).mp hr⟩

def Holds (store : TrieStore) : StateTree → Prop
  | .nil => True
  | .node _ value left right =>
    (∀ x, value = some x → 32 < x.length → store (keccak x) = some x) ∧
    (Holds store left ∧
      (left ≠ .nil → ¬ Embedded keccak left → store (digest keccak left) = some (message keccak left))) ∧
    (Holds store right ∧ (right ≠ .nil → ¬ Embedded keccak right →
        store (digest keccak right) = some (message keccak right)))

def Stored (store : TrieStore) (t : StateTree) : Prop :=
  store (digest keccak t) = some (message keccak t) ∧ Holds keccak store t

def TrieStore.Extends (store' store : TrieStore) : Prop :=
  ∀ h data, store h = some data → store' h = some data

variable {store store' : TrieStore}

lemma Holds.mono (hext : store'.Extends store) (h : Holds keccak store t) :
  Holds keccak store' t := by
  induction t with
  | nil => trivial
  | node path value left right ihl ihr =>
    obtain ⟨hvalue, ⟨hl, hleft⟩, hr, hright⟩ := h
    exact ⟨fun x hx hlong => hext _ _ (hvalue x hx hlong),
      ⟨ihl hl, fun hne hemb => hext _ _ (hleft hne hemb)⟩,
      ihr hr, fun hne hemb => hext _ _ (hright hne hemb)⟩

lemma Stored.mono (hext : store'.Extends store) (h : Stored keccak store t) :
  Stored keccak store' t :=
  ⟨hext _ _ h.1, h.2.mono keccak hext⟩

inductive Represents (store : TrieStore) : NodeRef → StateTree → Prop
  | empty : Represents store .empty .nil
  | node {path : TrieKeySlice} {value : Option Bytes} {longValueLen : Option Nat}
      {left right : NodeRef} {tl tr : StateTree}
      (hl : Represents store left tl) (hr : Represents store right tr)
      -- a parsed node also has the length its message gives
      (hlen : longValueLen = none ∨ longValueLen = value.map List.length) :
      Represents store
        (.node path value (value.map keccak) longValueLen left right
          (weight keccak tl + weight keccak tr))
        (.node path value tl tr)
  | hash {t : StateTree} (hne : t ≠ .nil) (hemb : ¬ Embedded keccak t)
      (hstored : Stored keccak store t) :
      Represents store (.hash (digest keccak t)) t

lemma represents_image (store : TrieStore) (t : StateTree) :
  Represents keccak store (image keccak t) t := by
  induction t with
  | nil => exact .empty
  | node path value left right ihl ihr => exact .node ihl ihr (Or.inl rfl)

section Fields

variable {path : TrieKeySlice} {value : Option Bytes} {valueHash : Option B256}
  {longValueLen : Option Nat} {left right : NodeRef} {childrenSize : UInt64}

section

variable (hlen : longValueLen = none ∨ longValueLen = value.map List.length)

include hlen

lemma valueLength_eq :
  TrieNode.valueLength ⟨path, value, valueHash, longValueLen, left, right, childrenSize⟩ =
    (value.getD []).length := by
  rcases value with _ | v
  · rcases hlen with rfl | rfl <;> rfl
  · rfl

lemma hasLongValue_eq :
  TrieNode.hasLongValue ⟨path, value, valueHash, longValueLen, left, right, childrenSize⟩ =
    decide (32 < (value.getD []).length) := by
  rw [TrieNode.hasLongValue, valueLength_eq hlen]

lemma valueBytes_eq : valueBytes keccak
      ⟨path, value, value.map keccak, longValueLen, left, right, childrenSize⟩ =
    if 32 < (value.getD []).length then
      (keccak (value.getD [])).bytes ++ beBytes 3 (value.getD []).length else value.getD [] := by
  rw [valueBytes, hasLongValue_eq hlen, valueLength_eq hlen]
  rcases value with _ | v
  · simp
  · simp [TrieNode.getValueHash]

end

end Fields

variable {keccak}

namespace Represents

variable {store : TrieStore} {ref : NodeRef} {t : StateTree}

section

variable (h : Represents keccak store ref t)

include h

lemma isEmpty_eq : ref.isEmpty = (image keccak t).isEmpty := by
  cases h with
  | empty | node => rfl
  | hash hne hemb hstored =>
    cases t with
    | nil => exact absurd rfl hne
    | node path value left right => rfl

lemma isEmpty_iff : ref.isEmpty = true ↔ t = .nil := by rw [h.isEmpty_eq, isEmpty_image]

lemma lengths_eq : ref.isEmbeddable = (image keccak t).isEmbeddable ∧
  ref.serializedLength = (image keccak t).serializedLength ∧
  ((∀ d, ref ≠ .hash d) → ref.messageLength = (image keccak t).messageLength) := by
  induction h with
  | empty => exact ⟨rfl, rfl, fun _ => rfl⟩
  | @node path value longValueLen left right tl tr hl hr hlen ihl ihr =>
    have hlength : messageLength (.node path value (value.map keccak) longValueLen left right
        (weight keccak tl + weight keccak tr)) =
        (image keccak (.node path value tl tr)).messageLength := by
      have hleft := ihl.2.1
      have hright := ihr.2.1
      simp only [serializedLength] at hleft hright
      simp only [image, messageLength, hleft, hright, hasLongValue_eq hlen,
        valueLength_eq hlen, hasLongValue_eq (Or.inl rfl), valueLength_eq (Or.inl rfl),
        TrieNode.isTerminal, hl.isEmpty_eq, hr.isEmpty_eq, weight]
      rfl
    have hemb : isEmbeddable (.node path value (value.map keccak) longValueLen left right
        (weight keccak tl + weight keccak tr)) =
        (image keccak (.node path value tl tr)).isEmbeddable := by
      rw [isEmbeddable, hlength]
      simp only [isEmbeddable, image, embeds, hl.isEmpty_eq, hr.isEmpty_eq]
    refine ⟨hemb, ?_, fun _ => hlength⟩
    simp only [isEmbeddable] at hemb
    rw [serializedLength, serializedLengthOf, hemb, hlength]
    rfl
  | @hash t hne hemb hstored =>
    have hfalse : (image keccak t).isEmbeddable = false := by simpa [Embedded] using hemb
    refine ⟨hfalse.symm, ?_, fun h => absurd rfl (h _)⟩
    rw [isEmbeddable] at hfalse
    rw [serializedLength, serializedLength, serializedLengthOf,
      serializedLengthOf, hfalse]
    cases t with
    | nil => exact absurd rfl hne
    | node path value left right => rfl

lemma isEmbeddable_eq : ref.isEmbeddable = (image keccak t).isEmbeddable := h.lengths_eq.1

end

section

variable {path : TrieKeySlice} {value : Option Bytes} {longValueLen : Option Nat}
  {left right : NodeRef} {childrenSize : UInt64} {tl tr : StateTree}

lemma isEmptyTrie_eq_false (hl : Represents keccak store left tl)
  (hnode : value.isSome ∨ (tl ≠ .nil ∧ tr ≠ .nil)) (valueHash : Option B256) :
  TrieNode.isEmptyTrie ⟨path, value, valueHash, longValueLen, left, right, childrenSize⟩ =
    false := by
  rcases hnode with hvalue | ⟨hleft, -⟩
  · obtain ⟨v, rfl⟩ := Option.isSome_iff_exists.mp hvalue
    rfl
  have hne : left.isEmpty = false := by
    rw [← not_eq_true, hl.isEmpty_iff]
    exact hleft
  simp [TrieNode.isEmptyTrie, hne]

lemma hashOf_eq (hl : Represents keccak store left tl)
  (hnode : value.isSome ∨ (tl ≠ .nil ∧ tr ≠ .nil)) (valueHash : Option B256) (data : Bytes) :
  hashOf keccak ⟨path, value, valueHash, longValueLen, left, right, childrenSize⟩ data =
    keccak data := by
  rw [hashOf, isEmptyTrie_eq_false hl hnode]
  rfl

end

lemma messages_eq (h : Represents keccak store ref t) (hc : t.Canon) :
  ref.serializeOf keccak (ref.toMessage keccak) =
    (image keccak t).serializeOf keccak (message keccak t) ∧
  ((∀ d, ref ≠ .hash d) → ref.toMessage keccak = message keccak t) := by
  induction h with
  | empty => exact ⟨rfl, fun _ => rfl⟩
  | @node path value longValueLen left right tl tr hl hr hlen ihl ihr =>
    obtain ⟨hnode, hcl, hcr⟩ := hc
    have hmessage : toMessage keccak (.node path value (value.map keccak) longValueLen
        left right (weight keccak tl + weight keccak tr)) =
        message keccak (.node path value tl tr) := by
      have hleft := (ihl hcl).1
      have hright := (ihr hcr).1
      simp only [message] at hleft hright
      simp only [message, image, toMessage, hleft, hright, hasLongValue_eq hlen,
        valueBytes_eq keccak hlen, hasLongValue_eq (Or.inl rfl), valueBytes_eq keccak (Or.inl rfl),
        TrieNode.isTerminal, hl.isEmpty_eq, hr.isEmpty_eq, hl.isEmbeddable_eq, hr.isEmbeddable_eq,
        weight]
      rfl
    refine ⟨?_, fun _ => hmessage⟩
    have hemb := (@Represents.node keccak store path _ _ _ _ _ _ hl hr hlen).isEmbeddable_eq
    rw [hmessage]
    simp only [serializeOf, hemb, hashOf_eq hl hnode]
    simp only [image, hashOf_eq (represents_image keccak store tl) hnode]
    rfl
  | @hash t hne hemb hstored =>
    refine ⟨?_, fun h => absurd rfl (h _)⟩
    cases t with
    | nil => exact absurd rfl hne
    | node path value tl tr =>
      have hfalse : (image keccak (.node path value tl tr)).isEmbeddable = false := by
        simpa [Embedded] using hemb
      simp only [image] at hfalse
      simp only [serializeOf, image, hfalse, false_eq_true, if_false,
        hashOf_eq (represents_image keccak store tl) hc.1]
      rfl

end Represents

end

end Rustock
