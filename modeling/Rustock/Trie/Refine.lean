import Rustock.Trie.Message

/-!
# Trie operations on the tree

Over a node that stands for a tree, with a store that holds what the node has by hash,

- `get_eq`: `get` is the tree's `lookup`;
- `put_represents`, `delete_represents`: `put` and `delete` give a node that stands for the tree
  after `insert` and `delete`, as long as no size subtracted is larger than the recorded one
  (`Fits`);
- `load_represents`: what is saved and read back by its hash stands for the same tree.
-/

namespace Rustock

open Lib List Option UInt64 Represents
open Lib.Radix hiding coalesce
open TrieNode (internalPut isEmptyTrie isEmptyTrieParams putFuel coalesce)
open TrieKeySlice (commonPath rebuildSharedPath)

lemma commonPath_append (path rest : TrieKeySlice) :
  commonPath (path ++ rest) path = path := by
  induction path with
  | nil => cases rest <;> rfl
  | cons b path ih => simp [commonPath, ih]

lemma commonPath_ends (common : TrieKeySlice) (b : Bool) (pathRest : TrieKeySlice) :
  commonPath common (common ++ b :: pathRest) = common := by
  induction common with
  | nil => rfl
  | cons c common ih => simp [commonPath, ih]

lemma commonPath_parts (common : TrieKeySlice) (b : Bool) (pathRest keyRest : TrieKeySlice) :
  commonPath (common ++ (!b) :: keyRest) (common ++ b :: pathRest) = common := by
  induction common with
  | nil => cases b <;> rfl
  | cons c common ih => simp [commonPath, ih]

section

variable {keccak : Bytes → B256} {store : TrieStore}

namespace Represents

variable {n : TrieNode} {t : StateTree}

lemma node_inv (h : Represents keccak store n.ref t) :
  ∃ tl tr, t = .node n.sharedPath n.value tl tr ∧ n.valueHash = n.value.map keccak ∧
    (n.longValueLen = none ∨ n.longValueLen = n.value.map List.length) ∧
    n.childrenSize = weight keccak tl + weight keccak tr ∧
    Represents keccak store n.left tl ∧ Represents keccak store n.right tr := by
  generalize href : n.ref = ref at h
  cases h with
  | empty | hash => cases href
  | node hl hr hlen =>
    injection href with hpath hvalue hhash hlong hleft hright hsize
    subst hpath hvalue hlong hleft hright
    exact ⟨_, _, rfl, hhash, hlen, hsize, hl, hr⟩

variable {path : TrieKeySlice} {value : Option Bytes} {tl tr : StateTree}

section

variable (h : Represents keccak store n.ref (.node path value tl tr))

include h

lemma node_parts : path = n.sharedPath ∧ value = n.value ∧ n.valueHash = n.value.map keccak ∧
    (n.longValueLen = none ∨ n.longValueLen = n.value.map List.length) ∧
    n.childrenSize = weight keccak tl + weight keccak tr ∧
    Represents keccak store n.left tl ∧ Represents keccak store n.right tr := by
  obtain ⟨_, _, heq, hparts⟩ := h.node_inv
  injection heq with hpath hvalue hleft hright
  subst hleft hright
  exact ⟨hpath, hvalue, hparts⟩

lemma sharedPath_eq : n.sharedPath = path := h.node_parts.1.symm

lemma withPath (path' : TrieKeySlice) :
  Represents keccak store (TrieNode.ref { n with sharedPath := path', longValueLen := none })
    (.node path' value tl tr) := by
  obtain ⟨h₁, rfl, hhash, -, hsize, hl, hr⟩ := h.node_parts
  rw [TrieNode.ref, hhash, hsize]
  exact .node hl hr (Or.inl rfl)

end

lemma eq_empty {ref : NodeRef} (h : Represents keccak store ref .nil) : ref = .empty := by
  cases h with
  | empty => rfl
  | hash hne => exact absurd rfl hne

lemma resolve {ref : NodeRef} (h : Represents keccak store ref t) (hvalid : Valid t)
  (hne : t ≠ .nil) : ∃ n, ref.resolve keccak store = some n ∧ Represents keccak store n.ref t := by
  cases h with
  | empty => exact absurd rfl hne
  | node hl hr hlen => exact ⟨_, rfl, .node hl hr hlen⟩
  | hash _ hemb hstored =>
    obtain ⟨n, hn, hrep⟩ := tryFromMessage_message hvalid hne hstored.2
    exact ⟨n, by simp [NodeRef.resolve, hstored.1, hn], hrep⟩

lemma memorySize_eq (h : Represents keccak store n.ref t) :
  n.childrenSize + NodeRef.externalLength n + UInt64.ofNat n.messageLength = weight keccak t := by
  have hlength := h.lengths_eq.2.2 (by simp [TrieNode.ref])
  obtain ⟨tl, tr, rfl, -, hlen, hsize, -, -⟩ := h.node_inv
  rw [TrieNode.messageLength, hlength, hsize, NodeRef.externalLength]
  rcases n with ⟨path, value, valueHash, longValueLen, left, right, childrenSize⟩
  rw [hasLongValue_eq hlen, valueLength_eq hlen]
  simp only [weight, image, NodeRef.memorySize, NodeRef.externalLength, TrieNode.messageLength,
    TrieNode.ref, hasLongValue_eq (Or.inl rfl), valueLength_eq (Or.inl rfl)]

lemma referenceSize_eq {ref : NodeRef} (h : Represents keccak store ref t) (hvalid : Valid t) :
  ref.referenceSize keccak store = weight keccak t := by
  cases h with
  | empty => rfl
  | @node path value longValueLen left right tl tr hl hr hlen =>
    exact @memorySize_eq keccak store ⟨path, value, value.map keccak, longValueLen, left, right, _⟩
      _ (.node hl hr hlen)
  | hash hne hemb hstored =>
    obtain ⟨n, hn, hrep⟩ := tryFromMessage_message hvalid hne hstored.2
    have hlength := hrep.lengths_eq.2.2 (by simp [TrieNode.ref])
    simp only [NodeRef.referenceSize, hstored.1, hn, length_message]
    rw [← hlength]
    exact hrep.memorySize_eq

end Represents

def TrieNode.StandsFor (keccak : Bytes → B256) (store : TrieStore) (n : TrieNode) (t : StateTree) :
  Prop :=
  (n = TrieNode.empty ∧ t = .nil) ∨ Represents keccak store n.ref t

variable {t : StateTree}

lemma Represents.standsFor_resolve {ref : NodeRef} (h : Represents keccak store ref t)
  (hvalid : Valid t) :
  TrieNode.StandsFor keccak store ((ref.resolve keccak store).getD TrieNode.empty) t := by
  by_cases hne : t = .nil
  · subst hne
    cases h with
    | empty => exact Or.inl ⟨rfl, rfl⟩
    | hash hne => exact absurd rfl hne
  obtain ⟨n, hn, hrep⟩ := h.resolve hvalid hne
  rw [hn]
  exact Or.inr hrep

variable {key : TrieKeySlice} {fuel : Nat}

lemma find_child (hvalid : Valid t) {ref : NodeRef} (h : Represents keccak store ref t)
  (hfind : ∀ n, Represents keccak store n.ref t →
    (TrieNode.find keccak store fuel n key).bind (·.value) = t.lookup key) :
  (match ref.resolve keccak store with
    | some child => TrieNode.find keccak store fuel child key
    | none => none).bind (·.value) = t.lookup key := by
  by_cases hne : t = .nil
  · subst hne
    cases h with
    | empty => rfl
    | hash hne => exact absurd rfl hne
  obtain ⟨n, hn, hrep⟩ := h.resolve hvalid hne
  rw [hn]
  exact hfind n hrep

variable {n : TrieNode}

lemma find_eq (hvalid : Valid t) (h : Represents keccak store n.ref t) (hfuel : key.length < fuel) :
  (TrieNode.find keccak store fuel n key).bind (·.value) = t.lookup key := by
  induction t generalizing n key fuel with
  | nil => obtain ⟨_, _, heq, _⟩ := h.node_inv; cases heq
  | node path value tl tr ihl ihr =>
    obtain ⟨rfl, rfl, -, -, -, hl, hr⟩ := h.node_parts
    obtain ⟨fuel, rfl⟩ : ∃ m, fuel = m + 1 := ⟨fuel - 1, by omega⟩
    have hcompare := comparePath_holds key n.sharedPath
    rw [TrieNode.find]
    cases hc : comparePath key n.sharedPath with
    | within rest =>
      rw [hc] at hcompare
      have hkey : key = n.sharedPath ++ rest := hcompare
      rw [hkey, commonPath_append, lookup_node, under_append]
      rcases rest with _ | ⟨b, rest⟩
      · simp [Radix.route]
      have hlt : rest.length < fuel := by
        rw [hkey] at hfuel
        simp at hfuel
        omega
      have hnot : ¬ n.sharedPath.length > (n.sharedPath ++ b :: rest).length := by simp
      have hne : ¬ n.sharedPath.length = (n.sharedPath ++ b :: rest).length := by simp
      have hbit : (n.sharedPath ++ b :: rest).getD n.sharedPath.length false = b := by simp
      have hdrop : (n.sharedPath ++ b :: rest).drop (n.sharedPath.length + 1) = rest := by simp
      simp only [if_neg hnot, if_neg (lt_irrefl _), if_neg hne, hbit, hdrop]
      cases b
      · exact find_child hvalid.left hl fun child hchild => ihl hvalid.left hchild hlt
      · exact find_child hvalid.right hr fun child hchild => ihr hvalid.right hchild hlt
    | ends common b pathRest =>
      rw [hc] at hcompare
      have hout := @comparePath_ne_append key n.sharedPath fun rest => by simp [hc]
      have hlong : n.sharedPath.length > key.length := by simp [hcompare.1, hcompare.2]
      rw [if_pos hlong, lookup_eq_none _ _ _ hout]
      rfl
    | parts common b pathRest keyRest =>
      rw [hc] at hcompare
      have hout := @comparePath_ne_append key n.sharedPath fun rest => by simp [hc]
      have hcommon : (commonPath key n.sharedPath).length < n.sharedPath.length := by
        rw [hcompare.1, hcompare.2, commonPath_parts]
        simp
      rw [if_pos hcommon, ite_self, lookup_eq_none _ _ _ hout]
      rfl

/-- **`get` reads the tree.** -/
theorem get_eq (hvalid : Valid t) (h : n.StandsFor keccak store t) (key : TrieKeySlice) :
  n.get keccak store key = t.lookup key := by
  rcases h with ⟨rfl, rfl⟩ | h
  · rcases key with _ | ⟨_ | _, key⟩ <;> rfl
  · exact find_eq hvalid h (by omega)

def treeSize (keccak : Bytes → B256) : StateTree → Nat
  | .nil => 0
  | .node path value left right =>
    treeSize keccak left + treeSize keccak right
      + (if 32 < (value.getD []).length then (value.getD []).length else 0)
      + (image keccak (.node path value left right)).messageLength

/-- What lies below the root takes less than `2 ^ 64` bytes. -/
def Fits (keccak : Bytes → B256) : StateTree → Prop
  | .nil => True
  | .node _ _ left right => treeSize keccak left + treeSize keccak right < 2 ^ 64

instance (keccak : Bytes → B256) : (t : StateTree) → Decidable (Fits keccak t)
  | .nil => .isTrue trivial
  | .node _ _ left right =>
    inferInstanceAs (Decidable (treeSize keccak left + treeSize keccak right < 2 ^ 64))

lemma weight_toNat (h : treeSize keccak t < 2 ^ 64) :
  (weight keccak t).toNat = treeSize keccak t := by
  induction t with
  | nil => rfl
  | node path value left right ihl ihr =>
    rw [treeSize] at h
    have hl := ihl (by omega)
    have hr := ihr (by omega)
    have hlong : (NodeRef.externalLength ⟨path, value, value.map keccak, none, image keccak left,
        image keccak right, weight keccak left + weight keccak right⟩).toNat =
        if 32 < (value.getD []).length then (value.getD []).length else 0 := by
      rw [NodeRef.externalLength, hasLongValue_eq (Or.inl rfl), valueLength_eq (Or.inl rfl)]
      by_cases hc : 32 < (value.getD []).length
      · simp only [hc, decide_true, if_true] at h ⊢
        rw [toNat_ofNat', Nat.mod_eq_of_lt (by omega)]
      · simp [hc]
    have hweight : weight keccak (.node path value left right) =
        weight keccak left + weight keccak right +
        NodeRef.externalLength ⟨path, value, value.map keccak, none, image keccak left,
          image keccak right, weight keccak left + weight keccak right⟩ +
        UInt64.ofNat (image keccak (.node path value left right)).messageLength := rfl
    rw [hweight, UInt64.toNat_add, UInt64.toNat_add, UInt64.toNat_add, toNat_ofNat', hlong,
      hl, hr, treeSize]
    omega

lemma saturatingSub_add_left {a b : UInt64} (h : a.toNat + b.toNat < 2 ^ 64) :
  saturatingSub (a + b) a = b := by
  have hsum : (a + b).toNat = a.toNat + b.toNat := by rw [UInt64.toNat_add, Nat.mod_eq_of_lt h]
  have hle : a ≤ a + b := by
    rw [le_iff_toNat_le, hsum]
    omega
  rw [saturatingSub, if_pos hle]
  apply UInt64.toNat_inj.mp
  rw [UInt64.toNat_sub_of_le _ _ hle, hsum]
  omega

variable {path : TrieKeySlice} {value : Option Bytes}

lemma saturatingSub_weight {left right : StateTree}
  (h : Fits keccak (.node path value left right)) (b : Bool) :
  saturatingSub (weight keccak left + weight keccak right)
    (weight keccak (if b then right else left)) = weight keccak (if b then left else right) := by
  have hsum : treeSize keccak left + treeSize keccak right < 2 ^ 64 := h
  have hl := @weight_toNat keccak left (by omega)
  have hr := @weight_toNat keccak right (by omega)
  cases b
  · exact saturatingSub_add_left (by omega)
  rw [add_comm]
  exact saturatingSub_add_left (by omega)

lemma fits_of_treeSize_lt (h : treeSize keccak t < 2 ^ 64) : Fits keccak t := by
  cases t with
  | nil => trivial
  | node path value left right =>
    rw [treeSize] at h
    show treeSize keccak left + treeSize keccak right < 2 ^ 64
    omega

lemma Fits.left {left right : StateTree} (h : Fits keccak (.node path value left right)) :
  Fits keccak left :=
  fits_of_treeSize_lt (lt_of_le_of_lt (Nat.le_add_right _ _) h)

lemma Fits.right {left right : StateTree} (h : Fits keccak (.node path value left right)) :
  Fits keccak right :=
  fits_of_treeSize_lt (lt_of_le_of_lt (Nat.le_add_left _ _) h)

lemma represents_leaf (key : TrieKeySlice) (x : Bytes) : Represents keccak store
    (TrieNode.ref ⟨key, some x, some (keccak x), none, .empty, .empty, 0⟩)
    (.node key (some x) .nil .nil) :=
  .node .empty .empty (Or.inl rfl)

variable {x : Bytes}

lemma internalPut_empty (key : TrieKeySlice) (hx : x ≠ []) (fuel : Nat) :
  internalPut keccak store false (fuel + 1) TrieNode.empty key (some x) =
    some ⟨key, some x, some (keccak x), none, .empty, .empty, 0⟩ := by
  cases key <;>
    simp [internalPut, TrieNode.empty, commonPath, hx,
      isEmptyTrieParams, isEmptyTrie, NodeRef.isEmpty]

def Outcome (keccak : Bytes → B256) (store : TrieStore) (o : Option TrieNode) (t : StateTree) :
  Prop :=
  match o with
  | none => t = .nil
  | some n => Represents keccak store n.ref t

variable {o : Option TrieNode}

lemma Outcome.ref (h : Outcome keccak store o t) :
  Represents keccak store (NodeRef.ofOption o) t := by
  cases o with
  | none =>
    obtain rfl : t = .nil := h
    exact .empty
  | some n => exact h

lemma Outcome.referenceSize (h : Outcome keccak store o t) :
  (NodeRef.ofOption o).referenceSize keccak store = weight keccak t := by
  cases o with
  | none =>
    obtain rfl : t = .nil := h
    rfl
  | some n => exact memorySize_eq h

variable {b recursive : Bool} {rest : TrieKeySlice} {v : Option Bytes}

lemma internalPut_into (hnonempty : n.isEmptyTrie = false) (hv : v ≠ some [])
  (ho : (internalPut keccak store recursive fuel
      (((if b then n.right else n.left).resolve keccak store).getD TrieNode.empty) rest v).bind
      (coalesce keccak store v) = o) :
  internalPut keccak store recursive (fuel + 1) n (n.sharedPath ++ b :: rest) v =
    if isEmptyTrieParams n.value (if b then n.left else .ofOption o)
        (if b then .ofOption o else n.right) then none
    else some { n with
      left := if b then n.left else .ofOption o
      right := if b then .ofOption o else n.right
      childrenSize := saturatingSub n.childrenSize
          ((if b then n.right else n.left).referenceSize keccak store)
        + (NodeRef.ofOption o).referenceSize keccak store
      longValueLen := none } := by
  have hnot : ¬ n.sharedPath.length ≥ (n.sharedPath ++ b :: rest).length := by simp
  have hbit : (n.sharedPath ++ b :: rest).getD n.sharedPath.length false = b := by simp
  have hdrop : (n.sharedPath ++ b :: rest).drop (n.sharedPath.length + 1) = rest := by simp
  rw [internalPut]
  simp only [commonPath_append, lt_irrefl, if_false, if_neg hv, if_neg hnot, hnonempty,
    Bool.false_eq_true, hbit, hdrop, ho]

variable {tl tr t' : StateTree}

lemma internalPut_descend (hvl : Valid tl) (hvr : Valid tr) (hnonempty : n.isEmptyTrie = false)
  (h : Represents keccak store n.ref (.node path value tl tr)) (hv : v ≠ some [])
  (ho : Outcome keccak store ((internalPut keccak store recursive fuel
      (((if b then n.right else n.left).resolve keccak store).getD TrieNode.empty) rest v).bind
      (coalesce keccak store v)) t') :
  ∃ n' : TrieNode, n'.sharedPath = path ∧ n'.value = value ∧ n'.valueHash = value.map keccak ∧
    n'.longValueLen = none ∧ Represents keccak store n'.left (if b then tl else t') ∧
    Represents keccak store n'.right (if b then t' else tr) ∧
    n'.childrenSize = saturatingSub (weight keccak tl + weight keccak tr)
      (weight keccak (if b then tr else tl)) + weight keccak t' ∧
    internalPut keccak store recursive (fuel + 1) n (path ++ b :: rest) v =
      if isEmptyTrieParams n'.value n'.left n'.right then none else some n' := by
  obtain ⟨rfl, rfl, hhash, hlen, hsize, hl, hr⟩ := h.node_parts
  rw [internalPut_into hnonempty hv rfl]
  cases b
  · simp only [Bool.false_eq_true, if_false] at ho ⊢
    generalize (internalPut keccak store recursive fuel _ rest v).bind _ = o at ho ⊢
    exact ⟨⟨n.sharedPath, n.value, n.valueHash, none, .ofOption o, n.right, _⟩, rfl, rfl, hhash, rfl,
      ho.ref, hr, by rw [hl.referenceSize_eq hvl, ho.referenceSize, hsize], rfl⟩
  simp only [if_true] at ho ⊢
  generalize (internalPut keccak store recursive fuel _ rest v).bind _ = o at ho ⊢
  exact ⟨⟨n.sharedPath, n.value, n.valueHash, none, n.left, .ofOption o, _⟩, rfl, rfl, hhash, rfl,
    hl, ho.ref, by rw [hr.referenceSize_eq hvr, ho.referenceSize, hsize], rfl⟩

lemma internalPut_child (hvl : Valid tl) (hvr : Valid tr) (hnonempty : n.isEmptyTrie = false)
  (h : Represents keccak store n.ref (.node path value tl tr))
  (hsub : saturatingSub (weight keccak tl + weight keccak tr)
    (weight keccak (if b then tr else tl)) = weight keccak (if b then tl else tr))
  (hv : v ≠ some []) (ho : Outcome keccak store ((internalPut keccak store recursive fuel
      (((if b then n.right else n.left).resolve keccak store).getD TrieNode.empty) rest v).bind
      (coalesce keccak store v)) t') : ∃ n', Represents keccak store n'.ref
      (.node path value (if b then tl else t') (if b then t' else tr)) ∧
    internalPut keccak store recursive (fuel + 1) n (path ++ b :: rest) v =
      if isEmptyTrieParams n'.value n'.left n'.right then none else some n' := by
  obtain ⟨n', hpath, hvalue, hhash, hlong, hl, hr, hsize, hput⟩ :=
    internalPut_descend hvl hvr hnonempty h hv ho
  refine ⟨n', ?_, hput⟩
  have hsum : n'.childrenSize =
      weight keccak (if b then tl else t') + weight keccak (if b then t' else tr) := by
    rw [hsize, hsub]
    cases b
    · exact add_comm _ _
    · rfl
  rw [TrieNode.ref, hpath, hvalue, hhash, hlong, hsum]
  exact .node hl hr (Or.inl rfl)

lemma Represents.isEmptyTrieParams_iff
  (h : Represents keccak store n.ref (.node path value tl tr)) :
  isEmptyTrieParams n.value n.left n.right = true ↔
    value = none ∧ tl = .nil ∧ tr = .nil := by
  obtain ⟨h₁, rfl, -, -, -, hl, hr⟩ := h.node_parts
  simp [isEmptyTrieParams, hl.isEmpty_iff, hr.isEmpty_iff, and_assoc]

lemma internalPut_child_some (hvl : Valid tl) (hvr : Valid tr) (hnonempty : n.isEmptyTrie = false)
  (h : Represents keccak store n.ref (.node path value tl tr))
  (hsub : saturatingSub (weight keccak tl + weight keccak tr)
    (weight keccak (if b then tr else tl)) = weight keccak (if b then tl else tr))
  (hv : v ≠ some []) (ho : Outcome keccak store ((internalPut keccak store false fuel
      (((if b then n.right else n.left).resolve keccak store).getD TrieNode.empty) rest v).bind
      (coalesce keccak store v)) t') (hne : t' ≠ .nil) :
  ∃ n', internalPut keccak store false (fuel + 1) n (path ++ b :: rest) v = some n' ∧
    Represents keccak store n'.ref
      (.node path value (if b then tl else t') (if b then t' else tr)) := by
  obtain ⟨n', hrep, hput⟩ := internalPut_child hvl hvr hnonempty h hsub hv ho
  refine ⟨n', ?_, hrep⟩
  rw [hput, if_neg]
  rw [hrep.isEmptyTrieParams_iff]
  cases b <;> simp [hne]

variable {common : TrieKeySlice}

lemma split_represents {pathRest : TrieKeySlice}
  (h : Represents keccak store n.ref (.node (common ++ b :: pathRest) value tl tr)) :
  Represents keccak store (n.split keccak store common).ref
    (Radix.fork common none b (.node pathRest value tl tr) .nil) := by
  have hpath := h.sharedPath_eq
  have hbit : n.sharedPath.getD common.length false = b := by simp [hpath]
  have hdrop : n.sharedPath.drop (common.length + 1) = pathRest := by simp [hpath]
  have hchild := h.withPath pathRest
  have hweight : NodeRef.referenceSize keccak store
      (TrieNode.ref { n with sharedPath := pathRest, longValueLen := none }) =
      weight keccak (.node pathRest value tl tr) := hchild.memorySize_eq
  simp only [TrieNode.split, hbit, hdrop, hweight]
  have hnil : weight keccak .nil = 0 := rfl
  cases b
  · rw [← add_zero (weight keccak _), ← hnil]
    exact .node hchild .empty (Or.inl rfl)
  rw [← zero_add (weight keccak _), ← hnil]
  exact .node .empty hchild (Or.inl rfl)

lemma internalPut_split (hx : x ≠ [])
  (hlt : (commonPath key n.sharedPath).length < n.sharedPath.length) :
  internalPut keccak store false (fuel + 1) n key (some x) =
    internalPut keccak store false fuel
      (n.split keccak store (commonPath key n.sharedPath)) key (some x) := by
  have hcoalesce : coalesce keccak store (some x) = some := rfl
  rw [internalPut]
  simp [hx, hlt, hcoalesce]

lemma internalPut_here (h : Represents keccak store n.ref (.node path value tl tr)) (hx : x ≠ [])
  (fuel : Nat) :
  ∃ n', internalPut keccak store false (fuel + 1) n path (some x) = some n' ∧
    Represents keccak store n'.ref (.node path (some x) tl tr) := by
  obtain ⟨rfl, rfl, hhash, hlen, hsize, hl, hr⟩ := h.node_parts
  have hcommon := commonPath_append n.sharedPath []
  rw [append_nil] at hcommon
  have hsome : some x ≠ some [] := by simpa using hx
  rw [internalPut]
  simp only [if_neg hsome, hcommon, lt_irrefl, if_false, ge_iff_le, le_refl, if_true,
    Bool.false_eq_true]
  by_cases hsame : n.value = some x
  · rw [if_pos hsame]
    rw [hsame] at h
    exact ⟨n, rfl, h⟩
  rw [if_neg hsame]
  refine ⟨_, rfl, ?_⟩
  rw [TrieNode.ref, hsize]
  exact .node hl hr (Or.inl rfl)

lemma internalPut_fork {child : StateTree} (hne : child ≠ .nil) (hvalid : Valid child)
  (h : Represents keccak store n.ref (Radix.fork common none b child .nil))
  (keyRest : TrieKeySlice) (hx : x ≠ []) (fuel : Nat) :
  ∃ n', internalPut keccak store false (fuel + 2) n (common ++ (!b) :: keyRest) (some x) =
      some n' ∧ Represents keccak store n'.ref
      (Radix.fork common none b child (.node keyRest (some x) .nil .nil)) := by
  have hsome : some x ≠ some [] := by simpa using hx
  have hleaf : Outcome keccak store ((internalPut keccak store false (fuel + 1)
      TrieNode.empty keyRest (some x)).bind (coalesce keccak store (some x)))
      (.node keyRest (some x) .nil .nil) := by
    rw [internalPut_empty keyRest hx]
    exact represents_leaf keyRest x
  have hnil : weight keccak .nil = 0 := rfl
  cases b
  · obtain ⟨rfl, h₂, -, -, -, hl, hr⟩ := node_parts h
    have hchild : n.left.isEmpty = false := by simpa using (hl.isEmpty_iff.not).mpr hne
    exact internalPut_child_some (b := true) hvalid Valid.nil
      (by simp [isEmptyTrie, hchild]) h (by simp [hnil, saturatingSub]) hsome
      (by simpa [hr.eq_empty, NodeRef.resolve] using hleaf) (by simp)
  obtain ⟨rfl, h₂, -, -, -, hl, hr⟩ := node_parts h
  have hchild : n.right.isEmpty = false := by simpa using (hr.isEmpty_iff.not).mpr hne
  exact internalPut_child_some (b := false) Valid.nil hvalid
    (by simp [isEmptyTrie, hchild]) h (by simp [hnil, saturatingSub]) hsome
    (by simpa [hl.eq_empty, NodeRef.resolve] using hleaf) (by simp)

/-- **`put` inserts into the tree.** -/
theorem internalPut_represents (hvalid : Valid t) (hfits : Fits keccak t)
  (h : n.StandsFor keccak store t) (hx : x ≠ []) (hfuel : 2 * key.length + 2 ≤ fuel) :
  ∃ n', internalPut keccak store false fuel n key (some x) = some n' ∧
    Represents keccak store n'.ref (t.insert key x) := by
  induction t generalizing n key fuel with
  | nil =>
    obtain ⟨fuel, rfl⟩ : ∃ m, fuel = m + 1 := ⟨fuel - 1, by omega⟩
    rcases h with ⟨rfl, -⟩ | h
    · exact ⟨_, internalPut_empty key hx fuel, represents_leaf key x⟩
    obtain ⟨_, _, heq, _⟩ := h.node_inv
    cases heq
  | node path value tl tr ihl ihr =>
    replace h := h.resolve_left fun h => nomatch h.2
    have hsome : some x ≠ some [] := by simpa using hx
    obtain ⟨fuel, rfl⟩ : ∃ m, fuel = m + 2 := ⟨fuel - 2, by omega⟩
    have hcompare := comparePath_holds key path
    rw [Radix.insert]
    cases hc : comparePath key path with
    | within rest =>
      rw [hc] at hcompare
      obtain rfl : key = path ++ rest := hcompare
      rcases rest with _ | ⟨b, rest⟩
      · rw [append_nil]
        exact internalPut_here h hx _
      have hlt : 2 * rest.length + 2 ≤ fuel + 1 := by
        simp at hfuel
        omega
      obtain ⟨rfl, rfl, -, -, -, hl, hr⟩ := h.node_parts
      have hnonempty : n.isEmptyTrie = false := isEmptyTrie_eq_false hl hvalid.canon.1 _
      cases b
      · obtain ⟨c, hc, hrep⟩ := ihl hvalid.left hfits.left
          (hl.standsFor_resolve hvalid.left) hlt
        exact internalPut_child_some hvalid.left hvalid.right hnonempty h
          (saturatingSub_weight hfits false) hsome
          (by simp only [Bool.false_eq_true, if_false, hc]; exact hrep)
          (insert_ne_nil _ _ _)
      obtain ⟨c, hc, hrep⟩ := ihr hvalid.right hfits.right
        (hr.standsFor_resolve hvalid.right) hlt
      exact internalPut_child_some hvalid.left hvalid.right hnonempty h
        (saturatingSub_weight hfits true) hsome
        (by simp only [if_true, hc]; exact hrep) (insert_ne_nil _ _ _)
    | ends common b pathRest =>
      rw [hc] at hcompare
      obtain ⟨rfl, rfl⟩ := hcompare
      have hsplit := split_represents h
      have hpath : n.sharedPath = key ++ b :: pathRest := h.sharedPath_eq
      rw [internalPut_split hx (by rw [hpath, commonPath_ends]; simp), hpath, commonPath_ends]
      cases b <;> exact internalPut_here hsplit hx _
    | parts common b pathRest keyRest =>
      rw [hc] at hcompare
      obtain ⟨rfl, rfl⟩ := hcompare
      have hpath : n.sharedPath = common ++ b :: pathRest := h.sharedPath_eq
      -- the key goes on below the cut, so there is fuel for the write after it
      obtain ⟨fuel, rfl⟩ : ∃ m, fuel = m + 1 := ⟨fuel - 1, by simp at hfuel; omega⟩
      rw [internalPut_split hx (by rw [hpath, commonPath_parts]; simp), hpath, commonPath_parts]
      exact internalPut_fork (by simp) (Valid.of_path hvalid) (split_represents h) keyRest hx fuel

lemma coalesce_represents (hvl : Valid tl) (hvr : Valid tr)
  (h : Represents keccak store n.ref (.node path value tl tr)) :
  Outcome keccak store (coalesce keccak store none n)
    (Radix.coalesce path value tl tr) := by
  obtain ⟨rfl, h₂, hhash, hlen, hsize, hl, hr⟩ := h.node_parts
  rw [coalesce]
  rcases value with _ | x
  · have hlong : n.longValueLen = none := by simpa [← h₂] using hlen
    rcases tl with _ | ⟨pl, vl, ll, lr⟩
    · have hleft : n.left.isEmpty = true := hl.isEmpty_iff.mpr rfl
      rcases tr with _ | ⟨pr, vr, rl, rr⟩
      · have hright : n.right.isEmpty = true := hr.isEmpty_iff.mpr rfl
        simp [isEmptyTrie, ← h₂, hlong, hleft, hright, Outcome, Radix.coalesce]
      have hright : n.right.isEmpty = false := by simpa using hr.isEmpty_iff.not.mpr (by simp)
      obtain ⟨c, hc, hrep⟩ := hr.resolve hvr (by simp)
      simp only [isEmptyTrie, ← h₂, hlong, hleft, hright, hc, isSome_none,
        isNone_none, Bool.and_false, Bool.false_eq_true, if_false, Bool.true_eq_false,
        if_true, map_some, rebuildSharedPath, hrep.sharedPath_eq]
      exact hrep.withPath _
    have hleft : n.left.isEmpty = false := by simpa using hl.isEmpty_iff.not.mpr (by simp)
    rcases tr with _ | ⟨pr, vr, rl, rr⟩
    · have hright : n.right.isEmpty = true := hr.isEmpty_iff.mpr rfl
      obtain ⟨c, hc, hrep⟩ := hl.resolve hvl (by simp)
      simp only [isEmptyTrie, ← h₂, hlong, hleft, hright, hc, isSome_none,
        isNone_none, Bool.and_false, Bool.false_and, Bool.false_eq_true, if_false,
        map_some, rebuildSharedPath, hrep.sharedPath_eq]
      exact hrep.withPath _
    have hright : n.right.isEmpty = false := by simpa using hr.isEmpty_iff.not.mpr (by simp)
    simp only [isEmptyTrie, ← h₂, hleft, hright, isSome_none, Bool.and_false,
      Bool.false_eq_true, if_false, if_true]
    exact h
  have hempty : n.isEmptyTrie = false := by simp [isEmptyTrie, ← h₂]
  simp only [isSome_none, Bool.false_eq_true, if_false, hempty, ← h₂, isSome_some, if_true]
  exact h

lemma coalesce_outcome (hvl : Valid tl) (hvr : Valid tr)
  (h : Represents keccak store n.ref (.node path value tl tr)) : Outcome keccak store
    ((if isEmptyTrieParams n.value n.left n.right then none else some n).bind
      (coalesce keccak store none)) (Radix.coalesce path value tl tr) := by
  by_cases hempty : isEmptyTrieParams n.value n.left n.right = true
  · obtain ⟨rfl, rfl, rfl⟩ := h.isEmptyTrieParams_iff.mp hempty
    rw [if_pos hempty]
    rfl
  rw [if_neg hempty]
  exact coalesce_represents hvl hvr h

lemma internalPut_empty_none (recursive : Bool) (key : TrieKeySlice) (fuel : Nat) :
  (internalPut keccak store recursive (fuel + 1) TrieNode.empty key none).bind
    (coalesce keccak store none) = none := by
  cases key <;>
    simp [internalPut, TrieNode.empty, commonPath, coalesce,
      isEmptyTrie, NodeRef.isEmpty]

lemma internalPut_none_off (hkey : ∀ rest, key ≠ n.sharedPath ++ rest) (recursive : Bool)
  (fuel : Nat) : internalPut keccak store recursive (fuel + 1) n key none = some n := by
  have hlt : (commonPath key n.sharedPath).length < n.sharedPath.length := by
    have hcompare := comparePath_holds key n.sharedPath
    cases hc : comparePath key n.sharedPath with
    | within rest =>
      rw [hc] at hcompare
      exact absurd hcompare (hkey rest)
    | ends common b pathRest =>
      rw [hc] at hcompare
      obtain ⟨hpath, rfl⟩ := hcompare
      rw [hpath, commonPath_ends]
      simp
    | parts common b pathRest keyRest =>
      rw [hc] at hcompare
      obtain ⟨hpath, rfl⟩ := hcompare
      rw [hpath, commonPath_parts]
      simp
  simp [internalPut, hlt]

lemma coalesce_canon (hvalid : Valid t) (h : Represents keccak store n.ref t) :
  coalesce keccak store none n = some n := by
  obtain ⟨tl, tr, rfl, -, -, -, hl, hr⟩ := h.node_inv
  have hnonempty : n.isEmptyTrie = false := isEmptyTrie_eq_false hl hvalid.canon.1 _
  rw [coalesce, hnonempty]
  rcases hvalid.canon.1 with hsome | ⟨hleft, hright⟩
  · simp [hsome]
  have hleft : n.left.isEmpty = false := by simpa using hl.isEmpty_iff.not.mpr hleft
  have hright : n.right.isEmpty = false := by simpa using hr.isEmpty_iff.not.mpr hright
  simp [hleft, hright]

/-- **A deletion removes from the tree what it removes at the node its key ends at.** Above that
node the write goes on into a child and coalesces. -/
theorem internalPut_removal {f : StateTree → TrieKeySlice → StateTree} (hf : Radix.Removal f)
  (hkeeps : ∀ {t}, Valid t → ∀ key, Valid (f t key))
  (hhere : ∀ {path value tl tr} {n : TrieNode}, Valid (.node path value tl tr) →
    Represents keccak store n.ref (.node path value tl tr) → ∀ fuel,
    Outcome keccak store ((internalPut keccak store recursive (fuel + 1) n path none).bind
      (coalesce keccak store none)) (f (.node path value tl tr) path)) (hvalid : Valid t)
  (hfits : Fits keccak t) (h : n.StandsFor keccak store t) (hfuel : key.length < fuel) :
  Outcome keccak store ((internalPut keccak store recursive fuel n key none).bind
    (coalesce keccak store none)) (f t key) := by
  induction t generalizing n key fuel with
  | nil =>
    obtain ⟨fuel, rfl⟩ : ∃ m, fuel = m + 1 := ⟨fuel - 1, by omega⟩
    rcases h with ⟨rfl, -⟩ | h
    · rw [internalPut_empty_none]
      exact hf.onNil key
    obtain ⟨_, _, heq, _⟩ := h.node_inv
    cases heq
  | node path value tl tr ihl ihr =>
    replace h := h.resolve_left fun h => by cases h.2
    obtain ⟨fuel, rfl⟩ : ∃ m, fuel = m + 1 := ⟨fuel - 1, by omega⟩
    obtain ⟨rfl, rfl, -, -, -, hl, hr⟩ := h.node_parts
    by_cases hkey : ∃ rest, key = n.sharedPath ++ rest
    · obtain ⟨rest, rfl⟩ := hkey
      rcases rest with _ | ⟨b, rest⟩
      · rw [append_nil]
        exact hhere hvalid h fuel
      have hlt : rest.length < fuel := by
        simp at hfuel
        omega
      have hnonempty : n.isEmptyTrie = false := isEmptyTrie_eq_false hl hvalid.canon.1 _
      rw [hf.down]
      cases b
      · have ho := ihl hvalid.left hfits.left (hl.standsFor_resolve hvalid.left) hlt
        obtain ⟨n', hrep, hput⟩ := internalPut_child (b := false) hvalid.left hvalid.right
          hnonempty h (saturatingSub_weight hfits false) (by simp) ho
        rw [hput]
        exact coalesce_outcome (hkeeps hvalid.left rest) hvalid.right hrep
      have ho := ihr hvalid.right hfits.right (hr.standsFor_resolve hvalid.right) hlt
      obtain ⟨n', hrep, hput⟩ := internalPut_child (b := true) hvalid.left hvalid.right
        hnonempty h (saturatingSub_weight hfits true) (by simp) ho
      rw [hput]
      exact coalesce_outcome hvalid.left (hkeeps hvalid.right rest) hrep
    have hout : ∀ rest, key ≠ n.sharedPath ++ rest := fun rest hrest => hkey ⟨rest, hrest⟩
    rw [internalPut_none_off hout, hf.off _ _ _ _ _ hout, bind_some, coalesce_canon hvalid h]
    exact h

lemma internalPut_none_self (fuel : Nat) :
  internalPut keccak store false (fuel + 1) n n.sharedPath none =
    if n.value = none then some n else if isEmptyTrieParams none n.left n.right then none
    else some { n with value := none, valueHash := none, longValueLen := none } := by
  have hcommon := commonPath_append n.sharedPath []
  rw [append_nil] at hcommon
  rw [internalPut]
  simp only [reduceCtorEq, if_false, hcommon, lt_irrefl, ge_iff_le, le_refl, if_true,
    Bool.false_eq_true, map_none]

lemma internalPut_none_here (hvalid : Valid (.node path value tl tr))
  (h : Represents keccak store n.ref (.node path value tl tr)) (fuel : Nat) :
  Outcome keccak store ((internalPut keccak store false (fuel + 1) n path none).bind
    (coalesce keccak store none)) ((Radix.node path value tl tr).delete path) := by
  obtain ⟨rfl, rfl, hhash, hlen, hsize, hl, hr⟩ := h.node_parts
  rw [delete_self, internalPut_none_self]
  by_cases hnone : n.value = none
  · rw [if_pos hnone]
    rw [hnone] at h
    exact coalesce_represents hvalid.left hvalid.right h
  rw [if_neg hnone]
  have hcleared : Represents keccak store
      (TrieNode.ref { n with value := none, valueHash := none, longValueLen := none })
      (.node n.sharedPath none tl tr) := by
    rw [TrieNode.ref, hsize]
    exact .node hl hr (Or.inl rfl)
  exact coalesce_outcome hvalid.left hvalid.right hcleared

/-- **`delete` deletes from the tree.** -/
theorem internalPut_none_represents (hvalid : Valid t) (hfits : Fits keccak t)
  (h : n.StandsFor keccak store t) (hfuel : key.length < fuel) :
  Outcome keccak store ((internalPut keccak store false fuel n key none).bind
    (coalesce keccak store none)) (t.delete key) :=
  internalPut_removal removal_delete (fun h => h.delete) internalPut_none_here hvalid hfits h
    hfuel

lemma put_standsFor (hvalid : Valid t) (hfits : Fits keccak t) (h : n.StandsFor keccak store t)
  (key : TrieKeySlice) (hx : x ≠ []) :
  (n.put keccak store key x).StandsFor keccak store (t.insert key x) := by
  obtain ⟨n', hput, hrep⟩ := internalPut_represents hvalid hfits h hx (le_refl (putFuel key))
  rw [TrieNode.put, hput]
  exact Or.inr hrep

lemma Outcome.standsFor (h : Outcome keccak store o t) :
  (o.getD .empty).StandsFor keccak store t := by
  cases o with
  | none => exact Or.inl ⟨rfl, h⟩
  | some n => exact Or.inr h

lemma delete_standsFor (hvalid : Valid t) (hfits : Fits keccak t) (h : n.StandsFor keccak store t)
  (key : TrieKeySlice) : (n.delete keccak store key).StandsFor keccak store (t.delete key) := by
  have hfuel : key.length < putFuel key := by
    unfold putFuel
    omega
  exact (internalPut_none_represents hvalid hfits h hfuel).standsFor

variable {store' : TrieStore}

lemma holds_of_batch {ref : NodeRef} (h : Represents keccak store ref t) (hc : t.Canon)
  (hext : store'.Extends store) {isRoot : Bool}
  (hbatch : ∀ e ∈ ref.collectForSave keccak isRoot, store' e.1 = some e.2) :
  Holds keccak store' t ∧ (t ≠ .nil → (isRoot = true ∨ ¬ Embedded keccak t) →
      store' (digest keccak t) = some (message keccak t)) := by
  induction h generalizing isRoot with
  | empty => exact ⟨trivial, fun hne => absurd rfl hne⟩
  | @node path value longValueLen left right tl tr hl hr hlen ihl ihr =>
    have hrep := @Represents.node keccak store path _ _ _ _ _ _ hl hr hlen
    have hmessage := (hrep.messages_eq hc).2 (by simp)
    obtain ⟨hnode, hcl, hcr⟩ := hc
    simp only [NodeRef.collectForSave, mem_append, or_imp, forall_and] at hbatch
    obtain ⟨⟨⟨hbl, hbr⟩, hbv⟩, hbn⟩ := hbatch
    obtain ⟨hhl, hsl⟩ := ihl hcl hbl
    obtain ⟨hhr, hsr⟩ := ihr hcr hbr
    refine ⟨⟨?_, ⟨hhl, fun hne hemb => hsl hne (Or.inr hemb)⟩,
      hhr, fun hne hemb => hsr hne (Or.inr hemb)⟩, ?_⟩
    · rintro x rfl hlong
      have hlongValue : TrieNode.hasLongValue ⟨path, some x, some (keccak x), longValueLen, left,
          right, weight keccak tl + weight keccak tr⟩ = true := by
        simpa [TrieNode.hasLongValue, TrieNode.valueLength] using hlong
      simpa [hlongValue, TrieNode.getValueHash] using hbv
    intro _ hroot
    have hwritten : (TrieNode.isEmbeddable ⟨path, value, value.map keccak, longValueLen, left, right,
        weight keccak tl + weight keccak tr⟩ && !isRoot) = false := by
      rcases hroot with rfl | hemb
      · simp
      have hfalse := hrep.isEmbeddable_eq.trans (Bool.eq_false_iff.mpr hemb)
      rw [TrieNode.isEmbeddable, TrieNode.ref, hfalse, Bool.false_and]
    rw [hwritten] at hbn
    have hentry := hbn _ (mem_singleton_self _)
    rwa [TrieNode.toMessage, TrieNode.ref, hmessage] at hentry
  | hash hne hemb hstored =>
    have := hstored.mono keccak hext
    exact ⟨this.2, fun _ _ => this.1⟩

lemma computeHash_eq_keccak (h : Represents keccak store n.ref t) (hc : t.Canon) :
  n.computeHash keccak = keccak (n.toMessage keccak) := by
  obtain ⟨tl, tr, rfl, -, -, -, hl, -⟩ := h.node_inv
  exact hashOf_eq hl hc.1 _ _

lemma computeHash_eq (h : Represents keccak store n.ref t) (hc : t.Canon) :
  n.computeHash keccak = digest keccak t := by
  rw [computeHash_eq_keccak h hc, digest, ← (h.messages_eq hc).2 (by simp [TrieNode.ref])]
  rfl

/-- **What is saved and read back by its hash stands for the same tree.** -/
theorem load_represents (hvalid : Valid t) (h : Represents keccak store n.ref t)
  (hext : store'.Extends store) (hbatch : ∀ e ∈ n.saveBatch keccak, store' e.1 = some e.2) :
  ∃ n', store'.load keccak (n.computeHash keccak) = some n' ∧
    Represents keccak store' n'.ref t := by
  have hne : t ≠ .nil := by
    obtain ⟨tl, tr, rfl, -⟩ := h.node_inv
    simp
  obtain ⟨hholds, hroot⟩ := holds_of_batch h hvalid.canon hext hbatch
  obtain ⟨n', hn', hrep⟩ := tryFromMessage_message hvalid hne hholds
  refine ⟨n', ?_, hrep⟩
  rw [TrieStore.load, computeHash_eq h hvalid.canon, hroot hne (Or.inl rfl)]
  exact hn'

end

end Rustock
