import Rustock.Trie.Represents

/-!
# Reading messages back

A message read with a store that holds the tree gives a node that stands for the tree
(`parse_message`), field by field: flags, shared path, children, size, value.
-/

namespace Rustock

open Lib List Option UInt64 Lib.Radix CompactSize

structure Valid (t : StateTree) : Prop where
  canon : t.Canon
  entries : ∀ key x, t.lookup key = some x →
    key.length ≤ maxSharedPathBits ∧ x ≠ [] ∧ x.length < 2 ^ 24

namespace Valid

lemma nil : Valid (.nil : StateTree) := ⟨trivial, fun _ _ h => nomatch h⟩

variable {path : TrieKeySlice} {v : Option Bytes} {l r : StateTree}

section

variable (h : Valid (.node path v l r))

include h

lemma left : Valid l :=
  ⟨h.canon.2.1, fun key x hkey => by
    have := h.entries (path ++ false :: key) x (by
      rw [lookup_node, under_append]
      exact hkey)
    simp only [length_append, length_cons] at this
    exact ⟨by omega, this.2⟩⟩

lemma right : Valid r :=
  ⟨h.canon.2.2, fun key x hkey => by
    have := h.entries (path ++ true :: key) x (by
      rw [lookup_node, under_append]
      exact hkey)
    simp only [length_append, length_cons] at this
    exact ⟨by omega, this.2⟩⟩

lemma path_le : path.length ≤ maxSharedPathBits := by
  obtain ⟨key, x, hkey⟩ := exists_key h.canon (by simp)
  exact (initial_of_lookup hkey).length_le.trans (h.entries key x hkey).1

lemma value {x : Bytes} (hx : v = some x) : x ≠ [] ∧ x.length < 2 ^ 24 :=
  (h.entries (path ++ []) x (by rw [lookup_node, under_append]; exact hx)).2

end

lemma of_path {common : TrieKeySlice} {b : Bool} (h : Valid (.node (common ++ b :: path) v l r)) :
  Valid (.node path v l r) :=
  ⟨h.canon, fun key x hkey => by
    have := h.entries (common ++ [b] ++ key) x (by
      rw [lookup_node, append_cons, ← under_under, under_append, ← lookup_node]
      exact hkey)
    rw [length_append] at this
    exact ⟨by omega, this.2⟩⟩

variable {t : StateTree}

lemma insert (h : Valid t) {key : TrieKeySlice} {x : Bytes}
  (hkey : key.length ≤ maxSharedPathBits) (hx : x ≠ []) (hlen : x.length < 2 ^ 24) :
  Valid (t.insert key x) :=
  ⟨canon_insert h.canon key x, fun k y hk => by
    rw [lookup_insert, Function.update_apply] at hk
    split at hk
    · rename_i heq
      cases hk
      exact ⟨heq ▸ hkey, hx, hlen⟩
    · exact h.entries k y hk⟩

lemma delete (h : Valid t) (key : TrieKeySlice) : Valid (t.delete key) :=
  ⟨canon_delete h.canon key, fun k y hk => by
    rw [lookup_delete, Function.update_apply] at hk
    split at hk
    · cases hk
    · exact h.entries k y hk⟩

lemma deleteBelow (h : Valid t) (key : TrieKeySlice) : Valid (t.deleteBelow key) := by
  refine ⟨canon_deleteBelow h.canon key, fun k y hk => ?_⟩
  rcases hkey : t.lookup key with _ | x
  · rw [deleteBelow_of_lookup_none h.canon hkey] at hk
    exact h.entries k y hk
  rw [lookup_deleteBelow hkey] at hk
  split at hk
  · cases hk
  · exact h.entries k y hk

end Valid

lemma nodeFlags_bits : ∀ long path left right leftEmb rightEmb : Bool,
  let flags := nodeFlags long path left right leftEmb rightEmb
  (flags &&& 0x20 != 0) = long ∧ (flags &&& 0x10 != 0) = path ∧
    (flags &&& 0x08 != 0) = left ∧ (flags &&& 0x04 != 0) = right ∧
    (flags &&& 0x02 != 0) = leftEmb ∧ (flags &&& 0x01 != 0) = rightEmb := by
  decide

lemma readSharedPath_serialize {path : TrieKeySlice} (h : path.length ≤ maxSharedPathBits)
  (rest : Bytes) :
  readSharedPath (!path.isEmpty) (SharedPath.serialize path ++ rest) = some (path, rest) := by
  rcases path with _ | ⟨b, path⟩
  · rfl
  set p := b :: path with hp
  have hpos : p.length ≠ 0 := by simp [hp]
  have hpack := takeExact_append (length_packBits p) rest
  have hbits := unpackBits_packBits p
  have hmax : ¬ maxSharedPathBits < p.length := by omega
  have hpresent : (!p.isEmpty) = true := by simp [hp]
  rw [hpresent, SharedPath.serialize, if_neg hpos, SharedPath.serializeLength]
  unfold maxSharedPathBits at h
  split_ifs with h1 h2
  · have hfirst : (UInt8.ofNat (p.length - 1)).toNat = p.length - 1 := by
      rw [UInt8.toNat_ofNat']
      omega
    have hle : p.length - 1 ≤ 31 := by omega
    have hsucc : p.length - 1 + 1 = p.length := by omega
    simp only [readSharedPath, readByte, cons_append, nil_append, hfirst, hle, hsucc,
      hmax, if_true, if_false, bind_eq_bind, bind_some]
    simp [hpack, hbits]
  · have hfirst : (UInt8.ofNat (p.length - 128)).toNat = p.length - 128 := by
      rw [UInt8.toNat_ofNat']
      omega
    have hnot : ¬ p.length - 128 ≤ 31 := by omega
    have hle : p.length - 128 ≤ 254 := by omega
    have hsum : p.length - 128 + 128 = p.length := by omega
    simp [readSharedPath, readByte, hfirst, hnot, hle, hsum, hmax, hpack, hbits]
  have hdecode := @CompactSize.decode_encode p.length (by omega) (packBits p ++ rest)
  simp [readSharedPath, readByte, hdecode, hmax, hpack, hbits]

section

variable {keccak : Bytes → B256} {store : TrieStore} {value : Option Bytes}

lemma readValue_valueBytes (hvalid : ∀ x, value = some x → x ≠ [] ∧ x.length < 2 ^ 24)
  (hstore : ∀ x, value = some x → 32 < x.length → store (keccak x) = some x) :
  ∃ longValueLen, (longValueLen = none ∨ longValueLen = value.map List.length) ∧
    readValue keccak store (decide (32 < (value.getD []).length))
      (if 32 < (value.getD []).length then
        (keccak (value.getD [])).bytes ++ beBytes 3 (value.getD []).length
      else value.getD []) = some (value, value.map keccak, longValueLen) := by
  rcases value with _ | x
  · exact ⟨none, Or.inl rfl, rfl⟩
  obtain ⟨hne, hlt⟩ := hvalid x rfl
  by_cases hlong : 32 < x.length
  · refine ⟨some x.length, Or.inr rfl, ?_⟩
    have hhash := takeExact_append (FixedBytes.length_bytes (keccak x)) (beBytes 3 x.length)
    have hlen := takeExact_append (length_beBytes 3 x.length) ([] : Bytes)
    rw [append_nil] at hlen
    have hnat : beNat (beBytes 3 x.length) = x.length := by
      rw [beNat_beBytes, Nat.mod_eq_of_lt (by omega)]
    simp [readValue, hlong, hhash, hlen, hnat, hstore x rfl hlong]
  · exact ⟨none, Or.inl rfl, by simp [readValue, hlong, hne]⟩

variable {t : StateTree}

lemma readChild_serializeOf {parse : Bytes → Option TrieNode} (hc : t.Canon)
  (hstored : t ≠ .nil → ¬ Embedded keccak t → Stored keccak store t)
  (hlength : Embedded keccak t → (message keccak t).length ≤ maxEmbeddedNodeSize)
  (hparse : Embedded keccak t →
    ∃ n, parse (message keccak t) = some n ∧ Represents keccak store n.ref t) :
  ∃ ref, Represents keccak store ref t ∧
    ∀ rest, readChild parse (!(image keccak t).isEmpty) (image keccak t).isEmbeddable
      ((image keccak t).serializeOf keccak (message keccak t) ++ rest) = some (ref, rest) := by
  cases t with
  | nil => exact ⟨.empty, .empty, fun _ => rfl⟩
  | node path value tl tr =>
    by_cases hemb : Embedded keccak (.node path value tl tr)
    · obtain ⟨n, hn, hrep⟩ := hparse hemb
      refine ⟨n.ref, hrep, fun rest => ?_⟩
      have hlen := hlength hemb
      unfold Embedded at hemb
      have hfirst : (UInt8.ofNat (message keccak (.node path value tl tr)).length).toNat =
          (message keccak (.node path value tl tr)).length := by
        rw [UInt8.toNat_ofNat']
        unfold maxEmbeddedNodeSize at hlen
        omega
      rw [hemb]
      simp only [image] at hemb
      simp [image, NodeRef.serializeOf, hemb, readChild, NodeRef.isEmpty, readByte, hfirst,
        takeExact_append rfl, hn]
    refine ⟨.hash (digest keccak (.node path value tl tr)),
      .hash (by simp) hemb (hstored (by simp) hemb), fun rest => ?_⟩
    have hfalse : (image keccak (.node path value tl tr)).isEmbeddable = false := by
      simpa [Embedded] using hemb
    rw [hfalse]
    simp only [image] at hfalse
    simp [image, NodeRef.serializeOf, hfalse, readChild, NodeRef.isEmpty,
      Represents.hashOf_eq (represents_image keccak store tl) hc.1,
      takeExact_append (FixedBytes.length_bytes _), digest]

lemma length_serializeOf (h : (message keccak t).length = (image keccak t).messageLength) :
  ((image keccak t).serializeOf keccak (message keccak t)).length =
    (image keccak t).serializedLength := by
  cases t with
  | nil => rfl
  | node path value tl tr =>
    have hlength : (image keccak (.node path value tl tr)).serializedLength =
        if (image keccak (.node path value tl tr)).isEmbeddable then
          1 + (image keccak (.node path value tl tr)).messageLength
        else 32 := rfl
    rw [hlength, ← h]
    by_cases hemb : (image keccak (.node path value tl tr)).isEmbeddable
    · rw [if_pos hemb]
      simp only [image] at hemb
      simp [image, NodeRef.serializeOf, hemb, Nat.add_comm]
    rw [if_neg hemb]
    simp only [image] at hemb
    simp [image, NodeRef.serializeOf, hemb]

lemma length_message (t : StateTree) :
  (message keccak t).length = (image keccak t).messageLength := by
  induction t with
  | nil => rfl
  | node path value tl tr ihl ihr =>
    have hleft := length_serializeOf ihl
    have hright := length_serializeOf ihr
    simp only [message, NodeRef.serializedLength] at hleft hright
    simp only [message, image, NodeRef.toMessage, NodeRef.messageLength, length_cons,
      length_append, hleft, hright, SharedPath.length_serialize, hasLongValue_eq (Or.inl rfl),
      valueLength_eq (Or.inl rfl), valueBytes_eq keccak (Or.inl rfl)]
    split_ifs <;> simp_all <;> omega

variable {tl tr : StateTree}

def nodeMessage (keccak : Bytes → B256) (path : TrieKeySlice) (value : Option Bytes)
  (tl tr : StateTree) (childrenSize : UInt64) : Bytes :=
  nodeFlags (decide (32 < (value.getD []).length)) (!path.isEmpty) (!(image keccak tl).isEmpty)
      (!(image keccak tr).isEmpty) (image keccak tl).isEmbeddable (image keccak tr).isEmbeddable
    :: (SharedPath.serialize path ++ ((image keccak tl).serializeOf keccak (message keccak tl)
      ++ ((image keccak tr).serializeOf keccak (message keccak tr)
      ++ ((if (image keccak tl).isEmpty && (image keccak tr).isEmpty then []
          else encode childrenSize.toNat)
      ++ (if 32 < (value.getD []).length then
            (keccak (value.getD [])).bytes ++ beBytes 3 (value.getD []).length
          else value.getD [])))))

variable {longValueLen : Option Nat}

lemma toMessage_node {left right : NodeRef} (hl : Represents keccak store left tl)
  (hr : Represents keccak store right tr) (hcl : tl.Canon) (hcr : tr.Canon) (path : TrieKeySlice)
  (hlen : longValueLen = none ∨ longValueLen = value.map List.length) (childrenSize : UInt64) :
  NodeRef.toMessage keccak
      (.node path value (value.map keccak) longValueLen left right childrenSize) =
    nodeMessage keccak path value tl tr childrenSize := by
  simp only [nodeMessage, NodeRef.toMessage, hasLongValue_eq hlen, valueBytes_eq keccak hlen,
    append_assoc, (hl.messages_eq hcl).1, (hr.messages_eq hcr).1, TrieNode.isTerminal,
    hl.isEmpty_eq, hr.isEmpty_eq, hl.isEmbeddable_eq, hr.isEmbeddable_eq]

variable {path : TrieKeySlice}

lemma message_node (hc : (Radix.node path value tl tr).Canon) :
  message keccak (.node path value tl tr) =
    nodeMessage keccak path value tl tr (weight keccak tl + weight keccak tr) :=
  toMessage_node (represents_image keccak (fun _ => none) tl)
    (represents_image keccak (fun _ => none) tr) hc.2.1 hc.2.2 path (Or.inl rfl) _

lemma toMessage_ne {left right left' right' : NodeRef} {store' : TrieStore}
  (hl : Represents keccak store left tl) (hr : Represents keccak store right tr)
  (hl' : Represents keccak store' left' tl) (hr' : Represents keccak store' right' tr)
  (hcl : tl.Canon) (hcr : tr.Canon) {longValueLen' : Option Nat}
  (hlen : longValueLen = none ∨ longValueLen = value.map List.length)
  (hlen' : longValueLen' = none ∨ longValueLen' = value.map List.length) (hne : tl ≠ .nil)
  {size size' : UInt64} (hsize : size ≠ size') :
  NodeRef.toMessage keccak (.node path value (value.map keccak) longValueLen left right size) ≠
    NodeRef.toMessage keccak
      (.node path value (value.map keccak) longValueLen' left' right' size') := by
  rw [toMessage_node hl hr hcl hcr path hlen, toMessage_node hl' hr' hcl hcr path hlen',
    nodeMessage, nodeMessage]
  have hchild : ¬ ((image keccak tl).isEmpty && (image keccak tr).isEmpty) = true := by
    rw [Bool.and_eq_true, isEmpty_image]
    exact fun h => hne h.1
  intro heq
  simp only [List.cons.injEq, true_and, append_cancel_left_eq, if_neg hchild,
    append_cancel_right_eq] at heq
  have hdecode := decode_encode (toNat_lt size) []
  rw [heq, decode_encode (toNat_lt size') []] at hdecode
  simp only [some.injEq, Prod.mk.injEq, and_true] at hdecode
  exact hsize (UInt64.toNat_inj.mp hdecode.symm)

lemma readChildrenSize_weight (tl tr : StateTree) (rest : Bytes) :
  readChildrenSize (!(image keccak tl).isEmpty || !(image keccak tr).isEmpty)
    ((if (image keccak tl).isEmpty && (image keccak tr).isEmpty then []
      else encode (weight keccak tl + weight keccak tr).toNat) ++ rest) =
    some ((weight keccak tl + weight keccak tr).toNat, rest) := by
  by_cases hnone : ((image keccak tl).isEmpty && (image keccak tr).isEmpty) = true
  · obtain ⟨hl, hr⟩ := Bool.and_eq_true_iff.mp hnone
    obtain rfl := (isEmpty_image keccak).mp hl
    obtain rfl := (isEmpty_image keccak).mp hr
    rfl
  have hsome : (!(image keccak tl).isEmpty || !(image keccak tr).isEmpty) = true := by
    rw [← Bool.not_and, Bool.not_eq_true']
    simpa using hnone
  rw [readChildrenSize, if_pos hsome, if_neg hnone, decode_encode (toNat_lt _)]

lemma parse_node (hvalid : Valid (.node path value tl tr))
  (hholds : Holds keccak store (.node path value tl tr)) {fuel : Nat}
  (hleft : Embedded keccak tl → ∃ n, TrieNode.parse keccak store fuel (message keccak tl) = some n ∧
    Represents keccak store n.ref tl)
  (hright : Embedded keccak tr → ∃ n, TrieNode.parse keccak store fuel (message keccak tr) = some n ∧
    Represents keccak store n.ref tr) :
  ∃ n, TrieNode.parse keccak store (fuel + 1) (message keccak (.node path value tl tr)) = some n ∧
    Represents keccak store n.ref (.node path value tl tr) := by
  obtain ⟨hvalue, ⟨hhl, hsl⟩, hhr, hsr⟩ := hholds
  obtain ⟨longValueLen, hlen, hread⟩ := readValue_valueBytes (fun _ => hvalid.value) hvalue
  have hembLength : ∀ t, Embedded keccak t → (message keccak t).length ≤ maxEmbeddedNodeSize := by
    intro t hemb
    rw [length_message]
    exact length_le_of_embedded keccak hemb
  obtain ⟨left, hrepl, hl⟩ := readChild_serializeOf hvalid.left.canon
    (fun hne hemb => ⟨hsl hne hemb, hhl⟩) (hembLength tl) hleft
  obtain ⟨right, hrepr, hr⟩ := readChild_serializeOf hvalid.right.canon
    (fun hne hemb => ⟨hsr hne hemb, hhr⟩) (hembLength tr) hright
  obtain ⟨h20, h10, h08, h04, h02, h01⟩ := nodeFlags_bits (decide (32 < (value.getD []).length))
    (!path.isEmpty) (!(image keccak tl).isEmpty) (!(image keccak tr).isEmpty)
    (image keccak tl).isEmbeddable (image keccak tr).isEmbeddable
  refine ⟨⟨path, value, value.map keccak, longValueLen, left, right,
    weight keccak tl + weight keccak tr⟩, ?_, .node hrepl hrepr hlen⟩
  rw [message_node hvalid.canon, nodeMessage, TrieNode.parse]
  simp only [readByte, bind_eq_bind, bind_some, h20, h10, h08, h04, h02, h01,
    readSharedPath_serialize hvalid.path_le, hl, hr, readChildrenSize_weight, hread, UInt64.ofNat_toNat]

/-- **A message read with a store that holds the tree gives a node that stands for the tree.** -/
theorem parse_message (hvalid : Valid t) (hne : t ≠ .nil) (hholds : Holds keccak store t)
  (fuel : Nat) : ∃ n, TrieNode.parse keccak store (fuel + 2) (message keccak t) = some n ∧
    Represents keccak store n.ref t := by
  -- only leaves are embedded, so two levels of parsing are enough
  have hchild : ∀ {s : StateTree}, Valid s → Holds keccak store s → Embedded keccak s →
      ∃ n, TrieNode.parse keccak store (fuel + 1) (message keccak s) = some n ∧
        Represents keccak store n.ref s := by
    intro s hs hh hemb
    cases s with
    | nil => cases hemb
    | node path value left right =>
      obtain ⟨rfl, rfl⟩ := terminal_of_embedded keccak hemb
      exact parse_node hs hh (fun h => nomatch h) (fun h => nomatch h)
  cases t with
  | nil => exact absurd rfl hne
  | node path value left right =>
    exact parse_node hvalid hholds (hchild hvalid.left hholds.2.1.1)
      (hchild hvalid.right hholds.2.2.1)

lemma tryFromMessage_message (hvalid : Valid t) (hne : t ≠ .nil) (hholds : Holds keccak store t) :
  ∃ n, TrieNode.tryFromMessage keccak store (message keccak t) = some n ∧
    Represents keccak store n.ref t := by
  cases t with
  | nil => exact absurd rfl hne
  | node path value left right =>
    obtain ⟨k, hk⟩ : ∃ k, (message keccak (.node path value left right)).length = k + 1 :=
      ⟨_, by rw [message_node hvalid.canon, nodeMessage, length_cons]⟩
    rw [TrieNode.tryFromMessage, hk]
    exact parse_message hvalid hne hholds k

end

end Rustock
