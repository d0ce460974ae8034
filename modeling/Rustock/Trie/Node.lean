import Mathlib.Logic.Function.Basic
import Rustock.Lib.Bits
import Rustock.Lib.CompactSize

/-!
# Unitrie nodes

The binary trie with path compression the state lives in (`trie/src/node.rs`, with `path.rs`,
`shared_path.rs` and `varint.rs`).

A path is the list of its bits; the shared allocation behind a `TrieKeySlice` is left out, and so
are the memo fields `saved` and `hash_cache`. The hash is a parameter throughout. Arithmetic on
`children_size` wraps, as it does in the release profile.
-/

namespace Rustock

open Lib
open CompactSize (size encode decode)

abbrev TrieKeySlice := List Bool

namespace TrieKeySlice

def commonPath : TrieKeySlice → TrieKeySlice → TrieKeySlice
  | a :: key, b :: other => if a = b then a :: commonPath key other else []
  | _, _ => []

/-- `[self][implicit_bit][child_shared_path]`, the path of a node merged with its only child. -/
def rebuildSharedPath (path : TrieKeySlice) (implicitBit : Bool) (child : TrieKeySlice) :
  TrieKeySlice :=
  path ++ implicitBit :: child

end TrieKeySlice

namespace SharedPath

def serializeLength (lshared : Nat) : Bytes :=
  if 1 ≤ lshared ∧ lshared ≤ 32 then [UInt8.ofNat (lshared - 1)]
  else if 160 ≤ lshared ∧ lshared ≤ 382 then [UInt8.ofNat (lshared - 128)]
  else 0xFF :: encode lshared

def serialize (sharedPath : TrieKeySlice) : Bytes :=
  if sharedPath.length = 0 then []
  else serializeLength sharedPath.length ++ packBits sharedPath

def lengthPrefixSize (lshared : Nat) : Nat :=
  if (1 ≤ lshared ∧ lshared ≤ 32) ∨ (160 ≤ lshared ∧ lshared ≤ 382) then 1
  else 1 + size lshared

def serializedLength (lshared : Nat) : Nat :=
  if lshared = 0 then 0 else lengthPrefixSize lshared + packedLength lshared

@[simp] lemma length_serialize (path : TrieKeySlice) :
  (serialize path).length = serializedLength path.length := by
  unfold serialize serializedLength serializeLength lengthPrefixSize
  split_ifs <;> simp <;> omega

end SharedPath

/-- The store behind a trie (`trie/src/store.rs`): nodes and long values, each under its hash. -/
abbrev TrieStore := B256 → Option Bytes

/-- Reference to a child node: absent, by hash, or in memory with the fields of a `TrieNode`. -/
inductive NodeRef where
  | empty
  | hash (h : B256)
  | node (sharedPath : TrieKeySlice) (value : Option Bytes) (valueHash : Option B256)
      (longValueLen : Option Nat) (left right : NodeRef) (childrenSize : UInt64)
deriving DecidableEq

structure TrieNode where
  sharedPath : TrieKeySlice
  value : Option Bytes
  valueHash : Option B256
  /-- Length of a value stored outside the node, as its message gives it. -/
  longValueLen : Option Nat
  left : NodeRef
  right : NodeRef
  childrenSize : UInt64
deriving DecidableEq

/-- `NodeRef::Node`. -/
def TrieNode.ref (n : TrieNode) : NodeRef :=
  .node n.sharedPath n.value n.valueHash n.longValueLen n.left n.right n.childrenSize

namespace NodeRef

def isEmpty : NodeRef → Bool
  | empty => true
  | _ => false

end NodeRef

namespace TrieNode

def empty : TrieNode := ⟨[], none, none, none, .empty, .empty, 0⟩

def isEmptyTrie (n : TrieNode) : Bool :=
  n.value.isNone && n.longValueLen.isNone && n.left.isEmpty && n.right.isEmpty

def isTerminal (n : TrieNode) : Bool := n.left.isEmpty && n.right.isEmpty

def valueLength (n : TrieNode) : Nat :=
  match n.value with
  | some v => v.length
  | none => n.longValueLen.getD 0

def hasLongValue (n : TrieNode) : Bool := n.valueLength > 32

def getValueHash (keccak : Bytes → B256) (n : TrieNode) : B256 :=
  n.valueHash.getD (match n.value with
    | some v => keccak v
    | none => .zero 32)

end TrieNode

def NodeRef.ofOption : Option TrieNode → NodeRef
  | some n => n.ref
  | none => .empty

def maxEmbeddedNodeSize : Nat := 44

namespace NodeRef

/-- Whether a reference is written into its parent, given the length of the node's message
(`NodeRef::is_embeddable`, `TrieNode::is_embeddable`). -/
def embeds (ref : NodeRef) (messageLength : Nat) : Bool :=
  match ref with
  | node _ _ _ _ left right _ =>
    left.isEmpty && right.isEmpty && messageLength ≤ maxEmbeddedNodeSize
  | _ => false

/-- Bytes a reference takes in its parent's message (`NodeRef::serialized_length`). -/
def serializedLengthOf (ref : NodeRef) (messageLength : Nat) : Nat :=
  if ref.isEmpty then 0 else if ref.embeds messageLength then 1 + messageLength else 32

/-- `TrieNode::message_length`, of the node a reference holds in memory. -/
def messageLength : NodeRef → Nat
  | node sharedPath value valueHash longValueLen left right childrenSize =>
    let n : TrieNode := ⟨sharedPath, value, valueHash, longValueLen, left, right, childrenSize⟩
    1 + SharedPath.serializedLength sharedPath.length
      + left.serializedLengthOf left.messageLength
      + right.serializedLengthOf right.messageLength
      + (if n.isTerminal then 0 else size childrenSize.toNat)
      + (if n.hasLongValue then 32 + 3 else n.valueLength)
  | _ => 0

def isEmbeddable (ref : NodeRef) : Bool := ref.embeds ref.messageLength

def serializedLength (ref : NodeRef) : Nat := ref.serializedLengthOf ref.messageLength

end NodeRef

/-- The empty trie hash is `keccak256(RLP(""))`. -/
def emptyTrieHash (keccak : Bytes → B256) : B256 := keccak [0x80]

def nodeFlags (hasLongVal hasPath left right leftEmbedded rightEmbedded : Bool) : UInt8 :=
  0x40 ||| (if hasLongVal then 0x20 else 0) ||| (if hasPath then 0x10 else 0)
    ||| (if left then 0x08 else 0) ||| (if right then 0x04 else 0)
    ||| (if leftEmbedded then 0x02 else 0) ||| (if rightEmbedded then 0x01 else 0)

section Messages

variable (keccak : Bytes → B256)

namespace NodeRef

/-- The hash of the in-memory node behind a reference, given its message
(`TrieNode::compute_hash`). -/
def hashOf (n : TrieNode) (message : Bytes) : B256 :=
  if n.isEmptyTrie then emptyTrieHash keccak else keccak message

/-- A reference as its parent's message holds it, given the node's own message
(`NodeRef::serialize_into`). -/
def serializeOf (ref : NodeRef) (message : Bytes) : Bytes :=
  match ref with
  | empty => []
  | hash h => h.bytes
  | node sharedPath value valueHash longValueLen left right childrenSize =>
    if ref.isEmbeddable then UInt8.ofNat message.length :: message
    else (hashOf keccak ⟨sharedPath, value, valueHash, longValueLen, left, right, childrenSize⟩
      message).bytes

def valueBytes (n : TrieNode) : Bytes :=
  if n.hasLongValue then (n.getValueHash keccak).bytes ++ beBytes 3 n.valueLength
  else n.value.getD []

/-- `TrieNode::to_message`, of the node a reference holds in memory. -/
def toMessage : NodeRef → Bytes
  | node sharedPath value valueHash longValueLen left right childrenSize =>
    let n : TrieNode := ⟨sharedPath, value, valueHash, longValueLen, left, right, childrenSize⟩
    nodeFlags n.hasLongValue (!sharedPath.isEmpty) (!left.isEmpty) (!right.isEmpty)
        left.isEmbeddable right.isEmbeddable
      :: (SharedPath.serialize sharedPath ++ left.serializeOf keccak left.toMessage
        ++ right.serializeOf keccak right.toMessage
        ++ (if n.isTerminal then [] else encode childrenSize.toNat)
        ++ valueBytes keccak n)
  | _ => []

end NodeRef

namespace TrieNode

def messageLength (n : TrieNode) : Nat := n.ref.messageLength

def isEmbeddable (n : TrieNode) : Bool := n.ref.isEmbeddable

def toMessage (n : TrieNode) : Bytes := n.ref.toMessage keccak

def computeHash (n : TrieNode) : B256 := NodeRef.hashOf keccak n (n.toMessage keccak)

end TrieNode

end Messages

def maxSharedPathBits : Nat := 1024

section Parsing

variable (keccak : Bytes → B256) (store : TrieStore)

/-- `Reader::byte`; a reader is what is left to read. -/
def readByte : Bytes → Option (UInt8 × Bytes)
  | [] => none
  | b :: r => some (b, r)

def readSharedPath (present : Bool) (r : Bytes) : Option (TrieKeySlice × Bytes) :=
  if present then do
    let (first, r) ← readByte r
    let first := first.toNat
    let (lshared, r) ←
      if first ≤ 31 then some (first + 1, r)
      else if first ≤ 254 then some (first + 128, r)
      else decode r
    if lshared > maxSharedPathBits then none
    else do
      let (encoded, r) ← takeExact (packedLength lshared) r
      some (unpackBits encoded lshared, r)
  else some ([], r)

/-- A child of a message; `parse` reads the body of an embedded one. -/
def readChild (parse : Bytes → Option TrieNode) (present embedded : Bool) (r : Bytes) :
  Option (NodeRef × Bytes) :=
  if !present then some (.empty, r)
  else if embedded then do
    let (len, r) ← readByte r
    let (body, r) ← takeExact len.toNat r
    let child ← parse body
    some (child.ref, r)
  else do
    let (h, r) ← takeExact 32 r
    some (.hash (.ofBytes 32 h), r)

def readChildrenSize (present : Bool) (r : Bytes) : Option (Nat × Bytes) :=
  if present then decode r else some (0, r)

def readValue (hasLongVal : Bool) (r : Bytes) : Option (Option Bytes × Option B256 × Option Nat) :=
  if hasLongVal then do
    let (vh, r) ← takeExact 32 r
    let (len, _) ← takeExact 3 r
    let vlen := beNat len
    let val := store (.ofBytes 32 vh)
    -- a stored value of the wrong length is not this node's value
    if val.any (·.length != vlen) then none
    else some (val, some (.ofBytes 32 vh), some vlen)
  else if r ≠ [] then some (some r, some (keccak r), none)
  else some (none, none, none)

/-- `TrieNode::try_from_message`; an embedded body is shorter than its message, so the message's
length bounds the recursion. -/
def TrieNode.parse : Nat → Bytes → Option TrieNode
  | 0, _ => none
  | fuel + 1, data => do
    let (flags, r) ← readByte data
    let hasLongVal := flags &&& 0x20 != 0
    let sharedPrefixPresent := flags &&& 0x10 != 0
    let leftPresent := flags &&& 0x08 != 0
    let rightPresent := flags &&& 0x04 != 0
    let leftEmbedded := flags &&& 0x02 != 0
    let rightEmbedded := flags &&& 0x01 != 0
    let (sharedPath, r) ← readSharedPath sharedPrefixPresent r
    let (left, r) ← readChild (TrieNode.parse fuel) leftPresent leftEmbedded r
    let (right, r) ← readChild (TrieNode.parse fuel) rightPresent rightEmbedded r
    let (childrenSize, r) ← readChildrenSize (leftPresent || rightPresent) r
    let (value, valueHash, longValueLen) ← readValue keccak store hasLongVal r
    some ⟨sharedPath, value, valueHash, longValueLen, left, right, UInt64.ofNat childrenSize⟩

def TrieNode.tryFromMessage (data : Bytes) : Option TrieNode :=
  TrieNode.parse keccak store (data.length + 1) data

namespace NodeRef

/-- `NodeRef::resolve` and `NodeRef::into_owned`. -/
def resolve : NodeRef → Option TrieNode
  | empty => none
  | node sharedPath value valueHash longValueLen left right childrenSize =>
    some ⟨sharedPath, value, valueHash, longValueLen, left, right, childrenSize⟩
  | hash h => do
    let data ← store h
    TrieNode.tryFromMessage keccak store data

def externalLength (n : TrieNode) : UInt64 :=
  if n.hasLongValue then UInt64.ofNat n.valueLength else 0

def referenceSize : NodeRef → UInt64
  | empty => 0
  | node sharedPath value valueHash longValueLen left right childrenSize =>
    let n : TrieNode := ⟨sharedPath, value, valueHash, longValueLen, left, right, childrenSize⟩
    n.childrenSize + externalLength n + UInt64.ofNat n.messageLength
  | hash h =>
    match store h with
    | some data =>
      match TrieNode.tryFromMessage keccak store data with
      | some n => n.childrenSize + externalLength n + UInt64.ofNat data.length
      | none => 0
    | none => 0

end NodeRef

namespace TrieNode

/-- `TrieNode::find`; the key gets shorter at every level. -/
def find : Nat → TrieNode → TrieKeySlice → Option TrieNode
  | 0, _, _ => none
  | fuel + 1, n, key =>
    let common := key.commonPath n.sharedPath
    if n.sharedPath.length > key.length then none
    else if common.length < n.sharedPath.length then none
    else if common.length = key.length then some n
    else
      let childRef := if key.getD common.length false then n.right else n.left
      match childRef.resolve keccak store with
      | some child => find fuel child (key.drop (common.length + 1))
      | none => none

def get (n : TrieNode) (key : TrieKeySlice) : Option Bytes :=
  (find keccak store (key.length + 1) n key).bind (·.value)

end TrieNode

/-- `u64::saturating_sub`. -/
def saturatingSub (a b : UInt64) : UInt64 := if b ≤ a then a - b else 0

namespace TrieNode

/-- The node cut at `commonPath`, an initial part of its path. -/
def split (n : TrieNode) (commonPath : TrieKeySlice) : TrieNode :=
  let commonLen := commonPath.length
  let newChild : TrieNode :=
    { n with sharedPath := n.sharedPath.drop (commonLen + 1), longValueLen := none }
  let childRef := newChild.ref
  let bit := n.sharedPath.getD commonLen false
  ⟨commonPath, none, none, none, if bit then .empty else childRef,
    if bit then childRef else .empty, childRef.referenceSize keccak store⟩

def isEmptyTrieParams (value : Option Bytes) (left right : NodeRef) : Bool :=
  value.isNone && left.isEmpty && right.isEmpty

/-- What `put_impl` does with the outcome of `internal_put`: a deletion that leaves a node with no
value and one child merges the two. -/
def coalesce (value : Option Bytes) (trie : TrieNode) : Option TrieNode :=
  if value.isSome then some trie
  else if trie.isEmptyTrie then none
  else if trie.value.isSome then some trie
  else if trie.left.isEmpty = trie.right.isEmpty then some trie
  else
    let implicitBit := trie.left.isEmpty
    let childRef := if implicitBit then trie.right else trie.left
    (childRef.resolve keccak store).map fun child =>
      { child with
        sharedPath := trie.sharedPath.rebuildSharedPath implicitBit child.sharedPath
        longValueLen := none }

/-- `TrieNode::internal_put`. A level cuts the node at most once and then goes on with a shorter
key. -/
def internalPut (isRecursiveDelete : Bool) :
  Nat → TrieNode → TrieKeySlice → Option Bytes → Option TrieNode
  | 0, _, _, _ => none
  | fuel + 1, n, key, value =>
    -- an empty value is a deletion
    let value := if value = some [] then none else value
    let common := key.commonPath n.sharedPath
    if common.length < n.sharedPath.length then
      if value.isNone then some n
      else
        (internalPut isRecursiveDelete fuel (n.split keccak store common) key value).bind
          (coalesce keccak store value)
    else if n.sharedPath.length ≥ key.length then
      if n.value = value then some n
      else if isRecursiveDelete then
        some ⟨n.sharedPath, none, none, none, .empty, .empty, 0⟩
      else if isEmptyTrieParams value n.left n.right then none
      else some { n with value := value, valueHash := value.map keccak, longValueLen := none }
    else if n.isEmptyTrie then
      some ⟨key, value, value.map keccak, none, .empty, .empty, 0⟩
    else
      let bit := key.getD n.sharedPath.length false
      let childRef := if bit then n.right else n.left
      let child := (childRef.resolve keccak store).getD empty
      let newChildOpt :=
        (internalPut isRecursiveDelete fuel child (key.drop (n.sharedPath.length + 1)) value).bind
          (coalesce keccak store value)
      let newRef := NodeRef.ofOption newChildOpt
      let newCs := saturatingSub n.childrenSize (childRef.referenceSize keccak store)
        + newRef.referenceSize keccak store
      let newLeft := if bit then n.left else newRef
      let newRight := if bit then newRef else n.right
      if isEmptyTrieParams n.value newLeft newRight then none
      else some { n with left := newLeft, right := newRight, childrenSize := newCs,
                         longValueLen := none }

/-- Calls of `internal_put` a key can take. -/
def putFuel (key : TrieKeySlice) : Nat := 2 * key.length + 2

def put (n : TrieNode) (key : TrieKeySlice) (value : Bytes) : TrieNode :=
  (internalPut keccak store false (putFuel key) n key (some value)).getD empty

def delete (n : TrieNode) (key : TrieKeySlice) : TrieNode :=
  ((internalPut keccak store false (putFuel key) n key none).bind
    (coalesce keccak store none)).getD empty

def deleteRecursive (n : TrieNode) (key : TrieKeySlice) : TrieNode :=
  ((internalPut keccak store true (putFuel key) n key none).bind
    (coalesce keccak store none)).getD empty

end TrieNode

end Parsing

section Saving

variable (keccak : Bytes → B256)

/-- What saving an in-memory subtree writes: children first, then the long value, then the node
unless it is embedded in its parent (`TrieNode::collect_for_save`). -/
def NodeRef.collectForSave (isRoot : Bool) : NodeRef → List (B256 × Bytes)
  | .node sharedPath value valueHash longValueLen left right childrenSize =>
    let n : TrieNode := ⟨sharedPath, value, valueHash, longValueLen, left, right, childrenSize⟩
    left.collectForSave false ++ right.collectForSave false
      ++ (if n.hasLongValue then (n.value.map fun v => (n.getValueHash keccak, v)).toList else [])
      ++ (if n.isEmbeddable && !isRoot then []
          else [(keccak (n.toMessage keccak), n.toMessage keccak)])
  | _ => []

/-- The batch `TrieNode::save` hands to the store. -/
def TrieNode.saveBatch (n : TrieNode) : List (B256 × Bytes) := n.ref.collectForSave keccak true

/-- `TrieStore::put_many`. -/
def TrieStore.putMany (store : TrieStore) (entries : List (B256 × Bytes)) : TrieStore :=
  entries.foldl (fun store entry => Function.update store entry.1 (some entry.2)) store

def TrieStore.load (store : TrieStore) (root : B256) : Option TrieNode :=
  (store root).bind (TrieNode.tryFromMessage keccak store)

end Saving

end Rustock
