import Rustock.Lib.Keccak
import Rustock.Trie.Node

/-!
# Strict reads of an incomplete store (trie/src/node.rs)

`try_get` is to tell state that is missing from state that is absent. It does for nodes: a reference
the store cannot follow is an error. The bytes of a long value are read when its node is parsed, and
a value the store has lost is parsed as no value.
-/

namespace Rustock

open Lib List Option NodeRef

inductive Resolution where
  | found (n : TrieNode)
  | absent
  | missing (h : B256)

section Reading

variable (keccak : Bytes → B256) (store : TrieStore)

def NodeRef.tryResolve : NodeRef → Resolution
  | .empty => .absent
  | .node sharedPath value valueHash longValueLen left right childrenSize =>
    .found ⟨sharedPath, value, valueHash, longValueLen, left, right, childrenSize⟩
  | .hash h =>
    match store h with
    | some data =>
      match TrieNode.tryFromMessage keccak store data with
      | some n => .found n
      | none => .missing h
    | none => .missing h

def NodeRef.hashes : NodeRef → List B256
  | .hash h => [h]
  | _ => []

namespace TrieNode

def child (n : TrieNode) (bit : Bool) : NodeRef := if bit then n.right else n.left

/-- The key gets shorter at every level. -/
def tryFind : Nat → TrieNode → TrieKeySlice → Except B256 (Option TrieNode)
  | 0, _, _ => .ok none
  | fuel + 1, n, key =>
    let common := key.commonPath n.sharedPath
    if n.sharedPath.length > key.length then .ok none
    else if common.length < n.sharedPath.length then .ok none
    else if common.length = key.length then .ok (some n)
    else
      match (n.child (key.getD common.length false)).tryResolve keccak store with
      | .found child => tryFind fuel child (key.drop (common.length + 1))
      | .absent => .ok none
      | .missing h => .error h

def tryGet (n : TrieNode) (key : TrieKeySlice) : Except B256 (Option Bytes) :=
  (tryFind keccak store (key.length + 1) n key).map fun found => found.bind (·.value)

def path : Nat → TrieNode → TrieKeySlice → List B256
  | 0, _, _ => []
  | fuel + 1, n, key =>
    let common := key.commonPath n.sharedPath
    if n.sharedPath.length > key.length then []
    else if common.length < n.sharedPath.length then []
    else if common.length = key.length then []
    else
      let ref := n.child (key.getD common.length false)
      ref.hashes ++ match ref.resolve keccak store with
        | some child => path fuel child (key.drop (common.length + 1))
        | none => []

inductive Reaches (root : TrieNode) : TrieNode → Prop
  | refl : Reaches root root
  | child {n c : TrieNode} (h : Reaches root n) (bit : Bool)
      (hc : (n.child bit).resolve keccak store = some c) : Reaches root c

structure Held (root : TrieNode) : Prop where
  nodes : ∀ n bit, Reaches keccak store root n → n.child bit ≠ .empty →
    ((n.child bit).resolve keccak store).isSome
  values : ∀ n, Reaches keccak store root n → n.longValueLen.isSome →
    ∃ h v, n.valueHash = some h ∧ store h = some v ∧ n.value = some v

end TrieNode

end Reading

def NodeRef.prune (store : TrieStore) : NodeRef → NodeRef
  | .node sharedPath value valueHash longValueLen left right childrenSize =>
    .node sharedPath (if longValueLen.isSome then valueHash.bind store else value) valueHash
      longValueLen (left.prune store) (right.prune store) childrenSize
  | ref => ref

def TrieNode.prune (store : TrieStore) (n : TrieNode) : TrieNode :=
  ⟨n.sharedPath, if n.longValueLen.isSome then n.valueHash.bind store else n.value, n.valueHash,
    n.longValueLen, n.left.prune store, n.right.prune store, n.childrenSize⟩

namespace TrieNode

section Subset

variable {keccak : Bytes → B256} {full store : TrieStore}
  (hsub : ∀ h, store h = none ∨ store h = full h)

include hsub

lemma readValue_prune {long : Bool} {r : Bytes} {value : Option Bytes} {hash : Option B256}
  {len : Option Nat} (h : readValue keccak full long r = some (value, hash, len)) :
  readValue keccak store long r =
    some (if len.isSome then hash.bind store else value, hash, len) := by
  unfold readValue at h ⊢
  cases long with
  | false =>
    simp only [Bool.false_eq_true, if_false] at h ⊢
    split at h <;> cases h <;> simp_all
  | true =>
    simp only [if_true, bind_eq_bind, bind_eq_some_iff] at h ⊢
    obtain ⟨⟨vh, r'⟩, htake, ⟨lenBytes, rest⟩, hlen, h⟩ := h
    split at h
    · cases h
    rename_i hlength
    cases h
    refine ⟨(vh, r'), htake, (lenBytes, rest), hlen, ?_⟩
    rcases hsub (.ofBytes 32 vh) with hnone | hsame
    · simp [hnone]
    rw [hsame, if_neg hlength]
    simp [hsame]

omit hsub in
lemma readChild_prune {parse parse' : Bytes → Option TrieNode}
  (hparse : ∀ body n, parse body = some n → parse' body = some (n.prune store))
  {present embedded : Bool} {r r' : Bytes} {ref : NodeRef}
  (h : readChild parse present embedded r = some (ref, r')) :
  readChild parse' present embedded r = some (ref.prune store, r') := by
  unfold readChild at h ⊢
  split_ifs at h ⊢
  · cases h
    rfl
  · simp only [bind_eq_bind, bind_eq_some_iff] at h ⊢
    obtain ⟨len, hlen, body, hbody, child, hchild, h⟩ := h
    cases h
    exact ⟨len, hlen, body, hbody, _, hparse _ _ hchild, rfl⟩
  simp only [bind_eq_bind, bind_eq_some_iff] at h ⊢
  obtain ⟨taken, htaken, h⟩ := h
  cases h
  exact ⟨taken, htaken, rfl⟩

lemma parse_prune : ∀ (fuel : Nat) (data : Bytes) (n : TrieNode),
  parse keccak full fuel data = some n → parse keccak store fuel data = some (n.prune store)
  | fuel + 1, data, n, h => by
    have ih := parse_prune fuel
    simp only [parse, bind_eq_bind, bind_eq_some_iff] at h ⊢
    obtain ⟨flags, hflags, sharedPath, hpath, left, hleft, right, hright, size, hsize, value,
      hvalue, h⟩ := h
    cases h
    exact ⟨flags, hflags, sharedPath, hpath, (left.1.prune store, left.2),
      readChild_prune ih hleft, (right.1.prune store, right.2), readChild_prune ih hright,
      size, hsize, _, readValue_prune hsub hvalue, rfl⟩

lemma tryResolve_prune {ref : NodeRef} {c : TrieNode} (h : ref.resolve keccak full = some c) :
  (∃ missing ∈ ref.hashes, store missing = none ∧
      (ref.prune store).tryResolve keccak store = .missing missing) ∨
    (∀ present ∈ ref.hashes, store present ≠ none) ∧
      (ref.prune store).tryResolve keccak store = .found (c.prune store) := by
  cases ref with
  | empty => cases h
  | node =>
    cases h
    exact .inr ⟨by simp [hashes], rfl⟩
  | hash hash =>
    obtain ⟨data, hdata, hparse⟩ := bind_eq_some_iff.mp h
    rcases hsub hash with hnone | hsame
    · refine .inl ⟨hash, mem_singleton_self _, hnone, ?_⟩
      simp only [NodeRef.prune, tryResolve, hnone]
    have hparse' := parse_prune hsub _ _ _ hparse
    rw [hdata] at hsame
    refine .inr ⟨by simp [hashes, hsame], ?_⟩
    simp only [NodeRef.prune, tryResolve, hsame, tryFromMessage, hparse']

/-- **What a strict walk returns**: the first node on the way that is missing, or the node the full
store has. -/
theorem tryFind_prune {root : TrieNode} (hheld : Held keccak full root) :
  ∀ (fuel : Nat) (n : TrieNode) (key : TrieKeySlice), Reaches keccak full root n →
    (∃ h ∈ path keccak full fuel n key, store h = none ∧
        tryFind keccak store fuel (n.prune store) key = .error h ∧
        ∃ m bit, Reaches keccak full root m ∧ m.child bit = .hash h) ∨
      (∀ h ∈ path keccak full fuel n key, store h ≠ none) ∧
        tryFind keccak store fuel (n.prune store) key =
          .ok ((find keccak full fuel n key).map (·.prune store)) ∧
        ∀ m, find keccak full fuel n key = some m → Reaches keccak full root m
  | 0, _, _, _ => .inr ⟨by simp [path], rfl, nofun⟩
  | fuel + 1, n, key, hn => by
    have hshared : (n.prune store).sharedPath = n.sharedPath := rfl
    simp only [path, tryFind, find, hshared]
    by_cases hshort : n.sharedPath.length > key.length
    · simp [hshort]
    by_cases hcommon : (key.commonPath n.sharedPath).length < n.sharedPath.length
    · simp [hshort, hcommon]
    by_cases hwhole : (key.commonPath n.sharedPath).length = key.length
    · simp [hshort, hwhole, hn]
    simp only [if_neg hshort, if_neg hcommon, if_neg hwhole]
    generalize key.getD (key.commonPath n.sharedPath).length false = bit
    have hchild : (n.prune store).child bit = (n.child bit).prune store := by cases bit <;> rfl
    have hfull : (if bit = true then n.right else n.left) = n.child bit := rfl
    rw [hchild, hfull]
    by_cases hempty : n.child bit = .empty
    · simp [hempty, hashes, NodeRef.prune, resolve, tryResolve]
    obtain ⟨c, hc⟩ := isSome_iff_exists.mp (hheld.nodes n bit hn hempty)
    rw [hc]
    rcases tryResolve_prune hsub hc with ⟨h, hmem, hnone, hmissing⟩ | ⟨hpresent, hfound⟩
    · rw [hmissing]
      refine .inl ⟨h, mem_append_left _ hmem, hnone, rfl, n, bit, hn, ?_⟩
      cases href : n.child bit with
      | hash h' => simp_all [hashes]
      | empty => simp_all
      | node => simp_all [hashes]
    rw [hfound]
    rcases tryFind_prune hheld fuel c _ (hn.child bit hc) with
      ⟨h, hmem, hmissing⟩ | ⟨hall, hok⟩
    · exact .inl ⟨h, mem_append_right _ hmem, hmissing⟩
    refine .inr ⟨fun h hmem => ?_, hok⟩
    rcases mem_append.mp hmem with hmem | hmem
    · exact hpresent h hmem
    · exact hall h hmem

/-- **When a strict read tells missing state from absent state.** For every trie held in full by one
store, every store with a subset of its entries and every key: the strict read names a node of the
trie the smaller store lacks or returns what the full store has, exactly if the key's value is not a
long one that the smaller store lacks, or it lacks a node on the way to it. -/
theorem strict_read_iff {data : Bytes} {root : TrieNode}
  (hroot : tryFromMessage keccak full data = some root)
  (hheld : Held keccak full root) (key : TrieKeySlice) :
  (∃ root', tryFromMessage keccak store data = some root' ∧
    ((∃ h, root'.tryGet keccak store key = .error h ∧ store h = none ∧
        ∃ m bit, Reaches keccak full root m ∧ m.child bit = .hash h) ∨
      root'.tryGet keccak store key = .ok (root.get keccak full key))) ↔
    ∀ n h, find keccak full (key.length + 1) root key = some n →
      n.longValueLen.isSome → n.valueHash = some h → store h = none →
        ∃ h' ∈ path keccak full (key.length + 1) root key, store h' = none := by
  have hroot' := parse_prune hsub _ _ _ hroot
  simp only [tryFromMessage, hroot', some.injEq, exists_eq_left', tryGet, get]
  rcases tryFind_prune hsub hheld (key.length + 1) root key .refl with
    ⟨h, hmem, hnone, herror, href⟩ | ⟨hall, hok, hreaches⟩
  · rw [herror]
    exact iff_of_true (.inl ⟨h, rfl, hnone, href⟩) fun _ _ _ _ _ _ => ⟨h, hmem, hnone⟩
  rw [hok]
  cases hfind : find keccak full (key.length + 1) root key with
  | none => exact iff_of_true (.inr rfl) fun _ _ h => nomatch h
  | some n =>
    have hvalues := hheld.values n (hreaches n hfind)
    constructor
    · rintro (⟨h, herror, _⟩ | hsame) m h hm hlong hhash hnone
      · cases herror
      cases hm
      obtain ⟨h', v, hh', _, hv⟩ := hvalues hlong
      -- the smaller store shows the node without its value
      have hlost : (n.prune store).value = none := by simp [prune, hlong, hhash, hnone]
      have hread : (n.prune store).value = n.value := Except.ok.inj hsame
      rw [hlost, hv] at hread
      cases hread
    intro hkept
    refine .inr (congrArg Except.ok ?_)
    change (n.prune store).value = n.value
    by_cases hlong : n.longValueLen.isSome
    · obtain ⟨h, v, hh, hstore, hv⟩ := hvalues hlong
      have hpresent : store h ≠ none := fun hnone => by
        obtain ⟨h', hmem, hnone'⟩ := hkept n h rfl hlong hh hnone
        exact hall h' hmem hnone'
      have hsame := (hsub h).resolve_left hpresent
      simp [prune, hlong, hh, hsame, hstore, hv]
    · simp [prune, hlong]

end Subset

end TrieNode

namespace StrictExample

def value : Bytes := List.replicate 33 1

def longMessage : Bytes := 0x60 :: ((keccak256 value).bytes ++ beBytes 3 33)

def full : TrieStore := fun h => if h = keccak256 value then some value else none

/-- The node of `longMessage`, read over a store that holds its value. -/
def leaf : TrieNode := ⟨[], some value, some (keccak256 value), some 33, .empty, .empty, 0⟩

/-- A node with `leaf` to its left, by hash. -/
def branch : TrieNode := ⟨[], none, none, none, .hash (keccak256 longMessage), .empty, 0⟩

def branchMessage : Bytes := 0x48 :: ((keccak256 longMessage).bytes ++ [0])

def branchStore : TrieStore := fun h => if h = keccak256 longMessage then some longMessage else full h

theorem branch_parsed :
    TrieNode.tryFromMessage keccak256 branchStore branchMessage = some branch ∧
      (branch.child false).resolve keccak256 branchStore = some leaf ∧
      branchStore (keccak256 value) = some value := by
  decide +kernel

theorem branch_held : branch.Held keccak256 branchStore := by
  obtain ⟨-, hleaf, hvalue⟩ := branch_parsed
  have hreach : ∀ n, branch.Reaches keccak256 branchStore n → n = branch ∨ n = leaf := by
    intro n hn
    induction hn with
    | refl => exact .inl rfl
    | child _ bit hc ih =>
      rcases ih with rfl | rfl <;> cases bit
      · exact .inr (Option.some.inj (hc.symm.trans hleaf))
      all_goals cases hc
  constructor
  · intro n bit hn hne
    rcases hreach n hn with rfl | rfl <;> cases bit
    · rw [hleaf]
      rfl
    all_goals exact absurd rfl hne
  intro n hn hlong
  rcases hreach n hn with rfl | rfl
  · cases hlong
  · exact ⟨_, _, rfl, hvalue, rfl⟩

end StrictExample

open StrictExample

/-- The value is lost from the store, and the strict read says that there is none. -/
theorem missing_value_absent :
  (TrieNode.tryFromMessage keccak256 full longMessage).map (·.get keccak256 full []) =
      some (some value) ∧ (TrieNode.tryFromMessage keccak256 (fun _ => none) longMessage).map
      (fun n => (n.tryGet keccak256 (fun _ => none) []).toOption) = some (some none) := by
  decide +kernel

/-- A node and the long value below it are both lost: the key has a value in the full store, and the
strict read names what is missing. -/
theorem strict_read_branch : branch.get keccak256 branchStore [false] = some value ∧
    ∃ root', TrieNode.tryFromMessage keccak256 (fun _ => none) branchMessage = some root' ∧
      ((∃ h, root'.tryGet keccak256 (fun _ => none) [false] = .error h ∧
          (none : Option Bytes) = none ∧
          ∃ m bit, branch.Reaches keccak256 branchStore m ∧ m.child bit = .hash h) ∨
        root'.tryGet keccak256 (fun _ => none) [false] =
          .ok (branch.get keccak256 branchStore [false])) := by
  refine ⟨by decide +kernel, ?_⟩
  refine (TrieNode.strict_read_iff (fun _ => .inl rfl) branch_parsed.1 branch_held [false]).mpr ?_
  intro _ _ _ _ _ _
  exact ⟨keccak256 longMessage, .head _, rfl⟩

end Rustock
