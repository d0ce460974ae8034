import Rustock.Trie.History

/-!
# Deletions

Two more operations of the trie.

- `put` with an empty value. Below the root it is a deletion; at the root it leaves out the
  coalescing that `delete` ends with. The two agree unless the deletion leaves the root without a
  value and with an only child (`put_nil_computeHash_eq_delete_iff`).
- `delete_recursive` takes a key with a value away together with every key below it, and leaves
  any other key alone, as far as sizes fit (`deleteRecursive_removes_subtree`).
-/

namespace Rustock

open Lib List Option
open Lib.Radix hiding coalesce
open TrieNode (internalPut isEmptyTrie isEmptyTrieParams putFuel coalesce)

section

variable {keccak : Bytes → B256} {store : TrieStore}

lemma internalPut_some_nil (recursive : Bool) (fuel : Nat) (n : TrieNode) (key : TrieKeySlice) :
  internalPut keccak store recursive fuel n key (some []) =
    internalPut keccak store recursive fuel n key none := by
  cases fuel with
  | zero => rfl
  | succ fuel => simp [internalPut]

lemma put_nil (n : TrieNode) (key : TrieKeySlice) : n.put keccak store key [] =
    (internalPut keccak store false (putFuel key) n key none).getD .empty := by
  rw [TrieNode.put, internalPut_some_nil]

def TrieNode.OnlyChild (n : TrieNode) : Prop :=
  n.value = none ∧ n.left.isEmpty ≠ n.right.isEmpty

instance (n : TrieNode) : Decidable n.OnlyChild := inferInstanceAs (Decidable (_ ∧ _))

variable {n : TrieNode}

lemma computeHash_of_isEmptyTrie (h : n.isEmptyTrie = true) :
  n.computeHash keccak = emptyTrieHash keccak := by
  rw [TrieNode.computeHash, NodeRef.hashOf, if_pos h]

lemma computeHash_of_not_isEmptyTrie (h : n.isEmptyTrie = false) :
  n.computeHash keccak = keccak (n.toMessage keccak) := by
  rw [TrieNode.computeHash, NodeRef.hashOf, h]
  rfl

lemma coalesce_computeHash (h : ¬ n.OnlyChild) :
  ((coalesce keccak store none n).getD .empty).computeHash keccak =
    n.computeHash keccak := by
  rw [coalesce]
  by_cases hempty : n.isEmptyTrie = true
  · rw [computeHash_of_isEmptyTrie hempty]
    simp only [isSome_none, Bool.false_eq_true, if_false, hempty, if_true]
    rfl
  simp only [isSome_none, Bool.false_eq_true, if_false, hempty]
  by_cases hvalue : n.value.isSome = true
  · simp [hvalue]
  have hsides : n.left.isEmpty = n.right.isEmpty := by
    by_contra hne
    exact h ⟨by simpa using hvalue, hne⟩
  simp [hvalue, hsides]

variable {m : TrieNode}

lemma sharedPath_eq_of_toMessage (hn : n.sharedPath.length ≤ maxSharedPathBits)
  (hm : m.sharedPath.length ≤ maxSharedPathBits) (h : n.toMessage keccak = m.toMessage keccak) :
  n.sharedPath = m.sharedPath := by
  simp only [TrieNode.toMessage, TrieNode.ref, NodeRef.toMessage, List.cons.injEq,
    append_assoc] at h
  obtain ⟨hflags, hrest⟩ := h
  have hpath : (!n.sharedPath.isEmpty) = !m.sharedPath.isEmpty := by
    rw [← (nodeFlags_bits _ (!n.sharedPath.isEmpty) _ _ _ _).2.1, hflags]
    exact (nodeFlags_bits _ _ _ _ _ _).2.1
  have hread := congrArg (readSharedPath (!n.sharedPath.isEmpty)) hrest
  rw [readSharedPath_serialize hn, hpath, readSharedPath_serialize hm] at hread
  simp only [some.injEq, Prod.mk.injEq] at hread
  exact hread.1

variable {b : Bool}

lemma coalesce_toMessage_ne {p : TrieKeySlice} {v : Option Bytes} {l r : StateTree}
  (hvalue : n.value = none) (hside : (if b then n.left else n.right).isEmpty = true)
  (h : Represents keccak store (if b then n.right else n.left) (.node p v l r))
  (hvalid : Valid (.node p v l r)) (hlen : (n.sharedPath ++ b :: p).length ≤ maxSharedPathBits) :
  n.isEmptyTrie = false ∧ ∃ m, coalesce keccak store none n = some m ∧
    m.isEmptyTrie = false ∧ n.toMessage keccak ≠ m.toMessage keccak := by
  obtain ⟨c, hc, hrep⟩ := h.resolve hvalid (by simp)
  obtain ⟨rfl, rfl, -, -, -, hl, -⟩ := hrep.node_parts
  have hfull : (if b then n.right else n.left).isEmpty = false := by
    simpa using h.isEmpty_iff.not.mpr (by simp)
  have hnonempty : n.isEmptyTrie = false := by cases b <;> simp_all [isEmptyTrie]
  have hmerge : coalesce keccak store none n =
      some { c with sharedPath := n.sharedPath ++ b :: c.sharedPath, longValueLen := none } := by
    rw [coalesce, hnonempty]
    cases b <;> simp_all [TrieKeySlice.rebuildSharedPath]
  refine ⟨hnonempty, _, hmerge, Represents.isEmptyTrie_eq_false hl hvalid.canon.1 _,
    fun hmessage => ?_⟩
  have hpath := sharedPath_eq_of_toMessage (by simp at hlen; omega) hlen hmessage
  have := congrArg List.length hpath
  simp at this

def LeavesOnlyChild : StateTree → TrieKeySlice → Prop
  | .nil, _ => False
  | .node path value left right, key =>
    match comparePath key path with
    | .within [] => value.isSome = true ∧ (left = .nil ↔ right ≠ .nil)
    | .within (b :: rest) =>
      value = none ∧ ∃ x, (if b then right else left) = .node rest (some x) .nil .nil
    | _ => False

variable {path : TrieKeySlice} {value : Option Bytes} {left right : StateTree}

lemma leavesOnlyChild_self : LeavesOnlyChild (.node path value left right) path ↔
    value.isSome = true ∧ (left = .nil ↔ right ≠ .nil) := by
  have hcompare := comparePath_append path []
  rw [append_nil] at hcompare
  rw [LeavesOnlyChild, hcompare]

lemma leavesOnlyChild_down {rest : TrieKeySlice} :
  LeavesOnlyChild (.node path value left right) (path ++ b :: rest) ↔
    value = none ∧ ∃ x, (if b then right else left) = .node rest (some x) .nil .nil := by
  rw [LeavesOnlyChild, comparePath_append]

variable {key : TrieKeySlice}

lemma not_leavesOnlyChild_off (h : ∀ rest, key ≠ path ++ rest) :
  ¬ LeavesOnlyChild (.node path value left right) key := by
  have hcompare := comparePath_holds key path
  rw [LeavesOnlyChild]
  cases hc : comparePath key path with
  | within rest =>
    rw [hc] at hcompare
    exact absurd hcompare (h rest)
  | ends | parts => exact id

variable {o : Option TrieNode} {t : StateTree}

lemma Outcome.eq_none_iff (h : Outcome keccak store o t) : o = none ↔ t = .nil := by
  cases o with
  | none => exact iff_of_true rfl h
  | some n =>
    obtain ⟨_, _, rfl, -⟩ := Represents.node_inv h
    simp

variable {tl tr : StateTree}

lemma internalPut_none_down (hvalid : Valid (.node path value tl tr))
  (h : Represents keccak store n.ref (.node path value tl tr)) (b : Bool) (rest : TrieKeySlice)
  (fuel : Nat) (ho : (internalPut keccak store false fuel
      (((if b then n.right else n.left).resolve keccak store).getD TrieNode.empty) rest none).bind
      (coalesce keccak store none) = o) :
  ∃ n', internalPut keccak store false (fuel + 1) n (path ++ b :: rest) none = some n' ∧
    n'.sharedPath = path ∧ n'.value = value ∧ n'.left = (if b then n.left else .ofOption o) ∧
    n'.right = if b then .ofOption o else n.right := by
  obtain ⟨rfl, rfl, -, -, -, hl, hr⟩ := h.node_parts
  have hnonempty : n.isEmptyTrie = false := Represents.isEmptyTrie_eq_false hl hvalid.canon.1 _
  have hkept : ¬ isEmptyTrieParams n.value (if b then n.left else .ofOption o)
      (if b then .ofOption o else n.right) = true := by
    rcases hvalid.canon.1 with hsome | ⟨hleft, hright⟩
    · obtain ⟨x, hx⟩ := isSome_iff_exists.mp hsome
      simp [isEmptyTrieParams, hx]
    cases b
    · simp [isEmptyTrieParams, hr.isEmpty_iff, hright]
    · simp [isEmptyTrieParams, hl.isEmpty_iff, hleft]
  rw [internalPut_into hnonempty (by simp) ho, if_neg hkept]
  exact ⟨_, rfl, rfl, rfl, rfl, rfl⟩

lemma isEmpty_ofOption (o : Option TrieNode) : (NodeRef.ofOption o).isEmpty = true ↔ o = none := by
  cases o <;> simp [NodeRef.ofOption, TrieNode.ref, NodeRef.isEmpty]

lemma coalesce_ne_none (hvalid : Valid (.node path value tl tr)) {left right : NodeRef}
  (hl : Represents keccak store left tl) (hr : Represents keccak store right tr)
  (hvalue : n.value = value) (hleft : n.left = if b then left else .ofOption o)
  (hright : n.right = if b then .ofOption o else right) :
  coalesce keccak store none n ≠ none := by
  rcases value with _ | x
  · obtain ⟨hnel, hner⟩ := hvalid.canon.1.resolve_left (by simp)
    have hfulll : left.isEmpty = false := by simpa using hl.isEmpty_iff.not.mpr hnel
    have hfullr : right.isEmpty = false := by simpa using hr.isEmpty_iff.not.mpr hner
    obtain ⟨cl, hcl, -⟩ := hl.resolve hvalid.left hnel
    obtain ⟨cr, hcr, -⟩ := hr.resolve hvalid.right hner
    have hgone : (NodeRef.ofOption none).isEmpty = true := rfl
    have hkept : ∀ c, (NodeRef.ofOption (some c)).isEmpty = false := fun _ => rfl
    cases b <;> cases o <;>
      simp [coalesce, isEmptyTrie, hvalue, hleft, hright, hfulll, hfullr, hcl,
        hcr, hgone, hkept]
  · simp [coalesce, isEmptyTrie, hvalue]

lemma internalPut_none_eq_none_iff (hvalid : Valid t) (h : Represents keccak store n.ref t)
  (key : TrieKeySlice) (fuel : Nat) :
  (internalPut keccak store false (fuel + 1) n key none).bind
    (coalesce keccak store none) = none ↔ t.delete key = .nil := by
  obtain ⟨tl, tr, rfl, -, -, -, hl, hr⟩ := h.node_inv
  by_cases hkey : ∃ rest, key = n.sharedPath ++ rest
  · obtain ⟨rest, rfl⟩ := hkey
    rcases rest with _ | ⟨b, rest⟩
    · rw [append_nil]
      exact (internalPut_none_here hvalid h fuel).eq_none_iff
    -- below the root something stays: the root's value, or its other child
    have htree : (Radix.node n.sharedPath n.value tl tr).delete (n.sharedPath ++ b :: rest) ≠
        .nil := by
      rw [removal_delete.down]
      rcases hvalid.canon.1 with hsome | ⟨hleft, hright⟩
      · obtain ⟨x, hx⟩ := isSome_iff_exists.mp hsome
        cases b <;> simp [coalesce_eq_nil_iff, hx]
      · cases b <;> simp [coalesce_eq_nil_iff, hleft, hright]
    refine iff_of_false ?_ htree
    obtain ⟨n', hput, -, hvalue, hleft', hright'⟩ := internalPut_none_down hvalid h b _ _ rfl
    rw [hput, bind_some]
    exact coalesce_ne_none hvalid hl hr hvalue hleft' hright'
  have hout : ∀ rest, key ≠ n.sharedPath ++ rest := fun rest hrest => hkey ⟨rest, hrest⟩
  rw [internalPut_none_off hout, removal_delete.off _ _ _ _ _ hout, bind_some,
    coalesce_canon hvalid h]
  simp

lemma put_nil_eq_delete_iff_of_some
  (hm : internalPut keccak store false (putFuel key) n key none = some m)
  (hkeccak : keccak ((n.put keccak store key []).toMessage keccak) =
      keccak ((n.delete keccak store key).toMessage keccak) →
    (n.put keccak store key []).toMessage keccak = (n.delete keccak store key).toMessage keccak)
  (hchild : ∀ b : Bool, m.value = none → (if b then m.left else m.right).isEmpty = true →
    (if b then m.right else m.left).isEmpty = false → ∃ p v l r,
      Represents keccak store (if b then m.right else m.left) (.node p v l r) ∧
      Valid (.node p v l r) ∧ (m.sharedPath ++ b :: p).length ≤ maxSharedPathBits) :
  (n.put keccak store key []).computeHash keccak =
      (n.delete keccak store key).computeHash keccak ↔ ¬ m.OnlyChild := by
  have hput : n.put keccak store key [] = m := by
    rw [put_nil, hm]
    rfl
  have hdelete : n.delete keccak store key =
      (coalesce keccak store none m).getD .empty := by
    rw [TrieNode.delete, hm, bind_some]
  by_cases honly : m.OnlyChild
  · refine iff_of_false ?_ (not_not.mpr honly)
    obtain ⟨hvalue, hsides⟩ := honly
    -- the bit of the child is the one whose side is not empty
    obtain ⟨p, v, l, r, hrep, hvalid, hlen⟩ := hchild m.left.isEmpty hvalue
      (by cases hl : m.left.isEmpty <;> simp_all) (by cases hl : m.left.isEmpty <;> simp_all)
    obtain ⟨hm', m', hmerge, hm'', hne⟩ := coalesce_toMessage_ne hvalue
      (by cases hl : m.left.isEmpty <;> simp_all) hrep hvalid hlen
    rw [hmerge, getD_some] at hdelete
    rw [hput, hdelete] at hkeccak ⊢
    rw [computeHash_of_not_isEmptyTrie hm', computeHash_of_not_isEmptyTrie hm'']
    exact fun heq => hne (hkeccak heq)
  refine iff_of_true ?_ honly
  rw [hput, hdelete, coalesce_computeHash honly]

/-- **An empty value is a deletion, except at the root.** For every trie over a complete store and
every key, `put` with an empty value and `delete` give one root hash exactly if the deletion does
not leave the root with an only child. -/
theorem put_nil_computeHash_eq_delete_iff {t : StateTree} (hvalid : Valid t) {n : TrieNode}
  (h : n.StandsFor keccak store t) (key : TrieKeySlice)
  -- the two roots are no collision of the hash
  (hkeccak : keccak ((n.put keccak store key []).toMessage keccak) =
      keccak ((n.delete keccak store key).toMessage keccak) →
    (n.put keccak store key []).toMessage keccak = (n.delete keccak store key).toMessage keccak) :
  (n.put keccak store key []).computeHash keccak = (n.delete keccak store key).computeHash keccak ↔
    ¬ LeavesOnlyChild t key := by
  rcases h with ⟨rfl, rfl⟩ | h
  · refine iff_of_true ?_ id
    rw [put_nil, TrieNode.delete, putFuel, internalPut_empty_none]
    rcases key with _ | ⟨b, key⟩ <;>
      simp [internalPut, TrieNode.empty, TrieKeySlice.commonPath, isEmptyTrie,
        NodeRef.isEmpty, TrieNode.computeHash, NodeRef.hashOf]
  obtain ⟨tl, tr, rfl, -, -, -, hl, hr⟩ := h.node_inv
  have hdelete := hvalid.delete key
  by_cases hkey : ∃ rest, key = n.sharedPath ++ rest
  · obtain ⟨rest, rfl⟩ := hkey
    rcases rest with _ | ⟨b, rest⟩
    · rw [append_nil] at hkeccak hdelete ⊢
      rw [leavesOnlyChild_self]
      have hself := @internalPut_none_self keccak store n (2 * n.sharedPath.length + 1)
      rcases hvalue : n.value with _ | x
      · refine iff_of_true ?_ (by simp)
        rw [put_nil, TrieNode.delete, putFuel, hself, if_pos hvalue, bind_some,
          coalesce_canon hvalid h]
      rw [hvalue] at hself hvalid hdelete
      rw [delete_self] at hdelete
      simp only [reduceCtorEq, if_false] at hself
      by_cases hnone : isEmptyTrieParams none n.left n.right = true
      · rw [if_pos hnone] at hself
        obtain ⟨hleft, hright⟩ : n.left.isEmpty = true ∧ n.right.isEmpty = true := by
          simpa [isEmptyTrieParams] using hnone
        refine iff_of_true ?_ (by simp [hl.isEmpty_iff.mp hleft, hr.isEmpty_iff.mp hright])
        rw [put_nil, TrieNode.delete, putFuel, hself]
        rfl
      rw [if_neg hnone] at hself
      refine (put_nil_eq_delete_iff_of_some hself hkeccak ?_).trans (not_congr ?_)
      · rintro (_ | _) - hside hfull
        · obtain rfl := hr.isEmpty_iff.mp hside
          rcases tl with _ | ⟨p, v, l, r⟩
          · simp [hl.eq_empty, NodeRef.isEmpty] at hfull
          · exact ⟨p, v, l, r, hl, hvalid.left, hdelete.path_le⟩
        obtain rfl := hl.isEmpty_iff.mp hside
        rcases tr with _ | ⟨p, v, l, r⟩
        · simp [hr.eq_empty, NodeRef.isEmpty] at hfull
        · exact ⟨p, v, l, r, hr, hvalid.right, hdelete.path_le⟩
      simp only [TrieNode.OnlyChild, ne_eq, Bool.eq_iff_iff, hl.isEmpty_iff, hr.isEmpty_iff,
        isSome_some, true_and]
      tauto
    rw [leavesOnlyChild_down]
    obtain ⟨n', hput, hpath, hvalue, hleft, hright⟩ := internalPut_none_down hvalid h b rest
      (2 * (n.sharedPath ++ b :: rest).length + 1) rfl
    rcases hnone : n.value with _ | x
    · rw [hnone] at hvalid hvalue hdelete
      obtain ⟨hnel, hner⟩ := hvalid.canon.1.resolve_left (by simp)
      -- the child the key is in, which goes exactly if it holds this key only
      obtain ⟨hvc, hnec, hrepc⟩ : Valid (if b then tr else tl) ∧ (if b then tr else tl) ≠ .nil ∧
          Represents keccak store (if b then n.right else n.left) (if b then tr else tl) := by
        cases b
        · exact ⟨hvalid.left, hnel, hl⟩
        · exact ⟨hvalid.right, hner, hr⟩
      obtain ⟨c, hc, hrep⟩ := hrepc.resolve hvc hnec
      rw [hc, getD_some] at hleft hright
      have hgone := internalPut_none_eq_none_iff hvc hrep rest
        (2 * (n.sharedPath ++ b :: rest).length)
      generalize (internalPut keccak store false _ c rest none).bind _ = o
        at hleft hright hgone
      rw [removal_delete.down] at hdelete
      have hempty := isEmpty_ofOption o
      have hfulll := hl.isEmpty_iff.not.mpr hnel
      have hfullr := hr.isEmpty_iff.not.mpr hner
      refine (put_nil_eq_delete_iff_of_some hput hkeccak ?_).trans (not_congr ?_)
      · rintro (_ | _) - hside hfull <;> cases b <;>
          simp only [Bool.false_eq_true, if_false, if_true]
            at hleft hright hside hfull hdelete hgone ⊢
        · exact absurd (hright ▸ hside) hfullr
        · rw [hright] at hside
          rw [hgone.mp (hempty.mp hside)] at hdelete
          rcases tl with _ | ⟨p, v, l, r⟩
          · exact absurd rfl hnel
          · exact ⟨p, v, l, r, hleft ▸ hl, hvalid.left, hpath ▸ hdelete.path_le⟩
        · rw [hleft] at hside
          rw [hgone.mp (hempty.mp hside)] at hdelete
          rcases tr with _ | ⟨p, v, l, r⟩
          · exact absurd rfl hner
          · exact ⟨p, v, l, r, hright ▸ hr, hvalid.right, hpath ▸ hdelete.path_le⟩
        · exact absurd (hleft ▸ hside) hfulll
      rw [← delete_eq_nil_iff hvc.canon hnec, ← hgone, ← hempty]
      cases b <;> simp_all [TrieNode.OnlyChild]
    refine (put_nil_eq_delete_iff_of_some hput hkeccak ?_).trans (not_congr ?_)
    · intro _ hgone
      rw [hvalue, hnone] at hgone
      cases hgone
    · simp [TrieNode.OnlyChild, hvalue, hnone]
  have hout : ∀ rest, key ≠ n.sharedPath ++ rest := fun rest hrest => hkey ⟨rest, hrest⟩
  refine iff_of_true ?_ (not_leavesOnlyChild_off hout)
  rw [put_nil, TrieNode.delete, putFuel, internalPut_none_off hout, bind_some,
    coalesce_canon hvalid h]

end

/-- Two keys that part at the first bit, the second put again with an empty value. The root keeps
an empty path and one child; `delete` leaves the leaf of the first key. -/
theorem put_nil_differs_from_delete : let store : TrieStore := fun _ => none
    let n := (TrieNode.empty.put keccak256 store [false] [1]).put keccak256 store [true] [2]
    (n.put keccak256 store [true] []).computeHash keccak256 ≠
      (n.delete keccak256 store [true]).computeHash keccak256 := by
  decide +kernel

/-- The same trie and a key that is not in it. The hash is the message's first 32 bytes. -/
theorem put_nil_computeHash_eq_delete_absent : let keccak : Bytes → B256 := .ofBytes 32
    let store : TrieStore := fun _ => none
    let n := (TrieNode.empty.put keccak store [false] [1]).put keccak store [true] [2]
    (n.put keccak store [true, true] []).computeHash keccak =
        (n.delete keccak store [true, true]).computeHash keccak ↔
      ¬ LeavesOnlyChild (((Radix.nil : StateTree).insert [false] [1]).insert [true] [2])
        [true, true] := by
  intro keccak store n
  have hvalid : Valid ((Radix.nil : StateTree).insert [false] [1]) :=
    Valid.nil.insert (by decide) (by decide) (by decide)
  have hone : (TrieNode.empty.put keccak store [false] [1]).StandsFor keccak store
      ((Radix.nil : StateTree).insert [false] [1]) :=
    put_standsFor Valid.nil trivial (Or.inl ⟨rfl, rfl⟩) _ (by decide)
  exact put_nil_computeHash_eq_delete_iff (hvalid.insert (by decide) (by decide) (by decide))
    (put_standsFor hvalid (by decide) hone [true] (by decide)) [true, true] (by decide +kernel)

section

variable {keccak : Bytes → B256} {store : TrieStore} {n : TrieNode}

lemma internalPut_below_here {path : TrieKeySlice} {value : Option Bytes} {tl tr : StateTree}
  (hvalid : Valid (.node path value tl tr))
  (h : Represents keccak store n.ref (.node path value tl tr)) (fuel : Nat) :
  Outcome keccak store ((internalPut keccak store true (fuel + 1) n path none).bind
    (coalesce keccak store none)) ((Radix.node path value tl tr).deleteBelow path) := by
  obtain ⟨rfl, rfl, -⟩ := h.node_parts
  have hcommon := commonPath_append n.sharedPath []
  rw [append_nil] at hcommon
  rw [deleteBelow_self, internalPut]
  simp only [reduceCtorEq, if_false, hcommon, lt_irrefl, ge_iff_le, le_refl, if_true]
  rcases hvalue : n.value with _ | x
  · rw [if_pos rfl, bind_some, coalesce_canon hvalid h]
    rw [hvalue] at h
    exact h
  · simp [coalesce, isEmptyTrie, NodeRef.isEmpty, Outcome]

variable {t : StateTree}

lemma internalPut_below_represents (hvalid : Valid t) (hfits : Fits keccak t)
  (h : n.StandsFor keccak store t) {key : TrieKeySlice} {fuel : Nat} (hfuel : key.length < fuel) :
  Outcome keccak store ((internalPut keccak store true fuel n key none).bind
    (coalesce keccak store none)) (t.deleteBelow key) :=
  internalPut_removal removal_deleteBelow (fun h => h.deleteBelow) internalPut_below_here
    hvalid hfits h hfuel

lemma deleteRecursive_standsFor (hvalid : Valid t) (hfits : Fits keccak t)
  (h : n.StandsFor keccak store t) (key : TrieKeySlice) :
  (n.deleteRecursive keccak store key).StandsFor keccak store (t.deleteBelow key) := by
  have hfuel : key.length < putFuel key := by
    unfold putFuel
    omega
  exact (internalPut_below_represents hvalid hfits h hfuel).standsFor

/-- **`delete_recursive` takes one subtree.** In a trie over a complete store whose sizes fit, a
key with a value goes with all keys that extend it, and what is left has the hash of every trie of
the remaining map; a key without a value leaves the root hash as it was. -/
theorem deleteRecursive_removes_subtree {t : StateTree} (hvalid : Valid t) (hfits : Fits keccak t)
  {n : TrieNode} (h : n.StandsFor keccak store t) (key : TrieKeySlice) :
  (∀ x, n.get keccak store key = some x →
    ∃ t', Valid t' ∧ (n.deleteRecursive keccak store key).StandsFor keccak store t' ∧
      (∀ k, t'.lookup k = if key <+: k then none else n.get keccak store k) ∧
      ∀ m store' u, Valid u → TrieNode.StandsFor keccak store' m u →
        (∀ k, u.lookup k = if key <+: k then none else n.get keccak store k) →
        (n.deleteRecursive keccak store key).computeHash keccak = m.computeHash keccak) ∧
  (n.get keccak store key = none →
    (n.deleteRecursive keccak store key).computeHash keccak = n.computeHash keccak) := by
  have hstands := deleteRecursive_standsFor hvalid hfits h key
  simp only [get_eq hvalid h]
  constructor
  · intro x hx
    have hlookup := lookup_deleteBelow hx
    refine ⟨_, hvalid.deleteBelow key, hstands, hlookup, fun m store' u hu hm hmap => ?_⟩
    have htree : u = t.deleteBelow key :=
      canon_ext hu.canon (hvalid.deleteBelow key).canon
        (funext fun k => (hmap k).trans (hlookup k).symm)
    exact computeHash_eq_of_standsFor hu (htree ▸ hstands) hm
  intro hnone
  rw [deleteBelow_of_lookup_none hvalid.canon hnone] at hstands
  exact computeHash_eq_of_standsFor hvalid hstands h

end

/-- Two keys, the first an initial part of the second; deleting the first takes both. -/
theorem deleteRecursive_removes_subtree_two : let keccak : Bytes → B256 := .ofBytes 32
    let store : TrieStore := fun _ => none
    let n := (TrieNode.empty.put keccak store [true] [1]).put keccak store [true, false] [2]
    n.get keccak store [true] = some [1] ∧
      ∃ t', Valid t' ∧ (n.deleteRecursive keccak store [true]).StandsFor keccak store t' := by
  intro keccak store n
  have hvalid : Valid ((Radix.nil : StateTree).insert [true] [1]) :=
    Valid.nil.insert (by decide) (by decide) (by decide)
  have hone : (TrieNode.empty.put keccak store [true] [1]).StandsFor keccak store
      ((Radix.nil : StateTree).insert [true] [1]) :=
    put_standsFor Valid.nil trivial (Or.inl ⟨rfl, rfl⟩) _ (by decide)
  have hget : n.get keccak store [true] = some [1] := by decide +kernel
  obtain ⟨t', hvalid', hstands', -, -⟩ := (deleteRecursive_removes_subtree
    (hvalid.insert (by decide) (by decide) (by decide)) (by decide)
    (put_standsFor hvalid (by decide) hone [true, false] (by decide)) [true]).1 [1] hget
  exact ⟨hget, t', hvalid', hstands'⟩

/-- The sizes have to fit: in a long enough run of puts, deleting below a key that is not there
changes the root. -/
theorem deleteRecursive_out_of_range : ∃ (ops : List TrieOp) (s : TrieState) (key : TrieKeySlice),
    Legal keccak256 (.start fun _ => none) ops ∧
    (TrieState.start fun _ => none).run keccak256 ops = some s ∧ s.get keccak256 key = none ∧
    ∃ m₁ m₂, m₂ ≠ m₁ ∧ s.root.computeHash keccak256 = keccak256 m₁ ∧
      (s.root.deleteRecursive keccak256 s.store key).computeHash keccak256 = keccak256 m₂ := by
  -- no property of the hash is used
  generalize keccak256 = keccak
  obtain ⟨keys, x, s, path, value, tl, tr, b, rest, hne, hlegal, hkeys, hrun, hmem, hvalid, hrep,
    ht, hl, hr, hsum, hchild⟩ := exists_overflowing keccak
  -- every key has 41 bits, so one bit more is no key
  have habsent : (Radix.node path value tl tr).lookup (path ++ b :: (rest ++ [true])) = none := by
    rcases hlookup : (Radix.node path value tl tr).lookup (path ++ b :: (rest ++ [true])) with _ | y
    · rfl
    rw [← ht] at hlookup
    have hlong := hkeys _ (lookup_puts hlookup).1
    have hshort := hkeys _ hmem
    simp at hlong hshort
    omega
  have hfuel : (rest ++ [true]).length < 2 * (path ++ b :: (rest ++ [true])).length + 1 := by
    simp
    omega
  obtain ⟨rfl, rfl, -, -, -, hrl, hrr⟩ := hrep.node_parts
  have ho : Outcome keccak s.store
      ((internalPut keccak s.store true
        (2 * (s.root.sharedPath ++ b :: (rest ++ [true])).length + 1)
        (((if b then s.root.right else s.root.left).resolve keccak s.store).getD TrieNode.empty)
        (rest ++ [true]) none).bind (coalesce keccak s.store none))
      (if b then tr else tl) := by
    rw [lookup_node, under_append] at habsent
    cases b
    · have := internalPut_below_represents hvalid.left (fits_of_treeSize_lt hl)
        (hrl.standsFor_resolve hvalid.left) hfuel
      rwa [deleteBelow_of_lookup_none hvalid.left.canon habsent] at this
    have := internalPut_below_represents hvalid.right (fits_of_treeSize_lt hr)
      (hrr.standsFor_resolve hvalid.right) hfuel
    rwa [deleteBelow_of_lookup_none hvalid.right.canon habsent] at this
  obtain ⟨n', hput, hfulll, hfullr, -, hmessage⟩ :=
    rewrite_childrenSize hvalid hl hr hsum hrep (by simp) ho
  have hnonempty : n'.isEmptyTrie = false := by simp [isEmptyTrie, hfulll]
  have hdelete : s.root.deleteRecursive keccak s.store
      (s.root.sharedPath ++ b :: (rest ++ [true])) = n' := by
    rw [TrieNode.deleteRecursive, putFuel, hput]
    simp [coalesce, hnonempty, hfulll, hfullr]
  refine ⟨_, s, s.root.sharedPath ++ b :: (rest ++ [true]), hlegal _ hkeys, hrun, ?_,
    s.root.toMessage keccak, n'.toMessage keccak, hmessage,
    computeHash_eq_keccak hrep hvalid.canon, ?_⟩
  · rw [TrieState.get, get_eq hvalid (Or.inr hrep), habsent]
  · rw [hdelete, computeHash_of_not_isEmptyTrie hnonempty]

end Rustock
