import Rustock.Lib.Keccak
import Rustock.Trie.Sizes

/-!
# Histories of a trie

Runs of `put`, `delete` and save-and-reload from the empty trie.

- `history_independence`: **as long as sizes fit and the empty trie is not reloaded, a run ends,
  `get` answers the final map, and the root hash depends on that map alone**.
-/

namespace Rustock

open Lib List Option Function Lib.Radix TrieNode
open TrieNode (empty internalPut ref toMessage computeHash putFuel)

inductive TrieOp where
  | put (key : TrieKeySlice) (value : Bytes)
  | delete (key : TrieKeySlice)
  | reload (store : TrieStore)

open TrieOp

structure TrieState where
  store : TrieStore
  root : TrieNode

open TrieState

section

variable (keccak : Bytes → B256)

namespace TrieState

def start (store : TrieStore) : TrieState := ⟨store, .empty⟩

def step (s : TrieState) : TrieOp → Option TrieState
  | .put key value => some { s with root := s.root.put keccak s.store key value }
  | .delete key => some { s with root := s.root.delete keccak s.store key }
  | .reload store =>
    (store.load keccak (s.root.computeHash keccak)).map fun root => ⟨store, root⟩

def run (s : TrieState) : List TrieOp → Option TrieState
  | [] => some s
  | op :: ops => (s.step keccak op).bind fun s' => s'.run ops

def get (s : TrieState) (key : TrieKeySlice) : Option Bytes := s.root.get keccak s.store key

end TrieState

def Saved (s : TrieState) (store : TrieStore) : Prop :=
  store.Extends s.store ∧ ∀ e ∈ s.root.saveBatch keccak, store e.1 = some e.2

/-- Keys of at most 1024 bits, non-empty values shorter than `2 ^ 24` bytes, and saves that the
store took. -/
def TrieOp.Legal (s : TrieState) : TrieOp → Prop
  | .put key value => key.length ≤ 1024 ∧ value ≠ [] ∧ value.length < 2 ^ 24
  | .delete key => key.length ≤ 1024
  | .reload store => Saved keccak s store

def Legal (s : TrieState) : List TrieOp → Prop
  | [] => True
  | op :: ops => op.Legal keccak s ∧ ∀ s', s.step keccak op = some s' → Legal s' ops

end

def TrieOp.onMap (m : TrieKeySlice → Option Bytes) : TrieOp → TrieKeySlice → Option Bytes
  | .put key value => update m key (some value)
  | .delete key => update m key none
  | .reload _ => m

def finalMap (ops : List TrieOp) : TrieKeySlice → Option Bytes := ops.foldl onMap fun _ => none

def TrieOp.onTree (t : StateTree) : TrieOp → StateTree
  | .put key value => t.insert key value
  | .delete key => t.delete key
  | .reload _ => t

def finalTree (ops : List TrieOp) : StateTree := ops.foldl onTree .nil

lemma lookup_onTree (t : StateTree) (op : TrieOp) : (op.onTree t).lookup = op.onMap t.lookup := by
  cases op with
  | put key value => exact lookup_insert t key value
  | delete key => exact lookup_delete t key
  | reload store => rfl

lemma lookup_finalTree (ops : List TrieOp) : (finalTree ops).lookup = finalMap ops := by
  have hfold : ∀ t : StateTree,
      (ops.foldl onTree t).lookup = ops.foldl onMap t.lookup := by
    induction ops with
    | nil => exact fun t => rfl
    | cons op ops ih => exact fun t => (ih _).trans (by rw [lookup_onTree, foldl_cons])
  exact hfold .nil

/-- The operations keep to what the sizes in a node can express: before each of them the tree
fits, and where the trie is reloaded it has an entry. -/
def InRangeFrom (keccak : Bytes → B256) : StateTree → List TrieOp → Prop
  | _, [] => True
  | t, op :: ops =>
    Fits keccak t ∧ (∀ store, op = .reload store → t ≠ .nil) ∧
      InRangeFrom keccak (op.onTree t) ops

def InRange (keccak : Bytes → B256) (ops : List TrieOp) : Prop := InRangeFrom keccak .nil ops

section

variable {keccak : Bytes → B256} {s : TrieState} {t : StateTree}

lemma step_standsFor (hvalid : Valid t) (h : s.root.StandsFor keccak s.store t) {op : TrieOp}
  (hlegal : op.Legal keccak s) (hfits : Fits keccak t)
  (hload : ∀ store, op = .reload store → t ≠ .nil) :
  Valid (op.onTree t) ∧ ∃ s', s.step keccak op = some s' ∧
    s'.root.StandsFor keccak s'.store (op.onTree t) := by
  cases op with
  | put key value =>
    obtain ⟨hkey, hne, hlen⟩ := hlegal
    exact ⟨hvalid.insert hkey hne hlen, _, rfl, put_standsFor hvalid hfits h key hne⟩
  | delete key => exact ⟨hvalid.delete key, _, rfl, delete_standsFor hvalid hfits h key⟩
  | reload store =>
    have hne := hload store rfl
    have hrep := h.resolve_left fun h => hne h.2
    obtain ⟨n, hn, hrep'⟩ := load_represents hvalid hrep hlegal.1 hlegal.2
    exact ⟨hvalid, ⟨store, n⟩, by simp [step, hn], Or.inr hrep'⟩

variable {ops : List TrieOp}

lemma run_standsFor (hvalid : Valid t) (h : s.root.StandsFor keccak s.store t)
  (hlegal : Legal keccak s ops) (hrange : InRangeFrom keccak t ops) :
  Valid (ops.foldl onTree t) ∧ ∃ s', s.run keccak ops = some s' ∧
    s'.root.StandsFor keccak s'.store (ops.foldl onTree t) := by
  induction ops generalizing s t with
  | nil => exact ⟨hvalid, s, rfl, h⟩
  | cons op ops ih =>
    obtain ⟨hop, hnext⟩ := hlegal
    obtain ⟨hfits, hload, hrest⟩ := hrange
    obtain ⟨hvalid', s', hstep, h'⟩ := step_standsFor hvalid h hop hfits hload
    obtain ⟨hv, s'', hrun, hs''⟩ := ih hvalid' h' (hnext s' hstep) hrest
    exact ⟨hv, s'', by rw [run, hstep]; exact hrun, hs''⟩

lemma run_start {store : TrieStore} (hlegal : Legal keccak (.start store) ops)
  (hrange : InRange keccak ops) :
  Valid (finalTree ops) ∧ ∃ s, (start store).run keccak ops = some s ∧
    s.root.StandsFor keccak s.store (finalTree ops) :=
  run_standsFor Valid.nil (Or.inl ⟨rfl, rfl⟩) hlegal hrange

lemma computeHash_eq_of_standsFor {n₁ n₂ : TrieNode} {store₁ store₂ : TrieStore}
  (hvalid : Valid t) (h₁ : n₁.StandsFor keccak store₁ t) (h₂ : n₂.StandsFor keccak store₂ t) :
  n₁.computeHash keccak = n₂.computeHash keccak := by
  by_cases hnil : t = .nil
  · have hempty : ∀ {n : TrieNode} {store : TrieStore}, n.StandsFor keccak store t → n = .empty := by
      rintro n store (⟨rfl, -⟩ | h)
      · rfl
      obtain ⟨_, _, heq, _⟩ := h.node_inv
      exact absurd (hnil.symm.trans heq) (by simp)
    rw [hempty h₁, hempty h₂]
  have hr₁ := h₁.resolve_left fun h => hnil h.2
  have hr₂ := h₂.resolve_left fun h => hnil h.2
  rw [computeHash_eq hr₁ hvalid.canon, computeHash_eq hr₂ hvalid.canon]

end

/-! ## Beyond the range

Sizes are 64-bit numbers. Where the children of the root take more bytes than that, the recorded
size wraps; putting a value again that is already there then subtracts more than is recorded. -/

/-- Every key of `n` bits. -/
def allKeys : Nat → List TrieKeySlice
  | 0 => [[]]
  | n + 1 => (allKeys n).map (false :: ·) ++ (allKeys n).map (true :: ·)

variable {key : TrieKeySlice}

lemma length_of_mem_allKeys {n : Nat} (h : key ∈ allKeys n) : key.length = n := by
  induction n generalizing key with
  | zero => simp [allKeys] at h; simp [h]
  | succ n ih =>
    simp only [allKeys, mem_append, List.mem_map] at h
    rcases h with ⟨k, hk, rfl⟩ | ⟨k, hk, rfl⟩ <;> simp [ih hk]

lemma length_allKeys (n : Nat) : (allKeys n).length = 2 ^ n := by
  induction n with
  | zero => rfl
  | succ n ih => simp [allKeys, ih, Nat.pow_succ]; omega

lemma nodup_allKeys (n : Nat) : (allKeys n).Nodup := by
  induction n with
  | zero => simp [allKeys]
  | succ n ih =>
    rw [allKeys, nodup_append]
    have hcons (b : Bool) : ((allKeys n).map (b :: ·)).Nodup :=
      pairwise_map.mpr (ih.imp fun hne h => hne (List.cons.inj h).2)
    refine ⟨hcons _, hcons _, ?_⟩
    intro a ha b hb
    obtain ⟨_, _, rfl⟩ := List.mem_map.mp ha
    obtain ⟨_, _, rfl⟩ := List.mem_map.mp hb
    simp

def puts (x : Bytes) (keys : List TrieKeySlice) : List TrieOp := keys.map (TrieOp.put · x)

lemma count_puts {x : Bytes} {keys : List TrieKeySlice} (hnodup : keys.Nodup) {t : StateTree}
  (hnew : ∀ key ∈ keys, t.lookup key = none) :
  ((puts x keys).foldl onTree t).count = t.count + keys.length := by
  induction keys generalizing t with
  | nil => rfl
  | cons key keys ih =>
    obtain ⟨hkey, hnodup⟩ := nodup_cons.mp hnodup
    have hrest : ∀ k ∈ keys, (t.insert key x).lookup k = none := by
      intro k hk
      have hne : k ≠ key := fun h => hkey (h ▸ hk)
      rw [lookup_insert, update_of_ne hne]
      exact hnew k (mem_cons_of_mem _ hk)
    have hcount := count_insert (hnew key mem_cons_self) x
    have hfold : (puts x (key :: keys)).foldl onTree t =
        (puts x keys).foldl onTree (t.insert key x) := rfl
    rw [hfold, ih hnodup hrest, hcount, length_cons]
    omega

variable {keys : List TrieKeySlice}

lemma lookup_puts {x y : Bytes} (h : (finalTree (puts x keys)).lookup key = some y) :
  key ∈ keys ∧ y = x := by
  have hfold : ∀ (ks : List TrieKeySlice) (t : StateTree),
      ((puts x ks).foldl onTree t).lookup key = some y →
      t.lookup key = some y ∨ (key ∈ ks ∧ y = x) := by
    intro ks
    induction ks with
    | nil => exact fun t h => Or.inl h
    | cons k ks ih =>
      intro t h
      rcases ih (t.insert k x) h with h | ⟨hmem, hy⟩
      · rw [lookup_insert, update_apply] at h
        split at h
        · rename_i heq
          exact Or.inr ⟨heq ▸ mem_cons_self, (some.inj h).symm⟩
        · exact Or.inl h
      · exact Or.inr ⟨mem_cons_of_mem _ hmem, hy⟩
  exact (hfold keys .nil h).resolve_left (by simp [Radix.lookup])

lemma legal_puts {keccak : Bytes → B256} {x : Bytes} (hx : x ≠ []) (hlen : x.length < 2 ^ 24)
  (hkeys : ∀ key ∈ keys, key.length ≤ 1024) (s : TrieState) : Legal keccak s (puts x keys) := by
  induction keys generalizing s with
  | nil => trivial
  | cons key keys ih =>
    exact ⟨⟨hkeys key mem_cons_self, hx, hlen⟩,
      fun s' _ => ih (fun k hk => hkeys k (mem_cons_of_mem _ hk)) s'⟩

lemma exists_crossing {keccak : Bytes → B256} {x : Bytes} {keys : List TrieKeySlice}
  {t : StateTree} (hfits : Fits keccak t)
  (hend : ¬ Fits keccak ((puts x keys).foldl onTree t)) :
  ∃ before key after, keys = before ++ key :: after ∧
    InRangeFrom keccak t (puts x (before ++ [key])) ∧
    ¬ Fits keccak ((puts x (before ++ [key])).foldl onTree t) := by
  induction keys generalizing t with
  | nil => exact absurd hfits hend
  | cons key keys ih =>
    have hput : ∀ store, TrieOp.put key x = .reload store → t ≠ .nil := fun _ h => nomatch h
    by_cases hnext : Fits keccak (t.insert key x)
    · obtain ⟨before, k, after, rfl, hrange, hnot⟩ := ih hnext hend
      exact ⟨key :: before, k, after, rfl, ⟨hfits, hput, hrange⟩, hnot⟩
    · exact ⟨[], key, keys, rfl, ⟨hfits, hput, trivial⟩, hnext⟩

section Overflow

variable {keccak : Bytes → B256} {store : TrieStore}
  {path rest : TrieKeySlice} {value : Option Bytes} {tl tr : StateTree} {n : TrieNode}

lemma rewrite_childrenSize {v : Option Bytes} {recursive b : Bool}
  (hvalid : Valid (.node path value tl tr)) (hl : treeSize keccak tl < 2 ^ 64)
  (hr : treeSize keccak tr < 2 ^ 64) (hsum : 2 ^ 64 ≤ treeSize keccak tl + treeSize keccak tr)
  (h : Represents keccak store n.ref (.node path value tl tr)) (hv : v ≠ some []) {fuel : Nat}
  (ho : Outcome keccak store ((internalPut keccak store recursive fuel
      (((if b then n.right else n.left).resolve keccak store).getD empty) rest v).bind
      (coalesce keccak store v)) (if b then tr else tl)) :
  ∃ n', internalPut keccak store recursive (fuel + 1) n (path ++ b :: rest) v = some n' ∧
    n'.left.isEmpty = false ∧ n'.right.isEmpty = false ∧
    n'.childrenSize ≠ n.childrenSize ∧ n'.toMessage keccak ≠ n.toMessage keccak := by
  obtain ⟨rfl, rfl, hhash, hlen, hsize, hrl, hrr⟩ := h.node_parts
  have hnonempty : n.isEmptyTrie = false := Represents.isEmptyTrie_eq_false hrl hvalid.canon.1 _
  obtain ⟨n', hpath, hvalue, hhash', hlong, hl', hr', hsize', hput⟩ :=
    internalPut_descend hvalid.left hvalid.right hnonempty h hv ho
  have hleft : Represents keccak store n'.left tl := by cases b <;> exact hl'
  have hright : Represents keccak store n'.right tr := by cases b <;> exact hr'
  have hnel : tl ≠ .nil := by
    rintro rfl
    simp only [treeSize] at hsum
    omega
  have hner : tr ≠ .nil := by
    rintro rfl
    simp only [treeSize] at hsum
    omega
  have hfulll : n'.left.isEmpty = false := by simpa using hleft.isEmpty_iff.not.mpr hnel
  have hfullr : n'.right.isEmpty = false := by simpa using hright.isEmpty_iff.not.mpr hner
  have hwl := weight_toNat hl
  have hwr := weight_toNat hr
  have hwrap : (weight keccak tl + weight keccak tr).toNat =
      treeSize keccak tl + treeSize keccak tr - 2 ^ 64 := by
    rw [UInt64.toNat_add, hwl, hwr]
    omega
  have hsub : saturatingSub (weight keccak tl + weight keccak tr)
      (weight keccak (if b then tr else tl)) = 0 := by
    rw [saturatingSub, if_neg]
    rw [UInt64.le_iff_toNat_le, hwrap]
    cases b <;> simp only [Bool.false_eq_true, if_false, if_true] <;> omega
  have hdiffers : n'.childrenSize ≠ n.childrenSize := by
    rw [hsize', hsize, hsub, UInt64.zero_add]
    intro heq
    have := congrArg UInt64.toNat heq
    rw [hwrap] at this
    cases b <;> simp only [Bool.false_eq_true, if_false, if_true] at this <;> omega
  refine ⟨n', ?_, hfulll, hfullr, hdiffers, ?_⟩
  · rw [hput, if_neg (by simp [isEmptyTrieParams, hfulll])]
  rw [toMessage, toMessage, ref, ref, hpath, hvalue, hhash',
    hhash]
  exact toMessage_ne hleft hright hrl hrr hvalid.canon.2.1 hvalid.canon.2.2 (Or.inl hlong) hlen hnel
    hdiffers

variable {x : Bytes}

lemma put_again_childrenSize {b : Bool} (hvalid : Valid (.node path value tl tr))
  (hl : treeSize keccak tl < 2 ^ 64) (hr : treeSize keccak tr < 2 ^ 64)
  (hsum : 2 ^ 64 ≤ treeSize keccak tl + treeSize keccak tr)
  (h : Represents keccak store n.ref (.node path value tl tr)) (hx : x ≠ [])
  (hkey : (if b then tr else tl).lookup rest = some x) :
  ∃ n', n.put keccak store (path ++ b :: rest) x = n' ∧ n'.isEmptyTrie = false ∧
    n'.childrenSize ≠ n.childrenSize ∧ n'.toMessage keccak ≠ n.toMessage keccak := by
  obtain ⟨rfl, rfl, -, -, -, hrl, hrr⟩ := h.node_parts
  -- the write leaves the subtree as it was
  have hsame : ∀ {t : StateTree}, Valid t → t.lookup rest = some x → t.insert rest x = t := by
    intro t ht hlookup
    refine canon_ext (canon_insert ht.canon rest x) ht.canon ?_
    rw [lookup_insert, ← hlookup, update_eq_self]
  have hchild : ∃ c, internalPut keccak store false (2 * (n.sharedPath ++ b :: rest).length + 1)
      (((if b then n.right else n.left).resolve keccak store).getD empty) rest (some x) =
        some c ∧ Represents keccak store c.ref (if b then tr else tl) := by
    have hfuel : 2 * rest.length + 2 ≤ 2 * (n.sharedPath ++ b :: rest).length + 1 := by
      simp
      omega
    cases b
    · obtain ⟨c, hc, hrep⟩ := internalPut_represents hvalid.left (fits_of_treeSize_lt hl)
        (hrl.standsFor_resolve hvalid.left) hx hfuel
      exact ⟨c, hc, hsame hvalid.left hkey ▸ hrep⟩
    obtain ⟨c, hc, hrep⟩ := internalPut_represents hvalid.right (fits_of_treeSize_lt hr)
      (hrr.standsFor_resolve hvalid.right) hx hfuel
    exact ⟨c, hc, hsame hvalid.right hkey ▸ hrep⟩
  obtain ⟨c, hc, hrep⟩ := hchild
  obtain ⟨n', hput, hfull, -, hsize, hmessage⟩ :=
    rewrite_childrenSize (v := some x) hvalid hl hr hsum h (by simpa using hx)
      (show Outcome keccak store _ _ by rw [hc]; exact hrep)
  refine ⟨n', ?_, by simp [isEmptyTrie, hfull], hsize, hmessage⟩
  rw [TrieNode.put, putFuel, hput]
  rfl

variable {t : StateTree}

lemma treeSize_child_lt (hvalid : Valid t) (hlong : LongEntries (2 ^ 23 + 1) t) {m : Nat}
  (hm : m ≤ 40) (hkeys : ∀ key x, t.lookup key = some x → key.length = m) :
  treeSize keccak t < 2 ^ 64 := by
  by_cases hne : t = .nil
  · subst hne
    exact Nat.two_pow_pos 64
  have hsize := @treeSize_le keccak _ _ hvalid hlong hne
  have hcount := (count_le_two_pow hvalid.canon hkeys).trans
    (Nat.pow_le_pow_right (by decide : 2 > 0) hm)
  have := Nat.mul_le_mul_left (2 ^ 23 + 1 + 600) hcount
  omega

lemma valid_puts (hx : x.length = 2 ^ 23 + 1) {keys : List TrieKeySlice}
  (hkeys : ∀ key ∈ keys, key.length = 41) :
  Valid (finalTree (puts x keys)) ∧ LongEntries (2 ^ 23 + 1) (finalTree (puts x keys)) := by
  have hne : x ≠ [] := by
    rintro rfl
    simp at hx
  refine ⟨?_, by decide, fun key y hkey => (lookup_puts hkey).2 ▸ hx⟩
  have hfold : ∀ (ks : List TrieKeySlice) (t : StateTree), (∀ key ∈ ks, key.length = 41) → Valid t →
      Valid ((puts x ks).foldl onTree t) := by
    intro ks
    induction ks with
    | nil => exact fun t _ ht => ht
    | cons k ks ih =>
      intro t hks ht
      have hk := hks k mem_cons_self
      exact ih _ (fun key hkey => hks key (mem_cons_of_mem _ hkey))
        (ht.insert (by rw [hk]; decide) hne (by rw [hx]; decide))
  exact hfold keys .nil hkeys Valid.nil

lemma not_fits_allKeys (hx : x.length = 2 ^ 23 + 1) :
  ¬ Fits keccak (finalTree (puts x (allKeys 41))) := by
  obtain ⟨hvalid, hlong⟩ := valid_puts hx fun key hkey => length_of_mem_allKeys hkey
  have hcount : (finalTree (puts x (allKeys 41))).count = 2 ^ 41 := by
    have := @count_puts x _ (nodup_allKeys 41) .nil fun _ _ => rfl
    rw [length_allKeys] at this
    exact this.trans (Nat.zero_add _)
  cases ht : finalTree (puts x (allKeys 41)) with
  | nil =>
    rw [ht, Radix.count] at hcount
    omega
  | node path value l r =>
    rw [ht] at hcount hlong
    have hl := @le_treeSize keccak _ _ hlong.left
    have hr := @le_treeSize keccak _ _ hlong.right
    rw [Radix.count] at hcount
    show ¬ treeSize keccak l + treeSize keccak r < 2 ^ 64
    have hchildren : 2 ^ 41 - 1 ≤ l.count + r.count := by split_ifs at hcount <;> omega
    have := Nat.mul_le_mul_left (2 ^ 23 + 1) hchildren
    rw [Nat.mul_add] at this
    omega

lemma subtrees_of_not_fits (hvalid : Valid t) (hlong : LongEntries (2 ^ 23 + 1) t)
  (hkeys : ∀ key x, t.lookup key = some x → key.length = 41) (hnot : ¬ Fits keccak t)
  {key : TrieKeySlice} (hkey : t.lookup key = some x) :
  ∃ path value tl tr b rest, t = .node path value tl tr ∧ key = path ++ b :: rest ∧
    treeSize keccak tl < 2 ^ 64 ∧ treeSize keccak tr < 2 ^ 64 ∧
    2 ^ 64 ≤ treeSize keccak tl + treeSize keccak tr ∧
    (if b then tr else tl).lookup rest = some x := by
  cases t with
  | nil => exact absurd trivial hnot
  | node path value tl tr =>
    have hsum : 2 ^ 64 ≤ treeSize keccak tl + treeSize keccak tr := Nat.le_of_not_lt hnot
    have hl : treeSize keccak tl < 2 ^ 64 := by
      refine treeSize_child_lt hvalid.left hlong.left (m := 41 - (path.length + 1)) (by omega) ?_
      intro k y hk
      have := hkeys (path ++ false :: k) y (by rw [lookup_node, under_append]; exact hk)
      simp at this
      omega
    have hr : treeSize keccak tr < 2 ^ 64 := by
      refine treeSize_child_lt hvalid.right hlong.right (m := 41 - (path.length + 1)) (by omega) ?_
      intro k y hk
      have := hkeys (path ++ true :: k) y (by rw [lookup_node, under_append]; exact hk)
      simp at this
      omega
    obtain ⟨rest, rfl⟩ := initial_of_lookup hkey
    rw [lookup_node, under_append] at hkey
    rcases rest with _ | ⟨b, rest⟩
    · -- a key that ends at the root leaves no room for a subtree
      have hne : tl ≠ .nil := by
        rintro rfl
        simp only [treeSize] at hsum
        omega
      obtain ⟨k, y, hk⟩ := exists_key hvalid.canon.2.1 hne
      have hlength := hkeys (path ++ false :: k) y
        (by rw [lookup_node, under_append]; exact hk)
      have hpath := hkeys (path ++ []) x (by rw [lookup_node, under_append]; exact hkey)
      simp at hlength hpath
      omega
    refine ⟨path, value, tl, tr, b, rest, rfl, rfl, hl, hr, hsum, ?_⟩
    cases b <;> exact hkey

end Overflow

lemma exists_overflowing (keccak : Bytes → B256) :
  ∃ (keys : List TrieKeySlice) (x : Bytes) (s : TrieState) (path : TrieKeySlice)
    (value : Option Bytes) (tl tr : StateTree) (b : Bool) (rest : TrieKeySlice), x ≠ [] ∧
    (∀ ks : List TrieKeySlice, (∀ k ∈ ks, k.length = 41) →
      Legal keccak (.start fun _ => none) (puts x ks)) ∧ (∀ k ∈ keys, k.length = 41) ∧
    (start fun _ => none).run keccak (puts x keys) = some s ∧
    path ++ b :: rest ∈ keys ∧ Valid (.node path value tl tr) ∧
    Represents keccak s.store s.root.ref (.node path value tl tr) ∧
    finalTree (puts x keys) = .node path value tl tr ∧
    treeSize keccak tl < 2 ^ 64 ∧ treeSize keccak tr < 2 ^ 64 ∧
    2 ^ 64 ≤ treeSize keccak tl + treeSize keccak tr ∧
    (if b then tr else tl).lookup rest = some x := by
  obtain ⟨x, hx⟩ : ∃ x : Bytes, x.length = 2 ^ 23 + 1 :=
    ⟨List.replicate (2 ^ 23 + 1) 0, length_replicate⟩
  have hne : x ≠ [] := by
    rintro rfl
    simp at hx
  obtain ⟨before, key, after, hsplit, hrange, hnot⟩ :=
    @exists_crossing keccak x (allKeys 41) .nil trivial (not_fits_allKeys hx)
  have hkeys : ∀ k ∈ before ++ [key], k.length = 41 := by
    intro k hk
    refine length_of_mem_allKeys (n := 41) ?_
    rw [hsplit]
    simp only [mem_append, mem_cons, not_mem_nil, or_false] at hk ⊢
    tauto
  have hlegal : ∀ ks : List TrieKeySlice, (∀ k ∈ ks, k.length = 41) →
      Legal keccak (.start fun _ => none) (puts x ks) := fun ks hks =>
    legal_puts hne (by rw [hx]; decide) (fun k hk => by rw [hks k hk]; decide) _
  obtain ⟨hvalid, hlong⟩ := valid_puts hx hkeys
  obtain ⟨-, s, hrun, hstands⟩ := run_start (hlegal _ hkeys) hrange
  have hlookup : (finalTree (puts x (before ++ [key]))).lookup key = some x := by
    rw [lookup_finalTree]
    simp [finalMap, puts, onMap]
  obtain ⟨path, value, tl, tr, b, rest, ht, rfl, hl, hr, hsum, hchild⟩ :=
    subtrees_of_not_fits hvalid hlong (fun k y hk => hkeys k (lookup_puts hk).1) hnot hlookup
  rw [show finalTree (puts x (before ++ [path ++ b :: rest])) = _ from ht] at hvalid hstands
  have hrep := hstands.resolve_left fun h => by cases h.2
  exact ⟨_, x, s, path, value, tl, tr, b, rest, hne, hlegal, hkeys, hrun, by simp, hvalid, hrep, ht,
    hl, hr, hsum, hchild⟩

/-- **A trie is its map.** Legal runs from the empty trie whose sizes fit, reloading only tries
with an entry, end; `get` answers the final map; and two that end in one map have the same root
hash, their nodes standing for one tree with every recorded size. -/
theorem history_independence (keccak : Bytes → B256) (store₁ store₂ : TrieStore)
  (ops₁ ops₂ : List TrieOp)
  (hlegal₁ : Legal keccak (.start store₁) ops₁) (hlegal₂ : Legal keccak (.start store₂) ops₂)
  (hrange₁ : InRange keccak ops₁) (hrange₂ : InRange keccak ops₂) :
  ∃ s₁ s₂, (start store₁).run keccak ops₁ = some s₁ ∧
    (start store₂).run keccak ops₂ = some s₂ ∧
    (∀ key, s₁.get keccak key = finalMap ops₁ key) ∧
    (∀ key, s₂.get keccak key = finalMap ops₂ key) ∧
    (finalMap ops₁ = finalMap ops₂ → s₁.root.computeHash keccak = s₂.root.computeHash keccak ∧
      ∃ t, s₁.root.StandsFor keccak s₁.store t ∧ s₂.root.StandsFor keccak s₂.store t) := by
  obtain ⟨hvalid₁, s₁, hrun₁, hs₁⟩ := run_start hlegal₁ hrange₁
  obtain ⟨hvalid₂, s₂, hrun₂, hs₂⟩ := run_start hlegal₂ hrange₂
  refine ⟨s₁, s₂, hrun₁, hrun₂, fun key => ?_, fun key => ?_, fun hmap => ?_⟩
  · rw [TrieState.get, get_eq hvalid₁ hs₁, lookup_finalTree]
  · rw [TrieState.get, get_eq hvalid₂ hs₂, lookup_finalTree]
  have htree : finalTree ops₁ = finalTree ops₂ :=
    canon_ext hvalid₁.canon hvalid₂.canon (by rw [lookup_finalTree, lookup_finalTree, hmap])
  rw [← htree] at hs₂
  exact ⟨computeHash_eq_of_standsFor hvalid₁ hs₁ hs₂, _, hs₁, hs₂⟩

/-- A key put and deleted again, and the rest saved and reloaded, against the rest alone. The hash
is the message's first 32 bytes. -/
theorem history_independence_reloaded : let keccak : Bytes → B256 := .ofBytes 32
    let leaf : Bytes := [0x50, 0x00, 0x80, 0x01]
    let store : TrieStore := update (fun _ => none) (keccak leaf) (some leaf)
    let ops₁ : List TrieOp := [.put [true] [1], .put [false] [2], .delete [false], .reload store]
    let ops₂ : List TrieOp := [.put [true] [1]]
    ∃ s₁ s₂, (start fun _ => none).run keccak ops₁ = some s₁ ∧
      (start fun _ => none).run keccak ops₂ = some s₂ ∧
      (∀ key, s₁.get keccak key = finalMap ops₁ key) ∧
      (∀ key, s₂.get keccak key = finalMap ops₂ key) ∧
      (finalMap ops₁ = finalMap ops₂ → s₁.root.computeHash keccak = s₂.root.computeHash keccak ∧
        ∃ t, s₁.root.StandsFor keccak s₁.store t ∧ s₂.root.StandsFor keccak s₂.store t) := by
  intro keccak leaf store ops₁ ops₂
  refine history_independence keccak _ _ ops₁ ops₂ ?_ ?_ ?_ ?_
  · refine ⟨⟨by decide, by decide, by decide⟩, ?_⟩
    rintro _ ⟨⟩
    refine ⟨⟨by decide, by decide, by decide⟩, ?_⟩
    rintro _ ⟨⟩
    refine ⟨(by decide : List.length [false] ≤ 1024), ?_⟩
    rintro _ ⟨⟩
    refine ⟨⟨nofun, ?_⟩, fun _ _ => trivial⟩
    intro e he
    have hbatch : saveBatch keccak (((empty.put keccak (fun _ => none) [true]
        [1]).put keccak (fun _ => none) [false] [2]).delete keccak (fun _ => none) [false]) =
        [(keccak leaf, leaf)] := by decide +kernel
    dsimp only [start] at he
    rw [hbatch] at he
    obtain rfl := mem_singleton.mp he
    exact update_self _ _ _
  · exact ⟨⟨by decide, by decide, by decide⟩, fun _ _ => trivial⟩
  · exact ⟨trivial, nofun, by decide, nofun, by decide,
      nofun, by decide, fun _ _ => (by decide), trivial⟩
  · exact ⟨trivial, nofun, trivial⟩

lemma run_append_singleton (keccak : Bytes → B256) (s : TrieState) (ops : List TrieOp)
  (op : TrieOp) :
  s.run keccak (ops ++ [op]) = (s.run keccak ops).bind fun s' => s'.step keccak op := by
  induction ops generalizing s with
  | nil => simp [run]
  | cons o ops ih =>
    rw [cons_append, run, run, bind_assoc]
    exact congrArg _ (funext fun s' => ih s')

/-- Neither limit can go. The empty trie is saved under another hash than the one it is loaded
by; and a long enough run of puts, its last one repeated, has another root than without the
repetition. -/
theorem history_matters_out_of_range :
  (∃ store, Legal keccak256 (.start fun _ => none) [.reload store] ∧
    (start fun _ => none).run keccak256 [.reload store] = none) ∧
  ∀ keccak : Bytes → B256, ∃ (ops : List TrieOp) (key : TrieKeySlice) (x : Bytes),
    Legal keccak (.start fun _ => none) (ops ++ [.put key x]) ∧
    finalMap (ops ++ [.put key x]) = finalMap ops ∧
    ∃ s₁ s₂, (start fun _ => none).run keccak ops = some s₁ ∧
      (start fun _ => none).run keccak (ops ++ [.put key x]) = some s₂ ∧
      s₂.root.childrenSize ≠ s₁.root.childrenSize ∧
      ∃ m₁ m₂, m₂ ≠ m₁ ∧ s₁.root.computeHash keccak = keccak m₁ ∧
        s₂.root.computeHash keccak = keccak m₂ := by
  constructor
  · have hbatch : empty.saveBatch keccak256 = [(keccak256 [0x40], [0x40])] := rfl
    have hne : keccak256 [0x80] ≠ keccak256 [0x40] := by decide +kernel
    refine ⟨update (fun _ => none) (keccak256 [0x40]) (some [0x40]),
      ⟨⟨nofun, ?_⟩, fun _ _ => trivial⟩, ?_⟩
    · intro e he
      rw [start, hbatch] at he
      obtain rfl := mem_singleton.mp he
      exact update_self _ _ _
    have hhash : computeHash keccak256 empty = keccak256 [0x80] := rfl
    simp only [run, step, start, hhash, TrieStore.load,
      update_of_ne hne, bind_none, map_none]
  intro keccak
  obtain ⟨keys, x, s, path, value, tl, tr, b, rest, hne, hlegal, hkeys, hrun, hmem, hvalid, hrep, ht,
    hl, hr, hsum, hchild⟩ := exists_overflowing keccak
  obtain ⟨n', hput, hnonempty, hsize, hmessage⟩ :=
    put_again_childrenSize hvalid hl hr hsum hrep hne hchild
  have hagain : puts x keys ++ [.put (path ++ b :: rest) x] =
      puts x (keys ++ [path ++ b :: rest]) := by simp [puts]
  refine ⟨puts x keys, path ++ b :: rest, x, ?_, ?_, s,
    { s with root := n' }, hrun, ?_, hsize, s.root.toMessage keccak, n'.toMessage keccak, hmessage,
    computeHash_eq_keccak hrep hvalid.canon, by rw [computeHash, NodeRef.hashOf, hnonempty]; rfl⟩
  · rw [hagain]
    refine hlegal _ fun k hk => ?_
    rcases mem_append.mp hk with hk | hk
    · exact hkeys k hk
    · exact hkeys k (mem_singleton.mp hk ▸ hmem)
  · rw [finalMap, foldl_append, ← finalMap]
    refine update_eq_self_iff.mpr ?_
    rw [← lookup_finalTree, ht, lookup_node, under_append]
    cases b <;> exact hchild.symm
  rw [run_append_singleton, hrun]
  simp [step, hput]

end Rustock
