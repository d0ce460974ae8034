import Rustock.Lib.MerkleTree
import Rustock.Bridge.PegIn

/-!
# Partial Merkle trees: soundness and completeness

`PartialMerkleTree` (crates/execution/src/bridge/pmt.rs) against the Merkle tree of a list
of leaf hashes, in which a level's last hash is paired with itself if it has no neighbour.

Double SHA-256 is a parameter. Since some pair always collides, soundness assumes only that no
pair hashed by the extraction collides with one of the tree.
-/

namespace Rustock.PartialMerkleTree

open List Option Lib Lib.MerkleTree CompactSize FixedBytes

variable (sha256d : Bytes → B256)

def combineHashes (left right : B256) : B256 := sha256d (left.bytes ++ right.bytes)

variable (leaves : List B256)

abbrev nodes (height : Nat) : List B256 :=
  level (combineHashes sha256d) leaves height

def merkleRoot : Option B256 := root (combineHashes sha256d) leaves

lemma treeHeight_of_le {size : Nat} (h : size ≤ 1) : treeHeight size = 0 := by
  rw [treeHeight, dif_neg (by omega)]

lemma treeHeight_of_lt {size : Nat} (h : 1 < size) :
  treeHeight size = treeHeight ((size + 1) / 2) + 1 := by
  rw [treeHeight, dif_pos h]

lemma treeHeight_le : ∀ {k size : Nat}, size ≤ 2 ^ k → treeHeight size ≤ k
  | 0, size, h => by
    rw [treeHeight_of_le (by simpa using h)]
  | k + 1, size, h => by
    rcases Nat.lt_or_ge 1 size with hlt | hge
    · rw [treeHeight_of_lt hlt]
      have hhalf : (size + 1) / 2 ≤ 2 ^ k := by
        rw [pow_succ] at h
        omega
      exact Nat.succ_le_succ (treeHeight_le hhalf)
    rw [treeHeight_of_le hge]
    exact Nat.zero_le _

lemma le_two_pow_treeHeight (size : Nat) : size ≤ 2 ^ treeHeight size := by
  induction size using Nat.strong_induction_on with
  | _ size ih =>
    rcases Nat.lt_or_ge 1 size with hlt | hge
    · have hhalf := ih ((size + 1) / 2) (by omega)
      rw [treeHeight_of_lt hlt, pow_succ]
      omega
    rw [treeHeight_of_le hge]
    omega

lemma length_nodes_treeHeight {leaves : List B256} (hne : leaves ≠ []) :
  (nodes sha256d leaves (treeHeight leaves.length)).length = 1 ∧
    ∀ k, k < treeHeight leaves.length → 1 < (nodes sha256d leaves k).length := by
  have hgeneral : ∀ (n : Nat) (l : List B256), l.length = n → l ≠ [] →
      (nodes sha256d l (treeHeight n)).length = 1 ∧
        ∀ k, k < treeHeight n → 1 < (nodes sha256d l k).length := by
    intro n
    induction n using Nat.strong_induction_on with
    | _ n ih =>
      intro l hl hne
      rcases Nat.lt_or_ge 1 n with hlt | hge
      · have hparents : (parents (combineHashes sha256d) l).length = (n + 1) / 2 := by
          rw [parents, length_map, length_pairs, hl]
        have hne' : parents (combineHashes sha256d) l ≠ [] := by
          rw [← length_pos_iff, hparents]
          omega
        obtain ⟨hone, habove⟩ := ih _ (by omega) _ hparents hne'
        rw [treeHeight_of_lt hlt]
        refine ⟨by rw [nodes, ← level_parents]; exact hone, fun k hk => ?_⟩
        cases k with
        | zero =>
          rw [nodes, level, hl]
          exact hlt
        | succ k =>
          rw [nodes, ← level_parents]
          exact habove k (by omega)
      rw [treeHeight_of_le hge]
      have hpos := length_pos_iff.mpr hne
      refine ⟨?_, fun k hk => absurd hk (Nat.not_lt_zero k)⟩
      rw [nodes, level]
      omega
  exact hgeneral _ leaves rfl hne

lemma merkleRoot_eq {leaves : List B256} (hne : leaves ≠ []) :
  merkleRoot sha256d leaves = (nodes sha256d leaves (treeHeight leaves.length))[0]? :=
  root_eq_level _ _ _ (length_nodes_treeHeight sha256d hne).1
    (length_nodes_treeHeight sha256d hne).2

section Tree

variable {sha256d} {leaves : List B256} {txCount : UInt32} {h : Nat}

lemma toNat_treeWidth (hcount : txCount.toNat = leaves.length) (hn : leaves.length ≤ 2 ^ 24)
  (hh : h ≤ 24) : (treeWidth txCount h).toNat = (nodes sha256d leaves h).length := by
  have hpow : 2 ^ h ≤ 2 ^ 24 := Nat.pow_le_pow_right (by omega) hh
  have hpos : 0 < 2 ^ h := Nat.two_pow_pos h
  have hle : (leaves.length + 2 ^ h - 1) / 2 ^ h ≤ leaves.length + 2 ^ h - 1 := Nat.div_le_self _ _
  rw [length_level, treeWidth, hcount, Nat.mod_eq_of_lt (by omega)]
  exact UInt32.toNat_ofNat_of_lt' (by
    rw [UInt32.size]
    omega)

lemma children {pos : Nat} (hn : leaves.length ≤ 2 ^ 24)
  (hpos : pos < (nodes sha256d leaves (h + 1)).length) :
  2 * pos < (nodes sha256d leaves h).length ∧ 2 * pos + 1 < 2 ^ 32 := by
  have hlen : (nodes sha256d leaves (h + 1)).length =
      ((nodes sha256d leaves h).length + 1) / 2 := by
    rw [nodes, level, parents, length_map, length_pairs]
  have hle : (nodes sha256d leaves h).length ≤ leaves.length := by
    rw [length_level]
    have hw := Nat.two_pow_pos h
    rcases Nat.eq_zero_or_pos leaves.length with hz | hp
    · rw [hz, Nat.div_eq_of_lt (by omega)]
    have hmul : leaves.length ≤ 2 ^ h * leaves.length := Nat.le_mul_of_pos_left _ hw
    rw [Nat.div_le_iff_le_mul_add_pred hw]
    omega
  omega

variable {pos : UInt32}

lemma toNat_double (h : 2 * pos.toNat + 1 < 2 ^ 32) :
  (pos * 2).toNat = 2 * pos.toNat ∧ (pos * 2 + 1).toNat = 2 * pos.toNat + 1 := by
  have hmul : (pos * 2).toNat = 2 * pos.toNat := by
    rw [UInt32.toNat_mul, show (2 : UInt32).toNat = 2 from rfl]
    omega
  refine ⟨hmul, ?_⟩
  rw [UInt32.toNat_add, hmul, show (1 : UInt32).toNat = 1 from rfl]
  omega

lemma lt_treeWidth_iff (hcount : txCount.toNat = leaves.length) (hn : leaves.length ≤ 2 ^ 24)
  (hh : h ≤ 24) (hpos : 2 * pos.toNat + 1 < 2 ^ 32) :
  pos * 2 + 1 < treeWidth txCount h ↔ 2 * pos.toNat + 1 < (nodes sha256d leaves h).length := by
  rw [UInt32.lt_iff_toNat_lt, (toNat_double hpos).2, toNat_treeWidth hcount hn hh]

end Tree

section Extract

variable {sha256d} {txCount : UInt32} {pos : UInt32} {bits : List Bool} {hashes matched : List B256}
  (h : Nat)

lemma extract_nil : recursiveExtract sha256d txCount h pos ⟨[], hashes, matched⟩ = none := by
  cases h <;> rfl

lemma extract_leaf (b : Bool) (hash : B256) :
  recursiveExtract sha256d txCount 0 pos ⟨b :: bits, hash :: hashes, matched⟩ =
    some (hash, ⟨bits, hashes, if b then matched ++ [hash] else matched⟩) := by
  cases b <;> rfl

lemma extract_leaf_nil (b : Bool) :
  recursiveExtract sha256d txCount 0 pos ⟨b :: bits, [], matched⟩ = none := rfl

lemma extract_skip (hash : B256) :
  recursiveExtract sha256d txCount (h + 1) pos ⟨false :: bits, hash :: hashes, matched⟩ =
    some (hash, ⟨bits, hashes, matched⟩) := rfl

lemma extract_skip_nil :
  recursiveExtract sha256d txCount (h + 1) pos ⟨false :: bits, [], matched⟩ = none := rfl

lemma extract_descend :
  recursiveExtract sha256d txCount (h + 1) pos ⟨true :: bits, hashes, matched⟩ = (do
    let (left, c) ← recursiveExtract sha256d txCount h (pos * 2) ⟨bits, hashes, matched⟩
    if pos * 2 + 1 < treeWidth txCount h then
      let (right, c) ← recursiveExtract sha256d txCount h (pos * 2 + 1) c if left = right then none
      else return (combineHashes sha256d left right, c)
    else return (combineHashes sha256d left left, c)) := rfl

end Extract

def hashedPairs (txCount : UInt32) : Nat → UInt32 → Cursor → List (B256 × B256)
  | 0, _, _ => []
  | h + 1, pos, c =>
    match c.bits with
    | true :: bits =>
      hashedPairs txCount h (pos * 2) { c with bits := bits } ++
        match recursiveExtract sha256d txCount h (pos * 2) { c with bits := bits } with
        | none => []
        | some (left, c) =>
          if pos * 2 + 1 < treeWidth txCount h then
            hashedPairs txCount h (pos * 2 + 1) c ++
              match recursiveExtract sha256d txCount h (pos * 2 + 1) c with
              | none => []
              | some (right, _) => [(left, right)]
          else [(left, left)]
    | _ => []

def NoCollision (xs ys : List (B256 × B256)) : Prop :=
  ∀ x ∈ xs, ∀ y ∈ ys, combineHashes sha256d x.1 x.2 = combineHashes sha256d y.1 y.2 → x = y

structure Leaves (leaves : List B256) (lo hi : Nat) (found : List B256) (ps : List Nat) : Prop where
  ascending : ps.Pairwise (· < ·)
  within : ∀ p ∈ ps, lo ≤ p ∧ p < hi
  found : found.map some = ps.map (leaves[·]?)

lemma Leaves.nil (lo hi : Nat) : Leaves leaves lo hi [] [] :=
  ⟨.nil, fun _ h => absurd h not_mem_nil, rfl⟩

lemma Leaves.append {leaves : List B256} {lo mid hi : Nat} {xs ys : List B256}
  {ps qs : List Nat} (hx : Leaves leaves lo mid xs ps) (hy : Leaves leaves mid hi ys qs)
  (hlo : lo ≤ mid) (hhi : mid ≤ hi) : Leaves leaves lo hi (xs ++ ys) (ps ++ qs) where
  ascending := pairwise_append.mpr ⟨hx.ascending, hy.ascending, fun p hp q hq =>
    Nat.lt_of_lt_of_le (hx.within p hp).2 (hy.within q hq).1⟩
  within := fun p hp => by
    rcases mem_append.mp hp with hp | hp
    · have := hx.within p hp
      omega
    have := hy.within p hp
    omega
  found := by rw [map_append, map_append, hx.found, hy.found]

/-- **Soundness of a subtree**: if its hash is the tree's, its matches are leaves of the tree. -/
theorem recursiveExtract_sound {leaves : List B256} {txCount : UInt32} {height : Nat}
  (hcount : txCount.toNat = leaves.length) (hn : leaves.length ≤ 2 ^ 24) (hheight : height ≤ 24) :
  ∀ (h : Nat) (pos : UInt32) (c c' : Cursor) (hash : B256), h ≤ height →
    recursiveExtract sha256d txCount h pos c = some (hash, c') →
    (nodes sha256d leaves h)[pos.toNat]? = some hash →
    NoCollision sha256d (hashedPairs sha256d txCount h pos c)
      (treePairs (combineHashes sha256d) leaves height) →
    ∃ found ps, c'.matched = c.matched ++ found ∧
      Leaves leaves (pos.toNat * 2 ^ h) ((pos.toNat + 1) * 2 ^ h) found ps := by
  intro h
  induction h with
  | zero =>
    rintro pos ⟨bits, hashes, matched⟩ c' hash - hextract hnode -
    cases bits with
    | nil =>
      rw [extract_nil] at hextract
      cases hextract
    | cons b bits =>
      cases hashes with
      | nil =>
        rw [extract_leaf_nil] at hextract
        cases hextract
      | cons hash' hashes =>
        rw [extract_leaf] at hextract
        obtain ⟨rfl, rfl⟩ := Prod.mk.inj (some.inj hextract)
        cases b with
        | false => exact ⟨[], [], by simp, Leaves.nil ..⟩
        | true =>
          refine ⟨[hash'], [pos.toNat], by simp, pairwise_singleton _ _, fun p hp => ?_, ?_⟩
          · rw [mem_singleton.mp hp]
            omega
          · exact congrArg (fun x => [x]) hnode.symm
  | succ h ih =>
    rintro pos ⟨bits, hashes, matched⟩ c' hash hh hextract hnode hfree
    have hpos := (List.getElem?_eq_some_iff.mp hnode).1
    obtain ⟨hleft, hwrap⟩ := children hn hpos
    obtain ⟨htwice, hnext⟩ := toNat_double hwrap
    cases bits with
    | nil =>
      rw [extract_nil] at hextract
      cases hextract
    | cons b bits =>
      cases b with
      | false =>
        cases hashes with
        | nil =>
          rw [extract_skip_nil] at hextract
          cases hextract
        | cons hash' hashes =>
          rw [extract_skip] at hextract
          obtain ⟨rfl, rfl⟩ := Prod.mk.inj (some.inj hextract)
          exact ⟨[], [], by simp, Leaves.nil ..⟩
      | true =>
        rw [extract_descend] at hextract
        obtain ⟨⟨left, c₁⟩, hleftRun, hrest⟩ := bind_eq_some_iff.mp hextract
        dsimp only at hrest
        -- the children the tree has at this node
        rw [getElem?_level_succ] at hnode
        obtain ⟨a, ha, hcombine⟩ := map_eq_some_iff.mp hnode
        have hmem := @mem_treePairs _ (combineHashes sha256d) leaves height h pos.toNat a
          (by omega) ha
        simp only [hashedPairs, hleftRun] at hfree
        have hspan : (2 * pos.toNat + 1) * 2 ^ h = 2 * pos.toNat * 2 ^ h + 2 ^ h := by ring
        have hlo : pos.toNat * 2 ^ (h + 1) = 2 * pos.toNat * 2 ^ h := by ring
        have hhi : (pos.toNat + 1) * 2 ^ (h + 1) = (2 * pos.toNat + 1 + 1) * 2 ^ h := by ring
        have hhi' : (2 * pos.toNat + 1 + 1) * 2 ^ h = 2 * pos.toNat * 2 ^ h + 2 ^ h + 2 ^ h := by
          ring
        split at hrest
        · rename_i hright
          obtain ⟨⟨right, c₂⟩, hrightRun, hend⟩ := bind_eq_some_iff.mp hrest
          dsimp only at hend
          split at hend
          · cases hend
          obtain ⟨rfl, rfl⟩ := Prod.mk.inj (some.inj hend)
          rw [if_pos hright, hrightRun] at hfree
          have hlt : 2 * pos.toNat + 1 < (nodes sha256d leaves h).length :=
            (lt_treeWidth_iff hcount hn (by omega) hwrap).mp hright
          obtain ⟨b, hb⟩ : ∃ b, (nodes sha256d leaves h)[2 * pos.toNat + 1]? = some b :=
            ⟨_, getElem?_eq_getElem hlt⟩
          rw [hb, getD_some] at hmem hcombine
          have hpair := hfree (left, right) (by simp) (a, b) hmem hcombine.symm
          obtain ⟨rfl, rfl⟩ := Prod.mk.inj hpair
          obtain ⟨xs, ps, hxs, hps⟩ := ih (pos * 2) _ _ left (by omega) hleftRun
            (by rw [htwice]; exact ha) fun x hx => hfree x (mem_append_left _ hx)
          obtain ⟨ys, qs, hys, hqs⟩ := ih (pos * 2 + 1) _ _ right (by omega) hrightRun
            (by rw [hnext]; exact hb) fun x hx =>
              hfree x (mem_append_right _ (mem_append_left _ hx))
          rw [htwice] at hps
          rw [hnext] at hqs
          refine ⟨xs ++ ys, ps ++ qs, by rw [hys, hxs, append_assoc], ?_⟩
          rw [hlo, hhi]
          exact hps.append hqs (Nat.mul_le_mul_right _ (Nat.le_succ _))
            (Nat.mul_le_mul_right _ (Nat.le_succ _))
        rename_i hright
        obtain ⟨rfl, rfl⟩ := Prod.mk.inj (some.inj hrest)
        rw [if_neg hright] at hfree
        have hge : (nodes sha256d leaves h).length ≤ 2 * pos.toNat + 1 :=
          Nat.not_lt.mp fun hlt => hright ((lt_treeWidth_iff hcount hn (by omega) hwrap).mpr hlt)
        rw [getElem?_eq_none hge, getD_none] at hmem hcombine
        have hpair := hfree (left, left) (by simp) (a, a) hmem hcombine.symm
        obtain ⟨rfl, -⟩ := Prod.mk.inj hpair
        obtain ⟨xs, ps, hxs, hps⟩ := ih (pos * 2) _ _ left (by omega) hleftRun
          (by rw [htwice]; exact ha) fun x hx => hfree x (mem_append_left _ hx)
        rw [htwice] at hps
        refine ⟨xs, ps, hxs, hps.ascending, fun p hp => ?_, hps.found⟩
        have := hps.within p hp
        omega

section Build

variable (leaves : List B256) (marked : Finset Nat)

def markedIn (h pos : Nat) : List Nat :=
  (range' (pos * 2 ^ h) (2 ^ h)).filter (· ∈ marked)

/-- BIP 37's traversal: flag bits and hashes of a subtree, depth first. A node above no marked
position, and every leaf, gives its hash. -/
def build : Nat → Nat → List Bool × List B256
  | 0, pos => ([decide (pos ∈ marked)], leaves[pos]?.toList)
  | h + 1, pos =>
    if markedIn marked (h + 1) pos = [] then
      ([false], (nodes sha256d leaves (h + 1))[pos]?.toList)
    else
      let left := build h (2 * pos)
      let right :=
        if 2 * pos + 1 < (nodes sha256d leaves h).length then build h (2 * pos + 1) else ([], [])
      (true :: (left.1 ++ right.1), left.2 ++ right.2)

lemma markedIn_zero (pos : Nat) : markedIn marked 0 pos = if pos ∈ marked then [pos] else [] := by
  simp [markedIn, filter_cons]

lemma markedIn_succ (h pos : Nat) : markedIn marked (h + 1) pos =
  markedIn marked h (2 * pos) ++ markedIn marked h (2 * pos + 1) := by
  have hlo : pos * 2 ^ (h + 1) = 2 * pos * 2 ^ h := by ring
  have hmid : (2 * pos + 1) * 2 ^ h = 2 * pos * 2 ^ h + 2 ^ h := by ring
  have hlen : 2 ^ (h + 1) = 2 ^ h + 2 ^ h := by ring
  rw [markedIn, markedIn, markedIn, ← filter_append, hlo, hmid, hlen, ← range'_append_1]

def DistinctSiblings : Prop :=
  ∀ h i a b, h < treeHeight leaves.length → (nodes sha256d leaves h)[2 * i]? = some a →
    (nodes sha256d leaves h)[2 * i + 1]? = some b → a ≠ b

variable {sha256d leaves marked}

lemma markedIn_eq_nil (hmarked : ∀ p ∈ marked, p < leaves.length) {h pos : Nat}
  (hpos : (nodes sha256d leaves h).length ≤ pos) : markedIn marked h pos = [] := by
  refine filter_eq_nil_iff.mpr fun p hp hmem => ?_
  have hp' := (mem_range'_1.mp hp).1
  have hlt := hmarked p (by simpa using hmem)
  have hw := Nat.two_pow_pos h
  rw [length_level] at hpos
  have hle : leaves.length + 2 ^ h - 1 < (pos + 1) * 2 ^ h :=
    (Nat.div_lt_iff_lt_mul hw).mp (by omega)
  have hspan : (pos + 1) * 2 ^ h = pos * 2 ^ h + 2 ^ h := by ring
  omega

/-- **Extraction inverts the traversal**, whatever bits and hashes follow. -/
theorem recursiveExtract_build {txCount : UInt32} (hcount : txCount.toNat = leaves.length)
  (hn : leaves.length ≤ 2 ^ 24) (hdistinct : DistinctSiblings sha256d leaves)
  (hmarked : ∀ p ∈ marked, p < leaves.length) :
  ∀ (h : Nat) (pos : UInt32) (hash : B256) (bits : List Bool) (hashes matched : List B256),
    h ≤ treeHeight leaves.length → (nodes sha256d leaves h)[pos.toNat]? = some hash →
    recursiveExtract sha256d txCount h pos ⟨(build sha256d leaves marked h pos.toNat).1 ++ bits,
          (build sha256d leaves marked h pos.toNat).2 ++ hashes, matched⟩ =
      some (hash, ⟨bits, hashes,
        matched ++ (markedIn marked h pos.toNat).filterMap (leaves[·]?)⟩) := by
  have hheight : treeHeight leaves.length ≤ 24 := treeHeight_le hn
  intro h
  induction h with
  | zero =>
    intro pos hash bits hashes matched _ hnode
    have hleaf : leaves[pos.toNat]? = some hash := hnode
    simp only [build, hleaf, toList_some, singleton_append, extract_leaf, markedIn_zero]
    by_cases hm : pos.toNat ∈ marked <;> simp [hm, hleaf]
  | succ h ih =>
    intro pos hash bits hashes matched hh hnode
    have hpos := (List.getElem?_eq_some_iff.mp hnode).1
    obtain ⟨hleft, hwrap⟩ := children hn hpos
    obtain ⟨htwice, hnext⟩ := toNat_double hwrap
    rw [build]
    split
    · rename_i hnone
      rw [hnode, hnone]
      simp [extract_skip]
    dsimp only
    rw [getElem?_level_succ] at hnode
    obtain ⟨a, ha, rfl⟩ := map_eq_some_iff.mp hnode
    have hl := ih (pos * 2) a
    rw [htwice] at hl
    have hr := ih (pos * 2 + 1)
    rw [hnext] at hr
    rw [cons_append, extract_descend, append_assoc, append_assoc,
      hl _ _ _ (by omega) ha, markedIn_succ]
    simp only [bind_eq_bind, bind_some]
    by_cases hright : 2 * pos.toNat + 1 < (nodes sha256d leaves h).length
    · obtain ⟨b, hb⟩ : ∃ b, (nodes sha256d leaves h)[2 * pos.toNat + 1]? = some b :=
        ⟨_, getElem?_eq_getElem hright⟩
      have hne := hdistinct h pos.toNat a b (by omega) ha hb
      rw [if_pos ((lt_treeWidth_iff hcount hn (by omega) hwrap).mpr hright), if_pos hright,
        hr b _ _ _ (by omega) hb, hb]
      simp [hne]
    have hnot : ¬pos * 2 + 1 < treeWidth txCount h := fun hlt =>
      hright ((lt_treeWidth_iff hcount hn (by omega) hwrap).mp hlt)
    rw [if_neg hnot, if_neg hright, getElem?_eq_none (Nat.not_lt.mp hright),
      markedIn_eq_nil hmarked (Nat.not_lt.mp hright)]
    simp

lemma length_build (h : Nat) : ∀ pos, pos * 2 ^ h < leaves.length →
  (build sha256d leaves marked h pos).2.length + pos * 2 ^ h ≤
    min leaves.length ((pos + 1) * 2 ^ h) := by
  induction h with
  | zero =>
    intro pos hpos
    have hle : leaves[pos]?.toList.length ≤ 1 := by cases leaves[pos]? <;> simp
    simp only [build]
    omega
  | succ h ih =>
    intro pos hpos
    have hw := Nat.two_pow_pos h
    have hlo : pos * 2 ^ (h + 1) = 2 * pos * 2 ^ h := by ring
    have hmid : (2 * pos + 1) * 2 ^ h = 2 * pos * 2 ^ h + 2 ^ h := by ring
    have hhi : (pos + 1) * 2 ^ (h + 1) = 2 * pos * 2 ^ h + 2 ^ h + 2 ^ h := by ring
    have hend : (2 * pos + 1 + 1) * 2 ^ h = 2 * pos * 2 ^ h + 2 ^ h + 2 ^ h := by ring
    rw [build]
    split
    · have hle : (nodes sha256d leaves (h + 1))[pos]?.toList.length ≤ 1 := by
        cases (nodes sha256d leaves (h + 1))[pos]? <;> simp
      dsimp only
      omega
    dsimp only
    have hl := ih (2 * pos) (by omega)
    rw [length_append]
    split
    · rename_i hright
      have hlt : (2 * pos + 1) * 2 ^ h < leaves.length := by
        rw [length_level] at hright
        have := (Nat.lt_div_iff_mul_lt hw).mp hright
        omega
      have hr := ih (2 * pos + 1) hlt
      omega
    rw [length_nil]
    omega

lemma length_build_bits (h : Nat) : ∀ pos,
  (build sha256d leaves marked h pos).1.length < 2 ^ (h + 1) := by
  induction h with
  | zero => exact fun pos => by simp [build]
  | succ h ih =>
    intro pos
    have hw : 2 ^ (h + 1 + 1) = 2 ^ (h + 1) + 2 ^ (h + 1) := by ring
    have hone : 2 ^ 1 ≤ 2 ^ (h + 1) := Nat.pow_le_pow_right (by omega) (by omega)
    have hl := ih (2 * pos)
    have hr := ih (2 * pos + 1)
    rw [build]
    split
    · simp only [length_singleton]
      omega
    dsimp only
    rw [length_cons, length_append]
    split
    · omega
    rw [length_nil]
    omega

end Build

def packBits (bits : List Bool) : Bytes :=
  (range ((bits.length + 7) / 8)).map fun i =>
    UInt8.ofNat (Nat.ofBits fun j : Fin 8 => bits.getD (8 * i + j) false)

lemma flatMap_chunks (f : Nat → Bool) (k : Nat) :
  ((range k).flatMap fun i => (range 8).map fun j => f (8 * i + j)) =
    (range (8 * k)).map f := by
  induction k with
  | zero => rfl
  | succ k ih =>
    rw [range_succ (n := k), flatMap_append, ih, Nat.mul_succ, range_add, map_append, List.map_map]
    simp [Function.comp_def]

lemma bitsOf_packBits (bits : List Bool) : bitsOf (packBits bits) =
  bits ++ replicate (8 * ((bits.length + 7) / 8) - bits.length) false := by
  have hbyte (i j : Nat) (hj : j < 8) :
      (UInt8.ofNat (Nat.ofBits fun j : Fin 8 => bits.getD (8 * i + j) false)).toNat.testBit j =
        bits.getD (8 * i + j) false := by
    have hlt : (Nat.ofBits fun j : Fin 8 => bits.getD (8 * i + j) false) < 256 :=
      Nat.ofBits_lt_two_pow _
    rw [UInt8.toNat_ofNat', Nat.mod_eq_of_lt hlt, Nat.testBit_ofBits_lt _ _ hj]
  have hchunks : bitsOf (packBits bits) =
      (range (8 * ((bits.length + 7) / 8))).map fun p => bits.getD p false := by
    rw [← flatMap_chunks, bitsOf, packBits, flatMap_map]
    refine flatMap_congr fun i _ => map_congr_left fun j hj => ?_
    exact hbyte i j (mem_range.mp hj)
  rw [hchunks]
  refine ext_getElem ?_ fun p h₁ h₂ => ?_
  · simp only [length_map, length_range, length_append, length_replicate]
    omega
  rw [getElem_map, getElem_range, getElem_append]
  split
  · rename_i hlt
    rw [getD_eq_getElem _ _ hlt]
  rename_i hge
  rw [getElem_replicate, getD_eq_default _ _ (Nat.not_lt.mp hge)]

lemma takeHashes_append (hashes : List B256) (rest : Bytes) :
  takeHashes hashes.length (hashes.flatMap (·.bytes) ++ rest) = some (hashes, rest) := by
  induction hashes with
  | nil => rfl
  | cons hash hashes ih =>
    rw [length_cons, flatMap_cons, append_assoc, takeHashes, takeExact_append hash.length_bytes]
    simp [ih]

def serialize (count : Nat) (bits : List Bool) (hashes : List B256) : Bytes :=
  leBytes 4 count ++ (CompactSize.encode hashes.length ++ (hashes.flatMap (·.bytes) ++
    (CompactSize.encode (packBits bits).length ++ packBits bits)))

section Serialize

variable {count : Nat} {bits : List Bool} {hashes : List B256}

lemma parse_serialize (hcount : count < 2 ^ 32) (hhashes : hashes.length < 2 ^ 64)
  (hbits : (packBits bits).length < 2 ^ 64) : parse (serialize count bits hashes) =
    some ⟨UInt32.ofNat count, hashes, bitsOf (packBits bits)⟩ := by
  have hflags : takeExact (packBits bits).length (packBits bits) = some (packBits bits, []) := by
    simp [takeExact]
  have hle : leNat (leBytes 4 count) = count := by rw [leNat_leBytes, Nat.mod_eq_of_lt (by omega)]
  rw [parse, serialize, takeExact_append (by simp)]
  simp only [bind_eq_bind, bind_some, decode_encode hhashes,
    takeHashes_append, decode_encode hbits, hflags, hle]
  rfl

lemma hasExpectedSize_serialize (hhashes : hashes.length < 2 ^ 64)
  (hbits : (packBits bits).length < 2 ^ 64) :
  hasExpectedSize (serialize count bits hashes) = true := by
  have hlen : (hashes.flatMap (·.bytes)).length = hashes.length * 32 := by
    rw [length_flatMap]
    simp
  have htake (rest : Bytes) : takeExact 4 (leBytes 4 count ++ rest) =
      some (leBytes 4 count, rest) := takeExact_append (by simp) rest
  simp only [hasExpectedSize, serialize, htake, decode_encode hhashes]
  rw [if_neg (by rw [length_append, hlen]; omega), drop_left' hlen,
    decode_encode hbits]
  simp

end Serialize

def encode (marked : Finset Nat) : Bytes :=
  let proof := build sha256d leaves marked (treeHeight leaves.length) 0
  serialize leaves.length proof.1 proof.2

section Encode

variable {sha256d} {leaves : List B256} {marked : Finset Nat}

lemma markedIn_root (hmarked : ∀ p ∈ marked, p < leaves.length) :
  markedIn marked (treeHeight leaves.length) 0 =
    (range leaves.length).filter (· ∈ marked) := by
  obtain ⟨k, hk⟩ := Nat.exists_eq_add_of_le (le_two_pow_treeHeight leaves.length)
  have hrest : ((range k).map (leaves.length + ·)).filter (· ∈ marked) = [] := by
    refine filter_eq_nil_iff.mpr fun p hp hmem => ?_
    obtain ⟨i, -, rfl⟩ := mem_map.mp hp
    have := hmarked _ (by simpa using hmem)
    omega
  rw [markedIn, Nat.zero_mul, ← range_eq_range', hk, range_add, filter_append, hrest, append_nil]

lemma build_bounds (hne : leaves ≠ []) (hn : leaves.length ≤ 2 ^ 24) :
  (build sha256d leaves marked (treeHeight leaves.length) 0).2.length ≤ leaves.length ∧
    (packBits (build sha256d leaves marked (treeHeight leaves.length) 0).1).length < 2 ^ 64 := by
  have hhashes := @length_build sha256d leaves marked (treeHeight leaves.length) 0
    (by simpa using length_pos_iff.mpr hne)
  have hbits := @length_build_bits sha256d leaves marked (treeHeight leaves.length) 0
  have hpow : 2 ^ (treeHeight leaves.length + 1) ≤ 2 ^ 25 :=
    Nat.pow_le_pow_right (by omega) (Nat.succ_le_succ (treeHeight_le hn))
  refine ⟨by omega, ?_⟩
  rw [packBits, length_map, length_range]
  omega

/-- **Completeness.** -/
theorem extractMatches_encode (hne : leaves ≠ []) (hn : leaves.length ≤ 2 ^ 24)
  (hdistinct : DistinctSiblings sha256d leaves) (hmarked : ∀ p ∈ marked, p < leaves.length) :
  hasExpectedSize (encode sha256d leaves marked) = true ∧
    ∃ pmt root, parse (encode sha256d leaves marked) = some pmt ∧
      merkleRoot sha256d leaves = some root ∧ extractMatches sha256d pmt = some ⟨root,
        ((range leaves.length).filter (· ∈ marked)).filterMap (leaves[·]?)⟩ := by
  obtain ⟨hhashes, hbits⟩ := @build_bounds sha256d leaves marked hne hn
  have hcount : (UInt32.ofNat leaves.length).toNat = leaves.length :=
    UInt32.toNat_ofNat_of_lt' (by rw [UInt32.size]; omega)
  have hpos := length_pos_iff.mpr hne
  obtain ⟨root, hroot⟩ : ∃ root,
      (nodes sha256d leaves (treeHeight leaves.length))[0]? = some root :=
    ⟨_, getElem?_eq_getElem (by rw [(length_nodes_treeHeight sha256d hne).1]; omega)⟩
  refine ⟨hasExpectedSize_serialize (by omega) hbits, _, root,
    parse_serialize (by omega) (by omega) hbits, (merkleRoot_eq sha256d hne).trans hroot, ?_⟩
  have hextract := recursiveExtract_build hcount hn hdistinct hmarked (treeHeight leaves.length) 0
    root (replicate (8 * (((build sha256d leaves marked (treeHeight leaves.length) 0).1.length +
      7) / 8) - (build sha256d leaves marked (treeHeight leaves.length) 0).1.length) false) [] []
    le_rfl hroot
  rw [append_nil, nil_append, show (0 : UInt32).toNat = 0 from rfl,
    markedIn_root hmarked] at hextract
  have hnonzero : UInt32.ofNat leaves.length ≠ 0 := by
    intro hzero
    rw [hzero] at hcount
    have : (0 : UInt32).toNat = 0 := rfl
    omega
  rw [extractMatches, if_neg (by
    rw [hcount]
    exact not_or.mpr ⟨hnonzero, Nat.not_lt.mpr hhashes⟩), hcount, bitsOf_packBits, hextract]
  dsimp only
  rw [if_neg]
  refine not_or.mpr ⟨fun h => h rfl, fun h => h ?_⟩
  rw [length_append, length_replicate]
  omega

end Encode

section Indices

variable (data : Bytes)

inductive OutOfBounds where
  | slice (start stop : Nat)
  | index (i : Nat)

def wrapped (n : Nat) : Nat := n % 2 ^ 64

/-- `&data[start..stop]`. -/
def slice (start stop : Nat) : Except OutOfBounds Bytes :=
  if start ≤ stop ∧ stop ≤ data.length then .ok ((data.take stop).drop start)
  else .error (.slice start stop)

/-- `read_varint`: the number and the bytes it takes. -/
def readVarint (bytes : Bytes) : Option (Nat × Nat) :=
  (decode bytes).map fun (n, rest) => (n, bytes.length - rest.length)

def readHashes : Nat → Nat → Except OutOfBounds (Option (List B256 × Nat))
  | 0, offset => .ok (some ([], offset))
  | n + 1, offset =>
    if data.length < wrapped (offset + 32) then .ok none
    else do
      let hash ← slice data offset (wrapped (offset + 32))
      let rest ← readHashes n (wrapped (offset + 32))
      return rest.map fun (hashes, offset) => (.ofBytes 32 hash :: hashes, offset)

/-- pmt.rs:73–75, the bytes. -/
def readFlags : Nat → Nat → Except OutOfBounds Bytes
  | 0, _ => .ok []
  | n + 1, offset =>
    match data[wrapped offset]? with
    | none => .error (.index (wrapped offset))
    | some byte => (readFlags n (offset + 1)).map (byte :: ·)

/-- pmt.rs:37–83 with its indices. -/
def parseIndexed : Except OutOfBounds (Option PartialMerkleTree) :=
  if data.length < 4 then .ok none
  else do
    let bytes ← slice data 4 data.length
    match readVarint bytes with
    | none => return none
    | some (nHashes, varintLen) =>
      match ← readHashes data nHashes (wrapped (4 + varintLen)) with
      | none => return none
      | some (hashes, offset) =>
        let bytes ← slice data offset data.length
        match readVarint bytes with
        | none => return none
        | some (nFlagBytes, varintLen) =>
          let offset := wrapped (offset + varintLen)
          if data.length < wrapped (offset + nFlagBytes) then return none
          else
            let flags ← readFlags data nFlagBytes offset
            return some ⟨UInt32.ofNat (leNat (data.take 4)), hashes, bitsOf flags⟩

end Indices

section InBounds

variable {data : Bytes}

lemma slice_eq_drop {offset : Nat} (h : offset ≤ data.length) :
  slice data offset data.length = .ok (data.drop offset) := by
  rw [slice, if_pos ⟨h, le_rfl⟩, take_length]

lemma decode_rest {bytes rest : Bytes} {n : Nat} (h : decode bytes = some (n, rest)) :
  rest.length ≤ bytes.length ∧ rest = bytes.drop (bytes.length - rest.length) := by
  obtain ⟨first, -, h⟩ := bind_eq_some_iff.mp h
  obtain ⟨⟨taken, rest'⟩, htake, h⟩ := bind_eq_some_iff.mp h
  obtain ⟨-, rfl⟩ := Prod.mk.inj (some.inj h)
  unfold takeExact at htake
  split at htake
  · rename_i hle
    obtain ⟨-, rfl⟩ := Prod.mk.inj (some.inj htake)
    rw [length_drop]
    exact ⟨Nat.sub_le _ _, by rw [Nat.sub_sub_self hle]⟩
  · cases htake

lemma readHashes_eq (hlen : data.length < 2 ^ 63) : ∀ (n offset : Nat),
  offset + n * 32 ≤ data.length → ∃ hashes,
    takeHashes n (data.drop offset) = some (hashes, data.drop (offset + n * 32)) ∧
      readHashes data n offset = .ok (some (hashes, offset + n * 32))
  | 0, offset, _ => ⟨[], by simp [takeHashes], by simp [readHashes]⟩
  | n + 1, offset, h => by
    have hwrap : wrapped (offset + 32) = offset + 32 := Nat.mod_eq_of_lt (by omega)
    obtain ⟨hashes, htake, hread⟩ := readHashes_eq hlen n (offset + 32) (by omega)
    have hslice : slice data offset (offset + 32) = .ok ((data.drop offset).take 32) := by
      rw [slice, if_pos (by omega), drop_take, Nat.add_sub_cancel_left]
    have hend : offset + 32 + n * 32 = offset + (n + 1) * 32 := by omega
    refine ⟨.ofBytes 32 ((data.drop offset).take 32) :: hashes, ?_, ?_⟩
    · rw [takeHashes, takeExact, if_pos (by rw [length_drop]; omega)]
      simp only [bind_eq_bind, bind_some, drop_drop, htake, hend]
      rfl
    rw [readHashes, hwrap, if_neg (by omega), hslice, hread, hend]
    rfl

lemma readFlags_eq (hlen : data.length < 2 ^ 63) : ∀ (n offset : Nat),
  offset + n ≤ data.length → readFlags data n offset = .ok ((data.drop offset).take n)
  | 0, _, _ => by simp [readFlags]
  | n + 1, offset, h => by
    have hwrap : wrapped offset = offset := Nat.mod_eq_of_lt (by omega)
    have hget : data[offset]? = some data[offset] := getElem?_eq_getElem (by omega)
    rw [readFlags, hwrap, hget, readFlags_eq hlen n (offset + 1) (by omega),
      drop_eq_getElem_cons (show offset < data.length by omega)]
    rfl

/-- **No index is out of bounds** in `parse` once the size is checked. -/
theorem parseIndexed_eq (hlen : data.length < 2 ^ 63) (hsize : hasExpectedSize data = true) :
  ∃ pmt, parse data = some pmt ∧ parseIndexed data = .ok (some pmt) := by
  unfold hasExpectedSize at hsize
  cases hfour : takeExact 4 data with
  | none => simp [hfour] at hsize
  | some p =>
    obtain ⟨count, rest₀⟩ := p
    rw [hfour] at hsize
    have hle : 4 ≤ data.length := by
      unfold takeExact at hfour
      split at hfour
      · assumption
      · cases hfour
    have hsplit : count = data.take 4 ∧ rest₀ = data.drop 4 := by
      rw [takeExact, if_pos hle] at hfour
      exact ⟨(Prod.mk.inj (some.inj hfour)).1.symm, (Prod.mk.inj (some.inj hfour)).2.symm⟩
    obtain ⟨rfl, rfl⟩ := hsplit
    dsimp only at hsize
    cases hhashes : decode (data.drop 4) with
    | none => simp [hhashes] at hsize
    | some p =>
      obtain ⟨nHashes, rest₁⟩ := p
      rw [hhashes] at hsize
      dsimp only at hsize
      split at hsize
      · cases hsize
      rename_i hroom
      obtain ⟨hle₁, hrest₁⟩ := decode_rest hhashes
      rw [length_drop] at hle₁ hrest₁
      -- where the hashes start
      obtain ⟨start, hstart⟩ : ∃ start, start = 4 + (data.length - 4 - rest₁.length) := ⟨_, rfl⟩
      have hrest₁' : rest₁ = data.drop start := by
        rw [hstart, ← drop_drop]
        exact hrest₁
      cases hflags : decode (rest₁.drop (nHashes * 32)) with
      | none => simp [hflags] at hsize
      | some p =>
        obtain ⟨nFlagBytes, rest₂⟩ := p
        rw [hflags] at hsize
        have hcount : rest₂.length = nFlagBytes := by simpa using hsize
        obtain ⟨hashes, htake, hread⟩ := readHashes_eq hlen nHashes start (by omega)
        rw [hrest₁', drop_drop] at hflags
        obtain ⟨hle₂, hrest₂⟩ := decode_rest hflags
        rw [length_drop] at hle₂ hrest₂
        obtain ⟨last, hlast⟩ : ∃ last, last = start + nHashes * 32 +
            (data.length - (start + nHashes * 32) - rest₂.length) := ⟨_, rfl⟩
        have hrest₂' : rest₂ = data.drop last := by
          rw [hlast, ← drop_drop]
          exact hrest₂
        have hflagsRead := readFlags_eq hlen nFlagBytes last (by omega)
        have hflagBytes : takeExact nFlagBytes rest₂ = some (rest₂, []) := by
          simp [takeExact, hcount]
        refine ⟨⟨UInt32.ofNat (leNat (data.take 4)), hashes, bitsOf rest₂⟩, ?_, ?_⟩
        · rw [parse, hfour]
          simp only [bind_eq_bind, bind_some, hhashes]
          rw [hrest₁', htake]
          simp only [bind_some, hflags, hflagBytes]
          rfl
        have hwrap₁ : wrapped (4 + (data.length - 4 - rest₁.length)) = start :=
          (Nat.mod_eq_of_lt (by omega)).trans hstart.symm
        have hwrap₂ : wrapped (start + nHashes * 32 +
            (data.length - (start + nHashes * 32) - rest₂.length)) = last :=
          (Nat.mod_eq_of_lt (by omega)).trans hlast.symm
        have hwrap₃ : wrapped (last + nFlagBytes) = last + nFlagBytes :=
          Nat.mod_eq_of_lt (by omega)
        have hall : (data.drop last).take nFlagBytes = rest₂ := by
          rw [← hrest₂', ← hcount, take_length]
        rw [parseIndexed, if_neg (by omega), slice_eq_drop hle]
        simp only [bind, Except.bind, readVarint, hhashes, map_some, length_drop, hwrap₁, hread]
        rw [slice_eq_drop (by omega)]
        simp only [hflags, map_some, length_drop, hwrap₂, hwrap₃]
        rw [if_neg (by omega), hflagsRead, hall]
        rfl

end InBounds

/-- **Partial Merkle trees are sound and complete.** For a block of at most `2 ^ 24` transactions:
a proof with the block's count and root matches leaves of the block, in order, unless a pair it
hashes collides with a pair of the block's tree; the proof built for any set of positions is
accepted with the root and exactly the hashes at these positions, if no two siblings are equal;
and after the size check `parse` stays within the data. -/
theorem sound_and_complete {leaves : List B256} (hne : leaves ≠ []) (hn : leaves.length ≤ 2 ^ 24) :
  (∀ data pmt result, hasExpectedSize data = true → parse data = some pmt →
    pmt.txCount.toNat = leaves.length → extractMatches sha256d pmt = some result →
    merkleRoot sha256d leaves = some result.merkleRoot →
    NoCollision sha256d (hashedPairs sha256d pmt.txCount (treeHeight leaves.length) 0
        ⟨pmt.flagBits, pmt.hashes, []⟩)
      (treePairs (combineHashes sha256d) leaves (treeHeight leaves.length)) →
    ∃ ps : List Nat, ps.Pairwise (· < ·) ∧ result.matchedHashes.map some = ps.map (leaves[·]?)) ∧
  (∀ marked : Finset Nat, (∀ p ∈ marked, p < leaves.length) → DistinctSiblings sha256d leaves →
    hasExpectedSize (encode sha256d leaves marked) = true ∧
      ∃ pmt root, parse (encode sha256d leaves marked) = some pmt ∧
        merkleRoot sha256d leaves = some root ∧ extractMatches sha256d pmt = some ⟨root,
          ((range leaves.length).filter (· ∈ marked)).filterMap (leaves[·]?)⟩) ∧
  ∀ data : Bytes, data.length < 2 ^ 63 → hasExpectedSize data = true →
    ∃ pmt, parse data = some pmt ∧ parseIndexed data = .ok (some pmt) := by
  refine ⟨?_, fun marked hmarked hdistinct => extractMatches_encode hne hn hdistinct hmarked,
    fun data hlen hsize => parseIndexed_eq hlen hsize⟩
  intro data pmt result _ _ hcount hextract hroot hfree
  unfold extractMatches at hextract
  split at hextract
  · cases hextract
  rw [hcount] at hextract
  cases hrun : recursiveExtract sha256d pmt.txCount (treeHeight leaves.length) 0
      ⟨pmt.flagBits, pmt.hashes, []⟩ with
  | none => simp [hrun] at hextract
  | some p =>
    obtain ⟨root, c⟩ := p
    rw [hrun] at hextract
    dsimp only at hextract
    split at hextract
    · cases hextract
    obtain rfl := some.inj hextract
    rw [merkleRoot_eq sha256d hne] at hroot
    obtain ⟨found, ps, hfound, hleaves⟩ := recursiveExtract_sound sha256d hcount hn
      (treeHeight_le hn) (treeHeight leaves.length) 0 _ _ root le_rfl hrun hroot hfree
    refine ⟨ps, hleaves.ascending, ?_⟩
    rw [hfound]
    exact hleaves.found

def doubleSha256 (message : Bytes) : B256 := sha256Digest (sha256Digest message).bytes

/-- A block of two transactions, and the proof of its second. -/
theorem sound_and_complete_two : ∃ pmt root, parse (encode doubleSha256
      [repeatByte 32 1, repeatByte 32 2] {1}) = some pmt ∧
    merkleRoot doubleSha256 [repeatByte 32 1, repeatByte 32 2] = some root ∧
    extractMatches doubleSha256 pmt = some ⟨root, [repeatByte 32 2]⟩ := by
  have hdistinct : DistinctSiblings doubleSha256
      [repeatByte 32 1, repeatByte 32 2] := by
    intro h i a b hh ha hb
    have hzero : h = 0 := by
      have htop : treeHeight 2 = 1 := by rw [treeHeight_of_lt (by omega), treeHeight_of_le le_rfl]
      simp only [length_cons, length_nil, htop] at hh
      omega
    subst hzero
    cases i with
    | zero =>
      obtain rfl := some.inj ha
      obtain rfl := some.inj hb
      decide
    | succ i => cases hb
  exact ((sound_and_complete doubleSha256 (cons_ne_nil _ _) (by decide)).2.1 {1} (by decide)
    hdistinct).2

end Rustock.PartialMerkleTree
