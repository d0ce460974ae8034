import Rustock.Core.Ancestry
import Rustock.Core.Mined

/-!
# No header is counted twice

The uncle rule looks back `uncle_generation_limit` blocks only, and so does each of its two
lists: the ancestors an uncle must not be, and the uncles already used
(crates/core/src/validation/uncles.rs). What makes that enough is the last check,
that an uncle's parent is one of those same ancestors: whatever shares an uncle's hash shares its
parent, and so stands in the window as well.
-/

namespace Rustock

open Lib List UInt64
open Header (hash)

def Trunk (current : ActivationHeights) : List Block → Prop
  | [] => True
  | [b] => b.header.number = 0
  | b :: p :: rest =>
    b.header.parentHash = p.header.hash current ∧
      b.header.number.toNat = p.header.number.toNat + 1 ∧ Trunk current (p :: rest)

def AncestorSource.Holds (src : AncestorSource) (current : ActivationHeights)
  (blocks : List Block) : Prop :=
  ∀ b ∈ blocks, src.header (b.header.hash current) = some b.header ∧
    src.unclesOf (b.header.hash current) = b.ommers

def UnclesAccepted (current : ActivationHeights) : List Block → Prop
  | [] => True
  | b :: rest =>
    (∃ rule : UnclesValidationRule, rule.current = current ∧ rule.store.Holds current rest ∧
      rule.validate b = .ok ()) ∧ UnclesAccepted current rest

def headersOf (blocks : List Block) : List Header := blocks.flatMap fun b => b.header :: b.ommers

/-- A hash stands for one header's place in the chain: no two of these headers share a hash and
differ in parent or height, and the parent the lowest one names is none of them. -/
structure HashesBind (current : ActivationHeights) (blocks : List Block) : Prop where
  parent : ∀ a ∈ headersOf blocks, ∀ b ∈ headersOf blocks, a.hash current = b.hash current →
    a.parentHash = b.parentHash
  number : ∀ a ∈ headersOf blocks, ∀ b ∈ headersOf blocks, a.hash current = b.hash current →
    a.number = b.number
  rooted : ∀ g ∈ blocks, g.header.number = 0 → ∀ b ∈ blocks,
    g.header.parentHash ≠ b.header.hash current

variable {current : ActivationHeights}

namespace Trunk

variable {b : Block} {rest : List Block}

lemma tail (h : Trunk current (b :: rest)) : Trunk current rest := by
  cases rest with
  | nil => trivial
  | cons p rest => exact h.2.2

lemma below : ∀ {rest : List Block} {b : Block}, Trunk current (b :: rest) →
  ∀ x ∈ rest, x.header.number < b.header.number
  | [], _, _, x, hx => by simp at hx
  | p :: rest, b, h, x, hx => by
    have hp : p.header.number < b.header.number := by rw [lt_iff_toNat_lt, h.2.1]; omega
    rcases mem_cons.mp hx with rfl | hx
    · exact hp
    · exact UInt64.lt_trans (below h.2.2 x hx) hp

lemma parent_mem : ∀ {blocks : List Block}, Trunk current blocks → ∀ t ∈ blocks,
  t.header.number = 0 ∨ ∃ p ∈ blocks, t.header.parentHash = p.header.hash current ∧
    t.header.number.toNat = p.header.number.toNat + 1
  | [], _, t, ht => by simp at ht
  | [g], h, t, ht => by
    rw [mem_singleton] at ht
    exact .inl (ht ▸ h)
  | b :: p :: rest, h, t, ht => by
    rcases mem_cons.mp ht with rfl | ht
    · exact .inr ⟨p, by simp, h.1, h.2.1⟩
    rcases parent_mem h.2.2 t ht with hzero | ⟨q, hq, hlink⟩
    · exact .inl hzero
    · exact .inr ⟨q, mem_cons_of_mem _ hq, hlink⟩

lemma length_le : ∀ {rest : List Block} {b : Block}, Trunk current (b :: rest) →
  rest.length ≤ b.header.number.toNat
  | [], _, _ => Nat.zero_le _
  | p :: rest, b, h => by
    have := length_le h.2.2
    rw [length_cons, h.2.1]
    omega

end Trunk

lemma walk_trunk {src : AncestorSource} {floor : UInt64} :
  ∀ {blocks : List Block} {p : Block} {fuel : Nat}, Trunk current (p :: blocks) →
    src.Holds current (p :: blocks) → blocks.length < fuel →
    src.walk floor fuel (p.header.hash current) =
      ((p :: blocks).filter fun x => floor ≤ x.header.number).map
        fun x => (x.header.hash current, x.header)
  | blocks, p, 0, _, _, hfuel => by simp at hfuel
  | blocks, p, fuel + 1, htrunk, hholds, hfuel => by
    rw [AncestorSource.walk, (hholds p mem_cons_self).1]
    simp only
    split
    · -- Everything below stands lower still.
      rename_i hlow
      rw [filter_eq_nil_iff.mpr, map_nil]
      intro x hx
      rw [decide_eq_true_eq, UInt64.not_le]
      rcases mem_cons.mp hx with rfl | hx
      · exact hlow
      · exact UInt64.lt_trans (htrunk.below x hx) hlow
    rename_i hhigh
    rw [UInt64.not_lt] at hhigh
    rw [filter_cons_of_pos (by simpa using hhigh), map_cons]
    congr 1
    cases blocks with
    | nil =>
      have hzero : p.header.number = 0 := htrunk
      rw [if_pos hzero]
      rfl
    | cons q rest =>
      have hne : p.header.number ≠ 0 := by
        intro hzero
        have := htrunk.2.1
        rw [hzero] at this
        simp at this
      rw [if_neg hne, htrunk.1]
      exact walk_trunk htrunk.2.2 (fun x hx => hholds x (mem_cons_of_mem _ hx))
        (by simpa using hfuel)

section Window

variable {src : AncestorSource} {b : Block} {rest : List Block} {limit : UInt64}

section

variable (htrunk : Trunk current (b :: rest))

include htrunk

lemma walk_below (hholds : src.Holds current rest) (hne : rest ≠ []) (floor : UInt64) :
  src.walk floor (b.header.number.toNat + 1) b.header.parentHash =
    (rest.filter fun x => floor ≤ x.header.number).map
      fun x => (x.header.hash current, x.header) := by
  cases rest with
  | nil => exact absurd rfl hne
  | cons p rest =>
    rw [htrunk.1]
    refine walk_trunk htrunk.2.2 hholds ?_
    have := htrunk.length_le
    rw [length_cons] at this
    omega

lemma mem_ancestors (hholds : src.Holds current rest) (hne : rest ≠ []) {h : B256} :
  h ∈ src.ancestors b.header.number b.header.parentHash limit ↔
    ∃ x ∈ rest, saturatingSub64 b.header.number limit ≤ x.header.number ∧
      x.header.hash current = h := by
  rw [AncestorSource.ancestors, walk_below htrunk hholds hne]
  simp [and_assoc]

lemma mem_usedUncles (hholds : src.Holds current rest) (hne : rest ≠ []) {h : B256} :
  h ∈ src.usedUncles current b.header.number b.header.parentHash limit ↔
    ∃ x ∈ rest, saturatingSub64 b.header.number limit ≤ x.header.number ∧
      ∃ u ∈ x.ommers, u.hash current = h := by
  rw [AncestorSource.usedUncles, walk_below htrunk hholds hne]
  simp only [mem_flatMap, mem_map, mem_filter, decide_eq_true_eq]
  constructor
  · rintro ⟨-, ⟨x, ⟨hx, hfloor⟩, rfl⟩, u, hu, rfl⟩
    rw [(hholds x hx).2] at hu
    exact ⟨x, hx, hfloor, u, hu, rfl⟩
  rintro ⟨x, hx, hfloor, u, hu, rfl⟩
  exact ⟨_, ⟨x, ⟨hx, hfloor⟩, rfl⟩, u, (hholds x hx).2.symm ▸ hu, rfl⟩

end

end Window

structure PlacedUncle (current : ActivationHeights) (number : UInt64) (ancestors used : List B256)
  (uncle : Header) : Prop where
  below : uncle.number < number
  notAncestor : uncle.hash current ∉ ancestors
  notUsed : uncle.hash current ∉ used
  parent : uncle.parentHash ∈ ancestors

namespace UnclesValidationRule

variable {rule : UnclesValidationRule} {number : UInt64} {ancestors used : List B256}

lemma validateUncle_placed {seen : List B256} {uncle : Header}
  (h : rule.validateUncle number ancestors used seen uncle = .ok ()) :
  PlacedUncle rule.current number ancestors used uncle ∧ uncle.hash rule.current ∉ seen := by
  simp only [validateUncle, verdict_bind_eq_ok, rejectIf_eq_ok, UInt64.not_le] at h
  obtain ⟨-, hbelow, -, hseen, hancestor, hused, hparent⟩ := h
  refine ⟨⟨hbelow, hancestor, hused, ?_⟩, hseen⟩
  split at hparent
  · simp at hparent
  rename_i parent hfound
  simpa using (Option.filter_eq_some_iff.mp hfound).2

lemma validateList_placed : ∀ {uncles : List Header} {seen : List B256},
    rule.validateList number ancestors used seen uncles = .ok () →
    (∀ u ∈ uncles, PlacedUncle rule.current number ancestors used u ∧
      u.hash rule.current ∉ seen) ∧ (uncles.map (hash rule.current)).Nodup
  | [], _, _ => by simp
  | first :: rest, seen, h => by
    rw [validateList, verdict_bind_eq_ok] at h
    have hfirst := validateUncle_placed h.1
    obtain ⟨hrest, hnodup⟩ := validateList_placed h.2
    constructor
    · intro u hu
      rcases mem_cons.mp hu with rfl | hu
      · exact hfirst
      · exact ⟨(hrest u hu).1, fun hs => (hrest u hu).2 (mem_cons_of_mem _ hs)⟩
    rw [map_cons, nodup_cons]
    refine ⟨?_, hnodup⟩
    intro hmem
    obtain ⟨u, hu, heq⟩ := mem_map.mp hmem
    exact (hrest u hu).2 (heq ▸ mem_cons_self)

lemma validate_placed {block : Block} (h : rule.validate block = .ok ()) :
  (∀ u ∈ block.ommers, PlacedUncle rule.current block.header.number
    (rule.store.ancestors block.header.number block.header.parentHash rule.uncleGenerationLimit)
    (rule.store.usedUncles rule.current block.header.number block.header.parentHash
      rule.uncleGenerationLimit) u) ∧ (block.ommers.map (hash rule.current)).Nodup := by
  unfold validate at h
  split at h
  · rename_i hempty
    simp [isEmpty_iff.mp hempty]
  rw [verdict_bind_eq_ok] at h
  obtain ⟨hplaced, hnodup⟩ := validateList_placed h.2
  exact ⟨fun u hu => (hplaced u hu).1, hnodup⟩

end UnclesValidationRule

/-- What acceptance says of one block of a trunk: its uncles stand below it, have their parents
among the blocks below, and share no hash with each other, with those blocks or with their
uncles. -/
structure OnceMore (current : ActivationHeights) (b : Block) (rest : List Block) : Prop where
  below : ∀ u ∈ b.ommers, u.number < b.header.number
  parent : ∀ u ∈ b.ommers, ∃ p ∈ rest, u.parentHash = p.header.hash current
  distinct : (b.ommers.map (hash current)).Nodup
  notTrunk : ∀ u ∈ b.ommers, ∀ t ∈ rest, u.hash current ≠ t.header.hash current
  notUncle : ∀ u ∈ b.ommers, ∀ t ∈ rest, ∀ v ∈ t.ommers, u.hash current ≠ v.hash current

variable {blocks : List Block} {b : Block}

lemma mem_headersOf_header (h : b ∈ blocks) :
  b.header ∈ headersOf blocks := mem_flatMap.mpr ⟨b, h, mem_cons_self⟩

lemma mem_headersOf_uncle {u : Header} (h : b ∈ blocks) (hu : u ∈ b.ommers) :
  u ∈ headersOf blocks :=
  mem_flatMap.mpr ⟨b, h, mem_cons_of_mem _ hu⟩

variable {rest : List Block}

lemma HashesBind.tail (h : HashesBind current (b :: rest)) : HashesBind current rest := by
  have hsub : ∀ x ∈ headersOf rest, x ∈ headersOf (b :: rest) := by
    intro x hx
    rw [headersOf, flatMap_cons]
    exact mem_append_right _ hx
  exact ⟨fun a ha x hx => h.parent a (hsub a ha) x (hsub x hx),
    fun a ha x hx => h.number a (hsub a ha) x (hsub x hx),
    fun g hg hzero x hx => h.rooted g (mem_cons_of_mem _ hg) hzero x
      (mem_cons_of_mem _ hx)⟩

def ParentsBelow (current : ActivationHeights) : List Block → Prop
  | [] => True
  | b :: rest => (∀ u ∈ b.ommers, u.number < b.header.number ∧
      ∃ p ∈ rest, u.parentHash = p.header.hash current) ∧ ParentsBelow current rest

lemma parent_below_of_mem : ∀ {blocks : List Block}, Trunk current blocks →
  ParentsBelow current blocks → ∀ x ∈ blocks, ∀ v ∈ x.ommers, ∃ q ∈ blocks,
    v.parentHash = q.header.hash current ∧ q.header.number < x.header.number
  | [], _, _, x, hx, _, _ => by simp at hx
  | b :: rest, htrunk, hparents, x, hx, v, hv => by
    rcases mem_cons.mp hx with rfl | hx
    · obtain ⟨-, q, hq, heq⟩ := hparents.1 v hv
      exact ⟨q, mem_cons_of_mem _ hq, heq, htrunk.below q hq⟩
    obtain ⟨q, hq, heq⟩ := parent_below_of_mem htrunk.tail hparents.2 x hx v hv
    exact ⟨q, mem_cons_of_mem _ hq, heq⟩

lemma below_of_mem_headersOf : ∀ {blocks : List Block} {b : Block},
  Trunk current (b :: blocks) → ParentsBelow current blocks →
  ∀ x ∈ headersOf blocks, x.number < b.header.number
  | [], _, _, _, x, hx => by simp [headersOf] at hx
  | t :: rest, b, htrunk, hparents, x, hx => by
    have htb := htrunk.below t mem_cons_self
    rw [headersOf, flatMap_cons, mem_append] at hx
    rcases hx with hx | hx
    · rcases mem_cons.mp hx with rfl | hx
      · exact htb
      · exact UInt64.lt_trans (hparents.1 x hx).1 htb
    · exact UInt64.lt_trans (below_of_mem_headersOf htrunk.tail hparents.2 x hx) htb

/-- **One more block.** A hash an uncle shares with anything below it would put that block into
the window, through the parent both name. -/
theorem onceMore_of_validate {rule : UnclesValidationRule} (hcurrent : rule.current = current)
  (htrunk : Trunk current (b :: rest)) (hbind : HashesBind current (b :: rest))
  (hparents : ParentsBelow current rest) (hholds : rule.store.Holds current rest)
  (h : rule.validate b = .ok ()) : OnceMore current b rest := by
  subst hcurrent
  obtain ⟨hplaced, hdistinct⟩ := UnclesValidationRule.validate_placed h
  by_cases hne : rest = []
  · -- At height zero nothing stands below.
    subst hne
    have hzero : b.header.number = 0 := htrunk
    have hnone : ∀ u ∈ b.ommers, False := by
      intro u hu
      have hbelow := (hplaced u hu).below
      rw [hzero, lt_iff_toNat_lt] at hbelow
      exact absurd hbelow (Nat.not_lt_zero _)
    exact ⟨fun u hu => (hplaced u hu).below, fun u hu => (hnone u hu).elim, hdistinct,
      fun u hu => (hnone u hu).elim, fun u hu => (hnone u hu).elim⟩
  have hmem := fun {h : B256} => @mem_ancestors rule.current rule.store b rest
    rule.uncleGenerationLimit htrunk hholds hne h
  have hused := fun {h : B256} => @mem_usedUncles rule.current rule.store b rest
    rule.uncleGenerationLimit htrunk hholds hne h
  have hself : ∀ u ∈ b.ommers, u ∈ headersOf (b :: rest) := fun u hu =>
    mem_headersOf_uncle mem_cons_self hu
  refine ⟨fun u hu => (hplaced u hu).below, ?_, hdistinct, ?_, ?_⟩
  · intro u hu
    obtain ⟨p, hp, -, heq⟩ := hmem.mp (hplaced u hu).parent
    exact ⟨p, hp, heq.symm⟩
  · intro u hu t ht heq
    obtain ⟨p, hp, hfloor, hparent⟩ := hmem.mp (hplaced u hu).parent
    have htin := mem_headersOf_header (mem_cons_of_mem b ht)
    have hsame := hbind.parent u (hself u hu) t.header htin heq
    rcases htrunk.tail.parent_mem t ht with hzero | ⟨q, hq, hlink, hnumber⟩
    · exact hbind.rooted t (mem_cons_of_mem _ ht) hzero p (mem_cons_of_mem _ hp)
        (by rw [← hsame, hparent])
    have hheight := hbind.number p.header (mem_headersOf_header (mem_cons_of_mem b hp))
      q.header (mem_headersOf_header (mem_cons_of_mem b hq))
      (by rw [hparent, hsame, hlink])
    refine (hplaced u hu).notAncestor (hmem.mpr ⟨t, ht, ?_, heq.symm⟩)
    rw [le_iff_toNat_le] at hfloor ⊢
    rw [hnumber, ← hheight]
    omega
  intro u hu t ht v hv heq
  obtain ⟨p, hp, hfloor, hparent⟩ := hmem.mp (hplaced u hu).parent
  have hsame := hbind.parent u (hself u hu) v
    (mem_headersOf_uncle (mem_cons_of_mem b ht) hv) heq
  obtain ⟨q, hq, hlink, hbelow⟩ := parent_below_of_mem htrunk.tail hparents t ht v hv
  have hheight := hbind.number p.header (mem_headersOf_header (mem_cons_of_mem b hp))
    q.header (mem_headersOf_header (mem_cons_of_mem b hq))
    (by rw [hparent, hsame, hlink])
  refine (hplaced u hu).notUsed (hused.mpr ⟨t, ht, ?_, v, hv, heq.symm⟩)
  rw [← hheight] at hbelow
  exact UInt64.le_trans hfloor (UInt64.le_of_lt hbelow)

lemma once_of_accepted : ∀ {blocks : List Block}, Trunk current blocks →
  UnclesAccepted current blocks → HashesBind current blocks →
  ParentsBelow current blocks ∧ ((headersOf blocks).map (hash current)).Nodup
  | [], _, _, _ => ⟨trivial, nodup_nil⟩
  | b :: rest, htrunk, haccepted, hbind => by
    obtain ⟨⟨rule, hcurrent, hholds, hvalid⟩, hbelow⟩ := haccepted
    obtain ⟨hparents, hnodup⟩ := once_of_accepted htrunk.tail hbelow hbind.tail
    have honce := onceMore_of_validate hcurrent htrunk hbind hparents hholds hvalid
    refine ⟨⟨fun u hu => ⟨honce.below u hu, honce.parent u hu⟩, hparents⟩, ?_⟩
    -- A shared hash would be a shared height, and the block stands above everything else.
    have hself : b.header ∈ headersOf (b :: rest) := mem_headersOf_header mem_cons_self
    have hfresh : ∀ x ∈ headersOf (b :: rest), x.number < b.header.number →
        b.header.hash current ≠ x.hash current := by
      intro x hx hlt heq
      rw [hbind.number _ hself x hx heq] at hlt
      exact absurd hlt (UInt64.lt_irrefl _)
    have hlower := below_of_mem_headersOf htrunk hparents
    have hcons : headersOf (b :: rest) = b.header :: (b.ommers ++ headersOf rest) := rfl
    rw [hcons] at hfresh ⊢
    rw [map_cons, nodup_cons, map_append, nodup_append]
    refine ⟨?_, honce.distinct, hnodup, ?_⟩
    · intro hmem
      rw [← map_append] at hmem
      obtain ⟨x, hx, heq⟩ := mem_map.mp hmem
      refine hfresh x (mem_cons_of_mem _ hx) ?_ heq.symm
      rcases mem_append.mp hx with hx | hx
      · exact honce.below x hx
      · exact hlower x hx
    rintro _ hleft _ hright rfl
    obtain ⟨u, hu, hueq⟩ := mem_map.mp hleft
    obtain ⟨x, hx, hxeq⟩ := mem_map.mp hright
    obtain ⟨t, ht, hxt⟩ := mem_flatMap.mp hx
    rcases mem_cons.mp hxt with rfl | hxt
    · exact honce.notTrunk u hu t ht (hueq.trans hxeq.symm)
    · exact honce.notUncle u hu t ht x hxt (hueq.trans hxeq.symm)

/-- **Work is counted once.** In a chain of any length whose blocks pass the uncle rule, no hash
occurs twice among trunk headers and uncles, although every check looks back a few blocks only. -/
theorem hashes_nodup {blocks : List Block} (htrunk : Trunk current blocks)
  (haccepted : UnclesAccepted current blocks) (hbind : HashesBind current blocks) :
  ((headersOf blocks).map (hash current)).Nodup :=
  (once_of_accepted htrunk haccepted hbind).2

namespace UnclesOnceExample

open RegtestChain

def source : AncestorSource where
  header h := if h = childHash then some child else if h = root then some genesis else none
  unclesOf _ := []

def looseRule : UnclesValidationRule where
  current := .regtest
  store := source
  uncleListLimit := uncleListLimit
  uncleGenerationLimit := uncleGenerationLimit
  headerRules := []
  parentRules := []

/-- A block on `child` that includes its sibling. -/
def grandchild : Header := .unmined childHash 2

def grandchildHash : B256 :=
  ⟨[216, 37, 176, 154, 16, 187, 80, 49, 178, 189, 162, 29, 217, 197, 33, 74, 39, 189,
     79, 245, 80, 12, 36, 110, 44, 151, 79, 31, 128, 201, 83, 91], rfl⟩

lemma grandchild_hash : grandchild.hash .regtest = grandchildHash := by decide +kernel

def withUncle : List Block := [⟨grandchild, [], [unsealed]⟩, ⟨child, [], []⟩, ⟨genesis, [], []⟩]

lemma withUncle_trunk : Trunk .regtest withUncle :=
  ⟨child_hash.symm, rfl, genesis_hash.symm, rfl, rfl⟩

lemma grandchild_accepted : looseRule.validate ⟨grandchild, [], [unsealed]⟩ = .ok () := by
  decide +kernel

lemma withUncle_accepted : UnclesAccepted .regtest withUncle := by
  have hchild : source.Holds .regtest [⟨child, [], []⟩, ⟨genesis, [], []⟩] := by
    intro b hb
    rcases mem_cons.mp hb with rfl | hb
    · exact ⟨by rw [child_hash]; rfl, rfl⟩
    rw [mem_singleton.mp hb]
    exact ⟨by rw [genesis_hash]; rfl, rfl⟩
  exact ⟨⟨looseRule, rfl, hchild, grandchild_accepted⟩,
    ⟨looseRule, rfl, fun b hb => hchild b (mem_cons_of_mem _ hb), rfl⟩,
    ⟨looseRule, rfl, by simp [AncestorSource.Holds], rfl⟩, trivial⟩

lemma withUncle_bind : HashesBind .regtest withUncle := by
  have hhashes : (headersOf withUncle).map (hash .regtest) =
      [grandchildHash, unsealedHash, childHash, root] := by
    show [grandchild.hash .regtest, unsealed.hash .regtest, child.hash .regtest,
      genesis.hash .regtest] = _
    rw [grandchild_hash, unsealed_hash, child_hash, genesis_hash]
  have hinjective := inj_on_of_nodup_map (hhashes ▸ (by decide +kernel) :
    ((headersOf withUncle).map (hash .regtest)).Nodup)
  refine ⟨fun a ha b hb h => congrArg _ (hinjective ha hb h),
    fun a ha b hb h => congrArg _ (hinjective ha hb h), ?_⟩
  have hzero : ∀ h ∈ [grandchildHash, childHash, root], FixedBytes.zero 32 ≠ h := by decide +kernel
  intro g hg hnumber b hb
  have hgenesis : g.header.parentHash = .zero 32 := by
    simp only [withUncle, mem_cons, not_mem_nil, or_false] at hg
    rcases hg with rfl | rfl | rfl
    · exact absurd hnumber (by decide)
    · exact absurd hnumber (by decide)
    · rfl
  rw [hgenesis]
  apply hzero
  simp only [withUncle, mem_cons, not_mem_nil, or_false] at hb
  rcases hb with rfl | rfl | rfl
  · simp [grandchild_hash]
  · simp [child_hash]
  · simp [genesis_hash]

theorem hashes_nodup_withUncle : ((headersOf withUncle).map (hash .regtest)).Nodup :=
  hashes_nodup withUncle_trunk withUncle_accepted withUncle_bind

end UnclesOnceExample

end Rustock
