import Rustock.Core.MergedMiningBinding
import Rustock.Storage.BlockStore

/-!
# Where execution resumes

The three walks of crates/sync/src/rollback.rs. On a view that is acyclic by number,
`ChainView.ancestry` loses height at every step, so that the first block a walk accepts is
the highest one (`rollback_walks`).

A retreat never stops at the block it starts from. When that block is the fork point and no
ancestor of it can be walked (it is genesis, its parent's header is not held, or the depth is
zero), the retreat finds nothing even though the state of the fork point itself is held
(`retreat_from_fork`); in every other case it ends at or below the fork point.
-/

namespace Rustock

open Lib List Option

/-- What the walks read of the stores. -/
structure ChainView where
  header : B256 → Option Header
  canonicalHash : UInt64 → Option B256
  hasState : B256 → Bool

/-- Why there is no block to resume at. -/
inductive NoResumePoint where
  | headHeaderMissing (hash : B256)
  | exhaustedAtGenesis
  | tooDeep (searched : Nat)
  | chainBroken (height : UInt64) (missing : B256)

/-- Why no common ancestor was found. -/
inductive NoForkPoint where
  | chainBroken (missing : B256)
  | tooDeep
  | headerMissing (hash : B256)

def maxRollback : Nat := 1024

namespace ChainView

variable (v : ChainView)

/-- `hash` and its ancestors, `n` blocks at most: down to genesis or to the first header
that is not held. -/
def ancestry : Nat → B256 → List (B256 × Header)
  | 0, _ => []
  | n + 1, hash =>
    match v.header hash with
    | none => []
    | some header =>
      (hash, header) :: if header.number = 0 then [] else ancestry n header.parentHash

/-- A walk that stops at the first block it accepts and says why it found none. -/
def search {ε : Type} (accept : B256 × Header → Option BlockRef) (deep genesis : ε)
  (broken : Header → ε) : Nat → B256 × Header → Except ε BlockRef
  | 0, _ => .error deep
  | n + 1, a =>
    match accept a with
    | some r => .ok r
    | none =>
      if a.2.number = 0 then .error genesis
      else match v.header a.2.parentHash with
        | none => .error (broken a.2)
        | some parent => search accept deep genesis broken n (a.2.parentHash, parent)

def ref (a : B256 × Header) : BlockRef := ⟨a.2.number, a.1⟩

/-- Canonical, and its state held. -/
def usable (a : B256 × Header) : Bool :=
  decide (v.canonicalHash a.2.number = some a.1) && v.hasState a.2.stateRoot

/-- The nearest ancestor that is canonical and whose state is held. -/
def chooseResumePoint (start : BlockRef) : Except NoResumePoint BlockRef :=
  match v.header start.hash with
  | none => .error (.headHeaderMissing start.hash)
  | some header =>
    v.search (fun a => if v.usable a then some (ref a) else none) (.tooDeep maxRollback)
      .exhaustedAtGenesis (fun h => .chainBroken (h.number - 1) h.parentHash)
      (maxRollback + 1) (start.hash, header)

/-- `mine` is filled by a walk that a gap only shortens. -/
def forkPoint (ours theirs : B256) : Except NoForkPoint BlockRef :=
  match v.header ours with
  | none => .error (.headerMissing ours)
  | some header =>
    if ours = theirs then .ok ⟨header.number, ours⟩
    else
      let mine := (v.ancestry (maxRollback + 1) ours).map fun a => (a.1, a.2.number)
      match v.header theirs with
      | none => .error (.headerMissing theirs)
      | some other =>
        v.search (fun a => (mine.lookup a.1).map (⟨·, a.1⟩)) .tooDeep .tooDeep
          (fun h => .chainBroken h.parentHash) (maxRollback + 1) (theirs, other)

/-- One turn of rollback.rs:227–243 on `fallback` and `best`. -/
def retreatStep (found : Option BlockRef × Option BlockRef) (a : B256 × Header) :
  Option BlockRef × Option BlockRef :=
  (found.1.or (some (ref a)), if v.hasState a.2.stateRoot then some (ref a) else found.2)

/-- `start` itself is not a candidate. -/
def deepestResumableWithin (start : B256) (depth : UInt64) : Option BlockRef :=
  let found := (v.ancestry (depth.toNat + 1) start).tail.foldl v.retreatStep (none, none)
  found.2.or found.1

/-- A held parent is lower than its child. -/
def Acyclic : Prop := ∀ hash header parent, v.header hash = some header →
  v.header header.parentHash = some parent → parent.number < header.number

/-- The retreat from `start` gets to a block at all: there is a parent, its header is held and
the depth allows the step. -/
def CanRetreat (start : B256) (depth : UInt64) : Prop :=
  ∃ header, v.header start = some header ∧ header.number ≠ 0 ∧
    (v.header header.parentHash).isSome ∧ depth ≠ 0

/-- `r` is the highest of the blocks in `P`. -/
def Highest (P : B256 × Header → Prop) (r : BlockRef) : Prop :=
  ∃ b, P b ∧ r = ref b ∧ ∀ c, P c → c.2.number ≤ b.2.number

variable {v} {a b c : B256 × Header} {n m : Nat} {r : BlockRef} {hash ours theirs : B256}
  {accept : B256 × Header → Option BlockRef}

lemma ancestry_grows (n m : Nat) (hash : B256) : v.ancestry n hash <+: v.ancestry (n + m) hash := by
  induction n generalizing hash with
  | zero => exact List.nil_prefix
  | succ n ih =>
    rw [Nat.succ_add, ancestry, ancestry]
    split
    · exact List.nil_prefix
    rw [List.prefix_cons_inj]
    split
    · exact List.nil_prefix
    · exact ih _

lemma header_of_mem_ancestry (hb : b ∈ v.ancestry n hash) : v.header b.1 = some b.2 := by
  induction n generalizing hash with
  | zero => cases hb
  | succ n ih =>
    rw [ancestry] at hb
    split at hb
    · cases hb
    rename_i header hh
    rcases mem_cons.mp hb with rfl | hb
    · exact hh
    split at hb
    · cases hb
    · exact ih hb

/-- Every step down loses height. -/
lemma ancestry_pairwise (hv : v.Acyclic) (n : Nat) (hash : B256) :
  (v.ancestry n hash).Pairwise fun x y => y.2.number < x.2.number := by
  have : IsTrans (B256 × Header) fun x y => y.2.number < x.2.number :=
    ⟨fun _ _ _ h h' => UInt64.lt_trans h' h⟩
  rw [← List.isChain_iff_pairwise]
  induction n generalizing hash with
  | zero => exact .nil
  | succ n ih =>
    rw [ancestry]
    split
    · exact .nil
    rename_i header hh
    split
    · exact .singleton _
    have hrest := ih header.parentHash
    cases n with
    | zero => exact .singleton _
    | succ n =>
      rw [ancestry] at hrest ⊢
      split at hrest
      · exact .singleton _
      rename_i parent hp
      exact .cons_cons (hv _ _ _ hh hp) hrest

lemma search_eq_ok_iff {ε : Type} {deep genesis : ε} {broken : Header → ε}
  (ha : v.header a.1 = some a.2) : v.search accept deep genesis broken n a = .ok r ↔
    (v.ancestry n a.1).findSome? accept = some r := by
  induction n generalizing a with
  | zero => simp [search, ancestry]
  | succ n ih =>
    rw [search, ancestry, ha]
    simp only [List.findSome?_cons]
    rcases accept a with _ | s
    · dsimp only
      split
      · simp
      split
      · rename_i hp
        cases n <;> simp [ancestry, hp]
      rename_i parent hp
      exact ih (a := (a.2.parentHash, parent)) hp
    · simp

lemma number_le_of_not_mem (hv : v.Acyclic) (hb : b ∈ v.ancestry n hash)
  (hc : c ∈ v.ancestry m hash) (hnot : c ∉ v.ancestry n hash) : c.2.number ≤ b.2.number := by
  obtain ⟨rest, hrest⟩ := ancestry_grows (v := v) n m hash
  have hpair := ancestry_pairwise hv (n + m) hash
  have hin := (ancestry_grows m n hash).subset hc
  rw [Nat.add_comm] at hin
  rw [← hrest] at hin hpair
  exact UInt64.le_of_lt ((pairwise_append.mp hpair).2.2 b hb c
    ((mem_append.mp hin).resolve_left hnot))

/-- What a walk accepts first stands above every later block. -/
lemma findSome_first (hv : v.Acyclic) (h : (v.ancestry n hash).findSome? accept = some r) :
  ∃ b ∈ v.ancestry n hash, accept b = some r ∧ ∀ m, ∀ c ∈ v.ancestry m hash,
    accept c = none ∨ c.2.number ≤ b.2.number := by
  obtain ⟨above, b, below, heq, hb, hnone⟩ := List.findSome?_eq_some_iff.mp h
  have hmem : b ∈ v.ancestry n hash := by simp [heq]
  refine ⟨b, hmem, hb, fun m c hc => ?_⟩
  by_cases hin : c ∈ v.ancestry n hash
  · have hpair := ancestry_pairwise hv n hash
    rw [heq] at hin hpair
    rw [pairwise_append, pairwise_cons] at hpair
    rcases mem_append.mp hin with hin | hin
    · exact .inl (hnone c hin)
    rcases mem_cons.mp hin with rfl | hin
    · exact .inr (UInt64.le_refl _)
    · exact .inr (UInt64.le_of_lt (hpair.2.1.1 c hin))
  · exact .inr (number_le_of_not_mem hv hmem hc hin)

lemma chooseResumePoint_eq_ok_iff {start : BlockRef} : v.chooseResumePoint start = .ok r ↔
  (v.ancestry (maxRollback + 1) start.hash).findSome?
    (fun a => if v.usable a then some (ref a) else none) = some r := by
  unfold chooseResumePoint
  rcases hh : v.header start.hash with _ | header
  · simp [ancestry, hh]
  · exact search_eq_ok_iff (a := (start.hash, header)) hh

/-- The block at which their walk enters ours is the highest common ancestor. -/
lemma forkPoint_highest (hv : v.Acyclic) (h : v.forkPoint ours theirs = .ok r) :
  Highest (fun b => (∃ n, b ∈ v.ancestry n ours) ∧ ∃ n, b ∈ v.ancestry n theirs) r := by
  unfold forkPoint at h
  rcases ho : v.header ours with _ | header
  · simp [ho] at h
  simp only [ho] at h
  split at h
  · rename_i heq
    subst heq
    have hfound : (v.ancestry 1 ours).findSome? (some <| ref ·) =
        some ⟨header.number, ours⟩ := by simp [ho, ancestry, ref]
    obtain ⟨b, hb, hr, hfirst⟩ := findSome_first hv hfound
    refine ⟨b, ⟨⟨1, hb⟩, 1, hb⟩, (Except.ok.inj h).symm.trans (some.inj hr).symm, ?_⟩
    rintro c ⟨⟨n, hc⟩, -⟩
    exact (hfirst n c hc).resolve_left (by simp)
  rcases ht : v.header theirs with _ | other
  · simp [ht] at h
  simp only [ht] at h
  rw [search_eq_ok_iff (a := (theirs, other)) ht] at h
  obtain ⟨b, hb, hr, hfirst⟩ := findSome_first hv h
  obtain ⟨number, hget, rfl⟩ := map_eq_some_iff.mp hr
  obtain ⟨above, below, heq, -⟩ := List.lookup_eq_some_iff.mp hget
  obtain ⟨a, ha, hab⟩ := List.mem_map.mp (heq ▸ mem_append_right above mem_cons_self)
  obtain ⟨hkey, hnumber⟩ := Prod.mk.inj hab
  have hheader : some a.2 = some b.2 := by
    rw [← header_of_mem_ancestry ha, ← header_of_mem_ancestry hb, hkey]
  obtain rfl : a = b := Prod.ext hkey (some.inj hheader)
  refine ⟨a, ⟨⟨_, ha⟩, _, hb⟩, congrArg (BlockRef.mk · _) hnumber.symm, ?_⟩
  rintro c ⟨⟨n, hco⟩, m, hct⟩
  rcases hfirst m c hct with hnone | hle
  · -- not in `mine`, so below every block of it
    refine number_le_of_not_mem hv ha hco fun hin => ?_
    rw [map_eq_none_iff, List.lookup_eq_none_iff] at hnone
    simpa using hnone _ (List.mem_map_of_mem hin)
  · exact hle

lemma foldl_retreatStep (l : List (B256 × Header))
  (found : Option BlockRef × Option BlockRef) : (l.foldl v.retreatStep found).2 =
    ((l.filter fun a => v.hasState a.2.stateRoot).getLast?.map ref).or found.2 := by
  induction l generalizing found with
  | nil => simp
  | cons a l ih =>
    rw [foldl_cons, ih, filter_cons, retreatStep]
    split
    · rw [List.getLast?_cons]
      cases (l.filter fun a => v.hasState a.2.stateRoot).getLast? <;> rfl
    · rfl

/-- A retreat ends at or below every held state it passes. -/
lemma deepestResumableWithin_below {depth : UInt64} (hv : v.Acyclic)
  (hc : c ∈ (v.ancestry (depth.toNat + 1) ours).tail) (hs : v.hasState c.2.stateRoot) :
  ∃ b ∈ v.ancestry (depth.toNat + 1) ours,
    v.deepestResumableWithin ours depth = some (ref b) ∧ b.2.number ≤ c.2.number := by
  have hheld := mem_filter (p := fun a => v.hasState a.2.stateRoot).mpr ⟨hc, hs⟩
  rw [deepestResumableWithin, foldl_retreatStep]
  set held := (v.ancestry (depth.toNat + 1) ours).tail.filter fun a => v.hasState a.2.stateRoot
  have hne := ne_nil_of_mem hheld
  have hsub : held.Sublist (v.ancestry (depth.toNat + 1) ours) :=
    filter_sublist.trans (List.tail_sublist _)
  refine ⟨held.getLast hne, hsub.subset (getLast_mem hne), ?_, ?_⟩
  · rw [getLast?_eq_some_getLast hne]
    rfl
  have hsorted := (ancestry_pairwise hv (depth.toNat + 1) ours).sublist hsub
  rw [← List.dropLast_append_getLast hne] at hheld hsorted
  rcases mem_append.mp hheld with hin | hin
  · exact UInt64.le_of_lt ((pairwise_append.mp hsorted).2.2 c hin _ (by simp))
  rw [mem_singleton.mp hin]
  exact UInt64.le_refl _

/-- The retreat has a candidate exactly if its first step down is possible. -/
theorem canRetreat_iff {depth : UInt64} :
    v.CanRetreat ours depth ↔ (v.ancestry (depth.toNat + 1) ours).tail ≠ [] := by
  have hdepth : depth ≠ 0 ↔ depth.toNat ≠ 0 := by
    rw [Ne, Ne, ← UInt64.toNat_inj, UInt64.toNat_zero]
  rw [CanRetreat, hdepth, ancestry]
  rcases ho : v.header ours with _ | header
  · simp
  by_cases hzero : header.number = 0
  · simp [hzero]
  rcases depth.toNat with _ | n
  · simp [ancestry]
  · rcases hp : v.header header.parentHash with _ | parent <;> simp [ancestry, hzero, hp]

/-- Whatever a retreat returns is a proper ancestor of the block it starts from. -/
theorem deepestResumableWithin_mem {depth : UInt64}
    (h : (v.ancestry (depth.toNat + 1) ours).tail ≠ []) :
    ∃ b ∈ (v.ancestry (depth.toNat + 1) ours).tail,
      v.deepestResumableWithin ours depth = some (ref b) := by
  rw [deepestResumableWithin, foldl_retreatStep]
  generalize (v.ancestry (depth.toNat + 1) ours).tail = below at h
  rcases hheld : (below.filter fun a => v.hasState a.2.stateRoot).getLast? with _ | b
  · -- no state is held: the first block below the start is the fallback
    obtain ⟨first, rest, rfl⟩ := exists_cons_of_ne_nil h
    refine ⟨first, mem_cons_self, ?_⟩
    have hfirst : ∀ (l : List (B256 × Header)) (found : Option BlockRef × Option BlockRef),
        found.1 = some (ref first) → (l.foldl v.retreatStep found).1 = some (ref first) := by
      intro l
      induction l with
      | nil => exact fun _ hfound => hfound
      | cons a l ih => exact fun found hfound => ih _ (by simp [retreatStep, hfound])
    simpa [hheld] using hfirst rest _ (by simp [retreatStep])
  · exact ⟨b, (mem_filter.mp (mem_of_getLast? hheld)).1, by rw [hheld]; rfl⟩

/-- A retreat from the fork point itself ends strictly below it, if it can take a step. -/
theorem deepestResumableWithin_lt {depth : UInt64} (hv : v.Acyclic)
    (ha : v.header ours = some a.2) (h : v.CanRetreat ours depth) :
    ∃ b ∈ v.ancestry (depth.toNat + 1) ours,
      v.deepestResumableWithin ours depth = some (ref b) ∧ b.2.number ≤ a.2.number := by
  obtain ⟨b, hb, hr⟩ := deepestResumableWithin_mem (canRetreat_iff.mp h)
  refine ⟨b, mem_of_mem_tail hb, hr, UInt64.le_of_lt ?_⟩
  have hpair := ancestry_pairwise hv (depth.toNat + 1) ours
  rw [ancestry, ha] at hb hpair
  exact (pairwise_cons.mp hpair).1 b hb

/-- **The three walks.** A resume point is the highest usable block of the head's ancestry and
is found whenever one lies within `maxRollback` steps; a fork point is the highest common
ancestor; and when some state at or below the fork point is held within the depth, the retreat
gets to or below the fork point exactly if it can take a step at all. -/
theorem rollback_walks (hv : v.Acyclic) (start : BlockRef) (ours theirs : B256) (depth : UInt64) :
    (∀ r, v.chooseResumePoint start = .ok r →
      Highest (fun b => (∃ n, b ∈ v.ancestry n start.hash) ∧ v.usable b) r) ∧
    ((∃ r, v.chooseResumePoint start = .ok r) ↔
      ∃ b ∈ v.ancestry (maxRollback + 1) start.hash, v.usable b) ∧
    (∀ r, v.forkPoint ours theirs = .ok r →
      Highest (fun b => (∃ n, b ∈ v.ancestry n ours) ∧ ∃ n, b ∈ v.ancestry n theirs) r ∧
      ((∃ c ∈ v.ancestry (depth.toNat + 1) ours,
          c.2.number ≤ r.number ∧ v.hasState c.2.stateRoot) →
        ((∃ b ∈ v.ancestry (depth.toNat + 1) ours,
            v.deepestResumableWithin ours depth = some (ref b) ∧ b.2.number ≤ r.number) ↔
          v.CanRetreat ours depth))) := by
  refine ⟨fun r hr => ?_, ?_, fun r hr => ⟨forkPoint_highest hv hr, ?_⟩⟩
  · obtain ⟨b, hb, haccept, hfirst⟩ := findSome_first hv (chooseResumePoint_eq_ok_iff.mp hr)
    obtain ⟨husable, hr⟩ := ite_none_right_eq_some.mp haccept
    refine ⟨b, ⟨⟨_, hb⟩, husable⟩, (some.inj hr).symm, ?_⟩
    rintro c ⟨⟨n, hc⟩, hu⟩
    exact (hfirst n c hc).resolve_left (by simp [hu])
  · simp only [chooseResumePoint_eq_ok_iff, ← isSome_iff_exists, findSome?_isSome_iff]
    simp
  rintro ⟨c, hc, hle, hs⟩
  constructor
  · rintro ⟨b, -, hfound, -⟩
    rw [canRetreat_iff]
    intro hnil
    simp [deepestResumableWithin, hnil] at hfound
  intro hcan
  -- the held state is the start's own, or that of a proper ancestor
  rcases hwalk : v.ancestry (depth.toNat + 1) ours with _ | ⟨first, rest⟩
  · simp [hwalk] at hc
  rw [hwalk] at hc
  rcases mem_cons.mp hc with rfl | hc
  · have hours : v.header ours = some c.2 := by
      have hstart := hwalk
      rw [ancestry] at hstart
      split at hstart
      · cases hstart
      · rename_i header hh
        rw [hh, ← (cons.inj hstart).1]
    obtain ⟨b, hb, hr, hbc⟩ := deepestResumableWithin_lt hv hours hcan
    exact ⟨b, hwalk ▸ hb, hr, UInt64.le_trans hbc hle⟩
  · have htail : c ∈ (v.ancestry (depth.toNat + 1) ours).tail := by rwa [hwalk]
    obtain ⟨b, hb, hr, hbc⟩ := deepestResumableWithin_below hv htail hs
    exact ⟨b, hwalk ▸ hb, hr, UInt64.le_trans hbc hle⟩

/-- A genesis and its child, with every state held. -/
def twoBlocks : ChainView where
  header hash :=
    if hash = .repeatByte 32 1 then some Header.blank
    else if hash = .repeatByte 32 2 then
      some { Header.blank with number := 1, parentHash := .repeatByte 32 1 }
    else none
  canonicalHash number := if number = 0 then some (.repeatByte 32 1) else none
  hasState _ := true

lemma twoBlocks_acyclic : twoBlocks.Acyclic := by
  intro hash header parent hh hp
  simp only [twoBlocks] at hh hp
  split at hh
  · obtain rfl := some.inj hh
    rw [if_neg (by decide), if_neg (by decide)] at hp
    cases hp
  split at hh
  · obtain rfl := some.inj hh
    rw [if_pos rfl] at hp
    obtain rfl := some.inj hp
    decide
  · cases hh

/-- All three walks from the child: execution resumes at genesis, the fork point with genesis is
genesis, and the retreat reaches it. -/
theorem rollback_walks_two_blocks : twoBlocks.Acyclic ∧
    Highest (fun b => (∃ n, b ∈ twoBlocks.ancestry n (.repeatByte 32 2)) ∧ twoBlocks.usable b)
      ⟨0, .repeatByte 32 1⟩ ∧
    ∃ b ∈ twoBlocks.ancestry 6 (.repeatByte 32 2),
      twoBlocks.deepestResumableWithin (.repeatByte 32 2) 5 = some (ref b) ∧ b.2.number ≤ 0 := by
  obtain ⟨hresume, -, hfork⟩ := rollback_walks twoBlocks_acyclic ⟨1, .repeatByte 32 2⟩
    (.repeatByte 32 2) (.repeatByte 32 1) 5
  refine ⟨twoBlocks_acyclic, hresume _ rfl, ((hfork ⟨0, .repeatByte 32 1⟩ rfl).2 ?_).mpr ?_⟩
  · exact ⟨(.repeatByte 32 1, Header.blank), .tail _ (.head _), UInt64.le_refl _, rfl⟩
  · exact ⟨_, rfl, by decide, rfl, by decide⟩

/-- The fork point is where the retreat starts, its state is held, and the retreat finds
nothing. -/
theorem retreat_from_fork :
  twoBlocks.forkPoint (.repeatByte 32 1) (.repeatByte 32 2) = .ok ⟨0, .repeatByte 32 1⟩ ∧
    twoBlocks.hasState Header.blank.stateRoot = true ∧
    twoBlocks.deepestResumableWithin (.repeatByte 32 1) 5 = none :=
  ⟨rfl, rfl, rfl⟩

end ChainView

end Rustock
