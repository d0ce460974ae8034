import Rustock.Core.MergedMiningBinding
import Rustock.Storage.BlockStore

/-!
# The node's position

`Transition` and `BlockStore::apply` (crates/storage/src/position.rs) with all three
transitions; **`position_coherent`**: from the floor to the head there is one chain of held headers
that the canonical index names, and execution is on it, in every state of every run.

The floor is 0 on a store that was never pruned. The lemmas are about any floor, so that
`Storage.Pruner` can use them.
-/

namespace Rustock

open Lib List Option Function Except

inductive Transition where
  | adopt (head : Validated)
  | retreat (lower : Validated)
  | executed (at_ : Validated) (stateRoot : B256)

/-- Refusals of `apply`. -/
inductive TransitionError where
  | store (e : StoreError)
  | notCanonical (block : BlockRef)
  | aboveHead (block head : BlockRef)
deriving DecidableEq

namespace BlockStore

variable (s : BlockStore)

def floor : UInt64 := s.pruneFloor.getD 0

/-- The index once `drop` has been deleted from it. -/
def dropEntries (numbers : UInt64 → Option B256) (drop : List UInt64) : UInt64 → Option B256 :=
  drop.foldl (fun m n => Function.update m n none) numbers

/-- The batch of `Adopt` and of `Retreat`. -/
def stageMove (before : Option Cursor) (newHead : Validated) : Except StoreError BlockStore :=
  match dropAbove s.numbers 100000 (newHead.tip.number + 1) with
  | none => .error (.tooManyAbove newHead.tip.number)
  | some drop =>
    match s.executionAfterReorg before newHead with
    | .error e => .error e
    | .ok execHead => .ok
      { s with
        numbers := dropEntries (writeLineage s.numbers newHead.lineage) drop
        head := some newHead.tip.hash
        execHead }

/-- The batch of `Executed`. -/
def stageExecuted (before : Option Cursor) (block : BlockRef) (stateRoot : B256) :
  Except TransitionError BlockStore :=
  if s.numbers block.number ≠ some block.hash then .error (.notCanonical block)
  else
    let after := { s with execHead := some (block.hash, stateRoot) }
    match before with
    | none => .ok after
    | some before =>
      if block.number > before.validatedHead.number then
        .error (.aboveHead block before.validatedHead)
      else .ok after

/-- The batch a transition writes. -/
def stage (transition : Transition) : Except TransitionError BlockStore :=
  match s.cursor with
  | .error e => .error (.store e)
  | .ok before =>
    match transition with
    | .adopt v | .retreat v => (s.stageMove before v).mapError .store
    | .executed v stateRoot => s.stageExecuted before v.tip stateRoot

/-- The store and the result; the cursor is read after the write. -/
def applyTransition (transition : Transition) : BlockStore × Except TransitionError Cursor :=
  match s.stage transition with
  | .error e => (s, .error e)
  | .ok after =>
    (after, match after.cursor with
      | .error e => .error (.store e)
      | .ok none => .error (.store .positionUnreadable)
      | .ok (some cursor) => .ok cursor)

/-- A header, given as it reads back, under an explicit key. -/
def putHeaderWithHash (hash : B256) (header : Header) : BlockStore :=
  { s with headers := Function.update s.headers hash (some header) }

end BlockStore

/-- The entry at `n` names a held header of that height, linked to the entry below unless
`n` is the floor. -/
def Linked (headers : B256 → Option Header) (numbers : UInt64 → Option B256)
  (floor n : UInt64) : Prop :=
  ∃ hash header, numbers n = some hash ∧ headers hash = some header ∧ header.number = n ∧
    (floor < n → numbers (n - 1) = some header.parentHash)

structure BlockStore.Coherent (s : BlockStore) (head exec : BlockRef) : Prop where
  headKey : s.head = some head.hash
  execKey : ∃ stateRoot, s.execHead = some (exec.hash, stateRoot)
  linked : ∀ n, s.floor ≤ n → n ≤ head.number → Linked s.headers s.numbers s.floor n
  headCanonical : s.numbers head.number = some head.hash
  execCanonical : s.numbers exec.number = some exec.hash
  floor_le_exec : s.floor ≤ exec.number
  exec_le_head : exec.number ≤ head.number
  above : ∀ n, head.number < n → s.numbers n = none
  /-- Between genesis and the floor there is nothing. -/
  hole : ∀ n, 0 < n → n < s.floor → s.numbers n = none
  /-- A first sweep deletes at least #1. -/
  floor_ne_one : s.floor ≠ 1

/-- A position that needs no height of its own beyond `u64::MAX - 1`. -/
def BlockStore.NoTopHeader (s : BlockStore) : Prop :=
  ∀ hash header, s.headers hash = some header → header.number ≠ 0xFFFFFFFFFFFFFFFF

namespace BlockStore.Coherent

variable {s : BlockStore} {head exec : BlockRef}

lemma floor_le_head (hs : s.Coherent head exec) : s.floor ≤ head.number :=
  UInt64.le_trans hs.floor_le_exec hs.exec_le_head

variable {hash : B256}

lemma le_head_of_entry (hs : s.Coherent head exec) {n : UInt64} (hn : s.numbers n = some hash) :
  n ≤ head.number := by
  by_contra hlt
  have hnone := hs.above n (by grind)
  simp [hnone] at hn

lemma header_of_entry (hs : s.Coherent head exec) {n : UInt64} (hfloor : s.floor ≤ n)
  (hn : s.numbers n = some hash) : ∃ header, s.headers hash = some header ∧ header.number = n := by
  obtain ⟨hash', header, hentry, hheader, hnumber, -⟩ := hs.linked n hfloor (hs.le_head_of_entry hn)
  obtain rfl : hash' = hash := some.inj (hentry.symm.trans hn)
  exact ⟨header, hheader, hnumber⟩

lemma cursor_eq (hs : s.Coherent head exec) :
  ∃ stateRoot, s.cursor = .ok (some ⟨head, exec, stateRoot⟩) := by
  obtain ⟨stateRoot, hexec⟩ := hs.execKey
  obtain ⟨headHeader, hheadHeader, hheadNumber⟩ :=
    hs.header_of_entry hs.floor_le_head hs.headCanonical
  obtain ⟨execHeader, hexecHeader, hexecNumber⟩ :=
    hs.header_of_entry hs.floor_le_exec hs.execCanonical
  refine ⟨stateRoot, ?_⟩
  simp [cursor, hs.headKey, hheadHeader, hexec, hexecHeader, hheadNumber, hexecNumber]

end BlockStore.Coherent

namespace BlockStore

lemma writeLineage_append (numbers : UInt64 → Option B256) (l₁ l₂ : List (UInt64 × B256)) :
  writeLineage numbers (l₁ ++ l₂) = writeLineage (writeLineage numbers l₁) l₂ :=
  foldl_append

variable {n : UInt64} {lineage : List (UInt64 × B256)}

lemma writeLineage_of_not_mem (hn : ∀ entry ∈ lineage, entry.1 ≠ n)
  (numbers : UInt64 → Option B256) : writeLineage numbers lineage n = numbers n := by
  induction lineage generalizing numbers with
  | nil => rfl
  | cons entry rest ih =>
    have hrest := ih (fun e he => hn e (mem_cons_of_mem _ he))
      (Function.update numbers entry.1 (some entry.2))
    have hne : n ≠ entry.1 := (hn entry (mem_cons_self ..)).symm
    simpa [writeLineage, hne] using hrest

lemma find_orElse_eq_writeLineage (hsorted : lineage.Pairwise (·.1 < ·.1))
  (numbers : UInt64 → Option B256) (n : UInt64) :
  (((lineage.find? fun e => e.1 = n).map Prod.snd).orElse fun _ => numbers n) =
    writeLineage numbers lineage n := by
  induction lineage generalizing numbers with
  | nil => rfl
  | cons entry rest ih =>
    obtain ⟨hlt, hrest⟩ := pairwise_cons.mp hsorted
    by_cases hn : entry.1 = n
    · subst hn
      have hnot := writeLineage_of_not_mem (fun e he => (UInt64.ne_of_lt (hlt e he)).symm)
        (Function.update numbers entry.1 (some entry.2))
      simpa [writeLineage] using hnot.symm
    have htail := ih hrest (Function.update numbers entry.1 (some entry.2))
    simpa [writeLineage, hn, Ne.symm hn] using htail

variable {drop : List UInt64}

lemma dropEntries_of_mem (hn : n ∈ drop) (numbers : UInt64 → Option B256) :
  dropEntries numbers drop n = none := by
  induction drop using List.reverseRecOn with
  | nil => simp at hn
  | append_singleton rest m ih =>
    by_cases hm : n = m
    · simp [dropEntries, hm]
    have hrest := ih (by simpa [hm] using hn)
    simpa [dropEntries, hm] using hrest

lemma dropEntries_of_not_mem (hn : n ∉ drop) (numbers : UInt64 → Option B256) :
  dropEntries numbers drop n = numbers n := by
  induction drop using List.reverseRecOn with
  | nil => rfl
  | append_singleton rest m ih =>
    simp only [mem_append, mem_singleton, not_or] at hn
    simpa [dropEntries, hn.2] using ih hn.1

lemma dropAbove_spec {numbers : UInt64 → Option B256} (htop : numbers 0xFFFFFFFFFFFFFFFF = none)
  {fuel : Nat} (h : dropAbove numbers fuel n = some drop) :
  ∃ gap, n ≤ gap ∧ numbers gap = none ∧ ∀ m, m ∈ drop ↔ n ≤ m ∧ m < gap := by
  induction fuel generalizing n drop with
  | zero => simp [dropAbove] at h
  | succ fuel ih =>
    unfold dropAbove at h
    rcases hn : numbers n with _ | hash
    · simp only [hn, some.injEq] at h
      subst h
      refine ⟨n, UInt64.le_refl n, hn, fun m => ?_⟩
      simp only [not_mem_nil, false_iff]
      grind
    simp only [hn, map_eq_some_iff] at h
    obtain ⟨rest, hrest, rfl⟩ := h
    obtain ⟨gap, hle, hgap, hmem⟩ := ih hrest
    -- there is an entry at `n`, so `n` is not the largest height and `n + 1` is above it
    have hne : n ≠ 0xFFFFFFFFFFFFFFFF := by
      rintro rfl
      simp [htop] at hn
    refine ⟨gap, by grind, hgap, fun m => ?_⟩
    rw [mem_cons, hmem]
    grind

end BlockStore

namespace Validated

/-- What writing the lineage of a proved block does to the index: between the floor and
the block it links held headers, the block on top. -/
structure Rewrites (s : BlockStore) (n : UInt64) (hash : B256)
  (lineage : List (UInt64 × B256)) : Prop where
  sorted : lineage.Pairwise (·.1 < ·.1)
  range : ∀ entry ∈ lineage, s.floor ≤ entry.1 ∧ entry.1 ≤ n
  top : BlockStore.writeLineage s.numbers lineage n = some hash
  linked : ∀ m, s.floor ≤ m → m ≤ n →
    Linked s.headers (BlockStore.writeLineage s.numbers lineage) s.floor m

variable {s : BlockStore} {head exec : BlockRef} {hash : B256} {header : Header}
  {lineage : List (UInt64 × B256)} {n : UInt64}

lemma writeLineage_top (hnot : ∀ entry ∈ lineage, entry.1 ≠ n) : BlockStore.writeLineage s.numbers
      (lineage ++ if s.numbers n = some hash then [] else [(n, hash)]) =
    Function.update (BlockStore.writeLineage s.numbers lineage) n (some hash) := by
  rw [BlockStore.writeLineage_append]
  split
  · rename_i hcanonical
    rw [← hcanonical, ← BlockStore.writeLineage_of_not_mem hnot s.numbers, update_eq_self]
    rfl
  · rfl

lemma Rewrites.bottom (hheader : s.headers hash = some header)
  (hnumber : header.number = s.floor) : Rewrites s header.number hash
    ([] ++ if s.numbers header.number = some hash then [] else [(header.number, hash)]) := by
  have hindex := @writeLineage_top s hash [] header.number (by simp)
  refine ⟨by split <;> simp, fun entry hentry => ?_, ?_, fun m hfloor hm => ?_⟩
  · split at hentry <;> grind
  · rw [hindex, update_self]
  obtain rfl : m = header.number := by grind
  rw [hindex]
  exact ⟨hash, header, update_self .., hheader, rfl, by grind⟩

lemma Rewrites.cons (hlow : Rewrites s (n - 1) header.parentHash lineage) (hn : n ≠ 0)
  (hfloor : s.floor ≤ n) (hheader : s.headers hash = some header) (hnumber : header.number = n) :
  Rewrites s n hash (lineage ++ if s.numbers n = some hash then [] else [(n, hash)]) := by
  have hnot : ∀ entry ∈ lineage, entry.1 ≠ n := fun e he => by
    have := (hlow.range e he).2
    grind
  have hindex := @writeLineage_top s hash lineage n hnot
  refine ⟨?_, ?_, ?_, ?_⟩
  · refine pairwise_append.mpr ⟨hlow.sorted, by split <;> simp, fun a ha b hb => ?_⟩
    have := (hlow.range a ha).2
    split at hb <;> grind
  · intro entry hentry
    rcases mem_append.mp hentry with hmem | hmem
    · have := hlow.range entry hmem
      grind
    · split at hmem <;> grind
  · rw [hindex, update_self]
  intro m hfloorm hm
  rw [hindex]
  by_cases hmn : m = n
  · subst hmn
    refine ⟨hash, header, update_self .., hheader, hnumber, fun _ => ?_⟩
    rw [update_of_ne (by grind), hlow.top]
  obtain ⟨hash', header', hentry, hheader', hnumber', hlink⟩ :=
    hlow.linked m hfloorm (by grind)
  refine ⟨hash', header', ?_, hheader', hnumber', fun hlt => ?_⟩
  · rw [update_of_ne hmn, hentry]
  · rw [update_of_ne (by grind), hlink hlt]

lemma Rewrites.canonical (hs : s.Coherent head exec) (hcanonical : s.numbers n = some hash) :
  Rewrites s n hash [] where
  sorted := List.Pairwise.nil
  range := by simp
  top := hcanonical
  linked m hfloor hm := hs.linked m hfloor (UInt64.le_trans hm (hs.le_head_of_entry hcanonical))

lemma walk_rewrites (hs : s.Coherent head exec) {height : Nat} {collected : List (UInt64 × B256)}
  (hheader : s.headers hash = some header) (hfloor : s.floor ≤ header.number)
  (hheight : header.number.toNat ≤ height)
  (h : walk s s.floor height hash header collected = .ok lineage) :
  ∃ low, lineage = low ++ collected ∧ Rewrites s header.number hash low := by
  induction height generalizing hash header collected with
  | zero =>
    have hzero : header.number = 0 := UInt64.toNat_inj.mp (by simpa using hheight)
    unfold walk at h
    rw [if_pos (.inl hzero)] at h
    refine ⟨_, ?_, Rewrites.bottom hheader (by grind)⟩
    rw [← ok.inj h]
    split <;> rfl
  | succ height ih =>
    unfold walk at h
    simp only at h
    split at h
    · refine ⟨_, ?_, Rewrites.bottom hheader (by grind)⟩
      rw [← ok.inj h]
      split <;> rfl
    rename_i hstop
    split at h
    · rename_i hcanonical
      refine ⟨[], ?_, Rewrites.canonical hs hcanonical.1⟩
      rw [← ok.inj h, if_pos hcanonical.1]
      rfl
    split at h
    · simp at h
    rename_i parent hparent
    split at h
    · simp at h
    rename_i hnumber
    have hparentNumber : parent.number = header.number - 1 := by grind
    have hnat : parent.number.toNat + 1 = header.number.toNat := by
      rw [hparentNumber, UInt64.toNat_sub_of_le _ _ (by grind), UInt64.toNat_one]
      have : header.number.toNat ≠ 0 := fun hzero => hstop (.inl (UInt64.toNat_inj.mp hzero))
      omega
    obtain ⟨low, rfl, hlow⟩ := ih hparent (by grind) (by omega) h
    rw [hparentNumber] at hlow
    refine ⟨_, ?_, hlow.cons (by grind) hfloor hheader rfl⟩
    split <;> simp

lemma prove_rewrites (hs : s.Coherent head exec) {v : Validated} (h : prove s hash = .ok v)
  (hfloor : s.floor ≤ v.tip.number) :
  (∃ header, s.headers v.tip.hash = some header ∧ header.number = v.tip.number) ∧
    Rewrites s v.tip.number v.tip.hash v.lineage := by
  unfold prove at h
  rcases hheader : s.headers hash with _ | header
  · simp [hheader] at h
  rw [hheader] at h
  rcases hwalk : walk s (s.pruneFloor.getD 0) header.number.toNat hash header [] with _ | lineage
  · simp [hwalk, Except.map] at h
  simp only [hwalk, Except.map, ok.injEq] at h
  subst h
  obtain ⟨low, rfl, hlow⟩ := walk_rewrites hs hheader hfloor le_rfl hwalk
  rw [append_nil]
  exact ⟨⟨header, hheader, rfl⟩, hlow⟩

end Validated

open Validated

namespace BlockStore

variable {s t : BlockStore} {head exec : BlockRef} {v : Validated}

lemma Coherent.numbers_top (hs : s.Coherent head exec) (htop : s.NoTopHeader) :
  s.numbers 0xFFFFFFFFFFFFFFFF = none := by
  rcases hn : s.numbers 0xFFFFFFFFFFFFFFFF with _ | hash
  · rfl
  obtain ⟨header, hheader, hnumber⟩ := hs.header_of_entry (by grind) hn
  exact absurd hnumber (htop hash header hheader)

lemma min64_eq_ite (a b : UInt64) : min a b = if a ≤ b then a else b := rfl

variable {stateRoot : B256}

section

variable (hs : s.Coherent head exec)

include hs

/-- **The rollback.** Execution stays on the chain as the batch leaves it: it is kept where
it stands on that chain, and otherwise goes to the fork point, which is held because the
chain reaches down to the floor. Below a floor there is nothing to roll back to. -/
theorem executionAfterReorg_spec (hfloor : s.floor ≤ v.tip.number)
  (hv : Validated.Rewrites s v.tip.number v.tip.hash v.lineage)
  (hexec : s.execHead = some (exec.hash, stateRoot)) {execHead : Option (B256 × B256)}
  (h : s.executionAfterReorg (some ⟨head, exec, stateRoot⟩) v = .ok execHead) :
  ∃ block : BlockRef, ∃ root, execHead = some (block.hash, root) ∧
    s.floor ≤ block.number ∧ block.number ≤ v.tip.number ∧
    writeLineage s.numbers v.lineage block.number = some block.hash := by
  unfold executionAfterReorg at h
  simp only [find_orElse_eq_writeLineage hv.sorted] at h
  split at h
  · rename_i hkeep
    refine ⟨exec, stateRoot, ?_, hs.floor_le_exec, ?_, ?_⟩
    · rw [← ok.inj h, hexec]
    · grind
    · simpa using hkeep.1
  rcases hlowest : v.lineage.head? with _ | ⟨n, lowest⟩
  · simp only [hlowest] at h
    split at h
    · simp at h
    split at h
    · simp at h
    rename_i targetHash hentry _ target _
    exact ⟨⟨v.tip.number, targetHash⟩, target.stateRoot, (ok.inj h).symm, hfloor,
      UInt64.le_refl _, hentry⟩
  simp only [hlowest] at h
  split at h
  · simp at h
  split at h
  · simp at h
  rename_i targetHash hentry _ target _
  refine ⟨⟨_, targetHash⟩, target.stateRoot, (ok.inj h).symm, ?_,
    by grind [min64_eq_ite], hentry⟩
  -- were the fork point below a floor, there would be no entry to roll back to
  have hn := (hv.range _ (mem_of_mem_head? hlowest)).1
  by_contra hbelow
  have hmin : min (saturatingSub64 n 1) v.tip.number = n - 1 ∧ n = s.floor ∧ 0 < n - 1 := by
    have := hs.floor_ne_one
    unfold saturatingSub64 at hbelow ⊢
    grind [min64_eq_ite]
  rw [hmin.1, writeLineage_of_not_mem, hs.hole _ hmin.2.2 (by grind)] at hentry
  · simp at hentry
  intro entry hmem
  have := (hv.range entry hmem).1
  grind

/-- **The move.** A proved block at or above the floor becomes the head of a coherent
store. -/
theorem stageMove_coherent (htop : s.NoTopHeader)
  (hfloor : s.floor ≤ v.tip.number) (htip : v.tip.number ≠ 0xFFFFFFFFFFFFFFFF)
  (hv : Validated.Rewrites s v.tip.number v.tip.hash v.lineage)
  (hexec : s.execHead = some (exec.hash, stateRoot))
  (h : s.stageMove (some ⟨head, exec, stateRoot⟩) v = .ok t) : ∃ block, t.Coherent v.tip block := by
  unfold stageMove at h
  split at h
  · simp at h
  rename_i drop hdrop
  split at h
  · simp at h
  rename_i execHead hreorg
  obtain rfl := ok.inj h
  obtain ⟨gap, hgapLe, hgap, hmem⟩ := dropAbove_spec (hs.numbers_top htop) hdrop
  obtain ⟨block, root, rfl, hblockFloor, hblockLe, hblock⟩ :=
    executionAfterReorg_spec hs hfloor hv hexec hreorg
  -- the batch deletes above the tip only, and everything that is indexed there
  have hkept : ∀ n, n ≤ v.tip.number →
      dropEntries (writeLineage s.numbers v.lineage) drop n = writeLineage s.numbers v.lineage n :=
    fun n hn => dropEntries_of_not_mem (by rw [hmem]; grind) _
  have hgapHead : head.number < gap := by
    by_contra hle
    obtain ⟨hash, -, hentry, -⟩ := hs.linked gap (by grind) (by grind)
    simp [hgap] at hentry
  refine ⟨block, rfl, ⟨root, rfl⟩, fun n hn hle => ?_, ?_, ?_, hblockFloor, hblockLe,
    fun n hn => ?_, fun n hpos hn => ?_, hs.floor_ne_one⟩
  · obtain ⟨hash, header, hentry, hheader, hnumber, hlink⟩ := hv.linked n hn hle
    refine ⟨hash, header, (hkept n hle).trans hentry, hheader, hnumber, fun hlt => ?_⟩
    exact (hkept (n - 1) (by grind)).trans (hlink hlt)
  · exact (hkept _ (UInt64.le_refl _)).trans hv.top
  · exact (hkept _ hblockLe).trans hblock
  · by_cases hdropped : n ∈ drop
    · exact dropEntries_of_mem hdropped _
    have hbeyond : head.number < n := by
      rw [hmem] at hdropped
      grind
    change dropEntries _ drop n = none
    rw [dropEntries_of_not_mem hdropped, writeLineage_of_not_mem, hs.above n hbeyond]
    intro entry hentry
    have := (hv.range entry hentry).2
    grind
  change n < s.floor at hn
  refine (hkept n (by grind)).trans ?_
  rw [writeLineage_of_not_mem, hs.hole n hpos hn]
  intro entry hentry
  have := (hv.range entry hentry).1
  grind

lemma stageExecuted_coherent {block : BlockRef} (hfloor : s.floor ≤ block.number) {root : B256}
  (h : s.stageExecuted (some ⟨head, exec, root⟩) block stateRoot = .ok t) :
  t.Coherent head block := by
  unfold stageExecuted at h
  split at h
  · simp at h
  rename_i hcanonical
  simp only at h
  split at h
  · simp at h
  rename_i hle
  obtain rfl := ok.inj h
  exact { hs with
    execKey := ⟨stateRoot, rfl⟩
    execCanonical := by simpa using hcanonical
    floor_le_exec := hfloor
    exec_le_head := by grind }

lemma stage_coherent (htop : s.NoTopHeader) {hash : B256}
  (hprove : prove s hash = .ok v) (hfloor : s.floor ≤ v.tip.number)
  {transition : Transition} (htransition : transition = .adopt v ∨ transition = .retreat v ∨
    ∃ stateRoot, transition = .executed v stateRoot)
  (h : s.stage transition = .ok t) : ∃ head exec, t.Coherent head exec := by
  obtain ⟨⟨header, hheader, hnumber⟩, hv⟩ := prove_rewrites hs hprove hfloor
  have htip : v.tip.number ≠ 0xFFFFFFFFFFFFFFFF := hnumber ▸ htop _ _ hheader
  obtain ⟨root, hcursor⟩ := hs.cursor_eq
  obtain ⟨root', hexec⟩ := hs.execKey
  obtain rfl : root' = root := by
    obtain ⟨headHeader, hheadHeader, -⟩ := hs.header_of_entry hs.floor_le_head hs.headCanonical
    obtain ⟨execHeader, hexecHeader, -⟩ := hs.header_of_entry hs.floor_le_exec hs.execCanonical
    simp only [cursor, hs.headKey, hheadHeader, hexec, hexecHeader, getD_some,
      ok.injEq, some.injEq, Cursor.mk.injEq] at hcursor
    exact hcursor.2.2
  have hmove : (s.stageMove (some ⟨head, exec, root'⟩) v).mapError TransitionError.store = .ok t →
      ∃ head exec, t.Coherent head exec := fun hok => by
    rcases hstage : s.stageMove (some ⟨head, exec, root'⟩) v with e | after
    · simp [hstage, Except.mapError] at hok
    rw [hstage] at hok
    obtain rfl := ok.inj hok
    exact ⟨v.tip, stageMove_coherent hs htop hfloor htip hv hexec hstage⟩
  unfold stage at h
  rw [hcursor] at h
  rcases htransition with rfl | rfl | ⟨stateRoot, rfl⟩
  · exact hmove h
  · exact hmove h
  · exact ⟨head, v.tip, stageExecuted_coherent hs hfloor h⟩

end

end BlockStore

/-- What happens to a store: a header comes in, given as it reads back, or a block is
proved and a transition to it applied at once. -/
inductive PositionEvent where
  | putHeader (hash : B256) (header : Header)
  | adopt (hash : B256)
  | retreat (hash : B256)
  | executed (hash stateRoot : B256)

inductive PositionError where
  | lineage (e : LineageBreak)
  | transition (e : TransitionError)
deriving DecidableEq

namespace BlockStore

variable {s t : BlockStore} {head exec : BlockRef}

/-- `Validated::prove`, then `apply`. -/
def transit (s : BlockStore) (hash : B256) (transition : Validated → Transition) :
  BlockStore × Except PositionError Unit :=
  match prove s hash with
  | .error e => (s, .error (.lineage e))
  | .ok v =>
    match s.applyTransition (transition v) with
    | (after, .error e) => (after, .error (.transition e))
    | (after, .ok _) => (after, .ok ())

def handle (s : BlockStore) : PositionEvent → BlockStore × Except PositionError Unit
  | .putHeader hash header => (s.putHeaderWithHash hash header, .ok ())
  | .adopt hash => s.transit hash .adopt
  | .retreat hash => s.transit hash .retreat
  | .executed hash stateRoot => s.transit hash (.executed · stateRoot)

def run (s : BlockStore) (events : List PositionEvent) : BlockStore :=
  events.foldl (fun s event => (s.handle event).1) s

lemma run_concat (s : BlockStore) (events : List PositionEvent) (event : PositionEvent) :
  s.run (events ++ [event]) = ((s.run events).handle event).1 := by
  simp [run]

lemma stage_frame {transition : Transition} (h : s.stage transition = .ok t) :
  t.headers = s.headers ∧ t.pruneFloor = s.pruneFloor := by
  have hmove : ∀ before v, (s.stageMove before v).mapError TransitionError.store = .ok t →
      t.headers = s.headers ∧ t.pruneFloor = s.pruneFloor := fun before v hok => by
    unfold stageMove at hok
    split at hok
    · simp [Except.mapError] at hok
    split at hok
    · simp [Except.mapError] at hok
    obtain rfl := ok.inj hok
    exact ⟨rfl, rfl⟩
  unfold stage at h
  split at h
  · simp at h
  split at h
  · exact hmove _ _ h
  · exact hmove _ _ h
  unfold stageExecuted at h
  split at h
  · simp at h
  simp only at h
  split at h
  · obtain rfl := ok.inj h
    exact ⟨rfl, rfl⟩
  split at h
  · simp at h
  obtain rfl := ok.inj h
  exact ⟨rfl, rfl⟩

/-- What a transition to a block at or above the floor can do to a coherent store: fail and
leave it as it is, or write a coherent position over the same headers. -/
structure TransitSpec (s : BlockStore) (outcome : BlockStore × Except PositionError Unit) :
  Prop where
  coherent : ∃ head exec, outcome.1.Coherent head exec
  headers : outcome.1.headers = s.headers
  pruneFloor : outcome.1.pruneFloor = s.pruneFloor
  unchanged : ∀ e, outcome.2 = .error e → outcome.1 = s

variable {hash : B256}

lemma transit_spec (hs : s.Coherent head exec) (htop : s.NoTopHeader)
  (hfloor : ∀ v, prove s hash = .ok v → s.floor ≤ v.tip.number)
  {transition : Validated → Transition}
  (htransition : ∀ v, transition v = .adopt v ∨ transition v = .retreat v ∨
    ∃ stateRoot, transition v = .executed v stateRoot) :
  TransitSpec s (s.transit hash transition) := by
  have hfail : ∀ e, TransitSpec s (s, .error e) := fun e =>
    ⟨⟨head, exec, hs⟩, rfl, rfl, fun _ _ => rfl⟩
  unfold transit applyTransition
  rcases hprove : prove s hash with e | v
  · exact hfail _
  rcases hstage : s.stage (transition v) with e | after
  · simp only [hstage]
    exact hfail _
  obtain ⟨hheaders, hpruneFloor⟩ := stage_frame hstage
  obtain ⟨head', exec', hafter⟩ :=
    stage_coherent hs htop hprove (hfloor v hprove) (htransition v) hstage
  -- a coherent position reads back, so nothing fails once it is written
  obtain ⟨root, hcursor⟩ := hafter.cursor_eq
  simp only [hstage, hcursor]
  exact ⟨⟨head', exec', hafter⟩, hheaders, hpruneFloor, fun _ h => by simp at h⟩

/-- A hash names one header: `name` gives the height and the parent of what may be stored
under it. -/
def Names (name : B256 → UInt64 × B256) (s : BlockStore) : Prop :=
  ∀ hash header, s.headers hash = some header → (header.number, header.parentHash) = name hash

variable {name : B256 → UInt64 × B256} {header : Header}

lemma putHeader_coherent (hs : s.Coherent head exec) (hnames : s.Names name)
  (hname : (header.number, header.parentHash) = name hash) :
  (s.putHeaderWithHash hash header).Coherent head exec :=
  { hs with
    linked := fun n hfloor hle => by
      obtain ⟨hash', header', hentry, hheader', hnumber, hlink⟩ := hs.linked n hfloor hle
      by_cases heq : hash' = hash
      · subst heq
        have hsame := hname.trans (hnames _ _ hheader').symm
        refine ⟨hash', header, hentry, by simp [putHeaderWithHash], ?_, fun hlt => ?_⟩
        · exact (Prod.mk.inj hsame).1.trans hnumber
        · exact (hlink hlt).trans (congrArg some (Prod.mk.inj hsame).2.symm)
      refine ⟨hash', header', hentry, ?_, hnumber, hlink⟩
      simpa [putHeaderWithHash, heq] using hheader' }

def Admissible (name : B256 → UInt64 × B256) : PositionEvent → Prop
  | .putHeader hash header =>
    (header.number, header.parentHash) = name hash ∧ header.number ≠ 0xFFFFFFFFFFFFFFFF
  | _ => True

structure Sound (name : B256 → UInt64 × B256) (s : BlockStore) : Prop where
  coherent : ∃ head exec, s.Coherent head exec
  names : s.Names name
  noTop : s.NoTopHeader

lemma sound_of_transit (hs : s.Sound name) {outcome : BlockStore × Except PositionError Unit}
  (h : TransitSpec s outcome) : outcome.1.Sound name where
  coherent := h.coherent
  names := by unfold Names; rw [h.headers]; exact hs.names
  noTop := by unfold NoTopHeader; rw [h.headers]; exact hs.noTop

lemma sound_of_putHeader (hs : s.Sound name) (h : Admissible name (.putHeader hash header)) :
  (s.putHeaderWithHash hash header).Sound name := by
  obtain ⟨head, exec, hcoherent⟩ := hs.coherent
  refine ⟨⟨head, exec, putHeader_coherent hcoherent hs.names h.1⟩, fun hash' header' h' => ?_,
    fun hash' header' h' => ?_⟩
  · by_cases heq : hash' = hash
    · subst heq
      obtain rfl : header = header' := by simpa [putHeaderWithHash] using h'
      exact h.1
    · exact hs.names hash' header' (by simpa [putHeaderWithHash, heq] using h')
  by_cases heq : hash' = hash
  · subst heq
    obtain rfl : header = header' := by simpa [putHeaderWithHash] using h'
    exact h.2
  · exact hs.noTop hash' header' (by simpa [putHeaderWithHash, heq] using h')

/-- **One event** on a store that was never pruned. -/
theorem handle_sound (hs : s.Sound name) (hunpruned : s.pruneFloor = none) {event : PositionEvent}
  (hevent : Admissible name event) :
  (s.handle event).1.Sound name ∧ (s.handle event).1.pruneFloor = none ∧
    ∀ e, (s.handle event).2 = .error e → (s.handle event).1 = s := by
  have hfloor : s.floor = 0 := by simp [floor, hunpruned]
  obtain ⟨head, exec, hcoherent⟩ := hs.coherent
  have htransit : ∀ hash (transition : Validated → Transition),
      (∀ v, transition v = .adopt v ∨ transition v = .retreat v ∨
        ∃ stateRoot, transition v = .executed v stateRoot) →
      (s.transit hash transition).1.Sound name ∧ (s.transit hash transition).1.pruneFloor = none ∧
        ∀ e, (s.transit hash transition).2 = .error e → (s.transit hash transition).1 = s :=
    fun hash transition htransition => by
      have hspec : TransitSpec s (s.transit hash transition) :=
        transit_spec hcoherent hs.noTop (fun v _ => by rw [hfloor]; exact UInt64.zero_le)
          htransition
      exact ⟨sound_of_transit hs hspec, hspec.pruneFloor.trans hunpruned, hspec.unchanged⟩
  cases event with
  | putHeader hash header =>
    exact ⟨sound_of_putHeader hs hevent, hunpruned, fun _ h => by simp [handle] at h⟩
  | adopt hash => exact htransit hash _ fun v => .inl rfl
  | retreat hash => exact htransit hash _ fun v => .inr (.inl rfl)
  | executed hash stateRoot => exact htransit hash _ fun v => .inr (.inr ⟨stateRoot, rfl⟩)

/-- **A run of events** on a store that was never pruned. -/
theorem run_sound (hs : s.Sound name) (hunpruned : s.pruneFloor = none)
  {events : List PositionEvent} (hevents : ∀ event ∈ events, Admissible name event) :
  (s.run events).Sound name ∧ (s.run events).pruneFloor = none := by
  induction events generalizing s with
  | nil => exact ⟨hs, hunpruned⟩
  | cons event rest ih =>
    have hstep := handle_sound hs hunpruned (hevents event (mem_cons_self ..))
    exact ih hstep.1 hstep.2.1 fun e he => hevents e (mem_cons_of_mem _ he)

structure AtGenesis (s : BlockStore) (hash : B256) (header : Header) : Prop where
  head : s.head = some hash
  exec : ∃ stateRoot, s.execHead = some (hash, stateRoot)
  held : s.headers hash = some header
  number : header.number = 0
  indexed : s.numbers 0 = some hash
  alone : ∀ n, n ≠ 0 → s.numbers n = none
  unpruned : s.pruneFloor = none

lemma AtGenesis.coherent (h : s.AtGenesis hash header) : s.Coherent ⟨0, hash⟩ ⟨0, hash⟩ := by
  have hfloor : s.floor = 0 := by simp [floor, h.unpruned]
  refine ⟨h.head, h.exec, fun n _ hn => ?_, h.indexed, h.indexed, ?_, UInt64.le_refl _,
    fun n hn => h.alone n (by grind), fun n _ hn => ?_, ?_⟩
  · obtain rfl : n = 0 := by grind
    exact ⟨hash, header, h.indexed, h.held, h.number, fun hlt => by grind⟩
  · rw [hfloor]; exact UInt64.le_refl _
  · rw [hfloor] at hn; grind
  · rw [hfloor]; decide

end BlockStore

section

open BlockStore

/-- **Position coherence.** From a genesis store, after any run of stored headers and
transitions, the position is coherent and a further event that fails changes nothing. -/
theorem position_coherent {s₀ : BlockStore} {name : B256 → UInt64 × B256} {genesis : B256}
  {genesisHeader : Header} (hstart : s₀.AtGenesis genesis genesisHeader)
  (hnames : s₀.Names name) (htop : s₀.NoTopHeader) {events : List PositionEvent}
  (hevents : ∀ event ∈ events, Admissible name event) :
  (∃ head exec, (s₀.run events).Coherent head exec) ∧ (s₀.run events).floor = 0 ∧
    ∀ event e, ((s₀.run events).handle event).2 = .error e →
      ((s₀.run events).handle event).1 = s₀.run events := by
  have hrun := run_sound ⟨⟨_, _, hstart.coherent⟩, hnames, htop⟩ hstart.unpruned hevents
  refine ⟨hrun.1.coherent, by simp [floor, hrun.2], fun event e he => ?_⟩
  cases event with
  | putHeader hash header => simp [handle] at he
  | adopt hash | retreat hash | executed hash stateRoot =>
    refine (handle_sound hrun.1 hrun.2 ?_).2.2 e he
    trivial

def lineHash (n : UInt64) : B256 := ⟨beBytes 32 n.toNat, length_beBytes ..⟩

def lineHeader (n : UInt64) : Header :=
  { Header.blank with number := n, parentHash := lineHash (n - 1) }

def lineName (hash : B256) : UInt64 × B256 :=
  let n := UInt64.ofNat (beNat hash.bytes)
  (n, lineHash (n - 1))

lemma lineName_lineHash (n : UInt64) : lineName (lineHash n) = (n, lineHash (n - 1)) := by
  have hlt := n.toNat_lt
  have hn : beNat (lineHash n).bytes = n.toNat := by
    rw [lineHash, beNat_beBytes, Nat.mod_eq_of_lt (by omega)]
  simp [lineName, hn]

lemma lineHash_injective : Function.Injective lineHash := fun m n h => by
  have hname := congrArg lineName h
  rw [lineName_lineHash, lineName_lineHash] at hname
  exact (Prod.mk.inj hname).1

def lineStore : BlockStore where
  headers := Function.update (fun _ => none) (lineHash 0) (some (lineHeader 0))
  totalDifficulty := fun _ => none
  numbers := Function.update (fun _ => none) 0 (some (lineHash 0))
  bodies := fun _ => none
  head := some (lineHash 0)
  execHead := some (lineHash 0, .zero 32)
  pruneFloor := none

lemma lineStore_atGenesis : lineStore.AtGenesis (lineHash 0) (lineHeader 0) where
  head := rfl
  exec := ⟨_, rfl⟩
  held := by simp [lineStore]
  number := rfl
  indexed := by simp [lineStore]
  alone n hn := by simp [lineStore, hn]
  unpruned := rfl

lemma lineStore_held {hash : B256} {header : Header}
  (h : lineStore.headers hash = some header) : hash = lineHash 0 ∧ header = lineHeader 0 := by
  by_cases heq : hash = lineHash 0
  · subst heq
    exact ⟨rfl, by simpa [lineStore, eq_comm] using h⟩
  · simp [lineStore, heq] at h

lemma lineStore_names : lineStore.Names lineName := fun hash header h => by
  obtain ⟨rfl, rfl⟩ := lineStore_held h
  rw [lineName_lineHash]
  rfl

lemma lineStore_noTop : lineStore.NoTopHeader := fun hash header h => by
  obtain ⟨-, rfl⟩ := lineStore_held h
  decide

/-- Two blocks come in the wrong order and are adopted and executed. -/
theorem position_coherent_two_blocks : let events : List PositionEvent :=
      [.putHeader (lineHash 2) (lineHeader 2), .adopt (lineHash 2),
        .putHeader (lineHash 1) (lineHeader 1), .adopt (lineHash 2),
        .executed (lineHash 1) (.zero 32)]
    (lineStore.run events).head = some (lineHash 2) ∧
      ∃ head exec, (lineStore.run events).Coherent head exec := by
  refine ⟨by decide +kernel, ?_⟩
  refine (@position_coherent _ lineName _ _ lineStore_atGenesis lineStore_names
    lineStore_noTop _ ?_).1
  intro event hevent
  simp only [mem_cons, not_mem_nil, or_false] at hevent
  rcases hevent with rfl | rfl | rfl | rfl | rfl
  · exact ⟨(lineName_lineHash 2).symm, by decide⟩
  · trivial
  · exact ⟨(lineName_lineHash 1).symm, by decide⟩
  · trivial
  · trivial

def putLine (heights : List UInt64) : List PositionEvent :=
  heights.map fun n => .putHeader (lineHash n) (lineHeader n)

lemma run_putLine (s : BlockStore) (heights : List UInt64) :
  ∃ headers, s.run (putLine heights) = { s with headers } ∧
    ∀ n, n ∈ heights ∨ s.headers (lineHash n) = some (lineHeader n) →
      headers (lineHash n) = some (lineHeader n) := by
  induction heights generalizing s with
  | nil => exact ⟨s.headers, rfl, fun n hn => by simpa using hn⟩
  | cons m rest ih =>
    obtain ⟨headers, hrun, hheld⟩ := ih (s.putHeaderWithHash (lineHash m) (lineHeader m))
    refine ⟨headers, hrun, fun n hn => hheld n ?_⟩
    by_cases hnm : n = m
    · subst hnm
      exact .inr (by simp [BlockStore.putHeaderWithHash])
    have hne : lineHash n ≠ lineHash m := fun h => hnm (lineHash_injective h)
    simpa [BlockStore.putHeaderWithHash, hnm, hne] using hn

/-- A store with genesis as its position that holds the line up to `top`. -/
structure HoldsLine (s : BlockStore) (top : UInt64) : Prop where
  atGenesis : s.AtGenesis (lineHash 0) (lineHeader 0)
  held : ∀ n, n ≤ top → s.headers (lineHash n) = some (lineHeader n)

lemma HoldsLine.walk_ok {s : BlockStore} {top : UInt64} (hs : HoldsLine s top)
  {height : Nat} {n : UInt64} (hn : n.toNat = height) (htop : n ≤ top)
  {collected : List (UInt64 × B256)} (hcollected : ∀ entry ∈ collected, entry.1 ≠ 0) :
  ∃ lineage, walk s 0 height (lineHash n) (lineHeader n) collected = .ok lineage ∧
    ∀ entry ∈ lineage, entry.1 ≠ 0 := by
  induction height generalizing n collected with
  | zero =>
    obtain rfl : n = 0 := UInt64.toNat_inj.mp hn
    refine ⟨collected, ?_, hcollected⟩
    simp [walk, lineHeader, hs.atGenesis.indexed]
  | succ height ih =>
    have hne : n ≠ 0 := by
      rintro rfl
      simp at hn
    have hlow : (n - 1).toNat = height := by
      rw [UInt64.toNat_sub_of_le _ _ (by grind), UInt64.toNat_one]
      omega
    obtain ⟨lineage, hwalk, hlineage⟩ :=
      @ih (n - 1) hlow (by grind) ((n, lineHash n) :: collected) (by simpa [hne] using hcollected)
    refine ⟨lineage, ?_, hlineage⟩
    have hsucc : (lineHeader (n - 1)).number + 1 = n := by simp [lineHeader]
    have hbelow : ¬ (n = 0 ∨ n ≤ 0 ∨ n - 1 < 0) := by grind
    have hparent : (lineHeader n).parentHash = lineHash (n - 1) := rfl
    have hnumber : (lineHeader n).number = n := rfl
    unfold walk
    simp only [hnumber, hparent, hs.atGenesis.alone n hne, hs.held (n - 1) (by grind), hsucc,
      if_neg hbelow]
    simpa using hwalk

lemma HoldsLine.adopt_top {s : BlockStore} {top : UInt64} (hs : HoldsLine s top)
  {drop : List UInt64} (hdrop : dropAbove s.numbers 100000 (top + 1) = some drop) :
  ∃ lineage, (∀ entry ∈ lineage, entry.1 ≠ 0) ∧ (s.handle (.adopt (lineHash top))).1 = { s with
        numbers := dropEntries (writeLineage s.numbers lineage) drop
        head := some (lineHash top) } := by
  obtain ⟨lineage, hwalk, hlineage⟩ :=
    @HoldsLine.walk_ok s top hs _ top rfl (UInt64.le_refl _) [] (by simp)
  obtain ⟨root, hexec⟩ := hs.atGenesis.exec
  have hheld := hs.held top (UInt64.le_refl _)
  have hgenesis := hs.held 0 UInt64.zero_le
  have hprove : prove s (lineHash top) = .ok ⟨⟨top, lineHash top⟩, lineage⟩ := by
    unfold prove
    simp only [hheld, hs.atGenesis.unpruned, getD_none]
    rw [show (lineHeader top).number = top from rfl, hwalk]
    rfl
  have hcursor : s.cursor = .ok (some ⟨⟨0, lineHash 0⟩, ⟨0, lineHash 0⟩, root⟩) := by
    simp [cursor, hs.atGenesis.head, hexec, hgenesis, lineHeader]
  have hreorg : s.executionAfterReorg (some ⟨⟨0, lineHash 0⟩, ⟨0, lineHash 0⟩, root⟩)
      ⟨⟨top, lineHash top⟩, lineage⟩ = .ok s.execHead := by
    have hfind : lineage.find? (fun e => e.1 = 0) = none := by simpa [find?_eq_none] using hlineage
    unfold executionAfterReorg
    simp [hfind, hs.atGenesis.indexed]
  refine ⟨lineage, hlineage, ?_⟩
  simp only [handle, transit, applyTransition, stage, stageMove, hprove, hcursor, hdrop, hreorg,
    Except.mapError]
  split
  · rename_i h
    exact (Prod.mk.inj h).1.symm
  rename_i h
  exact (Prod.mk.inj h).1.symm

/-! ## The largest height

`stage_drop_above` starts at `top + 1`, which is 0 for a head numbered `u64::MAX`. -/

/-- A head numbered `u64::MAX` over genesis takes genesis out of the index. -/
theorem position_incoherent_at_top : ∃ events : List PositionEvent,
  (∀ hash header, .putHeader hash header ∈ events →
    (header.number, header.parentHash) = lineName hash) ∧
  ¬ ∃ head exec, (lineStore.run events).Coherent head exec := by
  obtain ⟨heights, hheights⟩ : ∃ heights : List UInt64, ∀ n, n ∈ heights :=
    ⟨(List.range UInt64.size).map UInt64.ofNat, fun n =>
      List.mem_map.mpr ⟨n.toNat, mem_range.mpr n.toNat_lt, UInt64.ofNat_toNat⟩⟩
  refine ⟨putLine heights ++ [.adopt (lineHash 0xFFFFFFFFFFFFFFFF)],
    fun hash header hmem => ?_, ?_⟩
  · simp only [putLine, mem_append, List.mem_map, mem_singleton, reduceCtorEq,
      or_false] at hmem
    obtain ⟨n, -, hn⟩ := hmem
    obtain ⟨rfl, rfl⟩ := PositionEvent.putHeader.inj hn
    rw [lineName_lineHash]
    rfl
  rintro ⟨head, exec, hcoherent⟩
  obtain ⟨headers, hrun, hheld⟩ := run_putLine lineStore heights
  have hline : HoldsLine { lineStore with headers } 0xFFFFFFFFFFFFFFFF :=
    ⟨{ lineStore_atGenesis with held := hheld 0 (.inl (hheights 0)) },
      fun n _ => hheld n (.inl (hheights n))⟩
  -- the walk up starts at genesis and stops at #1
  have hdrop : dropAbove lineStore.numbers 100000 (0xFFFFFFFFFFFFFFFF + 1) = some [0] := by
    rw [show (0xFFFFFFFFFFFFFFFF : UInt64) + 1 = 0 from rfl, show 100000 = 99998 + 2 from rfl]
    simp [dropAbove, lineStore]
  obtain ⟨lineage, -, hadopt⟩ := hline.adopt_top hdrop
  rw [run_concat, hrun, hadopt] at hcoherent
  obtain ⟨hash, -, hentry, -⟩ := hcoherent.linked 0 (UInt64.le_refl _) UInt64.zero_le
  simp [dropEntries] at hentry

end

end Rustock
