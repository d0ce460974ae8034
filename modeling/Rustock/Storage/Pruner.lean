import Rustock.Storage.Position

/-!
# Pruning old blocks

`plan_prune` and `prune_blocks` (crates/storage/src/pruner.rs) next to the transitions of
`Storage.Position`:

- `BlockStore.planPrune`: the heights a sweep deletes, never within 8,000 of the executed
  block;
- `BlockStore.pruneBlocks`: the floor is raised, then canonical headers, difficulties,
  entries and bodies go;
- **`pruned_position_coherent`**: the position stays coherent in every run in which no transition
  goes below the floor;
- `adopt_genesis_of_pruned`: a run in which one does.

Receipts and the transaction index are left out: the position never reads them. Of the floor
record only the height is kept, which is all `prove` reads.
-/

namespace Rustock

open Lib List Option UInt64
open Validated (prove walk)

def minKeepDepth : UInt64 := 8000

structure PruneConfig where
  keepDepth : UInt64
  maxBatch : UInt64
  headers : Bool
  bodies : Bool
  receipts : Bool

inductive PruneRefusal where
  | orphansBodies
  | orphansReceipts
deriving DecidableEq

namespace PruneConfig

def effectiveKeepDepth (config : PruneConfig) : UInt64 := max config.keepDepth minKeepDepth

def refusal (config : PruneConfig) : Option PruneRefusal :=
  if config.headers && !config.bodies then some .orphansBodies
  else if config.headers && !config.receipts then some .orphansReceipts
  else none

end PruneConfig

/-- `start` and `upTo` are the fields `from` and `to`. -/
structure PrunePlan where
  start : UInt64
  upTo : UInt64
  newFloor : UInt64
deriving DecidableEq

namespace BlockStore

/-- The first height from `n` on that has an entry, among `fuel` heights. -/
def firstIndexed (numbers : UInt64 → Option B256) : Nat → UInt64 → Option UInt64
  | 0, _ => none
  | fuel + 1, n => if (numbers n).isSome then some n else firstIndexed numbers fuel (n + 1)

/-- Genesis is skipped. -/
def lowestIndexedHeight (s : BlockStore) : Option UInt64 :=
  firstIndexed s.numbers 0xFFFFFFFFFFFFFFFF 1

/-- Where a sweep starts. -/
def pruneStart (s : BlockStore) : UInt64 :=
  let start := max (s.pruneFloor.getD 1) 1
  (s.lowestIndexedHeight.map (max start)).getD start

/-- Without a freezer. -/
def planPrune (s : BlockStore) (config : PruneConfig) (headNumber : UInt64) : Option PrunePlan :=
  match s.execHead.bind fun exec => s.headers exec.1 with
  | none => none
  | some executed =>
    let headNumber := min headNumber executed.number
    let keep := config.effectiveKeepDepth
    if headNumber < keep then none
    else
      let target := headNumber - keep
      if s.pruneStart > target then none
      else
        let upTo := min target (s.pruneStart + max config.maxBatch 1 - 1)
        some ⟨s.pruneStart, upTo, upTo + 1⟩

/-- The heights of a sweep, `from..=to`. -/
def sweepHeights (plan : PrunePlan) : List UInt64 :=
  (List.range (plan.upTo.toNat + 1 - plan.start.toNat)).map fun i => plan.start + UInt64.ofNat i

/-- What a sweep deletes of one block. -/
def deleteBlock (config : PruneConfig) (s : BlockStore) (number : UInt64) (hash : B256) :
  BlockStore :=
  { s with
    headers := if config.headers then Function.update s.headers hash none else s.headers
    totalDifficulty :=
      if config.headers then Function.update s.totalDifficulty hash none else s.totalDifficulty
    numbers := if config.headers then Function.update s.numbers number none else s.numbers
    bodies := if config.bodies then Function.update s.bodies hash none else s.bodies }

def sweep (config : PruneConfig) (numbers : UInt64 → Option B256) (s : BlockStore)
  (heights : List UInt64) : BlockStore :=
  heights.foldl (fun s number =>
    match numbers number with
    | none => s
    | some hash => s.deleteBlock config number hash) s

/-- The floor goes up before anything is deleted. -/
def pruneBlocks (s : BlockStore) (config : PruneConfig) (headNumber : UInt64) : BlockStore :=
  match s.planPrune config headNumber with
  | none => s
  | some plan =>
    let floored :=
      if (s.numbers plan.newFloor).isSome then { s with pruneFloor := some plan.newFloor } else s
    sweep config s.numbers floored (sweepHeights plan)

variable {s t : BlockStore} {head exec : BlockRef} {config : PruneConfig} {plan : PrunePlan}

lemma mem_sweepHeights {n : UInt64} : n ∈ sweepHeights plan ↔ plan.start ≤ n ∧ n ≤ plan.upTo := by
  have hstart := plan.start.toNat_lt
  have hupTo := plan.upTo.toNat_lt
  simp only [sweepHeights, List.mem_map, mem_range, le_iff_toNat_le,
    ← UInt64.toNat_inj, UInt64.toNat_add, toNat_ofNat']
  constructor
  · rintro ⟨i, hi, hn⟩
    omega
  rintro ⟨hle, hge⟩
  exact ⟨n.toNat - plan.start.toNat, by omega, by omega⟩

lemma sweep_cons (numbers : UInt64 → Option B256) (m : UInt64) (rest : List UInt64) :
  sweep config numbers s (m :: rest) = sweep config numbers
    (match numbers m with | none => s | some hash => s.deleteBlock config m hash) rest :=
  rfl

lemma sweep_numbers (hconfig : config.headers) (numbers : UInt64 → Option B256)
  (heights : List UInt64) (n : UInt64) : (sweep config numbers s heights).numbers n =
    if n ∈ heights ∧ (numbers n).isSome then none else s.numbers n := by
  induction heights generalizing s with
  | nil => simp [sweep]
  | cons m rest ih =>
    rw [sweep_cons, ih]
    rcases hm : numbers m with _ | hash
    · by_cases hnm : n = m
      · subst hnm; simp [hm]
      · simp [hnm]
    by_cases hnm : n = m
    · subst hnm; simp [hm, deleteBlock, hconfig]
    · simp [hnm, deleteBlock, hconfig]

lemma sweep_headers (hconfig : config.headers) (numbers : UInt64 → Option B256)
  (heights : List UInt64) (hash : B256) (hkept : ∀ n ∈ heights, numbers n ≠ some hash) :
  (sweep config numbers s heights).headers hash = s.headers hash := by
  induction heights generalizing s with
  | nil => rfl
  | cons m rest ih =>
    rw [sweep_cons, ih fun n hn => hkept n (mem_cons_of_mem _ hn)]
    rcases hm : numbers m with _ | hash'
    · rfl
    have hne : hash ≠ hash' := fun h => hkept m (mem_cons_self ..) (h ▸ hm)
    simp [deleteBlock, hconfig, hne]

lemma sweep_frame (config : PruneConfig) (numbers : UInt64 → Option B256) (s : BlockStore)
  (heights : List UInt64) : (sweep config numbers s heights).head = s.head ∧
    (sweep config numbers s heights).execHead = s.execHead ∧
    (sweep config numbers s heights).pruneFloor = s.pruneFloor ∧
    ∀ hash header, (sweep config numbers s heights).headers hash = some header →
      s.headers hash = some header := by
  induction heights generalizing s with
  | nil => exact ⟨rfl, rfl, rfl, fun _ _ h => h⟩
  | cons m rest ih =>
    rw [sweep_cons]
    rcases hm : numbers m with _ | hash'
    · exact ih s
    obtain ⟨hhead, hexec, hfloor, hheaders⟩ := ih (s.deleteBlock config m hash')
    refine ⟨hhead, hexec, hfloor, fun hash header h => ?_⟩
    have hdeleted := hheaders hash header h
    simp only [deleteBlock] at hdeleted
    split at hdeleted
    · by_cases heq : hash = hash'
      · simp [heq] at hdeleted
      · simpa [heq] using hdeleted
    · exact hdeleted

variable {start : UInt64}

lemma firstIndexed_none_below {numbers : UInt64 → Option B256} {fuel : Nat}
  (hfuel : start.toNat + fuel ≤ 2 ^ 64) {lowest : UInt64}
  (h : firstIndexed numbers fuel start = some lowest) :
  start ≤ lowest ∧ ∀ n, start ≤ n → n < lowest → numbers n = none := by
  induction fuel generalizing start with
  | zero => simp [firstIndexed] at h
  | succ fuel ih =>
    unfold firstIndexed at h
    split at h
    · obtain rfl := some.inj h
      exact ⟨UInt64.le_refl _, fun n hle hlt => by grind⟩
    rename_i hnone
    have hne : start ≠ 0xFFFFFFFFFFFFFFFF := by
      rintro rfl
      obtain rfl : fuel = 0 := by
        have : (0xFFFFFFFFFFFFFFFF : UInt64).toNat = 2 ^ 64 - 1 := rfl
        omega
      simp [firstIndexed] at h
    have hsucc : (start + 1).toNat = start.toNat + 1 := by
      have := start.toNat_lt
      have : start.toNat ≠ 2 ^ 64 - 1 := fun h => hne (UInt64.toNat_inj.mp h)
      rw [UInt64.toNat_add, toNat_one]
      omega
    obtain ⟨hle, hbelow⟩ := ih (by omega) h
    refine ⟨by grind, fun n hstart hlt => ?_⟩
    by_cases hn : n = start
    · subst hn
      simpa using hnone
    · exact hbelow n (by grind) hlt

lemma max64_eq_ite (a b : UInt64) : max a b = if a ≤ b then b else a := rfl

lemma Coherent.pruneStart_spec (hs : s.Coherent head exec) :
  0 < s.pruneStart ∧ s.floor ≤ s.pruneStart ∧
    ∀ n, 0 < n → n < s.pruneStart → s.numbers n = none := by
  obtain ⟨start, hstart⟩ : ∃ start, start = max (s.pruneFloor.getD 1) 1 := ⟨_, rfl⟩
  have hfloor : 0 < start ∧ s.floor ≤ start ∧ ∀ n, 0 < n → n < start → s.numbers n = none := by
    have hhole := hs.hole
    unfold floor at hhole ⊢
    rcases hpruneFloor : s.pruneFloor with _ | f
    · simp only [hpruneFloor, getD_none] at hstart hhole ⊢
      grind [max64_eq_ite]
    simp only [hpruneFloor, getD_some] at hstart hhole ⊢
    grind [max64_eq_ite]
  unfold pruneStart
  rw [← hstart]
  rcases hlowest : s.lowestIndexedHeight with _ | lowest
  · simpa using hfloor
  have hfirst := firstIndexed_none_below (by decide) hlowest
  simp only [map_some, getD_some]
  grind [max64_eq_ite]

lemma batch_range {target batch : UInt64} (htarget : start ≤ target) :
  start ≤ min target (start + max batch 1 - 1) ∨
    min target (start + max batch 1 - 1) + 1 < start := by
  have hbatch : 1 ≤ max batch 1 := by grind [max64_eq_ite]
  generalize max batch 1 = b at hbatch
  have hend : start ≤ start + b - 1 ∨ start + b - 1 + 1 < start := by
    have hstart := start.toNat_lt
    have hb := b.toNat_lt
    simp only [le_iff_toNat_le, lt_iff_toNat_lt, UInt64.toNat_add,
      UInt64.toNat_sub, toNat_one] at hbatch ⊢
    omega
  grind [min64_eq_ite]

/-- What a plan covers: nothing is indexed between genesis and its start, and its end is
below the executed block. An end below the start is a batch size that wrapped around. -/
structure PlanSpec (s : BlockStore) (exec : BlockRef) (plan : PrunePlan) : Prop where
  newFloor : plan.newFloor = plan.upTo + 1
  start_pos : 0 < plan.start
  floor_le_start : s.floor ≤ plan.start
  none_below : ∀ n, 0 < n → n < plan.start → s.numbers n = none
  upTo_lt_exec : plan.upTo < exec.number
  range : plan.start ≤ plan.upTo ∨ plan.upTo + 1 < plan.start

variable {headNumber : UInt64}

lemma planPrune_spec (hs : s.Coherent head exec) (h : s.planPrune config headNumber = some plan) :
  PlanSpec s exec plan := by
  obtain ⟨root, hexecKey⟩ := hs.execKey
  obtain ⟨executed, hexecuted, hnumber⟩ := hs.header_of_entry hs.floor_le_exec hs.execCanonical
  unfold planPrune at h
  simp only [hexecKey, bind_some, hexecuted, hnumber] at h
  split at h
  · simp at h
  rename_i hkeep
  split at h
  · simp at h
  rename_i htarget
  obtain rfl := some.inj h
  have hkeepDepth : 8000 ≤ config.effectiveKeepDepth := by
    unfold PruneConfig.effectiveKeepDepth minKeepDepth
    grind [max64_eq_ite]
  obtain ⟨hpos, hfloor, hbelow⟩ := hs.pruneStart_spec
  refine ⟨rfl, hpos, hfloor, hbelow, ?_, ?_⟩
  · grind [min64_eq_ite]
  · exact batch_range (by grind)

/-- **A sweep** keeps a coherent position: everything it deletes is below the executed
block, and the floor goes to the lowest block that is left. -/
theorem pruneBlocks_coherent (hs : s.Coherent head exec) (hconfig : config.headers)
  (headNumber : UInt64) : (s.pruneBlocks config headNumber).Coherent head exec := by
  unfold pruneBlocks
  rcases hplan : s.planPrune config headNumber with _ | plan
  · exact hs
  obtain ⟨hnewFloor, hpos, hfloor, hbelow, hupTo, hrange⟩ := planPrune_spec hs hplan
  have hexecLe := hs.exec_le_head
  simp only [hnewFloor]
  rcases hrange with hrange | hwrapped
  · obtain ⟨floorHash, -, hfloorHash, -⟩ := hs.linked (plan.upTo + 1) (by grind) (by grind)
    rw [if_pos (by simp [hfloorHash])]
    generalize hfloored : { s with pruneFloor := some (plan.upTo + 1) } = floored
    obtain ⟨hhead, hexec, hpruneFloor, -⟩ :=
      sweep_frame config s.numbers floored (sweepHeights plan)
    have hnewFloor : (sweep config s.numbers floored (sweepHeights plan)).floor =
        plan.upTo + 1 := by
      rw [floor, hpruneFloor, ← hfloored]
      rfl
    have habove : ∀ n, plan.upTo < n →
        (sweep config s.numbers floored (sweepHeights plan)).numbers n = s.numbers n :=
      fun n hn => by
        rw [sweep_numbers hconfig, if_neg (by rw [mem_sweepHeights]; grind), ← hfloored]
    -- a header above the sweep is not one that goes: its hash names one height
    have hheld : ∀ n hash header, plan.upTo < n → s.headers hash = some header → header.number = n →
        (sweep config s.numbers floored (sweepHeights plan)).headers hash = some header :=
      fun n hash header hn hheader hnumber => by
        rw [sweep_headers hconfig, ← hfloored, hheader]
        intro m hm hentry
        have hmem := mem_sweepHeights.mp hm
        obtain ⟨header', hheader', hnumber'⟩ := hs.header_of_entry (by grind) hentry
        obtain rfl : header' = header := some.inj (hheader'.symm.trans hheader)
        grind
    refine ⟨?_, ?_, fun n hn hle => ?_, ?_, ?_, ?_, hexecLe, fun n hn => ?_, fun n hpos' hn => ?_,
      ?_⟩
    · rw [hhead, ← hfloored]
      exact hs.headKey
    · rw [hexec, ← hfloored]
      exact hs.execKey
    · rw [hnewFloor] at hn ⊢
      obtain ⟨hash, header, hentry, hheader, hnumber, hlink⟩ := hs.linked n (by grind) hle
      refine ⟨hash, header, ?_, hheld n hash header (by grind) hheader hnumber, hnumber,
        fun hlt => ?_⟩
      · rw [habove n (by grind), hentry]
      · rw [habove (n - 1) (by grind), hlink (by grind)]
    · rw [habove _ (by grind)]
      exact hs.headCanonical
    · rw [habove _ hupTo]
      exact hs.execCanonical
    · rw [hnewFloor]
      grind
    · rw [habove n (by grind)]
      exact hs.above n hn
    · rw [hnewFloor] at hn
      rw [sweep_numbers hconfig, ← hfloored]
      split
      · rfl
      rename_i hkept
      by_cases hstart : plan.start ≤ n
      · simpa [mem_sweepHeights, hstart, show n ≤ plan.upTo by grind] using hkept
      · exact hbelow n hpos' (by grind)
    rw [hnewFloor]
    grind
  have hempty : sweepHeights plan = [] :=
    eq_nil_iff_forall_not_mem.mpr fun n hn => by
      have := mem_sweepHeights.mp hn
      grind
  rw [hempty, hbelow (plan.upTo + 1) (by grind) hwrapped]
  exact hs

lemma pruneBlocks_headers {hash : B256} {header : Header}
  (h : (s.pruneBlocks config headNumber).headers hash = some header) :
  s.headers hash = some header := by
  unfold pruneBlocks at h
  split at h
  · exact h
  have hheld := (sweep_frame config s.numbers _ _).2.2.2 hash header h
  split at hheld
  · exact hheld
  · exact hheld

lemma pruneBlocks_sound {name : B256 → UInt64 × B256} (hs : s.Sound name)
  (hconfig : config.headers) (headNumber : UInt64) :
  (s.pruneBlocks config headNumber).Sound name := by
  obtain ⟨head, exec, hcoherent⟩ := hs.coherent
  exact ⟨⟨head, exec, pruneBlocks_coherent hcoherent hconfig headNumber⟩,
    fun hash header h => hs.names hash header (pruneBlocks_headers h),
    fun hash header h => hs.noTop hash header (pruneBlocks_headers h)⟩

end BlockStore

inductive ChainEvent where
  | position (event : PositionEvent)
  | prune (config : PruneConfig) (headNumber : UInt64)

namespace BlockStore

def handleChain (s : BlockStore) : ChainEvent → BlockStore × Except PositionError Unit
  | .position event => s.handle event
  | .prune config headNumber => (s.pruneBlocks config headNumber, .ok ())

lemma handleChain_position (s : BlockStore) (event : PositionEvent) :
  s.handleChain (.position event) = s.handle event := rfl

lemma handleChain_prune (s : BlockStore) (config : PruneConfig) (headNumber : UInt64) :
  (s.handleChain (.prune config headNumber)).1 = s.pruneBlocks config headNumber := rfl

def runChain (s : BlockStore) (events : List ChainEvent) : BlockStore :=
  events.foldl (fun s event => (s.handleChain event).1) s

def AdmissibleChain (name : B256 → UInt64 × B256) : ChainEvent → Prop
  | .position event => Admissible name event
  | .prune config _ => config.refusal = none ∧ config.headers

def target : ChainEvent → Option B256
  | .position (.adopt hash) | .position (.retreat hash) | .position (.executed hash _) => some hash
  | _ => none

def AboveFloor (s : BlockStore) (event : ChainEvent) : Prop :=
  ∀ hash header, target event = some hash → s.headers hash = some header →
    s.floor ≤ header.number

def RunAboveFloor : BlockStore → List ChainEvent → Prop
  | _, [] => True
  | s, event :: rest => s.AboveFloor event ∧ RunAboveFloor (s.handleChain event).1 rest

variable {s : BlockStore} {name : B256 → UInt64 × B256}

lemma tip_of_prove {hash : B256} {v : Validated} (h : prove s hash = .ok v) :
  ∃ header, s.headers hash = some header ∧ v.tip = ⟨header.number, hash⟩ := by
  unfold prove at h
  rcases hheader : s.headers hash with _ | header
  · simp [hheader] at h
  rw [hheader] at h
  rcases hwalk : walk s (s.pruneFloor.getD 0) header.number.toNat hash header []
    with _ | lineage
  · simp [hwalk, Except.map] at h
  simp only [hwalk, Except.map, Except.ok.injEq] at h
  exact ⟨header, rfl, by rw [← h]⟩

/-- **One event** on a store that may have been pruned. -/
theorem handleChain_sound (hs : s.Sound name) {event : ChainEvent}
  (hevent : AdmissibleChain name event) (hfloor : s.AboveFloor event) :
  (s.handleChain event).1.Sound name := by
  obtain ⟨head, exec, hcoherent⟩ := hs.coherent
  have htransit : ∀ hash (transition : Validated → Transition), target event = some hash →
      (∀ v, transition v = .adopt v ∨ transition v = .retreat v ∨
        ∃ stateRoot, transition v = .executed v stateRoot) →
      (s.transit hash transition).1.Sound name := fun hash transition htarget htransition =>
    sound_of_transit hs <| transit_spec hcoherent hs.noTop (fun v hv => by
      obtain ⟨header, hheader, htip⟩ := tip_of_prove hv
      rw [htip]
      exact hfloor hash header htarget hheader) htransition
  match event, hevent with
  | .position (.putHeader hash header), hevent => exact sound_of_putHeader hs hevent
  | .position (.adopt hash), _ => exact htransit hash _ rfl fun v => .inl rfl
  | .position (.retreat hash), _ => exact htransit hash _ rfl fun v => .inr (.inl rfl)
  | .position (.executed hash stateRoot), _ =>
    exact htransit hash _ rfl fun v => .inr (.inr ⟨stateRoot, rfl⟩)
  | .prune config headNumber, hevent => exact pruneBlocks_sound hs hevent.2 headNumber

lemma runChain_sound (hs : s.Sound name) {events : List ChainEvent}
  (hevents : ∀ event ∈ events, AdmissibleChain name event) (hfloor : s.RunAboveFloor events) :
  (s.runChain events).Sound name := by
  induction events generalizing s with
  | nil => exact hs
  | cons event rest ih =>
    have hstep := handleChain_sound hs (hevents event (mem_cons_self ..)) hfloor.1
    exact ih hstep (fun e he => hevents e (mem_cons_of_mem _ he)) hfloor.2

variable {head exec : BlockRef} {hash : B256} {n : UInt64}

lemma Coherent.prove_canonical (hs : s.Coherent head exec) (hn : s.numbers n = some hash)
  (hfloor : s.floor ≤ n) : prove s hash = .ok ⟨⟨n, hash⟩, []⟩ := by
  obtain ⟨hash', header, hentry, hheader, hnumber, hlink⟩ :=
    hs.linked n hfloor (hs.le_head_of_entry hn)
  obtain rfl : hash' = hash := some.inj (hentry.symm.trans hn)
  unfold prove walk
  simp only [hheader, hnumber, hn, if_true]
  by_cases hstop : n = 0 ∨ n ≤ s.pruneFloor.getD 0 ∨ n - 1 < s.pruneFloor.getD 0
  · rw [if_pos hstop]
    rfl
  have hlow := hlink (by unfold floor; grind)
  rw [if_neg hstop, if_pos ⟨trivial, hlow⟩]
  rfl

lemma Coherent.withExecuted (hs : s.Coherent head exec) (hn : s.numbers n = some hash)
  (hfloor : s.floor ≤ n) (stateRoot : B256) :
  BlockStore.Coherent { s with execHead := some (hash, stateRoot) } head ⟨n, hash⟩ :=
  { hs with
    execKey := ⟨stateRoot, rfl⟩
    execCanonical := hn
    floor_le_exec := hfloor
    exec_le_head := hs.le_head_of_entry hn }

lemma Coherent.handle_executed (hs : s.Coherent head exec) (hn : s.numbers n = some hash)
  (hfloor : s.floor ≤ n) (stateRoot : B256) : s.handle (.executed hash stateRoot) =
    ({ s with execHead := some (hash, stateRoot) }, .ok ()) := by
  obtain ⟨root, hcursor⟩ := hs.cursor_eq
  have hle : ¬ n > head.number := by
    have := hs.le_head_of_entry hn
    grind
  obtain ⟨root', hcursor'⟩ := (hs.withExecuted hn hfloor stateRoot).cursor_eq
  simp only [handle, transit, hs.prove_canonical hn hfloor, applyTransition, stage, hcursor,
    stageExecuted, hn, ne_eq, not_true_eq_false, if_false, hle, hcursor']

lemma Coherent.executed_head (hs : s.Coherent ⟨n, hash⟩ exec) (stateRoot : B256) :
  (s.handle (.executed hash stateRoot)).1.Coherent ⟨n, hash⟩ ⟨n, hash⟩ ∧
    (s.handle (.executed hash stateRoot)).1.numbers = s.numbers ∧
    (s.handle (.executed hash stateRoot)).1.headers = s.headers := by
  rw [hs.handle_executed hs.headCanonical hs.floor_le_head]
  exact ⟨hs.withExecuted hs.headCanonical hs.floor_le_head stateRoot, rfl, rfl⟩

/-- **Below the floor.** On a pruned store genesis can still be adopted: the walk that drops
what is above it stops at once, in the hole. -/
theorem Coherent.adopt_genesis_of_pruned (hs : s.Coherent head exec) (hpruned : 1 < s.floor)
  {genesis : Header} (hn : s.numbers 0 = some hash) (hheld : s.headers hash = some genesis)
  (hnumber : genesis.number = 0) : s.handle (.adopt hash) =
    ({ s with head := some hash, execHead := some (hash, genesis.stateRoot) }, .ok ()) := by
  obtain ⟨root, hcursor⟩ := hs.cursor_eq
  have hprove : prove s hash = .ok ⟨⟨0, hash⟩, []⟩ := by
    unfold prove walk
    simp [hheld, hnumber, hn, Except.map]
  have hdrop : dropAbove s.numbers 100000 (0 + 1) = some [] := by
    rw [show 100000 = 99999 + 1 from rfl]
    simp [dropAbove, hs.hole 1 (by decide) hpruned]
  have hreorg : s.executionAfterReorg (some ⟨head, exec, root⟩) ⟨⟨0, hash⟩, []⟩ =
      .ok (some (hash, genesis.stateRoot)) := by
    have habove : 0 < exec.number := by
      have := hs.floor_le_exec
      grind
    unfold executionAfterReorg
    simp [hn, hheld, habove]
  have hafter : cursor { s with head := some hash, execHead := some (hash, genesis.stateRoot) } =
      .ok (some ⟨⟨0, hash⟩, ⟨0, hash⟩, genesis.stateRoot⟩) := by
    simp [cursor, hheld, hnumber]
  simp only [handle, transit, hprove, applyTransition, stage, hcursor, stageMove, hdrop, hreorg,
    Except.mapError]
  simp only [writeLineage, dropEntries, foldl_nil, hafter]

/-- **One block back**, at or above the floor: the entry of the old head goes, and execution comes
down with the head. -/
theorem Coherent.retreat_one (hs : s.Coherent head exec) (htop : s.NoTopHeader)
    (hn : s.numbers n = some hash) (hfloor : s.floor ≤ n) (hnext : head.number = n + 1)
    (hlt : n + 1 < n + 1 + 1) : (s.handle (.retreat hash)).2 = .ok () ∧
      (s.handle (.retreat hash)).1.floor = s.floor ∧
      (s.handle (.retreat hash)).1.head = some hash ∧
      (s.handle (.retreat hash)).1.numbers (n + 1) = none := by
  obtain ⟨root, hcursor⟩ := hs.cursor_eq
  obtain ⟨header, hheader, -⟩ := hs.header_of_entry hfloor hn
  have hprove := hs.prove_canonical hn hfloor
  have hdrop : dropAbove s.numbers 100000 (n + 1) = some [n + 1] := by
    have habove : s.numbers (n + 1 + 1) = none := hs.above _ (hnext ▸ hlt)
    have hcanonical : s.numbers (n + 1) = some head.hash := hnext ▸ hs.headCanonical
    rw [show 100000 = 99998 + 1 + 1 from rfl]
    simp [dropAbove, habove, hcanonical]
  obtain ⟨execHead, hreorg⟩ : ∃ execHead,
      s.executionAfterReorg (some ⟨head, exec, root⟩) ⟨⟨n, hash⟩, []⟩ = .ok execHead := by
    unfold executionAfterReorg
    simp only [head?_nil, find?_nil, Option.map_none, Option.orElse_none, hn, hheader]
    split
    · exact ⟨_, rfl⟩
    · exact ⟨_, rfl⟩
  have hstage : s.stage (.retreat ⟨⟨n, hash⟩, []⟩) =
      .ok { s with numbers := Function.update s.numbers (n + 1) none, head := some hash,
                   execHead } := by
    simp only [stage, hcursor, stageMove, hdrop, hreorg, Except.mapError]
    rfl
  obtain ⟨_, _, hafter⟩ := stage_coherent hs htop hprove hfloor (.inr (.inl rfl)) hstage
  obtain ⟨root', hcursor'⟩ := hafter.cursor_eq
  have hresult : s.handle (.retreat hash) =
      ({ s with numbers := Function.update s.numbers (n + 1) none, head := some hash, execHead },
        .ok ()) := by
    simp only [handle, transit, hprove, applyTransition, hstage, hcursor']
  rw [hresult]
  exact ⟨rfl, rfl, rfl, Function.update_self ..⟩

lemma runChain_position (s : BlockStore) (events : List PositionEvent) :
  s.runChain (events.map .position) = s.run events := by
  simp [runChain, run, foldl_map, handleChain]

lemma runChain_concat (s : BlockStore) (events : List ChainEvent) (event : ChainEvent) :
  s.runChain (events ++ [event]) = ((s.runChain events).handleChain event).1 := by
  simp [runChain]

lemma runAboveFloor_append {s : BlockStore} {first second : List ChainEvent} :
  s.RunAboveFloor (first ++ second) ↔
    s.RunAboveFloor first ∧ (s.runChain first).RunAboveFloor second := by
  induction first generalizing s with
  | nil => simp [RunAboveFloor, runChain]
  | cons event rest ih =>
    simp only [cons_append, RunAboveFloor, ih, and_assoc]
    rfl

lemma runAboveFloor_of_unpruned (hs : s.Sound name) (hunpruned : s.pruneFloor = none)
  {events : List PositionEvent} (hevents : ∀ event ∈ events, Admissible name event) :
  s.RunAboveFloor (events.map .position) := by
  induction events generalizing s with
  | nil => trivial
  | cons event rest ih =>
    have hstep := handle_sound hs hunpruned (hevents event (mem_cons_self ..))
    refine ⟨fun hash header _ _ => ?_,
      ih hstep.1 hstep.2.1 fun e he => hevents e (mem_cons_of_mem _ he)⟩
    simp [floor, hunpruned]

end BlockStore

section

open BlockStore

/-- **Pruned positions.** From a genesis store, after any run of stored headers, sweeps and
transitions that never go below the floor, floor, executed head, head and index describe one
chain: nothing is indexed above the head, and the head is not below the floor. -/
theorem pruned_position_coherent {s₀ : BlockStore} {name : B256 → UInt64 × B256}
  {genesis : B256} {genesisHeader : Header} (hstart : s₀.AtGenesis genesis genesisHeader)
  (hnames : s₀.Names name) (htop : s₀.NoTopHeader) {events : List ChainEvent}
  (hevents : ∀ event ∈ events, AdmissibleChain name event) (hfloor : s₀.RunAboveFloor events) :
  ∃ head exec, (s₀.runChain events).Coherent head exec :=
  (runChain_sound ⟨⟨_, _, hstart.coherent⟩, hnames, htop⟩ hevents hfloor).coherent

@[irreducible] def heightsTo (top : UInt64) : List UInt64 :=
  (List.range (top.toNat + 1)).map UInt64.ofNat

lemma mem_heightsTo {top n : UInt64} : n ∈ heightsTo top ↔ n ≤ top := by
  have htop := top.toNat_lt
  simp only [heightsTo, List.mem_map, mem_range, le_iff_toNat_le]
  constructor
  · rintro ⟨i, hi, rfl⟩
    rw [toNat_ofNat']
    omega
  intro hn
  exact ⟨n.toNat, by omega, UInt64.ofNat_toNat⟩

def lineAdopted : List PositionEvent := putLine (heightsTo 8002) ++ [.adopt (lineHash 8002)]

lemma lineAdopted_admissible : ∀ event ∈ lineAdopted, Admissible lineName event := by
  intro event hevent
  simp only [lineAdopted, putLine, mem_append, List.mem_map, mem_singleton] at hevent
  rcases hevent with ⟨n, hn, rfl⟩ | rfl
  · have hle := mem_heightsTo.mp hn
    refine ⟨(lineName_lineHash n).symm, ?_⟩
    change n ≠ _
    grind
  · trivial

lemma lineStore_sound : lineStore.Sound lineName :=
  ⟨⟨_, _, lineStore_atGenesis.coherent⟩, lineStore_names, lineStore_noTop⟩

lemma lineAdopted_position :
  ∃ exec, (lineStore.run lineAdopted).Coherent ⟨8002, lineHash 8002⟩ exec ∧
    (lineStore.run lineAdopted).numbers 0 = some (lineHash 0) ∧
    (lineStore.run lineAdopted).headers (lineHash 0) = some (lineHeader 0) := by
  obtain ⟨headers, hrun, hheld⟩ := run_putLine lineStore (heightsTo 8002)
  have hline : HoldsLine { lineStore with headers } 8002 :=
    ⟨{ lineStore_atGenesis with held := hheld 0 (.inl (mem_heightsTo.mpr (by decide))) },
      fun n hn => hheld n (.inl (mem_heightsTo.mpr hn))⟩
  have hdrop : dropAbove lineStore.numbers 100000 (8002 + 1) = some [] := by
    rw [show 100000 = 99999 + 1 from rfl]
    simp [dropAbove, lineStore]
  obtain ⟨lineage, hlineage, hadopt⟩ := hline.adopt_top hdrop
  have hposition := run_concat lineStore (putLine (heightsTo 8002)) (.adopt (lineHash 8002))
  rw [hrun, hadopt] at hposition
  obtain ⟨⟨head, exec, hcoherent⟩, hnames, -⟩ :=
    (run_sound lineStore_sound rfl lineAdopted_admissible).1
  rw [lineAdopted, hposition] at hcoherent hnames ⊢
  have hhash : head.hash = lineHash 8002 := (some.inj hcoherent.headKey).symm
  obtain ⟨header, hheader, hnumber⟩ :=
    hcoherent.header_of_entry hcoherent.floor_le_head hcoherent.headCanonical
  have hname := hnames _ _ hheader
  rw [hhash, lineName_lineHash, hnumber] at hname
  obtain rfl : head = ⟨8002, lineHash 8002⟩ := by
    cases head
    simp_all
  refine ⟨exec, hcoherent, ?_, hheld 0 (.inl (mem_heightsTo.mpr (by decide)))⟩
  simp only [dropEntries, foldl_nil]
  rw [writeLineage_of_not_mem hlineage]
  rfl

def lineExecuted : List PositionEvent :=
  lineAdopted ++ [.executed (lineHash 8002) (.zero 32)]

def lineConfig : PruneConfig := ⟨0, 2, true, true, true⟩

def lineSwept : List ChainEvent := lineExecuted.map .position ++ [.prune lineConfig 8002]

lemma lineExecuted_admissible : ∀ event ∈ lineExecuted, Admissible lineName event := by
  intro event hevent
  rcases mem_append.mp hevent with hmem | hmem
  · exact lineAdopted_admissible event hmem
  obtain rfl := mem_singleton.mp hmem
  trivial

lemma lineExecuted_position :
  (lineStore.run lineExecuted).Coherent ⟨8002, lineHash 8002⟩ ⟨8002, lineHash 8002⟩ ∧
    (lineStore.run lineExecuted).numbers 0 = some (lineHash 0) ∧
    (lineStore.run lineExecuted).headers (lineHash 0) = some (lineHeader 0) := by
  obtain ⟨exec, hcoherent, hzero, hheld⟩ := lineAdopted_position
  obtain ⟨hafter, hnumbers, hheaders⟩ := hcoherent.executed_head (.zero 32)
  rw [lineExecuted, run_concat, hnumbers, hheaders]
  exact ⟨hafter, hzero, hheld⟩

lemma lineSwept_admissible : ∀ event ∈ lineSwept, AdmissibleChain lineName event := by
  intro event hevent
  rcases mem_append.mp hevent with hmem | hmem
  · obtain ⟨event, hposition, rfl⟩ := List.mem_map.mp hmem
    exact lineExecuted_admissible event hposition
  obtain rfl := mem_singleton.mp hmem
  exact ⟨rfl, rfl⟩

lemma lineSwept_aboveFloor : lineStore.RunAboveFloor lineSwept := runAboveFloor_append.mpr
    ⟨runAboveFloor_of_unpruned lineStore_sound rfl lineExecuted_admissible,
      fun _ _ h => by simp [target] at h, trivial⟩

variable {s : BlockStore} {genesis : B256} {header : Header}

lemma prune_line {hash : B256} (hs : s.Coherent ⟨8002, hash⟩ ⟨8002, hash⟩)
  (hunpruned : s.pruneFloor = none) (hzero : s.numbers 0 = some genesis)
  (hheld : s.headers genesis = some header) (hnumber : header.number = 0) :
  (s.pruneBlocks lineConfig 8002).floor = 3 ∧
    (s.pruneBlocks lineConfig 8002).numbers 0 = some genesis ∧
    (s.pruneBlocks lineConfig 8002).headers genesis = some header := by
  have hindexed : ∀ n, n ≤ 8002 → (s.numbers n).isSome := fun n hn => by
    obtain ⟨hash, -, hentry, -⟩ := hs.linked n (by simp [floor, hunpruned]) hn
    simp [hentry]
  have hlowest : s.lowestIndexedHeight = some 1 := by
    unfold lowestIndexedHeight
    rw [show 0xFFFFFFFFFFFFFFFF = 0xFFFFFFFFFFFFFFFE + 1 from rfl, firstIndexed,
      if_pos (hindexed 1 (by decide))]
  have hplan : s.planPrune lineConfig 8002 = some ⟨1, 2, 3⟩ := by
    obtain ⟨root, hexec⟩ := hs.execKey
    obtain ⟨executed, hexecuted, hexecNumber⟩ :=
      hs.header_of_entry hs.floor_le_exec hs.execCanonical
    have hstart : s.pruneStart = 1 := by
      simp only [pruneStart, hunpruned, hlowest]
      decide
    simp only [planPrune, hexec, bind_some, hexecuted, hexecNumber, hstart]
    decide
  have hmem : ∀ n, n ∈ sweepHeights ⟨1, 2, 3⟩ → n ≠ 0 := fun n hn => by
    have := mem_sweepHeights.mp hn
    grind
  simp only [pruneBlocks, hplan, if_pos (hindexed 3 (by decide))]
  refine ⟨?_, ?_, ?_⟩
  · rw [floor, (sweep_frame ..).2.2.1]
    rfl
  · rw [sweep_numbers rfl, if_neg fun h => hmem 0 h.1 rfl, hzero]
  rw [sweep_headers rfl, hheld]
  intro n hn hentry
  obtain ⟨header', hheader', hnumber'⟩ :=
    hs.header_of_entry (by simp [floor, hunpruned]) hentry
  obtain rfl : header' = header := some.inj (hheader'.symm.trans hheld)
  exact hmem n hn (hnumber'.symm.trans hnumber)

lemma lineSwept_position :
    (lineStore.runChain lineSwept).Coherent ⟨8002, lineHash 8002⟩ ⟨8002, lineHash 8002⟩ ∧
    (lineStore.runChain lineSwept).floor = 3 ∧
    (lineStore.runChain lineSwept).numbers 0 = some (lineHash 0) ∧
    (lineStore.runChain lineSwept).headers (lineHash 0) = some (lineHeader 0) := by
  obtain ⟨hcoherent, hzero, hheld⟩ := lineExecuted_position
  have hunpruned := (run_sound lineStore_sound rfl lineExecuted_admissible).2
  have hswept := prune_line hcoherent hunpruned hzero hheld rfl
  rw [lineSwept, runChain_concat, runChain_position, handleChain_prune]
  exact ⟨pruneBlocks_coherent hcoherent rfl 8002, hswept⟩

/-- On the swept line the node goes one block back. -/
def lineRetreated : List ChainEvent := lineSwept ++ [.position (.retreat (lineHash 8001))]

/-- The block below the head of the swept line is held and canonical. -/
theorem lineSwept_below_head : (lineStore.runChain lineSwept).numbers 8001 = some (lineHash 8001) ∧
    ∀ header, (lineStore.runChain lineSwept).headers (lineHash 8001) = some header →
      header.number = 8001 := by
  obtain ⟨hcoherent, hfloor, -⟩ := lineSwept_position
  have hnames := (runChain_sound lineStore_sound lineSwept_admissible lineSwept_aboveFloor).names
  constructor
  · obtain ⟨hash, header, hentry, hheader, -, hlink⟩ :=
      hcoherent.linked 8002 (by rw [hfloor]; decide) (UInt64.le_refl _)
    obtain rfl : hash = lineHash 8002 := some.inj (hentry.symm.trans hcoherent.headCanonical)
    have hname := hnames _ _ hheader
    rw [lineName_lineHash] at hname
    exact (hlink (by rw [hfloor]; decide)).trans (congrArg some (congrArg Prod.snd hname))
  · intro header hheader
    have hname := hnames _ _ hheader
    rw [lineName_lineHash] at hname
    exact congrArg Prod.fst hname

theorem lineRetreated_admissible : ∀ event ∈ lineRetreated, AdmissibleChain lineName event := by
  intro event hevent
  rcases mem_append.mp hevent with hmem | hmem
  · exact lineSwept_admissible event hmem
  obtain rfl := mem_singleton.mp hmem
  exact True.intro

theorem lineRetreated_aboveFloor : lineStore.RunAboveFloor lineRetreated := by
  refine runAboveFloor_append.mpr ⟨lineSwept_aboveFloor, fun hash header htarget hheader => ?_,
    True.intro⟩
  obtain rfl := some.inj htarget
  rw [lineSwept_position.2.1, lineSwept_below_head.2 header hheader]
  decide

/-- The run sweeps the line and then goes one block back, above its floor #3: the transition
succeeds, its old head is no longer indexed, and the position is coherent. -/
theorem pruned_position_coherent_line :
    ((lineStore.runChain lineSwept).handle (.retreat (lineHash 8001))).2 = .ok () ∧
    (lineStore.runChain lineRetreated).floor = 3 ∧
    (lineStore.runChain lineRetreated).head = some (lineHash 8001) ∧
    (lineStore.runChain lineRetreated).numbers 8002 = none ∧
    ∃ head exec, (lineStore.runChain lineRetreated).Coherent head exec := by
  obtain ⟨hcoherent, hfloor, -⟩ := lineSwept_position
  have hentry := lineSwept_below_head.1
  have hsound := runChain_sound lineStore_sound lineSwept_admissible lineSwept_aboveFloor
  have hstands : (lineStore.runChain lineSwept).floor ≤ 8001 := by
    rw [hfloor]
    decide
  obtain ⟨hok, hkept, hhead, hdropped⟩ :=
    hcoherent.retreat_one hsound.noTop hentry hstands (by decide) (by decide)
  have hcoherent' := pruned_position_coherent lineStore_atGenesis lineStore_names lineStore_noTop
    lineRetreated_admissible lineRetreated_aboveFloor
  have hnext : (8001 : UInt64) + 1 = 8002 := by decide
  rw [hnext] at hdropped
  rw [lineRetreated, runChain_concat, handleChain_position] at hcoherent' ⊢
  exact ⟨hok, hkept.trans hfloor, hhead, hdropped, hcoherent'⟩

lemma adopt_below_floor {head exec : BlockRef} (hs : s.Coherent head exec) (hpruned : 1 < s.floor)
  (hzero : s.numbers 0 = some genesis) (hheld : s.headers genesis = some header)
  (hnumber : header.number = 0) :
  (s.handle (.adopt genesis)).2 = .ok () ∧ (s.handle (.adopt genesis)).1.head = some genesis ∧
    0 < head.number ∧ (s.handle (.adopt genesis)).1.numbers head.number = some head.hash := by
  rw [hs.adopt_genesis_of_pruned hpruned hzero hheld hnumber]
  have := hs.floor_le_head
  exact ⟨rfl, rfl, by grind, hs.headCanonical⟩

/-- **Adopting below the floor.** A run of admissible events ends with a successful adoption
of genesis, below the floor, and a block still indexed above it. -/
theorem pruned_position_incoherent : ∃ events : List ChainEvent,
  (∀ event ∈ events, AdmissibleChain lineName event) ∧
  ((lineStore.runChain events).handleChain (.position (.adopt (lineHash 0)))).2 = .ok () ∧
  ((lineStore.runChain events).handleChain (.position (.adopt (lineHash 0)))).1.head =
    some (lineHash 0) ∧ (lineHeader 0).number < (lineStore.runChain events).floor ∧
  ∃ n hash, (lineHeader 0).number < n ∧
    ((lineStore.runChain events).handleChain (.position (.adopt (lineHash 0)))).1.numbers n =
      some hash := by
  obtain ⟨hcoherent, hfloor, hzero, hheld⟩ := lineSwept_position
  have hpruned : 1 < (lineStore.runChain lineSwept).floor := by
    rw [hfloor]
    decide
  obtain ⟨hok, hhead, hpos, hentry⟩ := adopt_below_floor hcoherent hpruned hzero hheld rfl
  refine ⟨lineSwept, lineSwept_admissible, ?_⟩
  rw [handleChain_position, hfloor]
  exact ⟨hok, hhead, by decide, 8002, _, hpos, hentry⟩

end

end Rustock
