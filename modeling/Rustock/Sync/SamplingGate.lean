import Rustock.Execution.Executor
import Rustock.Lib.Run
import Rustock.Sync.Sampler

/-!
# The sampling gate

`SamplingGate` (crates/sync/src/sampler.rs) drives one peer's sampling: it asks for
skeletons over the window above the checkpoint and for the blocks the sampler has chosen, and gives
its verdict once the window is covered and nothing is outstanding.

With `bound_work` the verdict compares the claim with the ceiling and does not look at
`on_checkpoint_chain`: a checkpoint block the peer did not serve is one missing answer, of which
`MISSING_SAMPLES_ALLOWED` are free. Nor does it look at how many samples there are.
-/

namespace Rustock

open Lib List Lib.OrdMap OrdMap

/-- Which of the two defences are on. -/
structure CheckpointDefence where
  verifyHash : Bool
  boundWork : Bool

/-- What the gate asks of the peer. -/
inductive GateAction where
  | requestSkeleton (start : UInt64)
  | requestHeader (number : UInt64) (hash : B256)
deriving DecidableEq

/-- Why a peer is refused. -/
inductive GateRejection where
  | belowCheckpoint (claimed allowed : U256)
  | aboveCeiling (claimed ceiling : U256)
  | unsubstantiated (missing : Nat)
deriving DecidableEq

/-- The verdict so far. -/
inductive GateOutcome where
  | pending
  | passed (ceiling : U256)
  | rejected (reason : GateRejection)
deriving DecidableEq

/-- A gate for one peer and the difficulty it claims. -/
structure SamplingGate where
  sampler : ChainSampler
  claimed : U256
  checkpointNumber : UInt64
  head : UInt64
  skeletonSpan : UInt64
  nextSkeleton : UInt64
  skeletonsOutstanding : Nat
  boundWork : Bool
  learned : List (UInt64 × B256)
  started : Bool

/-- A poll, an answer, or an answer that is given up. -/
inductive GateEvent where
  | poll
  | skeleton (identifiers : List (UInt64 × B256))
  | header (header : Header)
  | giveUp (number : UInt64)

/-! ## Answers to the sampler -/

namespace ChainSampler

/-- What a sampler knows after any answers, `served` being the headers that came and passed their
own rules. -/
structure Founded (current : ActivationHeights) (served : Header → Prop) (s : ChainSampler) :
  Prop where
  pooled : s.Pooled
  full : s.drawn.length = min randomSamples (OrdMap.keys s.known).length
  above : ∀ x ∈ OrdMap.keys s.known, s.checkpoint.number < x
  collectedOnce : (OrdMap.keys s.collected).Nodup
  collectedKnown : ∀ x ∈ OrdMap.keys s.collected, x = s.checkpoint.number ∨
    x ∈ OrdMap.keys s.known
  askedKnown : ∀ x ∈ OrdMap.keys s.outstanding, x = s.checkpoint.number ∨
    x ∈ OrdMap.keys s.known
  pinned : ∀ hash, (s.checkpoint.number, hash) ∈ s.outstanding → hash = s.checkpoint.hash
  onChain : s.onCheckpointChain = true → s.verifyHash = true →
    ∃ header, served header ∧ header.number = s.checkpoint.number ∧
      header.hash current = s.checkpoint.hash
  collected : ∀ e ∈ s.collected, ∃ header, served header ∧ header.number = e.1 ∧
    (header.difficulty, header.uncleCount) = e.2

/-- Nothing asked for has been given up. -/
structure Unmissed (s : ChainSampler) : Prop where
  asked : s.verifyHash = true → s.checkpoint.number ∈ OrdMap.keys s.outstanding ∨
    s.onCheckpointChain = true
  covered : ∀ x ∈ s.drawn, x ∈ OrdMap.keys s.outstanding ∨ x ∈ OrdMap.keys s.collected

section Answers

variable {current : ActivationHeights} {verifier : HeaderVerifier} {served : Header → Prop}
  {s : ChainSampler}

lemma Founded.mono {served' : Header → Prop} (h : s.Founded current served)
  (hmono : ∀ header, served header → served' header) : s.Founded current served' where
  pooled := h.pooled
  full := h.full
  above := h.above
  collectedOnce := h.collectedOnce
  collectedKnown := h.collectedKnown
  askedKnown := h.askedKnown
  pinned := h.pinned
  onChain hon hverify := by
    obtain ⟨header, hserved, hrest⟩ := h.onChain hon hverify
    exact ⟨header, hmono header hserved, hrest⟩
  collected e he := by
    obtain ⟨header, hserved, hrest⟩ := h.collected e he
    exact ⟨header, hmono header hserved, hrest⟩

section

variable (h : s.Founded current served)

include h

lemma Founded.absorb (page : List (UInt64 × B256)) :
  (s.absorbSkeleton page).Founded current served := by
  have habs := h.pooled.absorb page
  obtain ⟨hcollected, hcheckpoint, -, hverify, hon⟩ := habs.rest
  have hgrows : ∀ x ∈ OrdMap.keys s.known, x ∈ OrdMap.keys (s.absorbSkeleton page).known :=
    fun x hx => (habs.known x).mpr (.inl hx)
  have habove : ∀ x ∈ OrdMap.keys (s.absorbSkeleton page).known, s.checkpoint.number < x := by
    intro x hx
    rcases (habs.known x).mp hx with hx | ⟨hx, -⟩
    · exact h.above x hx
    · exact (mem_namedBy.mp hx).2
  constructor
  case pooled => exact habs.pooled
  case full => exact habs.full
  case above => rwa [hcheckpoint]
  case collectedOnce => rw [hcollected]; exact h.collectedOnce
  case collectedKnown =>
    rw [hcollected, hcheckpoint]
    exact fun x hx => (h.collectedKnown x hx).imp_right (hgrows x)
  case askedKnown =>
    rw [hcheckpoint]
    intro x hx
    obtain ⟨hash, hmem⟩ := mem_keys.mp hx
    rcases habs.asked _ hmem with hmem | hmem
    · exact (h.askedKnown x (mem_keys.mpr ⟨hash, hmem⟩)).imp_right (hgrows x)
    · exact .inr (mem_keys.mpr ⟨hash, hmem⟩)
  case pinned =>
    rw [hcheckpoint]
    intro hash hmem
    rcases habs.asked _ hmem with hmem | hmem
    · exact h.pinned hash hmem
    · exact absurd (habove _ (mem_keys.mpr ⟨hash, hmem⟩)) (UInt64.lt_irrefl _)
  case onChain => rw [hon, hverify, hcheckpoint]; exact h.onChain
  case collected => rw [hcollected]; exact h.collected

lemma Founded.spend (number : UInt64) : (s.spend number).Founded current served where
  pooled := ⟨h.pooled.sorted, h.pooled.nodup, h.pooled.drawnNodup, h.pooled.drawnKnown,
    h.pooled.atMost⟩
  full := h.full
  above := h.above
  collectedOnce := h.collectedOnce
  collectedKnown := h.collectedKnown
  askedKnown x hx := h.askedKnown x (mem_keys_erase.mp hx).2
  pinned hash hmem := h.pinned hash (mem_erase.mp hmem).2
  onChain := h.onChain
  collected := h.collected

lemma Founded.giveUpOn (number : UInt64) : (s.giveUpOn number).Founded current served := by
  unfold ChainSampler.giveUpOn
  split
  · exact h.spend number
  · exact h

end

/-- The sampler after a header it accepts. -/
def take (s : ChainSampler) (header : Header) : ChainSampler :=
  { s with
    outstanding := erase header.number s.outstanding
    onCheckpointChain := s.onCheckpointChain ||
      (s.verifyHash && decide (header.number = s.checkpoint.number))
    collected := insert (· ≤ ·) header.number (header.difficulty, header.uncleCount)
      s.collected }

lemma offer_cases (current : ActivationHeights) (verifier : HeaderVerifier) (s : ChainSampler)
  (header : Header) :
  (get? header.number s.outstanding = none ∧ s.offer current verifier header = s) ∨
    ∃ expected, get? header.number s.outstanding = some expected ∧
      (s.offer current verifier header = s.take header ∧ header.hash current = expected ∧
          verifier.verify header none = .ok () ∨
        s.offer current verifier header = s.spend header.number ∧
          ¬ (header.hash current = expected ∧ verifier.verify header none = .ok ())) := by
  unfold offer
  split
  · rename_i hnone
    exact .inl ⟨hnone, rfl⟩
  rename_i expected hsome
  refine .inr ⟨expected, hsome, ?_⟩
  split
  · rename_i hhash
    exact .inr ⟨rfl, fun h => hhash h.1⟩
  rename_i hhash
  split
  · rename_i hverify
    exact .inr ⟨rfl, fun h => hverify h.2⟩
  rename_i hverify
  exact .inl ⟨rfl, not_not.mp hhash, not_not.mp hverify⟩

lemma Founded.take (h : s.Founded current served) {header : Header} {expected : B256}
  (hasked : get? header.number s.outstanding = some expected)
  (hhash : header.hash current = expected) (hserved : served header) :
  (s.take header).Founded current served := by
  have hmem := mem_of_get? hasked
  constructor
  case pooled => exact ⟨h.pooled.sorted, h.pooled.nodup, h.pooled.drawnNodup, h.pooled.drawnKnown,
    h.pooled.atMost⟩
  case full => exact h.full
  case above => exact h.above
  case collectedOnce => exact nodup_keys_insert h.collectedOnce
  case collectedKnown =>
    intro x hx
    rcases mem_keys_insert.mp hx with rfl | hx
    · exact h.askedKnown _ (mem_keys.mpr ⟨expected, hmem⟩)
    · exact h.collectedKnown x hx
  case askedKnown => exact fun x hx => h.askedKnown x (mem_keys_erase.mp hx).2
  case pinned => exact fun hash hin => h.pinned hash (mem_erase.mp hin).2
  case onChain =>
    intro hon hverify
    -- either it was on the chain before, or this is the checkpoint block
    rcases Bool.or_eq_true_iff.mp hon with hon | hnow
    · exact h.onChain hon hverify
    have hnumber : header.number = s.checkpoint.number := by
      simpa using (Bool.and_eq_true_iff.mp hnow).2
    refine ⟨header, hserved, hnumber, ?_⟩
    rw [hhash]
    exact h.pinned expected (hnumber ▸ hmem)
  case collected =>
    rintro ⟨x, sample⟩ he
    rcases mem_insert.mp he with ⟨rfl, rfl⟩ | ⟨-, he⟩
    · exact ⟨header, hserved, rfl, rfl⟩
    · exact h.collected _ he

lemma Founded.offer (h : s.Founded current served) {header : Header}
  (hserved : verifier.verify header none = .ok () → served header) :
  (s.offer current verifier header).Founded current served := by
  rcases offer_cases current verifier s header with
    ⟨-, heq⟩ | ⟨expected, hasked, ⟨heq, hhash, hverify⟩ | ⟨heq, -⟩⟩
  · rwa [heq]
  · rw [heq]
    exact h.take hasked hhash (hserved hverify)
  rw [heq]
  exact h.spend _

lemma Unmissed.absorb (hpooled : s.Pooled) (h : s.Unmissed) (page : List (UInt64 × B256)) :
  (s.absorbSkeleton page).Unmissed := by
  have habs := hpooled.absorb page
  obtain ⟨-, hcheckpoint, -, hverify, hon⟩ := habs.rest
  refine ⟨?_, habs.covered⟩
  rw [hverify, hcheckpoint, hon]
  intro hset
  rcases h.asked hset with hin | hin
  · obtain ⟨hash, hmem⟩ := mem_keys.mp hin
    exact .inl (mem_keys.mpr ⟨hash, habs.kept _ hmem⟩)
  · exact .inr hin

lemma Unmissed.take (h : s.Unmissed) (header : Header) : (s.take header).Unmissed := by
  constructor
  · intro hset
    by_cases hnumber : header.number = s.checkpoint.number
    · have hset : s.verifyHash = true := hset
      exact .inr (by simp [ChainSampler.take, hset, hnumber])
    rcases h.asked hset with hin | hin
    · exact .inl (mem_keys_erase.mpr ⟨Ne.symm hnumber, hin⟩)
    · exact .inr (by simp [ChainSampler.take, hin])
  intro x hx
  by_cases hnumber : x = header.number
  · exact .inr (mem_keys_insert.mpr (.inl hnumber))
  rcases h.covered x hx with hin | hin
  · exact .inl (mem_keys_erase.mpr ⟨hnumber, hin⟩)
  · exact .inr (mem_keys_insert.mpr (.inr hin))

end Answers

end ChainSampler

open ChainSampler

/-! ## The gate -/

namespace SamplingGate

def new (checkpoint : DifficultyCheckpoint) (claimed : U256) (head divisor : UInt64)
  (minDifficulty : U256) (skeletonSpan : UInt64) (defence : CheckpointDefence)
  (rng : Nat → UInt64) : SamplingGate where
  sampler := .new checkpoint head divisor minDifficulty defence.verifyHash rng
  claimed := claimed
  checkpointNumber := checkpoint.number
  head := head
  skeletonSpan := max skeletonSpan 1
  nextSkeleton := checkpoint.number
  skeletonsOutstanding := 0
  boundWork := defence.boundWork
  learned := []
  started := false

/-- At most as many turns as requests may be outstanding. -/
def askSkeletons : Nat → SamplingGate → SamplingGate × List GateAction
  | 0, g => (g, [])
  | turns + 1, g =>
    if g.nextSkeleton < g.head then
      let asked := askSkeletons turns
        { g with
          nextSkeleton := saturatingAdd64 g.nextSkeleton g.skeletonSpan
          skeletonsOutstanding := g.skeletonsOutstanding + 1 }
      (asked.1, .requestSkeleton g.nextSkeleton :: asked.2)
    else (g, [])

variable (g : SamplingGate)

/-- Identifiers in hand become requests. -/
def absorbLearned : SamplingGate :=
  if g.learned.isEmpty then { g with started := true }
  else
    { g with started := true, learned := [], sampler := g.sampler.absorbSkeleton g.learned }

/-- The requests to send: the headers wanted and at most four skeletons. -/
def poll : SamplingGate × List GateAction :=
  let g := g.absorbLearned
  let wanted := g.sampler.outstanding.map fun e => GateAction.requestHeader e.1 e.2
  let asked := askSkeletons (4 - g.skeletonsOutstanding) g
  (asked.1, wanted ++ asked.2)

/-- One identifier of a skeleton. -/
def noteIdentifier (id : UInt64 × B256) : SamplingGate :=
  if g.checkpointNumber < id.1 ∧ id.1 ≤ g.head then
    { g with learned := insert (· ≤ ·) id.1 id.2 g.learned }
  else g

/-- A skeleton answers one request and names blocks. -/
def onSkeleton (identifiers : List (UInt64 × B256)) : SamplingGate :=
  identifiers.foldl noteIdentifier { g with skeletonsOutstanding := g.skeletonsOutstanding - 1 }

/-- The verdict; with `bound_work` on the checkpoint block is not asked about again. -/
def outcome : GateOutcome :=
  if g.sampler.tooManyMissing then .rejected (.unsubstantiated g.sampler.missing)
  else
    let covered := decide (g.head ≤ g.nextSkeleton) && decide (g.skeletonsOutstanding = 0)
    if !g.started || !covered || !g.sampler.isComplete || !g.learned.isEmpty then .pending
    else if !g.boundWork then
      if g.sampler.onCheckpointChain then .passed U256.max
      else .rejected (.unsubstantiated (max g.sampler.missing 1))
    else if g.claimed > g.sampler.ceiling then
      .rejected (.aboveCeiling g.claimed g.sampler.ceiling)
    else .passed g.sampler.ceiling

section Events

variable (current : ActivationHeights) (verifier : HeaderVerifier)

/-- The gate after an event. -/
def step (g : SamplingGate) : GateEvent → SamplingGate
  | .poll => g.poll.1
  | .skeleton identifiers => g.onSkeleton identifiers
  | .header header => { g with sampler := g.sampler.offer current verifier header }
  | .giveUp number => { g with sampler := g.sampler.giveUpOn number }

def Step (g : SamplingGate) (e : GateEvent) (g' : SamplingGate) : Prop :=
  g' = g.step current verifier e

/-- The peer has sent this header, and it passes its own rules. -/
def Served (hist : List (SamplingGate × GateEvent)) (header : Header) : Prop :=
  (∃ g, (g, .header header) ∈ hist) ∧ verifier.verify header none = .ok ()

/-- **The property**: what the settings of a gate promise. -/
structure Substantiated (hist : List (SamplingGate × GateEvent)) (g : SamplingGate) : Prop where
  onChain : g.sampler.verifyHash = true → ∃ header, Served verifier hist header ∧
    header.number = g.sampler.checkpoint.number ∧
    header.hash current = g.sampler.checkpoint.hash
  bounded : g.boundWork = true → g.claimed ≤ g.sampler.ceiling ∧
    randomSamples ≤ (g.sampler.collected.filter
      fun e => g.sampler.checkpoint.number < e.1).length ∧
    ∀ e ∈ g.sampler.collected, ∃ header, Served verifier hist header ∧ header.number = e.1 ∧
      (header.difficulty, header.uncleCount) = e.2

/-- **The condition on a step**: a block that was asked for is answered by that block, valid by
its own rules, and not given up. -/
def Answered (g : SamplingGate) : GateEvent → Prop
  | .header header => ∀ expected, get? header.number g.sampler.outstanding = some expected →
      header.hash current = expected ∧ verifier.verify header none = .ok ()
  | .giveUp number => number ∉ OrdMap.keys g.sampler.outstanding
  | _ => True

def namedIn : GateEvent → List UInt64
  | .skeleton identifiers => identifiers.map Prod.fst
  | _ => []

/-- The heights of the window that the skeletons of a run have named. -/
def windowNamed (checkpoint head : UInt64) (hist : List (SamplingGate × GateEvent)) :
  Finset UInt64 :=
  ((hist.flatMap fun q => namedIn q.2).filter fun x => checkpoint < x ∧ x ≤ head).toFinset

variable {e : GateEvent}

lemma mem_windowNamed_cons {checkpoint head x : UInt64} {g : SamplingGate}
  {hist : List (SamplingGate × GateEvent)} : x ∈ windowNamed checkpoint head ((g, e) :: hist) ↔
    (x ∈ namedIn e ∧ checkpoint < x ∧ x ≤ head) ∨ x ∈ windowNamed checkpoint head hist := by
  simp only [windowNamed, flatMap_cons, List.mem_toFinset, mem_filter, mem_append,
    decide_eq_true_eq]
  tauto

variable {current verifier} {checkpoint : DifficultyCheckpoint} {head : UInt64}
  {defence : CheckpointDefence} {hist : List (SamplingGate × GateEvent)} {g : SamplingGate}

lemma askSkeletons_rest : ∀ (turns : Nat) (g : SamplingGate),
  (askSkeletons turns g).1.sampler = g.sampler ∧ (askSkeletons turns g).1.learned = g.learned ∧
    (askSkeletons turns g).1.checkpointNumber = g.checkpointNumber ∧
    (askSkeletons turns g).1.head = g.head ∧ (askSkeletons turns g).1.boundWork = g.boundWork
  | 0, _ => ⟨rfl, rfl, rfl, rfl, rfl⟩
  | turns + 1, g => by
    unfold askSkeletons
    split
    · exact askSkeletons_rest turns _
    · exact ⟨rfl, rfl, rfl, rfl, rfl⟩

lemma onSkeleton_spec (identifiers : List (UInt64 × B256)) : ∀ g : SamplingGate,
  (identifiers.foldl noteIdentifier g).sampler = g.sampler ∧
    (identifiers.foldl noteIdentifier g).checkpointNumber = g.checkpointNumber ∧
    (identifiers.foldl noteIdentifier g).head = g.head ∧
    (identifiers.foldl noteIdentifier g).boundWork = g.boundWork ∧
    ∀ x, x ∈ OrdMap.keys (identifiers.foldl noteIdentifier g).learned ↔ x ∈ OrdMap.keys g.learned ∨
        (x ∈ identifiers.map Prod.fst ∧ g.checkpointNumber < x ∧ x ≤ g.head) := by
  induction identifiers with
  | nil => intro g; simp
  | cons id identifiers ih =>
    intro g
    obtain ⟨h1, h2, h3, h4, h5⟩ := ih (g.noteIdentifier id)
    rw [foldl_cons]
    by_cases hin : g.checkpointNumber < id.1 ∧ id.1 ≤ g.head
    · have hnote : g.noteIdentifier id =
          { g with learned := insert (· ≤ ·) id.1 id.2 g.learned } := by
        rw [noteIdentifier, if_pos hin]
      rw [hnote] at h1 h2 h3 h4 h5 ⊢
      refine ⟨h1, h2, h3, h4, fun x => ?_⟩
      rw [h5, mem_keys_insert, map_cons, mem_cons]
      constructor
      · rintro ((rfl | hx) | ⟨hx, hrest⟩)
        · exact .inr ⟨.inl rfl, hin⟩
        · exact .inl hx
        · exact .inr ⟨.inr hx, hrest⟩
      rintro (hx | ⟨rfl | hx, hrest⟩)
      · exact .inl (.inr hx)
      · exact .inl (.inl rfl)
      · exact .inr ⟨hx, hrest⟩
    have hnote : g.noteIdentifier id = g := by rw [noteIdentifier, if_neg hin]
    rw [hnote] at h1 h2 h3 h4 h5 ⊢
    refine ⟨h1, h2, h3, h4, fun x => ?_⟩
    rw [h5, map_cons, mem_cons]
    constructor
    · rintro (hx | ⟨hx, hrest⟩)
      · exact .inl hx
      · exact .inr ⟨.inr hx, hrest⟩
    rintro (hx | ⟨rfl | hx, hrest⟩)
    · exact .inl hx
    · exact absurd hrest hin
    · exact .inr ⟨hx, hrest⟩

lemma poll_spec (g : SamplingGate) :
  g.poll.1.learned = [] ∧ g.poll.1.checkpointNumber = g.checkpointNumber ∧
    g.poll.1.head = g.head ∧ g.poll.1.boundWork = g.boundWork ∧
    (g.learned = [] ∧ g.poll.1.sampler = g.sampler ∨
      g.poll.1.sampler = g.sampler.absorbSkeleton g.learned) := by
  obtain ⟨h1, h2, h3, h4, h5⟩ :=
    askSkeletons_rest (4 - g.absorbLearned.skeletonsOutstanding) g.absorbLearned
  unfold poll
  dsimp only
  rw [h1, h2, h3, h4, h5]
  unfold absorbLearned
  split
  · rename_i hempty
    have hnone : g.learned = [] := List.isEmpty_iff.mp hempty
    exact ⟨hnone, rfl, rfl, rfl, .inl ⟨hnone, rfl⟩⟩
  · exact ⟨rfl, rfl, rfl, rfl, .inr rfl⟩

/-! ### The invariant -/

/-- The invariant of a run that meets the condition. -/
structure GateInv (current : ActivationHeights) (verifier : HeaderVerifier)
  (checkpoint : DifficultyCheckpoint) (head : UInt64) (defence : CheckpointDefence)
  (hist : List (SamplingGate × GateEvent)) (g : SamplingGate) : Prop where
  settings : g.checkpointNumber = checkpoint.number ∧ g.head = head ∧
    g.boundWork = defence.boundWork ∧ g.sampler.checkpoint = checkpoint ∧
    g.sampler.verifyHash = defence.verifyHash
  founded : g.sampler.Founded current (Served verifier hist)
  named : ∀ x ∈ windowNamed checkpoint.number head hist, x ∈ OrdMap.keys g.sampler.known ∨
    x ∈ OrdMap.keys g.learned
  unmissed : (∀ q ∈ hist, Answered current verifier q.1 q.2) → g.sampler.Unmissed

lemma Served.cons {header : Header} (q : SamplingGate × GateEvent)
  (h : Served verifier hist header) : Served verifier (q :: hist) header := by
  obtain ⟨⟨g, hmem⟩, hverify⟩ := h
  exact ⟨⟨g, mem_cons_of_mem _ hmem⟩, hverify⟩

lemma mem_windowNamed_range {checkpoint head x : UInt64}
  (h : x ∈ windowNamed checkpoint head hist) : checkpoint < x ∧ x ≤ head := by
  simp only [windowNamed, List.mem_toFinset, mem_filter, decide_eq_true_eq] at h
  exact h.2

section

variable (h : GateInv current verifier checkpoint head defence hist g)

include h

lemma GateInv.poll :
  GateInv current verifier checkpoint head defence ((g, .poll) :: hist) g.poll.1 := by
  obtain ⟨hlearned, hnumber, hhead, hbound, hsampler⟩ := poll_spec g
  obtain ⟨hsn, hsh, hsb, hsc, hsv⟩ := h.settings
  have hmono := h.founded.mono fun header => Served.cons (g, .poll)
  have hunmissed := fun hall : ∀ q ∈ (g, GateEvent.poll) :: hist,
      Answered current verifier q.1 q.2 => h.unmissed fun q hq => hall q (mem_cons_of_mem _ hq)
  have hnamed : ∀ x ∈ windowNamed checkpoint.number head ((g, .poll) :: hist),
      checkpoint.number < x ∧ (x ∈ OrdMap.keys g.sampler.known ∨ x ∈ OrdMap.keys g.learned) := by
    intro x hx
    rcases mem_windowNamed_cons.mp hx with ⟨hx, -⟩ | hx
    · simp [namedIn] at hx
    · exact ⟨(mem_windowNamed_range hx).1, h.named x hx⟩
  rcases hsampler with ⟨hnone, hsame⟩ | habsorb
  · refine ⟨?_, ?_, ?_, ?_⟩
    · rw [hnumber, hhead, hbound, hsame]; exact h.settings
    · rw [hsame]; exact hmono
    · rw [hsame, hlearned, ← hnone]; exact fun x hx => (hnamed x hx).2
    · rw [hsame]; exact hunmissed
  have habs := h.founded.pooled.absorb g.learned
  obtain ⟨-, hcheckpoint, -, hverify, -⟩ := habs.rest
  refine ⟨?_, ?_, ?_, ?_⟩
  · rw [hnumber, hhead, hbound, habsorb, hcheckpoint, hverify]; exact h.settings
  · rw [habsorb]; exact hmono.absorb _
  · rw [habsorb]
    intro x hx
    obtain ⟨habove, hx⟩ := hnamed x hx
    refine .inl ((habs.known x).mpr ?_)
    rcases hx with hx | hx
    · exact .inl hx
    -- a height that was answered already was known before
    by_cases hdone : x ∈ OrdMap.keys g.sampler.collected
    · rcases h.founded.collectedKnown x hdone with heq | hknown
      · rw [heq, hsc] at habove
        exact absurd habove (UInt64.lt_irrefl _)
      · exact .inl hknown
    rw [hsc]
    exact .inr ⟨mem_namedBy.mpr ⟨hx, habove⟩, hdone⟩
  rw [habsorb]
  exact fun hall => (hunmissed hall).absorb h.founded.pooled _

lemma GateInv.skeleton (identifiers : List (UInt64 × B256)) :
  GateInv current verifier checkpoint head defence ((g, .skeleton identifiers) :: hist)
    (g.onSkeleton identifiers) := by
  obtain ⟨hsampler, hnumber, hhead, hbound, hlearned⟩ := onSkeleton_spec identifiers
    { g with skeletonsOutstanding := g.skeletonsOutstanding - 1 }
  obtain ⟨hsn, hsh, -⟩ := h.settings
  refine ⟨?_, ?_, ?_, ?_⟩
  · rw [onSkeleton, hnumber, hhead, hbound, hsampler]; exact h.settings
  · rw [onSkeleton, hsampler]
    exact h.founded.mono fun header => Served.cons _
  · rw [onSkeleton, hsampler]
    intro x hx
    rw [hlearned, hsn, hsh]
    rcases mem_windowNamed_cons.mp hx with hx | hx
    · exact .inr (.inr hx)
    · exact (h.named x hx).imp_right .inl
  rw [onSkeleton, hsampler]
  exact fun hall => h.unmissed fun q hq => hall q (mem_cons_of_mem _ hq)

end

lemma GateInv.named_of_same {s : ChainSampler}
  (h : GateInv current verifier checkpoint head defence hist g) (hnone : namedIn e = [])
  (hknown : s.known = g.sampler.known) : ∀ x ∈ windowNamed checkpoint.number head ((g, e) :: hist),
    x ∈ OrdMap.keys s.known ∨ x ∈ OrdMap.keys g.learned := by
  intro x hx
  rw [hknown]
  rcases mem_windowNamed_cons.mp hx with ⟨hx, -⟩ | hx
  · rw [hnone] at hx
    simp at hx
  · exact h.named x hx

lemma GateInv.header (h : GateInv current verifier checkpoint head defence hist g)
  (header : Header) : GateInv current verifier checkpoint head defence ((g, .header header) :: hist)
    { g with sampler := g.sampler.offer current verifier header } := by
  have hfounded := (h.founded.mono fun header' => Served.cons (g, .header header)).offer
    fun hverify => (⟨⟨g, mem_cons_self⟩, hverify⟩ :
      Served verifier ((g, .header header) :: hist) header)
  have hcases := offer_cases current verifier g.sampler header
  refine ⟨?_, hfounded, h.named_of_same rfl ?_, ?_⟩
  · rcases hcases with ⟨-, heq⟩ | ⟨_, -, ⟨heq, -⟩ | ⟨heq, -⟩⟩ <;> rw [heq] <;> exact h.settings
  · rcases hcases with ⟨-, heq⟩ | ⟨_, -, ⟨heq, -⟩ | ⟨heq, -⟩⟩ <;> rw [heq] <;> rfl
  intro hall
  have hbefore := h.unmissed fun q hq => hall q (mem_cons_of_mem _ hq)
  have hanswered := hall _ mem_cons_self
  rcases hcases with ⟨-, heq⟩ | ⟨expected, hasked, ⟨heq, -⟩ | ⟨-, hbad⟩⟩
  · show (g.sampler.offer current verifier header).Unmissed
    rwa [heq]
  · show (g.sampler.offer current verifier header).Unmissed
    rw [heq]
    exact hbefore.take header
  · exact absurd (hanswered expected hasked) hbad

section

variable (h : GateInv current verifier checkpoint head defence hist g)

include h

lemma GateInv.giveUp (number : UInt64) :
  GateInv current verifier checkpoint head defence ((g, .giveUp number) :: hist)
    { g with sampler := g.sampler.giveUpOn number } := by
  have hfounded := (h.founded.mono fun header => Served.cons (g, .giveUp number)).giveUpOn number
  refine ⟨?_, hfounded, h.named_of_same rfl ?_, ?_⟩
  · show _ ∧ _ ∧ _ ∧ (g.sampler.giveUpOn number).checkpoint = _ ∧
      (g.sampler.giveUpOn number).verifyHash = _
    unfold giveUpOn
    split <;> exact h.settings
  · unfold giveUpOn
    split <;> rfl
  intro hall
  have hbefore := h.unmissed fun q hq => hall q (mem_cons_of_mem _ hq)
  have hnot : number ∉ OrdMap.keys g.sampler.outstanding := hall _ mem_cons_self
  show (g.sampler.giveUpOn number).Unmissed
  rwa [giveUpOn, if_neg (fun hin => hnot (get?_isSome.mp hin))]

/-- **One event.** -/
theorem GateInv.step (e : GateEvent) :
  GateInv current verifier checkpoint head defence ((g, e) :: hist)
    (g.step current verifier e) := by
  cases e with
  | poll => exact h.poll
  | skeleton identifiers => exact h.skeleton identifiers
  | header header => exact h.header header
  | giveUp number => exact h.giveUp number

end

lemma outcome_passed {ceiling : U256} (h : g.outcome = .passed ceiling) :
  g.sampler.outstanding = [] ∧ g.learned = [] ∧
    (g.boundWork = false → g.sampler.onCheckpointChain = true) ∧
    (g.boundWork = true → g.claimed ≤ g.sampler.ceiling) := by
  unfold outcome at h
  dsimp only at h
  split at h
  · simp at h
  split at h
  · simp at h
  rename_i hready
  simp only [Bool.or_eq_true, Bool.not_eq_true', not_or, Bool.not_eq_false,
    isComplete, List.isEmpty_iff] at hready
  obtain ⟨⟨-, hcomplete⟩, hlearned⟩ := hready
  split at h
  · rename_i hunbound
    have hunbound : g.boundWork = false := by simpa using hunbound
    split at h
    · rename_i hon
      exact ⟨hcomplete, hlearned, fun _ => hon, fun hbound => by simp [hunbound] at hbound⟩
    · simp at h
  rename_i hbound
  have hbound : g.boundWork = true := by simpa using hbound
  split at h
  · simp at h
  rename_i hclaim
  exact ⟨hcomplete, hlearned, fun hun => by simp [hbound] at hun,
    fun _ => BitVec.not_lt.mp hclaim⟩

lemma gateInv_new (claimed : U256) (divisor : UInt64) (minDifficulty : U256)
  (skeletonSpan : UInt64) (rng : Nat → UInt64) : GateInv current verifier checkpoint head defence []
    (.new checkpoint claimed head divisor minDifficulty skeletonSpan defence rng) := by
  have hasked : ∀ e ∈ (ChainSampler.new checkpoint head divisor minDifficulty defence.verifyHash
      rng).outstanding, e = (checkpoint.number, checkpoint.hash) := by
    intro e he
    unfold ChainSampler.new at he
    dsimp only at he
    split at he
    · exact mem_singleton.mp he
    · simp at he
  refine ⟨⟨rfl, rfl, rfl, rfl, rfl⟩, ?_, by simp [windowNamed], fun _ => ⟨?_, by
    simp [new, ChainSampler.new]⟩⟩
  · constructor
    case pooled => exact ⟨List.Pairwise.nil, nodup_nil, nodup_nil, fun x hx => hx,
      Nat.zero_le _⟩
    case full => rfl
    case above => simp [new, ChainSampler.new, OrdMap.keys]
    case collectedOnce => exact nodup_nil
    case collectedKnown => simp [new, ChainSampler.new, OrdMap.keys]
    case askedKnown =>
      intro x hx
      obtain ⟨hash, hmem⟩ := mem_keys.mp hx
      exact .inl (Prod.mk.inj (hasked _ hmem)).1
    case pinned => exact fun hash hmem => (Prod.mk.inj (hasked _ hmem)).2
    case onChain =>
      intro hon hset
      have hon : (!defence.verifyHash) = true := hon
      have hset : defence.verifyHash = true := hset
      rw [hset] at hon
      simp at hon
    case collected => simp [new, ChainSampler.new]
  intro hset
  have hset : defence.verifyHash = true := hset
  refine .inl ?_
  show checkpoint.number ∈ OrdMap.keys (if defence.verifyHash then _ else _)
  rw [if_pos hset]
  exact mem_singleton.mpr rfl

lemma gateInv_of_run {claimed : U256} {divisor : UInt64} {minDifficulty : U256}
  {skeletonSpan : UInt64} {rng : Nat → UInt64}
  (hrun : Run (Step current verifier) (.new checkpoint claimed head divisor minDifficulty
    skeletonSpan defence rng) hist g) :
  GateInv current verifier checkpoint head defence hist g := by
  refine @Run.invariant _ _ _ _ _ _ (fun _ _ => True) (fun hist g =>
    GateInv current verifier checkpoint head defence hist g)
    (gateInv_new claimed divisor minDifficulty skeletonSpan rng) ?_ hrun (fun _ _ => trivial)
  intro hist g e g' h _ hstep
  rw [hstep]
  exact h.step e

lemma GateInv.enough (h : GateInv current verifier checkpoint head defence hist g)
  (hout : g.sampler.outstanding = []) (hlearned : g.learned = [])
  (hall : ∀ q ∈ hist, Answered current verifier q.1 q.2)
  (hnamed : randomSamples ≤ (windowNamed checkpoint.number head hist).card) : randomSamples ≤
    (g.sampler.collected.filter fun e => g.sampler.checkpoint.number < e.1).length := by
  have hsub : windowNamed checkpoint.number head hist ⊆ (OrdMap.keys g.sampler.known).toFinset := by
    intro x hx
    rcases h.named x hx with hin | hin
    · exact List.mem_toFinset.mpr hin
    rw [hlearned] at hin
    simp [OrdMap.keys] at hin
  have hknown := Finset.card_le_card hsub
  rw [toFinset_card_of_nodup h.founded.pooled.nodup] at hknown
  have hfull : g.sampler.drawn.length = randomSamples := by
    rw [h.founded.full]
    omega
  -- every drawn height lies above the checkpoint and has been answered
  have hdrawn : g.sampler.drawn ⊆
      OrdMap.keys (g.sampler.collected.filter fun e => g.sampler.checkpoint.number < e.1) := by
    intro x hx
    have habove := h.founded.above x (h.founded.pooled.drawnKnown hx)
    rcases (h.unmissed hall).covered x hx with hin | hin
    · rw [hout] at hin
      simp [OrdMap.keys] at hin
    obtain ⟨sample, hmem⟩ := mem_keys.mp hin
    exact mem_keys.mpr ⟨sample, mem_filter.mpr ⟨hmem, by simpa using habove⟩⟩
  calc randomSamples = g.sampler.drawn.length := hfull.symm
    _ ≤ (OrdMap.keys (g.sampler.collected.filter
          fun e => g.sampler.checkpoint.number < e.1)).length :=
        (h.founded.pooled.drawnNodup.subperm hdrawn).length_le
    _ = _ := length_map _

/-- **A passed gate says what its settings promise**, in every run in which, if work is bounded,
every block asked for is answered by that block, none is given up, and the skeletons name at least
`RANDOM_SAMPLES` heights of the window. -/
theorem substantiated_of_run {claimed : U256} {divisor : UInt64} {minDifficulty : U256}
  {skeletonSpan : UInt64} {rng : Nat → UInt64} {ceiling : U256}
  (hrun : Run (Step current verifier) (.new checkpoint claimed head divisor minDifficulty
    skeletonSpan defence rng) hist g)
  (hanswered : defence.boundWork = true → (∀ q ∈ hist, Answered current verifier q.1 q.2) ∧
    randomSamples ≤ (windowNamed checkpoint.number head hist).card)
  (hpassed : g.outcome = .passed ceiling) : Substantiated current verifier hist g := by
  have hinv := gateInv_of_run hrun
  obtain ⟨hout, hlearned, hunbound, hclaim⟩ := outcome_passed hpassed
  obtain ⟨-, -, hbound, -, -⟩ := hinv.settings
  constructor
  · intro hset
    refine hinv.founded.onChain ?_ hset
    cases hb : g.boundWork with
    | false => exact hunbound hb
    | true =>
      obtain ⟨hall, -⟩ := hanswered (hbound ▸ hb)
      rcases (hinv.unmissed hall).asked hset with hin | hon
      · rw [hout] at hin
        simp [OrdMap.keys] at hin
      · exact hon
  intro hb
  obtain ⟨hall, hnamed⟩ := hanswered (hbound ▸ hb)
  exact ⟨hclaim hb, hinv.enough hout hlearned hall hnamed, hinv.founded.collected⟩

end Events

/-- The run of a list of events. -/
def replay (current : ActivationHeights) (verifier : HeaderVerifier) :
  List GateEvent → List (SamplingGate × GateEvent) → SamplingGate →
    List (SamplingGate × GateEvent) × SamplingGate
  | [], hist, g => (hist, g)
  | e :: events, hist, g =>
    replay current verifier events ((g, e) :: hist) (g.step current verifier e)

lemma run_replay {current : ActivationHeights} {verifier : HeaderVerifier} {g₀ : SamplingGate} :
  ∀ (events : List GateEvent) {hist : List (SamplingGate × GateEvent)} {g : SamplingGate},
    Run (Step current verifier) g₀ hist g →
      Run (Step current verifier) g₀ (replay current verifier events hist g).1
        (replay current verifier events hist g).2
  | [], _, _, hrun => hrun
  | _ :: events, _, _, hrun => run_replay events (hrun.step rfl)

lemma replay_eq (current : ActivationHeights) (verifier : HeaderVerifier) :
  ∀ (events : List GateEvent) (hist : List (SamplingGate × GateEvent)) (g : SamplingGate),
    (replay current verifier events hist g).1.map Prod.snd =
        events.reverse ++ hist.map Prod.snd ∧
      (replay current verifier events hist g).2 = events.foldl (step current verifier) g
  | [], _, _ => ⟨rfl, rfl⟩
  | e :: events, hist, g => by
    obtain ⟨hevents, hgate⟩ := replay_eq current verifier events ((g, e) :: hist)
      (g.step current verifier e)
    exact ⟨by rw [replay, hevents]; simp, hgate⟩

/-! ### A peer that answers everything

Its chain is `block`, by height; what the gate holds of identifiers is of the heights `ns`. -/

section Honest

variable (current : ActivationHeights) (block : UInt64 → Header) (ns : List UInt64)

/-- Identifiers of blocks of the chain. -/
def FromChain (ids : List (UInt64 × B256)) : Prop :=
  ∀ e ∈ ids, e.1 ∈ ns ∧ e.2 = (block e.1).hash current

/-- An event of a peer that serves this chain and answers everything. -/
def HonestEvent : GateEvent → Prop
  | .poll => True
  | .skeleton identifiers => FromChain current block ns identifiers
  | .header header => header = block header.number
  | .giveUp _ => False

/-- A gate that has only heard of this chain. -/
structure HonestGate (g : SamplingGate) : Prop where
  outstanding : FromChain current block ns g.sampler.outstanding
  known : FromChain current block ns g.sampler.known
  learned : FromChain current block ns g.learned
  missing : g.sampler.missing = 0
  pooled : g.sampler.Pooled

variable {current block ns} {verifier : HeaderVerifier} {g : SamplingGate}

theorem fromChain_insert {ids : List (UInt64 × B256)} (h : FromChain current block ns ids)
    {id : UInt64 × B256} (hid : id.1 ∈ ns ∧ id.2 = (block id.1).hash current) :
    FromChain current block ns (insert (· ≤ ·) id.1 id.2 ids) := by
  rintro ⟨x, hash⟩ he
  rcases OrdMap.mem_insert.mp he with ⟨rfl, rfl⟩ | ⟨-, he⟩
  · exact hid
  · exact h _ he

theorem foldl_learn_fromChain {ids : List (UInt64 × B256)} (hids : FromChain current block ns ids)
    {s : ChainSampler} (hs : FromChain current block ns s.known) :
    FromChain current block ns (ids.foldl learn s).known := by
  induction ids generalizing s with
  | nil => exact hs
  | cons id ids ih =>
    refine ih (fun e he => hids e (mem_cons_of_mem _ he)) ?_
    unfold learn
    split
    · exact hs
    · exact fromChain_insert hs (hids id mem_cons_self)

theorem reselect_known (s : ChainSampler) : s.reselect.known = s.known := by
  unfold reselect
  split
  · rfl
  · exact (foldl_request_sameDraw _ _).1.trans (topUp_known s)

theorem foldl_noteIdentifier_eq (ids : List (UInt64 × B256)) (g : SamplingGate)
    (hids : FromChain current block ns ids) (hg : FromChain current block ns g.learned) :
    ∃ learned, ids.foldl noteIdentifier g = { g with learned } ∧
      FromChain current block ns learned := by
  induction ids generalizing g with
  | nil => exact ⟨g.learned, rfl, hg⟩
  | cons id ids ih =>
    have hrest : FromChain current block ns ids := fun e he => hids e (mem_cons_of_mem _ he)
    rw [foldl_cons, noteIdentifier]
    split
    · exact ih _ hrest (fromChain_insert hg (hids id mem_cons_self))
    · exact ih g hrest hg

theorem HonestGate.poll (h : HonestGate current block ns g) :
    HonestGate current block ns g.poll.1 := by
  obtain ⟨hlearned, -, -, -, hsampler⟩ := poll_spec g
  have hnone : FromChain current block ns [] := fun e he => by cases he
  rcases hsampler with ⟨-, hsame⟩ | habsorb
  · exact ⟨hsame ▸ h.outstanding, hsame ▸ h.known, hlearned ▸ hnone, hsame ▸ h.missing,
      hsame ▸ h.pooled⟩
  have habsorbed := h.pooled.absorb g.learned
  have hknown : FromChain current block ns (g.sampler.absorbSkeleton g.learned).known := by
    rw [absorbSkeleton, reselect_known]
    exact foldl_learn_fromChain h.learned h.known
  rw [← habsorb] at habsorbed hknown
  refine ⟨fun e he => ?_, hknown, hlearned ▸ hnone, ?_, habsorbed.pooled⟩
  · rcases habsorbed.asked e he with he | he
    · exact h.outstanding e he
    · exact hknown e he
  · exact habsorbed.rest.2.2.1.trans h.missing

theorem HonestGate.header (h : HonestGate current block ns g)
    (hvalid : ∀ n, verifier.verify (block n) none = .ok ()) {header : Header}
    (hheader : header = block header.number) :
    Answered current verifier g (.header header) ∧
      HonestGate current block ns (g.step current verifier (.header header)) := by
  have hanswered : Answered current verifier g (.header header) := by
    intro expected hasked
    obtain ⟨-, hexpected⟩ := h.outstanding _ (mem_of_get? hasked)
    dsimp only at hexpected
    rw [hexpected, ← hheader]
    exact ⟨rfl, hheader ▸ hvalid header.number⟩
  refine ⟨hanswered, ?_⟩
  show HonestGate current block ns { g with sampler := g.sampler.offer current verifier header }
  rcases offer_cases current verifier g.sampler header with
    ⟨-, heq⟩ | ⟨expected, hasked, ⟨heq, -⟩ | ⟨-, hbad⟩⟩
  · rw [heq]
    exact h
  · rw [heq]
    exact
      { outstanding := fun e he => h.outstanding e (mem_filter.mp he).1
        known := h.known
        learned := h.learned
        missing := h.missing
        pooled := ⟨h.pooled.sorted, h.pooled.nodup, h.pooled.drawnNodup, h.pooled.drawnKnown,
          h.pooled.atMost⟩ }
  · exact absurd (hanswered expected hasked) hbad

/-- **An honest peer's answers** meet the condition in every run. -/
theorem honest_of_run {g₀ : SamplingGate} {hist : List (SamplingGate × GateEvent)}
    (hvalid : ∀ n, verifier.verify (block n) none = .ok ()) (h₀ : HonestGate current block ns g₀)
    (hrun : Run (Step current verifier) g₀ hist g)
    (hevents : ∀ q ∈ hist, HonestEvent current block ns q.2) :
    HonestGate current block ns g ∧ ∀ q ∈ hist, Answered current verifier q.1 q.2 := by
  induction hrun with
  | init => exact ⟨h₀, by simp⟩
  | @step hist g g' e _ hstep ih =>
    obtain ⟨hg, hall⟩ := ih fun q hq => hevents q (mem_cons_of_mem _ hq)
    obtain rfl : g' = g.step current verifier e := hstep
    have hevent := hevents (g, e) mem_cons_self
    suffices hone : Answered current verifier g e ∧
        HonestGate current block ns (g.step current verifier e) by
      refine ⟨hone.2, fun q hq => ?_⟩
      rcases mem_cons.mp hq with rfl | hq
      · exact hone.1
      · exact hall q hq
    cases e with
    | poll => exact ⟨trivial, hg.poll⟩
    | skeleton identifiers =>
      obtain ⟨learned, heq, hlearned⟩ := foldl_noteIdentifier_eq identifiers
        { g with skeletonsOutstanding := g.skeletonsOutstanding - 1 } hevent hg.learned
      refine ⟨trivial, ?_⟩
      show HonestGate current block ns (g.onSkeleton identifiers)
      rw [onSkeleton, heq]
      exact ⟨hg.outstanding, hg.known, hlearned, hg.missing, hg.pooled⟩
    | header header => exact hg.header hvalid hevent
    | giveUp number => exact hevent.elim

/-- Once the skeletons asked for cover the window, a poll only takes in what has been learned. -/
theorem poll_of_covered (h : g.head ≤ g.nextSkeleton) :
    ∃ sampler, g.poll.1 = { g with sampler, learned := [], started := true } := by
  have habsorb : ∃ sampler,
      g.absorbLearned = { g with sampler, learned := [], started := true } := by
    unfold absorbLearned
    split
    · rename_i hempty
      exact ⟨g.sampler, by rw [← List.isEmpty_iff.mp hempty]⟩
    · exact ⟨_, rfl⟩
  obtain ⟨sampler, heq⟩ := habsorb
  refine ⟨sampler, ?_⟩
  have hdone (turns : Nat) (g : SamplingGate) (h : g.head ≤ g.nextSkeleton) :
      (askSkeletons turns g).1 = g := by
    cases turns with
    | zero => rfl
    | succ turns => rw [askSkeletons, if_neg (UInt64.not_lt.mpr h)]
  have hcovered : g.absorbLearned.head ≤ g.absorbLearned.nextSkeleton := by
    rw [heq]
    exact h
  unfold poll
  dsimp only
  rw [hdone _ _ hcovered, heq]

/-- The headers of a list of heights have come: none of these heights is outstanding, and but for
the sampler the gate is as before. -/
theorem foldl_header (ms : List UInt64) (hnumber : ∀ n, (block n).number = n) (g : SamplingGate) :
    ∃ sampler, (ms.map fun n => GateEvent.header (block n)).foldl (step current verifier) g =
        { g with sampler } ∧
      ∀ e ∈ sampler.outstanding, e ∈ g.sampler.outstanding ∧ e.1 ∉ ms := by
  induction ms generalizing g with
  | nil => exact ⟨g.sampler, rfl, fun e he => ⟨he, not_mem_nil⟩⟩
  | cons n ms ih =>
    obtain ⟨sampler, heq, hout⟩ := ih (g.step current verifier (.header (block n)))
    refine ⟨sampler, heq, fun e he => ?_⟩
    obtain ⟨hmem, hnot⟩ := hout e he
    have hbefore : e ∈ g.sampler.outstanding ∧ e.1 ≠ n := by
      rcases offer_cases current verifier g.sampler (block n) with
        ⟨hnone, hsame⟩ | ⟨_, -, ⟨hsame, -⟩ | ⟨hsame, -⟩⟩
      · have hmem : e ∈ (g.sampler.offer current verifier (block n)).outstanding := hmem
        rw [hsame] at hmem
        refine ⟨hmem, fun heq => ?_⟩
        have hin : (get? (block n).number g.sampler.outstanding).isSome := by
          rw [hnumber, ← heq]
          exact get?_isSome.mpr (mem_keys.mpr ⟨e.2, hmem⟩)
        rw [hnone] at hin
        cases hin
      all_goals
        have hmem : e ∈ (g.sampler.offer current verifier (block n)).outstanding := hmem
        rw [hsame] at hmem
        obtain ⟨hmem, hne⟩ := mem_filter.mp hmem
        exact ⟨hmem, by simpa [hnumber] using hne⟩
    refine ⟨hbefore.1, fun hin => ?_⟩
    rcases mem_cons.mp hin with heq | hin
    · exact hbefore.2 heq
    · exact hnot hin

end Honest

end SamplingGate

open SamplingGate

/-! ## Runs on regtest -/

namespace GateExample

def checkpoint : DifficultyCheckpoint := ⟨1, RegtestChain.childHash, 100, 1⟩

def rules : HeaderVerifier := .defaultRsk .regtest none

def gate (defence : CheckpointDefence) : SamplingGate :=
  .new checkpoint 100 2 400 1 1 defence fun _ => 0

def after (defence : CheckpointDefence) (events : List GateEvent) :
  List (SamplingGate × GateEvent) × SamplingGate :=
  replay .regtest rules events [] (gate defence)

/-! ### A window of 340 blocks, all of them answered -/

def blockAt (n : UInt64) : Header := { Header.blank with number := n }

def identifier (n : UInt64) : UInt64 × B256 := (n, (blockAt n).hash .regtest)

/-- The heights above the checkpoint. -/
def window : List UInt64 := (List.range 340).map fun i => .ofNat (i + 2)

/-- Rules that pass every header. -/
def lenient : HeaderVerifier := ⟨[], []⟩

def pinned : DifficultyCheckpoint := ⟨1, (blockAt 1).hash .regtest, 100, 1⟩

/-- Both settings are on, and one skeleton covers the window. -/
def wideGate : SamplingGate := .new pinned 100 341 400 1 400 ⟨true, true⟩ fun _ => 0

def answers : List GateEvent := .poll :: .skeleton (window.map identifier) :: .poll ::
  (1 :: window).map fun n => .header (blockAt n)

def answered : List (SamplingGate × GateEvent) × SamplingGate :=
  replay .regtest lenient answers [] wideGate

theorem window_nodup : window.Nodup := by
  refine List.Nodup.map_on (fun i hi j hj hij => ?_) List.nodup_range
  have hi := List.mem_range.mp hi
  have hj := List.mem_range.mp hj
  have hnat := congrArg UInt64.toNat hij
  rw [UInt64.toNat_ofNat_of_lt' (by rw [UInt64.size]; omega),
    UInt64.toNat_ofNat_of_lt' (by rw [UInt64.size]; omega)] at hnat
  omega

theorem mem_window {n : UInt64} (hn : n ∈ window) : pinned.number < n ∧ n ≤ 341 := by
  obtain ⟨i, hi, rfl⟩ := List.mem_map.mp hn
  have hi := List.mem_range.mp hi
  have hnat : (UInt64.ofNat (i + 2)).toNat = i + 2 :=
    UInt64.toNat_ofNat_of_lt' (by rw [UInt64.size]; omega)
  rw [UInt64.lt_iff_toNat_lt, UInt64.le_iff_toNat_le, hnat]
  exact ⟨show 1 < i + 2 by omega, show i + 2 ≤ 341 by omega⟩

theorem identifiers_fromChain :
    FromChain .regtest blockAt (1 :: window) (window.map identifier) := by
  intro e he
  obtain ⟨n, hn, rfl⟩ := List.mem_map.mp he
  exact ⟨mem_cons_of_mem _ hn, rfl⟩

theorem wideGate_honest : HonestGate .regtest blockAt (1 :: window) wideGate where
  outstanding := by
    intro e he
    have he : e ∈ [(pinned.number, pinned.hash)] := he
    rw [mem_singleton.mp he]
    exact ⟨mem_cons_self, by rw [pinned]⟩
  known := fun e he => by cases he
  learned := fun e he => by cases he
  missing := rfl
  pooled := ⟨List.Pairwise.nil, nodup_nil, nodup_nil, fun x hx => hx, Nat.zero_le _⟩

theorem answers_honest : ∀ q ∈ answered.1, HonestEvent .regtest blockAt (1 :: window) q.2 := by
  intro q hq
  have hmem : q.2 ∈ answered.1.map Prod.snd := mem_map_of_mem hq
  rw [answered, (replay_eq ..).1, map_nil, append_nil, mem_reverse] at hmem
  simp only [answers, mem_cons, List.mem_map] at hmem
  rcases hmem with h | h | h | ⟨n, -, h⟩
  · rw [h]
    trivial
  · rw [h]
    exact identifiers_fromChain
  · rw [h]
    trivial
  · rw [← h]
    rfl

/-- The skeleton names the whole window. -/
theorem answered_named : randomSamples ≤ (windowNamed pinned.number 341 answered.1).card := by
  have hlength : window.toFinset.card = randomSamples := by
    rw [toFinset_card_of_nodup window_nodup, window, length_map, length_range]
    rfl
  rw [← hlength]
  refine Finset.card_le_card fun n hn => ?_
  have hn := List.mem_toFinset.mp hn
  obtain ⟨q, hq, hskeleton⟩ : ∃ q ∈ answered.1, q.2 = .skeleton (window.map identifier) := by
    have hmem : GateEvent.skeleton (window.map identifier) ∈ answered.1.map Prod.snd := by
      rw [answered, (replay_eq ..).1, map_nil, append_nil, mem_reverse]
      exact mem_cons_of_mem _ mem_cons_self
    exact List.mem_map.mp hmem
  refine List.mem_toFinset.mpr (mem_filter.mpr ⟨mem_flatMap.mpr ⟨q, hq, ?_⟩,
    decide_eq_true (mem_window hn)⟩)
  rw [hskeleton]
  exact List.mem_map.mpr ⟨identifier n, mem_map_of_mem hn, rfl⟩

/-- The gate at the end: the window is covered, nothing is left to learn, and no height of the
window or of the checkpoint is outstanding. -/
theorem answered_gate : ∃ sampler,
    answered.2 = ⟨sampler, 100, 1, 341, 400, 401, 0, true, [], true⟩ ∧
      ∀ e ∈ sampler.outstanding, e.1 ∉ 1 :: window := by
  have hfirst : wideGate.step .regtest lenient .poll =
      ⟨wideGate.sampler, 100, 1, 341, 400, 401, 1, true, [], true⟩ := rfl
  obtain ⟨learned, hnoted, -⟩ := foldl_noteIdentifier_eq (window.map identifier)
    ⟨wideGate.sampler, 100, 1, 341, 400, 401, 0, true, [], true⟩ identifiers_fromChain
    fun e he => by cases he
  have hskeleton : step .regtest lenient
      ⟨wideGate.sampler, 100, 1, 341, 400, 401, 1, true, [], true⟩
      (.skeleton (window.map identifier)) =
        ⟨wideGate.sampler, 100, 1, 341, 400, 401, 0, true, learned, true⟩ := hnoted
  have hcovered : (341 : UInt64) ≤ 401 := by decide
  obtain ⟨sampler, habsorbed⟩ := @poll_of_covered
    ⟨wideGate.sampler, 100, 1, 341, 400, 401, 0, true, learned, true⟩ hcovered
  have hpoll : step .regtest lenient
      ⟨wideGate.sampler, 100, 1, 341, 400, 401, 0, true, learned, true⟩ .poll =
        ⟨sampler, 100, 1, 341, 400, 401, 0, true, [], true⟩ := habsorbed
  obtain ⟨sampler', hheaders, hout⟩ := @foldl_header .regtest blockAt lenient (1 :: window)
    (fun _ => rfl) ⟨sampler, 100, 1, 341, 400, 401, 0, true, [], true⟩
  refine ⟨sampler', ?_, fun e he => (hout e he).2⟩
  rw [answered, (replay_eq ..).2, answers, foldl_cons, foldl_cons, foldl_cons, hfirst, hskeleton,
    hpoll, hheaders]

/-- The peer serves the checkpoint block and all 340 blocks of the window, and the gate passes with
both settings on. -/
theorem substantiated_of_answered : answered.2.boundWork = true ∧
    answered.2.outcome = .passed answered.2.sampler.ceiling ∧
    SamplingGate.Substantiated .regtest lenient answered.1 answered.2 := by
  have hrun : Run (Step .regtest lenient) wideGate answered.1 answered.2 :=
    run_replay answers .init
  obtain ⟨hhonest, hanswered⟩ := honest_of_run (fun _ => rfl) wideGate_honest hrun answers_honest
  have hpassed : answered.2.outcome = .passed answered.2.sampler.ceiling := by
    obtain ⟨-, -, -, hcheckpoint, -⟩ := (gateInv_of_run hrun).settings
    obtain ⟨sampler, heq, hout⟩ := answered_gate
    rw [heq] at hhonest hcheckpoint ⊢
    have hempty : sampler.outstanding = [] :=
      eq_nil_iff_forall_not_mem.mpr fun e he => hout e he (hhonest.outstanding e he).1
    have hmissing : sampler.missing = 0 := hhonest.missing
    have hclaim : pinned.cumulativeDifficulty ≤ sampler.ceiling := by
      have hcheckpoint : sampler.checkpoint = pinned := hcheckpoint
      rw [ceiling, hcheckpoint]
      exact cumulativeDifficulty_le_ceilingFor ..
    simp [outcome, tooManyMissing, missingSamplesAllowed, isComplete, hempty, hmissing]
    exact hclaim
  have hbound : answered.2.boundWork = true := by
    obtain ⟨sampler, heq, -⟩ := answered_gate
    rw [heq]
  exact ⟨hbound, hpassed, substantiated_of_run hrun (fun _ => ⟨hanswered, answered_named⟩) hpassed⟩

def refused : List GateEvent := [.poll, .giveUp 1, .skeleton []]

lemma refused_passes : (after ⟨true, true⟩ refused).2.outcome = .passed 111 := by decide +kernel

/-- Both settings are on, the peer serves no header at all, and the gate passes. -/
theorem passed_without_answers :
  Run (SamplingGate.Step .regtest rules) (gate ⟨true, true⟩) (after ⟨true, true⟩ refused).1
      (after ⟨true, true⟩ refused).2 ∧ (after ⟨true, true⟩ refused).2.outcome = .passed 111 ∧
    ¬ SamplingGate.Substantiated .regtest rules (after ⟨true, true⟩ refused).1
      (after ⟨true, true⟩ refused).2 := by
  refine ⟨run_replay refused .init, refused_passes, fun h => ?_⟩
  have hset : (after ⟨true, true⟩ refused).2.sampler.verifyHash = true := by decide +kernel
  obtain ⟨header, ⟨⟨g, hmem⟩, -⟩, -⟩ := h.onChain hset
  simp [after, refused, replay] at hmem

end GateExample

end Rustock
