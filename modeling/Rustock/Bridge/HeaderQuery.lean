import Rustock.Bridge.Abi
import Rustock.Bridge.BtcBest

/-!
# Headers by height (bridge/btc_chain.rs)

`getBtcBlockchainBlockHeaderByHeight` reads the raw height index. `main_chain_block_at_height` looks
no higher than the chain head, reads the index only from RSKIP199 on, and where the index leads to
no block walks down from the head by parents. The index is filled from RSKIP199 on and never
truncated.

The two agree as long as the index has nothing above the head. That is so when the index is there
from the seed on (RSKIP199 before the first call) and no heavier branch that takes over is shorter
than the one it replaces (`NotLower`); then every call leaves a store in which the index ends at the
head (`IndexedTo`). A store seeded before RSKIP199 shows what happens otherwise.
-/

namespace Rustock

open Lib List Option StoredBlock

/-- A height of more than 32 bits is a panic. -/
def getBlockHeaderByHeight (ctx : BtcCtx) (args : Bytes) : Reader Bytes := do
  within args 32
  let height ← toWidth 32 (wordAt args 0)
  return (headerAtHeight (UInt32.ofNat height) ctx).1

def MainChainLookup.block : MainChainLookup → Option StoredBlock
  | .found b => some b
  | _ => none

/-! ## The index ends at the head -/

/-- A header that becomes the head is no lower than the head it replaces. -/
def NotLower (ctx : BtcCtx) (header : BtcHeader) : Prop :=
  ∀ parent head, ctx.lookup header.prevBlockhash = some parent →
    deserializeCompact ctx.chainHead = some head →
    head.chainWork.toNat < (BtcEnv.childOf parent header).chainWork.toNat →
    head.height ≤ (BtcEnv.childOf parent header).height

/-- The best chain, and an index with nothing above its head. -/
def IndexedTo (sha256d : Bytes → B256) (seed : StoredBlock) (ctx : BtcCtx) : Prop :=
  ∃ head ancestors, BestChain sha256d seed ctx head ancestors ∧
    ∀ height, head.height < height → ctx.heightIndex height = none

/-- One header: above a head that is not lower the index is as it was. -/
lemma BtcEnv.Attempt.indexedTo {env : BtcEnv} {seed : StoredBlock} {header : BtcHeader}
    {ctx ctx' : BtcCtx} (h199 : env.rskip199 = true) (hready : ctx.Ready)
    (h : IndexedTo env.sha256d seed ctx) (hfits : env.FitsIfConnected seed ctx header)
    (hlower : NotLower ctx header) (hattempt : env.Attempt header ctx ctx') :
    IndexedTo env.sha256d seed ctx' := by
  obtain ⟨head, ancestors, hbest, habove⟩ := h
  cases hattempt with
  | refused => exact ⟨head, ancestors, hbest, habove⟩
  | connected parent timestamp fresh work stored =>
    obtain ⟨_, head', ancestors', hbest', hmore, hindex⟩ := env.connectBlock_best hready hbest h199
      fresh stored (hfits parent fresh work stored)
    refine ⟨head', ancestors', hbest'.congr rfl rfl rfl, fun height hlt => ?_⟩
    have hle : head.height ≤ head'.height := by
      rcases hmore with rfl | ⟨rfl, hwork⟩
      · exact UInt32.le_refl _
      · exact hlower parent head stored hbest.loaded hwork
    exact (hindex height hlt).trans (habove height (UInt32.lt_of_le_of_lt hle hlt))

namespace BtcParams

variable (params : BtcParams)

/-- A call under RSKIP199 whose headers fit and never lower the head. -/
def ClimbingStep (ctx : BtcCtx) (e : BtcRules × BtcCall) : Prop :=
  e.1.rskip199 = true ∧ BtcEnv.CallMeets ⟨params, e.1⟩ (fun ctx header =>
    BtcEnv.FitsIfConnected ⟨params, e.1⟩ params.seed ctx header ∧ NotLower ctx header) e.2 ctx

lemma ClimbingStep.indexedTo {params : BtcParams} {ctx : BtcCtx} {e : BtcRules × BtcCall}
    (hready : ctx.Ready) (h : IndexedTo params.sha256d params.seed ctx)
    (hstep : params.ClimbingStep ctx e) :
    (BtcEnv.call ⟨params, e.1⟩ e.2 ctx).Ready ∧
      IndexedTo params.sha256d params.seed (BtcEnv.call ⟨params, e.1⟩ e.2 ctx) :=
  BtcEnv.call_invariant ⟨params, e.1⟩
    (fun hready h hq hattempt => hattempt.indexedTo hstep.1 hready h hq.1 hq.2)
    (fun ⟨head, ancestors, hbest, habove⟩ =>
      ⟨head, ancestors, hbest.congr (BtcEnv.lookup_nextBlock ⟨params, e.1⟩ _) rfl rfl, habove⟩)
    hready h e.2 hstep.2

lemma seeded_indexedTo {rules : BtcRules} (hseed : params.SeedFits rules)
    (h199 : rules.rskip199 = true) :
    IndexedTo params.sha256d params.seed (params.seeded rules) := by
  refine ⟨params.seed, [], params.seeded_best hseed h199, fun height habove => ?_⟩
  have hnone : loadChainHead BtcCtx.empty = (none, BtcCtx.empty) := rfl
  have hset (ctx : BtcCtx) (hctx : ctx.heightIndex height = none) :
      (BtcEnv.setChainHead ⟨params, rules⟩ params.seed ctx).2.heightIndex height = none :=
    (BtcEnv.setChainHead_index_above ⟨params, rules⟩ habove).trans hctx
  unfold seed at hset
  unfold seeded BtcEnv.ensureBtcChainSeeded
  rw [btcM_bind, hnone]
  cases hcheckpoint : params.checkpoint with
  | none =>
    rw [hcheckpoint] at hset
    exact hset _ rfl
  | some checkpoint =>
    rw [hcheckpoint] at hset
    exact hset _ rfl

end BtcParams

/-! ## The query by height -/

lemma headerAtHeight_of_index {ctx : BtcCtx} (hcache : ctx.cache = none) {height : UInt32}
    {entry : Option B256} (hindex : ctx.heightIndex height = entry) :
    (headerAtHeight height ctx).1 = headerBytes (entry.bind ctx.lookup) := by
  have hload : loadBtcBlockHashByHeight height ctx = (entry, ctx) := Prod.ext hindex rfl
  rw [headerAtHeight, btcM_bind, hload]
  cases entry with
  | none => rfl
  | some hash =>
    dsimp only
    rw [btcM_bind, getStoredBlock_of_cacheless hcache]
    rfl

/-- Where the index ends at the head, it has at every height what the main chain has. -/
lemma IndexedTo.headerAtHeight_eq {env : BtcEnv} {seed : StoredBlock} {ctx : BtcCtx}
    (h : IndexedTo env.sha256d seed ctx) (hcache : ctx.cache = none)
    (h199 : env.rskip199 = true) {height : UInt32} (hseed : seed.height ≤ height) :
    (headerAtHeight height ctx).1 =
      headerBytes (env.mainChainBlockAtHeight height false ctx).1.block := by
  obtain ⟨head, ancestors, hbest, habove⟩ := h
  obtain ⟨hhigher, hwithin⟩ := hbest.lookup_height hcache h199 height
  by_cases hlt : head.height < height
  · rw [hhigher hlt, headerAtHeight_of_index hcache (habove height hlt)]
    rfl
  obtain ⟨b, hb, rfl, hfound⟩ := hwithin hseed (UInt32.not_lt.mp hlt)
  obtain ⟨front, back, hsplit⟩ := append_of_mem hb
  have hbranch := hbest.branch
  rw [hsplit] at hbranch
  rw [hfound, headerAtHeight_of_index hcache (hbest.index b hb), bind_some,
    hbranch.suffix.stored]
  rfl

/-- **Header queries answer from the main chain.** In every run from a store seeded under RSKIP199
whose headers fit and never lower the head, reorganisations included, the query for a height from
the seed on returns exactly the header of the main-chain block at that height, and the empty header
above the head. -/
theorem BtcParams.header_by_height (params : BtcParams) {rules now : BtcRules}
    (hseed : params.SeedFits rules) (h199 : rules.rskip199 = true)
    {hist : List (BtcCtx × (BtcRules × BtcCall))} {ctx : BtcCtx}
    (hrun : Run params.Step (params.seeded rules) hist ctx)
    (hclimb : ∀ p ∈ hist, params.ClimbingStep p.1 p.2) (hnow : now.rskip199 = true)
    {args : Bytes} (hargs : 32 ≤ args.length) {height : UInt32}
    (hheight : wordAt args 0 = height.toNat) (hfrom : params.seed.height ≤ height) :
    getBlockHeaderByHeight ctx args = .ok (headerBytes
      (BtcEnv.mainChainBlockAtHeight ⟨params, now⟩ height false ctx).1.block) := by
  have hinv : ctx.Ready ∧ IndexedTo params.sha256d params.seed ctx := by
    refine @Run.invariant _ _ _ _ _ _ params.ClimbingStep
      (fun _ ctx => ctx.Ready ∧ IndexedTo params.sha256d params.seed ctx)
      ⟨params.ready_seeded rules, params.seeded_indexedTo hseed h199⟩ ?_ hrun hclimb
    intro _ s e s' hs hgood hstep
    rw [hstep]
    exact hgood.indexedTo hs.1 hs.2
  have hsame := @IndexedTo.headerAtHeight_eq ⟨params, now⟩ params.seed ctx hinv.2 hinv.1.cacheless
    hnow height hfrom
  have hword : toWidth 32 (wordAt args 0) = .ok height.toNat :=
    toWidth_eq_ok.mpr ⟨hheight ▸ height.toNat_lt, hheight.symm⟩
  unfold getBlockHeaderByHeight
  simp only [except_do_eq_ok, within_eq_ok]
  refine ⟨(), hargs, _, hword, ?_⟩
  rw [UInt32.ofNat_toNat, hsame]
  rfl

namespace BtcReorg

open BtcLegacy (params)

lemma notLower_of_blocks {ctx : BtcCtx} {header : BtcHeader} {parent head : StoredBlock}
    (hparent : ctx.lookup header.prevBlockhash = some parent)
    (hhead : deserializeCompact ctx.chainHead = some head)
    (hle : head.height ≤ (BtcEnv.childOf parent header).height) : NotLower ctx header := by
  intro parent' head' hparent' hhead' _
  rw [hparent] at hparent'
  rw [hhead] at hhead'
  rw [← some.inj hparent', ← some.inj hhead']
  exact hle

lemma notLower_first : NotLower (params.seeded rules) (headerOf first) := by
  have hhead : deserializeCompact (params.seeded rules).chainHead = some params.seed := by
    decide +kernel
  exact notLower_of_blocks first_parent hhead (by decide +kernel)

lemma notLower_other : NotLower afterFirst (headerOf other) := by
  have hhead : deserializeCompact afterFirst.chainHead = some firstBlock := by decide +kernel
  exact notLower_of_blocks other_parent hhead (by decide +kernel)

lemma notLower_longer : NotLower afterOther (headerOf longer) := by
  have hhead : deserializeCompact afterOther.chainHead = some firstBlock := by decide +kernel
  exact notLower_of_blocks longer_parent hhead (by decide +kernel)

lemma climbing_first : params.ClimbingStep (params.seeded rules) (rules, .receiveHeader first) :=
  ⟨rfl, fitting_first.2, notLower_first⟩

lemma climbing_branch :
    params.ClimbingStep afterFirst (rules, .receiveHeaders [other, longer]) := by
  obtain ⟨_, hother, hlonger, _⟩ := fitting_branch
  exact ⟨rfl, ⟨hother, notLower_other⟩, ⟨hlonger, notLower_longer⟩, trivial⟩

/-- After the reorganisation the query for height 1 gives the block of the new branch. -/
theorem header_by_height_reorganised :
    getBlockHeaderByHeight reorganised (beBytes 32 1) = .ok (headerBytes
        (BtcEnv.mainChainBlockAtHeight ⟨params, rules⟩ 1 false reorganised).1.block) ∧
      getBlockHeaderByHeight reorganised (beBytes 32 1) = .ok other := by
  have hsteps : ∀ p ∈ [(afterFirst, rules, BtcCall.receiveHeaders [other, longer]),
      (params.seeded rules, rules, .receiveHeader first)], params.ClimbingStep p.1 p.2 := by
    rw [forall_mem_cons, forall_mem_singleton]
    dsimp only
    refine ⟨?_, ?_⟩
    · exact climbing_branch
    · exact climbing_first
  refine ⟨?_, by decide +kernel⟩
  exact params.header_by_height ⟨rfl, nofun⟩ rfl run_reorganised hsteps rfl (by decide)
    (by decide +kernel) (by decide +kernel)

end BtcReorg

namespace BtcRegtest

def before199 : BtcRules := { rules with rskip199 := false }

/-- The head is on the main chain, and the query for its height returns nothing. -/
theorem head_not_answered : Run params.Step (params.seeded before199) [] (params.seeded before199) ∧
    getBlockHeaderByHeight (params.seeded before199) (beBytes 32 0) = .ok [] ∧
    (BtcEnv.mainChainBlockAtHeight ⟨params, rules⟩ 0 false (params.seeded before199)).1.block =
      some ⟨genesis, 0, 2⟩ := by
  refine ⟨.init, ?_⟩
  decide +kernel

end BtcRegtest

end Rustock
