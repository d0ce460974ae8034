import Rustock.Bridge.BtcChain

/-!
# Difficulty of the Bridge's Bitcoin headers

Bitcoin lets the compact target change only at heights that are multiples of 2016. The Bridge
checks a header's work against the target the header states and never looks at its parent's
(btc_chain.rs), so:

- `BtcParams.retarget_kept`: in every run whose submitted headers state their parent's target,
  every stored block has it;
- `BtcMainnet.easy_block_accepted`: one call puts a block of the least difficulty on top of the
  mainnet checkpoint.
-/

namespace Rustock

open Lib Option Function StoredBlock

def retargetInterval : Nat := 2016

def SameTarget (parent : StoredBlock) (header : BtcHeader) : Prop :=
  (parent.height + 1).toNat % retargetInterval ≠ 0 → header.bits = parent.header.bits

namespace BtcEnv

variable (env : BtcEnv)

def StatesTarget (ctx : BtcCtx) (header : BtcHeader) : Prop :=
  ∀ parent, ctx.lookup (env.blockHash header) = none → env.checkProofOfWork header = true →
    ctx.lookup header.prevBlockhash = some parent → SameTarget parent header

def HonestCall (c : BtcCall) (ctx : BtcCtx) : Prop := env.CallMeets env.StatesTarget c ctx

end BtcEnv

/-- Every stored block is a seed or a child of a stored block, at the next height and with the
target its parent's chain requires. -/
def Retargeted (seeds : List B256) (ctx : BtcCtx) : Prop :=
  ∀ hash b, ctx.lookup hash = some b → hash ∈ seeds ∨
    ∃ parent, ctx.lookup b.header.prevBlockhash = some parent ∧ b.height = parent.height + 1 ∧
      SameTarget parent b.header

variable {seeds : List B256} {ctx ctx' : BtcCtx}

lemma Retargeted.congr (h : Retargeted seeds ctx) (heq : ctx'.lookup = ctx.lookup) :
  Retargeted seeds ctx' := by
  unfold Retargeted
  rw [heq]
  exact h

lemma Retargeted.connect {hash : B256} {b parent : StoredBlock} (h : Retargeted seeds ctx)
  (fresh : ctx.lookup hash = none) (stored : ctx.lookup b.header.prevBlockhash = some parent)
  (height : b.height = parent.height + 1) (target : SameTarget parent b.header)
  (heq : ctx'.lookup = Function.update ctx.lookup hash (some b)) : Retargeted seeds ctx' := by
  have hold {key : B256} {p : StoredBlock} (hp : ctx.lookup key = some p) :
      ctx'.lookup key = some p := by
    have hne : key ≠ hash := fun hkey => by
      rw [hkey, fresh] at hp
      cases hp
    rw [heq, update_of_ne hne, hp]
  intro key block hblock
  by_cases hkey : key = hash
  · have hb : block = b := by
      rw [heq, hkey, update_self] at hblock
      exact (some.inj hblock).symm
    rw [hb]
    exact .inr ⟨parent, hold stored, height, target⟩
  rw [heq, update_of_ne hkey] at hblock
  rcases h key block hblock with hseed | ⟨p, hp, hheight, htarget⟩
  · exact .inl hseed
  · exact .inr ⟨p, hold hp, hheight, htarget⟩

namespace BtcEnv

variable (env : BtcEnv) {seeds : List B256} {ctx : BtcCtx}

lemma Attempt.retargeted {header : BtcHeader} {ctx' : BtcCtx} (hready : ctx.Ready)
  (h : Retargeted seeds ctx) (hstates : env.StatesTarget ctx header)
  (hattempt : env.Attempt header ctx ctx') : Retargeted seeds ctx' := by
  rcases (hattempt.blocks env hready).2 with hsame | ⟨parent, hfresh, hwork, hparent, hstored⟩
  · exact h.congr hsame
  have htarget := hstates parent hfresh hwork hparent
  exact h.connect hfresh (by rw [kept_header]; exact hparent)
    (kept_height ..) (by rw [kept_header]; exact htarget) hstored

lemma call_retargeted (hready : ctx.Ready) (h : Retargeted seeds ctx) (c : BtcCall)
  (hhonest : env.HonestCall c ctx) : (env.call c ctx).Ready ∧ Retargeted seeds (env.call c ctx) :=
  env.call_invariant (fun hready h hq hattempt => hattempt.retargeted env hready h hq)
    (fun h => h.congr (env.lookup_nextBlock _)) hready h c hhonest

end BtcEnv

/-- **The difficulty rule, and what it rests on.** In every run from the seeded storage in which
each header that would be connected states its parent's target, every stored block but the seeds
has the target its parent's chain requires. -/
theorem BtcParams.retarget_kept (params : BtcParams) (rules : BtcRules)
  {hist : List (BtcCtx × (BtcRules × BtcCall))} {ctx : BtcCtx}
  (hrun : Run params.Step (params.seeded rules) hist ctx)
  (honest : ∀ p ∈ hist, BtcEnv.HonestCall ⟨params, p.2.1⟩ p.2.2 p.1) :
  Retargeted params.seedHashes ctx := by
  have hinit : Retargeted params.seedHashes (params.seeded rules) :=
    fun _ _ hb => .inl (params.lookup_seeded rules hb)
  have hinv : ctx.Ready ∧ Retargeted params.seedHashes ctx :=
    @Run.invariant _ _ _ _ _ _ (fun s e => BtcEnv.HonestCall ⟨params, e.1⟩ e.2 s)
      (fun _ s => s.Ready ∧ Retargeted params.seedHashes s)
      ⟨params.ready_seeded rules, hinit⟩
      (fun _ s e s' hs hgood hstep => by
        rw [hstep]
        exact BtcEnv.call_retargeted ⟨params, e.1⟩ hs.1 hs.2 e.2 hgood)
      hrun honest
  exact hinv.2

namespace BtcRegtest

def genesis : BtcHeader :=
  ⟨.ofBytes 80 (beBytes 80
    0x0100000000000000000000000000000000000000000000000000000000000000000000003ba3edfd7a7b12b27ac72c3e67768f617fc81bc3888a51323a9fb8aa4b1e5e4adae5494dffff7f2002000000)⟩

/-- constants.rs, regtest. -/
def params : BtcParams where
  sha256d := fun b => sha256Digest (sha256Digest b).bytes
  mainnet := false
  maxBtcHeadersPerRskBlock := 500
  minSecondsBetweenCallsReceiveHeader := 0
  maxDepthBlockchainAccepted := 4320
  blockWithTooMuchChainWorkHeight := 4294967295
  btcHeightWhenBlockIndexActivates := 0
  maxDepthToSearchBlocksBelowIndexActivation := 4320
  genesis := genesis
  checkpoint := none

def rules : BtcRules where
  rskip124 := true
  rskip199 := true
  rskip434 := true
  useV2 := true
  timestamp := 1600000000

def child : Bytes :=
  beBytes 80
    0x0000002006226e46111a0b59caaf126043eb5bbf28c34f3a5e332a1fc7b2b73cf188910f000000000000000000000000000000000000000000000000000000000000000000000000ffff7f2001000000

def afterChild : BtcCtx := BtcEnv.call ⟨params, rules⟩ (.receiveHeader child) (params.seeded rules)

lemma child_states_target :
  BtcEnv.HonestCall ⟨params, rules⟩ (.receiveHeader child) (params.seeded rules) := by
  intro parent _ _ hparent
  have hgenesis : (params.seeded rules).lookup (headerOf child).prevBlockhash =
      some ⟨genesis, 0, 2⟩ := by decide +kernel
  rw [hgenesis] at hparent
  rw [← some.inj hparent]
  exact fun _ => by decide +kernel

/-- A block is mined on regtest and the rule holds with it stored. -/
theorem retarget_kept_child : (afterChild.lookup (params.sha256d child)).isSome ∧
    Retargeted params.seedHashes afterChild := by
  have hrun : Run params.Step (params.seeded rules)
      [(params.seeded rules, rules, .receiveHeader child)] afterChild := .step .init rfl
  refine ⟨by decide +kernel, BtcParams.retarget_kept params rules hrun fun p hp => ?_⟩
  rw [List.mem_singleton.mp hp]
  exact child_states_target

end BtcRegtest

namespace BtcMainnet

def genesis : BtcHeader :=
  ⟨.ofBytes 80 (beBytes 80
    0x0100000000000000000000000000000000000000000000000000000000000000000000003ba3edfd7a7b12b27ac72c3e67768f617fc81bc3888a51323a9fb8aa4b1e5e4a29ab5f49ffff001d1dac2b7c)⟩

def checkpointHeader : BtcHeader :=
  ⟨.ofBytes 80 (beBytes 80
    0x00000020e37c80a7a8b850e3e89add09090b6b89b874496513ef89000000000000000000285ddc7985e7c34eb205d2c3129727f7bc10873e11e054b48d1a92786a42d7d2c8c8375a459600189b3aa792)⟩

def checkpoint : StoredBlock := ⟨checkpointHeader, 499968, 0x00cd6eae36c0cee5640896d3⟩

/-- constants.rs, mainnet. -/
def params : BtcParams where
  sha256d := fun b => sha256Digest (sha256Digest b).bytes
  mainnet := true
  maxBtcHeadersPerRskBlock := 500
  minSecondsBetweenCallsReceiveHeader := 300
  maxDepthBlockchainAccepted := 4320
  blockWithTooMuchChainWorkHeight := 849138
  btcHeightWhenBlockIndexActivates := 696000
  maxDepthToSearchBlocksBelowIndexActivation := 4320
  genesis := genesis
  checkpoint := some checkpoint

def rules : BtcRules where
  rskip124 := true
  rskip199 := false
  rskip434 := false
  useV2 := false
  timestamp := 1600000000

def easyChild : Bytes :=
  beBytes 80
    0x00000020b5ac896b5d0e48c4de021184a07b9bebc48749eb106e29000000000000000000000000000000000000000000000000000000000000000000000000000000000000000000ffff7f2000000000

def afterEasy : BtcCtx := BtcEnv.call ⟨params, rules⟩ (.receiveHeader easyChild) (params.seeded rules)

lemma easyChild_stored : afterEasy.lookup (params.sha256d easyChild) =
      some ⟨headerOf easyChild, 499969, 0xcd6eae36c0cee5640896d5⟩ ∧
    afterEasy.lookup (headerOf easyChild).prevBlockhash = some checkpoint ∧
    params.sha256d easyChild ∉ params.seedHashes := by
  decide +kernel

/-- **A block of the least difficulty on top of the mainnet checkpoint.** One call by anybody
makes it the chain head. -/
theorem easy_block_accepted : Run params.Step (params.seeded rules)
      [(params.seeded rules, rules, .receiveHeader easyChild)] afterEasy ∧
    (loadChainHead afterEasy).1 = some ⟨headerOf easyChild, 499969, 0xcd6eae36c0cee5640896d5⟩ ∧
    ¬ Retargeted params.seedHashes afterEasy := by
  obtain ⟨hstored, hparent, hseed⟩ := easyChild_stored
  refine ⟨.step .init rfl, by decide +kernel, fun h => ?_⟩
  rcases h _ _ hstored with hmem | ⟨parent, hlookup, _, htarget⟩
  · exact hseed hmem
  rw [hparent] at hlookup
  rw [← some.inj hlookup] at htarget
  exact absurd (htarget (by decide)) (by decide +kernel)

end BtcMainnet

end Rustock
