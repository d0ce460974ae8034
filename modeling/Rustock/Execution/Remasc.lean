import Rustock.Execution.Journal
import Rustock.Storage.BlockStore

/-!
# REMASC

The reward contract's distribution (crates/execution/src/remasc.rs). When the REMASC
transaction of a block runs, `processMinersFees` looks up the block that matured, adds the
fees in its header to `rewardBalance`, and pays a slice of that balance out: to the labs
account, the federation, the miner and, if the block had siblings, to their miners and
publishers.

The matured block and the blocks searched for siblings are looked up by height in the
canonical index of the store.
-/

namespace Rustock

open Lib

/-- The genesis federation's keys are behind `RemascEnv.federators`. -/
structure RemascConfig where
  maturity : UInt64
  syntheticSpan : UInt64
  rskLabsDivisor : U256
  federationDivisor : U256
  punishmentDivisor : U256
  publishersDivisor : U256
  lateUncleInclusionPunishmentDivisor : U256
  rskLabsAddress : Address
  rskLabsAddressRskip218 : Address
  rskip218ActivationHeight : UInt64
  rskip85ActivationHeight : UInt64
  minimumPayableGas : U256
  federatorMinimumPayableGas : U256
  /-- On every network a block matures after its siblings can no longer be included, and
  within the reach of the BlockHeader precompile. -/
  maturity_window : 7 < maturity ∧ maturity ≤ 4000
deriving DecidableEq

namespace RemascConfig

/-- `dabadabadabadabadabadabadabadabadaba` and two more bytes. -/
def testLabs (suffix : UInt8) : Address :=
  ⟨[0xda, 0xba, 0xda, 0xba, 0xda, 0xba, 0xda, 0xba, 0xda, 0xba, 0xda, 0xba, 0xda, 0xba, 0xda,
    0xba, 0xda, 0xba, 0x00, suffix], rfl⟩

def mainnet : RemascConfig where
  maturity := 4000
  syntheticSpan := 10
  rskLabsDivisor := 5
  federationDivisor := 100
  punishmentDivisor := 10
  publishersDivisor := 10
  lateUncleInclusionPunishmentDivisor := 20
  rskLabsAddress :=
    ⟨[0x14, 0xd3, 0x06, 0x5c, 0x8e, 0xb8, 0x98, 0x95, 0xf4, 0xdf, 0x12, 0x45, 0x0e, 0xc6, 0xb1,
      0x30, 0x04, 0x9f, 0x80, 0x34], rfl⟩
  rskLabsAddressRskip218 :=
    ⟨[0xdc, 0xb1, 0x21, 0x79, 0xba, 0x46, 0x97, 0x35, 0x0f, 0x66, 0x22, 0x4c, 0x95, 0x9b, 0xdd,
      0x9c, 0x28, 0x28, 0x18, 0xdf], rfl⟩
  rskip218ActivationHeight := 3614800
  rskip85ActivationHeight := 729000
  minimumPayableGas := 200000
  federatorMinimumPayableGas := 50000
  maturity_window := by decide

def testnet : RemascConfig :=
  { mainnet with
    maturity := 50
    rskLabsAddress := testLabs 3
    rskLabsAddressRskip218 := testLabs 3
    rskip218ActivationHeight := 2060500
    rskip85ActivationHeight := 0
    maturity_window := by decide }

def regtest : RemascConfig :=
  { mainnet with
    maturity := 10
    syntheticSpan := 5
    rskLabsAddress := testLabs 1
    rskLabsAddressRskip218 := testLabs 1
    rskip218ActivationHeight := 0
    rskip85ActivationHeight := 0
    maturity_window := by decide }

def labsAddressAt (config : RemascConfig) (blockNumber : UInt64) : Address :=
  if config.rskip218ActivationHeight ≤ blockNumber then config.rskLabsAddressRskip218
  else config.rskLabsAddress

lemma maturity_pos (config : RemascConfig) : 0 < config.maturity.toNat :=
  Nat.lt_of_le_of_lt (Nat.zero_le _) (UInt64.lt_iff_toNat_lt.mp config.maturity_window.1)

end RemascConfig

/-- ASCII, right-aligned in a word. -/
def remascStorageKey (name : String) : U256 :=
  BitVec.ofNat 256 (beNat (name.toList.map fun c => UInt8.ofNat c.toNat))

def rewardBalanceKey : U256 := remascStorageKey "rewardBalance"
def burnedBalanceKey : U256 := remascStorageKey "burnedBalance"
def brokenSelectionRuleKey : U256 := remascStorageKey "brokenSelectionRule"
def federationBalanceKey : U256 := remascStorageKey "federationBalance"
def siblingsKey : U256 := remascStorageKey "siblings"

namespace Journal

variable (j : Journal)

def remascWord (key : U256) : U256 := j.word remascAddr key

def remascSstore (key value : U256) : Journal := j.sstore remascAddr key value

/-- A payment of zero still touches the payee. -/
def remascTransfer (payee : Address) (amount : U256) : Journal :=
  if amount = 0 then j.touch payee else j.transfer remascAddr payee amount

/-- With the topic of the log as given. -/
def payMiningFees (miningFeeTopic processingHash : B256) (payee : Address) (value : U256) :
  Journal :=
  (j.remascTransfer payee value).log
    { address := remascAddr
      topics := [miningFeeTopic, .ofBytes 32 (List.replicate 12 0 ++ payee.bytes)]
      data := Rlp.list [Rlp.bytes processingHash.bytes, Rlp.nat 32 value.toNat] }

def addToBurned (amount : U256) : Journal :=
  if amount = 0 then j
  else j.remascSstore burnedBalanceKey (j.remascWord burnedBalanceKey + amount)

end Journal

structure Sibling where
  hash : B256
  coinbase : Address
  paidFees : U256
  includedBlockCoinbase : Address
  includedHeight : UInt64
  uncleCount : UInt64

def remascUncleGenerationLimit : Nat := 7

variable (current : ActivationHeights)

/-- The siblings one height contributes. -/
def siblingsAt (s : BlockStore) (candidate height : UInt64) : List Sibling :=
  match s.numbers height with
  | none => []
  | some hash =>
    match s.headers hash with
    | none => []
    | some including =>
      ((s.bodies hash).getD ([], [])).2.filterMap fun ommer =>
        if ommer.number = candidate then
          some ⟨ommer.hash current, ommer.beneficiary, ommer.paidFees, including.beneficiary,
            height, ommer.uncleCount⟩
        else none

def siblingHeights (candidate currentNumber : UInt64) : List UInt64 :=
  ((List.range remascUncleGenerationLimit).map fun i => candidate + 1 + UInt64.ofNat i).filter
    fun height => candidate < height ∧ height ≤ currentNumber

def collectSiblings (s : BlockStore) (candidate currentNumber : UInt64) : List Sibling :=
  (siblingHeights candidate currentNumber).flatMap (siblingsAt current s candidate)

def isBrokenSelectionRule (processing : Header) (siblings : List Sibling) : Bool :=
  siblings.any (fun sibling =>
    decide (sibling.paidFees > processing.paidFees * 2) ||
      (decide (processing.paidFees < sibling.paidFees * 2) &&
        decide (beNat sibling.hash.bytes < beNat (processing.hash current).bytes))) ||
  decide ((siblings.map (·.uncleCount)).foldl max 0 > processing.uncleCount)

structure SiblingPayment where
  individualPublisherReward : U256
  publishersSurplus : U256
  individualMinerReward : U256
  minersSurplus : U256
  punishment : U256

def SiblingPayment.calculate (config : RemascConfig) (fullBlockReward : U256)
  (previousBroken : Bool) (siblingsCount : Nat) : SiblingPayment :=
  let publishersReward := fullBlockReward / config.publishersDivisor
  let minersReward := fullBlockReward - publishersReward
  let n := BitVec.ofNat 256 siblingsCount
  let base := minersReward / (n + 1)
  let punishment := if previousBroken then base / config.punishmentDivisor else 0
  { individualPublisherReward := publishersReward / n
    publishersSurplus := publishersReward % n
    individualMinerReward := base - punishment
    minersSurplus := minersReward % (n + 1)
    punishment }

structure RemascEnv where
  current : ActivationHeights
  config : RemascConfig
  miningFeeTopic : B256
  /-- RSK addresses of the federation, from the Bridge's storage, at the matured block's
  height and the executing block's. -/
  federators : Journal → UInt64 → UInt64 → List Address

namespace RemascEnv

variable (env : RemascEnv) (processingHash : B256)

/-- What the federation gets, and the journal after it. -/
def payToFederation (processingNumber currentNumber : UInt64)
  (minimumGasPrice syntheticReward : U256) (j : Journal) : U256 × Journal :=
  let federationReward := syntheticReward / env.config.federationDivisor
  let payTotal := j.remascWord federationBalanceKey + federationReward
  let federators := env.federators j processingNumber currentNumber
  if federators.isEmpty then (federationReward, j.remascSstore federationBalanceKey payTotal)
  else
    let n := BitVec.ofNat 256 federators.length
    let perFederator := payTotal / n
    let rskip85 := env.config.rskip85ActivationHeight ≤ currentNumber
    if rskip85 ∧ perFederator < minimumGasPrice * env.config.federatorMinimumPayableGas then
      (federationReward, j.remascSstore federationBalanceKey payTotal)
    else
      let j := if rskip85 then j.remascSstore federationBalanceKey 0 else j
      let pay (j : Journal) (entry : Address × Nat) : Journal :=
        j.payMiningFees env.miningFeeTopic processingHash entry.1
          (if entry.2 + 1 = federators.length then perFederator + payTotal % n
            else perFederator)
      (federationReward, federators.zipIdx.foldl pay j)

def payWithSiblings (processing : Header) (fullBlockReward : U256) (siblings : List Sibling)
  (previousBroken : Bool) (j : Journal) : Journal :=
  let split := SiblingPayment.calculate env.config fullBlockReward previousBroken siblings.length
  let pay (j : Journal) := j.payMiningFees env.miningFeeTopic processingHash
  let j := siblings.foldl
    (fun j sibling => pay j sibling.includedBlockCoinbase split.individualPublisherReward) j
  let j := (j.addToBurned split.publishersSurplus).addToBurned split.minersSurplus
  let j := siblings.foldl (fun j sibling =>
    let blocksLate := saturatingSub64 sibling.includedHeight (processing.number + 1)
    let latePunishment := split.individualMinerReward * BitVec.ofNat 256 blocksLate.toNat /
      env.config.lateUncleInclusionPunishmentDivisor
    (pay j sibling.coinbase (split.individualMinerReward - latePunishment)).addToBurned
      latePunishment) j
  let j := if previousBroken then
      j.addToBurned (split.punishment * BitVec.ofNat 256 (siblings.length + 1)) else j
  pay j processing.beneficiary split.individualMinerReward

/-- The payments of one distribution, after the reward balance was debited. -/
def distribute (processing : Header) (siblings : List Sibling) (previousBroken : Bool)
  (candidate currentNumber : UInt64) (minimumGasPrice syntheticReward : U256) (j : Journal) :
  Journal :=
  let rskLabsPay := syntheticReward / env.config.rskLabsDivisor
  let j := j.payMiningFees env.miningFeeTopic processingHash
    (env.config.labsAddressAt currentNumber) rskLabsPay
  let (federationReward, j) := env.payToFederation processingHash candidate currentNumber
    minimumGasPrice (syntheticReward - rskLabsPay) j
  let remaining := syntheticReward - rskLabsPay - federationReward
  if siblings.isEmpty then
    let punishment := if previousBroken then remaining / env.config.punishmentDivisor else 0
    (j.addToBurned punishment).payMiningFees env.miningFeeTopic processingHash
      processing.beneficiary (remaining - punishment)
  else env.payWithSiblings processingHash processing remaining siblings previousBroken j

end RemascEnv

structure Accrual where
  height : UInt64
  hash : B256
  paidFees : U256
deriving DecidableEq

/-- The matured block of a block at height `number`, if it has one. -/
def candidateNumber (config : RemascConfig) (number : UInt64) : Option UInt64 :=
  if config.maturity ≤ number ∧ 1 ≤ number - config.maturity then
    some (number - config.maturity)
  else none

/-- For a block at height `number`. -/
def RemascEnv.processMinersFees (env : RemascEnv) (s : BlockStore) (number : UInt64)
  (minimumGasPrice : U256) (j : Journal) : Except String (Option Accrual × Journal) :=
  match candidateNumber env.config number with
  | none => .ok (none, j)
  | some candidate =>
    match s.numbers candidate with
    | none => .error "REMASC: processing block not found"
    | some hash =>
      match s.headers hash with
      | none => .error "REMASC: processing header not found"
      | some processing =>
        let accrual : Accrual := ⟨candidate, hash, processing.paidFees⟩
        let rewardBalance := j.remascWord rewardBalanceKey + processing.paidFees
        let j := j.remascSstore rewardBalanceKey rewardBalance
        if candidate < env.config.syntheticSpan then .ok (some accrual, j)
        else
          let siblings := collectSiblings env.current s candidate number
          let previousBroken := j.remascWord brokenSelectionRuleKey ≠ 0
          let brokenNow := !siblings.isEmpty &&
            isBrokenSelectionRule env.current processing siblings
          let j := j.putRaw remascAddr brokenSelectionRuleKey
            (some [if brokenNow then 1 else 0])
          let syntheticReward := rewardBalance /
            BitVec.ofNat 256 env.config.syntheticSpan.toNat
          if env.config.rskip85ActivationHeight ≤ number ∧
              syntheticReward < minimumGasPrice * env.config.minimumPayableGas then
            .ok (some accrual, j)
          else
            let j := j.remascSstore rewardBalanceKey (rewardBalance - syntheticReward)
            .ok (some accrual, env.distribute hash processing siblings previousBroken candidate
              number minimumGasPrice syntheticReward j)

namespace Journal

variable (j : Journal) (key : U256) (a : Address)

@[simp] lemma remascWord_touch : (j.touch a).remascWord key = j.remascWord key := rfl

@[simp] lemma remascWord_log (l : Log) : (j.log l).remascWord key = j.remascWord key := rfl

@[simp] lemma remascWord_putRaw (k : U256) (value : Option Bytes) :
  (j.putRaw a k value).remascWord key = j.remascWord key := rfl

@[simp] lemma remascWord_setBalance (value : U256) :
  (j.setBalance a value).remascWord key = j.remascWord key := rfl

@[simp] lemma remascWord_transfer (source payee : Address) (value : U256) :
  (j.transfer source payee value).remascWord key = j.remascWord key := by
  unfold transfer
  split
  · rfl
  split
  · rfl
  · split <;> rfl

@[simp] lemma remascWord_payMiningFees (topic hash : B256) (payee : Address) (value : U256) :
  (j.payMiningFees topic hash payee value).remascWord key = j.remascWord key := by
  simp only [payMiningFees, remascTransfer, remascWord_log]
  split <;> simp

@[simp] lemma remascWord_sstore_self (value : U256) :
  (j.remascSstore key value).remascWord key = value := by
  simp [remascSstore, remascWord, sstore, word]

lemma remascWord_sstore_of_ne {key' : U256} (h : key ≠ key') (value : U256) :
  (j.remascSstore key' value).remascWord key = j.remascWord key := by
  simp [remascSstore, remascWord, sstore, word, Function.update_of_ne h]

end Journal

end Rustock
