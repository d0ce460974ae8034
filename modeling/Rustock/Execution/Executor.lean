import Rustock.Execution.Remasc
import Rustock.Lib.Except
import Mathlib

/-!
# The block executor

`RskExecutor` (crates/execution/src/executor.rs): a block is one run over all its
transactions or, under RSKIP-144 and with more than one execution thread, a run for every
declared parallel sublist followed by one for the sequential set.

A transaction is taken for REMASC's by its field values alone (`isRemascTx`), at any
position.
-/

namespace Rustock

open Lib

/-- hardfork.rs, the two activations the block loop asks for. -/
structure HardforkConfig where
  chainId : UInt8
  unitrieStateRoot : UInt64
  /-- RSKIP-144, unscheduled on mainnet and regtest. -/
  reed810 : Option UInt64
deriving DecidableEq

namespace HardforkConfig

def mainnet : HardforkConfig := ⟨30, 1591000, none⟩
def testnet : HardforkConfig := ⟨31, 0, some 7139600⟩
def regtest : HardforkConfig := ⟨33, 0, none⟩

def hasUnitrieStateRoot (cfg : HardforkConfig) (blockNumber : UInt64) : Bool :=
  cfg.unitrieStateRoot ≤ blockNumber

def hasRskip144 (cfg : HardforkConfig) (blockNumber : UInt64) : Bool :=
  match cfg.reed810 with
  | some height => height ≤ blockNumber
  | none => false

end HardforkConfig

structure BlockRead where
  hash : B256
  header : Header
  ommers : List Header
  totalDifficulty : Option U256
deriving DecidableEq

structure ChainReads where
  /-- BLOCKHASH, which the EVM asks only for the last 256 blocks. -/
  blockHash : UInt64 → Option B256
  /-- The BlockHeader precompile, by depth below the parent. -/
  blockHeader : Nat → Option BlockRead

def maxBlockDepth : Nat := 4000

/-- What a block at height `number` reads of the store: both by height, in the canonical
index. -/
def chainReads (s : BlockStore) (number : UInt64) : ChainReads where
  blockHash n := if n < number ∧ number - n ≤ 256 then s.numbers n else none
  blockHeader depth :=
    if depth < maxBlockDepth ∧ depth + 1 ≤ number.toNat then
      (s.numbers (UInt64.ofNat (number.toNat - 1 - depth))).bind fun hash =>
        (s.headers hash).map fun header =>
          ⟨hash, header, ((s.bodies hash).getD ([], [])).2, s.totalDifficulty hash⟩
    else none

inductive EvmError where
  | database (reason : String)
  | refused (reason : String)
deriving DecidableEq

inductive ExecutionError where
  | evm (reason : EvmError)
  | tooMuchGas (available sent : UInt64)
  | remasc (reason : String)
  | supplyCreated (number : UInt64) (index : Nat) (created : U256)
deriving DecidableEq

/-- What an ordinary transaction came to. `feeGas` is the gas its sender is charged for:
the whole limit after an invisible exception. -/
structure TxOutcome where
  success : Bool
  gasUsed : UInt64
  feeGas : UInt64
  output : Bytes
  logs : List Log
  reachedSequentialOnly : Bool
  /-- Keys it read, and those it wrote. -/
  keys : List (Bytes × Bool)

abbrev Evm := ChainReads → Header → Nat → Transaction → Address → Bool → Journal →
  Except EvmError (TxOutcome × Journal)

structure ExecEnv where
  hardfork : HardforkConfig
  remasc : RemascEnv
  evm : Evm
  /-- Precompile accounts created at a height, and whether they are reset. -/
  maintenance : UInt64 → List (Address × Bool)
  executionThreads : Nat
  /-- supply.rs: which conservation checks are on. -/
  perTransaction : Bool
  perBlock : Bool

structure TxResult where
  success : Bool
  gasUsed : UInt64
  output : Bytes
  logs : List Log
  reachedSequentialOnly : Bool
  keys : List (Bytes × Bool)
deriving DecidableEq

structure RunState where
  journal : Journal
  totalGas : UInt64
  totalFees : U256
  txResults : List TxResult
  remascTxSeen : Bool
  droppedSenders : List Address
  unfitting : List Nat
  invalid : List Nat

/-- What is fixed during a run. -/
structure Sublist where
  header : Header
  transactions : List (Transaction × Address)
  lo : Nat
  hi : Nat
  runMaintenance : Bool
  /-- The miner's mode: drop what does not fit or does not run. -/
  discardUnfitting : Bool

namespace Sublist

variable (l : Sublist)

def endsTheBlock : Bool := l.hi = l.transactions.length

def wholeBlock : Bool := l.runMaintenance && l.endsTheBlock

def entries : List ((Transaction × Address) × Nat) :=
  (l.transactions.zipIdx.take l.hi).drop l.lo

end Sublist

def saturatingToU64 (value : U256) : UInt64 :=
  if value.toNat < 2 ^ 64 then UInt64.ofNat value.toNat else 0xFFFFFFFFFFFFFFFF

def saturatingAdd64 (a b : UInt64) : UInt64 :=
  if a.toNat + b.toNat < 2 ^ 64 then a + b else 0xFFFFFFFFFFFFFFFF

namespace ExecEnv

variable (env : ExecEnv) (s : BlockStore)

def checkTxSupply (header : Header) (index : Nat) (before : Address → AccountInfo)
  (j : Journal) (withheld settled : U256) : Except ExecutionError Unit :=
  let (inflow, outflow) := supplyChange before j.info j.touchedNow
  let inflow := U256.saturatingAdd inflow withheld
  let outflow := U256.saturatingAdd outflow settled
  if env.perTransaction ∧ outflow < inflow then
    .error (.supplyCreated header.number index (inflow - outflow))
  else .ok ()

/-- The block-level precompile maintenance. -/
def maintain (header : Header) (j : Journal) : Journal :=
  (env.maintenance header.number).foldl (fun j op =>
    let j := if op.2 then
        { j with info := Function.update j.info op.1 { j.info op.1 with nonce := 0, balance := 0 } }
      else j
    (j.touch op.1).mark op.1) j

variable (l : Sublist)

/-- The REMASC transaction: settle the postponed fees, distribute, write the constant `siblings`
cell. -/
def runRemascTx (index : Nat) (st : RunState) : Except ExecutionError RunState := do
  let header := l.header
  let postponeFees := env.hardfork.hasRskip144 header.number
  let settling := postponeFees ∧ st.totalFees ≠ 0
  let before := st.journal.info
  let j := st.journal.beginTx
  let j := (if settling then j.incrBalance remascAddr st.totalFees else j).touch remascAddr
  let (_, j) ← (env.remasc.processMinersFees s header.number
    header.minimumGasPrice j).mapError .remasc
  let (logs, j) := (j.putRaw remascAddr siblingsKey (some [0xc0])).takeLogs
  let j := { j.mark remascAddr with bumpRemascSender := true }
  env.checkTxSupply header index before j 0 (if postponeFees then st.totalFees else 0)
  .ok { st with
    journal := j
    remascTxSeen := true
    txResults := st.txResults ++ [⟨true, 0, [], logs, true, []⟩] }

/-- An ordinary transaction that fits. -/
def runOrdinaryTx (index : Nat) (tx : Transaction) (sender : Address) (st : RunState) :
  Except ExecutionError RunState :=
  let header := l.header
  let postponeFees := env.hardfork.hasRskip144 header.number
  match env.evm (chainReads s header.number) header index tx sender postponeFees
      st.journal.beginTx with
  | .error (.refused reason) =>
    if l.discardUnfitting then
      .ok { st with
        droppedSenders := sender :: st.droppedSenders
        invalid := st.invalid ++ [index] }
    else .error (.evm (.refused reason))
  | .error (.database reason) => .error (.evm (.database reason))
  | .ok (outcome, j) =>
    let feePaid := BitVec.ofNat 256 outcome.feeGas.toNat * tx.gasPrice
    (env.checkTxSupply header index st.journal.info j (if postponeFees then feePaid else 0)
      0).map fun _ =>
      { st with
        journal := j
        totalFees := st.totalFees + feePaid
        totalGas := st.totalGas + outcome.gasUsed
        txResults := st.txResults ++ [⟨outcome.success, outcome.gasUsed, outcome.output,
          outcome.logs, outcome.reachedSequentialOnly, outcome.keys⟩] }

/-- One turn of the loop. -/
def runTx (st : RunState) (entry : (Transaction × Address) × Nat) :
  Except ExecutionError RunState :=
  let ((tx, sender), index) := entry
  if isRemascTx tx then env.runRemascTx s l index st
  else
    let blockGasLimit := saturatingToU64 l.header.gasLimit
    let txGasLimit := saturatingToU64 tx.gasLimit
    let fits : Bool := saturatingAdd64 st.totalGas txGasLimit ≤ blockGasLimit
    if (l.wholeBlock ∨ l.discardUnfitting) ∧ (¬ fits ∨ sender ∈ st.droppedSenders) then
      if l.discardUnfitting then
        .ok { st with
          droppedSenders := sender :: st.droppedSenders
          unfitting := st.unfitting ++ [index] }
      else .error (.tooMuchGas (saturatingSub64 blockGasLimit st.totalGas) txGasLimit)
    else env.runOrdinaryTx s l index tx sender st

def startRun (state : World) (feesCarried : U256) : RunState where
  journal := if l.runMaintenance then env.maintain l.header (.start state) else .start state
  totalGas := 0
  totalFees := feesCarried
  txResults := []
  remascTxSeen := false
  droppedSenders := []
  unfitting := []
  invalid := []

/-- Fees nobody claimed, when the run ends the block. -/
def settleUnclaimed (st : RunState) : RunState :=
  if env.hardfork.hasRskip144 l.header.number ∧ l.endsTheBlock ∧ ¬ st.remascTxSeen ∧
      st.totalFees ≠ 0 then
    { st with
      journal := (st.journal.incrBalance remascAddr st.totalFees).touch remascAddr }
  else st

def runSublist (state : World) (feesCarried : U256) : Except ExecutionError RunState :=
  (l.entries.foldlM (env.runTx s l) (env.startRun l state feesCarried)).map
    (env.settleUnclaimed l)

end ExecEnv

/-- The journal `process_miners_fees` is called with. -/
def ExecEnv.settledJournal (env : ExecEnv) (l : Sublist) (st : RunState) : Journal :=
  (if env.hardfork.hasRskip144 l.header.number ∧ st.totalFees ≠ 0 then
    st.journal.beginTx.incrBalance remascAddr st.totalFees else st.journal.beginTx).touch remascAddr

def Journal.endRemasc (j : Journal) : Journal :=
  { (j.putRaw remascAddr siblingsKey (some [0xc0])).takeLogs.2.mark remascAddr with
    bumpRemascSender := true }

variable {env : ExecEnv} {index : Nat}

/-- **The REMASC transaction runs** when the distribution does and creates no supply. -/
theorem ExecEnv.runRemascTx_eq_ok {s : BlockStore} {l : Sublist} {st st' : RunState} :
  env.runRemascTx s l index st = .ok st' ↔ ∃ accrual j,
    env.remasc.processMinersFees s l.header.number l.header.minimumGasPrice
      (env.settledJournal l st) = .ok (accrual, j) ∧
    env.checkTxSupply l.header index st.journal.info j.endRemasc 0
      (if env.hardfork.hasRskip144 l.header.number then st.totalFees else 0) = .ok () ∧ { st with
      journal := j.endRemasc, remascTxSeen := true
      txResults := st.txResults ++ [⟨true, 0, [], j.logs, true, []⟩] } = st' := by
  unfold runRemascTx
  simp only [except_do_eq_ok, except_mapError_eq_ok, Except.ok.injEq]
  constructor
  · rintro ⟨⟨accrual, j⟩, hfees, ⟨⟩, hsupply, rfl⟩
    exact ⟨accrual, j, hfees, hsupply, rfl⟩
  rintro ⟨accrual, j, hfees, hsupply, rfl⟩
  exact ⟨⟨accrual, j⟩, hfees, (), hsupply, rfl⟩

@[simp] lemma Journal.info_endRemasc (j : Journal) : j.endRemasc.info = j.info := by
  simp [Journal.endRemasc, Journal.putRaw, Journal.takeLogs]

lemma ExecEnv.checkTxSupply_self {header : Header} {before : Address → AccountInfo} {j : Journal}
  (h : j.info = before) (settled : U256) :
  env.checkTxSupply header index before j 0 settled = .ok () := by
  simp [checkTxSupply, h, supplyChange_self, U256.saturatingAdd]

def Header.edges (h : Header) : List Int16 := (h.versionFields.bind (·.edges)).getD []

/-- The declared parallel ranges, then the sequential one. -/
def sublistRanges (edges : List Int16) (txCount : Nat) : List (Nat × Nat) × (Nat × Nat) :=
  let (parallel, start) := edges.foldl (fun (acc : List (Nat × Nat) × Nat) edge =>
    let stop := min edge.toInt.toNat txCount
    (if stop > acc.2 then acc.1 ++ [(acc.2, stop)] else acc.1, max acc.2 stop)) ([], 0)
  (parallel, (start, txCount))

/-- The parallel sublist of a transaction. A negative edge, cast to an unsigned word, is above every
index. -/
def sublistOf (index : Nat) (edges : List Int16) : Option Nat :=
  let id := edges.countP fun e => decide (e.toInt64.toUInt64.toNat ≤ index)
  if id < edges.length then some id else none

/-- With the balances a run changed for the supply check. -/
structure BlockExecutionResult where
  txResults : List TxResult
  gasUsed : UInt64
  paidFees : U256
  /-- The state after the block. -/
  world : World
  touched : List Address

namespace ExecEnv

variable (env : ExecEnv) (s : BlockStore) (header : Header)
  (transactions : List (Transaction × Address))

def executeAsOne (state : World) (discardUnfitting : Bool) :
  Except ExecutionError (BlockExecutionResult × RunState) :=
  (env.runSublist s ⟨header, transactions, 0, transactions.length, true, discardUnfitting⟩
    state 0).map fun st =>
      (⟨st.txResults, st.totalGas, st.totalFees, st.journal.applyStateChanges state,
        st.journal.touched⟩, st)

/-- Maintenance alone, every parallel sublist on what it left, their changes committed in order,
then the sequential set with their fees. -/
def executeInParallel (parallel : List (Nat × Nat)) (sequential : Nat × Nat) (state : World) :
  Except ExecutionError BlockExecutionResult := do
  let maintenance ← env.runSublist s ⟨header, transactions, 0, 0, true, false⟩ state 0
  let base := maintenance.journal.applyStateChanges state
  let runs ← parallel.mapM fun range =>
    env.runSublist s ⟨header, transactions, range.1, range.2, false, false⟩ base 0
  let root := runs.foldl (fun root run => run.journal.applyStateChanges root) base
  let feesCarried := (runs.map (·.totalFees)).sum
  let last ← env.runSublist s
    ⟨header, transactions, sequential.1, sequential.2, false, false⟩ root feesCarried
  .ok
    { txResults := runs.flatMap (·.txResults) ++ last.txResults
      gasUsed := maintenance.totalGas + (runs.map (·.totalGas)).sum + last.totalGas
      paidFees := last.totalFees
      world := last.journal.applyStateChanges root
      touched := maintenance.journal.touched ++ runs.flatMap (·.journal.touched) ++
        last.journal.touched }

def executeBlock (state : World) : Except ExecutionError BlockExecutionResult :=
  let (parallel, sequential) := sublistRanges header.edges transactions.length
  if env.executionThreads ≤ 1 ∨ parallel.length < 2 ∨
      ¬ env.hardfork.hasRskip144 header.number then
    (env.executeAsOne s header transactions state false).map Prod.fst
  else env.executeInParallel s header transactions parallel sequential state

/-- The miner's run, and the indices it dropped. -/
def executeBlockForMining (state : World) :
  Except ExecutionError (BlockExecutionResult × List Nat × List Nat) :=
  (env.executeAsOne s header transactions state true).map fun (result, st) =>
    (result, st.unfitting, st.invalid)

end ExecEnv

end Rustock
