import Rustock.Core.Ancestry
import Rustock.Execution.Executor

/-!
# The block processor

`BlockProcessor` (crates/execution/src/processor.rs): the rules a body has to pass before it
is executed (`validateBlock`), and its execution with every result compared against the
header (`processBlock`). A block is imported when both accept it.

`validateBlockRules` hands the uncle rule **empty** lists of header rules and parent rules
(processor.rs), where the guard on headers that come with their uncles hands it the
verifier's own (`Rustock.Sync.UncleGuard`).
-/

namespace Rustock

open Lib Except

inductive ProcessError where
  | senderRecovery (index : Nat) (reason : String)
  | execution (reason : ExecutionError)
  | gasUsedMismatch (header computed : UInt64)
  | paidFeesMismatch (header computed : U256)
  | stateRootMismatch (header computed : B256)
  | receiptsRootMismatch (header computed : B256)
  | transactionsRootMismatch (header computed : B256)
  | ommersHashMismatch (header computed : B256)
  | logsBloomMismatch
  | supplyCreated (number : UInt64) (created : U256)
  | sublistCollision (number : UInt64)
  | sequentialOnlyPrecompileInParallelSublist (number : UInt64) (index sublist : Nat)
deriving DecidableEq

structure Receipt where
  success : Bool
  cumulativeGas : UInt64
  gasUsed : UInt64
  logsBloom : Bloom
  logs : List Log
deriving DecidableEq

structure ProcessedBlock where
  receipts : List Receipt
  gasUsed : UInt64
  paidFees : U256
  newState : World
  stateRootHash : B256
  receiptsRoot : B256
  logsBloom : Bloom

/-- What the processor is built on. The roots and the bloom are functions of the data they
commit to; sender recovery is the curve arithmetic. -/
structure Processor where
  exec : ExecEnv
  current : ActivationHeights
  validateForkDetectionData : Bool
  recoverSender : Transaction → Except String Address
  orderedTxTrieRoot : Bool → List Transaction → B256
  orderedTrieRoot : Bool → List Receipt → B256
  stateRoot : World → B256
  logsBloomOf : List Log → Bloom
  bloomUnion : Bloom → Bloom → Bloom

def storeAncestry (s : BlockStore) : AncestorSource where
  header := s.headers
  unclesOf hash := ((s.bodies hash).getD ([], [])).2

def computeOmmersHash (ommers : List Header) : B256 :=
  keccak256 (Rlp.list (ommers.map Header.encode))

def rskip252HeightFor (chainId : UInt8) : UInt64 :=
  if chainId = 30 then 5468000 else if chainId = 31 then 4015800 else 0

namespace Processor

variable (p : Processor) (s : BlockStore)

def rskip110Height : UInt64 := if p.exec.hardfork.chainId = 30 then 1591000 else 0

variable (block : Block)

def validateBlockBodyRules (parent : Option Header) : Verdict :=
  (txsMinGasPriceRule block).bind fun _ =>
  (blockTxsMaxGasPriceRule (rskip252HeightFor p.exec.hardfork.chainId) block).bind fun _ =>
  (remascValidationRule block).bind fun _ =>
  (extraDataRule block.header).bind fun _ =>
  match parent with
  | some parent => prevMinGasPriceRule block.header parent
  | none => .ok ()

def unclesRule : UnclesValidationRule where
  current := p.current
  store := storeAncestry s
  uncleListLimit := uncleListLimit
  uncleGenerationLimit := uncleGenerationLimit
  headerRules := []
  parentRules := []

def validateBlockRules (parent : Option Header) : Verdict :=
  if block.header.number = 0 then .ok ()
  else
    (p.validateBlockBodyRules block parent).bind fun _ =>
    ((p.unclesRule s).validate block).bind fun _ =>
    if p.validateForkDetectionData then
      forkDetectionRule block.header (extractForkDetectionData block.header) (storeAncestry s)
        p.rskip110Height
    else .ok ()

def validateBlock : Verdict :=
  p.validateBlockRules s block (s.headers block.header.parentHash)

def recoverSenders (transactions : List Transaction) :
  Except ProcessError (List (Transaction × Address)) :=
  transactions.zipIdx.mapM fun (tx, i) =>
    if isRemascTx tx then .ok (tx, .zero 20)
    else ((p.recoverSender tx).mapError (.senderRecovery i)).map fun sender => (tx, sender)

variable (edges : List Int16) (results : List TxResult)

def firstCollision : Bool :=
  results.zipIdx.any fun (a, i) => results.zipIdx.any fun (b, j) =>
    match sublistOf i edges, sublistOf j edges with
    | some x, some y => decide (x ≠ y) && a.keys.any fun k => b.keys.any fun l =>
        k.1 == l.1 && (k.2 || l.2)
    | _, _ => false

/-- The first transaction of a parallel sublist that reached REMASC or the Bridge. -/
def sequentialOnlyInParallel : Option (Nat × Nat) :=
  results.zipIdx.findSome? fun (r, i) =>
    if r.reachedSequentialOnly then (sublistOf i edges).map fun sublist => (i, sublist)
    else none

def nextCumulativeGas (running : UInt64) (index : Nat) (gasUsed : UInt64)
  (sublistStarts : List Int16) : UInt64 :=
  (if (Int16.ofNat index) ∈ sublistStarts then 0 else running) + gasUsed

def receipts : List Receipt :=
  (results.zipIdx.foldl (fun (acc : List Receipt × UInt64) (entry : TxResult × Nat) =>
    let cumulative := nextCumulativeGas acc.2 entry.2 entry.1.gasUsed edges
    (acc.1 ++ [⟨entry.1.success, cumulative, entry.1.gasUsed, p.logsBloomOf entry.1.logs,
      entry.1.logs⟩], cumulative)) ([], 0)).1

def executeBlock (state : World) : Except ProcessError ProcessedBlock := do
  let header := block.header
  let transactions ← p.recoverSenders block.transactions
  let result ← (p.exec.executeBlock s header transactions state).mapError .execution
  let split := !header.edges.isEmpty && p.exec.hardfork.hasRskip144 header.number
  if split && firstCollision header.edges result.txResults then
    .error (.sublistCollision header.number)
  else
    match if split then sequentialOnlyInParallel header.edges result.txResults else none with
    | some (index, sublist) =>
      .error (.sequentialOnlyPrecompileInParallelSublist header.number index sublist)
    | none =>
      let receipts := p.receipts header.edges result.txResults
      let (inflow, outflow) := supplyChange state.info result.world.info result.touched
      if p.exec.perBlock ∧ outflow < inflow then
        .error (.supplyCreated header.number (inflow - outflow))
      else
        .ok
          { receipts
            gasUsed := result.gasUsed
            paidFees := result.paidFees
            newState := result.world
            stateRootHash := p.stateRoot result.world
            receiptsRoot := p.orderedTrieRoot
              (p.exec.hardfork.hasUnitrieStateRoot header.number) receipts
            logsBloom := receipts.foldl (fun bloom r => p.bloomUnion bloom r.logsBloom)
              (.zero 256) }

/-- Reject with `e` unless the header says what was computed. -/
def expect {α : Type} [DecidableEq α] (header computed : α) (e : ProcessError) :
  Except ProcessError Unit :=
  if computed = header then .ok () else .error e

/-- Without the diagnostic comparison of Orchid roots. -/
def processBlock (state : World) : Except ProcessError ProcessedBlock := do
  let header := block.header
  let unitrie := p.exec.hardfork.hasUnitrieStateRoot header.number
  let txRoot := p.orderedTxTrieRoot unitrie block.transactions
  expect header.transactionsRoot txRoot (.transactionsRootMismatch header.transactionsRoot txRoot)
  let ommersHash := computeOmmersHash block.ommers
  expect header.ommersHash ommersHash (.ommersHashMismatch header.ommersHash ommersHash)
  let result ← p.executeBlock s block state
  expect header.gasUsed result.gasUsed (.gasUsedMismatch header.gasUsed result.gasUsed)
  expect header.paidFees result.paidFees (.paidFeesMismatch header.paidFees result.paidFees)
  if unitrie then
    expect header.stateRoot result.stateRootHash
      (.stateRootMismatch header.stateRoot result.stateRootHash)
  expect header.receiptsRoot result.receiptsRoot
    (.receiptsRootMismatch header.receiptsRoot result.receiptsRoot)
  expect header.logsBloom result.logsBloom .logsBloomMismatch
  .ok result

def splits (header : Header) : Bool :=
  !header.edges.isEmpty && p.exec.hardfork.hasRskip144 header.number

/-- What `execute_block` returns for an execution's result. -/
def processed (header : Header) (result : BlockExecutionResult) : ProcessedBlock :=
  let receipts := p.receipts header.edges result.txResults
  { receipts
    gasUsed := result.gasUsed
    paidFees := result.paidFees
    newState := result.world
    stateRootHash := p.stateRoot result.world
    receiptsRoot := p.orderedTrieRoot (p.exec.hardfork.hasUnitrieStateRoot header.number) receipts
    logsBloom := receipts.foldl (fun bloom r => p.bloomUnion bloom r.logsBloom) (.zero 256) }

variable {p s} {state : World} {r : ProcessedBlock}

lemma executeBlock_eq_ok {block : Block} :
  p.executeBlock s block state = .ok r ↔ ∃ transactions result,
    p.recoverSenders block.transactions = .ok transactions ∧
    p.exec.executeBlock s block.header transactions state = .ok result ∧
    (p.splits block.header = true → firstCollision block.header.edges result.txResults = false ∧
      sequentialOnlyInParallel block.header.edges result.txResults = none) ∧
    ¬ (p.exec.perBlock ∧ (supplyChange state.info result.world.info result.touched).2 <
      (supplyChange state.info result.world.info result.touched).1) ∧
    p.processed block.header result = r := by
  have hfold : (!block.header.edges.isEmpty && p.exec.hardfork.hasRskip144 block.header.number) =
      p.splits block.header := rfl
  simp only [executeBlock, except_do_eq_ok, except_mapError_eq_ok, hfold]
  constructor
  · rintro ⟨transactions, hsenders, result, hresult, h⟩
    refine ⟨transactions, result, hsenders, hresult, ?_⟩
    split at h
    · simp at h
    rename_i hcollision
    split at h
    · simp at h
    rename_i hnone
    split at h
    · simp at h
    rename_i hsupply
    refine ⟨?_, hsupply, ok.inj h⟩
    intro hsplits
    simp only [hsplits, Bool.true_and, Bool.not_eq_true, if_true] at hcollision hnone
    exact ⟨hcollision, hnone⟩
  rintro ⟨transactions, result, hsenders, hresult, hsplits, hsupply, rfl⟩
  refine ⟨transactions, hsenders, result, hresult, ?_⟩
  by_cases hs : p.splits block.header = true
  · simp only [hs, hsplits hs, Bool.and_false, if_true, Bool.false_eq_true, if_false,
      if_neg hsupply]
    rfl
  simp only [Bool.not_eq_true] at hs
  simp only [hs, Bool.false_and, Bool.false_eq_true, if_false, if_neg hsupply]
  rfl

lemma expect_eq_ok {α : Type} [DecidableEq α] {header computed : α} {e : ProcessError} :
  expect header computed e = .ok () ↔ header = computed := by
  rw [expect, @eq_comm _ header]
  split <;> simp [*]

structure Committed (p : Processor) (block : Block) (r : ProcessedBlock) : Prop where
  transactionsRoot : block.header.transactionsRoot = p.orderedTxTrieRoot
    (p.exec.hardfork.hasUnitrieStateRoot block.header.number) block.transactions
  ommersHash : block.header.ommersHash = computeOmmersHash block.ommers
  gasUsed : block.header.gasUsed = r.gasUsed
  paidFees : block.header.paidFees = r.paidFees
  stateRoot : p.exec.hardfork.hasUnitrieStateRoot block.header.number = true →
    block.header.stateRoot = r.stateRootHash
  receiptsRoot : block.header.receiptsRoot = r.receiptsRoot
  logsBloom : block.header.logsBloom = r.logsBloom

lemma processBlock_eq_ok {block : Block} : p.processBlock s block state = .ok r ↔
    p.executeBlock s block state = .ok r ∧ p.Committed block r := by
  have hexpect : ∀ {α : Type} [DecidableEq α] {header computed : α} {e : ProcessError} {u : Unit},
      expect header computed e = .ok u ↔ header = computed := expect_eq_ok
  simp only [processBlock, except_do_eq_ok, hexpect]
  constructor
  · rintro ⟨⟨⟩, htx, ⟨⟩, hommers, r', hr, ⟨⟩, hgas, ⟨⟩, hfees, h⟩
    split at h
    · simp only [except_do_eq_ok, hexpect, ok.injEq] at h
      obtain ⟨⟨⟩, hstate, ⟨⟩, hreceipts, ⟨⟩, hbloom, rfl⟩ := h
      exact ⟨hr, htx, hommers, hgas, hfees, fun _ => hstate, hreceipts, hbloom⟩
    rename_i horchid
    simp only [except_do_eq_ok, hexpect, ok.injEq] at h
    obtain ⟨⟨⟩, hreceipts, ⟨⟩, hbloom, rfl⟩ := h
    exact ⟨hr, htx, hommers, hgas, hfees, fun h => absurd h horchid, hreceipts, hbloom⟩
  rintro ⟨hr, hc⟩
  refine ⟨(), hc.transactionsRoot, (), hc.ommersHash, r, hr, (), hc.gasUsed, (), hc.paidFees, ?_⟩
  split
  · rename_i hunitrie
    simp only [except_do_eq_ok, hexpect]
    exact ⟨(), hc.stateRoot hunitrie, (), hc.receiptsRoot, (), hc.logsBloom, trivial⟩
  simp only [except_do_eq_ok, hexpect]
  exact ⟨(), hc.receiptsRoot, (), hc.logsBloom, trivial⟩

variable (p s)

def Accepts (state : World) (result : ProcessedBlock) : Prop :=
  p.validateBlock s block = .ok () ∧ p.processBlock s block state = .ok result

end Processor

end Rustock
