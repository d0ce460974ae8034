import Rustock.Core.Mined
import Rustock.Execution.Processor

/-!
# Blocks of REMASC transactions alone

What the import path computes for a block that carries nothing but REMASC transactions, as
every block of an idle chain does: no gas, no fees and no balance moves
(`processBlock_remascOnly`). The statement is for a processor whose
roots are constant, so that a header can state them without being computed from them.
-/

namespace Rustock

open Lib List Journal

def RemascEnv.OnlyAccrues (env : RemascEnv) (s : BlockStore) (h : Header)
  (accrual : Option Accrual) : Prop :=
  ∀ j, ∃ j', env.processMinersFees s h.number h.minimumGasPrice j = .ok (accrual, j') ∧
    j'.info = j.info

variable {env : RemascEnv} {s : BlockStore}

lemma RemascEnv.onlyAccrues_young {h : Header}
  (hyoung : candidateNumber env.config h.number = none) : env.OnlyAccrues s h none := by
  intro j
  exact ⟨j, by rw [RemascEnv.processMinersFees, hyoung], rfl⟩

namespace ExecEnv

variable {env : ExecEnv} {s : BlockStore} {l : Sublist} {accrual : Option Accrual} {st : RunState}

lemma settledJournal_info (hfees : st.totalFees = 0) :
  (env.settledJournal l st).info = st.journal.info := by
  simp [settledJournal, hfees, touch, beginTx]

lemma runRemascTx_onlyAccrues (honly : env.remasc.OnlyAccrues s l.header accrual) (index : Nat)
  (hfees : st.totalFees = 0) : ∃ st', env.runRemascTx s l index st = .ok st' ∧ st'.totalFees = 0 ∧
    st'.totalGas = st.totalGas ∧ st'.journal.info = st.journal.info := by
  obtain ⟨j, hj, hinfo⟩ := honly (env.settledJournal l st)
  rw [settledJournal_info hfees] at hinfo
  have hend : j.endRemasc.info = st.journal.info := by rw [info_endRemasc, hinfo]
  exact ⟨_, runRemascTx_eq_ok.mpr ⟨accrual, j, hj, checkTxSupply_self hend _, rfl⟩, hfees,
    rfl, hend⟩

lemma foldlM_runTx_remascOnly (honly : env.remasc.OnlyAccrues s l.header accrual) :
  ∀ (entries : List ((Transaction × Address) × Nat)) (st : RunState),
    (∀ e ∈ entries, isRemascTx e.1.1 = true) → st.totalFees = 0 →
    ∃ st', entries.foldlM (env.runTx s l) st = .ok st' ∧ st'.totalFees = 0 ∧
      st'.totalGas = st.totalGas ∧ st'.journal.info = st.journal.info := by
  intro entries
  induction entries with
  | nil =>
    intro st _ hfees
    exact ⟨st, rfl, hfees, rfl, rfl⟩
  | cons e entries ih =>
    intro st hall hfees
    obtain ⟨st₁, hstep, hfees₁, hgas₁, hinfo₁⟩ := runRemascTx_onlyAccrues honly e.2 hfees
    obtain ⟨st₂, hrun, hfees₂, hgas₂, hinfo₂⟩ :=
      ih st₁ (fun e he => hall e (mem_cons_of_mem _ he)) hfees₁
    refine ⟨st₂, ?_, hfees₂, hgas₂.trans hgas₁, hinfo₂.trans hinfo₁⟩
    rw [foldlM_cons, except_do_eq_ok]
    refine ⟨st₁, ?_, hrun⟩
    rw [runTx, if_pos (hall e (mem_cons_self ..))]
    exact hstep

lemma executeBlock_remascOnly {h : Header} {transactions : List (Transaction × Address)}
  {state : World} (honly : env.remasc.OnlyAccrues s h accrual)
  (hall : ∀ e ∈ transactions, isRemascTx e.1 = true)
  (hrskip144 : env.hardfork.hasRskip144 h.number = false)
  (hmaintenance : env.maintenance h.number = []) :
  ∃ r, env.executeBlock s h transactions state = .ok r ∧ r.gasUsed = 0 ∧ r.paidFees = 0 ∧
    r.world.info = state.info := by
  let l : Sublist := ⟨h, transactions, 0, transactions.length, true, false⟩
  have hentries : l.entries = transactions.zipIdx := by simp [l, Sublist.entries, take_of_length_le]
  have hstart : env.startRun l state 0 = ⟨.start state, 0, 0, [], false, [], [], []⟩ := by
    simp [startRun, l, maintain, hmaintenance]
  obtain ⟨st, hrun, hfees, hgas, hinfo⟩ :=
    foldlM_runTx_remascOnly (l := l) honly l.entries (env.startRun l state 0)
      (by
        intro e he
        rw [hentries] at he
        exact hall e.1 (fst_mem_of_mem_zipIdx he))
      rfl
  rw [hstart] at hgas hinfo
  have hunclaimed : env.settleUnclaimed l st = st := by
    rw [settleUnclaimed, if_neg]
    rintro ⟨hpostpone, -⟩
    simp [l, hrskip144] at hpostpone
  refine ⟨⟨st.txResults, st.totalGas, st.totalFees, st.journal.applyStateChanges state,
    st.journal.touched⟩, ?_, hgas, hfees, ?_⟩
  · unfold executeBlock
    rcases sublistRanges h.edges transactions.length with ⟨parallel, sequential⟩
    dsimp only
    rw [if_pos (Or.inr (Or.inr (by simp [hrskip144])))]
    simp only [except_map_eq_ok, executeAsOne, runSublist]
    exact ⟨_, ⟨st, ⟨st, hrun, hunclaimed⟩, rfl⟩, rfl⟩
  · funext a
    simp only [applyStateChanges, hinfo]
    split <;> rfl

end ExecEnv

def remascTx : Transaction where
  nonce := 0
  gasPrice := 0
  gasLimit := 0
  recipient := remascAddr.bytes
  value := 0
  input := []
  v := 0
  r := 0
  s := 0

def emptyWorld : World := ⟨fun _ => ⟨0, 0, []⟩, fun _ _ => none, fun _ => false, 0⟩

namespace Processor

/-- A regtest processor with constant roots, no federation, and an EVM that refuses every
ordinary transaction. Both conservation checks are on. -/
def regtest : Processor where
  exec :=
    { hardfork := .regtest
      remasc :=
        { current := .regtest
          config := .regtest
          miningFeeTopic := .zero 32
          federators := fun _ _ _ => [] }
      evm := fun _ _ _ _ _ _ _ => .error (.refused "no ordinary transactions")
      maintenance := fun _ => []
      executionThreads := 1
      perTransaction := true
      perBlock := true }
  current := .regtest
  validateForkDetectionData := false
  recoverSender := fun _ => .error "no ordinary transactions"
  orderedTxTrieRoot := fun _ _ => .zero 32
  orderedTrieRoot := fun _ _ => .zero 32
  stateRoot := fun _ => .zero 32
  logsBloomOf := fun _ => .zero 256
  bloomUnion := fun bloom _ => bloom

lemma recoverSenders_remascOnly (p : Processor) {transactions : List Transaction}
  (hall : ∀ tx ∈ transactions, isRemascTx tx = true) :
  p.recoverSenders transactions = .ok (transactions.map fun tx => (tx, .zero 20)) := by
  have hlist : transactions.map (fun tx => (tx, FixedBytes.zero 20)) =
      transactions.zipIdx.map fun e => (e.1, .zero 20) := by
    conv_lhs => rw [← zipIdx_map_fst 0 transactions, map_map]
    rfl
  rw [hlist]
  refine mapM_eq_ok_map ?_
  rintro ⟨tx, i⟩ he
  exact if_pos (hall tx (fst_mem_of_mem_zipIdx he))

structure StatesNothing (h : Header) : Prop where
  transactionsRoot : h.transactionsRoot = .zero 32
  stateRoot : h.stateRoot = .zero 32
  receiptsRoot : h.receiptsRoot = .zero 32
  logsBloom : h.logsBloom = .zero 256
  gasUsed : h.gasUsed = 0
  paidFees : h.paidFees = 0

/-- **A block of REMASC transactions is processed.** -/
theorem processBlock_remascOnly {s : BlockStore} {block : Block} {state : World}
  {accrual : Option Accrual} (hstates : StatesNothing block.header)
  (hommers : block.header.ommersHash = computeOmmersHash block.ommers)
  (honly : regtest.exec.remasc.OnlyAccrues s block.header accrual)
  (hall : ∀ tx ∈ block.transactions, isRemascTx tx = true) :
  ∃ r, regtest.processBlock s block state = .ok r := by
  have hsenders := regtest.recoverSenders_remascOnly hall
  obtain ⟨r, hr, hgas, hfees, hinfo⟩ :=
    @ExecEnv.executeBlock_remascOnly regtest.exec s accrual block.header
      (block.transactions.map fun tx => (tx, .zero 20)) state honly
      (by
        intro e he
        obtain ⟨tx, htx, rfl⟩ := mem_map.mp he
        exact hall tx htx)
      rfl rfl
  refine ⟨regtest.processed block.header r, processBlock_eq_ok.mpr ⟨?_, ?_⟩⟩
  · refine executeBlock_eq_ok.mpr ⟨_, r, hsenders, hr, ?_, ?_, rfl⟩
    · intro hsplits
      simp [splits, regtest, HardforkConfig.regtest, HardforkConfig.hasRskip144] at hsplits
    · simp [hinfo, supplyChange_self]
  have hbloom : ∀ (receipts : List Receipt) (bloom : Bloom),
      receipts.foldl (fun bloom r => regtest.bloomUnion bloom r.logsBloom) bloom = bloom := by
    intro receipts bloom
    induction receipts with
    | nil => rfl
    | cons r receipts ih => exact ih
  exact
    { transactionsRoot := hstates.transactionsRoot
      ommersHash := hommers
      gasUsed := hstates.gasUsed.trans hgas.symm
      paidFees := hstates.paidFees.trans hfees.symm
      stateRoot := fun _ => hstates.stateRoot
      receiptsRoot := hstates.receiptsRoot
      logsBloom := hstates.logsBloom.trans (hbloom _ _).symm }

lemma validateBlock_remascOnly {s : BlockStore} {block : Block}
  (hall : ∀ tx ∈ block.transactions, isRemascTx tx = true) (hsome : block.transactions ≠ [])
  (hextra : block.header.extraData = []) (hprice : block.header.minimumGasPrice = 0)
  (hparent : ∀ parent, s.headers block.header.parentHash = some parent → parent.minimumGasPrice = 0)
  (hommers : (regtest.unclesRule s).validate block = .ok ()) :
  regtest.validateBlock s block = .ok () := by
  have hmin : txsMinGasPriceRule block = .ok () := by
    rw [txsMinGasPriceRule, runAll_eq_ok_iff]
    intro tx htx
    simp [hall tx htx]
  have hmax : blockTxsMaxGasPriceRule (rskip252HeightFor regtest.exec.hardfork.chainId) block =
      .ok () := by
    rw [blockTxsMaxGasPriceRule, if_pos (Or.inr hprice)]
  have hremasc : remascValidationRule block = .ok () :=
    remascValidationRule_eq_ok_iff.mpr ⟨_, getLast?_eq_some_getLast hsome,
      hall _ (getLast_mem hsome)⟩
  have hdata : extraDataRule block.header = .ok () := by rw [extraDataRule, hextra]; rfl
  have hbody : regtest.validateBlockBodyRules block (s.headers block.header.parentHash) =
      .ok () := by
    simp only [validateBlockBodyRules, hmin, hmax, hremasc, hdata, Except.bind]
    cases h : s.headers block.header.parentHash with
    | none => rfl
    | some parent =>
      dsimp only
      rw [prevMinGasPriceRule]
      split
      · rfl
      · rw [hparent parent h, hprice]; rfl
  rw [validateBlock, validateBlockRules]
  split
  · rfl
  rw [hbody, hommers]
  rfl

end Processor

namespace RegtestChain

lemma noOmmers_eq : computeOmmersHash [] = noOmmers := by decide +kernel

end RegtestChain

end Rustock
