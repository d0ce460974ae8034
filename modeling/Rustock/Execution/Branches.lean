import Rustock.Execution.RemascBlock

/-!
# Execution on a branch

Blocks reach their ancestors in two ways: the uncle rule and the fork-detection rule walk
parent hashes, while BLOCKHASH, the BlockHeader precompile and REMASC ask the canonical index
for a height. The second kind sees whatever branch the index follows.
-/

namespace Rustock

open Lib List Option UInt64 ExecEnv Processor Function
open UInt64 (ofNat toNat_inj toNat_add size)

/-- Heights below `header` by walking its parent hashes; above, as in `s`. -/
def ancestralIndex (s : BlockStore) (header : Header) (height : UInt64) : Option B256 :=
  if height < header.number then
    (((storeAncestry s).walk 0 header.number.toNat header.parentHash).find?
      fun entry => entry.2.number = height).map Prod.fst
  else s.numbers height

/-- The same store with a canonical index that follows the ancestors of `header`. -/
def onAncestors (s : BlockStore) (header : Header) : BlockStore :=
  { s with numbers := ancestralIndex s header }

structure SameBlocks (s s' : BlockStore) : Prop where
  headers : s.headers = s'.headers
  bodies : s.bodies = s'.bodies
  totalDifficulty : s.totalDifficulty = s'.totalDifficulty

lemma sameBlocks_onAncestors (s : BlockStore) (header : Header) :
  SameBlocks s (onAncestors s header) :=
  ⟨rfl, rfl, rfl⟩

/-- Every entry of the index below `number` is a stored header. -/
def IndexStored (s : BlockStore) (number : UInt64) : Prop :=
  ∀ height hash, height < number → s.numbers height = some hash → (s.headers hash).isSome

lemma indexStored_onAncestors (s : BlockStore) (header : Header) :
  IndexStored (onAncestors s header) header.number := by
  intro height hash hlt hindex
  have hentry : (((storeAncestry s).walk 0 header.number.toNat header.parentHash).find?
      fun entry => entry.2.number = height).map Prod.fst = some hash := by
    rw [← hindex]
    exact (if_pos hlt).symm
  obtain ⟨⟨h, x⟩, hfind, rfl⟩ := map_eq_some_iff.mp hentry
  have hheld := AncestorSource.header_of_mem_walk (mem_of_find?_eq_some hfind)
  exact isSome_iff_exists.mpr ⟨x, hheld⟩

/-- The indexes agree on every height a block at height `number` can reach. -/
def IndexAgrees (s s' : BlockStore) (number : UInt64) : Prop :=
  ∀ height, height < number → number.toNat ≤ height.toNat + maxBlockDepth →
    s.numbers height = s'.numbers height

section Reads

variable {s s' : BlockStore} {number : UInt64}

lemma height_of_depth {depth : Nat} (h : depth + 1 ≤ number.toNat) :
  (ofNat (number.toNat - 1 - depth)).toNat = number.toNat - 1 - depth := by
  have hlt := number.toNat_lt
  have hsize : size = 2 ^ 64 := rfl
  rw [toNat_ofNat_of_lt']
  omega

lemma chainReads_congr (hblocks : SameBlocks s s') (hagrees : IndexAgrees s s' number) :
  chainReads s number = chainReads s' number := by
  unfold chainReads
  congr 1
  · funext n
    by_cases hn : n < number ∧ number - n ≤ 256
    · rw [if_pos hn, if_pos hn]
      refine hagrees n hn.1 ?_
      have hle := le_iff_toNat_le.mp hn.2
      rw [UInt64.toNat_sub_of_le _ _ (UInt64.le_of_lt hn.1)] at hle
      have : (256 : UInt64).toNat = 256 := rfl
      simp only [maxBlockDepth]
      omega
    · rw [if_neg hn, if_neg hn]
  funext depth
  by_cases hd : depth < maxBlockDepth ∧ depth + 1 ≤ number.toNat
  · have hheight := height_of_depth hd.2
    have hsame := hagrees (ofNat (number.toNat - 1 - depth))
      (lt_iff_toNat_lt.mpr (by omega)) (by omega)
    rw [if_pos hd, if_pos hd, hsame, hblocks.headers, hblocks.bodies, hblocks.totalDifficulty]
  · rw [if_neg hd, if_neg hd]

/-- **What contracts can read determines the index.** -/
theorem indexAgrees_of_chainReads (hstored : IndexStored s number)
  (hstored' : IndexStored s' number) (hreads : chainReads s number = chainReads s' number) :
  IndexAgrees s s' number := by
  intro height hlt hreach
  have hbelow := lt_iff_toNat_lt.mp hlt
  have hdepth := congrFun (congrArg ChainReads.blockHeader hreads)
    (number.toNat - 1 - height.toNat)
  have hin : number.toNat - 1 - height.toNat < maxBlockDepth ∧
      number.toNat - 1 - height.toNat + 1 ≤ number.toNat := by omega
  have hheight : ofNat (number.toNat - 1 - (number.toNat - 1 - height.toNat)) = height := by
    rw [← toNat_inj, height_of_depth hin.2]
    omega
  simp only [chainReads, if_pos hin, hheight] at hdepth
  cases h : s.numbers height with
  | none =>
    cases h' : s'.numbers height with
    | none => rfl
    | some hash' =>
      obtain ⟨x, hx⟩ := isSome_iff_exists.mp (hstored' height hash' hlt h')
      simp [h, h', hx] at hdepth
  | some hash =>
    obtain ⟨x, hx⟩ := isSome_iff_exists.mp (hstored height hash hlt h)
    cases h' : s'.numbers height with
    | none => simp [h, h', hx] at hdepth
    | some hash' =>
      obtain ⟨x', hx'⟩ := isSome_iff_exists.mp (hstored' height hash' hlt h')
      simp only [h, h', hx, hx', bind_some, map_some, some.injEq,
        BlockRead.mk.injEq] at hdepth
      rw [hdepth.1]

lemma siblingsAt_congr {current : ActivationHeights} {candidate height : UInt64}
  (hblocks : SameBlocks s s') (hindex : s.numbers height = s'.numbers height) :
  siblingsAt current s candidate height = siblingsAt current s' candidate height := by
  unfold siblingsAt
  rw [hindex, hblocks.headers, hblocks.bodies]

lemma processMinersFees_congr {env : RemascEnv} (hblocks : SameBlocks s s')
  (hagrees : IndexAgrees s s' number) (price : U256) (j : Journal) :
  env.processMinersFees s number price j = env.processMinersFees s' number price j := by
  unfold RemascEnv.processMinersFees
  cases hcandidate : candidateNumber env.config number with
  | none => rfl
  | some candidate =>
    obtain ⟨hmature, rfl⟩ : (env.config.maturity ≤ number ∧ 1 ≤ number - env.config.maturity) ∧
        number - env.config.maturity = candidate := by
      simpa [candidateNumber, ite_none_right_eq_some] using hcandidate
    obtain ⟨hafter, hreach⟩ := env.config.maturity_window
    have hcandidateNat := UInt64.toNat_sub_of_le _ _ hmature.1
    have hnat : 7 < env.config.maturity.toNat ∧ env.config.maturity.toNat ≤ 4000 ∧
        env.config.maturity.toNat ≤ number.toNat :=
      ⟨lt_iff_toNat_lt.mp hafter, le_iff_toNat_le.mp hreach, le_iff_toNat_le.mp hmature.1⟩
    have hindex : s.numbers (number - env.config.maturity) =
        s'.numbers (number - env.config.maturity) :=
      hagrees _ (lt_iff_toNat_lt.mpr (by omega)) (by simp only [maxBlockDepth]; omega)
    have hsiblings : collectSiblings env.current s (number - env.config.maturity) number =
        collectSiblings env.current s' (number - env.config.maturity) number := by
      unfold collectSiblings
      refine flatMap_congr fun height hheight => siblingsAt_congr hblocks ?_
      obtain ⟨hmem, hbetween⟩ := mem_filter.mp hheight
      obtain ⟨i, hi, rfl⟩ := List.mem_map.mp hmem
      have hlt : i < 7 := mem_range.mp hi
      have hnumber := number.toNat_lt
      have hheightNat : (number - env.config.maturity + 1 + ofNat i).toNat =
          number.toNat - env.config.maturity.toNat + 1 + i := by
        have hone : (1 : UInt64).toNat = 1 := rfl
        have hturn : (ofNat i).toNat = i :=
          toNat_ofNat_of_lt' (Nat.lt_trans hlt (by decide))
        rw [toNat_add, toNat_add, hcandidateNat, hone, hturn]
        omega
      exact hagrees _ (lt_iff_toNat_lt.mpr (by omega)) (by simp only [maxBlockDepth]; omega)
    dsimp only
    rw [hindex, hblocks.headers, hsiblings]

end Reads

section Execution

variable {env : ExecEnv} {s s' : BlockStore} {header : Header} {l : Sublist}

/-- **Execution sees the store through what it reads.** -/
theorem runTx_congr (hreads : chainReads s header.number = chainReads s' header.number)
  (hfees : ∀ price j, env.remasc.processMinersFees s header.number price j =
    env.remasc.processMinersFees s' header.number price j) (hl : l.header = header) :
  env.runTx s l = env.runTx s' l := by
  subst hl
  funext st e
  unfold ExecEnv.runTx runRemascTx runOrdinaryTx
  simp only [hreads, hfees]

lemma runSublist_congr (hreads : chainReads s header.number = chainReads s' header.number)
  (hfees : ∀ price j, env.remasc.processMinersFees s header.number price j =
    env.remasc.processMinersFees s' header.number price j) (hl : l.header = header) :
  env.runSublist s l = env.runSublist s' l := by
  funext state fees
  rw [runSublist, runSublist, runTx_congr hreads hfees hl]

variable (hblocks : SameBlocks s s') (hagrees : IndexAgrees s s' header.number)
include hblocks hagrees

variable (transactions : List (Transaction × Address))

lemma executeBlock_congr (state : World) : env.executeBlock s header transactions state =
    env.executeBlock s' header transactions state := by
  have hrun : ∀ l : Sublist, l.header = header → env.runSublist s l = env.runSublist s' l :=
    fun l hl => runSublist_congr (chainReads_congr hblocks hagrees)
      (processMinersFees_congr hblocks hagrees) hl
  unfold ExecEnv.executeBlock ExecEnv.executeAsOne ExecEnv.executeInParallel
  simp only [hrun]

lemma executeBlockForMining_congr (state : World) :
  env.executeBlockForMining s header transactions state =
    env.executeBlockForMining s' header transactions state := by
  have hrun : ∀ l : Sublist, l.header = header → env.runSublist s l = env.runSublist s' l :=
    fun l hl => runSublist_congr (chainReads_congr hblocks hagrees)
      (processMinersFees_congr hblocks hagrees) hl
  unfold executeBlockForMining ExecEnv.executeAsOne
  simp only [hrun]

end Execution

def Processor.withEvm (p : Processor) (evm : Evm) : Processor :=
  { p with exec := { p.exec with evm } }

structure SameExecution (p : Processor) (s s' : BlockStore) (header : Header) : Prop where
  validate : ∀ transactions ommers,
    p.validateBlock s ⟨header, transactions, ommers⟩ =
      p.validateBlock s' ⟨header, transactions, ommers⟩
  process : ∀ transactions ommers state,
    p.processBlock s ⟨header, transactions, ommers⟩ state =
      p.processBlock s' ⟨header, transactions, ommers⟩ state
  trace : ∀ transactions ommers state,
    p.executeBlock s ⟨header, transactions, ommers⟩ state =
      p.executeBlock s' ⟨header, transactions, ommers⟩ state
  mine : ∀ transactions state,
    p.exec.executeBlockForMining s header transactions state =
      p.exec.executeBlockForMining s' header transactions state

variable {p : Processor} {s s' : BlockStore}

lemma validateBlock_congr (hblocks : SameBlocks s s') (block : Block) :
  p.validateBlock s block = p.validateBlock s' block := by
  have hancestry : storeAncestry s = storeAncestry s' := by
    unfold storeAncestry
    rw [hblocks.headers, hblocks.bodies]
  simp only [validateBlock, validateBlockRules, unclesRule,
    hancestry, hblocks.headers]

variable {header : Header}

lemma sameExecution_of_indexAgrees (hblocks : SameBlocks s s')
  (hagrees : IndexAgrees s s' header.number) : SameExecution p s s' header := by
  have htrace : ∀ transactions ommers state,
      p.executeBlock s ⟨header, transactions, ommers⟩ state =
        p.executeBlock s' ⟨header, transactions, ommers⟩ state := by
    intro transactions ommers state
    simp only [Processor.executeBlock, executeBlock_congr hblocks hagrees]
  refine ⟨fun _ _ => validateBlock_congr hblocks _, ?_, htrace, ?_⟩
  · intro transactions ommers state
    simp only [Processor.processBlock, htrace]
  · exact executeBlockForMining_congr hblocks hagrees

lemma mine_reads {env : ExecEnv} (answer : ChainReads → String) (state : World) (tx : Transaction)
  (hordinary : isRemascTx tx = false) (hgas : tx.gasLimit = 0)
  (hevm : env.evm = fun reads _ _ _ _ _ _ => .error (.database (answer reads))) :
  env.executeBlockForMining s header [(tx, .zero 20)] state =
    .error (.evm (.database (answer (chainReads s header.number)))) := by
  let l : Sublist := ⟨header, [(tx, .zero 20)], 0, 1, true, true⟩
  have hentries : l.entries = [((tx, .zero 20), 0)] := rfl
  have hfits : saturatingAdd64 0 (saturatingToU64 tx.gasLimit) = 0 := by
    rw [hgas]
    decide
  have hturn : env.runTx s l (env.startRun l state 0) ((tx, .zero 20), 0) =
      .error (.evm (.database (answer (chainReads s header.number)))) := by
    have hgasZero : (env.startRun l state 0).totalGas = 0 := rfl
    have hdropped : (env.startRun l state 0).droppedSenders = [] := rfl
    rw [ExecEnv.runTx, if_neg (by simp [hordinary])]
    simp only [hgasZero, hfits, hdropped, UInt64.zero_le, not_mem_nil]
    simp [runOrdinaryTx, hevm, l]
  have hrun : env.runSublist s l state 0 =
      .error (.evm (.database (answer (chainReads s header.number)))) := by
    rw [runSublist, hentries, foldlM_cons, hturn]
    rfl
  rw [executeBlockForMining, ExecEnv.executeAsOne]
  change Except.map _ (Except.map _ (env.runSublist s l state 0)) = _
  rw [hrun]
  rfl

/-- **Execution depends on ancestry alone exactly when the index agrees with it.** Whatever
the EVM does, validation, import, tracing and mining of a block cannot tell the store from
the one whose index follows the block's own ancestors, iff the two indexes agree on the
heights within reach. -/
theorem execution_depends_on_ancestry_iff (p : Processor) (s : BlockStore) (header : Header)
  (hstored : IndexStored s header.number) :
  (∀ evm, SameExecution (p.withEvm evm) s (onAncestors s header) header) ↔
    IndexAgrees s (onAncestors s header) header.number := by
  have hblocks := sameBlocks_onAncestors s header
  constructor
  · intro hsame
    refine indexAgrees_of_chainReads hstored (indexStored_onAncestors s header) ?_
    -- Take the EVM that says which store it is run in.
    classical
    let answer : ChainReads → String := fun reads =>
      if reads = chainReads s header.number then "here" else "elsewhere"
    have hmine := (hsame fun reads _ _ _ _ _ _ => .error (.database (answer reads))).mine
      [({ remascTx with recipient := [] }, .zero 20)] emptyWorld
    rw [mine_reads answer emptyWorld _ (by decide) rfl rfl,
      mine_reads answer emptyWorld _ (by decide) rfl rfl] at hmine
    have hanswer : answer (chainReads s header.number) =
        answer (chainReads (onAncestors s header) header.number) := by
      simpa using hmine
    by_contra hdiffer
    have hhere : answer (chainReads s header.number) = "here" := if_pos rfl
    have helsewhere : answer (chainReads (onAncestors s header) header.number) = "elsewhere" :=
      if_neg fun h => hdiffer h.symm
    rw [hhere, helsewhere] at hanswer
    exact absurd hanswer (by decide)
  intro hagrees evm
  exact sameExecution_of_indexAgrees hblocks hagrees

namespace RegtestChain

/-- Two blocks on genesis, with an index that follows the branch of `tip`. -/
def forked (tip : B256) : BlockStore where
  headers := update (update (update (fun _ => none)
    root (some genesis.stored)) firstHash (some first.stored)) childHash (some child.stored)
  totalDifficulty := fun _ => none
  numbers := update (update (fun _ => none) 0 (some root)) 1 (some tip)
  bodies := fun hash =>
    if hash = firstHash ∨ hash = childHash then some ([remascTx], []) else none
  head := some tip
  execHead := none
  pruneFloor := none

/-- A block on `child`. -/
def grandchild : Header := { Header.unmined childHash 2 with ommersHash := noOmmers }

def askingTx : Transaction := { remascTx with recipient := [] }

/-- A node whose one contract asks for the hash of block one, and fails if it is not
`child`'s. Its receipts root tells a failed receipt from a successful one. -/
def asking : Processor :=
  { regtest with
    exec :=
      { regtest.exec with
        evm := fun reads _ _ _ _ _ j =>
          .ok (⟨decide (reads.blockHash 1 = some childHash), 0, 0, [], [], false, []⟩, j) }
    recoverSender := fun _ => .ok (.zero 20)
    orderedTrieRoot := fun _ receipts =>
      if receipts.all (·.success) then .zero 32 else .ofBytes 32 (List.replicate 32 1) }

lemma executeBlock_asking (s : BlockStore) : ∃ r,
  asking.executeBlock s ⟨grandchild, [askingTx, remascTx], []⟩ emptyWorld = .ok r ∧
    r.gasUsed = 0 ∧ r.paidFees = 0 ∧ r.stateRootHash = .zero 32 ∧ r.logsBloom = .zero 256 ∧
    r.receiptsRoot = if decide (s.numbers 1 = some childHash) && (true && true) then .zero 32
      else .ofBytes 32 (List.replicate 32 1) :=
  ⟨_, rfl, rfl, rfl, rfl, rfl, rfl⟩

lemma walk_grandchild (tip : B256) : (storeAncestry (forked tip)).walk 0 2 childHash =
  [(childHash, child.stored), (root, genesis.stored)] := by
  have hdiffer : root ≠ childHash ∧ root ≠ firstHash := by decide
  have hchild : (storeAncestry (forked tip)).header childHash = some child.stored := by
    simp [storeAncestry, forked]
  have hroot : (storeAncestry (forked tip)).header root = some genesis.stored := by
    simp [storeAncestry, forked, hdiffer]
  have hparent : child.parentHash = root := rfl
  have hone : child.number = 1 := rfl
  have hzero : genesis.number = 0 := rfl
  simp [AncestorSource.walk, hchild, hroot, hparent, hone, hzero]

lemma numbers_onAncestors (tip : B256) :
  (onAncestors (forked tip) grandchild).numbers 1 = some childHash ∧
    (onAncestors (forked tip) grandchild).numbers 0 = some root := by
  have hone : child.number = 1 := rfl
  have hzero : genesis.number = 0 := rfl
  have hfuel : grandchild.number.toNat = 2 := rfl
  have hparent : grandchild.parentHash = childHash := rfl
  have hbelow : (1 : UInt64) < grandchild.number ∧ (0 : UInt64) < grandchild.number := by decide
  constructor
  · change ancestralIndex (forked tip) grandchild 1 = _
    rw [ancestralIndex, if_pos hbelow.1, hfuel, hparent, walk_grandchild]
    simp [hone]
  change ancestralIndex (forked tip) grandchild 0 = _
  rw [ancestralIndex, if_pos hbelow.2, hfuel, hparent, walk_grandchild]
  simp [hone, hzero]

lemma height_below_grandchild {height : UInt64} (h : height < grandchild.number) :
  height = 0 ∨ height = 1 := by
  have hlt := lt_iff_toNat_lt.mp h
  have htwo : grandchild.number.toNat = 2 := rfl
  rw [← toNat_inj, ← toNat_inj]
  have hzero : (0 : UInt64).toNat = 0 := rfl
  have hone : (1 : UInt64).toNat = 1 := rfl
  omega

lemma indexStored_forked {tip : B256} (htip : tip = firstHash ∨ tip = childHash) :
  IndexStored (forked tip) grandchild.number := by
  have hdiffer : root ≠ childHash ∧ root ≠ firstHash ∧ firstHash ≠ childHash := by decide
  intro height hash hlt hindex
  rcases height_below_grandchild hlt with rfl | rfl
  · obtain rfl : root = hash := by simpa [forked] using hindex
    simp [forked, hdiffer]
  obtain rfl : tip = hash := by simpa [forked] using hindex
  rcases htip with rfl | rfl
  · simp [forked, hdiffer]
  · simp [forked]

/-- The theorem in the store whose index follows the block's branch. -/
theorem same_execution_on_own_branch : SameExecution (asking.withEvm asking.exec.evm)
  (forked childHash) (onAncestors (forked childHash) grandchild) grandchild := by
  refine (execution_depends_on_ancestry_iff asking (forked childHash) grandchild
    (indexStored_forked (Or.inr rfl))).mpr ?_ asking.exec.evm
  intro height hlt _
  obtain ⟨hone, hzero⟩ := numbers_onAncestors childHash
  rcases height_below_grandchild hlt with rfl | rfl
  · rw [hzero]
    rfl
  rw [hone]
  rfl

/-- **A valid block is refused while the index follows another branch**: on its own
ancestors the contract's question is answered with `child`'s hash, as its receipts root
says; in the store as it is, with that of the other block. -/
theorem branch_block_is_rejected : (∃ r, asking.Accepts (onAncestors (forked firstHash) grandchild)
    ⟨grandchild, [askingTx, remascTx], []⟩ emptyWorld r) ∧
  (∀ r, ¬ asking.Accepts (forked firstHash) ⟨grandchild, [askingTx, remascTx], []⟩ emptyWorld r) ∧
  ¬ SameExecution asking (forked firstHash) (onAncestors (forked firstHash) grandchild)
    grandchild := by
  have haccepted : ∃ r, asking.Accepts (onAncestors (forked firstHash) grandchild)
      ⟨grandchild, [askingTx, remascTx], []⟩ emptyWorld r := by
    obtain ⟨r, hr, hgas, hfees, hstate, hbloom, hreceipts⟩ :=
      executeBlock_asking (onAncestors (forked firstHash) grandchild)
    rw [(numbers_onAncestors firstHash).1] at hreceipts
    refine ⟨r, rfl, processBlock_eq_ok.mpr ⟨hr, ?_⟩⟩
    exact
      { transactionsRoot := rfl
        ommersHash := noOmmers_eq.symm
        gasUsed := hgas.symm
        paidFees := hfees.symm
        stateRoot := fun _ => hstate.symm
        receiptsRoot := by rw [hreceipts]; rfl
        logsBloom := hbloom.symm }
  have hrefused : ∀ r, ¬ asking.Accepts (forked firstHash)
      ⟨grandchild, [askingTx, remascTx], []⟩ emptyWorld r := by
    rintro r ⟨-, hprocess⟩
    obtain ⟨hexec, hcommitted⟩ := processBlock_eq_ok.mp hprocess
    obtain ⟨r', hr', -, -, -, -, hreceipts⟩ := executeBlock_asking (forked firstHash)
    obtain rfl := Except.ok.inj (hr'.symm.trans hexec)
    have hother : (forked firstHash).numbers 1 ≠ some childHash := by decide
    rw [decide_eq_false hother, Bool.false_and, if_neg (by simp)] at hreceipts
    have hroot := hcommitted.receiptsRoot.trans hreceipts
    exact absurd hroot (by decide)
  refine ⟨haccepted, hrefused, ?_⟩
  intro hsame
  obtain ⟨r, hvalid, hprocess⟩ := haccepted
  exact hrefused r ⟨(hsame.validate _ _).trans hvalid, (hsame.process _ _ _).trans hprocess⟩

end RegtestChain

end Rustock
