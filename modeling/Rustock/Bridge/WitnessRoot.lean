import Rustock.Bridge.PegIn

/-!
# Registered witness roots (bridge/tx.rs, bridge/pmt.rs)

`getBtcTransactionConfirmations` reduces a Merkle branch and compares the root with the block's
Merkle root and with the registered root of its witnesses, as `registerBtcTransaction` does with the
root of a partial tree (`PegEnv.rootValid`). The registered root is kept in display order, computed
roots are in internal order; only `registerBtcTransaction` reverses.
-/

namespace Rustock

open Lib HighHeight
open HighHeight (head)

structure MerkleBranch where
  hashes : List B256
  path : UInt32

namespace MerkleBranch

/-- pmt.rs:301–361, the branch, the transaction and the block: call data is in display order. -/
def fromAbiArgs (args : Bytes) : Reader (MerkleBranch × B256 × B256) := do
  let (txHash, blockHash, path, hashes) ← branchArgs args
  return (⟨hashes.map fun h => (FixedBytes.ofBytes 32 h).reverse, UInt32.ofNat path⟩,
    (FixedBytes.ofBytes 32 txHash).reverse, .ofBytes 32 blockHash)

/-- A shift by more than 31 bits takes the distance modulo 32. -/
def reduceFrom (sha256d : Bytes → B256) (branch : MerkleBranch) (txHash : B256) : B256 :=
  branch.hashes.zipIdx.foldl (fun current sibling =>
    if branch.path.toNat.testBit (sibling.2 % 32) then sha256d (sibling.1.bytes ++ current.bytes)
    else sha256d (current.bytes ++ sibling.1.bytes)) txHash

end MerkleBranch

structure ConfirmationEnv extends PegEnv where
  btcTransactionConfirmationMaxDepth : UInt32

namespace ConfirmationEnv

variable (env : ConfirmationEnv)

/-- The main-chain block of a hash in display order and its depth, or the code of the first check it
fails. -/
def bestChainBlock (ctx : PegCtx) (blockHash : B256) : Except Int (StoredBlock × UInt32) :=
  match getStoredBlock blockHash.reverse (env.seededBtc ctx) with
  | (none, _) => .error (-1)
  | (some block, btc) =>
    let bestChainHeight := ((loadChainHead btc).1.map (·.height)).getD 0
    let blockDepth := saturatingSub32 bestChainHeight block.height
    if env.btcTransactionConfirmationMaxDepth < blockDepth then .error (-4)
    else
      match (env.mainChainBlockAtHeight block.height true btc).1 with
      | .found main =>
        if env.hashOf main = env.hashOf block ∧ main.height = block.height ∧
            main.chainWork = block.chainWork then .ok (block, blockDepth)
        else .error (-2)
      | .absent => .error (-2)
      | .storeError => .error (-3)

/-- After the checks above: the registered root is compared as it is stored. -/
def confirmationsOf (ctx : PegCtx) (branch : MerkleBranch) (txHash blockHash : B256) : Int :=
  match env.bestChainBlock ctx blockHash with
  | .error code => code
  | .ok (block, blockDepth) =>
    let computedRoot := branch.reduceFrom env.sha256d txHash
    if computedRoot = block.header.merkleRoot ∨
        ctx.coinbaseInformation blockHash = some computedRoot then blockDepth.toNat + 1
    else -5

def getBtcTransactionConfirmations (ctx : PegCtx) (args : Bytes) : Reader Int := do
  let (branch, txHash, blockHash) ← MerkleBranch.fromAbiArgs args
  return env.confirmationsOf ctx branch txHash blockHash

/-- **When a registered witness root serves both readers.** For every block of the main chain within
the confirmation depth that has one: `registerBtcTransaction` and `getBtcTransactionConfirmations`
accept the same roots, the latter with the depth plus one, exactly if the root reads the same in
both orders. -/
theorem readers_agree_iff {ctx : PegCtx} {b : StoredBlock} {depth : UInt32} {witnessRoot : B256}
  (hblock : env.bestChainBlock ctx (env.hashOf b).reverse = .ok (b, depth))
  (hroot : ctx.coinbaseInformation (env.hashOf b).reverse = some witnessRoot) :
  (∀ (branch : MerkleBranch) (txHash : B256),
    env.rootValid ctx (branch.reduceFrom env.sha256d txHash) b = true ↔
      env.confirmationsOf ctx branch txHash (env.hashOf b).reverse = depth.toNat + 1) ↔
    witnessRoot.reverse = witnessRoot := by
  have hpegin : ∀ root, env.rootValid ctx root b = true ↔
      root = b.header.merkleRoot ∨ root = witnessRoot.reverse := fun root => by
    simp [PegEnv.rootValid, hroot]
  have hconfirmed : ∀ (branch : MerkleBranch) (txHash : B256),
      env.confirmationsOf ctx branch txHash (env.hashOf b).reverse = depth.toNat + 1 ↔
        branch.reduceFrom env.sha256d txHash = b.header.merkleRoot ∨
          branch.reduceFrom env.sha256d txHash = witnessRoot := fun branch txHash => by
    simp only [confirmationsOf, hblock, hroot, Option.some.injEq, @eq_comm _ witnessRoot]
    split
    · simp [*]
    rename_i hnot
    exact iff_of_false (by omega) hnot
  simp only [hpegin, hconfirmed]
  constructor
  · intro h
    -- a branch without hashes reduces to the transaction's hash
    have hsame : ∀ root, root = b.header.merkleRoot ∨ root = witnessRoot.reverse ↔
        root = b.header.merkleRoot ∨ root = witnessRoot := h ⟨[], 0⟩
    rcases (hsame witnessRoot.reverse).mp (Or.inr rfl) with hleft | hleft
    · rcases (hsame witnessRoot).mpr (Or.inr rfl) with hright | hright
      · exact hleft.trans hright.symm
      · exact hright.symm
    · exact hleft
  intro hsame branch txHash
  rw [hsame]

end ConfirmationEnv

namespace WitnessExample

def env : ConfirmationEnv := { HighHeight.env 1 with btcTransactionConfirmationMaxDepth := 4320 }

def ctx (witnessRoot : B256) : PegCtx :=
  { HighHeight.ctx 0 with coinbaseInformation := fun _ => some witnessRoot }

def witnessRoot : B256 := .ofBytes 32 [1]

lemma bestChainBlock_ctx (witnessRoot : B256) :
  env.bestChainBlock (ctx witnessRoot) (env.hashOf (head 0)).reverse =
    .ok (head 0, 0) := by
  have hseeded : env.seededBtc (ctx witnessRoot) = (HighHeight.ctx 0).btc := seededBtc_ctx 1 0
  have hmain : (env.mainChainBlockAtHeight 0 true (HighHeight.ctx 0).btc).1 =
      .found (head 0) := by
    -- without RSKIP199 the search has no limit
    have hunlimited := storedBlockAt_self 1 0
    rw [PegEnv.storedBlockAt, seededBtc_ctx] at hunlimited
    change (env.mainChainBlockAtHeight 0 false (HighHeight.ctx 0).btc).1 = _
    split at hunlimited
    · rename_i b hb
      rw [Option.some.inj hunlimited] at hb
      exact hb
    all_goals cases hunlimited
  rw [ConfirmationEnv.bestChainBlock, hseeded, getStoredBlock_ctx]
  simp only [loadChainHead_ctx]
  rw [show (head 0).height = 0 from rfl, hmain]
  rfl

end WitnessExample

open WitnessExample in
/-- A root that is registered in display order: the transaction is provable to
`registerBtcTransaction` only. -/
theorem witness_root_refused : env.rootValid (ctx witnessRoot)
      (MerkleBranch.reduceFrom env.sha256d ⟨[], 0⟩ witnessRoot.reverse) (head 0) = true ∧
    env.confirmationsOf (ctx witnessRoot) ⟨[], 0⟩ witnessRoot.reverse
      (env.hashOf (head 0)).reverse = -5 := by
  decide +kernel

open WitnessExample in
/-- A root that reads the same in both orders. -/
theorem readers_agree_zero :
  env.rootValid (ctx (.zero 32)) (MerkleBranch.reduceFrom env.sha256d ⟨[], 0⟩ (.zero 32))
      (head 0) = true ↔ env.confirmationsOf (ctx (.zero 32)) ⟨[], 0⟩ (.zero 32)
      (env.hashOf (head 0)).reverse = (0 : UInt32).toNat + 1 :=
  (env.readers_agree_iff (bestChainBlock_ctx _) rfl).mpr (by decide) ⟨[], 0⟩ (.zero 32)

end Rustock
