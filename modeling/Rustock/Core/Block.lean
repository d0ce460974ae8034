import Rustock.Core.Verifier

/-!
# Blocks and the rules on their bodies

`Transaction` and `Block` (crates/core/src/types) and the body rules of
crates/core/src/validation/block_rules.rs that read transactions.
-/

namespace Rustock

open Lib

/-- Without the cached encoding; `recipient` is the field `to`. -/
structure Transaction where
  nonce : UInt64
  gasPrice : U256
  gasLimit : U256
  recipient : Bytes
  value : U256
  input : Bytes
  v : UInt64
  r : U256
  s : U256
deriving DecidableEq

structure Block where
  header : Header
  transactions : List Transaction
  ommers : List Header
deriving DecidableEq

/-- `0x…01000008`. -/
def remascAddr : Address := ⟨List.replicate 16 0 ++ [0x01, 0x00, 0x00, 0x08], rfl⟩

/-- `BlockProcessor::is_remasc_tx` and the executor test the same. -/
def isRemascTx (tx : Transaction) : Bool :=
  tx.v = 0 && tx.r = 0 && tx.s = 0 && tx.gasLimit = 0 && tx.recipient = remascAddr.bytes

def txsMinGasPriceRule (block : Block) : Verdict :=
  runAll (fun tx => rejectIf (¬ isRemascTx tx ∧ tx.gasPrice < block.header.minimumGasPrice)
      (.txGasPriceBelowMinimum tx.gasPrice block.header.minimumGasPrice))
    block.transactions

/-- RSKIP252, a hundred times the block's minimum. -/
def blockTxsMaxGasPriceRule (rskip252Height : UInt64) (block : Block) : Verdict :=
  if block.header.number < rskip252Height ∨ block.header.minimumGasPrice = 0 then .ok ()
  else
    let cap := U256.saturatingMul block.header.minimumGasPrice 100
    runAll (fun tx => rejectIf (¬ isRemascTx tx ∧ cap < tx.gasPrice)
      (.txGasPriceAboveCap tx.gasPrice cap)) block.transactions

/-- The **last** transaction is REMASC's. -/
def remascValidationRule (block : Block) : Verdict :=
  match block.transactions.getLast? with
  | some tx => if isRemascTx tx then .ok () else .error .remascTxMissing
  | none => .error .remascTxMissing

lemma remascValidationRule_eq_ok_iff {block : Block} : remascValidationRule block = .ok () ↔
    ∃ tx, block.transactions.getLast? = some tx ∧ isRemascTx tx := by
  unfold remascValidationRule
  rcases block.transactions.getLast? with _ | tx <;> simp

end Rustock
