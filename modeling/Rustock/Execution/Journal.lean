import Rustock.Core.Block
import Mathlib.Data.List.Dedup

/-!
# The state a block runs on

The account state as the unitrie holds it (`World`) and the journal a run of transactions
works in (`Journal`): accounts and storage slots are loaded from the state the run starts
from, changed in the journal, and written back by `applyStateChanges`
(crates/execution/src/state.rs). Raw cells, which REMASC and the Bridge write with
`addStorageBytes`, live under the same keys as storage slots and are applied after them.

`supplyChange` is the conservation check of crates/execution/src/supply.rs.
-/

namespace Rustock

open Lib

structure Log where
  address : Address
  topics : List B256
  data : Bytes
deriving DecidableEq

structure AccountInfo where
  nonce : UInt64
  balance : U256
  code : Bytes
deriving DecidableEq

structure World where
  info : Address → AccountInfo
  /-- Storage cells; a slot of zero has none. -/
  cells : Address → U256 → Option Bytes
  /-- Contract markers (`setupContract`). -/
  marked : Address → Bool
  /-- Nonce of the one-byte account the REMASC transaction is sent from. -/
  remascSenderNonce : UInt64

def wordOfCell : Option Bytes → U256
  | none => 0
  | some data => if data.length > 32 then 0 else BitVec.ofNat 256 (beNat data)

def cellOfWord (value : U256) : Option Bytes :=
  if value = 0 then none else some (Rlp.trimmed 32 value.toNat)

structure Journal where
  base : World
  info : Address → AccountInfo
  touched : List Address
  /-- Accounts touched by the transaction that is running. -/
  touchedNow : List Address
  /-- Present values of the storage slots that were loaded. -/
  slots : Address → U256 → Option U256
  raw : List (Address × U256 × Option Bytes)
  marked : List Address
  bumpRemascSender : Bool
  logs : List Log

namespace Journal

def start (world : World) : Journal where
  base := world
  info := world.info
  touched := []
  touchedNow := []
  slots := fun _ _ => none
  raw := []
  marked := []
  bumpRemascSender := false
  logs := []

variable (j : Journal) (a : Address)

def touch : Journal :=
  { j with touched := a :: j.touched, touchedNow := a :: j.touchedNow }

def setBalance (value : U256) : Journal :=
  { j with info := Function.update j.info a { j.info a with balance := value } }

def incrBalance (value : U256) : Journal :=
  if (j.info a).balance.toNat + value.toNat < 2 ^ 256 then
    (j.setBalance a ((j.info a).balance + value)).touch a
  else j

/-- `journal.transfer`: nothing moves without the funds or if the payee would overflow. -/
def transfer (source payee : Address) (value : U256) : Journal :=
  if (j.info source).balance < value then j
  else if source = payee then (j.touch source).touch payee
  else if 2 ^ 256 ≤ (j.info payee).balance.toNat + value.toNat then j
  else
    ((((j.setBalance source ((j.info source).balance - value)).setBalance payee
      ((j.info payee).balance + value)).touch source).touch payee)

def word (k : U256) : U256 :=
  (j.slots a k).getD (wordOfCell (j.base.cells a k))

def sstore (k value : U256) : Journal :=
  { j with slots := Function.update j.slots a (Function.update (j.slots a) k (some value)) }

def putRaw (k : U256) (value : Option Bytes) : Journal :=
  { j with raw := j.raw ++ [(a, k, value)] }

def mark : Journal :=
  if a ∈ j.marked then j else { j with marked := j.marked ++ [a] }

@[simp] lemma info_mark : (j.mark a).info = j.info := by
  unfold mark
  split <;> rfl

def log (l : Log) : Journal := { j with logs := j.logs ++ [l] }

def takeLogs : List Log × Journal := (j.logs, { j with logs := [] })

def beginTx : Journal := { j with touchedNow := [] }

/-- Accounts and slots of the journal over `root`, then its raw cells. -/
def applyStateChanges (root : World) : World where
  info a := if a ∈ j.touched then j.info a else root.info a
  cells a k :=
    let written := match j.slots a k with
      | some value => if a ∈ j.touched then cellOfWord value else root.cells a k
      | none => root.cells a k
    ((j.raw.reverse.find? fun w => w.1 = a ∧ w.2.1 = k).map fun w => w.2.2).getD written
  marked a := root.marked a || decide (a ∈ j.marked)
  remascSenderNonce :=
    if j.bumpRemascSender then root.remascSenderNonce + 1 else root.remascSenderNonce

end Journal

/-- Total increase and total decrease of balances over `accounts`. -/
def supplyChange (before after : Address → AccountInfo) (accounts : List Address) : U256 × U256 :=
  accounts.dedup.foldl (fun total a =>
    let b := (before a).balance
    let c := (after a).balance
    if c > b then (total.1 + (c - b), total.2) else (total.1, total.2 + (b - c))) (0, 0)

lemma supplyChange_self (info : Address → AccountInfo) (accounts : List Address) :
  supplyChange info info accounts = (0, 0) := by
  unfold supplyChange
  induction accounts.dedup with
  | nil => rfl
  | cons a l ih => simp

end Rustock
