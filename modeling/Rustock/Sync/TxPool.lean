import Rustock.Lib.OrdMap
import Rustock.Bridge.Union
import Rustock.Mining.Partition

/-!
# The transaction pool (sync/src/txpool.rs)

Three indexes: the executable transactions (`pending`), those with a gap before them (`queued`),
both by sender and nonce, and the sender of every hash (`by_hash`).

An index is the list of its entries in nonce order. A `BTreeMap` is left out of the outer map when
it is empty, so a sender is in an index exactly if it has an entry. Where the code takes the first
of several equals in the order of a `HashMap`, the order is an argument. The signature, the wire
format and the hash are parameters; the sender cache is a memo of `recover_sender`, and the rate
limiter, which comes last, enters by its verdict.
-/

namespace Rustock

open Lib
open List (mem_filter mem_cons_self mem_cons mem_append)
open Lib.OrdMap (keys get? erase mem_keys mem_erase mem_insert mem_keys_erase mem_keys_insert
  nodup_keys_erase nodup_keys_insert mem_of_get? get?_eq_none get?_isSome get?_eq_some_iff
  erase_eq_self insert_erase)

/-- Without the rate limiter's part. -/
structure PoolConfig where
  accountSlots : UInt64
  gasPriceBump : UInt64
  outdatedThreshold : UInt64
  outdatedTimeoutSecs : UInt64
  maxTxSize : Nat
  maxPoolTransactions : Nat

def PoolConfig.default : PoolConfig := ⟨16, 40, 10, 650, 128 * 1024, 8192⟩

/-- txpool.rs:57–68, the hard fork configuration by the activations the pool asks for. -/
structure ChainRules where
  hasAreBridgeTxsPaid : UInt64 → Bool
  hasRskip351 : UInt64 → Bool
  hasRskip144 : UInt64 → Bool
  freeBridgeSenders : List Address
  minSequentialSetGasLimit : UInt64
  rskip252Height : UInt64

namespace ChainRules

variable (r : ChainRules)

def isFreeTx (tx : Transaction) (sender : Address) (number : UInt64) : Bool :=
  tx.recipient = bridgeAddr.bytes && !r.hasAreBridgeTxsPaid number &&
    r.freeBridgeSenders.any (· = sender)

def gasLimitBound (header : Header) : UInt64 :=
  let blockGasLimit := saturatingToU64 header.gasLimit
  if r.hasRskip351 header.number && r.hasRskip144 header.number then
    let limits := Mining.sublistGasLimits blockGasLimit 2 r.minSequentialSetGasLimit
    max limits.1 limits.2
  else blockGasLimit

def gasPriceCap (header : Header) : Option U256 :=
  if header.number < r.rskip252Height ∨ header.minimumGasPrice = 0 then none
  else some (U256.saturatingMul header.minimumGasPrice 80)

end ChainRules

inductive PoolError where
  | alreadyKnown
  | nonceTooLow
  | nonceTooHigh
  | insufficientFunds
  | gasLimitExceeded
  | gasPriceTooLow
  | intrinsicGasTooHigh
  | replacementGasPriceTooLow
  | txTooLarge
  | poolFull
  | invalidSignature (e : String)
  | insufficientFundsForPendingAndNew
  | isRemascTransaction
  | accountExceedsQuota
  | rlpDecode (e : String)
  | storeError (e : String)
  | gasPriceAboveCap
  | nonCanonicalNonce
deriving DecidableEq

variable (tx : Transaction)

/-- Arithmetic on `U256` wraps. -/
def txCost : U256 := tx.value + tx.gasPrice * tx.gasLimit

/-- txpool.rs:1070–1079, a test of its own. -/
def isPooledRemascTx : Bool :=
  tx.recipient = remascAddr.bytes && tx.gasPrice = 0 && tx.gasLimit = 0 && tx.value = 0

def intrinsicGas : UInt64 :=
  (if tx.recipient = [] then 53000 else 21000) +
    (tx.input.map fun b => if b = 0 then (4 : UInt64) else 16).sum

def nonceBytesAreCanonical (nonce : Bytes) : Bool :=
  if nonce.length > 8 then false
  else if nonce.length > 1 && nonce.head? = some 0 then false
  else true

def rawNonceBytes (raw : Bytes) : Option Bytes :=
  match Rlp.decodeHeader raw with
  | .ok (true, payloadLength, buf) =>
    match Rlp.decodeHeader (buf.take payloadLength) with
    | .ok (false, itemLength, body) =>
      if itemLength > body.length then none else some (body.take itemLength)
    | _ => none
  | _ => none

/-- A point in time is a number of nanoseconds. -/
structure PooledTx where
  tx : Transaction
  hash : B256
  sender : Address
  addedBlock : UInt64
  addedTime : Nat
  encodedSize : Nat
deriving DecidableEq

abbrev PooledTx.key (p : PooledTx) : Address × UInt64 := (p.sender, p.tx.nonce)

abbrev PoolEntry := (Address × UInt64) × PooledTx

abbrev TxMap := List PoolEntry

namespace TxMap

def insert (k : Address × UInt64) (p : PooledTx) (m : TxMap) : TxMap :=
  OrdMap.insert (fun a b => a.2 ≤ b.2) k p m

def ofSender (sender : Address) (m : TxMap) : TxMap := m.filter fun e => e.1.1 = sender

/-- `keys().last()` of the sender's map. -/
def lastNonce (sender : Address) (m : TxMap) : Option UInt64 :=
  (m.ofSender sender).getLast?.map fun e => e.1.2

end TxMap

structure PoolInner where
  pending : TxMap
  queued : TxMap
  byHash : List (B256 × Address)
deriving DecidableEq

structure PoolHead where
  header : Header
  accountState : Address → UInt64 × U256

structure PoolEnv where
  config : PoolConfig
  chainRules : Option ChainRules
  decode : Bytes → Except String Transaction
  encode : Transaction → Bytes
  txHash : Bytes → B256
  recoverSender : Transaction → Except String Address

/-- A call of `add_transaction` with what it finds: the head, the time, the rate limiter's verdict,
and the sender that comes last in the order of the queued map. -/
structure AddCall where
  raw : Bytes
  head : Except String PoolHead
  now : Nat
  acceptTx : Bool
  victim : Address

namespace PoolEnv

variable (env : PoolEnv)

def isFree (tx : Transaction) (sender : Address) (number : UInt64) : Bool :=
  env.chainRules.any fun r => r.isFreeTx tx sender number

def validateTx (tx : Transaction) (sender : Address) (encodedSize : Nat) (header : Header)
  (stateNonce : UInt64) (balance : U256) : Except PoolError Unit :=
  let isFree := env.isFree tx sender header.number
  let gasLimit := saturatingToU64 tx.gasLimit
  let bound := (env.chainRules.map fun r => r.gasLimitBound header).getD
    (saturatingToU64 header.gasLimit)
  let cap := env.chainRules.bind fun r => r.gasPriceCap header
  if isPooledRemascTx tx then .error .isRemascTransaction
  else if encodedSize > env.config.maxTxSize then .error .txTooLarge
  else if bound < gasLimit || 0x1000000000000000 < gasLimit then .error .gasLimitExceeded
  else if tx.nonce < stateNonce then .error .nonceTooLow
  else if stateNonce + env.config.accountSlots ≤ tx.nonce then .error .nonceTooHigh
  else if !isFree && balance < tx.gasPrice * tx.gasLimit then .error .insufficientFunds
  else if tx.gasPrice < header.minimumGasPrice then .error .gasPriceTooLow
  else if tx.gasLimit.toNat < (if isFree then 0 else intrinsicGas tx).toNat then
    .error .intrinsicGasTooHigh
  else if cap.any fun c => c < tx.gasPrice then .error .gasPriceAboveCap
  else .ok ()

/-- What the first half of `add_transaction_inner` hands to the second: the transaction, the
sender's nonce and balance. It does not look at the pool. -/
def vet (c : AddCall) : Except PoolError (PooledTx × UInt64 × U256) := do
  let tx ← (env.decode c.raw).mapError .rlpDecode
  if !(rawNonceBytes c.raw).any nonceBytesAreCanonical then .error .nonCanonicalNonce
  else
    let encodedSize := (env.encode tx).length
    let sender ← (env.recoverSender tx).mapError .invalidSignature
    let head ← c.head.mapError .storeError
    let account := head.accountState sender
    env.validateTx tx sender encodedSize head.header account.1 account.2
    return (⟨tx, env.txHash c.raw, sender, head.header.number, c.now, encodedSize⟩, account)

/-- What a transaction that replaces `existing` has to offer. -/
def bumpThreshold (existing : PooledTx) : U256 :=
  existing.tx.gasPrice * BitVec.ofNat 256 (100 + env.config.gasPriceBump).toNat / 100

/-- The transaction a new one displaces on its side. -/
def replacement (target : TxMap) (p : PooledTx) : Except PoolError (Option PooledTx) :=
  match get? p.key target with
  | none => .ok none
  | some existing =>
    if existing.hash = p.hash then .error .alreadyKnown
    else if p.tx.gasPrice < env.bumpThreshold existing then .error .replacementGasPriceTooLow
    else .ok (some existing)

/-- `base_cost`. -/
def baseCost (sender : Address) (number : UInt64) (tx : Transaction) : U256 :=
  if env.isFree tx sender number then tx.value else txCost tx

def others (pending : TxMap) (p : PooledTx) : TxMap :=
  pending.filter fun e => e.1.1 = p.sender && e.1.2 ≠ p.tx.nonce

def totalCost (pending : TxMap) (p : PooledTx) : U256 :=
  ((others pending p).map fun e => env.baseCost p.sender p.addedBlock e.2.tx).foldl (· + ·)
    (env.baseCost p.sender p.addedBlock p.tx)

end PoolEnv

namespace PoolInner

def empty : PoolInner := ⟨[], [], []⟩

variable (s : PoolInner)

def entries : TxMap := s.pending ++ s.queued

def goesToPending (p : PooledTx) (stateNonce : UInt64) : Bool :=
  p.tx.nonce = stateNonce ||
    (s.pending.lastNonce p.sender).any fun last => p.tx.nonce = last + 1

/-- The highest queued nonce; among its senders the map's order decides. -/
def evictOneQueued (victim : Address) : Option PoolInner :=
  match s.queued.getLast? with
  | none => none
  | some ((addr, nonce), _) =>
    let addr := if (get? (victim, nonce) s.queued).isSome then victim else addr
    (get? (addr, nonce) s.queued).map fun p =>
      { s with queued := erase (addr, nonce) s.queued
               byHash := erase p.hash s.byHash }

/-- A full pool gives up a queued transaction. -/
def makeRoom (env : PoolEnv) (victim : Address) : Option PoolInner :=
  if s.byHash.length ≥ env.config.maxPoolTransactions then s.evictOneQueued victim else some s

/-- The loop of `promote_queued`: each round takes a transaction out of the queue. -/
def promoteLoop (sender : Address) : Nat → UInt64 → TxMap → TxMap → TxMap × TxMap
  | 0, _, pending, queued => (pending, queued)
  | fuel + 1, nonce, pending, queued =>
    match get? (sender, nonce) queued with
    | none => (pending, queued)
    | some p => promoteLoop sender fuel (nonce + 1) (pending.insert (sender, nonce) p)
        (erase (sender, nonce) queued)

/-- The first nonce `promote_queued` looks for. -/
def nextNonce (pending : TxMap) (sender : Address) (stateNonce : UInt64) : UInt64 :=
  ((pending.lastNonce sender).map (· + 1)).getD stateNonce

def promoteQueued (sender : Address) (stateNonce : UInt64) : PoolInner :=
  let m := promoteLoop sender s.queued.length (nextNonce s.pending sender stateNonce) s.pending
    s.queued
  { s with pending := m.1, queued := m.2 }

/-- The last part of `add_transaction_inner`. -/
def accept (p : PooledTx) (stateNonce : UInt64) (old : Option PooledTx) : PoolInner :=
  let byHash := match old with
    | some existing => erase existing.hash s.byHash
    | none => s.byHash
  let byHash := OrdMap.insert (fun _ _ => True) p.hash p.sender byHash
  if s.goesToPending p stateNonce then
    promoteQueued ⟨s.pending.insert p.key p, s.queued, byHash⟩ p.sender stateNonce
  else ⟨s.pending, s.queued.insert p.key p, byHash⟩

/-- The checks between: the displaced transaction, if all is well. -/
def settle (env : PoolEnv) (p : PooledTx) (stateNonce : UInt64) (balance : U256) (acceptTx : Bool) :
  Except PoolError (Option PooledTx) :=
  match env.replacement (if s.goesToPending p stateNonce then s.pending else s.queued) p with
  | .error e => .error e
  | .ok old =>
    if s.goesToPending p stateNonce && balance < env.totalCost s.pending p then
      .error .insufficientFundsForPendingAndNew
    else if !acceptTx then .error .accountExceedsQuota
    else .ok old

/-- The second half of `add_transaction_inner`. Room is made before the remaining checks, whatever
they say. -/
def place (env : PoolEnv) (p : PooledTx) (stateNonce : UInt64) (balance : U256) (c : AddCall) :
  Except PoolError B256 × PoolInner :=
  if (get? p.hash s.byHash).isSome then (.error .alreadyKnown, s)
  else
    match s.makeRoom env c.victim with
    | none => (.error .poolFull, s)
    | some s =>
      match s.settle env p stateNonce balance c.acceptTx with
      | .error e => (.error e, s)
      | .ok old => (.ok p.hash, s.accept p stateNonce old)

/-- `add_transaction_inner`, txpool.rs:473–674. -/
def addTransaction (env : PoolEnv) (c : AddCall) : Except PoolError B256 × PoolInner :=
  match env.vet c with
  | .error e => (.error e, s)
  | .ok (p, stateNonce, balance) => s.place env p stateNonce balance c

def drop (k : Address × UInt64) (hash : B256) : PoolInner :=
  ⟨erase k s.pending, erase k s.queued, erase hash s.byHash⟩

/-- Without the answer. -/
def removeByHash (hash : B256) (nonce : UInt64) : PoolInner :=
  match get? hash s.byHash with
  | none => s
  | some sender => s.drop (sender, nonce) hash

def removeMined (env : PoolEnv) (transactions : List Transaction) : PoolInner :=
  transactions.foldl (fun s tx => s.removeByHash (env.txHash (env.encode tx)) tx.nonce) s

/-- The nonce `remove_by_hashes` finds for a hash: in the sender's pending transactions if there
are any, else in the queued ones. -/
def findNonce (hash : B256) : Option UInt64 :=
  (get? hash s.byHash).bind fun sender =>
    let m := if s.pending.ofSender sender ≠ [] then s.pending.ofSender sender
      else s.queued.ofSender sender
    (m.find? fun e => e.2.hash = hash).map fun e => e.1.2

def removeByHashes (hashes : List B256) : PoolInner :=
  hashes.foldl (fun s hash =>
    match s.findNonce hash with
    | none => s
    | some nonce => s.removeByHash hash nonce) s

/-- The test of `evict_outdated`. -/
def outdated (config : PoolConfig) (currentBlock : UInt64) (now : Nat) (p : PooledTx) : Bool :=
  p.addedBlock + config.outdatedThreshold < currentBlock ||
    config.outdatedTimeoutSecs.toNat * 10 ^ 9 < now - p.addedTime

def evictOutdated (config : PoolConfig) (currentBlock : UInt64) (now : Nat) : PoolInner :=
  (s.entries.filter fun e => outdated config currentBlock now e.2).foldl
    (fun s e => s.drop e.1 e.2.hash) s

def get (s : PoolInner) (hash : B256) : Option PooledTx :=
  (get? hash s.byHash).bind fun sender =>
    ((s.pending.ofSender sender ++ s.queued.ofSender sender).find? fun e => e.2.hash = hash).map
      Prod.snd

def status : Nat × Nat := (s.pending.length, s.queued.length)

end PoolInner

inductive PoolEvent where
  | add (c : AddCall)
  | removeMined (transactions : List Transaction)
  | removeByHashes (hashes : List B256)
  | evictOutdated (currentBlock : UInt64) (now : Nat)

namespace PoolInner

def apply (env : PoolEnv) (s : PoolInner) : PoolEvent → PoolInner
  | .add c => (s.addTransaction env c).2
  | .removeMined transactions => s.removeMined env transactions
  | .removeByHashes hashes => s.removeByHashes hashes
  | .evictOutdated currentBlock now => s.evictOutdated env.config currentBlock now

def Step (env : PoolEnv) (s : PoolInner) (e : PoolEvent) (s' : PoolInner) : Prop :=
  s' = s.apply env e

structure Intact (env : PoolEnv) (s : PoolInner) : Prop where
  pendingKeys : (keys s.pending).Nodup
  queuedKeys : (keys s.queued).Nodup
  hashKeys : (keys s.byHash).Nodup
  apart : ∀ k ∈ keys s.pending, k ∉ keys s.queued
  owner : ∀ e ∈ s.entries, e.1 = e.2.key
  oneHash : ∀ e ∈ s.entries, ∀ e' ∈ s.entries, e.2.hash = e'.2.hash → e.1 = e'.1
  indexed : ∀ h a, (h, a) ∈ s.byHash ↔ ∃ e ∈ s.entries, e.2.hash = h ∧ e.1.1 = a
  encoded : ∀ e ∈ s.entries, e.2.hash = env.txHash (env.encode e.2.tx)

lemma intact_empty (env : PoolEnv) : Intact env empty := by
  constructor <;> simp [empty, entries, keys]

variable {s : PoolInner} {e : PoolEntry}

lemma mem_entries : e ∈ s.entries ↔ e ∈ s.pending ∨ e ∈ s.queued := mem_append

lemma mem_entries_drop {k : Address × UInt64} {hash : B256} :
  e ∈ (s.drop k hash).entries ↔ e.1 ≠ k ∧ e ∈ s.entries := by
  rw [mem_entries, mem_entries, drop]
  dsimp only
  rw [mem_erase, mem_erase]
  tauto

namespace Intact

variable {env : PoolEnv} {s : PoolInner} {k : Address × UInt64} {p : PooledTx}

section

variable (h : Intact env s)

include h

lemma unique {p' : PooledTx} (hp : (k, p) ∈ s.entries) (hp' : (k, p') ∈ s.entries) : p = p' := by
  have hsame : ∀ {m : TxMap}, (keys m).Nodup → (k, p) ∈ m → (k, p') ∈ m → p = p' := by
    intro m hm hp hp'
    have := List.inj_on_of_nodup_map hm hp hp' rfl
    simpa using this
  rcases mem_entries.mp hp with hp | hp <;> rcases mem_entries.mp hp' with hp' | hp'
  · exact hsame h.pendingKeys hp hp'
  · exact absurd (mem_keys.mpr ⟨_, hp'⟩) (h.apart k (mem_keys.mpr ⟨_, hp⟩))
  · exact absurd (mem_keys.mpr ⟨_, hp⟩) (h.apart k (mem_keys.mpr ⟨_, hp'⟩))
  · exact hsame h.queuedKeys hp hp'

lemma drop {hash : B256} (hmatch : ∀ e ∈ s.entries, e.1 = k ↔ e.2.hash = hash) :
  Intact env (s.drop k hash) := by
  refine ⟨nodup_keys_erase h.pendingKeys, nodup_keys_erase h.queuedKeys,
    nodup_keys_erase h.hashKeys, ?_, ?_, ?_, ?_, ?_⟩
  · intro k' hk' hk''
    exact h.apart k' (mem_keys_erase.mp hk').2 (mem_keys_erase.mp hk'').2
  · intro e he
    exact h.owner e (mem_entries_drop.mp he).2
  · intro e he e' he'
    exact h.oneHash e (mem_entries_drop.mp he).2 e' (mem_entries_drop.mp he').2
  · intro h' a
    simp only [PoolInner.drop, mem_erase, h.indexed]
    constructor
    · rintro ⟨hne, e, he, rfl, rfl⟩
      exact ⟨e, mem_entries_drop.mpr ⟨fun hk => hne ((hmatch e he).mp hk), he⟩, rfl, rfl⟩
    rintro ⟨e, he, rfl, rfl⟩
    obtain ⟨hne, he⟩ := mem_entries_drop.mp he
    exact ⟨fun hh => hne ((hmatch e he).mpr hh), e, he, rfl, rfl⟩
  intro e he
  exact h.encoded e (mem_entries_drop.mp he).2

lemma match_of_mem {e : PoolEntry} (he : e ∈ s.entries) :
  ∀ e' ∈ s.entries, e'.1 = e.1 ↔ e'.2.hash = e.2.hash := by
  rintro ⟨k', p'⟩ he'
  constructor
  · rintro rfl
    rw [h.unique he' he]
  intro hhash
  exact h.oneHash _ he' _ he hhash

lemma of_mem_entries {pending queued : TxMap}
  (hpending : (keys pending).Nodup) (hqueued : (keys queued).Nodup)
  (hapart : ∀ k ∈ keys pending, k ∉ keys queued)
  (hsame : ∀ e, e ∈ pending ++ queued ↔ e ∈ s.entries) :
  Intact env ⟨pending, queued, s.byHash⟩ := by
  refine ⟨hpending, hqueued, h.hashKeys, hapart, ?_, ?_, ?_, ?_⟩
  · intro e he
    exact h.owner e ((hsame e).mp he)
  · intro e he e' he'
    exact h.oneHash e ((hsame e).mp he) e' ((hsame e').mp he')
  · intro h' a
    rw [h.indexed]
    exact exists_congr fun e => and_congr_left' (hsame e).symm
  intro e he
  exact h.encoded e ((hsame e).mp he)

lemma promote_one (hget : get? k s.queued = some p) :
  Intact env ⟨s.pending.insert k p, erase k s.queued, s.byHash⟩ ∧
    ∀ e, e ∈ s.pending.insert k p ++ erase k s.queued ↔ e ∈ s.entries := by
  have hp := mem_of_get? hget
  have hsame : ∀ e, e ∈ s.pending.insert k p ++ erase k s.queued ↔ e ∈ s.entries := by
    rintro ⟨k', p'⟩
    rw [mem_append, mem_entries, TxMap.insert, mem_insert, mem_erase]
    by_cases hk : k' = k
    · subst hk
      simp only [true_and, ne_eq, not_true_eq_false, false_and, or_false]
      constructor
      · rintro rfl
        exact Or.inr hp
      intro hp'
      exact h.unique (mem_entries.mpr hp') (mem_entries.mpr (Or.inr hp))
    · simp [hk]
  refine ⟨h.of_mem_entries (nodup_keys_insert h.pendingKeys)
    (nodup_keys_erase h.queuedKeys) ?_ hsame, hsame⟩
  intro k' hk' hk''
  obtain ⟨hne, hq⟩ := mem_keys_erase.mp hk''
  rcases mem_keys_insert.mp hk' with rfl | hpend
  · exact hne rfl
  · exact h.apart k' hpend hq

lemma promoteLoop (sender : Address) (fuel : Nat) (nonce : UInt64) :
  let m := PoolInner.promoteLoop sender fuel nonce s.pending s.queued
  Intact env ⟨m.1, m.2, s.byHash⟩ ∧ ∀ e, e ∈ m.1 ++ m.2 ↔ e ∈ s.entries := by
  induction fuel generalizing s nonce with
  | zero => exact ⟨h, fun e => Iff.rfl⟩
  | succ fuel ih =>
    rw [PoolInner.promoteLoop]
    cases hget : get? (sender, nonce) s.queued with
    | none => exact ⟨h, fun e => Iff.rfl⟩
    | some p =>
      obtain ⟨hone, hsame⟩ := h.promote_one hget
      obtain ⟨hrest, hrestSame⟩ := ih hone (nonce + 1)
      exact ⟨hrest, fun e => (hrestSame e).trans (hsame e)⟩

lemma promoteQueued (sender : Address) (stateNonce : UInt64) :
  Intact env (s.promoteQueued sender stateNonce) ∧
    ∀ e, e ∈ (s.promoteQueued sender stateNonce).entries ↔ e ∈ s.entries :=
  h.promoteLoop sender s.queued.length (nextNonce s.pending sender stateNonce)

end

end Intact

def put (s : PoolInner) (toPending : Bool) (p : PooledTx) : PoolInner :=
  ⟨if toPending then s.pending.insert p.key p else s.pending,
    if toPending then s.queued else s.queued.insert p.key p,
    OrdMap.insert (fun _ _ => True) p.hash p.sender s.byHash⟩

variable {p : PooledTx}

lemma mem_entries_put {toPending : Bool} (hkey : p.key ∉ keys s.entries) :
  e ∈ (s.put toPending p).entries ↔ e = (p.key, p) ∨ e ∈ s.entries := by
  obtain ⟨k, q⟩ := e
  have hne : (k, q) ∈ s.entries → k ≠ p.key := by
    rintro he rfl
    exact hkey (mem_keys.mpr ⟨q, he⟩)
  rw [mem_entries] at hne ⊢
  rw [put, mem_entries]
  cases toPending
  · simp only [Bool.false_eq_true, if_false, TxMap.insert, mem_insert, Prod.mk.injEq]
    tauto
  simp only [if_true, TxMap.insert, mem_insert, Prod.mk.injEq]
  tauto

lemma Intact.put {env : PoolEnv} (h : Intact env s) (toPending : Bool)
  (hkey : p.key ∉ keys s.entries) (hhash : ∀ e ∈ s.entries, e.2.hash ≠ p.hash)
  (hencoded : p.hash = env.txHash (env.encode p.tx)) : Intact env (s.put toPending p) := by
  have hpending : p.key ∉ keys s.pending := fun hk => by
    obtain ⟨q, hq⟩ := mem_keys.mp hk
    exact hkey (mem_keys.mpr ⟨q, mem_entries.mpr (Or.inl hq)⟩)
  have hqueued : p.key ∉ keys s.queued := fun hk => by
    obtain ⟨q, hq⟩ := mem_keys.mp hk
    exact hkey (mem_keys.mpr ⟨q, mem_entries.mpr (Or.inr hq)⟩)
  refine ⟨?_, ?_, ?_, ?_, ?_, ?_, ?_, ?_⟩
  · cases toPending
    · exact h.pendingKeys
    simp only [PoolInner.put, if_true, TxMap.insert]
    exact nodup_keys_insert h.pendingKeys
  · cases toPending
    · simp only [PoolInner.put, Bool.false_eq_true, if_false, TxMap.insert]
      exact nodup_keys_insert h.queuedKeys
    · exact h.queuedKeys
  · simp only [PoolInner.put]
    exact nodup_keys_insert h.hashKeys
  · intro k
    cases toPending
    · simp only [PoolInner.put, Bool.false_eq_true, if_false, TxMap.insert, mem_keys_insert]
      rintro hk (rfl | hk')
      · exact hpending hk
      · exact h.apart k hk hk'
    simp only [PoolInner.put, if_true, TxMap.insert, mem_keys_insert]
    rintro (rfl | hk) hk'
    · exact hqueued hk'
    · exact h.apart k hk hk'
  · intro e he
    rcases (mem_entries_put hkey).mp he with rfl | he
    · rfl
    · exact h.owner e he
  · intro e he e' he' heq
    rcases (mem_entries_put hkey).mp he with rfl | he <;>
      rcases (mem_entries_put hkey).mp he' with rfl | he'
    · rfl
    · exact absurd heq.symm (hhash e' he')
    · exact absurd heq (hhash e he)
    · exact h.oneHash e he e' he' heq
  · intro h' a
    simp only [PoolInner.put, mem_insert, h.indexed]
    constructor
    · rintro (⟨rfl, rfl⟩ | ⟨-, e, he, rfl, rfl⟩)
      · exact ⟨_, (mem_entries_put hkey).mpr (Or.inl rfl), rfl, rfl⟩
      · exact ⟨e, (mem_entries_put hkey).mpr (Or.inr he), rfl, rfl⟩
    rintro ⟨e, he, rfl, rfl⟩
    rcases (mem_entries_put hkey).mp he with rfl | he
    · exact Or.inl ⟨rfl, rfl⟩
    · exact Or.inr ⟨hhash e he, e, he, rfl, rfl⟩
  intro e he
  rcases (mem_entries_put hkey).mp he with rfl | he
  · exact hencoded
  · exact h.encoded e he

section Adding

variable {env : PoolEnv} {s : PoolInner} {p : PooledTx} {stateNonce : UInt64}

def target (s : PoolInner) (p : PooledTx) (stateNonce : UInt64) : TxMap :=
  if s.goesToPending p stateNonce then s.pending else s.queued

def otherSide (s : PoolInner) (p : PooledTx) (stateNonce : UInt64) : TxMap :=
  if s.goesToPending p stateNonce then s.queued else s.pending

lemma mem_entries_sides {e : PoolEntry} :
  e ∈ s.entries ↔ e ∈ s.target p stateNonce ∨ e ∈ s.otherSide p stateNonce := by
  rw [mem_entries, target, otherSide]
  split
  · exact Iff.rfl
  · exact or_comm

def settled (s : PoolInner) (toPending : Bool) (p : PooledTx) (stateNonce : UInt64) : PoolInner :=
  if toPending then (s.put true p).promoteQueued p.sender stateNonce else s.put false p

lemma Intact.settled (h : Intact env s) (stateNonce : UInt64) (toPending : Bool)
  (hkey : p.key ∉ keys s.entries) (hhash : ∀ e ∈ s.entries, e.2.hash ≠ p.hash)
  (hencoded : p.hash = env.txHash (env.encode p.tx)) :
  Intact env (s.settled toPending p stateNonce) ∧ ∀ e,
    e ∈ (s.settled toPending p stateNonce).entries ↔ e = (p.key, p) ∨ e ∈ s.entries := by
  have hput := h.put toPending hkey hhash hencoded
  cases toPending
  · exact ⟨hput, fun e => mem_entries_put hkey⟩
  obtain ⟨hpromote, hsame⟩ := hput.promoteQueued p.sender stateNonce
  exact ⟨hpromote, fun e => (hsame e).trans (mem_entries_put hkey)⟩

lemma accept_none : s.accept p stateNonce none =
  s.settled (s.goesToPending p stateNonce) p stateNonce := by
  rw [accept, settled]
  cases s.goesToPending p stateNonce <;> rfl

lemma accept_some (old : PooledTx) (hother : p.key ∉ keys (s.otherSide p stateNonce)) :
  s.accept p stateNonce (some old) = (s.drop p.key old.hash).settled
    (s.goesToPending p stateNonce) p stateNonce := by
  rw [otherSide] at hother
  rw [accept, settled]
  cases hside : s.goesToPending p stateNonce
  · simp only [hside, Bool.false_eq_true, if_false] at hother
    simp only [Bool.false_eq_true, if_false, put, drop, TxMap.insert, insert_erase,
      erase_eq_self hother]
  simp only [hside, if_true] at hother
  simp only [if_true, put, drop, TxMap.insert, insert_erase, erase_eq_self hother]

/-- **An accepted transaction is there afterwards**, one it displaces was overbid and is not. -/
theorem Intact.accept (h : Intact env s) (hhash : ∀ e ∈ s.entries, e.2.hash ≠ p.hash)
  (hencoded : p.hash = env.txHash (env.encode p.tx))
  (hother : p.key ∉ keys (s.otherSide p stateNonce))
  {old : Option PooledTx} (hold : env.replacement (s.target p stateNonce) p = .ok old) :
  Intact env (s.accept p stateNonce old) ∧ (p.key, p) ∈ (s.accept p stateNonce old).entries ∧
    ∀ q, (p.key, q) ∈ s.entries → env.bumpThreshold q ≤ p.tx.gasPrice ∧
      (p.key, q) ∉ (s.accept p stateNonce old).entries := by
  rw [PoolEnv.replacement] at hold
  cases hget : get? p.key (s.target p stateNonce) with
  | none =>
    rw [hget] at hold
    cases hold
    have hkey : p.key ∉ keys s.entries := fun hk => by
      obtain ⟨q, hq⟩ := mem_keys.mp hk
      rcases mem_entries_sides.mp hq with hq | hq
      · exact get?_eq_none.mp hget (mem_keys.mpr ⟨q, hq⟩)
      · exact hother (mem_keys.mpr ⟨q, hq⟩)
    rw [accept_none]
    obtain ⟨hintact, hmem⟩ := h.settled stateNonce (s.goesToPending p stateNonce)
      hkey hhash hencoded
    exact ⟨hintact, (hmem _).mpr (Or.inl rfl), fun q hq => absurd (mem_keys.mpr ⟨q, hq⟩) hkey⟩
  | some existing =>
    simp only [hget] at hold
    split at hold
    · cases hold
    split at hold
    · cases hold
    rename_i hne hprice
    cases hold
    have hmemOld : (p.key, existing) ∈ s.entries :=
      mem_entries_sides.mpr (Or.inl (mem_of_get? hget))
    have hdrop := h.drop (h.match_of_mem hmemOld)
    have hkey : p.key ∉ keys
        (s.drop p.key existing.hash).entries := fun hk => by
      obtain ⟨q, hq⟩ := mem_keys.mp hk
      exact (mem_entries_drop.mp hq).1 rfl
    rw [accept_some existing hother]
    obtain ⟨hintact, hmem⟩ := hdrop.settled stateNonce
      (s.goesToPending p stateNonce) hkey
      (fun e he => hhash e (mem_entries_drop.mp he).2) hencoded
    refine ⟨hintact, (hmem _).mpr (Or.inl rfl), fun q hq => ?_⟩
    obtain rfl := h.unique hq hmemOld
    refine ⟨BitVec.not_lt.mp hprice, fun hstill => ?_⟩
    rcases (hmem _).mp hstill with heq | hstill
    · exact hne (by rw [(Prod.mk.inj heq).2])
    · exact (mem_entries_drop.mp hstill).1 rfl

variable {victim : Address} {s' : PoolInner}

lemma evictOneQueued_sub (h : s.evictOneQueued victim = some s') : ∃ e ∈ s.queued,
    s' = ⟨s.pending, erase e.1 s.queued, erase e.2.hash s.byHash⟩ := by
  rw [evictOneQueued] at h
  split at h
  · cases h
  obtain ⟨p', hget, rfl⟩ := Option.map_eq_some_iff.mp h
  exact ⟨_, mem_of_get? hget, rfl⟩

lemma makeRoom_sub (h : s.makeRoom env victim = some s') :
  s'.pending = s.pending ∧ ∀ x ∈ s'.queued, x ∈ s.queued := by
  rw [makeRoom] at h
  split at h
  · obtain ⟨e, -, rfl⟩ := evictOneQueued_sub h
    exact ⟨rfl, fun x hx => (mem_erase.mp hx).2⟩
  cases h
  exact ⟨rfl, fun x hx => hx⟩

lemma Intact.makeRoom (h : Intact env s) (hroom : s.makeRoom env victim = some s') :
  Intact env s' ∧ (s.byHash.length < env.config.maxPoolTransactions → s' = s) := by
  rw [PoolInner.makeRoom] at hroom
  split at hroom
  · obtain ⟨e, he, rfl⟩ := evictOneQueued_sub hroom
    refine ⟨?_, fun hlt => by omega⟩
    have hnot := fun hk => h.apart e.1 hk (mem_keys.mpr ⟨e.2, he⟩)
    have hdrop := h.drop (h.match_of_mem (mem_entries.mpr (Or.inr he)))
    rwa [PoolInner.drop, erase_eq_self hnot] at hdrop
  cases hroom
  exact ⟨h, fun _ => rfl⟩

end Adding

/-- What a call must not meet for the pool to stay intact.

- An added transaction comes in its own encoding, its nonce is not held on the other side, and a
  full pool is not offered a second transaction for a held nonce.
- Mined transactions do not collide with pooled ones.
- No queued transaction of a sender with pending ones is removed by its hash. -/
def Regular (env : PoolEnv) (s : PoolInner) : PoolEvent → Prop
  | .add c => ∀ p stateNonce balance, env.vet c = .ok (p, stateNonce, balance) →
    c.raw = env.encode p.tx ∧
    p.key ∉ keys (s.otherSide p stateNonce) ∧
    (s.byHash.length < env.config.maxPoolTransactions ∨ p.key ∉ keys s.entries)
  | .removeMined transactions => ∀ tx ∈ transactions, ∀ e ∈ s.entries,
    env.txHash (env.encode e.2.tx) = env.txHash (env.encode tx) → e.2.tx = tx
  | .removeByHashes hashes => ∀ e ∈ s.queued, e.2.hash ∈ hashes → s.pending.ofSender e.1.1 = []
  | .evictOutdated _ _ => True

/-- What an addition is to do: an accepted transaction is there, one it displaces was overbid and
is not; a refused one adds nothing. -/
structure Added (env : PoolEnv) (s : PoolInner) (p : PooledTx)
  (r : Except PoolError B256 × PoolInner) : Prop where
  accepted : ∀ hash, r.1 = .ok hash → hash = p.hash ∧ (p.key, p) ∈ r.2.entries ∧
    ∀ q, (p.key, q) ∈ s.entries → env.bumpThreshold q ≤ p.tx.gasPrice ∧ (p.key, q) ∉ r.2.entries
  refused : ∀ e, r.1 = .error e → ∀ x ∈ r.2.entries, x ∈ s.entries

def Exact (env : PoolEnv) (s : PoolInner) : PoolEvent → Prop
  | .add c => ∀ p stateNonce balance, env.vet c = .ok (p, stateNonce, balance) →
    Added env s p (s.addTransaction env c)
  | .removeMined transactions => ∀ e, e ∈ (s.removeMined env transactions).entries ↔
    e ∈ s.entries ∧ e.2.tx ∉ transactions
  | .removeByHashes hashes => ∀ e, e ∈ (s.removeByHashes hashes).entries ↔
    e ∈ s.entries ∧ e.2.hash ∉ hashes
  | .evictOutdated currentBlock now => ∀ e,
    e ∈ (s.evictOutdated env.config currentBlock now).entries ↔
      e ∈ s.entries ∧ outdated env.config currentBlock now e.2 = false

section Steps

variable {env : PoolEnv} {s : PoolInner} {c : AddCall}

lemma vet_eq_ok {p : PooledTx} {stateNonce : UInt64} {balance : U256}
  (h : env.vet c = .ok (p, stateNonce, balance)) :
  p.hash = env.txHash c.raw ∧ ∀ head, c.head = .ok head →
    p.addedBlock = head.header.number ∧ (stateNonce, balance) = head.accountState p.sender := by
  rw [PoolEnv.vet] at h
  obtain ⟨tx, -, h⟩ := except_do_eq_ok.mp h
  split at h
  · cases h
  obtain ⟨sender, -, h⟩ := except_do_eq_ok.mp h
  obtain ⟨head, hhead, h⟩ := except_do_eq_ok.mp h
  obtain ⟨-, -, h⟩ := except_do_eq_ok.mp h
  obtain ⟨rfl, haccount⟩ := Prod.mk.inj (Except.ok.inj h)
  refine ⟨rfl, fun head' hhead' => ?_⟩
  rw [hhead'] at hhead
  obtain rfl : head' = head := Except.ok.inj hhead
  exact ⟨rfl, haccount.symm⟩

lemma step_add (h : Intact env s) (hregular : Regular env s (.add c)) :
  Intact env (s.addTransaction env c).2 ∧ Exact env s (.add c) := by
  cases hvet : env.vet c with
  | error e =>
    refine ⟨?_, fun p stateNonce balance hp => absurd (hvet.symm.trans hp) (by simp)⟩
    rw [addTransaction, hvet]
    exact h
  | ok found =>
    obtain ⟨p, stateNonce, balance⟩ := found
    obtain ⟨hraw, hother, hroom⟩ := hregular p stateNonce balance hvet
    have hencoded : p.hash = env.txHash (env.encode p.tx) := by rw [(vet_eq_ok hvet).1, hraw]
    have hadd : s.addTransaction env c = s.place env p stateNonce balance c := by
      rw [addTransaction, hvet]
    suffices hplace : Intact env (s.place env p stateNonce balance c).2 ∧
        Added env s p (s.place env p stateNonce balance c) by
      refine ⟨hadd ▸ hplace.1, fun p' n' b' hp' => ?_⟩
      obtain ⟨rfl, rfl, rfl⟩ : p = p' ∧ stateNonce = n' ∧ balance = b' := by
        simpa using hvet.symm.trans hp'
      exact hadd ▸ hplace.2
    rw [place]
    split
    · exact ⟨h, nofun, fun e _ x hx => hx⟩
    rename_i hknown
    split
    · exact ⟨h, nofun, fun e _ x hx => hx⟩
    rename_i s' hs'
    obtain ⟨hpending, hqueued⟩ := makeRoom_sub hs'
    obtain ⟨hintact, hnotFull⟩ := h.makeRoom hs'
    have hsub : ∀ x ∈ s'.entries, x ∈ s.entries := fun x hx =>
      mem_entries.mpr ((mem_entries.mp hx).imp (fun hx => hpending ▸ hx) (hqueued x))
    have hkept : ∀ q, (p.key, q) ∈ s.entries → (p.key, q) ∈ s'.entries := fun q hq => by
      rcases hroom with hlt | hfree
      · rwa [hnotFull hlt]
      · exact absurd (mem_keys.mpr ⟨q, hq⟩) hfree
    have hside : s'.goesToPending p stateNonce = s.goesToPending p stateNonce := by
      rw [goesToPending, goesToPending, hpending]
    split
    · exact ⟨hintact, nofun, fun e _ x hx => hsub x hx⟩
    rename_i old hsettle
    have hold : env.replacement (s'.target p stateNonce) p = .ok old := by
      rw [settle] at hsettle
      rw [target]
      split at hsettle
      · cases hsettle
      rename_i old' hold'
      split at hsettle
      · cases hsettle
      split at hsettle
      · cases hsettle
      rw [← hsettle]
      exact hold'
    have hhash : ∀ e ∈ s'.entries, e.2.hash ≠ p.hash := by
      intro e he heq
      refine hknown (get?_isSome.mpr (mem_keys.mpr ⟨e.1.1, ?_⟩))
      exact (h.indexed _ _).mpr ⟨e, hsub e he, heq, rfl⟩
    have hother' : p.key ∉ keys (s'.otherSide p stateNonce) := by
      intro hk
      obtain ⟨q, hq⟩ := mem_keys.mp hk
      refine hother (mem_keys.mpr ⟨q, ?_⟩)
      rw [otherSide, hside] at hq
      rw [otherSide]
      split at hq
      · rename_i hgo
        rw [if_pos hgo]
        exact hqueued _ hq
      rename_i hgo
      rw [if_neg hgo]
      exact hpending ▸ hq
    obtain ⟨haccept, hthere, hover⟩ := hintact.accept hhash hencoded hother' hold
    exact ⟨haccept, fun hash hok => ⟨(by simpa using hok.symm), hthere,
      fun q hq => hover q (hkept q hq)⟩, nofun⟩

lemma removeByHash_sublist (s : PoolInner) (hash : B256) (nonce : UInt64) :
  (s.removeByHash hash nonce).pending.Sublist s.pending ∧
    (s.removeByHash hash nonce).queued.Sublist s.queued := by
  rw [removeByHash]
  split
  · exact ⟨.refl _, .refl _⟩
  · exact ⟨List.filter_sublist, List.filter_sublist⟩

section

variable (h : Intact env s)

include h

variable (hash : B256)

lemma Intact.removeByHash (nonce : UInt64)
  (hnonce : ∀ e ∈ s.entries, e.2.hash = hash → e.1.2 = nonce) :
  Intact env (s.removeByHash hash nonce) ∧
    ∀ e, e ∈ (s.removeByHash hash nonce).entries ↔ e ∈ s.entries ∧ e.2.hash ≠ hash := by
  rw [PoolInner.removeByHash]
  cases hget : get? hash s.byHash with
  | none =>
    refine ⟨h, fun e => ⟨fun he => ⟨he, fun heq => ?_⟩, And.left⟩⟩
    exact get?_eq_none.mp hget
      (mem_keys.mpr ⟨e.1.1, (h.indexed _ _).mpr ⟨e, he, heq, rfl⟩⟩)
  | some sender =>
    obtain ⟨e₀, he₀, rfl, rfl⟩ := (h.indexed _ _).mp (mem_of_get? hget)
    have hkey : (e₀.1.1, nonce) = e₀.1 := Prod.ext rfl (hnonce e₀ he₀ rfl).symm
    have hmatch := h.match_of_mem he₀
    simp only [hkey]
    refine ⟨h.drop hmatch, fun e => ?_⟩
    rw [mem_entries_drop, and_comm]
    exact and_congr_right fun he => not_congr (hmatch e he)

lemma step_removeMined {transactions : List Transaction}
  (hregular : Regular env s (.removeMined transactions)) :
  Intact env (s.removeMined env transactions) ∧ Exact env s (.removeMined transactions) := by
  induction transactions generalizing s with
  | nil => exact ⟨h, fun e => by simp [removeMined]⟩
  | cons tx transactions ih =>
    have hsame : ∀ e ∈ s.entries, e.2.hash = env.txHash (env.encode tx) ↔ e.2.tx = tx := by
      intro e he
      rw [h.encoded e he]
      exact ⟨hregular tx mem_cons_self e he, fun heq => heq ▸ rfl⟩
    obtain ⟨hone, hmem⟩ := h.removeByHash _ tx.nonce fun e he heq => by
      rw [h.owner e he, ← (hsame e he).mp heq]
    obtain ⟨hrest, hexact⟩ := ih hone fun tx' htx' e he =>
      hregular tx' (List.mem_cons_of_mem _ htx') e ((hmem e).mp he).1
    refine ⟨hrest, fun e => ?_⟩
    rw [removeMined, List.foldl_cons]
    refine (hexact e).trans ?_
    rw [hmem e, mem_cons, not_or, and_assoc]
    exact and_congr_right fun he => and_congr_left' (not_congr (hsame e he))

lemma findNonce_eq {e : PoolEntry} (he : e ∈ s.entries)
  (hside : e ∈ s.queued → s.pending.ofSender e.1.1 = []) : s.findNonce e.2.hash = some e.1.2 := by
  have hget : get? e.2.hash s.byHash = some e.1.1 :=
    (get?_eq_some_iff h.hashKeys).mpr ((h.indexed _ _).mpr ⟨e, he, rfl, rfl⟩)
  have hfind : ∀ {m : TxMap}, e ∈ m → (∀ x ∈ m, x ∈ s.entries) →
      (m.find? fun x => x.2.hash = e.2.hash).map (fun x => x.1.2) = some e.1.2 := by
    intro m hm hsub
    cases hx : m.find? fun x => x.2.hash = e.2.hash with
    | none => simpa using List.find?_eq_none.mp hx e hm
    | some x =>
      have hkey := h.oneHash x (hsub x (List.mem_of_find?_eq_some hx)) e he
        (by simpa using List.find?_some hx)
      simp [hkey]
  rw [findNonce, hget, Option.bind_some]
  dsimp only
  by_cases hpend : s.pending.ofSender e.1.1 = []
  · rw [if_neg (not_not.mpr hpend)]
    refine hfind (mem_filter.mpr ⟨?_, by simp⟩) fun x hx =>
      mem_entries.mpr (Or.inr (mem_filter.mp hx).1)
    refine (mem_entries.mp he).resolve_left fun hp => ?_
    have hmem : e ∈ s.pending.ofSender e.1.1 := mem_filter.mpr ⟨hp, by simp⟩
    rw [hpend] at hmem
    cases hmem
  rw [if_pos hpend]
  refine hfind (mem_filter.mpr ⟨?_, by simp⟩) fun x hx =>
    mem_entries.mpr (Or.inl (mem_filter.mp hx).1)
  exact (mem_entries.mp he).resolve_right fun hq => hpend (hside hq)

lemma step_removeByHashes {hashes : List B256} (hregular : Regular env s (.removeByHashes hashes)) :
  Intact env (s.removeByHashes hashes) ∧ Exact env s (.removeByHashes hashes) := by
  induction hashes generalizing s with
  | nil => exact ⟨h, fun e => by simp [removeByHashes]⟩
  | cons hash hashes ih =>
    set s' := match s.findNonce hash with
      | none => s
      | some nonce => s.removeByHash hash nonce with hs'
    have hone : Intact env s' ∧ (∀ e, e ∈ s'.entries ↔ e ∈ s.entries ∧ e.2.hash ≠ hash) ∧
        s'.pending.Sublist s.pending ∧ s'.queued.Sublist s.queued := by
      rw [hs']
      cases hfound : s.findNonce hash with
      | none =>
        refine ⟨h, fun e => ⟨fun he => ⟨he, fun heq => ?_⟩, And.left⟩, .refl _, .refl _⟩
        have := findNonce_eq h he fun hq => hregular e hq (heq ▸ mem_cons_self)
        rw [heq, hfound] at this
        cases this
      | some nonce =>
        obtain ⟨hintact, hmem⟩ := h.removeByHash hash nonce fun e he heq => by
          have := findNonce_eq h he fun hq => hregular e hq (heq ▸ mem_cons_self)
          rw [heq, hfound] at this
          exact (Option.some.inj this).symm
        exact ⟨hintact, hmem, removeByHash_sublist s hash nonce⟩
    obtain ⟨hintact, hmem, hpending, hqueued⟩ := hone
    obtain ⟨hrest, hexact⟩ := ih hintact fun e he hhash => by
      have hnone := hregular e (hqueued.subset he) (List.mem_cons_of_mem _ hhash)
      refine List.filter_eq_nil_iff.mpr fun x hx => ?_
      exact List.filter_eq_nil_iff.mp hnone x (hpending.subset hx)
    refine ⟨hrest, fun e => ?_⟩
    rw [removeByHashes, List.foldl_cons]
    refine (hexact e).trans ?_
    rw [hmem e, mem_cons, not_or, and_assoc]

lemma step_evictOutdated (currentBlock : UInt64) (now : Nat) :
  Intact env (s.evictOutdated env.config currentBlock now) ∧
    Exact env s (.evictOutdated currentBlock now) := by
  -- entries found before the first removal are dropped one after the other
  have hfold : ∀ (l : TxMap) (s' : PoolInner), Intact env s' → (∀ x ∈ l, x ∈ s.entries) →
      (∀ x ∈ s'.entries, x ∈ s.entries) →
      Intact env (l.foldl (fun s x => s.drop x.1 x.2.hash) s') ∧
        ∀ e, e ∈ (l.foldl (fun s x => s.drop x.1 x.2.hash) s').entries ↔
          e ∈ s'.entries ∧ e ∉ l := by
    intro l
    induction l with
    | nil => exact fun s' hs' _ _ => ⟨hs', fun e => by simp⟩
    | cons x l ih =>
      intro s' hs' hl hsub
      have hx := hl x mem_cons_self
      have hdrop := hs'.drop fun e he => h.match_of_mem hx e (hsub e he)
      obtain ⟨hrest, hmem⟩ := ih _ hdrop (fun y hy => hl y (List.mem_cons_of_mem _ hy)) fun y hy =>
        hsub y (mem_entries_drop.mp hy).2
      refine ⟨hrest, fun e => (hmem e).trans ?_⟩
      rw [mem_entries_drop, mem_cons, not_or, and_comm (a := e.1 ≠ x.1), and_assoc]
      refine and_congr_right fun he =>
        and_congr_left' (not_congr ⟨fun hkey => ?_, fun heq => heq ▸ rfl⟩)
      have hp : (x.1, e.2) ∈ s.entries := hkey ▸ hsub e he
      exact Prod.ext hkey (h.unique hp hx)
  obtain ⟨hintact, hmem⟩ := hfold
    (s.entries.filter fun e => outdated env.config currentBlock now e.2) s h (fun x hx => (mem_filter.mp hx).1) fun x hx => hx
  refine ⟨hintact, fun e => (hmem e).trans ?_⟩
  rw [mem_filter, not_and, Bool.not_eq_true]
  exact ⟨fun he => ⟨he.1, he.2 he.1⟩, fun he => ⟨he.1, fun _ => he.2⟩⟩

lemma step_regular {e : PoolEvent} (hregular : Regular env s e) :
  Intact env (s.apply env e) ∧ Exact env s e := by
  cases e with
  | add c => exact step_add h hregular
  | removeMined transactions => exact step_removeMined h hregular
  | removeByHashes hashes => exact step_removeByHashes h hregular
  | evictOutdated currentBlock now => exact step_evictOutdated h currentBlock now

lemma Intact.mem_keys_byHash : hash ∈ keys s.byHash ↔ ∃ e ∈ s.entries, e.2.hash = hash := by
  simp only [mem_keys, h.indexed]
  exact ⟨fun ⟨_, e, he, heq, _⟩ => ⟨e, he, heq⟩, fun ⟨e, he, heq⟩ => ⟨_, e, he, heq, rfl⟩⟩

lemma Intact.nodup_keys : (keys s.entries).Nodup := by
  rw [keys, entries, List.map_append]
  refine h.pendingKeys.append h.queuedKeys ?_
  exact fun k hk hk' => h.apart k hk hk'

lemma Intact.status_eq : s.status.1 + s.status.2 = s.byHash.length := by
  have hnodup : (s.entries.map fun e => e.2.hash).Nodup := by
    refine (List.Nodup.of_map _ h.nodup_keys).map_on fun e he e' he' heq => ?_
    have hkey := h.oneHash e he e' he' heq
    have hp : (e'.1, e.2) ∈ s.entries := hkey ▸ he
    exact Prod.ext hkey (h.unique hp he')
  have hperm : (s.entries.map fun e => e.2.hash).Perm (keys s.byHash) := by
    refine (List.perm_ext_iff_of_nodup hnodup h.hashKeys).mpr fun hash => ?_
    rw [h.mem_keys_byHash, List.mem_map]
  have := hperm.length_eq
  simpa [keys, entries, status] using this

lemma Intact.get_isSome : (s.get hash).isSome ↔ hash ∈ keys s.byHash := by
  constructor
  · intro hsome
    rw [PoolInner.get] at hsome
    cases hget : get? hash s.byHash with
    | none => simp [hget] at hsome
    | some sender => exact get?_isSome.mp (by simp [hget])
  intro hkey
  obtain ⟨e, he, rfl⟩ := (h.mem_keys_byHash hash).mp hkey
  have hget : get? e.2.hash s.byHash = some e.1.1 :=
    (get?_eq_some_iff h.hashKeys).mpr ((h.indexed _ _).mpr ⟨e, he, rfl, rfl⟩)
  rw [PoolInner.get, hget, Option.bind_some, Option.isSome_map, List.find?_isSome]
  refine ⟨e, mem_append.mpr ?_, by simp⟩
  exact (mem_entries.mp he).imp (fun hp => mem_filter.mpr ⟨hp, by simp⟩)
    fun hq => mem_filter.mpr ⟨hq, by simp⟩

end

/-- **The pool under regular calls.** In every run of calls, the head and the accounts changing in
between, whose calls are regular: the hashes of the index are those of the pending and queued
transactions, so that `status`, `get` and the capacity limit agree; no sender and nonce is held
twice; and every further regular call adds, replaces and removes exactly what it names. -/
theorem intact_of_regular_run {hist : List (PoolInner × PoolEvent)}
  (hrun : Run (Step env) empty hist s) (hregular : ∀ x ∈ hist, Regular env x.1 x.2) :
  (∀ hash, hash ∈ keys s.byHash ↔ ∃ e ∈ s.entries, e.2.hash = hash) ∧
    s.status.1 + s.status.2 = s.byHash.length ∧
    (∀ hash, (s.get hash).isSome ↔ hash ∈ keys s.byHash) ∧
    (keys s.entries).Nodup ∧ ∀ e, Regular env s e → Exact env s e := by
  have hintact : Intact env s :=
    @Run.invariant _ _ _ _ _ _ (fun s e => Regular env s e) (fun _ s => Intact env s)
      (intact_empty env) (fun _ s e s' hs he hstep =>
        (show s' = s.apply env e from hstep) ▸ (step_regular hs he).1) hrun hregular
  exact ⟨hintact.mem_keys_byHash, hintact.status_eq, hintact.get_isSome, hintact.nodup_keys,
    fun e he => (step_regular hintact he).2⟩

end Steps

end PoolInner

namespace PoolExample

open PoolInner

def alice : Address := ⟨List.replicate 19 0 ++ [0xA1], rfl⟩

def transfer (nonce : UInt64) (gasPrice : U256) : Transaction :=
  ⟨nonce, gasPrice, 21000, alice.bytes, 0, [], 27, 1, 1⟩

def env : PoolEnv where
  config := .default
  chainRules := none
  decode
    | [0xC2, nonce, gasPrice] => .ok (transfer nonce.toUInt64 (BitVec.ofNat 256 gasPrice.toNat))
    | _ => .error "unexpected length"
  encode tx := [0xC2, tx.nonce.toUInt8, UInt8.ofNat tx.gasPrice.toNat]
  txHash := .ofBytes 32
  recoverSender _ := .ok alice

def offer (nonce gasPrice : UInt8) : AddCall where
  raw := [0xC2, nonce, gasPrice]
  head := .ok ⟨{ Header.unmined (.zero 32) 1 with gasLimit := 1000000 }, fun _ => (0, 10000000)⟩
  now := 0
  acceptTx := true
  victim := alice

def first : PoolInner := (empty.addTransaction env (offer 0 1)).2

def second : PoolInner := (first.addTransaction env (offer 1 1)).2

def third : PoolInner := (second.addTransaction env (offer 1 2)).2

def gapped : PoolInner := (first.addTransaction env (offer 2 1)).2

end PoolExample

open PoolExample in
/-- Nonces 0 and 1 are pending. Another transaction for nonce 1 follows no last pending nonce, so it
is looked for, and put, among the queued ones: the nonce is held twice. And a queued transaction
whose sender has pending ones is not found by its hash. -/
theorem nonce_held_twice :
  (second.addTransaction env (offer 1 2)).1 = .ok (.ofBytes 32 [0xC2, 1, 2]) ∧
    ¬ (keys third.entries).Nodup ∧ (gapped.removeByHashes [.ofBytes 32 [0xC2, 2, 1]]) = gapped ∧
    (gapped.get (.ofBytes 32 [0xC2, 2, 1])).isSome = true := by
  decide +kernel

open PoolExample PoolInner in
/-- After a first transaction. -/
theorem intact_of_regular_run_first : Run (Step env) empty [(empty, .add (offer 0 1))] first ∧
    first.status.1 + first.status.2 = first.byHash.length ∧ (keys first.entries).Nodup := by
  have hrun : Run (Step env) empty [(empty, .add (offer 0 1))] first := Run.init.step rfl
  have hregular : Regular env empty (.add (offer 0 1)) := by
    intro p stateNonce balance hp
    have hvet : env.vet (offer 0 1) = .ok
        (⟨transfer 0 1, .ofBytes 32 [0xC2, 0, 1], alice, 1, 0, 3⟩, 0, 10000000) := by rfl
    obtain ⟨rfl, rfl, rfl⟩ := by simpa using hvet.symm.trans hp
    exact ⟨by decide, by decide, Or.inl (by decide)⟩
  obtain ⟨-, hstatus, -, hnodup, -⟩ := intact_of_regular_run hrun (by simpa using hregular)
  exact ⟨hrun, hstatus, hnodup⟩

end Rustock
