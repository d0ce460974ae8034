import Rustock.Core.MergedMining

/-!
# The Bridge's store of Bitcoin headers

Stored blocks, their two serialized forms, compact targets and the reads and writes of Bridge
storage (crates/execution/src/bridge/btc_store.rs), with the node-wide cache in front of the
parent state (btc_block_cache.rs).

A read asks this block's own writes, then the cache if there is one, then the parent state; what
is found there enters the cache. The legacy form keeps the low twelve bytes of the chain work
(`StoredBlock.kept`).

The double SHA-256 is a parameter.
-/

namespace Rustock

open Lib List

namespace BtcHeader

def prevBlockhash (h : BtcHeader) : B256 := .ofBytes 32 (window h.raw.bytes 4 32)

def bits (h : BtcHeader) : UInt32 := UInt32.ofNat (leNat (window h.raw.bytes 72 4))

end BtcHeader

/-- The sign bit is dropped, and what a shift pushes out is lost. -/
def compactTargetToU256 (bits : UInt32) : U256 :=
  let exponent := bits.toNat / 2 ^ 24
  let mantissa := bits.toNat % 2 ^ 23
  if exponent ≤ 3 then BitVec.ofNat 256 (mantissa / 2 ^ (8 * (3 - exponent)))
  else
    let shiftBits := 8 * (exponent - 3)
    if 256 ≤ shiftBits then 0 else BitVec.ofNat 256 (mantissa * 2 ^ shiftBits)

def computeWork (bits : UInt32) : U256 :=
  let target := compactTargetToU256 bits
  if target = 0 then 0 else (U256.max - target) / (target + 1) + 1

structure StoredBlock where
  header : BtcHeader
  height : UInt32
  chainWork : U256
deriving DecidableEq

namespace StoredBlock

/-- Twelve bytes of chain work, or thirty-two. -/
def serializeCompact (useV2 : Bool) (b : StoredBlock) : Bytes :=
  beBytes (if useV2 then 32 else 12) b.chainWork.toNat ++
    (beBytes 4 b.height.toNat ++ b.header.raw.bytes)

/-- A form with `width` bytes of chain work. -/
def readCompact (width : Nat) (data : Bytes) : StoredBlock where
  header := ⟨.ofBytes 80 (data.drop (width + 4))⟩
  height := UInt32.ofNat (beNat (window data width 4))
  chainWork := BitVec.ofNat 256 (beNat (data.take width))

/-- The length tells the form. -/
def deserializeCompact (data : Bytes) : Option StoredBlock :=
  if data.length = 96 then some (readCompact 12 data)
  else if data.length = 116 then some (readCompact 32 data)
  else none

def kept (useV2 : Bool) (b : StoredBlock) : StoredBlock :=
  if useV2 then b else { b with chainWork := BitVec.ofNat 256 (b.chainWork.toNat % 2 ^ 96) }

lemma readCompact_serialize (b : StoredBlock) (width : Nat) :
  readCompact width (beBytes width b.chainWork.toNat ++
    (beBytes 4 b.height.toNat ++ b.header.raw.bytes)) =
    { b with chainWork := BitVec.ofNat 256 (b.chainWork.toNat % 256 ^ width) } := by
  have hwork : (beBytes width b.chainWork.toNat).length = width := length_beBytes ..
  have hheight : (beBytes 4 b.height.toNat).length = 4 := length_beBytes ..
  have hdrop : (beBytes width b.chainWork.toNat ++
      (beBytes 4 b.height.toNat ++ b.header.raw.bytes)).drop (width + 4) = b.header.raw.bytes := by
    rw [← append_assoc]
    exact drop_left' (by rw [length_append, hwork, hheight])
  have htake : (beBytes width b.chainWork.toNat ++
      (beBytes 4 b.height.toNat ++ b.header.raw.bytes)).take width =
      beBytes width b.chainWork.toNat := take_left' hwork
  have hword : b.height.toNat < 256 ^ 4 := b.height.toNat_lt
  rw [readCompact, hdrop, htake, window_middle hwork hheight, beNat_beBytes, beNat_beBytes,
    Nat.mod_eq_of_lt hword, UInt32.ofNat_toNat, FixedBytes.ofBytes_bytes]

/-- **A stored block reads back**, up to the chain work the legacy form drops. -/
theorem deserialize_serialize (useV2 : Bool) (b : StoredBlock) :
  deserializeCompact (b.serializeCompact useV2) = some (b.kept useV2) := by
  cases useV2 with
  | true =>
    have hlen : (b.serializeCompact true).length = 116 := by simp [serializeCompact]
    have hfull : b.chainWork.toNat % 256 ^ 32 = b.chainWork.toNat :=
      Nat.mod_eq_of_lt b.chainWork.isLt
    have hread := readCompact_serialize b 32
    rw [hfull, BitVec.ofNat_toNat, BitVec.setWidth_eq] at hread
    rw [deserializeCompact, if_neg (by omega), if_pos hlen]
    exact congrArg some hread
  | false =>
    have hlen : (b.serializeCompact false).length = 96 := by simp [serializeCompact]
    rw [deserializeCompact, if_pos hlen]
    exact congrArg some (readCompact_serialize b 12)

@[simp] lemma kept_header (useV2 : Bool) (b : StoredBlock) : (b.kept useV2).header = b.header := by
  cases useV2 <;> rfl

@[simp] lemma kept_height (useV2 : Bool) (b : StoredBlock) : (b.kept useV2).height = b.height := by
  cases useV2 <;> rfl

end StoredBlock

open StoredBlock

/-- Entries with the time of their last use. -/
structure Lru where
  entries : List (B256 × StoredBlock × Nat)
  clock : Nat
  capacity : Nat

namespace Lru

def get (c : Lru) (hash : B256) : Option StoredBlock × Lru :=
  match c.entries.find? (·.1 = hash) with
  | none => (none, { c with clock := c.clock + 1 })
  | some entry =>
    (some entry.2.1,
      { c with
        clock := c.clock + 1
        entries := c.entries.map fun e => if e.1 = hash then (e.1, e.2.1, c.clock + 1) else e })

def evict (entries : List (B256 × StoredBlock × Nat)) : List (B256 × StoredBlock × Nat) :=
  match (entries.map (·.2.2)).min? with
  | none => []
  | some oldest => entries.eraseP (·.2.2 = oldest)

def put (c : Lru) (hash : B256) (block : StoredBlock) : Lru :=
  if c.entries.any (·.1 = hash) then
    { c with
      clock := c.clock + 1
      entries := c.entries.map fun e => if e.1 = hash then (hash, block, c.clock + 1) else e }
  else
    { c with
      clock := c.clock + 1
      entries := (hash, block, c.clock + 1) ::
        if c.capacity ≤ c.entries.length then evict c.entries else c.entries }

end Lru

/-- The cells of Bridge storage that hold the Bitcoin chain: blocks by hash, as this block's
writes over the parent state's, the chain head and the main-chain index. -/
structure BtcCtx where
  overlay : B256 → Option Bytes
  trie : B256 → Bytes
  cache : Option Lru
  chainHead : Bytes
  heightIndex : UInt32 → Option B256
  receiveHeadersTimestamp : UInt64

structure BtcParams where
  sha256d : Bytes → B256
  mainnet : Bool
  maxBtcHeadersPerRskBlock : Nat
  minSecondsBetweenCallsReceiveHeader : UInt64
  maxDepthBlockchainAccepted : UInt32
  blockWithTooMuchChainWorkHeight : UInt32
  btcHeightWhenBlockIndexActivates : UInt32
  maxDepthToSearchBlocksBelowIndexActivation : UInt32
  genesis : BtcHeader
  checkpoint : Option StoredBlock

structure BtcRules where
  rskip124 : Bool
  rskip199 : Bool
  rskip434 : Bool
  useV2 : Bool
  timestamp : UInt64

structure BtcEnv extends BtcParams, BtcRules

namespace BtcEnv

variable (env : BtcEnv)

def blockHash (h : BtcHeader) : B256 := env.sha256d h.raw.bytes

def hashOf (b : StoredBlock) : B256 := env.blockHash b.header

/-- The digest as a little-endian number, against the header's own target. -/
def checkProofOfWork (h : BtcHeader) : Bool :=
  leNat (env.blockHash h).bytes ≤ (compactTargetToU256 h.bits).toNat

end BtcEnv

namespace BtcCtx

def lookup (ctx : BtcCtx) (hash : B256) : Option StoredBlock :=
  match ctx.overlay hash with
  | some data => deserializeCompact data
  | none => deserializeCompact (ctx.trie hash)

end BtcCtx

abbrev BtcM := StateM BtcCtx

def getStoredBlock (hash : B256) : BtcM (Option StoredBlock) := fun ctx =>
  match ctx.overlay hash with
  | some data => (deserializeCompact data, ctx)
  | none =>
    match ctx.cache with
    | none => (deserializeCompact (ctx.trie hash), ctx)
    | some cache =>
      match cache.get hash with
      | (some block, cache) => (some block, { ctx with cache := some cache })
      | (none, cache) =>
        match deserializeCompact (ctx.trie hash) with
        | none => (none, { ctx with cache := some cache })
        | some block => (some block, { ctx with cache := some (cache.put hash block) })

def loadChainHead : BtcM (Option StoredBlock) := fun ctx =>
  (deserializeCompact ctx.chainHead, ctx)

namespace BtcEnv

variable (env : BtcEnv)

def putStoredBlock (b : StoredBlock) : BtcM Unit := fun ctx =>
  ((), { ctx with
    overlay := Function.update ctx.overlay (env.hashOf b) (some (b.serializeCompact env.useV2)) })

/-- btc_store.rs:175–183 and btc_chain.rs:296–312: the index exists from RSKIP199 on. -/
def setChainHead (b : StoredBlock) : BtcM Unit := fun ctx =>
  ((), { ctx with
    chainHead := b.serializeCompact env.useV2
    heightIndex := if env.rskip199 then
      Function.update ctx.heightIndex b.height (some (env.hashOf b)) else ctx.heightIndex })

end BtcEnv

def loadBtcBlockHashByHeight (height : UInt32) : BtcM (Option B256) := fun ctx =>
  (ctx.heightIndex height, ctx)

def storeBtcBlockHashByHeight (height : UInt32) (hash : B256) : BtcM Unit := fun ctx =>
  ((), { ctx with heightIndex := Function.update ctx.heightIndex height (some hash) })

def loadTimestamp : BtcM UInt64 := fun ctx => (ctx.receiveHeadersTimestamp, ctx)

def storeTimestamp (timestamp : UInt64) : BtcM Unit := fun ctx =>
  ((), { ctx with receiveHeadersTimestamp := timestamp })

lemma getStoredBlock_of_cacheless {ctx : BtcCtx} (h : ctx.cache = none) (hash : B256) :
  getStoredBlock hash ctx = (ctx.lookup hash, ctx) := by
  unfold getStoredBlock BtcCtx.lookup
  rw [h]
  cases ctx.overlay hash <;> rfl

lemma BtcEnv.lookup_putStoredBlock (env : BtcEnv) (b : StoredBlock) (ctx : BtcCtx) :
  (env.putStoredBlock b ctx).2.lookup =
    Function.update ctx.lookup (env.hashOf b) (some (b.kept env.useV2)) := by
  funext hash
  by_cases h : hash = env.hashOf b
  · subst h
    simp [BtcEnv.putStoredBlock, BtcCtx.lookup, deserialize_serialize]
  · simp [BtcEnv.putStoredBlock, BtcCtx.lookup, Function.update_of_ne h]

end Rustock
