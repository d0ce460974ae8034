import Rustock.Bridge.Retarget

/-!
# Transparency of the Bitcoin block cache

The node keeps one cache of stored Bitcoin blocks over all the states it executes
(crates/execution/src/bridge/btc_block_cache.rs). A hit answers before the state's own trie is
asked, so the cache can be seen exactly when it holds a block that state does not.

The cache is reached through `get_stored_block` only. `BtcQuery` lists what reads it: the two calls
that receive headers, the lookups by height and by hash, the reads of
`registerBtcCoinbaseTransaction` and `getBtcTransactionConfirmations`, and the gas of the latter.
The rest of a block is any function of the answers (`BlockRun`), which decides what is asked next
and what the outcome is; between two reads other threads may drop entries.
-/

namespace Rustock

open Lib List Option ReceiveCode
open StoredBlock (deserializeCompact)

/-- Each cached block is the one the storage has under its hash. -/
def Lru.CoherentWith (c : Lru) (trie : B256 → Bytes) : Prop :=
  ∀ e ∈ c.entries, deserializeCompact (trie e.1) = some e.2.1

/-! ## The cache -/

namespace Lru

variable {c : Lru} {trie : B256 → Bytes}

lemma CoherentWith.get_entries (h : c.CoherentWith trie) (hash : B256) :
  (c.get hash).2.CoherentWith trie := by
  unfold get
  split
  · exact h
  intro e he
  obtain ⟨old, hold, rfl⟩ := List.mem_map.mp he
  have hstored := h old hold
  split <;> exact hstored

variable {hash : B256} {b : StoredBlock}

lemma CoherentWith.get_some (h : c.CoherentWith trie) (hget : (c.get hash).1 = some b) :
  deserializeCompact (trie hash) = some b := by
  unfold get at hget
  split at hget
  · cases hget
  rename_i entry hfind
  have hkey : entry.1 = hash := by simpa using find?_some hfind
  have hblock : entry.2.1 = b := some.inj hget
  rw [← hkey, ← hblock]
  exact h entry (mem_of_find?_eq_some hfind)

lemma mem_of_mem_evict {entries : List (B256 × StoredBlock × Nat)} {e : B256 × StoredBlock × Nat}
  (h : e ∈ evict entries) : e ∈ entries := by
  unfold evict at h
  split at h
  · cases h
  · exact mem_of_mem_eraseP h

lemma CoherentWith.put (h : c.CoherentWith trie)
  (hstored : deserializeCompact (trie hash) = some b) :
  (c.put hash b).CoherentWith trie := by
  unfold Lru.put
  split
  · intro e he
    obtain ⟨old, hold, rfl⟩ := List.mem_map.mp he
    split
    · exact hstored
    · exact h old hold
  intro e he
  rcases mem_cons.mp he with rfl | hmem
  · exact hstored
  split at hmem
  · exact h e (mem_of_mem_evict hmem)
  · exact h e hmem

end Lru

/-! ## Transparency -/

namespace BtcCtx

/-- The same call without a cache. -/
def uncached (ctx : BtcCtx) : BtcCtx := { ctx with cache := none }

def Coherent (ctx : BtcCtx) : Prop := ∀ c, ctx.cache = some c → c.CoherentWith ctx.trie

end BtcCtx

/-- With a coherent cache the answer and the storage are those without it, and it stays coherent. -/
def Transparent {α : Type} (x : BtcM α) : Prop :=
  ∀ ctx : BtcCtx, ctx.Coherent →
    x ctx.uncached = ((x ctx).1, (x ctx).2.uncached) ∧ (x ctx).2.Coherent

namespace Transparent

lemma pure {α : Type} (a : α) : Transparent (pure a : BtcM α) := fun _ h => ⟨rfl, h⟩

lemma bind {α β : Type} {x : BtcM α} {f : α → BtcM β} (hx : Transparent x)
  (hf : ∀ a, Transparent (f a)) : Transparent (x >>= f) := fun ctx h => by
  obtain ⟨heq, hcoherent⟩ := hx ctx h
  obtain ⟨heq', hcoherent'⟩ := hf (x ctx).1 (x ctx).2 hcoherent
  rw [btcM_bind, btcM_bind, heq]
  exact ⟨heq', hcoherent'⟩

lemma bindOption {α β : Type} {x : BtcM (Option α)} {f : Option α → BtcM β}
  (hx : Transparent x) (hnone : Transparent (f none)) (hsome : ∀ a, Transparent (f (some a))) :
  Transparent (x >>= f) :=
  hx.bind fun found => by
    cases found with
    | none => exact hnone
    | some a => exact hsome a

lemma ite {α : Type} {p : Prop} [Decidable p] {x y : BtcM α} (hx : Transparent x)
  (hy : Transparent y) : Transparent (if p then x else y) := by
  split
  · exact hx
  · exact hy

end Transparent

/-- **Reading a block is transparent**: what a coherent cache answers the trie would have. -/
theorem transparent_getStoredBlock (hash : B256) : Transparent (getStoredBlock hash) := by
  intro ctx h
  have huncached := @getStoredBlock_of_cacheless ctx.uncached rfl hash
  rw [huncached]
  unfold getStoredBlock BtcCtx.lookup
  cases hoverlay : ctx.overlay hash with
  | some data =>
    have hsame : ctx.uncached.overlay hash = some data := hoverlay
    rw [hsame]
    exact ⟨rfl, h⟩
  | none =>
    have hsame : ctx.uncached.overlay hash = none := hoverlay
    rw [hsame]
    cases hcache : ctx.cache with
    | none => exact ⟨rfl, h⟩
    | some cache =>
      have hcoherent := h cache hcache
      have hget := hcoherent.get_entries hash
      dsimp only
      cases hfound : cache.get hash with
      | mk found after =>
        rw [hfound] at hget
        cases found with
        | some block =>
          have htrie := hcoherent.get_some (by rw [hfound])
          refine ⟨?_, fun c hc => ?_⟩
          · exact Prod.ext htrie rfl
          rw [← some.inj hc]
          exact hget
        | none =>
          dsimp only
          cases htrie : deserializeCompact (ctx.trie hash) with
          | none =>
            refine ⟨Prod.ext htrie rfl, fun c hc => ?_⟩
            rw [← some.inj hc]
            exact hget
          | some block =>
            refine ⟨Prod.ext htrie rfl, fun c hc => ?_⟩
            rw [← some.inj hc]
            exact hget.put htrie

lemma transparent_loadChainHead : Transparent loadChainHead := fun _ h => ⟨rfl, h⟩

lemma transparent_loadTimestamp : Transparent loadTimestamp := fun _ h => ⟨rfl, h⟩

lemma transparent_storeTimestamp (t : UInt64) : Transparent (storeTimestamp t) :=
  fun _ h => ⟨rfl, h⟩

lemma transparent_loadBtcBlockHashByHeight (height : UInt32) :
  Transparent (loadBtcBlockHashByHeight height) := fun _ h => ⟨rfl, h⟩

lemma transparent_storeBtcBlockHashByHeight (height : UInt32) (hash : B256) :
  Transparent (storeBtcBlockHashByHeight height hash) := fun _ h => ⟨rfl, h⟩

lemma transparent_walkParents : ∀ depth hash, Transparent (walkParents depth hash)
  | 0, _ => .pure _
  | depth + 1, hash =>
    (transparent_getStoredBlock hash).bindOption (.pure _)
      fun b => transparent_walkParents depth b.header.prevBlockhash

namespace BtcEnv

variable (env : BtcEnv)

lemma transparent_putStoredBlock (b : StoredBlock) : Transparent (env.putStoredBlock b) :=
  fun _ h => ⟨rfl, h⟩

lemma transparent_setChainHead (b : StoredBlock) : Transparent (env.setChainHead b) :=
  fun _ h => ⟨rfl, h⟩

lemma transparent_ensureBtcChainSeeded : Transparent env.ensureBtcChainSeeded := by
  refine transparent_loadChainHead.bind fun head => ?_
  cases head with
  | some _ => exact .pure _
  | none =>
    refine (env.transparent_putStoredBlock _).bind fun _ => ?_
    cases env.checkpoint with
    | none => exact env.transparent_setChainHead _
    | some checkpoint =>
      exact (env.transparent_putStoredBlock _).bind fun _ => env.transparent_setChainHead _

lemma transparent_findSplit : ∀ fuel current new, Transparent (env.findSplit fuel current new)
  | 0, _, _ => .pure _
  | fuel + 1, current, new => by
    unfold findSplit
    refine .ite (.pure _) (.ite ?_ ?_)
    · exact (transparent_getStoredBlock _).bindOption (.pure _)
        fun parent => transparent_findSplit fuel parent new
    exact (transparent_getStoredBlock _).bindOption (.pure _)
      fun parent => transparent_findSplit fuel current parent

lemma transparent_getPartialChain (lower : StoredBlock) :
  ∀ fuel cursor results, Transparent (env.getPartialChain lower fuel cursor results)
  | 0, _, _ => .pure _
  | fuel + 1, cursor, results => by
    unfold getPartialChain
    exact (transparent_getStoredBlock _).bindOption (.pure _) fun parent =>
      .ite (.pure _) (transparent_getPartialChain lower fuel parent _)

lemma transparent_indexBranch : ∀ branch, Transparent (env.indexBranch branch)
  | [] => .pure _
  | _ :: branch =>
    (transparent_storeBtcBlockHashByHeight _ _).bind fun _ => transparent_indexBranch branch

lemma transparent_handleNewBestChain (newHead oldHead : StoredBlock) :
  Transparent (env.handleNewBestChain newHead oldHead) := by
  have hset : Transparent (do env.setChainHead newHead; return some ()) :=
    (env.transparent_setChainHead _).bind fun _ => .pure _
  refine .ite ?_ hset
  refine (env.transparent_findSplit _ _ _).bindOption (.pure _) fun split => ?_
  exact (env.transparent_getPartialChain _ _ _ _).bindOption (.pure _) fun branch =>
    (env.transparent_indexBranch branch).bind fun _ => hset

lemma transparent_connectBlock (stored parent : StoredBlock) :
  Transparent (env.connectBlock stored parent) := by
  have hset : Transparent (do env.setChainHead stored; return some ()) :=
    (env.transparent_setChainHead _).bind fun _ => .pure _
  refine (env.transparent_putStoredBlock _).bind fun _ => ?_
  refine transparent_loadChainHead.bindOption hset fun head => ?_
  exact .ite hset (.ite (env.transparent_handleNewBestChain stored head) (.pure _))

lemma transparent_receiveHeader (bytes : Bytes) : Transparent (env.receiveHeader bytes) := by
  refine env.transparent_ensureBtcChainSeeded.bind fun _ => .ite (.pure _) ?_
  refine (transparent_getStoredBlock _).bind fun known => ?_
  cases known with
  | some _ => exact .pure _
  | none =>
    refine transparent_loadTimestamp.bind fun _ => .ite (.pure _) ?_
    refine (transparent_getStoredBlock _).bindOption (.pure _) fun parent => ?_
    refine transparent_loadChainHead.bind fun _ => .ite (.pure _) (.ite (.pure _) (.ite (.pure _) ?_))
    exact (env.transparent_connectBlock _ _).bindOption (.pure _) fun _ =>
      (transparent_storeTimestamp _).bind fun _ => .pure _

lemma transparent_receiveOne (bytes : Bytes) : Transparent (env.receiveOne bytes) := by
  refine .ite (.pure _) ((transparent_getStoredBlock _).bind fun known => ?_)
  cases known with
  | some _ => exact .pure _
  | none =>
    refine .ite (.pure _) ?_
    refine (transparent_getStoredBlock _).bindOption (.pure _) fun parent => .ite (.pure _) ?_
    exact (env.transparent_connectBlock _ _).bindOption (.pure _) fun _ => .pure _

lemma transparent_receiveEach : ∀ headers, Transparent (env.receiveEach headers)
  | [] => .pure _
  | bytes :: rest => (env.transparent_receiveOne bytes).bind fun control => by
    cases control with
    | next => exact transparent_receiveEach rest
    | leave | panicked => exact .pure _

lemma transparent_mainChainBlockAtHeight (height : UInt32) (limited : Bool) :
  Transparent (env.mainChainBlockAtHeight height limited) := by
  have hindexed : Transparent (env.indexedBlock height) :=
    .ite ((transparent_loadBtcBlockHashByHeight height).bindOption (.pure _)
      fun hash => transparent_getStoredBlock hash) (.pure _)
  refine transparent_loadChainHead.bindOption (.pure _) fun head => ?_
  refine .ite (.pure _) (.ite (.pure _) (hindexed.bind fun found => ?_))
  cases found with
  | some _ => exact .pure _
  | none =>
    refine (transparent_walkParents _ _).bindOption (.pure _) fun hash => ?_
    exact (transparent_getStoredBlock _).bindOption (.pure _) fun _ => .pure _

end BtcEnv

/-! ## The other readers -/

def headerBytes (block : Option StoredBlock) : Bytes := (block.map (·.header.raw.bytes)).getD []

/-- btc_chain.rs:771–778. -/
def headerAtHeight (height : UInt32) : BtcM Bytes := do
  match ← loadBtcBlockHashByHeight height with
  | none => return headerBytes none
  | some hash => return headerBytes (← getStoredBlock hash)

/-- btc_chain.rs:742–748: an unknown block has no answer. -/
def getBlockHeaderByHash (hash : B256) : BtcM (Option Bytes) := do
  return (← getStoredBlock hash).map (·.header.raw.bytes)

/-- btc_chain.rs:796–799. -/
def getParentBlockHeaderByHash (hash : B256) : BtcM Bytes := do
  match ← getStoredBlock hash with
  | none => return headerBytes none
  | some block => return headerBytes (← getStoredBlock block.header.prevBlockhash)

/-- mod.rs:872–884, the depth that is paid for; none for the base cost alone. -/
def paidDepth (maxDepth : UInt32) (hash : B256) : BtcM (Option UInt32) := do
  match ← getStoredBlock hash with
  | none => return none
  | some block =>
    match ← loadChainHead with
    | none => return none
    | some head =>
      let depth := saturatingSub32 head.height block.height
      return if maxDepth < depth then none else some depth

/-- tx.rs:350–402: the main-chain block and its depth, or the code of the first check that
fails. -/
def BtcEnv.confirmedBlock (env : BtcEnv) (maxDepth : UInt32) (hash : B256) :
    BtcM (Int ⊕ (StoredBlock × UInt32)) := do
  env.ensureBtcChainSeeded
  match ← getStoredBlock hash with
  | none => return .inl (-1)
  | some block =>
    let depth := saturatingSub32 (((← loadChainHead).map (·.height)).getD 0) block.height
    if maxDepth < depth then return .inl (-4)
    else
      match ← env.mainChainBlockAtHeight block.height true with
      | .found main =>
        return if env.hashOf main = env.hashOf block ∧ main.height = block.height ∧
          main.chainWork = block.chainWork then .inr (block, depth) else .inl (-2)
      | .absent => return .inl (-2)
      | .storeError => return .inl (-3)

/-- Other threads drop entries of the cache. -/
def dropCached (kept : B256 → Bool) : BtcM Unit := fun ctx =>
  ((), { ctx with cache := ctx.cache.map fun c => { c with
    entries := c.entries.filter (kept ·.1) } })

lemma transparent_dropCached (kept : B256 → Bool) : Transparent (dropCached kept) := by
  refine fun ctx h => ⟨rfl, fun c hc e he => ?_⟩
  obtain ⟨old, hold, rfl⟩ := map_eq_some_iff.mp hc
  exact h old hold e (mem_of_mem_filter he)

lemma transparent_headerAtHeight (height : UInt32) : Transparent (headerAtHeight height) := by
  refine (transparent_loadBtcBlockHashByHeight height).bindOption (.pure _) fun hash => ?_
  exact (transparent_getStoredBlock hash).bind fun _ => .pure _

lemma transparent_getParentBlockHeaderByHash (hash : B256) :
    Transparent (getParentBlockHeaderByHash hash) := by
  refine (transparent_getStoredBlock hash).bindOption (.pure _) fun block => ?_
  exact (transparent_getStoredBlock _).bind fun _ => .pure _

lemma transparent_paidDepth (maxDepth : UInt32) (hash : B256) :
    Transparent (paidDepth maxDepth hash) := by
  refine (transparent_getStoredBlock hash).bindOption (.pure _) fun block => ?_
  exact transparent_loadChainHead.bindOption (.pure _) fun head => .pure _

lemma transparent_confirmedBlock (env : BtcEnv) (maxDepth : UInt32) (hash : B256) :
    Transparent (env.confirmedBlock maxDepth hash) := by
  refine env.transparent_ensureBtcChainSeeded.bind fun _ => ?_
  refine (transparent_getStoredBlock hash).bindOption (.pure _) fun block => ?_
  refine transparent_loadChainHead.bind fun _ => .ite (.pure _) ?_
  refine (env.transparent_mainChainBlockAtHeight _ _).bind fun found => ?_
  cases found with
  | found | absent | storeError => exact .pure _

/-! ## A block and its reads -/

/-- What a block can ask of the Bitcoin store. -/
inductive BtcQuery where
  | receiveHeader (bytes : Bytes)
  | receiveHeaders (headers : List Bytes)
  | mainChainBlockAtHeight (height : UInt32) (limited : Bool)
  | headerAtHeight (height : UInt32)
  | getBlockHeaderByHash (hash : B256)
  | getParentBlockHeaderByHash (hash : B256)
  /-- The block of a coinbase transaction, tx.rs:231. -/
  | storedBlock (hash : B256)
  | confirmedBlock (maxDepth : UInt32) (hash : B256)
  | paidDepth (maxDepth : UInt32) (hash : B256)

/-- The answers, one kind for each kind of question. -/
inductive BtcAnswer where
  | code (c : ReceiveCode)
  | done (r : Option Unit)
  | block (b : MainChainLookup)
  | header (bytes : Option Bytes)
  | stored (b : Option StoredBlock)
  | confirmed (r : Int ⊕ (StoredBlock × UInt32))
  | depth (d : Option UInt32)
deriving DecidableEq

/-- What a block does with the store: it asks, and goes on with the answer. -/
inductive BlockRun (α : Type) where
  | done (outcome : α)
  | ask (q : BtcQuery) (next : BtcAnswer → BlockRun α)
  | evicted (kept : B256 → Bool) (next : BlockRun α)

namespace BtcEnv

variable (env : BtcEnv)

/-- A question as the Bridge answers it. -/
def answer : BtcQuery → BtcM BtcAnswer
  | .receiveHeader bytes => do return .code (← env.receiveHeader bytes)
  | .receiveHeaders headers => do return .done (← env.receiveHeaders headers)
  | .mainChainBlockAtHeight height limited => do
    return .block (← env.mainChainBlockAtHeight height limited)
  | .headerAtHeight height => do return .header (some (← Rustock.headerAtHeight height))
  | .getBlockHeaderByHash hash => do return .header (← Rustock.getBlockHeaderByHash hash)
  | .getParentBlockHeaderByHash hash => do
    return .header (some (← Rustock.getParentBlockHeaderByHash hash))
  | .storedBlock hash => do return .stored (← getStoredBlock hash)
  | .confirmedBlock maxDepth hash => do return .confirmed (← env.confirmedBlock maxDepth hash)
  | .paidDepth maxDepth hash => do return .depth (← Rustock.paidDepth maxDepth hash)

/-- A block on the store: it goes on with each answer. -/
def execute {α : Type} : BlockRun α → BtcM α
  | .done outcome => return outcome
  | .ask q next => do
    let a ← env.answer q
    execute (next a)
  | .evicted kept next => do
    dropCached kept
    execute next

lemma transparent_answer (q : BtcQuery) : Transparent (env.answer q) := by
  cases q with
  | receiveHeader bytes => exact (env.transparent_receiveHeader bytes).bind fun _ => .pure _
  | receiveHeaders headers =>
    exact (env.transparent_ensureBtcChainSeeded.bind fun _ =>
      env.transparent_receiveEach _).bind fun _ => .pure _
  | mainChainBlockAtHeight height limited =>
    exact (env.transparent_mainChainBlockAtHeight height limited).bind fun _ => .pure _
  | headerAtHeight height =>
    exact (transparent_headerAtHeight height).bind fun _ => .pure _
  | getBlockHeaderByHash hash =>
    exact ((transparent_getStoredBlock hash).bind fun _ => .pure _).bind fun _ => .pure _
  | getParentBlockHeaderByHash hash =>
    exact (transparent_getParentBlockHeaderByHash hash).bind fun _ => .pure _
  | storedBlock hash => exact (transparent_getStoredBlock hash).bind fun _ => .pure _
  | confirmedBlock maxDepth hash =>
    exact (transparent_confirmedBlock env maxDepth hash).bind fun _ => .pure _
  | paidDepth maxDepth hash =>
    exact (transparent_paidDepth maxDepth hash).bind fun _ => .pure _

lemma transparent_execute {α : Type} (run : BlockRun α) : Transparent (env.execute run) := by
  induction run with
  | done outcome => exact .pure _
  | ask q next ih => exact (env.transparent_answer q).bind ih
  | evicted kept next ih => exact (transparent_dropCached kept).bind fun _ => ih

lemma receiveHeader_alreadyKnown_iff {ctx : BtcCtx}
  (hseeded : (deserializeCompact ctx.chainHead).isSome) (header : BtcHeader) :
  (env.receiveHeader header.raw.bytes ctx).1 = .alreadyKnown ↔
    (getStoredBlock (env.blockHash header) ctx).1.isSome := by
  obtain ⟨head, hhead⟩ := isSome_iff_exists.mp hseeded
  have hensure : env.ensureBtcChainSeeded ctx = ((), ctx) := by
    unfold ensureBtcChainSeeded
    rw [btcM_bind]
    unfold loadChainHead
    rw [hhead]
    rfl
  have hheader : headerOf header.raw.bytes = header := by rw [headerOf, FixedBytes.ofBytes_bytes]
  have hsize : isBlockHeaderSize header.raw.bytes.length env.rskip124 = true := by
    rw [header.raw.length_eq]
    cases env.rskip124 <;> rfl
  unfold receiveHeader
  rw [btcM_bind, hensure, hheader, hsize]
  dsimp only
  rw [if_neg (by simp), btcM_bind]
  generalize getStoredBlock (env.blockHash header) ctx = read
  obtain ⟨found, after⟩ := read
  cases found with
  | some _ => exact ⟨fun _ => rfl, fun _ => rfl⟩
  | none =>
    refine ⟨fun h => absurd h ?_, fun h => absurd h (by simp)⟩
    dsimp only
    rw [btcM_bind]
    split
    · exact (by decide : tooSoon ≠ .alreadyKnown)
    rw [btcM_bind]
    generalize getStoredBlock header.prevBlockhash (loadTimestamp after).2 = read
    obtain ⟨parent, after⟩ := read
    cases parent with
    | none => exact (by decide : prevNotFound ≠ .alreadyKnown)
    | some parent =>
      dsimp only
      rw [btcM_bind]
      split
      · exact (by decide : blockTooOld ≠ .alreadyKnown)
      split
      · exact (by decide : unexpectedException ≠ .alreadyKnown)
      split
      · exact (by decide : unexpectedException ≠ .alreadyKnown)
      rw [btcM_bind]
      cases (env.connectBlock (childOf parent header) parent (loadChainHead after).2).1 with
      | none => exact (by decide : ReceiveCode.panicked ≠ .alreadyKnown)
      | some _ => exact (by decide : success ≠ .alreadyKnown)

/-- What other states of the same network put into the cache: blocks under their own hash, with
the height and work every state that has the block stores. -/
def SameNetwork (ctx : BtcCtx) : Prop :=
  ∀ c, ctx.cache = some c → ∀ e ∈ c.entries, e.1 = env.hashOf e.2.1 ∧
    ∀ b, deserializeCompact (ctx.trie e.1) = some b → b = e.2.1

/-- The same outcome and the same storage without the cache. -/
def SameOutcome {α : Type} (ctx : BtcCtx) (run : BlockRun α) : Prop :=
  env.execute run ctx.uncached = ((env.execute run ctx).1, (env.execute run ctx).2.uncached)

lemma not_sameOutcome_of_absent {ctx : BtcCtx} {c : Lru} {e : B256 × StoredBlock × Nat}
  (hseeded : (deserializeCompact ctx.chainHead).isSome)
  (hoverlay : ctx.overlay e.1 = none) (hcache : ctx.cache = some c) (hmem : e ∈ c.entries)
  (hhash : e.1 = env.hashOf e.2.1)
  (habsent : deserializeCompact (ctx.trie e.1) = none) :
  ¬ env.SameOutcome ctx (.ask (.receiveHeader e.2.1.header.raw.bytes) .done) := by
  have hkey : env.blockHash e.2.1.header = e.1 := hhash.symm
  -- the cache answers
  have hfind : (c.entries.find? (·.1 = e.1)).isSome := by
    rw [find?_isSome]
    exact ⟨e, hmem, by simp⟩
  obtain ⟨entry, hentry⟩ := isSome_iff_exists.mp hfind
  have hcached : (getStoredBlock e.1 ctx).1.isSome := by
    unfold getStoredBlock
    rw [hoverlay, hcache]
    dsimp only
    unfold Lru.get
    rw [hentry]
    rfl
  -- the state does not
  have huncached : (getStoredBlock e.1 ctx.uncached).1 = none := by
    unfold getStoredBlock
    have hsame : ctx.uncached.overlay e.1 = none := hoverlay
    rw [hsame]
    exact habsent
  have hknown := (env.receiveHeader_alreadyKnown_iff hseeded e.2.1.header).mpr (hkey ▸ hcached)
  have hnew : (env.receiveHeader e.2.1.header.raw.bytes ctx.uncached).1 ≠ .alreadyKnown := by
    intro h
    have hread := (@receiveHeader_alreadyKnown_iff env ctx.uncached hseeded e.2.1.header).mp h
    rw [hkey, huncached] at hread
    cases hread
  intro hsame
  have hanswers := congrArg Prod.fst hsame
  have hcodes : BtcAnswer.code (env.receiveHeader e.2.1.header.raw.bytes ctx.uncached).1 =
      .code (env.receiveHeader e.2.1.header.raw.bytes ctx).1 := hanswers
  rw [hknown] at hcodes
  exact hnew (BtcAnswer.code.inj hcodes)

/-- **When the cache cannot be seen.** A cache coherent with the parent state is transparent for
every block, whatever it makes of the answers; and at the start of a block, a cache filled on the
same network is transparent only if it is coherent, that is if the state stores every cached
block. -/
theorem cache_transparent (ctx : BtcCtx) :
    (ctx.Coherent → ∀ {α : Type} (run : BlockRun α), env.SameOutcome ctx run) ∧
    ((deserializeCompact ctx.chainHead).isSome → (∀ h, ctx.overlay h = none) →
      env.SameNetwork ctx → (∀ run : BlockRun BtcAnswer, env.SameOutcome ctx run) →
      ctx.Coherent) := by
  refine ⟨fun h _ run => (env.transparent_execute run ctx h).1, ?_⟩
  intro hseeded hoverlay hnetwork hsame c hcache e hmem
  obtain ⟨hhash, hagree⟩ := hnetwork c hcache e hmem
  cases htrie : deserializeCompact (ctx.trie e.1) with
  | some b => rw [hagree b htrie]
  | none =>
    exact absurd (hsame _)
      (env.not_sameOutcome_of_absent hseeded (hoverlay e.1) hcache hmem hhash htrie)

end BtcEnv

/-! ## Another branch in the cache -/

namespace BtcRegtest

def env : BtcEnv := ⟨params, rules⟩

def branchWith : BtcCtx := { env.call .nextBlock afterChild with cache := some ⟨[], 0, 8⟩ }

/-- The branch after a block that submitted its own header again: the cache holds it. -/
def ownBranch : BtcCtx := (env.execute (.ask (.receiveHeader child) .done) branchWith).2

def branchWithout : BtcCtx :=
  { env.call .nextBlock (params.seeded rules) with cache := ownBranch.cache }

/-- A block that prices and answers a query and keeps what it was told. -/
def queries : BlockRun (List BtcAnswer) :=
  .ask (.paidDepth 4320 (params.sha256d child)) fun paid =>
    .ask (.confirmedBlock 4320 (params.sha256d child)) fun confirmed =>
      .ask (.receiveHeader child) fun code => .done [paid, confirmed, code]

/-- A coherent cache that is not empty: the branch's own. -/
theorem cache_transparent_ownBranch :
    (ownBranch.cache.map fun c => c.entries.map (·.1)) = some [params.sha256d child] ∧
      ownBranch.Coherent ∧ env.SameOutcome ownBranch queries := by
  have hempty : branchWith.Coherent := by
    intro c hc e he
    rw [← some.inj hc] at he
    cases he
  have hcoherent : ownBranch.Coherent :=
    (env.transparent_execute (.ask (.receiveHeader child) .done) branchWith hempty).2
  exact ⟨by decide +kernel, hcoherent, (env.cache_transparent ownBranch).1 hcoherent queries⟩

/-- **A cache filled on one branch changes the verdict on another**: the header is new there, and
is refused as known; and a transaction of the block is priced by the depth of a block that is not
there. -/
theorem other_branch_seen :
    (env.execute (.ask (.receiveHeader child) .done) branchWithout).1 = .code .alreadyKnown ∧
      (env.execute (.ask (.receiveHeader child) .done) branchWithout.uncached).1 =
        .code .success ∧
      (env.execute (.ask (.paidDepth 4320 (params.sha256d child)) .done) branchWithout).1 =
        .depth (some 0) ∧
      (env.execute (.ask (.paidDepth 4320 (params.sha256d child)) .done)
        branchWithout.uncached).1 = .depth none ∧
      branchWithout.lookup (params.sha256d child) = none := by
  decide +kernel

end BtcRegtest

end Rustock
