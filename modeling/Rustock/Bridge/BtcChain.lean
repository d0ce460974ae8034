import Rustock.Bridge.BtcStore
import Rustock.Lib.Run

/-!
# The Bridge's chain of Bitcoin headers

`receiveHeader` and `receiveHeaders` (crates/execution/src/bridge/btc_chain.rs), the
methods by which anybody extends the chain of Bitcoin headers in Bridge storage.

A header is stored under its hash with its parent's height and work plus its own
(`childOf`); the proof of work is checked against the target **the header itself states**, and
nothing compares that target with the parent's.
-/

namespace Rustock

open Lib StoredBlock BtcCtx

/-- `u32::saturating_sub`. -/
def saturatingSub32 (a b : UInt32) : UInt32 := if a < b then 0 else a - b

namespace BtcEnv

variable (env : BtcEnv)

def ensureBtcChainSeeded : BtcM Unit := do
  match ← loadChainHead with
  | some _ => return
  | none =>
    let genesis : StoredBlock := ⟨env.genesis, 0, computeWork env.genesis.bits⟩
    env.putStoredBlock genesis
    match env.checkpoint with
    | some checkpoint => do
      env.putStoredBlock checkpoint
      env.setChainHead checkpoint
    | none => env.setChainHead genesis

/-- `none` is the panic on an orphan chain. The loop takes a parent in every turn. -/
def findSplit : Nat → StoredBlock → StoredBlock → BtcM (Option StoredBlock)
  | 0, _, _ => return none
  | fuel + 1, current, new =>
    if env.hashOf current = env.hashOf new then return some current
    else if new.height < current.height then do
      match ← getStoredBlock current.header.prevBlockhash with
      | none => return none
      | some parent => findSplit fuel parent new
    else do
      match ← getStoredBlock new.header.prevBlockhash with
      | none => return none
      | some parent => findSplit fuel current parent

/-- The blocks from `cursor` down to, but without, `lower`. -/
def getPartialChain (lower : StoredBlock) :
  Nat → StoredBlock → List StoredBlock → BtcM (Option (List StoredBlock))
  | 0, _, _ => return none
  | fuel + 1, cursor, results => do
    match ← getStoredBlock cursor.header.prevBlockhash with
    | none => return none
    | some parent =>
      if env.hashOf parent = env.hashOf lower then return some (results ++ [cursor])
      else getPartialChain lower fuel parent (results ++ [cursor])

/-- The index entries of a branch. -/
def indexBranch : List StoredBlock → BtcM Unit
  | [] => return
  | b :: branch => do
    storeBtcBlockHashByHeight b.height (env.hashOf b)
    indexBranch branch

def walkFuel (a b : StoredBlock) : Nat := a.height.toNat + b.height.toNat + 2

def handleNewBestChain (newHead oldHead : StoredBlock) : BtcM (Option Unit) := do
  if env.rskip199 then
    match ← env.findSplit (walkFuel newHead oldHead) oldHead newHead with
    | none => return none
    | some split =>
      match ← env.getPartialChain split (walkFuel newHead oldHead) newHead [] with
      | none => return none
      | some branch =>
        env.indexBranch branch
        env.setChainHead newHead
        return some ()
  else
    env.setChainHead newHead
    return some ()

def connectBlock (stored parent : StoredBlock) : BtcM (Option Unit) := do
  env.putStoredBlock stored
  match ← loadChainHead with
  | none =>
    env.setChainHead stored
    return some ()
  | some head =>
    if env.hashOf parent = env.hashOf head then
      env.setChainHead stored
      return some ()
    else if head.chainWork < stored.chainWork then env.handleNewBestChain stored head
    else return some ()

def childOf (parent : StoredBlock) (header : BtcHeader) : StoredBlock :=
  ⟨header, parent.height + 1, parent.chainWork + computeWork header.bits⟩

def cannotProcessNextBlock (parent : StoredBlock) : Bool :=
  decide (env.blockWithTooMuchChainWorkHeight ≤ parent.height + 1) && env.mainnet && !env.rskip434

end BtcEnv

/-- btc_chain.rs:30–44, and the panic. -/
inductive ReceiveCode where
  | success | tooSoon | blockTooOld | prevNotFound | alreadyKnown | unexpectedException
  | sizeMismatch | panicked
deriving DecidableEq

inductive LoopControl where
  | next | leave | panicked

def isBlockHeaderSize (size : Nat) (rskip124 : Bool) : Bool :=
  if rskip124 then size = 80 else 80 ≤ size ∧ size ≤ 85

def headerOf (bytes : Bytes) : BtcHeader := ⟨.ofBytes 80 bytes⟩

namespace BtcEnv

variable (env : BtcEnv)

/-- btc_chain.rs:62–161, the argument decoded. -/
def receiveHeader (headerBytes : Bytes) : BtcM ReceiveCode := do
  env.ensureBtcChainSeeded
  if isBlockHeaderSize headerBytes.length env.rskip124 = false then return .sizeMismatch
  else
    let header := headerOf headerBytes
    match ← getStoredBlock (env.blockHash header) with
    | some _ => return .alreadyKnown
    | none =>
      let lastTimestamp ← loadTimestamp
      if 0 < env.minSecondsBetweenCallsReceiveHeader ∧ env.timestamp.toNat <
          lastTimestamp.toNat + env.minSecondsBetweenCallsReceiveHeader.toNat then
        return .tooSoon
      else
        match ← getStoredBlock header.prevBlockhash with
        | none => return .prevNotFound
        | some parent =>
          let head ← loadChainHead
          let bestHeight := (head.map (·.height.toNat)).getD 0
          if (parent.height + 1).toNat + env.maxDepthBlockchainAccepted.toNat < bestHeight then
            return .blockTooOld
          else if env.cannotProcessNextBlock parent then return .unexpectedException
          else if env.checkProofOfWork header = false then return .unexpectedException
          else
            match ← env.connectBlock (childOf parent header) parent with
            | none => return .panicked
            | some () =>
              storeTimestamp env.timestamp
              return .success

/-- btc_chain.rs:484–528, the loop's body: a header that is short, known, without work or an
orphan is skipped; a block that cannot be processed ends the loop. -/
def receiveOne (bytes : Bytes) : BtcM LoopControl := do
  if bytes.length < 80 then return .next
  else
    let header := headerOf bytes
    match ← getStoredBlock (env.blockHash header) with
    | some _ => return .next
    | none =>
      if env.checkProofOfWork header = false then return .next
      else
        match ← getStoredBlock header.prevBlockhash with
        | none => return .next
        | some parent =>
          if env.cannotProcessNextBlock parent then return .leave
          else
            match ← env.connectBlock (childOf parent header) parent with
            | none => return .panicked
            | some () => return .next

def receiveEach : List Bytes → BtcM (Option Unit)
  | [] => return some ()
  | bytes :: rest => do
    match ← env.receiveOne bytes with
    | .next => receiveEach rest
    | .leave => return some ()
    | .panicked => return none

/-- btc_chain.rs:461–541, the argument decoded. -/
def receiveHeaders (headers : List Bytes) : BtcM (Option Unit) := do
  env.ensureBtcChainSeeded
  env.receiveEach (headers.take env.maxBtcHeadersPerRskBlock)

end BtcEnv

inductive MainChainLookup where
  | found (b : StoredBlock)
  | absent
  | storeError
deriving DecidableEq

/-- The hash `depth` parents below `hash`. -/
def walkParents : Nat → B256 → BtcM (Option B256)
  | 0, hash => return some hash
  | depth + 1, hash => do
    match ← getStoredBlock hash with
    | none => return none
    | some b => walkParents depth b.header.prevBlockhash

namespace BtcEnv

variable (env : BtcEnv)

/-- The lowest height that is searched, under `limited`. -/
def searchLimit (head : StoredBlock) : UInt32 :=
  if env.maxDepthToSearchBlocksBelowIndexActivation <
      saturatingSub32 head.height env.btcHeightWhenBlockIndexActivates then
    env.btcHeightWhenBlockIndexActivates
  else saturatingSub32 head.height env.maxDepthToSearchBlocksBelowIndexActivation

/-- The block the index has for a height. -/
def indexedBlock (height : UInt32) : BtcM (Option StoredBlock) := do
  if env.rskip199 then
    match ← loadBtcBlockHashByHeight height with
    | none => return none
    | some hash => getStoredBlock hash
  else return none

/-- `limited` is whether the caller passes the constants. -/
def mainChainBlockAtHeight (height : UInt32) (limited : Bool) : BtcM MainChainLookup := do
  match ← loadChainHead with
  | none => return .storeError
  | some head =>
    if head.height < height then return .storeError
    else if env.rskip199 && limited && decide (height < env.searchLimit head) then
      return .storeError
    else
      match ← env.indexedBlock height with
      | some block => return .found block
      | none =>
        match ← walkParents (head.height - height).toNat (env.hashOf head) with
        | none => return .absent
        | some hash =>
          match ← getStoredBlock hash with
          | none => return .absent
          | some block => return if block.height = height then .found block else .storeError

end BtcEnv

/-! ## Stored blocks through a call

The rest of the module is about storage without the cache. -/

lemma btcM_bind {α β : Type} (x : BtcM α) (f : α → BtcM β) (ctx : BtcCtx) :
  (x >>= f) ctx = f (x ctx).1 (x ctx).2 := rfl

structure BtcCtx.Ready (ctx : BtcCtx) : Prop where
  cacheless : ctx.cache = none
  seeded : (deserializeCompact ctx.chainHead).isSome

def KeepsBlocks (ctx ctx' : BtcCtx) : Prop :=
  ctx.Ready → ctx'.lookup = ctx.lookup ∧ ctx'.Ready

lemma KeepsBlocks.refl (ctx : BtcCtx) : KeepsBlocks ctx ctx := fun h => ⟨rfl, h⟩

lemma KeepsBlocks.trans {a b c : BtcCtx} (h₁ : KeepsBlocks a b) (h₂ : KeepsBlocks b c) :
  KeepsBlocks a c := fun h => by
  obtain ⟨hlookup, hready⟩ := h₁ h
  obtain ⟨hlookup', hready'⟩ := h₂ hready
  exact ⟨hlookup'.trans hlookup, hready'⟩

def Reads {α : Type} (x : BtcM α) : Prop := ∀ ctx, KeepsBlocks ctx (x ctx).2

lemma Reads.pure {α : Type} (a : α) : Reads (pure a : BtcM α) := fun ctx => .refl ctx

lemma Reads.bind {α β : Type} {x : BtcM α} {f : α → BtcM β} (hx : Reads x)
  (hf : ∀ a, Reads (f a)) : Reads (x >>= f) := fun ctx =>
  (hx ctx).trans (hf _ _)

lemma reads_getStoredBlock (hash : B256) : Reads (getStoredBlock hash) := fun ctx h => by
  rw [getStoredBlock_of_cacheless h.cacheless]
  exact ⟨rfl, h⟩

lemma reads_loadChainHead : Reads loadChainHead := KeepsBlocks.refl

lemma reads_storeBtcBlockHashByHeight (height : UInt32) (hash : B256) :
  Reads (storeBtcBlockHashByHeight height hash) := fun _ h => ⟨rfl, h.cacheless, h.seeded⟩

namespace BtcEnv

variable (env : BtcEnv)

lemma reads_setChainHead (b : StoredBlock) : Reads (env.setChainHead b) := fun _ h =>
  ⟨rfl, h.cacheless, by simp [setChainHead, deserialize_serialize]⟩

lemma reads_findSplit : ∀ fuel current new, Reads (env.findSplit fuel current new)
  | 0, _, _ => .pure _
  | fuel + 1, current, new => by
    unfold findSplit
    split
    · exact .pure _
    split
    · refine (reads_getStoredBlock _).bind fun found => ?_
      cases found with
      | none => exact .pure _
      | some parent => exact reads_findSplit fuel parent new
    refine (reads_getStoredBlock _).bind fun found => ?_
    cases found with
    | none => exact .pure _
    | some parent => exact reads_findSplit fuel current parent

lemma reads_getPartialChain (lower : StoredBlock) :
  ∀ fuel cursor results, Reads (env.getPartialChain lower fuel cursor results)
  | 0, _, _ => .pure _
  | fuel + 1, cursor, results => by
    unfold getPartialChain
    refine (reads_getStoredBlock _).bind fun found => ?_
    cases found with
    | none => exact .pure _
    | some parent =>
      dsimp only
      split
      · exact .pure _
      · exact reads_getPartialChain lower fuel parent _

lemma reads_indexBranch : ∀ branch, Reads (env.indexBranch branch)
  | [] => .pure _
  | _ :: branch => (reads_storeBtcBlockHashByHeight _ _).bind fun _ => reads_indexBranch branch

lemma reads_handleNewBestChain (newHead oldHead : StoredBlock) :
  Reads (env.handleNewBestChain newHead oldHead) := by
  have hset : Reads (do env.setChainHead newHead; return some ()) :=
    (env.reads_setChainHead _).bind fun _ => .pure _
  unfold handleNewBestChain
  split
  · refine (env.reads_findSplit _ _ _).bind fun found => ?_
    cases found with
    | none => exact .pure _
    | some split =>
      refine (env.reads_getPartialChain _ _ _ _).bind fun chain => ?_
      cases chain with
      | none => exact .pure _
      | some branch => exact (env.reads_indexBranch branch).bind fun _ => hset
  · exact hset

lemma connectBlock_eq (stored parent : StoredBlock) : ∃ rest : BtcM (Option Unit), Reads rest ∧
    env.connectBlock stored parent = (do env.putStoredBlock stored; rest) := by
  refine ⟨_, ?_, rfl⟩
  have hset : Reads (do env.setChainHead stored; return some ()) :=
    (env.reads_setChainHead _).bind fun _ => .pure _
  refine reads_loadChainHead.bind fun head => ?_
  cases head with
  | none => exact hset
  | some head =>
    dsimp only
    split
    · exact hset
    split
    · exact env.reads_handleNewBestChain stored head
    · exact .pure _

variable {ctx : BtcCtx}

/-- **Connecting a block stores it** and changes no other block. -/
theorem connectBlock_blocks (h : ctx.Ready) (stored parent : StoredBlock) :
  (env.connectBlock stored parent ctx).2.lookup =
      Function.update ctx.lookup (env.hashOf stored) (some (stored.kept env.useV2)) ∧
    (env.connectBlock stored parent ctx).2.Ready := by
  obtain ⟨rest, hrest, heq⟩ := env.connectBlock_eq stored parent
  have hready : (env.putStoredBlock stored ctx).2.Ready := ⟨h.cacheless, h.seeded⟩
  obtain ⟨hlookup, hready'⟩ := hrest _ hready
  rw [heq, btcM_bind]
  exact ⟨hlookup.trans (env.lookup_putStoredBlock stored ctx), hready'⟩

inductive Attempt (header : BtcHeader) (ctx : BtcCtx) : BtcCtx → Prop where
  | refused : Attempt header ctx ctx
  | connected (parent : StoredBlock) (timestamp : UInt64)
      (fresh : ctx.lookup (env.blockHash header) = none)
      (work : env.checkProofOfWork header = true)
      (stored : ctx.lookup header.prevBlockhash = some parent) :
      Attempt header ctx { (env.connectBlock (childOf parent header) parent ctx).2 with
        receiveHeadersTimestamp := timestamp }

lemma receiveOne_attempt (h : ctx.Ready) (bytes : Bytes) :
  env.Attempt (headerOf bytes) ctx (env.receiveOne bytes ctx).2 := by
  unfold receiveOne
  split
  · exact .refused
  rw [btcM_bind, getStoredBlock_of_cacheless h.cacheless]
  cases hfresh : ctx.lookup (env.blockHash (headerOf bytes)) with
  | some _ => exact .refused
  | none =>
    dsimp only
    split
    · exact .refused
    rename_i hwork
    rw [btcM_bind, getStoredBlock_of_cacheless h.cacheless]
    cases hparent : ctx.lookup (headerOf bytes).prevBlockhash with
    | none => exact .refused
    | some parent =>
      dsimp only
      split
      · exact .refused
      have hconnected := @Attempt.connected env _ ctx parent
        (env.connectBlock (childOf parent (headerOf bytes)) parent ctx).2.receiveHeadersTimestamp
        hfresh (by simpa using hwork) hparent
      rw [btcM_bind]
      cases (env.connectBlock (childOf parent (headerOf bytes)) parent ctx).1 <;>
        exact hconnected

lemma ensureBtcChainSeeded_of_ready (h : ctx.Ready) : env.ensureBtcChainSeeded ctx = ((), ctx) := by
  obtain ⟨head, hhead⟩ := Option.isSome_iff_exists.mp h.seeded
  unfold ensureBtcChainSeeded
  rw [btcM_bind]
  unfold loadChainHead
  rw [hhead]
  rfl

lemma receiveHeader_attempt (h : ctx.Ready) (bytes : Bytes) :
  env.Attempt (headerOf bytes) ctx (env.receiveHeader bytes ctx).2 := by
  unfold receiveHeader
  rw [btcM_bind, env.ensureBtcChainSeeded_of_ready h]
  dsimp only
  split
  · exact .refused
  rw [btcM_bind, getStoredBlock_of_cacheless h.cacheless]
  cases hfresh : ctx.lookup (env.blockHash (headerOf bytes)) with
  | some _ => exact .refused
  | none =>
    dsimp only
    rw [btcM_bind]
    have hload : (loadTimestamp ctx).2 = ctx := rfl
    rw [hload]
    split
    · exact .refused
    rw [btcM_bind, getStoredBlock_of_cacheless h.cacheless]
    cases hparent : ctx.lookup (headerOf bytes).prevBlockhash with
    | none => exact .refused
    | some parent =>
      dsimp only
      rw [btcM_bind]
      split
      · exact .refused
      split
      · exact .refused
      split
      · exact .refused
      rename_i hwork
      rw [btcM_bind]
      have hload : (loadChainHead ctx).2 = ctx := rfl
      rw [hload]
      have hconnected := fun t => @Attempt.connected env _ ctx parent t
        hfresh (by simpa using hwork) hparent
      cases (env.connectBlock (childOf parent (headerOf bytes)) parent ctx).1 with
      | none => exact hconnected _
      | some _ => exact hconnected env.timestamp

lemma Attempt.blocks {header : BtcHeader} {ctx' : BtcCtx} (h : ctx.Ready)
  (hattempt : env.Attempt header ctx ctx') : ctx'.Ready ∧ (ctx'.lookup = ctx.lookup ∨
    ∃ parent, ctx.lookup (env.blockHash header) = none ∧ env.checkProofOfWork header = true ∧
      ctx.lookup header.prevBlockhash = some parent ∧
      ctx'.lookup = Function.update ctx.lookup (env.blockHash header)
        (some ((childOf parent header).kept env.useV2))) := by
  cases hattempt with
  | refused => exact ⟨h, .inl rfl⟩
  | connected parent timestamp fresh work stored =>
    obtain ⟨hlookup, hready⟩ := env.connectBlock_blocks h (childOf parent header) parent
    exact ⟨⟨hready.cacheless, hready.seeded⟩, .inr ⟨parent, fresh, work, stored, hlookup⟩⟩

end BtcEnv

inductive BtcCall where
  | receiveHeader (bytes : Bytes)
  | receiveHeaders (headers : List Bytes)
  /-- The block ends: its writes join the state the next block reads. -/
  | nextBlock

namespace BtcEnv

variable (env : BtcEnv)

def call : BtcCall → BtcCtx → BtcCtx
  | .receiveHeader bytes, ctx => (env.receiveHeader bytes ctx).2
  | .receiveHeaders headers, ctx => (env.receiveHeaders headers ctx).2
  | .nextBlock, ctx =>
    { ctx with overlay := fun _ => none, trie := fun h => (ctx.overlay h).getD (ctx.trie h) }

lemma lookup_nextBlock (ctx : BtcCtx) : (env.call .nextBlock ctx).lookup = ctx.lookup := by
  funext hash
  simp only [call, lookup]
  cases ctx.overlay hash <;> rfl

end BtcEnv

namespace BtcEnv

variable (env : BtcEnv)

def EachMeets (Q : BtcCtx → BtcHeader → Prop) : List Bytes → BtcCtx → Prop
  | [], _ => True
  | bytes :: rest, ctx => Q ctx (headerOf bytes) ∧ EachMeets Q rest (env.receiveOne bytes ctx).2

def CallMeets (Q : BtcCtx → BtcHeader → Prop) : BtcCall → BtcCtx → Prop
  | .receiveHeader bytes, ctx => Q ctx (headerOf bytes)
  | .receiveHeaders headers, ctx => env.EachMeets Q (headers.take env.maxBtcHeadersPerRskBlock) ctx
  | .nextBlock, _ => True

section Invariant

variable {Q : BtcCtx → BtcHeader → Prop} {I : BtcCtx → Prop}

lemma receiveEach_invariant (hattempt : ∀ {header ctx ctx'}, ctx.Ready → I ctx → Q ctx header →
    env.Attempt header ctx ctx' → I ctx') :
  ∀ (headers : List Bytes) (ctx : BtcCtx), ctx.Ready → I ctx → env.EachMeets Q headers ctx →
    (env.receiveEach headers ctx).2.Ready ∧ I (env.receiveEach headers ctx).2
  | [], _, hready, h, _ => ⟨hready, h⟩
  | bytes :: rest, ctx, hready, h, hmeets => by
    have hone := env.receiveOne_attempt hready bytes
    have hready' := (hone.blocks env hready).1
    have h' := hattempt hready h hmeets.1 hone
    rw [receiveEach, btcM_bind]
    cases (env.receiveOne bytes ctx).1 with
    | next => exact receiveEach_invariant hattempt rest _ hready' h' hmeets.2
    | leave | panicked => exact ⟨hready', h'⟩

/-- **Invariant rule for calls**: what every submitted header keeps, every call keeps. -/
theorem call_invariant (hattempt : ∀ {header ctx ctx'}, ctx.Ready → I ctx → Q ctx header →
    env.Attempt header ctx ctx' → I ctx') (hnext : ∀ {ctx}, I ctx → I (env.call .nextBlock ctx))
  {ctx : BtcCtx} (hready : ctx.Ready) (h : I ctx) (c : BtcCall) (hmeets : env.CallMeets Q c ctx) :
  (env.call c ctx).Ready ∧ I (env.call c ctx) := by
  cases c with
  | receiveHeader bytes =>
    have hone := env.receiveHeader_attempt hready bytes
    exact ⟨(hone.blocks env hready).1, hattempt hready h hmeets hone⟩
  | receiveHeaders headers =>
    rw [call, receiveHeaders, btcM_bind, env.ensureBtcChainSeeded_of_ready hready]
    exact env.receiveEach_invariant hattempt _ ctx hready h hmeets
  | nextBlock => exact ⟨⟨hready.cacheless, hready.seeded⟩, hnext h⟩

end Invariant

end BtcEnv

def BtcCtx.empty : BtcCtx where
  overlay := fun _ => none
  trie := fun _ => []
  cache := none
  chainHead := []
  heightIndex := fun _ => none
  receiveHeadersTimestamp := 0

namespace BtcParams

variable (params : BtcParams)

def Step (ctx : BtcCtx) (e : BtcRules × BtcCall) (ctx' : BtcCtx) : Prop :=
  ctx' = BtcEnv.call ⟨params, e.1⟩ e.2 ctx

def seeded (rules : BtcRules) : BtcCtx :=
  (BtcEnv.ensureBtcChainSeeded ⟨params, rules⟩ empty).2

def seedHashes : List B256 :=
  params.sha256d params.genesis.raw.bytes ::
    params.checkpoint.toList.map fun b => params.sha256d b.header.raw.bytes

lemma ready_seeded (rules : BtcRules) : (params.seeded rules).Ready := by
  have hnone : loadChainHead empty = (none, empty) := rfl
  unfold seeded BtcEnv.ensureBtcChainSeeded
  rw [btcM_bind, hnone]
  cases params.checkpoint <;>
    exact ⟨rfl, by simp [btcM_bind, BtcEnv.setChainHead, deserialize_serialize]⟩

lemma lookup_seeded (rules : BtcRules) {hash : B256} {b : StoredBlock}
  (h : (params.seeded rules).lookup hash = some b) : hash ∈ params.seedHashes := by
  have hnone : loadChainHead empty = (none, empty) := rfl
  have hempty : empty.lookup = fun _ => none := rfl
  -- storing a seed and moving the head to it
  have hput (ctx : BtcCtx) (seed : StoredBlock) (old : hash ≠ params.sha256d seed.header.raw.bytes) :
      (BtcEnv.putStoredBlock ⟨params, rules⟩ seed ctx).2.lookup hash = ctx.lookup hash := by
    rw [BtcEnv.lookup_putStoredBlock]
    exact Function.update_of_ne old ..
  by_contra hnot
  rw [seedHashes, List.mem_cons, not_or] at hnot
  unfold seeded BtcEnv.ensureBtcChainSeeded at h
  rw [btcM_bind, hnone] at h
  cases hcheckpoint : params.checkpoint with
  | none =>
    rw [hcheckpoint] at h
    have hstored := hput empty ⟨params.genesis, 0, computeWork params.genesis.bits⟩ hnot.1
    exact absurd (hstored.symm.trans h) (by simp [hempty])
  | some checkpoint =>
    rw [hcheckpoint] at h hnot
    have hold : hash ≠ params.sha256d checkpoint.header.raw.bytes := by simpa using hnot.2
    have hgenesis := hput empty ⟨params.genesis, 0, computeWork params.genesis.bits⟩ hnot.1
    have hstored := (hput _ checkpoint hold).trans hgenesis
    exact absurd (hstored.symm.trans h) (by simp [hempty])

end BtcParams

end Rustock
