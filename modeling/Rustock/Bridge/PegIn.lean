import Rustock.Bridge.Abi
import Rustock.Lib.CompactSize
import Mathlib

/-!
# Confirmations of peg-ins

The validation in front of `registerBtcTransaction` and `registerFastBridgeBtcTransaction`
(crates/execution/src/bridge/peg.rs): the transaction is matched by a partial
Merkle tree (pmt.rs) whose root is that of a block of the Bridge's Bitcoin chain, at a height the
caller gives, with enough blocks on top.

The height is a 256-bit argument. It is converted to 64 bits with a panic, compared as a signed
number and cut to 32 bits for the lookup.
-/

namespace Rustock

open Lib Option Except List CompactSize BtcEnv StoredBlock
open UInt32 (ofNat le_iff_toNat_le toNat_ofNat')

structure PartialMerkleTree where
  txCount : UInt32
  hashes : List B256
  flagBits : List Bool

structure PmtResult where
  merkleRoot : B256
  matchedHashes : List B256

namespace PartialMerkleTree

/-- `n` hashes and what follows them. -/
def takeHashes : Nat → Bytes → Option (List B256 × Bytes)
  | 0, data => some ([], data)
  | n + 1, data => do
    let (hash, rest) ← takeExact 32 data
    let (hashes, rest) ← takeHashes n rest
    return (.ofBytes 32 hash :: hashes, rest)

def bitsOf (flags : Bytes) : List Bool :=
  flags.flatMap fun byte => (range 8).map fun bit => byte.toNat.testBit bit

def parse (data : Bytes) : Option PartialMerkleTree := do
  let (count, rest) ← takeExact 4 data
  let (nHashes, rest) ← decode rest
  let (hashes, rest) ← takeHashes nHashes rest
  let (nFlagBytes, rest) ← decode rest
  let (flags, _) ← takeExact nFlagBytes rest
  return ⟨ofNat (leNat count), hashes, bitsOf flags⟩

def hasExpectedSize (data : Bytes) : Bool :=
  match takeExact 4 data with
  | none => false
  | some (_, rest) =>
    match decode rest with
    | none => false
    | some (nHashes, rest) =>
      if rest.length < nHashes * 32 then false
      else
        match decode (rest.drop (nHashes * 32)) with
        | none => false
        | some (nFlagBytes, rest) => rest.length = nFlagBytes

/-- On machine words. -/
def treeWidth (txCount : UInt32) (height : Nat) : UInt32 :=
  ofNat ((txCount.toNat + 2 ^ height - 1) % 2 ^ 32 / 2 ^ height)

def treeHeight (size : Nat) : Nat :=
  if h : 1 < size then treeHeight ((size + 1) / 2) + 1 else 0
termination_by size

structure Cursor where
  bits : List Bool
  hashes : List B256
  matched : List B256

def recursiveExtract (sha256d : Bytes → B256) (txCount : UInt32) :
  Nat → UInt32 → Cursor → Option (B256 × Cursor)
  | height, pos, c =>
    match c.bits with
    | [] => none
    | parentOfMatch :: bits =>
      match height, parentOfMatch with
      | height + 1, true => do
        let (left, c) ← recursiveExtract sha256d txCount height (pos * 2) { c with bits := bits }
        if pos * 2 + 1 < treeWidth txCount height then
          let (right, c) ← recursiveExtract sha256d txCount height (pos * 2 + 1) c
          if left = right then none
          else return (sha256d (left.bytes ++ right.bytes), c)
        else return (sha256d (left.bytes ++ left.bytes), c)
      | height, parentOfMatch =>
        match c.hashes with
        | [] => none
        | hash :: hashes =>
          let isLeaf := height = 0 && parentOfMatch
          some (hash, ⟨bits, hashes, if isLeaf then c.matched ++ [hash] else c.matched⟩)

def extractMatches (sha256d : Bytes → B256) (pmt : PartialMerkleTree) : Option PmtResult :=
  if pmt.txCount = 0 ∨ pmt.txCount.toNat < pmt.hashes.length then none
  else
    match recursiveExtract sha256d pmt.txCount (treeHeight pmt.txCount.toNat) 0
        ⟨pmt.flagBits, pmt.hashes, []⟩ with
    | none => none
    | some (root, c) =>
      let bitsUsed := pmt.flagBits.length - c.bits.length
      if c.hashes ≠ [] ∨ (bitsUsed + 7) / 8 ≠ (pmt.flagBits.length + 7) / 8 then none
      else some ⟨root, c.matched⟩

end PartialMerkleTree

open PartialMerkleTree

structure PegCtx where
  btc : BtcCtx
  processed : B256 → Bool
  coinbaseInformation : B256 → Option B256
  flyoverUsed : B256 → B256 → Bool

inductive PegEffect where
  | creditRbtc (receiver : Address) (amount : U256)
  | registerUtxo (txHash : B256) (index : UInt32)
  | markProcessed (txHash : B256)
  | markFlyoverUsed (txHash derivationHash : B256)

/-- The environment of a call. What is done with a validated transaction (classification,
crediting, refunds) is any function of the transaction and the state. -/
structure PegEnv extends BtcEnv where
  btc2rskMinimumAcceptableConfirmations : UInt32
  rskip284 : Bool
  process : Bytes → PegCtx → List PegEffect

inductive Invalid where
  | swallowed (message : String)
  | thrown (message : String)

namespace PegEnv

variable (env : PegEnv)

def seededBtc (ctx : PegCtx) : BtcCtx := (env.ensureBtcChainSeeded ctx.btc).2

def bestHeight (ctx : PegCtx) : UInt32 :=
  ((loadChainHead (env.seededBtc ctx)).1.map (·.height)).getD 0

/-- `best as i64 - height as i64 + 1`, wrapping. -/
def confirmations (ctx : PegCtx) (height : Nat) : Int :=
  ((env.bestHeight ctx).toNat - height + 1 : Int).bmod (2 ^ 64)

def confirmed (ctx : PegCtx) (height : Nat) : Bool :=
  (env.btc2rskMinimumAcceptableConfirmations.toNat : Int) ≤ env.confirmations ctx height

def storedBlockAt (ctx : PegCtx) (height : UInt32) : Option StoredBlock :=
  match (env.mainChainBlockAtHeight height false (env.seededBtc ctx)).1 with
  | .found b => some b
  | .absent | .storeError => none

/-- The block's Merkle root, or the registered root of its witnesses. -/
def rootValid (ctx : PegCtx) (root : B256) (b : StoredBlock) : Bool :=
  root = b.header.merkleRoot ||
    (ctx.coinbaseInformation (env.hashOf b).reverse).any fun witnessRoot =>
      root = witnessRoot.reverse

def validateRegister (ctx : PegCtx) (txHash : B256) (height : Nat) (pmtData : Bytes) :
  Except Invalid Unit :=
  if ctx.processed txHash then .error (.swallowed "transaction already processed")
  else if env.confirmed ctx height = false then .error (.swallowed "insufficient confirmations")
  else if hasExpectedSize pmtData = false then
    .error (.thrown "PartialMerkleTree doesn't have expected size")
  else
    match parse pmtData with
    | none => .error (.thrown "failed to parse PMT")
    | some pmt =>
      match pmt.extractMatches env.sha256d with
      | none => .error (.thrown "PMT verification failed")
      | some result =>
        if txHash ∉ result.matchedHashes then .error (.swallowed "tx not in PMT")
        else
          match env.storedBlockAt ctx (ofNat height) with
          | none => .error (.swallowed "BTC block not found at height")
          | some b =>
            if env.rootValid ctx result.merkleRoot b = false then
              .error (.swallowed "merkle root mismatch")
            else .ok ()

/-- A swallowed failure is a success without effects. -/
def registerBtcTransaction (ctx : PegCtx) (args : Bytes) : Reader (List PegEffect) :=
  match BridgeMethod.registerBtcTransaction.decode args with
  | .ok [.bytes btcTxData, .word btcBlockHeight, .bytes pmtData] =>
    match env.validateRegister ctx (env.sha256d btcTxData) btcBlockHeight pmtData with
    | .ok () => .ok (env.process btcTxData ctx)
    | .error (.swallowed _) => .ok []
    | .error (.thrown _) => .error .rejected
  | .ok _ => .error .rejected
  | .error stop => .error stop

structure FlyoverArgs where
  btcTxOffset : Nat
  btcBlockHeight : Nat
  pmtOffset : Nat
  derivationArgsHash : Bytes
  userRefundAddr : Bytes
  lbcAddress : Bytes
  lpBtcAddr : Bytes

def flyoverArgs (args : Bytes) : Reader FlyoverArgs := do
  within args 256
  let btcTxOffset ← toWidth 64 (wordAt args 0)
  let btcBlockHeight ← toWidth 64 (wordAt args 32)
  let pmtOffset ← toWidth 64 (wordAt args 64)
  let userRefundOffset ← toWidth 64 (wordAt args 128)
  let lpOffset ← toWidth 64 (wordAt args 192)
  let userRefundAddr ← readDynamicBytes args userRefundOffset
  let lpBtcAddr ← readDynamicBytes args lpOffset
  return ⟨btcTxOffset, btcBlockHeight, pmtOffset, window args 96 32, userRefundAddr,
    window args 172 20, lpBtcAddr⟩

def validateFlyover (ctx : PegCtx) (txHash : B256) (height : Nat) (pmtData : Bytes) : Bool :=
  hasExpectedSize pmtData &&
    (parse pmtData).any fun pmt =>
      (pmt.extractMatches env.sha256d).any fun result =>
        decide (txHash ∈ result.matchedHashes) &&
          (env.storedBlockAt ctx (ofNat height)).any fun b =>
            env.rootValid ctx result.merkleRoot b && env.confirmed ctx height

def addressLenOk (b : Bytes) : Bool := if env.rskip284 then b.length = 21 else 21 ≤ b.length

/-- Every refusal before the transaction is parsed is an answer without effects. -/
def registerFastBridgeBtcTransaction (ctx : PegCtx) (caller : Bytes) (callDepth : Nat)
  (args : Bytes) : Reader (List PegEffect) :=
  match flyoverArgs args with
  | .error .rejected => .ok []
  | .error (.fault f) => .error (.fault f)
  | .ok a =>
    if (env.addressLenOk a.userRefundAddr && env.addressLenOk a.lpBtcAddr) = false then .ok []
    else if callDepth ≤ 1 then .ok []
    else if caller ≠ a.lbcAddress then .ok []
    else do
      let btcTxData ← readDynamicBytes args a.btcTxOffset
      let pmtData ← readDynamicBytes args a.pmtOffset
      let txHash := env.sha256d btcTxData
      let flyoverHash := keccak256
        (a.derivationArgsHash ++ a.userRefundAddr ++ a.lbcAddress ++ a.lpBtcAddr)
      if ctx.flyoverUsed txHash flyoverHash then return []
      else if env.validateFlyover ctx txHash a.btcBlockHeight pmtData = false then return []
      else return env.process btcTxData ctx

end PegEnv

inductive PegCall where
  | registerBtcTransaction (args : Bytes)
  | registerFastBridgeBtcTransaction (caller : Bytes) (callDepth : Nat) (args : Bytes)

namespace PegCall

def args : PegCall → Bytes
  | registerBtcTransaction args => args
  | registerFastBridgeBtcTransaction _ _ args => args

def argTypes : PegCall → List AbiArgType
  | registerBtcTransaction _ => [.bytes, .word, .bytes]
  | registerFastBridgeBtcTransaction .. =>
    [.bytes, .word, .bytes, .fixedBytes, .bytes, .word, .bytes, .word]

def height (c : PegCall) : Nat := wordAt c.args 32

def run (env : PegEnv) (ctx : PegCtx) : PegCall → Reader (List PegEffect)
  | registerBtcTransaction args => env.registerBtcTransaction ctx args
  | registerFastBridgeBtcTransaction caller callDepth args =>
    env.registerFastBridgeBtcTransaction ctx caller callDepth args

/-- The transaction and the partial merkle tree of a call, as its method reads them. -/
def proof : PegCall → Reader (Bytes × Bytes)
  | registerBtcTransaction args =>
    match BridgeMethod.registerBtcTransaction.decode args with
    | .ok [.bytes btcTxData, .word _, .bytes pmtData] => .ok (btcTxData, pmtData)
    | .ok _ => .error .rejected
    | .error stop => .error stop
  | registerFastBridgeBtcTransaction _ _ args => do
    let a ← PegEnv.flyoverArgs args
    let btcTxData ← readDynamicBytes args a.btcTxOffset
    let pmtData ← readDynamicBytes args a.pmtOffset
    return (btcTxData, pmtData)

end PegCall

namespace PegEnv

variable (env : PegEnv)

/-- The transaction is matched by the partial merkle tree under the root of the main-chain block at
`height`, and that block has the configured confirmations. -/
def Confirmed (ctx : PegCtx) (btcTxData : Bytes) (height : UInt32) (pmtData : Bytes) : Prop :=
  ∃ pmt result b head,
    parse pmtData = some pmt ∧
    pmt.extractMatches env.sha256d = some result ∧
    env.sha256d btcTxData ∈ result.matchedHashes ∧
    env.storedBlockAt ctx height = some b ∧ env.rootValid ctx result.merkleRoot b = true ∧
    (loadChainHead (env.seededBtc ctx)).1 = some head ∧
    (env.btc2rskMinimumAcceptableConfirmations.toNat : Int) ≤
      (head.height.toNat : Int) - b.height.toNat + 1

def IndexSound (ctx : PegCtx) : Prop :=
  ∀ height b, (env.indexedBlock height (env.seededBtc ctx)).1 = some b → b.height = height

/-- An effect of the call is one of a transaction and a proof that the call itself carries,
confirmed at the height it names. -/
def CallConfirmed (ctx : PegCtx) (c : PegCall) : Prop :=
  env.IndexSound ctx → ∀ effects, c.run env ctx = .ok effects → effects ≠ [] →
    ∃ btcTxData pmtData, c.proof = .ok (btcTxData, pmtData) ∧
      env.Confirmed ctx btcTxData (ofNat c.height) pmtData

structure Validated (ctx : PegCtx) (txHash : B256) (height : Nat) (pmtData : Bytes) : Prop where
  proof : ∃ pmt result b, parse pmtData = some pmt ∧
    pmt.extractMatches env.sha256d = some result ∧ txHash ∈ result.matchedHashes ∧
    env.storedBlockAt ctx (ofNat height) = some b ∧
    env.rootValid ctx result.merkleRoot b = true
  confirmed : env.confirmed ctx height = true

variable {ctx : PegCtx} {height : Nat} {pmtData : Bytes} {txHash : B256}

lemma validateRegister_ok (h : env.validateRegister ctx txHash height pmtData = .ok ()) :
  env.Validated ctx txHash height pmtData := by
  unfold validateRegister at h
  split at h
  · cases h
  split at h
  · cases h
  rename_i hconfirmed
  split at h
  · cases h
  split at h
  · cases h
  rename_i pmt hparse
  split at h
  · cases h
  rename_i result hextract
  split at h
  · cases h
  rename_i hmem
  split at h
  · cases h
  rename_i b hblock
  split at h
  · cases h
  rename_i hroot
  exact ⟨⟨pmt, result, b, hparse, hextract, not_not.mp hmem, hblock, by simpa using hroot⟩,
    by simpa using hconfirmed⟩

lemma validateFlyover_true (h : env.validateFlyover ctx txHash height pmtData = true) :
  env.Validated ctx txHash height pmtData := by
  simp only [validateFlyover, Bool.and_eq_true, Option.any_eq_true, decide_eq_true_eq] at h
  obtain ⟨_, pmt, hparse, result, hextract, hmem, b, hblock, hroot, hconfirmed⟩ := h
  exact ⟨⟨pmt, result, b, hparse, hextract, hmem, hblock, hroot⟩, hconfirmed⟩

theorem validated_of_effects {c : PegCall} {effects : List PegEffect}
    (hrun : c.run env ctx = .ok effects) (hne : effects ≠ []) : c.height < 2 ^ 64 ∧
    ∃ btcTxData pmtData, c.proof = .ok (btcTxData, pmtData) ∧
      env.Validated ctx (env.sha256d btcTxData) c.height pmtData := by
  cases c with
  | registerBtcTransaction args =>
    change env.registerBtcTransaction ctx args = .ok effects at hrun
    unfold registerBtcTransaction at hrun
    split at hrun
    · rename_i btcTxData height pmtData hdecode
      have hproof : (PegCall.registerBtcTransaction args).proof = .ok (btcTxData, pmtData) := by
        rw [PegCall.proof, hdecode]
      simp only [BridgeMethod.decode, except_do_eq_ok, within_eq_ok, toWidth_eq_ok] at hdecode
      obtain ⟨_, _, _, _, _, ⟨hlt, rfl⟩, _, _, _, _, _, _, hvalues⟩ := hdecode
      obtain ⟨_, ⟨rfl⟩, _⟩ := by simpa using ok.inj hvalues
      split at hrun
      · rename_i hvalid
        exact ⟨hlt, _, _, hproof, env.validateRegister_ok hvalid⟩
      · exact absurd (ok.inj hrun).symm hne
      · cases hrun
    · cases hrun
    · cases hrun
  | registerFastBridgeBtcTransaction caller callDepth args =>
    change env.registerFastBridgeBtcTransaction ctx caller callDepth args = .ok effects at hrun
    unfold registerFastBridgeBtcTransaction at hrun
    split at hrun
    · exact absurd (ok.inj hrun).symm hne
    · cases hrun
    rename_i a ha
    have hread := ha
    simp only [flyoverArgs, except_do_eq_ok, within_eq_ok, toWidth_eq_ok] at ha
    obtain ⟨_, _, _, _, _, ⟨hlt, rfl⟩, _, _, _, _, _, _, _, _, _, _, hargs⟩ := ha
    have hheight : a.btcBlockHeight = wordAt args 32 := by rw [← ok.inj hargs]
    split at hrun
    · exact absurd (ok.inj hrun).symm hne
    split at hrun
    · exact absurd (ok.inj hrun).symm hne
    split at hrun
    · exact absurd (ok.inj hrun).symm hne
    simp only [except_do_eq_ok] at hrun
    obtain ⟨btcTxData, htx, pmtData, hpmt, hrest⟩ := hrun
    have hproof : (PegCall.registerFastBridgeBtcTransaction caller callDepth args).proof =
        .ok (btcTxData, pmtData) := by
      simp only [PegCall.proof, except_do_eq_ok]
      exact ⟨a, hread, btcTxData, htx, pmtData, hpmt, rfl⟩
    split at hrest
    · exact absurd (ok.inj hrest).symm hne
    split at hrest
    · exact absurd (ok.inj hrest).symm hne
    rename_i hvalid
    have hvalid := env.validateFlyover_true (by simpa using hvalid)
    rw [hheight] at hvalid
    exact ⟨hlt, _, _, hproof, hvalid⟩

lemma storedBlockAt_height (hindex : env.IndexSound ctx) {height : UInt32} {b : StoredBlock}
  (h : env.storedBlockAt ctx height = some b) : b.height = height ∧
    ∃ head, (loadChainHead (env.seededBtc ctx)).1 = some head ∧ height ≤ head.height := by
  unfold storedBlockAt at h
  split at h
  · rename_i found hfound
    obtain rfl := some.inj h
    unfold mainChainBlockAtHeight at hfound
    rw [btcM_bind] at hfound
    have hsame : (loadChainHead (env.seededBtc ctx)).2 = env.seededBtc ctx := rfl
    rw [hsame] at hfound
    cases hhead : (loadChainHead (env.seededBtc ctx)).1 with
    | none =>
      rw [hhead] at hfound
      cases hfound
    | some head =>
      rw [hhead] at hfound
      dsimp only at hfound
      split at hfound
      · cases hfound
      rename_i hle
      refine ⟨?_, head, rfl, UInt32.not_lt.mp hle⟩
      rw [if_neg (by simp), btcM_bind] at hfound
      cases hindexed : (env.indexedBlock height (env.seededBtc ctx)).1 with
      | some indexed =>
        rw [hindexed] at hfound
        rw [← MainChainLookup.found.inj hfound]
        exact hindex height indexed hindexed
      | none =>
        rw [hindexed] at hfound
        dsimp only at hfound
        rw [btcM_bind] at hfound
        generalize walkParents (head.height - height).toNat (env.hashOf head)
          (env.indexedBlock height (env.seededBtc ctx)).2 = walk at hfound
        obtain ⟨target, after⟩ := walk
        cases target with
        | none => cases hfound
        | some hash =>
          dsimp only at hfound
          rw [btcM_bind] at hfound
          generalize getStoredBlock hash after = read at hfound
          obtain ⟨block, after⟩ := read
          cases block with
          | none => cases hfound
          | some block =>
            change (if block.height = height then MainChainLookup.found block else .storeError) =
              .found found at hfound
            split at hfound
            · rename_i hblock
              rw [← MainChainLookup.found.inj hfound]
              exact hblock
            · cases hfound
  · cases h
  · cases h

lemma confirmed_low (hlt : height < 2 ^ 63 + 2 ^ 32)
  (hlow : height % 2 ^ 32 ≤ (env.bestHeight ctx).toNat) (h : env.confirmed ctx height = true) :
  (env.btc2rskMinimumAcceptableConfirmations.toNat : Int) ≤
    (env.bestHeight ctx).toNat - (height % 2 ^ 32 : Nat) + 1 := by
  have hbest := (env.bestHeight ctx).toNat_lt
  have hcheck : (env.btc2rskMinimumAcceptableConfirmations.toNat : Int) ≤
      ((env.bestHeight ctx).toNat - height + 1 : Int).bmod (2 ^ 64) := of_decide_eq_true h
  rw [Int.bmod_eq_of_le (by omega) (by omega)] at hcheck
  omega

theorem Validated.confirmedAt {btcTxData : Bytes} (hindex : env.IndexSound ctx)
    (h : env.Validated ctx (env.sha256d btcTxData) height pmtData)
    (hheight : height < 2 ^ 63 + 2 ^ 32 ∨ env.btc2rskMinimumAcceptableConfirmations ≤ 1) :
    env.Confirmed ctx btcTxData (ofNat height) pmtData := by
  obtain ⟨⟨pmt, result, b, hparse, hextract, hmem, hblock, hroot⟩, hconfirmed⟩ := h
  obtain ⟨hb, head, hhead, hle⟩ := env.storedBlockAt_height hindex hblock
  refine ⟨pmt, result, b, head, hparse, hextract, hmem, hblock, hroot, hhead, ?_⟩
  have hbest : env.bestHeight ctx = head.height := by
    rw [bestHeight, hhead]
    rfl
  have hlow : b.height.toNat = height % 2 ^ 32 := by
    rw [hb]
    exact toNat_ofNat'
  have hle : b.height.toNat ≤ head.height.toNat := by
    rw [hb]
    exact le_iff_toNat_le.mp hle
  by_cases hone : env.btc2rskMinimumAcceptableConfirmations ≤ 1
  · have hone := le_iff_toNat_le.mp hone
    have : (1 : UInt32).toNat = 1 := rfl
    omega
  have hlt := hheight.resolve_right hone
  have := env.confirmed_low hlt (by rw [hbest]; omega) hconfirmed
  rw [hbest] at this
  omega

end PegEnv

/-! ## A height with high bits

The check sees a negative height and more than `2 ^ 32` confirmations, the lookup the head. -/

namespace HighHeight

def pmtData : Bytes := [1, 0, 0, 0, 1] ++ replicate 32 0 ++ [1, 1]

def header : BtcHeader := ⟨.zero 80⟩

def head (height : Nat) : StoredBlock := ⟨header, ofNat height, 1⟩

def env (minimum : UInt32) : PegEnv where
  sha256d := fun _ => .zero 32
  mainnet := true
  maxBtcHeadersPerRskBlock := 500
  minSecondsBetweenCallsReceiveHeader := 300
  maxDepthBlockchainAccepted := 4320
  blockWithTooMuchChainWorkHeight := 849138
  btcHeightWhenBlockIndexActivates := 696000
  maxDepthToSearchBlocksBelowIndexActivation := 4320
  genesis := header
  checkpoint := none
  rskip124 := false
  rskip199 := false
  rskip434 := false
  useV2 := true
  timestamp := 0
  btc2rskMinimumAcceptableConfirmations := minimum
  rskip284 := false
  process := fun _ _ => [.markProcessed (.zero 32)]

def ctx (height : Nat) : PegCtx where
  btc :=
    { overlay := fun _ => some ((head height).serializeCompact true)
      trie := fun _ => []
      cache := none
      chainHead := (head height).serializeCompact true
      heightIndex := fun _ => none
      receiveHeadersTimestamp := 0 }
  processed := fun _ => false
  coinbaseInformation := fun _ => none
  flyoverUsed := fun _ _ => false

def args (height : Nat) : Bytes :=
  beBytes 32 96 ++ (beBytes 32 height ++ (beBytes 32 128 ++ beBytes 32 0 ++ beBytes 32 39 ++ pmtData))

def tail : Bytes := beBytes 32 128 ++ beBytes 32 0 ++ beBytes 32 39 ++ pmtData

lemma window_args (height k n : Nat) : window (args height) (64 + k) n = window tail k n := by
  have hfirst : (beBytes 32 96).length = 32 := length_beBytes ..
  have hsecond : (beBytes 32 height).length = 32 := length_beBytes ..
  have h64 : 64 + k = (beBytes 32 96).length + ((beBytes 32 height).length + k) := by omega
  rw [args, h64, window_append_right, window_append_right]
  rfl

lemma length_args (height : Nat) : (args height).length = 199 := by
  have htail : tail.length = 135 := by decide +kernel
  have hargs : args height = beBytes 32 96 ++ (beBytes 32 height ++ tail) := rfl
  rw [hargs, length_append, length_append, length_beBytes, length_beBytes, htail]

lemma wordAt_first (height : Nat) : wordAt (args height) 0 = 96 := by
  have hwindow : window (args height) 0 32 = beBytes 32 96 := by
    rw [args, window_append_left (by rw [length_beBytes])]
    decide
  rw [wordAt, hwindow]
  decide

variable {height : Nat}

lemma wordAt_height (h : height < 2 ^ 64) : wordAt (args height) 32 = height := by
  have hfirst : (beBytes 32 96).length = 32 := length_beBytes ..
  rw [wordAt, args, window_middle hfirst (length_beBytes ..), beNat_beBytes]
  exact Nat.mod_eq_of_lt (by omega)

lemma wordAt_tail (height : Nat) : wordAt (args height) 64 = 128 ∧ wordAt (args height) 96 = 0 ∧
    wordAt (args height) 128 = 39 := by
  have h64 := window_args height 0 32
  have h96 := window_args height 32 32
  have h128 := window_args height 64 32
  refine ⟨?_, ?_, ?_⟩
  · rw [wordAt, h64]
    decide
  · rw [wordAt, h96]
    decide
  rw [wordAt, h128]
  decide

lemma lowWords (height : Nat) : lowWord (args height) 0 = 96 ∧ lowWord (args height) 64 = 128 ∧
    lowWord (args height) 96 = 0 ∧ lowWord (args height) 128 = 39 := by
  obtain ⟨h64, h96, h128⟩ := wordAt_tail height
  unfold lowWord
  rw [wordAt_first, h64, h96, h128]
  decide

lemma args_accepted (height : Nat) :
  abiArgsDecodeOk (args height) [.bytes, .word, .bytes] 0 = true := by
  obtain ⟨h0, h64, h96, h128⟩ := lowWords height
  have hlen := length_args height
  have hbytes {off o len : Nat} (hoff : off + 32 ≤ 199) (ho : lowWord (args height) off = o)
      (hl : lowWord (args height) o = len) (hin : o + 32 + len ≤ 199) :
      abiArgOk (args height) .bytes off = true := by
    have hindex : abiIndexAt (args height) off = some o := by
      rw [← ho]
      exact abiIndexAt_of_low (by omega) (by omega)
    have hcount : abiIndexAt (args height) o = some len := by
      rw [← hl]
      exact abiIndexAt_of_low (by omega) (by omega)
    have hdynamic : AbiArgType.bytes.isDynamic = true := rfl
    rw [abiArgOk, if_pos hdynamic, hindex, any_some, abiDecodeValueOk, hcount, any_some, hlen]
    exact decide_eq_true hin
  have hword : abiArgOk (args height) .word 32 = true := by
    have hne : args height ≠ [] := ne_nil_of_length (n := 0) (by omega)
    have hstatic : ¬ AbiArgType.word.isDynamic = true := by decide
    rw [abiArgOk, if_neg hstatic, abiDecodeValueOk, abiDecodeInt, if_neg hne, if_neg (by omega)]
    rfl
  rw [abiArgsDecodeOk, abiArgsDecodeOk, abiArgsDecodeOk, abiArgsDecodeOk,
    hbytes (by omega) h0 h96 (by omega), hword, hbytes (by omega) h64 h128 (by omega)]
  rfl

lemma decode_args (h : height < 2 ^ 64) : BridgeMethod.registerBtcTransaction.decode (args height) =
    .ok [.bytes [], .word height, .bytes pmtData] := by
  obtain ⟨h0, h64, h96, h128⟩ := lowWords height
  obtain ⟨w64, w96, w128⟩ := wordAt_tail height
  have hplain : PlainWords (args height) .registerBtcTransaction := by
    refine ⟨⟨?_, ?_⟩, ?_, ⟨?_, ?_⟩⟩
    · rw [SmallWord, wordAt_first]
      decide
    · rw [SmallWord, h0, w96]
      decide
    · rw [wordAt_height h]
      exact h
    · rw [SmallWord, w64]
      decide
    rw [SmallWord, h64, w128]
    decide
  have hdecoded := ((registerBtcTransaction_agrees (args_accepted height)).1 hplain).decoded
  have hempty : bytesAt (args height) 96 = [] := by
    rw [bytesAt, h96]
    exact take_zero
  have hpmt : bytesAt (args height) 128 = pmtData := by
    have hwindow := window_args height 96 39
    rw [bytesAt, h128, hwindow]
    decide
  rw [hdecoded, acceptedValues, h0, h64, wordAt_height h, hempty, hpmt]

lemma loadChainHead_ctx (height : Nat) :
  loadChainHead (ctx height).btc = (some (head height), (ctx height).btc) := by
  simp only [loadChainHead, ctx, deserialize_serialize]
  rfl

lemma getStoredBlock_ctx (height : Nat) (hash : B256) :
  getStoredBlock hash (ctx height).btc = (some (head height), (ctx height).btc) := by
  simp only [getStoredBlock, ctx, deserialize_serialize]
  rfl

lemma seededBtc_ctx (minimum : UInt32) (height : Nat) :
  (env minimum).seededBtc (ctx height) = (ctx height).btc := by
  have hready : (ctx height).btc.Ready :=
    ⟨rfl, by simp [ctx, deserialize_serialize]⟩
  rw [PegEnv.seededBtc, ensureBtcChainSeeded_of_ready _ hready]

lemma walkParents_ctx (height : Nat) : ∀ (depth : Nat) (hash : B256),
  ∃ target, walkParents depth hash (ctx height).btc = (some target, (ctx height).btc)
  | 0, hash => ⟨hash, rfl⟩
  | depth + 1, hash => by
    unfold walkParents
    rw [btcM_bind, getStoredBlock_ctx]
    exact walkParents_ctx height depth _

variable {minimum : UInt32}

lemma storedBlockAt_eq_head {key : UInt32} {b : StoredBlock}
  (h : (env minimum).storedBlockAt (ctx height) key = some b) : b = head height := by
  have hlookup : ∃ found, (env minimum).mainChainBlockAtHeight key false (ctx height).btc = found ∧
      (found.1 = .storeError ∨ found.1 = .found (head height)) := by
    refine ⟨_, rfl, ?_⟩
    unfold mainChainBlockAtHeight
    rw [btcM_bind, loadChainHead_ctx]
    dsimp only
    split
    · exact .inl rfl
    obtain ⟨target, htarget⟩ := walkParents_ctx height ((head height).height - key).toNat
      ((env minimum).hashOf (head height))
    have hindexed : (env minimum).indexedBlock key (ctx height).btc = (none, (ctx height).btc) := rfl
    rw [if_neg (by simp), btcM_bind, hindexed]
    dsimp only
    rw [btcM_bind, htarget]
    dsimp only
    rw [btcM_bind, getStoredBlock_ctx]
    by_cases hkey : (head height).height = key
    · exact .inr (if_pos hkey)
    · exact .inl (if_neg hkey)
  obtain ⟨found, hfound, hcases⟩ := hlookup
  rw [PegEnv.storedBlockAt, seededBtc_ctx, hfound] at h
  rcases hcases with herror | hhead
  · rw [herror] at h
    cases h
  rw [hhead] at h
  exact (some.inj h).symm

lemma storedBlockAt_self (minimum : UInt32) (height : Nat) :
  (env minimum).storedBlockAt (ctx height) (ofNat height) = some (head height) := by
  have hlookup : ((env minimum).mainChainBlockAtHeight (ofNat height) false
      (ctx height).btc).1 = .found (head height) := by
    unfold mainChainBlockAtHeight
    rw [btcM_bind, loadChainHead_ctx]
    have hself : ¬ (head height).height < ofNat height := UInt32.lt_irrefl _
    dsimp only
    rw [if_neg hself, if_neg (by simp), btcM_bind]
    have hindexed : (env minimum).indexedBlock (ofNat height) (ctx height).btc =
        (none, (ctx height).btc) := rfl
    have hdepth : ((head height).height - ofNat height).toNat = 0 := by simp [head]
    rw [hindexed, hdepth]
    dsimp only
    rw [btcM_bind, walkParents]
    change (((getStoredBlock _ >>= _) (ctx height).btc)).1 = _
    rw [btcM_bind, getStoredBlock_ctx]
    exact if_pos rfl
  rw [PegEnv.storedBlockAt, seededBtc_ctx, hlookup]

lemma pmt_matches : hasExpectedSize pmtData = true ∧
    ∃ pmt, parse pmtData = some pmt ∧
      pmt.extractMatches (fun _ => .zero 32) = some ⟨.zero 32, [.zero 32]⟩ := by
  refine ⟨by decide +kernel, ⟨1, [.zero 32], bitsOf [1]⟩, by rfl, ?_⟩
  have hheight : treeHeight (1 : UInt32).toNat = 0 := by
    rw [treeHeight]
    rfl
  rw [extractMatches, hheight]
  rfl

lemma run_args (hlow : 2 ^ 63 + 2 ^ 32 ≤ height) (hhigh : height < 2 ^ 64) :
  (PegCall.registerBtcTransaction (args height)).run (env minimum) (ctx height) =
    .ok [.markProcessed (.zero 32)] := by
  have hminimum := minimum.toNat_lt
  have hbest : ((env minimum).bestHeight (ctx height)).toNat = height % 2 ^ 32 := by
    rw [PegEnv.bestHeight, seededBtc_ctx, loadChainHead_ctx]
    exact toNat_ofNat'
  have hconfirmed : (env minimum).confirmed (ctx height) height = true := by
    refine decide_eq_true ?_
    change (minimum.toNat : Int) ≤ _
    rw [PegEnv.confirmations, hbest]
    have hwrap : ((height % 2 ^ 32 : Nat) - height + 1 : Int).bmod (2 ^ 64) =
        (height % 2 ^ 32 : Nat) - height + 1 + 2 ^ 64 := by
      rw [← Int.add_bmod_right, Int.bmod_eq_of_le (by omega) (by omega)]
      rfl
    rw [hwrap]
    omega
  obtain ⟨hsize, pmt, hparse, hextract⟩ := pmt_matches
  have hvalid : (env minimum).validateRegister (ctx height) (.zero 32) height pmtData = .ok () := by
    have hroot : (env minimum).rootValid (ctx height) (.zero 32) (head height) = true := by rfl
    have hprocessed : ¬ (ctx height).processed (.zero 32) = true := by
      intro h
      cases h
    have hextract' : pmt.extractMatches (env minimum).sha256d = some ⟨.zero 32, [.zero 32]⟩ :=
      hextract
    rw [PegEnv.validateRegister, if_neg hprocessed, hconfirmed, if_neg (by simp), hsize,
      if_neg (by simp), hparse]
    dsimp only
    rw [hextract']
    dsimp only
    rw [if_neg (by simp), storedBlockAt_self]
    dsimp only
    rw [hroot]
    rfl
  change (env minimum).registerBtcTransaction (ctx height) (args height) = _
  unfold PegEnv.registerBtcTransaction
  rw [decode_args hhigh]
  have hsha : (env minimum).sha256d [] = .zero 32 := rfl
  dsimp only
  rw [hsha, hvalid]
  rfl

end HighHeight

open HighHeight

/-- **The heights for which peg-ins need their confirmations.** For a height argument `w` and a
configured minimum, every state, every processing and every accepted call with that height: if it
has an effect, the transaction and the proof the call carries are confirmed at that height. This
holds if and only if `w` is below `2 ^ 63 + 2 ^ 32`, or does not fit 64 bits,
or one confirmation is enough. -/
theorem confirmed_iff (minimum : UInt32) (w : Nat) : (∀ (env : PegEnv) (ctx : PegCtx) (c : PegCall),
      env.btc2rskMinimumAcceptableConfirmations = minimum → c.height = w →
      abiArgsDecodeOk c.args c.argTypes 0 = true → env.CallConfirmed ctx c) ↔
    w < 2 ^ 63 + 2 ^ 32 ∨ 2 ^ 64 ≤ w ∨ minimum ≤ 1 := by
  constructor
  · intro h
    by_contra hnot
    rw [not_or, not_or] at hnot
    obtain ⟨hlow, hhigh, hminimum⟩ := hnot
    have hlow : 2 ^ 63 + 2 ^ 32 ≤ w := by omega
    have hhigh : w < 2 ^ 64 := by omega
    have hcall := h (HighHeight.env minimum) (HighHeight.ctx w)
      (.registerBtcTransaction (HighHeight.args w)) rfl (wordAt_height hhigh)
      (args_accepted w)
    have hindex : (HighHeight.env minimum).IndexSound (HighHeight.ctx w) := by
      intro key b hindexed
      cases hindexed
    obtain ⟨_, _, _, _, _, b, head, _, _, _, hblock, _, hhead, hconfirmed⟩ :=
      hcall hindex _ (run_args hlow hhigh) (by simp)
    rw [seededBtc_ctx, loadChainHead_ctx] at hhead
    rw [storedBlockAt_eq_head hblock, ← some.inj hhead] at hconfirmed
    have hconfirmed : (minimum.toNat : Int) ≤ _ := hconfirmed
    have hone : minimum.toNat ≤ (1 : UInt32).toNat := by
      have : (1 : UInt32).toNat = 1 := rfl
      omega
    exact hminimum (le_iff_toNat_le.mpr hone)
  intro hw env ctx c hminimum hheight _ hindex effects hrun hne
  obtain ⟨hlt, btcTxData, pmtData, hproof, hvalid⟩ := env.validated_of_effects hrun hne
  refine ⟨btcTxData, pmtData, hproof, PegEnv.Validated.confirmedAt env hindex hvalid ?_⟩
  rw [hheight] at hlt ⊢
  rcases hw with hlow | hhigh | hone
  · exact .inl hlow
  · omega
  rw [hminimum]
  exact .inr hone

namespace HighHeight

/-- **A peg-in with one confirmation of a hundred**: the height argument is `2 ^ 64 - 2 ^ 32` plus
the head's height, 700000. -/
theorem unconfirmed_pegin :
  abiArgsDecodeOk (args (2 ^ 64 - 2 ^ 32 + 700000)) [.bytes, .word, .bytes] 0 = true ∧
    (PegCall.registerBtcTransaction (args (2 ^ 64 - 2 ^ 32 + 700000))).run (env 100)
      (ctx (2 ^ 64 - 2 ^ 32 + 700000)) = .ok [.markProcessed (.zero 32)] ∧
    ∀ btcTxData height pmtData,
      ¬ (env 100).Confirmed (ctx (2 ^ 64 - 2 ^ 32 + 700000)) btcTxData height pmtData := by
  refine ⟨args_accepted _, run_args (by decide) (by decide), ?_⟩
  rintro btcTxData height pmtData ⟨_, _, b, head, _, _, _, hblock, _, hhead, hconfirmed⟩
  rw [seededBtc_ctx, loadChainHead_ctx] at hhead
  rw [storedBlockAt_eq_head hblock, ← some.inj hhead] at hconfirmed
  have hconfirmed : ((100 : UInt32).toNat : Int) ≤ _ := hconfirmed
  have : (100 : UInt32).toNat = 100 := rfl
  omega

end HighHeight

end Rustock
