import Rustock.Core.Rules
import Rustock.Core.Sha256

/-!
# Merged mining

The two rules that tie an RSK header to a Bitcoin block
(crates/core/src/validation/merged_mining.rs):

- `mergedMiningRule`: the Bitcoin header's work meets the RSK difficulty,
  the compressed coinbase carries the RSK tag and the hash for merged mining, and
  the coinbase hash is a leaf of the Bitcoin header's Merkle root;
- `bitcoinTimestampRule`.

`mergedMiningRule_eq_ok_iff` is the rule's inversion: exactly what an accepted header
satisfies. Every later fact about accepted headers starts from it.
-/

namespace Rustock

open Lib

/-- `b"RSKBLOCK:"`. -/
def rskTag : Bytes := [0x52, 0x53, 0x4B, 0x42, 0x4C, 0x4F, 0x43, 0x4B, 0x3A]

def midstateSizeTrimmed : Nat := 40
def blockHeaderHashSize : Nat := 32
def maxBytesAfterMergedMiningHash : Nat := 128
def hashForMergedMiningPrefixLength : Nat := 20
def maxRskTagPositionInTail : Nat := 64
def maxMergedMiningMerkleProofLength : Nat := 960

structure BtcHeader where
  raw : FixedBytes 80
deriving DecidableEq

namespace BtcHeader

def consensusDecode (b : Bytes) : Except ValidationError BtcHeader :=
  if h : 80 ≤ b.length then .ok ⟨⟨b.take 80, by simp [h]⟩⟩
  else .error .bitcoinHeaderDecodeError

variable (h : BtcHeader)

def merkleRoot : B256 := .ofBytes 32 (window h.raw.bytes 36 32)

def time : UInt32 := UInt32.ofNat (leNat (window h.raw.bytes 68 4))

def blockHash : B256 := sha256Digest (sha256Digest h.raw.bytes).bytes

end BtcHeader

def Header.btcHeader (h : Header) : Except ValidationError BtcHeader :=
  match h.bitcoinMergedMiningHeader with
  | none => .error .bitcoinHeaderDecodeError
  | some b => BtcHeader.consensusDecode b

def findLastSubsequence (haystack needle : Bytes) : Option Nat :=
  if haystack.length < needle.length then none
  else rposition (fun i => window haystack i needle.length == needle)
    (haystack.length - needle.length + 1)

lemma findLastSubsequence_eq_some_iff {haystack needle : Bytes} {i : Nat} :
  findLastSubsequence haystack needle = some i ↔
    i + needle.length ≤ haystack.length ∧ window haystack i needle.length = needle ∧
    ∀ j, i < j → j + needle.length ≤ haystack.length →
      window haystack j needle.length ≠ needle := by
  unfold findLastSubsequence
  split
  · simp only [reduceCtorEq, false_iff, not_and]
    intro h
    omega
  rw [rposition_eq_some_iff]
  simp only [beq_iff_eq]
  constructor
  · rintro ⟨h1, h2, h3⟩
    exact ⟨by omega, h2, fun j hj hj' => h3 j hj (by omega)⟩
  rintro ⟨h1, h2, h3⟩
  exact ⟨by omega, h2, fun j hj hj' => h3 j hj (by omega)⟩

/-- Bytes already absorbed by the midstate: `trimmed[0..8]`. -/
def coinbaseByteCount (compressed : Bytes) : UInt64 := UInt64.ofNat (beNat (compressed.take 8))

/-- The midstate's chaining state: `trimmed[8..40]`. -/
def coinbaseState (compressed : Bytes) : Sha256State := .ofBytes (window compressed 8 32)

def coinbaseTail (compressed : Bytes) : Bytes := compressed.drop midstateSizeTrimmed

def coinbaseFirstRound (compressed : Bytes) : B256 :=
  sha256FromMidstate (coinbaseState compressed) (coinbaseByteCount compressed)
    (coinbaseTail compressed)

def computeCoinbaseHash (compressed : Bytes) : B256 :=
  (sha256Digest (coinbaseFirstRound compressed).bytes).reverse

def combineLeftRight (left right : B256) : B256 :=
  (sha256Digest (sha256Digest (left.reverse.bytes ++ right.reverse.bytes)).bytes).reverse

def merkleStep (current : B256) (sibling : Bytes) : B256 :=
  combineLeftRight current (.ofBytes 32 sibling)

def rskip92MerkleRoot (coinbaseHash : B256) (proofBytes : Bytes) : B256 :=
  (chunksExact 32 proofBytes).foldl merkleStep coinbaseHash

/-- What the coinbase must carry: the tag and, from wasabi100 on, only the first
twenty bytes of the hash, the other twelve being fork-detection data. -/
def expectedTag (config : ChainConfig) (header : Header) : Bytes :=
  let rskHash := header.hashForMergedMining
  if config.activationHeights.wasabi100 ≤ header.number then
    rskTag ++ rskHash.bytes.take hashForMergedMiningPrefixLength
  else rskTag ++ rskHash.bytes

/-- The tag's position and what surrounds it. -/
def checkTag (config : ChainConfig) (header : Header) (tail : Bytes) : Verdict :=
  match findLastSubsequence tail (expectedTag config header) with
  | none => .error .bitcoinCoinbaseTagInvalid
  | some position =>
    rejectIf
      (maxRskTagPositionInTail ≤ position ∨ findLastSubsequence tail rskTag ≠ some position ∨
        tail.length < position + rskTag.length + blockHeaderHashSize ∨
        maxBytesAfterMergedMiningHash <
          tail.length - position - rskTag.length - blockHeaderHashSize)
      .bitcoinCoinbaseTagInvalid

/-- The branch from the coinbase to the Merkle root, which is compared in both byte orders. -/
def checkMerkleProof (config : ChainConfig) (header : Header) (btcHeader : BtcHeader)
  (compressed : Bytes) : Verdict :=
  match header.bitcoinMergedMiningMerkleProof with
  | none => .error .bitcoinMerkleProofDecodeError
  | some proof =>
    (rejectIf (config.activationHeights.iris300 ≤ header.number ∧
        maxMergedMiningMerkleProofLength < proof.length)
      (.merkleProofTooLarge maxMergedMiningMerkleProofLength proof.length)).bind fun _ =>
    (rejectIf (proof.length % 32 ≠ 0) .bitcoinMerkleProofDecodeError).bind fun _ =>
    let computedRoot := rskip92MerkleRoot (computeCoinbaseHash compressed) proof
    rejectIf (computedRoot ≠ btcHeader.merkleRoot ∧ computedRoot.reverse ≠ btcHeader.merkleRoot)
      .bitcoinMerkleProofInvalid

/-- `U256::MAX / difficulty`, the greatest Bitcoin hash that seals. -/
def powTarget (header : Header) : U256 := U256.max / header.difficulty

/-- **The merged-mining rule**. -/
def mergedMiningRule (config : ChainConfig) : HeaderValidator := fun header =>
  if header.number < config.activationHeights.orchid then .ok ()
  else
    match header.btcHeader with
    | .error e => .error e
    | .ok btcHeader =>
      (rejectIf (header.difficulty = 0) .difficultyZero).bind fun _ =>
      (rejectIf ((powTarget header).toNat < leNat btcHeader.blockHash.bytes)
        (.bitcoinPowInvalid btcHeader.blockHash (powTarget header))).bind fun _ =>
      match header.bitcoinMergedMiningCoinbaseTransaction with
      | none => .error .bitcoinCoinbaseDecodeError
      | some compressed =>
        (rejectIf (compressed.length < midstateSizeTrimmed + 1)
          .bitcoinCoinbaseDecodeError).bind fun _ =>
        (checkTag config header (coinbaseTail compressed)).bind fun _ =>
        checkMerkleProof config header btcHeader compressed

/-- With the wider window testnet has from hop400 on. -/
def bitcoinTimestampRule (config : ChainConfig) : HeaderValidator := fun header =>
  if header.number < config.activationHeights.iris300 then .ok ()
  else
    match header.btcHeader with
    | .error e => .error e
    | .ok btcHeader =>
      let btc := btcHeader.time.toUInt64
      let rsk := header.timestamp
      let max := if config.chainId = 31 ∧ config.activationHeights.hop400 ≤ header.number
        then 120 * 60 else 5 * 60
      rejectIf (max ≤ (if btc ≤ rsk then rsk - btc else btc - rsk))
        (.bitcoinTimestampTooFar rsk btc max)

/-- The tag check in terms of the tail: the expected bytes stand at `position`, the tag
occurs nowhere after it, and the distances are within bounds. -/
structure TagAt (config : ChainConfig) (header : Header) (tail : Bytes)
  (position : Nat) : Prop where
  here : window tail position (expectedTag config header).length = expectedTag config header
  last : ∀ j, position < j → j + rskTag.length ≤ tail.length →
    window tail j rskTag.length ≠ rskTag
  position_lt : position < 64
  hash_fits : position + 41 ≤ tail.length
  trailing_le : tail.length ≤ position + 41 + 128

lemma length_expectedTag_le (config : ChainConfig) (header : Header) :
  (expectedTag config header).length ≤ 41 := by
  unfold expectedTag
  split <;> simp [rskTag, hashForMergedMiningPrefixLength]

lemma length_rskTag : rskTag.length = 9 := rfl

lemma take_expectedTag (config : ChainConfig) (header : Header) :
  (expectedTag config header).take rskTag.length = rskTag := by
  unfold expectedTag
  split <;> simp

lemma le_length_expectedTag (config : ChainConfig) (header : Header) :
  rskTag.length ≤ (expectedTag config header).length := by
  unfold expectedTag
  split <;> simp

variable {config : ChainConfig} {header : Header} {tail : Bytes}

lemma window_rskTag_of_expectedTag {i : Nat}
  (h : window tail i (expectedTag config header).length = expectedTag config header) :
  window tail i rskTag.length = rskTag := by
  have hle := le_length_expectedTag config header
  calc window tail i rskTag.length
      = (window tail i (expectedTag config header).length).take rskTag.length := by
        rw [window, window, List.take_take, Nat.min_eq_left hle]
    _ = rskTag := by rw [h, take_expectedTag]

lemma checkTag_eq_ok_iff :
  checkTag config header tail = .ok () ↔ ∃ position, TagAt config header tail position := by
  constructor
  · intro h
    unfold checkTag at h
    rcases hfind : findLastSubsequence tail (expectedTag config header) with _ | position
    · simp [hfind] at h
    simp only [hfind, rejectIf_eq_ok, not_or, not_le, not_lt, ne_eq, not_not] at h
    obtain ⟨hpos, hlast, hfits, htrail⟩ := h
    rw [findLastSubsequence_eq_some_iff] at hfind hlast
    simp only [maxRskTagPositionInTail, blockHeaderHashSize, maxBytesAfterMergedMiningHash,
      length_rskTag] at hpos hfits htrail
    exact ⟨position, hfind.2.1, hlast.2.2, hpos, by omega, by omega⟩
  rintro ⟨position, ht⟩
  have hfits := ht.hash_fits
  have htrail := ht.trailing_le
  have hle := length_expectedTag_le config header
  have hge := le_length_expectedTag config header
  have hlast : findLastSubsequence tail rskTag = some position :=
    findLastSubsequence_eq_some_iff.mpr
      ⟨by rw [length_rskTag]; omega, window_rskTag_of_expectedTag ht.here, ht.last⟩
  have hfind : findLastSubsequence tail (expectedTag config header) = some position :=
    findLastSubsequence_eq_some_iff.mpr
      ⟨by omega, ht.here, fun j hj hj' hw =>
        ht.last j hj (by omega) (window_rskTag_of_expectedTag hw)⟩
  simp only [checkTag, hfind, hlast, rejectIf_eq_ok, not_or, not_le, not_lt, ne_eq, not_not]
  simp only [maxRskTagPositionInTail, blockHeaderHashSize, maxBytesAfterMergedMiningHash,
    length_rskTag]
  exact ⟨ht.position_lt, trivial, by omega, by omega⟩

structure MergedMined (config : ChainConfig) (header : Header) (btcHeader : BtcHeader)
  (compressed proof : Bytes) : Prop where
  btc : header.btcHeader = .ok btcHeader
  difficulty_ne_zero : header.difficulty ≠ 0
  work : leNat btcHeader.blockHash.bytes ≤ (powTarget header).toNat
  coinbase : header.bitcoinMergedMiningCoinbaseTransaction = some compressed
  coinbase_long : 41 ≤ compressed.length
  tag : ∃ position, TagAt config header (coinbaseTail compressed) position
  proof_eq : header.bitcoinMergedMiningMerkleProof = some proof
  proof_short : config.activationHeights.iris300 ≤ header.number → proof.length ≤ 960
  proof_whole : proof.length % 32 = 0
  root : rskip92MerkleRoot (computeCoinbaseHash compressed) proof = btcHeader.merkleRoot ∨
    (rskip92MerkleRoot (computeCoinbaseHash compressed) proof).reverse =
      btcHeader.merkleRoot

lemma checkMerkleProof_eq_ok_iff {btcHeader : BtcHeader} {compressed : Bytes} :
  checkMerkleProof config header btcHeader compressed = .ok () ↔
    ∃ proof, header.bitcoinMergedMiningMerkleProof = some proof ∧
      (config.activationHeights.iris300 ≤ header.number → proof.length ≤ 960) ∧
      proof.length % 32 = 0 ∧
      (rskip92MerkleRoot (computeCoinbaseHash compressed) proof = btcHeader.merkleRoot ∨
        (rskip92MerkleRoot (computeCoinbaseHash compressed) proof).reverse =
          btcHeader.merkleRoot) := by
  unfold checkMerkleProof
  rcases header.bitcoinMergedMiningMerkleProof with _ | proof
  · simp
  simp only [verdict_bind_eq_ok, rejectIf_eq_ok, not_and, not_lt, ne_eq, not_not,
    Option.some.injEq, exists_eq_left', or_iff_not_imp_left]
  rfl

/-- **Inversion of the merged-mining rule.** -/
theorem mergedMiningRule_eq_ok_iff (horchid : config.activationHeights.orchid ≤ header.number) :
  mergedMiningRule config header = .ok () ↔ ∃ btcHeader compressed proof,
      MergedMined config header btcHeader compressed proof := by
  unfold mergedMiningRule
  rw [if_neg (UInt64.not_lt.mpr horchid)]
  constructor
  · intro h
    split at h
    · simp at h
    rename_i btcHeader hbtc
    split at h
    · simp at h
    rename_i compressed hcoinbase
    simp only [verdict_bind_eq_ok, rejectIf_eq_ok, checkTag_eq_ok_iff,
      checkMerkleProof_eq_ok_iff, not_lt] at h
    obtain ⟨hzero, hwork, hlong, htag, proof, hproof, hshort, hwhole, hroot⟩ := h
    exact ⟨btcHeader, compressed, proof,
      ⟨hbtc, hzero, hwork, hcoinbase, hlong, htag, hproof, hshort, hwhole, hroot⟩⟩
  rintro ⟨btcHeader, compressed, proof, h⟩
  rw [h.btc, h.coinbase]
  simp only [verdict_bind_eq_ok, rejectIf_eq_ok, checkTag_eq_ok_iff,
    checkMerkleProof_eq_ok_iff, not_lt]
  exact ⟨h.difficulty_ne_zero, h.work, h.coinbase_long, h.tag, proof, h.proof_eq,
    h.proof_short, h.proof_whole, h.root⟩

end Rustock
