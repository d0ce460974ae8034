import Rustock.Core.Config
import Rustock.Lib.Keccak
import Rustock.Lib.Rlp

/-!
# Block headers

`Header` and the encoders its two hashes are taken over
(crates/core/src/types/header.rs, header_extension.rs):

- `Header.hash` names the block. From orchid on (RSKIP92) it leaves out the
  merged-mining merkle proof and coinbase, so headers that differ only there have
  one hash;
- `Header.hashForMergedMining` is what a Bitcoin coinbase commits to.

Both prefer the value cached when the header was decoded.
-/

namespace Rustock

open Lib
open Rlp (bytes nat wrap list)

abbrev Address := FixedBytes 20

instance : LawfulBEq Address := inferInstance
abbrev Bloom := FixedBytes 256

/-- What a versioned (RSKIP-351) header carries beyond a version-0 one. -/
structure HeaderVersionFields where
  version : UInt8
  edges : Option (List Int16)
  baseEvent : Option Bytes
deriving DecidableEq

structure Header where
  parentHash : B256
  ommersHash : B256
  beneficiary : Address
  stateRoot : B256
  transactionsRoot : B256
  receiptsRoot : B256
  logsBloom : Bloom
  extensionData : Option Bytes
  difficulty : U256
  number : UInt64
  gasLimit : U256
  gasUsed : UInt64
  timestamp : UInt64
  extraData : Bytes
  paidFees : U256
  minimumGasPrice : U256
  uncleCount : UInt64
  ummRoot : Option Bytes
  versionFields : Option HeaderVersionFields
  bitcoinMergedMiningHeader : Option Bytes
  bitcoinMergedMiningMerkleProof : Option Bytes
  bitcoinMergedMiningCoinbaseTransaction : Option Bytes
  cachedHash : Option B256
  cachedHashForMergedMining : Option B256
deriving DecidableEq

inductive BlockHeaderExtension where
  | v1 (logsBloom : Bytes) (edges : Option (List Int16))
  | v2 (logsBloom : Bytes) (edges : Option (List Int16)) (baseEvent : Option Bytes)

/-- Shorts packed little-endian as one element. -/
def shortsToRlp (shorts : List Int16) : Bytes :=
  bytes (shorts.flatMap fun s => leBytes 2 s.toUInt16.toNat)

def encodeByte (b : UInt8) : Bytes :=
  if b = 0 then [0x80] else bytes [b]

namespace BlockHeaderExtension

def version : BlockHeaderExtension → UInt8
  | v1 .. => 1
  | v2 .. => 2

def logsBloom : BlockHeaderExtension → Bytes
  | v1 bloom _ | v2 bloom _ _ => bloom

def edges : BlockHeaderExtension → Option (List Int16)
  | v1 _ e | v2 _ e _ => e

variable (x : BlockHeaderExtension)

def trailingElements : List Bytes :=
  (match x with
    | v1 .. => []
    | v2 _ _ baseEvent => [bytes (baseEvent.getD [])]) ++
  (x.edges.map shortsToRlp).toList

def encodedForHash : Bytes :=
  list (bytes (keccak256 x.logsBloom).bytes :: x.trailingElements)

def hash (x : BlockHeaderExtension) : B256 := keccak256 x.encodedForHash

def createExtensionData : Bytes :=
  list [encodeByte x.version, bytes x.hash.bytes]

end BlockHeaderExtension

/-- `BigInteger.toByteArray` of a non-negative value. -/
def javaSignedBytes (value : U256) : Bytes :=
  if value = 0 then [0]
  else
    match Rlp.trimmed 32 value.toNat with
    | [] => []
    | b :: rest => if b &&& 0x80 ≠ 0 then 0 :: b :: rest else b :: rest

namespace Header

variable (h : Header)

/-- The bloom slot as the hashed form carries it. -/
def compressedExtensionField : Option Bytes :=
  h.versionFields.bind fun v =>
    let bloom := h.logsBloom.bytes
    let extension : Option BlockHeaderExtension :=
      if v.version = 1 then some (.v1 bloom v.edges)
      else if v.version = 2 then some (.v2 bloom v.edges (some (v.baseEvent.getD [])))
      else none
    extension.map fun x => bytes x.createExtensionData

def bloomField (compressed : Bool) : Bytes :=
  match compressed, h.extensionData, h.versionFields with
  | _, some ext, _ => ext
  | true, none, some _ => h.compressedExtensionField.getD (bytes h.logsBloom.bytes)
  | _, _, _ => bytes h.logsBloom.bytes

def encodeBaseFields (compressed : Bool) : Bytes :=
  bytes h.parentHash.bytes ++ bytes h.ommersHash.bytes ++
  bytes h.beneficiary.bytes ++ bytes h.stateRoot.bytes ++
  bytes h.transactionsRoot.bytes ++ bytes h.receiptsRoot.bytes ++
  h.bloomField compressed ++ bytes (javaSignedBytes h.difficulty) ++
  nat 8 h.number.toNat ++ bytes (javaSignedBytes h.gasLimit) ++
  nat 8 h.gasUsed.toNat ++ nat 8 h.timestamp.toNat ++ bytes h.extraData ++
  nat 32 h.paidFees.toNat ++ bytes (javaSignedBytes h.minimumGasPrice) ++
  nat 8 h.uncleCount.toNat

/-- Version, edges and base event follow `ummRoot` on the wire only. -/
def encodeVersionFields : Bytes :=
  match h.versionFields with
  | none => []
  | some v =>
    v.version :: ((v.edges.map shortsToRlp).getD [] ++ (v.baseEvent.map bytes).getD [])

/-- The proof and coinbase go out as empty elements if need be. -/
def encodeMiningFields (withMerkleProofAndCoinbase : Bool) : Bytes :=
  match h.bitcoinMergedMiningHeader with
  | none => []
  | some btc =>
    bytes btc ++
      if withMerkleProofAndCoinbase then
        bytes (h.bitcoinMergedMiningMerkleProof.getD []) ++
          bytes (h.bitcoinMergedMiningCoinbaseTransaction.getD [])
      else []

def encodePayload (withMerkleProofAndCoinbase compressed : Bool) : Bytes :=
  h.encodeBaseFields compressed ++ (h.ummRoot.map bytes).getD [] ++
  (if compressed then [] else h.encodeVersionFields) ++
  h.encodeMiningFields withMerkleProofAndCoinbase

/-- The wire form. -/
def encode : Bytes := wrap (h.encodePayload true false)

/-- Under the process-wide activation heights. -/
def rskip92Active (current : ActivationHeights) (h : Header) : Bool :=
  current.orchid ≤ h.number

def hash (current : ActivationHeights) (h : Header) : B256 :=
  h.cachedHash.getD
    (keccak256 (wrap (h.encodePayload (!h.rskip92Active current) true)))

def hashForMergedMining : B256 :=
  h.cachedHashForMergedMining.getD <|
    let payload := h.encodeBaseFields true ++ (h.ummRoot.map bytes).getD []
    let baseHash := keccak256 (wrap payload)
    match h.ummRoot with
    | some (b :: umm) => keccak256 (baseHash.bytes.take 20 ++ b :: umm)
    | _ => baseHash

end Header

end Rustock
