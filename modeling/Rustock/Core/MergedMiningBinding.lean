import Rustock.Core.MergedMining

/-!
# What a merged-mining seal binds

A Bitcoin header is work for *one* RSK block only if the coinbase hash under its Merkle
root fixes the RSK hash the coinbase carries. The rule reads the tag from the tail of
the compressed coinbase, while `sha256FromMidstate` compresses only the whole 64-byte
blocks of the padded tail, and the byte count that decides how much that is comes from
the header. `seal_binds_iff_covered`: a restriction on layouts makes seals binding **exactly**
when it leaves only those whose tag lies in the compressed part.
-/

namespace Rustock

open Lib List FixedBytes BtcHeader ChainConfig

structure CoinbaseLayout where
  byteCount : UInt64
  tailLen : Nat
  tagPos : Nat

namespace CoinbaseLayout

def Admissible (l : CoinbaseLayout) : Prop :=
  l.tagPos < 64 ∧ l.tagPos + 41 ≤ l.tailLen ∧ l.tailLen ≤ l.tagPos + 41 + 128

def Covered (l : CoinbaseLayout) : Prop :=
  l.tagPos + 29 ≤ hashedLen l.byteCount.toNat l.tailLen

instance (l : CoinbaseLayout) : Decidable l.Covered := Nat.decLe _ _

lemma Admissible.covered_of_aligned {l : CoinbaseLayout} (hadm : l.Admissible)
  (h : l.byteCount.toNat % 64 = 0) : l.Covered := by
  obtain ⟨-, hfits, -⟩ := hadm
  rw [Covered, hashedLen_of_aligned h, paddedLen]
  omega

end CoinbaseLayout

def Header.coinbaseLayout (h : Header) : Option CoinbaseLayout :=
  h.bitcoinMergedMiningCoinbaseTransaction.bind fun compressed =>
    (findLastSubsequence (coinbaseTail compressed) rskTag).map fun position =>
      ⟨coinbaseByteCount compressed, (coinbaseTail compressed).length, position⟩

def coinbaseCalls (compressed : Bytes) : List (Sha256State × Bytes) :=
  foldCalls sha256Compress (coinbaseState compressed)
    (chunksExact 64 (sha256Padded (coinbaseByteCount compressed) (coinbaseTail compressed))) ++
  foldCalls sha256Compress .initial
    (chunksExact 64 (sha256Padded 0 (coinbaseFirstRound compressed).bytes))

namespace Header

def coinbase (h : Header) : Bytes := h.bitcoinMergedMiningCoinbaseTransaction.getD []

def merkleProof (h : Header) : Bytes := h.bitcoinMergedMiningMerkleProof.getD []

def computedRoot (h : Header) : B256 :=
  rskip92MerkleRoot (computeCoinbaseHash h.coinbase) h.merkleProof

end Header

open Header

/-- No collision between the hashes two headers' seals are checked with: none of the
compression function, none of the Merkle nodes, and, the rule accepting a root in
either byte order, no root that is the other's reversal. -/
structure SealCollisionFree (h₁ h₂ : Header) : Prop where
  compress : CollisionFreeBetween (fun p : Sha256State × Bytes => sha256Compress p.1 p.2)
    (coinbaseCalls h₁.coinbase) (coinbaseCalls h₂.coinbase)
  node : CollisionFreeBetween (fun p : B256 × Bytes => merkleStep p.1 p.2)
    (foldCalls merkleStep (computeCoinbaseHash h₁.coinbase) (chunksExact 32 h₁.merkleProof))
    (foldCalls merkleStep (computeCoinbaseHash h₂.coinbase) (chunksExact 32 h₂.merkleProof))
  root : h₁.computedRoot = h₂.computedRoot.reverse → h₁.computedRoot = h₂.computedRoot

variable {h₁ h₂ : Header}

lemma SealCollisionFree.of_eq (hcalls : coinbaseCalls h₁.coinbase = coinbaseCalls h₂.coinbase)
  (hleaf : computeCoinbaseHash h₁.coinbase = computeCoinbaseHash h₂.coinbase)
  (hproof : h₁.merkleProof = h₂.merkleProof) : SealCollisionFree h₁ h₂ where
  compress := by rw [hcalls]; exact .refl _ _
  node := by rw [hleaf, hproof]; exact .refl _ _
  root _ := by rw [computedRoot, computedRoot, hleaf, hproof]

lemma SealCollisionFree.symm (h : SealCollisionFree h₁ h₂) : SealCollisionFree h₂ h₁ where
  compress := h.compress.symm
  node := h.node.symm
  root hrev := (h.root (by rw [hrev, FixedBytes.reverse_reverse])).symm

lemma digest_input_eq {x y : B256}
  (hcf : CollisionFreeBetween (fun p : Sha256State × Bytes => sha256Compress p.1 p.2)
    (foldCalls sha256Compress .initial (chunksExact 64 (sha256Padded 0 x.bytes)))
    (foldCalls sha256Compress .initial (chunksExact 64 (sha256Padded 0 y.bytes))))
  (h : sha256Digest x.bytes = sha256Digest y.bytes) : x = y := by
  obtain ⟨hblocks, -⟩ := foldl_eq_of_length_eq hcf (Sha256State.toBytes_injective h) (by simp)
  have hhashed : ∀ z : B256, (chunksExact 64 (sha256Padded 0 z.bytes)).flatten.take 32 =
      z.bytes := by
    intro z
    rw [flatten_sha256Blocks, sha256Hashed, hashedLen_of_aligned (by decide), take_take,
      sha256Padded_eq, Nat.min_eq_left (by simp [paddedLen]; omega), append_assoc,
      take_append_of_le_length (by simp)]
    exact take_of_length_le (by simp)
  ext1
  rw [← hhashed x, ← hhashed y, hblocks]

lemma length_secondRoundCalls (x y : B256) :
  (foldCalls sha256Compress .initial (chunksExact 64 (sha256Padded 0 x.bytes))).length =
    (foldCalls sha256Compress .initial (chunksExact 64 (sha256Padded 0 y.bytes))).length := by
  simp [length_foldCalls]

lemma hashed_suffix_of_coinbaseHash_eq {c₁ c₂ : Bytes}
  (hcf : CollisionFreeBetween (fun p : Sha256State × Bytes => sha256Compress p.1 p.2)
    (coinbaseCalls c₁) (coinbaseCalls c₂)) (h : computeCoinbaseHash c₁ = computeCoinbaseHash c₂)
  (hle : hashedLen (coinbaseByteCount c₁).toNat (coinbaseTail c₁).length ≤
    hashedLen (coinbaseByteCount c₂).toNat (coinbaseTail c₂).length) :
  ∃ pre : List Bytes, sha256Hashed (coinbaseByteCount c₂) (coinbaseTail c₂) =
    pre.flatten ++ sha256Hashed (coinbaseByteCount c₁) (coinbaseTail c₁) := by
  obtain ⟨hfirst, hsecond⟩ := hcf.of_append (length_secondRoundCalls _ _)
  have hround := digest_input_eq hsecond (FixedBytes.reverse_injective h)
  obtain ⟨pre, hpre, -⟩ := foldl_suffix hfirst (Sha256State.toBytes_injective hround)
    (by simp only [length_chunksExact, length_sha256Padded]; unfold hashedLen at hle; omega)
  refine ⟨pre, ?_⟩
  rw [← flatten_sha256Blocks, ← flatten_sha256Blocks, hpre, flatten_append]

variable {c : UInt64} {tail : Bytes} {i : Nat}

lemma tag_in_tail (h : window (sha256Padded c tail) i rskTag.length = rskTag) :
  i + rskTag.length ≤ tail.length := by
  by_contra hlt
  have hin := add_le_length_of_window_eq h rfl (by decide)
  rw [length_sha256Padded, paddedLen, length_rskTag] at hin
  rw [length_rskTag] at hlt
  have hget : ∀ k, k < 9 → (sha256Padded c tail)[i + k]? = rskTag[k]? := by
    intro k hk
    rw [← getElem?_window hk]
    exact congrArg (fun w : Bytes => w[k]?) h
  rw [sha256Padded_eq, append_assoc] at hget
  by_cases hi : i ≤ tail.length
  · -- The window straddles the `0x80` that ends the tail.
    have hk := hget (tail.length - i) (by omega)
    rw [show i + (tail.length - i) = tail.length by omega,
      getElem?_append_right (le_refl _)] at hk
    simp only [Nat.sub_self, cons_append, getElem?_cons_zero] at hk
    have hno : ∀ k < 9, rskTag[k]? ≠ some 0x80 := by decide
    exact hno _ (by omega) hk.symm
  -- The window starts among the zeros: eight length bytes cannot hold nine.
  have hk := hget 0 (by decide)
  rw [Nat.add_zero, getElem?_append_right (by omega), cons_append,
    getElem?_cons, if_neg (by omega), getElem?_append_left (by simp; omega),
    getElem?_replicate, if_pos (by omega)] at hk
  exact absurd hk (by decide)

lemma tag_of_hashed (h : window (sha256Hashed c tail) i rskTag.length = rskTag) :
  i + rskTag.length ≤ tail.length ∧ window tail i rskTag.length = rskTag := by
  have hin := add_le_length_of_window_eq h rfl (by decide)
  have hpadded : window (sha256Padded c tail) i rskTag.length = rskTag :=
    (window_take (le_trans hin (length_take_le _ _))).symm.trans h
  have hle := tag_in_tail hpadded
  rw [sha256Padded_eq, append_assoc, window_append_left hle] at hpadded
  exact ⟨hle, hpadded⟩

lemma window_hashed {n : Nat} (htail : i + n ≤ tail.length)
  (hhashed : i + n ≤ hashedLen c.toNat tail.length) :
  window (sha256Hashed c tail) i n = window tail i n := by
  rw [sha256Hashed, window_take hhashed, sha256Padded_eq, append_assoc, window_append_left htail]

variable {config : ChainConfig} {h : Header} {position : Nat}

lemma coinbaseLayout_of_tagAt {compressed : Bytes}
  (hc : h.bitcoinMergedMiningCoinbaseTransaction = some compressed)
  (ht : TagAt config h (coinbaseTail compressed) position) : h.coinbaseLayout =
    some ⟨coinbaseByteCount compressed, (coinbaseTail compressed).length, position⟩ := by
  have hfits := ht.hash_fits
  have hlast : findLastSubsequence (coinbaseTail compressed) rskTag = some position :=
    findLastSubsequence_eq_some_iff.mpr
      ⟨by rw [length_rskTag]; omega, window_rskTag_of_expectedTag ht.here, ht.last⟩
  simp [coinbaseLayout, hc, hlast]

lemma admissible_of_tagAt (ht : TagAt config h tail position) :
  CoinbaseLayout.Admissible ⟨c, tail.length, position⟩ :=
  ⟨ht.position_lt, ht.hash_fits, ht.trailing_le⟩

def Header.sealPrefix (h : Header) : Bytes :=
  h.hashForMergedMining.bytes.take hashForMergedMiningPrefixLength

lemma expectedTag_of_wasabi (hw : config.activationHeights.wasabi100 ≤ h.number) :
  expectedTag config h = rskTag ++ h.sealPrefix := if_pos hw

lemma length_sealPrefix (h : Header) : h.sealPrefix.length = 20 := by
  simp [sealPrefix, hashForMergedMiningPrefixLength]

lemma window_expectedTag_hashed {p : Nat} (hw : config.activationHeights.wasabi100 ≤ h.number)
  (ht : TagAt config h tail p) (hcov : p + 29 ≤ hashedLen c.toNat tail.length) :
  window (sha256Hashed c tail) p 29 = rskTag ++ h.sealPrefix := by
  have hfits := ht.hash_fits
  have hhere := ht.here
  rw [expectedTag_of_wasabi hw] at hhere
  rw [window_hashed (by omega) hcov]
  simpa [length_sealPrefix, length_rskTag] using hhere

lemma position_le_of_suffix {t₁ t₂ : Bytes} {c₁ c₂ : UInt64} {p₁ p₂ : Nat} {pre : List Bytes}
  (ht₁ : TagAt config h₁ t₁ p₁) (ht₂ : TagAt config h₂ t₂ p₂)
  (hcov : p₁ + 29 ≤ hashedLen c₁.toNat t₁.length)
  (hpre : sha256Hashed c₂ t₂ = pre.flatten ++ sha256Hashed c₁ t₁) :
  pre.flatten.length + p₁ ≤ p₂ := by
  have hfits := ht₁.hash_fits
  have htag₁ : window (sha256Hashed c₁ t₁) p₁ rskTag.length = rskTag := by
    rw [window_hashed (by rw [length_rskTag]; omega) (by rw [length_rskTag]; omega)]
    exact window_rskTag_of_expectedTag ht₁.here
  have htag₂ : window (sha256Hashed c₂ t₂) (pre.flatten.length + p₁) rskTag.length = rskTag := by
    rw [hpre, window_append_right, htag₁]
  obtain ⟨hle, hwin⟩ := tag_of_hashed htag₂
  by_contra hlt
  exact ht₂.last _ (by omega) hle hwin

/-- **Covered seals bind.** Two headers at or above wasabi100 that the rule accepts, on
one Bitcoin header and with Merkle branches of one length, carry the same twenty bytes
of hash, provided both layouts are covered and their hashes do not collide. -/
theorem prefix_eq_of_covered {btc : BtcHeader} {c₁ c₂ proof₁ proof₂ : Bytes} {p₁ p₂ : Nat}
  (hw₁ : config.activationHeights.wasabi100 ≤ h₁.number)
  (hw₂ : config.activationHeights.wasabi100 ≤ h₂.number)
  (hm₁ : MergedMined config h₁ btc c₁ proof₁) (hm₂ : MergedMined config h₂ btc c₂ proof₂)
  (ht₁ : TagAt config h₁ (coinbaseTail c₁) p₁) (ht₂ : TagAt config h₂ (coinbaseTail c₂) p₂)
  (hlen : proof₁.length = proof₂.length) (hcf : SealCollisionFree h₁ h₂)
  (hcov₁ : p₁ + 29 ≤ hashedLen (coinbaseByteCount c₁).toNat (coinbaseTail c₁).length)
  (hcov₂ : p₂ + 29 ≤ hashedLen (coinbaseByteCount c₂).toNat (coinbaseTail c₂).length)
  (hle : hashedLen (coinbaseByteCount c₁).toNat (coinbaseTail c₁).length ≤
    hashedLen (coinbaseByteCount c₂).toNat (coinbaseTail c₂).length) :
  h₁.sealPrefix = h₂.sealPrefix := by
  obtain ⟨hcompress, hnode, hroot⟩ := hcf
  simp only [computedRoot, coinbase, merkleProof, hm₁.coinbase,
    hm₂.coinbase, hm₁.proof_eq, hm₂.proof_eq, Option.getD_some] at hcompress hnode hroot
  -- Both computed roots are the Bitcoin header's, up to byte order.
  have hroots : rskip92MerkleRoot (computeCoinbaseHash c₁) proof₁ =
      rskip92MerkleRoot (computeCoinbaseHash c₂) proof₂ := by
    rcases hm₁.root with h1 | h1 <;> rcases hm₂.root with h2 | h2
    · rw [h1, h2]
    · exact hroot (by rw [h1, h2])
    · refine hroot ?_
      rw [h2, ← h1, FixedBytes.reverse_reverse]
    · exact FixedBytes.reverse_injective (h1.trans h2.symm)
  obtain ⟨-, hleaf⟩ := foldl_eq_of_length_eq hnode hroots (by simp [hlen])
  obtain ⟨pre, hpre⟩ := hashed_suffix_of_coinbaseHash_eq hcompress hleaf hle
  -- The first tag shows up in the second tail, within its first 64 bytes: no block
  -- stands in front of it, and the compressed bytes are the same.
  have hp := position_le_of_suffix ht₁ ht₂ hcov₁ hpre
  have hnil : pre.flatten = [] := by
    have hlens := congrArg List.length hpre
    rw [length_append, length_sha256Hashed, length_sha256Hashed] at hlens
    have hpos := ht₂.position_lt
    apply eq_nil_of_length_eq_zero
    unfold hashedLen at hlens
    omega
  rw [hnil, nil_append] at hpre
  have hback : sha256Hashed (coinbaseByteCount c₁) (coinbaseTail c₁) =
      ([] : List Bytes).flatten ++ sha256Hashed (coinbaseByteCount c₂) (coinbaseTail c₂) := by
    simp [hpre]
  have hp' := position_le_of_suffix ht₂ ht₁ hcov₂ hback
  obtain rfl : p₁ = p₂ := by simp [hnil] at hp hp'; omega
  have hwin₁ := window_expectedTag_hashed hw₁ ht₁ hcov₁
  have hwin₂ := window_expectedTag_hashed hw₂ ht₂ hcov₂
  rw [hpre, hwin₁] at hwin₂
  exact append_cancel_left hwin₂

/-! ## Uncovered layouts do not bind

For a layout whose hash bytes are not all compressed, two seals that differ only in the
last of the twenty bytes are compressed to the same coinbase hash. -/

def Header.blank : Header where
  parentHash := .zero 32
  ommersHash := .zero 32
  beneficiary := .zero 20
  stateRoot := .zero 32
  transactionsRoot := .zero 32
  receiptsRoot := .zero 32
  logsBloom := .zero 256
  extensionData := none
  difficulty := 0
  number := 0
  gasLimit := 0
  gasUsed := 0
  timestamp := 0
  extraData := []
  paidFees := 0
  minimumGasPrice := 0
  uncleCount := 0
  ummRoot := none
  versionFields := none
  bitcoinMergedMiningHeader := none
  bitcoinMergedMiningMerkleProof := none
  bitcoinMergedMiningCoinbaseTransaction := none
  cachedHash := none
  cachedHashForMergedMining := none

def compressedCoinbase (byteCount : UInt64) (state tail : Bytes) : Bytes :=
  beBytes 8 byteCount.toNat ++ state ++ tail

def btcHeaderWithRoot (root : B256) : Bytes :=
  List.replicate 36 0 ++ root.bytes ++ List.replicate 12 0

/-- `h` sealed by a Bitcoin block whose only transaction is `compressed`. -/
def Header.sealedBy (h : Header) (compressed : Bytes) : Header :=
  { h with
    bitcoinMergedMiningHeader := some (btcHeaderWithRoot (computeCoinbaseHash compressed))
    bitcoinMergedMiningMerkleProof := some []
    bitcoinMergedMiningCoinbaseTransaction := some compressed }

section Sealed

variable {c : UInt64} {state tail : Bytes}

lemma take_compressedCoinbase : (compressedCoinbase c state tail).take 8 = beBytes 8 c.toNat := by
  simp [compressedCoinbase]

lemma coinbaseByteCount_compressed : coinbaseByteCount (compressedCoinbase c state tail) = c := by
  rw [coinbaseByteCount, take_compressedCoinbase, beNat_beBytes,
    Nat.mod_eq_of_lt (show c.toNat < 256 ^ 8 from c.toNat_lt), UInt64.ofNat_toNat]

lemma coinbaseTail_compressed (hs : state.length = 32) :
  coinbaseTail (compressedCoinbase c state tail) = tail := by
  have : midstateSizeTrimmed = (beBytes 8 c.toNat ++ state).length := by
    simp [midstateSizeTrimmed, hs]
  rw [coinbaseTail, compressedCoinbase, this, drop_left]

lemma btcHeaderWithRoot_decodes (root : B256) :
  ∃ btc, consensusDecode (btcHeaderWithRoot root) = .ok btc ∧
    btc.merkleRoot = root ∧ btc.time = 0 := by
  have hlen : (btcHeaderWithRoot root).length = 80 := by simp [btcHeaderWithRoot]
  refine ⟨⟨⟨(btcHeaderWithRoot root).take 80, by simp [hlen]⟩⟩, ?_, ?_, ?_⟩
  · simp [consensusDecode, hlen]
  · have hwin : window (btcHeaderWithRoot root) 36 32 = root.bytes := by
      rw [btcHeaderWithRoot, append_assoc]
      exact window_middle (by simp) root.length_eq
    ext1
    rw [merkleRoot]
    simp only [take_of_length_le (Nat.le_of_eq hlen), hwin]
    exact ofBytes_bytes_of_length root.length_eq
  have hwin : window (btcHeaderWithRoot root) 68 4 = List.replicate 4 0 := by
    rw [btcHeaderWithRoot, show List.replicate 12 (0 : UInt8) =
      List.replicate 4 0 ++ List.replicate 8 0 from rfl]
    exact window_middle (by simp) (by simp)
  rw [time]
  simp only [take_of_length_le (Nat.le_of_eq hlen), hwin]
  decide

lemma sealedBy_accepted {config : ChainConfig} {h : Header} {p : Nat}
  (hs : state.length = 32) (hdiff : h.difficulty = 1)
  (horchid : config.activationHeights.orchid ≤ h.number)
  (htag : TagAt config (h.sealedBy (compressedCoinbase c state tail)) tail p) :
  mergedMiningRule config (h.sealedBy (compressedCoinbase c state tail)) = .ok () := by
  obtain ⟨btc, hbtc, hroot, -⟩ :=
    btcHeaderWithRoot_decodes (computeCoinbaseHash (compressedCoinbase c state tail))
  have horchid' : config.activationHeights.orchid ≤
      (h.sealedBy (compressedCoinbase c state tail)).number := horchid
  refine (mergedMiningRule_eq_ok_iff horchid').mpr
    ⟨btc, compressedCoinbase c state tail, [], ?_⟩
  refine ⟨by simpa [btcHeader, sealedBy] using hbtc, ?_, ?_, rfl, ?_, ?_, rfl,
    by simp, by simp, ?_⟩
  · show h.difficulty ≠ 0
    rw [hdiff]
    decide
  · -- Difficulty one leaves every hash below the target.
    have hlt := leNat_lt btc.blockHash.bytes
    have htarget : (powTarget (h.sealedBy (compressedCoinbase c state tail))).toNat =
        2 ^ 256 - 1 := by
      show (U256.max / h.difficulty).toNat = 2 ^ 256 - 1
      rw [hdiff]
      decide
    rw [length_bytes] at hlt
    omega
  · have := htag.hash_fits
    simp [compressedCoinbase, hs]
    omega
  · exact ⟨p, by rwa [coinbaseTail_compressed hs]⟩
  · exact Or.inl (by rw [hroot]; rfl)

lemma sealedBy_ownTag_accepted {config : ChainConfig} {h : Header}
  (hs : state.length = 32) (hdiff : h.difficulty = 1)
  (horchid : config.activationHeights.orchid ≤ h.number)
  (hw : config.activationHeights.wasabi100 ≤ h.number)
  (hno : (0x52 : UInt8) ∉ h.hashForMergedMining.bytes) :
  mergedMiningRule config (h.sealedBy (compressedCoinbase c state
    (rskTag ++ h.hashForMergedMining.bytes))) = .ok () := by
  have hlen : (rskTag ++ h.hashForMergedMining.bytes).length = 41 := by simp [length_rskTag]
  refine sealedBy_accepted (p := 0) hs hdiff horchid
    ⟨?_, ?_, by decide, by rw [hlen], by rw [hlen]; decide⟩
  · rw [expectedTag_of_wasabi (show config.activationHeights.wasabi100 ≤
      (h.sealedBy _).number from hw)]
    show window _ 0 (rskTag ++ h.sealPrefix).length = rskTag ++ h.sealPrefix
    rw [sealPrefix]
    nth_rewrite 1 [← take_append_drop hashForMergedMiningPrefixLength h.hashForMergedMining.bytes]
    rw [← append_assoc, window_append_left (by simp)]
    exact take_of_length_le (by simp)
  intro j hj _ hwin
  have hfirst := congrArg (fun w : Bytes => w[0]?) hwin
  rw [getElem?_window (by decide), Nat.add_zero] at hfirst
  obtain ⟨k, rfl⟩ : ∃ k, j = k + 1 := ⟨j - 1, by omega⟩
  have hget : (rskTag.drop 1 ++ h.hashForMergedMining.bytes)[k]? = some 0x52 := hfirst
  rcases mem_append.mp (mem_of_getElem? hget) with hmem | hmem
  · exact absurd hmem (by decide)
  · exact hno hmem

end Sealed

def layoutTail (l : CoinbaseLayout) (hashPrefix : Bytes) : Bytes :=
  List.replicate l.tagPos 0 ++ (rskTag ++ hashPrefix ++
    List.replicate (l.tailLen - l.tagPos - 29) 0)

/-- Nineteen zero bytes and `b`. -/
def lastByte (b : UInt8) : Bytes := List.replicate 19 0 ++ [b]

/-- A header of difficulty one whose merged-mining hash starts with `lastByte b`, sealed
with layout `l`. -/
def layoutHeader (l : CoinbaseLayout) (b : UInt8) : Header :=
  { blank with
    difficulty := 1
    number := 0xFFFFFFFFFFFFFFFF
    cachedHashForMergedMining := some (.ofBytes 32 (lastByte b)) }.sealedBy
      (compressedCoinbase l.byteCount (List.replicate 32 0) (layoutTail l (lastByte b)))

lemma layoutHeader_sealPrefix (l : CoinbaseLayout) (b : UInt8) :
  (layoutHeader l b).sealPrefix = lastByte b := by
  show ((ofBytes 32 (lastByte b)).bytes).take 20 = lastByte b
  simp [ofBytes, lastByte]

variable {l : CoinbaseLayout}

lemma length_layoutTail (hadm : l.Admissible) (b : UInt8) :
  (layoutTail l (lastByte b)).length = l.tailLen := by
  obtain ⟨-, hfits, -⟩ := hadm
  simp [layoutTail, lastByte, rskTag]
  omega

variable {b : UInt8}

lemma layoutTail_getElem? (hb : b ≠ 0x52) {j : Nat} (hj : l.tagPos < j) :
  (layoutTail l (lastByte b))[j]? ≠ some 0x52 := by
  obtain ⟨k, rfl⟩ : ∃ k, j = l.tagPos + (k + 1) := ⟨j - l.tagPos - 1, by omega⟩
  rw [layoutTail, getElem?_append_right (by simp)]
  simp only [length_replicate, Nat.add_sub_cancel_left]
  intro h
  have hmem : (0x52 : UInt8) ∈ (rskTag.drop 1 ++ lastByte b) ++
      List.replicate (l.tailLen - l.tagPos - 29) 0 := by
    apply mem_of_getElem? (i := k)
    rw [← h]
    rfl
  simp only [lastByte, mem_append, mem_replicate, mem_singleton] at hmem
  rcases hmem with (hmem | hmem | hmem) | hmem
  · exact absurd hmem (by decide)
  · exact absurd hmem.2 (by decide)
  · exact hb hmem.symm
  · exact absurd hmem.2 (by decide)

lemma layoutHeader_tagAt (hadm : l.Admissible) (hb : b ≠ 0x52) :
  TagAt config (layoutHeader l b) (layoutTail l (lastByte b)) l.tagPos := by
  obtain ⟨hpos, hfits, htrail⟩ := id hadm
  have hw : config.activationHeights.wasabi100 ≤ (layoutHeader l b).number := by
    show config.activationHeights.wasabi100 ≤ 0xFFFFFFFFFFFFFFFF
    rw [UInt64.le_iff_toNat_le]
    have := config.activationHeights.wasabi100.toNat_lt
    show _ ≤ 18446744073709551615
    omega
  refine ⟨?_, ?_, hpos, by rwa [length_layoutTail hadm], by rwa [length_layoutTail hadm]⟩
  · rw [expectedTag_of_wasabi hw, layoutHeader_sealPrefix]
    exact window_middle (by simp) rfl
  intro j hj hj' hwin
  apply layoutTail_getElem? hb hj
  have hfirst := congrArg (fun w : Bytes => w[0]?) hwin
  rwa [getElem?_window (by decide)] at hfirst

lemma layoutTail_hashed_eq (hadm : l.Admissible) (hcov : ¬ l.Covered) (a b : UInt8) :
  sha256Hashed l.byteCount (layoutTail l (lastByte a)) =
    sha256Hashed l.byteCount (layoutTail l (lastByte b)) := by
  have hlen := fun x => length_layoutTail hadm x
  have hle : hashedLen l.byteCount.toNat l.tailLen ≤ l.tagPos + 28 := by
    rw [CoinbaseLayout.Covered] at hcov
    omega
  -- Both tails start with the tag and nineteen zeros.
  have hfront : ∀ x, (sha256Padded l.byteCount (layoutTail l (lastByte x))).take
      (l.tagPos + 28) = List.replicate l.tagPos 0 ++ (rskTag ++ List.replicate 19 0) := by
    intro x
    have hsplit : layoutTail l (lastByte x) =
        (List.replicate l.tagPos 0 ++ (rskTag ++ List.replicate 19 0)) ++
          (x :: List.replicate (l.tailLen - l.tagPos - 29) 0) := by
      simp [layoutTail, lastByte]
    rw [sha256Padded_eq, hsplit, append_assoc, append_assoc]
    exact take_left' (by simp [rskTag])
  rw [sha256Hashed, sha256Hashed, hlen, hlen, ← Nat.min_eq_left hle, ← take_take,
    ← take_take, hfront, hfront]

lemma coinbaseCalls_eq_of_hashed {state s t : Bytes} (hs : state.length = 32)
  (hlen : s.length = t.length) (h : sha256Hashed c s = sha256Hashed c t) :
  coinbaseFirstRound (compressedCoinbase c state s) =
      coinbaseFirstRound (compressedCoinbase c state t) ∧
    coinbaseCalls (compressedCoinbase c state s) =
      coinbaseCalls (compressedCoinbase c state t) := by
  have hstate : ∀ x, coinbaseState (compressedCoinbase c state x) = .ofBytes state := by
    intro x
    rw [coinbaseState, compressedCoinbase, append_assoc, window_middle (by simp) hs]
  have hblocks : chunksExact 64 (sha256Padded c s) = chunksExact 64 (sha256Padded c t) := by
    rw [chunksExact, chunksExact, length_sha256Padded, length_sha256Padded, hlen]
    apply blocks_congr
    rw [sha256Hashed, sha256Hashed, hlen] at h
    exact h
  have hround : coinbaseFirstRound (compressedCoinbase c state s) =
      coinbaseFirstRound (compressedCoinbase c state t) := by
    simp only [coinbaseFirstRound, sha256FromMidstate, hstate, coinbaseByteCount_compressed,
      coinbaseTail_compressed hs, hblocks]
  refine ⟨hround, ?_⟩
  simp only [coinbaseCalls, hround, hstate, coinbaseByteCount_compressed,
    coinbaseTail_compressed hs, hblocks]

lemma layoutHeader_layout (hadm : l.Admissible) (hb : b ≠ 0x52) :
  (layoutHeader l b).coinbaseLayout = some l := by
  have htag : TagAt .mainnet (layoutHeader l b) (coinbaseTail (compressedCoinbase l.byteCount
      (List.replicate 32 0) (layoutTail l (lastByte b)))) l.tagPos := by
    rw [coinbaseTail_compressed (by simp)]
    exact layoutHeader_tagAt hadm hb
  rw [coinbaseLayout_of_tagAt rfl htag, coinbaseByteCount_compressed,
    coinbaseTail_compressed (by simp), length_layoutTail hadm]

@[simp] lemma layoutHeader_coinbase (l : CoinbaseLayout) (b : UInt8) : (layoutHeader l b).coinbase =
    compressedCoinbase l.byteCount (List.replicate 32 0) (layoutTail l (lastByte b)) := rfl

@[simp] lemma layoutHeader_merkleProof (l : CoinbaseLayout) (b : UInt8) :
  (layoutHeader l b).merkleProof = [] := rfl

lemma layoutHeader_btcHeader (l : CoinbaseLayout) (b : UInt8) :
  (layoutHeader l b).btcHeader = consensusDecode
    (btcHeaderWithRoot (computeCoinbaseHash (layoutHeader l b).coinbase)) := rfl

lemma le_layoutHeader_number (a : UInt64) (l : CoinbaseLayout) (b : UInt8) :
  a ≤ (layoutHeader l b).number := by
  show a ≤ 0xFFFFFFFFFFFFFFFF
  rw [UInt64.le_iff_toNat_le]
  exact Nat.le_of_lt_succ a.toNat_lt

lemma layoutHeader_collisionFree (hadm : l.Admissible) (hcov : ¬ l.Covered) (a b : UInt8) :
  (layoutHeader l a).btcHeader = (layoutHeader l b).btcHeader ∧
    SealCollisionFree (layoutHeader l a) (layoutHeader l b) := by
  obtain ⟨hround, hcalls⟩ := coinbaseCalls_eq_of_hashed (c := l.byteCount)
    (length_replicate : (List.replicate 32 (0 : UInt8)).length = 32)
    ((length_layoutTail hadm a).trans (length_layoutTail hadm b).symm)
    (layoutTail_hashed_eq hadm hcov a b)
  have hleaf : computeCoinbaseHash (layoutHeader l a).coinbase =
      computeCoinbaseHash (layoutHeader l b).coinbase := by
    rw [layoutHeader_coinbase, layoutHeader_coinbase, computeCoinbaseHash,
      computeCoinbaseHash, hround]
  refine ⟨by rw [layoutHeader_btcHeader, layoutHeader_btcHeader, hleaf], .of_eq ?_ hleaf (by simp)⟩
  rw [layoutHeader_coinbase, layoutHeader_coinbase, hcalls]

/-- **A restriction on coinbase layouts makes seals binding exactly when it leaves only
covered ones.** Under it, any two headers at or above wasabi100 that the rule accepts on
one Bitcoin header, with Merkle branches of one length and hashes that do not collide,
carry the same first twenty bytes of their hash for merged mining. -/
theorem seal_binds_iff_covered (config : ChainConfig)
  (horder : config.activationHeights.orchid ≤ config.activationHeights.wasabi100)
  (allowed : CoinbaseLayout → Prop) :
  (∀ h₁ h₂ : Header, config.activationHeights.wasabi100 ≤ h₁.number →
    config.activationHeights.wasabi100 ≤ h₂.number →
    mergedMiningRule config h₁ = .ok () → mergedMiningRule config h₂ = .ok () →
    h₁.btcHeader = h₂.btcHeader → h₁.merkleProof.length = h₂.merkleProof.length →
    (∀ l ∈ h₁.coinbaseLayout, allowed l) → (∀ l ∈ h₂.coinbaseLayout, allowed l) →
    SealCollisionFree h₁ h₂ →
    h₁.hashForMergedMining.bytes.take 20 = h₂.hashForMergedMining.bytes.take 20) ↔
  ∀ l, allowed l → l.Admissible → l.Covered := by
  constructor
  · -- An uncovered layout carries two different headers on one coinbase hash.
    intro hbind l hallowed hadm
    by_contra hcov
    have haccept : ∀ b : UInt8, b ≠ 0x52 →
        mergedMiningRule config (layoutHeader l b) = .ok () := fun b hb =>
      sealedBy_accepted (by simp) rfl (le_layoutHeader_number _ l b)
        (layoutHeader_tagAt hadm hb)
    have hlayout : ∀ b : UInt8, b ≠ 0x52 → ∀ l' ∈ (layoutHeader l b).coinbaseLayout,
        allowed l' := by
      intro b hb l' hl'
      rw [layoutHeader_layout hadm hb, Option.mem_some_iff] at hl'
      exact hl' ▸ hallowed
    obtain ⟨hbtc, hcf⟩ := layoutHeader_collisionFree hadm hcov 0 1
    have hinitial : (layoutHeader l 0).sealPrefix = (layoutHeader l 1).sealPrefix :=
      hbind (layoutHeader l 0) (layoutHeader l 1) (le_layoutHeader_number _ l 0)
        (le_layoutHeader_number _ l 1) (haccept 0 (by decide)) (haccept 1 (by decide)) hbtc
        (by simp) (hlayout 0 (by decide)) (hlayout 1 (by decide)) hcf
    rw [layoutHeader_sealPrefix, layoutHeader_sealPrefix] at hinitial
    exact absurd hinitial (by decide)
  intro hcovered h₁ h₂ hw₁ hw₂ hok₁ hok₂ hbtc hlen hallowed₁ hallowed₂ hcf
  obtain ⟨btc₁, c₁, proof₁, hm₁⟩ :=
    (mergedMiningRule_eq_ok_iff (UInt64.le_trans horder hw₁)).mp hok₁
  obtain ⟨btc₂, c₂, proof₂, hm₂⟩ :=
    (mergedMiningRule_eq_ok_iff (UInt64.le_trans horder hw₂)).mp hok₂
  obtain ⟨p₁, ht₁⟩ := hm₁.tag
  obtain ⟨p₂, ht₂⟩ := hm₂.tag
  obtain rfl : btc₁ = btc₂ := by
    rw [hm₁.btc, hm₂.btc] at hbtc
    exact Except.ok.inj hbtc
  have hcov₁ := hcovered _ (hallowed₁ _ (coinbaseLayout_of_tagAt hm₁.coinbase ht₁))
    (admissible_of_tagAt ht₁)
  have hcov₂ := hcovered _ (hallowed₂ _ (coinbaseLayout_of_tagAt hm₂.coinbase ht₂))
    (admissible_of_tagAt ht₂)
  rw [merkleProof, merkleProof, hm₁.proof_eq, hm₂.proof_eq] at hlen
  rcases Nat.le_total (hashedLen (coinbaseByteCount c₁).toNat (coinbaseTail c₁).length)
    (hashedLen (coinbaseByteCount c₂).toNat (coinbaseTail c₂).length) with hle | hle
  · exact prefix_eq_of_covered hw₁ hw₂ hm₁ hm₂ ht₁ ht₂ hlen hcf hcov₁ hcov₂ hle
  · exact (prefix_eq_of_covered hw₂ hw₁ hm₂ hm₁ ht₂ ht₁ hlen.symm hcf.symm hcov₂ hcov₁ hle).symm

/-- On mainnet, seals whose byte count is a whole number of blocks bind. -/
theorem seal_binds_mainnet_aligned :
  ActivationHeights.mainnet.orchid ≤ ActivationHeights.mainnet.wasabi100 ∧ ∀ h₁ h₂ : Header,
    mainnet.activationHeights.wasabi100 ≤ h₁.number →
    mainnet.activationHeights.wasabi100 ≤ h₂.number →
    mergedMiningRule .mainnet h₁ = .ok () → mergedMiningRule .mainnet h₂ = .ok () →
    h₁.btcHeader = h₂.btcHeader → h₁.merkleProof.length = h₂.merkleProof.length →
    (∀ l ∈ h₁.coinbaseLayout, l.byteCount.toNat % 64 = 0) →
    (∀ l ∈ h₂.coinbaseLayout, l.byteCount.toNat % 64 = 0) → SealCollisionFree h₁ h₂ →
    h₁.hashForMergedMining.bytes.take 20 = h₂.hashForMergedMining.bytes.take 20 :=
  ⟨by decide, (seal_binds_iff_covered .mainnet (by decide)
    fun l => l.byteCount.toNat % 64 = 0).mpr fun _ h hadm => hadm.covered_of_aligned h⟩

/-! ## Two blocks under one seal

A byte count of 14 and a tail of 41 bytes pad to 50 bytes: no block is compressed, the
first round returns the midstate itself, and nothing of the tail is bound. -/

/-- `h` sealed with its own tag behind a midstate of 14 bytes. -/
def Header.forged (h : Header) : Header :=
  h.sealedBy (compressedCoinbase 14 (List.replicate 32 0) (rskTag ++ h.hashForMergedMining.bytes))

lemma forged_coinbase (h : Header) : h.forged.coinbase =
  compressedCoinbase 14 (List.replicate 32 0) (rskTag ++ h.hashForMergedMining.bytes) := rfl

lemma forged_hashForMergedMining (h : Header) :
  h.forged.hashForMergedMining = h.hashForMergedMining := rfl

lemma forged_accepted (hdiff : h.difficulty = 1)
  (horchid : config.activationHeights.orchid ≤ h.number)
  (hw : config.activationHeights.wasabi100 ≤ h.number)
  (hno : (0x52 : UInt8) ∉ h.hashForMergedMining.bytes) :
  mergedMiningRule config h.forged = .ok () :=
  sealedBy_ownTag_accepted (by simp) hdiff horchid hw hno

lemma forged_same_seal (h₁ h₂ : Header) :
  h₁.forged.bitcoinMergedMiningHeader = h₂.forged.bitcoinMergedMiningHeader ∧
    SealCollisionFree h₁.forged h₂.forged := by
  have hlen : ∀ h : Header, (rskTag ++ h.hashForMergedMining.bytes).length = 41 := by
    intro h
    simp [length_rskTag]
  have hnothing : ∀ h : Header, sha256Hashed 14 (rskTag ++ h.hashForMergedMining.bytes) = [] := by
    intro h
    rw [sha256Hashed, hlen]
    rfl
  obtain ⟨hround, hcalls⟩ := coinbaseCalls_eq_of_hashed (c := 14)
    (length_replicate : (List.replicate 32 (0 : UInt8)).length = 32)
    ((hlen h₁).trans (hlen h₂).symm) ((hnothing h₁).trans (hnothing h₂).symm)
  have hleaf : computeCoinbaseHash h₁.forged.coinbase = computeCoinbaseHash h₂.forged.coinbase := by
    rw [forged_coinbase, forged_coinbase, computeCoinbaseHash, computeCoinbaseHash, hround]
  refine ⟨?_, .of_eq ?_ hleaf (by simp [merkleProof, forged, sealedBy])⟩
  · show some (btcHeaderWithRoot (computeCoinbaseHash h₁.forged.coinbase)) =
      some (btcHeaderWithRoot (computeCoinbaseHash h₂.forged.coinbase))
    rw [hleaf]
  · rw [forged_coinbase, forged_coinbase, hcalls]

/-- A block at height one that pays `miner`. -/
def minerBlock (miner : UInt8) : Header :=
  { blank with difficulty := 1, number := 1, beneficiary := .repeatByte 20 miner }

lemma minerBlock_hash : (minerBlock 1).hashForMergedMining.bytes =
    [92, 83, 86, 83, 65, 132, 13, 91, 46, 208, 208, 241, 30, 44, 246, 40, 28, 243, 124, 48,
     89, 51, 7, 77, 237, 81, 15, 212, 15, 78, 41, 181] ∧ (minerBlock 2).hashForMergedMining.bytes =
    [182, 251, 217, 37, 58, 224, 105, 174, 210, 49, 149, 6, 29, 126, 111, 213, 106, 237, 211,
     99, 156, 26, 106, 44, 205, 114, 149, 175, 206, 95, 121, 234] := by
  decide +kernel

/-- Two different blocks under one Bitcoin header and one (empty) Merkle branch, with
hashes that do not collide. -/
theorem two_blocks_one_seal :
  regtest.activationHeights.wasabi100 ≤ (minerBlock 1).forged.number ∧
  regtest.activationHeights.wasabi100 ≤ (minerBlock 2).forged.number ∧
  mergedMiningRule .regtest (minerBlock 1).forged = .ok () ∧
  mergedMiningRule .regtest (minerBlock 2).forged = .ok () ∧
  (minerBlock 1).forged.bitcoinMergedMiningHeader =
    (minerBlock 2).forged.bitcoinMergedMiningHeader ∧
  (minerBlock 1).forged.merkleProof.length = (minerBlock 2).forged.merkleProof.length ∧
  SealCollisionFree (minerBlock 1).forged (minerBlock 2).forged ∧
  (minerBlock 1).forged.hashForMergedMining.bytes.take 20 ≠
    (minerBlock 2).forged.hashForMergedMining.bytes.take 20 := by
  obtain ⟨h1, h2⟩ := minerBlock_hash
  obtain ⟨hbtc, hcf⟩ := forged_same_seal (minerBlock 1) (minerBlock 2)
  refine ⟨by decide, by decide, forged_accepted rfl (by decide) (by decide) ?_,
    forged_accepted rfl (by decide) (by decide) ?_, hbtc, ?_, hcf, ?_⟩
  · rw [h1]; decide
  · rw [h2]; decide
  · simp [merkleProof, forged, sealedBy]
  · rw [forged_hashForMergedMining, forged_hashForMergedMining, h1, h2]; decide

end Rustock
