import Rustock.Core.MergedMiningBinding

/-!
# Compressing a coinbase

`compressCoinbase` (crates/core/src/validation/merged_mining.rs) absorbs the whole
blocks before the tag into a midstate. The verifier's hash of the result is the double
SHA-256 of the coinbase, whichever tag was chosen (`computeCoinbaseHash_compress`), and when
the last one was, the result passes the tag check (`compressCoinbase_faithful`); with the
first of two tags it does not (`first_of_two_tags`).
-/

namespace Rustock

open Lib List FixedBytes

inductive CoinbaseCompressionError where
  | tagNotFound
  | tagTooDeepInTail (offset max : Nat)
  | hashTruncated (available needed : Nat)
  | tooMuchTrailingData (trailing max : Nat)
deriving DecidableEq

def findFirstSubsequence (haystack needle : Bytes) : Option Nat :=
  if haystack.length < needle.length then none
  else (List.range (haystack.length - needle.length + 1)).find?
    fun i => window haystack i needle.length == needle

def compressAt (coinbase : Bytes) (bytesToHash : Nat) : Bytes :=
  compressedCoinbase (.ofNat bytesToHash)
    ((chunksExact 64 (coinbase.take bytesToHash)).foldl sha256Compress .initial).toBytes.bytes
    (coinbase.drop bytesToHash)

def compressCoinbase (coinbase : Bytes) (lastOccurrence : Bool) :
  Except CoinbaseCompressionError Bytes :=
  match if lastOccurrence then findLastSubsequence coinbase rskTag
      else findFirstSubsequence coinbase rskTag with
  | none => .error .tagNotFound
  | some tagPosition =>
    let available := coinbase.length - (tagPosition + rskTag.length)
    if available < blockHeaderHashSize then
      .error (.hashTruncated available blockHeaderHashSize)
    else
      let trailing := available - blockHeaderHashSize
      if maxBytesAfterMergedMiningHash < trailing then
        .error (.tooMuchTrailingData trailing maxBytesAfterMergedMiningHash)
      else
        let bytesToHash := tagPosition / 64 * 64
        let tailTagPosition := tagPosition - bytesToHash
        if maxRskTagPositionInTail ≤ tailTagPosition then
          .error (.tagTooDeepInTail tailTagPosition maxRskTagPositionInTail)
        else .ok (compressAt coinbase bytesToHash)

lemma Sha256State.ofBytes_toBytes (s : Sha256State) : ofBytes s.toBytes.bytes = s := by
  have hword : ∀ w : UInt32, UInt32.ofNat (beNat (beBytes 4 w.toNat)) = w := fun w => by
    rw [beNat_beBytes, Nat.mod_eq_of_lt (show w.toNat < 256 ^ 4 from w.toNat_lt),
      UInt32.ofNat_toNat]
  rcases s with ⟨a, b, c, d, e, f, g, h⟩
  simp [ofBytes, toBytes, words, window, drop_append, hword, drop_eq_nil_of_le, take_of_length_le]

lemma blocks_append {n : Nat} {ys : Bytes} : ∀ {k m : Nat} {xs : Bytes}, xs.length = n * k →
  blocks n (k + m) (xs ++ ys) = blocks n k xs ++ blocks n m ys
  | 0, m, xs, h => by
    obtain rfl := eq_nil_of_length_eq_zero (h.trans (Nat.mul_zero n))
    simp [blocks]
  | k + 1, m, xs, h => by
    rw [Nat.mul_succ] at h
    have hdrop : (xs.drop n).length = n * k := by rw [length_drop]; omega
    rw [Nat.succ_add, blocks, blocks, take_append_of_le_length (by omega),
      drop_append_of_le_length (by omega), blocks_append hdrop, cons_append]

/-- **Block decomposition.** Whole blocks absorbed first, then the rest with their count. -/
theorem sha256Digest_append {k : Nat} {done rest : Bytes} (h : done.length = 64 * k) :
  sha256Digest (done ++ rest) =
    sha256FromMidstate ((chunksExact 64 done).foldl sha256Compress .initial)
      (.ofNat (64 * k)) rest := by
  have hcount : (UInt64.ofNat (64 * k)).toNat % 64 = 0 := by
    rw [UInt64.toNat_ofNat']
    omega
  have hzeros : paddingZeros (0 : UInt64).toNat (done ++ rest).length =
      paddingZeros (UInt64.ofNat (64 * k)).toNat rest.length := by
    unfold paddingZeros
    rw [length_append, h, UInt64.toNat_zero]
    omega
  have hpadded : sha256Padded 0 (done ++ rest) = done ++ sha256Padded (.ofNat (64 * k)) rest := by
    rw [sha256Padded_eq, sha256Padded_eq, hzeros, UInt64.zero_add, length_append, h,
      UInt64.ofNat_add]
    simp only [append_assoc]
  unfold sha256Digest sha256FromMidstate
  rw [hpadded, ← foldl_append, chunksExact, chunksExact, chunksExact, length_append,
    h, Nat.mul_add_div (by decide), Nat.mul_div_cancel_left _ (by decide), blocks_append h]

lemma computeCoinbaseHash_compressAt (coinbase : Bytes) {k : Nat}
  (h : 64 * k ≤ coinbase.length) : computeCoinbaseHash (compressAt coinbase (64 * k)) =
    (sha256Digest (sha256Digest coinbase).bytes).reverse := by
  have hlen : (coinbase.take (64 * k)).length = 64 * k := length_take_of_le h
  have hstate : ((chunksExact 64 (coinbase.take (64 * k))).foldl
      sha256Compress .initial).toBytes.bytes.length = 32 := length_bytes _
  have hdigest := @sha256Digest_append k _ (coinbase.drop (64 * k)) hlen
  rw [take_append_drop] at hdigest
  rw [computeCoinbaseHash, coinbaseFirstRound, hdigest, compressAt,
    coinbaseByteCount_compressed, coinbaseTail_compressed hstate, coinbaseState,
    compressedCoinbase, append_assoc, window_middle (length_beBytes ..) hstate,
    Sha256State.ofBytes_toBytes]

variable {last : Bool}

lemma compressCoinbase_eq_ok {coinbase out : Bytes} (h : compressCoinbase coinbase last = .ok out) :
  ∃ p, (if last then findLastSubsequence coinbase rskTag
      else findFirstSubsequence coinbase rskTag) = some p ∧
    p + 41 ≤ coinbase.length ∧ coinbase.length ≤ p + 41 + 128 ∧
    out = compressAt coinbase (64 * (p / 64)) := by
  unfold compressCoinbase at h
  split at h
  · cases h
  rename_i p hp
  refine ⟨p, hp, ?_⟩
  dsimp only at h
  split_ifs at h with hshort hlong
  rw [length_rskTag, blockHeaderHashSize] at hshort hlong
  rw [maxBytesAfterMergedMiningHash] at hlong
  refine ⟨by omega, by omega, ?_⟩
  rw [Nat.mul_comm]
  exact (Except.ok.inj h).symm

variable {coinbase out : Bytes}

lemma computeCoinbaseHash_compress (h : compressCoinbase coinbase last = .ok out) :
  computeCoinbaseHash out = (sha256Digest (sha256Digest coinbase).bytes).reverse := by
  obtain ⟨p, -, hfits, -, rfl⟩ := compressCoinbase_eq_ok h
  exact computeCoinbaseHash_compressAt coinbase (by omega)

lemma window_drop {i n d : Nat} : window (coinbase.drop d) i n = window coinbase (d + i) n := by
  rw [window, window, drop_drop]

/-- **A compressed coinbase is faithful.** Its hash is that of the coinbase, and a header whose
expected bytes stand at the coinbase's last tag passes every rule on the tag. -/
theorem compressCoinbase_faithful (h : compressCoinbase coinbase true = .ok out) :
  computeCoinbaseHash out = (sha256Digest (sha256Digest coinbase).bytes).reverse ∧
    midstateSizeTrimmed + 1 ≤ out.length ∧ ∃ p, findLastSubsequence coinbase rskTag = some p ∧
      findLastSubsequence (coinbaseTail out) rskTag = some (p % 64) ∧
      ∀ config header, window coinbase p (expectedTag config header).length =
        expectedTag config header → checkTag config header (coinbaseTail out) = .ok () := by
  refine ⟨computeCoinbaseHash_compress h, ?_⟩
  obtain ⟨p, hlast, hfits, htrail, rfl⟩ := compressCoinbase_eq_ok h
  have hstate : ((chunksExact 64 (coinbase.take (64 * (p / 64)))).foldl
      sha256Compress .initial).toBytes.bytes.length = 32 := length_bytes _
  have htail : coinbaseTail (compressAt coinbase (64 * (p / 64))) =
      coinbase.drop (64 * (p / 64)) := coinbaseTail_compressed hstate
  have hlen : (coinbase.drop (64 * (p / 64))).length = coinbase.length - 64 * (p / 64) :=
    length_drop
  obtain ⟨-, hhere, hafter⟩ := findLastSubsequence_eq_some_iff.mp hlast
  have hend : ∀ j, p % 64 < j → j + rskTag.length ≤ (coinbase.drop (64 * (p / 64))).length →
      window (coinbase.drop (64 * (p / 64))) j rskTag.length ≠ rskTag := by
    intro j hj hle
    rw [window_drop]
    rw [hlen] at hle
    exact hafter _ (by omega) (by omega)
  refine ⟨?_, p, hlast, ?_, fun config header hexpected => ?_⟩
  · rw [compressAt, compressedCoinbase, length_append, length_append, length_beBytes,
      hstate, hlen, midstateSizeTrimmed]
    omega
  · rw [htail, findLastSubsequence_eq_some_iff, window_drop, Nat.div_add_mod]
    refine ⟨?_, hhere, hend⟩
    rw [hlen, length_rskTag]
    omega
  rw [htail, checkTag_eq_ok_iff]
  refine ⟨p % 64, ?_, hend, Nat.mod_lt _ (by decide), by omega, by omega⟩
  rw [window_drop, Nat.div_add_mod, hexpected]

/-- Two tags, each followed by room for a hash. -/
def twoTags : Bytes := rskTag ++ List.replicate 32 0 ++ rskTag ++ List.replicate 32 1

theorem compressCoinbase_faithful_two_tags :
  ∃ out, compressCoinbase twoTags true = .ok out ∧ computeCoinbaseHash out =
    (sha256Digest (sha256Digest twoTags).bytes).reverse :=
  ⟨_, rfl, (@compressCoinbase_faithful twoTags (compressAt twoTags 0) rfl).1⟩

/-- Compressed at the first of two tags, which is not the last one of the tail. -/
theorem first_of_two_tags : compressCoinbase twoTags false = .ok (compressAt twoTags 0) ∧
    findFirstSubsequence twoTags rskTag = some 0 ∧
    findLastSubsequence (coinbaseTail (compressAt twoTags 0)) rskTag = some 41 ∧ checkTag .mainnet
      { Header.blank with number := 2000000, cachedHashForMergedMining := some (.zero 32) }
      (coinbaseTail (compressAt twoTags 0)) = .error .bitcoinCoinbaseTagInvalid := by
  refine ⟨rfl, rfl, ?_, ?_⟩
  all_goals
    rw [show coinbaseTail (compressAt twoTags 0) = twoTags from
      coinbaseTail_compressed (length_bytes _)]
    rfl

end Rustock
