import Rustock.Core.MergedMiningBinding
import Rustock.Core.Verifier

/-!
# Mining a header on regtest

On regtest the difficulty is one and every hash is work enough, so a header that fits its
parent is accepted once it carries its own tag. `mined_verified` is that statement for
every parent and child; `Header.mined` is the seal an honest miner makes, SHA-256 starting
from its initial state over the whole coinbase.
-/

namespace Rustock

open Lib List ChainConfig
open HeaderVerifier (defaultRsk)

/-- `h` sealed by a Bitcoin coinbase that consists of its tag. -/
def Header.mined (h : Header) : Header :=
  h.sealedBy (compressedCoinbase 0 Sha256State.initial.toBytes.bytes
    (rskTag ++ h.hashForMergedMining.bytes))

def Header.unmined (parentHash : B256) (number : UInt64) : Header :=
  { Header.blank with
    parentHash, number
    difficulty := 1
    gasLimit := 10000000 }

variable {h : Header}

lemma bitcoinTimestampRule_sealedBy {config : ChainConfig} {compressed : Bytes}
  (htime : h.timestamp = 0) : bitcoinTimestampRule config (h.sealedBy compressed) = .ok () := by
  obtain ⟨btc, hbtc, -, hzero⟩ := btcHeaderWithRoot_decodes (computeCoinbaseHash compressed)
  have hheader : (h.sealedBy compressed).btcHeader = .ok btc := hbtc
  have hstamp : (h.sealedBy compressed).timestamp = 0 := htime
  unfold bitcoinTimestampRule
  split
  · rfl
  rw [hheader]
  simp only [hzero, hstamp, rejectIf_eq_ok]
  split <;> decide

variable {parent : Header}

lemma expectedDifficulty_regtest (htime : h.timestamp = 0) (hparentTime : parent.timestamp = 0)
  (hparentDiff : parent.difficulty = 1) : calculateExpectedDifficulty .regtest h parent = 1 := by
  -- One is below either divisor.
  have hquotient : (1 : U256) /
      (if regtest.activationHeights.papyrus200 ≤ h.number then 400
        else regtest.difficultyDivisor) = 0 := by
    split <;> decide
  rw [calculateExpectedDifficulty, htime, hparentTime, hparentDiff]
  have hnotLate : decide ((600 : UInt64) ≤ saturatingSub64 0 0) = false := by decide
  simp only [hquotient, hnotLate, Bool.and_false, Bool.false_eq_true, if_false, UInt64.lt_irrefl]
  by_cases hzero : (1 + h.uncleCount) * regtest.durationLimit = saturatingSub64 0 0
  · rw [if_pos hzero]
  have hpos : (1 + h.uncleCount) * regtest.durationLimit > saturatingSub64 0 0 :=
    UInt64.pos_iff_ne_zero.mpr hzero
  rw [if_neg hzero, if_pos hpos]
  rfl

/-- **A mined child of a regtest header is accepted.** -/
theorem mined_verified {now : UInt64} (hnumber : h.number = parent.number + 1)
  (hdiff : h.difficulty = 1) (hparentDiff : parent.difficulty = 1) (hgas : h.gasLimit = 10000000)
  (hparentGas : parent.gasLimit = 10000000) (hused : h.gasUsed = 0) (htime : h.timestamp = 0)
  (hparentTime : parent.timestamp = 0) (hextra : h.extraData = [])
  (hprice : h.minimumGasPrice = 0) (hparentPrice : parent.minimumGasPrice = 0)
  (hno : (0x52 : UInt8) ∉ h.hashForMergedMining.bytes) :
  (defaultRsk .regtest (some now)).verify h.mined (some parent) = .ok () := by
  rw [HeaderVerifier.verify_some_eq_ok_iff]
  have hfields : h.mined.gasLimit = 10000000 ∧ h.mined.gasUsed = 0 ∧ h.mined.extraData = [] ∧
      h.mined.timestamp = 0 ∧ h.mined.number = parent.number + 1 ∧ h.mined.difficulty = 1 ∧
      h.mined.minimumGasPrice = 0 :=
    ⟨hgas, hused, hextra, htime, hnumber, hdiff, hprice⟩
  obtain ⟨hg, hu, he, ht, hn, hd, hp⟩ := hfields
  have hlimit : gasLimitAsU64 10000000 = .ok 10000000 := by decide
  constructor
  · simp only [defaultRsk, forall_mem_cons, not_mem_nil,
      false_implies, implies_true, and_true]
    refine ⟨?_, ?_, ?_, ?_, ?_⟩
    · rw [gasUsedRule, hg, hlimit, hu]; rfl
    · rw [gasLimitBoundsRule, hg, hlimit]; rfl
    · refine sealedBy_ownTag_accepted (by simp) hdiff ?_ ?_ hno
      · exact UInt64.le_iff_toNat_le.mpr (Nat.zero_le _)
      · exact UInt64.le_iff_toNat_le.mpr (Nat.zero_le _)
    · exact bitcoinTimestampRule_sealedBy htime
    · rw [extraDataRule, he]; rfl
  simp only [defaultRsk, forall_mem_cons, not_mem_nil,
    false_implies, implies_true, and_true]
  refine ⟨?_, rfl, ?_, ?_, ?_⟩
  · rw [blockNumberRule, rejectIf_eq_ok, hn, not_not]
  · rw [blockParentGasLimitRule, hg, hparentGas, hlimit]; rfl
  · rw [prevMinGasPriceRule]
    split
    · rfl
    · rw [hparentPrice, hp]; rfl
  have hexpected := expectedDifficulty_regtest ht hparentTime hparentDiff
  rw [difficultyRule, rejectIf_eq_ok, hexpected, hd, not_not]

namespace RegtestChain

def genesis : Header := .unmined (.zero 32) 0

def root : B256 :=
  ⟨[44, 161, 212, 191, 83, 214, 246, 240, 45, 26, 248, 213, 206, 185, 24, 222, 145, 244,
     34, 68, 229, 209, 46, 231, 19, 196, 220, 104, 22, 199, 129, 55], rfl⟩

def unsealed : Header := .unmined root 1

def unsealedHash : B256 :=
  ⟨[129, 220, 23, 197, 51, 23, 182, 172, 89, 61, 228, 240, 231, 136, 111, 129, 95, 206,
     67, 222, 153, 243, 16, 110, 235, 240, 18, 37, 153, 5, 23, 137], rfl⟩

def first : Header := unsealed.mined

def firstHash : B256 :=
  ⟨[241, 230, 146, 25, 74, 59, 198, 195, 15, 91, 100, 246, 15, 98, 231, 183, 137, 185,
     30, 248, 20, 16, 56, 233, 46, 79, 136, 54, 162, 64, 202, 216], rfl⟩

/-- `keccak(rlp([]))`. -/
def noOmmers : B256 :=
  ⟨[29, 204, 77, 232, 222, 199, 93, 122, 171, 133, 181, 103, 182, 204, 212, 26, 211, 18, 69,
     27, 148, 138, 116, 19, 240, 161, 66, 253, 64, 212, 147, 71], rfl⟩

def child : Header := { Header.unmined root 1 with ommersHash := noOmmers }.mined

def childHash : B256 :=
  ⟨[102, 6, 139, 8, 179, 147, 120, 102, 158, 80, 236, 116, 91, 108, 26, 178, 24, 191, 188, 4,
     31, 59, 145, 132, 48, 214, 168, 112, 226, 227, 159, 103], rfl⟩

lemma genesis_hash : genesis.hash .regtest = root := by decide +kernel

lemma unsealed_hash : unsealed.hash .regtest = unsealedHash := by decide +kernel

lemma first_hash : first.hash .regtest = firstHash := by decide +kernel

lemma child_hash : child.hash .regtest = childHash := by decide +kernel

lemma first_verified (now : UInt64) : (defaultRsk .regtest (some now)).verify
  first (some genesis.stored) = .ok () :=
  mined_verified rfl rfl rfl rfl rfl rfl rfl rfl rfl rfl rfl (by decide +kernel)

lemma child_verified (now : UInt64) : (defaultRsk .regtest (some now)).verify
  child (some genesis.stored) = .ok () :=
  mined_verified rfl rfl rfl rfl rfl rfl rfl rfl rfl rfl rfl (by decide +kernel)

end RegtestChain

end Rustock
