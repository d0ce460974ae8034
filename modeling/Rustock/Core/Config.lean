import Rustock.Lib.Bytes

/-!
# Network configuration

`ActivationHeights` and `ChainConfig` (crates/core/src/config.rs): the heights
at which consensus rules change and the constants the header rules read, with the
three networks the node knows.
-/

namespace Rustock

open Lib

/-- 256-bit unsigned integers; `+`, `-` and `*` wrap. -/
abbrev U256 := BitVec 256

namespace U256

def max : U256 := BitVec.allOnes 256

variable (a b : U256)

def saturatingAdd : U256 :=
  if a.toNat + b.toNat < 2 ^ 256 then a + b else max

def saturatingSub : U256 := if b ≤ a then a - b else 0

def saturatingMul : U256 :=
  if a.toNat * b.toNat < 2 ^ 256 then a * b else max

lemma toNat_saturatingAdd : (saturatingAdd a b).toNat = min (a.toNat + b.toNat) (2 ^ 256 - 1) := by
  unfold saturatingAdd
  split
  · rw [BitVec.toNat_add]; omega
  · rw [max, BitVec.toNat_allOnes]; omega

end U256

structure ActivationHeights where
  orchid : UInt64
  wasabi100 : UInt64
  papyrus200 : UInt64
  iris300 : UInt64
  fingerroot500 : UInt64
  hop400 : UInt64
  rskip97 : Option UInt64
deriving DecidableEq

namespace ActivationHeights

def mainnet : ActivationHeights where
  orchid := 729000
  wasabi100 := 1591000
  papyrus200 := 2392700
  iris300 := 3614800
  fingerroot500 := 5468000
  hop400 := 4598500
  rskip97 := some 729000

def testnet : ActivationHeights where
  orchid := 0
  wasabi100 := 0
  papyrus200 := 863000
  iris300 := 2060500
  fingerroot500 := 4015800
  hop400 := 3103000
  rskip97 := none

def regtest : ActivationHeights where
  orchid := 0
  wasabi100 := 0
  papyrus200 := 0xFFFFFFFFFFFFFFFF
  iris300 := 0
  fingerroot500 := 0
  hop400 := 0
  rskip97 := none

end ActivationHeights

/-- Without the network id, which no rule reads. -/
structure ChainConfig where
  chainId : UInt8
  durationLimit : UInt64
  difficultyDivisor : U256
  minDifficulty : U256
  maxFutureBlockTime : UInt64
  gasLimitBoundDivisor : UInt64
  minGasLimit : UInt64
  maxGasLimit : UInt64
  minSequentialSetGasLimit : UInt64
  activationHeights : ActivationHeights
deriving DecidableEq

namespace ChainConfig

def mainnet : ChainConfig where
  chainId := 30
  durationLimit := 14
  difficultyDivisor := 50
  minDifficulty := 7000000000000000
  maxFutureBlockTime := 60
  gasLimitBoundDivisor := 1024
  minGasLimit := 3000000
  maxGasLimit := 1000000000
  minSequentialSetGasLimit := 10000000
  activationHeights := .mainnet

def testnet : ChainConfig where
  chainId := 31
  durationLimit := 14
  difficultyDivisor := 50
  minDifficulty := 131072
  maxFutureBlockTime := 540
  gasLimitBoundDivisor := 1024
  minGasLimit := 3000000
  maxGasLimit := 1000000000
  minSequentialSetGasLimit := 10000000
  activationHeights := .testnet

def regtest : ChainConfig where
  chainId := 33
  durationLimit := 10
  difficultyDivisor := 2048
  minDifficulty := 1
  maxFutureBlockTime := 0
  gasLimitBoundDivisor := 1024
  minGasLimit := 3000000
  maxGasLimit := 10000000
  minSequentialSetGasLimit := 6800000
  activationHeights := .regtest

end ChainConfig

end Rustock
