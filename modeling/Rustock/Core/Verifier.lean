import Rustock.Core.MergedMining

/-!
# The header verifier

`HeaderVerifier` (crates/core/src/validation/mod.rs): static rules in order, then,
when there is a parent, the parent rules in order. `HeaderVerifier.defaultRsk` is the one
the node runs; its timestamp rule reads the clock, so it is built for a clock reading.
-/

namespace Rustock

open Lib

structure HeaderVerifier where
  staticRules : List HeaderValidator
  parentRules : List ParentHeaderValidator

namespace HeaderVerifier

def verify (v : HeaderVerifier) (header : Header) (parent : Option Header) : Verdict :=
  (runAll (· header) v.staticRules).bind fun _ =>
    match parent with
    | none => .ok ()
    | some p => runAll (fun rule => rule header p) v.parentRules

/-- At a reading of the clock. -/
def defaultRsk (config : ChainConfig) (clock : Option UInt64) : HeaderVerifier where
  staticRules :=
    [gasUsedRule, gasLimitBoundsRule config.minGasLimit config.maxGasLimit,
     mergedMiningRule config, bitcoinTimestampRule config, extraDataRule]
  parentRules :=
    [blockNumberRule, timestampRule config.maxFutureBlockTime clock,
     blockParentGasLimitRule config, prevMinGasPriceRule, difficultyRule config]

lemma verify_some_eq_ok_iff {v : HeaderVerifier} {header parent : Header} :
  v.verify header (some parent) = .ok () ↔ (∀ rule ∈ v.staticRules, rule header = .ok ()) ∧
    ∀ rule ∈ v.parentRules, rule header parent = .ok () := by
  rw [verify, verdict_bind_eq_ok, runAll_eq_ok_iff, runAll_eq_ok_iff]

end HeaderVerifier

def Header.stored (h : Header) : Header :=
  { h with cachedHash := none, cachedHashForMergedMining := none }

@[simp] lemma Header.stored_parentHash (h : Header) : h.stored.parentHash = h.parentHash := rfl
@[simp] lemma Header.stored_number (h : Header) : h.stored.number = h.number := rfl
@[simp] lemma Header.stored_stored (h : Header) : h.stored.stored = h.stored := rfl

end Rustock
