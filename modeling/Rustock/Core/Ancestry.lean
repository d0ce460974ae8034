import Rustock.Core.Block
import Mathlib

/-!
# Rules that read a block's ancestry

The uncle rule (crates/core/src/validation/uncles.rs) and the fork-detection rule
(fork_detection.rs). Both reach ancestors by walking parent hashes through an
`AncestorSource`, which the caller backs with a store.
-/

namespace Rustock

open Lib

/-- uncles.rs: `UNCLE_LIST_LIMIT`. -/
def uncleListLimit : Nat := 10

/-- uncles.rs: `UNCLE_GENERATION_LIMIT`. -/
def uncleGenerationLimit : UInt64 := 7

/-- What the ancestry rules look up. -/
structure AncestorSource where
  header : B256 → Option Header
  unclesOf : B256 → List Header

namespace AncestorSource

/-- Headers from `hash` back while their number is at least `floor`, genesis included. -/
def walk (src : AncestorSource) (floor : UInt64) : Nat → B256 → List (B256 × Header)
  | 0, _ => []
  | fuel + 1, hash =>
    match src.header hash with
    | none => []
    | some header =>
      if header.number < floor then []
      else (hash, header) ::
        (if header.number = 0 then [] else walk src floor fuel header.parentHash)

def ancestors (src : AncestorSource) (blockNumber : UInt64) (parentHash : B256)
  (limit : UInt64) : List B256 :=
  (src.walk (saturatingSub64 blockNumber limit) (blockNumber.toNat + 1) parentHash).map Prod.fst

def usedUncles (current : ActivationHeights) (src : AncestorSource) (blockNumber : UInt64)
  (parentHash : B256) (limit : UInt64) : List B256 :=
  (src.walk (saturatingSub64 blockNumber limit) (blockNumber.toNat + 1) parentHash).flatMap
    fun entry => (src.unclesOf entry.1).map (Header.hash current)

lemma header_of_mem_walk {src : AncestorSource} {floor : UInt64} {e : B256 × Header} :
  ∀ {fuel : Nat} {hash : B256}, e ∈ src.walk floor fuel hash → src.header e.1 = some e.2 := by
  intro fuel
  induction fuel with
  | zero => intro hash h; simp [walk] at h
  | succ fuel ih =>
    intro hash h
    cases hx : src.header hash with
    | none => simp [walk, hx] at h
    | some x =>
      simp only [walk, hx] at h
      split at h
      · simp at h
      rcases List.mem_cons.mp h with rfl | h
      · exact hx
      split at h
      · simp at h
      · exact ih h

end AncestorSource

/-- The rule and its parameters. -/
structure UnclesValidationRule where
  current : ActivationHeights
  store : AncestorSource
  uncleListLimit : Nat
  uncleGenerationLimit : UInt64
  headerRules : List HeaderValidator
  parentRules : List ParentHeaderValidator

namespace UnclesValidationRule

variable (rule : UnclesValidationRule)

/-- One uncle. `seen` holds the hashes of the uncles before it. -/
def validateUncle (number : UInt64) (ancestors used seen : List B256) (uncle : Header) : Verdict :=
  (runAll (· uncle) rule.headerRules).bind fun _ =>
  let uncleHash := uncle.hash rule.current
  (rejectIf (number ≤ uncle.number) (.uncleIsSiblingOrDescendant uncleHash)).bind fun _ =>
  (rejectIf (uncle.number + rule.uncleGenerationLimit < number + 1)
    (.uncleTooOld uncleHash rule.uncleGenerationLimit)).bind fun _ =>
  (rejectIf (uncleHash ∈ seen) (.uncleRepeated uncleHash)).bind fun _ =>
  (rejectIf (uncleHash ∈ ancestors) (.uncleIsAncestor uncleHash)).bind fun _ =>
  (rejectIf (uncleHash ∈ used) (.uncleAlreadyUsed uncleHash)).bind fun _ =>
  match (rule.store.header uncle.parentHash).filter fun _ => uncle.parentHash ∈ ancestors with
  | none => .error (.uncleHasNoCommonParent uncleHash)
  | some parent => runAll (fun r => r uncle parent) rule.parentRules

def validateList (number : UInt64) (ancestors used : List B256) : List B256 → List Header → Verdict
  | _, [] => .ok ()
  | seen, uncle :: uncles =>
    (rule.validateUncle number ancestors used seen uncle).bind fun _ =>
      validateList number ancestors used (uncle.hash rule.current :: seen) uncles

def validate (block : Block) : Verdict :=
  if block.ommers.isEmpty then .ok ()
  else
    let number := block.header.number
    let ancestors := rule.store.ancestors number block.header.parentHash rule.uncleGenerationLimit
    let used := rule.store.usedUncles rule.current number block.header.parentHash
      rule.uncleGenerationLimit
    (rejectIf (rule.uncleListLimit < block.ommers.length)
      (.tooManyUncles rule.uncleListLimit block.ommers.length)).bind fun _ =>
    rule.validateList number ancestors used [] block.ommers

variable {rule}

lemma validateUncle_eq_ok {number : UInt64} {ancestors used seen : List B256}
  {uncle : Header} (h : rule.validateUncle number ancestors used seen uncle = .ok ()) :
  (∀ r ∈ rule.headerRules, r uncle = .ok ()) ∧
    ∃ parent, rule.store.header uncle.parentHash = some parent ∧
      ∀ r ∈ rule.parentRules, r uncle parent = .ok () := by
  simp only [validateUncle, verdict_bind_eq_ok, runAll_eq_ok_iff] at h
  obtain ⟨hstatic, -, -, -, -, -, hparent⟩ := h
  refine ⟨hstatic, ?_⟩
  split at hparent
  · simp at hparent
  rename_i parent hfound
  exact ⟨parent, (Option.filter_eq_some_iff.mp hfound).1, runAll_eq_ok_iff.mp hparent⟩

lemma validateList_eq_ok {number : UInt64} {ancestors used : List B256} :
  ∀ {uncles : List Header} {seen : List B256},
    rule.validateList number ancestors used seen uncles = .ok () →
    ∀ uncle ∈ uncles, ∃ seen', rule.validateUncle number ancestors used seen' uncle = .ok ()
  | [], _, _, uncle, hmem => by simp at hmem
  | first :: rest, seen, h, uncle, hmem => by
    rw [validateList, verdict_bind_eq_ok] at h
    rcases List.mem_cons.mp hmem with rfl | hrest
    · exact ⟨seen, h.1⟩
    · exact validateList_eq_ok h.2 uncle hrest

/-- **What an accepted list says of each uncle**: it passes the caller's rules, the parent
rules against the header the source holds under its parent hash. -/
theorem unclesValidationRule_uncle {block : Block} (h : rule.validate block = .ok ()) :
  ∀ uncle ∈ block.ommers, (∀ r ∈ rule.headerRules, r uncle = .ok ()) ∧
    ∃ parent, rule.store.header uncle.parentHash = some parent ∧
      ∀ r ∈ rule.parentRules, r uncle parent = .ok () := by
  intro uncle hmem
  unfold validate at h
  rw [if_neg (by simpa using List.ne_nil_of_mem hmem), verdict_bind_eq_ok] at h
  obtain ⟨seen, huncle⟩ := validateList_eq_ok h.2 uncle hmem
  exact validateUncle_eq_ok huncle

end UnclesValidationRule

def cpvSize : Nat := 7
def cpvJumpFactor : UInt64 := 64
def numberOfUncles : Nat := 32
def requiredBlocks : Nat := 449
def forkDetectionDataLength : Nat := 12

variable (header : Header)

/-- The twelve bytes behind the tag and the hash prefix. -/
def extractForkDetectionData : Option (FixedBytes 12) :=
  header.bitcoinMergedMiningCoinbaseTransaction.bind fun compressed =>
    if compressed.length < midstateSizeTrimmed + 1 then none
    else
      let tail := coinbaseTail compressed
      let tagged := rskTag ++
        header.hashForMergedMining.bytes.take hashForMergedMiningPrefixLength
      (findLastSubsequence tail tagged).bind fun position =>
        let start := position + tagged.length
        if tail.length < start + forkDetectionDataLength then none
        else some (.ofBytes 12 (window tail start forkDetectionDataLength))

/-- First byte of the double hash of the Bitcoin header. -/
def btcHashLeastSignificantByte : Option UInt8 :=
  match header.btcHeader with
  | .ok btc => btc.blockHash.bytes.head?
  | .error _ => none

/-- On headers newest first. -/
def calculateForkDetectionData (headers : List Header) : Option (FixedBytes 12) :=
  if headers.length < requiredBlocks then none
  else
    headers.head?.bind fun best =>
      let cpvStart := best.number / cpvJumpFactor * cpvJumpFactor
      let commit := (List.range cpvSize).mapM fun i =>
        (headers[(best.number - cpvStart + UInt64.ofNat i * cpvJumpFactor).toNat]?).bind
          btcHashLeastSignificantByte
      commit.map fun bytes =>
        let uncleSum := ((headers.take numberOfUncles).map (·.uncleCount)).sum
        .ofBytes 12 (bytes ++ [UInt8.ofNat (min uncleSum.toNat 255)] ++
          beBytes 4 ((best.number + 1).toNat % 2 ^ 32))

/-- Up to `count` headers from `hash` back, newest first. -/
def AncestorSource.headersFrom (src : AncestorSource) : Nat → B256 → List Header
  | 0, _ => []
  | count + 1, hash =>
    match src.header hash with
    | none => []
    | some header =>
      header :: (if header.number = 0 then [] else src.headersFrom count header.parentHash)

def forkDetectionRule (actual : Option (FixedBytes 12)) (view : AncestorSource)
  (rskip110Height : UInt64) : Verdict :=
  if header.number < rskip110Height then .ok ()
  else if header.number < UInt64.ofNat requiredBlocks then
    rejectIf actual.isSome .forkDetectionDataUnreadable
  else
    match actual with
    | none => .error .forkDetectionDataUnreadable
    | some got =>
      match calculateForkDetectionData (view.headersFrom requiredBlocks header.parentHash) with
      | none => .error .forkDetectionDataUnreadable
      | some expected =>
        rejectIf (expected ≠ got) (.forkDetectionDataMismatch expected got)

end Rustock
