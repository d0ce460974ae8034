import Rustock.Core.Header

/-!
# Header rules

`ValidationError` and the rules that judge a header, alone or against its parent
(crates/core/src/validation/mod.rs, header_rules.rs, difficulty.rs and the header
rules of block_rules.rs). The merged-mining rules are in `Rustock.Core.MergedMining`.

A rule that reads the clock takes the clock as an argument; `none` is a clock set
before the epoch. `u64` arithmetic wraps, as in a release build.
-/

namespace Rustock

open Lib

inductive ValidationError where
  | invalidBlockNumber (expected got : UInt64)
  | parentHashMismatch (expected got : B256)
  | timestampInFuture (current got : UInt64)
  | timestampOlderThanParent (parent got : UInt64)
  | systemTimeError
  | gasUsedExceedsLimit (used limit : UInt64)
  | gasLimitOverflow
  | gasLimitOutOfBounds (min max got : UInt64)
  | gasLimitInvalid (parent got : UInt64)
  | difficultyMismatch (expected got : U256)
  | difficultyZero
  | bitcoinHeaderDecodeError
  | bitcoinTimestampTooFar (rsk btc max : UInt64)
  | bitcoinCoinbaseDecodeError
  | bitcoinMerkleProofDecodeError
  | bitcoinPowInvalid (hash : B256) (target : U256)
  | bitcoinMerkleProofInvalid
  | bitcoinCoinbaseTagInvalid
  | merkleProofTooLarge (max got : Nat)
  | txGasPriceBelowMinimum (txGasPrice blockMinimum : U256)
  | txGasPriceAboveCap (txGasPrice cap : U256)
  | remascTxMissing
  | extraDataTooLarge (max got : Nat)
  | minGasPriceOutOfRange (lower upper got : U256)
  | tooManyUncles (max got : Nat)
  | uncleIsAncestor (hash : B256)
  | uncleAlreadyUsed (hash : B256)
  | uncleRepeated (hash : B256)
  | uncleIsSiblingOrDescendant (hash : B256)
  | uncleTooOld (hash : B256) (limit : UInt64)
  | uncleHasNoCommonParent (hash : B256)
  | forkDetectionDataMismatch (expected got : FixedBytes 12)
  | forkDetectionDataUnreadable
  | invalidSublistEdges (reason : String)
deriving DecidableEq

abbrev Verdict := Except ValidationError Unit

instance : DecidableEq Verdict
  | .ok (), .ok () => .isTrue rfl
  | .ok (), .error _ => .isFalse (by simp)
  | .error _, .ok () => .isFalse (by simp)
  | .error a, .error b => decidable_of_iff (a = b) (by simp)

abbrev HeaderValidator := Header → Verdict

abbrev ParentHeaderValidator := Header → Header → Verdict

/-- Reject with `e` when `reject` holds. -/
def rejectIf (reject : Prop) [Decidable reject] (e : ValidationError) : Verdict :=
  if reject then .error e else .ok ()

@[simp] lemma rejectIf_eq_ok {reject : Prop} [Decidable reject] {e : ValidationError} :
  rejectIf reject e = .ok () ↔ ¬ reject := by
  unfold rejectIf
  split <;> simp_all

@[simp] lemma verdict_bind_eq_ok {v : Verdict} {w : Unit → Verdict} :
  v.bind w = .ok () ↔ v = .ok () ∧ w () = .ok () := by
  rcases v with _ | ⟨⟨⟩⟩ <;> simp [Except.bind]

/-- Run `rules` in order and stop at the first refusal. -/
def runAll {ρ : Type} (apply : ρ → Verdict) : List ρ → Verdict
  | [] => .ok ()
  | r :: rs => (apply r).bind fun _ => runAll apply rs

lemma runAll_eq_ok_iff {ρ : Type} {apply : ρ → Verdict} : ∀ {rules : List ρ},
  runAll apply rules = .ok () ↔ ∀ r ∈ rules, apply r = .ok ()
  | [] => by simp [runAll]
  | r :: rs => by
    rw [runAll, verdict_bind_eq_ok, @runAll_eq_ok_iff _ _ rs, List.forall_mem_cons]

def gasLimitAsU64 (gasLimit : U256) : Except ValidationError UInt64 :=
  if gasLimit.toNat < 2 ^ 64 then .ok (UInt64.ofNat gasLimit.toNat)
  else .error .gasLimitOverflow

def blockNumberRule : ParentHeaderValidator := fun header parent =>
  rejectIf (header.number ≠ parent.number + 1)
    (.invalidBlockNumber (parent.number + 1) header.number)

/-- `TimestampRule::validate_at`. -/
def timestampRuleAt (maxFutureOffset now : UInt64) : HeaderValidator := fun header =>
  if maxFutureOffset = 0 then .ok ()
  else rejectIf (header.timestamp > now + maxFutureOffset)
    (.timestampInFuture now header.timestamp)

/-- `TimestampRule::validate_with_parent`, on the clock's reading. -/
def timestampRule (maxFutureOffset : UInt64) (clock : Option UInt64) :
  ParentHeaderValidator := fun header parent =>
  match clock with
  | none => .error .systemTimeError
  | some now =>
    if maxFutureOffset = 0 then .ok ()
    else (timestampRuleAt maxFutureOffset now header).bind fun _ =>
      rejectIf (header.timestamp ≤ parent.timestamp)
        (.timestampOlderThanParent parent.timestamp header.timestamp)

def gasUsedRule : HeaderValidator := fun header =>
  match gasLimitAsU64 header.gasLimit with
  | .error e => .error e
  | .ok gasLimit =>
    rejectIf (header.gasUsed > gasLimit) (.gasUsedExceedsLimit header.gasUsed gasLimit)

def gasLimitBoundsRule (minGasLimit maxGasLimit : UInt64) : HeaderValidator := fun header =>
  match gasLimitAsU64 header.gasLimit with
  | .error e => .error e
  | .ok gasLimit =>
    rejectIf (gasLimit < minGasLimit ∨ gasLimit > maxGasLimit)
      (.gasLimitOutOfBounds minGasLimit maxGasLimit gasLimit)

variable (config : ChainConfig)

def blockParentGasLimitRule : ParentHeaderValidator :=
  fun header parent =>
    match gasLimitAsU64 header.gasLimit, gasLimitAsU64 parent.gasLimit with
    | .error e, _ => .error e
    | .ok _, .error e => .error e
    | .ok limit, .ok parentLimit =>
      let delta := parentLimit / config.gasLimitBoundDivisor
      rejectIf (limit < parentLimit - delta ∨ limit > parentLimit + delta)
        (.gasLimitInvalid parentLimit limit)

/-- `ExtraDataRule`, with its default maximum of 32. -/
def extraDataRule : HeaderValidator := fun header =>
  rejectIf (header.extraData.length > 32) (.extraDataTooLarge 32 header.extraData.length)

/-- `PrevMinGasPriceRule::range`: one percent either way, at least one. -/
def minGasPriceRange (parentMinGasPrice : U256) : U256 × U256 :=
  let quotient := parentMinGasPrice / 100
  let delta := if quotient = 0 then 1 else quotient
  (U256.saturatingSub parentMinGasPrice delta, U256.saturatingAdd parentMinGasPrice delta)

def prevMinGasPriceRule : ParentHeaderValidator := fun header parent =>
  if header.number = 0 then .ok ()
  else
    let (lower, upper) := minGasPriceRange parent.minimumGasPrice
    let got := header.minimumGasPrice
    rejectIf (got < lower ∨ got > upper) (.minGasPriceOutOfRange lower upper got)

/-- `u64` subtraction that stops at zero. -/
def saturatingSub64 (a b : UInt64) : UInt64 := if b ≤ a then a - b else 0

def calculateExpectedDifficulty (header parent : Header) : U256 :=
  let activations := config.activationHeights
  let rskip97Active := match activations.rskip97 with
    | some height => decide (height ≤ header.number)
    | none => false
  let delta := saturatingSub64 header.timestamp parent.timestamp
  if !rskip97Active && decide (600 ≤ delta) then config.minDifficulty
  else if header.timestamp < parent.timestamp then parent.difficulty
  else
    let calcDur := (1 + header.uncleCount) * config.durationLimit
    if calcDur = delta then parent.difficulty
    else
      let divisor : U256 :=
        if activations.papyrus200 ≤ header.number then 400 else config.difficultyDivisor
      let quotient := parent.difficulty / divisor
      let fromParent :=
        if calcDur > delta then parent.difficulty + quotient
        else if parent.difficulty > quotient then parent.difficulty - quotient
        else 0
      if fromParent < config.minDifficulty then config.minDifficulty else fromParent

def difficultyRule : ParentHeaderValidator := fun header parent =>
  let expected := calculateExpectedDifficulty config header parent
  rejectIf (header.difficulty ≠ expected) (.difficultyMismatch expected header.difficulty)

end Rustock
