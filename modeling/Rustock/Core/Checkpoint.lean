import Rustock.Core.Ancestry
import Rustock.Core.Mined

/-!
# The work a chain can carry above a checkpoint

`max_work_between`, the uncle allowance and the ceiling (crates/core/src/checkpoint.rs)
beside the difficulty rule they bound. The rule moves difficulty by one part in `divisor` of the
parent's, up or down, or leaves it; the bound takes, at every block, the lower of the highest
climb from the block before and the highest value from which the rest of the span can still fall
to the next sample.
-/

namespace Rustock

open Lib List U256 Header ChainConfig
open BitVec (ofNat toNat_udiv toNat_allOnes lt_def le_def toNat_mul)

/-- The inverse of a largest fall, saturating. -/
def unfall (div next : U256) : U256 :=
  if next.toNat * div.toNat < 2 ^ 256 then next * div / (div - 1) else U256.max

/-- The ceiling of the block with `remaining` blocks of the span above it: `cap[span - remaining]`.
-/
def cap (div toDifficulty : U256) : Nat → U256
  | 0 => toDifficulty
  | remaining + 1 => unfall div (cap div toDifficulty remaining)

/-- One block of the climb. -/
def climbTo (div minDifficulty ceiling d : U256) : U256 :=
  let risen := saturatingAdd d (d / div)
  let capped := if risen ≤ ceiling then risen else ceiling
  if capped < minDifficulty then minDifficulty else capped

/-- The loop over the blocks of the span. -/
def climb (div minDifficulty toDifficulty : U256) : Nat → U256 → U256 → U256
  | 0, _, total => total
  | remaining + 1, d, total =>
    let d := climbTo div minDifficulty (cap div toDifficulty remaining) d
    climb div minDifficulty toDifficulty remaining d (saturatingAdd total d)

def maxWorkBetween (fromDifficulty toDifficulty : U256) (span divisor : UInt64)
  (minDifficulty : U256) : U256 :=
  if span = 0 ∨ divisor < 2 then 0
  else climb (ofNat 256 divisor.toNat) minDifficulty toDifficulty span.toNat
    fromDifficulty 0

/-- A header above its parent as the difficulty rule has it, RSKIP97 active, where the rule's
divisor at that height is `divisor` and the rise does not overflow. -/
structure NextDifficulty (config : ChainConfig) (divisor : UInt64) (parent header : Header) :
  Prop where
  active : config.activationHeights.rskip97.any (· ≤ header.number) = true
  ruleDivisor : (if config.activationHeights.papyrus200 ≤ header.number then 400
    else config.difficultyDivisor) = ofNat 256 divisor.toNat
  accepted : difficultyRule config header parent = .ok ()
  fits : parent.difficulty.toNat + parent.difficulty.toNat / divisor.toNat < 2 ^ 256

/-- A span of headers above `first`, each retargeted from the one before. -/
abbrev DifficultySpan (config : ChainConfig) (divisor : UInt64) (first : Header)
  (headers : List Header) : Prop :=
  (first :: headers).IsChain (NextDifficulty config divisor)

def workOf (headers : List Header) : Nat := (headers.map (·.difficulty.toNat)).sum

section Bounds

variable {config : ChainConfig} {divisor : UInt64} {parent header : Header}

lemma toNat_clamp (x least : U256) :
  (if x < least then least else x).toNat = max least.toNat x.toNat := by
  split <;> rename_i h <;> rw [lt_def] at h <;> omega

lemma NextDifficulty.cases (h : NextDifficulty config divisor parent header) :
  header.difficulty.toNat = parent.difficulty.toNat ∨
    header.difficulty.toNat = max config.minDifficulty.toNat
      (parent.difficulty.toNat + parent.difficulty.toNat / divisor.toNat) ∨
    header.difficulty.toNat = max config.minDifficulty.toNat
      (parent.difficulty.toNat - parent.difficulty.toNat / divisor.toNat) := by
  have hdiv : (ofNat 256 divisor.toNat).toNat = divisor.toNat :=
    Nat.mod_eq_of_lt (divisor.toNat_lt.trans (by norm_num))
  have hfits := h.fits
  have hrule := h.accepted
  obtain ⟨height, hactive, hle⟩ : ∃ height,
      config.activationHeights.rskip97 = some height ∧ height ≤ header.number := by
    simpa [Option.any_eq_true] using h.active
  unfold difficultyRule at hrule
  simp only [rejectIf_eq_ok, ne_eq, not_not] at hrule
  unfold calculateExpectedDifficulty at hrule
  simp only [hactive, hle, decide_true, Bool.not_true, Bool.false_and, Bool.false_eq_true,
    if_false, h.ruleDivisor] at hrule
  have hquotient : (parent.difficulty / ofNat 256 divisor.toNat).toNat =
      parent.difficulty.toNat / divisor.toNat := by rw [toNat_udiv, hdiv]
  have hbelow : parent.difficulty.toNat / divisor.toNat ≤ parent.difficulty.toNat :=
    Nat.div_le_self _ _
  rw [hrule]
  set q := parent.difficulty / ofNat 256 divisor.toNat
  have hup : (parent.difficulty + q).toNat = parent.difficulty.toNat +
      parent.difficulty.toNat / divisor.toNat := by
    rw [BitVec.toNat_add, hquotient]; exact Nat.mod_eq_of_lt hfits
  have hdown : (if parent.difficulty > q then parent.difficulty - q else 0).toNat =
      parent.difficulty.toNat - parent.difficulty.toNat / divisor.toNat := by
    split
    · rename_i hlt
      rw [BitVec.toNat_sub_of_le (BitVec.le_of_lt hlt), hquotient]
    rename_i hge
    rw [gt_iff_lt, lt_def, hquotient] at hge
    show 0 = _
    omega
  by_cases hearly : header.timestamp < parent.timestamp
  · exact .inl (by rw [if_pos hearly])
  rw [if_neg hearly]
  by_cases hequal : (1 + header.uncleCount) * config.durationLimit =
      saturatingSub64 header.timestamp parent.timestamp
  · exact .inl (by rw [if_pos hequal])
  rw [if_neg hequal, toNat_clamp]
  right
  by_cases hrise : (1 + header.uncleCount) * config.durationLimit >
      saturatingSub64 header.timestamp parent.timestamp
  · exact .inl (by rw [if_pos hrise, hup])
  · exact .inr (by rw [if_neg hrise, hdown])

lemma rise_bound (h : NextDifficulty config divisor parent header) :
  header.difficulty.toNat ≤ max config.minDifficulty.toNat
    (parent.difficulty.toNat + parent.difficulty.toNat / divisor.toNat) := by
  have hcases := h.cases
  generalize parent.difficulty.toNat / divisor.toNat = q at *
  rcases hcases with hd | hd | hd <;> omega

lemma le_of_fall_le {p c m : Nat} (hm : 2 ≤ m) (h : p - p / m ≤ c) : p ≤ c * m / (m - 1) := by
  rw [Nat.le_div_iff_mul_le (by omega)]
  have hfloor : p / m * m ≤ p := Nat.div_mul_le_self p m
  have hle : p ≤ c + p / m := by omega
  obtain ⟨k, rfl⟩ : ∃ k, m = k + 1 := ⟨m - 1, by omega⟩
  have hmul : p * (k + 1) ≤ (c + p / (k + 1)) * (k + 1) := Nat.mul_le_mul_right _ hle
  rw [Nat.add_mul] at hmul
  rw [Nat.mul_succ] at hmul
  simp only [Nat.add_sub_cancel]
  omega

lemma fall_bound (hdiv : 2 ≤ divisor.toNat) (h : NextDifficulty config divisor parent header) :
  parent.difficulty.toNat ≤ header.difficulty.toNat * divisor.toNat / (divisor.toNat - 1) := by
  apply le_of_fall_le hdiv
  have hcases := h.cases
  generalize parent.difficulty.toNat / divisor.toNat = q at *
  rcases hcases with hd | hd | hd <;> omega

variable {div next : U256}

lemma toNat_unfall (hdiv : 2 ≤ div.toNat) :
  min (next.toNat * div.toNat / (div.toNat - 1)) (2 ^ 256 - 1) ≤ (unfall div next).toNat := by
  have hone : (div - 1).toNat = div.toNat - 1 := by
    rw [BitVec.toNat_sub_of_le (by rw [le_def]; simpa using (by omega : 1 ≤ div.toNat))]
    rfl
  unfold unfall
  split
  · rename_i hlt
    rw [toNat_udiv, toNat_mul, Nat.mod_eq_of_lt hlt, hone]
    exact min_le_left _ _
  rw [U256.max, toNat_allOnes]
  exact min_le_right _ _

lemma unfall_mono {a : Nat} (hdiv : 2 ≤ div.toNat) (h : a ≤ next.toNat) {p : Nat}
  (hp : p ≤ a * div.toNat / (div.toNat - 1)) (hfits : p < 2 ^ 256) :
  p ≤ (unfall div next).toNat := by
  refine le_trans (le_min ?_ (by omega)) (toNat_unfall hdiv)
  exact hp.trans (Nat.div_le_div_right (Nat.mul_le_mul_right _ h))

variable {toDifficulty : U256}

lemma le_cap (hdiv : 2 ≤ divisor.toNat) (heq : div.toNat = divisor.toNat) :
  ∀ {headers : List Header} {first : Header}, DifficultySpan config divisor first headers →
    (headers.getLastD first).difficulty.toNat ≤ toDifficulty.toNat →
    first.difficulty.toNat ≤ (cap div toDifficulty headers.length).toNat
  | [], _, _, hlast => hlast
  | next :: rest, first, hspan, hlast => by
    obtain ⟨hstep, hrest⟩ := isChain_cons_cons.mp hspan
    rw [getLastD_cons] at hlast
    have hnext := le_cap hdiv heq hrest hlast
    have hback := fall_bound hdiv hstep
    rw [← heq] at hback
    exact unfall_mono (heq ▸ hdiv) hnext hback first.difficulty.isLt

lemma le_climbTo {ceiling d : U256} (heq : div.toNat = divisor.toNat)
  (h : NextDifficulty config divisor parent header) (hd : parent.difficulty.toNat ≤ d.toNat)
  (hceiling : header.difficulty.toNat ≤ ceiling.toNat) :
  header.difficulty.toNat ≤ (climbTo div config.minDifficulty ceiling d).toNat := by
  have hrise := rise_bound h
  have hquotient : parent.difficulty.toNat / divisor.toNat ≤ d.toNat / divisor.toNat :=
    Nat.div_le_div_right hd
  have hrisen : (saturatingAdd d (d / div)).toNat =
      min (d.toNat + d.toNat / divisor.toNat) (2 ^ 256 - 1) := by
    rw [toNat_saturatingAdd, toNat_udiv, heq]
  unfold climbTo
  rw [toNat_clamp]
  split <;> rename_i hcapped <;> rw [le_def] at hcapped <;> omega

lemma workOf_le_climb (hdiv : 2 ≤ divisor.toNat) (heq : div.toNat = divisor.toNat) :
  ∀ {headers : List Header} {first : Header} {d : U256} (total : U256),
    DifficultySpan config divisor first headers →
    (headers.getLastD first).difficulty.toNat ≤ toDifficulty.toNat →
    first.difficulty.toNat ≤ d.toNat → min (total.toNat + workOf headers) (2 ^ 256 - 1) ≤
      (climb div config.minDifficulty toDifficulty headers.length d total).toNat
  | [], _, _, total, _, _, _ => by
    simp only [workOf, map_nil, sum_nil, climb, length_nil]
    omega
  | next :: rest, first, d, total, hspan, hlast, hd => by
    obtain ⟨hstep, hrest⟩ := isChain_cons_cons.mp hspan
    rw [getLastD_cons] at hlast
    have hnext := le_climbTo heq hstep hd (le_cap hdiv heq hrest hlast)
    have ih := workOf_le_climb hdiv heq (saturatingAdd total
      (climbTo div config.minDifficulty (cap div toDifficulty rest.length) d)) hrest hlast hnext
    refine le_trans ?_ ih
    rw [toNat_saturatingAdd]
    simp only [workOf, map_cons, sum_cons]
    omega

lemma workOf_le_maxWorkBetween {span : UInt64} {first : Header} {headers : List Header}
  (hdiv : 2 ≤ divisor) (hlength : headers.length = span.toNat)
  (hspan : DifficultySpan config divisor first headers)
  (hlast : (headers.getLastD first).difficulty.toNat ≤ toDifficulty.toNat) :
  min (workOf headers) (2 ^ 256 - 1) ≤
    (maxWorkBetween first.difficulty toDifficulty span divisor config.minDifficulty).toNat := by
  have hdivisor : 2 ≤ divisor.toNat := UInt64.le_iff_toNat_le.mp hdiv
  unfold maxWorkBetween
  split
  · rename_i hempty
    rcases hempty with rfl | hsmall
    · have hnil : headers = [] := length_eq_zero_iff.mp hlength
      simp [hnil, workOf]
    rw [UInt64.lt_iff_toNat_lt] at hsmall
    exact absurd hsmall (not_lt.mpr hdivisor)
  have hmod : (ofNat 256 divisor.toNat).toNat = divisor.toNat :=
    Nat.mod_eq_of_lt (divisor.toNat_lt.trans (by norm_num))
  have hclimb := workOf_le_climb hdivisor hmod 0 hspan hlast le_rfl
  rw [← hlength]
  simpa using hclimb

/-- **The ceiling between two samples is sound**: no span that the difficulty rule admits, from
one sample to the next, carries more work. -/
theorem maxWorkBetween_ge {span : UInt64} {first : Header} {headers : List Header}
  (hdiv : 2 ≤ divisor) (hlength : headers.length = span.toNat)
  (hspan : DifficultySpan config divisor first headers) (hfits : workOf headers < 2 ^ 256) :
  workOf headers ≤ (maxWorkBetween first.difficulty (headers.getLastD first).difficulty span
    divisor config.minDifficulty).toNat := by
  have hbound := workOf_le_maxWorkBetween hdiv hlength hspan le_rfl
  omega

end Bounds

namespace DifficultyExample

/-- A mainnet header of height `number` above papyrus200, `seconds` after its era's start. -/
def headerAt (number seconds : UInt64) (difficulty : U256) : Header :=
  { unmined (.zero 32) (3000000 + number) with timestamp := seconds, difficulty }

def fell : Header := headerAt 1 100 3990000000000000000
def rose : Header := headerAt 2 101 3999975000000000000

lemma fell_then_rose :
  DifficultySpan .mainnet 400 (headerAt 0 0 4000000000000000000) [fell, rose] := by
  refine .cons_cons ⟨?_, ?_, ?_, ?_⟩ (.cons_cons ⟨?_, ?_, ?_, ?_⟩ (.singleton _)) <;>
    decide +kernel

theorem maxWorkBetween_ge_two :
  workOf [fell, rose] ≤ (maxWorkBetween (headerAt 0 0 4000000000000000000).difficulty
    rose.difficulty 2 400 mainnet.minDifficulty).toNat := by
  have hfits : workOf [fell, rose] < 2 ^ 256 := by decide +kernel
  exact maxWorkBetween_ge (by decide) rfl fell_then_rose hfits

def unitDivisor : ChainConfig :=
  { mainnet with
    difficultyDivisor := 1
    activationHeights := { ActivationHeights.mainnet with papyrus200 := 0xFFFFFFFFFFFFFFFF } }

def before : Header := headerAt 0 1 7000000000000000
def flat : Header := headerAt 1 0 7000000000000000

lemma flat_span : DifficultySpan unitDivisor 1 before [flat] := by
  refine .cons_cons ⟨?_, ?_, ?_, ?_⟩ (.singleton _) <;> decide +kernel

/-- With a divisor below two the bound is zero, whatever the span carries. -/
theorem maxWorkBetween_of_unit_divisor :
  DifficultySpan unitDivisor 1 before [flat] ∧ workOf [flat] < 2 ^ 256 ∧
    (maxWorkBetween before.difficulty flat.difficulty 1 1 unitDivisor.minDifficulty).toNat <
      workOf [flat] :=
  ⟨flat_span, by decide +kernel, by decide +kernel⟩

end DifficultyExample

structure DifficultyCheckpoint where
  number : UInt64
  hash : B256
  cumulativeDifficulty : U256
  difficulty : U256

structure Sample where
  number : UInt64
  difficulty : U256
  uncleCount : UInt64
deriving DecidableEq

/-- 128-bit unsigned integers; `+`, `-` and `*` wrap. -/
abbrev U128 := BitVec 128

def U128.saturatingAdd (a b : U128) : U128 :=
  if a.toNat + b.toNat < 2 ^ 128 then a + b else BitVec.allOnes 128

def U128.absDiff (a b : U128) : U128 := if a < b then b - a else a - b

def U128.isqrt (a : U128) : U128 := ofNat 128 (Nat.sqrt a.toNat)

def ln3OverDeltaPerMille : U128 := 21821

def checkpointUncleListLimit : UInt64 := 10

def uncleAllowancePerMille (samples : List Sample) : UInt64 :=
  let cap : UInt64 := 1000 + checkpointUncleListLimit * 1000
  let k : U128 := ofNat 128 samples.length
  if k < 2 then cap
  else
    let counts := samples.map fun s => ofNat 128 s.uncleCount.toNat * 1000
    let total := counts.foldl (· + ·) 0
    let mean := total / k
    let ss := (counts.map fun c => let d := U128.absDiff c mean; d * d).foldl (· + ·) 0
    let variance := ss / (k - 1)
    let l := ln3OverDeltaPerMille
    let varianceTerm := U128.isqrt (2 * variance * l / (1000 * k))
    let rangeTerm := 3 * (ofNat 128 checkpointUncleListLimit.toNat * 1000) * l / (1000 * k)
    let uncles := U128.saturatingAdd (U128.saturatingAdd mean varianceTerm) rangeTerm
    UInt64.ofNat (min (1000 + uncles).toNat cap.toNat)

/-- The work of a gap with its uncles. -/
def scale (allowance : UInt64) (work : U256) : U256 :=
  saturatingMul work (ofNat 256 allowance.toNat) / 1000

section CeilingFor

variable (divisor : UInt64) (minDifficulty : U256)

structure Climbed where
  total : U256
  number : UInt64
  difficulty : U256

/-- One gap: from the last sample used up to `number`. -/
def Climbed.gap (allowance : UInt64) (c : Climbed) (number : UInt64) (difficulty : U256) : U256 :=
  saturatingAdd c.total (scale allowance
    (maxWorkBetween c.difficulty difficulty (number - c.number) divisor minDifficulty))

def Climbed.sample (allowance : UInt64) (c : Climbed) (s : Sample) : Climbed :=
  if s.number ≤ c.number then c
  else ⟨c.gap divisor minDifficulty allowance s.number s.difficulty, s.number, s.difficulty⟩

def Climbed.head (allowance : UInt64) (c : Climbed) (head : UInt64) : U256 :=
  if c.number < head then c.gap divisor minDifficulty allowance head U256.max else c.total

def ceilingFor (checkpoint : DifficultyCheckpoint) (samples : List Sample) (head : UInt64) : U256 :=
  let allowance := uncleAllowancePerMille samples
  (samples.foldl (Climbed.sample divisor minDifficulty allowance)
    ⟨checkpoint.cumulativeDifficulty, checkpoint.number, checkpoint.difficulty⟩).head
      divisor minDifficulty allowance head

variable {divisor minDifficulty}

theorem Climbed.total_le_gap (allowance : UInt64) (c : Climbed) (number : UInt64)
    (difficulty : U256) : c.total ≤ c.gap divisor minDifficulty allowance number difficulty := by
  rw [le_def, gap, toNat_saturatingAdd]
  have := c.total.isLt
  omega

/-- The climb starts at the checkpoint's total and never comes below it. -/
theorem cumulativeDifficulty_le_ceilingFor (checkpoint : DifficultyCheckpoint)
    (samples : List Sample) (head : UInt64) : checkpoint.cumulativeDifficulty ≤
      ceilingFor divisor minDifficulty checkpoint samples head := by
  have hclimb (allowance : UInt64) (samples : List Sample) (c : Climbed) : c.total ≤
      (samples.foldl (Climbed.sample divisor minDifficulty allowance) c).total := by
    induction samples generalizing c with
    | nil => exact BitVec.le_refl _
    | cons s samples ih =>
      refine BitVec.le_trans ?_ (ih _)
      unfold Climbed.sample
      split
      · exact BitVec.le_refl _
      · exact c.total_le_gap ..
  refine BitVec.le_trans (hclimb (uncleAllowancePerMille samples) samples
    ⟨checkpoint.cumulativeDifficulty, checkpoint.number, checkpoint.difficulty⟩) ?_
  unfold ceilingFor Climbed.head
  dsimp only
  split
  · exact Climbed.total_le_gap ..
  · exact BitVec.le_refl _

end CeilingFor

def Block.contribution (b : Block) : Nat := b.header.difficulty.toNat + workOf b.ommers

def contributions (blocks : List Block) : Nat := (blocks.map Block.contribution).sum

structure NextBlock (config : ChainConfig) (divisor : UInt64) (parent header : Header) :
  Prop extends NextDifficulty config divisor parent header where
  number : header.number.toNat = parent.number.toNat + 1

abbrev ChainAbove (config : ChainConfig) (divisor : UInt64) (first : Header)
  (blocks : List Block) : Prop :=
  (first :: blocks.map (·.header)).IsChain (NextBlock config divisor)

section Ceiling

variable {config : ChainConfig} {divisor : UInt64} {allowance : UInt64}

lemma contributions_cons (b : Block) (blocks : List Block) :
  contributions (b :: blocks) = b.contribution + contributions blocks := rfl

variable {blocks : List Block}

lemma ChainAbove.split {seg rest : List Block} :
  ∀ {first : Header}, ChainAbove config divisor first (seg ++ rest) →
    ChainAbove config divisor first seg ∧
      ChainAbove config divisor ((seg.map (·.header)).getLastD first) rest := by
  induction seg with
  | nil => intro first h; exact ⟨.singleton _, h⟩
  | cons b seg ih =>
    intro first h
    obtain ⟨hstep, hrest⟩ := isChain_cons_cons.mp h
    obtain ⟨hseg, hafter⟩ := ih hrest
    refine ⟨isChain_cons_cons.mpr ⟨hstep, hseg⟩, ?_⟩
    rwa [map_cons, getLastD_cons]

end Ceiling

namespace CeilingExample

def grand : Header := { unmined (.zero 32) 3000000 with difficulty := 4000000000000000000 }

def grandHash : B256 :=
  ⟨[240, 213, 98, 37, 68, 184, 192, 157, 151, 202, 19, 30, 234, 119, 55, 51, 134, 73, 34,
     203, 121, 116, 227, 139, 242, 180, 59, 241, 248, 68, 10, 237], rfl⟩

def base : Header :=
  { unmined grandHash 3000001 with timestamp := 1000, difficulty := 3990000000000000000 }

def baseHash : B256 :=
  ⟨[76, 210, 222, 220, 78, 248, 179, 110, 202, 133, 39, 156, 135, 178, 96, 62, 12, 98, 46,
     163, 241, 180, 55, 243, 146, 50, 90, 44, 157, 254, 226, 90], rfl⟩

def uncle (gasUsed : UInt64) : Header :=
  { unmined grandHash 3000001 with
    timestamp := 1, gasUsed, difficulty := 4010000000000000000 }

def top : Header :=
  { unmined baseHash 3000002 with
    timestamp := 2000, uncleCount := 10, difficulty := 3980025000000000000 }

def block : Block := ⟨top, [], [0, 1, 2, 3, 4, 5, 6, 7, 8, 9].map uncle⟩

def source : AncestorSource where
  header h := if h = baseHash then some base else if h = grandHash then some grand else none
  unclesOf _ := []

def rule : UnclesValidationRule where
  current := .mainnet
  store := source
  uncleListLimit := uncleListLimit
  uncleGenerationLimit := uncleGenerationLimit
  headerRules := []
  parentRules := [difficultyRule .mainnet]

def checkpoint : DifficultyCheckpoint where
  number := base.number
  hash := baseHash
  cumulativeDifficulty := 100000000000000000000
  difficulty := base.difficulty

def sample : Sample := ⟨top.number, top.difficulty, top.uncleCount⟩

def above : Header :=
  { unmined (.zero 32) 3000003 with timestamp := 3000, difficulty := 3970074937500000000 }

end CeilingExample

end Rustock
