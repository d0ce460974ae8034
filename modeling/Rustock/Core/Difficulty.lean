import Mathlib
import Rustock.Core.Checkpoint
import Rustock.Core.MergedMiningBinding

/-!
# The retarget rule over the integers

`calculateExpectedDifficulty` (crates/core/src/validation/difficulty.rs) computes the target
duration in `u64` and the risen difficulty in 256 bits, and both wrap in a release build.
`retarget` is the rule over the natural numbers; the two agree on exactly the inputs that
are `Fits`.
-/

namespace Rustock

open UInt64 Header

/-- What one retarget reads, as natural numbers; `calcDur` is not wrapped. -/
structure RetargetInput where
  early : Bool
  backwards : Bool
  delta : Nat
  calcDur : Nat
  parent : Nat
  quotient : Nat
  least : Nat

def retargetInput (config : ChainConfig) (header parent : Header) : RetargetInput where
  early := !(config.activationHeights.rskip97.any (decide <| · ≤ header.number)) &&
    decide (600 ≤ header.timestamp.toNat - parent.timestamp.toNat)
  backwards := decide (header.timestamp < parent.timestamp)
  delta := header.timestamp.toNat - parent.timestamp.toNat
  calcDur := (1 + header.uncleCount.toNat) * config.durationLimit.toNat
  parent := parent.difficulty.toNat
  quotient := parent.difficulty.toNat /
    (if config.activationHeights.papyrus200 ≤ header.number then 400
      else config.difficultyDivisor.toNat)
  least := config.minDifficulty.toNat

namespace RetargetInput

variable (x : RetargetInput)

/-- The retarget rule over unbounded integers. -/
def retarget : Nat :=
  if x.early then x.least
  else if x.backwards then x.parent
  else if x.calcDur = x.delta then x.parent
  else max x.least
    (if x.delta < x.calcDur then x.parent + x.quotient else x.parent - x.quotient)

/-- The same with the duration in `u64` and the rise in 256 bits. -/
def wrapping : Nat :=
  if x.early then x.least
  else if x.backwards then x.parent
  else if x.calcDur % 2 ^ 64 = x.delta then x.parent
  else max x.least
    (if x.delta < x.calcDur % 2 ^ 64 then (x.parent + x.quotient) % 2 ^ 256
      else x.parent - x.quotient)

/-- No wrap shows in the result. A wrapped duration is above every `delta`, so the rule
rises where the code stands still or falls. -/
def Fits : Prop :=
  x.early = true ∨ x.backwards = true ∨
    if x.calcDur % 2 ^ 64 = x.delta then
      x.calcDur = x.delta ∨ x.quotient = 0 ∧ x.least ≤ x.parent
    else if x.delta < x.calcDur % 2 ^ 64 then x.parent + x.quotient < 2 ^ 256
    else x.calcDur < 2 ^ 64 ∨ x.quotient = 0 ∨ x.parent + x.quotient ≤ x.least

lemma wrapping_eq_retarget_iff {x : RetargetInput} (hdelta : x.delta < 2 ^ 64)
  (hleast : x.least < 2 ^ 256) : x.wrapping = x.retarget ↔ x.Fits := by
  obtain ⟨early, backwards, delta, calcDur, parent, quotient, least⟩ := x
  unfold wrapping retarget Fits
  dsimp only at hdelta hleast ⊢
  cases early
  case true => simp
  cases backwards
  case true => simp
  simp only [Bool.false_eq_true, if_false, false_or]
  -- the wrapped duration decides what the code does, the exact one what the rule asks
  have hwrap : calcDur = calcDur % 2 ^ 64 ∨ 2 ^ 64 ≤ calcDur := by omega
  by_cases heq : calcDur % 2 ^ 64 = delta
  · rw [if_pos heq, if_pos heq]
    by_cases hexact : calcDur = delta
    · simp [hexact]
    rw [if_neg hexact, if_pos (by omega)]
    omega
  rw [if_neg heq, if_neg heq, if_neg (show calcDur ≠ delta by omega)]
  by_cases hrise : delta < calcDur % 2 ^ 64
  · rw [if_pos hrise, if_pos hrise, if_pos (by omega)]
    have := Nat.mod_lt (parent + quotient) (show 0 < 2 ^ 256 by norm_num)
    constructor
    · intro h
      omega
    intro h
    rw [Nat.mod_eq_of_lt h]
  rw [if_neg hrise, if_neg hrise]
  by_cases hlt : delta < calcDur
  · rw [if_pos hlt]
    omega
  rw [if_neg hlt]
  exact iff_of_true rfl (.inl (by omega))

end RetargetInput

section Code

variable (config : ChainConfig) (header parent : Header)

lemma toNat_saturatingSub64 (a b : UInt64) : (saturatingSub64 a b).toNat = a.toNat - b.toNat := by
  unfold saturatingSub64
  split
  · rename_i h
    exact UInt64.toNat_sub_of_le _ _ h
  rename_i h
  rw [le_iff_toNat_le] at h
  show 0 = _
  omega

lemma toNat_calcDur : ((1 + header.uncleCount) * config.durationLimit).toNat =
  (1 + header.uncleCount.toNat) * config.durationLimit.toNat % 2 ^ 64 := by
  rw [UInt64.toNat_mul, UInt64.toNat_add, Nat.mod_mul_mod]
  rfl

lemma calculateExpectedDifficulty_toNat : (calculateExpectedDifficulty config header parent).toNat =
    (retargetInput config header parent).wrapping := by
  have hdelta := toNat_saturatingSub64 header.timestamp parent.timestamp
  have hdur := toNat_calcDur config header
  have hlate : 600 ≤ saturatingSub64 header.timestamp parent.timestamp ↔
      600 ≤ header.timestamp.toNat - parent.timestamp.toNat := by
    rw [le_iff_toNat_le, hdelta]
    rfl
  have hquotient : (parent.difficulty / (if config.activationHeights.papyrus200 ≤ header.number
      then (400 : U256) else config.difficultyDivisor)).toNat =
      (retargetInput config header parent).quotient := by
    rw [BitVec.toNat_udiv, apply_ite BitVec.toNat]
    rfl
  have hle : (retargetInput config header parent).quotient ≤ parent.difficulty.toNat :=
    Nat.div_le_self _ _
  unfold calculateExpectedDifficulty RetargetInput.wrapping
  dsimp only
  set q := parent.difficulty / (if config.activationHeights.papyrus200 ≤ header.number
    then (400 : U256) else config.difficultyDivisor)
  have hdown : (if parent.difficulty > q then parent.difficulty - q else 0).toNat =
      parent.difficulty.toNat - (retargetInput config header parent).quotient := by
    rw [← hquotient] at hle ⊢
    split
    · exact BitVec.toNat_sub_of_le hle
    rename_i h
    rw [gt_iff_lt, BitVec.lt_def] at h
    show 0 = _
    omega
  rw [apply_ite BitVec.toNat]
  refine if_congr ?_ rfl ?_
  · unfold retargetInput
    cases config.activationHeights.rskip97 <;> simp [hlate]
  rw [apply_ite BitVec.toNat]
  refine if_congr (by simp [retargetInput]) rfl ?_
  rw [apply_ite BitVec.toNat]
  refine if_congr (by rw [← UInt64.toNat_inj, hdur, hdelta]; rfl) rfl ?_
  rw [toNat_clamp, apply_ite BitVec.toNat, hdown, BitVec.toNat_add, hquotient]
  refine congrArg (max _) (if_congr ?_ rfl rfl)
  rw [gt_iff_lt, lt_iff_toNat_lt, hdur, hdelta]
  rfl

theorem calculateExpectedDifficulty_eq_retarget_iff :
  (calculateExpectedDifficulty config header parent).toNat =
      (retargetInput config header parent).retarget ↔
    (retargetInput config header parent).Fits := by
  rw [calculateExpectedDifficulty_toNat]
  refine RetargetInput.wrapping_eq_retarget_iff ?_ config.minDifficulty.isLt
  exact (Nat.sub_le _ _).trans_lt header.timestamp.toNat_lt

end Code

/-- With `2 ^ 64 - 1` uncles the duration wraps to zero and the code lowers a difficulty
that the rule raises; near `2 ^ 256` a rise wraps to the minimum. -/
theorem retarget_wraps : let parent : Header := { blank with difficulty := 8000000000000000 }
    let header : Header :=
      { blank with number := 3000000, timestamp := 10, uncleCount := 0xFFFFFFFFFFFFFFFF }
    let top : Header := { blank with difficulty := U256.max }
    let child : Header := { blank with number := 3000000, timestamp := 10 }
    (calculateExpectedDifficulty .mainnet header parent).toNat = 7980000000000000 ∧
      (retargetInput .mainnet header parent).retarget = 8020000000000000 ∧
      (calculateExpectedDifficulty .mainnet child top).toNat < 2 ^ 255 ∧
      2 ^ 256 < (retargetInput .mainnet child top).retarget := by
  decide +kernel

end Rustock
