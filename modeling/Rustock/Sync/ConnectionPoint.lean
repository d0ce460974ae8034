import Mathlib

/-!
# The connection-point search (sync/service.rs)

To find the highest block it shares with a peer, a node asks for the peer's block at one height
after another: it gallops down from its head, bisects the bracket it has found, and confirms height
0 with a probe of its own before it settles there. Heights are `u64`.
-/

namespace Rustock

open Nat (log pow_succ sub_le)

inductive Probe where
  | gallop (step : ℕ)
  | bisect (start stop : ℕ)
  | noCommonAncestor
  deriving Repr, DecidableEq

/-- The states of `SyncState` the search moves between. -/
inductive Search where
  | finding (start stop : ℕ) (gallop : Option ℕ)
  | downloadingSkeleton (connectionPoint : ℕ)
  | idle
  deriving Repr, DecidableEq

namespace Search

def maxGallopStep : ℕ := 512

/-- `u64::MAX`: from any `stop`, the probe is of height 0. -/
def confirmLowest : ℕ := 2 ^ 64 - 1

def advanceConnectionPoint (start stop : ℕ) (gallop : Option ℕ) (probed : ℕ) (known : Bool) :
  Probe :=
  let next : Probe := match gallop, known with
    | some step, false =>
      if probed = 0 then .noCommonAncestor
      else if maxGallopStep ≤ step then .bisect start probed
      else .gallop (min (step * 2) (2 ^ 64 - 1))
    | some step, true => .bisect probed (stop - step / 2)
    | none, true => .bisect probed stop
    | none, false => .bisect start probed
  match next with
  | .bisect low high =>
    if low = 0 ∧ high ≤ 1 ∧ ¬(known = true ∧ probed = 0) ∧ gallop ≠ some confirmLowest then
      .gallop confirmLowest
    else .bisect low high
  | other => other

/-- The subtraction of a step saturates, that of `start` wraps. -/
def connectionPointProbeHeight (start stop : ℕ) : Option ℕ → ℕ
  | some step => stop - step
  | none => (start + (stop + 2 ^ 64 - start) % 2 ^ 64 / 2) % 2 ^ 64

/-- Where the store can be read; `known` is whether it has the peer's block at a height. -/
def onBlockHashResponse (known : ℕ → Bool) : Search → Search
  | .finding start stop gallop =>
    let probed := connectionPointProbeHeight start stop gallop
    match advanceConnectionPoint start stop gallop probed (known probed) with
    | .noCommonAncestor => .idle
    | .gallop step => .finding start stop (some step)
    | .bisect newStart newStop =>
      if newStop - newStart ≤ 1 then .downloadingSkeleton newStart
      else .finding newStart newStop none
  | other => other

def probed : Search → Option ℕ
  | .finding start stop gallop => some (connectionPointProbeHeight start stop gallop)
  | _ => none

/-- The search below `head` after `n` answers; an answer may depend on when it is given. -/
def run (answer : ℕ → ℕ → Bool) (head : ℕ) : ℕ → Search
  | 0 => .finding 0 head (some 1)
  | n + 1 => (run answer head n).onBlockHashResponse (answer n)

/-- One of the first `n` probes was of this height and had this answer. -/
def Answered (answer : ℕ → ℕ → Bool) (head n : ℕ) (known : Bool) (height : ℕ) : Prop :=
  ∃ i < n, (run answer head i).probed = some height ∧ answer i height = known

lemma middle_eq {start stop : ℕ} (h : start ≤ stop) (hstop : stop < 2 ^ 64) :
  connectionPointProbeHeight start stop none = start + (stop - start) / 2 := by
  rw [connectionPointProbeHeight]
  omega

section Narrowed

variable (head : ℕ) (yes no : ℕ → Prop)

/-- A bracket of at most `2 ^ m` heights. Only an open one may rest on height 0 unasked. -/
structure Bracket (m start stop : ℕ) : Prop where
  ordered : start < stop
  width : stop ≤ start + 2 ^ m
  lower : yes start ∨ start = 0 ∧ 2 ≤ stop
  upper : no stop
  below : stop ≤ head

/-- **What the search knows.** `yes` and `no` are heights it was told are shared and are not, with
`head` among the latter; at most `left` more probes end it. -/
inductive Narrowed : ℕ → Search → Prop
  | gallop {k left : ℕ} (hk : k ≤ 9) (hlow : 2 ^ k / 2 < head) (hno : no (head - 2 ^ k / 2))
      (hleft : log 2 head + 12 - k ≤ left) : Narrowed left (.finding 0 head (some (2 ^ k)))
  | bisect {m left start stop : ℕ} (h : Bracket head yes no m start stop)
      (hopen : start + 2 ≤ stop) (hleft : m < left) : Narrowed left (.finding start stop none)
  | confirm {left stop : ℕ} (hstop : stop ≤ 513) (hno : no 1) (hhead : 1 ≤ head)
      (hleft : 0 < left) : Narrowed left (.finding 0 stop (some confirmLowest))
  | found {left height : ℕ} (hyes : yes height) (hno : no (height + 1)) (hhead : height < head) :
      Narrowed left (.downloadingSkeleton height)
  | idle {left : ℕ} (hno : no 0) : Narrowed left .idle

end Narrowed

section Step

variable {head k m left start stop : ℕ} {yes no : ℕ → Prop} {known : ℕ → Bool}

lemma Bracket.settle (h : Bracket head yes no m start stop) (hleft : m < left) :
  Narrowed head yes no left
    (if stop - start ≤ 1 then .downloadingSkeleton start else .finding start stop none) := by
  have hordered := h.ordered
  split
  · have hclosed : stop = start + 1 := by omega
    have hyes : yes start := h.lower.resolve_right (by omega)
    exact .found hyes (hclosed ▸ h.upper) (by have := h.below; omega)
  · exact .bisect h (by omega) hleft

lemma Narrowed.step_gallop (hk : k ≤ 9) (hlow : 2 ^ k / 2 < head) (hno : no (head - 2 ^ k / 2))
  (hleft : log 2 head + 12 - k ≤ left + 1)
  (hyes' : known (head - 2 ^ k) = true → yes (head - 2 ^ k))
  (hno' : known (head - 2 ^ k) = false → no (head - 2 ^ k)) :
  Narrowed head yes no left (onBlockHashResponse known (.finding 0 head (some (2 ^ k)))) := by
  have hpow : 2 ^ k ≤ 512 := Nat.pow_le_pow_right (by omega) hk
  have hone : 1 ≤ 2 ^ k := Nat.one_le_two_pow
  simp only [onBlockHashResponse, connectionPointProbeHeight]
  cases hknown : known (head - 2 ^ k) with
  | true =>
    -- the lowest height rejected so far is half a step above
    have hnext : advanceConnectionPoint 0 head (some (2 ^ k)) (head - 2 ^ k) true =
        .bisect (head - 2 ^ k) (head - 2 ^ k / 2) :=
      if_neg fun h => h.2.2.1 ⟨rfl, h.1⟩
    have hlog : k ≤ log 2 head + 1 := by
      cases k with
      | zero => omega
      | succ j =>
        rw [pow_succ, Nat.mul_div_cancel _ (by omega)] at hlow
        have := Nat.le_log_of_pow_le (b := 2) (by omega) hlow.le
        omega
    simp only [hnext]
    exact Bracket.settle (m := k)
      ⟨by omega, by omega, .inl (hyes' hknown), hno, sub_le ..⟩ (by omega)
  | false =>
    by_cases hbottom : head - 2 ^ k = 0
    · simp only [advanceConnectionPoint, if_pos hbottom]
      exact .idle (hbottom ▸ hno' hknown)
    by_cases hlast : maxGallopStep ≤ 2 ^ k
    · have hlast' : 512 ≤ 2 ^ k := hlast
      by_cases hlowest : head - 2 ^ k ≤ 1
      · have hnext : advanceConnectionPoint 0 head (some (2 ^ k)) (head - 2 ^ k) false =
            .gallop confirmLowest := by
          simp only [advanceConnectionPoint, if_neg hbottom, if_pos hlast]
          exact if_pos ⟨trivial, hlowest, by simp, by simp [confirmLowest]; omega⟩
        have hprobe : head - 2 ^ k = 1 := by omega
        simp only [hnext]
        exact .confirm (by omega) (hprobe ▸ hno' hknown) (by omega) (by omega)
      have hnext : advanceConnectionPoint 0 head (some (2 ^ k)) (head - 2 ^ k) false =
          .bisect 0 (head - 2 ^ k) := by
        simp only [advanceConnectionPoint, if_neg hbottom, if_pos hlast]
        exact if_neg fun h => hlowest h.2.1
      have hlog := Nat.lt_pow_succ_log_self (b := 2) (by omega) head
      simp only [hnext]
      exact Bracket.settle (m := log 2 head + 1)
        ⟨by omega, by omega, .inr ⟨rfl, by omega⟩, hno' hknown, sub_le ..⟩ (by omega)
    have hlast' : 2 ^ k < 512 := Nat.lt_of_not_le hlast
    have hk9 : k ≠ 9 := by
      rintro rfl
      omega
    have hdouble : min (2 ^ k * 2) (2 ^ 64 - 1) = 2 ^ (k + 1) := by
      rw [pow_succ]
      omega
    have hhalf : 2 ^ (k + 1) / 2 = 2 ^ k := by
      rw [pow_succ]
      omega
    simp only [advanceConnectionPoint, if_neg hbottom, if_neg hlast, hdouble]
    exact .gallop (by omega) (by omega) (hhalf.symm ▸ hno' hknown) (by omega)

lemma Narrowed.step_bisect (h : Bracket head yes no m start stop) (hopen : start + 2 ≤ stop)
  (hhead : head < 2 ^ 64) (hleft : m < left + 1)
  (hyes' : known (connectionPointProbeHeight start stop none) = true →
    yes (connectionPointProbeHeight start stop none))
  (hno' : known (connectionPointProbeHeight start stop none) = false →
    no (connectionPointProbeHeight start stop none)) :
  Narrowed head yes no left (onBlockHashResponse known (.finding start stop none)) := by
  obtain ⟨hordered, hwidth, hlower, hupper, hbelow⟩ := h
  have hprobe := @middle_eq start stop (by omega) (by omega)
  simp only [onBlockHashResponse]
  generalize connectionPointProbeHeight start stop none = probe at *
  -- the halves of the bracket are at most half as wide, rounded up
  obtain ⟨j, rfl⟩ : ∃ j, m = j + 1 := by
    cases m with
    | zero => omega
    | succ j => exact ⟨j, rfl⟩
  rw [pow_succ] at hwidth
  cases hknown : known probe with
  | true =>
    have hnext : advanceConnectionPoint start stop none probe true = .bisect probe stop :=
      if_neg fun h => by omega
    simp only [hnext]
    exact Bracket.settle (m := j)
      ⟨by omega, by omega, .inl (hyes' hknown), hupper, hbelow⟩ (by omega)
  | false =>
    by_cases hlowest : start = 0 ∧ probe ≤ 1
    · have hnext : advanceConnectionPoint start stop none probe false = .gallop confirmLowest :=
        if_pos ⟨hlowest.1, hlowest.2, by simp, by simp⟩
      obtain ⟨rfl, hle⟩ := hlowest
      have hone : probe = 1 := by omega
      simp only [hnext]
      exact .confirm (by omega) (hone ▸ hno' hknown) (by omega) (by omega)
    have hnext : advanceConnectionPoint start stop none probe false = .bisect start probe :=
      if_neg fun h => hlowest ⟨h.1, h.2.1⟩
    have hlower' : yes start ∨ start = 0 ∧ 2 ≤ probe := hlower.imp_right fun h => by omega
    simp only [hnext]
    exact Bracket.settle (m := j)
      ⟨by omega, by omega, hlower', hno' hknown, by omega⟩ (by omega)

lemma probe_confirmLowest (hstop : stop ≤ 513) :
  connectionPointProbeHeight 0 stop (some confirmLowest) = 0 := by
  rw [connectionPointProbeHeight, confirmLowest]
  omega

lemma Narrowed.step_confirm (hstop : stop ≤ 513) (hno : no 1) (hhead : 1 ≤ head)
  (hyes' : known 0 = true → yes 0) (hno' : known 0 = false → no 0) : Narrowed head yes no left
    (onBlockHashResponse known (.finding 0 stop (some confirmLowest))) := by
  simp only [onBlockHashResponse, probe_confirmLowest hstop]
  cases hknown : known 0 with
  | true =>
    have hnext : advanceConnectionPoint 0 stop (some confirmLowest) 0 true =
        .bisect 0 (stop - confirmLowest / 2) := by
      simp only [advanceConnectionPoint]
      exact if_neg fun h => h.2.2.2 rfl
    have hclosed : stop - confirmLowest / 2 = 0 := by
      rw [confirmLowest]
      omega
    simp only [hnext, hclosed]
    exact .found (hyes' hknown) hno hhead
  | false => exact .idle (hno' hknown)

lemma Narrowed.step {s : Search} (hhead : head < 2 ^ 64) (h : Narrowed head yes no (left + 1) s)
  (hyes : ∀ p, s.probed = some p → known p = true → yes p)
  (hno : ∀ p, s.probed = some p → known p = false → no p) :
  Narrowed head yes no left (s.onBlockHashResponse known) := by
  cases h with
  | gallop hk hlow hrejected hleft =>
    exact step_gallop hk hlow hrejected hleft (hyes _ rfl) (hno _ rfl)
  | bisect h hopen hleft => exact step_bisect h hopen hhead hleft (hyes _ rfl) (hno _ rfl)
  | confirm hstop hone hhead _ =>
    have hprobed := congrArg some (probe_confirmLowest hstop)
    exact step_confirm hstop hone hhead (hyes 0 hprobed) (hno 0 hprobed)
  | found hshared hnext hhead => exact .found hshared hnext hhead
  | idle hzero => exact .idle hzero

lemma Narrowed.ended {s : Search} (h : Narrowed head yes no 0 s) :
  (∃ height, s = .downloadingSkeleton height ∧ yes height ∧ no (height + 1) ∧ height < head) ∨
    s = .idle ∧ no 0 := by
  cases h with
  | gallop | bisect | confirm => omega
  | found hshared hnext hhead => exact .inl ⟨_, rfl, hshared, hnext, hhead⟩
  | idle hzero => exact .inr ⟨rfl, hzero⟩

end Step

lemma narrowed_run (answer : ℕ → ℕ → Bool) {head : ℕ} (hpos : 1 ≤ head) (hhead : head < 2 ^ 64)
  (total : ℕ) : ∀ n ≤ total, Narrowed head (Answered answer head total true)
    (fun p => Answered answer head total false p ∨ p = head) (log 2 head + 12 - n)
    (run answer head n)
  | 0, _ => .gallop (k := 0) (by omega) hpos (.inr rfl) (by omega)
  | n + 1, hn => by
    have ih := narrowed_run answer hpos hhead total n (by omega)
    by_cases hleft : log 2 head + 12 ≤ n
    · rw [Nat.sub_eq_zero_of_le hleft] at ih
      rw [run]
      rcases ih.ended with ⟨height, hs, hshared, hnext, hlt⟩ | ⟨hs, hzero⟩
      · rw [hs]
        exact .found hshared hnext hlt
      rw [hs]
      exact .idle hzero
    have hnow : log 2 head + 12 - n = log 2 head + 12 - (n + 1) + 1 := by omega
    rw [hnow] at ih
    exact ih.step hhead (fun p hp hknown => ⟨n, by omega, hp, hknown⟩)
      (fun p hp hknown => .inl ⟨n, by omega, hp, hknown⟩)

/-- **The fork search finds the fork and ends.** From any head above 0: with the answers of a chain
that shares exactly the heights up to `f`, or none, the search ends at `min f (head - 1)`, or
without a common ancestor; and whatever the answers, it ends within `log₂ head + 12` probes, at no
height but one it was told is shared, and no bracket it bisects is reversed. -/
theorem search_ends_at_fork {head : ℕ} (hpos : 1 ≤ head) (hhead : head < 2 ^ 64) :
  (∀ shared : Option ℕ, run (fun _ h => shared.any (h ≤ ·)) head (log 2 head + 12) =
      match shared with
      | some f => .downloadingSkeleton (min f (head - 1))
      | none => .idle) ∧ ∀ answer : ℕ → ℕ → Bool,
    (run answer head (log 2 head + 12)).probed = none ∧
    (∀ n h, run answer head n = .downloadingSkeleton h → Answered answer head n true h) ∧
    ∀ n start stop, run answer head n = .finding start stop none → start ≤ stop := by
  have hended := fun answer => narrowed_run answer hpos hhead _ (log 2 head + 12) le_rfl
  simp only [Nat.sub_self] at hended
  refine ⟨fun shared => ?_, fun answer => ⟨?_, fun n h hrun => ?_, fun n start stop hrun => ?_⟩⟩
  · rcases (hended fun _ h => shared.any (h ≤ ·)).ended with
      ⟨height, hs, ⟨_, _, _, hheight⟩, hno, hlt⟩ | ⟨hs, hno⟩
    · rw [hs]
      cases shared with
      | none => cases hheight
      | some f =>
        have hheight : height ≤ f := of_decide_eq_true hheight
        refine congrArg Search.downloadingSkeleton ?_
        rcases hno with ⟨_, _, _, hunshared⟩ | hfirst
        · have hunshared : ¬height + 1 ≤ f := of_decide_eq_false hunshared
          omega
        · omega
    rw [hs]
    cases shared with
    | none => rfl
    | some f =>
      rcases hno with ⟨_, _, _, hunshared⟩ | hzero
      · exact absurd (Nat.zero_le f) (of_decide_eq_false hunshared)
      · omega
  · rcases (hended answer).ended with ⟨height, hs, _⟩ | ⟨hs, _⟩ <;> exact hs ▸ rfl
  · have hnow := narrowed_run answer hpos hhead n n le_rfl
    rw [hrun] at hnow
    cases hnow with
    | found hyes => exact hyes
  have hnow := narrowed_run answer hpos hhead n n le_rfl
  rw [hrun] at hnow
  cases hnow with
  | bisect h => exact h.ordered.le

theorem search_ends_at_fork_thousand :
  run (fun _ h => (some 700).any (h ≤ ·)) 1000 21 = .downloadingSkeleton 700 :=
  (@search_ends_at_fork 1000 (by decide) (by decide)).1 (some 700)

end Search

end Rustock
