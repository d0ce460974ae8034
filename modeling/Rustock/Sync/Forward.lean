import Rustock.Sync.HeaderWalk
import Rustock.Sync.UncleGuard

/-!
# Forward sync

`ForwardSync` (crates/sync/src/snap/forward.rs) climbs from an anchor. Runs of headers come
with their uncles and in any order; a run that does not yet link is kept until the prefix reaches
it, and then its work is added.

An uncle's reuse is judged when its run arrives, against the runs consumed by then and the run
itself. Two runs that list the same uncle are both accepted if the later one comes first.

What is only read by `wants` or only written to the store is not modelled.
-/

namespace Rustock

open Lib List Except U256 HeaderWithUncles
open OrdMap (insert get? erase mem_erase)

/-- Without `UnclesMissing`, which nothing raises. A reason is the error itself, not its text. -/
inductive AscentError where
  | invalidHeader (number : UInt64) (reason : ValidationError)
  | brokenChunk (point : UInt64)
  | uncleCommitment (number : UInt64)
  | uncleProofOfWork (number : UInt64) (hash : B256) (reason : ValidationError)
  | uncleReused (hash : B256)
deriving DecidableEq

/-- Without what only `commit` reads. -/
structure AscentRun where
  newest : B256
  newestNumber : UInt64
  oldestNumber : UInt64
  oldestParent : B256
  work : U256
  uncles : List (UInt64 × B256)

structure ForwardSync where
  haveNumber : UInt64
  haveHash : B256
  target : UInt64
  runs : List (UInt64 × AscentRun)
  work : U256
  countedUncles : List (UInt64 × B256)
  done : Bool

structure AscentAnswer where
  point : UInt64
  entries : List HeaderWithUncles

/-- What a run's entries come to. -/
structure Tally where
  work : U256
  uncles : List (UInt64 × B256)
  seen : List B256

namespace ForwardSync

def new (anchorNumber : UInt64) (anchorHash : B256) (anchorWork : U256) (target : UInt64) :
  ForwardSync where
  haveNumber := anchorNumber
  haveHash := anchorHash
  target := target
  runs := []
  work := anchorWork
  countedUncles := []
  done := target ≤ anchorNumber

section Answers

variable (current : ActivationHeights) (verifier : HeaderVerifier)

def tallyUncle (counted : List (UInt64 × B256)) (number : UInt64) (t : Tally) (uncle : Header) :
  Except AscentError Tally :=
  match verifier.verify uncle none with
  | .error e => .error (.uncleProofOfWork number (uncle.hash current) e)
  | .ok () =>
    if counted.any (·.2 = uncle.hash current) || t.seen.any (· = uncle.hash current) then
      .error (.uncleReused (uncle.hash current))
    else
      .ok { t with
        uncles := t.uncles ++ [(number, uncle.hash current)]
        seen := uncle.hash current :: t.seen }

def tallyEntry (counted : List (UInt64 × B256)) (t : Tally) (e : HeaderWithUncles) :
  Except AscentError Tally :=
  if ¬ e.commitmentMatches then .error (.uncleCommitment e.header.number)
  else
    (e.uncles.foldlM (tallyUncle current verifier counted e.header.number) t).map fun t =>
      { t with work := saturatingAdd t.work e.cumulativeDifficulty }

def tally (counted : List (UInt64 × B256)) (entries : List HeaderWithUncles) :
  Except AscentError Tally :=
  entries.foldlM (tallyEntry current verifier counted) ⟨0, [], []⟩

def checkChain (point : UInt64) (newest : Header) (older : List Header) : Except AscentError Unit :=
  checkNewestFirst current verifier (.brokenChunk point) .invalidHeader newest older

/-- A run joins the prefix. -/
def consume (s : ForwardSync) (run : AscentRun) : ForwardSync :=
  { s with
    runs := erase (s.haveNumber + 1) s.runs
    work := saturatingAdd s.work run.work
    haveNumber := run.newestNumber
    haveHash := run.newest
    countedUncles := (s.countedUncles ++ run.uncles).dropWhile fun u =>
      u.1 < saturatingSub64 run.newestNumber uncleGenerationLimit }

/-- A turn that goes on has taken a run out, so there are at most as many turns as runs. -/
def advanceLoop : Nat → ForwardSync → ForwardSync
  | 0, s => s
  | turns + 1, s =>
    match get? (s.haveNumber + 1) s.runs with
    | none => s
    | some run =>
      if run.oldestParent ≠ s.haveHash then
        { s with runs := erase (s.haveNumber + 1) s.runs }
      else if s.target ≤ (s.consume run).haveNumber then { s.consume run with done := true }
      else advanceLoop turns (s.consume run)

/-- Runs the prefix has overtaken are dropped first. -/
def advance (s : ForwardSync) : ForwardSync :=
  let runs := s.runs.filter fun e => ¬ e.2.newestNumber ≤ s.haveNumber
  advanceLoop runs.length { s with runs }

/-- The run an answer is kept as. -/
def runOf (newest oldest : Header) (t : Tally) : AscentRun where
  newest := newest.hash current
  newestNumber := newest.number
  oldestNumber := oldest.number
  oldestParent := oldest.parentHash
  work := t.work
  uncles := t.uncles.reverse

def onHeadersWithUncles (s : ForwardSync) (answer : AscentAnswer) :
  ForwardSync × Except AscentError Unit :=
  match answer.entries with
  | [] => (s, .ok ())
  | newest :: older =>
    match checkChain current verifier answer.point newest.header (older.map (·.header)) with
    | .error e => (s, .error e)
    | .ok () =>
      match tally current verifier s.countedUncles (newest :: older) with
      | .error e => (s, .error e)
      | .ok t =>
        let oldest := ((newest :: older).getLastD newest).header
        (advance { s with
          runs := insert (· ≤ ·) oldest.number
            (runOf current newest.header oldest t) s.runs }, .ok ())

def step (s : ForwardSync) (answer : AscentAnswer) : ForwardSync :=
  (s.onHeadersWithUncles current verifier answer).1

def Step (s : ForwardSync) (answer : AscentAnswer) (s' : ForwardSync) : Prop :=
  s' = s.step current verifier answer

end Answers

def ceil : Nat := 2 ^ 256 - 1

def worth (e : HeaderWithUncles) : Nat :=
  e.header.difficulty.toNat + (e.uncles.map fun u => u.difficulty.toNat).sum

def total (entries : List HeaderWithUncles) : Nat := (entries.map worth).sum

def NumberedFrom (anchorNumber : UInt64) (chain : List HeaderWithUncles) : Prop :=
  ∀ before e after, chain = before ++ e :: after →
    e.header.number.toNat = anchorNumber.toNat + 1 + before.length

def OfChain (chain : List HeaderWithUncles) (answer : AscentAnswer) : Prop :=
  answer.entries = [] ∨ ∃ before run after, chain = before ++ run ++ after ∧
    answer.entries = run.reverse

def KeptRun (anchorNumber : UInt64) (chain : List HeaderWithUncles) (key : UInt64)
  (kept : AscentRun) : Prop :=
  ∃ before run after, chain = before ++ run ++ after ∧
    key.toNat = anchorNumber.toNat + 1 + before.length ∧
    kept.newestNumber.toNat = anchorNumber.toNat + before.length + run.length ∧
    kept.work.toNat = min (total run) ceil

structure Reaches (anchorNumber : UInt64) (anchorWork : U256) (chain : List HeaderWithUncles)
  (s : ForwardSync) : Prop where
  reached : ∃ consumed rest, chain = consumed ++ rest ∧
    s.haveNumber.toNat = anchorNumber.toNat + consumed.length ∧
    s.work.toNat = min (anchorWork.toNat + total consumed) ceil
  kept : ∀ key run, (key, run) ∈ s.runs → KeptRun anchorNumber chain key run

variable {current : ActivationHeights} {verifier : HeaderVerifier} {anchorNumber : UInt64}
  {anchorWork : U256} {chain : List HeaderWithUncles} {s : ForwardSync}

lemma toNat_foldl_saturatingAdd (uncles : List Header) : ∀ start : U256,
  (uncles.foldl (fun total uncle => saturatingAdd total uncle.difficulty) start).toNat =
    min (start.toNat + (uncles.map fun u => u.difficulty.toNat).sum) ceil := by
  induction uncles with
  | nil =>
    intro start
    have := start.isLt
    simp only [foldl_nil, map_nil, sum_nil, ceil]
    omega
  | cons uncle uncles ih =>
    intro start
    rw [foldl_cons, ih, toNat_saturatingAdd, map_cons, sum_cons]
    unfold ceil
    omega

lemma toNat_cumulativeDifficulty (e : HeaderWithUncles) :
  e.cumulativeDifficulty.toNat = min (worth e) ceil :=
  toNat_foldl_saturatingAdd e.uncles e.header.difficulty

lemma total_append (a b : List HeaderWithUncles) : total (a ++ b) = total a + total b := by
  rw [total, map_append, sum_append]
  rfl

lemma total_reverse (a : List HeaderWithUncles) : total a.reverse = total a := by
  rw [total, map_reverse, sum_reverse]
  rfl

variable {counted : List (UInt64 × B256)}

lemma tallyUncles_work {number : UInt64} {uncles : List Header} : ∀ {t t' : Tally},
  uncles.foldlM (tallyUncle current verifier counted number) t = .ok t' → t'.work = t.work := by
  induction uncles with
  | nil =>
    intro t t' h
    rw [ok.inj h]
  | cons uncle uncles ih =>
    intro t t' h
    rw [foldlM_cons] at h
    cases hstep : tallyUncle current verifier counted number t uncle with
    | error e => rw [hstep] at h; exact absurd h (by simp [bind, Except.bind])
    | ok mid =>
      rw [hstep] at h
      have hmid : mid.work = t.work := by
        unfold tallyUncle at hstep
        split at hstep
        · simp at hstep
        split at hstep
        · simp at hstep
        · rw [← ok.inj hstep]
      exact (ih h).trans hmid

lemma tallyEntry_work {t t' : Tally} {e : HeaderWithUncles}
  (h : tallyEntry current verifier counted t e = .ok t') :
  t'.work = saturatingAdd t.work e.cumulativeDifficulty := by
  unfold tallyEntry at h
  split at h
  · simp at h
  cases huncles : e.uncles.foldlM
    (tallyUncle current verifier counted e.header.number) t with
  | error err => rw [huncles] at h; exact absurd h (by simp [Except.map])
  | ok mid =>
    rw [huncles] at h
    rw [← ok.inj h, ← tallyUncles_work huncles]

variable {entries : List HeaderWithUncles}

lemma tally_work :
  ∀ {t t' : Tally}, entries.foldlM (tallyEntry current verifier counted) t = .ok t' →
    t'.work.toNat = min (t.work.toNat + total entries) ceil := by
  induction entries with
  | nil =>
    intro t t' h
    have := t.work.isLt
    rw [← ok.inj h, total, map_nil, sum_nil]
    unfold ceil
    omega
  | cons e entries ih =>
    intro t t' h
    rw [foldlM_cons] at h
    cases hstep : tallyEntry current verifier counted t e with
    | error err => rw [hstep] at h; exact absurd h (by simp [bind, Except.bind])
    | ok mid =>
      rw [hstep] at h
      rw [ih h, tallyEntry_work hstep, toNat_saturatingAdd, toNat_cumulativeDifficulty, total,
        total, map_cons, sum_cons]
      unfold ceil
      omega

lemma tally_single {header uncle : Header}
  (hcommitted : commitmentMatches ⟨header, [uncle]⟩ = true)
  (hproven : verifier.verify uncle none = .ok ()) : tally current verifier [] [⟨header, [uncle]⟩] =
    .ok ⟨saturatingAdd 0 (cumulativeDifficulty ⟨header, [uncle]⟩),
      [(header.number, uncle.hash current)], [uncle.hash current]⟩ := by
  simp [tally, tallyEntry, tallyUncle, hcommitted, hproven, bind, Except.bind, pure, Except.pure,
    Except.map]

lemma step_of_single {answer : AscentAnswer} {e : HeaderWithUncles} {t : Tally}
  (hentries : answer.entries = [e])
  (hchecked : checkChain current verifier answer.point e.header [] = .ok ())
  (htally : tally current verifier s.countedUncles [e] = .ok t) : s.step current verifier answer =
    advance { s with
      runs := insert (· ≤ ·) e.header.number (runOf current e.header e.header t)
        s.runs } := by
  simp only [step, onHeadersWithUncles, hentries, map_nil, hchecked, htally]
  rfl

lemma Reaches.consume {run : AscentRun} (h : s.Reaches anchorNumber anchorWork chain)
  (hrun : get? (s.haveNumber + 1) s.runs = some run) :
  (s.consume run).Reaches anchorNumber anchorWork chain := by
  obtain ⟨consumed, rest, hchain, hnumber, hwork⟩ := h.reached
  obtain ⟨before, part, after, hsplit, hkey, hnewest, hpart⟩ :=
    h.kept _ run (OrdMap.mem_of_get? hrun)
  -- the number of the run says where in the chain it begins
  have hlength : before.length = consumed.length := by
    have hlt := s.haveNumber.toNat_lt
    rw [UInt64.toNat_add] at hkey
    have hone : (1 : UInt64).toNat = 1 := rfl
    omega
  have hsame : before = consumed := by
    rw [append_assoc, hchain] at hsplit
    exact (append_inj hsplit hlength.symm).1.symm
  subst hsame
  refine ⟨⟨before ++ part, after, hsplit, ?_, ?_⟩, ?_⟩
  · rw [length_append]
    show run.newestNumber.toNat = _
    omega
  · show (saturatingAdd s.work run.work).toNat = _
    rw [toNat_saturatingAdd, hwork, hpart, total_append]
    unfold ceil
    omega
  intro key kept hmem
  exact h.kept key kept (mem_erase.mp hmem).2

lemma Reaches.advanceLoop : ∀ (turns : Nat) {s : ForwardSync},
  s.Reaches anchorNumber anchorWork chain →
    (ForwardSync.advanceLoop turns s).Reaches anchorNumber anchorWork chain
  | 0, _, h => h
  | turns + 1, s, h => by
    unfold ForwardSync.advanceLoop
    split
    · exact h
    rename_i run hrun
    have hconsumed := h.consume hrun
    split
    · exact ⟨h.reached, fun key kept hmem => h.kept key kept (mem_erase.mp hmem).2⟩
    split
    · exact ⟨hconsumed.reached, hconsumed.kept⟩
    · exact Reaches.advanceLoop turns hconsumed

lemma Reaches.advance (h : s.Reaches anchorNumber anchorWork chain) :
  s.advance.Reaches anchorNumber anchorWork chain :=
  Reaches.advanceLoop _ ⟨h.reached, fun key run hmem => h.kept key run (mem_filter.mp hmem).1⟩

lemma keptRun_of_answer {newest : HeaderWithUncles}
  {older before run after : List HeaderWithUncles} {t : Tally}
  (hnumbered : NumberedFrom anchorNumber chain) (hchain : chain = before ++ run ++ after)
  (hentries : newest :: older = run.reverse)
  (htally : tally current verifier counted (newest :: older) = .ok t) :
  KeptRun anchorNumber chain ((newest :: older).getLastD newest).header.number
    (runOf current newest.header ((newest :: older).getLastD newest).header t) := by
  have hrun : run = older.reverse ++ [newest] := by
    rw [← List.reverse_reverse run, ← hentries, reverse_cons]
  refine ⟨before, run, after, hchain, ?_, ?_, ?_⟩
  · -- the oldest entry is the first of the run
    obtain ⟨oldest, others, hfirst⟩ : ∃ oldest others, run = oldest :: others := by
      cases run with
      | nil => simp at hrun
      | cons oldest others => exact ⟨oldest, others, rfl⟩
    have hlast : (newest :: older).getLastD newest = oldest := by
      rw [hentries, hfirst, reverse_cons]
      simp
    rw [hlast]
    refine hnumbered before oldest (others ++ after) ?_
    rw [hchain, hfirst, append_assoc, cons_append]
  · have hnewest := hnumbered (before ++ older.reverse) newest after (by
      rw [hchain, hrun]; simp)
    rw [length_append] at hnewest
    show newest.header.number.toNat = _
    rw [hrun, length_append, length_singleton]
    omega
  have hwork := tally_work htally
  have hzero : (0 : U256).toNat = 0 := rfl
  rw [hzero, Nat.zero_add, hentries, total_reverse] at hwork
  exact hwork

/-- **One answer.** -/
theorem Reaches.step (hnumbered : NumberedFrom anchorNumber chain)
  (h : s.Reaches anchorNumber anchorWork chain) {answer : AscentAnswer}
  (hof : OfChain chain answer) :
  (s.step current verifier answer).Reaches anchorNumber anchorWork chain := by
  unfold ForwardSync.step onHeadersWithUncles
  split
  · exact h
  rename_i newest older hentries
  split
  · exact h
  split
  · exact h
  rename_i t htally
  refine Reaches.advance ⟨h.reached, fun key kept hmem => ?_⟩
  rcases OrdMap.mem_insert.mp hmem with ⟨rfl, rfl⟩ | ⟨-, hmem⟩
  · rcases hof with hnone | ⟨before, run, after, hchain, hrun⟩
    · rw [hnone] at hentries
      simp at hentries
    · exact keptRun_of_answer hnumbered hchain (hentries ▸ hrun) htally
  · exact h.kept key kept hmem

lemma reaches_of_run {anchorHash : B256} {target : UInt64}
  {hist : List (ForwardSync × AscentAnswer)} (hnumbered : NumberedFrom anchorNumber chain)
  (hrun : Run (Step current verifier) (.new anchorNumber anchorHash anchorWork target) hist s)
  (hof : ∀ q ∈ hist, OfChain chain q.2) : s.Reaches anchorNumber anchorWork chain := by
  refine @Run.invariant _ _ _ _ _ _ (fun _ answer => OfChain chain answer)
    (fun _ s => s.Reaches anchorNumber anchorWork chain) ?_ ?_ hrun hof
  · refine ⟨⟨[], chain, rfl, rfl, ?_⟩, fun key run hmem => by simp [new] at hmem⟩
    have := anchorWork.isLt
    show anchorWork.toNat = min (anchorWork.toNat + 0) ceil
    unfold ceil
    omega
  intro _ s answer s' h hof hstep
  rw [hstep]
  exact h.step hnumbered hof

def distinctUncles (current : ActivationHeights) (admissible : HeaderWithUncles → Header → Bool)
  (entries : List HeaderWithUncles) : List Header :=
  (entries.flatMap fun e => e.uncles.filter (admissible e)).pwFilter
    fun u v => u.hash current ≠ v.hash current

/-- **The property**: the work at the height reached. -/
def CountedOnce (current : ActivationHeights) (admissible : HeaderWithUncles → Header → Bool)
  (anchorNumber : UInt64) (anchorWork : U256) (chain : List HeaderWithUncles)
  (s : ForwardSync) : Prop :=
  ∃ consumed rest, chain = consumed ++ rest ∧
    s.haveNumber.toNat = anchorNumber.toNat + consumed.length ∧
    s.work.toNat = min (anchorWork.toNat +
      (consumed.map fun e => e.header.difficulty.toNat).sum +
      ((distinctUncles current admissible consumed).map fun u => u.difficulty.toNat).sum) ceil

lemma total_eq (entries : List HeaderWithUncles) :
  total entries = (entries.map fun e => e.header.difficulty.toNat).sum +
    ((entries.flatMap fun e => e.uncles).map fun u => u.difficulty.toNat).sum := by
  induction entries with
  | nil => rfl
  | cons e entries ih =>
    unfold total worth at ih ⊢
    rw [map_cons, sum_cons, ih, map_cons, sum_cons, flatMap_cons, map_append, sum_append]
    omega

lemma distinctUncles_eq {admissible : HeaderWithUncles → Header → Bool}
  (hadmissible : ∀ e ∈ entries, ∀ u ∈ e.uncles, admissible e u = true)
  (honce : ((entries.flatMap fun e => e.uncles).map (Header.hash current)).Nodup) :
  distinctUncles current admissible entries = entries.flatMap fun e => e.uncles := by
  have hall : (entries.flatMap fun e => e.uncles.filter (admissible e)) =
      entries.flatMap fun e => e.uncles :=
    flatMap_congr fun e he => filter_eq_self.mpr (hadmissible e he)
  rw [distinctUncles, hall]
  exact pwFilter_eq_self.mpr (pairwise_map.mp honce)

/-- **Work is counted once in every order of arrival**, on a chain whose uncles are all admissible
and listed once. -/
theorem countedOnce_of_run {anchorHash : B256} {target : UInt64}
  {hist : List (ForwardSync × AscentAnswer)} {admissible : HeaderWithUncles → Header → Bool}
  (hnumbered : NumberedFrom anchorNumber chain)
  (hrun : Run (Step current verifier) (.new anchorNumber anchorHash anchorWork target) hist s)
  (hof : ∀ q ∈ hist, OfChain chain q.2)
  (hadmissible : ∀ e ∈ chain, ∀ u ∈ e.uncles, admissible e u = true)
  (honce : ((chain.flatMap fun e => e.uncles).map (Header.hash current)).Nodup) :
  CountedOnce current admissible anchorNumber anchorWork chain s := by
  obtain ⟨consumed, rest, hchain, hnumber, hwork⟩ := (reaches_of_run hnumbered hrun hof).reached
  refine ⟨consumed, rest, hchain, hnumber, ?_⟩
  subst hchain
  rw [flatMap_append, map_append] at honce
  rw [distinctUncles_eq (fun e he => hadmissible e (mem_append_left _ he))
    (nodup_append.mp honce).1, hwork, total_eq, Nat.add_assoc]

end ForwardSync

open ForwardSync

namespace ForwardExample

open RegtestChain

def rules : HeaderVerifier := .defaultRsk .regtest none

def third : Header :=
  { Header.unmined secondHash 3 with ommersHash := firstOmmers, uncleCount := 1 }.mined

lemma first_proven : rules.verify first none = .ok () := verify_alone (first_verified 0)

lemma second_checked : checkChain .regtest rules 2 second [] = .ok () :=
  checkNewestFirst_single (verify_alone (second_verified 0))

lemma third_checked : checkChain .regtest rules 3 third [] = .ok () := by
  have hverified : (HeaderVerifier.defaultRsk .regtest (some 0)).verify third (some second) =
      .ok () := mined_verified rfl rfl rfl rfl rfl rfl rfl rfl rfl rfl rfl (by decide +kernel)
  exact checkNewestFirst_single (verify_alone hverified)

variable {header : Header}

lemma committed (hcount : header.uncleCount = 1) (hommers : header.ommersHash = firstOmmers) :
  commitmentMatches ⟨header, [first]⟩ = true := by
  simp only [commitmentMatches, hcount, hommers, second_hashes.1]
  rfl

def run (hash parent : B256) (number : UInt64) : AscentRun :=
  ⟨hash, number, number, parent, 2, [(number, firstHash)]⟩

variable {s : ForwardSync}

lemma step_single {hash parent : B256} {point number : UInt64} (hcounted : s.countedUncles = [])
  (hcount : header.uncleCount = 1) (hommers : header.ommersHash = firstOmmers)
  (hdifficulty : header.difficulty = 1) (hhash : header.hash .regtest = hash)
  (hnumber : header.number = number) (hparent : header.parentHash = parent)
  (hchecked : checkChain .regtest rules point header [] = .ok ()) :
  s.step .regtest rules ⟨point, [⟨header, [first]⟩]⟩ = advance { s with
      runs := insert (· ≤ ·) number (run hash parent number) s.runs } := by
  have htally : tally .regtest rules s.countedUncles [⟨header, [first]⟩] =
      .ok ⟨2, [(number, firstHash)], [firstHash]⟩ := by
    rw [hcounted, tally_single (committed hcount hommers) first_proven, first_hash,
      hnumber, cumulativeDifficulty, foldl_cons, foldl_nil, hdifficulty]
    rfl
  have hstep := @ForwardSync.step_of_single .regtest rules s
    ⟨point, [⟨header, [first]⟩]⟩ _ _ rfl hchecked htally
  rw [hstep, runOf, hhash, hnumber, hparent]
  rfl

/-- The walk stands on `child`. -/
def start : ForwardSync := .new 1 childHash 2 3

def lower : AscentAnswer := ⟨2, [⟨second, [first]⟩]⟩

def upper : AscentAnswer := ⟨3, [⟨third, [first]⟩]⟩

def afterLower : ForwardSync := start.step .regtest rules lower

def afterUpper : ForwardSync := start.step .regtest rules upper

def afterBoth : ForwardSync := afterUpper.step .regtest rules lower

lemma second_number : second.number = 2 := rfl

lemma step_lower (hcounted : s.countedUncles = []) :
  s.step .regtest rules lower = advance { s with
    runs := insert (· ≤ ·) 2 (run secondHash childHash 2) s.runs } :=
  step_single hcounted rfl rfl rfl second_hashes.2 second_number rfl second_checked

lemma step_upper (hcounted : s.countedUncles = []) :
  s.step .regtest rules upper = advance { s with
    runs := insert (· ≤ ·) 3 (run (third.hash .regtest) secondHash 3) s.runs } :=
  step_single hcounted rfl rfl rfl rfl rfl rfl third_checked

lemma afterLower_work : afterLower.haveNumber = 2 ∧ afterLower.work = 4 := by
  rw [afterLower, step_lower rfl]
  decide

lemma afterUpper_eq : afterUpper =
  { start with runs := [(3, run (third.hash .regtest) secondHash 3)] } := by
  rw [afterUpper, step_upper rfl]
  generalize third.hash .regtest = hash
  rfl

lemma afterBoth_work : afterBoth.haveNumber = 3 ∧ afterBoth.work = 6 := by
  rw [afterBoth, step_lower (afterUpper_eq ▸ rfl), afterUpper_eq]
  decide

lemma run_lower : Run (ForwardSync.Step .regtest rules) start [(start, lower)] afterLower :=
  Run.init.step rfl

lemma run_both :
  Run (ForwardSync.Step .regtest rules) start [(afterUpper, lower), (start, upper)] afterBoth :=
  (Run.init.step rfl).step rfl

lemma numbered_lower : ForwardSync.NumberedFrom 1 [⟨second, [first]⟩] := by
  intro before e after h
  cases before with
  | nil =>
    rw [nil_append, List.cons.injEq] at h
    rw [← h.1, second_number]
    rfl
  | cons b before => simp at h

lemma uncles_once : (((([⟨header, [first]⟩] : List HeaderWithUncles).flatMap
  fun e => e.uncles).map (Header.hash .regtest))).Nodup := by
  rw [flatMap_singleton, map_singleton]
  exact nodup_singleton _

theorem countedOnce_lower : afterLower.haveNumber = 2 ∧ afterLower.work = 4 ∧
    ForwardSync.CountedOnce .regtest (fun _ _ => true) 1 2 [⟨second, [first]⟩] afterLower := by
  refine ⟨afterLower_work.1, afterLower_work.2, countedOnce_of_run numbered_lower
    run_lower ?_ (fun _ _ _ _ => rfl) uncles_once⟩
  intro q hq
  rw [mem_singleton.mp hq]
  exact .inr ⟨[], [⟨second, [first]⟩], [], rfl, rfl⟩

lemma distinctUncles_same (lowest next uncle : Header) :
  distinctUncles .regtest (fun _ _ => true)
    [⟨lowest, [uncle]⟩, ⟨next, [uncle]⟩] = [uncle] := by
  simp [distinctUncles, List.pwFilter]

/-- The upper block comes first: its uncle is counted again when the lower one has linked. -/
theorem uncle_counted_twice :
  Run (ForwardSync.Step .regtest rules) start [(afterUpper, lower), (start, upper)] afterBoth ∧
    (∀ q ∈ [(afterUpper, lower), (start, upper)],
      ForwardSync.OfChain [⟨second, [first]⟩, ⟨third, [first]⟩] q.2) ∧ afterBoth.work = 6 ∧
    ¬ ForwardSync.CountedOnce .regtest (fun _ _ => true) 1 2
      [⟨second, [first]⟩, ⟨third, [first]⟩] afterBoth := by
  refine ⟨run_both, ?_, afterBoth_work.2, ?_⟩
  · intro q hq
    rcases mem_cons.mp hq with rfl | hq
    · exact .inr ⟨[], [⟨second, [first]⟩], [⟨third, [first]⟩], rfl, rfl⟩
    rw [mem_singleton.mp hq]
    exact .inr ⟨[⟨second, [first]⟩], [⟨third, [first]⟩], [], rfl, rfl⟩
  rintro ⟨consumed, rest, hchain, hnumber, hwork⟩
  have hlength : consumed.length = 2 := by
    rw [afterBoth_work.1] at hnumber
    have hthree : (3 : UInt64).toNat = 3 := rfl
    have hone : (1 : UInt64).toNat = 1 := rfl
    omega
  have hall : consumed = [⟨second, [first]⟩, ⟨third, [first]⟩] :=
    (append_inj hchain.symm hlength).1
  subst hall
  rw [afterBoth_work.2, distinctUncles_same] at hwork
  exact absurd hwork (by decide +kernel)

end ForwardExample

end Rustock
