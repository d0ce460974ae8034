import Mathlib
import Rustock.Lib.Run

/-!
# The slots of a state download

`StateDownload` (crates/sync/src/snap/client.rs): slices of the offset space, at most one
request out for each, and answers matched to slices by their offset. A run has as many slices
in flight as requests out and answers that found no slice (`inFlight_count`). A proved size
below the cursor of a slice in flight moves that cursor, and its answer finds nothing.

`verify_chunk` is a parameter; the store, the counters and `Progress` are left out.
-/

namespace Rustock

open Option

open Lib List

structure Slice where
  start : Nat
  cursor : Nat
  stop : Nat
  inFlight : Bool
  exact : Bool

/-- What a chunk proves: the size of the trie and where its last node ends. -/
structure VerifiedChunk where
  total : Nat
  reached : Nat

/-- The lengths of a chunk's messages. -/
structure ChunkProof where
  entries : List Nat
  witness : List Nat

structure StateDownload where
  budget : Nat
  grid : Nat
  maxInFlight : Nat
  slices : List Slice
  total : Option Nat
  hintedTotal : Nat

namespace Slice

def wantsWork (s : Slice) : Bool := !s.inFlight && decide (s.cursor < s.stop)

/-- What a size below the advertised one leaves of a slice. -/
def clip (total : Nat) (s : Slice) : Slice :=
  let stop := min s.stop total
  let start := min s.start stop
  { s with start, stop, cursor := max start (min s.cursor stop) }

def advance (reached : Nat) (s : Slice) : Slice :=
  { s with exact := decide (reached ≤ s.cursor), cursor := max reached s.cursor
           inFlight := false }

end Slice

namespace StateDownload

def split (start stop count : Nat) : List Slice :=
  let span := stop - start
  let count := min count (max span 1)
  let step := span / count
  (range count).map fun i =>
    ⟨start + step * i, start + step * i,
      if i + 1 = count then stop else start + step * (i + 1), false, false⟩

def onGrid (chunkBytes chunkGrid maxInFlight hintedTotal grid : Nat) : StateDownload where
  budget := chunkBytes
  grid := if grid = 0 then max chunkGrid 1 else grid
  maxInFlight := max maxInFlight 1
  slices := split 0 (max hintedTotal 1) (max maxInFlight 1)
  total := none
  hintedTotal := max hintedTotal 1

variable (d : StateDownload)

def out : Nat := d.slices.countP (·.inFlight)

/-- With the offset asked for. -/
def nextRequest : Option (Nat × StateDownload) :=
  if d.maxInFlight ≤ d.out then none
  else (d.slices.findIdx? (·.wantsWork)).bind fun i => d.slices[i]?.map fun s =>
    (if s.exact then s.cursor else s.cursor / d.grid * d.grid,
      { d with slices := d.slices.set i { s with inFlight := true } })

def sliceFor (start : Nat) : Option Nat :=
  (d.slices.findIdx? fun s => s.inFlight && decide (s.cursor = start)).or
    (d.slices.findIdx? fun s => s.inFlight && decide (s.cursor / d.grid * d.grid = start))

def settle (start : Nat) (f : Slice → Slice) : StateDownload :=
  match d.sliceFor start with
  | none => d
  | some i => { d with slices := d.slices.modify i f }

def release (start : Nat) : StateDownload := d.settle start ({ · with inFlight := false })

def adoptTotal (total : Nat) : StateDownload :=
  if total = d.hintedTotal then { d with total := some total }
  else
    { d with
      total := some total
      slices := d.slices.map (Slice.clip total) ++
        if d.hintedTotal < total then split d.hintedTotal total (max d.maxInFlight 1) else [] }

def saturate (n : Nat) : Nat := min n (2 ^ 64 - 1)

/-- Where the answer to a request is matched: after the size it proves is adopted. -/
def judged {ε : Type} (verify : Nat → ChunkProof → Except ε VerifiedChunk) (start : Nat)
  (proof : ChunkProof) : StateDownload × (Slice → Slice) :=
  if max (saturate (d.budget * 4)) (2 ^ 18) < proof.entries.sum + proof.witness.sum ∧
      1 < proof.entries.length then (d, ({ · with inFlight := false }))
  else match verify start proof with
    | .error _ => (d, ({ · with inFlight := false }))
    | .ok v => (if d.total.isNone then d.adoptTotal v.total else d, Slice.advance v.reached)

def accept {ε : Type} (verify : Nat → ChunkProof → Except ε VerifiedChunk) (start : Nat)
  (proof : ChunkProof) : StateDownload :=
  if (d.sliceFor start).isNone then d
  else (d.judged verify start proof).1.settle start (d.judged verify start proof).2

def acceptRebuilt (start : Nat) : StateDownload :=
  let d := d.settle start (Slice.advance (saturate (start + d.grid)))
  if d.total.isNone then d.adoptTotal d.hintedTotal else d

end StateDownload

/-- What can happen to a download; an answer names the request it is for. -/
inductive DownloadEvent where
  | next
  | accept (start : Nat) (proof : ChunkProof)
  | rebuilt (start : Nat)
  | release (start : Nat)

namespace StateDownload

variable {ε : Type} (verify : Nat → ChunkProof → Except ε VerifiedChunk)

/-- The download and the requests that are out, each of which is answered once. -/
def Step (s : StateDownload × List Nat) (e : DownloadEvent) (s' : StateDownload × List Nat) :
  Prop :=
  match e with
  | .next => s' = (s.1.nextRequest.map fun r => (r.2, r.1 :: s.2)).getD s
  | .accept start proof =>
    start ∈ s.2 ∧ s' = (s.1.accept verify start proof, s.2.erase start)
  | .rebuilt start => start ∈ s.2 ∧ s' = (s.1.acceptRebuilt start, s.2.erase start)
  | .release start => start ∈ s.2 ∧ s' = (s.1.release start, s.2.erase start)

/-- An answer finds a slice in flight, also after the size it proves is adopted. -/
def finds (d : StateDownload) : DownloadEvent → Bool
  | .next => true
  | .accept start proof => (d.sliceFor start).isSome &&
    ((d.judged verify start proof).1.sliceFor start).isSome
  | .rebuilt start | .release start => (d.sliceFor start).isSome

variable {verify} {d : StateDownload} {start : Nat} {f : Slice → Slice}

lemma sliceFor_inFlight {i : Nat} (h : d.sliceFor start = some i) :
  ∃ s, d.slices[i]? = some s ∧ s.inFlight = true := by
  rw [sliceFor, or_eq_some_iff] at h
  rcases h with h | ⟨-, h⟩ <;>
  · obtain ⟨hlt, hp, -⟩ := findIdx?_eq_some_iff_getElem.mp h
    exact ⟨_, getElem?_eq_getElem hlt, (Bool.and_eq_true _ _ ▸ hp).1⟩

/-- An answer that finds a slice takes one out of flight, another changes nothing. -/
lemma out_settle (hf : ∀ s, (f s).inFlight = false) :
  (d.settle start f).out + (if (d.sliceFor start).isSome then 1 else 0) = d.out := by
  unfold settle
  rcases hi : d.sliceFor start with _ | i
  · rfl
  obtain ⟨s, hget, hfly⟩ := sliceFor_inFlight hi
  obtain ⟨hlt, rfl⟩ := List.getElem?_eq_some_iff.mp hget
  have hpos : 0 < d.out := countP_pos_iff.mpr ⟨_, getElem_mem hlt, hfly⟩
  show countP _ (d.slices.modify i f) + 1 = _
  rw [modify_eq_set_getElem?, hget]
  show countP _ (d.slices.set i _) + 1 = _
  rw [countP_set hlt, hf, hfly]
  exact Nat.sub_add_cancel hpos

lemma countP_split (a b n : Nat) : (split a b n).countP (·.inFlight) = 0 := by
  simp [split, countP_map, Function.comp_def]

lemma out_adoptTotal (total : Nat) : (d.adoptTotal total).out = d.out := by
  unfold adoptTotal
  split
  · rfl
  rw [out, countP_append, countP_map]
  split
  · rw [countP_split]
    rfl
  · rfl

lemma out_judged (proof : ChunkProof) : (d.judged verify start proof).1.out = d.out ∧
    ∀ s, ((d.judged verify start proof).2 s).inFlight = false := by
  unfold judged
  split
  · exact ⟨rfl, fun _ => rfl⟩
  split
  · exact ⟨rfl, fun _ => rfl⟩
  refine ⟨?_, fun _ => rfl⟩
  dsimp only
  split
  · exact out_adoptTotal _
  · rfl

/-- A request puts a slice in flight that had work left. -/
lemma nextRequest_counts {r : Nat × StateDownload} (h : d.nextRequest = some r) :
  r.2.out = d.out + 1 ∧ r.2.maxInFlight = d.maxInFlight ∧
    r.2.slices.countP (·.wantsWork) + 1 = d.slices.countP (·.wantsWork) := by
  unfold nextRequest at h
  split at h
  · cases h
  obtain ⟨i, hi, h⟩ := bind_eq_some_iff.mp h
  obtain ⟨s, hget, rfl⟩ := map_eq_some_iff.mp h
  obtain ⟨hlt, hwork, -⟩ := findIdx?_eq_some_iff_getElem.mp hi
  obtain ⟨_, rfl⟩ := List.getElem?_eq_some_iff.mp hget
  have hidle : d.slices[i].inFlight = false := by
    unfold Slice.wantsWork at hwork
    simp_all
  have hpos := countP_pos_iff.mpr ⟨_, getElem_mem hlt, hwork⟩
  refine ⟨?_, rfl, ?_⟩
  · show countP _ (d.slices.set i _) = _
    rw [countP_set hlt, hidle]
    rfl
  show countP _ (d.slices.set i _) + 1 = _
  rw [countP_set hlt, hwork]
  exact Nat.sub_add_cancel hpos

lemma balance {a a' n n' : Nat} (b : Bool) (h : a' + (if b then 1 else 0) = a)
  (hlen : n' + 1 = n) : a' + n = a + n' + if b then 0 else 1 := by
  cases b <;> simp_all <;> omega

/-- What one step does to the slices in flight. -/
lemma Step.out {s s' : StateDownload × List Nat} {e : DownloadEvent} (h : Step verify s e s') :
  s'.1.out + s.2.length = s.1.out + s'.2.length + if s.1.finds verify e then 0 else 1 := by
  rcases s with ⟨d, outs⟩
  have hlen : ∀ start ∈ outs, (outs.erase start).length + 1 = outs.length := fun start hmem => by
    rw [length_erase_of_mem hmem, Nat.sub_add_cancel (length_pos_of_mem hmem)]
  cases e with
  | next =>
    obtain rfl := h
    rcases hnext : d.nextRequest with _ | r
    · rfl
    have := (nextRequest_counts hnext).1
    simp only [map_some, getD_some, finds, length_cons, if_true]
    omega
  | accept start proof =>
    obtain ⟨hmem, rfl⟩ := h
    obtain ⟨hout, hf⟩ := @out_judged ε verify d start proof
    have hsettle := (@out_settle _ start _ hf).trans hout
    rcases hi : d.sliceFor start with _ | i
    · have := @balance d.out d.out _ _ false rfl (hlen start hmem)
      simpa [accept, finds, hi] using this
    · simpa [accept, finds, hi] using balance _ hsettle (hlen start hmem)
  | rebuilt start =>
    obtain ⟨hmem, rfl⟩ := h
    refine balance _ ?_ (hlen start hmem)
    have hout : (d.acceptRebuilt start).out =
        (d.settle start (Slice.advance (saturate (start + d.grid)))).out := by
      unfold acceptRebuilt
      dsimp only
      split
      · exact out_adoptTotal _
      · rfl
    rw [hout]
    exact out_settle fun _ => rfl
  | release start =>
    obtain ⟨hmem, rfl⟩ := h
    exact balance _ (out_settle fun _ => rfl) (hlen start hmem)

section Runs

variable {chunkBytes chunkGrid workers hintedTotal grid : Nat} {outs : List Nat}
  {hist : List ((StateDownload × List Nat) × DownloadEvent)}

lemma inFlight_count (hrun : Run (Step verify)
    (onGrid chunkBytes chunkGrid workers hintedTotal grid, []) hist (d, outs)) :
  d.out = outs.length + hist.countP fun p => !p.1.1.finds verify p.2 := by
  refine @Run.invariant _ _ _ _ _ _ (fun _ _ => True)
    (fun hist s => s.1.out = s.2.length + hist.countP fun p => !p.1.1.finds verify p.2)
    (countP_split ..) (fun hist s e s' hs _ hstep => ?_) hrun fun _ _ => trivial
  have := hstep.out
  rw [countP_cons]
  split at this <;> simp_all <;> omega

lemma nextRequest_isSome (hroom : d.out < d.maxInFlight)
  (hwork : 0 < d.slices.countP (·.wantsWork)) : ∃ r, d.nextRequest = some r := by
  obtain ⟨s, hs, hwants⟩ := countP_pos_iff.mp hwork
  obtain ⟨i, hi⟩ := isSome_iff_exists.mp
    (findIdx?_isSome.trans (any_eq_true.mpr ⟨s, hs, hwants⟩))
  obtain ⟨hlt, -⟩ := findIdx?_eq_some_iff_getElem.mp hi
  rw [nextRequest, if_neg (by omega), hi, bind_some, getElem?_eq_getElem hlt]
  exact ⟨_, rfl⟩

/-- Room and work for `n` requests are enough to have them out. -/
lemma issue {n : Nat} (hroom : d.out + n ≤ d.maxInFlight)
  (hwork : n ≤ d.slices.countP (·.wantsWork)) : ∃ hist d' outs,
    Run (Step verify) (d, []) hist (d', outs) ∧ outs.length = n ∧ d'.out = d.out + n ∧
    d'.slices.countP (·.wantsWork) + n = d.slices.countP (·.wantsWork) ∧
    d'.maxInFlight = d.maxInFlight := by
  induction n with
  | zero => exact ⟨[], d, [], .init, rfl, rfl, rfl, rfl⟩
  | succ n ih =>
    obtain ⟨hist, d', outs, hrun, hlen, hout, hwants, hmax⟩ := ih (by omega) (by omega)
    obtain ⟨r, hnext⟩ := nextRequest_isSome (d := d') (by omega) (by omega)
    obtain ⟨hout', hmax', hwants'⟩ := nextRequest_counts hnext
    have hstep : Step verify (d', outs) .next (r.2, r.1 :: outs) := by simp [Step, hnext]
    exact ⟨_, r.2, r.1 :: outs, hrun.step hstep, by simp [hlen], by omega, by omega,
      hmax'.trans hmax⟩

/-- **Every slot comes back** once no request is out exactly when every answer found a slice;
then as many requests as allowed can be out again if that many ranges remain. -/
theorem slots_come_back_iff (hrun : Run (Step verify)
    (onGrid chunkBytes chunkGrid workers hintedTotal grid, []) hist (d, [])) :
  ((∀ s ∈ d.slices, s.inFlight = false) ∧ ∀ n ≤ d.maxInFlight, n ≤ d.slices.countP (·.wantsWork) →
      ∃ hist s, Run (Step verify) (d, []) hist s ∧ s.2.length = n) ↔
  ∀ p ∈ hist, p.1.1.finds verify p.2 = true := by
  have hcount := inFlight_count hrun
  rw [length_nil, Nat.zero_add] at hcount
  have hfound : d.out = 0 ↔ ∀ p ∈ hist, p.1.1.finds verify p.2 = true := by
    rw [hcount, countP_eq_zero]
    simp
  rw [← hfound]
  constructor
  · rintro ⟨hidle, -⟩
    exact countP_eq_zero.mpr fun s hs => by simp [hidle s hs]
  intro hzero
  refine ⟨fun s hs => by simpa using countP_eq_zero.mp hzero s hs, fun n hn hwork => ?_⟩
  obtain ⟨hist, d', outs, hrun, hlen, -⟩ := @issue ε verify d n (by omega) hwork
  exact ⟨hist, (d', outs), hrun, hlen⟩

end Runs

/-- The verdict on a chunk that is the whole of a trie of a hundred bytes. -/
def whole (_ : Nat) (_ : ChunkProof) : Except Unit VerifiedChunk := .ok ⟨100, 100⟩

/-- The two halves of a thousand bytes, the first one or both in flight. -/
def halves (both : Bool) : StateDownload where
  budget := 100
  grid := 1
  maxInFlight := 2
  slices := [⟨0, 0, 500, true, false⟩, ⟨500, 500, 1000, both, false⟩]
  total := none
  hintedTotal := 1000

lemma first_out : Run (Step whole) (onGrid 100 1 2 1000 1, [])
  [((onGrid 100 1 2 1000 1, []), .next)] (halves false, [0]) := Run.init.step rfl

theorem slots_come_back_released : ∃ d hist,
  Run (Step whole) (onGrid 100 1 2 1000 1, []) hist (d, []) ∧
    ∀ s ∈ d.slices, s.inFlight = false := by
  have hrelease : Step whole (halves false, [0]) (.release 0)
    ((halves false).release 0, []) := ⟨mem_singleton.mpr rfl, rfl⟩
  have hrun := first_out.step hrelease
  exact ⟨_, _, hrun, ((slots_come_back_iff hrun).mpr (by simp; decide)).1⟩

/-- Two requests are out, and the answer to the first proves a size below the cursor of the
second: its slice stays in flight after both are answered. -/
theorem slot_lost : ∃ d hist, Run (Step whole) (onGrid 100 1 2 1000 1, []) hist (d, []) ∧
  ∃ s ∈ d.slices, s.inFlight = true := by
  have hsecond : Step whole (halves false, [0]) .next (halves true, [500, 0]) := rfl
  have hanswer : Step whole (halves true, [500, 0]) (.accept 0 ⟨[100], []⟩)
    ((halves true).accept whole 0 ⟨[100], []⟩, [500]) := ⟨by decide, rfl⟩
  have hlate : Step whole ((halves true).accept whole 0 ⟨[100], []⟩, [500])
    (.accept 500 ⟨[100], []⟩) (_, []) := ⟨by decide, rfl⟩
  exact ⟨_, _, ((first_out.step hsecond).step hanswer).step hlate,
    ⟨100, 100, 100, true, false⟩, .tail _ (.head _), rfl⟩

end StateDownload

end Rustock
