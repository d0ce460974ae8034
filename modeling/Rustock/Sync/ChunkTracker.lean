import Rustock.Core.Header
import Rustock.Lib.OrdMap

/-!
# Header chunks in flight

`PeerChunkTracker` (crates/sync/src/tracker.rs) as `on_headers_response` and
`check_disconnected_peers` (service.rs) drive it. A response takes the front chunk off the queue of
its peer, but is buffered as the chunk its content names.

- **`covered_iff`**: no chunk is forgotten exactly as long as every response leaves the chunk it
  takes off the queue somewhere else.
-/

namespace Rustock

open Lib List Function OrdMap

structure BlockIdentifier where
  number : UInt64
  hash : B256

structure PeerChunkTracker (ι : Type) where
  /-- A peer without an entry has no chunk in flight. -/
  inFlight : ι → List Nat
  nextToAssign : Nat
  nextToProcess : Nat
  buffered : List (Nat × ι × List Header)
  totalChunks : Nat

/-- A peer that stalls is handled like one that has disconnected. -/
inductive TrackerEvent (ι : Type) where
  | assign (peer : ι)
  | response (peer : ι) (headers : List Header)
  | disconnect (peer : ι)
  | drain

def identifyChunkByContent (current : ActivationHeights) (skeleton : List BlockIdentifier) :
  List Header → Option Nat
  | [] => none
  | first :: rest =>
    -- `max_by_key` takes the last of several
    let newest := rest.foldl (fun best h => if h.number < best.number then best else h) first
    let oldest := rest.foldl (fun low h => min low h.number) first.number
    match skeleton.findIdx? fun entry =>
      entry.number = newest.number ∧ entry.hash = newest.hash current with
    | none => none
    | some chunk =>
      if newest.number - oldest + 1 ≠ UInt64.ofNat (rest.length + 1) then none else some chunk

namespace PeerChunkTracker

variable {ι : Type}

def new (skeletonLen : Nat) : PeerChunkTracker ι := ⟨fun _ => [], 1, 1, [], skeletonLen⟩

section

variable [DecidableEq ι] (t : PeerChunkTracker ι) (peer : ι)

def nextAssignment : Option (Nat × PeerChunkTracker ι) :=
  if t.nextToAssign ≥ t.totalChunks then none
  else some (t.nextToAssign, { t with nextToAssign := t.nextToAssign + 1 })

def recordSent (chunk : Nat) : PeerChunkTracker ι :=
  { t with inFlight := update t.inFlight peer (t.inFlight peer ++ [chunk]) }

def identifyResponse : PeerChunkTracker ι :=
  { t with inFlight := update t.inFlight peer (t.inFlight peer).tail }

def bufferResponse (chunk : Nat) (headers : List Header) : PeerChunkTracker ι :=
  if chunk ∈ OrdMap.keys t.buffered then t
  else { t with buffered := insert (· ≤ ·) chunk (peer, headers) t.buffered }

/-- Every turn of the loop takes one entry off the buffer, so `fuel` is its length. -/
def drainReady : Nat → PeerChunkTracker ι → PeerChunkTracker ι
  | 0, t => t
  | fuel + 1, t =>
    if t.nextToProcess ∈ OrdMap.keys t.buffered then
      drainReady fuel { t with
        buffered := erase t.nextToProcess t.buffered
        nextToProcess := t.nextToProcess + 1 }
    else t

def handlePeerDisconnect : PeerChunkTracker ι :=
  { t with
    inFlight := update t.inFlight peer []
    nextToAssign := (t.inFlight peer).foldl (fun next chunk =>
      if chunk ≥ t.nextToProcess ∧ chunk ∉ OrdMap.keys t.buffered ∧ chunk < next then chunk
      else next) t.nextToAssign }

variable (current : ActivationHeights) (skeleton : List BlockIdentifier)

def onHeadersResponse (headers : List Header) : PeerChunkTracker ι :=
  let popped := t.identifyResponse peer
  match identifyChunkByContent current skeleton headers with
  | none => popped
  | some chunk =>
    if t.inFlight peer = [] then popped.drainReady popped.buffered.length
    else if chunk < t.totalChunks then
      let answered := popped.bufferResponse peer chunk headers
      answered.drainReady answered.buffered.length
    else popped

def step : TrackerEvent ι → PeerChunkTracker ι
  | .assign peer => match t.nextAssignment with
    | none => t
    | some (chunk, t) => t.recordSent peer chunk
  | .response peer headers => t.onHeadersResponse peer current skeleton headers
  | .disconnect peer => t.handlePeerDisconnect peer
  | .drain => t.drainReady t.buffered.length

def run (events : List (TrackerEvent ι)) : PeerChunkTracker ι :=
  events.foldl (fun t e => t.step current skeleton e) t

/-- The chunk is held, asked for or still to be assigned. -/
def Covers (chunk : Nat) : Prop :=
  chunk ∈ OrdMap.keys t.buffered ∨ (∃ peer, chunk ∈ t.inFlight peer) ∨ t.nextToAssign ≤ chunk

def Covered : Prop :=
  ∀ chunk, t.nextToProcess ≤ chunk → chunk < t.totalChunks → t.Covers chunk

/-- A response leaves the chunk it takes off the queue somewhere else. -/
def Keeps : TrackerEvent ι → Prop
  | .response peer headers => ∀ chunk, (t.inFlight peer).head? = some chunk →
    t.nextToProcess ≤ chunk → chunk < t.totalChunks →
      identifyChunkByContent current skeleton headers = some chunk ∨
        (t.identifyResponse peer).Covers chunk
  | _ => True

end

variable {t : PeerChunkTracker ι} {peer : ι} {chunk : Nat}

lemma drainReady_covered (fuel : Nat) : (drainReady fuel t).Covered ↔ t.Covered := by
  induction fuel generalizing t with
  | zero => exact Iff.rfl
  | succ fuel ih =>
    unfold drainReady
    split
    · rename_i hready
      rw [ih]
      constructor
      · intro h chunk hlow hhigh
        rcases hlow.eq_or_lt with rfl | hlow
        · exact .inl hready
        rcases h chunk hlow hhigh with hbuf | hrest
        · exact .inl (mem_keys_erase.mp hbuf).2
        · exact .inr hrest
      intro h chunk hlow hhigh
      rcases h chunk (Nat.le_of_succ_le hlow) hhigh with hbuf | hrest
      · exact .inl (mem_keys_erase.mpr ⟨Nat.ne_of_gt hlow, hbuf⟩)
      · exact .inr hrest
    · exact Iff.rfl

lemma bufferResponse_covered {headers : List Header} {named : Nat} :
  (t.bufferResponse peer named headers).Covered ↔ ∀ chunk, t.nextToProcess ≤ chunk →
    chunk < t.totalChunks → named = chunk ∨ t.Covers chunk := by
  unfold bufferResponse
  split
  · rename_i hmem
    refine forall₃_congr fun chunk _ _ => ⟨.inr, ?_⟩
    rintro (rfl | hcovers)
    · exact .inl hmem
    · exact hcovers
  · simp only [Covered, Covers, mem_keys_insert, or_assoc, eq_comm]

variable [DecidableEq ι] {current : ActivationHeights} {skeleton : List BlockIdentifier}

lemma mem_inFlight_update (peer : ι) {queue : List Nat} (h : ∃ p, chunk ∈ t.inFlight p) :
  chunk ∈ t.inFlight peer ∨ ∃ p, chunk ∈ update t.inFlight peer queue p := by
  obtain ⟨p, hp⟩ := h
  by_cases hpeer : p = peer
  · exact .inl (hpeer ▸ hp)
  · exact .inr ⟨p, by rwa [update_of_ne hpeer]⟩

/-- Only the front chunk is no longer covered. -/
lemma covers_identifyResponse (h : t.Covers chunk) :
  (t.identifyResponse peer).Covers chunk ∨ (t.inFlight peer).head? = some chunk := by
  rcases h with hbuf | hflight | hassign
  · exact .inl (.inl hbuf)
  · rcases mem_inFlight_update peer hflight with hmem | hother
    · obtain ⟨front, rest, hqueue⟩ := exists_cons_of_ne_nil (ne_nil_of_mem hmem)
      rw [hqueue] at hmem
      rcases mem_cons.mp hmem with rfl | hrest
      · exact .inr (by rw [hqueue, head?_cons])
      · exact .inl (.inr (.inl ⟨peer, by simp [identifyResponse, hqueue, hrest]⟩))
    · exact .inl (.inr (.inl hother))
  · exact .inl (.inr (.inr hassign))

lemma forall_front_iff (h : t.Covered) (peer : ι) (P : Nat → Prop) :
  (∀ chunk, t.nextToProcess ≤ chunk → chunk < t.totalChunks →
    P chunk ∨ (t.identifyResponse peer).Covers chunk) ↔
  ∀ chunk, (t.inFlight peer).head? = some chunk → t.nextToProcess ≤ chunk →
    chunk < t.totalChunks → P chunk ∨ (t.identifyResponse peer).Covers chunk := by
  constructor
  · exact fun hall chunk _ => hall chunk
  intro hfront chunk hlow hhigh
  rcases covers_identifyResponse (h chunk hlow hhigh) with hcovers | hhead
  · exact .inr hcovers
  · exact hfront chunk hhead hlow hhigh

lemma onHeadersResponse_covered (h : t.Covered) (headers : List Header) :
  (t.onHeadersResponse peer current skeleton headers).Covered ↔
    t.Keeps current skeleton (.response peer headers) := by
  have hpopped := forall_front_iff h peer fun _ => False
  simp only [false_or] at hpopped
  change (t.identifyResponse peer).Covered ↔ _ at hpopped
  unfold onHeadersResponse Keeps
  dsimp only
  cases identifyChunkByContent current skeleton headers with
  | none => simpa using hpopped
  | some named =>
    dsimp only
    split
    · rename_i hempty
      rw [drainReady_covered, hpopped]
      simp [hempty]
    split
    · rw [drainReady_covered, bufferResponse_covered]
      simp only [Option.some.injEq]
      exact forall_front_iff h peer (named = ·)
    rename_i hhigh
    rw [hpopped]
    refine forall₄_congr fun chunk _ _ hchunk => ?_
    have hne : named ≠ chunk := by omega
    simp [hne]

lemma assign_covered (h : t.Covered) : (t.step current skeleton (.assign peer)).Covered := by
  by_cases hfull : t.nextToAssign ≥ t.totalChunks
  · simpa [step, nextAssignment, hfull] using h
  simp only [step, nextAssignment, hfull, if_false]
  intro chunk hlow hhigh
  rcases h chunk hlow hhigh with hbuf | hflight | hassign
  · exact .inl hbuf
  · rcases mem_inFlight_update peer hflight with hmem | hother
    · exact .inr (.inl ⟨peer, by simp [recordSent, hmem]⟩)
    · exact .inr (.inl hother)
  rcases hassign.eq_or_lt with rfl | hlater
  · exact .inr (.inl ⟨peer, by simp [recordSent]⟩)
  · exact .inr (.inr hlater)

/-- The loop ends at the lowest of the chunks that have to be assigned again. -/
lemma foldl_next_le {needed : Nat → Prop} [DecidablePred needed] (queue : List Nat) (next : Nat) :
  queue.foldl (fun next chunk => if needed chunk ∧ chunk < next then chunk else next) next ≤ next ∧
    ∀ chunk ∈ queue, needed chunk →
      queue.foldl (fun next chunk => if needed chunk ∧ chunk < next then chunk else next) next
        ≤ chunk := by
  induction queue generalizing next with
  | nil => simp
  | cons front rest ih =>
    have hfront := ih (if needed front ∧ front < next then front else next)
    rw [foldl_cons]
    refine ⟨hfront.1.trans (by split <;> omega), fun chunk hmem hneeded => ?_⟩
    rcases mem_cons.mp hmem with rfl | hrest
    · exact hfront.1.trans (by split <;> grind)
    · exact hfront.2 chunk hrest hneeded

lemma handlePeerDisconnect_covered (h : t.Covered) : (t.handlePeerDisconnect peer).Covered := by
  have hnext := @foldl_next_le (fun chunk => chunk ≥ t.nextToProcess ∧
    chunk ∉ OrdMap.keys t.buffered) _ (t.inFlight peer) t.nextToAssign
  simp only [and_assoc] at hnext
  intro chunk hlow hhigh
  by_cases hbuf : chunk ∈ OrdMap.keys t.buffered
  · exact .inl hbuf
  rcases (h chunk hlow hhigh).resolve_left hbuf with hflight | hassign
  · rcases mem_inFlight_update peer hflight with hmem | hother
    · exact .inr (.inr (hnext.2 chunk hmem ⟨hlow, hbuf⟩))
    · exact .inr (.inl hother)
  · exact .inr (.inr (hnext.1.trans hassign))

lemma step_covered (h : t.Covered) (e : TrackerEvent ι) :
  (t.step current skeleton e).Covered ↔ t.Keeps current skeleton e := by
  cases e with
  | assign peer => exact iff_of_true (assign_covered h) trivial
  | response peer headers => exact onHeadersResponse_covered h headers
  | disconnect peer => exact iff_of_true (handlePeerDisconnect_covered h) trivial
  | drain => exact iff_of_true ((drainReady_covered _).mpr h) trivial

/-- **No header chunk is forgotten** in any state of a run, exactly if every response of the run
leaves the chunk it takes off the queue somewhere else. -/
theorem covered_iff (current : ActivationHeights) (skeleton : List BlockIdentifier)
  (skeletonLen : Nat) (events : List (TrackerEvent ι)) :
  (∀ k, ((new skeletonLen).run current skeleton (events.take k)).Covered) ↔
    ∀ k e, events[k]? = some e →
      ((new skeletonLen).run current skeleton (events.take k)).Keeps current skeleton e := by
  have hnext (k : Nat) {e : TrackerEvent ι} (he : events[k]? = some e) :
      (new skeletonLen).run current skeleton (events.take (k + 1)) =
        ((new skeletonLen).run current skeleton (events.take k)).step current skeleton e := by
    simp [run, take_add_one, he]
  constructor
  · intro hall k e he
    rw [← step_covered (hall k), ← hnext k he]
    exact hall (k + 1)
  intro hkeeps k
  induction k with
  | zero => exact fun chunk hlow _ => .inr (.inr hlow)
  | succ k ih =>
    cases he : events[k]? with
    | none => rwa [take_add_one, he, Option.toList_none, append_nil]
    | some e =>
      rw [hnext k he, step_covered ih]
      exact hkeeps k e he

/-- The answer to a chunk names nothing. -/
theorem unmatched_response_forgets : ∃ k,
    ¬ ((new 2).run .regtest [⟨0, .zero 32⟩, ⟨192, .zero 32⟩]
      ([.assign (), .response () []].take k)).Covered :=
  ⟨2, fun h => by
    have := h 1 (by decide) (by decide)
    simp [Covers, run, step, nextAssignment, new, recordSent, onHeadersResponse,
      identifyChunkByContent, identifyResponse, OrdMap.keys] at this⟩

end PeerChunkTracker

end Rustock
