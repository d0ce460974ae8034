import Rustock.Core.Checkpoint
import Rustock.Lib.Draw
import Rustock.Lib.OrdMap

/-!
# Sampling a peer's chain

`ChainSampler` (crates/sync/src/sampler.rs): the heights a peer's skeletons name, the
heights drawn from them at random, the blocks asked for and the ones received. A skeleton arrives
in pages; after each page the draw is topped up to `RANDOM_SAMPLES` from what is known by then, and
heights once drawn stay drawn.
-/

namespace Rustock

open Lib UInt64 Lib.OrdMap
open OrdSet (extend mem_extend mem_ofList)
open List (toFinset_card_of_nodup mem_toFinset mem_cons mem_map range foldl_cons mem_cons_self
  map_cons)
open OrdMap (keys get? insert erase)

def randomSamples : Nat := 340

def sampleInterval : UInt64 := 768

def missingSamplesAllowed : Nat := 4

abbrev Heights := List UInt64

def sortHeights (l : List UInt64) : Heights := OrdSet.ofList (· ≤ ·) l

/-- The heights drawn, and the position in the generator's words after it. -/
def drawRandom (available : Heights) (want : Nat) (rng : Nat → UInt64) (position : Nat) :
  Heights × Nat :=
  if available.length ≤ want then (sortHeights available, position)
  else (sortHeights (draw (fun n => (rng n).toNat) position want available), position + want)

/-- On an ascending list. -/
def nearestAvailable (available : Heights) (target : UInt64) : Option UInt64 :=
  if available.any (· = target) then some target
  else
    match (available.filter (· < target)).getLast?, (available.filter (target < ·)).head? with
    | some before, some after =>
      some (if target - before ≤ after - target then before else after)
    | some before, none => some before
    | none, after => after

/-- `u64::div_ceil`. -/
def divCeil64 (a b : UInt64) : UInt64 := if 0 < a % b then a / b + 1 else a / b

/-- The evenly spaced heights of one gap. -/
def gapPoints (available : Heights) (maxGap previous next : UInt64) : List UInt64 :=
  let gap := saturatingSub64 next previous
  if maxGap < gap then
    let pieces := divCeil64 gap maxGap
    (range (pieces.toNat - 1)).filterMap fun i =>
      (nearestAvailable available (previous + gap * UInt64.ofNat (i + 1) / pieces)).filter
        fun nearest => previous < nearest && nearest < next
  else []

def fillLoop (available : Heights) (maxGap : UInt64) : UInt64 → List UInt64 → List UInt64
  | _, [] => []
  | previous, next :: rest =>
    gapPoints available maxGap previous next ++ next :: fillLoop available maxGap next rest

def fillGaps (available chosen : Heights) (maxGap : UInt64) : Heights :=
  match available.head?, available.getLast? with
  | some lowest, some highest =>
    if maxGap = 0 then chosen
    else sortHeights (fillLoop available maxGap (saturatingSub64 lowest 1) (chosen ++ [highest]))
  | _, _ => []

/-- The generator is the stream of its words and a position in it. -/
structure ChainSampler where
  checkpoint : DifficultyCheckpoint
  head : UInt64
  divisor : UInt64
  minDifficulty : U256
  outstanding : List (UInt64 × B256)
  known : List (UInt64 × B256)
  collected : List (UInt64 × U256 × UInt64)
  missing : Nat
  verifyHash : Bool
  onCheckpointChain : Bool
  drawn : Heights
  rng : Nat → UInt64
  position : Nat

namespace ChainSampler

/-- One identifier of a skeleton. -/
def learn (s : ChainSampler) (id : UInt64 × B256) : ChainSampler :=
  if id.1 ≤ s.checkpoint.number ∨ (get? id.1 s.collected).isSome then s
  else { s with known := insert (· ≤ ·) id.1 id.2 s.known }

/-- One height is asked for. -/
def request (s : ChainSampler) (height : UInt64) : ChainSampler :=
  if (get? height s.collected).isSome then s
  else
    match get? height s.known with
    | none => s
    | some hash =>
      if (get? height s.outstanding).isSome then s
      else { s with outstanding := insert (· ≤ ·) height hash s.outstanding }

/-- The draw is topped up. -/
def topUp (s : ChainSampler) : ChainSampler :=
  let want := randomSamples - s.drawn.length
  if 0 < want then
    let fresh := (keys s.known).filter fun h => ¬ s.drawn.any (· = h)
    let (drawn, position) := drawRandom fresh want s.rng s.position
    { s with drawn := extend (· ≤ ·) s.drawn drawn, position }
  else s

def reselect (s : ChainSampler) : ChainSampler :=
  if (keys s.known).isEmpty then s
  else
    let s := s.topUp
    (fillGaps (keys s.known) s.drawn sampleInterval).foldl request s

def absorbSkeleton (s : ChainSampler) (identifiers : List (UInt64 × B256)) : ChainSampler :=
  (identifiers.foldl learn s).reselect

/-- Without identifiers. -/
def new (checkpoint : DifficultyCheckpoint) (head divisor : UInt64) (minDifficulty : U256)
  (verifyHash : Bool) (rng : Nat → UInt64) : ChainSampler where
  checkpoint := checkpoint
  head := head
  divisor := divisor
  minDifficulty := minDifficulty
  outstanding := if verifyHash then [(checkpoint.number, checkpoint.hash)] else []
  known := []
  collected := []
  missing := 0
  verifyHash := verifyHash
  onCheckpointChain := !verifyHash
  drawn := []
  rng := rng
  position := 0

def spend (s : ChainSampler) (number : UInt64) : ChainSampler :=
  { s with outstanding := erase number s.outstanding, missing := s.missing + 1 }

def offer (current : ActivationHeights) (verifier : HeaderVerifier) (s : ChainSampler)
  (header : Header) : ChainSampler :=
  match get? header.number s.outstanding with
  | none => s
  | some expected =>
    if header.hash current ≠ expected then s.spend header.number
    else if verifier.verify header none ≠ .ok () then s.spend header.number
    else
      { s with
        outstanding := erase header.number s.outstanding
        onCheckpointChain := s.onCheckpointChain ||
          (s.verifyHash && decide (header.number = s.checkpoint.number))
        collected := insert (· ≤ ·) header.number (header.difficulty, header.uncleCount)
          s.collected }

def giveUpOn (s : ChainSampler) (number : UInt64) : ChainSampler :=
  if (get? number s.outstanding).isSome then s.spend number else s

def tooManyMissing (s : ChainSampler) : Bool := missingSamplesAllowed < s.missing

def isComplete (s : ChainSampler) : Bool := s.outstanding.isEmpty

def samples (s : ChainSampler) : List Sample :=
  s.collected.map fun e => ⟨e.1, e.2.1, e.2.2⟩

def ceiling (s : ChainSampler) : U256 :=
  ceilingFor s.divisor s.minDifficulty s.checkpoint s.samples s.head

variable {s : ChainSampler}

def SameDraw (s t : ChainSampler) : Prop :=
  t.known = s.known ∧ t.drawn = s.drawn ∧ t.rng = s.rng ∧ t.position = s.position ∧
    t.collected = s.collected ∧ t.checkpoint = s.checkpoint

lemma request_sameDraw (s : ChainSampler) (height : UInt64) : SameDraw s (s.request height) := by
  unfold request
  split
  · exact ⟨rfl, rfl, rfl, rfl, rfl, rfl⟩
  split
  · exact ⟨rfl, rfl, rfl, rfl, rfl, rfl⟩
  · split <;> exact ⟨rfl, rfl, rfl, rfl, rfl, rfl⟩

lemma SameDraw.trans {s t u : ChainSampler} (h : SameDraw s t) (h' : SameDraw t u) :
  SameDraw s u := by
  obtain ⟨h1, h2, h3, h4, h5, h6⟩ := h
  obtain ⟨h1', h2', h3', h4', h5', h6'⟩ := h'
  exact ⟨h1'.trans h1, h2'.trans h2, h3'.trans h3, h4'.trans h4, h5'.trans h5, h6'.trans h6⟩

lemma foldl_request_sameDraw : ∀ (heights : List UInt64) (s : ChainSampler),
  SameDraw s (heights.foldl request s)
  | [], _ => ⟨rfl, rfl, rfl, rfl, rfl, rfl⟩
  | h :: heights, s => (request_sameDraw s h).trans (foldl_request_sameDraw heights _)

lemma request_spec (s : ChainSampler) (height : UInt64) :
  (s.request height).missing = s.missing ∧ (s.request height).verifyHash = s.verifyHash ∧
    (s.request height).onCheckpointChain = s.onCheckpointChain ∧
    (∀ e ∈ s.outstanding, e ∈ (s.request height).outstanding) ∧
    (∀ e ∈ (s.request height).outstanding, e ∈ s.outstanding ∨ e ∈ s.known) ∧
    (height ∈ keys s.known → height ∈ keys (s.request height).outstanding ∨
      height ∈ keys s.collected) := by
  unfold request
  split
  · rename_i hdone
    exact ⟨rfl, rfl, rfl, fun e he => he, fun e he => .inl he,
      fun _ => .inr (get?_isSome.mp hdone)⟩
  split
  · rename_i hunknown
    exact ⟨rfl, rfl, rfl, fun e he => he, fun e he => .inl he,
      fun h => absurd h (get?_eq_none.mp hunknown)⟩
  rename_i hash hknown
  split
  · rename_i hasked
    exact ⟨rfl, rfl, rfl, fun e he => he, fun e he => .inl he,
      fun _ => .inl (get?_isSome.mp hasked)⟩
  rename_i hnew
  rw [get?_isSome] at hnew
  refine ⟨rfl, rfl, rfl, ?_, ?_, fun _ => .inl (mem_keys_insert.mpr (.inl rfl))⟩
  · rintro ⟨x, v⟩ he
    refine mem_insert.mpr (.inr ⟨?_, he⟩)
    rintro rfl
    exact hnew (mem_keys.mpr ⟨v, he⟩)
  rintro ⟨x, v⟩ he
  rcases mem_insert.mp he with ⟨rfl, rfl⟩ | ⟨-, he⟩
  · exact .inr (mem_of_get? hknown)
  · exact .inl he

lemma foldl_request_spec : ∀ (heights : List UInt64) (s : ChainSampler),
  (heights.foldl request s).missing = s.missing ∧
    (heights.foldl request s).verifyHash = s.verifyHash ∧
    (heights.foldl request s).onCheckpointChain = s.onCheckpointChain ∧
    (∀ e ∈ s.outstanding, e ∈ (heights.foldl request s).outstanding) ∧
    (∀ e ∈ (heights.foldl request s).outstanding, e ∈ s.outstanding ∨ e ∈ s.known) ∧
    ∀ x ∈ heights, x ∈ keys s.known →
      x ∈ keys (heights.foldl request s).outstanding ∨ x ∈ keys s.collected
  | [], _ => ⟨rfl, rfl, rfl, fun e he => he, fun e he => .inl he, by simp⟩
  | height :: heights, s => by
    obtain ⟨hm, hv, ho, hkept, hasked, hcovers⟩ := request_spec s height
    obtain ⟨hm', hv', ho', hkept', hasked', hcovers'⟩ :=
      foldl_request_spec heights (s.request height)
    obtain ⟨hk, -, -, -, hc, -⟩ := request_sameDraw s height
    rw [hk] at hasked' hcovers'
    rw [hc] at hcovers'
    refine ⟨hm'.trans hm, hv'.trans hv, ho'.trans ho, fun e he => hkept' e (hkept e he), ?_, ?_⟩
    · intro e he
      rcases hasked' e he with he | he
      · exact hasked e he
      · exact .inr he
    intro x hx hknown
    rcases mem_cons.mp hx with rfl | hx
    · rcases hcovers hknown with hin | hin
      · obtain ⟨v, hv⟩ := mem_keys.mp hin
        exact .inl (mem_keys.mpr ⟨v, hkept' _ hv⟩)
      · exact .inr hin
    · exact hcovers' x hx hknown

variable {available : Heights}

lemma mem_fillLoop {maxGap x : UInt64} : ∀ {chosen : List UInt64} {previous : UInt64}, x ∈ chosen →
    x ∈ fillLoop available maxGap previous chosen
  | [], _, h => by simp at h
  | next :: rest, previous, h => by
    rw [fillLoop, List.mem_append]
    rcases mem_cons.mp h with rfl | h
    · exact .inr mem_cons_self
    · exact .inr (List.mem_cons_of_mem _ (mem_fillLoop h))

lemma mem_fillGaps {chosen : Heights} {x : UInt64} (hne : available ≠ []) (h : x ∈ chosen) :
  x ∈ fillGaps available chosen sampleInterval := by
  have hinterval : sampleInterval ≠ 0 := by decide
  unfold fillGaps
  rw [List.head?_eq_some_head hne, List.getLast?_eq_some_getLast hne]
  dsimp only
  rw [if_neg hinterval]
  exact mem_ofList.mpr (mem_fillLoop (List.mem_append_left _ h))

lemma reselect_drawn (s : ChainSampler) :
  s.reselect.drawn = if (keys s.known).isEmpty then s.drawn else s.topUp.drawn := by
  unfold reselect
  split
  · rfl
  · exact (foldl_request_sameDraw _ _).2.1

lemma topUp_known (s : ChainSampler) : s.topUp.known = s.known := by
  unfold topUp
  dsimp only
  split <;> rfl

end ChainSampler

lemma mem_sortHeights {l : List UInt64} {h : UInt64} : h ∈ sortHeights l ↔ h ∈ l :=
  mem_ofList

lemma toFinset_sortHeights (l : List UInt64) : (sortHeights l).toFinset = l.toFinset := by
  ext h
  simp [mem_sortHeights]

lemma drawRandom_spec {available : Heights} (hnodup : available.Nodup) (want : Nat)
  (rng : Nat → UInt64) (position : Nat) :
  (drawRandom available want rng position).1.toFinset ⊆ available.toFinset ∧
    (drawRandom available want rng position).1.toFinset.card = min want available.length := by
  unfold drawRandom
  split
  · rename_i hall
    rw [toFinset_sortHeights, toFinset_card_of_nodup hnodup]
    exact ⟨Finset.Subset.refl _, by omega⟩
  rename_i hfew
  dsimp only
  rw [toFinset_sortHeights, toFinset_card_of_nodup (nodup_draw hnodup),
    length_draw _ (by omega)]
  refine ⟨?_, by omega⟩
  intro h hh
  rw [mem_toFinset] at hh ⊢
  exact mem_of_mem_draw hh

namespace ChainSampler

structure Pooled (s : ChainSampler) : Prop where
  sorted : (keys s.known).Pairwise (· ≤ ·)
  nodup : (keys s.known).Nodup
  drawnNodup : s.drawn.Nodup
  drawnKnown : s.drawn ⊆ keys s.known
  atMost : s.drawn.length ≤ randomSamples

variable {s : ChainSampler}

lemma Pooled.topUp (h : s.Pooled) : s.topUp.Pooled ∧ s.drawn ⊆ s.topUp.drawn ∧
    s.topUp.drawn.length = min randomSamples (keys s.known).length := by
  have hsub : s.drawn.toFinset ⊆ (keys s.known).toFinset := by
    intro x hx
    rw [mem_toFinset] at hx ⊢
    exact h.drawnKnown hx
  have hcard := Finset.card_le_card hsub
  rw [toFinset_card_of_nodup h.drawnNodup, toFinset_card_of_nodup h.nodup] at hcard
  have hatMost := h.atMost
  by_cases hwant : 0 < randomSamples - s.drawn.length
  · set fresh := (keys s.known).filter fun x => ¬ s.drawn.any (· = x) with hfresh
    have hfreshNodup : fresh.Nodup := h.nodup.filter _
    have hfreshSet : fresh.toFinset = (keys s.known).toFinset \ s.drawn.toFinset := by
      ext x
      simp [hfresh]
    have hfreshCard : fresh.length = (keys s.known).length - s.drawn.length := by
      rw [← toFinset_card_of_nodup hfreshNodup, hfreshSet, Finset.card_sdiff_of_subset hsub,
        toFinset_card_of_nodup h.nodup, toFinset_card_of_nodup h.drawnNodup]
    obtain ⟨hdraw, hdrawCard⟩ := drawRandom_spec hfreshNodup
      (randomSamples - s.drawn.length) s.rng s.position
    set drawing := drawRandom fresh (randomSamples - s.drawn.length) s.rng s.position
    have htop : s.topUp = { s with
        drawn := extend (· ≤ ·) s.drawn drawing.1, position := drawing.2 } := by
      unfold ChainSampler.topUp
      dsimp only
      rw [if_pos hwant]
    have hset : (extend (· ≤ ·) s.drawn drawing.1).toFinset =
        s.drawn.toFinset ∪ drawing.1.toFinset := by
      ext x
      simp [mem_extend]
    have hdisjoint : Disjoint s.drawn.toFinset drawing.1.toFinset := by
      rw [hfreshSet] at hdraw
      exact Finset.disjoint_left.mpr fun x hx hx' => (Finset.mem_sdiff.mp (hdraw hx')).2 hx
    have hnodup : (extend (· ≤ ·) s.drawn drawing.1).Nodup :=
      OrdSet.nodup_extend h.drawnNodup
    have hlength : (extend (· ≤ ·) s.drawn drawing.1).length =
        min randomSamples (keys s.known).length := by
      rw [← toFinset_card_of_nodup hnodup, hset, Finset.card_union_of_disjoint hdisjoint,
        hdrawCard, toFinset_card_of_nodup h.drawnNodup, hfreshCard]
      omega
    rw [htop]
    refine ⟨⟨h.sorted, h.nodup, hnodup, ?_, ?_⟩, ?_, hlength⟩
    · intro x hx
      rcases mem_extend.mp hx with hx | hx
      · exact h.drawnKnown hx
      have := hdraw (mem_toFinset.mpr hx)
      rw [hfreshSet] at this
      exact mem_toFinset.mp (Finset.mem_sdiff.mp this).1
    · show (extend (· ≤ ·) s.drawn drawing.1).length ≤ randomSamples
      omega
    intro x hx
    exact mem_extend.mpr (.inl hx)
  have htop : s.topUp = s := by
    unfold ChainSampler.topUp
    dsimp only
    rw [if_neg hwant]
  rw [htop]
  exact ⟨h, fun x hx => hx, by omega⟩

instance : Std.Total (fun a b : UInt64 => a ≤ b) := ⟨UInt64.le_total⟩

instance : IsTrans UInt64 (fun a b => a ≤ b) := ⟨fun _ _ _ => UInt64.le_trans⟩

lemma foldl_learn (ids : List (UInt64 × B256)) : ∀ s : ChainSampler,
  ∃ known, ids.foldl learn s = { s with known } ∧
    (∀ x, x ∈ keys known ↔ x ∈ keys s.known ∨
      (x ∈ ids.map Prod.fst ∧ s.checkpoint.number < x ∧ x ∉ keys s.collected)) ∧
    ((keys s.known).Nodup → (keys known).Nodup) ∧
    ((keys s.known).Pairwise (· ≤ ·) → (keys known).Pairwise (· ≤ ·)) := by
  induction ids with
  | nil => intro s; exact ⟨s.known, rfl, by simp, id, id⟩
  | cons e ids ih =>
    intro s
    rw [foldl_cons]
    by_cases hskip : e.1 ≤ s.checkpoint.number ∨ (get? e.1 s.collected).isSome
    · have hlearn : s.learn e = s := by rw [learn, if_pos hskip]
      rw [hlearn]
      obtain ⟨known, heq, hmem, hnodup, hsorted⟩ := ih s
      refine ⟨known, heq, ?_, hnodup, hsorted⟩
      intro x
      rw [hmem, map_cons, mem_cons]
      rw [get?_isSome] at hskip
      constructor
      · rintro (hx | ⟨hx, hrest⟩)
        · exact .inl hx
        · exact .inr ⟨.inr hx, hrest⟩
      rintro (hx | ⟨rfl | hx, habove, hnew⟩)
      · exact .inl hx
      · rcases hskip with hlow | hdone
        · exact absurd habove (UInt64.not_lt.mpr hlow)
        · exact absurd hdone hnew
      · exact .inr ⟨hx, habove, hnew⟩
    have hlearn : s.learn e = { s with known := insert (· ≤ ·) e.1 e.2 s.known } := by
      rw [learn, if_neg hskip]
    rw [hlearn]
    obtain ⟨known, heq, hmem, hnodup, hsorted⟩ := ih
      { s with known := insert (· ≤ ·) e.1 e.2 s.known }
    refine ⟨known, heq, ?_, fun h => hnodup (nodup_keys_insert h),
      fun h => hsorted (sorted_keys_insert h)⟩
    intro x
    rw [hmem, mem_keys_insert, map_cons, mem_cons]
    rw [not_or, UInt64.not_le, get?_isSome] at hskip
    constructor
    · rintro ((rfl | hx) | ⟨hx, hrest⟩)
      · exact .inr ⟨.inl rfl, hskip⟩
      · exact .inl hx
      · exact .inr ⟨.inr hx, hrest⟩
    rintro (hx | ⟨rfl | hx, hrest⟩)
    · exact .inl (.inr hx)
    · exact .inl (.inl rfl)
    · exact .inr ⟨hx, hrest⟩

def namedBy (checkpoint : UInt64) (page : List (UInt64 × B256)) : Finset UInt64 :=
  ((page.map Prod.fst).filter (checkpoint < ·)).toFinset

lemma mem_namedBy {checkpoint x : UInt64} {page : List (UInt64 × B256)} :
  x ∈ namedBy checkpoint page ↔ x ∈ page.map Prod.fst ∧ checkpoint < x := by
  simp [namedBy]

structure Between (s : ChainSampler) (heights : Finset UInt64) : Prop where
  pooled : s.Pooled
  nothing : s.collected = []
  known : ∀ x, x ∈ keys s.known ↔ x ∈ heights
  full : s.drawn.length = min randomSamples heights.card

structure Absorbed (s t : ChainSampler) (page : List (UInt64 × B256)) : Prop where
  pooled : t.Pooled
  known : ∀ x, x ∈ keys t.known ↔ x ∈ keys s.known ∨
    (x ∈ namedBy s.checkpoint.number page ∧ x ∉ keys s.collected)
  grows : s.drawn ⊆ t.drawn
  full : t.drawn.length = min randomSamples (keys t.known).length
  rest : t.collected = s.collected ∧ t.checkpoint = s.checkpoint ∧ t.missing = s.missing ∧
    t.verifyHash = s.verifyHash ∧ t.onCheckpointChain = s.onCheckpointChain
  kept : ∀ e ∈ s.outstanding, e ∈ t.outstanding
  asked : ∀ e ∈ t.outstanding, e ∈ s.outstanding ∨ e ∈ t.known
  covered : ∀ x ∈ t.drawn, x ∈ keys t.outstanding ∨ x ∈ keys t.collected

lemma topUp_rest (s : ChainSampler) : s.topUp.collected = s.collected ∧
  s.topUp.checkpoint = s.checkpoint ∧ s.topUp.missing = s.missing ∧
  s.topUp.verifyHash = s.verifyHash ∧ s.topUp.onCheckpointChain = s.onCheckpointChain ∧
  s.topUp.outstanding = s.outstanding := by
  unfold topUp
  dsimp only
  split <;> exact ⟨rfl, rfl, rfl, rfl, rfl, rfl⟩

/-- **One page.** -/
theorem Pooled.absorb (h : s.Pooled) (page : List (UInt64 × B256)) :
  Absorbed s (s.absorbSkeleton page) page := by
  obtain ⟨known, heq, hmem, hnodup, hsorted⟩ := foldl_learn page s
  rw [absorbSkeleton, heq]
  set t : ChainSampler := { s with known } with ht
  have hknown : ∀ x, x ∈ keys t.known ↔ x ∈ keys s.known ∨
      (x ∈ namedBy s.checkpoint.number page ∧ x ∉ keys s.collected) := by
    intro x
    rw [hmem, mem_namedBy, and_assoc]
  have hpooled : t.Pooled := ⟨hsorted h.sorted, hnodup h.nodup, h.drawnNodup,
    fun x hx => (hmem x).mpr (.inl (h.drawnKnown hx)), h.atMost⟩
  by_cases hempty : (keys t.known).isEmpty
  · have hsame : t.reselect = t := by rw [reselect, if_pos hempty]
    rw [hsame]
    rw [List.isEmpty_iff] at hempty
    have hnone : t.drawn = [] := List.eq_nil_iff_forall_not_mem.mpr fun x hx => by
      have := hpooled.drawnKnown hx
      rw [hempty] at this
      simp at this
    exact ⟨hpooled, hknown, fun x hx => hx, by rw [hnone, hempty]; rfl,
      ⟨rfl, rfl, rfl, rfl, rfl⟩, fun e he => he, fun e he => .inl he, by simp [hnone]⟩
  obtain ⟨htop, hgrows, hfull⟩ := hpooled.topUp
  obtain ⟨hc, hcheck, hmissing, hverify, hon, hout⟩ := topUp_rest t
  have hreselect : t.reselect = (fillGaps (keys t.topUp.known) t.topUp.drawn
      sampleInterval).foldl request t.topUp := by rw [reselect, if_neg hempty]
  obtain ⟨hk, hd, -, -, hc', hcheck'⟩ := foldl_request_sameDraw (fillGaps
    (keys t.topUp.known) t.topUp.drawn sampleInterval) t.topUp
  obtain ⟨hmissing', hverify', hon', hkept, hasked, hcovers⟩ := foldl_request_spec (fillGaps
    (keys t.topUp.known) t.topUp.drawn sampleInterval) t.topUp
  rw [← hreselect] at hk hd hc' hcheck' hmissing' hverify' hon' hkept hasked hcovers
  have hknown' : t.reselect.known = t.known := hk.trans (topUp_known t)
  refine ⟨⟨?_, ?_, ?_, ?_, ?_⟩, ?_, ?_, ?_, ⟨?_, ?_, ?_, ?_, ?_⟩, ?_, ?_, ?_⟩
  · rw [hk]; exact htop.sorted
  · rw [hk]; exact htop.nodup
  · rw [hd]; exact htop.drawnNodup
  · rw [hk, hd]; exact htop.drawnKnown
  · rw [hd]; exact htop.atMost
  · rw [hknown']; exact hknown
  · rw [hd]; exact hgrows
  · rw [hd, hfull, hknown']
  · exact hc'.trans hc
  · exact hcheck'.trans hcheck
  · exact hmissing'.trans hmissing
  · exact hverify'.trans hverify
  · exact hon'.trans hon
  · intro e he
    exact hkept e (hout ▸ he)
  · intro e he
    rcases hasked e he with he | he
    · exact .inl (hout ▸ he)
    · exact .inr (hk ▸ he)
  intro x hx
  rw [hd] at hx
  rw [hc']
  have hmem : x ∈ keys t.topUp.known := htop.drawnKnown hx
  refine hcovers x (mem_fillGaps ?_ hx) hmem
  exact List.ne_nil_of_mem hmem

lemma Between.absorb {heights : Finset UInt64} (h : s.Between heights)
  (page : List (UInt64 × B256)) :
  (s.absorbSkeleton page).Between (heights ∪ namedBy s.checkpoint.number page) ∧
    s.drawn ⊆ (s.absorbSkeleton page).drawn ∧
    (s.absorbSkeleton page).checkpoint = s.checkpoint := by
  have habsorbed := h.pooled.absorb page
  have hknown : ∀ x, x ∈ keys (s.absorbSkeleton page).known ↔
      x ∈ heights ∪ namedBy s.checkpoint.number page := by
    intro x
    rw [Finset.mem_union, ← h.known, habsorbed.known, h.nothing]
    simp [keys]
  have hcard : (keys (s.absorbSkeleton page).known).length =
      (heights ∪ namedBy s.checkpoint.number page).card := by
    rw [← toFinset_card_of_nodup habsorbed.pooled.nodup]
    congr 1
    ext x
    rw [mem_toFinset, hknown]
  exact ⟨⟨habsorbed.pooled, habsorbed.rest.1.trans h.nothing, hknown,
    habsorbed.full.trans (congrArg _ hcard)⟩, habsorbed.grows, habsorbed.rest.2.1⟩

def namedByAll (checkpoint : UInt64) (pages : List (List (UInt64 × B256))) : Finset UInt64 :=
  namedBy checkpoint pages.flatten

lemma namedByAll_cons (checkpoint : UInt64) (page : List (UInt64 × B256))
  (pages : List (List (UInt64 × B256))) : namedByAll checkpoint (page :: pages) =
    namedBy checkpoint page ∪ namedByAll checkpoint pages := by
  ext x
  simp only [namedByAll, List.flatten_cons, mem_namedBy, List.map_append, List.mem_append,
    Finset.mem_union]
  tauto

/-- **All pages.** -/
theorem Between.absorbAll : ∀ (pages : List (List (UInt64 × B256))) {s : ChainSampler}
  {heights : Finset UInt64}, s.Between heights →
  (pages.foldl absorbSkeleton s).Between (heights ∪ namedByAll s.checkpoint.number pages) ∧
    s.drawn ⊆ (pages.foldl absorbSkeleton s).drawn
  | [], s, heights, h => by
    have hnone : namedByAll s.checkpoint.number [] = ∅ := by simp [namedByAll, namedBy]
    rw [hnone, Finset.union_empty]
    exact ⟨h, fun x hx => hx⟩
  | page :: pages, s, heights, h => by
    obtain ⟨hpage, hgrows, hcheck⟩ := h.absorb page
    obtain ⟨hall, hgrows'⟩ := Between.absorbAll pages hpage
    rw [hcheck, Finset.union_assoc, ← namedByAll_cons] at hall
    exact ⟨hall, fun x hx => hgrows' (hgrows hx)⟩

variable {a : Heights}

lemma heights_unique {b : Heights} (ha : a.Pairwise (· ≤ ·)) (hb : b.Pairwise (· ≤ ·))
  (han : a.Nodup) (hbn : b.Nodup) (h : ∀ x, x ∈ a ↔ x ∈ b) : a = b :=
  List.Perm.eq_of_pairwise (fun _ _ _ _ => UInt64.le_antisymm) ha hb
    ((List.perm_ext_iff_of_nodup han hbn).mpr h)

lemma length_le_of_nodup (h : a.Nodup) : a.length ≤ 2 ^ 64 := by
  have hnodup : (a.map UInt64.toNat).Nodup := h.map fun _ _ => UInt64.toNat_inj.mp
  have hsub : (a.map UInt64.toNat).toFinset ⊆ Finset.range (2 ^ 64) := by
    intro n hn
    obtain ⟨x, -, rfl⟩ := mem_map.mp (mem_toFinset.mp hn)
    exact Finset.mem_range.mpr x.toNat_lt
  have hcard := Finset.card_le_card hsub
  rwa [toFinset_card_of_nodup hnodup, List.length_map, Finset.card_range] at hcard

lemma topUp_congr {t : ChainSampler} (hkeys : keys s.known = keys t.known)
  (hdrawn : s.drawn = t.drawn) (hrng : s.rng = t.rng) (hposition : s.position = t.position) :
  s.topUp.drawn = t.topUp.drawn := by
  unfold topUp
  rw [hkeys, hdrawn, hrng, hposition]
  dsimp only
  split
  · rfl
  · exact hdrawn

lemma topUp_drawn_of_empty (h : s.drawn = []) : s.topUp.drawn = extend (· ≤ ·) []
    (drawRandom (keys s.known) randomSamples s.rng s.position).1 := by
  have hfresh : (keys s.known).filter (fun x => ¬ s.drawn.any (· = x)) =
      keys s.known := by simp [h]
  unfold topUp
  dsimp only
  rw [hfresh, h]
  rfl

end ChainSampler

section Paging

open ChainSampler

variable (checkpoint : DifficultyCheckpoint) (head divisor : UInt64) (minDifficulty : U256)
  (verifyHash : Bool)

/-- The generator whose first words these are. A sampler reads no more: every word it reads adds
a height to a draw of at most `RANDOM_SAMPLES`. -/
def streamOf (outcome : Fin randomSamples → UInt64) : Nat → UInt64 :=
  fun n => if h : n < randomSamples then outcome ⟨n, h⟩ else 0

abbrev fresh (outcome : Fin randomSamples → UInt64) : ChainSampler :=
  .new checkpoint head divisor minDifficulty verifyHash (streamOf outcome)

def drawnAfter (pages : List (List (UInt64 × B256))) (outcome : Fin randomSamples → UInt64) :
  Finset UInt64 :=
  (pages.foldl absorbSkeleton (fresh checkpoint head divisor minDifficulty verifyHash
    outcome)).drawn.toFinset

noncomputable def outcomesOf (pages : List (List (UInt64 × B256))) (drawn : Finset UInt64) : Nat :=
  Set.ncard {outcome | drawnAfter checkpoint head divisor minDifficulty verifyHash pages outcome =
    drawn}

/-- **The property**: every height named can be drawn, and paging does not change how the draw is
distributed. -/
structure Unpredictable (pages : List (List (UInt64 × B256))) : Prop where
  reachable : ∀ h ∈ namedByAll checkpoint.number pages, ∃ outcome,
    h ∈ drawnAfter checkpoint head divisor minDifficulty verifyHash pages outcome
  pagingFree : ∀ drawn,
    outcomesOf checkpoint head divisor minDifficulty verifyHash pages drawn =
      outcomesOf checkpoint head divisor minDifficulty verifyHash [pages.flatten] drawn

/-- **The condition**: few heights, or all of them on the first page that names any. -/
def PagedAtOnce (pages : List (List (UInt64 × B256))) : Prop :=
  (namedByAll checkpoint.number pages).card ≤ randomSamples ∨
    ∀ page, pages.find? (fun p => namedBy checkpoint.number p ≠ ∅) = some page →
      namedByAll checkpoint.number pages ⊆ namedBy checkpoint.number page

variable {checkpoint head divisor minDifficulty verifyHash} {pages : List (List (UInt64 × B256))}
  {page : List (UInt64 × B256)}

lemma fresh_between (outcome : Fin randomSamples → UInt64) :
  (fresh checkpoint head divisor minDifficulty verifyHash outcome).Between ∅ where
  pooled := ⟨List.Pairwise.nil, List.nodup_nil, List.nodup_nil, fun _ hx => hx, Nat.zero_le _⟩
  nothing := rfl
  known x := by simp [ChainSampler.new, keys]
  full := by simp [ChainSampler.new]

lemma absorb_of_names_none (h : namedBy checkpoint.number page = ∅)
  (outcome : Fin randomSamples → UInt64) :
  (fresh checkpoint head divisor minDifficulty verifyHash outcome).absorbSkeleton page =
    fresh checkpoint head divisor minDifficulty verifyHash outcome := by
  obtain ⟨known, heq, hmem, -, -⟩ :=
    foldl_learn page (fresh checkpoint head divisor minDifficulty verifyHash outcome)
  have hnil : known = [] := by
    rw [← List.map_eq_nil_iff (f := Prod.fst), List.eq_nil_iff_forall_not_mem]
    intro x hx
    rcases (hmem x).mp hx with hx | ⟨hx, habove, -⟩
    · simp [ChainSampler.new, keys] at hx
    have : x ∈ namedBy checkpoint.number page := mem_namedBy.mpr ⟨hx, habove⟩
    simp [h] at this
  rw [absorbSkeleton, heq, hnil, reselect, if_pos (by rfl)]
  rfl

lemma first_drawn_congr {page' : List (UInt64 × B256)}
  (h : namedBy checkpoint.number page = namedBy checkpoint.number page')
  (outcome : Fin randomSamples → UInt64) :
  ((fresh checkpoint head divisor minDifficulty verifyHash outcome).absorbSkeleton page).drawn =
    ((fresh checkpoint head divisor minDifficulty verifyHash outcome).absorbSkeleton
      page').drawn := by
  obtain ⟨known, heq, hmem, hnodup, hsorted⟩ :=
    foldl_learn page (fresh checkpoint head divisor minDifficulty verifyHash outcome)
  obtain ⟨known', heq', hmem', hnodup', hsorted'⟩ :=
    foldl_learn page' (fresh checkpoint head divisor minDifficulty verifyHash outcome)
  have hkeys : keys known = keys known' := by
    refine heights_unique (hsorted .nil) (hsorted' .nil) (hnodup .nil) (hnodup' .nil) ?_
    intro x
    have hx := Finset.ext_iff.mp h x
    rw [mem_namedBy, mem_namedBy] at hx
    rw [hmem, hmem']
    simpa [ChainSampler.new, keys] using hx
  rw [absorbSkeleton, absorbSkeleton, heq, heq', reselect_drawn, reselect_drawn]
  dsimp only
  rw [hkeys, topUp_congr (s := { fresh checkpoint head divisor minDifficulty verifyHash outcome
    with known }) (t := { fresh checkpoint head divisor minDifficulty verifyHash outcome with
    known := known' }) hkeys rfl rfl rfl]

/-- **Every set of the right size is drawn** from one page, for some outcome. -/
theorem first_drawn_surjective {target : Finset UInt64}
  (hmany : randomSamples < (namedBy checkpoint.number page).card)
  (htarget : target ⊆ namedBy checkpoint.number page) (hcard : target.card = randomSamples) :
  ∃ outcome, ((fresh checkpoint head divisor minDifficulty verifyHash outcome).absorbSkeleton
    page).drawn.toFinset = target := by
  obtain ⟨known, -, hmem, hnodup, hsorted⟩ :=
    foldl_learn page (fresh checkpoint head divisor minDifficulty verifyHash fun _ => 0)
  set pool := keys known
  have hpool : pool.Nodup := hnodup .nil
  have hpoolMem : ∀ x, x ∈ pool ↔ x ∈ namedBy checkpoint.number page := by
    intro x
    rw [hmem, mem_namedBy]
    simp [ChainSampler.new, keys]
  have hlength : pool.length = (namedBy checkpoint.number page).card := by
    rw [← toFinset_card_of_nodup hpool]
    congr 1
    ext x
    rw [mem_toFinset, hpoolMem]
  obtain ⟨words, hwords, hdraw⟩ := draw_surjective 0 target.nodup_toList hpool
    (fun x hx => (hpoolMem x).mpr (htarget (Finset.mem_toList.mp hx)))
  rw [Finset.length_toList, hcard] at hdraw
  set outcome : Fin randomSamples → UInt64 := fun i => UInt64.ofNat (words i)
  refine ⟨outcome, ?_⟩
  -- The generator's words are those of the wanted draw.
  have hsame : draw (fun n => (streamOf outcome n).toNat) 0 randomSamples pool = target.toList := by
    rw [← hdraw]
    refine draw_congr fun n _ hn => ?_
    have hbound := hwords n
    have hfits := length_le_of_nodup hpool
    have hin : n < randomSamples := by omega
    simp only [streamOf, dif_pos hin, outcome]
    rw [toNat_ofNat']
    exact Nat.mod_eq_of_lt (by omega)
  obtain ⟨known', heq', hmem', hnodup', hsorted'⟩ :=
    foldl_learn page (fresh checkpoint head divisor minDifficulty verifyHash outcome)
  have hkeys : keys known' = pool := by
    refine heights_unique (hsorted' .nil) (hsorted .nil) (hnodup' .nil) hpool ?_
    intro x
    rw [hmem', hmem]
    exact Iff.rfl
  have hdrawn : ({ fresh checkpoint head divisor minDifficulty verifyHash outcome with
      known := known' } : ChainSampler).topUp.drawn = extend (· ≤ ·) []
        (sortHeights target.toList) := by
    rw [topUp_drawn_of_empty rfl]
    dsimp only
    rw [hkeys, drawRandom, if_neg (by omega)]
    exact congrArg (fun l => extend (· ≤ ·) [] (sortHeights l)) hsame
  have hne : ¬ pool.isEmpty = true := by
    rw [List.isEmpty_iff_length_eq_zero]
    omega
  rw [absorbSkeleton, heq', reselect_drawn]
  dsimp only
  rw [hkeys, if_neg hne, hdrawn]
  ext x
  simp [mem_extend, mem_sortHeights]

variable {drawn : Finset UInt64}

lemma outcomesOf_pos {outcome : Fin randomSamples → UInt64}
  (h : drawnAfter checkpoint head divisor minDifficulty verifyHash pages outcome = drawn) :
  0 < outcomesOf checkpoint head divisor minDifficulty verifyHash pages drawn :=
  (Set.ncard_pos (Set.toFinite _)).mpr ⟨outcome, h⟩

lemma outcomesOf_eq_zero
  (h : ∀ outcome, drawnAfter checkpoint head divisor minDifficulty verifyHash pages outcome ≠
    drawn) : outcomesOf checkpoint head divisor minDifficulty verifyHash pages drawn = 0 := by
  rw [outcomesOf, Set.ncard_eq_zero (Set.toFinite _)]
  exact Set.eq_empty_of_forall_notMem h

lemma namedByAll_flatten (checkpoint : UInt64) (pages : List (List (UInt64 × B256))) :
  namedByAll checkpoint [pages.flatten] = namedByAll checkpoint pages := by
  simp [namedByAll]

lemma drawn_of_full {s : ChainSampler} {heights : Finset UInt64} (h : s.Between heights)
  (hfull : s.drawn.length = randomSamples) (rest : List (List (UInt64 × B256))) :
  (rest.foldl absorbSkeleton s).drawn.toFinset = s.drawn.toFinset := by
  obtain ⟨hall, hgrows⟩ := h.absorbAll rest
  have hsub : s.drawn.toFinset ⊆ (rest.foldl absorbSkeleton s).drawn.toFinset := by
    intro x hx
    rw [mem_toFinset] at hx ⊢
    exact hgrows hx
  refine (Finset.eq_of_subset_of_card_le hsub ?_).symm
  rw [toFinset_card_of_nodup hall.pooled.drawnNodup,
    toFinset_card_of_nodup h.pooled.drawnNodup, hfull]
  exact hall.pooled.atMost

lemma drawnAfter_of_few (h : (namedByAll checkpoint.number pages).card ≤ randomSamples)
  (outcome : Fin randomSamples → UInt64) :
  drawnAfter checkpoint head divisor minDifficulty verifyHash pages outcome =
    namedByAll checkpoint.number pages := by
  obtain ⟨hall, -⟩ := Between.absorbAll pages
    (@fresh_between checkpoint head divisor minDifficulty verifyHash outcome)
  rw [Finset.empty_union] at hall
  refine Finset.eq_of_subset_of_card_le ?_ ?_
  · intro x hx
    exact (hall.known x).mp (hall.pooled.drawnKnown (mem_toFinset.mp hx))
  have hfull := hall.full
  rw [drawnAfter, toFinset_card_of_nodup hall.pooled.drawnNodup, hfull]
  exact le_min h le_rfl

lemma drawnAfter_of_names_none :
  ∀ {early : List (List (UInt64 × B256))}, (∀ p ∈ early, namedBy checkpoint.number p = ∅) →
    ∀ (pages : List (List (UInt64 × B256))) (outcome : Fin randomSamples → UInt64),
      drawnAfter checkpoint head divisor minDifficulty verifyHash (early ++ pages) outcome =
        drawnAfter checkpoint head divisor minDifficulty verifyHash pages outcome
  | [], _, _, _ => rfl
  | p :: early, h, pages, outcome => by
    have ih := drawnAfter_of_names_none (fun q hq => h q (List.mem_cons_of_mem _ hq)) pages
      outcome
    rw [← ih, drawnAfter, drawnAfter, List.cons_append, foldl_cons,
      absorb_of_names_none (h p mem_cons_self)]

lemma drawnAfter_of_many (hmany : randomSamples < (namedBy checkpoint.number page).card)
  (rest : List (List (UInt64 × B256))) (outcome : Fin randomSamples → UInt64) :
  drawnAfter checkpoint head divisor minDifficulty verifyHash (page :: rest) outcome =
    ((fresh checkpoint head divisor minDifficulty verifyHash outcome).absorbSkeleton
      page).drawn.toFinset := by
  obtain ⟨hpage, -, -⟩ :=
    (@fresh_between checkpoint head divisor minDifficulty verifyHash outcome).absorb page
  rw [Finset.empty_union] at hpage
  have hfull := hpage.full
  exact drawn_of_full hpage (hfull.trans (min_eq_left (le_of_lt hmany))) rest

lemma drawnAfter_subset (outcome : Fin randomSamples → UInt64) :
  drawnAfter checkpoint head divisor minDifficulty verifyHash pages outcome ⊆
    namedByAll checkpoint.number pages := by
  obtain ⟨hall, -⟩ := Between.absorbAll pages
    (@fresh_between checkpoint head divisor minDifficulty verifyHash outcome)
  rw [Finset.empty_union] at hall
  intro x hx
  exact (hall.known x).mp (hall.pooled.drawnKnown (mem_toFinset.mp hx))

lemma first_drawn_subset (rest : List (List (UInt64 × B256)))
  (outcome : Fin randomSamples → UInt64) :
  ((fresh checkpoint head divisor minDifficulty verifyHash outcome).absorbSkeleton
    page).drawn.toFinset ⊆
    drawnAfter checkpoint head divisor minDifficulty verifyHash (page :: rest) outcome := by
  obtain ⟨hpage, -, -⟩ :=
    (@fresh_between checkpoint head divisor minDifficulty verifyHash outcome).absorb page
  intro x hx
  exact mem_toFinset.mpr ((hpage.absorbAll rest).2 (mem_toFinset.mp hx))

variable {rest : List (List (UInt64 × B256))}

lemma drawnAfter_of_all
  (hall : namedByAll checkpoint.number (page :: rest) ⊆ namedBy checkpoint.number page)
  (hmany : randomSamples < (namedByAll checkpoint.number (page :: rest)).card)
  (outcome : Fin randomSamples → UInt64) :
  drawnAfter checkpoint head divisor minDifficulty verifyHash (page :: rest) outcome =
    drawnAfter checkpoint head divisor minDifficulty verifyHash [(page :: rest).flatten]
      outcome := by
  have heq : namedBy checkpoint.number page = namedBy checkpoint.number (page :: rest).flatten := by
    refine Finset.Subset.antisymm ?_ hall
    have hcons := namedByAll_cons checkpoint.number page rest
    rw [namedByAll] at hcons
    rw [hcons]
    exact Finset.subset_union_left
  have hmanyAll : randomSamples < (namedBy checkpoint.number (page :: rest).flatten).card := hmany
  rw [drawnAfter_of_many (heq ▸ hmanyAll), drawnAfter_of_many hmanyAll, first_drawn_congr heq]

lemma exists_drawn {h : UInt64} (hmany : randomSamples < (namedBy checkpoint.number page).card)
  (hnamed : h ∈ namedBy checkpoint.number page) :
  ∃ outcome, h ∈ ((fresh checkpoint head divisor minDifficulty verifyHash
    outcome).absorbSkeleton page).drawn.toFinset := by
  obtain ⟨target, hone, hsub, hcard⟩ := Finset.exists_subsuperset_card_eq
    (Finset.singleton_subset_iff.mpr hnamed) (by simp [randomSamples]) hmany.le
  obtain ⟨outcome, hdrawn⟩ := first_drawn_surjective hmany hsub hcard
  exact ⟨outcome, hdrawn ▸ Finset.singleton_subset_iff.mp hone⟩

lemma exists_not_drawn (h : UInt64)
  (hmany : randomSamples < (namedBy checkpoint.number page).card) :
  ∃ outcome, h ∉ ((fresh checkpoint head divisor minDifficulty verifyHash
    outcome).absorbSkeleton page).drawn.toFinset := by
  have herase : randomSamples ≤ ((namedBy checkpoint.number page).erase h).card := by
    have := Finset.pred_card_le_card_erase (s := namedBy checkpoint.number page) (a := h)
    omega
  obtain ⟨target, hsub, hcard⟩ := Finset.exists_subset_card_eq herase
  obtain ⟨outcome, hdrawn⟩ := first_drawn_surjective hmany
    (hsub.trans (Finset.erase_subset _ _)) hcard
  refine ⟨outcome, ?_⟩
  rw [hdrawn]
  exact fun hin => Finset.notMem_erase h _ (hsub hin)

variable {early : List (List (UInt64 × B256))}

lemma namedByAll_of_names_none (h : ∀ p ∈ early, namedBy checkpoint.number p = ∅)
  (pages : List (List (UInt64 × B256))) :
  namedByAll checkpoint.number (early ++ pages) = namedByAll checkpoint.number pages := by
  induction early with
  | nil => rfl
  | cons p early ih =>
    rw [List.cons_append, namedByAll_cons, h p mem_cons_self, Finset.empty_union,
      ih fun q hq => h q (List.mem_cons_of_mem _ hq)]

lemma unpredictable_of_names_none (h : ∀ p ∈ early, namedBy checkpoint.number p = ∅) :
  Unpredictable checkpoint head divisor minDifficulty verifyHash (early ++ pages) ↔
    Unpredictable checkpoint head divisor minDifficulty verifyHash pages := by
  have hpaged := fun outcome => @drawnAfter_of_names_none checkpoint head divisor minDifficulty
    verifyHash early h pages outcome
  have honce : ∀ outcome, drawnAfter checkpoint head divisor minDifficulty verifyHash
      [(early ++ pages).flatten] outcome = drawnAfter checkpoint head divisor minDifficulty
        verifyHash [pages.flatten] outcome := by
    intro outcome
    have hsame : namedBy checkpoint.number (early ++ pages).flatten =
        namedBy checkpoint.number pages.flatten := namedByAll_of_names_none h pages
    exact congrArg List.toFinset (first_drawn_congr hsame outcome)
  have hnamed := namedByAll_of_names_none h pages
  constructor
  · rintro ⟨hreach, hfree⟩
    simp only [outcomesOf, hpaged, honce, hnamed] at hreach hfree
    exact ⟨hreach, hfree⟩
  rintro ⟨hreach, hfree⟩
  refine ⟨?_, ?_⟩
  · simpa only [hpaged, hnamed] using hreach
  · simpa only [outcomesOf, hpaged, honce] using hfree

lemma unpredictable_cons_iff (hnames : namedBy checkpoint.number page ≠ ∅)
  (hmany : randomSamples < (namedByAll checkpoint.number (page :: rest)).card) :
  Unpredictable checkpoint head divisor minDifficulty verifyHash (page :: rest) ↔
    namedByAll checkpoint.number (page :: rest) ⊆ namedBy checkpoint.number page := by
  constructor
  · rintro ⟨hreach, hfree⟩
    by_contra hmissing
    obtain ⟨late, hlate, hnotFirst⟩ := Finset.not_subset.mp hmissing
    by_cases hfirst : randomSamples < (namedBy checkpoint.number page).card
    · -- The draw is full before the later height is known.
      obtain ⟨outcome, hdrawn⟩ := hreach late hlate
      rw [drawnAfter_of_many hfirst] at hdrawn
      have hsub := @drawnAfter_subset checkpoint head divisor minDifficulty verifyHash [page]
        outcome
      have hone : namedByAll checkpoint.number [page] = namedBy checkpoint.number page := by
        simp [namedByAll]
      exact hnotFirst (hone ▸ hsub hdrawn)
    -- Every height of the first page is drawn, which one page of all heights does not do.
    obtain ⟨sure, hsure⟩ := Finset.nonempty_iff_ne_empty.mpr hnames
    obtain ⟨outcome, hnot⟩ := @exists_not_drawn checkpoint head divisor minDifficulty verifyHash
      (page :: rest).flatten sure hmany
    have hnone : outcomesOf checkpoint head divisor minDifficulty verifyHash (page :: rest)
        (drawnAfter checkpoint head divisor minDifficulty verifyHash
          [(page :: rest).flatten] outcome) = 0 := by
      refine outcomesOf_eq_zero fun other heq => hnot ?_
      have hone : namedByAll checkpoint.number [page] = namedBy checkpoint.number page := by
        simp [namedByAll]
      have hall := @drawnAfter_of_few checkpoint head divisor minDifficulty verifyHash [page]
        (by rw [hone]; omega) other
      have hin := @first_drawn_subset checkpoint head divisor minDifficulty verifyHash page
        rest other
      have hdrawn : sure ∈ drawnAfter checkpoint head divisor minDifficulty verifyHash [page]
        other := by rwa [hall, hone]
      rw [heq] at hin
      exact hin hdrawn
    rw [hfree] at hnone
    exact absurd hnone (outcomesOf_pos rfl).ne'
  intro hall
  have hfirst : randomSamples < (namedBy checkpoint.number page).card :=
    hmany.trans_le (Finset.card_le_card hall)
  refine ⟨?_, ?_⟩
  · intro h hh
    obtain ⟨outcome, hdrawn⟩ := @exists_drawn checkpoint head divisor minDifficulty verifyHash
      page h hfirst (hall hh)
    exact ⟨outcome, first_drawn_subset rest outcome hdrawn⟩
  intro drawn
  simp only [outcomesOf, drawnAfter_of_all hall hmany]

/-- **When paging gives nothing away.** Every height can be drawn and the draw is distributed as
that of one page, just when few heights are named or the first page names them all. -/
theorem unpredictable_iff (checkpoint : DifficultyCheckpoint) (head divisor : UInt64)
  (minDifficulty : U256) (verifyHash : Bool) (pages : List (List (UInt64 × B256))) :
  Unpredictable checkpoint head divisor minDifficulty verifyHash pages ↔
    PagedAtOnce checkpoint pages := by
  by_cases hfew : (namedByAll checkpoint.number pages).card ≤ randomSamples
  · refine ⟨fun _ => .inl hfew, fun _ => ⟨?_, ?_⟩⟩
    · intro h hh
      exact ⟨fun _ => 0, by rwa [drawnAfter_of_few hfew]⟩
    intro drawn
    have hsame : ∀ outcome, drawnAfter checkpoint head divisor minDifficulty verifyHash pages
        outcome = drawnAfter checkpoint head divisor minDifficulty verifyHash [pages.flatten]
          outcome := by
      intro outcome
      rw [drawnAfter_of_few hfew, drawnAfter_of_few (by rwa [namedByAll_flatten]),
        namedByAll_flatten]
    simp only [outcomesOf, hsame]
  rw [not_le] at hfew
  -- The first page that names a height, and what comes before it.
  cases hfind : pages.find? (fun p => namedBy checkpoint.number p ≠ ∅) with
  | none =>
    have hnone : namedByAll checkpoint.number pages = ∅ := by
      rw [List.find?_eq_none] at hfind
      rw [Finset.eq_empty_iff_forall_notMem]
      intro x hx
      obtain ⟨hx, habove⟩ := mem_namedBy.mp hx
      rw [List.map_flatten, List.mem_flatten] at hx
      obtain ⟨_, hl, hx⟩ := hx
      obtain ⟨p, hp, rfl⟩ := mem_map.mp hl
      have hempty : namedBy checkpoint.number p = ∅ := by simpa using hfind p hp
      have : x ∈ namedBy checkpoint.number p := mem_namedBy.mpr ⟨hx, habove⟩
      simp [hempty] at this
    rw [hnone] at hfew
    simp at hfew
  | some page =>
    obtain ⟨hnames, early, rest, rfl, hearly⟩ := List.find?_eq_some_iff_append.mp hfind
    have hnone : ∀ p ∈ early, namedBy checkpoint.number p = ∅ := by
      intro p hp
      simpa using hearly p hp
    have hnamed := namedByAll_of_names_none hnone (page :: rest)
    rw [unpredictable_of_names_none hnone,
      unpredictable_cons_iff (by simpa using hnames) (by rwa [← hnamed]), PagedAtOnce, hfind,
      hnamed]
    constructor
    · intro hall
      refine .inr fun other hother => ?_
      rwa [← Option.some.inj hother]
    rintro (hcard | hall)
    · rw [hnamed] at hfew
      omega
    · exact hall page rfl

end Paging

namespace PagingExample

open ChainSampler

def start : DifficultyCheckpoint := ⟨0, .zero 32, 1, 1⟩

/-- `RANDOM_SAMPLES` heights, the first ones above the checkpoint. -/
def firstPage : List (UInt64 × B256) :=
  (range 340).map fun i => (UInt64.ofNat (i + 1), .zero 32)

def secondPage : List (UInt64 × B256) := [(341, .zero 32)]

lemma toNat_height {i : Nat} (hi : i < 340) : (UInt64.ofNat (i + 1)).toNat = i + 1 := by
  rw [toNat_ofNat']
  exact Nat.mod_eq_of_lt (by omega)

lemma mem_firstPage {x : UInt64} :
  x ∈ namedBy start.number firstPage ↔ ∃ i < 340, UInt64.ofNat (i + 1) = x := by
  rw [mem_namedBy, firstPage, List.map_map, mem_map]
  simp only [List.mem_range, Function.comp_apply]
  constructor
  · rintro ⟨h, -⟩
    exact h
  rintro ⟨i, hi, rfl⟩
  refine ⟨⟨i, hi, rfl⟩, ?_⟩
  rw [lt_iff_toNat_lt, toNat_height hi]
  exact Nat.succ_pos i

lemma firstPage_card : (namedBy start.number firstPage).card = randomSamples := by
  have hset : namedBy start.number firstPage =
      (Finset.range 340).image fun i => UInt64.ofNat (i + 1) := by
    ext x
    rw [mem_firstPage]
    simp
  rw [hset, Finset.card_image_of_injOn, Finset.card_range]
  · rfl
  intro i hi j hj heq
  rw [Finset.coe_range, Set.mem_Iio] at hi hj
  have := congrArg UInt64.toNat heq
  simp only [toNat_height hi, toNat_height hj] at this
  omega

lemma late_not_first : 341 ∉ namedBy start.number firstPage := by
  rw [mem_firstPage]
  rintro ⟨i, hi, heq⟩
  have := congrArg UInt64.toNat heq
  rw [toNat_height hi] at this
  have hlate : (341 : UInt64).toNat = 341 := rfl
  omega

/-- **A height that is never checked**: the first page fills the draw, and the height of the
second page is drawn for no outcome of the generator. -/
theorem late_height_never_drawn : 341 ∈ namedByAll start.number [firstPage, secondPage] ∧
    (¬ ∃ outcome, 341 ∈ drawnAfter start 341 400 1 false [firstPage, secondPage] outcome) ∧
    ¬ Unpredictable start 341 400 1 false [firstPage, secondPage] := by
  have hnamed : 341 ∈ namedByAll start.number [firstPage, secondPage] := by
    rw [namedByAll_cons, Finset.mem_union]
    exact .inr (by decide)
  have hnever : ¬ ∃ outcome,
      341 ∈ drawnAfter start 341 400 1 false [firstPage, secondPage] outcome := by
    rintro ⟨outcome, hdrawn⟩
    obtain ⟨hpage, -, -⟩ := (@fresh_between start 341 400 1 false outcome).absorb firstPage
    rw [Finset.empty_union] at hpage
    have hfull := hpage.full
    have hcheck : (fresh start 341 400 1 false outcome).checkpoint = start := rfl
    rw [hcheck, firstPage_card, min_self] at hfull
    have hsame := drawn_of_full hpage hfull [secondPage]
    rw [drawnAfter, foldl_cons, hsame] at hdrawn
    exact late_not_first ((hpage.known 341).mp
      (hpage.pooled.drawnKnown (mem_toFinset.mp hdrawn)))
  exact ⟨hnamed, hnever, fun h => hnever (h.reachable 341 hnamed)⟩

end PagingExample

end Rustock
