import Rustock.FlatDb.Crash
import Mathlib.Data.List.Infix

/-!
# FlatDB under concurrent writers

`update_batch` takes no lock, `flush` holds the writer mutex against other flushes only
(lib.rs, index.rs, heap.rs). Here both are programs of atomic steps over one shared memory:

- a writer grows the table if it has to, probes for its rows, reserves, writes and publishes
  runs of records, claims a slot for each, adds to the size, marks the index and raises the
  committed size;
- a flush reads the committed size, the capacity and the size, tests whether there is anything
  to do, forces the heap, tests the mark, syncs the index, clears the mark, writes the
  checkpoint and removes the index files of other capacities;
- **`flushed_batches_survive`**: what had been accepted when a flush began is read back after
  any crash that follows its end, in runs in which no writer is between publishing and
  marking while a flush is between reading and clearing the mark (`Apart`), no claim goes
  round the table in vain (`Claims`) and no batch has to grow the table (`Fitting`);
- **`flushed_batch_lost`**: an interleaving that loses a batch.

Reserved bytes count as written when the reservation is made: nobody reads beyond the
published frontier. Growing takes the table's lock from all writers that probe or claim, and
is one step.
-/

namespace Rustock

open Lib List Function

namespace FlatDb

/-- A batch of `values` on its way through `update_batch`. -/
inductive Writer where
  | idle
  | probing (values left : List Bytes) (fresh : List Row)
  | appending (values : List Bytes) (left : List Row) (claims : List (B256 × Nat))
  | writing (values : List Bytes) (start finish : Nat) (left : List Row)
      (claims : List (B256 × Nat))
  | publishing (values : List Bytes) (start finish : Nat) (left : List Row)
      (claims : List (B256 × Nat))
  | claiming (values : List Bytes) (claims : List (B256 × Nat)) (added : Nat)
  | counting (values : List Bytes) (added : Nat)
  | marking (values : List Bytes)
  | raising (values : List Bytes)
  | returned
  | failed
  | growing (values : List Bytes)

/-- The table's lock is held for reading. -/
def Writer.holdsTable : Writer → Bool
  | .probing .. | .appending .. | .writing .. | .publishing .. | .claiming .. | .counting ..
  | .marking .. => true
  | .idle | .raising .. | .returned | .failed | .growing .. => false

/-- A flush with what it has read: the committed size, the capacity's exponent and the size. -/
inductive Flusher where
  | idle
  | sizing (heapSize : Nat) (begun : List Bytes)
  | measuring (heapSize bits : Nat) (begun : List Bytes)
  | testing (heapSize bits size : Nat) (begun : List Bytes)
  | forcing (heapSize bits size : Nat) (begun : List Bytes)
  | saving (heapSize bits size : Nat) (begun : List Bytes)
  | syncing (heapSize bits size : Nat) (begun : List Bytes)
  | clearing (heapSize bits size : Nat) (begun : List Bytes)
  | checkpointing (heapSize bits size : Nat) (begun : List Bytes)

/-- The capacity a flush has read. -/
def Flusher.measured : Flusher → Option Nat
  | .idle | .sizing .. => none
  | .measuring _ bits _ | .testing _ bits .. | .forcing _ bits .. | .saving _ bits ..
  | .syncing _ bits .. | .clearing _ bits .. | .checkpointing _ bits .. => some bits

/-- The database as its threads share it, with what is on the disk and what has been promised. -/
structure Shared where
  /-- with everything that has been reserved -/
  heap : Heap
  published : Nat
  table : Table
  size : Nat
  dirty : Bool
  committedHeapSize : Nat
  verifyLongRecords : Bool
  /-- the capacity an index without a checkpoint is opened with -/
  initialBits : Nat
  checkpoint : Checkpoint
  /-- heap bytes forced to disk -/
  forced : Nat
  /-- the index as last synced -/
  durable : Table
  /-- index files of earlier capacities, as last synced and as they were left -/
  files : List (Table × Table)
  /-- how many writers hold the table's lock -/
  readers : Nat
  writers : Nat → Writer
  flusher : Flusher
  /-- values of the batches that have returned -/
  acked : List Bytes
  /-- those of them that had when a flush began that has ended -/
  promised : List Bytes

/-- A batch begins, or one thread takes its next step. -/
inductive Label where
  | begin (w : Nat) (values : List Bytes)
  | writer (w : Nat)
  | flusher

/-- The store that a table and the published part of a heap make up. -/
def storeOver (heap : Heap) (frontier : Nat) (table : Table) : Store where
  heap := ⟨heap.segmentSize, heap.bytes.take frontier, []⟩
  table := table
  size := 0
  dirty := false

/-! ## The steps of a batch and of a flush -/

namespace Shared

variable (keys : Keys)

/-- A database just created: the first flush has to write, so it is dirty. -/
def create (bits segmentSize : Nat) (verifyLongRecords : Bool) : Shared where
  heap := ⟨segmentSize, [], []⟩
  published := 0
  table := .empty bits
  size := 0
  dirty := true
  committedHeapSize := 0
  verifyLongRecords := verifyLongRecords
  initialBits := bits
  checkpoint := ⟨0, none, 0⟩
  forced := 0
  durable := .empty bits
  files := []
  readers := 0
  writers := fun _ => .idle
  flusher := .idle
  acked := []
  promised := []

variable (s : Shared)

/-- What a reader sees: records behind the published frontier are not there yet. -/
def view : Store := storeOver s.heap s.published s.table

/-- A writer moves on; the readers of the table lock are counted along. -/
def goTo (s : Shared) (w : Nat) (writer : Writer) : Shared :=
  { s with
    writers := Function.update s.writers w writer
    readers := s.readers + writer.holdsTable.toNat - (s.writers w).holdsTable.toNat }

/-- One step of `update_batch`, by where the thread stands. -/
def writerStep (w : Nat) : Writer → Option Shared
  | .probing values (value :: left) fresh =>
    let key := keys.computeKey value
    let fresh := if s.view.probeFinds keys key then fresh else fresh ++ [Store.rowOf key value]
    some (s.goTo w (.probing values left fresh))
  | .probing values [] fresh =>
    if fresh.isEmpty then some (s.goTo w (.raising values))
    else if fresh.all fun row => row.recordSize ≤ s.heap.segmentSize then
      some (s.goTo w (.appending values fresh []))
    else some (s.goTo w .failed)
  | .appending values left claims =>
    match s.heap.reserveRun left with
    | .error _ => some (s.goTo w .failed)
    | .ok (start, count) =>
      let run := left.take count
      let heap := s.heap.writeRun start run
      let claims := claims ++ (run.map Row.key).zip (Heap.runOffsets start run)
      some { s.goTo w (.writing values s.heap.size heap.size (left.drop count) claims) with heap }
  | .writing values start finish left claims =>
    some (s.goTo w (.publishing values start finish left claims))
  | .publishing values start finish left claims =>
    if s.published = start then
      let next := if left.isEmpty then .claiming values claims 0 else .appending values left claims
      some { s.goTo w next with published := finish }
    else none
  | .claiming values (claim :: claims) added =>
    match s.view.vacancy keys claim.1 with
    | some (some i) =>
      some { s.goTo w (.claiming values claims (added + 1)) with
        table := s.table.set i (claim.2 + 1) }
    | _ => some (s.goTo w (.claiming values claims added))
  | .claiming values [] added => some (s.goTo w (.counting values added))
  | .counting values added => some { s.goTo w (.marking values) with size := s.size + added }
  | .marking values => some { s.goTo w (.raising values) with dirty := true }
  | .raising values =>
    some { s.goTo w .returned with
      committedHeapSize := max s.committedHeapSize s.published
      acked := values ++ s.acked }
  | .growing values =>
    if s.size + values.length ≤ s.table.capacity / 2 then
      some (s.goTo w (.probing values values []))
    else if s.readers ≠ 0 then none
    else
      match s.view.grow keys with
      | .error _ => some (s.goTo w .failed)
      | .ok grown =>
        some { s.goTo w (.growing values) with
          table := grown.table
          size := grown.size
          dirty := true
          durable := .empty grown.table.bits
          files := (s.durable, s.table) :: s.files }
  | .idle | .returned | .failed => none

/-- The flush returns: what it found acknowledged when it began is promised. -/
def endFlush (begun : List Bytes) : Shared :=
  { s with flusher := .idle, promised := begun ++ s.promised }

/-- One step of `flush`, by where it stands. -/
def flushStep : Flusher → Shared
  | .idle => { s with flusher := .sizing s.committedHeapSize s.acked }
  | .sizing heapSize begun => { s with flusher := .measuring heapSize s.table.bits begun }
  | .measuring heapSize bits begun => { s with flusher := .testing heapSize bits s.size begun }
  | .testing heapSize bits size begun =>
    if heapSize = s.checkpoint.heapCommittedSize ∧ ¬ s.dirty then s.endFlush begun
    else { s with flusher := .forcing heapSize bits size begun }
  | .forcing heapSize bits size begun =>
    { s with forced := s.published, flusher := .saving heapSize bits size begun }
  | .saving heapSize bits size begun =>
    { s with
      flusher := if s.dirty then .syncing heapSize bits size begun
        else .checkpointing heapSize bits size begun }
  | .syncing heapSize bits size begun =>
    { s with durable := s.table, flusher := .clearing heapSize bits size begun }
  | .clearing heapSize bits size begun =>
    { s with dirty := false, flusher := .checkpointing heapSize bits size begun }
  | .checkpointing heapSize bits size begun =>
    { s.endFlush begun with checkpoint := ⟨heapSize, some bits, size⟩, files := [] }

def step (s : Shared) : Label → Option Shared
  | .begin w values =>
    match s.writers w with
    | .idle => some (s.goTo w (if values.isEmpty then .raising values
        else if s.size + values.length ≤ s.table.capacity / 2 then .probing values values []
        else .growing values))
    | _ => none
  | .writer w => s.writerStep keys w (s.writers w)
  | .flusher => some (s.flushStep s.flusher)

def Step (label : Label) (s' : Shared) : Prop := s.step keys label = some s'

/-- The capacity of the index file that is opened after a crash. -/
def namedBits : Nat := s.checkpoint.indexBits.getD s.initialBits

/-- What the index that is opened can hold: each slot of the file the checkpoint names as last
synced or as it was left; nothing if the file is gone. -/
def Kept (table : Table) : Prop :=
  match ((s.durable, s.table) :: s.files).find? (·.2.bits = s.namedBits) with
  | some file => table.bits = s.namedBits ∧
      ∀ i, table.slot i = file.1.slot i ∨ table.slot i = file.2.slot i
  | none => table = .empty s.namedBits

/-- The store opened again, with `table` in the index file and `garbage` in the heap beyond
what has been forced. -/
def reopened (table : Table) (garbage : Bytes) : Store where
  heap := Heap.truncate ⟨s.heap.segmentSize, s.heap.bytes.take s.forced ++ garbage, []⟩
    s.checkpoint.heapCommittedSize
  table := table
  size := s.checkpoint.indexSize
  dirty := s.checkpoint.indexBits.isNone

end Shared

def Writer.inClaims : Writer → Bool
  | .claiming .. | .counting .. | .marking .. => true
  | _ => false

def Flusher.inSave : Flusher → Bool
  | .testing .. | .forcing .. | .saving .. | .syncing .. | .clearing .. => true
  | _ => false

namespace Shared

/-- No batch is between its claims and its marking while a flush is between its test and its end. -/
def Apart (s : Shared) : Prop := ∀ w, (s.writers w).inClaims → s.flusher.inSave = false

variable (keys : Keys)

/-- The next claim finds its key or an empty slot. -/
def Claims (s : Shared) : Label → Prop
  | .writer w =>
    match s.writers w with
    | .claiming _ (claim :: _) _ => s.view.vacancy keys claim.1 ≠ none
    | _ => True
  | _ => True

/-- The batch needs no larger table. -/
def Fitting (s : Shared) : Label → Prop
  | .begin _ values => s.size + values.length ≤ s.table.capacity / 2
  | _ => True

variable {keys} {s s' : Shared}

/-- Slots that are taken stay as they are. -/
def Fixes (t t' : Table) : Prop := t'.bits = t.bits ∧ ∀ i, t.slot i ≠ 0 → t'.slot i = t.slot i

lemma Fixes.refl (t : Table) : Fixes t t := ⟨rfl, fun _ _ => rfl⟩

lemma Fixes.trans {t₁ t₂ t₃ : Table} (h₁ : Fixes t₁ t₂) (h₂ : Fixes t₂ t₃) : Fixes t₁ t₃ :=
  ⟨h₂.1.trans h₁.1, fun i hi => by
    have h := h₁.2 i hi
    rw [← h]
    exact h₂.2 i (h ▸ hi)⟩

variable {t : Table}

lemma fixes_set {i value : Nat} (hempty : t.slot i = 0) : Fixes t (t.set i value) :=
  ⟨rfl, fun j hj => Table.slot_set_ne (by rintro rfl; exact hj hempty) value⟩

variable {n n' : Nat}

lemma take_prefix_take {α : Type*} {l l' : List α} (h : l <+: l') (hn : n ≤ n') :
  l.take n <+: l'.take n' :=
  (h.take n).trans (take_prefix_take_left hn)

variable {heap heap' : Heap}

lemma storeOver_extends {t' : Table} (hsegment : heap'.segmentSize = heap.segmentSize)
  (hgrows : heap.bytes <+: heap'.bytes) (hn : n ≤ n') (htable : Fixes t t') :
  (storeOver heap n t).Extends (storeOver heap' n' t') where
  bits := htable.1
  segmentSize := hsegment
  grows := take_prefix_take hgrows hn
  occupied i hi := by
    have := htable.2 i hi
    change t'.slot i ≠ 0
    rw [this]
    exact hi
  live i record hrecord := by
    refine htable.2 i fun hzero => ?_
    change t.slot i = 0 at hzero
    simp [storeOver, Store.resolve, hzero] at hrecord

lemma holds_storeOver_mono {slot : Nat} {t' : Table} {key : B256}
  (hsegment : heap'.segmentSize = heap.segmentSize) (hgrows : heap.bytes <+: heap'.bytes)
  (hn : n ≤ n') (h : (storeOver heap n t).Holds keys key slot) :
  (storeOver heap' n' t').Holds keys key slot := by
  obtain ⟨record, hrecord, hkey⟩ := h
  exact ⟨record, @Store.resolve_mono (storeOver heap n t) (storeOver heap' n' t') hsegment
    (take_prefix_take hgrows hn) _ _ hrecord, hkey⟩

/-! ## The invariant -/

/-- What every step keeps of the store: records and taken slots. -/
structure Later (s s' : Shared) : Prop where
  segmentSize : s'.heap.segmentSize = s.heap.segmentSize
  grows : s.heap.bytes <+: s'.heap.bytes
  published : s.published ≤ s'.published
  table : Fixes s.table s'.table

lemma later_of_eq (hheap : s'.heap = s.heap) (hpublished : s'.published = s.published)
  (htable : s'.table = s.table) : Later s s' :=
  ⟨by rw [hheap], hheap ▸ prefix_refl _, hpublished.ge, htable ▸ Fixes.refl _⟩

lemma Later.view (h : Later s s') : s.view.Extends s'.view :=
  storeOver_extends h.segmentSize h.grows h.published h.table

/-- A row as `put_many` makes them. -/
def Keyed (keys : Keys) (row : Row) : Prop :=
  Store.keyOf keys row.record = row.key ∧ keys.computeKey row.data = row.key

/-- Each value is still to be claimed or can be found already. -/
def Pending (keys : Keys) (s : Shared) (left : List B256) (values : List Bytes) : Prop :=
  ∀ value ∈ values, keys.computeKey value ∈ left ∨ s.view.Found keys (keys.computeKey value)

/-- Rows that the heap takes. -/
def Appendable (keys : Keys) (s : Shared) (rows : List Row) : Prop :=
  ∀ row ∈ rows, Keyed keys row ∧ row.recordSize ≤ s.heap.segmentSize

/-- Records that are there once the frontier is at `frontier`. -/
def Claimable (keys : Keys) (s : Shared) (frontier : Nat) (claims : List (B256 × Nat)) : Prop :=
  ∀ claim ∈ claims, (storeOver s.heap frontier s.table).Holds keys claim.1 (claim.2 + 1)

/-- What a batch has established, by where it stands. -/
def Relies (keys : Keys) (s : Shared) : Writer → Prop
  | .idle | .returned | .failed => True
  | .growing _ => False
  | .probing values left fresh =>
    Pending keys s (left.map keys.computeKey ++ fresh.map Row.key) values ∧
      ∀ row ∈ fresh, Keyed keys row
  | .appending values left claims =>
    Pending keys s (left.map Row.key ++ claims.map Prod.fst) values ∧ Appendable keys s left ∧
      left ≠ [] ∧ Claimable keys s s.published claims
  | .writing values start finish left claims | .publishing values start finish left claims =>
    Pending keys s (left.map Row.key ++ claims.map Prod.fst) values ∧ Appendable keys s left ∧
      start ≤ finish ∧ finish ≤ s.heap.size ∧ Claimable keys s finish claims
  | .claiming values claims _ =>
    Pending keys s (claims.map Prod.fst) values ∧ Claimable keys s s.published claims
  | .counting values _ | .marking values | .raising values => Pending keys s [] values

variable {values : List Bytes}

lemma Pending.mono {left left' : List B256} (h : Pending keys s left values) (hlater : Later s s')
  (hleft : left ⊆ left') : Pending keys s' left' values :=
  fun value hvalue =>
    (h value hvalue).imp (fun hmem => hleft hmem) fun hfound => hfound.mono hlater.view

variable {claims : List (B256 × Nat)}

lemma Claimable.mono (h : Claimable keys s n claims) (hlater : Later s s') (hn : n ≤ n') :
  Claimable keys s' n' claims :=
  fun claim hclaim => holds_storeOver_mono hlater.segmentSize hlater.grows hn (h claim hclaim)

lemma Appendable.mono {rows : List Row} (h : Appendable keys s rows) (hlater : Later s s') :
  Appendable keys s' rows :=
  fun row hrow => ⟨(h row hrow).1, hlater.segmentSize ▸ (h row hrow).2⟩

variable {writer : Writer}

lemma Relies.mono (h : Relies keys s writer) (hlater : Later s s') : Relies keys s' writer := by
  have hsub := fun l : List B256 => List.Subset.refl l
  cases writer with
  | idle | returned | failed => trivial
  | growing => exact h
  | probing => exact ⟨h.1.mono hlater (hsub _), h.2⟩
  | appending =>
    exact ⟨h.1.mono hlater (hsub _), h.2.1.mono hlater, h.2.2.1,
      h.2.2.2.mono hlater hlater.published⟩
  | writing | publishing =>
    obtain ⟨hpending, hleft, hle, hsize, hclaims⟩ := h
    exact ⟨hpending.mono hlater (hsub _), hleft.mono hlater, hle,
      hsize.trans hlater.grows.length_le, hclaims.mono hlater le_rfl⟩
  | claiming => exact ⟨h.1.mono hlater (hsub _), h.2.mono hlater hlater.published⟩
  | counting | marking | raising => exact Pending.mono h hlater (hsub _)

/-- What had been accepted when the flush began is reached in `table` below `heapSize`. -/
def Begun (keys : Keys) (s : Shared) (table : Table) (heapSize : Nat) (begun : List Bytes) : Prop :=
  ∀ value ∈ begun, (storeOver s.heap heapSize table).Found keys (keys.computeKey value)

/-- What a flush has established, by where it stands. -/
def FlushRelies (keys : Keys) (s : Shared) : Flusher → Prop
  | .idle => True
  | .sizing heapSize begun | .measuring heapSize _ begun | .testing heapSize _ _ begun
  | .forcing heapSize _ _ begun =>
    s.checkpoint.heapCommittedSize ≤ heapSize ∧ heapSize ≤ s.committedHeapSize ∧
      Begun keys s s.table heapSize begun
  | .saving heapSize _ _ begun | .syncing heapSize _ _ begun =>
    s.checkpoint.heapCommittedSize ≤ heapSize ∧ heapSize ≤ s.committedHeapSize ∧
      heapSize ≤ s.forced ∧ Begun keys s s.table heapSize begun
  | .clearing heapSize _ _ begun =>
    s.checkpoint.heapCommittedSize ≤ heapSize ∧ heapSize ≤ s.committedHeapSize ∧
      heapSize ≤ s.forced ∧ Begun keys s s.durable heapSize begun ∧ s.durable = s.table
  | .checkpointing heapSize _ _ begun =>
    s.checkpoint.heapCommittedSize ≤ heapSize ∧ heapSize ≤ s.committedHeapSize ∧
      heapSize ≤ s.forced ∧ Begun keys s s.durable heapSize begun

variable {table : Table} {begun : List Bytes}

lemma Begun.mono {table' : Table} (h : Begun keys s table n begun)
  (hsegment : s'.heap.segmentSize = s.heap.segmentSize) (hgrows : s.heap.bytes <+: s'.heap.bytes)
  (hn : n ≤ n') (htable : Fixes table table') : Begun keys s' table' n' begun :=
  fun value hvalue => (h value hvalue).mono (storeOver_extends hsegment hgrows hn htable)

/-- The invariant of every interleaving. -/
structure Sound (keys : Keys) (s : Shared) : Prop where
  sized : s.heap.Sized
  published_le : s.published ≤ s.heap.size
  committed_le : s.committedHeapSize ≤ s.published
  forced_le : s.forced ≤ s.published
  checkpoint_le : s.checkpoint.heapCommittedSize ≤ min s.forced s.committedHeapSize
  live : ∀ i, s.table.slot i ≠ 0 → ∃ key, s.view.Holds keys key (s.table.slot i)
  synced : Fixes s.durable s.table
  marked : s.dirty = false → (∀ w, (s.writers w).inClaims = false) → s.durable = s.table
  acked : Begun keys s s.table s.committedHeapSize s.acked
  promised : Begun keys s s.durable s.checkpoint.heapCommittedSize s.promised
  writers : ∀ w, Relies keys s (s.writers w)
  flusher : FlushRelies keys s s.flusher
  named : s.namedBits = s.table.bits
  measured : ∀ bits ∈ s.flusher.measured, bits = s.table.bits

variable {bits segmentSize : Nat} {verifyLongRecords : Bool}

lemma sound_create (hpos : 0 < segmentSize) (hle : segmentSize ≤ 2 ^ 30) :
  Sound keys (create bits segmentSize verifyLongRecords) where
  sized := ⟨hpos, hle⟩
  published_le := le_rfl
  committed_le := le_rfl
  forced_le := le_rfl
  checkpoint_le := le_rfl
  live i hi := absurd (Table.slot_empty ..) hi
  synced := Fixes.refl _
  marked h := by cases h
  acked := by simp [Begun, create]
  promised := by simp [Begun, create]
  writers _ := trivial
  flusher := trivial
  named := rfl
  measured := nofun

lemma Sound.honest (h : Sound keys s) : s.view.Honest keys := by
  intro i _ record hrecord
  have hslot : s.table.slot i ≠ 0 := fun hzero => by
    simp [Shared.view, storeOver, Store.resolve, hzero] at hrecord
  obtain ⟨key, record', hrecord', hkey, hhash⟩ := h.live i hslot
  obtain rfl : record = record' := Option.some.inj (hrecord ▸ hrecord')
  rw [hkey, hhash]

/-- What a step of one batch does to the rest. -/
structure Advances (keys : Keys) (s : Shared) (w : Nat) (s' : Shared) : Prop where
  later : Later s s'
  published_le : s'.published ≤ s'.heap.size
  committed : s.committedHeapSize ≤ s'.committedHeapSize
  committed_le : s'.committedHeapSize ≤ s'.published
  others : ∀ w' ≠ w, s'.writers w' = s.writers w'
  disk : s'.durable = s.durable ∧ s'.forced = s.forced ∧ s'.checkpoint = s.checkpoint ∧
    s'.promised = s.promised ∧ s'.initialBits = s.initialBits
  flusher : s'.flusher = s.flusher ∧ (s.flusher.inSave → s'.table = s.table)
  live : ∀ i, s'.table.slot i ≠ 0 → ∃ key, s'.view.Holds keys key (s'.table.slot i)
  marked : s'.dirty = false → (s'.writers w).inClaims = false →
    s.dirty = false ∧ (s.writers w).inClaims = false ∧ s'.table = s.table
  acked : Begun keys s' s'.table s'.committedHeapSize s'.acked
  relies : Relies keys s' (s'.writers w)

variable {w : Nat}

lemma FlushRelies.mono (h : FlushRelies keys s s.flusher) (hs : Advances keys s w s') :
  FlushRelies keys s' s'.flusher := by
  obtain ⟨hdurable, hforced, hcheckpoint, -⟩ := hs.disk
  obtain ⟨hsame, htable⟩ := hs.flusher
  have hcommitted := hs.committed
  have hbegun : ∀ {n begun}, Begun keys s s.table n begun → Begun keys s' s'.table n begun :=
    fun hb => hb.mono hs.later.segmentSize hs.later.grows le_rfl hs.later.table
  have hbegun' : ∀ {n begun}, Begun keys s s.durable n begun → Begun keys s' s'.durable n begun :=
    fun hb => hb.mono hs.later.segmentSize hs.later.grows le_rfl (hdurable ▸ Fixes.refl _)
  rw [hsame]
  cases hf : s.flusher with
  | idle => trivial
  | sizing | measuring | testing | forcing =>
    rw [hf] at h
    exact ⟨hcheckpoint ▸ h.1, h.2.1.trans hcommitted, hbegun h.2.2⟩
  | saving | syncing =>
    rw [hf] at h
    exact ⟨hcheckpoint ▸ h.1, h.2.1.trans hcommitted, hforced ▸ h.2.2.1, hbegun h.2.2.2⟩
  | checkpointing =>
    rw [hf] at h
    exact ⟨hcheckpoint ▸ h.1, h.2.1.trans hcommitted, hforced ▸ h.2.2.1, hbegun' h.2.2.2⟩
  | clearing =>
    rw [hf] at h
    refine ⟨hcheckpoint ▸ h.1, h.2.1.trans hcommitted, hforced ▸ h.2.2.1, hbegun' h.2.2.2.1, ?_⟩
    rw [hdurable, h.2.2.2.2, htable (by rw [hf]; rfl)]

lemma Sound.advance (h : Sound keys s) (hs : Advances keys s w s') : Sound keys s' := by
  obtain ⟨hdurable, hforced, hcheckpoint, hpromised, hinitial⟩ := hs.disk
  have hsegment := hs.later.segmentSize
  refine ⟨⟨hsegment ▸ h.sized.pos, hsegment ▸ h.sized.le⟩, hs.published_le, hs.committed_le,
    hforced ▸ h.forced_le.trans hs.later.published, ?_, hs.live,
    hdurable ▸ h.synced.trans hs.later.table, fun hdirty hclear => ?_, hs.acked, ?_,
    fun w' => ?_, h.flusher.mono hs, ?_, ?_⟩
  · rw [hforced, hcheckpoint]
    exact h.checkpoint_le.trans (min_le_min le_rfl hs.committed)
  · obtain ⟨hdirty', hclear', htable⟩ := hs.marked hdirty (hclear w)
    rw [hdurable, htable]
    refine h.marked hdirty' fun w' => ?_
    by_cases hw : w' = w
    · exact hw ▸ hclear'
    · exact hs.others w' hw ▸ hclear w'
  · rw [hdurable, hcheckpoint, hpromised]
    exact h.promised.mono hsegment hs.later.grows le_rfl (Fixes.refl _)
  · by_cases hw : w' = w
    · exact hw ▸ hs.relies
    rw [hs.others w' hw]
    exact (h.writers w').mono hs.later
  · rw [hs.later.table.1, ← h.named, namedBits, namedBits, hcheckpoint, hinitial]
  · rw [hs.later.table.1, hs.flusher.1]
    exact h.measured

lemma Sound.goTo (h : Sound keys s) {w : Nat} {writer : Writer} {heap : Heap}
  {published : Nat} (hlater : Later s { s.goTo w writer with heap, published })
  (hle : published ≤ heap.size)
  (hrelies : Relies keys { s.goTo w writer with heap, published } writer)
  (hclaims : (s.writers w).inClaims = false) :
  Sound keys { s.goTo w writer with heap, published } := by
  refine h.advance (w := w) ⟨hlater, hle, le_rfl, h.committed_le.trans hlater.published,
    fun w' hw => ?_, ⟨rfl, rfl, rfl, rfl, rfl⟩, ⟨rfl, fun _ => rfl⟩, fun i hi => ?_,
    fun hdirty _ => ⟨hdirty, hclaims, rfl⟩, ?_, ?_⟩
  · simp [Shared.goTo, hw]
  · obtain ⟨key, hholds⟩ := h.live i hi
    exact ⟨key, holds_storeOver_mono hlater.segmentSize hlater.grows hlater.published hholds⟩
  · exact h.acked.mono hlater.segmentSize hlater.grows le_rfl (Fixes.refl _)
  · simpa [Shared.goTo] using hrelies

lemma Sound.relies (h : Sound keys s) (hw : s.writers w = writer) : Relies keys s writer :=
  hw ▸ h.writers w

lemma Sound.moved (h : Sound keys s) (hrelies : Relies keys s writer)
  (hclaims : (s.writers w).inClaims = false) : Sound keys (s.goTo w writer) :=
  have hlater : Later s (s.goTo w writer) := later_of_eq rfl rfl rfl
  @Sound.goTo keys s h w writer s.heap s.published hlater h.published_le (hrelies.mono hlater)
    hclaims

lemma Sound.probing (h : Sound keys s) {left : List Bytes} {fresh : List Row}
  (hw : s.writers w = .probing values left fresh)
  (hstep : s.writerStep keys w (.probing values left fresh) = some s') : Sound keys s' := by
  obtain ⟨hpending, hkeyed⟩ := h.relies hw
  have hnot : (s.writers w).inClaims = false := by rw [hw]; rfl
  rcases left with _ | ⟨value, left⟩
  · simp only [writerStep] at hstep
    split at hstep
    · rename_i hempty
      obtain rfl := Option.some.inj hstep
      refine h.moved (show Pending keys s [] values from ?_) hnot
      simpa [List.isEmpty_iff.mp hempty] using hpending
    rename_i hempty
    split at hstep
    · rename_i hsizes
      obtain rfl := Option.some.inj hstep
      refine h.moved ⟨?_, fun row hrow => ⟨hkeyed row hrow, ?_⟩,
        fun hnil => hempty (by simp [hnil]), by simp [Claimable]⟩ hnot
      · simpa using hpending
      · simpa using List.all_eq_true.mp hsizes row hrow
    obtain rfl := Option.some.inj hstep
    exact h.moved trivial hnot
  simp only [writerStep, Option.some.injEq] at hstep
  subst hstep
  have hhonest : s.view.Honest keys := h.honest
  by_cases hfound : s.view.probeFinds keys (keys.computeKey value)
  · rw [if_pos hfound]
    refine h.moved ⟨fun v hv => ?_, hkeyed⟩ hnot
    rcases hpending v hv with hmem | hreached
    · rcases mem_append.mp hmem with hleft | hfresh
      · rcases mem_cons.mp hleft with heq | hrest
        · exact .inr (heq ▸ Store.found_of_probeFinds hhonest hfound)
        · exact .inl (mem_append_left _ hrest)
      · exact .inl (mem_append_right _ hfresh)
    · exact .inr hreached
  rw [if_neg hfound]
  refine h.moved ⟨fun v hv => (hpending v hv).imp_left fun hmem => ?_, fun row hrow => ?_⟩ hnot
  · simp only [map_append, map_cons, mem_append, mem_cons] at hmem ⊢
    tauto
  rcases mem_append.mp hrow with hmem | hmem
  · exact hkeyed row hmem
  obtain rfl := mem_singleton.mp hmem
  exact ⟨Store.keyOf_rowOf rfl, rfl⟩

variable {left : List Row}

lemma pending_run {count : Nat} {offsets : List Nat}
  (hlength : (left.take count).length = offsets.length) : left.map Row.key ++ claims.map Prod.fst ⊆
    (left.drop count).map Row.key ++
      (claims ++ ((left.take count).map Row.key).zip offsets).map Prod.fst := by
  have hzip : (((left.take count).map Row.key).zip offsets).map Prod.fst =
      (left.take count).map Row.key :=
    map_fst_zip (by rw [length_map]; exact hlength.le)
  intro key hkey
  rw [map_append, hzip]
  rcases mem_append.mp hkey with hmem | hmem
  · rw [← take_append_drop count left, map_append] at hmem
    simp only [mem_append] at hmem ⊢
    tauto
  simp only [mem_append]
  tauto

lemma Sound.appending (h : Sound keys s) (hw : s.writers w = .appending values left claims)
  (hstep : s.writerStep keys w (.appending values left claims) = some s') : Sound keys s' := by
  obtain ⟨hpending, hleft, hnonempty, hclaims⟩ := h.relies hw
  have hnot : (s.writers w).inClaims = false := by rw [hw]; rfl
  obtain ⟨row, rest, rfl⟩ := exists_cons_of_ne_nil hnonempty
  simp only [writerStep] at hstep
  rcases hreserve : s.heap.reserveRun (row :: rest) with e | ⟨start, count⟩
  · rw [hreserve] at hstep
    obtain rfl := Option.some.inj hstep
    exact h.moved trivial hnot
  rw [hreserve] at hstep
  obtain rfl := Option.some.inj hstep
  obtain ⟨hstart, -, hfits⟩ :=
    Heap.reserveRun_spec h.sized.pos (hleft row (mem_cons_self ..)).2 hreserve
  obtain ⟨hsegment, hgrows, hreads⟩ := Heap.writeRun_appended hstart (fun r hr => by
    have := (hleft r (mem_of_mem_take hr)).2
    have := r.length_data_lt
    have := h.sized.le
    omega) hfits
  set heap := s.heap.writeRun start ((row :: rest).take count) with hheap
  have hsize : s.heap.size ≤ heap.size := hgrows.length_le
  have hpublished := h.published_le
  refine @Sound.goTo keys s h w _ heap s.published ⟨hsegment, hgrows, le_rfl, Fixes.refl _⟩
    (hpublished.trans hsize) ?_ hnot
  have hlater : Later s { s.goTo w (.writing values s.heap.size heap.size ((row :: rest).drop count)
      (claims ++ (((row :: rest).take count).map Row.key).zip
        (Heap.runOffsets start ((row :: rest).take count)))) with heap } :=
    ⟨hsegment, hgrows, le_rfl, Fixes.refl _⟩
  refine ⟨hpending.mono hlater (pending_run hreads.length_eq),
    fun r hr => (hleft.mono hlater) r (mem_of_mem_drop hr), hsize, le_rfl,
    fun claim hclaim => ?_⟩
  rcases mem_append.mp hclaim with hmem | hmem
  · exact (hclaims.mono hlater (hpublished.trans hsize)) claim hmem
  have hheld := @Store.held_of_appended keys (storeOver heap heap.size s.table) _ heap _ _ hreads
    (fun r hr => (hleft r (mem_of_mem_take hr)).1) claim hmem
  obtain ⟨record, hrecord, hkey⟩ := hheld
  refine ⟨record, ?_, hkey⟩
  simpa [storeOver, Store.resolve, Heap.withRecord, Heap.size, take_length] using hrecord

variable {start finish : Nat}

/-! ### The steps of one batch -/

section

variable (h : Sound keys s)

include h

lemma Sound.writing (hw : s.writers w = .writing values start finish left claims) :
  Sound keys (s.goTo w (.publishing values start finish left claims)) := by
  have hrelies := h.relies hw
  exact h.moved hrelies (by rw [hw]; rfl)

lemma Sound.publishing (hw : s.writers w = .publishing values start finish left claims)
  (hstep : s.writerStep keys w (.publishing values start finish left claims) = some s') :
  Sound keys s' := by
  obtain ⟨hpending, hleft, hle, hsize, hclaims⟩ := h.relies hw
  simp only [writerStep] at hstep
  split at hstep
  · rename_i hturn
    obtain rfl := Option.some.inj hstep
    have hlater : ∀ writer, Later s { s.goTo w writer with published := finish } := fun writer =>
      ⟨rfl, prefix_refl _, hturn ▸ hle, Fixes.refl _⟩
    refine @Sound.goTo keys s h w _ s.heap finish (hlater _) hsize ?_ (by rw [hw]; rfl)
    split
    · rename_i hempty
      obtain rfl := List.isEmpty_iff.mp hempty
      exact ⟨hpending.mono (hlater _) (by simp), hclaims.mono (hlater _) le_rfl⟩
    rename_i hempty
    exact ⟨hpending.mono (hlater _) (List.Subset.refl _), hleft.mono (hlater _),
      fun hnil => hempty (by simp [hnil]), hclaims.mono (hlater _) le_rfl⟩
  · cases hstep

lemma Sound.counted {w size : Nat} {writer : Writer}
  (hrelies : Relies keys s writer) (hclaims : writer.inClaims = true) :
  Sound keys { s.goTo w writer with size } := by
  have hlater : Later s { s.goTo w writer with size } := later_of_eq rfl rfl rfl
  have hwriter : (s.goTo w writer).writers w = writer := update_self ..
  refine h.advance (w := w) ⟨hlater, h.published_le, le_rfl, h.committed_le, fun w' hw => ?_,
    ⟨rfl, rfl, rfl, rfl, rfl⟩, ⟨rfl, fun _ => rfl⟩, h.live, fun _ hclear => ?_, h.acked, ?_⟩
  · simp [Shared.goTo, hw]
  · rw [hwriter, hclaims] at hclear
    cases hclear
  rw [hwriter]
  exact hrelies.mono hlater

lemma Sound.claiming {added : Nat}
  (hw : s.writers w = .claiming values claims added) (hapart : s.Apart)
  (hlap : s.Claims keys (.writer w))
  (hstep : s.writerStep keys w (.claiming values claims added) = some s') : Sound keys s' := by
  obtain ⟨hpending, hclaims⟩ := h.relies hw
  rcases claims with _ | ⟨claim, claims⟩
  · obtain rfl := Option.some.inj hstep
    exact @Sound.counted keys s h w s.size _ hpending rfl
  have hsave : s.flusher.inSave = false := hapart w (by rw [hw]; rfl)
  simp only [Claims, hw] at hlap
  simp only [writerStep] at hstep
  rcases hvacancy : s.view.vacancy keys claim.1 with _ | _ | i
  · exact absurd hvacancy hlap
  · rw [hvacancy] at hstep
    obtain rfl := Option.some.inj hstep
    refine @Sound.counted keys s h w s.size _ ⟨fun value hvalue => ?_,
      fun c hc => hclaims c (mem_cons_of_mem _ hc)⟩ rfl
    rcases hpending value hvalue with hmem | hreached
    · rcases mem_cons.mp hmem with heq | hrest
      · exact .inr (heq ▸ Store.vacancy_eq_held h.honest hvacancy)
      · exact .inl hrest
    · exact .inr hreached
  rw [hvacancy] at hstep
  obtain rfl := Option.some.inj hstep
  obtain ⟨j, hj, hcell, hempty, hchain⟩ := Store.vacancy_eq_empty hvacancy
  have hlater : Later s { s.goTo w (.claiming values claims (added + 1)) with
      table := s.table.set i (claim.2 + 1) } :=
    ⟨rfl, prefix_refl _, le_rfl, fixes_set hempty⟩
  have hheld := hclaims claim (mem_cons_self ..)
  have hfound := @Store.found_of_set keys s.view claim.1 i j claim.2 0 false hj hcell hchain hheld
  have hwriter : (s.goTo w (.claiming values claims (added + 1))).writers w =
      .claiming values claims (added + 1) := update_self ..
  refine h.advance (w := w) ⟨hlater, h.published_le, le_rfl, h.committed_le, fun w' hw' => ?_,
    ⟨rfl, rfl, rfl, rfl, rfl⟩, ⟨rfl, fun hin => ?_⟩, fun i' hi' => ?_, fun _ hclear => ?_,
    h.acked.mono rfl (prefix_refl _) le_rfl (fixes_set hempty), ?_⟩
  · simp [Shared.goTo, hw']
  · rw [hsave] at hin
    cases hin
  · by_cases heq : i = i'
    · subst heq
      have hi : i < s.table.capacity := by
        rw [← hcell]
        exact Probe.cell_lt s.table.capacity_pos _ j
      simp only [Table.slot_set_self hi]
      exact ⟨claim.1, holds_storeOver_mono rfl (prefix_refl _) le_rfl hheld⟩
    simp only [Table.slot_set_ne heq] at hi' ⊢
    obtain ⟨key, hkey⟩ := h.live i' hi'
    exact ⟨key, holds_storeOver_mono rfl (prefix_refl _) le_rfl hkey⟩
  · rw [hwriter] at hclear
    cases hclear
  rw [hwriter]
  refine ⟨fun value hvalue => ?_,
    fun c hc => (hclaims.mono hlater le_rfl) c (mem_cons_of_mem _ hc)⟩
  rcases hpending value hvalue with hmem | hreached
  · rcases mem_cons.mp hmem with heq | hrest
    · exact .inr (heq ▸ hfound)
    · exact .inl hrest
  · exact .inr (hreached.mono hlater.view)

lemma Sound.marking (hw : s.writers w = .marking values) :
  Sound keys { s.goTo w (.raising values) with dirty := true } := by
  have hrelies := h.relies hw
  have hlater : Later s { s.goTo w (.raising values) with dirty := true } := later_of_eq rfl rfl rfl
  have hwriter : (s.goTo w (.raising values)).writers w = .raising values := update_self ..
  refine h.advance (w := w) ⟨hlater, h.published_le, le_rfl, h.committed_le, fun w' hw' => ?_,
    ⟨rfl, rfl, rfl, rfl, rfl⟩, ⟨rfl, fun _ => rfl⟩, h.live, nofun, h.acked, ?_⟩
  · simp [Shared.goTo, hw']
  rw [hwriter]
  exact hrelies.mono hlater

lemma Sound.raising (hw : s.writers w = .raising values)
  (hstep : s.writerStep keys w (.raising values) = some s') : Sound keys s' := by
  have hrelies := h.relies hw
  obtain rfl := Option.some.inj hstep
  have hmax : max s.committedHeapSize s.published = s.published := max_eq_right h.committed_le
  refine h.advance (w := w) ⟨later_of_eq rfl rfl rfl, h.published_le, le_max_left _ _, hmax.le,
    fun w' hw' => ?_, ⟨rfl, rfl, rfl, rfl, rfl⟩, ⟨rfl, fun _ => rfl⟩, h.live,
    fun hdirty _ => ⟨hdirty, by rw [hw]; rfl, rfl⟩, fun value hvalue => ?_, ?_⟩
  · simp [Shared.goTo, hw']
  · simp only [hmax]
    rcases mem_append.mp hvalue with hmem | hmem
    · rcases hrelies value hmem with hnone | hfound
      · cases hnone
      · exact hfound
    exact (h.acked value hmem).mono (storeOver_extends rfl (prefix_refl _) h.committed_le
      (Fixes.refl _))
  · simp [Shared.goTo, Relies]

lemma Sound.writerStep (hapart : s.Apart) (hlap : s.Claims keys (.writer w))
  (hstep : s.writerStep keys w (s.writers w) = some s') : Sound keys s' := by
  rcases hw : s.writers w with _ | _ | _ | _ | _ | _ | ⟨values, added⟩ | _ | _ | _ | _ | _
  all_goals rw [hw] at hstep
  · cases hstep
  · exact h.probing hw hstep
  · exact h.appending hw hstep
  · obtain rfl := Option.some.inj hstep
    exact h.writing hw
  · exact h.publishing hw hstep
  · exact h.claiming hw hapart hlap hstep
  · obtain rfl := Option.some.inj hstep
    have hrelies := h.relies hw
    exact h.counted hrelies rfl
  · obtain rfl := Option.some.inj hstep
    exact h.marking hw
  · exact h.raising hw hstep
  · cases hstep
  · cases hstep
  · exact (h.relies hw).elim

lemma Sound.begin (hfitting : s.Fitting (.begin w values))
    (hstep : s.step keys (.begin w values) = some s') : Sound keys s' := by
  simp only [Shared.step] at hstep
  split at hstep
  · rename_i hw
    obtain rfl := Option.some.inj hstep
    refine h.moved ?_ (by rw [hw]; rfl)
    split
    · rename_i hempty
      rw [List.isEmpty_iff.mp hempty]
      intro value hvalue
      cases hvalue
    · have hroom : s.size + values.length ≤ s.table.capacity / 2 := hfitting
      rw [if_pos hroom]
      exact ⟨fun value hvalue => .inl (by simpa using ⟨value, hvalue, rfl⟩), by simp⟩
  · cases hstep

lemma Sound.flushed {flusher : Flusher} {dirty : Bool} {forced : Nat}
  {durable : Table} {checkpoint : Checkpoint} {promised : List Bytes} {files : List (Table × Table)}
  (hforced : forced ≤ s.published)
  (hcheckpoint : checkpoint.heapCommittedSize ≤ min forced s.committedHeapSize)
  (hdurable : Fixes durable s.table)
  (hmarked : dirty = false → (∀ w, (s.writers w).inClaims = false) → durable = s.table)
  (hpromised : Begun keys s durable checkpoint.heapCommittedSize promised)
  (hflusher : FlushRelies keys
    { s with flusher, dirty, forced, durable, checkpoint, promised, files } flusher)
  (hnamed : checkpoint.indexBits.getD s.initialBits = s.table.bits)
  (hmeasured : ∀ bits ∈ flusher.measured, bits = s.table.bits) :
  Sound keys { s with flusher, dirty, forced, durable, checkpoint, promised, files } where
  sized := h.sized
  published_le := h.published_le
  committed_le := h.committed_le
  forced_le := hforced
  checkpoint_le := hcheckpoint
  live := h.live
  synced := hdurable
  marked := hmarked
  acked := h.acked
  promised := hpromised
  writers w := (h.writers w).mono (later_of_eq rfl rfl rfl)
  flusher := hflusher
  named := hnamed
  measured := hmeasured

end

lemma Apart.clear (h : s.Apart) (hsave : s.flusher.inSave = true) (w : Nat) :
  (s.writers w).inClaims = false := by
  by_contra hclaims
  have := h w (by simpa using hclaims)
  rw [hsave] at this
  cases this

lemma Begun.append {begun' : List Bytes} (h : Begun keys s table n begun)
  (h' : Begun keys s table n begun') : Begun keys s table n (begun ++ begun') := fun value hvalue =>
  (mem_append.mp hvalue).elim (h value) (h' value)

lemma Sound.flushStep (h : Sound keys s) (hapart : s.Apart) :
  Sound keys (s.flushStep s.flusher) := by
  have hrelies := h.flusher
  have hmeasured := h.measured
  rcases hf : s.flusher with _ | ⟨heapSize, begun⟩ | ⟨heapSize, bits, begun⟩ |
    ⟨heapSize, bits, size, begun⟩ | ⟨heapSize, bits, size, begun⟩ |
    ⟨heapSize, bits, size, begun⟩ | ⟨heapSize, bits, size, begun⟩ |
    ⟨heapSize, bits, size, begun⟩ | ⟨heapSize, bits, size, begun⟩
  all_goals rw [hf] at hrelies hmeasured
  · exact h.flushed h.forced_le h.checkpoint_le h.synced h.marked h.promised
      ⟨h.checkpoint_le.trans (min_le_right _ _), le_rfl, h.acked⟩ h.named nofun
  · exact h.flushed h.forced_le h.checkpoint_le h.synced h.marked h.promised hrelies h.named
      fun _ hbits => (Option.some.inj hbits).symm
  · exact h.flushed h.forced_le h.checkpoint_le h.synced h.marked h.promised hrelies h.named
      hmeasured
  · simp only [Shared.flushStep]
    split
    · rename_i hearly
      have hsame : s.durable = s.table :=
        h.marked (by simpa using hearly.2) (hapart.clear (by rw [hf]; rfl))
      refine h.flushed h.forced_le h.checkpoint_le h.synced h.marked (.append ?_ h.promised)
        trivial h.named nofun
      rw [← hearly.1, hsame]
      exact hrelies.2.2
    · exact h.flushed h.forced_le h.checkpoint_le h.synced h.marked h.promised hrelies h.named
        hmeasured
  · exact h.flushed le_rfl (h.checkpoint_le.trans (min_le_min h.forced_le le_rfl)) h.synced
      h.marked h.promised
      ⟨hrelies.1, hrelies.2.1, hrelies.2.1.trans h.committed_le, hrelies.2.2⟩ h.named hmeasured
  · simp only [Shared.flushStep]
    rcases hdirty : s.dirty with _ | _
    · have hsame : s.durable = s.table := h.marked hdirty (hapart.clear (by rw [hf]; rfl))
      refine h.flushed h.forced_le h.checkpoint_le h.synced (fun _ _ => hsame) h.promised
        ⟨hrelies.1, hrelies.2.1, hrelies.2.2.1, ?_⟩ h.named hmeasured
      rw [hsame]
      exact hrelies.2.2.2
    exact h.flushed h.forced_le h.checkpoint_le h.synced nofun
      h.promised hrelies h.named hmeasured
  · exact h.flushed h.forced_le h.checkpoint_le (Fixes.refl _) (fun _ _ => rfl)
      (h.promised.mono rfl (prefix_refl _) le_rfl h.synced)
      ⟨hrelies.1, hrelies.2.1, hrelies.2.2.1, hrelies.2.2.2, rfl⟩ h.named hmeasured
  · exact h.flushed h.forced_le h.checkpoint_le h.synced (fun _ _ => hrelies.2.2.2.2) h.promised
      ⟨hrelies.1, hrelies.2.1, hrelies.2.2.1, hrelies.2.2.2.1⟩ h.named hmeasured
  exact h.flushed h.forced_le (le_min hrelies.2.2.1 hrelies.2.1) h.synced h.marked
    (.append hrelies.2.2.2 (h.promised.mono rfl (prefix_refl _) hrelies.1 (Fixes.refl _)))
    trivial (hmeasured bits rfl) nofun

/-- **Step.** -/
theorem Sound.step (h : Sound keys s) {label : Label} (hapart : s.Apart)
  (hlap : s.Claims keys label) (hfitting : s.Fitting label) (hstep : s.Step keys label s') :
  Sound keys s' := by
  cases label with
  | begin w values => exact h.begin hfitting hstep
  | writer w => exact h.writerStep hapart hlap hstep
  | flusher =>
    obtain rfl := Option.some.inj hstep
    exact h.flushStep hapart

/-- The checkpoint names the file of the table. -/
lemma kept_iff (hnamed : s.namedBits = s.table.bits) : s.Kept table ↔ table.bits = s.table.bits ∧
    ∀ i, table.slot i = s.durable.slot i ∨ table.slot i = s.table.slot i := by
  unfold Kept
  rw [find?_cons_of_pos (by simp [hnamed]), hnamed]

lemma Sound.reopened (h : Sound keys s) (hkept : s.Kept table) (garbage : Bytes) :
  (storeOver s.heap s.checkpoint.heapCommittedSize s.durable).Extends (s.reopened table garbage) ∧
    (s.reopened table garbage).Honest keys := by
  have hkept := (kept_iff h.named).mp hkept
  have hle : s.checkpoint.heapCommittedSize ≤ s.forced := h.checkpoint_le.trans (min_le_left _ _)
  have hsize : s.forced ≤ s.heap.bytes.length := h.forced_le.trans h.published_le
  have hbytes : (s.reopened table garbage).heap.bytes =
      s.heap.bytes.take s.checkpoint.heapCommittedSize := by
    simp only [Shared.reopened, Heap.truncate]
    rw [take_append_of_le_length (by rw [length_take_of_le hsize]; exact hle),
      take_take, min_eq_left hle]
  have hslots : ∀ i, table.slot i ≠ 0 → table.slot i = s.table.slot i := fun i hi => by
    rcases hkept.2 i with hdurable | htable
    · rw [hdurable] at hi ⊢
      exact (h.synced.2 i hi).symm
    · exact htable
  refine ⟨⟨hkept.1.trans h.synced.1, rfl, hbytes ▸ prefix_refl _, fun i hi => ?_,
    fun i record hrecord => ?_⟩, fun i _ record hrecord => ?_⟩
  · change table.slot i ≠ 0
    rcases hkept.2 i with hdurable | htable
    · rw [hdurable]
      exact hi
    rw [htable, h.synced.2 i hi]
    exact hi
  · have hi : s.durable.slot i ≠ 0 := fun hzero => by
      simp [storeOver, Store.resolve, hzero] at hrecord
    rcases hkept.2 i with hdurable | htable
    · exact hdurable
    · exact htable.trans (h.synced.2 i hi)
  have hi : table.slot i ≠ 0 := fun hzero => by
    simp [Shared.reopened, Store.resolve, hzero] at hrecord
  obtain ⟨key, record', hrecord', hkey, hhash⟩ := h.live i (hslots i hi ▸ hi)
  have hmono := @Store.resolve_mono (s.reopened table garbage) s.view rfl
    (by rw [hbytes]; exact take_prefix_take_left (hle.trans h.forced_le)) _ _ hrecord
  change s.view.resolve (table.slot i) = some record at hmono
  rw [hslots i hi, hrecord'] at hmono
  obtain rfl := Option.some.inj hmono
  rw [hkey, hhash]

/-- **Durability.** What had been accepted when a flush began that has ended is read back
after a crash. -/
theorem flushed_batches_survive {bits segmentSize : Nat} {verifyLongRecords : Bool}
  (hpos : 0 < segmentSize) (hle : segmentSize ≤ 2 ^ 30) {hist : List (Shared × Label)}
  (hrun : Run (Step keys) (create bits segmentSize verifyLongRecords) hist s)
  (hgood : ∀ p ∈ hist, p.1.Apart ∧ p.1.Claims keys p.2 ∧ p.1.Fitting p.2) {table : Table}
  (hkept : s.Kept table) (garbage : Bytes) : ∀ value ∈ s.promised,
    (∀ other, keys.computeKey other = keys.computeKey value → other = value) →
      (s.reopened table garbage).get keys s.verifyLongRecords (keys.computeKey value) =
        some (some value) := by
  intro value hvalue hcollision
  have hsound : Sound keys s := @Run.invariant _ _ _ _ _ _
    (fun s label => s.Apart ∧ s.Claims keys label ∧ s.Fitting label) (fun _ s => Sound keys s)
    (sound_create hpos hle)
    (fun _ _ _ _ ih hgood hstep => ih.step hgood.1 hgood.2.1 hgood.2.2 hstep) hrun hgood
  obtain ⟨hext, hhonest⟩ := hsound.reopened hkept garbage
  obtain ⟨data, hget, hkey⟩ := @Store.get_of_found keys s.verifyLongRecords _ _ (.inr hhonest)
    ((hsound.promised value hvalue).mono hext)
  rw [hcollision data hkey] at hget
  exact hget

/-! ## Schedules -/

/-- The run of a list of labels, if each step can be taken. -/
def schedule (keys : Keys) :
  List Label → List (Shared × Label) → Shared → Option (List (Shared × Label) × Shared)
  | [], hist, s => some (hist, s)
  | label :: labels, hist, s =>
    match s.step keys label with
    | some s' => schedule keys labels ((s, label) :: hist) s'
    | none => none

variable {hist : List (Shared × Label)}

lemma run_schedule {labels : List Label} {hist' : List (Shared × Label)} {s₀ : Shared}
  (hrun : Run (Step keys) s₀ hist s) (h : schedule keys labels hist s = some (hist', s')) :
  Run (Step keys) s₀ hist' s' := by
  induction labels generalizing hist s with
  | nil =>
    obtain ⟨rfl, rfl⟩ := Prod.mk.inj (Option.some.inj h)
    exact hrun
  | cons label labels ih =>
    unfold schedule at h
    split at h
    · rename_i hstep
      exact ih (hrun.step hstep) h
    · cases h

def Label.isOf (w : Nat) : Label → Bool
  | .begin w' _ | .writer w' => w' = w
  | .flusher => true

lemma writerStep_writers (h : s.writerStep keys w writer = some s') :
  ∃ writer', s'.writers = Function.update s.writers w writer' := by
  unfold writerStep at h
  repeat' split at h
  all_goals cases h <;> exact ⟨_, rfl⟩

lemma others_idle (hrun : Run (Step keys) (create bits segmentSize verifyLongRecords) hist s)
  (hlabels : ∀ p ∈ hist, Label.isOf w p.2 = true) : ∀ w' ≠ w, s.writers w' = .idle := by
  refine @Run.invariant _ _ _ _ _ _ (fun _ label => Label.isOf w label = true)
    (fun _ s => ∀ w' ≠ w, s.writers w' = .idle) (fun _ _ => rfl)
    (fun _ s label s' ih hlabel hstep w' hw' => ?_) hrun hlabels
  rw [← ih w' hw']
  cases label with
  | begin w₀ values =>
    obtain rfl : w₀ = w := by simpa [Label.isOf] using hlabel
    simp only [Step, Shared.step] at hstep
    split at hstep
    · obtain rfl := Option.some.inj hstep
      simp [Shared.goTo, hw']
    · cases hstep
  | writer w₀ =>
    obtain rfl : w₀ = w := by simpa [Label.isOf] using hlabel
    obtain ⟨writer', hwriters⟩ := writerStep_writers hstep
    simp [hwriters, hw']
  | flusher =>
    obtain rfl := Option.some.inj hstep
    unfold Shared.flushStep
    repeat' split
    all_goals rfl

def oneRow (w : Nat) (value : Bytes) : List Label :=
  .begin w [value] :: List.replicate 10 (.writer w)

def serial (keys : Keys) (value : Bytes) : Option (List (Shared × Label) × Shared) :=
  schedule keys (oneRow 0 value ++ List.replicate 9 .flusher) [] (create 4 (2 ^ 16) true)

def checked (keys : Keys) (p : Shared × Label) : Bool :=
  Label.isOf 0 p.2 && (!(p.1.writers 0).inClaims || !p.1.flusher.inSave) &&
    (match p.1.writers 0 with
    | .claiming _ (claim :: _) _ => (p.1.view.vacancy keys claim.1).isSome
    | _ => true) &&
    match p.2 with
    | .begin _ values => p.1.size + values.length ≤ p.1.table.capacity / 2
    | _ => true

lemma good_of_checked (hrun : Run (Step keys) (create bits segmentSize verifyLongRecords) hist s)
  (hchecked : ∀ p ∈ hist, checked keys p = true) :
  ∀ p ∈ hist, p.1.Apart ∧ p.1.Claims keys p.2 ∧ p.1.Fitting p.2 := by
  intro p hp
  obtain ⟨early, hearly, hprun⟩ := hrun.mem_split hp
  have hcheck := hchecked p hp
  simp only [checked, Bool.and_eq_true, Bool.or_eq_true, Bool.not_eq_true'] at hcheck
  obtain ⟨⟨⟨hlabel, hapart⟩, hlap⟩, hfitting⟩ := hcheck
  have hidle := others_idle hprun fun q hq => by
    have := hchecked q (hearly q hq)
    simp only [checked, Bool.and_eq_true] at this
    exact this.1.1.1
  refine ⟨fun w hw => ?_, ?_, ?_⟩
  · by_cases hzero : w = 0
    · subst hzero
      rcases hapart with hnot | hnot
      · rw [hnot] at hw
        cases hw
      · exact hnot
    rw [hidle w hzero] at hw
    cases hw
  · rcases hp2 : p.2 with _ | w | _
    · trivial
    · obtain rfl : w = 0 := by simpa [Label.isOf, hp2] using hlabel
      simp only [Claims]
      split
      · rename_i hclaiming
        rw [hclaiming] at hlap
        exact fun hnone => by simp [hnone] at hlap
      · trivial
    · trivial
  · rcases hp2 : p.2 with _ | w | _
    · simpa [Fitting, hp2] using hfitting
    · trivial
    · trivial

/-- One batch and one flush after the other: the value is promised, and a crash keeps it. -/
theorem flushed_batch_survives :
  ∃ s hist, serial keccakKeys [7] = some (hist, s) ∧ s.promised = [[7]] ∧
    ((∀ other, keccak256 other = keccak256 [7] → other = [7]) →
      (s.reopened s.durable []).get keccakKeys s.verifyLongRecords (keccak256 [7]) =
        some (some [7])) := by
  have hend : ((serial keccakKeys [7]).map fun p =>
      decide (p.2.promised = [[7]] ∧ p.2.namedBits = p.2.table.bits ∧
        p.2.durable.bits = p.2.table.bits ∧ p.1.all (checked keccakKeys) = true)) = some true := by decide +kernel
  obtain ⟨⟨hist, s⟩, hs, hfacts⟩ := Option.map_eq_some_iff.mp hend
  obtain ⟨hpromised, hnamed, hbits, hchecked⟩ := of_decide_eq_true hfacts
  have hrun := run_schedule .init hs
  have hgood := good_of_checked hrun (List.all_eq_true.mp hchecked)
  exact ⟨s, hist, hs, hpromised, flushed_batches_survive (by decide) (by decide) hrun hgood
    ((kept_iff hnamed).mpr ⟨hbits, fun _ => .inl rfl⟩) [] [7] (hpromised ▸ mem_singleton.mpr rfl)⟩

/-- The second batch runs between the sync and the clearing of the mark of the first flush;
the second flush finds the index unmarked. -/
def losing : List Label :=
  oneRow 0 [7] ++ List.replicate 7 .flusher ++ oneRow 1 [8] ++ List.replicate 9 .flusher

/-- **A flushed batch is lost.** -/
theorem flushed_batch_lost :
  ∃ hist s, Run (Step keccakKeys) (create 4 (2 ^ 16) true) hist s ∧ [8] ∈ s.promised ∧
    s.Kept s.durable ∧
      (s.reopened s.durable []).get keccakKeys s.verifyLongRecords (keccak256 [8]) = some none := by
  have hend : ((schedule keccakKeys losing [] (create 4 (2 ^ 16) true)).map fun p =>
      decide ([8] ∈ p.2.promised ∧ p.2.namedBits = p.2.table.bits ∧
        p.2.durable.bits = p.2.table.bits ∧ (p.2.reopened p.2.durable []).get keccakKeys p.2.verifyLongRecords (keccak256 [8]) =
          some none)) = some true := by decide +kernel
  obtain ⟨⟨hist, s⟩, hs, hfacts⟩ := Option.map_eq_some_iff.mp hend
  obtain ⟨hpromised, hnamed, hbits, hget⟩ := of_decide_eq_true hfacts
  exact ⟨hist, s, run_schedule .init hs, hpromised,
    (kept_iff hnamed).mpr ⟨hbits, fun _ => .inl rfl⟩, hget⟩

/-- A flush has read the capacity when the second batch grows the table of two slots. -/
def growing : List Label :=
  oneRow 0 [7] ++ List.replicate 2 .flusher ++ oneRow 1 [8] ++ List.replicate 2 (.writer 1) ++
    List.replicate 7 .flusher

/-- **A grown table is lost**: the checkpoint names the capacity the flush has read, and its file is
removed. -/
theorem grown_table_lost :
    ∃ hist s, Run (Step keccakKeys) (create 1 (2 ^ 16) true) hist s ∧ [7] ∈ s.promised ∧
      s.Kept (.empty 1) ∧
        (s.reopened (.empty 1) []).get keccakKeys s.verifyLongRecords (keccak256 [7]) =
          some none := by
  have hend : ((schedule keccakKeys growing [] (create 1 (2 ^ 16) true)).map fun p =>
      decide ([7] ∈ p.2.promised ∧ p.2.namedBits = 1 ∧ p.2.table.bits = 2 ∧ p.2.files = [] ∧
        (p.2.reopened (.empty 1) []).get keccakKeys p.2.verifyLongRecords (keccak256 [7]) =
          some none)) = some true := by decide +kernel
  obtain ⟨⟨hist, s⟩, hs, hfacts⟩ := Option.map_eq_some_iff.mp hend
  obtain ⟨hpromised, hnamed, hbits, hfiles, hget⟩ := of_decide_eq_true hfacts
  refine ⟨hist, s, run_schedule .init hs, hpromised, ?_, hget⟩
  have hother : s.table.bits ≠ 1 := fun hone => by
    have htwo : s.table.bits = 2 := hbits
    omega
  unfold Kept
  rw [hfiles, hnamed, find?_cons_of_neg (by simpa using hother), find?_nil]

end Shared

end FlatDb

end Rustock
