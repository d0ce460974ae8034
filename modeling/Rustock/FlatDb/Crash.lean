import Rustock.FlatDb.Writes
import Rustock.Lib.Run

/-!
# FlatDB over crashes

The store with its checkpoint (crates/flatdb/src/lib.rs, checkpoint.rs), run through `put`,
`update_batch`, `flush` and crashes:

- `FlatDb.reopen` goes back to the checkpoint's frontier. A process that is killed finds the
  index file as it left it; after a power failure each slot has one of the values it has had
  since the checkpoint (`Kept`);
- `Trace` adds what has been promised: the values accepted since the last open and those
  accepted before the last `flush`;
- **`lookups_end`**: lookups end in runs in which writes leave a slot empty (`Spares`).

`FlatDb.flush` is one step: a crash within it is a crash before it that kept everything.
A store opened with `sync_writes` is one whose writes are each followed by a `flush`.
-/

namespace Rustock

open Lib List

/-- `indexBits` is `none` while no checkpoint has been written; the segment size is that of the
heap. -/
structure FlatDb.Checkpoint where
  heapCommittedSize : Nat
  indexBits : Option Nat
  indexSize : Nat
deriving DecidableEq

/-- `file` is the content of the index file that the checkpoint names, and `older` are those it has
had since the checkpoint was written. -/
structure FlatDb where
  expectedKeys : Nat
  verifyLongRecords : Bool
  store : FlatDb.Store
  committedHeapSize : Nat
  checkpoint : FlatDb.Checkpoint
  file : FlatDb.Table
  older : List FlatDb.Table
deriving DecidableEq

namespace FlatDb

variable (keys : Keys)

/-- The loop of index.rs:642–648 on the exponent of the capacity. -/
def tableBitsFor (wanted : Nat) : Nat → Nat → Nat
  | 0, bits => bits
  | fuel + 1, bits =>
    if 2 ^ bits < wanted ∧ bits < maxBits then tableBitsFor wanted fuel (bits + 1) else bits

variable (db : FlatDb)

/-- The table an index is opened with. -/
def indexBits : Nat :=
  db.checkpoint.indexBits.getD
    (tableBitsFor (max (min (2 * db.expectedKeys) (2 ^ 64 - 1)) 16) maxBits 4)

def create (expectedKeys segmentSize : Nat) (verifyLongRecords : Bool) : FlatDb :=
  let bits := tableBitsFor (max (min (2 * expectedKeys) (2 ^ 64 - 1)) 16) maxBits 4
  { expectedKeys
    verifyLongRecords
    store := { heap := ⟨segmentSize, [], []⟩, table := .empty bits, size := 0, dirty := true }
    committedHeapSize := 0
    checkpoint := ⟨0, none, 0⟩
    file := .empty bits
    older := [] }

/-- A write has left `store`; a table that has grown is in another file. -/
def written (db : FlatDb) (store : Store) : FlatDb :=
  let mapped := store.table.bits = db.indexBits
  { db with
    store
    file := if mapped then store.table else db.file
    older := if mapped then db.file :: db.older else db.older }

def finish (committedHeapSize : Nat) :
  Store × Except FlatError Unit → FlatDb × Except FlatError Unit
  | (store, .error e) => (db.written store, .error e)
  | (store, .ok ()) => ({ db.written store with committedHeapSize }, .ok ())

def put (key : B256) (value : Bytes) : FlatDb × Except FlatError Unit :=
  let result := db.store.put keys key value
  db.finish result.1.heap.size result

def updateBatch (rows : List (B256 × Bytes)) : FlatDb × Except FlatError Unit :=
  let result := db.store.putMany keys rows
  db.finish (max db.committedHeapSize result.1.heap.size) result

/-- With index.rs:580–587: the index is forced when it is marked. -/
def flush : FlatDb :=
  if db.committedHeapSize = db.checkpoint.heapCommittedSize ∧ ¬ db.store.dirty then db
  else
    { db with
      store := { db.store with dirty := false }
      checkpoint := ⟨db.committedHeapSize, some db.store.table.bits, db.store.size⟩
      file := if db.store.dirty then db.store.table else db.file
      older := if db.store.dirty then [] else db.older }

/-- lib.rs:149–207 with `table` in the index file and `stale` in the heap files beyond the
frontier. -/
def reopen (table : Table) (stale : Bytes) : FlatDb :=
  { db with
    store :=
      { heap := { db.store.heap.truncate db.checkpoint.heapCommittedSize with stale }
        table
        size := db.checkpoint.indexSize
        dirty := db.checkpoint.indexBits.isNone }
    committedHeapSize := db.checkpoint.heapCommittedSize }

def Kept (table : Table) : Prop :=
  table.bits = db.indexBits ∧ ∀ i, ∃ page ∈ db.file :: db.older, table.slot i = page.slot i

inductive Event where
  | put (value : Bytes)
  | updateBatch (values : List Bytes)
  | flush
  /-- the process is killed and the store opened again -/
  | kill
  /-- the power fails and the store is opened again over what the disk has -/
  | powerFailure (table : Table) (stale : Bytes)

structure Trace where
  db : FlatDb
  /-- values of the writes accepted since the store was last opened -/
  acked : List Bytes
  /-- values of those accepted before the last flush -/
  flushed : List Bytes
deriving DecidableEq

namespace Trace

def create (expectedKeys segmentSize : Nat) (verifyLongRecords : Bool) : Trace :=
  ⟨FlatDb.create expectedKeys segmentSize verifyLongRecords, [], []⟩

def rows (values : List Bytes) : List (B256 × Bytes) :=
  values.map fun value => (keys.computeKey value, value)

def acknowledge (m : Trace) (values : List Bytes) : FlatDb × Except FlatError Unit → Trace
  | (db, .ok ()) => { m with db, acked := values ++ m.acked }
  | (db, .error _) => { m with db }

def handle (m : Trace) : Event → Trace
  | .put value => m.acknowledge [value] (m.db.put keys (keys.computeKey value) value)
  | .updateBatch values => m.acknowledge values (m.db.updateBatch keys (rows keys values))
  | .flush => { m with db := m.db.flush, flushed := m.acked ++ m.flushed }
  | .kill =>
    let stale := (m.db.store.heap.truncate m.db.checkpoint.heapCommittedSize).stale
    { m with db := m.db.reopen m.db.file stale, acked := [] }
  | .powerFailure table stale =>
    { m with db := { m.db.reopen table stale with file := table, older := [] }, acked := [] }

def Step (m : Trace) (event : Event) (m' : Trace) : Prop :=
  m' = m.handle keys event ∧
    match event with
    | .powerFailure table _ => m.db.Kept table
    | _ => True

variable {keys} {m m' : Trace}

lemma run_handles {s₀ s : Trace} {hist : List (Trace × Event)}
  (hrun : Run (Step keys) s₀ hist s) (events : List Event)
  (hevents : ∀ event ∈ events, ∀ table stale, event ≠ .powerFailure table stale) :
  ∃ hist', Run (Step keys) s₀ hist' (events.foldl (handle keys) s) := by
  induction events generalizing s hist with
  | nil => exact ⟨hist, hrun⟩
  | cons event rest ih =>
    refine ih (hrun.step ⟨rfl, ?_⟩) fun e he => hevents e (mem_cons_of_mem _ he)
    have hevent := hevents event (mem_cons_self ..)
    cases event with
    | powerFailure table stale => exact absurd rfl (hevent table stale)
    | _ => trivial

def fillsTable : List Event :=
  [.updateBatch [[0], [1], [2], [3], [4], [5], [6], [7]], .kill,
   .updateBatch [[1, 0], [1, 1], [1, 2], [1, 3], [1, 4], [1, 5], [1, 6], [1, 7]]]

lemma le_tableBitsFor (wanted fuel bits : Nat) : bits ≤ tableBitsFor wanted fuel bits := by
  induction fuel generalizing bits with
  | zero => exact le_rfl
  | succ fuel ih =>
    unfold tableBitsFor
    split
    · exact (Nat.le_succ _).trans (ih _)
    · exact le_rfl

def Spares (m : Trace) : Event → Prop
  | .put _ => m.db.store.Room 1 1
  | .updateBatch values => m.db.store.Room values.length 1
  | _ => True

structure Roomy (m : Trace) : Prop where
  empty : 0 < m.db.store.empties
  bits : 1 ≤ m.db.indexBits
  bits_le : m.db.indexBits ≤ m.db.store.table.bits
  file_bits : m.db.file.bits = m.db.indexBits
  file_empty : ∃ i < m.db.file.capacity, m.db.file.slot i = 0
  older : ∀ page ∈ m.db.older, ∀ i, page.slot i ≠ 0 → m.db.file.slot i ≠ 0
  mapped : m.db.store.table.bits = m.db.indexBits → m.db.store.table = m.db.file
  clean : m.db.store.dirty = false → m.db.store.table.bits = m.db.indexBits

lemma roomy_create (expectedKeys segmentSize : Nat) (verifyLongRecords : Bool) :
  Roomy (create expectedKeys segmentSize verifyLongRecords) where
  empty := by simp [create, FlatDb.create, Store.empties, Table.empty]
  bits := (by decide : 1 ≤ 4).trans (le_tableBitsFor ..)
  bits_le := le_rfl
  file_bits := rfl
  file_empty := ⟨0, Table.capacity_pos _, Table.slot_empty ..⟩
  older := by simp [create, FlatDb.create]
  mapped _ := rfl
  clean h := by cases h

lemma Roomy.written (h : Roomy m) {store : Store} (hfills : m.db.store.Fills store)
  (hempty : 0 < store.empties) {committed : Nat} {acked : List Bytes} :
  Roomy ⟨{ m.db.written store with committedHeapSize := committed }, acked, m.flushed⟩ := by
  have hle := h.bits_le
  have hle' := hfills.bits_le
  have hclean : store.dirty = false → store.table.bits = m.db.indexBits := fun hdirty => by
    obtain ⟨hdirty', hbits⟩ := hfills.clean hdirty
    exact hbits.trans (h.clean hdirty')
  by_cases hbits : store.table.bits = m.db.indexBits
  · have hmapped := h.mapped (by omega)
    have hslots : ∀ i, m.db.file.slot i ≠ 0 → store.table.slot i ≠ 0 := by
      rcases hfills.slots with ⟨-, hslots⟩ | hgrown
      · rwa [hmapped] at hslots
      · omega
    have hwritten : m.db.written store =
        { m.db with store, file := store.table, older := m.db.file :: m.db.older } := by
      simp [FlatDb.written, hbits]
    rw [hwritten]
    refine ⟨hempty, h.bits, hbits.symm.le, hbits, Store.exists_empty hempty,
      fun page hpage i hi => ?_, fun _ => rfl, hclean⟩
    rcases mem_cons.mp hpage with rfl | hmem
    · exact hslots i hi
    · exact hslots i (h.older page hmem i hi)
  have hwritten : m.db.written store = { m.db with store } := by simp [FlatDb.written, hbits]
  rw [hwritten]
  exact ⟨hempty, h.bits, hle.trans hle', h.file_bits, h.file_empty, h.older,
    fun hbits' => absurd hbits' hbits, hclean⟩

lemma Roomy.finish (h : Roomy m) (hfills : m.db.store.Fills result.1)
  (hempty : 0 < result.1.empties) (committed : Nat) (values : List Bytes) :
  Roomy (m.acknowledge values (m.db.finish committed result)) := by
  obtain ⟨store, e | ⟨⟩⟩ := result
  · exact @Roomy.written m h store hfills hempty m.db.committedHeapSize m.acked
  · exact h.written hfills hempty

lemma Roomy.flush (h : Roomy m) : Roomy (m.handle keys .flush) := by
  by_cases hearly : m.db.committedHeapSize = m.db.checkpoint.heapCommittedSize ∧ ¬ m.db.store.dirty
  · have hdb : m.db.flush = m.db := if_pos hearly
    simp only [handle, hdb]
    exact ⟨h.empty, h.bits, h.bits_le, h.file_bits, h.file_empty, h.older, h.mapped, h.clean⟩
  simp only [handle, FlatDb.flush, if_neg hearly]
  have hbits := h.bits.trans h.bits_le
  rcases hdirty : m.db.store.dirty with _ | _
  · have hsame := h.clean hdirty
    have hfile := h.mapped hsame
    refine ⟨h.empty, hbits, le_rfl, ?_, h.file_empty, h.older, fun _ => hfile, fun _ => rfl⟩
    exact (h.file_bits.trans hsame.symm)
  exact ⟨h.empty, hbits, le_rfl, rfl, Store.exists_empty h.empty, by simp, fun _ => rfl,
    fun _ => rfl⟩

lemma empties_pos {s : Store} {i : Nat} (hi : i < s.table.capacity)
  (hempty : s.table.slot i = 0) : 0 < s.empties :=
  count_pos_iff.mpr (hempty ▸ Store.slot_mem hi)

lemma Roomy.step (h : Roomy m) {event : Event} (hspares : m.Spares event)
  (hstep : m.Step keys event m') : Roomy m' := by
  obtain ⟨rfl, hkept⟩ := hstep
  cases event with
  | put value =>
    exact h.finish (Store.put_fills ..)
      (Store.put_empties (h.bits.trans h.bits_le) h.empty hspares) ..
  | updateBatch values =>
    refine h.finish (Store.putMany_fills ..) (Store.putMany_empties h.empty ?_) ..
    rw [rows, length_map]
    exact hspares
  | flush => exact h.flush
  | kill =>
    obtain ⟨i, hi, hempty⟩ := h.file_empty
    exact ⟨empties_pos hi hempty, h.bits, h.file_bits.symm.le, h.file_bits, h.file_empty, h.older,
      fun _ => rfl, fun _ => h.file_bits⟩
  | powerFailure table stale =>
    obtain ⟨i, hi, hempty⟩ := h.file_empty
    have hslot : table.slot i = 0 := by
      obtain ⟨page, hpage, hslot⟩ := hkept.2 i
      rw [hslot]
      rcases mem_cons.mp hpage with rfl | hmem
      · exact hempty
      by_contra hne
      exact h.older page hmem i hne hempty
    have hi' : i < table.capacity := by
      rw [Table.capacity, hkept.1, ← h.file_bits]
      exact hi
    exact ⟨empties_pos hi' hslot, h.bits, hkept.1.symm.le, hkept.1, ⟨i, hi', hslot⟩,
      fun _ hpage => (by cases hpage),
      fun _ => rfl, fun _ => hkept.1⟩

/-- **Lookups end** within a lap of the table, which has an empty slot. -/
theorem lookups_end {expectedKeys segmentSize : Nat} {verifyLongRecords : Bool}
  {hist : List (Trace × Event)}
  (hrun : Run (Step keys) (create expectedKeys segmentSize verifyLongRecords) hist m)
  (hspares : ∀ p ∈ hist, p.1.Spares p.2) (key : B256) :
  (∃ i < m.db.store.table.capacity, m.db.store.table.slot i = 0) ∧
    ∃ outcome, m.db.store.getWithin keys m.db.verifyLongRecords m.db.store.table.capacity key =
      some outcome := by
  have hroomy : Roomy m := @Run.invariant _ _ _ _ _ _ (fun m event => m.Spares event)
    (fun _ m => Roomy m) (roomy_create ..) (fun _ _ _ _ ih hspares hstep => ih.step hspares hstep)
    hrun hspares
  obtain ⟨i, hi, hempty⟩ := Store.exists_empty hroomy.empty
  exact ⟨⟨i, hi, hempty⟩, Option.ne_none_iff_exists'.mp (Store.get_ends hi hempty key)⟩

def afterPut : Trace := (create 1 (2 ^ 16) true).handle keccakKeys (.put [7])

def killed : Trace := afterPut.handle keccakKeys .kill

def afterPutAgain : Trace := killed.handle keccakKeys (.put [8])

/-- The slot of a value that died with the process is there when the next one is written. -/
theorem lookups_end_afterPut :
    ∃ outcome, afterPutAgain.db.store.getWithin keccakKeys afterPutAgain.db.verifyLongRecords
      afterPutAgain.db.store.table.capacity (keccak256 [9]) = some outcome := by
  have hrun : Run (Step keccakKeys) (create 1 (2 ^ 16) true)
      [(killed, .put [8]), (afterPut, .kill), (create 1 (2 ^ 16) true, .put [7])]
      afterPutAgain :=
    .step (.step (.step .init ⟨rfl, trivial⟩) ⟨rfl, trivial⟩) ⟨rfl, trivial⟩
  have hempty : 2 ≤ (create 1 (2 ^ 16) true).db.store.empties := by decide +kernel
  have hempty' : 2 ≤ killed.db.store.empties := by decide +kernel
  have hspares : ∀ p ∈ [(killed, Event.put [8]), (afterPut, .kill),
      (create 1 (2 ^ 16) true, .put [7])], p.1.Spares p.2 := by
    simp only [forall_mem_cons]
    exact ⟨.inl hempty', trivial, .inl hempty, by simp⟩
  exact (lookups_end hrun hspares (keccak256 [9])).2

/-- **A lookup does not end.** The two batches have been accepted and every slot is taken. -/
theorem lookup_never_ends : ∃ hist m, Run (Step keccakKeys) (create 1 (2 ^ 16) true) hist m ∧
    ∀ fuel, m.db.store.getWithin keccakKeys m.db.verifyLongRecords fuel (keccak256 [0]) = none := by
  obtain ⟨hist, hrun⟩ := @run_handles keccakKeys _ _ _ .init fillsTable (by simp [fillsTable])
  refine ⟨hist, _, hrun, Store.getWithin_eq_none_forever ?_⟩
  decide +kernel

end Trace

end FlatDb

end Rustock
