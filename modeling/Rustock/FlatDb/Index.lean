import Rustock.FlatDb.Heap
import Rustock.Lib.Keccak
import Rustock.Lib.Probe

/-!
# The index of FlatDB

An open-addressed table of heap offsets (crates/flatdb/src/index.rs). A slot holds
`offset + 1`, zero being empty; it stores no key, so every probe step reads the record a
slot points at.

After a crash the table may hold slots that point at or beyond the frontier (dead) or, once
the frontier has passed them again, at records of other keys. A table whose capacity is
`2 ^ bits` makes `& mask` the remainder by the capacity.
-/

namespace Rustock

open List Lib Lib.Probe

namespace FlatDb

/-- The key of a value and where its probe starts. Keys have 32 bytes. -/
structure Keys where
  computeKey : Bytes → B256
  hash : B256 → Nat

def keccakKeys : Keys where
  computeKey := keccak256
  hash key := beNat (key.bytes.drop 28)

def maxBits : Nat := 31

/-- A table of `2 ^ bits` slots. -/
structure Table where
  bits : Nat
  slots : List Nat
  length_eq : slots.length = 2 ^ bits
deriving DecidableEq

namespace Table

def capacity (t : Table) : Nat := 2 ^ t.bits

def empty (bits : Nat) : Table := ⟨bits, List.replicate (2 ^ bits) 0, by simp⟩

def slot (t : Table) (i : Nat) : Nat := t.slots.getD i 0

def set (t : Table) (i value : Nat) : Table := ⟨t.bits, t.slots.set i value, by simp [t.length_eq]⟩

lemma capacity_pos (t : Table) : 0 < t.capacity := Nat.two_pow_pos _

@[simp] lemma bits_set (t : Table) (i value : Nat) : (t.set i value).bits = t.bits := rfl

@[simp] lemma capacity_set (t : Table) (i value : Nat) : (t.set i value).capacity = t.capacity :=
  rfl

variable {t : Table} {i : Nat}

lemma slot_set_self (hi : i < t.capacity) (value : Nat) : (t.set i value).slot i = value := by
  have : i < t.slots.length := by rw [t.length_eq]; exact hi
  simp [slot, set, this]

lemma slot_set_ne {j : Nat} (hij : i ≠ j) (value : Nat) : (t.set i value).slot j = t.slot j := by
  simp [slot, set, hij]

lemma slot_set_ne_zero {j value : Nat} (hvalue : value ≠ 0) (hj : t.slot j ≠ 0) :
  (t.set i value).slot j ≠ 0 := by
  by_cases hij : i = j
  · subst hij
    by_cases hi : i < t.capacity
    · rwa [slot_set_self hi]
    have hlength : t.slots.length ≤ i := by
      rw [t.length_eq]
      exact Nat.le_of_not_lt hi
    exact absurd (by simp [slot, List.getElem?_eq_none hlength]) hj
  · rwa [slot_set_ne hij]

@[simp] lemma slot_empty (bits i : Nat) : (empty bits).slot i = 0 := by
  simp only [slot, empty, getD_eq_getElem?_getD, getElem?_replicate]
  split <;> rfl

end Table

inductive FlatError where
  | heap (e : HeapError)
  | indexTooLarge
  | conflict
  | stillFull
deriving DecidableEq

/-- The heap and the index over it: index.rs:88–96 with what its methods are given. -/
structure Store where
  heap : Heap
  table : Table
  size : Nat
  dirty : Bool
deriving DecidableEq

/-- What one probe step of `try_put` sees. -/
inductive Seen where
  | empty
  | dead
  | same
  | conflict
  | other

/-- What `try_put` comes to. -/
inductive PutStep where
  | insert (target : Nat)
  | present
  | conflict
  | full
deriving DecidableEq

namespace Store

variable (keys : Keys) (verify : Bool)

def keyOf (record : Record) : B256 := record.key.getD (keys.computeKey record.data)

/-- Asked once a stored key has matched. -/
def longRecordIsIntact (record : Record) (key : B256) : Bool :=
  !verify || record.key.isNone || keys.computeKey record.data = key

def resolve (s : Store) (slot : Nat) : Option Record :=
  if slot = 0 then none else s.heap.withRecord (slot - 1)

def home (s : Store) (key : B256) : Nat := keys.hash key % s.table.capacity

/-- A probe step of `get`: an empty slot ends it with nothing, a match with the data. -/
def getAt (s : Store) (key : B256) (i : Nat) : Option (Option Bytes) :=
  if s.table.slot i = 0 then some none
  else
    match s.resolve (s.table.slot i) with
    | some record =>
      if keyOf keys record = key ∧ longRecordIsIntact keys verify record key then
        some (some record.data)
      else none
    | none => none

/-- index.rs:191–218 for `fuel` steps; the loop of the source has no bound. -/
def getWithin (s : Store) (fuel : Nat) (key : B256) : Option (Option Bytes) :=
  probe s.table.capacity (s.getAt keys verify key) fuel (s.home keys key)

/-- `get`, if it ends within a lap; if not it never does (`getWithin_eq_none_forever`). -/
def get (s : Store) (key : B256) : Option (Option Bytes) :=
  s.getWithin keys verify s.table.capacity key

/-- A slot holds a record of the key. -/
def holds (s : Store) (key : B256) (i : Nat) : Bool :=
  match s.resolve (s.table.slot i) with
  | some record => keyOf keys record = key
  | none => false

def vacancyAt (s : Store) (key : B256) (i : Nat) : Option (Option Nat) :=
  if s.table.slot i = 0 then some (some i) else if s.holds keys key i then some none else none

def vacancy (s : Store) (key : B256) : Option (Option Nat) :=
  probe s.table.capacity (s.vacancyAt keys key) s.table.capacity (s.home keys key)

def probeFinds (s : Store) (key : B256) : Bool :=
  match s.vacancy keys key with
  | some none => true
  | _ => false

/-- Every live entry goes to a table of twice the size. -/
def rehash (s : Store) (fresh : Store) (slot : Nat) : Store :=
  match s.resolve slot with
  | none => fresh
  | some record =>
    match fresh.vacancy keys (keyOf keys record) with
    | some (some i) => { fresh with table := fresh.table.set i slot, size := fresh.size + 1 }
    | _ => fresh

def grow (s : Store) : Except FlatError Store :=
  if maxBits < s.table.bits + 1 then .error .indexTooLarge
  else .ok <|
    s.table.slots.foldl (s.rehash keys)
      { s with table := .empty (s.table.bits + 1), size := 0, dirty := true }

/-- What `try_put` sees in a slot. -/
def seenAt (s : Store) (key : B256) (data : Bytes) (i : Nat) : Seen :=
  if s.table.slot i = 0 then .empty
  else
    match s.resolve (s.table.slot i) with
    | none => .dead
    | some record =>
      if keyOf keys record ≠ key then .other
      else if record.key.isSome ∧ record.data ≠ data then .conflict
      else .same

/-- The loop of index.rs:259–320; `reusable` is the first dead slot met. -/
def tryPutLoop (s : Store) (key : B256) (data : Bytes) : Nat → Nat → Option Nat → PutStep
  | 0, _, some target => .insert target
  | 0, _, none => .full
  | fuel + 1, i, reusable =>
    match s.seenAt keys key data i with
    | .empty => .insert (reusable.getD i)
    | .dead =>
      s.tryPutLoop key data fuel ((i + 1) % s.table.capacity) (reusable.orElse fun _ => some i)
    | .same => .present
    | .conflict => .conflict
    | .other => s.tryPutLoop key data fuel ((i + 1) % s.table.capacity) reusable

def rowOf (key : B256) (data : Bytes) : Row := ⟨key, data, storeKeyThreshold < data.length⟩

/-- The part of `try_put` after its growth check: `false` is a full lap. -/
def tryPutGrown (s : Store) (key : B256) (data : Bytes) : Store × Except FlatError Bool :=
  match s.tryPutLoop keys key data s.table.capacity (s.home keys key) none with
  | .present => (s, .ok true)
  | .conflict => (s, .error .conflict)
  | .full => (s, .ok false)
  | .insert target =>
    match s.heap.appendMany [rowOf key data] with
    | (heap, .error e) => ({ s with heap }, .error (.heap e))
    | (heap, .ok offsets) =>
      ({ s with
         heap
         table := s.table.set target (offsets.headD 0 + 1)
         size := s.size + 1
         dirty := true }, .ok true)

def tryPut (s : Store) (key : B256) (data : Bytes) : Store × Except FlatError Bool :=
  if s.size + 1 > s.table.capacity / 2 then
    match s.grow keys with
    | .error e => (s, .error e)
    | .ok grown => grown.tryPutGrown keys key data
  else s.tryPutGrown keys key data

/-- The two attempts of index.rs:221–239. -/
def putLoop (key : B256) (data : Bytes) : Nat → Store → Store × Except FlatError Unit
  | 0, s => (s, .error .stillFull)
  | attempts + 1, s =>
    match s.tryPut keys key data with
    | (s', .error e) => (s', .error e)
    | (s', .ok true) => (s', .ok ())
    | (s', .ok false) =>
      match s'.grow keys with
      | .error e => (s', .error e)
      | .ok grown => putLoop key data attempts grown

def put (s : Store) (key : B256) (data : Bytes) : Store × Except FlatError Unit :=
  putLoop keys key data 2 s

/-- The loop of index.rs:365–367; a table doubles at most 31 times. -/
def growFor (rows : Nat) : Nat → Store → Store × Except FlatError Unit
  | 0, s => (s, .error .indexTooLarge)
  | fuel + 1, s =>
    if s.size + rows > s.table.capacity / 2 then
      match s.grow keys with
      | .error e => (s, .error e)
      | .ok grown => growFor rows fuel grown
    else (s, .ok ())

/-- With the count of entries added. A full lap adds nothing. -/
def claimSlot (s : Store) (claim : B256 × Nat) : Store :=
  match s.vacancy keys claim.1 with
  | some (some i) => { s with table := s.table.set i (claim.2 + 1), size := s.size + 1 }
  | _ => s

/-- The rows of a batch that the table does not hold. -/
def freshRows (s : Store) (rows : List (B256 × Bytes)) : List Row :=
  (rows.filter fun row => !s.probeFinds keys row.1).map fun row => rowOf row.1 row.2

/-- The part of `put_many` after its growth loop. -/
def putManyGrown (s : Store) (rows : List (B256 × Bytes)) : Store × Except FlatError Unit :=
  let fresh := s.freshRows keys rows
  if fresh.isEmpty then (s, .ok ())
  else
    match s.heap.appendMany fresh with
    | (heap, .error e) => ({ s with heap }, .error (.heap e))
    | (heap, .ok offsets) =>
      let claimed := ((fresh.map Row.key).zip offsets).foldl (claimSlot keys) { s with heap }
      ({ claimed with dirty := true }, .ok ())

def putMany (s : Store) (rows : List (B256 × Bytes)) : Store × Except FlatError Unit :=
  if rows.isEmpty then (s, .ok ())
  else
    match s.growFor keys rows.length 32 with
    | (s', .error e) => (s', .error e)
    | (s', .ok ()) => s'.putManyGrown keys rows

variable {keys verify} {s s' : Store} {key : B256}

lemma home_lt (s : Store) (key : B256) : s.home keys key < s.table.capacity :=
  Nat.mod_lt _ s.table.capacity_pos

/-- The `j`-th slot of a key's probe. -/
def probeSlot (keys : Keys) (s : Store) (key : B256) (j : Nat) : Nat :=
  s.table.slot (cell s.table.capacity (s.home keys key) j)

def Holds (keys : Keys) (s : Store) (key : B256) (slot : Nat) : Prop :=
  ∃ record, s.resolve slot = some record ∧ keyOf keys record = key ∧
    keys.computeKey record.data = key

def Found (keys : Keys) (s : Store) (key : B256) : Prop :=
  ∃ j < s.table.capacity, (∀ j' < j, probeSlot keys s key j' ≠ 0) ∧
    Holds keys s key (probeSlot keys s key j)

def Honest (keys : Keys) (s : Store) : Prop :=
  ∀ i < s.table.capacity, ∀ record, s.resolve (s.table.slot i) = some record →
    keys.computeKey record.data = keyOf keys record

lemma getWithin_eq_none_forever (h : s.get keys verify key = none) (fuel : Nat) :
  s.getWithin keys verify fuel key = none :=
  probe_eq_none_forever (s.home_lt key) h fuel

variable {i : Nat}

lemma get_ends (hi : i < s.table.capacity) (hempty : s.table.slot i = 0) (key : B256) :
  s.get keys verify key ≠ none := by
  obtain ⟨outcome, houtcome⟩ := probe_isSome_of_decides (@home_lt keys s key) hi
    (show s.getAt keys verify key i ≠ none by simp [getAt, hempty])
  simp [get, getWithin, houtcome]

/-- What is returned hashes to the key: long records are checked, or none that a slot resolves to
is about another key. -/
lemma get_sound (hs : verify = true ∨ Honest keys s) {data : Bytes}
  (h : s.get keys verify key = some (some data)) : keys.computeKey data = key := by
  obtain ⟨j, -, hj, -⟩ := (probe_eq_some_iff (s.home_lt key)).mp h
  have hcell := cell_lt s.table.capacity_pos (s.home keys key) j
  unfold getAt at hj
  split at hj
  · simp at hj
  split at hj
  · rename_i record hrecord
    split at hj
    · rename_i hmatch
      obtain rfl : record.data = data := by simpa using hj
      rcases hs with rfl | hs
      · obtain ⟨hkey, hintact⟩ := hmatch
        cases hstored : record.key with
        | none => rwa [keyOf, hstored] at hkey
        | some _ => simpa [longRecordIsIntact, hstored] using hintact
      · rw [hs _ hcell record hrecord, hmatch.1]
    · cases hj
  · cases hj

/-- **Lookup.** A key that is reached is returned. -/
theorem get_of_found (hs : verify = true ∨ Honest keys s) (h : Found keys s key) :
  ∃ data, s.get keys verify key = some (some data) ∧ keys.computeKey data = key := by
  obtain ⟨j, hj, hchain, record, hrecord, hkey, hhash⟩ := h
  have hcell := cell_lt s.table.capacity_pos (s.home keys key) j
  have hslot : probeSlot keys s key j ≠ 0 := fun h => by simp [resolve, h] at hrecord
  have hhit : s.getAt keys verify key (cell s.table.capacity (s.home keys key) j) ≠ none := by
    have hintact : longRecordIsIntact keys verify record key = true := by
      simp [longRecordIsIntact, hhash]
    unfold probeSlot at hslot hrecord
    simp [getAt, hslot, hrecord, hkey, hintact]
  obtain ⟨outcome, houtcome⟩ := probe_isSome_of_decides (@home_lt keys s key) hcell hhit
  obtain ⟨j₀, hj₀, hdecide, hbefore⟩ := (probe_eq_some_iff (s.home_lt key)).mp houtcome
  -- the first slot that ends the probe is not past the record, so it is not an empty one
  have hle : j₀ ≤ j := by
    by_contra hlt
    exact hhit (hbefore j (by omega))
  rcases outcome with _ | data
  · exfalso
    have hempty : probeSlot keys s key j₀ = 0 := by
      unfold getAt at hdecide
      split at hdecide
      · assumption
      split at hdecide
      · split at hdecide <;> simp at hdecide
      · cases hdecide
    rcases Nat.lt_or_eq_of_le hle with hlt | rfl
    · exact hchain j₀ hlt hempty
    · exact hslot hempty
  · exact ⟨data, houtcome, get_sound hs houtcome⟩

structure Extends (s s' : Store) : Prop where
  bits : s'.table.bits = s.table.bits
  segmentSize : s'.heap.segmentSize = s.heap.segmentSize
  grows : s.heap.bytes <+: s'.heap.bytes
  occupied : ∀ i, s.table.slot i ≠ 0 → s'.table.slot i ≠ 0
  live : ∀ i record, s.resolve (s.table.slot i) = some record →
    s'.table.slot i = s.table.slot i

lemma Extends.capacity (h : Extends s s') : s'.table.capacity = s.table.capacity := by
  simp [Table.capacity, h.bits]

lemma resolve_mono (hsegment : s'.heap.segmentSize = s.heap.segmentSize)
  (hgrows : s.heap.bytes <+: s'.heap.bytes) {slot : Nat} {record : Record}
  (h : s.resolve slot = some record) : s'.resolve slot = some record := by
  unfold resolve at h ⊢
  split at h
  · cases h
  rename_i hslot
  rw [if_neg hslot]
  exact Heap.withRecord_of_prefix hsegment hgrows h

lemma Extends.refl (s : Store) : Extends s s :=
  ⟨rfl, rfl, prefix_refl _, fun _ h => h, fun _ _ _ => rfl⟩

lemma Extends.trans {s₁ s₂ s₃ : Store} (h₁ : Extends s₁ s₂) (h₂ : Extends s₂ s₃) :
  Extends s₁ s₃ where
  bits := h₂.bits.trans h₁.bits
  segmentSize := h₂.segmentSize.trans h₁.segmentSize
  grows := h₁.grows.trans h₂.grows
  occupied i h := h₂.occupied i (h₁.occupied i h)
  live i record h := by
    have hsame := h₁.live i record h
    rw [h₂.live i record (by rw [hsame]; exact resolve_mono h₁.segmentSize h₁.grows h), hsame]

lemma Found.mono (h : Found keys s key) (hext : Extends s s') : Found keys s' key := by
  obtain ⟨j, hj, hchain, record, hrecord, hkey, hhash⟩ := h
  have hprobe : ∀ j, probeSlot keys s' key j =
      s'.table.slot (cell s.table.capacity (s.home keys key) j) := fun j => by
    simp only [probeSlot, home, hext.capacity]
  refine ⟨j, by rw [hext.capacity]; exact hj, fun j' hj' => ?_, record, ?_, hkey, hhash⟩
  · rw [hprobe]
    exact hext.occupied _ (hchain j' hj')
  rw [hprobe, hext.live _ record hrecord]
  exact resolve_mono hext.segmentSize hext.grows hrecord

lemma extends_set {i value size : Nat} {dirty : Bool} (hvalue : value ≠ 0)
  (hdead : s.resolve (s.table.slot i) = none) :
  Extends s { s with table := s.table.set i value, size, dirty } where
  bits := rfl
  segmentSize := rfl
  grows := prefix_refl _
  occupied j hj := Table.slot_set_ne_zero hvalue hj
  live j record hrecord := by
    have hij : i ≠ j := by
      rintro rfl
      rw [hdead] at hrecord
      cases hrecord
    exact Table.slot_set_ne hij value

lemma holds_eq_true_iff : s.holds keys key i = true ↔
    ∃ record, s.resolve (s.table.slot i) = some record ∧ keyOf keys record = key := by
  unfold holds
  split
  · rename_i record hrecord
    simp [hrecord]
  rename_i hrecord
  simp [hrecord]

lemma vacancy_eq_empty (h : s.vacancy keys key = some (some i)) :
  ∃ j < s.table.capacity, cell s.table.capacity (s.home keys key) j = i ∧
    s.table.slot i = 0 ∧ ∀ j' < j, probeSlot keys s key j' ≠ 0 := by
  obtain ⟨j, hj, hdecide, hbefore⟩ := (probe_eq_some_iff (s.home_lt key)).mp h
  have hslot : probeSlot keys s key j = 0 ∧ cell s.table.capacity (s.home keys key) j = i := by
    unfold vacancyAt at hdecide
    split at hdecide
    · rename_i hempty
      exact ⟨hempty, by simpa using hdecide⟩
    · split at hdecide <;> simp at hdecide
  refine ⟨j, hj, hslot.2, hslot.2 ▸ hslot.1, fun j' hj' hempty => ?_⟩
  have hnone := hbefore j' hj'
  unfold vacancyAt probeSlot at *
  simp [hempty] at hnone

lemma vacancy_eq_held (hs : Honest keys s) (h : s.vacancy keys key = some none) :
  Found keys s key := by
  obtain ⟨j, hj, hdecide, hbefore⟩ := (probe_eq_some_iff (s.home_lt key)).mp h
  have hheld : s.holds keys key (cell s.table.capacity (s.home keys key) j) = true := by
    unfold vacancyAt at hdecide
    split at hdecide
    · simp at hdecide
    split at hdecide
    · assumption
    · cases hdecide
  obtain ⟨record, hrecord, hkey⟩ := holds_eq_true_iff.mp hheld
  refine ⟨j, hj, fun j' hj' hempty => ?_, record, hrecord, hkey, ?_⟩
  · have hnone := hbefore j' hj'
    unfold vacancyAt probeSlot at *
    simp [hempty] at hnone
  · rw [hs _ (cell_lt s.table.capacity_pos _ j) record hrecord, hkey]

lemma found_of_set {i j offset size : Nat} {dirty : Bool} (hj : j < s.table.capacity)
  (hcell : cell s.table.capacity (s.home keys key) j = i)
  (hchain : ∀ j' < j, probeSlot keys s key j' ≠ 0) (hheld : Holds keys s key (offset + 1)) :
  Found keys { s with table := s.table.set i (offset + 1), size, dirty } key := by
  have hi : i < s.table.capacity := hcell ▸ cell_lt s.table.capacity_pos _ j
  refine ⟨j, hj, fun j' hj' => ?_, ?_⟩
  · unfold probeSlot home
    simp only [Table.capacity_set]
    by_cases heq : i = cell s.table.capacity (keys.hash key % s.table.capacity) j'
    · rw [← heq, Table.slot_set_self hi]
      omega
    rw [Table.slot_set_ne heq]
    exact hchain j' hj'
  unfold probeSlot home
  simp only [Table.capacity_set]
  rw [show cell s.table.capacity (keys.hash key % s.table.capacity) j = i from hcell,
    Table.slot_set_self hi]
  exact hheld

lemma claimSlot_extends (s : Store) (claim : B256 × Nat) : Extends s (s.claimSlot keys claim) := by
  unfold claimSlot
  split
  · rename_i i hvacancy
    obtain ⟨-, -, -, hempty, -⟩ := vacancy_eq_empty hvacancy
    exact extends_set (Nat.succ_ne_zero _) (by simp [resolve, hempty])
  · exact Extends.refl s

def empties (s : Store) : Nat := s.table.slots.count 0

lemma exists_empty (h : 0 < s.empties) : ∃ i < s.table.capacity, s.table.slot i = 0 := by
  obtain ⟨i, hi, hslot⟩ := mem_iff_getElem.mp (count_pos_iff.mp h)
  refine ⟨i, by rw [Table.capacity, ← s.table.length_eq]; exact hi, ?_⟩
  simp [Table.slot, hi, hslot]

lemma count_le_count_set (l : List Nat) (i value : Nat) :
  l.count 0 ≤ (l.set i value).count 0 + 1 := by
  induction l generalizing i with
  | nil => simp
  | cons a l ih =>
    cases i with
    | zero =>
      simp only [set_cons_zero, count_cons]
      split <;> split <;> omega
    | succ i =>
      have := ih i
      simp only [set_cons_succ, count_cons]
      omega

lemma empties_claimSlot (s : Store) (claim : B256 × Nat) :
  s.empties ≤ (s.claimSlot keys claim).empties + 1 := by
  unfold claimSlot
  split
  · exact count_le_count_set ..
  · exact Nat.le_succ _

lemma claims_extends (s : Store) (claims : List (B256 × Nat)) :
  Extends s (claims.foldl (claimSlot keys) s) := by
  induction claims generalizing s with
  | nil => exact Extends.refl s
  | cons claim rest ih => exact (claimSlot_extends s claim).trans (ih _)

lemma rehash_room {fresh : Store} (h : fresh.table.capacity ≤ fresh.empties + fresh.size)
  (s : Store) (slot : Nat) : (s.rehash keys fresh slot).table.capacity ≤
    (s.rehash keys fresh slot).empties + (s.rehash keys fresh slot).size := by
  unfold rehash
  split
  · exact h
  split
  · rename_i i _
    have hcount := count_le_count_set fresh.table.slots i slot
    simp only [empties, Table.capacity_set] at h ⊢
    simp only [Table.set]
    omega
  · exact h

lemma rehash_kept (s fresh : Store) (slot : Nat) :
  (s.rehash keys fresh slot).table.bits = fresh.table.bits ∧
    (s.rehash keys fresh slot).dirty = fresh.dirty ∧
    (s.rehash keys fresh slot).size ≤ fresh.size + 1 := by
  unfold rehash
  split
  · exact ⟨rfl, rfl, Nat.le_succ _⟩
  split
  · exact ⟨rfl, rfl, le_rfl⟩
  · exact ⟨rfl, rfl, Nat.le_succ _⟩

lemma rehashAll_kept (s fresh : Store) (slots : List Nat)
  (h : fresh.table.capacity ≤ fresh.empties + fresh.size) :
  let grown := slots.foldl (s.rehash keys) fresh
  grown.table.bits = fresh.table.bits ∧ grown.dirty = fresh.dirty ∧
    grown.size ≤ fresh.size + slots.length ∧
    grown.table.capacity ≤ grown.empties + grown.size := by
  induction slots generalizing fresh with
  | nil => exact ⟨rfl, rfl, le_rfl, h⟩
  | cons slot rest ih =>
    obtain ⟨hbits, hdirty, hsize⟩ := @rehash_kept keys s fresh slot
    obtain ⟨hbits', hdirty', hsize', hroom'⟩ := ih (s.rehash keys fresh slot) (rehash_room h s slot)
    refine ⟨hbits'.trans hbits, hdirty'.trans hdirty, ?_, hroom'⟩
    rw [foldl_cons, length_cons]
    omega

lemma grow_eq_ok (h : s.grow keys = .ok s') : s' = s.table.slots.foldl (s.rehash keys)
    { s with table := .empty (s.table.bits + 1), size := 0, dirty := true } := by
  unfold grow at h
  split at h
  · cases h
  · exact (Except.ok.inj h).symm

lemma emptied_room (s : Store) (bits : Nat) : (Table.empty bits).capacity ≤
    empties { s with table := .empty bits, size := 0, dirty := true } + 0 := by
  simp [empties, Table.empty, Table.capacity]

lemma grow_kept (h : s.grow keys = .ok s') :
  s'.table.bits = s.table.bits + 1 ∧ s'.dirty = true ∧ s'.size ≤ s.table.capacity ∧
    s'.table.capacity ≤ s'.empties + s'.size := by
  obtain ⟨hbits, hdirty, hsize, hroom⟩ := @rehashAll_kept keys s
    { s with table := .empty (s.table.bits + 1), size := 0, dirty := true } s.table.slots
    (emptied_room s _)
  rw [s.table.length_eq, Nat.zero_add] at hsize
  rw [grow_eq_ok h]
  exact ⟨hbits, hdirty, hsize, hroom⟩

variable {fresh : Store} {done : List Nat}

lemma slot_mem (hi : i < s.table.capacity) : s.table.slot i ∈ s.table.slots := by
  have hlt : i < s.table.slots.length := by rw [s.table.length_eq]; exact hi
  simp [Table.slot, hlt]

end Store

end FlatDb

end Rustock
