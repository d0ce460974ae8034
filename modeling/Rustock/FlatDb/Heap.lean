import Rustock.Lib.Bytes
import Mathlib.Data.List.Forall2

/-!
# The heap of FlatDB

Records appended to memory-mapped segments and addressed by a flat byte offset
(crates/flatdb/src/heap.rs).

The heap is the list of bytes below the published frontier, with what its files hold beyond
it. A record that skips the tail of a segment leaves there what was there. Mapping a segment
does not fail in the model.
-/

namespace Rustock

open Lib List

namespace FlatDb

/-- Highest addressable offset. -/
def maxSize : Nat := 2 ^ 48 - 1

/-- A longer value carries its key. -/
def storeKeyThreshold : Nat := 1024

/-- A record as it is read. -/
structure Record where
  key : Option B256
  data : Bytes
  total : Nat
deriving DecidableEq

structure Row where
  key : B256
  data : Bytes
  storeKey : Bool
deriving DecidableEq

inductive HeapError where
  | recordTooLarge (size : Nat)
  | heapTooLarge
deriving DecidableEq

/-- `stale` is what an interrupted flush left beyond the frontier; zeros follow it. -/
structure Heap where
  segmentSize : Nat
  bytes : Bytes
  stale : Bytes
deriving DecidableEq

namespace Row

variable (row : Row)

def lengthFieldSize : Nat :=
  if row.data.length ≤ 127 ∧ ¬ row.storeKey then 1 else 4

def recordSize : Nat :=
  2 + row.lengthFieldSize + (if row.storeKey then 32 else 0) + row.data.length

def lengthField : Bytes :=
  if row.data.length ≤ 127 ∧ ¬ row.storeKey then [UInt8.ofNat row.data.length]
  else
    beBytes 4 (2 ^ 31 ||| (if row.storeKey then 2 ^ 30 else 0) ||| row.data.length % 2 ^ 32)

/-- Magic, length, key if it is stored, data. -/
def encode : Bytes :=
  [0x65, 0x4A] ++ row.lengthField ++ (if row.storeKey then row.key.bytes else []) ++ row.data

def record : Record where
  key := if row.storeKey then some row.key else none
  data := row.data
  total := row.recordSize

lemma length_lengthField : row.lengthField.length = row.lengthFieldSize := by
  unfold lengthField lengthFieldSize
  split
  · rfl
  · exact length_beBytes ..

lemma length_encode : row.encode.length = row.recordSize := by
  unfold encode recordSize
  simp only [length_append, length_lengthField]
  split <;> simp

lemma recordSize_pos : 0 < row.recordSize := by
  unfold recordSize
  omega

lemma length_data_lt : row.data.length < row.recordSize := by
  unfold recordSize lengthFieldSize
  split <;> omega

end Row

/-- The length field at the head of what follows the magic: bytes up to the key, data
length, whether the key is stored, and the rest. -/
def readLength (first : UInt8) (rest : Bytes) : Option (Nat × Nat × Bool × Bytes) :=
  if first &&& 0x80 = 0 then some (3, first.toNat, false, rest)
  else
    match rest with
    | b :: c :: d :: body =>
      let header := beNat [first, b, c, d]
      some (6, header % 2 ^ 30, header.testBit 30, body)
    | _ => none

namespace Heap

def size (h : Heap) : Nat := h.bytes.length

/-- The record at `offset` of the segments, `tail` being the bytes from there to the frontier. A
read beyond the frontier or the segment is a miss whatever is there, so it is not made. -/
def readRecord (segmentSize offset : Nat) (tail : Bytes) : Option Record :=
  match tail with
  | m₀ :: m₁ :: first :: rest =>
    if m₀ ≠ 0x65 ∨ m₁ ≠ 0x4A then none
    else
      match readLength first rest with
      | none => none
      | some (p, dataLength, keyStored, body) =>
        let keyBytes := if keyStored then 32 else 0
        if offset % segmentSize + p + keyBytes + dataLength > segmentSize then none
        else if body.length < keyBytes + dataLength then none
        else some
          { key := if keyStored then some (.ofBytes 32 (body.take 32)) else none
            data := (body.drop keyBytes).take dataLength
            total := p + keyBytes + dataLength }
  | _ => none

def withRecord (h : Heap) (offset : Nat) : Option Record :=
  readRecord h.segmentSize offset (h.bytes.drop offset)

/-- How many of `sizes` fit in `room`, `used` bytes of it being taken. -/
def runCount (room : Nat) : Nat → List Nat → Nat
  | _, [] => 0
  | used, size :: rest =>
    if used + size > room then 0 else runCount room (used + size) rest + 1

/-- Where a run starts and how many records it covers. -/
def reserveRun (h : Heap) (rows : List Row) : Except HeapError (Nat × Nat) :=
  let room := h.segmentSize - h.size % h.segmentSize
  let fits := (rows.head?.map fun row => decide (row.recordSize ≤ room)).getD true
  let start := if fits then h.size else (h.size / h.segmentSize + 1) * h.segmentSize
  let room := if fits then room else h.segmentSize
  let count := runCount room 0 (rows.map Row.recordSize)
  if start + ((rows.take count).map Row.recordSize).sum > maxSize then .error .heapTooLarge
  else .ok (start, count)

/-- What the files hold in the first `n` bytes beyond the frontier. -/
def gap (h : Heap) (n : Nat) : Bytes := (h.stale ++ List.replicate n 0).take n

def writeRun (h : Heap) (start : Nat) (run : List Row) : Heap :=
  let written := h.gap (start - h.size) ++ run.flatMap Row.encode
  { h with bytes := h.bytes ++ written, stale := h.stale.drop written.length }

/-- Offsets of records written one after the other from `start`. -/
def runOffsets : Nat → List Row → List Nat
  | _, [] => []
  | start, row :: rest => start :: runOffsets (start + row.recordSize) rest

/-- The loop of heap.rs:286–319; a run covers at least one record. -/
def appendRuns : Nat → Heap → List Row → Heap × Except HeapError (List Nat)
  | _, h, [] => (h, .ok [])
  | 0, h, _ => (h, .ok [])
  | fuel + 1, h, rows =>
    match h.reserveRun rows with
    | .error e => (h, .error e)
    | .ok (start, count) =>
      let offsets := runOffsets start (rows.take count)
      match appendRuns fuel (h.writeRun start (rows.take count)) (rows.drop count) with
      | (h', .error e) => (h', .error e)
      | (h', .ok rest) => (h', .ok (offsets ++ rest))

def appendMany (h : Heap) (rows : List Row) : Heap × Except HeapError (List Nat) :=
  match rows.find? fun row => row.recordSize > h.segmentSize with
  | some row => (h, .error (.recordTooLarge row.recordSize))
  | none => appendRuns rows.length h rows

/-- Going back to a frontier. -/
def truncate (h : Heap) (frontier : Nat) : Heap :=
  { h with bytes := h.bytes.take frontier, stale := h.bytes.drop frontier ++ h.stale }

lemma length_gap (h : Heap) (n : Nat) : (h.gap n).length = n := by simp [gap]

/-- The bytes before key and data of a record that reads as `dataLength` bytes. -/
def IsHeader (header : Bytes) (dataLength : Nat) (keyStored : Bool) : Prop :=
  (∃ first : UInt8, header = [0x65, 0x4A, first] ∧ first &&& 0x80 = 0 ∧
    dataLength = first.toNat ∧ keyStored = false) ∨
  ∃ a b c d : UInt8, header = [0x65, 0x4A, a, b, c, d] ∧ a &&& 0x80 ≠ 0 ∧
    dataLength = beNat [a, b, c, d] % 2 ^ 30 ∧ keyStored = (beNat [a, b, c, d]).testBit 30

lemma isHeader_of_readLength {first : UInt8} {rest body : Bytes} {p dataLength : Nat}
  {keyStored : Bool} (h : readLength first rest = some (p, dataLength, keyStored, body)) :
  ∃ header, IsHeader header dataLength keyStored ∧ header.length = p ∧
    0x65 :: 0x4A :: first :: rest = header ++ body := by
  unfold readLength at h
  split at h
  · rename_i hshort
    simp only [Option.some.injEq, Prod.mk.injEq] at h
    obtain ⟨rfl, rfl, rfl, rfl⟩ := h
    exact ⟨[0x65, 0x4A, first], .inl ⟨first, rfl, hshort, rfl, rfl⟩, rfl, rfl⟩
  rename_i hlong
  split at h
  · rename_i b c d body'
    simp only [Option.some.injEq, Prod.mk.injEq] at h
    obtain ⟨rfl, rfl, rfl, rfl⟩ := h
    exact ⟨[0x65, 0x4A, first, b, c, d], .inr ⟨first, b, c, d, rfl, hlong, rfl, rfl⟩, rfl, rfl⟩
  · cases h

lemma readRecord_header {header body : Bytes} {dataLength : Nat} {keyStored : Bool}
  (h : IsHeader header dataLength keyStored) (segmentSize offset : Nat) :
  readRecord segmentSize offset (header ++ body) = let keyBytes := if keyStored then 32 else 0
      if offset % segmentSize + header.length + keyBytes + dataLength > segmentSize then none
      else if body.length < keyBytes + dataLength then none
      else some
        { key := if keyStored then some (.ofBytes 32 (body.take 32)) else none
          data := (body.drop keyBytes).take dataLength
          total := header.length + keyBytes + dataLength } := by
  rcases h with ⟨first, rfl, hshort, rfl, rfl⟩ | ⟨a, b, c, d, rfl, hlong, rfl, rfl⟩
  · simp only [readRecord, readLength, hshort, cons_append, nil_append, ne_eq,
      not_true_eq_false, or_self, if_false, if_true, length_cons, length_nil]
  simp only [readRecord, readLength, hlong, cons_append, nil_append, ne_eq,
    not_true_eq_false, or_self, if_false, length_cons, length_nil]

lemma readRecord_eq_some_iff {segmentSize offset : Nat} {tail : Bytes} {r : Record} :
  readRecord segmentSize offset tail = some r ↔
    ∃ header payload rest dataLength keyStored, tail = header ++ (payload ++ rest) ∧
      IsHeader header dataLength keyStored ∧
      payload.length = (if keyStored then 32 else 0) + dataLength ∧
      offset % segmentSize + header.length + payload.length ≤ segmentSize ∧
      r = { key := if keyStored then some (.ofBytes 32 (payload.take 32)) else none
            data := payload.drop (if keyStored then 32 else 0)
            total := header.length + payload.length } := by
  constructor
  · intro h
    obtain ⟨header, body, dataLength, keyStored, rfl, hheader⟩ :
        ∃ header body dataLength keyStored, tail = header ++ body ∧
          IsHeader header dataLength keyStored := by
      unfold readRecord at h
      split at h
      · rename_i m₀ m₁ first rest
        split at h
        · cases h
        rename_i hmagic
        split at h
        · cases h
        rename_i p dataLength keyStored body hlength
        obtain ⟨header, hheader, -, heq⟩ := isHeader_of_readLength hlength
        simp only [ne_eq, not_or, not_not] at hmagic
        exact ⟨header, body, dataLength, keyStored, by rw [hmagic.1, hmagic.2, heq], hheader⟩
      · cases h
    rw [readRecord_header hheader] at h
    simp only at h
    generalize hkeyBytes : (if keyStored then 32 else 0) = keyBytes at h
    by_cases hsegment : offset % segmentSize + header.length + keyBytes + dataLength > segmentSize
    · rw [if_pos hsegment] at h
      cases h
    by_cases hbody : body.length < keyBytes + dataLength
    · rw [if_neg hsegment, if_pos hbody] at h
      cases h
    rw [if_neg hsegment, if_neg hbody] at h
    obtain rfl := Option.some.inj h
    have hlength : (body.take (keyBytes + dataLength)).length = keyBytes + dataLength := by
      rw [length_take]
      omega
    refine ⟨header, body.take (keyBytes + dataLength), body.drop (keyBytes + dataLength),
      dataLength, keyStored, by rw [take_append_drop], hheader, by rw [hkeyBytes, hlength],
      by rw [hlength]; omega, ?_⟩
    rw [hlength, hkeyBytes, Nat.add_assoc, drop_take, Nat.add_sub_cancel_left]
    congr 1
    split
    · rename_i hstored
      rw [if_pos hstored] at hkeyBytes
      rw [take_take, ← hkeyBytes, Nat.min_eq_left (by omega)]
    · rfl
  rintro ⟨header, payload, rest, dataLength, keyStored, rfl, hheader, hlength, hsegment, rfl⟩
  rw [readRecord_header hheader]
  generalize hkeyBytes : (if keyStored then 32 else 0) = keyBytes at *
  simp only
  rw [if_neg (by omega), if_neg (by rw [length_append]; omega)]
  congr 1
  have hdata : ((payload ++ rest).drop keyBytes).take dataLength = payload.drop keyBytes := by
    rw [drop_append_of_le_length (by omega), take_append_of_le_length (by simp; omega),
      take_of_length_le (by simp; omega)]
  rw [hdata, hlength, Nat.add_assoc]
  congr 1
  split
  · rename_i hstored
    rw [if_pos hstored] at hkeyBytes
    rw [take_append_of_le_length (by omega)]
  · rfl

lemma readRecord_local {segmentSize offset : Nat} {tail tail' : Bytes} {r : Record}
  (h : readRecord segmentSize offset tail = some r) (heq : tail'.take r.total = tail.take r.total) :
  readRecord segmentSize offset tail' = some r := by
  obtain ⟨header, payload, rest, dataLength, keyStored, rfl, hheader, hlength, hsegment, rfl⟩ :=
    readRecord_eq_some_iff.mp h
  refine readRecord_eq_some_iff.mpr ⟨header, payload, tail'.drop (header.length + payload.length),
    dataLength, keyStored, ?_, hheader, hlength, hsegment, rfl⟩
  have htake : (header ++ (payload ++ rest)).take (header.length + payload.length) =
      header ++ payload := by
    rw [← append_assoc, take_left' (by simp)]
  rw [← append_assoc, ← htake, ← heq, take_append_drop]

lemma total_le_of_readRecord {segmentSize offset : Nat} {tail : Bytes} {r : Record}
  (h : readRecord segmentSize offset tail = some r) : r.total ≤ tail.length := by
  obtain ⟨header, payload, rest, dataLength, keyStored, rfl, -, -, -, rfl⟩ :=
    readRecord_eq_some_iff.mp h
  simp only [length_append]
  omega

lemma total_pos_of_readRecord {segmentSize offset : Nat} {tail : Bytes} {r : Record}
  (h : readRecord segmentSize offset tail = some r) : 0 < r.total := by
  obtain ⟨header, payload, rest, dataLength, keyStored, rfl, hheader, -, -, rfl⟩ :=
    readRecord_eq_some_iff.mp h
  rcases hheader with ⟨first, rfl, -⟩ | ⟨a, b, c, d, rfl, -⟩ <;> simp

variable {h : Heap} {offset : Nat} {r : Record}

lemma offset_lt_of_withRecord (hr : h.withRecord offset = some r) :
  offset + r.total ≤ h.size ∧ 0 < r.total := by
  have hle := total_le_of_readRecord hr
  have hpos := total_pos_of_readRecord hr
  rw [length_drop] at hle
  exact ⟨by unfold size; omega, hpos⟩

lemma withRecord_append (hr : h.withRecord offset = some r) (more : Bytes) :
  withRecord { h with bytes := h.bytes ++ more } offset = some r := by
  have hlt := offset_lt_of_withRecord hr
  unfold size at hlt
  refine readRecord_local hr ?_
  simp only
  rw [drop_append_of_le_length (by omega), take_append_of_le_length (by simp; omega)]

lemma withRecord_of_prefix {h' : Heap} (hsegment : h'.segmentSize = h.segmentSize)
  (hinitial : h.bytes <+: h'.bytes) (hr : h.withRecord offset = some r) :
  h'.withRecord offset = some r := by
  obtain ⟨more, hmore⟩ := hinitial
  have happend := withRecord_append hr more
  rw [hmore] at happend
  obtain ⟨segmentSize, bytes⟩ := h'
  simp only at hsegment
  subst hsegment
  exact happend

lemma and_0x80_eq_zero_iff (b : UInt8) : b &&& 0x80 = 0 ↔ b.toNat < 128 := by
  have hall : ∀ n < 256, UInt8.ofNat n &&& 0x80 = 0 ↔ n < 128 := by decide +kernel
  simpa using hall b.toNat b.toNat_lt

lemma longField_spec {length : Nat} (hlength : length < 2 ^ 30) (storeKey : Bool) :
  let header := 2 ^ 31 ||| (if storeKey then 2 ^ 30 else 0) ||| length % 2 ^ 32
  2 ^ 31 ≤ header ∧ header < 2 ^ 32 ∧ header % 2 ^ 30 = length ∧
    header.testBit 30 = storeKey := by
  have hmod : length % 2 ^ 32 = length := Nat.mod_eq_of_lt (by omega)
  have hkey : (if storeKey then 2 ^ 30 else 0) < 2 ^ 32 := by split <;> decide
  simp only [hmod]
  refine ⟨?_, ?_, ?_, ?_⟩
  · exact Nat.le_trans Nat.left_le_or Nat.left_le_or
  · exact Nat.or_lt_two_pow (Nat.or_lt_two_pow (by decide) hkey) (by omega)
  · rw [Nat.or_mod_two_pow, Nat.or_mod_two_pow, Nat.mod_eq_of_lt hlength]
    cases storeKey <;> simp
  rw [Nat.testBit_or, Nat.testBit_or, Nat.testBit_lt_two_pow hlength]
  cases storeKey <;> decide

lemma isHeader_row {row : Row} (hlength : row.data.length < 2 ^ 30) :
  IsHeader ([0x65, 0x4A] ++ row.lengthField) row.data.length row.storeKey := by
  unfold Row.lengthField
  split
  · rename_i hshort
    have htoNat : (UInt8.ofNat row.data.length).toNat = row.data.length := by
      rw [UInt8.toNat_ofNat']
      omega
    refine .inl ⟨UInt8.ofNat row.data.length, rfl, ?_, htoNat.symm, by simpa using hshort.2⟩
    rw [and_0x80_eq_zero_iff, htoNat]
    omega
  obtain ⟨hlow, hhigh, hmod, hbit⟩ := longField_spec hlength row.storeKey
  generalize 2 ^ 31 ||| (if row.storeKey then 2 ^ 30 else 0) ||| row.data.length % 2 ^ 32 =
    header at hlow hhigh hmod hbit
  have hbytes : beBytes 4 header = [UInt8.ofNat (header / 256 / 256 / 256),
      UInt8.ofNat (header / 256 / 256), UInt8.ofNat (header / 256), UInt8.ofNat header] := rfl
  have hvalue : beNat (beBytes 4 header) = header := by
    rw [beNat_beBytes, Nat.mod_eq_of_lt (by omega)]
  rw [hbytes] at hvalue
  refine .inr ⟨_, _, _, _, by rw [hbytes]; rfl, ?_, by rw [hvalue, hmod], by rw [hvalue, hbit]⟩
  rw [Ne, and_0x80_eq_zero_iff, UInt8.toNat_ofNat']
  omega

/-- **Round trip.** A record inside a segment reads back. -/
theorem readRecord_encode {row : Row} {segmentSize offset : Nat} {rest : Bytes}
  (hlength : row.data.length < 2 ^ 30)
  (hsegment : offset % segmentSize + row.recordSize ≤ segmentSize) :
  readRecord segmentSize offset (row.encode ++ rest) = some row.record := by
  have hsize := row.length_encode
  refine readRecord_eq_some_iff.mpr ⟨[0x65, 0x4A] ++ row.lengthField,
    (if row.storeKey then row.key.bytes else []) ++ row.data, rest, row.data.length, row.storeKey,
    by simp [Row.encode], isHeader_row hlength, ?_, ?_, ?_⟩
  · split <;> simp
  · simp only [Row.encode, length_append] at hsize ⊢
    omega
  unfold Row.record
  rw [← hsize]
  simp only [Row.encode, length_append]
  cases row.storeKey <;> simp [Nat.add_assoc]

lemma runCount_le {room used : Nat} {sizes : List Nat} (hused : used ≤ room) :
  used + (sizes.take (runCount room used sizes)).sum ≤ room := by
  induction sizes generalizing used with
  | nil => simpa [runCount] using hused
  | cons size rest ih =>
    unfold runCount
    split
    · simpa using hused
    rename_i hfits
    rw [take_succ_cons, sum_cons, ← Nat.add_assoc]
    exact ih (by omega)

lemma reserveRun_spec {h : Heap} {row : Row} {rest : List Row} {start count : Nat}
  (hpos : 0 < h.segmentSize) (hrow : row.recordSize ≤ h.segmentSize)
  (hok : h.reserveRun (row :: rest) = .ok (start, count)) : h.size ≤ start ∧ 0 < count ∧
    start % h.segmentSize + (((row :: rest).take count).map Row.recordSize).sum ≤
      h.segmentSize := by
  unfold reserveRun at hok
  simp only [head?_cons, Option.map_some, Option.getD_some, decide_eq_true_eq] at hok
  have hmod := Nat.mod_lt h.size hpos
  have hdiv := Nat.div_add_mod h.size h.segmentSize
  by_cases hfits : row.recordSize ≤ h.segmentSize - h.size % h.segmentSize
  · simp only [if_pos hfits] at hok
    split at hok
    · cases hok
    obtain ⟨rfl, rfl⟩ := Prod.mk.inj (Except.ok.inj hok)
    refine ⟨le_rfl, ?_, ?_⟩
    · simp [runCount, Nat.not_lt.mpr hfits]
    have := @runCount_le (h.segmentSize - h.size % h.segmentSize) 0
      ((row :: rest).map Row.recordSize) (Nat.zero_le _)
    rw [map_take]
    omega
  simp only [if_neg hfits] at hok
  split at hok
  · cases hok
  obtain ⟨rfl, rfl⟩ := Prod.mk.inj (Except.ok.inj hok)
  refine ⟨?_, ?_, ?_⟩
  · rw [Nat.add_one_mul, Nat.mul_comm]
    omega
  · simp [runCount, Nat.not_lt.mpr hrow]
  have := @runCount_le h.segmentSize 0 ((row :: rest).map Row.recordSize) (Nat.zero_le _)
  rw [map_take, Nat.mul_mod_left]
  omega

lemma runOffsets_read {segmentSize start : Nat} {written after : Bytes} {run : List Row}
  (hstart : written.length = start) (hlength : ∀ row ∈ run, row.data.length < 2 ^ 30)
  (hfits : start % segmentSize + (run.map Row.recordSize).sum ≤ segmentSize) :
  List.Forall₂ (fun row offset => start ≤ offset ∧ readRecord segmentSize offset
        ((written ++ (run.flatMap Row.encode ++ after)).drop offset) = some row.record)
    run (runOffsets start run) := by
  induction run generalizing start written with
  | nil => exact .nil
  | cons row rest ih =>
    have hpos := row.recordSize_pos
    simp only [map_cons, sum_cons] at hfits
    refine .cons ⟨le_rfl, ?_⟩ ?_
    · rw [drop_left' hstart, flatMap_cons, append_assoc]
      exact readRecord_encode (hlength row (mem_cons_self ..)) (by omega)
    have hnext : (start + row.recordSize) % segmentSize + (rest.map Row.recordSize).sum ≤
        segmentSize := by
      have hmod : (start + row.recordSize) % segmentSize ≤
          start % segmentSize + row.recordSize := by
        rw [Nat.add_mod]
        exact Nat.le_trans (Nat.mod_le _ _) (Nat.add_le_add_left (Nat.mod_le _ _) _)
      omega
    have htail := @ih (start + row.recordSize) (written ++ row.encode)
      (by simp [hstart, row.length_encode]) (fun r hr => hlength r (mem_cons_of_mem _ hr))
      hnext
    refine htail.imp fun r offset hr => ⟨by omega, ?_⟩
    rw [flatMap_cons]
    simpa only [append_assoc] using hr.2

/-- What a batch does to the heap: it grows, and every record of the batch reads back at its
offset, which is at or above the old frontier. -/
structure Appended (h : Heap) (rows : List Row) (h' : Heap) (offsets : List Nat) : Prop where
  segmentSize : h'.segmentSize = h.segmentSize
  grows : h.bytes <+: h'.bytes
  reads : List.Forall₂
    (fun row offset => h.size ≤ offset ∧ h'.withRecord offset = some row.record) rows offsets

lemma writeRun_appended {h : Heap} {start : Nat} {run : List Row} (hstart : h.size ≤ start)
  (hlength : ∀ row ∈ run, row.data.length < 2 ^ 30)
  (hfits : start % h.segmentSize + (run.map Row.recordSize).sum ≤ h.segmentSize) :
  Appended h run (h.writeRun start run) (runOffsets start run) := by
  have hread := @runOffsets_read h.segmentSize start
    (h.bytes ++ h.gap (start - h.size)) [] run
    (by simp only [length_append, length_gap]; unfold size at *; omega)
    hlength hfits
  refine ⟨rfl, ⟨_, rfl⟩, hread.imp fun row offset hr => ⟨by omega, ?_⟩⟩
  simpa only [withRecord, writeRun, append_nil, append_assoc] using hr.2

end Heap

end FlatDb

end Rustock
