import Rustock.Core.Block
import Mathlib.Logic.Function.Basic

/-!
# The block store

The column families the node keeps its chain in (crates/storage/src/lib.rs) and the moves
of its position on it (crates/storage/src/position.rs).

Reads and writes of the database itself do not fail in the model, and there is no
freezer.
-/

namespace Rustock

open Lib

abbrev Body := List Transaction × List Header

structure BlockStore where
  headers : B256 → Option Header
  totalDifficulty : B256 → Option U256
  numbers : UInt64 → Option B256
  bodies : B256 → Option Body
  head : Option B256
  execHead : Option (B256 × B256)
  pruneFloor : Option UInt64

/-- A block by height and hash. -/
structure BlockRef where
  number : UInt64
  hash : B256
deriving DecidableEq

/-- Where a lineage stops holding. -/
inductive LineageBreak where
  | missingHeader (at_ : UInt64) (hash : B256)
  | parentMismatch (at_ : UInt64) (holds parentOfChild : B256)
deriving DecidableEq

/-- Refusals of `apply` and of the cursor it reads. -/
inductive StoreError where
  | headNotStored (hash : B256)
  | execHeadNotStored (hash : B256)
  | noRollbackTarget (number : UInt64)
  | rollbackTargetNotStored (hash : B256)
  | tooManyAbove (top : UInt64)
  | positionUnreadable
deriving DecidableEq

/-- A proved block and the canonical entries it needs, ascending. -/
structure Validated where
  tip : BlockRef
  lineage : List (UInt64 × B256)

structure Cursor where
  validatedHead : BlockRef
  executed : BlockRef
  stateRoot : B256

namespace BlockStore

/-- A block's own difficulty and its uncles', when they are known. -/
def cumulativeDifficulty (s : BlockStore) (hash : B256) (header : Header) : Option U256 :=
  if header.uncleCount = 0 then some header.difficulty
  else
    (s.bodies hash).map fun body =>
      body.2.foldl (fun total uncle => U256.saturatingAdd total uncle.difficulty)
        header.difficulty

def cursor (s : BlockStore) : Except StoreError (Option Cursor) :=
  match s.head with
  | none => .ok none
  | some headHash =>
    match s.headers headHash with
    | none => .error (.headNotStored headHash)
    | some head =>
      let (execHash, stateRoot) := s.execHead.getD (headHash, .zero 32)
      match s.headers execHash with
      | none => .error (.execHeadNotStored execHash)
      | some exec => .ok (some ⟨⟨head.number, headHash⟩, ⟨exec.number, execHash⟩, stateRoot⟩)

end BlockStore

namespace Validated

/-- The loop of position.rs:140–176. The first argument is the height of `header`, which
every turn of the loop lowers by one. -/
def walk (s : BlockStore) (floor : UInt64) :
  Nat → B256 → Header → List (UInt64 × B256) → Except LineageBreak (List (UInt64 × B256))
  | height, hash, header, lineage =>
    let n := header.number
    let alreadyCanonical := s.numbers n = some hash
    let lineage := if alreadyCanonical then lineage else (n, hash) :: lineage
    if n = 0 ∨ n ≤ floor ∨ n - 1 < floor then .ok lineage
    else if alreadyCanonical ∧ s.numbers (n - 1) = some header.parentHash then .ok lineage
    else
      match s.headers header.parentHash with
      | none => .error (.missingHeader (n - 1) header.parentHash)
      | some parent =>
        if parent.number + 1 ≠ n then
          .error (.parentMismatch parent.number header.parentHash hash)
        else
          match height with
          | 0 => .ok lineage
          | height + 1 => walk s floor height header.parentHash parent lineage

def prove (s : BlockStore) (hash : B256) : Except LineageBreak Validated :=
  match s.headers hash with
  | none => .error (.missingHeader 0xFFFFFFFFFFFFFFFF hash)
  | some header =>
    (walk s (s.pruneFloor.getD 0) header.number.toNat hash header []).map fun lineage =>
      ⟨⟨header.number, hash⟩, lineage⟩

end Validated

namespace BlockStore

def writeLineage (numbers : UInt64 → Option B256) (lineage : List (UInt64 × B256)) :
  UInt64 → Option B256 :=
  lineage.foldl (fun m entry => Function.update m entry.1 (some entry.2)) numbers

/-- The heights above `top` whose entries go, walking up while there are any; more than 100,000 are
refused. -/
def dropAbove (numbers : UInt64 → Option B256) : Nat → UInt64 → Option (List UInt64)
  | 0, _ => none
  | fuel + 1, n =>
    match numbers n with
    | some _ => (dropAbove numbers fuel (n + 1)).map (n :: ·)
    | none => some []

variable (s : BlockStore)

/-- Where execution stands once the head is `newHead`. -/
def executionAfterReorg (before : Option Cursor) (newHead : Validated) :
  Except StoreError (Option (B256 × B256)) :=
  match before with
  | none => .ok s.execHead
  | some before =>
    let canonicalAt (n : UInt64) : Option B256 :=
      ((newHead.lineage.find? fun e => e.1 = n).map Prod.snd).orElse fun _ => s.numbers n
    let orphaned := canonicalAt before.executed.number ≠ some before.executed.hash
    let aboveHead := before.executed.number > newHead.tip.number
    if ¬ orphaned ∧ ¬ aboveHead then .ok s.execHead
    else
      let targetNumber := match newHead.lineage.head? with
        | some (n, _) => min (saturatingSub64 n 1) newHead.tip.number
        | none => newHead.tip.number
      match canonicalAt targetNumber with
      | none => .error (.noRollbackTarget targetNumber)
      | some targetHash =>
        match s.headers targetHash with
        | none => .error (.rollbackTargetNotStored targetHash)
        | some target => .ok (some (targetHash, target.stateRoot))

/-- `Transition::Adopt` and `Transition::Retreat`, which write the same. -/
def apply (newHead : Validated) : Except StoreError BlockStore := do
  let before ← s.cursor
  let some drop := dropAbove s.numbers 100000 (newHead.tip.number + 1)
    | .error (.tooManyAbove newHead.tip.number)
  let execHead ← s.executionAfterReorg before newHead
  let numbers := drop.foldl (fun m n => Function.update m n none)
    (writeLineage s.numbers newHead.lineage)
  let after := { s with numbers, head := some newHead.tip.hash, execHead }
  match ← after.cursor with
  | some _ => .ok after
  | none => .error .positionUnreadable

/-- Canonical entries below `hash` down to the fork point, at most a thousand, all decided on the
index as it was. -/
def canonicalLineage (s : BlockStore) : Nat → B256 → List (UInt64 × B256)
  | 0, _ => []
  | fuel + 1, hash =>
    match s.headers hash with
    | none => []
    | some header =>
      let alreadyCanonical := s.numbers header.number = some hash
      let entry := if alreadyCanonical then [] else [(header.number, hash)]
      if header.number = 0 ∨
          (alreadyCanonical ∧ s.numbers (header.number - 1) = some header.parentHash) then entry
      else entry ++ canonicalLineage s fuel header.parentHash

/-- The head moves even where the lineage has a hole. -/
def updateCanonicalChain (newHead : B256) : BlockStore :=
  { s with
    numbers := writeLineage s.numbers (s.canonicalLineage 1000 newHead)
    head := some newHead }

def moveHeadTo (newHead : B256) : BlockStore × Except StoreError Unit :=
  match Validated.prove s newHead with
  | .error _ => (s.updateCanonicalChain newHead, .ok ())
  | .ok proved =>
    match s.apply proved with
    | .ok after => (after, .ok ())
    | .error e => (s, .error e)

variable (current : ActivationHeights)

def putHeader (s : BlockStore) (entry : Header × U256) : BlockStore :=
  { s with
    headers := Function.update s.headers (entry.1.hash current) (some entry.1.stored)
    totalDifficulty := Function.update s.totalDifficulty (entry.1.hash current) (some entry.2) }

def bestOf (start : Option B256 × U256) (entries : List (Header × U256)) : Option B256 × U256 :=
  entries.foldl (fun best entry =>
    if entry.2 > best.2 then (some (entry.1.hash current), entry.2) else best) start

def storeHeadersBatch (s : BlockStore) (entries : List (Header × U256)) (currentHead : Option B256)
  (currentTd : U256) : BlockStore × Except StoreError (Option B256) :=
  if entries.isEmpty then (s, .ok currentHead)
  else
    let written := entries.foldl (putHeader current) s
    let best := (bestOf current (currentHead, currentTd) entries).1
    match best with
    | some newHead =>
      if best = currentHead then (written, .ok best)
      else
        let (moved, outcome) := written.moveHeadTo newHead
        (moved, outcome.map fun _ => best)
    | none => (written, .ok best)

/-- Everything a move of the head does: headers, difficulties and bodies stay, and the
head either stays or becomes the block moved to. -/
structure HeadMove (s t : BlockStore) (newHead : B256) : Prop where
  headers : t.headers = s.headers
  totalDifficulty : t.totalDifficulty = s.totalDifficulty
  bodies : t.bodies = s.bodies
  head : t.head = s.head ∨ t.head = some newHead

variable {v : Validated}

lemma Validated.tip_hash_of_prove {s : BlockStore} {hash : B256}
  (h : Validated.prove s hash = .ok v) : v.tip.hash = hash := by
  unfold Validated.prove at h
  rcases hheader : s.headers hash with _ | header
  · simp [hheader] at h
  rw [hheader] at h
  cases hwalk : Validated.walk s (s.pruneFloor.getD 0) header.number.toNat hash header []
  · simp [hwalk, Except.map] at h
  simp [hwalk, Except.map] at h
  rw [← h]

lemma apply_headMove {s t : BlockStore} (h : s.apply v = .ok t) : HeadMove s t v.tip.hash := by
  unfold apply at h
  simp only [bind, Except.bind] at h
  split at h
  · simp at h
  split at h
  · split at h
    · simp at h
    split at h
    · simp at h
    split at h
    · obtain rfl := Except.ok.inj h
      exact ⟨rfl, rfl, rfl, .inr rfl⟩
    · simp at h
  · simp at h

lemma moveHeadTo_headMove (newHead : B256) : HeadMove s (s.moveHeadTo newHead).1 newHead := by
  unfold moveHeadTo
  split
  · exact ⟨rfl, rfl, rfl, .inr rfl⟩
  rename_i proved hproved
  split
  · rename_i after hafter
    have hmove := apply_headMove hafter
    rwa [Validated.tip_hash_of_prove hproved] at hmove
  · exact ⟨rfl, rfl, rfl, .inl rfl⟩

end BlockStore

end Rustock
