import Rustock.Storage.BlockStore
import Mathlib

/-!
# Ingesting headers

`SyncManager::ingest_headers` (crates/sync/src/manager.rs), the path every header
a peer sends takes into the store. A batch is put in ascending order and walked once:

- `resolveParent` names the parent — the previous header of the chunk when its hash is the
  one the header names, else the stored header of that hash;
- `ingestStep` adds the header's contribution to its parent's total difficulty, verifies
  it unless its hash is already stored, and records it for the batch write.

A header that fails verification is not recorded, but **does** become the previous one.
-/

namespace Rustock

open Lib Option

structure IngestEnv where
  /-- Process-wide activation heights, which decide what a block hash covers. -/
  current : ActivationHeights
  config : ChainConfig
  clock : Option UInt64
  /-- Cumulative difficulties noted for headers that came with their uncles. -/
  proven : B256 → Option U256

/-- The loop's variables. -/
structure IngestLoop where
  prevInChunk : Option (Header × U256)
  validated : List (Header × U256)
  seen : List B256
  skipped : Nat
  unlinked : Nat

/-- manager.rs: what a batch came to. -/
structure Ingested where
  stored : Nat
  rejected : Nat
  unlinked : Nat
deriving DecidableEq

namespace IngestEnv

variable (env : IngestEnv)

def verify (header : Header) (parent : Option Header) : Verdict :=
  (HeaderVerifier.defaultRsk env.config env.clock).verify header parent

/-- Proved with the header, read from a held body, or the header's own difficulty. -/
def contribution (s : BlockStore) (header : Header) : U256 :=
  ((env.proven (header.hash env.current)).orElse fun _ =>
    s.cumulativeDifficulty (header.hash env.current) header).getD header.difficulty

/-- The parent and the total difficulty to build on, from the store alone. `none` is a
header that links to nothing held. -/
def parentFromStore (s : BlockStore) (header : Header) : Option (Option Header × U256) :=
  match s.headers header.parentHash with
  | some parent => some (some parent, (s.totalDifficulty header.parentHash).getD 0)
  | none =>
    if (s.headers (header.hash env.current)).isSome then
      some (none, U256.saturatingSub
        ((s.totalDifficulty (header.hash env.current)).getD 0) header.difficulty)
    else none

def resolveParent (s : BlockStore) (prev : Option (Header × U256)) (header : Header) :
  Option (Option Header × U256) :=
  match prev with
  | some (prevHeader, prevTd) =>
    if prevHeader.hash env.current = header.parentHash then some (some prevHeader, prevTd)
    else env.parentFromStore s header
  | none => env.parentFromStore s header

/-- One turn of the loop. -/
def ingestStep (s : BlockStore) (st : IngestLoop) (header : Header) : IngestLoop :=
  let hash := header.hash env.current
  if hash ∈ st.seen then st
  else
    let st := { st with seen := hash :: st.seen }
    match env.resolveParent s st.prevInChunk header with
    | none => { st with unlinked := st.unlinked + 1 }
    | some (parent, parentTd) =>
      let newTd := parentTd + env.contribution s header
      let alreadyStored := (s.headers hash).isSome
      if ¬ alreadyStored ∧ parent.isSome ∧ env.verify header parent ≠ .ok () then
        { st with skipped := st.skipped + 1, prevInChunk := some (header, newTd) }
      else
        { st with
          prevInChunk := some (header, newTd)
          validated := st.validated ++ [(header, newTd)] }

def initialLoop : IngestLoop := ⟨none, [], [], 0, 0⟩

def ascending (headers : List Header) : List Header :=
  match headers.head?, headers.getLast? with
  | some first, some last => if first.number > last.number then headers.reverse else headers
  | _, _ => headers

def ingestLoop (s : BlockStore) (headers : List Header) : IngestLoop :=
  (ascending headers).foldl (env.ingestStep s) initialLoop

def ingestHeaders (s : BlockStore) (headers : List Header) :
  BlockStore × Except StoreError Ingested :=
  if headers.isEmpty then (s, .ok ⟨0, 0, 0⟩)
  else
    let currentTd := (s.head.bind s.totalDifficulty).getD 0
    let st := env.ingestLoop s headers
    let (after, outcome) := s.storeHeadersBatch env.current st.validated s.head currentTd
    (after, outcome.map fun _ => ⟨st.validated.length, st.skipped, st.unlinked⟩)

inductive ParentSource (s : BlockStore) (st : IngestLoop) (header : Header) :
  Option Header → U256 → Prop where
  | chunk {prev : Header} {td : U256} :
      st.prevInChunk = some (prev, td) → prev.hash env.current = header.parentHash →
      ParentSource s st header (some prev) td
  | store {parent : Header} :
      s.headers header.parentHash = some parent →
      ParentSource s st header (some parent) ((s.totalDifficulty header.parentHash).getD 0)
  | held {stored : Header} :
      s.headers header.parentHash = none →
      s.headers (header.hash env.current) = some stored →
      ParentSource s st header none (U256.saturatingSub
        ((s.totalDifficulty (header.hash env.current)).getD 0) header.difficulty)

variable {env} {s : BlockStore} {st : IngestLoop} {header : Header} {td : U256}

lemma resolveParent_source {parent : Option Header}
  (h : env.resolveParent s st.prevInChunk header = some (parent, td)) :
  env.ParentSource s st header parent td := by
  have hstore : env.parentFromStore s header = some (parent, td) →
      env.ParentSource s st header parent td := by
    intro h
    unfold parentFromStore at h
    split at h
    · rename_i p hp
      obtain ⟨rfl, rfl⟩ := Prod.mk.inj (some.inj h)
      exact .store hp
    rename_i hnone
    split at h
    · rename_i hheld
      obtain ⟨stored, hstored⟩ := isSome_iff_exists.mp hheld
      obtain ⟨rfl, rfl⟩ := Prod.mk.inj (some.inj h)
      exact .held hnone hstored
    · simp at h
  unfold resolveParent at h
  split at h
  · rename_i prevHeader prevTd hprev
    split at h
    · rename_i hhash
      obtain ⟨rfl, rfl⟩ := Prod.mk.inj (some.inj h)
      exact .chunk hprev hhash
    · exact hstore h
  · exact hstore h

inductive StepCases (env : IngestEnv) (s : BlockStore) (st : IngestLoop) (header : Header)
  (st' : IngestLoop) : Prop where
  /-- The hash was seen before in this batch. -/
  | duplicate : st' = st → StepCases env s st header st'
  /-- Nothing held to link to. -/
  | unlinked : st'.prevInChunk = st.prevInChunk → st'.validated = st.validated →
      StepCases env s st header st'
  /-- The parent is known and the header fails against it. -/
  | rejected {parent : Header} {td : U256} :
      env.ParentSource s st header (some parent) td →
      s.headers (header.hash env.current) = none → env.verify header (some parent) ≠ .ok () →
      st'.prevInChunk = some (header, td + env.contribution s header) →
      st'.validated = st.validated → StepCases env s st header st'
  /-- The header goes into the batch: its hash was stored already, or it verified. -/
  | accepted {parent : Option Header} {td : U256} :
      header.hash env.current ∉ st.seen →
      env.ParentSource s st header parent td →
      ((s.headers (header.hash env.current)).isSome ∨
        ∃ p, parent = some p ∧ env.verify header (some p) = .ok ()) →
      st'.prevInChunk = some (header, td + env.contribution s header) →
      st'.validated = st.validated ++ [(header, td + env.contribution s header)] →
      StepCases env s st header st'

/-- **Inversion of one turn of the loop.** -/
theorem ingestStep_cases (env : IngestEnv) (s : BlockStore) (st : IngestLoop)
  (header : Header) : env.StepCases s st header (env.ingestStep s st header) := by
  unfold ingestStep
  by_cases hseen : header.hash env.current ∈ st.seen
  · rw [if_pos hseen]
    exact .duplicate rfl
  rw [if_neg hseen]
  rcases hres : env.resolveParent s st.prevInChunk header with _ | ⟨parent, td⟩
  · simp only [hres]
    exact .unlinked rfl rfl
  have hsource := resolveParent_source hres
  simp only [hres]
  split
  · rename_i hreject
    obtain ⟨hnew, hparent, hfail⟩ := hreject
    obtain ⟨p, rfl⟩ := isSome_iff_exists.mp hparent
    exact .rejected hsource (by simpa using hnew) hfail rfl rfl
  rename_i haccept
  refine .accepted hseen hsource ?_ rfl rfl
  -- Not stored yet means that there is a parent, and then the header verified.
  by_cases hstored : (s.headers (header.hash env.current)).isSome
  · exact .inl hstored
  cases hsource with
  | chunk | store =>
    exact .inr ⟨_, rfl, by simpa [hstored] using haccept⟩
  | held _ h => simp [h] at hstored

variable {parent : Header} {hash : B256}

lemma ingestStep_of_rejected (env : IngestEnv) (hhash : header.hash env.current = hash)
  (hseen : hash ∉ st.seen)
  (hparent : env.resolveParent s st.prevInChunk header = some (some parent, td))
  (hnew : s.headers hash = none) (hverify : env.verify header (some parent) ≠ .ok ()) :
  env.ingestStep s st header = { st with
      seen := hash :: st.seen, skipped := st.skipped + 1
      prevInChunk := some (header, td + env.contribution s header) } := by
  unfold ingestStep
  simp [hhash, hseen, hparent, hnew, hverify]

lemma ingestStep_of_verified (env : IngestEnv) (hhash : header.hash env.current = hash)
  (hseen : hash ∉ st.seen)
  (hparent : env.resolveParent s st.prevInChunk header = some (some parent, td))
  (hverify : env.verify header (some parent) = .ok ()) : env.ingestStep s st header = { st with
      seen := hash :: st.seen, prevInChunk := some (header, td + env.contribution s header)
      validated := st.validated ++ [(header, td + env.contribution s header)] } := by
  unfold ingestStep
  simp [hhash, hseen, hparent, hverify]

end IngestEnv

end Rustock
