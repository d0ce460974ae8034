import Mathlib.Logic.Function.Basic
import Rustock.Lib.Bytes
import Rustock.Lib.Run

/-!
# The write-back trie cache (storage/src/cached_trie_store.rs)

Writes wait in a batch, mirrored in a map of pending values, until the batch is written; reads ask
the pending values, a least-recently-used cache and the database in turn.

The column family is there and the database can be read. The count of flushed entries is only
logged and left out.
-/

namespace Rustock

open Lib List Option Function

/-- Without the write-ahead log. -/
structure CacheConfig where
  lruCapacity : Nat
  autoFlushThreshold : Nat

/-- `Inner` and the database behind it. -/
structure CachedTrieStore where
  db : Bytes → Option Bytes
  batch : List (Bytes × Bytes)
  pending : Bytes → Option Bytes
  /-- Most recently used first. -/
  cache : List (Bytes × Bytes)
  pendingCount : Nat

def writeBatch (db : Bytes → Option Bytes) (batch : List (Bytes × Bytes)) : Bytes → Option Bytes :=
  batch.foldl (fun db e => Function.update db e.1 (some e.2)) db

/-- A call; `written` is what a batch write it makes comes to. -/
inductive CacheCall where
  | put (key value : Bytes) (written : Bool)
  | get (key : Bytes)
  | flush (written : Bool)

def CacheCall.Written : CacheCall → Prop
  | .put _ _ written => written = true
  | .get _ => True
  | .flush written => written = true

namespace CachedTrieStore

def new (db : Bytes → Option Bytes) : CachedTrieStore := ⟨db, [], fun _ => none, [], 0⟩

/-- `LruCache::put`. A hit of `LruCache::get` is the same with the value that is there. -/
def cachePut (config : CacheConfig) (key value : Bytes) (cache : List (Bytes × Bytes)) :
  List (Bytes × Bytes) :=
  ((key, value) :: cache.filter fun e => e.1 ≠ key).take (max config.lruCapacity 1)

/-- The batch is taken out whatever the write comes to. -/
def doFlush (s : CachedTrieStore) (written : Bool) : CachedTrieStore :=
  if s.pendingCount = 0 then s
  else if written then
    { s with
      db := writeBatch s.db s.batch
      batch := []
      pending := fun _ => none
      pendingCount := 0 }
  else { s with batch := [] }

/-- A value read from the database is cached as a hit is. -/
def get (config : CacheConfig) (s : CachedTrieStore) (key : Bytes) :
  Option Bytes × CachedTrieStore :=
  match s.pending key with
  | some value => (some value, s)
  | none =>
    match ((s.cache.find? fun e => e.1 = key).map Prod.snd).or (s.db key) with
    | some value => (some value, { s with cache := cachePut config key value s.cache })
    | none => (none, s)

def buffer (config : CacheConfig) (s : CachedTrieStore) (key value : Bytes) : CachedTrieStore :=
  { s with
    batch := s.batch ++ [(key, value)]
    pending := Function.update s.pending key (some value)
    cache := cachePut config key value s.cache
    pendingCount := s.pendingCount + 1 }

def put (config : CacheConfig) (s : CachedTrieStore) (key value : Bytes) (written : Bool) :
  CachedTrieStore :=
  if max config.autoFlushThreshold 1 ≤ s.pendingCount + 1 then
    (s.buffer config key value).doFlush written
  else s.buffer config key value

def apply (config : CacheConfig) (s : CachedTrieStore) : CacheCall → CachedTrieStore
  | .put key value written => s.put config key value written
  | .get key => (s.get config key).2
  | .flush written => s.doFlush written

def Step (config : CacheConfig) (s : CachedTrieStore) (c : CacheCall) (s' : CachedTrieStore) :
  Prop :=
  s' = s.apply config c

def lastPut : List (CachedTrieStore × CacheCall) → Bytes → Option Bytes
  | [] => fun _ => none
  | (_, .put key value _) :: hist => Function.update (lastPut hist) key (some value)
  | _ :: hist => lastPut hist

def current (s : CachedTrieStore) (key : Bytes) : Option Bytes := (s.pending key).or (s.db key)

structure Mirrored (s : CachedTrieStore) : Prop where
  pending : s.pending = writeBatch (fun _ => none) s.batch
  cache : ∀ e ∈ s.cache, s.current e.1 = some e.2

variable {s : CachedTrieStore}

lemma writeBatch_eq (batch : List (Bytes × Bytes)) (db : Bytes → Option Bytes) (key : Bytes) :
  writeBatch db batch key = (writeBatch (fun _ => none) batch key).or (db key) := by
  induction batch generalizing db with
  | nil => rfl
  | cons e batch ih =>
    have hcons : ∀ db, writeBatch db (e :: batch) =
        writeBatch (Function.update db e.1 (some e.2)) batch := fun _ => rfl
    rw [hcons, hcons, ih, ih (Function.update (fun _ => none) e.1 (some e.2)), Option.or_assoc]
    simp only [update_apply]
    split <;> rfl

lemma mem_of_writeBatch {batch : List (Bytes × Bytes)} {key value : Bytes}
  (h : writeBatch (fun _ => none) batch key = some value) : (key, value) ∈ batch := by
  induction batch with
  | nil => cases h
  | cons e batch ih =>
    rw [writeBatch, foldl_cons, ← writeBatch, writeBatch_eq] at h
    rcases or_eq_some_iff.mp h with hrest | ⟨-, hfirst⟩
    · exact mem_cons_of_mem _ (ih hrest)
    rw [update_apply] at hfirst
    split at hfirst
    · rename_i hkey
      rw [hkey, ← some.inj hfirst]
      exact mem_cons_self
    · cases hfirst

lemma Mirrored.cachePut (h : s.Mirrored) (config : CacheConfig) (key value : Bytes) :
  ∀ e ∈ cachePut config key value s.cache,
    Function.update s.current key (some value) e.1 = some e.2 := by
  intro e he
  rcases mem_cons.mp (mem_of_mem_take he) with rfl | he
  · exact update_self ..
  obtain ⟨he, hne⟩ := mem_filter.mp he
  rw [update_of_ne (by simpa using hne)]
  exact h.cache e he

lemma Mirrored.get (h : s.Mirrored) (config : CacheConfig) (key : Bytes) :
  (s.get config key).1 = s.current key ∧ (s.get config key).2.Mirrored ∧
    (s.get config key).2.current = s.current := by
  rw [CachedTrieStore.get]
  cases hpending : s.pending key with
  | some value => exact ⟨by rw [current, hpending]; rfl, h, rfl⟩
  | none =>
    have hvalue : ((s.cache.find? fun e => e.1 = key).map Prod.snd).or (s.db key) =
        s.current key := by
      cases hfind : s.cache.find? fun e => e.1 = key with
      | none => rw [current, hpending]; rfl
      | some e =>
        have hkey : e.1 = key := by simpa using find?_some hfind
        exact hkey ▸ (h.cache e (mem_of_find?_eq_some hfind)).symm
    rw [hvalue]
    cases hcurrent : s.current key with
    | none => exact ⟨rfl, h, rfl⟩
    | some value =>
      have hcache := h.cachePut config key value
      rw [← hcurrent, update_eq_self] at hcache
      exact ⟨rfl, ⟨h.pending, hcache⟩, rfl⟩

lemma Mirrored.doFlush (h : s.Mirrored) :
  (s.doFlush true).Mirrored ∧ (s.doFlush true).current = s.current := by
  rw [CachedTrieStore.doFlush]
  split
  · exact ⟨h, rfl⟩
  have hcurrent : writeBatch s.db s.batch = s.current := funext fun key => by
    rw [writeBatch_eq, ← h.pending, current]
  exact ⟨⟨rfl, fun e he => (congrFun hcurrent e.1).trans (h.cache e he)⟩, hcurrent⟩

lemma Mirrored.put (h : s.Mirrored) (config : CacheConfig) (key value : Bytes) :
  (s.put config key value true).Mirrored ∧
    (s.put config key value true).current = Function.update s.current key (some value) := by
  have hcurrent : (s.buffer config key value).current =
      Function.update s.current key (some value) := funext fun k => by
    simp only [current, buffer, update_apply]
    split <;> rfl
  have hmirrored : (s.buffer config key value).Mirrored := by
    refine ⟨?_, hcurrent ▸ h.cachePut config key value⟩
    simp only [buffer, writeBatch, foldl_append, foldl_cons, foldl_nil, h.pending]
  rw [CachedTrieStore.put]
  split
  · exact ⟨hmirrored.doFlush.1, hmirrored.doFlush.2.trans hcurrent⟩
  · exact ⟨hmirrored, hcurrent⟩

/-- **Nothing is lost while writes succeed.** In every run of calls none of whose batch writes
fails, a key that was put is in the database or in the batch with the value it was last given, and
`get` returns that value. -/
theorem put_kept_of_run {config : CacheConfig} {db : Bytes → Option Bytes}
  {hist : List (CachedTrieStore × CacheCall)} (hrun : Run (Step config) (new db) hist s)
  (hwritten : ∀ x ∈ hist, x.2.Written) {key value : Bytes} (hput : lastPut hist key = some value) :
  (s.db key = some value ∨ (key, value) ∈ s.batch) ∧ (s.get config key).1 = some value := by
  obtain ⟨hmirrored, hcurrent⟩ := @Run.invariant _ _ _ _ _ _ (fun _ c => c.Written)
    (fun hist s => s.Mirrored ∧ ∀ key, s.current key = (lastPut hist key).or (db key))
    ⟨⟨rfl, fun e he => nomatch he⟩, fun _ => rfl⟩ (fun hist s c s' hs hc hstep => by
      obtain ⟨hmirrored, hcurrent⟩ := hs
      obtain rfl : s' = s.apply config c := hstep
      cases c with
      | put k v written =>
        obtain rfl : written = true := hc
        obtain ⟨hm, hcur⟩ := hmirrored.put config k v
        refine ⟨hm, fun key => ?_⟩
        rw [apply, hcur, lastPut, update_apply, update_apply]
        split
        · rfl
        · exact hcurrent key
      | get k =>
        obtain ⟨-, hm, hcur⟩ := hmirrored.get config k
        exact ⟨hm, fun key => (congrFun hcur key).trans (hcurrent key)⟩
      | flush written =>
        obtain rfl : written = true := hc
        exact ⟨hmirrored.doFlush.1, fun key =>
          (congrFun hmirrored.doFlush.2 key).trans (hcurrent key)⟩) hrun hwritten
  have hvalue : s.current key = some value := by rw [hcurrent, hput]; rfl
  refine ⟨?_, (hmirrored.get config key).1.trans hvalue⟩
  rw [current, hmirrored.pending] at hvalue
  rcases or_eq_some_iff.mp hvalue with hpending | ⟨-, hdb⟩
  · exact Or.inr (mem_of_writeBatch hpending)
  · exact Or.inl hdb

end CachedTrieStore

namespace CacheExample

open CachedTrieStore

def config : CacheConfig := ⟨1, 10⟩

def afterPut : CachedTrieStore := (new fun _ => none).put config [1] [10] true

end CacheExample

open CachedTrieStore CacheExample in
/-- The write of a flush fails: the key is neither in the database nor in the batch. The next flush
succeeds, writes nothing and forgets the pending value; once the cache has another key, `get` finds
nothing. -/
theorem failed_flush_loses : let failed := afterPut.doFlush false
    let again := failed.doFlush true
    (failed.db [1] = none ∧ failed.batch = []) ∧ (again.db [1] = none ∧ again.batch = []) ∧
      ((again.put config [2] [20] true).get config [1]).1 = none := by
  decide +kernel

open CachedTrieStore CacheExample in
/-- A key is put and flushed, and the next put evicts it from the cache: it is in the database, and
`get` returns it from there. -/
theorem put_kept_of_run_evicted : let flushed := afterPut.doFlush true
    let evicted := flushed.put config [2] [20] true
    (evicted.cache.find? fun e => e.1 = [1]) = none ∧ evicted.pending [1] = none ∧
      (evicted.db [1] = some [10] ∨ ([1], [10]) ∈ evicted.batch) ∧
      (evicted.get config [1]).1 = some [10] := by
  have hrun : Run (Step config) (new fun _ => none)
      [(afterPut.doFlush true, .put [2] [20] true), (afterPut, .flush true),
        (new fun _ => none, .put [1] [10] true)] ((afterPut.doFlush true).put config [2] [20] true) :=
    ((Run.init.step rfl).step rfl).step rfl
  refine ⟨by decide +kernel, by decide +kernel, ?_⟩
  exact put_kept_of_run hrun (by simp [CacheCall.Written]) (by simp [lastPut])

end Rustock
