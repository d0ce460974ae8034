import Rustock.Core.Header
import Rustock.Lib.Run
import Mathlib

/-!
# Peg-outs on their way to Bitcoin

A peg-out, migration or funding transaction waits for confirmations in a set and then for
signatures in a map (crates/execution/src/bridge/peg.rs, with RSKIP271, RSKIP375 and RSKIP419).
The map is keyed by the hash of the RSK transaction that created the entry, and one
`updateCollections` call can create three.

How transactions are built, signed and recognised as complete is a parameter (`PegOutParams`),
and so is the order in which the set is walked. What the builders are known to do is that the
inputs of what they build are coins the Bridge has and then no longer has (`Spends`).

The accounting (`Held`) is kept by each stage of the call: a builder adds one entry under the
call's hash (`Settles`), the promotion moves one from the set to the map. It needs the hash of
every entry to be its own, which is so as long as a call builds at most one transaction
(`OneBuilder`).
-/

namespace Rustock

open Lib List

/-! ## The collections and the calls -/

/-- A built transaction that waits for its confirmations. -/
structure PegoutEntry where
  btcTxRaw : Bytes
  rskBlockHeight : Nat
  rskTxHash : Option B256
deriving DecidableEq

/-- A request in the queue. -/
structure ReleaseRequest where
  btcDestHash160 : Bytes
  amountSatoshis : UInt64
  rskTxHash : Option B256
deriving DecidableEq

/-- The two collections, the queue, and of the validation of a proposed federation its creation
block and whether one of the three values that stop a second funding is set. -/
structure PegOutState (W : Type) where
  waiting : List PegoutEntry
  wfs : List (B256 × Bytes)
  queue : List ReleaseRequest
  nextPegoutHeight : Nat
  proposed : Option Nat
  svpStarted : Bool
  world : W

abbrev OutPoint : Type := B256 × Nat

/-- The coins a state `W` of coins and federations holds, and the inputs of a transaction. -/
structure CoinView (W : Type) where
  coins : W → List OutPoint
  inputs : Bytes → List OutPoint

/-- The transaction spends coins that are there, and they are gone afterwards. -/
def CoinView.Spends {W : Type} (v : CoinView W) (w : W) (tx : Bytes) (w' : W) : Prop :=
  v.inputs tx ≠ [] ∧ (v.inputs tx ++ v.coins w').Subperm (v.coins w)

/-- The parts of the Bridge around the collections, over a state `W` of coins and federations and
a type `S` of signature sets. Signing does not change which transaction it is. -/
structure PegOutParams (W S : Type) extends CoinView W where
  rsk2btcMinimumAcceptableConfirmations : Nat
  numberOfBlocksBetweenPegouts : Nat
  validationPeriodDurationInBlocks : Nat
  /-- The Java hash-set order of the entries, as positions. -/
  walk : List PegoutEntry → List Nat
  buildMigration : W → Nat → Option (Bytes × W)
  buildBatch : W → List ReleaseRequest → Nat → Option (Bytes × W)
  buildSvpFund : W → Nat → Option (Bytes × W)
  /-- The transaction without its signatures. -/
  unsigned : Bytes → Bytes
  /-- The transaction is well formed, the signatures are one per input and by a member. -/
  admits : W → Bytes → S → Bool
  /-- Whether a signature was applied, and the transaction after it. -/
  applySignatures : W → Bytes → S → Bool × Bytes
  hasEnoughSignatures : Bytes → Bool
  unsigned_apply : ∀ w raw sigs, unsigned (applySignatures w raw sigs).2 = unsigned raw
  migration_spends : ∀ {w block raw w'}, buildMigration w block = some (raw, w') →
    toCoinView.Spends w (unsigned raw) w'
  batch_spends : ∀ {w queue block raw w'}, buildBatch w queue block = some (raw, w') →
    toCoinView.Spends w (unsigned raw) w'
  fund_spends : ∀ {w block raw w'}, buildSvpFund w block = some (raw, w') →
    toCoinView.Spends w (unsigned raw) w'

/-- The order in which the collections are walked and stored. -/
def bytesLe (a b : Bytes) : Bool := decide (a.map UInt8.toNat ≤ b.map UInt8.toNat)

/-- Writing the set and reading it again: the entries without a hash first, each part sorted by the
transaction's bytes. -/
def storedSet (entries : List PegoutEntry) : List PegoutEntry :=
  let sorted (es : List PegoutEntry) :=
    es.insertionSort fun a b => bytesLe a.btcTxRaw b.btcTxRaw = true
  sorted (entries.filter fun e => e.rskTxHash = none) ++
    sorted (entries.filter fun e => ¬ e.rskTxHash = none)

lemma storedSet_perm (entries : List PegoutEntry) : (storedSet entries).Perm entries := by
  refine (List.Perm.append (perm_insertionSort ..) (perm_insertionSort ..)).trans ?_
  have hsplit := filter_append_perm (fun e : PegoutEntry => decide (e.rskTxHash = none)) entries
  simpa [decide_not] using hsplit

/-- `BTreeMap::insert`. -/
def insertWfs (wfs : List (B256 × Bytes)) (key : B256) (raw : Bytes) : List (B256 × Bytes) :=
  (key, raw) :: wfs.filter (·.1 ≠ key)

def removeWfs (wfs : List (B256 × Bytes)) (key : B256) : List (B256 × Bytes) :=
  wfs.filter (·.1 ≠ key)

def lookupWfs (wfs : List (B256 × Bytes)) (key : B256) : Option Bytes :=
  (wfs.find? (·.1 = key)).map (·.2)

namespace PegOutParams

variable {W S : Type} (p : PegOutParams W S)

/-- The first entry of the walk that is old enough. -/
def nextPegoutWithEnoughConfirmations (entries : List PegoutEntry) (block : Nat) :
    Option PegoutEntry :=
  ((p.walk entries).filterMap (entries[·]?)).find? fun e =>
    e.rskBlockHeight ≤ block ∧ p.rsk2btcMinimumAcceptableConfirmations ≤ block - e.rskBlockHeight

/-- Step 0, `process_funds_migration`. -/
def migrate (block : Nat) (hash : B256) (s : PegOutState W) : PegOutState W × List Bytes :=
  match p.buildMigration s.world block with
  | none => (s, [])
  | some (raw, w) =>
    ({ s with
      waiting := storedSet (s.waiting ++ [⟨raw, block, some hash⟩])
      world := w }, [p.unsigned raw])

/-- Step 1, the RSKIP271 batch of everything in the queue. -/
def batch (block : Nat) (hash : B256) (s : PegOutState W) : PegOutState W × List Bytes :=
  if block < s.nextPegoutHeight then (s, [])
  else if s.queue = [] then
    ({ s with nextPegoutHeight := block + p.numberOfBlocksBetweenPegouts }, [])
  else
    match p.buildBatch s.world s.queue block with
    | none => (s, [])
    | some (raw, w) =>
      ({ s with
        waiting := storedSet (s.waiting ++ [⟨raw, block, some hash⟩])
        queue := []
        nextPegoutHeight := block + p.numberOfBlocksBetweenPegouts
        world := w }, [p.unsigned raw])

/-- Steps 2 and 3: one confirmed entry moves to the map, whatever its key holds. -/
def promote (block : Nat) (hash : B256) (s : PegOutState W) : PegOutState W :=
  match p.nextPegoutWithEnoughConfirmations s.waiting block with
  | none => s
  | some entry =>
    { s with
      waiting := storedSet (s.waiting.erase entry)
      wfs := insertWfs s.wfs (entry.rskTxHash.getD hash) entry.btcTxRaw }

/-- The proposed federation is within its validation window and no funding was built for it. -/
def fundDue (block : Nat) (s : PegOutState W) : Bool :=
  !s.svpStarted && s.proposed.any (block < · + p.validationPeriodDurationInBlocks)

/-- Step 4, `update_svp_state`, as far as it concerns the collections: after the window the
proposal is dropped, within it the funding transaction is queued once. -/
def updateSvpState (block : Nat) (hash : B256) (s : PegOutState W) : PegOutState W × List Bytes :=
  if p.fundDue block s then
    match p.buildSvpFund s.world block with
    | none => (s, [])
    | some (raw, w) =>
      ({ s with
        waiting := storedSet (s.waiting ++ [⟨raw, block, some hash⟩])
        svpStarted := true
        world := w }, [p.unsigned raw])
  else if s.proposed.any (· + p.validationPeriodDurationInBlocks ≤ block) then
    ({ s with proposed := none, svpStarted := false }, [])
  else (s, [])

/-- Also what was built. -/
def updateCollections (block : Nat) (hash : B256) (s : PegOutState W) :
    PegOutState W × List Bytes :=
  let migrated := p.migrate block hash s
  let batched := p.batch block hash migrated.1
  let funded := p.updateSvpState block hash (p.promote block hash batched.1)
  (funded.1, migrated.2 ++ batched.2 ++ funded.2)

/-- Also what became complete. -/
def addSignature (hash : B256) (sigs : S) (s : PegOutState W) : PegOutState W × List Bytes :=
  match lookupWfs s.wfs hash with
  | none => (s, [])
  | some raw =>
    if p.admits s.world raw sigs = false then (s, [])
    else
      let (applied, signed) := p.applySignatures s.world raw sigs
      if p.hasEnoughSignatures signed then
        ({ s with wfs := removeWfs s.wfs hash }, [p.unsigned signed])
      else if applied then ({ s with wfs := insertWfs s.wfs hash signed }, [])
      else (s, [])

end PegOutParams

/-- The calls that touch the collections. -/
inductive PegOutEvent (S : Type) where
  | releaseBtc (request : ReleaseRequest)
  | updateCollections (block : Nat) (hash : B256)
  | addSignature (hash : B256) (sigs : S)

/-- The state, with what was built and released so far and the RSK transactions that have called
`updateCollections`. -/
structure PegOutTrace (W : Type) where
  state : PegOutState W
  built : List Bytes
  released : List Bytes
  callers : List B256

namespace PegOutTrace

variable {W S : Type} (p : PegOutParams W S) (t : PegOutTrace W)

/-- The trace after a call. It notes what has been built, by whom, and what was fully signed. -/
def next : PegOutEvent S → PegOutTrace W
  | .releaseBtc request => { t with state := { t.state with queue := t.state.queue ++ [request] } }
  | .updateCollections block hash =>
    let (s, built) := p.updateCollections block hash t.state
    { t with state := s, built := t.built ++ built, callers := hash :: t.callers }
  | .addSignature hash sigs =>
    let (s, released) := p.addSignature hash sigs t.state
    { t with state := s, released := t.released ++ released }

def Step (e : PegOutEvent S) (t' : PegOutTrace W) : Prop := t' = t.next p e

/-- How often a transaction occurs among those waiting for confirmations. -/
def inWaiting (tx : Bytes) : Nat :=
  (t.state.waiting.map fun e => p.unsigned e.btcTxRaw).count tx

/-- How often it occurs among those waiting for signatures. -/
def inSigning (tx : Bytes) : Nat :=
  (t.state.wfs.map fun e => p.unsigned e.2).count tx

/-- Every transaction built and not yet fully signed is in one place. -/
def NoneLost : Prop :=
  ∀ tx ∈ t.built, tx ∉ t.released → t.inWaiting p tx + t.inSigning p tx = 1

end PegOutTrace

/-- Of the migration, the batch and the funding at most one is due, as the state before the call
says. -/
def PegOutParams.OneBuilder {W S : Type} (p : PegOutParams W S) (block : Nat)
    (s : PegOutState W) : Prop :=
  let migration := (p.buildMigration s.world block).isSome
  let batch := s.nextPegoutHeight ≤ block ∧ s.queue ≠ []
  let fund := p.fundDue block s
  ¬ (migration ∧ batch) ∧ ¬ (migration ∧ fund) ∧ ¬ (batch ∧ fund)

/-- The RSK transaction calls for the first time, and at most one builder is due. -/
def PegOutTrace.GoodEvent {W S : Type} (p : PegOutParams W S) (t : PegOutTrace W) :
    PegOutEvent S → Prop
  | .updateCollections block hash => hash ∉ t.callers ∧ p.OneBuilder block t.state
  | .releaseBtc _ | .addSignature .. => True

/-! ## The signature map -/

variable {wfs : List (B256 × Bytes)} {key : B256}

lemma lookupWfs_none (h : lookupWfs wfs key = none) : removeWfs wfs key = wfs := by
  rw [lookupWfs, Option.map_eq_none_iff, find?_eq_none] at h
  rw [removeWfs, filter_eq_self]
  intro e he
  simpa using h e he

variable {raw : Bytes}

lemma mem_of_lookupWfs (h : lookupWfs wfs key = some raw) : (key, raw) ∈ wfs := by
  obtain ⟨e, he, rfl⟩ := Option.map_eq_some_iff.mp h
  have hkey : e.1 = key := by simpa using find?_some he
  rw [← hkey]
  exact mem_of_find?_eq_some he

lemma perm_removeWfs (hkeys : (wfs.map (·.1)).Nodup) (h : (key, raw) ∈ wfs) :
  ((key, raw) :: removeWfs wfs key).Perm wfs := by
  induction wfs with
  | nil => cases h
  | cons e rest ih =>
    rw [map_cons, nodup_cons] at hkeys
    by_cases hkey : e.1 = key
    · have hrest : removeWfs rest key = rest := by
        rw [removeWfs, filter_eq_self]
        intro x hx
        have hne : x.1 ≠ key := by
          rintro rfl
          exact hkeys.1 (hkey ▸ mem_map_of_mem hx)
        simpa using hne
      have he : e = (key, raw) := by
        rcases mem_cons.mp h with heq | hmem
        · exact heq.symm
        · exact absurd (hkey ▸ mem_map_of_mem hmem) hkeys.1
      have hremove : removeWfs (e :: rest) key = removeWfs rest key := by simp [removeWfs, hkey]
      rw [hremove, hrest, he]
    have hmem : (key, raw) ∈ rest := by
      rcases mem_cons.mp h with heq | hmem
      · exact absurd (congrArg Prod.fst heq).symm hkey
      · exact hmem
    have hremove : removeWfs (e :: rest) key = e :: removeWfs rest key := by simp [removeWfs, hkey]
    rw [hremove]
    exact (List.Perm.swap ..).trans ((ih hkeys.2 hmem).cons e)

lemma nodup_removeWfs (key : B256) (h : (wfs.map (·.1)).Nodup) :
  ((removeWfs wfs key).map (·.1)).Nodup :=
  h.sublist ((filter_sublist).map _)

lemma nodup_insertWfs (key : B256) (raw : Bytes) (h : (wfs.map (·.1)).Nodup) :
  ((insertWfs wfs key raw).map (·.1)).Nodup := by
  have hinsert : insertWfs wfs key raw = (key, raw) :: removeWfs wfs key := rfl
  rw [hinsert, map_cons, nodup_cons]
  refine ⟨fun hmem => ?_, nodup_removeWfs key h⟩
  obtain ⟨e, he, hkey⟩ := mem_map.mp hmem
  have hne := (mem_filter.mp he).2
  simp [hkey] at hne

/-! ## The accounting -/

/-- The hashes of the entries of both collections. -/
def PegOutState.keys {W : Type} (s : PegOutState W) : List (Option B256) :=
  s.waiting.map (·.rskTxHash) ++ s.wfs.map (some ·.1)

namespace PegOutParams

variable {W S : Type} (p : PegOutParams W S)

/-- How often a transaction occurs in the two collections together. -/
def countIn (s : PegOutState W) (tx : Bytes) : Nat :=
  (s.waiting.map fun e => p.unsigned e.btcTxRaw).count tx +
    (s.wfs.map fun e => p.unsigned e.2).count tx

/-- Every transaction built and not released is in the collections once, under a hash of its own,
and its inputs are no longer coins. -/
structure Held (built released : List Bytes) (s : PegOutState W) : Prop where
  keys : s.keys.Nodup
  fresh : built.Nodup
  count : ∀ tx, p.countIn s tx + released.count tx = built.count tx
  coins : (p.coins s.world).Nodup
  spent : ∀ tx ∈ built, p.inputs tx ≠ [] ∧ ∀ c ∈ p.inputs tx, c ∉ p.coins s.world

/-- What a builder does: nothing to the collections and coins, or one entry under the call's
hash. -/
inductive Settles (block : Nat) (hash : B256) (s : PegOutState W) :
    PegOutState W × List Bytes → Prop
  | nothing {s' : PegOutState W} (waiting : s'.waiting = s.waiting) (wfs : s'.wfs = s.wfs)
      (world : s'.world = s.world) : Settles block hash s (s', [])
  | entry {s' : PegOutState W} {raw : Bytes}
      (spends : p.Spends s.world (p.unsigned raw) s'.world)
      (waiting : s'.waiting = storedSet (s.waiting ++ [⟨raw, block, some hash⟩]))
      (wfs : s'.wfs = s.wfs) : Settles block hash s (s', [p.unsigned raw])

variable {p} {block : Nat} {hash : B256} {s : PegOutState W}

lemma migrate_settles : p.Settles block hash s (p.migrate block hash s) := by
  unfold migrate
  split
  · exact .nothing rfl rfl rfl
  · rename_i hbuild
    exact .entry (p.migration_spends hbuild) rfl rfl

lemma batch_settles : p.Settles block hash s (p.batch block hash s) := by
  unfold batch
  split
  · exact .nothing rfl rfl rfl
  split
  · exact .nothing rfl rfl rfl
  split
  · exact .nothing rfl rfl rfl
  · rename_i hbuild
    exact .entry (p.batch_spends hbuild) rfl rfl

lemma updateSvpState_settles : p.Settles block hash s (p.updateSvpState block hash s) := by
  unfold updateSvpState
  split
  · split
    · exact .nothing rfl rfl rfl
    · rename_i hbuild
      exact .entry (p.fund_spends hbuild) rfl rfl
  split
  · exact .nothing rfl rfl rfl
  · exact .nothing rfl rfl rfl

variable {r : PegOutState W × List Bytes} {built released : List Bytes}

lemma Settles.keys_of_nil (h : p.Settles block hash s r) (hnil : r.2 = []) :
    r.1.keys = s.keys := by
  cases h with
  | nothing waiting wfs world => simp only [PegOutState.keys, waiting, wfs]
  | entry => simp at hnil

lemma keys_entry {s s' : PegOutState W} {raw : Bytes}
    (hwaiting : s'.waiting = storedSet (s.waiting ++ [⟨raw, block, some hash⟩]))
    (hwfs : s'.wfs = s.wfs) : s'.keys.Perm (some hash :: s.keys) := by
  have hset := (storedSet_perm (s.waiting ++ [⟨raw, block, some hash⟩])).map (·.rskTxHash)
  rw [map_append, map_singleton] at hset
  rw [PegOutState.keys, PegOutState.keys, hwaiting, hwfs, ← cons_append]
  exact (hset.trans (perm_append_singleton ..)).append_right _

lemma Settles.mem_keys (h : p.Settles block hash s r) {k : Option B256} (hk : k ∈ r.1.keys) :
    k = some hash ∨ k ∈ s.keys := by
  cases h with
  | nothing waiting wfs world =>
    right
    simpa only [PegOutState.keys, waiting, wfs] using hk
  | entry spends waiting wfs => exact mem_cons.mp ((keys_entry waiting wfs).mem_iff.mp hk)

/-- A transaction with coins of the Bridge among its inputs is none that was built before. -/
lemma Held.notMem_built (h : p.Held built released s) {tx : Bytes} {w' : W}
    (hspends : p.Spends s.world tx w') : tx ∉ built := by
  intro hbuilt
  obtain ⟨c, hc⟩ := exists_mem_of_ne_nil _ hspends.1
  have hcoin : c ∈ p.coins s.world := hspends.2.subset (mem_append_left _ hc)
  exact (h.spent tx hbuilt).2 c hc hcoin

lemma Held.settles (h : p.Held built released s) (hsettles : p.Settles block hash s r)
    (hfree : r.2 ≠ [] → some hash ∉ s.keys) : p.Held (built ++ r.2) released r.1 := by
  cases hsettles with
  | nothing waiting wfs world =>
    rw [append_nil]
    refine ⟨?_, h.fresh, ?_, ?_, ?_⟩
    · simpa only [PegOutState.keys, waiting, wfs] using h.keys
    · simpa only [countIn, waiting, wfs] using h.count
    · simpa only [world] using h.coins
    · simpa only [world] using h.spent
  | @entry s' raw spends waiting wfs =>
    have hnew := h.notMem_built spends
    obtain ⟨l, hperm, hsub⟩ := spends.2
    -- no coin is listed twice, so the inputs are apart from what is left
    have hnodup := hperm.nodup_iff.mp (h.coins.sublist hsub)
    have hapart := disjoint_of_nodup_append hnodup
    have hleft : p.coins s'.world ⊆ p.coins s.world := fun c hc =>
      spends.2.subset (mem_append_right _ hc)
    refine ⟨?_, ?_, fun tx => ?_, hnodup.of_append_right, fun tx htx => ?_⟩
    · exact (keys_entry waiting wfs).nodup_iff.mpr
        (nodup_cons.mpr ⟨hfree (cons_ne_nil _ _), h.keys⟩)
    · exact nodup_append.mpr ⟨h.fresh, nodup_singleton _, by
        rintro a ha b hb rfl
        exact hnew (mem_singleton.mp hb ▸ ha)⟩
    · have hset := ((storedSet_perm (s.waiting ++ [⟨raw, block, some hash⟩])).map
        fun e => p.unsigned e.btcTxRaw).count_eq tx
      have hcount := h.count tx
      rw [map_append, count_append, map_singleton] at hset
      rw [countIn] at hcount
      dsimp only at hset ⊢
      rw [countIn, waiting, wfs, hset, count_append]
      omega
    · rcases mem_append.mp htx with hold | hlast
      · exact ⟨(h.spent tx hold).1, fun c hc hcoin => (h.spent tx hold).2 c hc (hleft hcoin)⟩
      · rw [mem_singleton.mp hlast]
        exact ⟨spends.1, fun c hc hcoin => hapart hc hcoin⟩

/-! ### The promotion -/

lemma mem_of_nextPegout {entries : List PegoutEntry} {entry : PegoutEntry}
    (h : p.nextPegoutWithEnoughConfirmations entries block = some entry) : entry ∈ entries := by
  obtain ⟨i, _, hi⟩ := mem_filterMap.mp (mem_of_find?_eq_some h)
  exact mem_of_getElem? hi

/-- The promoted entry comes to a free key: its hash is that of no other entry. -/
lemma lookup_promoted_eq_none {entry : PegoutEntry} {key : B256} (hkeys : s.keys.Nodup)
    (hentry : entry ∈ s.waiting) (hkey : entry.rskTxHash = some key) :
    lookupWfs s.wfs key = none := by
  rw [Option.eq_none_iff_forall_ne_some]
  intro raw hraw
  have hsigning : some key ∈ s.wfs.map (some ·.1) := mem_map.mpr ⟨_, mem_of_lookupWfs hraw, rfl⟩
  have hwaiting : some key ∈ s.waiting.map (·.rskTxHash) := mem_map.mpr ⟨entry, hentry, hkey⟩
  exact disjoint_of_nodup_append hkeys hwaiting hsigning

/-- The promotion moves one hash and one transaction. -/
lemma promote_spec (hkeys : s.keys.Nodup) (hnamed : none ∉ s.keys) :
    (p.promote block hash s).keys.Perm s.keys ∧
      (∀ tx, p.countIn (p.promote block hash s) tx = p.countIn s tx) ∧
      (p.promote block hash s).world = s.world := by
  unfold promote
  split
  · exact ⟨.refl _, fun _ => rfl, rfl⟩
  rename_i entry hentry
  have hmem := mem_of_nextPegout hentry
  obtain ⟨key, hkey⟩ : ∃ key, entry.rskTxHash = some key := by
    refine Option.ne_none_iff_exists'.mp fun hnone => hnamed (mem_append_left _ ?_)
    exact mem_map.mpr ⟨entry, hmem, hnone⟩
  have hinsert : insertWfs s.wfs key entry.btcTxRaw = (key, entry.btcTxRaw) :: s.wfs := by
    have hremove := lookupWfs_none (lookup_promoted_eq_none hkeys hmem hkey)
    change (key, entry.btcTxRaw) :: removeWfs s.wfs key = _
    rw [hremove]
  have hset := (storedSet_perm (s.waiting.erase entry))
  have hperm := perm_cons_erase hmem
  rw [hkey, Option.getD_some, hinsert]
  refine ⟨?_, fun tx => ?_, rfl⟩
  · have hold := (hperm.map (·.rskTxHash)).append_right (s.wfs.map (some ·.1))
    have hnew := (hset.map (·.rskTxHash)).append_right (((key, entry.btcTxRaw) :: s.wfs).map
      (some ·.1))
    rw [map_cons, hkey] at hold
    refine hnew.trans (List.Perm.trans ?_ hold.symm)
    exact perm_middle
  · have hold := (hperm.map fun e => p.unsigned e.btcTxRaw).count_eq tx
    have hnew := (hset.map fun e => p.unsigned e.btcTxRaw).count_eq tx
    rw [map_cons, count_cons] at hold
    rw [countIn, countIn, hnew, hold, map_cons, count_cons]
    dsimp only
    omega

lemma Held.promote (h : p.Held built released s) (hnamed : none ∉ s.keys) :
    p.Held built released (p.promote block hash s) := by
  obtain ⟨hkeys, hcount, hworld⟩ := @promote_spec W S p block hash s h.keys hnamed
  refine ⟨hkeys.nodup_iff.mpr h.keys, h.fresh, fun tx => ?_, ?_, ?_⟩
  · rw [hcount]
    exact h.count tx
  · rw [hworld]
    exact h.coins
  · rw [hworld]
    exact h.spent

/-! ### One builder a call -/

lemma migrate_due (h : (p.migrate block hash s).2 ≠ []) :
    (p.buildMigration s.world block).isSome := by
  unfold migrate at h
  split at h
  · exact absurd rfl h
  · rename_i hbuild
    rw [hbuild]
    rfl

lemma migrate_frame : (p.migrate block hash s).1.queue = s.queue ∧
    (p.migrate block hash s).1.nextPegoutHeight = s.nextPegoutHeight ∧
    (p.migrate block hash s).1.proposed = s.proposed ∧
    (p.migrate block hash s).1.svpStarted = s.svpStarted := by
  unfold migrate
  split
  · exact ⟨rfl, rfl, rfl, rfl⟩
  · exact ⟨rfl, rfl, rfl, rfl⟩

lemma batch_due (h : (p.batch block hash s).2 ≠ []) :
    s.nextPegoutHeight ≤ block ∧ s.queue ≠ [] := by
  unfold batch at h
  split at h
  · exact absurd rfl h
  rename_i hheight
  split at h
  · exact absurd rfl h
  · rename_i hqueue
    exact ⟨Nat.le_of_not_lt hheight, hqueue⟩

lemma batch_frame : (p.batch block hash s).1.proposed = s.proposed ∧
    (p.batch block hash s).1.svpStarted = s.svpStarted := by
  unfold batch
  split
  · exact ⟨rfl, rfl⟩
  split
  · exact ⟨rfl, rfl⟩
  split
  · exact ⟨rfl, rfl⟩
  · exact ⟨rfl, rfl⟩

lemma promote_frame : (p.promote block hash s).proposed = s.proposed ∧
    (p.promote block hash s).svpStarted = s.svpStarted := by
  unfold promote
  split
  · exact ⟨rfl, rfl⟩
  · exact ⟨rfl, rfl⟩

lemma updateSvpState_due (h : (p.updateSvpState block hash s).2 ≠ []) :
    p.fundDue block s = true := by
  unfold updateSvpState at h
  split at h
  · assumption
  split at h
  · exact absurd rfl h
  · exact absurd rfl h

/-- The call keeps the accounting, and the only new hash is its own. -/
lemma Held.updateCollections (h : p.Held built released s) (hnamed : none ∉ s.keys)
    (hnew : some hash ∉ s.keys) (hone : p.OneBuilder block s) :
    p.Held (built ++ (p.updateCollections block hash s).2) released
        (p.updateCollections block hash s).1 ∧
      ∀ k ∈ (p.updateCollections block hash s).1.keys, k = some hash ∨ k ∈ s.keys := by
  obtain ⟨hmigrationBatch, hmigrationFund, hbatchFund⟩ := hone
  set migrated := p.migrate block hash s with hmigrated
  set batched := p.batch block hash migrated.1 with hbatched
  set promoted := p.promote block hash batched.1 with hpromoted
  have hsettled : p.Settles block hash s migrated := migrate_settles
  have hsettled₂ : p.Settles block hash migrated.1 batched := batch_settles
  obtain ⟨hqueue, hheight, hproposed, hstarted⟩ := @migrate_frame W S p block hash s
  have hdue : batched.2 ≠ [] → s.nextPegoutHeight ≤ block ∧ s.queue ≠ [] := fun hne => by
    have hdue := batch_due hne
    rwa [hmigrated, hheight, hqueue] at hdue
  have hfund : (p.updateSvpState block hash promoted).2 ≠ [] → p.fundDue block s = true :=
    fun hne => by
      have hdue := updateSvpState_due hne
      rwa [fundDue, hpromoted, promote_frame.1, promote_frame.2, hbatched, batch_frame.1,
        batch_frame.2, hmigrated, hproposed, hstarted] at hdue
  have hheld₁ := h.settles hsettled fun _ => hnew
  have hmigrationNil : batched.2 ≠ [] → migrated.2 = [] := fun hne =>
    by_contra fun hmig => hmigrationBatch ⟨migrate_due hmig, hdue hne⟩
  have hheld₂ := hheld₁.settles hsettled₂ fun hne => by
    rw [hsettled.keys_of_nil (hmigrationNil hne)]
    exact hnew
  have hwithin₂ : ∀ k ∈ batched.1.keys, k = some hash ∨ k ∈ s.keys := fun k hk =>
    (hsettled₂.mem_keys hk).elim .inl hsettled.mem_keys
  have hnamed₂ : none ∉ batched.1.keys := fun hk =>
    (hwithin₂ none hk).elim (by simp) hnamed
  have hheld₃ : p.Held (built ++ migrated.2 ++ batched.2) released promoted :=
    hheld₂.promote hnamed₂
  have hkeys₃ : promoted.keys.Perm batched.1.keys := (promote_spec hheld₂.keys hnamed₂).1
  have hsettled₄ : p.Settles block hash promoted (p.updateSvpState block hash promoted) :=
    updateSvpState_settles
  refine ⟨?_, fun k hk => ?_⟩
  · have hheld₄ := hheld₃.settles hsettled₄ fun hne => by
      have hbatchNil : batched.2 = [] := by_contra fun hb => hbatchFund ⟨hdue hb, hfund hne⟩
      have hmigNil : migrated.2 = [] :=
        by_contra fun hmig => hmigrationFund ⟨migrate_due hmig, hfund hne⟩
      rw [hkeys₃.mem_iff, hsettled₂.keys_of_nil hbatchNil, hsettled.keys_of_nil hmigNil]
      exact hnew
    rw [append_assoc, append_assoc, ← append_assoc migrated.2] at hheld₄
    exact hheld₄
  · exact (hsettled₄.mem_keys hk).elim .inl fun hk => hwithin₂ k (hkeys₃.mem_iff.mp hk)

/-! ### A signature -/

lemma countIn_removeWfs {raw : Bytes} (hkeys : (s.wfs.map (·.1)).Nodup)
    (hraw : lookupWfs s.wfs hash = some raw) (tx : Bytes) :
    (s.wfs.map fun e => p.unsigned e.2).count tx =
      ((removeWfs s.wfs hash).map fun e => p.unsigned e.2).count tx +
        [p.unsigned raw].count tx := by
  have hperm := perm_removeWfs hkeys (mem_of_lookupWfs hraw)
  rw [← (hperm.map _).count_eq tx, map_cons, count_cons, count_singleton]

lemma Held.wfs_nodup (h : p.Held built released s) : (s.wfs.map (·.1)).Nodup := by
  have hkeys : ((s.wfs.map (·.1)).map some).Nodup := by
    rw [map_map]
    exact h.keys.of_append_right
  exact hkeys.of_map _

/-- A complete transaction leaves the map and is released; an incomplete one stays under its key
with the signature. -/
lemma Held.addSignature (h : p.Held built released s) (hash : B256) (sigs : S) :
    p.Held built (released ++ (p.addSignature hash sigs s).2) (p.addSignature hash sigs s).1 ∧
      ∀ k ∈ (p.addSignature hash sigs s).1.keys, k ∈ s.keys := by
  have hstay : p.Held built (released ++ []) s := by
    rw [append_nil]
    exact h
  unfold PegOutParams.addSignature
  cases hraw : lookupWfs s.wfs hash with
  | none => exact ⟨hstay, fun _ hk => hk⟩
  | some raw =>
    have hid := p.unsigned_apply s.world raw sigs
    have hsplit := @countIn_removeWfs W S p hash s raw h.wfs_nodup hraw
    have hperm := (perm_removeWfs h.wfs_nodup (mem_of_lookupWfs hraw)).map (some ·.1)
    rw [map_cons] at hperm
    dsimp only
    split
    · exact ⟨hstay, fun _ hk => hk⟩
    split
    · have hsub : (s.waiting.map (·.rskTxHash) ++ (removeWfs s.wfs hash).map (some ·.1)).Sublist
          s.keys := (Sublist.refl _).append ((filter_sublist).map _)
      refine ⟨⟨h.keys.sublist hsub, h.fresh, fun tx => ?_, h.coins, h.spent⟩,
        fun k hk => hsub.subset hk⟩
      have hcount := h.count tx
      rw [countIn, hsplit tx] at hcount
      rw [countIn, count_append, hid]
      dsimp only
      omega
    split
    · have hkeys : (s.waiting.map (·.rskTxHash) ++ (insertWfs s.wfs hash
          (p.applySignatures s.world raw sigs).2).map (some ·.1)).Perm s.keys :=
        hperm.append_left _
      refine ⟨⟨hkeys.nodup_iff.mpr h.keys, h.fresh, fun tx => ?_, h.coins, h.spent⟩,
        fun k hk => hkeys.mem_iff.mp hk⟩
      have hcount := h.count tx
      rw [countIn, hsplit tx, count_singleton] at hcount
      have hinsert : insertWfs s.wfs hash (p.applySignatures s.world raw sigs).2 =
          (hash, (p.applySignatures s.world raw sigs).2) :: removeWfs s.wfs hash := rfl
      rw [countIn, append_nil]
      dsimp only
      rw [hinsert, map_cons, count_cons, hid]
      omega
    · exact ⟨hstay, fun _ hk => hk⟩

end PegOutParams

/-! ## Whole runs -/

namespace PegOutTrace

variable {W S : Type} (p : PegOutParams W S) {t : PegOutTrace W}

/-- The accounting, with every hash that of a caller. -/
structure Accounted (t : PegOutTrace W) : Prop where
  held : p.Held t.built t.released t.state
  named : ∀ k ∈ t.state.keys, ∃ hash ∈ t.callers, k = some hash

lemma Accounted.noneLost (h : t.Accounted p) : t.NoneLost p := by
  intro tx hbuilt hreleased
  have hcount := h.held.count tx
  rw [count_eq_zero_of_not_mem hreleased, count_eq_one_of_mem h.held.fresh hbuilt] at hcount
  exact hcount

lemma Accounted.next (h : t.Accounted p) (e : PegOutEvent S) (hgood : t.GoodEvent p e) :
    (t.next p e).Accounted p := by
  cases e with
  | releaseBtc request =>
    exact ⟨⟨h.held.keys, h.held.fresh, h.held.count, h.held.coins, h.held.spent⟩, h.named⟩
  | updateCollections block hash =>
    have hnamed : none ∉ t.state.keys := fun hk => by
      obtain ⟨_, _, heq⟩ := h.named none hk
      cases heq
    have hnew : some hash ∉ t.state.keys := fun hk => by
      obtain ⟨_, hcaller, heq⟩ := h.named _ hk
      exact hgood.1 (Option.some.inj heq ▸ hcaller)
    obtain ⟨hheld, hkeys⟩ := h.held.updateCollections hnamed hnew hgood.2
    refine ⟨hheld, fun k hk => ?_⟩
    rcases hkeys k hk with rfl | hold
    · exact ⟨hash, mem_cons_self .., rfl⟩
    · obtain ⟨caller, hcaller, heq⟩ := h.named k hold
      exact ⟨caller, mem_cons_of_mem _ hcaller, heq⟩
  | addSignature hash sigs =>
    obtain ⟨hheld, hkeys⟩ := h.held.addSignature hash sigs
    exact ⟨hheld, fun k hk => h.named k (hkeys k hk)⟩

/-- Empty collections; a federation may be proposed and its validation under way. -/
def initial (w : W) (proposed : Option Nat) (svpStarted : Bool) : PegOutTrace W :=
  ⟨⟨[], [], [], 0, proposed, svpStarted, w⟩, [], [], []⟩

/-- **No peg-out is lost while a call builds one transaction.** In every run from coins without a
repetition whose `updateCollections` calls are by different RSK transactions and find at most one
of the migration, the batch and the funding due, every transaction ever built is in exactly one of
the two collections until it is released. -/
theorem no_pegout_lost (w : W) (proposed : Option Nat) (svpStarted : Bool)
    (hcoins : (p.coins w).Nodup) {hist : List (PegOutTrace W × PegOutEvent S)}
    {t : PegOutTrace W} (hrun : Run (Step p) (initial w proposed svpStarted) hist t)
    (hgood : ∀ q ∈ hist, q.1.GoodEvent p q.2) : t.NoneLost p := by
  have hinit : (initial w proposed svpStarted).Accounted p :=
    ⟨⟨nodup_nil, nodup_nil, fun _ => rfl, hcoins, fun _ hmem => absurd hmem not_mem_nil⟩,
      fun _ hmem => absurd hmem not_mem_nil⟩
  have hinv : t.Accounted p :=
    @Run.invariant _ _ _ _ _ _ (fun t e => t.GoodEvent p e) (fun _ t => t.Accounted p) hinit
      (fun _ t e t' ht hg hstep => by
        rw [hstep]
        exact ht.next p e hg)
      hrun hgood
  exact hinv.noneLost

end PegOutTrace

/-! ## A batch, a migration and a funding -/

namespace PegOutExample

open PegOutTrace

def migrationCoin : OutPoint := (.repeatByte 32 1, 0)
def batchCoin : OutPoint := (.repeatByte 32 2, 0)
def fundCoin : OutPoint := (.repeatByte 32 3, 0)

/-- A transaction of one coin, while the coin is there. -/
def spend (coin : OutPoint) (raw : Bytes) (w : List OutPoint) : Option (Bytes × List OutPoint) :=
  if coin ∈ w then some (raw, w.erase coin) else none

/-- A signature is a byte 9. -/
def unsigned (raw : Bytes) : Bytes := raw.filter (· ≠ 9)

def inputsOf (tx : Bytes) : List OutPoint :=
  if tx = [1] then [migrationCoin] else if tx = [2] then [batchCoin] else [fundCoin]

lemma spend_spends {coin : OutPoint} {raw raw' : Bytes} {w w' : List OutPoint}
    (hinputs : inputsOf (unsigned raw) = [coin]) (h : spend coin raw w = some (raw', w')) :
    (⟨id, inputsOf⟩ : CoinView (List OutPoint)).Spends w (unsigned raw') w' := by
  unfold spend at h
  split at h
  · rename_i hmem
    obtain ⟨rfl, rfl⟩ := Prod.mk.inj (Option.some.inj h)
    unfold CoinView.Spends
    dsimp only
    rw [hinputs]
    exact ⟨cons_ne_nil _ _, (perm_cons_erase hmem).symm.subperm⟩
  · cases h

/-- A Bridge with one coin for each builder, whose migration age begins at block `opens`; two
signatures complete a transaction. -/
def params (opens : Nat) : PegOutParams (List OutPoint) Unit where
  coins := id
  inputs := inputsOf
  rsk2btcMinimumAcceptableConfirmations := 10
  numberOfBlocksBetweenPegouts := 3
  validationPeriodDurationInBlocks := 50
  walk := fun entries => range entries.length
  buildMigration := fun w block => if opens ≤ block then spend migrationCoin [1] w else none
  buildBatch := fun w _ _ => spend batchCoin [2] w
  buildSvpFund := fun w _ => spend fundCoin [3] w
  unsigned := unsigned
  admits := fun _ _ _ => true
  applySignatures := fun _ raw _ => (true, raw ++ [9])
  hasEnoughSignatures := fun raw => 3 ≤ raw.length
  unsigned_apply := fun _ raw _ => by simp [unsigned]
  migration_spends := fun h => by
    split at h
    · exact spend_spends rfl h
    · cases h
  batch_spends := fun h => spend_spends rfl h
  fund_spends := fun h => spend_spends rfl h

def request : ReleaseRequest := ⟨[7], 500000, some (.repeatByte 32 7)⟩

def first : B256 := .repeatByte 32 0xA1
def second : B256 := .repeatByte 32 0xA2
def third : B256 := .repeatByte 32 0xA3
def fourth : B256 := .repeatByte 32 0xA4

/-- A proposed federation whose funding transaction is already made. -/
def start : PegOutTrace (List OutPoint) :=
  initial [migrationCoin, batchCoin, fundCoin] (some 60) true

def queued : PegOutTrace (List OutPoint) :=
  start.next (params 105) (.releaseBtc request)

def batched : PegOutTrace (List OutPoint) :=
  queued.next (params 105) (.updateCollections 100 first)

def migrated : PegOutTrace (List OutPoint) :=
  batched.next (params 105) (.updateCollections 106 second)

def promoted : PegOutTrace (List OutPoint) :=
  migrated.next (params 105) (.updateCollections 112 third)

def signed : PegOutTrace (List OutPoint) :=
  promoted.next (params 105) (.addSignature first ())

def released : PegOutTrace (List OutPoint) :=
  signed.next (params 105) (.addSignature first ())

def promotedAgain : PegOutTrace (List OutPoint) :=
  released.next (params 105) (.updateCollections 118 fourth)

/-- A batch and, from block 105, a migration, each in a call of its own: the batch is promoted,
signed and released, then the migration is promoted. -/
theorem no_pegout_lost_apart : promotedAgain.built = [[2], [1]] ∧
    promotedAgain.released = [[2]] ∧ promotedAgain.state.wfs = [(second, [1])] ∧
    promotedAgain.NoneLost (params 105) := by
  refine ⟨by decide +kernel, by decide +kernel, by decide +kernel,
    no_pegout_lost (params 105) [migrationCoin, batchCoin, fundCoin] (some 60) true
      (by decide +kernel)
      (.step (.step (.step (.step (.step (.step (.step .init rfl) rfl) rfl) rfl) rfl) rfl) rfl :
        Run (PegOutTrace.Step (params 105)) start
          [(released, .updateCollections 118 fourth), (signed, .addSignature first ()),
            (promoted, .addSignature first ()), (migrated, .updateCollections 112 third),
            (batched, .updateCollections 106 second), (queued, .updateCollections 100 first),
            (start, .releaseBtc request)] promotedAgain) ?_⟩
  have hcall {t : PegOutTrace (List OutPoint)} {block : Nat} {hash : B256}
      (hcaller : hash ∉ t.callers) (hone : (params 105).OneBuilder block t.state) :
      t.GoodEvent (params 105) (.updateCollections block hash) := ⟨hcaller, hone⟩
  simp only [mem_cons, not_mem_nil, or_false, forall_eq_or_imp, forall_eq]
  refine ⟨hcall (by decide +kernel) ?_, trivial, trivial, hcall (by decide +kernel) ?_,
    hcall (by decide +kernel) ?_, hcall (by decide +kernel) ?_, trivial⟩ <;>
  · unfold PegOutParams.OneBuilder
    decide +kernel

def built : PegOutTrace (List OutPoint) :=
  ((initial [migrationCoin, batchCoin, fundCoin] none false).next (params 0)
    (.releaseBtc request)).next (params 0) (.updateCollections 100 first)

/-- **A migration is lost**: built by the same call as a batch, it is promoted first, and the
batch overwrites it before it has a signature. -/
theorem migration_lost : Run (PegOutTrace.Step (params 0))
      (initial [migrationCoin, batchCoin, fundCoin] none false)
      [(built.next (params 0) (.updateCollections 110 second), .updateCollections 120 third),
        (built, .updateCollections 110 second),
        ((initial [migrationCoin, batchCoin, fundCoin] none false).next (params 0)
          (.releaseBtc request), .updateCollections 100 first),
        (initial [migrationCoin, batchCoin, fundCoin] none false, .releaseBtc request)]
      ((built.next (params 0) (.updateCollections 110 second)).next (params 0)
        (.updateCollections 120 third)) ∧
    ¬ ((built.next (params 0) (.updateCollections 110 second)).next (params 0)
        (.updateCollections 120 third)).NoneLost (params 0) := by
  refine ⟨.step (.step (.step (.step .init rfl) rfl) rfl) rfl, ?_⟩
  unfold PegOutTrace.NoneLost
  decide +kernel

end PegOutExample

end Rustock
