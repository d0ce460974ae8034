import Rustock.Execution.Collision

/-!
# The miner's partition

`SublistPartitioner` (crates/execution/src/mining/partition.rs): transactions are placed
one at a time by the keys they touched, in a parallel sublist or, where they would connect two of
them or do not fit, in the sequential one. Of each key only the last writer is kept, and of each
sender only the first parallel sublist until it lands in the sequential one.

What was forgotten cannot matter. A key once written in the sequential sublist stays there, a
key written in a parallel one has only that writer among the parallel ones, and the same of
senders; `Tracked` says this of the maps, one clause per map.
-/

set_option linter.unusedSectionVars false

namespace Rustock.Mining

open Lib List Option Function UInt64
open List (range length mem_map getLast?)

variable {κ : Type} [LinearOrder κ]

/-- The limits of a parallel sublist and of the sequential one. -/
def sublistGasLimits (blockGasLimit : UInt64) (parallelCount : Nat) (minSequential : UInt64) :
  UInt64 × UInt64 :=
  let total := ofNat parallelCount + 1
  if minSequential ≤ blockGasLimit / total then
    let parallel := blockGasLimit / total
    (parallel, blockGasLimit - ofNat parallelCount * parallel)
  else if blockGasLimit ≤ minSequential then (0, blockGasLimit)
  else
    let parallel := (blockGasLimit - minSequential) / ofNat parallelCount
    (parallel, blockGasLimit - ofNat parallelCount * parallel)

structure TxFootprint (κ : Type) where
  sender : Address
  gasLimit : UInt64
  gasUsed : UInt64
  reads : List κ
  writes : List κ

structure Sublist where
  gasUsed : UInt64
  gasLimit : UInt64
  transactions : List Nat

def Sublist.fits (s : Sublist) (gasLimit : UInt64) : Bool :=
  saturatingAdd64 s.gasUsed gasLimit ≤ s.gasLimit

/-- Sublist `parallelCount` is the sequential one. -/
structure SublistPartitioner (κ : Type) where
  parallelCount : Nat
  writtenBy : κ → Option Nat
  readBy : κ → Finset Nat
  senderOf : Address → Option Nat
  sublists : Nat → Sublist

namespace SublistPartitioner

def new (parallelCount : Nat) (blockGasLimit minSequential : UInt64) : SublistPartitioner κ :=
  let limits := sublistGasLimits blockGasLimit parallelCount minSequential
  { parallelCount
    writtenBy := fun _ => none
    readBy := fun _ => ∅
    senderOf := fun _ => none
    sublists := fun id => ⟨0, if id < parallelCount then limits.1 else limits.2, []⟩ }

variable (p : SublistPartitioner κ)

abbrev sequential : Nat := p.parallelCount

/-- A second, different candidate means the sequential sublist, here `none`. -/
def connect (candidate : Option Nat) (other : Nat) : Option (Option Nat) :=
  match candidate with
  | none => some (some other)
  | some current => if current ≠ other then none else some (some current)

def meetWriter (candidate : Option Nat) (key : κ) : Option (Option Nat) :=
  match p.writtenBy key with
  | none => some candidate
  | some writer => if writer = p.sequential then none else connect candidate writer

def meetReaders (candidate : Option Nat) (key : κ) : Option (Option Nat) :=
  if 1 < (p.readBy key).card then none
  else if h : (p.readBy key).Nonempty then connect candidate ((p.readBy key).min' h)
  else some candidate

def meetWrite (candidate : Option Nat) (key : κ) : Option (Option Nat) :=
  (p.meetWriter candidate key).bind (p.meetReaders · key)

def leastUsedParallel (gasLimit : UInt64) : Option Nat :=
  ((range p.parallelCount).filter fun id => (p.sublists id).fits gasLimit).foldl
    (fun best id =>
      match best with
      | none => some id
      | some b => if (p.sublists id).gasUsed < (p.sublists b).gasUsed then some id else some b)
    none

def candidateFor (tx : TxFootprint κ) : Nat :=
  if p.senderOf tx.sender = some p.sequential then p.sequential
  else
    match (tx.reads.foldlM p.meetWriter (p.senderOf tx.sender)).bind
        (tx.writes.foldlM p.meetWrite) with
    | none => p.sequential
    | some (some id) => id
    | some none => (p.leastUsedParallel tx.gasLimit).getD p.sequential

def place (index id : Nat) (tx : TxFootprint κ) : SublistPartitioner κ :=
  let s := p.sublists id
  { p with
    sublists := update p.sublists id
      { s with gasUsed := s.gasUsed + tx.gasUsed, transactions := s.transactions ++ [index] }
    readBy := fun key => if key ∈ tx.reads then insert id (p.readBy key) else p.readBy key
    senderOf :=
      if id = p.sequential then update p.senderOf tx.sender (some id)
      else update p.senderOf tx.sender ((p.senderOf tx.sender).or (some id))
    writtenBy := fun key => if key ∈ tx.writes then some id else p.writtenBy key }

/-- Where the transaction went, if it was not refused. -/
def add (index : Nat) (tx : TxFootprint κ) : Option Nat × SublistPartitioner κ :=
  let candidate := p.candidateFor tx
  if (p.sublists candidate).fits tx.gasLimit then (some candidate, p.place index candidate tx)
  else if candidate = p.sequential then (none, p)
  else if (p.sublists p.sequential).fits tx.gasLimit then
    (some p.sequential, p.place index p.sequential tx)
  else (none, p)

def addToSequential (index : Nat) (tx : TxFootprint κ) : Option Nat × SublistPartitioner κ :=
  if (p.sublists p.sequential).fits tx.gasLimit then
    (some p.sequential, p.place index p.sequential tx)
  else (none, p)

/-- The gas limit is not tested. -/
def addRemasc (index : Nat) (gasUsed : UInt64) : SublistPartitioner κ :=
  let s := p.sublists p.sequential
  { p with
    sublists := update p.sublists p.sequential
      { s with gasUsed := s.gasUsed + gasUsed, transactions := s.transactions ++ [index] } }

def transactionsInOrder : List Nat :=
  (range (p.parallelCount + 1)).flatMap fun id => (p.sublists id).transactions

def edges : List Int16 :=
  ((range p.parallelCount).foldl (fun (acc : List Int16 × Int16) id =>
    let transactions := (p.sublists id).transactions
    if transactions.isEmpty then acc
    else
      let stop := acc.2 + Int16.ofNat transactions.length
      (acc.1 ++ [stop], stop)) ([], 0)).1

end SublistPartitioner

inductive Call (κ : Type) where
  | add (index : Nat) (tx : TxFootprint κ)
  | addToSequential (index : Nat) (tx : TxFootprint κ)
  | addRemasc (index : Nat) (gasUsed : UInt64)

def Call.Sane : Call κ → Prop
  | .add _ tx | .addToSequential _ tx => tx.gasUsed ≤ tx.gasLimit
  | .addRemasc _ _ => True

/-- A transaction that was placed: by which call, under which index, where, and what it touched
(nothing is known of REMASC's). -/
structure Placed (κ : Type) where
  call : Nat
  index : Nat
  id : Nat
  tx : Option (TxFootprint κ)

namespace Placed

def reads (x : Placed κ) : List κ := (x.tx.map (·.reads)).getD []

def writes (x : Placed κ) : List κ := (x.tx.map (·.writes)).getD []

def access (x : Placed κ) : CollisionTracker.Access κ := ⟨x.reads, x.writes⟩

def Conflicts (x y : Placed κ) : Prop :=
  (∃ s, x.tx.map (·.sender) = some s ∧ y.tx.map (·.sender) = some s) ∨
  ∃ k, (k ∈ x.writes ∧ (k ∈ y.reads ∨ k ∈ y.writes)) ∨ k ∈ y.writes ∧ (k ∈ x.reads ∨ k ∈ x.writes)

end Placed

structure Trace (κ : Type) where
  p : SublistPartitioner κ
  calls : Nat
  log : List (Placed κ)

namespace Trace

def start (parallelCount : Nat) (blockGasLimit minSequential : UInt64) : Trace κ :=
  ⟨.new parallelCount blockGasLimit minSequential, 0, []⟩

def record (t : Trace κ) (index : Nat) (tx : TxFootprint κ)
  (result : Option Nat × SublistPartitioner κ) : Trace κ :=
  ⟨result.2, t.calls + 1,
    t.log ++ (result.1.map fun id => ⟨t.calls, index, id, some tx⟩).toList⟩

def step (t : Trace κ) : Call κ → Trace κ
  | .add index tx => t.record index tx (t.p.add index tx)
  | .addToSequential index tx => t.record index tx (t.p.addToSequential index tx)
  | .addRemasc index gasUsed =>
    ⟨t.p.addRemasc index gasUsed, t.calls + 1, t.log ++ [⟨t.calls, index, t.p.sequential, none⟩]⟩

def run (t : Trace κ) (calls : List (Call κ)) : Trace κ := calls.foldl step t

def placedIn (t : Trace κ) (id : Nat) : List (Placed κ) := t.log.filter (·.id = id)

def order (t : Trace κ) : List (Placed κ) :=
  (range (t.p.parallelCount + 1)).flatMap t.placedIn

def live (t : Trace κ) : List Nat :=
  (range t.p.parallelCount).filter fun id => !(t.placedIn id).isEmpty

end Trace

def Grows (c c' : Option Nat) : Prop := ∀ id, c = some id → c' = some id

lemma Grows.refl (c : Option Nat) : Grows c c := fun _ h => h

variable {c c' : Option Nat}

lemma Grows.trans {c'' : Option Nat} (h : Grows c c') (h' : Grows c' c'') : Grows c c'' :=
  fun id hid => h' id (h id hid)

lemma connect_eq_some {other : Nat} (h : SublistPartitioner.connect c other = some c') :
  Grows c c' ∧ c' = some other := by
  cases c with
  | none =>
    obtain rfl := some.inj h
    exact ⟨nofun, rfl⟩
  | some current =>
    simp only [SublistPartitioner.connect] at h
    split at h
    · cases h
    rename_i heq
    obtain rfl := some.inj h
    have heq := not_not.mp heq
    exact ⟨Grows.refl _, congrArg some heq⟩

variable {f : Option Nat → κ → Option (Option Nat)}

lemma foldlM_grows {D : κ → Nat → Prop}
  (hf : ∀ c k c', f c k = some c' → Grows c c' ∧ ∀ id, D k id → c' = some id) :
  ∀ {keys : List κ} {c c' : Option Nat}, keys.foldlM f c = some c' →
    Grows c c' ∧ ∀ k ∈ keys, ∀ id, D k id → c' = some id
  | [], c, c', h => by
    obtain rfl := some.inj h
    exact ⟨Grows.refl _, fun k hk => absurd hk not_mem_nil⟩
  | key :: keys, c, c', h => by
    rw [foldlM_cons] at h
    obtain ⟨c₁, h₁, h₂⟩ := bind_eq_some_iff.mp h
    obtain ⟨hgrow, hdemand⟩ := hf c key c₁ h₁
    obtain ⟨hrest, hkeys⟩ := foldlM_grows hf h₂
    refine ⟨hgrow.trans hrest, fun k hk id hid => ?_⟩
    rcases mem_cons.mp hk with rfl | hk
    · exact hrest id (hdemand id hid)
    · exact hkeys k hk id hid

lemma foldlM_keeps {P : Option Nat → Prop} (hf : ∀ c k c', P c → f c k = some c' → P c') :
  ∀ {keys : List κ} {c c' : Option Nat}, P c → keys.foldlM f c = some c' → P c'
  | [], c, c', hc, h => by
    obtain rfl := some.inj h
    exact hc
  | key :: keys, c, c', hc, h => by
    rw [foldlM_cons] at h
    obtain ⟨c₁, h₁, h₂⟩ := bind_eq_some_iff.mp h
    exact foldlM_keeps hf (hf c key c₁ hc h₁) h₂

namespace SublistPartitioner

variable {p : SublistPartitioner κ} {c c' : Option Nat} {key : κ}

lemma meetWriter_eq_some (h : p.meetWriter c key = some c') :
  Grows c c' ∧ ∀ id, p.writtenBy key = some id → c' = some id := by
  unfold meetWriter at h
  cases hw : p.writtenBy key with
  | none =>
    rw [hw] at h
    obtain rfl := some.inj h
    exact ⟨Grows.refl _, nofun⟩
  | some writer =>
    rw [hw] at h
    dsimp only at h
    split at h
    · cases h
    obtain ⟨hgrow, heq⟩ := connect_eq_some h
    refine ⟨hgrow, fun id hid => ?_⟩
    obtain rfl := some.inj hid
    exact heq

lemma meetReaders_eq_some (h : p.meetReaders c key = some c') :
  Grows c c' ∧ ∀ id ∈ p.readBy key, c' = some id := by
  unfold meetReaders at h
  split at h
  · cases h
  rename_i hcard
  split at h
  · rename_i hne
    obtain ⟨hgrow, heq⟩ := connect_eq_some h
    refine ⟨hgrow, fun id hid => ?_⟩
    -- there is one reader, so it is the smallest
    have hone := Finset.card_le_one.mp (not_lt.mp hcard) id hid _ (Finset.min'_mem _ hne)
    rw [hone]
    exact heq
  rename_i hempty
  obtain rfl := some.inj h
  exact ⟨Grows.refl _, fun id hid => absurd ⟨id, hid⟩ hempty⟩

lemma meetWrite_eq_some (h : p.meetWrite c key = some c') :
  Grows c c' ∧ ∀ id, (p.writtenBy key = some id ∨ id ∈ p.readBy key) → c' = some id := by
  obtain ⟨c₁, h₁, h₂⟩ := bind_eq_some_iff.mp h
  obtain ⟨hgrow₁, hwriter⟩ := meetWriter_eq_some h₁
  obtain ⟨hgrow₂, hreaders⟩ := meetReaders_eq_some h₂
  refine ⟨hgrow₁.trans hgrow₂, fun id hid => ?_⟩
  rcases hid with hid | hid
  · exact hgrow₂ id (hwriter id hid)
  · exact hreaders id hid

structure InRange (p : SublistPartitioner κ) : Prop where
  writtenBy : ∀ k id, p.writtenBy k = some id → id ≤ p.parallelCount
  readBy : ∀ k, ∀ id ∈ p.readBy k, id ≤ p.parallelCount
  senderOf : ∀ a id, p.senderOf a = some id → id ≤ p.parallelCount

lemma leastUsedParallel_lt {gasLimit : UInt64} {id : Nat}
  (h : p.leastUsedParallel gasLimit = some id) : id < p.parallelCount := by
  have hfold : ∀ (ids : List Nat) (best : Option Nat), (∀ i ∈ ids, i < p.parallelCount) →
      (∀ i, best = some i → i < p.parallelCount) →
      ∀ i, ids.foldl (fun best id =>
        match best with
        | none => some id
        | some b => if (p.sublists id).gasUsed < (p.sublists b).gasUsed then some id else some b)
        best = some i → i < p.parallelCount := by
    intro ids
    induction ids with
    | nil => exact fun best _ hbest => hbest
    | cons j ids ih =>
      intro best hids hbest
      refine ih _ (fun i hi => hids i (mem_cons_of_mem _ hi)) fun i hi => ?_
      cases best with
      | none =>
        obtain rfl := some.inj hi
        exact hids j mem_cons_self
      | some b =>
        dsimp only at hi
        split at hi
        · obtain rfl := some.inj hi
          exact hids j mem_cons_self
        · exact hbest i hi
  refine hfold _ none (fun i hi => ?_) nofun id h
  exact mem_range.mp (mem_of_mem_filter hi)

def Bounded (p : SublistPartitioner κ) (c : Option Nat) : Prop :=
  ∀ id, c = some id → id ≤ p.parallelCount

lemma connect_bounded {other : Nat} (hother : other ≤ p.parallelCount)
  (h : connect c other = some c') : Bounded p c' := by
  intro i hi
  rw [(connect_eq_some h).2] at hi
  exact some.inj hi ▸ hother

variable {k : κ}

lemma meetWriter_bounded (hp : p.InRange) (hc : Bounded p c) (h : p.meetWriter c k = some c') :
  Bounded p c' := by
  unfold meetWriter at h
  cases hw : p.writtenBy k with
  | none =>
    rw [hw] at h
    exact some.inj h ▸ hc
  | some writer =>
    rw [hw] at h
    dsimp only at h
    split at h
    · cases h
    · exact connect_bounded (hp.writtenBy k writer hw) h

lemma meetReaders_bounded (hp : p.InRange) (hc : Bounded p c) (h : p.meetReaders c k = some c') :
  Bounded p c' := by
  unfold meetReaders at h
  split at h
  · cases h
  split at h
  · rename_i hne
    exact connect_bounded (hp.readBy k _ (Finset.min'_mem _ hne)) h
  · exact some.inj h ▸ hc

lemma meetWrite_bounded (hp : p.InRange) (hc : Bounded p c) (h : p.meetWrite c k = some c') :
  Bounded p c' := by
  obtain ⟨c₁, h₁, h₂⟩ := bind_eq_some_iff.mp h
  exact meetReaders_bounded hp (meetWriter_bounded hp hc h₁) h₂

structure Allowed (p : SublistPartitioner κ) (tx : TxFootprint κ) (id : Nat) : Prop where
  sender : ∀ i, p.senderOf tx.sender = some i → i = id
  read : ∀ k ∈ tx.reads, ∀ i, p.writtenBy k = some i → i = id
  write : ∀ k ∈ tx.writes, ∀ i, (p.writtenBy k = some i ∨ i ∈ p.readBy k) → i = id

/-- **The candidate** is the sequential sublist, or one that everything earlier agrees with. -/
theorem candidateFor_spec (hp : p.InRange) (tx : TxFootprint κ) : p.candidateFor tx = p.sequential ∨
    p.candidateFor tx ≤ p.parallelCount ∧ Allowed p tx (p.candidateFor tx) := by
  unfold candidateFor
  split
  · exact .inl rfl
  cases hloop : (tx.reads.foldlM p.meetWriter (p.senderOf tx.sender)).bind
      (tx.writes.foldlM p.meetWrite) with
  | none => exact .inl rfl
  | some c =>
    obtain ⟨c₁, h₁, h₂⟩ := bind_eq_some_iff.mp hloop
    obtain ⟨hgrow₁, hreads⟩ := foldlM_grows
      (D := fun k id => p.writtenBy k = some id) (fun _ _ _ h => meetWriter_eq_some h) h₁
    obtain ⟨hgrow₂, hwrites⟩ := foldlM_grows
      (D := fun k id => p.writtenBy k = some id ∨ id ∈ p.readBy k)
      (fun _ _ _ h => meetWrite_eq_some h) h₂
    have hsender (i : Nat) (hi : p.senderOf tx.sender = some i) : c = some i :=
      hgrow₂ i (hgrow₁ i hi)
    have hread (k : κ) (hk : k ∈ tx.reads) (i : Nat) (hi : p.writtenBy k = some i) : c = some i :=
      hgrow₂ i (hreads k hk i hi)
    cases c with
    | none =>
      -- nothing earlier is connected, so any sublist will do
      have hallowed (id : Nat) : Allowed p tx id :=
        ⟨fun i hi => (by cases hsender i hi), fun k hk i hi => (by cases hread k hk i hi),
          fun k hk i hi => (by cases hwrites k hk i hi)⟩
      dsimp only
      cases hleast : p.leastUsedParallel tx.gasLimit with
      | none => exact .inl rfl
      | some id => exact .inr ⟨(leastUsedParallel_lt hleast).le, hallowed id⟩
    | some id =>
      refine .inr ⟨?_, fun i hi => (some.inj (hsender i hi)).symm,
        fun k hk i hi => (some.inj (hread k hk i hi)).symm,
        fun k hk i hi => (some.inj (hwrites k hk i hi)).symm⟩
      -- a candidate comes from one of the maps
      have hbound : Bounded p (some id) :=
        foldlM_keeps (P := Bounded p) (fun _ _ _ hc h => meetWrite_bounded hp hc h)
          (foldlM_keeps (P := Bounded p) (fun _ _ _ hc h => meetWriter_bounded hp hc h)
            (hp.senderOf tx.sender) h₁) h₂
      exact hbound id rfl

end SublistPartitioner

namespace Trace

structure Tracked (t : Trace κ) : Prop where
  inRange : t.p.InRange
  id_le : ∀ x ∈ t.log, x.id ≤ t.p.parallelCount
  readBy : ∀ x ∈ t.log, ∀ k ∈ x.reads, x.id ∈ t.p.readBy k
  writtenBy : ∀ x ∈ t.log, ∀ k ∈ x.writes,
    t.p.writtenBy k = some x.id ∨ t.p.writtenBy k = some t.p.sequential
  senderOf : ∀ x ∈ t.log, ∀ tx, x.tx = some tx →
    t.p.senderOf tx.sender = some x.id ∨ t.p.senderOf tx.sender = some t.p.sequential
  transactions : ∀ id, (t.p.sublists id).transactions = (t.placedIn id).map (·.index)
  /-- A transaction that conflicts with an earlier one is in its sublist or the sequential one. -/
  serial : t.log.Pairwise fun x y => x.Conflicts y → y.id = t.p.sequential ∨ x.id = y.id

lemma tracked_start (parallelCount : Nat) (blockGasLimit minSequential : UInt64) :
  Tracked (start parallelCount blockGasLimit minSequential : Trace κ) where
  inRange :=
    { writtenBy := nofun
      readBy := fun _ _ h => absurd h (Finset.notMem_empty _)
      senderOf := nofun }
  id_le := fun _ h => absurd h not_mem_nil
  readBy := fun _ h => absurd h not_mem_nil
  writtenBy := fun _ h => absurd h not_mem_nil
  senderOf := fun _ h => absurd h not_mem_nil
  transactions := fun _ => rfl
  serial := .nil

variable {t : Trace κ} {tx : TxFootprint κ} {id : Nat} {x y : Placed κ}

lemma Tracked.id_eq_of_conflicts (h : t.Tracked) (hid : id ≠ t.p.sequential)
  (hallowed : t.p.Allowed tx id) (hx : x ∈ t.log) (hy : y.tx = some tx)
  (hconflict : x.Conflicts y) : x.id = id := by
  have hreads : y.reads = tx.reads := by rw [Placed.reads, hy]; rfl
  have hwrites : y.writes = tx.writes := by rw [Placed.writes, hy]; rfl
  -- a map that has moved on to the sequential sublist would forbid the parallel one
  have hseq {i : Nat} (hi : i = id) (heq : i = t.p.sequential) : False := hid (hi ▸ heq)
  have hwriter {k : κ} (hk : k ∈ x.writes)
      (hdemand : ∀ i, t.p.writtenBy k = some i → i = id) : x.id = id := by
    rcases h.writtenBy x hx k hk with hw | hw
    · exact hdemand _ hw
    · exact (hseq (hdemand _ hw) rfl).elim
  unfold Placed.Conflicts at hconflict
  rw [hreads, hwrites, hy] at hconflict
  rcases hconflict with ⟨s, hs, hs'⟩ | ⟨k, ⟨hw, hr | hw'⟩ | ⟨hw', hr | hw⟩⟩
  · obtain ⟨tx', htx', rfl⟩ := map_eq_some_iff.mp hs
    obtain heq : tx.sender = tx'.sender := some.inj hs'
    rcases h.senderOf x hx tx' htx' with hs | hs
    · exact hallowed.sender _ (heq ▸ hs)
    · exact (hseq (hallowed.sender _ (heq ▸ hs)) rfl).elim
  · exact hwriter hw (hallowed.read k hr)
  · exact hwriter hw fun i hi => hallowed.write k hw' i (.inl hi)
  · exact hallowed.write k hw' x.id (.inr (h.readBy x hx k hr))
  · exact hwriter hw fun i hi => hallowed.write k hw' i (.inl hi)

lemma placedIn_append (t : Trace κ) (x : Placed κ) (p : SublistPartitioner κ) (calls id : Nat) :
  (⟨p, calls, t.log ++ [x]⟩ : Trace κ).placedIn id =
    t.placedIn id ++ if x.id = id then [x] else [] := by
  by_cases hx : x.id = id <;> simp [placedIn, filter_append, hx]

lemma Tracked.place (h : t.Tracked) (index : Nat) (hle : id ≤ t.p.parallelCount)
  (hid : id = t.p.sequential ∨ t.p.Allowed tx id) :
  Tracked ⟨t.p.place index id tx, t.calls + 1, t.log ++ [⟨t.calls, index, id, some tx⟩]⟩ where
  inRange :=
    { writtenBy := fun k i hi => by
        simp only [SublistPartitioner.place] at hi
        split at hi
        · exact some.inj hi ▸ hle
        · exact h.inRange.writtenBy k i hi
      readBy := fun k i hi => by
        simp only [SublistPartitioner.place] at hi
        split at hi
        · rcases Finset.mem_insert.mp hi with rfl | hi
          · exact hle
          · exact h.inRange.readBy k i hi
        · exact h.inRange.readBy k i hi
      senderOf := fun a i hi => by
        have hold := h.inRange.senderOf
        simp only [SublistPartitioner.place] at hi
        by_cases ha : a = tx.sender
        · subst ha
          split at hi
          · rw [update_self] at hi
            exact some.inj hi ▸ hle
          rw [update_self] at hi
          rcases or_eq_some_iff.mp hi with hi | ⟨_, hi⟩
          · exact hold _ i hi
          · exact some.inj hi ▸ hle
        · split at hi <;> rw [update_of_ne ha] at hi <;> exact hold a i hi }
  id_le := fun x hx => by
    rcases mem_append.mp hx with hx | hx
    · exact h.id_le x hx
    obtain rfl := mem_singleton.mp hx
    exact hle
  readBy := fun x hx k hk => by
    simp only [SublistPartitioner.place]
    rcases mem_append.mp hx with hx | hx
    · have hmem := h.readBy x hx k hk
      split
      · exact Finset.mem_insert_of_mem hmem
      · exact hmem
    obtain rfl := mem_singleton.mp hx
    rw [if_pos (show k ∈ tx.reads from hk)]
    exact Finset.mem_insert_self _ _
  writtenBy := fun x hx k hk => by
    simp only [SublistPartitioner.place]
    rcases mem_append.mp hx with hx | hx
    · split
      · rename_i hk'
        -- both write the key: one sublist, or the later one is in the sequential sublist
        rcases hid with hseq | hallowed
        · exact .inr (congrArg some hseq)
        by_cases hs : id = t.p.sequential
        · exact .inr (congrArg some hs)
        have heq : x.id = id := h.id_eq_of_conflicts (y := ⟨0, 0, id, some tx⟩) hs hallowed hx
          rfl (.inr ⟨k, .inl ⟨hk, .inr hk'⟩⟩)
        exact .inl (congrArg some heq.symm)
      · exact h.writtenBy x hx k hk
    obtain rfl := mem_singleton.mp hx
    rw [if_pos (show k ∈ tx.writes from hk)]
    exact .inl rfl
  senderOf := fun x hx tx' htx' => by
    simp only [SublistPartitioner.place]
    rcases mem_append.mp hx with hx | hx
    · have hold := h.senderOf x hx tx' htx'
      by_cases hs : tx'.sender = tx.sender
      · rw [hs] at hold ⊢
        split
        · rename_i hseq
          exact .inr (by rw [update_self, hseq])
        rw [update_self]
        rcases hold with hold | hold
        · exact .inl (by rw [hold, some_or])
        · exact .inr (by rw [hold, some_or])
      · split <;> rw [update_of_ne hs] <;> exact hold
    obtain rfl := mem_singleton.mp hx
    obtain rfl := some.inj htx'
    split
    · exact .inl (update_self ..)
    rename_i hseq
    rw [update_self]
    cases hold : t.p.senderOf tx.sender with
    | none => exact .inl rfl
    | some i =>
      have heq := (hid.resolve_left hseq).sender i hold
      exact .inl (by rw [some_or, heq])
  transactions := fun i => by
    rw [placedIn_append]
    simp only [SublistPartitioner.place]
    by_cases hi : i = id
    · subst hi
      simp [h.transactions i]
    rw [update_of_ne hi, h.transactions i]
    simp [Ne.symm hi]
  serial := by
    refine pairwise_append.mpr ⟨h.serial, pairwise_singleton _ _, fun x hx y hy => ?_⟩
    obtain rfl := mem_singleton.mp hy
    intro hconflict
    rcases hid with hseq | hallowed
    · exact .inl hseq
    by_cases hs : id = t.p.sequential
    · exact .inl hs
    · exact .inr (h.id_eq_of_conflicts hs hallowed hx rfl hconflict)

lemma Tracked.addRemasc (h : t.Tracked) (index : Nat) (gasUsed : UInt64) :
  Tracked (t.step (.addRemasc index gasUsed)) where
  inRange := ⟨h.inRange.writtenBy, h.inRange.readBy, h.inRange.senderOf⟩
  id_le := fun x hx => by
    rcases mem_append.mp hx with hx | hx
    · exact h.id_le x hx
    obtain rfl := mem_singleton.mp hx
    exact le_rfl
  readBy := fun x hx k hk => by
    rcases mem_append.mp hx with hx | hx
    · exact h.readBy x hx k hk
    obtain rfl := mem_singleton.mp hx
    exact absurd hk not_mem_nil
  writtenBy := fun x hx k hk => by
    rcases mem_append.mp hx with hx | hx
    · exact h.writtenBy x hx k hk
    obtain rfl := mem_singleton.mp hx
    exact absurd hk not_mem_nil
  senderOf := fun x hx tx htx => by
    rcases mem_append.mp hx with hx | hx
    · exact h.senderOf x hx tx htx
    obtain rfl := mem_singleton.mp hx
    cases htx
  transactions := fun i => by
    have happend := placedIn_append t ⟨t.calls, index, t.p.sequential, none⟩
      (t.p.addRemasc index gasUsed) (t.calls + 1) i
    simp only [step]
    rw [happend]
    by_cases hi : i = t.p.sequential
    · subst hi
      simp [SublistPartitioner.addRemasc, h.transactions]
    · simp [SublistPartitioner.addRemasc, update_of_ne hi, h.transactions, Ne.symm hi]
  serial := by
    refine pairwise_append.mpr ⟨h.serial, pairwise_singleton _ _, fun x _ y hy _ => ?_⟩
    obtain rfl := mem_singleton.mp hy
    exact .inl rfl

lemma Tracked.refused (h : t.Tracked) : Tracked ⟨t.p, t.calls + 1, t.log ++ []⟩ := by
  rw [append_nil]
  exact ⟨h.inRange, h.id_le, h.readBy, h.writtenBy, h.senderOf, h.transactions, h.serial⟩

/-- **Step lemma**, maps. -/
theorem Tracked.step (h : t.Tracked) (call : Call κ) : Tracked (t.step call) := by
  have hseq (index : Nat) (tx : TxFootprint κ) :
      Tracked ⟨t.p.place index t.p.sequential tx, t.calls + 1,
        t.log ++ [⟨t.calls, index, t.p.sequential, some tx⟩]⟩ :=
    h.place index (le_refl t.p.parallelCount) (.inl rfl)
  cases call with
  | add index tx =>
    simp only [Trace.step, record, SublistPartitioner.add]
    split
    · rcases SublistPartitioner.candidateFor_spec h.inRange tx with heq | ⟨hle, hallowed⟩
      · exact h.place index heq.le (.inl heq)
      · exact h.place index hle (.inr hallowed)
    split
    · exact h.refused
    split
    · exact hseq index tx
    · exact h.refused
  | addToSequential index tx =>
    simp only [Trace.step, record, SublistPartitioner.addToSequential]
    split
    · exact hseq index tx
    · exact h.refused
  | addRemasc index gasUsed => exact h.addRemasc index gasUsed

structure WithinLimits (t : Trace κ) : Prop where
  parallel : ∀ id < t.p.parallelCount, (t.p.sublists id).gasUsed ≤ (t.p.sublists id).gasLimit
  sequential : (t.p.sublists t.p.sequential).gasUsed ≤ (t.p.sublists t.p.sequential).gasLimit ∨
    ∃ x, (t.placedIn t.p.sequential).getLast? = some x ∧ x.tx = none

lemma gasUsed_le_of_fits {s : Sublist} {gasLimit gasUsed : UInt64} (h : s.fits gasLimit = true)
  (hused : gasUsed ≤ gasLimit) : s.gasUsed + gasUsed ≤ s.gasLimit := by
  have hfits : saturatingAdd64 s.gasUsed gasLimit ≤ s.gasLimit := of_decide_eq_true h
  rw [le_iff_toNat_le] at hfits hused ⊢
  unfold saturatingAdd64 at hfits
  split at hfits
  · rw [UInt64.toNat_add] at hfits ⊢
    omega
  have hmax : (0xFFFFFFFFFFFFFFFF : UInt64).toNat = 2 ^ 64 - 1 := rfl
  have := (s.gasUsed + gasUsed).toNat_lt
  omega

lemma WithinLimits.place (h : t.WithinLimits) (index : Nat)
  (hfits : (t.p.sublists id).fits tx.gasLimit = true) (hused : tx.gasUsed ≤ tx.gasLimit) :
  WithinLimits ⟨t.p.place index id tx, t.calls + 1, t.log ++ [⟨t.calls, index, id, some tx⟩]⟩ where
  parallel := fun i hi => by
    simp only [SublistPartitioner.place]
    by_cases heq : i = id
    · subst heq
      rw [update_self]
      exact gasUsed_le_of_fits hfits hused
    rw [update_of_ne heq]
    exact h.parallel i hi
  sequential := by
    by_cases heq : t.p.parallelCount = id
    · subst heq
      refine .inl ?_
      simp only [SublistPartitioner.place, update_self]
      exact gasUsed_le_of_fits hfits hused
    have hplaced := placedIn_append t ⟨t.calls, index, id, some tx⟩ (t.p.place index id tx)
      (t.calls + 1) t.p.parallelCount
    rw [if_neg (Ne.symm heq), append_nil] at hplaced
    have hsame : (t.p.place index id tx).sublists t.p.parallelCount =
        t.p.sublists t.p.parallelCount := update_of_ne heq _ _
    rcases h.sequential with hle | ⟨x, hx, hnone⟩
    · refine .inl ?_
      show ((t.p.place index id tx).sublists t.p.parallelCount).gasUsed ≤
        ((t.p.place index id tx).sublists t.p.parallelCount).gasLimit
      rw [hsame]
      exact hle
    · exact .inr ⟨x, (congrArg getLast? hplaced).trans hx, hnone⟩

lemma WithinLimits.step (h : t.WithinLimits) {call : Call κ} (hsane : call.Sane) :
  WithinLimits (t.step call) := by
  have hrefused : WithinLimits (⟨t.p, t.calls + 1, t.log ++ []⟩ : Trace κ) := by
    rw [append_nil]
    exact ⟨h.parallel, h.sequential⟩
  cases call with
  | add index tx =>
    simp only [Trace.step, record, SublistPartitioner.add]
    split
    · rename_i hfits
      exact h.place index hfits hsane
    split
    · exact hrefused
    split
    · rename_i hfits
      exact h.place index hfits hsane
    · exact hrefused
  | addToSequential index tx =>
    simp only [Trace.step, record, SublistPartitioner.addToSequential]
    split
    · rename_i hfits
      exact h.place index hfits hsane
    · exact hrefused
  | addRemasc index gasUsed =>
    refine ⟨fun i hi => ?_, .inr ⟨⟨t.calls, index, t.p.sequential, none⟩, ?_, rfl⟩⟩
    · have hne : i ≠ t.p.sequential := Nat.ne_of_lt hi
      simp only [Trace.step, SublistPartitioner.addRemasc, update_of_ne hne]
      exact h.parallel i hi
    have happend := placedIn_append t ⟨t.calls, index, t.p.sequential, none⟩
      (t.p.addRemasc index gasUsed) (t.calls + 1) t.p.sequential
    simp only [Trace.step]
    exact (congrArg getLast? happend).trans (by simp)

lemma withinLimits_start (parallelCount : Nat) (blockGasLimit minSequential : UInt64) :
  WithinLimits (start parallelCount blockGasLimit minSequential : Trace κ) where
  parallel := fun _ _ => le_iff_toNat_le.mpr (Nat.zero_le _)
  sequential := .inl (le_iff_toNat_le.mpr (Nat.zero_le _))

lemma flatMap_filter_isEmpty {α β : Type} (f : α → List β) (l : List α) :
  (l.filter fun a => !(f a).isEmpty).flatMap f = l.flatMap f := by
  induction l with
  | nil => rfl
  | cons a l ih =>
    rw [filter_cons]
    split
    · rw [flatMap_cons, flatMap_cons, ih]
    rename_i hempty
    have hnil : f a = [] := by simpa using hempty
    rw [ih, flatMap_cons, hnil, nil_append]

lemma order_eq (t : Trace κ) :
  t.order = (t.live.map t.placedIn).flatten ++ t.placedIn t.p.sequential := by
  rw [order, range_succ, flatMap_append, ← flatMap_def, live,
    flatMap_filter_isEmpty, flatMap_singleton]

lemma flatMap_placedIn_perm (t : Trace κ) (n : Nat) :
  ((range n).flatMap t.placedIn).Perm (t.log.filter (·.id < n)) := by
  induction n with
  | zero => simp
  | succ n ih =>
    rw [range_succ, flatMap_append, flatMap_singleton]
    have hsplit := filter_append_perm (fun x : Placed κ => decide (x.id < n))
      (t.log.filter (·.id < n + 1))
    rw [List.filter_filter, List.filter_filter] at hsplit
    have hlow : t.log.filter (fun x => decide (x.id < n) && decide (x.id < n + 1)) =
        t.log.filter (·.id < n) := List.filter_congr fun x _ => by
      rw [← Bool.decide_and]
      exact decide_eq_decide.mpr (by omega)
    have hhigh : t.log.filter (fun x => !decide (x.id < n) && decide (x.id < n + 1)) =
        t.placedIn n := List.filter_congr fun x _ => by
      rw [← decide_not, ← Bool.decide_and]
      exact decide_eq_decide.mpr (by omega)
    rw [hlow, hhigh] at hsplit
    exact (ih.append_right _).trans hsplit

lemma Tracked.order_perm (h : t.Tracked) : t.order.Perm t.log := by
  refine (flatMap_placedIn_perm t _).trans (List.Perm.of_eq ?_)
  exact filter_eq_self.mpr fun x hx => decide_eq_true (Nat.lt_succ_of_le (h.id_le x hx))

lemma mem_live : id ∈ t.live ↔ id < t.p.parallelCount ∧ t.placedIn id ≠ [] := by simp [live]

lemma nodup_live (t : Trace κ) : t.live.Nodup := nodup_range.filter _

lemma Tracked.order_sublist (h : t.Tracked) (hxy : [x, y].Sublist t.log)
  (hid : y.id = t.p.sequential ∨ x.id = y.id) : [x, y].Sublist t.order := by
  have hx : x ∈ t.log := hxy.subset (by simp)
  by_cases heq : x.id = y.id
  · -- within one sublist the order is that of the calls
    have hin : [x, y].Sublist (t.placedIn y.id) := by
      have := hxy.filter (fun z => decide (z.id = y.id))
      simpa [heq, placedIn] using this
    have hy : y.id < t.p.parallelCount + 1 :=
      Nat.lt_succ_of_le (h.id_le y (hxy.subset (by simp)))
    refine hin.trans ?_
    rw [order, flatMap_def]
    exact sublist_flatten_of_mem (List.mem_map_of_mem (mem_range.mpr hy))
  have hseq := hid.resolve_right heq
  have hlt : x.id < t.p.parallelCount :=
    lt_of_le_of_ne (h.id_le x hx) fun hx => heq (hx.trans hseq.symm)
  have hfirst : x ∈ (range t.p.parallelCount).flatMap t.placedIn :=
    mem_flatMap.mpr ⟨x.id, mem_range.mpr hlt, by simp [placedIn, hx]⟩
  have hsecond : y ∈ t.placedIn t.p.sequential := by
    simp [placedIn, hseq, hxy.subset (show y ∈ [x, y] by simp)]
  rw [order, range_succ, flatMap_append, flatMap_singleton]
  exact (singleton_sublist.mpr hfirst).append (singleton_sublist.mpr hsecond)

lemma boundaries_congr {α β : Type} {l : List (List α)} {m : List (List β)} (s : Nat)
  (h : l.map length = m.map length) : boundaries s l = boundaries s m := by
  induction l generalizing m s with
  | nil =>
    obtain rfl : m = [] := by simpa using h.symm
    rfl
  | cons a l ih =>
    cases m with
    | nil => simp at h
    | cons b m =>
      obtain ⟨hab, hlm⟩ := List.cons.inj h
      rw [boundaries, boundaries, hab, ih _ hlm]

lemma edges_loop (f : Nat → List Nat) : ∀ (ids : List Nat) (acc : List Int16) (a : Int16),
  0 ≤ a.toInt → a.toInt + (ids.flatMap f).length < 2 ^ 15 →
  ∃ es, (ids.foldl (fun (acc : List Int16 × Int16) id => if (f id).isEmpty then acc
      else (acc.1 ++ [acc.2 + Int16.ofNat (f id).length],
        acc.2 + Int16.ofNat (f id).length)) (acc, a)).1 = acc ++ es ∧ es.map (·.toInt.toNat) =
      boundaries a.toInt.toNat ((ids.filter fun id => !(f id).isEmpty).map f) ∧
    ∀ e ∈ es, 0 ≤ e.toInt
  | [], acc, a, _, _ => ⟨[], (append_nil acc).symm, rfl, fun _ h => absurd h not_mem_nil⟩
  | id :: ids, acc, a, hpos, hsum => by
    rw [flatMap_cons, length_append] at hsum
    rw [foldl_cons, filter_cons]
    by_cases hempty : (f id).isEmpty = true
    · rw [if_pos hempty, if_neg (by simp [hempty])]
      exact edges_loop f ids acc a hpos (by omega)
    rw [if_neg hempty, if_pos (by simp [hempty]), map_cons, boundaries]
    have hstop : (a + Int16.ofNat (f id).length).toInt = a.toInt + (f id).length := by
      rw [Int16.toInt_add, Int16.toInt_ofNat_of_lt (by omega)]
      refine Int.bmod_eq_of_le ?_ ?_ <;> omega
    obtain ⟨es, hes, hmap, hnonneg⟩ := edges_loop f ids (acc ++ [a + Int16.ofNat (f id).length])
      (a + Int16.ofNat (f id).length) (by omega) (by omega)
    refine ⟨(a + Int16.ofNat (f id).length) :: es, ?_, ?_, fun e he => ?_⟩
    · rw [hes, append_assoc]
      rfl
    · rw [map_cons, hmap, hstop]
      have hnat : (a.toInt + (f id).length).toNat = a.toInt.toNat + (f id).length := by omega
      rw [hnat]
    rcases mem_cons.mp he with rfl | he
    · omega
    · exact hnonneg e he

lemma Tracked.edges_spec (h : t.Tracked) (hcount : t.log.length < 2 ^ 15) :
  t.p.edges.map (·.toInt.toNat) = boundaries 0 (t.live.map t.placedIn) ∧
    ∀ e ∈ t.p.edges, 0 ≤ e.toInt := by
  have hlength (id : Nat) : (t.p.sublists id).transactions.length = (t.placedIn id).length := by
    rw [h.transactions, length_map]
  have hempty (id : Nat) : (t.p.sublists id).transactions.isEmpty = (t.placedIn id).isEmpty := by
    rw [h.transactions, isEmpty_map]
  have hsum : ((range t.p.parallelCount).flatMap
      fun id => (t.p.sublists id).transactions).length ≤ t.log.length := by
    have hlen : ((range t.p.parallelCount).flatMap
        fun id => (t.p.sublists id).transactions).length =
        ((range t.p.parallelCount).flatMap t.placedIn).length := by
      simp only [length_flatMap, hlength]
    rw [hlen, (flatMap_placedIn_perm t _).length_eq]
    exact length_filter_le _ _
  obtain ⟨es, hes, hmap, hnonneg⟩ := edges_loop (fun id => (t.p.sublists id).transactions)
    (range t.p.parallelCount) [] 0 le_rfl (by
      rw [Int16.toInt_zero]
      omega)
  have hedges : t.p.edges = es := hes
  rw [hedges, hmap]
  refine ⟨?_, hnonneg⟩
  have hlive : (range t.p.parallelCount).filter
      (fun id => !(t.p.sublists id).transactions.isEmpty) = t.live := by
    simp only [hempty]
    rfl
  rw [hlive]
  refine boundaries_congr 0 ?_
  simp only [List.map_map]
  exact map_congr_left fun id _ => hlength id

lemma exists_of_getElem?_flatten {α : Type} {segments : List (List α)} {n : Nat} {x : α}
  (h : segments.flatten[n]? = some x) : ∃ i l j, segments[i]? = some l ∧ l[j]? = some x ∧
    n = (segments.take i).flatten.length + j := by
  induction segments generalizing n with
  | nil => simp at h
  | cons l ls ih =>
    rw [flatten_cons] at h
    rcases Nat.lt_or_ge n l.length with hlt | hge
    · rw [getElem?_append_left hlt] at h
      exact ⟨0, l, n, rfl, h, by simp⟩
    rw [getElem?_append_right hge] at h
    obtain ⟨i, l', j, hi, hj, hn⟩ := ih h
    refine ⟨i + 1, l', j, hi, hj, ?_⟩
    simp only [take_succ_cons, flatten_cons, length_append]
    omega

lemma id_of_mem_placedIn (h : x ∈ t.placedIn id) : x.id = id :=
  of_decide_eq_true (mem_filter.mp h).2

/-- **Attribution.** `sublist_of` gives a position the sublist its transaction was placed in. -/
theorem Tracked.sublistOf_eq_idxOf (h : t.Tracked) (hcount : t.log.length < 2 ^ 15) {n : Nat}
  (hx : t.order[n]? = some x) : sublistOf n t.p.edges = t.live.idxOf? x.id := by
  obtain ⟨hedges, hnonneg⟩ := h.edges_spec hcount
  have hlen : t.p.edges.length = t.live.length := by
    have := congrArg length hedges
    simpa using this
  rw [sublistOf_eq hnonneg, hedges, hlen]
  rw [order_eq] at hx
  rcases Nat.lt_or_ge n (t.live.map t.placedIn).flatten.length with hlt | hge
  · -- a position inside parallel sublist number `i`
    rw [getElem?_append_left hlt] at hx
    obtain ⟨i, l, j, hi, hj, rfl⟩ := exists_of_getElem?_flatten hx
    have hj' : j < l.length := (List.getElem?_eq_some_iff.mp hj).1
    have hcut := countP_boundaries (s := 0) hi hj'
    rw [Nat.zero_add] at hcut
    rw [getElem?_map] at hi
    obtain ⟨id, hid, rfl⟩ := map_eq_some_iff.mp hi
    have hxid : x.id = id := id_of_mem_placedIn (mem_of_getElem? hj)
    have hi' : i < t.live.length := (List.getElem?_eq_some_iff.mp hid).1
    dsimp only
    rw [hcut, if_pos hi', hxid, eq_comm, idxOf?_eq_some_iff]
    obtain ⟨_, heq⟩ := List.getElem?_eq_some_iff.mp hid
    refine ⟨hi', by simpa using heq, fun m hm => ?_⟩
    -- an earlier occurrence would be a second one
    intro hdup
    have := (getElem_inj (nodup_live t)).mp
      ((beq_iff_eq.mp (by simpa using hdup)).trans heq.symm)
    omega
  rw [getElem?_append_right hge] at hx
  have hxid : x.id = t.p.sequential := id_of_mem_placedIn (mem_of_getElem? hx)
  obtain ⟨j, rfl⟩ := Nat.exists_eq_add_of_le hge
  have hcut := @countP_boundaries_end _ (t.live.map t.placedIn) 0 j
  rw [Nat.zero_add, length_map] at hcut
  dsimp only
  rw [hcut, if_neg (lt_irrefl _), hxid, eq_comm, idxOf?_eq_none_iff]
  intro hmem
  exact lt_irrefl _ (mem_live.mp hmem).1

structure Valid (t : Trace κ) : Prop where
  /-- No key written by one parallel sublist is touched by another. -/
  separate : ∀ x ∈ t.log, ∀ y ∈ t.log, x.id ≠ y.id → x.id ≠ t.p.sequential →
    y.id ≠ t.p.sequential → ∀ k ∈ x.writes, k ∉ y.reads ∧ k ∉ y.writes
  /-- The placements are told apart by their calls. -/
  calls : (t.log.map (·.call)).Pairwise (· < ·)
  /-- The block has every placement once, -/
  complete : t.order.Perm t.log
  transactions : t.p.transactionsInOrder = t.order.map (·.index)
  /-- and conflicting ones in the order they were added. -/
  ordered : ∀ x y, [x, y].Sublist t.log → x.Conflicts y → [x, y].Sublist t.order
  limits : t.WithinLimits
  increasing : (t.p.edges.map (·.toInt)).Pairwise (· < ·)
  few : t.p.edges.length ≤ t.p.parallelCount
  /-- A position is attributed to the sublist of its transaction. -/
  cut : ∀ n x, t.order[n]? = some x → sublistOf n t.p.edges = t.live.idxOf? x.id
  accepted : (CollisionTracker.new.recordAll t.p.edges 0
    (t.order.map Placed.access)).detectCollision = false

lemma conflicts_symm (h : x.Conflicts y) : y.Conflicts x := by
  rcases h with ⟨s, hx, hy⟩ | ⟨k, h | h⟩
  · exact .inl ⟨s, hy, hx⟩
  · exact .inr ⟨k, .inr h⟩
  · exact .inr ⟨k, .inl h⟩

lemma Tracked.separate (h : t.Tracked) (hx : x ∈ t.log) (hy : y ∈ t.log) (hne : x.id ≠ y.id)
  (hxs : x.id ≠ t.p.sequential) (hys : y.id ≠ t.p.sequential) : ¬x.Conflicts y := by
  -- whichever was placed first, the other is in the same sublist or the sequential one
  have hsymm : t.log.Pairwise fun x y => x.id ≠ y.id → x.id ≠ t.p.sequential →
      y.id ≠ t.p.sequential → ¬x.Conflicts y :=
    h.serial.imp fun hserial hne _ hys hconflict =>
      (hserial hconflict).elim hys hne
  have : Std.Symm fun x y : Placed κ => x.id ≠ y.id → x.id ≠ t.p.sequential →
      y.id ≠ t.p.sequential → ¬x.Conflicts y :=
    ⟨fun a b hab hne ha hb hc => hab hne.symm hb ha (conflicts_symm hc)⟩
  exact hsymm.forall_of_forall (fun a _ hne => absurd rfl hne) hx hy hne hxs hys

lemma Tracked.increasing (h : t.Tracked) (hcount : t.log.length < 2 ^ 15) :
  (t.p.edges.map (·.toInt)).Pairwise (· < ·) := by
  obtain ⟨hedges, hnonneg⟩ := h.edges_spec hcount
  have hpair : (t.p.edges.map (·.toInt.toNat)).Pairwise (· < ·) := by
    rw [hedges]
    refine pairwise_boundaries 0 fun l hl => ?_
    obtain ⟨id, hid, rfl⟩ := mem_map.mp hl
    exact (mem_live.mp hid).2
  rw [pairwise_map] at hpair ⊢
  refine hpair.imp_of_mem fun ha hb hab => ?_
  have := hnonneg _ ha
  have := hnonneg _ hb
  omega

lemma Tracked.accepted (h : t.Tracked) (hcount : t.log.length < 2 ^ 15) :
  (CollisionTracker.new.recordAll t.p.edges 0
    (t.order.map Placed.access)).detectCollision = false := by
  rw [← Bool.not_eq_true, CollisionTracker.detectCollision_recordAll]
  rintro ⟨i, j, a, b, u, v, k, ha, hb, hi, hj, huv, hw, hk⟩
  rw [getElem?_map] at ha hb
  obtain ⟨x, hx, rfl⟩ := map_eq_some_iff.mp ha
  obtain ⟨y, hy, rfl⟩ := map_eq_some_iff.mp hb
  rw [h.sublistOf_eq_idxOf hcount hx] at hi
  rw [h.sublistOf_eq_idxOf hcount hy] at hj
  have hparallel {z : Placed κ} {w : Nat} (hz : t.live.idxOf? z.id = some w) :
      z.id ≠ t.p.sequential := by
    have hmem : z.id ∈ t.live := by
      by_contra hmem
      rw [idxOf?_eq_none_iff.mpr hmem] at hz
      cases hz
    exact Nat.ne_of_lt (mem_live.mp hmem).1
  have hne : x.id ≠ y.id := by
    intro heq
    rw [heq, hj] at hi
    exact huv (some.inj hi).symm
  have hmem {z : Placed κ} {n : Nat} (hz : t.order[n]? = some z) : z ∈ t.log :=
    h.order_perm.mem_iff.mp (mem_of_getElem? hz)
  exact h.separate (hmem hx) (hmem hy) hne (hparallel hi) (hparallel hj) (.inr ⟨k, .inl ⟨hw, hk⟩⟩)

def Numbered (t : Trace κ) : Prop :=
  (t.log.map (·.call)).Pairwise (· < ·) ∧ ∀ x ∈ t.log, x.call < t.calls

lemma Numbered.append (h : t.Numbered) (p : SublistPartitioner κ) (new : List (Placed κ))
  (hnew : new.length ≤ 1) (hcall : ∀ x ∈ new, x.call = t.calls) :
  Numbered ⟨p, t.calls + 1, t.log ++ new⟩ := by
  refine ⟨?_, fun x hx => ?_⟩
  · rw [map_append, pairwise_append]
    refine ⟨h.1, ?_, fun a ha b hb => ?_⟩
    · rcases new with _ | ⟨x, _ | ⟨y, rest⟩⟩
      · exact .nil
      · exact pairwise_singleton _ _
      · simp at hnew
    obtain ⟨x, hx, rfl⟩ := mem_map.mp ha
    obtain ⟨y, hy, rfl⟩ := mem_map.mp hb
    rw [hcall y hy]
    exact h.2 x hx
  rcases mem_append.mp hx with hx | hx
  · exact Nat.lt_succ_of_lt (h.2 x hx)
  rw [hcall x hx]
  exact Nat.lt_succ_self _

lemma Numbered.step (h : t.Numbered) (call : Call κ) : Numbered (t.step call) := by
  have hrecord (index : Nat) (tx : TxFootprint κ) (result : Option Nat × SublistPartitioner κ) :
      Numbered (t.record index tx result) := by
    refine h.append result.2 _ ?_ fun x hx => ?_
    · cases result.1 <;> simp
    cases hr : result.1 with
    | none => simp [hr] at hx
    | some id =>
      obtain rfl : x = ⟨t.calls, index, id, some tx⟩ := by simpa [hr] using hx
      rfl
  cases call with
  | add index tx => exact hrecord index tx _
  | addToSequential index tx => exact hrecord index tx _
  | addRemasc index gasUsed =>
    exact h.append _ _ le_rfl fun x hx => by rw [mem_singleton.mp hx]

/-- **Run lemma.** -/
theorem run_kept {calls : List (Call κ)} (hsane : ∀ c ∈ calls, c.Sane) (h : t.Tracked)
  (hnum : t.Numbered) (hgas : t.WithinLimits) :
  (t.run calls).Tracked ∧ (t.run calls).Numbered ∧ (t.run calls).WithinLimits := by
  induction calls generalizing t with
  | nil => exact ⟨h, hnum, hgas⟩
  | cons call calls ih =>
    exact ih (fun c hc => hsane c (mem_cons_of_mem _ hc)) (h.step call) (hnum.step call)
      (hgas.step (hsane call mem_cons_self))

end Trace

/-- **The miner's partition is serializable and valid**, for every sequence of calls. -/
theorem partition_serializable (parallelCount : Nat) (blockGasLimit minSequential : UInt64)
  (calls : List (Call κ)) (hsane : ∀ c ∈ calls, c.Sane)
  (hcount : ((Trace.start parallelCount blockGasLimit minSequential).run calls).log.length <
    2 ^ 15) : ((Trace.start parallelCount blockGasLimit minSequential).run calls).Valid := by
  obtain ⟨h, hnum, hgas⟩ := Trace.run_kept hsane
    (Trace.tracked_start parallelCount blockGasLimit minSequential)
    ⟨.nil, fun _ h => absurd h not_mem_nil⟩
    (Trace.withinLimits_start parallelCount blockGasLimit minSequential)
  refine ⟨fun x hx y hy hne hxs hys k hk => ?_, hnum.1, h.order_perm, ?_, fun x y hxy hc => ?_,
    hgas, h.increasing hcount, ?_, fun n x hx => h.sublistOf_eq_idxOf hcount hx,
    h.accepted hcount⟩
  · have hfree := h.separate hx hy hne hxs hys
    exact ⟨fun hr => hfree (.inr ⟨k, .inl ⟨hk, .inl hr⟩⟩),
      fun hw => hfree (.inr ⟨k, .inl ⟨hk, .inr hw⟩⟩)⟩
  · rw [SublistPartitioner.transactionsInOrder, Trace.order, map_flatMap]
    exact flatMap_congr fun id _ => h.transactions id
  · have hserial := pairwise_iff_forall_sublist.mp h.serial hxy
    exact h.order_sublist hxy (hserial hc)
  have hlen := congrArg length (h.edges_spec hcount).1
  rw [length_map, length_boundaries, length_map] at hlen
  rw [hlen]
  exact (length_filter_le _ _).trans (length_range).le

/-- Two senders that meet on key 7: the second is joined to the first one's sublist, the third,
which reads what both parallel sublists wrote, is not. -/
theorem partition_serializable_three :
  ((Trace.start 2 900 100).run [Call.add 0 ⟨.repeatByte 20 1, 50, 40, [1], [7]⟩,
    .add 1 ⟨.repeatByte 20 2, 50, 50, [2], [8]⟩, .add 2 ⟨.repeatByte 20 3, 60, 10, [7, 8], [9]⟩,
    .addRemasc 3 5] : Trace Nat).Valid :=
  partition_serializable 2 900 100 _ (by simp [Call.Sane]) (by decide +kernel)

end Rustock.Mining
