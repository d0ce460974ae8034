import Rustock.Core.Header
import Rustock.Lib.Run
import Mathlib

/-!
# Federations and their coins

The cells of Bridge storage that hold federations and their coins, and the calls that rewrite
them (crates/execution/src/bridge/governance.rs, peg.rs), with RSKIP419 active: a vote builds a pending federation and commits it as a proposed
one, the proposed one is validated by two Bitcoin transactions and then promoted, and the coins
of the federation it replaces are migrated.

`create` looks at the pending, the new and the old federation and not at the proposed one;
`commit` looks at the pending one only; the promotion looks at nothing.

Keys, scripts, the coins a transaction takes and the validation's transactions are parameters.
The classification of an ordinary Bitcoin transaction is left open: every outcome is a step.
-/

namespace Rustock

open Lib List

/-- A coin of a federation (storage.rs `BridgeUtxo`). -/
structure BridgeUtxo where
  txHash : B256
  vout : Nat
  valueSatoshis : Nat
  script : Bytes
deriving DecidableEq

structure StoredMember where
  btc : Bytes
  rsk : Bytes
  mst : Bytes
deriving DecidableEq

structure StoredFederation where
  members : List StoredMember
  creationBlock : Nat
deriving DecidableEq

structure FedState where
  pending : Option (List StoredMember)
  proposed : Option StoredFederation
  newFederation : Option StoredFederation
  oldFederation : Option StoredFederation
  newUtxos : List BridgeUtxo
  oldUtxos : List BridgeUtxo
  svpFundTxHashUnsigned : Option B256
  svpFundTxSigned : Option B256
  svpSpendTxHashUnsigned : Option B256
  processed : List B256
deriving DecidableEq

structure FedParams where
  activationAge : Nat
  fundsMigrationAgeBegin : Nat
  fundsMigrationAgeEnd : Nat
  validationPeriodDurationInBlocks : Nat
  maxInputsPerPegoutTransaction : Nat
  genesis : StoredFederation
  /-- A public key in its compressed form, if it is one. -/
  parseKey : Bytes → Option Bytes
  pendingHash : List StoredMember → Bytes
  /-- The output script of a federation. -/
  scriptOf : StoredFederation → Bytes

/-- What an `updateCollections` call finds around these cells (the fee, the queue of requests) and
makes transactions with; another call finds something else. -/
structure Builders where
  feePerKb : Nat
  /-- The coins `complete_pegout_tx` takes for one output of this value. -/
  completePegoutTx : List BridgeUtxo → Nat → Option (List BridgeUtxo)
  /-- The inputs of a batch of the queued requests. -/
  batchInputs : List BridgeUtxo → Option (List BridgeUtxo)
  /-- The inputs of a funding transaction and its unsigned hash. -/
  svpFund : StoredFederation → List BridgeUtxo → Option (List BridgeUtxo × B256)
  /-- The unsigned hash of the transaction that spends a funding transaction. -/
  svpSpend : StoredFederation → B256 → Option B256
  /-- Coins are taken until they cover the value. -/
  complete_covers : ∀ {utxos target used}, completePegoutTx utxos target = some used →
    used.Subperm utxos ∧ target ≤ (used.map (·.valueSatoshis)).sum

/-- The values the loop of `process_funds_migration` tries: the balance, then half as much each
time down to 10,000. -/
def migrationTargets (balance : Nat) : List Nat :=
  balance :: (List.iterate (· / 2) (balance / 2) balance.log2).takeWhile (10000 ≤ ·)

/-- The inputs of the first migration transaction that can be built. -/
def Builders.migrationInputs (b : Builders) (utxos : List BridgeUtxo) (balance : Nat) :
    Option (List BridgeUtxo) :=
  (migrationTargets balance).findSome? (b.completePegoutTx utxos)

inductive FederationFunction where
  | create
  | add
  | addMulti (btc rsk mst : Bytes)
  | commit (hash : Bytes)
  | rollback
  | unknown

/-- What becomes of a transaction that is not one of the validation: a peg-out, a migration or an
accepted peg-in is registered; a rejected peg-in may be marked as processed. -/
inductive Classification where
  | registered
  | marked
  | ignored

structure BtcTx where
  txid : B256
  withoutSignatures : Option B256
  outputs : List (Bytes × Nat)

namespace FedParams

variable (p : FedParams) (b : Builders)

def awaitingActivation (s : FedState) (block : Nat) : Bool :=
  match s.newFederation, s.oldFederation with
  | some new, some _ => block < new.creationBlock + p.activationAge
  | _, _ => false

def activeFederation (s : FedState) (block : Nat) : StoredFederation :=
  match s.newFederation, s.oldFederation with
  | some new, some old => if block < new.creationBlock + p.activationAge then old else new
  | some new, none => new
  | none, _ => p.genesis

def retiringFederation (s : FedState) (block : Nat) : Option StoredFederation :=
  match s.newFederation, s.oldFederation with
  | some new, some old => if new.creationBlock + p.activationAge ≤ block then some old else none
  | _, _ => none

/-- The code, and the state after a call that is not a dry run. -/
def executeFederationChange (block : Nat) (s : FedState) : FederationFunction → Int × FedState
  | .create =>
    if s.pending.isSome then (-1, s)
    else
      match s.newFederation, s.oldFederation with
      | some new, some _ => (if block < new.creationBlock + p.activationAge then -2 else -3, s)
      | _, _ => (1, { s with pending := some [] })
  | .add => (-10, s)
  | .addMulti btc rsk mst =>
    match s.pending with
    | none => (-1, s)
    | some members =>
      match p.parseKey btc, p.parseKey rsk, p.parseKey mst with
      | some btc, some rsk, some mst =>
        if members.any fun m => m.btc = btc ∨ m.rsk = rsk ∨ m.mst = mst then (-2, s)
        else (1, { s with pending := some (members ++ [⟨btc, rsk, mst⟩]) })
      | _, _, _ => (-10, s)
  | .commit hash =>
    match s.pending with
    | none => (-1, s)
    | some members =>
      if members.length < 2 then (-2, s)
      else if hash ≠ p.pendingHash members then (-3, s)
      else (1, { s with pending := none, proposed := some ⟨members, block⟩ })
  | .rollback => if s.pending.isSome then (1, { s with pending := none }) else (-1, s)
  | .unknown => (-10, s)

def isInput (used : List BridgeUtxo) (u : BridgeUtxo) : Bool :=
  used.any fun i => i.txHash = u.txHash ∧ i.vout = u.vout

/-- The set the active federation's coins are in. -/
def activeUtxos (block : Nat) (s : FedState) : List BridgeUtxo :=
  if p.awaitingActivation s block then s.oldUtxos else s.newUtxos

def spendOld (used : List BridgeUtxo) (s : FedState) : FedState × List BridgeUtxo :=
  ({ s with oldUtxos := s.oldUtxos.filter (!isInput used ·) }, s.oldUtxos.filter (isInput used))

def spendNew (used : List BridgeUtxo) (s : FedState) : FedState × List BridgeUtxo :=
  ({ s with newUtxos := s.newUtxos.filter (!isInput used ·) }, s.newUtxos.filter (isInput used))

def spendActive (block : Nat) (used : List BridgeUtxo) (s : FedState) :
  FedState × List BridgeUtxo :=
  if p.awaitingActivation s block then spendOld used s else spendNew used s

def migrationAge (block : Nat) (s : FedState) : Option Nat :=
  match p.retiringFederation s block, s.newFederation with
  | some _, some new => some (block - new.creationBlock)
  | _, _ => none

def pastMigrationAge (block : Nat) (s : FedState) : Bool :=
  (p.migrationAge block s).any (p.activationAge + p.fundsMigrationAgeEnd ≤ ·)

/-- The inputs of the migration transaction this block builds. -/
def migrated (block : Nat) (s : FedState) : List BridgeUtxo :=
  match p.migrationAge block s with
  | none => []
  | some age =>
    let inAge := p.activationAge + p.fundsMigrationAgeBegin < age ∧
      age < p.activationAge + p.fundsMigrationAgeEnd
    let pastAge := p.activationAge + p.fundsMigrationAgeEnd ≤ age
    let utxos := s.oldUtxos.take p.maxInputsPerPegoutTransaction
    let balance := (utxos.map (·.valueSatoshis)).sum
    if (inAge ∧ b.feePerKb / 2 < balance) ∨ (pastAge ∧ 0 < balance) then
      (b.migrationInputs utxos balance).getD []
    else []

/-- One transaction can take everything the old federation has. -/
def Migratable (s : FedState) : Prop :=
  s.oldUtxos = [] ∨ s.oldUtxos.length ≤ p.maxInputsPerPegoutTransaction ∧
    (∀ u ∈ s.oldUtxos, 0 < u.valueSatoshis) ∧
    (b.completePegoutTx s.oldUtxos (s.oldUtxos.map (·.valueSatoshis)).sum).isSome

instance (s : FedState) : Decidable (p.Migratable b s) := by
  unfold Migratable
  infer_instance

/-- A retired federation is forgotten whatever its set still holds. -/
def processFundsMigration (block : Nat) (s : FedState) : FedState × List BridgeUtxo :=
  let spent := spendOld (p.migrated b block s) s
  if p.pastMigrationAge block s then ({ spent.1 with oldFederation := none }, spent.2) else spent

def processPegoutsBatch (block : Nat) (s : FedState) : FedState × List BridgeUtxo :=
  p.spendActive block ((b.batchInputs (p.activeUtxos block s)).getD []) s

/-- The validation's first transaction, once all its values are clear. -/
def processSvpFund (block : Nat) (proposed : StoredFederation) (s : FedState) :
  FedState × List BridgeUtxo :=
  if s.svpFundTxHashUnsigned = none ∧ s.svpFundTxSigned = none ∧
      s.svpSpendTxHashUnsigned = none then
    match b.svpFund proposed (p.activeUtxos block s) with
    | none => (s, [])
    | some (used, hash) => p.spendActive block used { s with svpFundTxHashUnsigned := some hash }
  else (s, [])

/-- Its second one, once the first is registered. -/
def processSvpSpend (proposed : StoredFederation) (s : FedState) : FedState :=
  match s.svpFundTxSigned.bind (b.svpSpend proposed) with
  | none => s
  | some hash => { s with svpSpendTxHashUnsigned := some hash, svpFundTxSigned := none }

def ongoing (block : Nat) (proposed : StoredFederation) : Bool :=
  block < proposed.creationBlock + p.validationPeriodDurationInBlocks

def updateSvpState (block : Nat) (s : FedState) : FedState × List BridgeUtxo :=
  match s.proposed with
  | none => (s, [])
  | some proposed =>
    if p.ongoing block proposed then
      let funded := p.processSvpFund b block proposed s
      (processSvpSpend b proposed funded.1, funded.2)
    else
      ({ s with
        proposed := none
        svpFundTxHashUnsigned := none
        svpFundTxSigned := none
        svpSpendTxHashUnsigned := none }, [])

/-- The steps of `updateCollections` on these cells, and the inputs of what they built. -/
def updateCollections (block : Nat) (s : FedState) : FedState × List BridgeUtxo :=
  let migration := p.processFundsMigration b block s
  let pegouts := p.processPegoutsBatch b block migration.1
  let svp := p.updateSvpState b block pegouts.1
  (svp.1, migration.2 ++ (pegouts.2 ++ svp.2))

/-- The outputs that pay a script. -/
def outputsTo (tx : BtcTx) (script : Bytes) : List BridgeUtxo :=
  (tx.outputs.zipIdx.filter (·.1.1 = script)).map fun o => ⟨tx.txid, o.2, o.1.2, o.1.1⟩

def activeOutputs (block : Nat) (tx : BtcTx) (s : FedState) : List BridgeUtxo :=
  outputsTo tx (p.scriptOf (p.activeFederation s block))

def retiringOutputs (block : Nat) (tx : BtcTx) (s : FedState) : List BridgeUtxo :=
  match p.retiringFederation s block with
  | none => []
  | some f => outputsTo tx (p.scriptOf f)

def registerNewUtxos (block : Nat) (tx : BtcTx) (s : FedState) : FedState :=
  let active := p.activeOutputs block tx s
  let awaiting := p.awaitingActivation s block
  { s with
    newUtxos := if awaiting then s.newUtxos else s.newUtxos ++ active
    oldUtxos := (if awaiting then s.oldUtxos ++ active else s.oldUtxos) ++
      p.retiringOutputs block tx s
    processed := tx.txid :: s.processed }

/-- The new coins become the old ones, the new federation the old one and the proposed one the new
one. -/
def commitProposedFederation (s : FedState) : FedState :=
  match s.proposed with
  | none => s
  | some proposed =>
    { s with
      oldUtxos := s.newUtxos
      newUtxos := []
      oldFederation := some (s.newFederation.getD p.genesis)
      newFederation := some proposed
      proposed := none }

def isSvpFund (tx : BtcTx) (s : FedState) : Bool :=
  tx.withoutSignatures.isSome ∧ s.svpFundTxHashUnsigned = tx.withoutSignatures

def isSvpSpend (tx : BtcTx) (s : FedState) : Bool :=
  tx.withoutSignatures.isSome ∧ s.svpSpendTxHashUnsigned = tx.withoutSignatures

/-- A registered funding transaction. -/
def registerSvpFundTx (block : Nat) (tx : BtcTx) (s : FedState) : FedState :=
  if s.proposed.any (p.ongoing block) then
    { s with svpFundTxSigned := some tx.txid, svpFundTxHashUnsigned := none }
  else s

/-- peg.rs:265–389 and what follows; also the coins that were registered. -/
def registerBtcTransaction (block : Nat) (tx : BtcTx) (outcome : Classification) (s : FedState) :
  FedState × List BridgeUtxo :=
  let coins := p.activeOutputs block tx s ++ p.retiringOutputs block tx s
  if tx.txid ∈ s.processed then (s, [])
  else if isSvpFund tx s then
    (p.registerSvpFundTx block tx (p.registerNewUtxos block tx s), coins)
  else if isSvpSpend tx s then
    (p.commitProposedFederation
      { p.registerNewUtxos block tx s with svpSpendTxHashUnsigned := none }, coins)
  else
    match outcome with
    | .registered => (p.registerNewUtxos block tx s, coins)
    | .marked => ({ s with processed := tx.txid :: s.processed }, [])
    | .ignored => (s, [])

end FedParams

open FedParams

/-- A vote, with the function it was the winning vote of, if any, and the other calls; a
signature does not touch these cells. -/
inductive FedEvent where
  | voteFederationChange (block : Nat) (winner : Option FederationFunction)
  | updateCollections (block : Nat) (b : Builders)
  | registerBtcTransaction (block : Nat) (tx : BtcTx) (outcome : Classification)
  | addSignature

structure FedTrace where
  state : FedState
  registered : List BridgeUtxo
  spent : List BridgeUtxo

namespace FedTrace

variable (p : FedParams) (t : FedTrace)

def next : FedEvent → FedTrace
  | .voteFederationChange _ none => t
  | .voteFederationChange block (some function) =>
    { t with state := (p.executeFederationChange block t.state function).2 }
  | .updateCollections block b =>
    { t with
      state := (p.updateCollections b block t.state).1
      spent := (p.updateCollections b block t.state).2 ++ t.spent }
  | .registerBtcTransaction block tx outcome =>
    { t with
      state := (p.registerBtcTransaction block tx outcome t.state).1
      registered := (p.registerBtcTransaction block tx outcome t.state).2 ++ t.registered }
  | .addSignature => t

def Step (e : FedEvent) (t' : FedTrace) : Prop := t' = t.next p e

def Held (s : FedState) (u : BridgeUtxo) : Prop :=
  (s.newUtxos.count u = 1 ∧ u ∉ s.oldUtxos ∧
    u.script = p.scriptOf (s.newFederation.getD p.genesis)) ∨
  (s.oldUtxos.count u = 1 ∧ u ∉ s.newUtxos ∧
    ∃ f, s.oldFederation = some f ∧ u.script = p.scriptOf f)

def ProposedKept (e : FedEvent) : Prop :=
  ∀ f, t.state.proposed = some f →
    (t.next p e).state.proposed = some f ∨
    (t.next p e).state.proposed = none ∧
      ((t.next p e).state.newFederation = some f ∨ ∃ block b, e = .updateCollections block b ∧
        p.ongoing block f = false)

structure Sound (t : FedTrace) : Prop where
  perm : (t.state.newUtxos ++ (t.state.oldUtxos ++ t.spent)).Perm t.registered
  nodup : t.registered.Nodup
  processed : ∀ u ∈ t.registered, u.txHash ∈ t.state.processed
  newScript : ∀ u ∈ t.state.newUtxos,
    u.script = p.scriptOf (t.state.newFederation.getD p.genesis)
  oldScript : ∀ u ∈ t.state.oldUtxos, ∃ f, t.state.oldFederation = some f ∧
    u.script = p.scriptOf f

/-- A commit finds nothing proposed; a promotion finds no old federation; when a federation is
forgotten, one transaction can take what it still has; two live federations have two scripts. -/
def CarefulEvent : FedEvent → Prop
  | .voteFederationChange _ (some (.commit _)) => t.state.proposed = none
  | .updateCollections block b =>
    p.pastMigrationAge block t.state = true → p.Migratable b t.state
  | .registerBtcTransaction block tx _ =>
    (∀ f ∈ p.retiringFederation t.state block,
      p.scriptOf f ≠ p.scriptOf (p.activeFederation t.state block)) ∧
    (isSvpSpend tx t.state = true → t.state.oldFederation = none)
  | _ => True

instance (t : FedTrace) (e : FedEvent) : Decidable (CarefulEvent p t e) := by
  unfold CarefulEvent
  split <;> infer_instance

section Sound

variable {p} {b : Builders} {t : FedTrace} {s s' s'' : FedState} {spent spent' : List BridgeUtxo} {u : BridgeUtxo}

/-- **A registered coin that no transaction has spent is held.** -/
theorem Sound.held (h : Sound p t) (hu : u ∈ t.registered) (hs : u ∉ t.spent) :
  Held p t.state u := by
  have hnodup := h.perm.nodup_iff.mpr h.nodup
  obtain ⟨hnew, hrest, hdisj⟩ := nodup_append.mp hnodup
  have hold := (nodup_append.mp hrest).1
  rcases mem_append.mp (h.perm.mem_iff.mpr hu) with hmem | hmem
  · have hnot : u ∉ t.state.oldUtxos := fun ho => hdisj u hmem u (mem_append_left _ ho) rfl
    exact .inl ⟨count_eq_one_of_mem hnew hmem, hnot, h.newScript u hmem⟩
  have ho : u ∈ t.state.oldUtxos := (mem_append.mp hmem).resolve_right hs
  have hnot : u ∉ t.state.newUtxos := fun hn => hdisj u hn u (mem_append_left _ ho) rfl
  exact .inr ⟨count_eq_one_of_mem hold ho, hnot, h.oldScript u ho⟩

structure Spends (s s' : FedState) (spent : List BridgeUtxo) : Prop where
  perm : (s'.newUtxos ++ (s'.oldUtxos ++ spent)).Perm (s.newUtxos ++ s.oldUtxos)
  newMem : ∀ u ∈ s'.newUtxos, u ∈ s.newUtxos
  oldMem : ∀ u ∈ s'.oldUtxos, u ∈ s.oldUtxos
  newFederation : s'.newFederation = s.newFederation
  oldFederation : s'.oldFederation = s.oldFederation ∨ s'.oldUtxos = []
  processed : s'.processed = s.processed

lemma Spends.of_eq (hn : s'.newUtxos = s.newUtxos) (ho : s'.oldUtxos = s.oldUtxos)
  (hnf : s'.newFederation = s.newFederation) (hof : s'.oldFederation = s.oldFederation)
  (hp : s'.processed = s.processed) : Spends s s' [] where
  perm := by rw [hn, ho, append_nil]
  newMem := fun u hu => hn ▸ hu
  oldMem := fun u hu => ho ▸ hu
  newFederation := hnf
  oldFederation := .inl hof
  processed := hp

lemma Spends.trans (h : Spends s s' spent) (h' : Spends s' s'' spent') :
  Spends s s'' (spent ++ spent') where
  perm := by
    have hswap : (s''.newUtxos ++ (s''.oldUtxos ++ (spent ++ spent'))).Perm
        (s''.newUtxos ++ (s''.oldUtxos ++ spent') ++ spent) := by
      rw [append_assoc, append_assoc]
      exact ((perm_append_comm.append_left _).append_left _)
    refine hswap.trans ((h'.perm.append_right spent).trans ?_)
    rw [append_assoc]
    exact h.perm
  newMem := fun u hu => h.newMem u (h'.newMem u hu)
  oldMem := fun u hu => h.oldMem u (h'.oldMem u hu)
  newFederation := h'.newFederation.trans h.newFederation
  oldFederation := by
    rcases h'.oldFederation with heq | hnil
    · rcases h.oldFederation with heq' | hnil'
      · exact .inl (heq.trans heq')
      exact .inr (eq_nil_iff_forall_not_mem.mpr fun u hu =>
        not_mem_nil (hnil' ▸ h'.oldMem u hu))
    · exact .inr hnil
  processed := h'.processed.trans h.processed

lemma Sound.spends (h : Sound p t) (hs : Spends t.state s spent) :
  Sound p { t with state := s, spent := spent ++ t.spent } where
  perm := by
    have hassoc : (s.newUtxos ++ (s.oldUtxos ++ (spent ++ t.spent))).Perm
        (s.newUtxos ++ (s.oldUtxos ++ spent) ++ t.spent) := by simp
    refine hassoc.trans ((hs.perm.append_right t.spent).trans ?_)
    rw [append_assoc]
    exact h.perm
  nodup := h.nodup
  processed := fun u hu => by rw [hs.processed]; exact h.processed u hu
  newScript := fun u hu => by rw [hs.newFederation]; exact h.newScript u (hs.newMem u hu)
  oldScript := fun u hu => by
    rcases hs.oldFederation with heq | hnil
    · rw [heq]
      exact h.oldScript u (hs.oldMem u hu)
    · exact absurd (hnil ▸ hu) not_mem_nil

lemma filter_perm (used utxos : List BridgeUtxo) :
  (utxos.filter (!isInput used ·) ++ utxos.filter (isInput used)).Perm utxos :=
  perm_append_comm.trans (filter_append_perm (isInput used) utxos)

lemma spendOld_spends (used : List BridgeUtxo) (s : FedState) :
  Spends s (spendOld used s).1 (spendOld used s).2 where
  perm := (filter_perm used s.oldUtxos).append_left _
  newMem := fun _ hu => hu
  oldMem := fun _ hu => mem_of_mem_filter hu
  newFederation := rfl
  oldFederation := .inl rfl
  processed := rfl

lemma spendNew_spends (used : List BridgeUtxo) (s : FedState) :
  Spends s (spendNew used s).1 (spendNew used s).2 where
  perm := by
    refine List.Perm.trans ?_ ((filter_perm used s.newUtxos).append_right s.oldUtxos)
    rw [append_assoc]
    exact perm_append_comm.append_left _
  newMem := fun _ hu => mem_of_mem_filter hu
  oldMem := fun _ hu => hu
  newFederation := rfl
  oldFederation := .inl rfl
  processed := rfl

lemma spendActive_spends (block : Nat) (used : List BridgeUtxo) (s : FedState) :
  Spends s (p.spendActive block used s).1 (p.spendActive block used s).2 := by
  unfold spendActive
  split
  · exact spendOld_spends used s
  · exact spendNew_spends used s

variable {block : Nat}

/-- What covers the sum of coins that all have a value is all of them. -/
lemma mem_of_covers {used utxos : List BridgeUtxo} (hsub : used.Subperm utxos)
    (hsum : (utxos.map (·.valueSatoshis)).sum ≤ (used.map (·.valueSatoshis)).sum)
    (hpos : ∀ u ∈ utxos, 0 < u.valueSatoshis) (hu : u ∈ utxos) : u ∈ used := by
  obtain ⟨taken, htaken, hsublist⟩ := hsub
  obtain ⟨rest, hrest⟩ := hsublist.exists_perm_append
  have hperm : utxos.Perm (used ++ rest) := hrest.trans (htaken.append_right rest)
  have hsplit := (hperm.map (·.valueSatoshis)).sum_eq
  rw [map_append, sum_append] at hsplit
  refine (mem_append.mp (hperm.mem_iff.mp hu)).resolve_right fun hleft => ?_
  have hle : u.valueSatoshis ≤ (rest.map (·.valueSatoshis)).sum :=
    single_le_sum (fun _ _ => Nat.zero_le _) _ (mem_map_of_mem hleft)
  have hvalue := hpos u hu
  omega

lemma migrated_of_migratable (hpast : p.pastMigrationAge block s = true)
    (h : p.Migratable b s) (hu : u ∈ s.oldUtxos) :
    isInput (p.migrated b block s) u = true := by
  rcases h with hnil | ⟨hlength, hpos, hbuilt⟩
  · exact absurd (hnil ▸ hu) not_mem_nil
  obtain ⟨used, hused⟩ := Option.isSome_iff_exists.mp hbuilt
  obtain ⟨hsub, hsum⟩ := b.complete_covers hused
  have hmem := mem_of_covers hsub hsum hpos hu
  have hbalance : 0 < (s.oldUtxos.map (·.valueSatoshis)).sum :=
    (hpos u hu).trans_le (single_le_sum (fun _ _ => Nat.zero_le _) _ (mem_map_of_mem hu))
  unfold pastMigrationAge at hpast
  cases hage : p.migrationAge block s with
  | none =>
    rw [hage] at hpast
    cases hpast
  | some age =>
  rw [hage] at hpast
  have hend : p.activationAge + p.fundsMigrationAgeEnd ≤ age := of_decide_eq_true hpast
  have hinputs : p.migrated b block s = used := by
    unfold migrated
    rw [hage]
    dsimp only
    rw [take_of_length_le hlength, if_pos (.inr ⟨hend, hbalance⟩), Builders.migrationInputs,
      migrationTargets, findSome?_cons, hused]
    rfl
  rw [hinputs]
  exact any_eq_true.mpr ⟨u, hmem, by simp⟩

lemma processFundsMigration_spends
    (hlast : p.pastMigrationAge block s = true → p.Migratable b s) :
  Spends s (p.processFundsMigration b block s).1 (p.processFundsMigration b block s).2 := by
  have hspent := spendOld_spends (p.migrated b block s) s
  unfold processFundsMigration
  dsimp only
  split
  · rename_i hpast
    have hnil : (spendOld (p.migrated b block s) s).1.oldUtxos = [] :=
      filter_eq_nil_iff.mpr fun u hu => by simp [migrated_of_migratable hpast (hlast hpast) hu]
    exact { hspent with oldFederation := .inr hnil }
  · exact hspent

lemma processSvpFund_spends (block : Nat) (proposed : StoredFederation) (s : FedState) :
  Spends s (p.processSvpFund b block proposed s).1 (p.processSvpFund b block proposed s).2 := by
  unfold processSvpFund
  split
  · cases b.svpFund proposed (p.activeUtxos block s) with
    | none => exact .of_eq rfl rfl rfl rfl rfl
    | some built =>
      have hset : Spends s { s with svpFundTxHashUnsigned := some built.2 } [] :=
        .of_eq rfl rfl rfl rfl rfl
      exact hset.trans (spendActive_spends block built.1 _)
  · exact .of_eq rfl rfl rfl rfl rfl

lemma processSvpSpend_spends (proposed : StoredFederation) (s : FedState) :
  Spends s (processSvpSpend b proposed s) [] := by
  unfold processSvpSpend
  split <;> exact .of_eq rfl rfl rfl rfl rfl

lemma updateSvpState_spends (block : Nat) (s : FedState) :
  Spends s (p.updateSvpState b block s).1 (p.updateSvpState b block s).2 := by
  unfold updateSvpState
  cases s.proposed with
  | none => exact .of_eq rfl rfl rfl rfl rfl
  | some proposed =>
    dsimp only
    split
    · have h := (processSvpFund_spends (p := p) (b := b) block proposed s).trans
        (processSvpSpend_spends (b := b) proposed _)
      rwa [append_nil] at h
    · exact .of_eq rfl rfl rfl rfl rfl

lemma updateCollections_spends
    (hlast : p.pastMigrationAge block s = true → p.Migratable b s) :
  Spends s (p.updateCollections b block s).1 (p.updateCollections b block s).2 :=
  (processFundsMigration_spends hlast).trans
    ((spendActive_spends block _ _).trans (updateSvpState_spends block _))

variable {tx : BtcTx}

lemma mem_outputsTo {script : Bytes} (hu : u ∈ outputsTo tx script) :
  u.txHash = tx.txid ∧ u.script = script := by
  obtain ⟨o, ho, rfl⟩ := List.mem_map.mp hu
  exact ⟨rfl, of_decide_eq_true (mem_filter.mp ho).2⟩

lemma nodup_outputsTo (tx : BtcTx) (script : Bytes) : (outputsTo tx script).Nodup := by
  -- two outputs of one transaction have two indices
  refine List.Nodup.of_map (·.vout) ?_
  have hindex : (outputsTo tx script).map (·.vout) =
      (tx.outputs.zipIdx.filter (·.1.1 = script)).map Prod.snd := by
    simp [outputsTo, Function.comp_def]
  rw [hindex]
  refine ((filter_sublist).map Prod.snd).nodup ?_
  rw [zipIdx_map_snd]
  exact nodup_range'

lemma mem_retiringOutputs (hu : u ∈ p.retiringOutputs block tx s) :
  ∃ f, p.retiringFederation s block = some f ∧ u ∈ outputsTo tx (p.scriptOf f) := by
  unfold retiringOutputs at hu
  cases hf : p.retiringFederation s block with
  | none => rw [hf] at hu; exact absurd hu not_mem_nil
  | some f => rw [hf] at hu; exact ⟨f, rfl, hu⟩

lemma nodup_retiringOutputs (block : Nat) (tx : BtcTx) (s : FedState) :
  (p.retiringOutputs block tx s).Nodup := by
  unfold retiringOutputs
  split
  · exact nodup_nil
  · exact nodup_outputsTo tx _

lemma oldFederation_of_retiring {f : StoredFederation} (h : p.retiringFederation s block = some f) :
  s.oldFederation = some f := by
  unfold retiringFederation at h
  split at h
  · rename_i hold
    split at h
    · rw [hold, ← h]
    · cases h
  · cases h

lemma oldFederation_of_awaiting (h : p.awaitingActivation s block = true) :
  s.oldFederation = some (p.activeFederation s block) := by
  unfold awaitingActivation at h
  unfold activeFederation
  cases hn : s.newFederation <;> cases ho : s.oldFederation <;> simp_all

lemma activeFederation_of_not_awaiting (h : p.awaitingActivation s block = false) :
  p.activeFederation s block = s.newFederation.getD p.genesis := by
  unfold awaitingActivation at h
  unfold activeFederation
  cases hn : s.newFederation <;> cases ho : s.oldFederation <;> simp_all

lemma registerNewUtxos_perm (block : Nat) (tx : BtcTx) (s : FedState) :
  ((p.registerNewUtxos block tx s).newUtxos ++ (p.registerNewUtxos block tx s).oldUtxos).Perm
    (p.activeOutputs block tx s ++ p.retiringOutputs block tx s ++ (s.newUtxos ++ s.oldUtxos)) := by
  unfold FedParams.registerNewUtxos
  rw [perm_iff_count]
  intro u
  dsimp only
  split <;> simp only [count_append] <;> omega

/-- **New coins.** A transaction that was not processed registers each of its outputs to one
federation. -/
theorem Sound.registerNewUtxos (h : Sound p t) (hfresh : tx.txid ∉ t.state.processed)
  (hscripts : ∀ f ∈ p.retiringFederation t.state block,
    p.scriptOf f ≠ p.scriptOf (p.activeFederation t.state block)) : Sound p { t with
    state := p.registerNewUtxos block tx t.state
    registered := p.activeOutputs block tx t.state ++ p.retiringOutputs block tx t.state ++
      t.registered } where
  perm := by
    have hperm := (registerNewUtxos_perm (p := p) block tx t.state).append_right t.spent
    rw [append_assoc, append_assoc _ (_ ++ _) t.spent, append_assoc _ _ t.spent]
      at hperm
    exact hperm.trans (h.perm.append_left _)
  nodup := by
    have htxid : ∀ u ∈ p.activeOutputs block tx t.state ++ p.retiringOutputs block tx t.state,
        u.txHash = tx.txid := by
      intro u hu
      rcases mem_append.mp hu with ha | hr
      · exact (mem_outputsTo ha).1
      obtain ⟨f, _, hf⟩ := mem_retiringOutputs hr
      exact (mem_outputsTo hf).1
    refine nodup_append.mpr ⟨nodup_append.mpr ⟨nodup_outputsTo tx _,
      nodup_retiringOutputs block tx _, ?_⟩, h.nodup, ?_⟩
    · rintro u ha _ hr rfl
      obtain ⟨f, hret, hf⟩ := mem_retiringOutputs hr
      exact hscripts f hret ((mem_outputsTo hf).2.symm.trans (mem_outputsTo ha).2)
    rintro u hu _ hreg rfl
    exact hfresh (htxid u hu ▸ h.processed u hreg)
  processed := fun u hu => by
    rcases mem_append.mp hu with hcoin | hreg
    · rcases mem_append.mp hcoin with ha | hr
      · exact (mem_outputsTo ha).1 ▸ mem_cons_self
      obtain ⟨f, _, hf⟩ := mem_retiringOutputs hr
      exact (mem_outputsTo hf).1 ▸ mem_cons_self
    · exact mem_cons_of_mem _ (h.processed u hreg)
  newScript := fun u hu => by
    cases hw : p.awaitingActivation t.state block with
    | true =>
      simp only [FedParams.registerNewUtxos, hw, if_true] at hu
      exact h.newScript u hu
    | false =>
      simp only [FedParams.registerNewUtxos, hw, Bool.false_eq_true, if_false] at hu
      rcases mem_append.mp hu with hn | ha
      · exact h.newScript u hn
      have hscript := (mem_outputsTo ha).2
      rwa [activeFederation_of_not_awaiting hw] at hscript
  oldScript := fun u hu => by
    rcases mem_append.mp hu with hold | hr
    · cases hw : p.awaitingActivation t.state block with
      | true =>
        rw [hw, if_pos rfl] at hold
        rcases mem_append.mp hold with ho | ha
        · exact h.oldScript u ho
        · exact ⟨_, oldFederation_of_awaiting hw, (mem_outputsTo ha).2⟩
      | false =>
        rw [hw, if_neg Bool.false_ne_true] at hold
        exact h.oldScript u hold
    obtain ⟨f, hret, hf⟩ := mem_retiringOutputs hr
    exact ⟨f, oldFederation_of_retiring hret, (mem_outputsTo hf).2⟩

/-- **Promotion** keeps the coins where no old federation is stored. -/
theorem Sound.commitProposedFederation (h : Sound p t) (hold : t.state.oldFederation = none) :
  Sound p { t with state := p.commitProposedFederation t.state } := by
  have hnil : t.state.oldUtxos = [] := eq_nil_iff_forall_not_mem.mpr fun u hu => by
    obtain ⟨f, hf, _⟩ := h.oldScript u hu
    rw [hold] at hf
    cases hf
  unfold FedParams.commitProposedFederation
  cases t.state.proposed with
  | none => exact h
  | some proposed =>
    refine ⟨?_, h.nodup, h.processed, fun u hu => absurd hu not_mem_nil, fun u hu =>
      ⟨_, rfl, h.newScript u hu⟩⟩
    have hperm := h.perm
    rwa [hnil, nil_append] at hperm

lemma registerSvpFundTx_spends (block : Nat) (tx : BtcTx) (s : FedState) :
  Spends s (p.registerSvpFundTx block tx s) [] := by
  unfold registerSvpFundTx
  split <;> exact .of_eq rfl rfl rfl rfl rfl

lemma executeFederationChange_spends (block : Nat) (s : FedState)
  (function : FederationFunction) : Spends s (p.executeFederationChange block s function).2 [] := by
  have hself : Spends s s [] := .of_eq rfl rfl rfl rfl rfl
  unfold executeFederationChange
  repeat' split
  all_goals first | exact hself | exact .of_eq rfl rfl rfl rfl rfl

lemma Sound.registerBtcTransaction {outcome : Classification} (h : Sound p t)
  (hcareful : CarefulEvent p t (.registerBtcTransaction block tx outcome)) :
  Sound p (t.next p (.registerBtcTransaction block tx outcome)) := by
  obtain ⟨hscripts, hpromote⟩ := hcareful
  unfold FedTrace.next FedParams.registerBtcTransaction
  dsimp only
  by_cases hdone : tx.txid ∈ t.state.processed
  · simp only [hdone, if_true]
    exact h
  have hreg := h.registerNewUtxos hdone hscripts
  simp only [hdone, if_false]
  by_cases hfund : isSvpFund tx t.state = true
  · simp only [hfund, if_true]
    exact hreg.spends (registerSvpFundTx_spends block tx _)
  simp only [hfund]
  by_cases hspend : isSvpSpend tx t.state = true
  · simp only [hspend, if_true]
    have hclear := hreg.spends (s := { p.registerNewUtxos block tx t.state with
      svpSpendTxHashUnsigned := none }) (.of_eq rfl rfl rfl rfl rfl)
    exact hclear.commitProposedFederation (hpromote hspend)
  simp only [hspend]
  cases outcome with
  | registered => exact hreg
  | marked =>
    exact { h with processed := fun u hu => mem_cons_of_mem _ (h.processed u hu) }
  | ignored => exact h

/-- **Step lemma**, coins. -/
theorem Sound.next {e : FedEvent} (h : Sound p t) (hcareful : CarefulEvent p t e) :
  Sound p (t.next p e) := by
  cases e with
  | voteFederationChange block winner =>
    cases winner with
    | none => exact h
    | some function => exact h.spends (executeFederationChange_spends block t.state function)
  | updateCollections block b => exact h.spends (updateCollections_spends hcareful)
  | registerBtcTransaction block tx outcome => exact h.registerBtcTransaction hcareful
  | addSignature => exact h

end Sound

section Proposed

variable {p} {b : Builders} {t : FedTrace} {s : FedState}

lemma spendActive_proposed (block : Nat) (used : List BridgeUtxo) (s : FedState) :
  (p.spendActive block used s).1.proposed = s.proposed := by
  unfold spendActive
  split <;> rfl

lemma processFundsMigration_proposed (block : Nat) (s : FedState) :
  (p.processFundsMigration b block s).1.proposed = s.proposed := by
  unfold processFundsMigration
  dsimp only
  split <;> rfl

lemma processSvpFund_proposed (block : Nat) (proposed : StoredFederation) (s : FedState) :
  (p.processSvpFund b block proposed s).1.proposed = s.proposed := by
  unfold processSvpFund
  split
  · cases b.svpFund proposed (p.activeUtxos block s) with
    | none => rfl
    | some built => exact spendActive_proposed block built.1 _
  · rfl

lemma processSvpSpend_proposed (proposed : StoredFederation) (s : FedState) :
  (processSvpSpend b proposed s).proposed = s.proposed := by
  unfold processSvpSpend
  split <;> rfl

variable {block : Nat} {f : StoredFederation}

lemma updateSvpState_proposed (hf : s.proposed = some f) :
  (p.updateSvpState b block s).1.proposed = if p.ongoing block f then some f else none := by
  unfold updateSvpState
  simp only [hf]
  split
  · rw [processSvpSpend_proposed, processSvpFund_proposed, hf]
  · rfl

lemma updateCollections_proposed (hf : s.proposed = some f) :
  (p.updateCollections b block s).1.proposed = if p.ongoing block f then some f else none := by
  refine updateSvpState_proposed ?_
  rw [processPegoutsBatch, spendActive_proposed, processFundsMigration_proposed, hf]

lemma executeFederationChange_proposed {function : FederationFunction}
  (hcommit : ∀ hash, function ≠ .commit hash) :
  (p.executeFederationChange block s function).2.proposed = s.proposed := by
  unfold executeFederationChange
  repeat' split
  all_goals first | rfl | exact absurd rfl (hcommit _)

lemma registerSvpFundTx_proposed (block : Nat) (tx : BtcTx) (s : FedState) :
  (p.registerSvpFundTx block tx s).proposed = s.proposed := by
  unfold registerSvpFundTx
  split <;> rfl

lemma registerBtcTransaction_proposed {tx : BtcTx} {outcome : Classification}
  (hf : s.proposed = some f) : (p.registerBtcTransaction block tx outcome s).1.proposed = some f ∨
  (p.registerBtcTransaction block tx outcome s).1.proposed = none ∧
    (p.registerBtcTransaction block tx outcome s).1.newFederation = some f := by
  unfold FedParams.registerBtcTransaction
  dsimp only
  split
  · exact .inl hf
  split
  · exact .inl ((registerSvpFundTx_proposed block tx _).trans hf)
  split
  · have hreg : (p.registerNewUtxos block tx s).proposed = some f := hf
    simp only [FedParams.commitProposedFederation, hreg]
    exact .inr ⟨trivial, trivial⟩
  cases outcome with
  | registered | marked | ignored => exact .inl hf

/-- **Step lemma**, proposed federations. -/
theorem ProposedKept.next {e : FedEvent} (hcareful : CarefulEvent p t e) : ProposedKept p t e := by
  intro f hf
  cases e with
  | voteFederationChange block winner =>
    cases winner with
    | none => exact .inl hf
    | some function =>
      refine .inl ((executeFederationChange_proposed fun hash heq => ?_).trans hf)
      subst heq
      have hnone : t.state.proposed = none := hcareful
      rw [hnone] at hf
      cases hf
  | updateCollections block b =>
    have hnext : (p.updateCollections b block t.state).1.proposed = _ := updateCollections_proposed hf
    cases hon : p.ongoing block f with
    | true =>
      rw [hon, if_pos rfl] at hnext
      exact .inl hnext
    | false =>
      rw [hon, if_neg Bool.false_ne_true] at hnext
      exact .inr ⟨hnext, .inr ⟨block, b, rfl, hon⟩⟩
  | registerBtcTransaction block tx outcome =>
    exact (registerBtcTransaction_proposed hf).imp_right fun h => ⟨h.1, .inl h.2⟩
  | addSignature => exact .inl hf

end Proposed

end FedTrace

namespace FedExample

def member (n : UInt8) : StoredMember := ⟨[n], [n], [n]⟩

def hash (n : UInt8) : B256 := FixedBytes.repeatByte 32 n

def params : FedParams where
  activationAge := 100
  fundsMigrationAgeBegin := 10
  fundsMigrationAgeEnd := 60
  validationPeriodDurationInBlocks := 50
  maxInputsPerPegoutTransaction := 10
  genesis := ⟨[member 0], 1⟩
  parseKey := some
  pendingHash := fun members => members.flatMap (·.btc)
  scriptOf := fun f => f.members.flatMap (·.btc)

/-- Takes all coins if they cover the value; the batch of `batch` coins. -/
def builders (batch : Nat) : Builders where
  feePerKb := 0
  completePegoutTx := fun utxos target =>
    if target ≤ (utxos.map (·.valueSatoshis)).sum then some utxos else none
  batchInputs := fun utxos => some (utxos.take batch)
  svpFund := fun f utxos => utxos.head?.map fun u =>
    ([u], hash (100 + (f.members.flatMap (·.btc)).headD 0))
  svpSpend := fun f _ => some (hash (200 + (f.members.flatMap (·.btc)).headD 0))
  complete_covers := fun h => by
    split at h
    · rename_i hle
      obtain rfl := Option.some.inj h
      exact ⟨Subperm.refl _, hle⟩
    · cases h

def start : FedTrace where
  state :=
    { pending := none
      proposed := none
      newFederation := none
      oldFederation := none
      newUtxos := []
      oldUtxos := []
      svpFundTxHashUnsigned := none
      svpFundTxSigned := none
      svpSpendTxHashUnsigned := none
      processed := [] }
  registered := []
  spent := []

variable (block : Nat)

def vote (function : FederationFunction) : FedEvent :=
  .voteFederationChange block (some function)

def validate (a : UInt8) : List FedEvent :=
  [.updateCollections block (builders 0),
    .registerBtcTransaction block ⟨hash (110 + a), some (hash (100 + a)), []⟩ .ignored,
    .updateCollections block (builders 0),
    .registerBtcTransaction block ⟨hash (210 + a), some (hash (200 + a)), []⟩ .ignored]

def history (t : FedTrace) : List FedEvent → List (FedTrace × FedEvent)
  | [] => []
  | e :: rest => history (t.next params e) rest ++ [(t, e)]

lemma run_snoc {start t : FedTrace} {hist : List (FedTrace × FedEvent)}
  (h : Run (FedTrace.Step params) start hist t) (events : List FedEvent) :
  Run (FedTrace.Step params) start (history t events ++ hist)
    (events.foldl (FedTrace.next params) t) := by
  induction events generalizing t hist with
  | nil => exact h
  | cons e rest ih =>
    have hstep := ih (h.step (e := e) rfl)
    rwa [history, append_assoc]

def final (events : List FedEvent) : FedTrace := events.foldl (FedTrace.next params) start

lemma run (events : List FedEvent) :
  Run (FedTrace.Step params) start (history start events) (final events) := by
  have h := run_snoc (@Run.init _ _ (FedTrace.Step params) start) events
  rwa [append_nil] at h

end FedExample

end Rustock
