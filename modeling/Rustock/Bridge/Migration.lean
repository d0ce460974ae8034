import Rustock.Bridge.Script
import Rustock.Core.Header
import Mathlib

/-!
# Where migrated coins are paid, and who recognises them

A migration pays the new federation at an output script made from its keys
(crates/execution/src/bridge/peg.rs), and `register_btc_transaction` later looks for
outputs with the script of the federation that is active then (peg.rs). Both
scripts come from the same three redeem templates. The payer picks the template by the height of
the block that migrates (`build_committed_federation_redeem_script`), the recogniser by the format
version stored with the federation (`federation_redeem_for_format`), which is that of its creation.

Outputs are registered only of a transaction that is taken for a peg-out or a migration by its
inputs (`classifies`). While the old federation is stored, its inputs are enough; once it is gone,
the outputs must be worth a peg-in as well.

The two hash functions are parameters.
-/

namespace Rustock

open Lib List

abbrev BtcKey := FixedBytes 33

/-- Heights of the network upgrades that choose a template or an activation age
(execution/src/hardfork.rs). -/
structure FormatForks where
  rskip201 : Nat
  rskip353 : Nat
  rskip305 : Nat
  rskip383 : Nat

/-- The Bridge constants these functions read (bridge/constants.rs). -/
structure FormatConstants where
  erpFedPubkeys : List BtcKey
  erpFedActivationDelay : Int64
  federationActivationAge : Nat
  federationActivationAgeLegacy : Nat

/-- The two hash functions of Bitcoin scripts. -/
structure ScriptHashes where
  sha256 : Bytes → Bytes
  hash160 : Bytes → Bytes

/-- Keys in the order of their bytes, as the script has them. -/
def sortKeys (keys : List BtcKey) : List BtcKey :=
  keys.insertionSort fun a b => ¬ b.bytes < a.bytes

/-- The m-of-n script. -/
def buildFederationRedeemScript (keys : List BtcKey) (threshold : Nat) : Bytes :=
  let sorted := sortKeys keys
  (0x50 + UInt8.ofNat threshold) :: sorted.flatMap (fun key => 33 :: key.bytes) ++
    [0x50 + UInt8.ofNat sorted.length, 0xae]

/-- Big-endian two's complement without redundant sign bytes. -/
def stripSign : Bytes → Bytes
  | b0 :: b1 :: rest =>
    if (b0 = 0 ∧ b1 &&& 0x80 = 0) ∨ (b0 = 0xff ∧ b1 &&& 0x80 ≠ 0) then stripSign (b1 :: rest)
    else b0 :: b1 :: rest
  | be => be

def signedLongToByteArrayLe (value : Int64) : Bytes :=
  (stripSign (beBytes 8 value.toUInt64.toNat)).reverse

/-- The script with an emergency branch, in its two layouts. -/
def buildErpRedeemScript (defaultKeys : List BtcKey) (defaultThreshold : Nat)
  (erpKeys : List BtcKey) (erpThreshold : Nat) (csvDelay : Int64) (p2sh : Bool) : Bytes :=
  let defaultRedeem := buildFederationRedeemScript defaultKeys defaultThreshold
  let erpRedeem := buildFederationRedeemScript erpKeys erpThreshold
  let csv := signedLongToByteArrayLe csvDelay
  let defaultInner := if p2sh then defaultRedeem else defaultRedeem.dropLast
  let erpInner := if p2sh then erpRedeem else erpRedeem.dropLast
  [0x64] ++ defaultInner ++ [0x67, UInt8.ofNat csv.length] ++ csv ++ [0xb2, 0x75] ++ erpInner ++
    [0x68] ++ (if p2sh then [] else [0xae])

/-- The forms of a redeem script over the history of the network. -/
inductive RedeemTemplate where
  | multisig
  | nonStandardErp
  | p2shErp
deriving DecidableEq

/-! ## Scripts and their templates -/

section Scripts

variable (forks : FormatForks) (config : FormatConstants) (hashes : ScriptHashes)
  (keys : List BtcKey)

/-- The script of a template for these keys. -/
def redeemScript : RedeemTemplate → Bytes
  | .multisig => buildFederationRedeemScript keys (keys.length / 2 + 1)
  | .nonStandardErp => buildErpRedeemScript keys (keys.length / 2 + 1) config.erpFedPubkeys
      (config.erpFedPubkeys.length / 2 + 1) config.erpFedActivationDelay false
  | .p2shErp => buildErpRedeemScript keys (keys.length / 2 + 1) config.erpFedPubkeys
      (config.erpFedPubkeys.length / 2 + 1) config.erpFedActivationDelay true

/-- The template by the height of the block. -/
def templateAt (block : Nat) : RedeemTemplate :=
  if ¬ forks.rskip201 ≤ block then .multisig
  else if forks.rskip353 ≤ block then .p2shErp else .nonStandardErp

/-- The template by the stored format version. -/
def templateOfFormat (formatVersion : Nat) : RedeemTemplate :=
  if formatVersion ≤ 1000 then .multisig
  else if 3000 ≤ formatVersion then .p2shErp else .nonStandardErp

def buildCommittedFederationRedeemScript (block : Nat) : Bytes :=
  redeemScript config keys (templateAt forks block)

def federationRedeemForFormat (formatVersion : Nat) : Bytes :=
  redeemScript config keys (templateOfFormat formatVersion)

/-- The version a federation built at this height is stored with. -/
def federationFormatVersion (block : Nat) : Nat :=
  if ¬ forks.rskip201 ≤ block then 1000
  else if ¬ forks.rskip353 ≤ block then 2000
  else if ¬ forks.rskip305 ≤ block then 3000
  else 4000

/-- From format 4000 on the script is behind a witness program. -/
def federationOutputHash160 (redeem : Bytes) (formatVersion : Nat) : Bytes :=
  if 4000 ≤ formatVersion then hashes.hash160 ([0x00, 0x20] ++ hashes.sha256 redeem)
  else hashes.hash160 redeem

def p2shOutputScript (hash160 : Bytes) : Bytes := [0xa9, 0x14] ++ hash160 ++ [0x87]

structure FormattedFederation where
  btcKeys : List BtcKey
  creationBlock : Nat
  formatVersion : Nat

structure LiveFederations where
  newFederation : FormattedFederation
  oldFederation : Option FormattedFederation

def federationActivationAge (block : Nat) : Nat :=
  if forks.rskip383 ≤ block then config.federationActivationAge
  else config.federationActivationAgeLegacy

variable (s : LiveFederations)

def newIsActive (block : Nat) : Bool :=
  s.oldFederation.isNone ||
    decide (s.newFederation.creationBlock + federationActivationAge forks config block ≤ block)

/-- With a new federation stored: the active federation, with its format. -/
def activeFormatted (block : Nat) : FormattedFederation :=
  match s.oldFederation with
  | some old => if newIsActive forks config s block then s.newFederation else old
  | none => s.newFederation

/-- The output script of a stored federation, by its format. -/
def storedScript (f : FormattedFederation) : Bytes :=
  p2shOutputScript (federationOutputHash160 hashes
    (federationRedeemForFormat config f.btcKeys f.formatVersion) f.formatVersion)

/-- The script a migration pays. -/
def migrationScript (block : Nat) : Bytes :=
  p2shOutputScript (federationOutputHash160 hashes
    (buildCommittedFederationRedeemScript forks config s.newFederation.btcKeys block)
    s.newFederation.formatVersion)

/-- The outputs that pay the given script, each with its index. -/
def registerFederationOutputs (outputs : List (Bytes × Nat)) (fedScript : Bytes) :
  List (Nat × Nat) :=
  (outputs.zipIdx.filter fun o => o.1.1 = fedScript).map fun o => (o.2, o.1.2)

/-- The old federation while it is stored and the new one is active. -/
def retiringFormatted (block : Nat) : Option FormattedFederation :=
  if newIsActive forks config s block then s.oldFederation else none

/-- What `register_btc_transaction` reads at its height besides the stored federations. -/
structure Recogniser where
  rskip199 : Bool
  rskip293 : Bool
  rskip305 : Bool
  oldFederationAddressHash160 : Bytes
  /-- `lastRetiredFederationP2SHScript`, from RSKIP186 on. -/
  retiredHash160 : Option Bytes
  minPegin : Nat

/-- The default branch of a redeem script. -/
def standardRedeem (full : Bytes) : Bytes :=
  buildFederationRedeemScript ((spendingRedeemKeys full).map (.ofBytes 33))
    (redeemScriptThreshold full)

def standardHash160 (f : FormattedFederation) : Bytes :=
  hashes.hash160 (buildFederationRedeemScript f.btcKeys (f.btcKeys.length / 2 + 1))

variable (r : Recogniser)

/-- An input spends a federation by the hash of its redeem script. -/
def inputMatchesFed (full target : Bytes) : Bool :=
  hashes.hash160 (standardRedeem full) = target ||
    (r.rskip305 && federationOutputHash160 hashes (standardRedeem full) 4000 = target)

/-- The inputs are given by their redeem scripts. -/
def spendsLiveFed (block : Nat) (inputs : List Bytes) : Bool :=
  inputs.any fun full =>
    inputMatchesFed hashes r full (standardHash160 hashes (activeFormatted forks config s block)) ||
      (retiringFormatted forks config s block).any fun old =>
        inputMatchesFed hashes r full (standardHash160 hashes old)

def spendsRetiredOrRetiring (block : Nat) (inputs : List Bytes) : Bool :=
  inputs.any fun full =>
    (r.retiredHash160.any fun target => inputMatchesFed hashes r full target) ||
      (retiringFormatted forks config s block).any fun old =>
        inputMatchesFed hashes r full (standardHash160 hashes old)

/-- The minimum: for each value with RSKIP293, for their sum before. -/
def moveToActive (values : List Nat) : Bool :=
  if r.rskip293 then !values.isEmpty && values.all fun v => r.minPegin ≤ v
  else r.minPegin ≤ values.sum

/-- A spend of the hard-coded old federation. -/
def txFromOldFed (inputs : List Bytes) : Bool :=
  r.rskip199 && inputs.any fun full => hashes.hash160 full = r.oldFederationAddressHash160

/-- The transaction, with these values paid to the active federation, is taken for a peg-out or a
migration. -/
def classifies (block : Nat) (inputs : List Bytes) (values : List Nat) : Bool :=
  txFromOldFed hashes r inputs ||
    (spendsRetiredOrRetiring forks config hashes s r block inputs && moveToActive r values) ||
    spendsLiveFed forks config hashes s r block inputs

/-- What `register_btc_transaction` registers for the active federation at `later` of a migration
of these amounts made at `block`. -/
def registeredMigration (block : Nat) (s' : LiveFederations) (later : Nat) (inputs : List Bytes)
  (amounts : List Nat) : List (Nat × Nat) :=
  let outputs := amounts.map fun amount => (migrationScript forks config hashes s block, amount)
  let fedScript := storedScript config hashes (activeFormatted forks config s' later)
  if classifies forks config hashes s' r later inputs
      ((outputs.filter fun o => o.1 = fedScript).map Prod.snd) then
    registerFederationOutputs outputs fedScript
  else []

end Scripts

/-! ## Recognition of a migration -/

variable {forks : FormatForks} {config : FormatConstants} {hashes : ScriptHashes}

lemma length_buildFederationRedeemScript_pos (keys : List BtcKey) (threshold : Nat) :
  1 ≤ (buildFederationRedeemScript keys threshold).length := by
  simp [buildFederationRedeemScript]

lemma length_buildErpRedeemScript (keys : List BtcKey) (threshold : Nat)
  (erpKeys : List BtcKey) (erpThreshold : Nat) (csvDelay : Int64) (p2sh : Bool) :
  (buildErpRedeemScript keys threshold erpKeys erpThreshold csvDelay p2sh).length =
    (buildFederationRedeemScript keys threshold).length +
      (buildFederationRedeemScript erpKeys erpThreshold).length +
      (signedLongToByteArrayLe csvDelay).length + (if p2sh then 6 else 5) := by
  have hkeys := length_buildFederationRedeemScript_pos keys threshold
  have herp := length_buildFederationRedeemScript_pos erpKeys erpThreshold
  cases p2sh <;> simp [buildErpRedeemScript] <;> omega

/-- **One set of keys, three scripts.** -/
theorem redeemScript_injective (config : FormatConstants) (keys : List BtcKey) :
  Function.Injective (redeemScript config keys) := by
  intro a b h
  have hlength := congrArg List.length h
  cases a <;> cases b <;>
    simp only [redeemScript, length_buildErpRedeemScript, if_true, Bool.false_eq_true,
      if_false] at hlength <;> first | rfl | omega

lemma p2shOutputScript_injective : Function.Injective p2shOutputScript := by
  intro a b h
  exact append_cancel_left (append_cancel_right h)

/-- The hash functions do not collide on these two scripts. -/
def OutputHashBinds (hashes : ScriptHashes) (a b : Bytes) : Prop :=
  ∀ formatVersion, federationOutputHash160 hashes a formatVersion =
    federationOutputHash160 hashes b formatVersion → a = b

lemma registerFederationOutputs_all (script : Bytes) (amounts : List Nat) :
  (registerFederationOutputs (amounts.map fun amount => (script, amount)) script).map Prod.snd =
    amounts := by
  have hall : ((amounts.map fun amount => (script, amount)).zipIdx.filter
      fun o => o.1.1 = script) = (amounts.map fun amount => (script, amount)).zipIdx := by
    rw [filter_eq_self]
    rintro ⟨⟨script', amount⟩, index⟩ hmem
    have hmem' := fst_mem_of_mem_zipIdx hmem
    obtain ⟨_, _, heq⟩ := List.mem_map.mp hmem'
    simpa using (congrArg Prod.fst heq).symm
  rw [registerFederationOutputs, hall, List.map_map]
  have hsnd : (Prod.snd ∘ fun o : (Bytes × Nat) × Nat => (o.2, o.1.2)) = Prod.snd ∘ Prod.fst := rfl
  rw [hsnd, ← List.map_map, zipIdx_map_fst, List.map_map]
  simp [Function.comp_def]

lemma registerFederationOutputs_none {script fedScript : Bytes} (h : script ≠ fedScript)
  (amounts : List Nat) :
  registerFederationOutputs (amounts.map fun amount => (script, amount)) fedScript = [] := by
  rw [registerFederationOutputs, map_eq_nil_iff, filter_eq_nil_iff]
  rintro ⟨⟨script', amount⟩, index⟩ hmem
  have hmem' := fst_mem_of_mem_zipIdx hmem
  obtain ⟨_, _, heq⟩ := List.mem_map.mp hmem'
  have hscript : script = script' := congrArg Prod.fst heq
  simpa [← hscript] using h

lemma migrationScript_eq_iff {s : LiveFederations} {block : Nat} (hbinds : OutputHashBinds hashes
    (buildCommittedFederationRedeemScript forks config s.newFederation.btcKeys block)
    (federationRedeemForFormat config s.newFederation.btcKeys s.newFederation.formatVersion)) :
  migrationScript forks config hashes s block = storedScript config hashes s.newFederation ↔
    templateAt forks block = templateOfFormat s.newFederation.formatVersion := by
  constructor
  · intro h
    exact redeemScript_injective config _ (hbinds _ (p2shOutputScript_injective h))
  intro h
  rw [migrationScript, storedScript, buildCommittedFederationRedeemScript, h]
  rfl

/-- **When migrated coins come back.** The outputs of a migration made at `block` are registered
at a later height, with the same new federation stored, just when the template of that block is
the one of the federation's format, the new federation is still the active one, and the transaction
is taken for a peg-out or a migration. -/
theorem registered_iff {s s' : LiveFederations} {r : Recogniser} {block later : Nat}
  {inputs : List Bytes} {amounts : List Nat}
  (hamounts : amounts ≠ []) (hsame : s'.newFederation = s.newFederation)
  (hbinds : OutputHashBinds hashes
    (buildCommittedFederationRedeemScript forks config s.newFederation.btcKeys block)
    (federationRedeemForFormat config s.newFederation.btcKeys s.newFederation.formatVersion))
  (hother : ∀ old, s'.oldFederation = some old →
    migrationScript forks config hashes s block ≠ storedScript config hashes old) :
  (registeredMigration forks config hashes s r block s' later inputs amounts).map Prod.snd =
      amounts ↔
    (templateAt forks block = templateOfFormat s.newFederation.formatVersion ∧
      newIsActive forks config s' later = true) ∧
    classifies forks config hashes s' r later inputs amounts = true := by
  have hscripts : (registeredMigration forks config hashes s r block s' later inputs amounts).map
      Prod.snd = amounts ↔ migrationScript forks config hashes s block =
        storedScript config hashes (activeFormatted forks config s' later) ∧
      classifies forks config hashes s' r later inputs amounts = true := by
    by_cases heq : migrationScript forks config hashes s block =
        storedScript config hashes (activeFormatted forks config s' later)
    · have hvalues : ((amounts.map fun amount =>
          (migrationScript forks config hashes s block, amount)).filter fun o =>
            o.1 = storedScript config hashes (activeFormatted forks config s' later)).map Prod.snd =
          amounts := by
        rw [filter_eq_self.mpr fun o ho => ?_, List.map_map]
        · simp [Function.comp_def]
        obtain ⟨_, _, rfl⟩ := List.mem_map.mp ho
        exact decide_eq_true heq
      rw [registeredMigration, hvalues]
      cases hclass : classifies forks config hashes s' r later inputs amounts with
      | false => simpa using hamounts.symm
      | true =>
        rw [if_pos rfl, ← heq, registerFederationOutputs_all]
        exact iff_of_true rfl ⟨rfl, rfl⟩
    · refine iff_of_false (fun h => ?_) fun h => heq h.1
      rw [registeredMigration, registerFederationOutputs_none heq, ite_self] at h
      exact hamounts h.symm
  rw [hscripts]
  refine and_congr_left fun _ => ?_
  cases hold : s'.oldFederation with
  | none =>
    have hactive : newIsActive forks config s' later = true := by simp [newIsActive, hold]
    rw [activeFormatted, hold, hsame, migrationScript_eq_iff hbinds]
    simp [hactive]
  | some old =>
    rw [activeFormatted, hold]
    cases hactive : newIsActive forks config s' later with
    | true => simp [hsame, migrationScript_eq_iff hbinds]
    | false => simpa [hactive] using hother old hold

/-- While the old federation is stored, a transaction that spends it is a migration. -/
theorem classifies_of_retiring {s : LiveFederations} {r : Recogniser} {block : Nat}
    {inputs : List Bytes} {full : Bytes} {old : FormattedFederation} (values : List Nat)
    (hfull : full ∈ inputs) (hretiring : retiringFormatted forks config s block = some old)
    (hmatch : inputMatchesFed hashes r full (standardHash160 hashes old) = true) :
    classifies forks config hashes s r block inputs values = true := by
  have hlive : spendsLiveFed forks config hashes s r block inputs = true :=
    any_eq_true.mpr ⟨full, hfull, by simp [hretiring, hmatch]⟩
  rw [classifies, hlive, Bool.or_true]

/-- Once it is gone, a transaction that spends no other federation is one exactly if it spends the
last retired one and the values are worth a peg-in. -/
theorem classifies_iff_of_retired {s : LiveFederations} {r : Recogniser} {block : Nat}
    {inputs : List Bytes} (values : List Nat) (hgone : s.oldFederation = none)
    (hold : txFromOldFed hashes r inputs = false)
    (hother : ∀ full ∈ inputs,
      inputMatchesFed hashes r full (standardHash160 hashes s.newFederation) = false) :
    classifies forks config hashes s r block inputs values = true ↔
      (∃ full ∈ inputs, ∃ target, r.retiredHash160 = some target ∧
        inputMatchesFed hashes r full target = true) ∧ moveToActive r values = true := by
  have hretiring : retiringFormatted forks config s block = none := by
    rw [retiringFormatted, hgone, ite_self]
  have hlive : spendsLiveFed forks config hashes s r block inputs = false := by
    refine any_eq_false.mpr fun full hfull => ?_
    simp [hretiring, activeFormatted, hgone, hother full hfull]
  rw [classifies, hold, hlive, Bool.false_or, Bool.or_false, Bool.and_eq_true,
    spendsRetiredOrRetiring, any_eq_true]
  simp [hretiring, Option.any_eq_true]

/-! ## Mainnet heights -/

namespace MigrationExample

def mainnetForks : FormatForks := ⟨3614800, 4976300, 8052200, 5468000⟩

def mainnetAges : FormatConstants where
  erpFedPubkeys := [.repeatByte 33 9]
  erpFedActivationDelay := 52560
  federationActivationAge := 40320
  federationActivationAgeLegacy := 18500

def plain : ScriptHashes := ⟨fun b => b, fun b => b⟩

lemma plain_binds (a b : Bytes) : OutputHashBinds plain a b := by
  intro formatVersion h
  unfold federationOutputHash160 plain at h
  split at h
  · exact append_cancel_left h
  · exact h

/-- A federation created at `creationBlock`, stored in the format of that height. -/
def createdAt (byte : UInt8) (creationBlock : Nat) : FormattedFederation where
  btcKeys := [.repeatByte 33 byte]
  creationBlock := creationBlock
  formatVersion := federationFormatVersion mainnetForks creationBlock

/-- A new federation of height `creationBlock` beside one of the hop400 era. -/
def replaced (creationBlock : Nat) : LiveFederations :=
  ⟨createdAt 2 creationBlock, some (createdAt 3 4600000)⟩

/-- The redeem script of the coins of the hop400 era. -/
def oldRedeem : Bytes :=
  federationRedeemForFormat mainnetAges (createdAt 3 4600000).btcKeys
    (createdAt 3 4600000).formatVersion

/-- The last retired federation is the one of the hop400 era. -/
def mainnetRules : Recogniser where
  rskip199 := true
  rskip293 := true
  rskip305 := false
  oldFederationAddressHash160 := []
  retiredHash160 := some (standardHash160 plain (createdAt 3 4600000))
  minPegin := 500000

/-- Both heights in one era: the coins come back, those of the last migration after the old
federation is gone. -/
theorem registered_in_one_era :
    (registeredMigration mainnetForks mainnetAges plain (replaced 4700000) mainnetRules 4720000
      (replaced 4700000) 4720100 [oldRedeem] [5000]).map Prod.snd = [5000] ∧
    (registeredMigration mainnetForks mainnetAges plain (replaced 4700000) mainnetRules 4720000
      ⟨createdAt 2 4700000, none⟩ 4720100 [oldRedeem] [500000]).map Prod.snd = [500000] := by
  constructor
  · refine (registered_iff (by simp) rfl (plain_binds _ _) ?_).mpr
      ⟨⟨by decide, by decide⟩, by decide +kernel⟩
    intro old hold
    obtain rfl := Option.some.inj hold
    decide +kernel
  · refine (registered_iff (by simp) rfl (plain_binds _ _) ?_).mpr
      ⟨⟨by decide, by decide⟩, by decide +kernel⟩
    intro old hold
    cases hold

/-- **Coins that no federation gets back.** The federation was created before RSKIP353 and
migrates after it: it is active at both heights, the transaction is a migration, and none of its
outputs is registered. Nor is that of a last migration of less than the minimum, once the old
federation is gone. -/
theorem coins_not_registered :
    newIsActive mainnetForks mainnetAges (replaced 4970000) 4990000 = true ∧
    newIsActive mainnetForks mainnetAges (replaced 4970000) 4990100 = true ∧
    classifies mainnetForks mainnetAges plain (replaced 4970000) mainnetRules 4990100 [oldRedeem]
      [5000] = true ∧
    registeredMigration mainnetForks mainnetAges plain (replaced 4970000) mainnetRules 4990000
      (replaced 4970000) 4990100 [oldRedeem] [5000] = [] ∧
    registeredMigration mainnetForks mainnetAges plain (replaced 4700000) mainnetRules 4720000
      ⟨createdAt 2 4700000, none⟩ 4720100 [oldRedeem] [400000] = [] := by
  decide +kernel

end MigrationExample

end Rustock
