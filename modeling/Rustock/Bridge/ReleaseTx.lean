import Rustock.Bridge.Federation
import Rustock.Bridge.Signing
import Rustock.Lib.Loop

/-!
# Building a peg-out

`complete_pegout_tx` and `complete_recipients_dont_pay_fees_tx`
(crates/execution/src/bridge/release_tx.rs): coins are taken in order until a target
is reached, and the fee is raised until it pays for the size of the transaction that results. In
the first the recipients pay the fee, in equal shares; in the second it is added to the target.

Amounts are natural numbers: no sum or product of the source overflows for amounts of coins.
-/

namespace Rustock.ReleaseTx

open Lib Option List

structure TxIn where
  txid : B256
  vout : Nat
  scriptSig : Bytes
  witness : List Bytes
deriving DecidableEq

structure TxOut where
  value : Nat
  script : Bytes
deriving DecidableEq

structure Tx where
  version : Nat
  inputs : List TxIn
  outputs : List TxOut
deriving DecidableEq

def withLength (bytes : Bytes) : Bytes := CompactSize.encode bytes.length ++ bytes

def TxIn.encode (input : TxIn) : Bytes :=
  input.txid.bytes ++ leBytes 4 input.vout ++ withLength input.scriptSig ++ leBytes 4 0xffffffff

def TxOut.encode (output : TxOut) : Bytes := leBytes 8 output.value ++ withLength output.script

def TxIn.encodeWitness (input : TxIn) : Bytes :=
  CompactSize.encode input.witness.length ++ input.witness.flatMap withLength

def serialize (tx : Tx) : Bytes :=
  let segwit := tx.inputs.isEmpty || tx.inputs.any fun input => !input.witness.isEmpty
  leBytes 4 tx.version ++ (if segwit then [0, 1] else []) ++
    CompactSize.encode tx.inputs.length ++ tx.inputs.flatMap TxIn.encode ++
    CompactSize.encode tx.outputs.length ++ tx.outputs.flatMap TxOut.encode ++
    (if segwit then tx.inputs.flatMap TxIn.encodeWitness else []) ++ leBytes 4 0

def sigSize : Nat := 75

def referenceDefaultMinTxFee : Nat := 5000

def maxStandardTxSize : Nat := 100000

structure PegoutOutput where
  script : Bytes
  amountSatoshis : Nat

structure BuiltPegout where
  tx : Tx
  usedUtxos : List BridgeUtxo

def varintLen (n : Nat) : Nat := if n ≤ 0xfc then 1 else if n ≤ 0xffff then 3 else 5

def minNonDustValue (script : Bytes) : Nat :=
  (8 + varintLen script.length + script.length + 148) * 3 * referenceDefaultMinTxFee / 1000

def txidFromStoredHash (stored : B256) : B256 :=
  ⟨stored.bytes.reverse, by rw [length_reverse, stored.length_eq]⟩

structure Request where
  available : List BridgeUtxo
  outputs : List PegoutOutput
  changeScript : Bytes
  redeemFor : BridgeUtxo → Bytes
  feePerKb : Nat
  version : Nat
  isSegwit : Bool
  sha256 : Bytes → B256

def utxoLe (a b : BridgeUtxo) : Bool :=
  decide (a.txHash.bytes < b.txHash.bytes) ||
    (a.txHash.bytes = b.txHash.bytes && decide (a.vout ≤ b.vout))

def valueOf (coins : List BridgeUtxo) : Nat := (coins.map (·.valueSatoshis)).sum

def totalOf (outputs : List TxOut) : Nat := (outputs.map (·.value)).sum

/-- Coins until the target is gathered. -/
def select (target : Nat) : List BridgeUtxo → Nat → List BridgeUtxo × Nat
  | [], gathered => ([], gathered)
  | utxo :: rest, gathered =>
    if target ≤ gathered then ([], gathered)
    else
      let (selected, gathered) := select target rest (gathered + utxo.valueSatoshis)
      (utxo :: selected, gathered)

/-- What a recipient gets after their share of the fee. -/
def outValue (fee n : Nat) (output : PegoutOutput) (i : Nat) : Option Nat :=
  let remainder : Int := if i = 0 then (fee % n : Nat) else 0
  let v : Int := output.amountSatoshis - (fee / n : Nat) - remainder
  if v < minNonDustValue output.script then none else some v.toNat

def outValues (fee n : Nat) : List PegoutOutput → Nat → Option (List TxOut)
  | [], _ => some []
  | output :: rest, i => do
    let v ← outValue fee n output i
    let outs ← outValues fee n rest (i + 1)
    return ⟨v, output.script⟩ :: outs

namespace Request

variable (r : Request)

def candidates : List BridgeUtxo := r.available.insertionSort fun a b => utxoLe a b = true

def value : Nat := (r.outputs.map (·.amountSatoshis)).sum

/-- The checks before the loop. -/
def rejected : Bool :=
  r.outputs.isEmpty ||
    r.outputs.any (fun output => output.amountSatoshis < minNonDustValue output.script) ||
    r.candidates.any fun utxo => redeemScriptThreshold (r.redeemFor utxo) = 0

def unsigned (selected : List BridgeUtxo) (outputs : List TxOut) : Tx where
  version := r.version
  inputs := selected.map fun utxo => ⟨txidFromStoredHash utxo.txHash, utxo.vout, [], []⟩
  outputs := outputs

def calculateTxSize (selected : List BridgeUtxo) (tx : Tx) : Nat :=
  let baseSize := (serialize tx).length + if r.isSegwit then selected.length * 36 else 0
  let signing := (selected.map fun utxo =>
    redeemScriptThreshold (r.redeemFor utxo) * sigSize + (r.redeemFor utxo).length).sum
  if r.isSegwit then (baseSize + signing + 3 * baseSize) / 4 else baseSize + signing

def feeNeeded (selected : List BridgeUtxo) (tx : Tx) : Nat :=
  max r.feePerKb referenceDefaultMinTxFee * r.calculateTxSize selected tx / 1000

def fillInput (input : TxIn) (utxo : BridgeUtxo) : TxIn :=
  let redeem := r.redeemFor utxo
  let threshold := redeemScriptThreshold redeem
  if r.isSegwit then
    let base := segwitBaseInput r.sha256 redeem threshold
    { input with scriptSig := base.scriptSig, witness := base.witness }
  else { input with scriptSig := placeholderScriptsig redeem threshold }

def finish (selected : List BridgeUtxo) (tx : Tx) : Option BuiltPegout :=
  let tx := { tx with inputs := (tx.inputs.zip selected).map fun x => r.fillInput x.1 x.2 }
  if (serialize tx).length > maxStandardTxSize then none else some ⟨tx, selected⟩

def settle (fee : Nat) (selected : List BridgeUtxo) (outputs : List TxOut) :
  Option BuiltPegout ⊕ Nat :=
  let tx := r.unsigned selected outputs
  if r.feeNeeded selected tx ≤ fee then .inl (r.finish selected tx)
  else .inr (r.feeNeeded selected tx)

/-- A dusty change is raised at the expense of the first recipient. -/
def payChange (outputs : List TxOut) (change : Nat) : Option (List TxOut) :=
  let minChange := minNonDustValue r.changeScript
  if change = 0 then some outputs
  else if change < minChange then
    match outputs with
    | [] => none
    | first :: rest =>
      let value : Int := first.value - (minChange - change : Nat)
      if value < 0 ∨ value.toNat < minNonDustValue first.script then none
      else some (⟨value.toNat, first.script⟩ :: rest ++ [⟨minChange, r.changeScript⟩])
  else some (outputs ++ [⟨change, r.changeScript⟩])

/-- One round of `complete_pegout_tx`. -/
def step (fee : Nat) : Option BuiltPegout ⊕ Nat :=
  match outValues fee r.outputs.length r.outputs 0 with
  | none => .inl none
  | some outputs =>
    let (selected, gathered) := select r.value r.candidates 0
    if gathered < r.value then .inl none
    else
      match r.payChange outputs (gathered - r.value) with
      | none => .inl none
      | some outputs => r.settle fee selected outputs

def completePegoutTx (rounds : Nat) : Option (Option BuiltPegout) :=
  if r.rejected then some none else iterate r.step rounds 0

def requested : List TxOut := r.outputs.map fun output => ⟨output.amountSatoshis, output.script⟩

/-- One round of `complete_recipients_dont_pay_fees_tx`. -/
def dontPayStep (fee : Nat) : Option BuiltPegout ⊕ Nat :=
  let target := r.value + fee
  let (selected, gathered) := select target r.candidates 0
  if gathered < target then .inl none
  else
    let change := gathered - target
    let outputs := if 0 < change ∧ minNonDustValue r.changeScript ≤ change then
      r.requested ++ [⟨change, r.changeScript⟩] else r.requested
    r.settle fee selected outputs

def completeRecipientsDontPayFeesTx (rounds : Nat) : Option (Option BuiltPegout) :=
  if r.rejected then some none else iterate r.dontPayStep rounds 0

end Request

def outpoint (utxo : BridgeUtxo) : B256 × Nat := (utxo.txHash, utxo.vout)

lemma select_spec (target : Nat) : ∀ (coins : List BridgeUtxo) (gathered : Nat),
  (select target coins gathered).1.Sublist coins ∧
  (select target coins gathered).2 = gathered + valueOf (select target coins gathered).1
  | [], gathered => ⟨List.Sublist.slnil, rfl⟩
  | utxo :: rest, gathered => by
    obtain ⟨hsub, hsum⟩ := select_spec target rest (gathered + utxo.valueSatoshis)
    rw [select]
    split_ifs with hreached
    · exact ⟨nil_sublist _, rfl⟩
    refine ⟨hsub.cons_cons utxo, ?_⟩
    simp only [hsum, valueOf, map_cons, sum_cons]
    omega

lemma valueOf_le {selected coins : List BridgeUtxo} (h : selected.Sublist coins) :
  valueOf selected ≤ valueOf coins := by
  induction h with
  | slnil => exact le_rfl
  | cons utxo _ ih =>
    rw [valueOf, valueOf, map_cons, sum_cons] at *
    omega
  | cons_cons utxo _ ih =>
    simp only [valueOf, map_cons, sum_cons] at *
    omega

lemma outValue_eq_some {fee n i v : Nat} {output : PegoutOutput}
  (h : outValue fee n output i = some v) :
  v + fee / n + (if i = 0 then fee % n else 0) = output.amountSatoshis ∧
    minNonDustValue output.script ≤ v := by
  unfold outValue at h
  dsimp only at h
  split_ifs at h ⊢ with hi hdust hdust
  all_goals
    rw [some_inj] at h
    omega

lemma outValues_spec {fee n : Nat} : ∀ {l : List PegoutOutput} {i : Nat} {outs : List TxOut},
  outValues fee n l i = some outs → outs.map (·.script) = l.map (·.script) ∧
  (∀ out ∈ outs, minNonDustValue out.script ≤ out.value) ∧
  totalOf outs + l.length * (fee / n) + (if i = 0 ∧ 0 < l.length then fee % n else 0) =
    (l.map (·.amountSatoshis)).sum
  | [], i, outs, h => by
    rw [outValues, some_inj] at h
    subst h
    simp [totalOf]
  | output :: rest, i, outs, h => by
    rw [outValues] at h
    obtain ⟨v, hv, h⟩ := bind_eq_some_iff.mp h
    obtain ⟨outs', houts, h⟩ := bind_eq_some_iff.mp h
    obtain rfl := some_inj.mp h
    obtain ⟨hamount, hdust⟩ := outValue_eq_some hv
    obtain ⟨hscripts, hrest, htotal⟩ := outValues_spec houts
    refine ⟨by rw [map_cons, map_cons, hscripts], ?_, ?_⟩
    · intro out hout
      rcases mem_cons.mp hout with rfl | hout
      · exact hdust
      · exact hrest out hout
    rw [if_neg (by omega)] at htotal
    simp only [totalOf, map_cons, sum_cons, length_cons, Nat.succ_mul,
      Nat.zero_lt_succ, and_true] at htotal ⊢
    omega

def Request.topUp (r : Request) (change : Nat) : Nat :=
  if 0 < change ∧ change < minNonDustValue r.changeScript then
    minNonDustValue r.changeScript - change
  else 0

structure Request.Paid (r : Request) (outputs recipients change : List TxOut) : Prop where
  eq : outputs = recipients ++ change
  scripts : recipients.map (·.script) = r.outputs.map (·.script)
  change_script : change = [] ∨ ∃ value, change = [⟨value, r.changeScript⟩]
  dust : ∀ output ∈ outputs, minNonDustValue output.script ≤ output.value

lemma totalOf_append (l l' : List TxOut) : totalOf (l ++ l') = totalOf l + totalOf l' := by
  rw [totalOf, map_append, sum_append]
  rfl

lemma payChange_spec {r : Request} {outs outputs : List TxOut} {change : Nat}
  (hscripts : outs.map (·.script) = r.outputs.map (·.script))
  (hdust : ∀ out ∈ outs, minNonDustValue out.script ≤ out.value)
  (h : r.payChange outs change = some outputs) :
  outputs.map (·.script) = r.outputs.map (·.script) ++
    (if change = 0 then [] else [r.changeScript]) ∧ totalOf outputs = totalOf outs + change ∧
  ∃ recipients left, r.Paid outputs recipients left ∧
    totalOf recipients + r.topUp change = totalOf outs := by
  unfold Request.payChange at h
  dsimp only at h
  by_cases hzero : change = 0
  · rw [if_pos hzero, some_inj] at h
    subst h
    refine ⟨by rw [if_pos hzero, append_nil, hscripts], by omega, outs, [], ?_, ?_⟩
    · exact ⟨(append_nil _).symm, hscripts, Or.inl rfl, hdust⟩
    · rw [Request.topUp, if_neg (by omega), Nat.add_zero]
  rw [if_neg hzero] at h
  rw [if_neg hzero]
  by_cases hsmall : change < minNonDustValue r.changeScript
  · rw [if_pos hsmall] at h
    cases outs with
    | nil => cases h
    | cons first rest =>
      dsimp only at h
      split_ifs at h with hfirst
      obtain rfl := some_inj.mp h
      have hpaid : ((first.value : Int) - (minNonDustValue r.changeScript - change : Nat)).toNat +
          (minNonDustValue r.changeScript - change) = first.value := by omega
      refine ⟨?_, ?_, _, [⟨minNonDustValue r.changeScript, r.changeScript⟩],
        ⟨rfl, ?_, Or.inr ⟨_, rfl⟩, ?_⟩, ?_⟩
      · rw [← hscripts]
        simp
      · rw [totalOf_append]
        simp only [totalOf, map_cons, sum_cons, map_nil, sum_nil]
        omega
      · rw [← hscripts]
        rfl
      · intro out hout
        rcases mem_append.mp hout with hout | hout
        · rcases mem_cons.mp hout with rfl | hout
          · dsimp only
            omega
          · exact hdust out (mem_cons_of_mem _ hout)
        obtain rfl := mem_singleton.mp hout
        exact le_rfl
      rw [Request.topUp, if_pos ⟨by omega, hsmall⟩]
      simp only [totalOf, map_cons, sum_cons]
      omega
  rw [if_neg hsmall, some_inj] at h
  subst h
  refine ⟨by simp [hscripts], ?_, outs, [⟨change, r.changeScript⟩],
    ⟨rfl, hscripts, Or.inr ⟨_, rfl⟩, ?_⟩, ?_⟩
  · rw [totalOf_append]
    simp [totalOf]
  · intro out hout
    rcases mem_append.mp hout with hout | hout
    · exact hdust out hout
    obtain rfl := mem_singleton.mp hout
    exact Nat.le_of_not_lt hsmall
  · rw [Request.topUp, if_neg (by omega), Nat.add_zero]

def blank (tx : Tx) : Tx :=
  { tx with inputs := tx.inputs.map fun input => { input with scriptSig := [], witness := [] } }

structure Balanced (r : Request) (built : BuiltPegout) (fee : Nat) : Prop where
  used : built.usedUtxos.Subperm r.available
  inputs : built.tx.inputs.map (fun input => (input.txid, input.vout)) =
    built.usedUtxos.map fun utxo => (txidFromStoredHash utxo.txHash, utxo.vout)
  distinct : (built.tx.inputs.map fun input => (input.txid, input.vout)).Nodup
  balance : valueOf built.usedUtxos = totalOf built.tx.outputs + fee
  covers : max r.feePerKb referenceDefaultMinTxFee *
    r.calculateTxSize built.usedUtxos (blank built.tx) / 1000 ≤ fee
  size : (serialize built.tx).length ≤ maxStandardTxSize

lemma txidFromStoredHash_injective : Function.Injective txidFromStoredHash := by
  intro a b h
  have hbytes := congrArg FixedBytes.bytes h
  exact FixedBytes.ext (reverse_injective hbytes)

namespace Request

variable {r : Request} {fee : Nat}

lemma perm_candidates : r.candidates.Perm r.available := perm_insertionSort _ _

variable {outputs : List TxOut} {built : BuiltPegout} {selected : List BridgeUtxo}

lemma settle_inl (hsub : selected.Sublist r.candidates)
  (hdistinct : (r.available.map outpoint).Nodup) {paid : Nat} (hpaid : fee ≤ paid)
  (hvalue : valueOf selected = totalOf outputs + paid)
  (h : r.settle fee selected outputs = .inl (some built)) :
  Balanced r built paid ∧ built.tx.outputs = outputs ∧ built.usedUtxos = selected := by
  unfold settle at h
  dsimp only at h
  split_ifs at h with hcovers
  have hfinish := Sum.inl.inj h
  unfold finish at hfinish
  dsimp only at hfinish
  split_ifs at hfinish with hsize
  obtain rfl := some_inj.mp hfinish
  have hzip : ((r.unsigned selected outputs).inputs.zip selected) = selected.map fun utxo =>
      (⟨txidFromStoredHash utxo.txHash, utxo.vout, [], []⟩, utxo) := by
    rw [unsigned]
    nth_rewrite 2 [← List.map_id selected]
    rw [zip_map']
    rfl
  have hfill (input : TxIn) (utxo : BridgeUtxo) :
      ((r.fillInput input utxo).txid, (r.fillInput input utxo).vout) = (input.txid, input.vout) ∧
      { r.fillInput input utxo with scriptSig := [], witness := [] } =
        { input with scriptSig := [], witness := [] } := by
    unfold fillInput
    dsimp only
    split_ifs <;> exact ⟨rfl, rfl⟩
  have hinputs : (((r.unsigned selected outputs).inputs.zip selected).map fun x =>
      r.fillInput x.1 x.2).map (fun input => (input.txid, input.vout)) =
      selected.map fun utxo => (txidFromStoredHash utxo.txHash, utxo.vout) := by
    rw [hzip, List.map_map, List.map_map]
    exact List.map_congr_left fun utxo _ => (hfill _ utxo).1
  have hblank : blank { r.unsigned selected outputs with
      inputs := ((r.unsigned selected outputs).inputs.zip selected).map fun x =>
        r.fillInput x.1 x.2 } = r.unsigned selected outputs := by
    have hin : ((((r.unsigned selected outputs).inputs.zip selected).map fun x =>
        r.fillInput x.1 x.2).map fun input => { input with scriptSig := [], witness := [] }) =
        (r.unsigned selected outputs).inputs := by
      rw [hzip, List.map_map, List.map_map]
      exact List.map_congr_left fun utxo _ => (hfill _ utxo).2
    rw [blank]
    dsimp only
    rw [hin]
  refine ⟨⟨?_, hinputs, ?_, hvalue, ?_, Nat.le_of_not_lt hsize⟩, rfl, rfl⟩
  · exact hsub.subperm.trans perm_candidates.subperm
  · have hout : (selected.map outpoint).Nodup :=
      ((perm_candidates.map outpoint).nodup_iff.mpr hdistinct).sublist (hsub.map outpoint)
    have hmap := hout.map (Function.Injective.prodMap txidFromStoredHash_injective
      (Function.injective_id : Function.Injective (id : Nat → Nat)))
    rw [List.map_map] at hmap
    dsimp only
    rw [hinputs]
    exact hmap
  dsimp only
  rw [hblank]
  exact hcovers.trans hpaid

variable {fee' : Nat}

lemma settle_inr (h : r.settle fee selected outputs = .inr fee') :
  fee < fee' ∧ fee' = r.feeNeeded selected (r.unsigned selected outputs) := by
  unfold settle at h
  dsimp only at h
  split_ifs at h with hcovers
  obtain rfl := Sum.inr.inj h
  exact ⟨Nat.lt_of_not_le hcovers, rfl⟩

variable {out : Option BuiltPegout ⊕ Nat}

lemma step_cases (h : r.step fee = out) (hne : out ≠ .inl none) :
  ∃ outs outputs, outValues fee r.outputs.length r.outputs 0 = some outs ∧
    r.value ≤ (select r.value r.candidates 0).2 ∧
    r.payChange outs ((select r.value r.candidates 0).2 - r.value) = some outputs ∧
    r.settle fee (select r.value r.candidates 0).1 outputs = out := by
  unfold step at h
  cases hvalues : outValues fee r.outputs.length r.outputs 0 with
  | none =>
    rw [hvalues] at h
    exact absurd h.symm hne
  | some outs =>
    rw [hvalues] at h
    dsimp only at h
    split_ifs at h with hshort
    · exact absurd h.symm hne
    cases hchange : r.payChange outs ((select r.value r.candidates 0).2 - r.value) with
    | none =>
      rw [hchange] at h
      exact absurd h.symm hne
    | some outputs =>
      rw [hchange] at h
      exact ⟨outs, outputs, rfl, Nat.le_of_not_lt hshort, hchange, h⟩

def RecipientsPay (r : Request) (built : BuiltPegout) (fee : Nat) : Prop :=
  ∃ recipients change, r.Paid built.tx.outputs recipients change ∧
    totalOf recipients + fee + r.topUp (valueOf built.usedUtxos - r.value) = r.value

lemma step_inl (hne : r.outputs ≠ []) (hdistinct : (r.available.map outpoint).Nodup)
  (h : r.step fee = .inl (some built)) : Balanced r built fee ∧ RecipientsPay r built fee := by
  obtain ⟨outs, outputs, hvalues, henough, hchange, hsettle⟩ := step_cases h (by simp)
  obtain ⟨hsub, hgathered⟩ := select_spec r.value r.candidates 0
  obtain ⟨hscripts, hdust, hshares⟩ := outValues_spec hvalues
  obtain ⟨-, htotal, recipients, left, hpaid, htopUp⟩ := payChange_spec hscripts hdust hchange
  have hpos : 0 < r.outputs.length := length_pos_iff.mpr hne
  have hfee : totalOf outs + fee = r.value := by
    rw [if_pos ⟨rfl, hpos⟩] at hshares
    have := Nat.div_add_mod fee r.outputs.length
    rw [value]
    omega
  rw [Nat.zero_add] at hgathered
  obtain ⟨hbalanced, houtputs, hused⟩ := settle_inl hsub hdistinct le_rfl
    (by rw [htotal, ← hgathered]; omega) hsettle
  refine ⟨hbalanced, recipients, left, by rw [houtputs]; exact hpaid, ?_⟩
  rw [hused, ← hgathered]
  omega

lemma length_encode (output : TxOut) : output.encode.length =
  8 + CompactSize.size output.script.length + output.script.length := by
  simp only [TxOut.encode, withLength, length_append, length_leBytes,
    CompactSize.length_encode]
  omega

lemma feeNeeded_congr (selected : List BridgeUtxo) {outputs' : List TxOut}
  (h : outputs.map (·.script) = outputs'.map (·.script)) :
  r.feeNeeded selected (r.unsigned selected outputs) =
    r.feeNeeded selected (r.unsigned selected outputs') := by
  have hcount : outputs.length = outputs'.length := by
    rw [← length_map (·.script), h, length_map]
  have hbody : (outputs.flatMap TxOut.encode).length = (outputs'.flatMap TxOut.encode).length := by
    have hlen (l : List TxOut) : (l.flatMap TxOut.encode).length = ((l.map (·.script)).map
        fun script => 8 + CompactSize.size script.length + script.length).sum := by
      rw [List.length_flatMap, List.map_map]
      exact congrArg List.sum (List.map_congr_left fun output _ => length_encode output)
    rw [hlen, hlen, h]
  have hsize : (serialize (r.unsigned selected outputs)).length =
      (serialize (r.unsigned selected outputs')).length := by
    simp only [serialize, unsigned, length_append, hbody, CompactSize.length_encode, hcount]
    rfl
  rw [feeNeeded, feeNeeded, calculateTxSize, calculateTxSize, hsize]

def shapeFee (r : Request) : Nat :=
  let selected := (select r.value r.candidates 0).1
  let change := (select r.value r.candidates 0).2 - r.value
  let scripts := r.outputs.map (·.script) ++ if change = 0 then [] else [r.changeScript]
  r.feeNeeded selected (r.unsigned selected (scripts.map fun script => ⟨0, script⟩))

/-- **The second round asks for the same fee.** -/
theorem step_inr (h : r.step fee = .inr fee') : fee < fee' ∧ fee' = r.shapeFee := by
  obtain ⟨outs, outputs, hvalues, -, hchange, hsettle⟩ := step_cases h (by simp)
  obtain ⟨hscripts, hdust, -⟩ := outValues_spec hvalues
  obtain ⟨hshape, -⟩ := payChange_spec hscripts hdust hchange
  obtain ⟨hlt, hneeded⟩ := settle_inr hsettle
  refine ⟨hlt, hneeded.trans (feeNeeded_congr _ ?_)⟩
  rw [hshape, List.map_map]
  exact (List.map_id _).symm

def RecipientsExact (r : Request) (built : BuiltPegout) : Prop :=
  ∃ change, r.Paid built.tx.outputs r.requested change

lemma dontPayStep_cases (h : r.dontPayStep fee = out) (hne : out ≠ .inl none) :
  r.value + fee ≤ (select (r.value + fee) r.candidates 0).2 ∧
  ∃ change : List TxOut, (change = [] ∨ ∃ value, minNonDustValue r.changeScript ≤ value ∧
      change = [⟨value, r.changeScript⟩]) ∧
    r.value + fee + totalOf change ≤ (select (r.value + fee) r.candidates 0).2 ∧
    r.settle fee (select (r.value + fee) r.candidates 0).1 (r.requested ++ change) = out := by
  unfold dontPayStep at h
  dsimp only at h
  split_ifs at h with hshort hchange
  · exact absurd h.symm hne
  · refine ⟨Nat.le_of_not_lt hshort, _, Or.inr ⟨_, hchange.2, rfl⟩, ?_, h⟩
    simp only [totalOf, map_cons, map_nil, sum_cons, sum_nil]
    omega
  refine ⟨Nat.le_of_not_lt hshort, [], Or.inl rfl, ?_, ?_⟩
  · exact Nat.le_of_not_lt hshort
  rw [append_nil]
  exact h

lemma totalOf_requested : totalOf r.requested = r.value := by
  rw [totalOf, requested, List.map_map, value]
  rfl

lemma dontPayStep_inl
  (hdust : ∀ output ∈ r.outputs, minNonDustValue output.script ≤ output.amountSatoshis)
  (hdistinct : (r.available.map outpoint).Nodup) (h : r.dontPayStep fee = .inl (some built)) :
  ∃ paid, Balanced r built paid ∧ RecipientsExact r built := by
  obtain ⟨-, change, hchange, henough, hsettle⟩ := dontPayStep_cases h (by simp)
  obtain ⟨hsub, hgathered⟩ := select_spec (r.value + fee) r.candidates 0
  rw [Nat.zero_add] at hgathered
  have htotal : totalOf (r.requested ++ change) = r.value + totalOf change := by
    rw [totalOf_append, totalOf_requested]
  -- a change too small to be paid is left to the fee
  obtain ⟨paid, hpaid⟩ : ∃ paid, valueOf (select (r.value + fee) r.candidates 0).1 =
      totalOf (r.requested ++ change) + paid := Nat.exists_eq_add_of_le (by omega)
  obtain ⟨hbalanced, houtputs, -⟩ := settle_inl hsub hdistinct (by omega) hpaid hsettle
  refine ⟨_, hbalanced, change, ⟨houtputs, ?_, ?_, ?_⟩⟩
  · rw [requested, List.map_map]
    rfl
  · rcases hchange with rfl | ⟨value, -, rfl⟩
    · exact Or.inl rfl
    · exact Or.inr ⟨value, rfl⟩
  intro output hout
  rw [houtputs, mem_append] at hout
  rcases hout with hout | hout
  · obtain ⟨asked, hasked, rfl⟩ := mem_map.mp hout
    exact hdust asked hasked
  rcases hchange with rfl | ⟨value, hvalue, rfl⟩
  · exact absurd hout not_mem_nil
  obtain rfl := mem_singleton.mp hout
  exact hvalue

/-- **The fee grows, and the coins bound it.** -/
theorem dontPayStep_inr (h : r.dontPayStep fee = .inr fee') :
  fee < fee' ∧ fee ≤ valueOf r.candidates := by
  obtain ⟨henough, change, -, -, hsettle⟩ := dontPayStep_cases h (by simp)
  obtain ⟨hsub, hgathered⟩ := select_spec (r.value + fee) r.candidates 0
  have := valueOf_le hsub
  exact ⟨(settle_inr hsettle).1, by omega⟩

lemma of_not_rejected (h : r.rejected = false) : r.outputs ≠ [] ∧
  ∀ output ∈ r.outputs, minNonDustValue output.script ≤ output.amountSatoshis := by
  simp only [rejected, Bool.or_eq_false_iff, List.any_eq_false, decide_eq_true_eq] at h
  refine ⟨?_, fun output hout => Nat.le_of_not_lt (h.1.2 output hout)⟩
  intro hnil
  rw [hnil] at h
  exact absurd h.1.1 (by decide)

lemma terminates_of {step : Nat → Option BuiltPegout ⊕ Nat} (μ : Nat → Nat)
  (hstep : ∀ fee fee', step fee = .inr fee' → μ fee' < μ fee) :
  Terminates fun rounds => if r.rejected then some none else iterate step rounds 0 := by
  cases hrejected : r.rejected with
  | true => exact ⟨0, none, fun _ _ => rfl⟩
  | false => exact Terminates.of_measure hstep 0

lemma exists_last {step : Nat → Option BuiltPegout ⊕ Nat} {rounds : Nat}
  (h : (if r.rejected then some none else iterate step rounds 0) = some (some built)) :
  r.rejected = false ∧ ∃ fee, step fee = .inl (some built) := by
  split_ifs at h with hrejected
  · exact absurd h (by simp)
  obtain ⟨fee, -, hlast⟩ := iterate_result (I := fun _ => True) (fun _ _ _ _ => trivial) trivial h
  exact ⟨Bool.eq_false_iff.mpr hrejected, fee, hlast⟩

end Request

/-- **What is built balances.** For every request over coins with distinct outpoints both builders
end, and a transaction they return spends distinct coins of the request, pays a fee that covers its
size, has no dusty output, and gives the recipients what was asked for less the fee and the top-up
of a dusty change, or exactly what was asked for. -/
theorem built_balanced (r : Request) (hdistinct : (r.available.map outpoint).Nodup) :
  (Terminates r.completePegoutTx ∧ ∀ rounds built, r.completePegoutTx rounds = some (some built) →
    ∃ fee, Balanced r built fee ∧ r.RecipientsPay built fee) ∧
  (Terminates r.completeRecipientsDontPayFeesTx ∧ ∀ rounds built,
    r.completeRecipientsDontPayFeesTx rounds = some (some built) →
    ∃ fee, Balanced r built fee ∧ r.RecipientsExact built) := by
  refine ⟨⟨?_, fun rounds built h => ?_⟩, ⟨?_, fun rounds built h => ?_⟩⟩
  · refine Request.terminates_of (fun fee => r.shapeFee - fee) fun fee fee' h => ?_
    obtain ⟨hlt, rfl⟩ := Request.step_inr h
    omega
  · obtain ⟨hrejected, fee, hlast⟩ := Request.exists_last h
    exact ⟨fee, Request.step_inl (Request.of_not_rejected hrejected).1 hdistinct hlast⟩
  · refine Request.terminates_of (fun fee => valueOf r.candidates + 1 - fee)
      fun fee fee' h => ?_
    obtain ⟨hlt, hle⟩ := Request.dontPayStep_inr h
    omega
  obtain ⟨hrejected, fee, hlast⟩ := Request.exists_last h
  exact Request.dontPayStep_inl (Request.of_not_rejected hrejected).2 hdistinct hlast

namespace Example

def key : Bytes := 0x02 :: replicate 32 0x0a

def request : Request where
  available := [⟨.repeatByte 32 7, 1, 1000000, []⟩]
  outputs := [⟨replicate 25 0x51, 400000⟩]
  changeScript := replicate 23 0x52
  redeemFor _ := 0x51 :: (pushData key ++ [0x51, 0xae])
  feePerKb := 10000
  version := 1
  isSegwit := false
  sha256 _ := .zero 32

end Example

/-- The recipient pays the fee of a build that ends in two rounds. -/
theorem built_balanced_one : ∃ built fee, Example.request.completePegoutTx 2 = some (some built) ∧
    Balanced Example.request built fee ∧ Example.request.RecipientsPay built fee := by
  have hsome : ((Example.request.completePegoutTx 2).bind id).isSome = true := by decide +kernel
  obtain ⟨built, hbuilt⟩ := isSome_iff_exists.mp hsome
  obtain ⟨result, hresult, hid⟩ := bind_eq_some_iff.mp hbuilt
  obtain rfl : result = some built := hid
  obtain ⟨fee, hfee⟩ := (built_balanced Example.request (by decide)).1.2 2 built hresult
  exact ⟨built, fee, hresult, hfee⟩

end Rustock.ReleaseTx
