import Rustock.Execution.Journal
import Rustock.Lib.RlpItem
import Rustock.Lib.Run
import Mathlib

/-!
# The union bridge

RSKIP-502 (crates/execution/src/bridge/union.rs): a second bridge draws RBTC from the Bridge
account up to a locking cap and returns it. The Bridge keeps what is out in the cell
`weisTransferredToUnionBridge`.

A request stores the new total **before** the transfer, takes the total modulo `2 ^ 256`, and
does not look at whether the transfer moved anything.
-/

namespace Rustock

open Lib Option Function BitVec
open BitVec (le_def le_trans ofNat not_lt le_refl not_le le_of_eq ofNat_toNat)

/-- precompiles.rs: the Bridge's account. -/
def bridgeAddr : Address := ⟨List.replicate 16 0 ++ [0x01, 0x00, 0x00, 0x06], rfl⟩

inductive Network where
  | mainnet | testnet | regtest
deriving DecidableEq

/-- Without the authorizer of the contract address. -/
structure UnionConstants where
  address : Address
  initialLockingCap : U256
  lockingCapIncrementsMultiplier : U256
  changeLockingCapAuthorizer : Address
  changeTransferPermissionsAuthorizer : Address

def unionConstants : Network → UnionConstants
  | .testnet =>
    { address := .zero 20
      initialLockingCap := 10 ^ 18
      lockingCapIncrementsMultiplier := 2
      changeLockingCapAuthorizer :=
        ⟨beBytes 20 0x1a8109af0f019ed3045fbcdf45e5e90d6b6aafaf, length_beBytes ..⟩
      changeTransferPermissionsAuthorizer :=
        ⟨beBytes 20 0x8db1f83e8119e4dce5bc708ec2f4390ffd910b19, length_beBytes ..⟩ }
  | _ =>
    { address := .zero 20
      initialLockingCap := 10 ^ 18
      lockingCapIncrementsMultiplier := 2
      changeLockingCapAuthorizer := .zero 20
      changeTransferPermissionsAuthorizer := .zero 20 }

inductive UnionResponse where
  | success | unauthorizedCaller | invalidValue | transferDisabled | genericError
deriving DecidableEq

inductive UnionCell where
  | contractAddress | lockingCap | weisTransferred | requestEnabled | releaseEnabled
deriving DecidableEq

inductive UnionEvent where
  | lockingCapIncreased (sender : Address) (current newCap : U256)
  | rbtcRequested (union : Address) (amount : U256)
  | rbtcReleased (sender : Address) (amount : U256)
  | transferPermissionsUpdated (sender : Address) (request release : Bool)
deriving DecidableEq

structure UnionState where
  cells : UnionCell → Bytes
  journal : Journal
  events : List UnionEvent

/-- The payload of a short RLP string. -/
def rlpElement : Bytes → Option Bytes
  | [] => none
  | b :: rest =>
    if b < 0x80 then some [b]
    else if b = 0x80 then some []
    else if b < 0xB8 then
      if rest.length < b.toNat - 0x80 then none else some (rest.take (b.toNat - 0x80))
    else none

def rlpEncodeBytes : Bytes → Bytes
  | [] => [0x80]
  | [b] => if b < 0x80 then [b] else [0x81, b]
  | payload => UInt8.ofNat (0x80 + payload.length) :: payload

lemma rlpElement_rlpEncodeBytes {payload : Bytes} (h : payload.length ≤ 55) :
  rlpElement (rlpEncodeBytes payload) = some payload := by
  match payload, h with
  | [], _ => rfl
  | [b], _ =>
    by_cases hb : b < 0x80 <;> simp [rlpEncodeBytes, rlpElement, hb]
  | b :: c :: rest, h =>
    have hlen : (UInt8.ofNat (0x80 + (b :: c :: rest).length)).toNat =
        0x80 + (b :: c :: rest).length := by
      rw [UInt8.toNat_ofNat', Nat.mod_eq_of_lt (by omega)]
    have hmore : 2 ≤ (b :: c :: rest).length := by simp
    generalize hp : b :: c :: rest = payload at *
    have hencode : rlpEncodeBytes payload = UInt8.ofNat (0x80 + payload.length) :: payload := by
      subst hp; rfl
    generalize UInt8.ofNat (0x80 + payload.length) = first at *
    have h1 : ¬ first < 0x80 :=
      UInt8.not_lt.mpr (UInt8.le_iff_toNat_le.mpr (show 0x80 ≤ first.toNat by omega))
    have h2 : first ≠ 0x80 := fun heq => by
      have : first.toNat = 0x80 := by rw [heq]; rfl
      omega
    have h3 : first < 0xB8 := UInt8.lt_iff_toNat_lt.mpr (show first.toNat < 0xB8 by omega)
    rw [hencode, rlpElement, if_neg h1, if_neg h2, if_pos h3, hlen, Nat.add_sub_cancel_left,
      if_neg (by omega), List.take_length]

variable (args : Bytes) (index : Nat)

def abiWord : Option Bytes :=
  if index * 32 + 32 ≤ args.length then some (window args (index * 32) 32) else none

def abiUint : Option U256 :=
  (abiWord args index).map fun w => ofNat 256 (beNat w)

def abiBool : Option Bool :=
  (abiWord args index).map fun w => w.any (· != 0)

namespace UnionState

variable (net : Network) (s : UnionState)

/-- Outside mainnet the stored address wins. -/
def contractAddress : Address :=
  if net = .mainnet then (unionConstants net).address
  else
    match rlpElement (s.cells .contractAddress) with
    | some b => if h : b.length = 20 then ⟨b, h⟩ else (unionConstants net).address
    | none => (unionConstants net).address

def lockingCap : U256 :=
  match rlpElement (s.cells .lockingCap) with
  | some b => ofNat 256 (beNat b)
  | none => (unionConstants net).initialLockingCap

def weisTransferred : U256 :=
  ((rlpElement (s.cells .weisTransferred)).map fun b => ofNat 256 (beNat b)).getD 0

variable (cell : UnionCell)

def store (value : Bytes) : UnionState :=
  { s with cells := Function.update s.cells cell value }

def storeCoin (v : U256) : UnionState :=
  s.store cell (rlpEncodeBytes (Rlp.trimmed 32 v.toNat))

/-- An absent permission is granted. -/
def flag : Bool :=
  match rlpElement (s.cells cell) with
  | some b => b.any (· != 0)
  | none => true

def storeFlag (value : Bool) : UnionState :=
  s.store cell (rlpEncodeBytes (if value then [1] else []))

def emit (e : UnionEvent) : UnionState := { s with events := s.events ++ [e] }

/-- What the journal reports about funds is dropped. -/
def transferFromBridge (payee : Address) (amount : U256) : UnionState :=
  { s with journal := s.journal.transfer bridgeAddr payee amount }

variable (sender : Address)

def increaseLockingCap (args : Bytes) : UnionResponse × UnionState :=
  if sender ≠ (unionConstants net).changeLockingCapAuthorizer then (.unauthorizedCaller, s)
  else
    match abiUint args 0 with
    | none => (.genericError, s)
    | some newCap =>
      let current := s.lockingCap net
      if newCap ≤ current ∨ current * (unionConstants net).lockingCapIncrementsMultiplier < newCap
      then (.invalidValue, s)
      else (.success, (s.storeCoin .lockingCap newCap).emit
        (.lockingCapIncreased sender current newCap))

def requestRbtc (args : Bytes) : UnionResponse × UnionState :=
  let unionAddress := s.contractAddress net
  if sender ≠ unionAddress then (.unauthorizedCaller, s)
  else if s.flag .requestEnabled = false then (.transferDisabled, s)
  else
    match abiUint args 0 with
    | none => (.genericError, s)
    | some amount =>
      if amount = 0 then (.invalidValue, s)
      else if s.lockingCap net < s.weisTransferred + amount then (.invalidValue, s)
      else
        let s := s.storeCoin .weisTransferred (s.weisTransferred + amount)
        (.success, (s.transferFromBridge unionAddress amount).emit
          (.rbtcRequested unionAddress amount))

/-- More than was drawn closes both directions. -/
def releaseOutcome (callValue : U256) : UnionResponse × UnionState :=
  if sender ≠ s.contractAddress net then (.unauthorizedCaller, s)
  else if s.flag .releaseEnabled = false then (.transferDisabled, s)
  else if callValue = 0 then (.invalidValue, s)
  else if s.weisTransferred < callValue then
    (.invalidValue, ((s.storeFlag .requestEnabled false).storeFlag .releaseEnabled false).emit
      (.transferPermissionsUpdated bridgeAddr false false))
  else (.success, (s.storeCoin .weisTransferred (s.weisTransferred - callValue)).emit
    (.rbtcReleased sender callValue))

/-- A release that fails hands the value back. -/
def releaseRbtc (callValue : U256) : UnionResponse × UnionState :=
  let (outcome, s) := s.releaseOutcome net sender callValue
  if outcome ≠ .success ∧ callValue ≠ 0 then (outcome, s.transferFromBridge sender callValue)
  else (outcome, s)

def setTransferPermissions (args : Bytes) : UnionResponse × UnionState :=
  if sender ≠ (unionConstants net).changeTransferPermissionsAuthorizer then
    (.unauthorizedCaller, s)
  else
    match abiBool args 0, abiBool args 1 with
    | some request, some release =>
      if s.flag .requestEnabled = request ∧ s.flag .releaseEnabled = release then (.success, s)
      else (.success, ((s.storeFlag .requestEnabled request).storeFlag .releaseEnabled
        release).emit (.transferPermissionsUpdated sender request release))
    | _, _ => (.genericError, s)

end UnionState

open UnionState

inductive UnionCall where
  | requestUnionBridgeRbtc (sender : Address) (args : Bytes)
  | releaseUnionBridgeRbtc (sender : Address) (value : U256)
  | increaseUnionBridgeLockingCap (sender : Address) (args : Bytes)
  | setUnionBridgeTransferPermissions (sender : Address) (args : Bytes)
deriving DecidableEq

structure UnionTrace where
  state : UnionState
  moved : Nat
  returned : Nat

namespace UnionTrace

def start (s : UnionState) : UnionTrace := ⟨s, 0, 0⟩

def call (net : Network) (t : UnionTrace) : UnionCall → UnionTrace
  | .requestUnionBridgeRbtc sender args =>
    let s := (t.state.requestRbtc net sender args).2
    { t with
      state := s
      moved := t.moved + ((t.state.journal.info bridgeAddr).balance.toNat -
        (s.journal.info bridgeAddr).balance.toNat) }
  | .releaseUnionBridgeRbtc sender value =>
    if (t.state.journal.info sender).balance < value then t
    else
      let paid := { t.state with journal := t.state.journal.transfer sender bridgeAddr value }
      let (outcome, s) := paid.releaseRbtc net sender value
      { t with
        state := s
        returned := t.returned + if outcome = .success then value.toNat else 0 }
  | .increaseUnionBridgeLockingCap sender args =>
    { t with state := (t.state.increaseLockingCap net sender args).2 }
  | .setUnionBridgeTransferPermissions sender args =>
    { t with state := (t.state.setTransferPermissions net sender args).2 }

def Step (net : Network) (t : UnionTrace) (c : UnionCall) (t' : UnionTrace) : Prop :=
  t.call net c = t'

end UnionTrace

open UnionTrace

namespace UnionState

structure Accepts (net : Network) (s : UnionState) (sender : Address) (args : Bytes)
  (amount : U256) : Prop where
  sender_eq : sender = s.contractAddress net
  enabled : s.flag .requestEnabled = true
  decoded : abiUint args 0 = some amount
  pos : amount ≠ 0
  below : ¬ s.lockingCap net < s.weisTransferred + amount

/-- The Bridge can pay `amount` and the total does not wrap. -/
structure Funded (s : UnionState) (payee : Address) (amount : U256) : Prop where
  total : s.weisTransferred.toNat + amount.toNat < 2 ^ 256
  payee_ne : bridgeAddr ≠ payee
  funds : amount ≤ (s.journal.info bridgeAddr).balance
  payee_room : (s.journal.info payee).balance.toNat + amount.toNat < 2 ^ 256

def Covered (net : Network) (s : UnionState) : UnionCall → Prop
  | .requestUnionBridgeRbtc sender args =>
    ∀ amount, s.Accepts net sender args amount → s.Funded (s.contractAddress net) amount
  | _ => True

section Cells

variable (net : Network) (s : UnionState)

@[simp] lemma weisTransferred_storeCoin_self (v : U256) :
  (s.storeCoin .weisTransferred v).weisTransferred = v := by
  have hlen := Rlp.length_trimmed_le 32 v.toNat
  simp only [weisTransferred, storeCoin, store, update_self,
    rlpElement_rlpEncodeBytes (hlen.trans (by omega)), map_some, getD_some]
  rw [Rlp.beNat_trimmed (by have := v.isLt; norm_num at this ⊢; exact this)]
  exact ofNat_toNat ..

@[simp] lemma lockingCap_storeCoin_self (v : U256) :
  (s.storeCoin .lockingCap v).lockingCap net = v := by
  have hlen := Rlp.length_trimmed_le 32 v.toNat
  simp only [lockingCap, storeCoin, store, update_self,
    rlpElement_rlpEncodeBytes (hlen.trans (by omega))]
  rw [Rlp.beNat_trimmed (by have := v.isLt; norm_num at this ⊢; exact this)]
  exact ofNat_toNat ..

end Cells

variable {s s' : UnionState}

lemma weisTransferred_congr (h : s.cells .weisTransferred = s'.cells .weisTransferred) :
  s.weisTransferred = s'.weisTransferred := by
  rw [weisTransferred, weisTransferred, h]

lemma lockingCap_congr {net : Network} (h : s.cells .lockingCap = s'.cells .lockingCap) :
  s.lockingCap net = s'.lockingCap net := by
  rw [lockingCap, lockingCap, h]

section Frame

variable (net : Network) (s : UnionState)

@[simp] lemma weisTransferred_emit (e : UnionEvent) :
  (s.emit e).weisTransferred = s.weisTransferred := rfl

@[simp] lemma lockingCap_emit (e : UnionEvent) : (s.emit e).lockingCap net = s.lockingCap net := rfl

@[simp] lemma weisTransferred_transferFromBridge (a : Address) (v : U256) :
  (s.transferFromBridge a v).weisTransferred = s.weisTransferred := rfl

@[simp] lemma lockingCap_transferFromBridge (a : Address) (v : U256) :
  (s.transferFromBridge a v).lockingCap net = s.lockingCap net := rfl

variable {cell : UnionCell}

lemma weisTransferred_store (h : cell ≠ .weisTransferred) (value : Bytes) :
  (s.store cell value).weisTransferred = s.weisTransferred :=
  weisTransferred_congr (update_of_ne h.symm ..)

lemma lockingCap_store (h : cell ≠ .lockingCap) (value : Bytes) :
  (s.store cell value).lockingCap net = s.lockingCap net :=
  lockingCap_congr (update_of_ne h.symm ..)

@[simp] lemma weisTransferred_storeCap (v : U256) :
  (s.storeCoin .lockingCap v).weisTransferred = s.weisTransferred :=
  s.weisTransferred_store (by decide) _

@[simp] lemma lockingCap_storeWeis (v : U256) :
  (s.storeCoin .weisTransferred v).lockingCap net = s.lockingCap net :=
  s.lockingCap_store net (by decide) _

@[simp] lemma weisTransferred_storeFlags (request release : Bool) :
  ((s.storeFlag .requestEnabled request).storeFlag .releaseEnabled release).weisTransferred =
    s.weisTransferred :=
  (weisTransferred_store _ (by decide) _).trans (s.weisTransferred_store (by decide) _)

@[simp] lemma lockingCap_storeFlags (request release : Bool) :
  ((s.storeFlag .requestEnabled request).storeFlag .releaseEnabled release).lockingCap net =
    s.lockingCap net :=
  (lockingCap_store net _ (by decide) _).trans (s.lockingCap_store net (by decide) _)

end Frame

def requested (net : Network) (s : UnionState) (amount : U256) : UnionState :=
  ((s.storeCoin .weisTransferred (s.weisTransferred + amount)).transferFromBridge
    (s.contractAddress net) amount).emit (.rbtcRequested (s.contractAddress net) amount)

/-- **All a request can do**: nothing, or store the new total and try to pay. -/
theorem requestRbtc_cases (net : Network) (s : UnionState) (sender : Address) (args : Bytes) :
  ((∀ amount, ¬ s.Accepts net sender args amount) ∧ (s.requestRbtc net sender args).2 = s) ∨
  ∃ amount, s.Accepts net sender args amount ∧
    (s.requestRbtc net sender args).2 = s.requested net amount := by
  unfold requestRbtc
  by_cases hsender : sender = s.contractAddress net
  · by_cases henabled : s.flag .requestEnabled = true
    · cases hargs : abiUint args 0 with
      | none =>
        refine .inl ⟨fun amount h => ?_, ?_⟩
        · have := h.decoded
          rw [hargs] at this
          cases this
        · simp [hsender, henabled]
      | some amount =>
        by_cases hpos : amount = 0
        · refine .inl ⟨fun amount' h => ?_, ?_⟩
          · have hsame := h.decoded
            rw [hargs, some.injEq] at hsame
            exact h.pos (hsame ▸ hpos)
          · simp [hsender, henabled, hpos]
        by_cases hbelow : s.lockingCap net < s.weisTransferred + amount
        · refine .inl ⟨fun amount' h => ?_, ?_⟩
          · have hsame := h.decoded
            rw [hargs, some.injEq] at hsame
            exact h.below (hsame ▸ hbelow)
          · simp [hsender, henabled, hbelow]
        refine .inr ⟨amount, ⟨hsender, henabled, hargs, hpos, hbelow⟩, ?_⟩
        simp only [← hsender, henabled, ne_eq, not_true, if_false, Bool.true_eq_false, hpos,
          hbelow, requested]
    refine .inl ⟨fun amount h => henabled h.enabled, ?_⟩
    simp [hsender, henabled]
  · exact .inl ⟨fun amount h => hsender h.sender_eq, by simp [hsender]⟩

end UnionState

lemma Journal.balance_source_transfer (j : Journal) (source payee : Address) (value : U256) :
  ((j.transfer source payee value).info source).balance =
    if value ≤ (j.info source).balance ∧ source ≠ payee ∧
        (j.info payee).balance.toNat + value.toNat < 2 ^ 256 then (j.info source).balance - value
    else (j.info source).balance := by
  unfold transfer
  by_cases hfunds : (j.info source).balance < value
  · rw [if_pos hfunds, if_neg fun h => absurd h.1 (not_le.mpr hfunds)]
  rw [if_neg hfunds]
  by_cases hsame : source = payee
  · rw [if_pos hsame, if_neg fun h => h.2.1 hsame]
    rfl
  rw [if_neg hsame]
  by_cases hroom : 2 ^ 256 ≤ (j.info payee).balance.toNat + value.toNat
  · rw [if_pos hroom, if_neg fun h => absurd h.2.2 (Nat.not_lt.mpr hroom)]
  rw [if_neg hroom, if_pos ⟨not_lt.mp hfunds, hsame, Nat.lt_of_not_le hroom⟩]
  simp [touch, setBalance, update_of_ne hsame]

namespace UnionTrace

structure Accounted (net : Network) (t : UnionTrace) : Prop where
  total : t.state.weisTransferred.toNat + t.returned = t.moved
  capped : t.state.weisTransferred ≤ t.state.lockingCap net

variable {net : Network} {t : UnionTrace}

lemma release_spec (net : Network) (t : UnionTrace) (sender : Address) (value : U256) :
  (t.call net (.releaseUnionBridgeRbtc sender value)).state.lockingCap net =
      t.state.lockingCap net ∧ (t.call net (.releaseUnionBridgeRbtc sender value)).moved = t.moved ∧
    (t.call net (.releaseUnionBridgeRbtc sender value)).state.weisTransferred.toNat +
      (t.call net (.releaseUnionBridgeRbtc sender value)).returned =
        t.state.weisTransferred.toNat + t.returned ∧
    (t.call net (.releaseUnionBridgeRbtc sender value)).state.weisTransferred ≤
      t.state.weisTransferred := by
  unfold call
  by_cases hpays : (t.state.journal.info sender).balance < value
  · simp [hpays]
  simp only [hpays, if_false]
  generalize hpaid : ({ t.state with
    journal := t.state.journal.transfer sender bridgeAddr value } : UnionState) = paid
  have hweis : paid.weisTransferred = t.state.weisTransferred :=
    weisTransferred_congr (by rw [← hpaid])
  have hcap : paid.lockingCap net = t.state.lockingCap net :=
    lockingCap_congr (by rw [← hpaid])
  rw [← hweis, ← hcap]
  unfold releaseRbtc
  -- Which of the five ways the release ends.
  unfold releaseOutcome
  by_cases hsender : sender = paid.contractAddress net
  · by_cases henabled : paid.flag .releaseEnabled = true
    · by_cases hzero : value = 0#256
      · simp [← hsender, henabled, hzero]
      by_cases hmore : paid.weisTransferred < value
      · simp [hsender, henabled, hzero, hmore]
      have hle : value ≤ paid.weisTransferred := not_lt.mp hmore
      have hsub := toNat_sub_of_le hle
      have hnat := le_def.mp hle
      simp only [hsender, henabled, ofNat_eq_ofNat, hzero, hmore, ne_eq, not_true,
        if_false, Bool.true_eq_false, false_and, if_true, lockingCap_emit,
        lockingCap_storeWeis, weisTransferred_emit,
        weisTransferred_storeCoin_self, true_and, le_def, hsub]
      omega
    by_cases hzero : value = 0#256 <;>
      simp [← hsender, henabled, hzero]
  by_cases hzero : value = 0#256 <;>
    simp [hsender, hzero]

lemma increase_spec (net : Network) (s : UnionState) (sender : Address) (args : Bytes) :
  (s.increaseLockingCap net sender args).2.weisTransferred = s.weisTransferred ∧
    s.lockingCap net ≤ (s.increaseLockingCap net sender args).2.lockingCap net := by
  unfold increaseLockingCap
  split
  · exact ⟨rfl, le_refl _⟩
  split
  · exact ⟨rfl, le_refl _⟩
  rename_i newCap _
  dsimp only
  split
  · exact ⟨rfl, le_refl _⟩
  rename_i hcap
  simp only [weisTransferred_emit, weisTransferred_storeCap,
    lockingCap_emit, lockingCap_storeCoin_self, true_and]
  exact BitVec.le_of_lt (not_le.mp fun h => hcap (.inl h))

lemma permissions_spec (net : Network) (s : UnionState) (sender : Address) (args : Bytes) :
  (s.setTransferPermissions net sender args).2.weisTransferred = s.weisTransferred ∧
    (s.setTransferPermissions net sender args).2.lockingCap net = s.lockingCap net := by
  unfold setTransferPermissions
  split
  · exact ⟨rfl, rfl⟩
  split
  · split <;> simp
  · exact ⟨rfl, rfl⟩

lemma requested_spec (s : UnionState) (amount : U256) :
  (s.requested net amount).weisTransferred = s.weisTransferred + amount ∧
    (s.requested net amount).lockingCap net = s.lockingCap net := by
  simp [requested]

lemma call_capped (c : UnionCall) (h : t.state.weisTransferred ≤ t.state.lockingCap net) :
  (t.call net c).state.weisTransferred ≤ (t.call net c).state.lockingCap net := by
  cases c with
  | requestUnionBridgeRbtc sender args =>
    show (t.state.requestRbtc net sender args).2.weisTransferred ≤
      (t.state.requestRbtc net sender args).2.lockingCap net
    rcases t.state.requestRbtc_cases net sender args with ⟨-, hsame⟩ | ⟨amount, haccepts, hafter⟩
    · rwa [hsame]
    rw [hafter, (requested_spec _ _).1, (requested_spec _ _).2]
    exact not_lt.mp haccepts.below
  | releaseUnionBridgeRbtc sender value =>
    obtain ⟨hcap, -, -, hle⟩ := release_spec net t sender value
    rw [hcap]
    exact le_trans hle h
  | increaseUnionBridgeLockingCap sender args =>
    obtain ⟨hweis, hcap⟩ := increase_spec net t.state sender args
    exact le_trans (le_of_eq hweis) (le_trans h hcap)
  | setUnionBridgeTransferPermissions sender args =>
    obtain ⟨hweis, hcap⟩ := permissions_spec net t.state sender args
    show (t.state.setTransferPermissions net sender args).2.weisTransferred ≤ _
    rw [hweis]
    exact le_trans h (le_of_eq hcap.symm)

/-- **One call keeps the books exactly if the request it may be is funded.** -/
theorem call_total_iff (c : UnionCall) (h : t.state.weisTransferred.toNat + t.returned = t.moved) :
  (t.call net c).state.weisTransferred.toNat + (t.call net c).returned = (t.call net c).moved ↔
    t.state.Covered net c := by
  cases c with
  | requestUnionBridgeRbtc sender args =>
    show (t.state.requestRbtc net sender args).2.weisTransferred.toNat + t.returned = t.moved +
      ((t.state.journal.info bridgeAddr).balance.toNat -
        ((t.state.requestRbtc net sender args).2.journal.info bridgeAddr).balance.toNat) ↔
      ∀ amount, t.state.Accepts net sender args amount →
        t.state.Funded (t.state.contractAddress net) amount
    rcases t.state.requestRbtc_cases net sender args with
      ⟨hnone, hsame⟩ | ⟨amount, haccepts, hafter⟩
    · rw [hsame]
      exact ⟨fun _ amount hacc => absurd hacc (hnone amount), fun _ => by omega⟩
    have honly : (∀ a, t.state.Accepts net sender args a →
        t.state.Funded (t.state.contractAddress net) a) ↔
        t.state.Funded (t.state.contractAddress net) amount := by
      refine ⟨fun hall => hall amount haccepts, fun hfunded a ha => ?_⟩
      obtain rfl : amount = a := some.inj (haccepts.decoded.symm.trans ha.decoded)
      exact hfunded
    have hbalance := t.state.journal.balance_source_transfer bridgeAddr
      (t.state.contractAddress net) amount
    have hpos : 0 < amount.toNat := Nat.pos_of_ne_zero fun h0 =>
      haccepts.pos (eq_of_toNat_eq h0)
    rw [honly, hafter, (requested_spec _ _).1, toNat_add]
    show _ = t.moved + (_ - ((t.state.journal.transfer bridgeAddr
      (t.state.contractAddress net) amount).info bridgeAddr).balance.toNat) ↔ _
    rw [hbalance]
    by_cases hpaid : amount ≤ (t.state.journal.info bridgeAddr).balance ∧
        bridgeAddr ≠ t.state.contractAddress net ∧
        (t.state.journal.info (t.state.contractAddress net)).balance.toNat + amount.toNat <
          2 ^ 256
    · have hle := le_def.mp hpaid.1
      rw [if_pos hpaid, toNat_sub_of_le hpaid.1]
      constructor
      · intro htotal
        refine ⟨?_, hpaid.2.1, hpaid.1, hpaid.2.2⟩
        by_contra hwrap
        omega
      intro hfunded
      have := hfunded.total
      rw [Nat.mod_eq_of_lt this]
      omega
    rw [if_neg hpaid]
    refine ⟨fun htotal => ?_, fun hfunded => absurd
      ⟨hfunded.funds, hfunded.payee_ne, hfunded.payee_room⟩ hpaid⟩
    -- Nothing moved, and the amount is no multiple of the modulus.
    omega
  | releaseUnionBridgeRbtc sender value =>
    obtain ⟨-, hmoved, htotal, -⟩ := release_spec net t sender value
    exact ⟨fun _ => trivial, fun _ => by omega⟩
  | increaseUnionBridgeLockingCap sender args =>
    obtain ⟨hweis, -⟩ := increase_spec net t.state sender args
    exact ⟨fun _ => trivial, fun _ => (congrArg (·.toNat + t.returned) hweis).trans h⟩
  | setUnionBridgeTransferPermissions sender args =>
    obtain ⟨hweis, -⟩ := permissions_spec net t.state sender args
    exact ⟨fun _ => trivial, fun _ => (congrArg (·.toNat + t.returned) hweis).trans h⟩

/-- **The union bridge's books.** From a state with nothing transferred, the stored total
never exceeds the cap. It is what is out in every run whose accepted requests are all
funded, and a call from a state where it is keeps it so exactly if it is covered. -/
theorem union_accounting (net : Network) (s₀ : UnionState) (hzero : s₀.weisTransferred = 0) :
  (∀ hist t, Run (Step net) (start s₀) hist t → t.state.weisTransferred ≤ t.state.lockingCap net) ∧
  (∀ hist t, Run (Step net) (start s₀) hist t →
    (∀ p ∈ hist, p.1.state.Covered net p.2) → t.Accounted net) ∧
  ∀ (t : UnionTrace) (c : UnionCall), t.Accounted net →
    ((t.call net c).Accounted net ↔ t.state.Covered net c) := by
  have hcapped : ∀ hist t, Run (Step net) (start s₀) hist t →
      t.state.weisTransferred ≤ t.state.lockingCap net := by
    intro hist t hrun
    refine @Run.invariant _ _ _ _ _ _ (fun _ _ => True)
      (fun _ t => t.state.weisTransferred ≤ t.state.lockingCap net) ?_ ?_ hrun (by simp)
    · show s₀.weisTransferred ≤ s₀.lockingCap net
      rw [hzero, le_def]
      exact Nat.zero_le _
    rintro hist t c _ hle - rfl
    exact call_capped c hle
  refine ⟨hcapped, fun hist t hrun hcovered => ⟨?_, hcapped hist t hrun⟩, fun t c hacc => ?_⟩
  · refine @Run.invariant _ _ _ _ _ _ (fun t c => t.state.Covered net c)
      (fun _ t => t.state.weisTransferred.toNat + t.returned = t.moved) ?_ ?_ hrun hcovered
    · show s₀.weisTransferred.toNat + 0 = 0
      rw [hzero]
      rfl
    rintro hist t c _ htotal hc rfl
    exact (call_total_iff c htotal).mpr hc
  exact ⟨fun hafter => (call_total_iff c hacc.total).mp hafter.total,
    fun hc => ⟨(call_total_iff c hacc.total).mpr hc, call_capped c hacc.capped⟩⟩

end UnionTrace

namespace UnionExample

def union : Address := .repeatByte 20 1

/-- A testnet state with a union contract, the Bridge holding `funds`. -/
def opened (funds : U256) : UnionState where
  cells
    | .contractAddress => rlpEncodeBytes union.bytes
    | _ => []
  journal := .start
    { info := fun a => ⟨0, if a = bridgeAddr then funds else 0, []⟩
      cells := fun _ _ => none
      marked := fun _ => false
      remascSenderNonce := 0 }
  events := []

def oneWei : UnionCall := .requestUnionBridgeRbtc union (beBytes 32 1)

/-- The theorem where the Bridge can pay. -/
theorem union_accounting_funded : (opened 1).weisTransferred = 0 ∧
  ((start (opened 1)).call .testnet oneWei).Accounted .testnet :=
  ⟨by decide, (union_accounting .testnet (opened 1) (by decide)).2.1 _ _
    (.step .init rfl) (by
      simp only [List.mem_singleton, forall_eq]
      intro amount haccepts
      obtain rfl : amount = 1 := some.inj (haccepts.decoded.symm.trans (by decide))
      exact ⟨by decide, by decide, by decide, by decide⟩)⟩

/-- **An empty Bridge accepts a request and counts it**: one wei is stored as transferred,
none moved. -/
theorem unfunded_request_counted : (opened 0).weisTransferred = 0 ∧
  Run (UnionTrace.Step .testnet) (.start (opened 0)) [(.start (opened 0), oneWei)]
    ((start (opened 0)).call .testnet oneWei) ∧
  ((opened 0).requestRbtc .testnet union (beBytes 32 1)).1 = .success ∧
  ((start (opened 0)).call .testnet oneWei).state.weisTransferred = 1 ∧
  ((start (opened 0)).call .testnet oneWei).moved = 0 ∧
  ((start (opened 0)).call .testnet oneWei).returned = 0 :=
  ⟨by decide, .step .init rfl, by decide, by decide, by decide, by decide⟩

end UnionExample

end Rustock
