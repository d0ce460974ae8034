import Rustock.Bridge.Script
import Rustock.Lib.Slots

/-!
# Signatures of a peg-out

Signing a multisig input (crates/execution/src/bridge/release_tx.rs,
peg.rs). An input holds a dummy, one slot for each signature required, a flag if the
redeem script is an emergency one, and the redeem script; in the script of a legacy input, in the
witness stack of a segwit one. A signature is inserted in the order of the keys in the redeem
script, at an index found by verifying those that are there.

Verification and the signature hashes are parameters. A signature hash does not read the scripts
and witnesses of the inputs, so it is a function of the rest of the transaction.
-/

namespace Rustock

open Lib List Option Function Bool

/-- `verify_der_signature` and the two signature hashes. A signature in the strict encoding that
`verify_der_signature` reads has at most 72 bytes. -/
structure SigParams (τ : Type) where
  verify : Bytes → B256 → Bytes → Bool
  verify_length : ∀ {der sighash key}, verify der sighash key = true →
    0 < der.length ∧ der.length ≤ 72
  legacySighash : τ → Nat → Bytes → B256
  segwitSighash : τ → Nat → Bytes → Nat → B256

structure Encoding (α : Type) where
  zero : α
  push : Bytes → α
  free : α → Bool
  sigOf : α → Option Bytes
  free_zero : free zero = true
  sigOf_zero : sigOf zero = none
  free_push : ∀ {bytes}, bytes ≠ [] → free (push bytes) = false
  sigOf_push : ∀ {bytes}, bytes ≠ [] → sigOf (push bytes) = some bytes

def scriptEncoding : Encoding Chunk where
  zero := .opZero
  push := .data
  free c := c = .opZero
  sigOf
    | .data bytes => some bytes
    | _ => none
  free_zero := rfl
  sigOf_zero := rfl
  free_push _ := rfl
  sigOf_push _ := rfl

def witnessEncoding : Encoding Bytes where
  zero := []
  push bytes := bytes
  free := isEmpty
  sigOf bytes := if bytes.isEmpty then none else some bytes
  free_zero := rfl
  sigOf_zero := rfl
  free_push h := by simpa using h
  sigOf_push h := by simpa using h

structure SigInput where
  scriptSig : Bytes
  witness : List Bytes

structure SigTx (τ : Type) where
  inputs : List SigInput
  rest : τ

def slotsOf {α : Type} (entries : List α) (suffix : Nat) : List α :=
  (entries.take (entries.length - suffix)).drop 1

def suffixOf (erp : Bool) : Nat := if erp then 2 else 1

def witnessRedeemIsErp (pushes : List Bytes) : Bool := (pushes.getLast?.map isErpRedeem).getD false

namespace Encoding

variable {α : Type} (e : Encoding α)

def updateWithSignature (suffix : Nat) (signature : Bytes) (target : Nat) (entries : List α) :
  Option (List α) :=
  if entries.length < 2 + suffix then none
  else if (entries[entries.length - 1 - suffix]?.map e.free).getD false then
    some (entries.take 1 ++
      insertSlot e.free e.zero (e.push signature) target (slotsOf entries suffix) ++
      entries.drop (entries.length - suffix))
  else none

def fullySigned (suffix : Nat) (entries : List α) : Bool :=
  3 ≤ entries.length && 1 + suffix ≤ entries.length && !(slotsOf entries suffix).any e.free

end Encoding

open Encoding

def updateScriptWithSignature (scriptSig signature : Bytes) (target : Nat) : Option Bytes :=
  match parseChunks scriptSig with
  | none => none
  | some chunks =>
    if chunks.length < 3 then none
    else (scriptEncoding.updateWithSignature (suffixOf (inputRedeemIsErp chunks)) signature target
      chunks).map chunksToScript

def witnessUpdateWithSignature (pushes : List Bytes) (signature : Bytes) (target : Nat) :
  Option (List Bytes) :=
  witnessEncoding.updateWithSignature (suffixOf (witnessRedeemIsErp pushes)) signature target pushes

def witnessInputFullySigned (pushes : List Bytes) : Bool :=
  witnessEncoding.fullySigned (suffixOf (witnessRedeemIsErp pushes)) pushes

/-- The check of `has_enough_signatures` for one input. -/
def inputFullySigned (input : SigInput) : Bool :=
  if input.witness = [] then
    match parseChunks input.scriptSig with
    | none => false
    | some chunks => scriptEncoding.fullySigned (suffixOf (inputRedeemIsErp chunks)) chunks
  else witnessInputFullySigned input.witness

def hasEnoughSignatures {τ : Type} (tx : SigTx τ) : Bool :=
  tx.inputs.all inputFullySigned && !tx.inputs.isEmpty

namespace SigParams

variable {τ : Type} (p : SigParams τ)

def findSigKeyIndex (encoded : Bytes) (sighash : B256) (keys : List Bytes) : Nat :=
  if encoded.length < 2 then keys.length
  else keys.findIdx fun key => p.verify encoded.dropLast sighash key

/-- `sig_insertion_index` and `witness_sig_insertion_index` on the entries. -/
def insertionIndex {α : Type} (e : Encoding α) (suffix : Nat) (entries : List α) (sighash : B256)
  (key redeem : Bytes) : Nat :=
  let keys := spendingRedeemKeys redeem
  -- `usize::MAX` stands for a key that is not there
  let mine := (keys.findIdx? (· = key)).getD (2 ^ 64 - 1)
  if entries.length < 1 + suffix then 0
  else scan (fun entry => (e.sigOf entry).map fun sig => p.findSigKeyIndex sig sighash keys) mine
    (slotsOf entries suffix) 0

def sigInsertionIndex (scriptSig : Bytes) (sighash : B256) (key redeem : Bytes) : Nat :=
  match parseChunks scriptSig with
  | none => 0
  | some chunks =>
    if chunks.length < 2 then 0
    else p.insertionIndex scriptEncoding (suffixOf (inputRedeemIsErp chunks)) chunks sighash key
      redeem

def witnessSigInsertionIndex (pushes : List Bytes) (sighash : B256) (key redeem : Bytes) : Nat :=
  p.insertionIndex witnessEncoding (suffixOf (witnessRedeemIsErp pushes)) pushes sighash key redeem

def signedEntry {α : Type} (e : Encoding α) (key : Bytes) (sighash : B256) (entry : α) : Bool :=
  match e.sigOf entry with
  | none => false
  | some sig => 1 < sig.length && p.verify sig.dropLast sighash key

def signedBy {α : Type} (e : Encoding α) (entries : List α) (key : Bytes) (sighash : B256) : Bool :=
  3 ≤ entries.length && (slotsOf entries 1).any (p.signedEntry e key sighash)

/-- For both kinds of input. -/
def inputSignedBy (input : SigInput) (key : Bytes) (sighash : B256) : Bool :=
  if input.witness = [] then
    match parseChunks input.scriptSig with
    | none => false
    | some chunks => p.signedBy scriptEncoding chunks key sighash
  else p.signedBy witnessEncoding input.witness key sighash

/-- The input with one more signature. -/
def insertSignature (input : SigInput) (redeem : Bytes) (sighash : B256) (key encoded : Bytes) :
  Option SigInput :=
  if input.witness = [] then
    let index := p.sigInsertionIndex input.scriptSig sighash key redeem
    (updateScriptWithSignature input.scriptSig encoded index).map fun scriptSig =>
      { input with scriptSig := scriptSig }
  else
    let index := p.witnessSigInsertionIndex input.witness sighash key redeem
    (witnessUpdateWithSignature input.witness encoded index).map fun witness =>
      { input with witness := witness }

/-- The redeem script of an input, and what its signatures sign. -/
def redeemAndSighash (rest : τ) (prevValues : List Nat) (input : SigInput) (i : Nat) :
  Option (Bytes × B256) :=
  if input.witness = [] then
    (extractRedeemScript input.scriptSig).map fun redeem => (redeem, p.legacySighash rest i redeem)
  else
    input.witness.getLast?.map fun redeem =>
      (redeem, p.segwitSighash rest i redeem (prevValues[i]?.getD 0))

/-- Input by input, up to one that is signed or cannot be. -/
def signInputs (key : Bytes) :
  List (SigInput × (Bytes × B256) × Bytes) → Bool → Bool × List SigInput
  | [], signed => (signed, [])
  | (input, (redeem, sighash), sig) :: rest, signed =>
    let untouched := input :: rest.map (·.1)
    if p.inputSignedBy input key sighash then (signed, untouched)
    else if key ∉ spendingRedeemKeys redeem then (signed, untouched)
    else
      match p.insertSignature input redeem sighash key (sig ++ [1]) with
      | none => (false, untouched)
      | some input =>
        let (signed, inputs) := signInputs key rest true
        (signed, input :: inputs)

/-- The caller has checked that there is a signature for every input. -/
def applySignatures (tx : SigTx τ) (sigs : List Bytes) (key : Bytes) (prevValues : List Nat) :
  Bool × SigTx τ :=
  match tx.inputs.zipIdx.mapM fun x => p.redeemAndSighash tx.rest prevValues x.1 x.2 with
  | none => (false, tx)
  | some hashes =>
    if (sigs.zip hashes).all fun x => p.verify x.1 x.2.2 key then
      let (signed, inputs) := p.signInputs key (tx.inputs.zip (hashes.zip sigs)) false
      (signed, { tx with inputs := inputs })
    else (false, tx)

end SigParams

open SigParams

abbrev HeldSigs := Bytes → Option Bytes

def SigParams.Own {τ : Type} (p : SigParams τ) (sighash : B256) (stored : HeldSigs) : Prop :=
  ∀ key encoded, stored key = some encoded → 1 < encoded.length ∧ encoded.length ≤ 73 ∧
    ∀ other, p.verify encoded.dropLast sighash other = true ↔ other = key

lemma slotsOf_append {α : Type} (first : α) (slots tail : List α) :
  slotsOf (first :: (slots ++ tail)) tail.length = slots := by
  have hlen : (first :: (slots ++ tail)).length - tail.length = slots.length + 1 := by
    simp only [length_cons, length_append]
    omega
  rw [slotsOf, hlen, take_succ_cons, take_left, drop_succ_cons, drop_zero]

namespace Encoding

variable {α : Type} (e : Encoding α) {τ : Type} {p : SigParams τ}

def slots (m : Nat) (sigs : List Bytes) : List α :=
  sigs.map e.push ++ List.replicate (m - sigs.length) e.zero

def flag (redeem : Bytes) : List α := if isErpRedeem redeem then [e.zero] else []

def entries (redeem : Bytes) (m : Nat) (sigs : List Bytes) : List α :=
  e.zero :: (e.slots m sigs ++ (e.flag redeem ++ [e.push redeem]))

variable {e} {redeem : Bytes} {m : Nat} {sigs : List Bytes}

lemma length_slots (h : sigs.length ≤ m) : (e.slots m sigs).length = m := by
  simp only [slots, length_append, length_map, length_replicate]
  omega

lemma length_tail : (e.flag redeem ++ [e.push redeem]).length = suffixOf (isErpRedeem redeem) := by
  unfold flag suffixOf
  split_ifs <;> rfl

lemma length_entries (h : sigs.length ≤ m) :
  (e.entries redeem m sigs).length = 1 + m + suffixOf (isErpRedeem redeem) := by
  rw [entries, length_cons, length_append, length_slots h, length_tail]
  omega

lemma suffixOf_pos (erp : Bool) : 1 ≤ suffixOf erp := by cases erp <;> decide

lemma slotsOf_entries :
  slotsOf (e.entries redeem m sigs) (suffixOf (isErpRedeem redeem)) = e.slots m sigs := by
  rw [← @length_tail α e redeem]
  exact slotsOf_append ..

lemma slotsOf_entries_one :
  slotsOf (e.entries redeem m sigs) 1 = e.slots m sigs ++ e.flag redeem := by
  have h := slotsOf_append e.zero (e.slots m sigs ++ e.flag redeem) [e.push redeem]
  rwa [append_assoc] at h

lemma mem_slots {x : α} (hx : x ∈ e.slots m sigs ++ e.flag redeem) :
  x = e.zero ∨ ∃ sig ∈ sigs, x = e.push sig := by
  simp only [slots, flag, mem_append, List.mem_map, mem_replicate] at hx
  rcases hx with (⟨sig, hsig, rfl⟩ | ⟨_, rfl⟩) | hx
  · exact Or.inr ⟨sig, hsig, rfl⟩
  · exact Or.inl rfl
  split_ifs at hx with herp
  · exact Or.inl (mem_singleton.mp hx)
  · exact absurd hx not_mem_nil

/-- **No placeholder is left exactly when every slot is filled.** -/
theorem fullySigned_entries (hm : 0 < m) (h : sigs.length ≤ m) (hne : ∀ sig ∈ sigs, sig ≠ []) :
  e.fullySigned (suffixOf (isErpRedeem redeem)) (e.entries redeem m sigs) = true ↔
    sigs.length = m := by
  have hs := suffixOf_pos (isErpRedeem redeem)
  rw [fullySigned, slotsOf_entries, length_entries h]
  have hany : (e.slots m sigs).any e.free = decide (sigs.length < m) := by
    have hfilled : (sigs.map e.push).any e.free = false := by
      rw [List.any_eq_false]
      intro x hx
      obtain ⟨sig, hsig, rfl⟩ := List.mem_map.mp hx
      rw [e.free_push (hne sig hsig)]
      decide
    rw [slots, any_append, hfilled, Bool.false_or, any_replicate, e.free_zero]
    by_cases hlt : sigs.length < m
    · simp [hlt, show m - sigs.length ≠ 0 by omega]
    · simp [hlt, show m - sigs.length = 0 by omega]
  simp only [hany, and_eq_true, decide_eq_true_eq, not_eq_true', decide_eq_false_iff_not]
  omega

variable {sighash : B256} {keys : List Bytes} {stored : HeldSigs} {sig : Bytes}

lemma ne_nil_of_own (hown : p.Own sighash stored) (hsig : sig ∈ keys.filterMap stored) :
  sig ≠ [] := by
  obtain ⟨key, _, hkey⟩ := mem_filterMap.mp hsig
  have := (hown key sig hkey).1
  rintro rfl
  exact absurd this (by decide)

/-- **An input is signed by the keys that have signed it.** -/
theorem signedBy_entries (hm : 0 < m) (hown : p.Own sighash stored)
  (hlen : (keys.filterMap stored).length ≤ m) (key : Bytes) :
  p.signedBy e (e.entries redeem m (keys.filterMap stored)) key sighash = true ↔
    key ∈ keys ∧ (stored key).isSome = true := by
  have hs := suffixOf_pos (isErpRedeem redeem)
  have hthree : 3 ≤ 1 + m + suffixOf (isErpRedeem redeem) := by omega
  rw [signedBy, slotsOf_entries_one, length_entries hlen, decide_eq_true hthree,
    Bool.true_and, List.any_eq_true]
  constructor
  · rintro ⟨x, hx, hsigned⟩
    rcases mem_slots hx with rfl | ⟨sig, hsig, rfl⟩
    · rw [signedEntry, e.sigOf_zero] at hsigned
      exact absurd hsigned Bool.false_ne_true
    obtain ⟨owner, howner, hstored⟩ := mem_filterMap.mp hsig
    rw [signedEntry, e.sigOf_push (ne_nil_of_own hown hsig)] at hsigned
    have hverify := (and_eq_true_iff.mp hsigned).2
    obtain rfl := ((hown owner sig hstored).2.2 key).mp hverify
    exact ⟨howner, by rw [hstored]; rfl⟩
  rintro ⟨hmem, hsome⟩
  obtain ⟨sig, hstored⟩ := isSome_iff_exists.mp hsome
  have hsig : sig ∈ keys.filterMap stored := mem_filterMap.mpr ⟨key, hmem, hstored⟩
  obtain ⟨hlong, _, hexact⟩ := hown key sig hstored
  refine ⟨e.push sig, ?_, ?_⟩
  · exact mem_append_left _ (mem_append_left _ (mem_map_of_mem hsig))
  rw [signedEntry, e.sigOf_push (ne_nil_of_own hown hsig)]
  exact and_eq_true_iff.mpr ⟨decide_eq_true hlong, (hexact key).mpr rfl⟩

variable {before after : List Bytes} {key : Bytes}

lemma findSigKeyIndex_stored (hown : p.Own sighash stored) (hnodup : keys.Nodup)
  (hkeys : keys = before ++ key :: after) (hstored : stored key = some sig) :
  p.findSigKeyIndex sig sighash keys = before.length := by
  obtain ⟨hlong, _, hexact⟩ := hown key sig hstored
  have hfresh : key ∉ before := by
    intro hmem
    rw [hkeys] at hnodup
    exact (nodup_append.mp hnodup).2.2 key hmem key mem_cons_self rfl
  rw [findSigKeyIndex, if_neg (by omega), hkeys, findIdx_append]
  have hnone : before.findIdx (fun other => p.verify sig.dropLast sighash other) =
      before.length := by
    refine findIdx_eq_length_of_false fun other hother => ?_
    rw [← not_eq_true, hexact other]
    rintro rfl
    exact hfresh hother
  rw [hnone, if_neg (lt_irrefl _), findIdx_cons, (hexact key).mpr rfl]
  simp

lemma insertionIndex_entries (hown : p.Own sighash stored) (hnodup : keys.Nodup)
  (hredeem : spendingRedeemKeys redeem = keys) (hlen : (keys.filterMap stored).length ≤ m)
  (hkeys : keys = before ++ key :: after) (hnew : stored key = none) :
  p.insertionIndex e (suffixOf (isErpRedeem redeem))
    (e.entries redeem m (keys.filterMap stored)) sighash key redeem =
    (before.filterMap stored).length := by
  have hfresh : key ∉ before := by
    intro hmem
    rw [hkeys] at hnodup
    exact (nodup_append.mp hnodup).2.2 key hmem key mem_cons_self rfl
  have hmine : (keys.findIdx? (· = key)).getD (2 ^ 64 - 1) = before.length := by
    have hnone : before.findIdx? (fun x => decide (x = key)) = none := by
      rw [findIdx?_eq_none_iff]
      intro x hx
      exact decide_eq_false fun h => hfresh (h ▸ hx)
    rw [hkeys, findIdx?_append, hnone]
    simp [findIdx?_cons]
  have hrank (k sig : Bytes) (l r : List Bytes) (hsplit : keys = l ++ k :: r)
      (hstored : stored k = some sig) :
      ((e.sigOf (e.push sig)).map fun sig => p.findSigKeyIndex sig sighash keys) =
        some l.length := by
    have hmem : sig ∈ keys.filterMap stored :=
      mem_filterMap.mpr ⟨k, by rw [hsplit]; simp, hstored⟩
    rw [e.sigOf_push (ne_nil_of_own hown hmem), map_some,
      findSigKeyIndex_stored hown hnodup hsplit hstored]
  have hslots : e.slots m (keys.filterMap stored) = (before.filterMap stored).map e.push ++
      (after.filterMap stored).map e.push ++
        List.replicate (m - (keys.filterMap stored).length) e.zero := by
    have hsplit : keys.filterMap stored = before.filterMap stored ++ after.filterMap stored := by
      rw [hkeys, filterMap_append, filterMap_cons, hnew]
    rw [slots, hsplit, map_append]
  have hlong : ¬1 + m + suffixOf (isErpRedeem redeem) < 1 + suffixOf (isErpRedeem redeem) := by
    omega
  rw [insertionIndex, length_entries hlen, if_neg hlong, slotsOf_entries, hredeem, hmine,
    hslots, scan_eq]
  · rw [Nat.zero_add, length_map]
  · intro x hx
    obtain ⟨sig, hsig, rfl⟩ := List.mem_map.mp hx
    obtain ⟨k, hk, hstored⟩ := mem_filterMap.mp hsig
    obtain ⟨l, r, rfl⟩ := append_of_mem hk
    refine ⟨_, hrank k sig (before ++ key :: l) r (by rw [hkeys]; simp) hstored, ?_⟩
    simp only [length_append, length_cons]
    omega
  · intro x hx
    rw [(mem_replicate.mp hx).2, e.sigOf_zero]
    rfl
  intro x hx
  obtain ⟨sig, hsig, rfl⟩ := List.mem_map.mp hx
  obtain ⟨k, hk, hstored⟩ := mem_filterMap.mp hsig
  obtain ⟨l, r, rfl⟩ := append_of_mem hk
  refine ⟨_, hrank k sig l (r ++ key :: after) (by rw [hkeys]; simp) hstored, ?_⟩
  simp only [length_append, length_cons]
  omega

lemma last_slot (hm : 0 < m) (hlen : sigs.length ≤ m) :
  (e.entries redeem m sigs)[(e.entries redeem m sigs).length - 1 -
    suffixOf (isErpRedeem redeem)]? = (e.slots m sigs)[m - 1]? := by
  have hslots : (e.slots m sigs).length = m := length_slots hlen
  rw [length_entries hlen, show 1 + m + suffixOf (isErpRedeem redeem) - 1 -
    suffixOf (isErpRedeem redeem) = (m - 1) + 1 by omega, entries, getElem?_cons_succ,
    getElem?_append_left (by omega)]

lemma take_entries : (e.entries redeem m sigs).take 1 = [e.zero] := rfl

lemma drop_entries (hlen : sigs.length ≤ m) :
  (e.entries redeem m sigs).drop ((e.entries redeem m sigs).length -
    suffixOf (isErpRedeem redeem)) = e.flag redeem ++ [e.push redeem] := by
  rw [length_entries hlen, show 1 + m + suffixOf (isErpRedeem redeem) -
    suffixOf (isErpRedeem redeem) = m + 1 by omega, entries, drop_succ_cons]
  exact drop_left' (length_slots hlen)

lemma updateWithSignature_full (hm : 0 < m) (hlen : sigs.length = m)
  (hne : ∀ sig ∈ sigs, sig ≠ []) (signature : Bytes) (target : Nat) :
  e.updateWithSignature (suffixOf (isErpRedeem redeem)) signature target
    (e.entries redeem m sigs) = none := by
  have hlast : ((e.slots m sigs)[m - 1]?.map e.free).getD false = false := by
    have hget : (e.slots m sigs)[m - 1]? = some (e.push (sigs.get ⟨m - 1, by omega⟩)) := by
      rw [slots, getElem?_append_left (by rw [length_map]; omega), getElem?_map,
        getElem?_eq_getElem (show m - 1 < sigs.length by omega)]
      rfl
    rw [hget, map_some, e.free_push (hne _ (get_mem ..))]
    rfl
  rw [updateWithSignature, last_slot hm hlen.le, hlast]
  simp

/-- **One insertion.** A new signature takes the place of its key among those that are there. -/
theorem updateWithSignature_entries (hown : p.Own sighash stored) {signature : Bytes}
  (hkeys : keys = before ++ key :: after) (hnodup : keys.Nodup) (hnew : stored key = none)
  (hlen : (keys.filterMap stored).length < m) :
  e.updateWithSignature (suffixOf (isErpRedeem redeem)) signature (before.filterMap stored).length
    (e.entries redeem m (keys.filterMap stored)) =
  some (e.entries redeem m (keys.filterMap (update stored key (some signature)))) := by
  have hsplit : keys.filterMap stored = before.filterMap stored ++ after.filterMap stored := by
    rw [hkeys, filterMap_append, filterMap_cons, hnew]
  have hupdate : keys.filterMap (update stored key (some signature)) =
      before.filterMap stored ++ signature :: after.filterMap stored := by
    have hfresh := hkeys ▸ hnodup
    rw [nodup_append] at hfresh
    have hbefore : ∀ x ∈ before, x ≠ key := fun x hx => hfresh.2.2 x hx key mem_cons_self
    have hafter : ∀ x ∈ after, x ≠ key := by
      rintro x hx rfl
      exact (nodup_cons.mp hfresh.2.1).1 hx
    rw [hkeys, filterMap_append, filterMap_cons, update_self,
      filterMap_congr fun x hx => update_of_ne (hbefore x hx) _ _,
      filterMap_congr fun x hx => update_of_ne (hafter x hx) _ _]
  obtain ⟨k, hk⟩ : ∃ k, m - (keys.filterMap stored).length = k + 1 :=
    ⟨m - (keys.filterMap stored).length - 1, by omega⟩
  have hlast : ((e.slots m (keys.filterMap stored))[m - 1]?.map e.free).getD false = true := by
    have hget : (e.slots m (keys.filterMap stored))[m - 1]? = some e.zero := by
      rw [slots, getElem?_append_right (by rw [length_map]; omega), length_map,
        getElem?_replicate, if_pos (by omega)]
    rw [hget, map_some, e.free_zero]
    rfl
  have hfilled (l : List Bytes) (hl : ∀ x ∈ l, x ∈ keys) :
      ∀ x ∈ (l.filterMap stored).map e.push, e.free x = false := by
    intro x hx
    obtain ⟨sig, hsig, rfl⟩ := List.mem_map.mp hx
    obtain ⟨k, hk, hstored⟩ := mem_filterMap.mp hsig
    have hmem : sig ∈ keys.filterMap stored := mem_filterMap.mpr ⟨k, hl k hk, hstored⟩
    exact e.free_push (ne_nil_of_own hown hmem)
  have hslots : insertSlot e.free e.zero (e.push signature) (before.filterMap stored).length
      (e.slots m (keys.filterMap stored)) =
        e.slots m (before.filterMap stored ++ signature :: after.filterMap stored) := by
    rw [slots, hk, hsplit, map_append, insertSlot_eq e.free_zero
      (hfilled before fun x hx => by rw [hkeys]; simp [hx])
      (hfilled after fun x hx => by rw [hkeys]; simp [hx]) (length_map _)]
    have hcount : m - (before.filterMap stored ++ signature :: after.filterMap stored).length =
        k := by
      rw [hsplit, length_append] at hk
      rw [length_append, length_cons]
      omega
    rw [slots, hcount, map_append, map_cons]
  have hshort : ¬1 + m + suffixOf (isErpRedeem redeem) < 2 + suffixOf (isErpRedeem redeem) := by
    omega
  rw [updateWithSignature, last_slot (by omega) hlen.le, hlast, slotsOf_entries, hslots, hupdate,
    drop_entries hlen.le, length_entries hlen.le, if_neg hshort, if_pos rfl, take_entries]
  rfl

end Encoding

def placeholderScriptsig (redeem : Bytes) (threshold : Nat) : Bytes :=
  0 :: (List.replicate threshold 0 ++ ((if isErpRedeem redeem then [0] else []) ++ pushData redeem))

def segwitBaseInput (sha256 : Bytes → B256) (redeem : Bytes) (threshold : Nat) : SigInput where
  scriptSig := pushData (0x00 :: 0x20 :: (sha256 redeem).bytes)
  witness := [] :: (List.replicate threshold [] ++ [[], redeem])

def signedInput (sha256 : Bytes → B256) (segwit : Bool) (redeem : Bytes) (m : Nat)
  (sigs : List Bytes) : SigInput :=
  if segwit then
    { scriptSig := pushData (0x00 :: 0x20 :: (sha256 redeem).bytes)
      witness := witnessEncoding.entries redeem m sigs }
  else
    { scriptSig := chunksToScript (scriptEncoding.entries redeem m sigs)
      witness := [] }

lemma chunksToScript_replicate (n : Nat) :
  chunksToScript (List.replicate n .opZero) = List.replicate n 0 := by
  induction n with
  | zero => rfl
  | succ n ih =>
    rw [replicate_succ, replicate_succ, ← ih]
    rfl

lemma chunksToScript_append (l r : List Chunk) :
  chunksToScript (l ++ r) = chunksToScript l ++ chunksToScript r := flatMap_append

lemma signedInput_legacy_nil (sha256 : Bytes → B256) (redeem : Bytes) (m : Nat) :
  signedInput sha256 false redeem m [] = ⟨placeholderScriptsig redeem m, []⟩ := by
  have hflag : chunksToScript (scriptEncoding.flag redeem) =
      if isErpRedeem redeem then [0] else [] := by
    unfold flag
    split_ifs <;> rfl
  have hlast : chunksToScript [scriptEncoding.push redeem] = pushData redeem := append_nil _
  have hslots : scriptEncoding.slots m [] = List.replicate m .opZero := rfl
  rw [signedInput, if_neg Bool.false_ne_true, Encoding.entries, hslots, placeholderScriptsig,
    ← hflag, ← hlast, ← chunksToScript_replicate, ← chunksToScript_append, ← chunksToScript_append]
  rfl

lemma signedInput_segwit_nil (sha256 : Bytes → B256) {redeem : Bytes} {m : Nat}
  (herp : isErpRedeem redeem = true) :
  signedInput sha256 true redeem m [] = segwitBaseInput sha256 redeem m := by
  rw [signedInput, if_pos rfl, segwitBaseInput, Encoding.entries, flag, if_pos herp]
  rfl

section

variable {τ : Type} {p : SigParams τ} {sha256 : Bytes → B256} {segwit : Bool} {redeem : Bytes}
  {m : Nat} {sighash : B256} {keys : List Bytes} {stored : HeldSigs}

lemma parseChunks_entries (hown : p.Own sighash stored) (hredeem : redeem ≠ [])
  (hsize : redeem.length ≤ 0xffff) :
  parseChunks (chunksToScript (scriptEncoding.entries redeem m (keys.filterMap stored))) =
    some (scriptEncoding.entries redeem m (keys.filterMap stored)) := by
  refine parseChunks_chunksToScript fun c hc => ?_
  rw [Encoding.entries, mem_cons, ← append_assoc, mem_append,
    mem_singleton] at hc
  rcases hc with rfl | hc | rfl
  · trivial
  · rcases mem_slots hc with rfl | ⟨sig, hsig, rfl⟩
    · trivial
    obtain ⟨key, _, hkey⟩ := mem_filterMap.mp hsig
    obtain ⟨hlong, hshort, _⟩ := hown key sig hkey
    exact ⟨by omega, by omega⟩
  · exact ⟨length_pos_iff.mpr hredeem, hsize⟩

lemma inputRedeemIsErp_entries (sigs : List Bytes) :
  inputRedeemIsErp (scriptEncoding.entries redeem m sigs) = isErpRedeem redeem := by
  rw [Encoding.entries, ← append_assoc, ← cons_append, inputRedeemIsErp, reverse_append]
  rfl

lemma witnessRedeemIsErp_entries (sigs : List Bytes) :
  witnessRedeemIsErp (witnessEncoding.entries redeem m sigs) = isErpRedeem redeem := by
  rw [Encoding.entries, ← append_assoc, ← cons_append, witnessRedeemIsErp, getLast?_append]
  rfl

lemma redeemAndSighash_signedInput (rest : τ) (prevValues : List Nat) (i : Nat)
  (hown : p.Own sighash stored) (hredeem : redeem ≠ []) (hsize : redeem.length ≤ 0xffff) :
  p.redeemAndSighash rest prevValues (signedInput sha256 segwit redeem m (keys.filterMap stored))
    i = some (redeem, if segwit then p.segwitSighash rest i redeem (prevValues[i]?.getD 0)
      else p.legacySighash rest i redeem) := by
  cases segwit with
  | true =>
    have hlast : (witnessEncoding.entries redeem m (keys.filterMap stored)).getLast? =
        some redeem := by
      rw [Encoding.entries, ← append_assoc, ← cons_append, getLast?_append]
      rfl
    have hne : witnessEncoding.entries redeem m (keys.filterMap stored) ≠ [] := cons_ne_nil _ _
    simp [redeemAndSighash, signedInput, hlast, hne]
  | false =>
    have hlast : (scriptEncoding.entries redeem m (keys.filterMap stored)).getLast? =
        some (.data redeem) := by
      rw [Encoding.entries, ← append_assoc, ← cons_append, getLast?_append]
      rfl
    simp [redeemAndSighash, signedInput, extractRedeemScript,
      parseChunks_entries hown hredeem hsize, hlast]

lemma inputSignedBy_signedInput (hm : 0 < m) (hown : p.Own sighash stored) (hredeem : redeem ≠ [])
  (hsize : redeem.length ≤ 0xffff) (hlen : (keys.filterMap stored).length ≤ m) (key : Bytes) :
  p.inputSignedBy (signedInput sha256 segwit redeem m (keys.filterMap stored)) key sighash =
    true ↔ key ∈ keys ∧ (stored key).isSome = true := by
  cases segwit with
  | true => exact signedBy_entries hm hown hlen key
  | false =>
    have hscript : p.inputSignedBy (signedInput sha256 false redeem m (keys.filterMap stored)) key
        sighash =
        p.signedBy scriptEncoding (scriptEncoding.entries redeem m (keys.filterMap stored)) key
          sighash := by
      simp only [inputSignedBy, signedInput, if_neg Bool.false_ne_true, if_true,
        parseChunks_entries hown hredeem hsize]
    rw [hscript]
    exact signedBy_entries hm hown hlen key

lemma inputFullySigned_signedInput (hm : 0 < m) (hown : p.Own sighash stored)
  (hredeem : redeem ≠ []) (hsize : redeem.length ≤ 0xffff)
  (hlen : (keys.filterMap stored).length ≤ m) :
  inputFullySigned (signedInput sha256 segwit redeem m (keys.filterMap stored)) = true ↔
    (keys.filterMap stored).length = m := by
  have hne : ∀ sig ∈ keys.filterMap stored, sig ≠ [] := fun _ => ne_nil_of_own hown
  cases segwit with
  | true =>
    have hwitness : inputFullySigned (signedInput sha256 true redeem m (keys.filterMap stored)) =
        witnessEncoding.fullySigned (suffixOf (isErpRedeem redeem))
          (witnessEncoding.entries redeem m (keys.filterMap stored)) := by
      rw [← witnessRedeemIsErp_entries (keys.filterMap stored)]
      rfl
    rw [hwitness]
    exact fullySigned_entries hm hlen hne
  | false =>
    have hscript : inputFullySigned (signedInput sha256 false redeem m (keys.filterMap stored)) =
        scriptEncoding.fullySigned (suffixOf (isErpRedeem redeem))
          (scriptEncoding.entries redeem m (keys.filterMap stored)) := by
      simp only [inputFullySigned, signedInput, if_neg Bool.false_ne_true, if_true,
        parseChunks_entries hown hredeem hsize, inputRedeemIsErp_entries]
    rw [hscript]
    exact fullySigned_entries hm hlen hne

/-- **A new signature of a key of the redeem script**, into either kind of input. -/
theorem insertSignature_signedInput (hm : 0 < m) (hown : p.Own sighash stored)
  (hredeem : redeem ≠ []) (hsize : redeem.length ≤ 0xffff) (hnodup : keys.Nodup)
  (hkeys : spendingRedeemKeys redeem = keys) (hlen : (keys.filterMap stored).length ≤ m)
  {key encoded : Bytes} (hmem : key ∈ keys) (hnew : stored key = none) :
  p.insertSignature (signedInput sha256 segwit redeem m (keys.filterMap stored)) redeem sighash
    key encoded = if (keys.filterMap stored).length < m then
    some (signedInput sha256 segwit redeem m
      (keys.filterMap (update stored key (some encoded)))) else none := by
  obtain ⟨before, after, hsplit⟩ := append_of_mem hmem
  have hne : ∀ sig ∈ keys.filterMap stored, sig ≠ [] := fun _ => ne_nil_of_own hown
  have hs := suffixOf_pos (isErpRedeem redeem)
  -- both kinds do the same with their entries
  have hupdate {α : Type} (e : Encoding α) :
      e.updateWithSignature (suffixOf (isErpRedeem redeem)) encoded
        (p.insertionIndex e (suffixOf (isErpRedeem redeem))
          (e.entries redeem m (keys.filterMap stored)) sighash key redeem)
        (e.entries redeem m (keys.filterMap stored)) =
      if (keys.filterMap stored).length < m then
        some (e.entries redeem m (keys.filterMap (update stored key (some encoded))))
      else none := by
    rw [insertionIndex_entries hown hnodup hkeys hlen hsplit hnew]
    split_ifs with hlt
    · exact updateWithSignature_entries hown hsplit hnodup hnew hlt
    · exact updateWithSignature_full hm (by omega) hne _ _
  cases segwit with
  | true =>
    have hcons : witnessEncoding.entries redeem m (keys.filterMap stored) ≠ [] := cons_ne_nil _ _
    simp only [insertSignature, signedInput, if_true, if_neg hcons,
      witnessUpdateWithSignature, witnessSigInsertionIndex, witnessRedeemIsErp_entries,
      hupdate]
    split_ifs <;> rfl
  | false =>
    have hlong : 3 ≤ (scriptEncoding.entries redeem m (keys.filterMap stored)).length := by
      rw [length_entries hlen]
      omega
    simp only [insertSignature, signedInput, if_neg Bool.false_ne_true, if_true,
      updateScriptWithSignature, sigInsertionIndex,
      parseChunks_entries hown hredeem hsize, inputRedeemIsErp_entries,
      if_neg (show ¬(scriptEncoding.entries redeem m (keys.filterMap stored)).length < 3 by omega),
      if_neg (show ¬(scriptEncoding.entries redeem m (keys.filterMap stored)).length < 2 by omega),
      hupdate]
    split_ifs <;> rfl

end

end Rustock
