import Rustock.Bridge.Signing

/-!
# Collecting the signatures of a peg-out

`apply_signatures_to_tx` over whole runs: the inputs of an unsigned peg-out
(crates/execution/src/bridge/release_tx.rs) and any sequence of members that sign it.
The state of a run is the signatures each key has given (`Given`); the transaction is determined by
it (`signedTx`).
-/

namespace Rustock

open Lib List Option Function Bool

/-- An unsigned peg-out: every input carries the placeholders of an `m`-of-`n` redeem script over
the same keys. The scripts may differ, as those of flyover inputs do; segwit inputs are emergency
ones. -/
structure Pegout (τ : Type) where
  m : Nat
  keys : List Bytes
  /-- Whether the input is a segwit one, and its redeem script. -/
  specs : List (Bool × Bytes)
  rest : τ
  prevValues : List Nat
  sha256 : Bytes → B256
  pos : 0 < m
  nodup : keys.Nodup
  nonempty : specs ≠ []
  spending_keys : ∀ spec ∈ specs, spendingRedeemKeys spec.2 = keys
  threshold : ∀ spec ∈ specs, redeemScriptThreshold spec.2 = m
  size : ∀ spec ∈ specs, spec.2.length ≤ 0xffff
  segwit_erp : ∀ spec ∈ specs, spec.1 = true → isErpRedeem spec.2 = true

abbrev Application := Bytes × List Bytes

abbrev Given := Bytes → Option (List Bytes)

namespace Pegout

variable {τ : Type} (P : Pegout τ) (p : SigParams τ)

/-- The inputs as `complete_pegout_tx` leaves them. -/
def unsigned : SigTx τ where
  inputs := P.specs.map fun spec =>
    if spec.1 then segwitBaseInput P.sha256 spec.2 (redeemScriptThreshold spec.2)
    else ⟨placeholderScriptsig spec.2 (redeemScriptThreshold spec.2), []⟩
  rest := P.rest

def sighash (spec : Bool × Bytes) (i : Nat) : B256 :=
  if spec.1 then p.segwitSighash P.rest i spec.2 (P.prevValues[i]?.getD 0)
  else p.legacySighash P.rest i spec.2

def ValidSigs (a : Application) : Prop :=
  a.2.length = P.specs.length ∧ ∀ x ∈ P.specs.zipIdx, ∀ sig, a.2[x.2]? = some sig →
    ∀ key, p.verify sig (P.sighash p x.1 x.2) key = true ↔ key = a.1

/-- What input `i` holds of each key. -/
def held (given : Given) (i : Nat) : HeldSigs := fun key =>
  (given key).bind fun sigs => sigs[i]?.map (· ++ [1])

def signedTx (given : Given) : SigTx τ where
  inputs := P.specs.zipIdx.map fun x =>
    signedInput P.sha256 x.1.1 x.1.2 P.m (P.keys.filterMap (held given x.2))
  rest := P.rest

def count (given : Given) : Nat := (P.keys.filter fun key => (given key).isSome).length

def signedBy (l : List Application) : SigTx τ :=
  l.foldl (fun tx a => (p.applySignatures tx a.2 a.1 P.prevValues).2) P.unsigned

def members (l : List Application) : List Bytes := P.keys.filter fun key => l.any (·.1 = key)

def firstGiven (l : List Application) : Given := fun key => (l.find? (·.1 = key)).map (·.2)

/-! ### One application -/

structure Collected (given : Given) : Prop where
  valid : ∀ {key sigs}, given key = some sigs → P.ValidSigs p (key, sigs)
  card : P.count given ≤ P.m

variable {P p} {given : Given} {x : (Bool × Bytes) × Nat}

lemma mem_specs (hx : x ∈ P.specs.zipIdx) : x.1 ∈ P.specs := fst_mem_of_mem_zipIdx hx

lemma redeem_ne_nil {spec : Bool × Bytes} (h : spec ∈ P.specs) : spec.2 ≠ [] := by
  intro hnil
  have hm := P.threshold spec h
  have hpos := P.pos
  rw [hnil] at hm
  have : redeemScriptThreshold [] = 0 := rfl
  omega

variable {a : Application}

lemma ValidSigs.get (h : P.ValidSigs p a) (hx : x ∈ P.specs.zipIdx) :
  ∃ sig, a.2[x.2]? = some sig ∧ 0 < sig.length ∧ sig.length ≤ 72 ∧
    ∀ key, p.verify sig (P.sighash p x.1 x.2) key = true ↔ key = a.1 := by
  have hlt : x.2 < a.2.length := by
    rw [h.1]
    exact snd_lt_of_mem_zipIdx hx
  have hget := getElem?_eq_getElem hlt
  have hexact := h.2 x hx _ hget
  obtain ⟨hpos, hmax⟩ := p.verify_length ((hexact a.1).mpr rfl)
  exact ⟨_, hget, hpos, hmax, hexact⟩

lemma Collected.own (h : P.Collected p given) (hx : x ∈ P.specs.zipIdx) :
  p.Own (P.sighash p x.1 x.2) (held given x.2) := by
  intro key encoded hheld
  obtain ⟨sigs, hgiven, hencoded⟩ := bind_eq_some_iff.mp hheld
  obtain ⟨sig, hsig, hpos, hmax, hexact⟩ := (h.valid hgiven).get hx
  rw [hsig, map_some, some_inj] at hencoded
  subst hencoded
  rw [length_append, length_singleton, dropLast_concat]
  exact ⟨by omega, by omega, hexact⟩

lemma Collected.isSome_held (h : P.Collected p given) (hx : x ∈ P.specs.zipIdx) (key : Bytes) :
  (held given x.2 key).isSome = (given key).isSome := by
  cases hgiven : given key with
  | none => simp [held, hgiven]
  | some sigs =>
    obtain ⟨sig, hsig, _⟩ := (h.valid hgiven).get hx
    simp only [] at hsig
    simp [held, hgiven, hsig]

lemma length_filterMap_eq {f : Bytes → Option Bytes} (keys : List Bytes) :
  (keys.filterMap f).length = (keys.filter fun key => (f key).isSome).length := by
  rw [length_filterMap_eq_countP, countP_eq_length_filter]

lemma Collected.length (h : P.Collected p given) (hx : x ∈ P.specs.zipIdx) :
  (P.keys.filterMap (held given x.2)).length = P.count given := by
  simp only [length_filterMap_eq, h.isSome_held hx, count]

variable {sigs : List Bytes}

lemma held_update (given : Given) (key : Bytes) {i : Nat} {sig : Bytes}
  (hsig : sigs[i]? = some sig) : held (update given key (some sigs)) i =
    update (held given i) key (some (sig ++ [1])) := by
  funext k
  by_cases hk : k = key
  · subst hk
    simp [held, hsig]
  · simp [held, update_of_ne hk]

lemma mapM_eq_some_map {α β : Type} {f : α → Option β} {g : α → β} {l : List α}
  (h : ∀ a ∈ l, f a = some (g a)) : l.mapM f = some (l.map g) := by
  induction l with
  | nil => rfl
  | cons a l ih =>
    rw [mapM_cons, h a mem_cons_self, ih fun b hb => h b (mem_cons_of_mem _ hb)]
    rfl

variable {key : Bytes}

lemma signInputs_all {α : Type} {input : α → SigInput} {redeem : α → Bytes × B256}
  {sig : α → Bytes} (input' : α → SigInput) :
  ∀ (l : List α) (signed : Bool), (∀ x ∈ l, p.inputSignedBy (input x) key (redeem x).2 = false) →
  (∀ x ∈ l, key ∈ spendingRedeemKeys (redeem x).1) →
  (∀ x ∈ l, p.insertSignature (input x) (redeem x).1 (redeem x).2 key (sig x ++ [1]) =
    some (input' x)) → p.signInputs key (l.map fun x => (input x, redeem x, sig x)) signed =
    (signed || !l.isEmpty, l.map input') := by
  intro l
  induction l with
  | nil =>
    intro signed _ _ _
    simp [SigParams.signInputs]
  | cons x l ih =>
    intro signed hfresh hmem hinsert
    have hrest := ih true (fun y hy => hfresh y (mem_cons_of_mem _ hy))
      (fun y hy => hmem y (mem_cons_of_mem _ hy))
      (fun y hy => hinsert y (mem_cons_of_mem _ hy))
    simp only [map_cons, SigParams.signInputs, hfresh x mem_cons_self,
      false_eq_true, if_false, not_not.mpr (hmem x mem_cons_self),
      hinsert x mem_cons_self, hrest]
    simp

lemma signInputs_stop {α : Type} {input : α → SigInput} {redeem : α → Bytes × B256}
  {sig : α → Bytes} (l : List α) (h : ∀ x ∈ l, p.inputSignedBy (input x) key (redeem x).2 = true ∨
    key ∉ spendingRedeemKeys (redeem x).1 ∨
    p.insertSignature (input x) (redeem x).1 (redeem x).2 key (sig x ++ [1]) = none) :
  p.signInputs key (l.map fun x => (input x, redeem x, sig x)) false = (false, l.map input) := by
  cases l with
  | nil => rfl
  | cons x l =>
    have hall : (l.map fun x => (input x, redeem x, sig x)).map (·.1) = l.map input := by
      rw [List.map_map]
      rfl
    simp only [map_cons, SigParams.signInputs, hall]
    rcases h x mem_cons_self with hx | hx | hx
    · rw [if_pos hx]
    · rw [if_pos hx]
      split_ifs <;> rfl
    rw [hx]
    split_ifs <;> rfl

def Accepts (P : Pegout τ) (given : Given) (a : Application) : Prop :=
  a.1 ∈ P.keys ∧ given a.1 = none ∧ P.count given < P.m

instance (P : Pegout τ) (given : Given) (a : Application) : Decidable (P.Accepts given a) :=
  inferInstanceAs (Decidable (_ ∧ _ ∧ _))

def accept (P : Pegout τ) (given : Given) (a : Application) : Given :=
  if P.Accepts given a then update given a.1 (some a.2) else given

lemma applySignatures_eq (h : P.Collected p given) (ha : P.ValidSigs p a) :
  p.applySignatures (P.signedTx given) a.2 a.1 P.prevValues =
    let out := p.signInputs a.1 (P.specs.zipIdx.map fun x =>
        (signedInput P.sha256 x.1.1 x.1.2 P.m (P.keys.filterMap (held given x.2)),
          (x.1.2, P.sighash p x.1 x.2), a.2[x.2]?.getD [])) false
    (out.1, ⟨out.2, P.rest⟩) := by
  have hsigs : a.2 = P.specs.zipIdx.map fun x => a.2[x.2]?.getD [] := by
    refine ext_getElem? fun i => ?_
    by_cases hi : i < a.2.length
    · have hi' : i < P.specs.length := ha.1 ▸ hi
      simp [getElem?_eq_getElem hi, getElem?_eq_getElem hi']
    have hi' : ¬i < P.specs.length := ha.1 ▸ hi
    rw [getElem?_eq_none (by omega), getElem?_eq_none]
    rw [length_map, length_zipIdx]
    omega
  have hhashes : (P.signedTx given).inputs.zipIdx.mapM (fun x =>
      p.redeemAndSighash (P.signedTx given).rest P.prevValues x.1 x.2) =
      some (P.specs.zipIdx.map fun x => (x.1.2, P.sighash p x.1 x.2)) := by
    have hinputs : (P.signedTx given).inputs.zipIdx = P.specs.zipIdx.map fun x =>
        (signedInput P.sha256 x.1.1 x.1.2 P.m (P.keys.filterMap (held given x.2)), x.2) := by
      refine ext_getElem? fun i => ?_
      simp only [signedTx, getElem?_zipIdx, getElem?_map, Option.map_map]
      rcases P.specs[i]? with _ | spec <;> simp
    rw [hinputs, mapM_map]
    refine mapM_eq_some_map fun x hx => ?_
    exact redeemAndSighash_signedInput P.rest P.prevValues x.2 (h.own hx)
      (redeem_ne_nil (mem_specs hx)) (P.size _ (mem_specs hx))
  have hverify : (a.2.zip (P.specs.zipIdx.map fun x => (x.1.2, P.sighash p x.1 x.2))).all
      (fun x => p.verify x.1 x.2.2 a.1) = true := by
    rw [hsigs, zip_map', List.all_map, List.all_eq_true]
    intro x hx
    obtain ⟨sig, hsig, -, -, hexact⟩ := ha.get hx
    simp only [comp_apply, hsig, getD_some]
    exact (hexact a.1).mpr rfl
  have hzip : (P.signedTx given).inputs.zip ((P.specs.zipIdx.map fun x =>
      (x.1.2, P.sighash p x.1 x.2)).zip a.2) = P.specs.zipIdx.map fun x =>
        (signedInput P.sha256 x.1.1 x.1.2 P.m (P.keys.filterMap (held given x.2)),
          (x.1.2, P.sighash p x.1 x.2), a.2[x.2]?.getD []) := by
    nth_rewrite 1 [hsigs]
    rw [zip_map', signedTx, zip_map']
  rw [SigParams.applySignatures, hhashes]
  dsimp only
  rw [if_pos hverify, hzip]
  rfl

/-- **One application.** It fills a slot of every input if the member is new and a slot is free,
and changes nothing otherwise. -/
theorem applySignatures_signedTx (h : P.Collected p given) (ha : P.ValidSigs p a) :
  p.applySignatures (P.signedTx given) a.2 a.1 P.prevValues =
    (decide (P.Accepts given a), P.signedTx (P.accept given a)) := by
  have hsigned {x : (Bool × Bytes) × Nat} (hx : x ∈ P.specs.zipIdx) :
      p.inputSignedBy (signedInput P.sha256 x.1.1 x.1.2 P.m (P.keys.filterMap (held given x.2)))
        a.1 (P.sighash p x.1 x.2) = true ↔ a.1 ∈ P.keys ∧ (given a.1).isSome = true := by
    rw [inputSignedBy_signedInput P.pos (h.own hx) (redeem_ne_nil (mem_specs hx))
      (P.size _ (mem_specs hx)) (by rw [h.length hx]; exact h.card), h.isSome_held hx]
  have hinsert {x : (Bool × Bytes) × Nat} (hx : x ∈ P.specs.zipIdx) (hmem : a.1 ∈ P.keys)
      (hnew : given a.1 = none) (encoded : Bytes) :
      p.insertSignature (signedInput P.sha256 x.1.1 x.1.2 P.m (P.keys.filterMap (held given x.2)))
        x.1.2 (P.sighash p x.1 x.2) a.1 encoded =
      if P.count given < P.m then some (signedInput P.sha256 x.1.1 x.1.2 P.m
        (P.keys.filterMap (update (held given x.2) a.1 (some encoded)))) else none := by
    have hheld : held given x.2 a.1 = none := by simp [held, hnew]
    rw [insertSignature_signedInput P.pos (h.own hx) (redeem_ne_nil (mem_specs hx))
      (P.size _ (mem_specs hx)) P.nodup (P.spending_keys _ (mem_specs hx))
      (by rw [h.length hx]; exact h.card) hmem hheld, h.length hx]
  rw [applySignatures_eq h ha, accept]
  dsimp only
  by_cases haccepts : P.Accepts given a
  · obtain ⟨hmem, hnew, hlt⟩ := haccepts
    rw [signInputs_all fun x => signedInput P.sha256 x.1.1 x.1.2 P.m
      (P.keys.filterMap (held (update given a.1 (some a.2)) x.2))]
    · have hne : P.specs.zipIdx.isEmpty = false := by
        rw [isEmpty_eq_false_iff]
        intro hnil
        exact P.nonempty (zipIdx_eq_nil_iff.mp hnil)
      rw [hne, if_pos ⟨hmem, hnew, hlt⟩, decide_eq_true ⟨hmem, hnew, hlt⟩]
      rfl
    · intro x hx
      rw [← Bool.not_eq_true, hsigned hx, hnew]
      exact fun hcon => false_ne_true hcon.2
    · intro x hx
      rw [P.spending_keys _ (mem_specs hx)]
      exact hmem
    intro x hx
    obtain ⟨sig, hsig, -⟩ := ha.get hx
    rw [hinsert hx hmem hnew, if_pos hlt, hsig, getD_some, held_update given a.1 hsig]
  rw [if_neg haccepts, decide_eq_false haccepts, signInputs_stop]
  · rfl
  intro x hx
  by_cases hmem : a.1 ∈ P.keys
  · cases hgiven : given a.1 with
    | some sigs => exact Or.inl ((hsigned hx).mpr ⟨hmem, by rw [hgiven]; rfl⟩)
    | none =>
      refine Or.inr (Or.inr ?_)
      rw [hinsert hx hmem hgiven, if_neg fun hlt => haccepts ⟨hmem, hgiven, hlt⟩]
  refine Or.inr (Or.inl ?_)
  rw [P.spending_keys _ (mem_specs hx)]
  exact hmem

lemma length_filter_add {keys : List Bytes} (hnodup : keys.Nodup) (hmem : key ∈ keys)
  {f g : Bytes → Bool} (hf : f key = false) (hg : g key = true)
  (hother : ∀ other, other ≠ key → g other = f other) :
  (keys.filter g).length = (keys.filter f).length + 1 := by
  obtain ⟨before, after, rfl⟩ := append_of_mem hmem
  rw [nodup_append] at hnodup
  have hbefore : before.filter g = before.filter f :=
    List.filter_congr fun x hx => hother x (hnodup.2.2 x hx key mem_cons_self)
  have hafter : after.filter g = after.filter f := by
    refine List.filter_congr fun x hx => hother x ?_
    rintro rfl
    exact (nodup_cons.mp hnodup.2.1).1 hx
  rw [filter_append, filter_append, filter_cons_of_pos hg,
    filter_cons_of_neg (by rw [hf]; exact false_ne_true), hbefore, hafter,
    length_append, length_append, length_cons]
  rfl

lemma count_accept (h : P.Accepts given a) : P.count (P.accept given a) = P.count given + 1 := by
  rw [accept, if_pos h]
  refine length_filter_add P.nodup h.1 (by rw [h.2.1]; rfl) (by rw [update_self]; rfl) ?_
  intro other hother
  rw [update_of_ne hother]

lemma Collected.accept (h : P.Collected p given) (ha : P.ValidSigs p a) :
  P.Collected p (P.accept given a) := by
  by_cases haccepts : P.Accepts given a
  · refine ⟨fun {key sigs} hgiven => ?_, ?_⟩
    · rw [Pegout.accept, if_pos haccepts] at hgiven
      by_cases hkey : key = a.1
      · subst hkey
        rw [update_self, some_inj] at hgiven
        subst hgiven
        exact ha
      rw [update_of_ne hkey] at hgiven
      exact h.valid hgiven
    rw [count_accept haccepts]
    exact haccepts.2.2
  rw [Pegout.accept, if_neg haccepts]
  exact h

/-! ### Any sequence of applications -/

def collected (P : Pegout τ) (l : List Application) : Given := l.foldl P.accept fun _ => none

lemma collected_concat (l : List Application) (a : Application) :
  P.collected (l ++ [a]) = P.accept (P.collected l) a := by
  rw [collected, foldl_append]
  rfl

lemma signedBy_concat (l : List Application) (a : Application) :
  P.signedBy p (l ++ [a]) = (p.applySignatures (P.signedBy p l) a.2 a.1 P.prevValues).2 := by
  rw [signedBy, foldl_append]
  rfl

lemma collected_nil : P.Collected p (P.collected []) := by
  refine ⟨fun {key sigs} h => ?_, ?_⟩
  · cases h
  have : P.count (P.collected []) = 0 := by
    rw [count, length_eq_zero_iff, filter_eq_nil_iff]
    exact fun _ _ => false_ne_true
  omega

lemma unsigned_eq : P.unsigned = P.signedTx (P.collected []) := by
  have hnone (i : Nat) : P.keys.filterMap (held (P.collected []) i) = [] :=
    filterMap_eq_nil_iff.mpr fun _ _ => rfl
  have hinputs : P.unsigned.inputs = (P.signedTx (P.collected [])).inputs := by
    rw [unsigned, signedTx]
    dsimp only
    nth_rewrite 1 [← zipIdx_map_fst 0 P.specs]
    rw [List.map_map]
    refine map_congr_left fun x hx => ?_
    rw [comp_apply, hnone, P.threshold _ (mem_specs hx)]
    split_ifs with hsegwit
    · rw [hsegwit, signedInput_segwit_nil _ (P.segwit_erp _ (mem_specs hx) hsegwit)]
    rw [Bool.not_eq_true] at hsegwit
    rw [hsegwit, signedInput_legacy_nil]
  rw [show P.unsigned = ⟨P.unsigned.inputs, P.rest⟩ from rfl, hinputs]
  rfl

/-- **Every run of applications** is the collection of signatures. -/
theorem signedBy_eq (l : List Application) (hl : ∀ a ∈ l, P.ValidSigs p a) :
  P.Collected p (P.collected l) ∧ P.signedBy p l = P.signedTx (P.collected l) := by
  induction l using reverseRecOn with
  | nil => exact ⟨collected_nil, unsigned_eq⟩
  | append_singleton l a ih =>
    obtain ⟨hcollected, htx⟩ := ih fun b hb => hl b (mem_append_left _ hb)
    have ha : P.ValidSigs p a := hl a (by simp)
    rw [collected_concat, signedBy_concat, htx, applySignatures_signedTx hcollected ha]
    exact ⟨hcollected.accept ha, rfl⟩

variable {l : List Application}

lemma any_fst_eq : l.any (·.1 = key) = true ↔ key ∈ l.map (·.1) := by
  rw [List.any_eq_true, List.mem_map]
  simp only [decide_eq_true_eq]

lemma members_concat_of_mem (h : a.1 ∈ l.map (·.1) ∨ a.1 ∉ P.keys) :
  P.members (l ++ [a]) = P.members l := by
  refine List.filter_congr fun key hkey => ?_
  rw [Bool.eq_iff_iff, any_fst_eq, any_fst_eq, map_append, mem_append]
  constructor
  · rintro (hl | ha)
    · exact hl
    obtain rfl := mem_singleton.mp ha
    exact h.resolve_right (not_not.mpr hkey)
  · exact Or.inl

lemma members_concat_of_new (hmem : a.1 ∈ P.keys) (hnew : a.1 ∉ l.map (·.1)) :
  (P.members (l ++ [a])).length = (P.members l).length + 1 := by
  have hbefore : l.any (·.1 = a.1) = false := by
    rw [← Bool.not_eq_true, any_fst_eq]
    exact hnew
  have hafter : (l ++ [a]).any (·.1 = a.1) = true := any_fst_eq.mpr (by simp)
  refine length_filter_add P.nodup hmem hbefore hafter ?_
  intro other hother
  rw [Bool.eq_iff_iff, any_fst_eq, any_fst_eq, map_append, mem_append]
  constructor
  · rintro (hl | ha)
    · exact hl
    · exact absurd (mem_singleton.mp ha) hother
  · exact Or.inl

lemma firstGiven_concat (l : List Application) (a : Application) (key : Bytes) :
  firstGiven (l ++ [a]) key = (firstGiven l key).or (if a.1 = key then some a.2 else none) := by
  rw [firstGiven, firstGiven, find?_append]
  cases l.find? (·.1 = key) with
  | some b => rfl
  | none => by_cases h : a.1 = key <;> simp [h]

lemma firstGiven_isSome : (firstGiven l key).isSome = true ↔ key ∈ l.map (·.1) := by
  simp [firstGiven]

lemma firstGiven_eq_some (hnodup : (l.map (·.1)).Nodup) :
  firstGiven l key = some sigs ↔ (key, sigs) ∈ l := by
  induction l with
  | nil => simp [firstGiven]
  | cons a l ih =>
    rw [map_cons, nodup_cons] at hnodup
    by_cases heq : a.1 = key
    · have hfirst : firstGiven (a :: l) key = some a.2 := by
        rw [firstGiven, find?_cons_of_pos (by simpa using heq)]
        rfl
      have hrest : (key, sigs) ∉ l := by
        intro hmem
        rw [heq] at hnodup
        exact hnodup.1 (List.mem_map.mpr ⟨_, hmem, rfl⟩)
      rw [hfirst, some_inj, mem_cons]
      constructor
      · rintro rfl
        exact Or.inl (by rw [← heq])
      rintro (rfl | hmem)
      · rfl
      · exact absurd hmem hrest
    have hfirst : firstGiven (a :: l) key = firstGiven l key := by
      rw [firstGiven, find?_cons_of_neg (by simpa using heq)]
      rfl
    rw [hfirst, ih hnodup.2, mem_cons]
    constructor
    · exact Or.inr
    rintro (rfl | hmem)
    · exact absurd rfl heq
    · exact hmem

/-- **What is collected.** As many signatures as members have applied, at most `m`; and as long as
they are at most `m`, those that were given first. -/
theorem collected_spec (l : List Application) :
  P.count (P.collected l) = min P.m (P.members l).length ∧
  ((P.members l).length ≤ P.m → ∀ key ∈ P.keys, P.collected l key = firstGiven l key) ∧
  ∀ key, (P.collected l key).isSome = true → key ∈ l.map (·.1) := by
  induction l using reverseRecOn with
  | nil =>
    have hnone : ∀ key ∈ P.keys, ¬([] : List Application).any (·.1 = key) = true :=
      fun _ _ => false_ne_true
    have hcount : P.count (P.collected []) = 0 := by
      rw [count, length_eq_zero_iff, filter_eq_nil_iff]
      exact fun _ _ => false_ne_true
    refine ⟨?_, fun _ _ _ => rfl, fun key h => absurd h false_ne_true⟩
    rw [hcount, members, filter_eq_nil_iff.mpr hnone, length_nil, Nat.min_zero]
  | append_singleton l a ih =>
    obtain ⟨hcount, hfirst, happlied⟩ := ih
    rw [collected_concat]
    by_cases hnew : a.1 ∈ P.keys ∧ a.1 ∉ l.map (·.1)
    · obtain ⟨hmem, hnew⟩ := hnew
      have hnone : P.collected l a.1 = none := by
        cases hgiven : P.collected l a.1 with
        | none => rfl
        | some sigs => exact absurd (happlied a.1 (by rw [hgiven]; rfl)) hnew
      rw [members_concat_of_new hmem hnew]
      by_cases hlt : (P.members l).length < P.m
      · -- a slot is free
        have haccepts : P.Accepts (P.collected l) a := ⟨hmem, hnone, by omega⟩
        refine ⟨by rw [count_accept haccepts]; omega, fun _ key hkey => ?_, fun key hsome => ?_⟩
        · rw [accept, if_pos haccepts, firstGiven_concat, ← hfirst hlt.le key hkey]
          by_cases heq : key = a.1
          · subst heq
            rw [update_self, hnone, if_pos rfl]
            rfl
          · rw [update_of_ne heq, if_neg (Ne.symm heq), or_none]
        rw [accept, if_pos haccepts] at hsome
        rw [map_append, mem_append]
        by_cases heq : key = a.1
        · exact Or.inr (by simp [heq])
        rw [update_of_ne heq] at hsome
        exact Or.inl (happlied key hsome)
      -- every slot is filled
      have hfull : ¬P.Accepts (P.collected l) a := fun h => by
        have := h.2.2
        omega
      rw [accept, if_neg hfull]
      refine ⟨by omega, fun hle => by omega, fun key hsome => ?_⟩
      rw [map_append, mem_append]
      exact Or.inl (happlied key hsome)
    -- a repeated member, or none of the keys
    have hold : a.1 ∈ l.map (·.1) ∨ a.1 ∉ P.keys := by
      by_cases hmem : a.1 ∈ P.keys
      · exact Or.inl (not_not.mp fun h => hnew ⟨hmem, h⟩)
      · exact Or.inr hmem
    have hrefused : ¬P.Accepts (P.collected l) a := by
      rintro ⟨hmem, hnone, hlt⟩
      have happeared := hold.resolve_right (not_not.mpr hmem)
      rw [hfirst (by omega) a.1 hmem, ← isNone_iff_eq_none,
        ← not_isSome] at hnone
      rw [firstGiven_isSome.mpr happeared] at hnone
      exact absurd hnone (by decide)
    rw [accept, if_neg hrefused, members_concat_of_mem hold]
    refine ⟨hcount, fun hle key hkey => ?_, fun key hsome => ?_⟩
    · rw [hfirst hle key hkey, firstGiven_concat]
      by_cases heq : a.1 = key
      · subst heq
        have hsome := firstGiven_isSome.mpr (hold.resolve_right (not_not.mpr hkey))
        obtain ⟨sigs, hsigs⟩ := isSome_iff_exists.mp hsome
        rw [hsigs]
        rfl
      · rw [if_neg heq, or_none]
    rw [map_append, mem_append]
    exact Or.inl (happlied key hsome)

lemma signedTx_congr {given' : Given} (h : ∀ key ∈ P.keys, given key = given' key) :
  P.signedTx given = P.signedTx given' := by
  have hheld (i : Nat) : P.keys.filterMap (held given i) = P.keys.filterMap (held given' i) :=
    filterMap_congr fun key hkey => by rw [held, held, h key hkey]
  simp only [signedTx, hheld]

lemma hasEnoughSignatures_signedTx (h : P.Collected p given) :
  hasEnoughSignatures (P.signedTx given) = true ↔ P.count given = P.m := by
  have hinput {x : (Bool × Bytes) × Nat} (hx : x ∈ P.specs.zipIdx) :
      inputFullySigned (signedInput P.sha256 x.1.1 x.1.2 P.m
        (P.keys.filterMap (held given x.2))) = true ↔ P.count given = P.m := by
    rw [inputFullySigned_signedInput P.pos (h.own hx) (redeem_ne_nil (mem_specs hx))
      (P.size _ (mem_specs hx)) (by rw [h.length hx]; exact h.card), h.length hx]
  have hne : P.specs.zipIdx ≠ [] := fun hnil => P.nonempty (zipIdx_eq_nil_iff.mp hnil)
  obtain ⟨x, l, hcons⟩ := exists_cons_of_ne_nil hne
  rw [hasEnoughSignatures, signedTx, List.all_map, Bool.and_eq_true, List.all_eq_true]
  constructor
  · rintro ⟨hall, -⟩
    have hx : x ∈ P.specs.zipIdx := by simp [hcons]
    exact (hinput hx).mp (hall x hx)
  intro hcount
  exact ⟨fun y hy => (hinput hy).mpr hcount, by simp [hcons]⟩

/-- **Signing does not depend on the order.** After any applications with valid signatures: while
at most `m` members have applied, every input holds what they gave, in the order of the keys; there
are enough signatures exactly when `m` members have applied; an applicant that is repeated, no
member, or later than the `m`-th changes nothing; and applications of at most `m` distinct members
lead to the same transaction in any order. -/
theorem signing_order_independent (P : Pegout τ) (p : SigParams τ) (l : List Application)
  (hl : ∀ a ∈ l, P.ValidSigs p a) :
  ((P.members l).length ≤ P.m → P.signedBy p l = P.signedTx (firstGiven l)) ∧
  (hasEnoughSignatures (P.signedBy p l) = true ↔ P.m ≤ (P.members l).length) ∧
  (∀ a, P.ValidSigs p a → a.1 ∈ l.map (·.1) ∨ a.1 ∉ P.keys ∨ P.m ≤ (P.members l).length →
    p.applySignatures (P.signedBy p l) a.2 a.1 P.prevValues = (false, P.signedBy p l)) ∧
  ∀ l' : List Application, l.Perm l' → (l.map (·.1)).Nodup → (P.members l).length ≤ P.m →
    P.signedBy p l' = P.signedBy p l := by
  obtain ⟨hcollected, htx⟩ := signedBy_eq l hl
  obtain ⟨hcount, hfirst, happlied⟩ := P.collected_spec l
  refine ⟨fun hle => ?_, ?_, fun a ha hold => ?_, fun l' hperm hnodup hle => ?_⟩
  · rw [htx]
    exact signedTx_congr (hfirst hle)
  · rw [htx, hasEnoughSignatures_signedTx hcollected, hcount]
    omega
  · have hrefused : ¬P.Accepts (P.collected l) a := by
      rintro ⟨hmem, hnone, hlt⟩
      have hle : (P.members l).length ≤ P.m := by omega
      rcases hold with hrepeated | houtside | hfull
      · have hsome := firstGiven_isSome.mpr hrepeated
        rw [← hfirst hle a.1 hmem, hnone] at hsome
        exact false_ne_true hsome
      · exact houtside hmem
      · omega
    rw [htx, applySignatures_signedTx hcollected ha, accept, if_neg hrefused,
      decide_eq_false hrefused]
  have hl' : ∀ a ∈ l', P.ValidSigs p a := fun a ha => hl a (hperm.mem_iff.mpr ha)
  have hmembers : P.members l' = P.members l := by
    refine List.filter_congr fun key _ => ?_
    rw [Bool.eq_iff_iff, any_fst_eq, any_fst_eq]
    exact (hperm.map _).mem_iff.symm
  have hfirst' := (P.collected_spec l').2.1 (by rw [hmembers]; exact hle)
  rw [htx, (signedBy_eq l' hl').2]
  refine signedTx_congr fun key hkey => ?_
  rw [hfirst' key hkey, hfirst hle key hkey]
  have hnodup' : (l'.map (·.1)).Nodup := (hperm.map _).nodup_iff.mp hnodup
  refine Option.ext fun sigs => ?_
  rw [firstGiven_eq_some hnodup', firstGiven_eq_some hnodup, hperm.mem_iff]

/-! ### An example -/

namespace SigExample

def keyA : Bytes := 0x02 :: replicate 32 0x0a

def keyB : Bytes := 0x03 :: replicate 32 0x0b

def keyC : Bytes := 0x02 :: replicate 32 0x0c

/-- `OP_2 <keyA> <keyB> <keyC> OP_3 OP_CHECKMULTISIG`. -/
def plainRedeem : Bytes :=
  0x52 :: (pushData keyA ++ pushData keyB ++ pushData keyC ++ [0x53, 0xae])

/-- `OP_NOTIF <plain> OP_ELSE OP_ENDIF`. -/
def erpRedeem : Bytes := 0x64 :: (plainRedeem ++ [0x67, 0x68])

def params : SigParams Unit where
  verify der _ key := der = key && 0 < der.length && der.length ≤ 72
  verify_length h := by
    simp only [Bool.and_eq_true, decide_eq_true_eq] at h
    exact ⟨h.1.2, h.2⟩
  legacySighash _ _ _ := .zero 32
  segwitSighash _ _ _ _ := .zero 32

def pegout : Pegout Unit where
  m := 2
  keys := [keyA, keyB, keyC]
  specs := [(false, plainRedeem), (true, erpRedeem)]
  rest := ()
  prevValues := [5, 5]
  sha256 _ := .zero 32
  pos := by decide
  nodup := by decide
  nonempty := by simp
  spending_keys := by decide +kernel
  threshold := by decide +kernel
  size := by decide
  segwit_erp := by decide +kernel

lemma validSigs_pair {key : Bytes} (hkey : key.length = 33) :
  pegout.ValidSigs params (key, [key, key]) := by
  refine ⟨rfl, fun x _ sig hsig other => ?_⟩
  have hsig : sig = key := by
    have hmem := mem_of_getElem? hsig
    simpa using hmem
  subst hsig
  simp only [params, Bool.and_eq_true, decide_eq_true_eq]
  constructor
  · exact fun h => h.1.1.symm
  rintro rfl
  exact ⟨⟨rfl, by omega⟩, by omega⟩

/-- What the member with `key` applies with. -/
def signed (key : Bytes) : Application := (key, [key, key])

/-- A segwit input as `segwit_base_input` leaves it, of the plain script. -/
def plainSegwit : SigTx Unit := ⟨[segwitBaseInput (fun _ => .zero 32) plainRedeem 2], ()⟩

end SigExample

open SigExample in
/-- Two members of a two-of-three peg-out sign, in both orders: one signature is not enough, both
are, and the transaction is the same. -/
theorem signing_order_independent_two :
    hasEnoughSignatures (pegout.signedBy params [signed keyC]) = false ∧
      hasEnoughSignatures (pegout.signedBy params [signed keyC, signed keyA]) = true ∧
      pegout.signedBy params [signed keyA, signed keyC] =
        pegout.signedBy params [signed keyC, signed keyA] := by
  have hone : ∀ a ∈ [signed keyC], pegout.ValidSigs params a := by
    intro a ha
    obtain rfl := mem_singleton.mp ha
    exact validSigs_pair (by decide)
  have htwo : ∀ a ∈ [signed keyC, signed keyA], pegout.ValidSigs params a := by
    intro a ha
    rcases mem_cons.mp ha with rfl | ha
    · exact validSigs_pair (by decide)
    obtain rfl := mem_singleton.mp ha
    exact validSigs_pair (by decide)
  obtain ⟨-, henough, -, -⟩ := signing_order_independent pegout params _ hone
  obtain ⟨-, henough', -, hperm⟩ := signing_order_independent pegout params _ htwo
  refine ⟨?_, henough'.mpr (by decide), hperm _ (.swap ..) (by decide) (by decide)⟩
  rw [← Bool.not_eq_true, henough]
  decide

open SigExample in
/-- **A segwit input of a plain script** has one slot too many: `segwit_base_input` always leaves
the flag of an emergency script. Two members of a two-of-three script have signed it, and there are
not enough signatures; with the third there are. -/
theorem plain_segwit_needs_one_more :
    let one := (params.applySignatures plainSegwit [keyA] keyA [5]).2
    let two := (params.applySignatures one [keyB] keyB [5]).2
    let three := (params.applySignatures two [keyC] keyC [5]).2
    redeemScriptThreshold plainRedeem = 2 ∧ hasEnoughSignatures two = false ∧
      hasEnoughSignatures three = true := by
  decide +kernel

end Pegout

end Rustock
