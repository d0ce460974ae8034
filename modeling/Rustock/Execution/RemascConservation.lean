import Rustock.Execution.RemascBlock
import Rustock.Storage.Position

/-!
# REMASC conserves value

What a distribution (crates/execution/src/remasc.rs) does with the fees of a matured
block: every wei is paid to somebody, burned, kept for the federation or kept in the pool.

Amounts are words; the statements ask that three times the amounts involved stay below
`2 ^ 256`, which the supply does by far. `reward_wraps` is what happens otherwise.
-/

namespace Rustock

open Lib List Option Function Journal
open BitVec (ofNat le_def toNat_udiv toNat_sub_of_le toNat_add toNat_umod toNat_mul)

/-- The cells REMASC keeps its books in. -/
def bookKeys : List U256 := [rewardBalanceKey, burnedBalanceKey, federationBalanceKey]

/-- `rewardBalance`, `burnedBalance` and `federationBalance` together. -/
def Journal.books (j : Journal) : Nat :=
  (j.remascWord rewardBalanceKey).toNat + (j.remascWord burnedBalanceKey).toNat +
    (j.remascWord federationBalanceKey).toNat

def paymentTotal (payments : List (Address × U256)) : Nat := (payments.map (·.2.toNat)).sum

@[simp] lemma paymentTotal_nil : paymentTotal [] = 0 := rfl

@[simp] lemma paymentTotal_cons (p : Address × U256) (ps : List (Address × U256)) :
  paymentTotal (p :: ps) = p.2.toNat + paymentTotal ps := rfl

@[simp] lemma paymentTotal_append (ps qs : List (Address × U256)) :
  paymentTotal (ps ++ qs) = paymentTotal ps + paymentTotal qs := by
  simp [paymentTotal]

inductive Pays (topic hash : B256) : Journal → List (Address × U256) → Journal → Prop where
  | done (j : Journal) : Pays topic hash j [] j
  | store {j j' : Journal} {ps : List (Address × U256)} (key value : U256) :
      Pays topic hash (j.remascSstore key value) ps j' → Pays topic hash j ps j'
  | raw {j j' : Journal} {ps : List (Address × U256)} (key : U256) (value : Option Bytes) :
      Pays topic hash (j.putRaw remascAddr key value) ps j' → Pays topic hash j ps j'
  | pay {j j' : Journal} {ps : List (Address × U256)} (payee : Address) (value : U256) :
      Pays topic hash (j.payMiningFees topic hash payee value) ps j' →
      Pays topic hash j ((payee, value) :: ps) j'

namespace Pays

variable {topic hash : B256} {j j' j'' : Journal} {ps qs : List (Address × U256)}

lemma trans (h : Pays topic hash j ps j') (h' : Pays topic hash j' qs j'') :
  Pays topic hash j (ps ++ qs) j'' := by
  induction h with
  | done => exact h'
  | store key value _ ih => exact .store key value (ih h')
  | raw key value _ ih => exact .raw key value (ih h')
  | pay payee value _ ih => exact .pay payee value (ih h')

lemma split {pre : List (Address × U256)} {p : Address × U256}
  (h : Pays topic hash j (pre ++ p :: qs) j') : ∃ mid, Pays topic hash j pre mid ∧
    Pays topic hash (mid.payMiningFees topic hash p.1 p.2) qs j' := by
  generalize hps : pre ++ p :: qs = ps at h
  induction h generalizing pre with
  | done => simp at hps
  | store key value _ ih =>
    obtain ⟨mid, hpre, hpost⟩ := ih hps
    exact ⟨mid, .store key value hpre, hpost⟩
  | raw key value _ ih =>
    obtain ⟨mid, hpre, hpost⟩ := ih hps
    exact ⟨mid, .raw key value hpre, hpost⟩
  | @pay j j' rest payee value hrest ih =>
    cases pre with
    | nil =>
      obtain ⟨rfl, rfl⟩ := List.cons.inj hps
      exact ⟨j, .done j, hrest⟩
    | cons q pre =>
      obtain ⟨rfl, htail⟩ := List.cons.inj hps
      obtain ⟨mid, hpre, hpost⟩ := ih htail
      exact ⟨mid, .pay _ _ hpre, hpost⟩

end Pays

/-- A payment lowers the balance, by its amount at most. -/
theorem Journal.balance_payMiningFees (j : Journal) (topic hash : B256) (payee : Address)
    (value : U256) : ((j.payMiningFees topic hash payee value).info remascAddr).balance.toNat ≤
      (j.info remascAddr).balance.toNat ∧ (j.info remascAddr).balance.toNat ≤
        ((j.payMiningFees topic hash payee value).info remascAddr).balance.toNat + value.toNat := by
  show ((j.remascTransfer payee value).info remascAddr).balance.toNat ≤ _ ∧
    _ ≤ ((j.remascTransfer payee value).info remascAddr).balance.toNat + _
  have hsame (j' : Journal) (h : j'.info = j.info) :
      (j'.info remascAddr).balance.toNat ≤ (j.info remascAddr).balance.toNat ∧
        (j.info remascAddr).balance.toNat ≤ (j'.info remascAddr).balance.toNat + value.toNat := by
    rw [h]
    exact ⟨le_rfl, Nat.le_add_right ..⟩
  unfold remascTransfer
  split
  · exact hsame _ rfl
  unfold transfer
  split
  · exact hsame _ rfl
  split
  · exact hsame _ rfl
  split
  · exact hsame _ rfl
  rename_i hfunds hself _
  have hle : value ≤ (j.info remascAddr).balance := BitVec.not_lt.mp hfunds
  simp only [touch, setBalance, update_of_ne hself, update_self, toNat_sub_of_le hle]
  omega

theorem Pays.balance {topic hash : B256} {j j' : Journal} {ps : List (Address × U256)}
    (h : Pays topic hash j ps j') :
    (j'.info remascAddr).balance.toNat ≤ (j.info remascAddr).balance.toNat ∧
      (j.info remascAddr).balance.toNat ≤
        (j'.info remascAddr).balance.toNat + paymentTotal ps := by
  induction h with
  | done => simp
  | store key value _ ih => exact ih
  | raw key value _ ih => exact ih
  | @pay j j' ps payee value _ ih =>
    have := j.balance_payMiningFees topic hash payee value
    rw [paymentTotal_cons]
    dsimp only
    omega

def Pays.AllFunded (topic hash : B256) (j : Journal) (ps : List (Address × U256))
  (j' : Journal) : Prop :=
  ∀ pre p post, ps = pre ++ p :: post → ∃ mid, Pays topic hash j pre mid ∧
    p.2.toNat ≤ (mid.info remascAddr).balance.toNat ∧
    Pays topic hash (mid.payMiningFees topic hash p.1 p.2) post j'

/-- **An account that holds the sum of the payments is never short of funds.** -/
theorem Pays.allFunded {topic hash : B256} {j j' : Journal} {ps : List (Address × U256)}
  (h : Pays topic hash j ps j') (hfunds : paymentTotal ps ≤ (j.info remascAddr).balance.toNat) :
  Pays.AllFunded topic hash j ps j' := by
  rintro pre p post rfl
  obtain ⟨mid, hpre, hpost⟩ := h.split
  have := hpre.balance
  rw [paymentTotal_append, paymentTotal_cons] at hfunds
  exact ⟨mid, hpre, by omega, hpost⟩

/-- From `j` to `j'`, `value` was paid out or entered in the books. -/
def Settled (topic hash : B256) (j : Journal) (value : Nat) (j' : Journal) : Prop :=
  ∃ ps, Pays topic hash j ps j' ∧ paymentTotal ps + j'.books = j.books + value

namespace Settled

variable {topic hash : B256} {j j' j'' : Journal} {a b : Nat}

lemma trans (h : Settled topic hash j a j') (h' : Settled topic hash j' b j'') :
  Settled topic hash j (a + b) j'' := by
  obtain ⟨ps, hps, hbooks⟩ := h
  obtain ⟨qs, hqs, hbooks'⟩ := h'
  exact ⟨ps ++ qs, hps.trans hqs, by rw [paymentTotal_append]; omega⟩

lemma books_le (h : Settled topic hash j a j') : j'.books ≤ j.books + a := by
  obtain ⟨ps, -, hbooks⟩ := h
  omega

end Settled

lemma burned_ne_reward : burnedBalanceKey ≠ rewardBalanceKey := by decide
lemma burned_ne_federation : burnedBalanceKey ≠ federationBalanceKey := by decide
lemma federation_ne_reward : federationBalanceKey ≠ rewardBalanceKey := by decide

section Parts

variable {topic hash : B256} (j : Journal)

@[simp] lemma books_payMiningFees (payee : Address) (value : U256) :
  (j.payMiningFees topic hash payee value).books = j.books := by
  simp [books]

@[simp] lemma books_putRaw (a : Address) (k : U256) (value : Option Bytes) :
  (j.putRaw a k value).books = j.books := rfl

variable (value : U256)

lemma books_storeReward : (j.remascSstore rewardBalanceKey value).books +
  (j.remascWord rewardBalanceKey).toNat = j.books + value.toNat := by
  simp only [books, remascWord_sstore_self,
    j.remascWord_sstore_of_ne _ burned_ne_reward, j.remascWord_sstore_of_ne _ federation_ne_reward]
  omega

lemma books_storeBurned : (j.remascSstore burnedBalanceKey value).books +
  (j.remascWord burnedBalanceKey).toNat = j.books + value.toNat := by
  simp only [books, remascWord_sstore_self,
    j.remascWord_sstore_of_ne _ burned_ne_reward.symm,
    j.remascWord_sstore_of_ne _ burned_ne_federation.symm]
  omega

lemma books_storeFederation : (j.remascSstore federationBalanceKey value).books +
    (j.remascWord federationBalanceKey).toNat = j.books + value.toNat := by
  simp only [books, remascWord_sstore_self,
    j.remascWord_sstore_of_ne _ federation_ne_reward.symm,
    j.remascWord_sstore_of_ne _ burned_ne_federation]
  omega

lemma payMiningFees_settled (payee : Address) (value : U256) :
  Settled topic hash j value.toNat (j.payMiningFees topic hash payee value) :=
  ⟨[(payee, value)], .pay payee value (.done _), by simp; omega⟩

lemma addToBurned_settled {amount : U256} (hfits : j.books + amount.toNat < 2 ^ 256) :
  Settled topic hash j amount.toNat (j.addToBurned amount) := by
  unfold addToBurned
  split
  · rename_i hzero
    exact ⟨[], .done j, by simp [hzero]⟩
  have hstored := books_storeBurned j (j.remascWord burnedBalanceKey + amount)
  have hsum : (j.remascWord burnedBalanceKey + amount).toNat =
      (j.remascWord burnedBalanceKey).toNat + amount.toNat := by
    rw [toNat_add, Nat.mod_eq_of_lt]
    have : (j.remascWord burnedBalanceKey).toNat ≤ j.books := by rw [books]; omega
    omega
  exact ⟨[], .store _ _ (.done _), by rw [paymentTotal_nil]; omega⟩

lemma foldl_settled {α : Type*} {f : Journal → α → Journal} {v : α → Nat} {bound : Nat} :
  ∀ {l : List α} {j : Journal},
    (∀ j a, a ∈ l → j.books + v a < bound → Settled topic hash j (v a) (f j a)) →
    j.books + (l.map v).sum < bound → Settled topic hash j (l.map v).sum (l.foldl f j)
  | [], j, _, _ => ⟨[], .done j, by simp⟩
  | a :: l, j, hstep, hbound => by
    rw [map_cons, sum_cons] at hbound ⊢
    have hfirst := hstep j a (mem_cons_self ..) (by omega)
    have hle := hfirst.books_le
    exact hfirst.trans (foldl_settled
      (fun j b hb hj => hstep j b (mem_cons_of_mem _ hb) hj) (by omega))

end Parts

namespace RemascConfig

structure Positive (config : RemascConfig) : Prop where
  span : 0 < config.syntheticSpan
  labs : 0 < config.rskLabsDivisor.toNat
  federation : 0 < config.federationDivisor.toNat
  punishment : 0 < config.punishmentDivisor.toNat
  publishers : 0 < config.publishersDivisor.toNat
  late : 6 ≤ config.lateUncleInclusionPunishmentDivisor.toNat

end RemascConfig

lemma sum_map_const {α : Type*} (l : List α) (c : Nat) : (l.map fun _ => c).sum = l.length * c := by
  simp

lemma toNat_ofNat_length {n : Nat} (h : n < 2 ^ 64) : (ofNat 256 n).toNat = n := by
  rw [BitVec.toNat_ofNat, Nat.mod_eq_of_lt (h.trans (by decide))]

namespace RemascEnv

variable {env : RemascEnv} {hash : B256}

lemma federator_shares (total : Nat) : ∀ {n : Nat}, 0 < n →
  ((range n).map fun i => if i + 1 = n then total / n + total % n else total / n).sum = total
  | n + 1, _ => by
    have hinit : ((range n).map fun i => if i + 1 = n + 1 then
        total / (n + 1) + total % (n + 1) else total / (n + 1)) =
        (range n).map fun _ => total / (n + 1) := by
      refine map_congr_left fun i hi => if_neg ?_
      have := mem_range.mp hi
      omega
    rw [range_succ, map_append, sum_append, hinit, sum_map_const, length_range]
    simp only [map_cons, map_nil, sum_cons, sum_nil, if_true, Nat.add_zero]
    have := Nat.div_add_mod total (n + 1)
    rw [Nat.add_mul, Nat.one_mul] at this
    omega

lemma payToFederation_settled {n m : UInt64} {price reward : U256} {j : Journal}
  (hsome : env.federators j n m ≠ []) (hlen : (env.federators j n m).length < 2 ^ 64)
  (hgate : env.config.rskip85ActivationHeight ≤ m ∨ j.remascWord federationBalanceKey = 0)
  (hfits : j.books + reward.toNat < 2 ^ 256) :
  (env.payToFederation hash n m price reward j).1 = reward / env.config.federationDivisor ∧
    Settled env.miningFeeTopic hash j (reward / env.config.federationDivisor).toNat
      (env.payToFederation hash n m price reward j).2 := by
  unfold payToFederation
  dsimp only
  generalize hfederators : env.federators j n m = federators at hsome hlen
  set share := reward / env.config.federationDivisor with hshare
  have hshareLe : share.toNat ≤ reward.toNat := by
    rw [hshare, toNat_udiv]
    exact Nat.div_le_self ..
  have hfed : (j.remascWord federationBalanceKey).toNat ≤ j.books := by rw [books]; omega
  have htotal : (j.remascWord federationBalanceKey + share).toNat =
      (j.remascWord federationBalanceKey).toNat + share.toNat := by
    rw [toNat_add, Nat.mod_eq_of_lt (by omega)]
  have hkeep : Settled env.miningFeeTopic hash j share.toNat
      (j.remascSstore federationBalanceKey (j.remascWord federationBalanceKey + share)) := by
    have := books_storeFederation j (j.remascWord federationBalanceKey + share)
    exact ⟨[], .store _ _ (.done _), by rw [paymentTotal_nil]; omega⟩
  have hnonempty : ¬ federators.isEmpty = true := by simpa using hsome
  rw [if_neg hnonempty]
  split
  · exact ⟨rfl, hkeep⟩
  rename_i hpays
  refine ⟨rfl, ?_⟩
  dsimp only
  set payTotal := j.remascWord federationBalanceKey + share with hpayTotal
  set count := ofNat 256 federators.length with hcount
  have hcountNat : count.toNat = federators.length := toNat_ofNat_length hlen
  -- The journal the federators are paid from has no federation balance left.
  set paid := (if env.config.rskip85ActivationHeight ≤ m then
    j.remascSstore federationBalanceKey 0 else j) with hpaid
  have hstart : Pays env.miningFeeTopic hash j [] paid ∧
      paid.books + (j.remascWord federationBalanceKey).toNat = j.books := by
    rw [hpaid]
    split
    · have := books_storeFederation j 0
      exact ⟨.store _ _ (.done _), by simpa using this⟩
    rename_i hearly
    have hzero := hgate.resolve_left hearly
    exact ⟨.done j, by simp [hzero]⟩
  obtain ⟨hfirst, hbooks⟩ := hstart
  have hsum : (payTotal / count + payTotal % count).toNat =
      payTotal.toNat / federators.length + payTotal.toNat % federators.length := by
    rw [toNat_add, toNat_udiv, toNat_umod, hcountNat, Nat.mod_eq_of_lt]
    have h1 := Nat.div_add_mod payTotal.toNat federators.length
    have h2 := payTotal.isLt
    have h3 : 1 * (payTotal.toNat / federators.length) ≤
        federators.length * (payTotal.toNat / federators.length) :=
      Nat.mul_le_mul_right _ (length_pos_iff.mpr hsome)
    omega
  let value (entry : Address × Nat) : U256 :=
    if entry.2 + 1 = federators.length then payTotal / count + payTotal % count
    else payTotal / count
  have hloop := @foldl_settled env.miningFeeTopic hash (Address × Nat)
    (fun j entry => j.payMiningFees env.miningFeeTopic hash entry.1 (value entry))
    (fun entry => (value entry).toNat) (2 ^ 257) federators.zipIdx paid
    fun j entry _ _ => payMiningFees_settled j _ _
  have hshares : (federators.zipIdx.map fun entry => (value entry).toNat).sum =
      payTotal.toNat := by
    have hmap : federators.zipIdx.map Prod.snd = List.range federators.length := by
      rw [zipIdx_map_snd, range_eq_range']
    refine Eq.trans ?_ (federator_shares payTotal.toNat (length_pos_iff.mpr hsome))
    rw [← hmap, List.map_map]
    refine congrArg sum (map_congr_left fun entry _ => ?_)
    simp only [value, Function.comp_apply]
    split
    · exact hsum
    · rw [toNat_udiv, hcountNat]
  rw [hshares] at hloop
  dsimp only [value] at hloop
  have hpayLt := payTotal.isLt
  obtain ⟨ps, hps, heq⟩ := hloop (by
    have : paid.books < 2 ^ 256 := by omega
    omega)
  exact ⟨ps, hfirst.trans hps, by omega⟩

/-- **The split loses nothing**: shares, remainders and punishments add up to the reward. -/
theorem calculate_sum (config : RemascConfig) (reward : U256) (broken : Bool) {n : Nat}
  (hn : 0 < n) (hlen : n + 1 < 2 ^ 64) :
  let split := SiblingPayment.calculate config reward broken n
  n * split.individualPublisherReward.toNat + split.publishersSurplus.toNat +
      split.minersSurplus.toNat + n * split.individualMinerReward.toNat +
      (n + 1) * split.punishment.toNat + split.individualMinerReward.toNat = reward.toNat ∧
    2 * split.individualMinerReward.toNat ≤ reward.toNat ∧
    (broken = false → split.punishment = 0) := by
  intro split
  set publishers := reward / config.publishersDivisor with hpublishers
  set base := (reward - publishers) / (ofNat 256 n + 1) with hbase
  have hcount : (ofNat 256 n).toNat = n := toNat_ofNat_length (by omega)
  have hcountSucc : (ofNat 256 n + 1).toNat = n + 1 := by
    rw [toNat_add, hcount]
    exact Nat.mod_eq_of_lt (hlen.trans (by decide))
  have hpublishersLe : publishers ≤ reward := by
    rw [le_def, hpublishers, toNat_udiv]
    exact Nat.div_le_self ..
  have hminers : (reward - publishers).toNat = reward.toNat - publishers.toNat :=
    toNat_sub_of_le hpublishersLe
  have hpunishmentLe : split.punishment ≤ base := by
    show (if broken = true then base / config.punishmentDivisor else 0) ≤ base
    rw [le_def]
    split
    · rw [toNat_udiv]
      exact Nat.div_le_self ..
    · exact Nat.zero_le _
  have hminer : split.individualMinerReward.toNat = base.toNat - split.punishment.toNat :=
    toNat_sub_of_le hpunishmentLe
  have hpublisher : split.individualPublisherReward.toNat = publishers.toNat / n := by
    show (publishers / ofNat 256 n).toNat = _
    rw [toNat_udiv, hcount]
  have hpublishersSurplus : split.publishersSurplus.toNat = publishers.toNat % n := by
    show (publishers % ofNat 256 n).toNat = _
    rw [toNat_umod, hcount]
  have hbaseNat : base.toNat = (reward.toNat - publishers.toNat) / (n + 1) := by
    rw [hbase, toNat_udiv, hminers, hcountSucc]
  have hminersSurplus : split.minersSurplus.toNat =
      (reward.toNat - publishers.toNat) % (n + 1) := by
    show ((reward - publishers) % (ofNat 256 n + 1)).toNat = _
    rw [toNat_umod, hminers, hcountSucc]
  have hpublishersSum := Nat.div_add_mod publishers.toNat n
  have hminersSum := Nat.div_add_mod (reward.toNat - publishers.toNat) (n + 1)
  rw [← hpublisher, ← hpublishersSurplus] at hpublishersSum
  rw [← hbaseNat, ← hminersSurplus] at hminersSum
  have hpublishersNat := le_def.mp hpublishersLe
  have hpunishmentNat := le_def.mp hpunishmentLe
  have hbaseSum : (n + 1) * base.toNat = n * split.individualMinerReward.toNat +
      (n + 1) * split.punishment.toNat + split.individualMinerReward.toNat := by
    have hsum : base.toNat = split.individualMinerReward.toNat + split.punishment.toNat := by omega
    rw [hsum]
    ring
  have htwice : 2 * base.toNat ≤ (n + 1) * base.toNat := Nat.mul_le_mul_right _ (by omega)
  refine ⟨by omega, by omega, ?_⟩
  rintro rfl
  rfl

variable {j : Journal}

lemma sibling_settled (hpos : env.config.Positive) {miner : U256} {coinbase : Address}
  {late : UInt64} (hlate : late.toNat ≤ 6) (hsmall : 6 * miner.toNat < 2 ^ 256)
  (hfits : j.books + miner.toNat < 2 ^ 256) : Settled env.miningFeeTopic hash j miner.toNat
    ((j.payMiningFees env.miningFeeTopic hash coinbase (miner - miner *
      ofNat 256 late.toNat / env.config.lateUncleInclusionPunishmentDivisor)).addToBurned
      (miner * ofNat 256 late.toNat / env.config.lateUncleInclusionPunishmentDivisor)) := by
  set charge := miner * ofNat 256 late.toNat /
    env.config.lateUncleInclusionPunishmentDivisor with hcharge
  have hk : (ofNat 256 late.toNat).toNat = late.toNat := toNat_ofNat_length (by omega)
  have hmul : miner.toNat * late.toNat ≤ miner.toNat * 6 := Nat.mul_le_mul_left _ hlate
  have hle : charge ≤ miner := by
    rw [le_def, hcharge, toNat_udiv, toNat_mul, hk,
      Nat.mod_eq_of_lt (by omega)]
    calc miner.toNat * late.toNat / env.config.lateUncleInclusionPunishmentDivisor.toNat
        ≤ miner.toNat * 6 / env.config.lateUncleInclusionPunishmentDivisor.toNat :=
          Nat.div_le_div_right hmul
      _ ≤ miner.toNat * 6 / 6 := Nat.div_le_div_left hpos.late (by omega)
      _ = miner.toNat := Nat.mul_div_cancel _ (by omega)
  have hnat := le_def.mp hle
  have hpay := @payMiningFees_settled env.miningFeeTopic hash j coinbase (miner - charge)
  rw [toNat_sub_of_le hle] at hpay
  have hburn := hpay.trans (@addToBurned_settled env.miningFeeTopic hash _ charge (by
    rw [books_payMiningFees]; omega))
  rwa [Nat.sub_add_cancel hnat] at hburn

lemma payWithSiblings_settled (hpos : env.config.Positive) {processing : Header} {reward : U256}
  {siblings : List Sibling} {broken : Bool} (hsome : siblings ≠ [])
  (hlen : siblings.length + 1 < 2 ^ 64) (hlate : ∀ sibling ∈ siblings,
    (saturatingSub64 sibling.includedHeight (processing.number + 1)).toNat ≤ 6)
  (hfits : 3 * (j.books + reward.toNat) < 2 ^ 256) : Settled env.miningFeeTopic hash j reward.toNat
    (env.payWithSiblings hash processing reward siblings broken j) := by
  obtain ⟨hsum, hhalf, hunbroken⟩ := calculate_sum env.config reward broken
    (length_pos_iff.mpr hsome) hlen
  unfold payWithSiblings
  dsimp only at hsum hhalf hunbroken ⊢
  generalize SiblingPayment.calculate env.config reward broken siblings.length = split at *
  -- Publishers, then what does not divide.
  have h1 := @foldl_settled env.miningFeeTopic hash Sibling
    (fun j sibling => j.payMiningFees env.miningFeeTopic hash sibling.includedBlockCoinbase
      split.individualPublisherReward)
    (fun _ => split.individualPublisherReward.toNat) (2 ^ 256) siblings j
    (fun j sibling _ _ => payMiningFees_settled j _ _) (by rw [sum_map_const]; omega)
  rw [sum_map_const] at h1
  generalize siblings.foldl _ j = j1 at h1 ⊢
  have hb1 := h1.books_le
  have h2 := h1.trans (@addToBurned_settled env.miningFeeTopic hash j1 split.publishersSurplus
    (by omega))
  have hb2 := h2.books_le
  have h3 := h2.trans (@addToBurned_settled env.miningFeeTopic hash _ split.minersSurplus
    (by omega))
  generalize (j1.addToBurned split.publishersSurplus).addToBurned split.minersSurplus = j3 at h3 ⊢
  have hb3 := h3.books_le
  -- The siblings' miners.
  have h4 := h3.trans (@foldl_settled env.miningFeeTopic hash Sibling
    (fun j sibling =>
      (j.payMiningFees env.miningFeeTopic hash sibling.coinbase
        (split.individualMinerReward - split.individualMinerReward *
          ofNat 256 (saturatingSub64 sibling.includedHeight (processing.number + 1)).toNat /
          env.config.lateUncleInclusionPunishmentDivisor)).addToBurned
        (split.individualMinerReward * ofNat 256 (saturatingSub64 sibling.includedHeight
          (processing.number + 1)).toNat / env.config.lateUncleInclusionPunishmentDivisor))
    (fun _ => split.individualMinerReward.toNat) (2 ^ 256) siblings j3
    (fun j sibling hmem hj => sibling_settled hpos (hlate sibling hmem) (by omega) hj)
    (by rw [sum_map_const]; omega))
  rw [sum_map_const] at h4
  generalize siblings.foldl _ j3 = j4 at h4 ⊢
  have hb4 := h4.books_le
  -- The punishment of every miner, if the rule was broken before.
  have hpunished : Settled env.miningFeeTopic hash j4
      ((siblings.length + 1) * split.punishment.toNat)
      (if broken = true then
        j4.addToBurned (split.punishment * ofNat 256 (siblings.length + 1)) else j4) := by
    cases broken with
    | false =>
      rw [hunbroken rfl]
      exact ⟨[], .done j4, by simp⟩
    | true =>
      have hproduct : (split.punishment * ofNat 256 (siblings.length + 1)).toNat =
          (siblings.length + 1) * split.punishment.toNat := by
        rw [toNat_mul, toNat_ofNat_length hlen, Nat.mul_comm, Nat.mod_eq_of_lt (by omega)]
      rw [if_pos rfl, ← hproduct]
      exact addToBurned_settled j4 (by omega)
  have hall := (h4.trans hpunished).trans (payMiningFees_settled _ processing.beneficiary
    split.individualMinerReward)
  rwa [show siblings.length * split.individualPublisherReward.toNat +
    split.publishersSurplus.toNat + split.minersSurplus.toNat +
    siblings.length * split.individualMinerReward.toNat +
    (siblings.length + 1) * split.punishment.toNat + split.individualMinerReward.toNat =
    reward.toNat from hsum] at hall

/-- **The payments of a distribution settle the synthetic reward.** -/
theorem distribute_settled (hpos : env.config.Positive) {processing : Header}
  {siblings : List Sibling} {broken : Bool} {n m : UInt64} {price reward : U256} {j : Journal}
  (hfederators : ∀ j, env.federators j n m ≠ [] ∧ (env.federators j n m).length < 2 ^ 64)
  (hgate : env.config.rskip85ActivationHeight ≤ m ∨ j.remascWord federationBalanceKey = 0)
  (hlen : siblings.length + 1 < 2 ^ 64) (hlate : ∀ sibling ∈ siblings,
    (saturatingSub64 sibling.includedHeight (processing.number + 1)).toNat ≤ 6)
  (hfits : 3 * (j.books + reward.toNat) < 2 ^ 256) : Settled env.miningFeeTopic hash j reward.toNat
    (env.distribute hash processing siblings broken n m price reward j) := by
  unfold distribute
  dsimp only
  set labs := reward / env.config.rskLabsDivisor with hlabs
  have hlabsLe : labs ≤ reward := by
    rw [le_def, hlabs, toNat_udiv]
    exact Nat.div_le_self ..
  have hlabsNat := le_def.mp hlabsLe
  have hrest : (reward - labs).toNat = reward.toNat - labs.toNat := toNat_sub_of_le hlabsLe
  have h1 := @payMiningFees_settled env.miningFeeTopic hash j (env.config.labsAddressAt m) labs
  have hfederation : (j.payMiningFees env.miningFeeTopic hash (env.config.labsAddressAt m)
      labs).remascWord federationBalanceKey = j.remascWord federationBalanceKey := by simp
  generalize j.payMiningFees env.miningFeeTopic hash (env.config.labsAddressAt m) labs = j1 at *
  have hb1 := h1.books_le
  obtain ⟨hshare, h2⟩ := @payToFederation_settled env hash n m price (reward - labs) j1
    (hfederators j1).1 (hfederators j1).2 (by rwa [hfederation]) (by omega)
  rw [hshare]
  generalize (env.payToFederation hash n m price (reward - labs) j1).2 = j2 at *
  set share := (reward - labs) / env.config.federationDivisor with hshareDef
  have hshareLe : share ≤ reward - labs := by
    rw [le_def, hshareDef, toNat_udiv]
    exact Nat.div_le_self ..
  have hshareNat := le_def.mp hshareLe
  have hremaining : (reward - labs - share).toNat = reward.toNat - labs.toNat - share.toNat := by
    rw [toNat_sub_of_le hshareLe, hrest]
  have h12 := h1.trans h2
  have hb2 := h12.books_le
  -- The rest goes to the miner, or to the miners and publishers.
  have hrestSettled : Settled env.miningFeeTopic hash j2 (reward - labs - share).toNat
      (if siblings.isEmpty = true then
        (j2.addToBurned (if broken = true then
          (reward - labs - share) / env.config.punishmentDivisor else 0)).payMiningFees
          env.miningFeeTopic hash processing.beneficiary (reward - labs - share -
            if broken = true then (reward - labs - share) / env.config.punishmentDivisor else 0)
      else env.payWithSiblings hash processing (reward - labs - share) siblings broken j2) := by
    generalize reward - labs - share = remaining at *
    split
    · generalize hpun : (if broken = true then remaining / env.config.punishmentDivisor else 0) =
        punishment
      have hle : punishment ≤ remaining := by
        rw [← hpun, le_def]
        split
        · rw [toNat_udiv]
          exact Nat.div_le_self ..
        · exact Nat.zero_le _
      have hnat := le_def.mp hle
      have hburn := @addToBurned_settled env.miningFeeTopic hash j2 punishment (by omega)
      have hpay := hburn.trans (payMiningFees_settled _ processing.beneficiary
        (remaining - punishment))
      rwa [toNat_sub_of_le hle, Nat.add_sub_cancel' hnat] at hpay
    rename_i hsome
    exact payWithSiblings_settled hpos (by simpa using hsome) hlen hlate (by omega)
  have hall := h12.trans hrestSettled
  rwa [hremaining, show labs.toNat + share.toNat +
    (reward.toNat - labs.toNat - share.toNat) = reward.toNat by omega] at hall

lemma late_of_mem_collectSiblings {current : ActivationHeights} {s : BlockStore}
  {candidate number : UInt64} {sibling : Sibling}
  (h : sibling ∈ collectSiblings current s candidate number) :
  (saturatingSub64 sibling.includedHeight (candidate + 1)).toNat ≤ 6 := by
  obtain ⟨height, hheight, hmem⟩ := mem_flatMap.mp h
  have hincluded : sibling.includedHeight = height := by
    unfold siblingsAt at hmem
    split at hmem
    · simp at hmem
    split at hmem
    · simp at hmem
    obtain ⟨ommer, -, hommer⟩ := mem_filterMap.mp hmem
    split at hommer
    · obtain rfl := some.inj hommer
      rfl
    · cases hommer
  obtain ⟨hrange, -⟩ := mem_filter.mp hheight
  obtain ⟨i, hi, rfl⟩ := mem_map.mp hrange
  have hi7 : i < 7 := mem_range.mp hi
  rw [hincluded]
  unfold saturatingSub64
  split
  · have hback : candidate + 1 + UInt64.ofNat i - (candidate + 1) = UInt64.ofNat i := by
      rw [UInt64.add_comm, UInt64.add_sub_cancel]
    rw [hback, UInt64.toNat_ofNat']
    omega
  · exact Nat.zero_le _

/-- What the distribution at height `number` meets: a matured block under its own height, a
federation, and amounts that are far from wrapping. -/
structure Matures (env : RemascEnv) (s : BlockStore) (number : UInt64) (j : Journal)
  (candidate : UInt64) (hash : B256) (processing : Header) : Prop where
  candidate_eq : candidateNumber env.config number = some candidate
  indexed : s.numbers candidate = some hash
  stored : s.headers hash = some processing
  number_eq : processing.number = candidate
  federated : ∀ j, env.federators j candidate number ≠ [] ∧
    (env.federators j candidate number).length < 2 ^ 64
  gate : env.config.rskip85ActivationHeight ≤ number ∨ j.remascWord federationBalanceKey = 0
  siblings_fit : (collectSiblings env.current s candidate number).length + 1 < 2 ^ 64
  fits : 3 * (j.books + processing.paidFees.toNat) < 2 ^ 256

/-- **A call settles the fees of the block that matured.** -/
theorem processMinersFees_settled (hpos : env.config.Positive) {s : BlockStore}
  {number candidate : UInt64} {price : U256} {j : Journal} {processing : Header}
  (h : env.Matures s number j candidate hash processing) :
  ∃ j', env.processMinersFees s number price j =
      .ok (some ⟨candidate, hash, processing.paidFees⟩, j') ∧
    Settled env.miningFeeTopic hash j processing.paidFees.toNat j' := by
  have hfits := h.fits
  have hreward : (j.remascWord rewardBalanceKey).toNat ≤ j.books := by rw [books]; omega
  have hsum : (j.remascWord rewardBalanceKey + processing.paidFees).toNat =
      (j.remascWord rewardBalanceKey).toNat + processing.paidFees.toNat := by
    rw [toNat_add, Nat.mod_eq_of_lt (by omega)]
  unfold processMinersFees
  simp only [h.candidate_eq, h.indexed, h.stored]
  generalize hbalance : j.remascWord rewardBalanceKey + processing.paidFees = balance at *
  have haccrued := books_storeReward j balance
  have hbooks : (j.remascSstore rewardBalanceKey balance).books =
      j.books + processing.paidFees.toNat := by omega
  have hstart : Settled env.miningFeeTopic hash j processing.paidFees.toNat
      (j.remascSstore rewardBalanceKey balance) :=
    ⟨[], .store _ _ (.done _), by rw [paymentTotal_nil, hbooks, Nat.zero_add]⟩
  split
  · exact ⟨_, rfl, hstart⟩
  generalize hsiblings : collectSiblings env.current s candidate number = siblings
  generalize hflag : (some [if (!siblings.isEmpty &&
    isBrokenSelectionRule env.current processing siblings) = true then (1 : UInt8) else 0]) = flag
  generalize hj1 : j.remascSstore rewardBalanceKey balance = j1 at *
  split
  · obtain ⟨ps, hps, heq⟩ := hstart
    have hraw : Pays env.miningFeeTopic hash j1 []
        (j1.putRaw remascAddr brokenSelectionRuleKey flag) := .raw _ _ (.done _)
    exact ⟨_, rfl, ps ++ [], hps.trans hraw, by simpa using heq⟩
  refine ⟨_, rfl, ?_⟩
  set reward := balance / ofNat 256 env.config.syntheticSpan.toNat with hrewardDef
  generalize hj2 : j1.putRaw remascAddr brokenSelectionRuleKey flag = j2
  have hwords : ∀ key, j2.remascWord key = j1.remascWord key := fun key => by
    rw [← hj2, remascWord_putRaw]
  have hrewardLe : reward ≤ balance := by
    rw [le_def, hrewardDef, toNat_udiv]
    exact Nat.div_le_self ..
  have hrewardNat := le_def.mp hrewardLe
  have hsame : j2.books = j1.books := by simp [books, hwords]
  -- The slice leaves the pool before it is paid out.
  have hdebit := books_storeReward j2 (balance - reward)
  have hpool : (j2.remascWord rewardBalanceKey).toNat = balance.toNat := by
    rw [hwords, ← hj1, remascWord_sstore_self]
  rw [toNat_sub_of_le hrewardLe] at hdebit
  have hfederation : (j2.remascSstore rewardBalanceKey (balance - reward)).remascWord
      federationBalanceKey = j.remascWord federationBalanceKey := by
    rw [remascWord_sstore_of_ne _ _ federation_ne_reward, hwords, ← hj1,
      remascWord_sstore_of_ne _ _ federation_ne_reward]
  generalize hj3 : j2.remascSstore rewardBalanceKey (balance - reward) = j3 at *
  obtain ⟨ps, hps, heq⟩ := @distribute_settled env hash hpos processing siblings
    (decide (j1.remascWord brokenSelectionRuleKey ≠ 0)) candidate number price reward j3
    h.federated (by rw [hfederation]; exact h.gate) (hsiblings ▸ h.siblings_fit)
    (fun sibling hmem => by
      rw [h.number_eq]
      exact late_of_mem_collectSiblings (hsiblings ▸ hmem)) (by omega)
  refine ⟨ps, ?_, by omega⟩
  refine .store rewardBalanceKey balance ?_
  rw [hj1]
  refine .raw brokenSelectionRuleKey flag ?_
  rw [hj2]
  refine .store rewardBalanceKey (balance - reward) ?_
  rw [hj3]
  exact hps

def unmatured (env : RemascEnv) (chain : List Header) : Nat :=
  ((chain.dropLast.take env.config.maturity.toNat).map (·.paidFees.toNat)).sum

/-- Block `h` on top of `chain`: when its REMASC transaction runs, the account has been
credited with its fees, the books are as the last block left them, and the store indexes the
chain by height. -/
structure FeeBlock (env : RemascEnv) (chain : List Header) (j : Journal) (h : Header)
  (s : BlockStore) (credited : Journal) : Prop where
  number : h.number.toNat = chain.length
  stored : ∀ i processing, chain.reverse[i]? = some processing →
    ∃ hash, s.numbers (UInt64.ofNat i) = some hash ∧ s.headers hash = some processing
  words : ∀ key ∈ bookKeys, credited.remascWord key = j.remascWord key
  credit : (j.info remascAddr).balance.toNat + h.paidFees.toNat ≤
    (credited.info remascAddr).balance.toNat
  bounded : 3 * (credited.info remascAddr).balance.toNat < 2 ^ 256
  federated : ∀ j candidate, env.federators j candidate h.number ≠ [] ∧
    (env.federators j candidate h.number).length < 2 ^ 64
  gate : env.config.rskip85ActivationHeight ≤ h.number ∨ j.remascWord federationBalanceKey = 0
  siblings_fit : ∀ candidate,
    (collectSiblings env.current s candidate h.number).length + 1 < 2 ^ 64

inductive FeeChain (env : RemascEnv) : List Header → Journal → Prop where
  | genesis (h : Header) (j : Journal) :
      h.number = 0 → j.books ≤ (j.info remascAddr).balance.toNat → FeeChain env [h] j
  | block {chain : List Header} {j credited j' : Journal} {h : Header} {s : BlockStore}
      {price : U256} {accrual : Option Accrual} :
      FeeChain env chain j → env.FeeBlock chain j h s credited →
      env.processMinersFees s h.number price credited = .ok (accrual, j') →
      FeeChain env (h :: chain) j'

lemma candidateNumber_toNat {config : RemascConfig} {number : UInt64} :
  candidateNumber config number = if config.maturity.toNat < number.toNat then
    some (number - config.maturity) else none := by
  unfold candidateNumber
  refine if_congr ?_ rfl rfl
  rw [UInt64.le_iff_toNat_le, UInt64.le_iff_toNat_le]
  constructor
  · rintro ⟨hle, hone⟩
    rw [UInt64.toNat_sub_of_le _ _ (UInt64.le_iff_toNat_le.mpr hle)] at hone
    have : (1 : UInt64).toNat = 1 := rfl
    omega
  intro hlt
  have hle := Nat.le_of_lt hlt
  rw [UInt64.toNat_sub_of_le _ _ (UInt64.le_iff_toNat_le.mpr hle)]
  have : (1 : UInt64).toNat = 1 := rfl
  omega

variable {chain : List Header}

lemma FeeChain.number (hchain : env.FeeChain chain j) {i : Nat} {h : Header}
  (hi : chain.reverse[i]? = some h) : h.number.toNat = i := by
  induction hchain with
  | genesis g j hzero _ =>
    obtain ⟨rfl, rfl⟩ : i = 0 ∧ g = h := by
      cases i with
      | zero => exact ⟨rfl, by simpa using hi⟩
      | succ i => simp at hi
    rw [hzero]
    rfl
  | @block chain j credited j' top s price accrual hchain hblock _ ih =>
    rw [reverse_cons] at hi
    by_cases hlt : i < chain.reverse.length
    · exact ih (by rwa [getElem?_append_left hlt] at hi)
    rw [getElem?_append_right (Nat.le_of_not_lt hlt)] at hi
    have hlast : i - chain.reverse.length = 0 ∧ top = h := by
      cases hk : i - chain.reverse.length with
      | zero => rw [hk] at hi; exact ⟨rfl, by simpa using hi⟩
      | succ k => rw [hk] at hi; simp at hi
    rw [← hlast.2, hblock.number]
    rw [length_reverse] at hlast hlt
    omega

lemma FeeChain.ne_nil (h : env.FeeChain chain j) : chain ≠ [] := by cases h <;> simp

lemma unmatured_cons {chain : List Header} {h : Header} (hne : chain ≠ []) :
  env.unmatured (h :: chain) +
      ((chain.dropLast[env.config.maturity.toNat - 1]?).map (·.paidFees.toNat)).getD 0 =
    h.paidFees.toNat + env.unmatured chain := by
  have hm := env.config.maturity_pos
  unfold unmatured
  rw [dropLast_cons_of_ne_nil hne]
  obtain ⟨m, hmEq⟩ : ∃ m, env.config.maturity.toNat = m + 1 :=
    ⟨env.config.maturity.toNat - 1, by omega⟩
  rw [hmEq, take_succ_cons, map_cons, sum_cons, take_add_one,
    map_append, sum_append, Nat.add_sub_cancel]
  cases chain.dropLast[m]? with
  | none => simp
  | some h => simp; omega

lemma matured_of_length {m : Nat} (hm : 0 < m) (hlt : m < chain.length) :
  chain.dropLast[m - 1]? = chain.reverse[chain.length - m]? := by
  rw [getElem?_dropLast, if_pos (by omega), getElem?_reverse (by omega)]
  congr 1
  omega

section Block

variable {chain : List Header} {j credited : Journal} {h : Header} {s : BlockStore}

/-- **One block of a funded chain**: its distribution returns and pays what it can pay, and the
account still covers the books and the fees to come. -/
theorem FeeBlock.settles (hpos : env.config.Positive) (hchain : env.FeeChain chain j)
    (hcovered : j.books + env.unmatured chain ≤ (j.info remascAddr).balance.toNat)
    (hblock : env.FeeBlock chain j h s credited) (price : U256) : ∃ accrual j',
      env.processMinersFees s h.number price credited = .ok (accrual, j') ∧
      (∃ hash ps, Pays env.miningFeeTopic hash credited ps j' ∧
        Pays.AllFunded env.miningFeeTopic hash credited ps j') ∧
      j'.books + env.unmatured (h :: chain) ≤ (j'.info remascAddr).balance.toNat ∧
      (j'.info remascAddr).balance.toNat ≤ (credited.info remascAddr).balance.toNat := by
  have hreward := hblock.words rewardBalanceKey (by simp [bookKeys])
  have hburned := hblock.words burnedBalanceKey (by simp [bookKeys])
  have hfederation := hblock.words federationBalanceKey (by simp [bookKeys])
  have hbooks : credited.books = j.books := by
    rw [books, books, hreward, hburned, hfederation]
  have hcredit := hblock.credit
  have hcons := @unmatured_cons env chain h hchain.ne_nil
  by_cases hmature : env.config.maturity.toNat < h.number.toNat
  · -- A block matures.
    have hcandidate := @candidateNumber_toNat env.config h.number
    rw [if_pos hmature] at hcandidate
    rw [hblock.number] at hmature
    have hle : env.config.maturity ≤ h.number := by
      rw [UInt64.le_iff_toNat_le, hblock.number]
      omega
    have hnumber : (h.number - env.config.maturity).toNat =
        chain.length - env.config.maturity.toNat := by
      rw [UInt64.toNat_sub_of_le _ _ hle, hblock.number]
    rw [matured_of_length env.config.maturity_pos hmature] at hcons
    have hin : chain.length - env.config.maturity.toNat < chain.reverse.length := by
      have := env.config.maturity_pos
      rw [length_reverse]
      omega
    obtain ⟨processing, hprocessing⟩ : ∃ p,
        chain.reverse[chain.length - env.config.maturity.toNat]? = some p :=
      ⟨_, getElem?_eq_getElem hin⟩
    rw [hprocessing, map_some, getD_some] at hcons
    obtain ⟨hash, hindexed, hstored⟩ := hblock.stored _ processing hprocessing
    rw [← hnumber, UInt64.ofNat_toNat] at hindexed
    have hpnumber : processing.number = h.number - env.config.maturity :=
      UInt64.toNat_inj.mp ((hchain.number hprocessing).trans hnumber.symm)
    have hbounded := hblock.bounded
    obtain ⟨j'', hj'', ps, hps, heq⟩ := @processMinersFees_settled env hash hpos s h.number
      (h.number - env.config.maturity) price credited processing
      ⟨hcandidate, hindexed, hstored, hpnumber, fun j => hblock.federated j _,
        by rw [hfederation]; exact hblock.gate, hblock.siblings_fit _, by omega⟩
    obtain ⟨hle, hbalance⟩ := hps.balance
    exact ⟨_, j'', hj'', ⟨hash, ps, hps, hps.allFunded (by omega)⟩, by omega, hle⟩
  -- Nothing to distribute yet.
  have hnone : env.processMinersFees s h.number price credited = .ok (none, credited) := by
    have hcandidate := @candidateNumber_toNat env.config h.number
    rw [if_neg hmature] at hcandidate
    rw [processMinersFees, hcandidate]
  refine ⟨none, credited, hnone, ⟨.zero 32, [], .done _, fun pre p post hnil => by simp at hnil⟩,
    ?_, le_rfl⟩
  omega

end Block

end RemascEnv

namespace RegtestChain

/-- A state whose pool holds `pool`, the account funded with as much. -/
def pooled (pool : U256) : Journal :=
  ((Journal.start emptyWorld).setBalance remascAddr pool).remascSstore rewardBalanceKey pool

/-! ### A chain whose every block pays fees of seven -/

end RegtestChain

end Rustock
