import Rustock.Sync.TxPool

/-!
# What a sender's pending transactions cost

A transaction enters the pending index in two ways: directly, after the balance was compared with
the cost of all the sender's pending transactions, and by promotion from the queue, where no
balance is looked at. The comparison is made in wrapping arithmetic.
-/

namespace Rustock

open Lib PoolEnv List
open Lib.OrdMap (get? mem_keys get?_eq_none)

def PoolEnv.costNat (env : PoolEnv) (sender : Address) (number : UInt64) (tx : Transaction) : Nat :=
  tx.value.toNat + if env.isFree tx sender number then 0 else tx.gasPrice.toNat * tx.gasLimit.toNat

def TxMap.costNat (env : PoolEnv) (sender : Address) (number : UInt64) (m : TxMap) : Nat :=
  (m.map fun e => env.costNat sender number e.2.tx).sum

namespace PoolInner

def spending (env : PoolEnv) (number : UInt64) (s : PoolInner) (sender : Address) : Nat :=
  (s.pending.ofSender sender).costNat env sender number

def Unpromoted (env : PoolEnv) (s : PoolInner) : PoolEvent → Prop
  | .add c => ∀ p stateNonce balance, env.vet c = .ok (p, stateNonce, balance) →
    s.goesToPending p stateNonce = true →
    env.costNat p.sender p.addedBlock p.tx
        + (others s.pending p).costNat env p.sender p.addedBlock < 2 ^ 256 ∧
      get? (p.sender, nextNonce (s.pending.insert p.key p) p.sender stateNonce)
        s.queued = none
  | _ => True

def AtHead (head : PoolHead) : PoolEvent → Prop
  | .add c => c.head = .ok head
  | _ => True

section

variable {env : PoolEnv} {s : PoolInner} {head : PoolHead}

lemma baseCost_mod (sender : Address) (number : UInt64) (tx : Transaction) :
  (env.baseCost sender number tx).toNat = env.costNat sender number tx % 2 ^ 256 := by
  rw [baseCost, costNat]
  split
  · rw [Nat.add_zero, Nat.mod_eq_of_lt tx.value.isLt]
  · rw [txCost, BitVec.toNat_add, BitVec.toNat_mul, Nat.add_mod_mod]

lemma foldl_baseCost_mod (sender : Address) (number : UInt64) (m : TxMap) (start : U256) :
  ((m.map fun e => env.baseCost sender number e.2.tx).foldl (· + ·) start).toNat =
    (start.toNat + m.costNat env sender number) % 2 ^ 256 := by
  induction m generalizing start with
  | nil => simp [TxMap.costNat, Nat.mod_eq_of_lt start.isLt]
  | cons e m ih =>
    rw [map_cons, foldl_cons, ih, BitVec.toNat_add, baseCost_mod]
    simp only [TxMap.costNat, map_cons, sum_cons]
    omega

variable {p : PooledTx} {pending : TxMap}

lemma totalCost_toNat (h : env.costNat p.sender p.addedBlock p.tx
    + (others pending p).costNat env p.sender p.addedBlock < 2 ^ 256) :
  (env.totalCost pending p).toNat = env.costNat p.sender p.addedBlock p.tx
    + (others pending p).costNat env p.sender p.addedBlock := by
  rw [totalCost, foldl_baseCost_mod, baseCost_mod]
  omega

lemma costNat_perm {m m' : TxMap} (h : m.Perm m') (sender : Address) (number : UInt64) :
  m.costNat env sender number = m'.costNat env sender number :=
  (h.map _).sum_nat

lemma costNat_sublist {m m' : TxMap} (h : m.Sublist m') (sender : Address) (number : UInt64) :
  m.costNat env sender number ≤ m'.costNat env sender number :=
  (h.map _).sum_le_sum fun _ _ => Nat.zero_le _

lemma costNat_insert_self (p : PooledTx) (pending : TxMap) (number : UInt64) :
  ((pending.insert p.key p).ofSender p.sender).costNat env p.sender number =
    env.costNat p.sender number p.tx + (others pending p).costNat env p.sender number := by
  have hperm : ((pending.insert p.key p).ofSender p.sender).Perm
      ((p.key, p) :: others pending p) := by
    refine ((perm_orderedInsert _ _ _).filter _).trans ?_
    rw [filter_cons_of_pos (by simp), OrdMap.erase, filter_filter, others]
    refine List.Perm.of_eq (congrArg _ (filter_congr fun e _ => ?_))
    by_cases hs : e.1.1 = p.sender <;> simp [hs, Prod.ext_iff]
  rw [costNat_perm hperm]
  rfl

variable {sender : Address}

lemma costNat_insert_of_ne (number : UInt64) (hne : sender ≠ p.sender) :
  ((pending.insert p.key p).ofSender sender).costNat env sender number =
    (pending.ofSender sender).costNat env sender number := by
  have hperm : ((pending.insert p.key p).ofSender sender).Perm
      (pending.ofSender sender) := by
    refine ((perm_orderedInsert _ _ _).filter _).trans ?_
    rw [filter_cons_of_neg (by simpa using Ne.symm hne), OrdMap.erase, filter_filter,
      TxMap.ofSender]
    refine List.Perm.of_eq (filter_congr fun e _ => ?_)
    by_cases hs : e.1.1 = sender
    · simp [hs, Prod.ext_iff, hne]
    · simp [hs]
  exact costNat_perm hperm _ _

lemma foldl_pending_sublist {α : Type*} {f : PoolInner → α → PoolInner}
  (hf : ∀ s a, (f s a).pending.Sublist s.pending) (l : List α) (s : PoolInner) :
  (l.foldl f s).pending.Sublist s.pending := by
  induction l generalizing s with
  | nil => exact List.Sublist.refl _
  | cons a l ih => exact (ih _).trans (hf s a)

lemma pending_sublist_of_removal {e : PoolEvent} (h : ∀ c, e ≠ .add c) :
  (s.apply env e).pending.Sublist s.pending := by
  cases e with
  | add c => exact absurd rfl (h c)
  | removeMined transactions =>
    exact foldl_pending_sublist (fun s _ => (removeByHash_sublist s _ _).1) _ _
  | removeByHashes hashes =>
    refine foldl_pending_sublist (fun s hash => ?_) _ _
    split
    · exact List.Sublist.refl _
    · exact (removeByHash_sublist s _ _).1
  | evictOutdated currentBlock now =>
    exact foldl_pending_sublist (fun s x => filter_sublist) _ _

variable {stateNonce : UInt64}

lemma promoteQueued_of_none
  (h : get? (sender, nextNonce s.pending sender stateNonce) s.queued = none) :
  (s.promoteQueued sender stateNonce).pending = s.pending := by
  rw [promoteQueued]
  cases s.queued.length with
  | zero => rfl
  | succ fuel =>
    rw [promoteLoop, h]

lemma addTransaction_pending {c : AddCall} (hunpromoted : Unpromoted env s (.add c))
  {balance : U256} (hvet : env.vet c = .ok (p, stateNonce, balance)) :
  (s.addTransaction env c).2.pending = s.pending ∨
    (s.addTransaction env c).2.pending = s.pending.insert p.key p ∧
      env.costNat p.sender p.addedBlock p.tx
        + (others s.pending p).costNat env p.sender p.addedBlock ≤ balance.toNat := by
  rw [addTransaction, hvet]
  dsimp only
  rw [place]
  split
  · exact Or.inl rfl
  split
  · exact Or.inl rfl
  rename_i s' hs'
  obtain ⟨hpending, hqueued⟩ := makeRoom_sub hs'
  have hside : s'.goesToPending p stateNonce = s.goesToPending p stateNonce := by
    rw [goesToPending, goesToPending, hpending]
  split
  · exact Or.inl hpending
  rename_i old hsettle
  cases hgo : s.goesToPending p stateNonce with
  | false =>
    refine Or.inl ?_
    rw [accept.eq_def, hside, hgo]
    exact hpending
  | true =>
    obtain ⟨hrange, hnext⟩ := hunpromoted p stateNonce balance hvet hgo
    refine Or.inr ⟨?_, ?_⟩
    · rw [accept.eq_def, hside, hgo, if_pos rfl, promoteQueued_of_none]
      · rw [hpending]
      rw [hpending]
      rw [get?_eq_none] at hnext ⊢
      intro hk
      obtain ⟨q, hq⟩ := mem_keys.mp hk
      exact hnext (mem_keys.mpr ⟨q, hqueued _ hq⟩)
    rw [settle, hside, hgo, hpending] at hsettle
    split at hsettle
    · cases hsettle
    split at hsettle
    · cases hsettle
    rename_i hfunds
    rw [← totalCost_toNat hrange]
    simp only [Bool.true_and, decide_eq_true_eq] at hfunds
    exact BitVec.le_def.mp (BitVec.not_lt.mp hfunds)

/-- **Pending transactions are affordable.** In every run of calls at one head whose additions
promote nothing and reach no total of `2 ^ 256`, every sender can pay for its pending
transactions. -/
theorem spending_le_balance_of_run {hist : List (PoolInner × PoolEvent)}
  (hrun : Run (Step env) empty hist s) (hhead : ∀ x ∈ hist, AtHead head x.2)
  (hunpromoted : ∀ x ∈ hist, Unpromoted env x.1 x.2) (sender : Address) :
  s.spending env head.header.number sender ≤ (head.accountState sender).2.toNat := by
  refine @Run.invariant _ _ _ _ _ _ (fun s e => AtHead head e ∧ Unpromoted env s e)
    (fun _ s => ∀ sender, s.spending env head.header.number sender ≤
      (head.accountState sender).2.toNat) ?_ ?_ hrun
    (fun x hx => ⟨hhead x hx, hunpromoted x hx⟩) sender
  · intro sender
    exact Nat.zero_le _
  intro hist s e s' hs he hstep sender
  obtain rfl : s' = s.apply env e := hstep
  obtain ⟨hat, hunp⟩ := he
  by_cases hadd : ∃ c, e = .add c
  · obtain ⟨c, rfl⟩ := hadd
    cases hvet : env.vet c with
    | error err =>
      rw [apply, addTransaction, hvet]
      exact hs sender
    | ok found =>
      obtain ⟨p, stateNonce, balance⟩ := found
      obtain ⟨hnumber, haccount⟩ := (vet_eq_ok hvet).2 head hat
      rw [apply, spending]
      rcases addTransaction_pending hunp hvet with hsame | ⟨hinsert, hpays⟩
      · rw [hsame]
        exact hs sender
      rw [hinsert]
      by_cases hsender : sender = p.sender
      · rw [hsender, costNat_insert_self, ← hnumber, ← haccount]
        exact hpays
      rw [costNat_insert_of_ne _ hsender]
      exact hs sender
  refine le_trans (costNat_sublist (List.Sublist.filter _ ?_) _ _) (hs sender)
  exact pending_sublist_of_removal fun c hc => hadd ⟨c, hc⟩

end

end PoolInner

namespace PoolExample

open PoolInner

def poor : PoolHead :=
  ⟨{ Header.unmined (.zero 32) 1 with gasLimit := 1000000 }, fun _ => (0, 30000)⟩

def poorOffer (nonce gasPrice : UInt8) : AddCall := { offer nonce gasPrice with head := .ok poor }

def queuedFirst : PoolInner := (empty.addTransaction env (poorOffer 1 1)).2

def wrappingEnv : PoolEnv :=
  { env with
    decode := fun _ => .ok { transfer 0 1 with value := BitVec.ofNat 256 (2 ^ 256 - 21000) } }

end PoolExample

open PoolExample PoolInner in
/-- A transaction with a gap before it is queued without a look at the total; when the gap closes it
is promoted, and the two cost more than there is. And a cost that wraps to zero is affordable. -/
theorem promoted_beyond_balance :
  (queuedFirst.addTransaction env (poorOffer 0 1)).1 = .ok (.ofBytes 32 [0xC2, 0, 1]) ∧
    (queuedFirst.addTransaction env (poorOffer 0 1)).2.spending env 1 alice = 42000 ∧
    (empty.addTransaction wrappingEnv (poorOffer 0 1)).2.spending wrappingEnv 1 alice = 2 ^ 256 ∧
    (poor.accountState alice).2.toNat = 30000 := by
  decide +kernel

open PoolExample PoolInner in
/-- One transaction. -/
theorem spending_le_balance_of_run_one :
  Run (Step env) empty [(empty, .add (poorOffer 0 1))] (empty.apply env (.add (poorOffer 0 1))) ∧
    (empty.apply env (.add (poorOffer 0 1))).spending env 1 alice ≤ 30000 := by
  have hrun : Run (Step env) empty [(empty, .add (poorOffer 0 1))]
      (empty.apply env (.add (poorOffer 0 1))) := Run.init.step rfl
  have hunpromoted : Unpromoted env empty (.add (poorOffer 0 1)) := by
    intro p stateNonce balance hp _
    have hvet : env.vet (poorOffer 0 1) = .ok
        (⟨transfer 0 1, .ofBytes 32 [0xC2, 0, 1], alice, 1, 0, 3⟩, 0, 30000) := by rfl
    obtain ⟨rfl, rfl, rfl⟩ := by simpa using hvet.symm.trans hp
    exact ⟨by decide +kernel, rfl⟩
  have hle := @spending_le_balance_of_run env _ poor _ hrun (by simp [AtHead, poorOffer])
    (by simpa using hunpromoted) alice
  exact ⟨hrun, hle⟩

end Rustock
