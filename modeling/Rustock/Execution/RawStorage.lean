import Rustock.Execution.Journal

/-!
# Raw storage and reverted calls

`RawStorage` (crates/execution/src/raw_storage.rs) holds the cells the Bridge and REMASC write
with `addStorageBytes`. They bypass the EVM journal and have a commit discipline of their own:
a precompile call commits its writes when it succeeds (precompiles.rs), a failed
transaction drops all of its own (executor.rs). Nothing happens when an
EVM frame in between reverts.
-/

namespace Rustock

open Lib List

/-- `none` deletes the cell. -/
structure RawWrite where
  address : Address
  key : U256
  value : Option Bytes
deriving DecidableEq

/-- The reader is the parent state's cells. -/
structure RawStorage where
  committed : List RawWrite
  pending : List RawWrite
  txStart : Nat
  parent : Address → U256 → Option Bytes

def lastWrite (writes : List RawWrite) (a : Address) (k : U256) : Option (Option Bytes) :=
  (writes.reverse.find? fun w => w.address = a ∧ w.key = k).map (·.value)

/-- An empty value deletes. -/
def RawWrite.normalized (w : RawWrite) : RawWrite := { w with value := w.value.filter (!·.isEmpty) }

namespace RawStorage

def start (parent : Address → U256 → Option Bytes) : RawStorage := ⟨[], [], 0, parent⟩

variable (s : RawStorage)

/-- The pending call's writes, then the committed ones, newest first. -/
def getOverlay (a : Address) (k : U256) : Option (Option Bytes) :=
  (lastWrite s.pending a k).orElse fun _ => lastWrite s.committed a k

def get (a : Address) (k : U256) : Option Bytes := (s.getOverlay a k).getD (s.parent a k)

def put (w : RawWrite) : RawStorage := { s with pending := s.pending ++ [w.normalized] }

def commitCall : RawStorage := { s with committed := s.committed ++ s.pending, pending := [] }

def discardCall : RawStorage := { s with pending := [] }

def beginTx : RawStorage := { s with txStart := s.committed.length }

def discardTx : RawStorage := { s with committed := s.committed.take s.txStart, pending := [] }

end RawStorage

open RawStorage

/-- A transaction: EVM frames that succeed or revert, over Bridge and REMASC calls that
succeed or fail after the writes they made. -/
inductive CallTree where
  | precompile (writes : List RawWrite) (succeeds : Bool)
  | frame (calls : List CallTree) (succeeds : Bool)

namespace CallTree

def succeeds : CallTree → Bool
  | precompile _ ok => ok
  | frame _ ok => ok

mutual

def exec : CallTree → RawStorage → RawStorage
  | precompile writes ok, s =>
    let s := writes.foldl put s
    if ok then s.commitCall else s.discardCall
  | frame calls _, s => execAll calls s

def execAll : List CallTree → RawStorage → RawStorage
  | [], s => s
  | call :: calls, s => execAll calls (exec call s)

end

def runTx (s : RawStorage) (tx : CallTree) : RawStorage :=
  let s := tx.exec s.beginTx
  if tx.succeeds then s else s.discardTx

mutual

def effective : CallTree → List RawWrite
  | precompile writes ok => if ok then writes.map RawWrite.normalized else []
  | frame calls ok => if ok then effectiveAll calls else []

def effectiveAll : List CallTree → List RawWrite
  | [] => []
  | call :: calls => effective call ++ effectiveAll calls

end

mutual

def succeeded : CallTree → List RawWrite
  | precompile writes ok => if ok then writes.map RawWrite.normalized else []
  | frame calls _ => succeededAll calls

def succeededAll : List CallTree → List RawWrite
  | [] => []
  | call :: calls => succeeded call ++ succeededAll calls

end

variable (tx : CallTree)

def contributed : List RawWrite := if tx.succeeds then tx.succeeded else []

mutual

def Clean : CallTree → Prop
  | precompile _ _ => True
  | frame calls ok => if ok then CleanAll calls else succeededAll calls = []

def CleanAll : List CallTree → Prop
  | [] => True
  | call :: calls => Clean call ∧ CleanAll calls

end

lemma foldl_put (writes : List RawWrite) (s : RawStorage) : writes.foldl put s =
    { s with pending := s.pending ++ writes.map RawWrite.normalized } := by
  induction writes generalizing s with
  | nil => simp
  | cons w writes ih => simp [ih, put]

mutual

lemma exec_eq (t : CallTree) (s : RawStorage) (hpending : s.pending = []) :
  t.exec s = { s with committed := s.committed ++ t.succeeded } := by
  cases t with
  | precompile writes ok =>
    rw [exec, foldl_put]
    cases ok <;> simp [commitCall, discardCall, succeeded, hpending]
  | frame calls ok =>
    rw [exec, succeeded]
    exact execAll_eq calls s hpending

lemma execAll_eq (calls : List CallTree) (s : RawStorage) (hpending : s.pending = []) :
  execAll calls s = { s with committed := s.committed ++ succeededAll calls } := by
  cases calls with
  | nil => simp [execAll, succeededAll]
  | cons call calls =>
    have hrest := execAll_eq calls { s with committed := s.committed ++ call.succeeded } hpending
    rw [execAll, exec_eq call s hpending, hrest]
    simp [succeededAll]

end

lemma runTx_eq (s : RawStorage) (hpending : s.pending = []) : runTx s tx =
    { s with committed := s.committed ++ tx.contributed, txStart := s.committed.length } := by
  have hexec := exec_eq tx s.beginTx hpending
  unfold runTx contributed
  rw [hexec]
  cases htx : tx.succeeds with
  | true => simp [beginTx]
  | false => simp [beginTx, discardTx, hpending]

mutual

lemma length_effective_le (t : CallTree) : t.effective.length ≤ t.succeeded.length := by
  cases t with
  | precompile writes ok => rw [effective, succeeded]
  | frame calls ok =>
    rw [effective, succeeded]
    cases ok with
    | true => exact length_effectiveAll_le calls
    | false => simp

lemma length_effectiveAll_le (calls : List CallTree) :
  (effectiveAll calls).length ≤ (succeededAll calls).length := by
  cases calls with
  | nil => simp [effectiveAll]
  | cons call calls =>
    have hcall := length_effective_le call
    have hcalls := length_effectiveAll_le calls
    rw [effectiveAll, succeededAll, length_append, length_append]
    omega

end

mutual

lemma succeeded_eq_effective_iff (t : CallTree) : t.succeeded = t.effective ↔ t.Clean := by
  cases t with
  | precompile writes ok => simp [succeeded, effective, Clean]
  | frame calls ok =>
    rw [succeeded, effective, Clean]
    cases ok with
    | true => exact succeededAll_eq_effectiveAll_iff calls
    | false => simp

lemma succeededAll_eq_effectiveAll_iff (calls : List CallTree) :
  succeededAll calls = effectiveAll calls ↔ CleanAll calls := by
  cases calls with
  | nil => simp [succeededAll, effectiveAll, CleanAll]
  | cons call calls =>
    rw [succeededAll, effectiveAll, CleanAll, ← succeeded_eq_effective_iff call,
      ← succeededAll_eq_effectiveAll_iff calls]
    constructor
    · intro h
      -- Neither part can make up for what the other misses.
      have hlength := congrArg List.length h
      rw [length_append, length_append] at hlength
      have hcall := length_effective_le call
      have hcalls := length_effectiveAll_le calls
      exact append_inj h (by omega)
    rintro ⟨hcall, hcalls⟩
    rw [hcall, hcalls]

end

lemma contributed_eq_effective_iff :
  tx.contributed = tx.effective ↔ (tx.succeeds = true → tx.Clean) := by
  cases hok : tx.succeeds with
  | true => simp [contributed, hok, succeeded_eq_effective_iff]
  | false =>
    have hnone : tx.effective = [] := by
      cases tx with
      | precompile writes ok => simp [effective, show ok = false from hok]
      | frame calls ok => simp [effective, show ok = false from hok]
    simp [contributed, hok, hnone]

lemma foldl_runTx (txs : List CallTree) (s : RawStorage) (hpending : s.pending = []) :
  (txs.foldl runTx s).committed = s.committed ++ txs.flatMap contributed ∧
    (txs.foldl runTx s).pending = [] ∧ (txs.foldl runTx s).parent = s.parent := by
  induction txs generalizing s with
  | nil => simp [hpending]
  | cons tx txs ih =>
    rw [foldl_cons, runTx_eq tx s hpending]
    obtain ⟨hcommitted, hnone, hparent⟩ :=
      ih { s with committed := s.committed ++ tx.contributed, txStart := s.committed.length }
        hpending
    exact ⟨by simp [hcommitted], hnone, hparent⟩

/-- **The overlay after a block.** For every list of transactions it holds, in order, the
writes of the precompile calls that succeeded in transactions that succeeded, and a later
read sees the last of them or the parent state. A transaction's share is the writes of the
calls no enclosing frame reverted exactly if it failed or is clean. -/
theorem overlay_after_block (parent : Address → U256 → Option Bytes) (txs : List CallTree) :
  (txs.foldl runTx (.start parent)).committed = txs.flatMap contributed ∧
  (∀ a k, (txs.foldl runTx (.start parent)).get a k =
    (lastWrite (txs.flatMap contributed) a k).getD (parent a k)) ∧
  ∀ tx : CallTree, tx.contributed = tx.effective ↔ (tx.succeeds = true → tx.Clean) := by
  obtain ⟨hcommitted, hpending, hparent⟩ := foldl_runTx txs (.start parent) rfl
  refine ⟨by simpa [RawStorage.start] using hcommitted, fun a k => ?_,
    contributed_eq_effective_iff⟩
  rw [RawStorage.get, RawStorage.getOverlay, hcommitted, hpending, hparent]
  simp [lastWrite, RawStorage.start]

def caughtRevert : CallTree :=
  .frame [.frame [.precompile [⟨remascAddr, 0, some [1]⟩] true] false] true

/-- **The write of a reverted frame stays.** -/
theorem caughtRevert_keeps_write : caughtRevert.effective = [] ∧
  ([caughtRevert].foldl runTx (.start fun _ _ => none)).committed = [⟨remascAddr, 0, some [1]⟩] ∧
  ([caughtRevert].foldl runTx (.start fun _ _ => none)).get remascAddr 0 = some [1] := by
  decide

end CallTree

end Rustock
