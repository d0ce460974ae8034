import Rustock.Execution.Parallel
import Rustock.Mining.Partition

/-!
# A block's verdict and the number of threads

`execute_block_with` and the checks of the processor on what it returns
(crates/execution/src/executor.rs, processor.rs), for a block that
declares parallel sublists with RSKIP144 active. A transaction is a program over state cells that
may fail; the REMASC transaction sees the fees so far. Fees are postponed, as RSKIP144 has it.

The rule that a transaction's gas limit fits is part of the run over a whole block. With two
threads no run is over the whole block, and nothing applies the rule.

The base state is the one after the block's own maintenance.
-/

set_option linter.unusedSectionVars false

namespace Rustock.Threads

open Lib List Except CollisionTracker
open CollisionTracker (new)

/-- What the block reads of an executed transaction. -/
structure TxOut where
  gasUsed : UInt64
  fee : U256
  /-- It reached REMASC or the Bridge. -/
  reachedSequentialOnly : Bool

/-- An ordinary transaction is any program over the state; REMASC sees the fees so far. -/
inductive BlockTx (κ V ε : Type) where
  | ordinary (gasLimit : U256) (body : Prog κ V (Except ε TxOut))
  | remasc (body : U256 → Prog κ V (Except ε Unit))

/-- Why a block is rejected while it runs. -/
inductive ExecError (ε : Type) where
  | evm (error : ε)
  | tooMuchGas

/-- The outcome of `run_sublist`. -/
structure SubRun (κ V : Type) where
  runs : List (Ran κ TxOut)
  state : κ → V
  paidFees : U256

/-! ## The model -/

section Model

variable {κ V ε : Type} [LinearOrder κ]

/-- The limit fits in what the container has left. -/
def fits (blockGasLimit gas : UInt64) (gasLimit : U256) : Bool :=
  min (gas.toNat + min gasLimit.toNat (2 ^ 64 - 1)) (2 ^ 64 - 1) ≤ blockGasLimit.toNat

namespace BlockTx

def isRemasc : BlockTx κ V ε → Bool
  | ordinary _ _ => false
  | remasc _ => true

/-- The rule on the gas limit, from which REMASC is exempt. -/
def fitsIn (blockGasLimit gas : UInt64) : BlockTx κ V ε → Bool
  | ordinary gasLimit _ => fits blockGasLimit gas gasLimit
  | remasc _ => true

/-- A transaction on a state, after the fees of those before it. -/
def exec (tx : BlockTx κ V ε) (fees : U256) (s : κ → V) : Except ε (Ran κ TxOut) × (κ → V) :=
  match tx with
  | ordinary _ body =>
    let ran := body.run s
    (ran.1.result.map (⟨·, ran.1.reads, ran.1.writes⟩), ran.2)
  | remasc body =>
    let ran := (body fees).run s
    (ran.1.result.map fun _ => ⟨⟨0, 0, true⟩, ran.1.reads, ran.1.writes⟩, ran.2)

end BlockTx

/-- `run_sublist`; the fit rule is applied if `limit` is given. -/
def runTxs (limit : Option UInt64) : List (BlockTx κ V ε) → UInt64 → U256 → (κ → V) →
  Except (ExecError ε) (SubRun κ V)
  | [], _, fees, s => .ok ⟨[], s, fees⟩
  | tx :: rest, gas, fees, s =>
    if limit.all (tx.fitsIn · gas) = false then .error .tooMuchGas
    else
      match tx.exec fees s with
      | (.error e, _) => .error (.evm e)
      | (.ok ran, s) =>
        (runTxs limit rest (gas + ran.result.gasUsed) (fees + ran.result.fee) s).map fun r =>
          { r with runs := ran :: r.runs }

/-- The outcome of a block, with the accesses recorded. -/
structure BlockRun (κ V : Type) extends SubRun κ V where
  tracker : CollisionTracker κ

/-- `execute_block_with` under a number of threads. -/
def executeBlock (threads : Nat) (edges : List Int16) (blockGasLimit : UInt64)
  (txs : List (BlockTx κ V ε)) (base : κ → V) : Except (ExecError ε) (BlockRun κ V) :=
  let (parallel, sequential) := sublistRanges edges txs.length
  if threads ≤ 1 ∨ parallel.length < 2 then do
    let run ← runTxs (some blockGasLimit) txs 0 0 base
    return ⟨run, .recordAll edges .new 0 (accesses run.runs)⟩
  else do
    let outcomes ← parallel.mapM fun range => runTxs none (part txs range) 0 0 base
    let tracker := (rangeGroups parallel (outcomes.map (·.runs))).foldl
      (fun (t : CollisionTracker κ) g => t.absorb (new.recordAll edges g.1 g.2))
      new
    let root := outcomes.foldl (fun root run => commit root (run.runs, run.state)) base
    let feesCarried := (outcomes.map (·.paidFees)).foldl (· + ·) 0
    let last ← runTxs none (part txs sequential) 0 feesCarried root
    return ⟨{ last with runs := outcomes.flatMap (·.runs) ++ last.runs },
      tracker.recordAll edges sequential.1 (accesses last.runs)⟩

/-- A transaction of a parallel sublist reached REMASC or the Bridge. -/
def sequentialOnlyInParallel (edges : List Int16) (runs : List (Ran κ TxOut)) : Bool :=
  runs.zipIdx.any fun (ran, index) =>
    ran.result.reachedSequentialOnly && (sublistOf index edges).isSome

/-- The checks made on the accesses after the run. -/
def passes (edges : List Int16) (run : BlockRun κ V) : Bool :=
  !run.tracker.detectCollision && !sequentialOnlyInParallel edges run.runs

/-- What a node with so many threads makes of a block. -/
def verdict (threads : Nat) (edges : List Int16) (blockGasLimit : UInt64)
  (txs : List (BlockTx κ V ε)) (base : κ → V) : Option (SubRun κ V) :=
  ((executeBlock threads edges blockGasLimit txs base).toOption.filter (passes edges)).map
    (·.toSubRun)

/-- The gas rule for each transaction of a run in turn. -/
def fitsAll (blockGasLimit : UInt64) : List (BlockTx κ V ε) → List (Ran κ TxOut) → UInt64 → Bool
  | tx :: txs, ran :: runs, gas =>
    tx.fitsIn blockGasLimit gas && fitsAll blockGasLimit txs runs (gas + ran.result.gasUsed)
  | _, _, _ => true

lemma toOption_map {α β γ : Type} (f : α → β) (x : Except γ α) :
  (x.map f).toOption = x.toOption.map f := by
  cases x <;> rfl

/-! ### One transaction -/

section Step

variable {limit : Option UInt64} {tx : BlockTx κ V ε} {rest : List (BlockTx κ V ε)}
  {gas : UInt64} {fees : U256} {s s' : κ → V}

lemma runTxs_cons_unfit (hfit : limit.all (tx.fitsIn · gas) = false) :
  runTxs limit (tx :: rest) gas fees s = .error .tooMuchGas := by
  rw [runTxs, if_pos hfit]

lemma runTxs_cons_error (hfit : limit.all (tx.fitsIn · gas) = true) {e : ε}
  (h : tx.exec fees s = (.error e, s')) :
  runTxs limit (tx :: rest) gas fees s = .error (.evm e) := by
  rw [runTxs, if_neg (by simp [hfit]), h]

variable {ran : Ran κ TxOut}

lemma runTxs_cons_ok (hfit : limit.all (tx.fitsIn · gas) = true)
  (h : tx.exec fees s = (.ok ran, s')) : runTxs limit (tx :: rest) gas fees s =
    (runTxs limit rest (gas + ran.result.gasUsed) (fees + ran.result.fee) s').map fun r =>
      { r with runs := ran :: r.runs } := by
  rw [runTxs, if_neg (by simp [hfit]), h]

lemma runTxs_none_error {e : ε} (h : tx.exec fees s = (.error e, s')) :
  runTxs none (tx :: rest) gas fees s = .error (.evm e) := runTxs_cons_error rfl h

lemma runTxs_none_ok (h : tx.exec fees s = (.ok ran, s')) : runTxs none (tx :: rest) gas fees s =
    (runTxs none rest (gas + ran.result.gasUsed) (fees + ran.result.fee) s').map fun r =>
      { r with runs := ran :: r.runs } := runTxs_cons_ok rfl h

end Step

/-- **The rule only takes runs away.** -/
theorem runTxs_some (limit : UInt64) : ∀ (txs : List (BlockTx κ V ε)) (gas : UInt64) (fees : U256)
  (s : κ → V), (runTxs (some limit) txs gas fees s).toOption =
    (runTxs none txs gas fees s).toOption.filter fun r => fitsAll limit txs r.runs gas := by
  intro txs
  induction txs with
  | nil => exact fun _ _ _ => rfl
  | cons tx rest ih =>
    intro gas fees s
    rcases hexec : tx.exec fees s with ⟨e | ran, s'⟩
    · rw [runTxs_none_error hexec]
      cases hfit : (some limit).all (tx.fitsIn · gas) with
      | false =>
        rw [runTxs_cons_unfit hfit]
        rfl
      | true =>
        rw [runTxs_cons_error hfit hexec]
        rfl
    rw [runTxs_none_ok hexec, toOption_map]
    cases hfit : (some limit).all (tx.fitsIn · gas) with
    | false =>
      rw [runTxs_cons_unfit hfit]
      cases (runTxs none rest (gas + ran.result.gasUsed) (fees + ran.result.fee) s').toOption
      · rfl
      simp [Except.toOption, Option.filter, fitsAll,
        show tx.fitsIn limit gas = false from hfit]
    | true =>
      rw [runTxs_cons_ok hfit hexec, toOption_map, ih]
      cases (runTxs none rest (gas + ran.result.gasUsed) (fees + ran.result.fee) s').toOption
      · rfl
      · simp [Option.filter, fitsAll, show tx.fitsIn limit gas = true from hfit, apply_ite]

lemma runTxs_none_gas : ∀ (txs : List (BlockTx κ V ε)) (gas gas' : UInt64) (fees : U256)
  (s : κ → V), runTxs none txs gas fees s = runTxs none txs gas' fees s := by
  intro txs
  induction txs with
  | nil => exact fun _ _ _ _ => rfl
  | cons tx rest ih =>
    intro gas gas' fees s
    rcases hexec : tx.exec fees s with ⟨e | ran, s'⟩
    · rw [runTxs_none_error hexec, runTxs_none_error hexec]
    · rw [runTxs_none_ok hexec, runTxs_none_ok hexec, ih _ (gas' + ran.result.gasUsed)]

lemma runTxs_append : ∀ (xs ys : List (BlockTx κ V ε)) (gas : UInt64) (fees : U256)
  (s : κ → V), runTxs none (xs ++ ys) gas fees s =
    (runTxs none xs gas fees s).bind fun r => (runTxs none ys 0 r.paidFees r.state).map fun r' =>
      { r' with runs := r.runs ++ r'.runs } := by
  intro xs
  induction xs with
  | nil =>
    intro ys gas fees s
    rw [nil_append, runTxs_none_gas ys gas 0]
    simp only [runTxs, Except.bind]
    cases runTxs none ys 0 fees s <;> rfl
  | cons tx rest ih =>
    intro ys gas fees s
    rw [cons_append]
    rcases hexec : tx.exec fees s with ⟨e | ran, s'⟩
    · rw [runTxs_none_error hexec, runTxs_none_error hexec]
      rfl
    rw [runTxs_none_ok hexec, runTxs_none_ok hexec, ih]
    cases runTxs none rest (gas + ran.result.gasUsed) (fees + ran.result.fee) s' with
    | error e => rfl
    | ok r =>
      simp only [Except.bind, Except.map]
      cases runTxs none ys 0 r.paidFees r.state <;> rfl

lemma runTxs_marks {limit : Option UInt64} : ∀ {txs : List (BlockTx κ V ε)} {gas : UInt64}
  {fees : U256} {s : κ → V} {r : SubRun κ V}, runTxs limit txs gas fees s = .ok r →
  List.Forall₂ (fun (tx : BlockTx κ V ε) (ran : Ran κ TxOut) =>
    tx.isRemasc = true → ran.result.reachedSequentialOnly = true) txs r.runs := by
  intro txs
  induction txs with
  | nil =>
    intro gas fees s r h
    obtain rfl := ok.inj h
    exact .nil
  | cons tx rest ih =>
    intro gas fees s r h
    cases hfit : limit.all (tx.fitsIn · gas) with
    | false =>
      rw [runTxs_cons_unfit hfit] at h
      cases h
    | true =>
      rcases hexec : tx.exec fees s with ⟨e | ran, s'⟩
      · rw [runTxs_cons_error hfit hexec] at h
        cases h
      rw [runTxs_cons_ok hfit hexec] at h
      obtain ⟨r', hr', rfl⟩ := except_map_eq_ok.mp h
      refine .cons (fun hremasc => ?_) (ih hr')
      cases tx with
      | ordinary gasLimit body => cases hremasc
      | remasc body =>
        simp only [BlockTx.exec, Prod.mk.injEq] at hexec
        obtain ⟨_, -, rfl⟩ := except_map_eq_ok.mp hexec.1
        rfl

variable {edges : List Int16} {txs : List (BlockTx κ V ε)} {run : BlockRun κ V}

lemma executeBlock_marks {threads : Nat} {blockGasLimit : UInt64} {base : κ → V}
  (h : executeBlock threads edges blockGasLimit txs base = .ok run) :
  List.Forall₂ (fun (tx : BlockTx κ V ε) (ran : Ran κ TxOut) =>
    tx.isRemasc = true → ran.result.reachedSequentialOnly = true) txs run.runs := by
  unfold executeBlock at h
  dsimp only at h
  split at h
  · obtain ⟨r, hr, hrun⟩ := except_do_eq_ok.mp h
    obtain rfl := ok.inj hrun
    exact runTxs_marks hr
  obtain ⟨outcomes, houtcomes, hrest⟩ := except_do_eq_ok.mp h
  obtain ⟨last, hlast, hrun⟩ := except_do_eq_ok.mp hrest
  obtain rfl := ok.inj hrun
  have hruns := forall₂_of_mapM_eq_ok houtcomes
  have hparallel := forall₂_flatMap (f := part txs) (g := fun run : SubRun κ V => run.runs)
    (hruns.imp fun _ _ hr => runTxs_marks hr)
  have hall := rel_append hparallel (runTxs_marks hlast)
  dsimp only at hall
  rwa [flatMap_def, flatten_parts] at hall

lemma passes_eq_false (hmarks : List.Forall₂ (fun (tx : BlockTx κ V ε) (ran : Ran κ TxOut) =>
    tx.isRemasc = true → ran.result.reachedSequentialOnly = true) txs run.runs)
  {range : Nat × Nat} (hrange : range ∈ (sublistRanges edges txs.length).1) {tx : BlockTx κ V ε}
  (htx : tx ∈ part txs range) (hremasc : tx.isRemasc = true) : passes edges run = false := by
  obtain ⟨i, hi⟩ := mem_iff_getElem?.mp htx
  rw [part, getElem?_drop, getElem?_take] at hi
  split at hi
  · rename_i hlt
    obtain ⟨ran, hran, hmark⟩ := forall₂_getElem? hmarks hi
    obtain ⟨-, -, -, hedges⟩ := sublistRanges_spec edges txs.length
    obtain ⟨edge, hedge, hend⟩ := hedges range hrange
    have hsublist : (sublistOf (range.1 + i) edges).isSome = true :=
      Option.isSome_iff_ne_none.mpr (sublistOf_ne_none hedge (by omega))
    have hfound : sequentialOnlyInParallel edges run.runs = true := by
      refine List.any_eq_true.mpr ⟨(ran, range.1 + i), ?_, ?_⟩
      · exact mem_zipIdx_iff_getElem?.mpr hran
      · simp [hmark hremasc, hsublist]
    simp [passes, hfound]
  · cases hi

/-- The program of a transaction of a sublist. -/
def bodyOf : BlockTx κ V ε → Prog κ V (Except ε TxOut)
  | .ordinary _ body => body
  | .remasc _ => .done (.ok ⟨0, 0, true⟩)

/-- The runs, if none has failed. -/
def okRuns : List (Ran κ (Except ε TxOut)) → Except (ExecError ε) (List (Ran κ TxOut))
  | [] => .ok []
  | r :: rs =>
    match r.result with
    | .error e => .error (.evm e)
    | .ok out => (okRuns rs).map (⟨out, r.reads, r.writes⟩ :: ·)

lemma okRuns_append (xs ys : List (Ran κ (Except ε TxOut))) :
  okRuns (xs ++ ys) = (okRuns xs).bind fun a => (okRuns ys).map (a ++ ·) := by
  induction xs with
  | nil =>
    simp only [nil_append, okRuns, Except.bind]
    cases okRuns ys <;> rfl
  | cons x xs ih =>
    simp only [cons_append, okRuns]
    cases x.result with
    | error e => rfl
    | ok out =>
      simp only [ih]
      cases okRuns xs with
      | error e => rfl
      | ok a =>
        simp only [Except.bind, Except.map]
        cases okRuns ys <;> rfl

lemma accesses_okRuns : ∀ {rs : List (Ran κ (Except ε TxOut))} {runs : List (Ran κ TxOut)},
  okRuns rs = .ok runs → accesses runs = accesses rs := by
  intro rs
  induction rs with
  | nil =>
    intro runs h
    obtain rfl := ok.inj h
    rfl
  | cons r rs ih =>
    intro runs h
    simp only [okRuns] at h
    split at h
    · cases h
    obtain ⟨rest, hrest, rfl⟩ := except_map_eq_ok.mp h
    exact congrArg (_ :: ·) (ih hrest)

lemma writtenKeys_eq {ρ : Type} (rs : List (Ran κ ρ)) :
  writtenKeys rs = (accesses rs).flatMap (·.writes) := by
  rw [writtenKeys, accesses, flatMap_map]

lemma runTxs_ordinary : ∀ {txs : List (BlockTx κ V ε)}, (∀ tx ∈ txs, tx.isRemasc = false) →
  ∀ (gas : UInt64) (fees : U256) (s : κ → V), runTxs none txs gas fees s =
    (okRuns (runProgs (txs.map bodyOf) s).1).map fun runs =>
      ⟨runs, (runProgs (txs.map bodyOf) s).2, addFees (·.fee) fees runs⟩ := by
  intro txs
  induction txs with
  | nil => exact fun _ _ _ _ => rfl
  | cons tx rest ih =>
    intro hord gas fees s
    have hrest := ih fun tx htx => hord tx (mem_cons_of_mem _ htx)
    cases tx with
    | remasc body => exact absurd (hord _ mem_cons_self) (by simp [BlockTx.isRemasc])
    | ordinary gasLimit body =>
      simp only [map_cons, bodyOf, runProgs, okRuns]
      cases hresult : (body.run s).1.result with
      | error e =>
        have hexec : (BlockTx.ordinary gasLimit body).exec fees s =
            (.error e, (body.run s).2) := by simp only [BlockTx.exec, hresult, Except.map]
        rw [runTxs_none_error hexec]
        rfl
      | ok out =>
        have hexec : (BlockTx.ordinary gasLimit body).exec fees s =
            (.ok ⟨out, (body.run s).1.reads, (body.run s).1.writes⟩, (body.run s).2) := by
          simp only [BlockTx.exec, hresult, Except.map]
        rw [runTxs_none_ok hexec, hrest]
        cases okRuns (runProgs (rest.map bodyOf) (body.run s).2).1 <;> rfl

/-! ### The parallel shape against one run -/

section Block

variable (edges : List Int16) (txs : List (BlockTx κ V ε)) (base : κ → V)

lemma mapM_runTxs : ∀ (ranges : List (Nat × Nat)),
  (∀ range ∈ ranges, ∀ tx ∈ part txs range, tx.isRemasc = false) →
  match okRuns (separate (ranges.map fun range => (part txs range).map bodyOf) base).flatten with
  | .error _ => ∃ e, (ranges.mapM fun range => runTxs none (part txs range) 0 0 base) = .error e
  | .ok runs => ∃ outcomes,
      (ranges.mapM fun range => runTxs none (part txs range) 0 0 base) = .ok outcomes ∧
      outcomes.flatMap (·.runs) = runs ∧
      rangeGroups ranges (outcomes.map (·.runs)) = rangeGroups ranges
        (separate (ranges.map fun range => (part txs range).map bodyOf) base) ∧
      (∀ root, outcomes.foldl (fun root run => commit root (run.runs, run.state)) root =
        ((ranges.map fun range => (part txs range).map bodyOf).map
          fun g => runProgs g base).foldl commit root) ∧
      ∀ carried, (outcomes.map (·.paidFees)).foldl (· + ·) carried =
        addFees (·.fee) carried runs := by
  intro ranges
  induction ranges with
  | nil => exact fun _ => ⟨[], rfl, rfl, rfl, fun _ => rfl, fun _ => rfl⟩
  | cons range ranges ih =>
    intro hord
    have hhead := runTxs_ordinary (hord range mem_cons_self) 0 0 base
    have hih := ih fun r hr => hord r (mem_cons_of_mem _ hr)
    simp only [map_cons, separate, flatten_cons, okRuns_append, mapM_cons, hhead]
    cases hruns : okRuns (runProgs ((part txs range).map bodyOf) base).1 with
    | error e => exact ⟨e, rfl⟩
    | ok runs =>
      simp only [separate] at hih
      simp only [Except.bind]
      cases hrest : okRuns ((ranges.map fun range => (part txs range).map bodyOf).map
          fun g => (runProgs g base).1).flatten with
      | error e =>
        rw [hrest] at hih
        obtain ⟨e', he'⟩ := hih
        refine ⟨e', ?_⟩
        rw [he']
        rfl
      | ok runs' =>
        rw [hrest] at hih
        obtain ⟨outcomes, hmapM, hflat, hgroups, hroot, hfees⟩ := hih
        refine ⟨_ :: outcomes, by rw [hmapM]; rfl, ?_, ?_, fun root => ?_, fun carried => ?_⟩
        · rw [flatMap_cons, hflat]
        · have haccesses := accesses_okRuns hruns
          simp only [rangeGroups, map_cons, zipWith_cons_cons, haccesses]
          exact congrArg _ hgroups
        · have hkeys : writtenKeys runs =
              writtenKeys (runProgs ((part txs range).map bodyOf) base).1 := by
            rw [writtenKeys_eq, writtenKeys_eq, accesses_okRuns hruns]
          simp only [foldl_cons, hroot]
          refine congrArg (fun root => List.foldl commit root _) ?_
          unfold commit
          simp only [hkeys]
        simp only [map_cons, foldl_cons, hfees]
        rw [addFees_append, ← addFees_zero]

def bodies : List (List (Prog κ V (Except ε TxOut))) :=
  (sublistRanges edges txs.length).1.map fun range => (part txs range).map bodyOf

lemma length_bodies : List.Forall₂
  (fun (range : Nat × Nat) (g : List (Prog κ V (Except ε TxOut))) =>
    range.1 + g.length = range.2) (sublistRanges edges txs.length).1 (bodies edges txs) := by
  refine forall₂_map_right_iff.mpr ?_
  have hparts := forall₂_map_right_iff.mp (length_parts edges txs)
  exact hparts.imp fun _ _ h => by simpa using h

/-- The whole block in one run, without the gas rule. -/
def runUnchecked : Except (ExecError ε) (BlockRun κ V) :=
  (runTxs none txs 0 0 base).map fun run =>
    ⟨run, new.recordAll edges 0 (accesses run.runs)⟩

/-- The verdict without the gas rule, which all settings share. -/
def verdictUnchecked : Option (SubRun κ V) :=
  ((runUnchecked edges txs base).toOption.filter (passes edges)).map (·.toSubRun)

section Ordinary

variable {edges txs base}
variable (hord : ∀ range ∈ (sublistRanges edges txs.length).1, ∀ tx ∈ part txs range,
  tx.isRemasc = false)

include hord

lemma runTxs_eq : runTxs none txs 0 0 base =
  (okRuns (inOrder (bodies edges txs) base).1.flatten).bind fun runs =>
    (runTxs none (part txs (sublistRanges edges txs.length).2) 0 (addFees (·.fee) 0 runs)
      (inOrder (bodies edges txs) base).2).map fun last =>
        { last with runs := runs ++ last.runs } := by
  have hflat : ∀ tx ∈ ((sublistRanges edges txs.length).1.map (part txs)).flatten,
      tx.isRemasc = false := by
    intro tx htx
    obtain ⟨l, hl, htx⟩ := mem_flatten.mp htx
    obtain ⟨range, hrange, rfl⟩ := List.mem_map.mp hl
    exact hord range hrange tx htx
  have hbodies : ((sublistRanges edges txs.length).1.map (part txs)).flatten.map bodyOf =
      (bodies edges txs).flatten := by
    rw [map_flatten, List.map_map]
    rfl
  have hall := inOrder_eq_runProgs (bodies edges txs) base
  have hcut : runTxs none txs 0 0 base =
      runTxs none (((sublistRanges edges txs.length).1.map (part txs)).flatten ++
        part txs (sublistRanges edges txs.length).2) 0 0 base := by rw [flatten_parts]
  rw [hcut, runTxs_append, runTxs_ordinary hflat, hbodies, ← hall]
  dsimp only
  cases okRuns (inOrder (bodies edges txs) base).1.flatten <;> rfl

lemma recordAll_eq {runs last : List (Ran κ TxOut)}
  (hruns : okRuns (inOrder (bodies edges txs) base).1.flatten = .ok runs) :
  new.recordAll edges 0 (accesses (runs ++ last)) =
    (new.recordGroups edges (rangeGroups (sublistRanges edges txs.length).1
      (inOrder (bodies edges txs) base).1)).recordAll edges (sublistRanges edges txs.length).2.1
        (accesses last) := by
  obtain ⟨hseg, -, -, -⟩ := sublistRanges_spec edges txs.length
  have hlen := forall₂_inOrder (R := fun (range : Nat × Nat) n => range.1 + n = range.2)
    (length_bodies edges txs) base
  have haccesses := accesses_okRuns hruns
  have hstart : 0 + (accesses runs).length = (sublistRanges edges txs.length).2.1 := by
    rw [haccesses, ← hseg.length_flatten hlen, accesses, length_map]
  have happend : accesses (runs ++ last) = accesses runs ++ accesses last := map_append
  rw [happend, recordAll_append, hstart, haccesses, recordGroups_eq hseg hlen]

lemma executeBlock_eq {threads : Nat} (hthreads : 2 ≤ threads)
  (hparallel : 2 ≤ (sublistRanges edges txs.length).1.length) (limit : UInt64) :
  match okRuns (separate (bodies edges txs) base).flatten with
  | .error _ => ∃ e, executeBlock threads edges limit txs base = .error e
  | .ok runs => ∃ t : CollisionTracker κ,
      (∀ id, t.keys id = (new.recordGroups edges
        (rangeGroups (sublistRanges edges txs.length).1
          (separate (bodies edges txs) base))).keys id) ∧
      executeBlock threads edges limit txs base =
        (runTxs none (part txs (sublistRanges edges txs.length).2) 0 (addFees (·.fee) 0 runs)
          (((bodies edges txs).map fun g => runProgs g base).foldl commit base)).map fun last =>
            ⟨{ last with runs := runs ++ last.runs }, t.recordAll edges
              (sublistRanges edges txs.length).2.1 (accesses last.runs)⟩ := by
  have hmapM := mapM_runTxs txs base (sublistRanges edges txs.length).1 hord
  have hshape : ¬(threads ≤ 1 ∨ (sublistRanges edges txs.length).1.length < 2) := by omega
  have hbodies : ((sublistRanges edges txs.length).1.map fun range =>
      (part txs range).map bodyOf) = bodies edges txs := rfl
  rw [hbodies] at hmapM
  cases hok : okRuns (separate (bodies edges txs) base).flatten with
  | error e =>
    rw [hok] at hmapM
    obtain ⟨e', he'⟩ := hmapM
    refine ⟨e', ?_⟩
    simp only [executeBlock, if_neg hshape, he']
    rfl
  | ok runs =>
    rw [hok] at hmapM
    obtain ⟨outcomes, houtcomes, hflat, hgroups, hroot, hfees⟩ := hmapM
    refine ⟨_, foldl_absorb edges _ fun _ => rfl, ?_⟩
    rw [← hfees, ← hroot, ← hflat, ← hgroups]
    simp only [executeBlock, if_neg hshape, houtcomes, bind, Except.bind, pure, Except.pure]
    cases runTxs none (part txs (sublistRanges edges txs.length).2) 0
      ((outcomes.map (·.paidFees)).foldl (· + ·) 0)
      (outcomes.foldl (fun root run => commit root (run.runs, run.state)) base) <;> rfl

end Ordinary

lemma passes_of_collision {run : BlockRun κ V} (h : run.tracker.detectCollision = true) :
  passes edges run = false := by
  simp [passes, h]

lemma filter_eq_none {x : Except (ExecError ε) (BlockRun κ V)}
  (h : ∀ run, x = .ok run → passes edges run = false) :
  (x.toOption.filter (passes edges)).map (·.toSubRun) = none := by
  cases x with
  | error e => rfl
  | ok run => simp [Except.toOption, Option.filter, h run rfl]

lemma filter_congr {x y : BlockRun κ V} (hrun : x.toSubRun = y.toSubRun)
  (hverdict : x.tracker.detectCollision = y.tracker.detectCollision) :
  ((some x).filter (passes edges)).map (·.toSubRun) =
    ((some y).filter (passes edges)).map (·.toSubRun) := by
  have hpasses : passes edges x = passes edges y := by rw [passes, passes, hverdict, hrun]
  cases hpass : passes edges y <;> simp [Option.filter, hpasses, hpass, hrun]

variable {threads : Nat}

/-- **From two threads on** the verdict is that of every check but the fit rule. -/
theorem verdict_parallel (hthreads : 2 ≤ threads)
  (hparallel : 2 ≤ (sublistRanges edges txs.length).1.length) (limit : UInt64) :
  verdict threads edges limit txs base = verdictUnchecked edges txs base := by
  by_cases hremasc : ∃ range ∈ (sublistRanges edges txs.length).1, ∃ tx ∈ part txs range,
      tx.isRemasc = true
  · -- refused in both shapes, for its result or before
    obtain ⟨range, hrange, tx, htx, hisRemasc⟩ := hremasc
    rw [verdict, verdictUnchecked, filter_eq_none, filter_eq_none]
    · intro run hrun
      obtain ⟨r, hr, rfl⟩ := except_map_eq_ok.mp hrun
      exact passes_eq_false (runTxs_marks hr) hrange htx hisRemasc
    intro run hrun
    exact passes_eq_false (executeBlock_marks hrun) hrange htx hisRemasc
  have hord : ∀ range ∈ (sublistRanges edges txs.length).1, ∀ tx ∈ part txs range,
      tx.isRemasc = false := by
    intro range hrange tx htx
    exact Bool.eq_false_iff.mpr fun h => hremasc ⟨range, hrange, tx, htx, h⟩
  have hshape := @executeBlock_eq κ V ε _ edges txs base hord threads hthreads hparallel limit
  have hwhole := @runTxs_eq κ V ε _ edges txs base hord
  by_cases hconflict : Conflicting (separate (bodies edges txs) base)
  · -- refused in both shapes: a collision, or an error before it
    have hseparate := forall₂_separate (R := fun (range : Nat × Nat) n => range.1 + n = range.2)
      (length_bodies edges txs) base
    have hinOrder := forall₂_inOrder (R := fun (range : Nat × Nat) n => range.1 + n = range.2)
      (length_bodies edges txs) base
    rw [verdict, verdictUnchecked, filter_eq_none, filter_eq_none]
    · intro run hrun
      obtain ⟨r, hr, rfl⟩ := except_map_eq_ok.mp hrun
      rw [hwhole] at hr
      obtain ⟨runs, hruns, hr⟩ := except_bind_eq_ok.mp hr
      obtain ⟨last, -, rfl⟩ := except_map_eq_ok.mp hr
      refine passes_of_collision edges ?_
      rw [recordAll_eq hord hruns]
      exact detectCollision_recordAll_of _ _ _
        (detectCollision_of_conflicting hinOrder ((conflicting_iff _ base).mpr hconflict))
    intro run hrun
    cases hok : okRuns (separate (bodies edges txs) base).flatten with
    | error e =>
      rw [hok] at hshape
      obtain ⟨e', he'⟩ := hshape
      rw [he'] at hrun
      cases hrun
    | ok runs =>
      rw [hok] at hshape
      obtain ⟨t, hkeys, heq⟩ := hshape
      rw [heq] at hrun
      obtain ⟨last, -, rfl⟩ := except_map_eq_ok.mp hrun
      refine passes_of_collision edges (detectCollision_recordAll_of _ _ _ ?_)
      rw [detectCollision_congr hkeys]
      exact detectCollision_of_conflicting hseparate hconflict
  -- the sublists ran as in order, so the sequential set ran on the same state
  obtain ⟨hsame, hstate⟩ := inOrder_eq_separate hconflict
  rw [verdict, verdictUnchecked, runUnchecked, hwhole, hsame, hstate]
  cases hok : okRuns (separate (bodies edges txs) base).flatten with
  | error e =>
    rw [hok] at hshape
    obtain ⟨e', he'⟩ := hshape
    rw [he']
    rfl
  | ok runs =>
    rw [hok] at hshape
    obtain ⟨t, hkeys, heq⟩ := hshape
    rw [heq]
    simp only [Except.bind]
    cases runTxs none (part txs (sublistRanges edges txs.length).2) 0 (addFees (·.fee) 0 runs)
        (((bodies edges txs).map fun g => runProgs g base).foldl commit base) with
    | error e => rfl
    | ok last =>
      have hverdict : (t.recordAll edges (sublistRanges edges txs.length).2.1
          (accesses last.runs)).detectCollision =
          (new.recordAll edges 0
            (accesses (runs ++ last.runs))).detectCollision := by
        have hruns : okRuns (inOrder (bodies edges txs) base).1.flatten = .ok runs := by
          rw [hsame, hok]
        rw [recordAll_eq hord hruns, hsame]
        exact detectCollision_congr
          (keys_recordAll_congr hkeys)
      exact filter_congr edges rfl hverdict

/-- **With one thread** the fit rule applies as well. -/
theorem verdict_one (hthreads : threads ≤ 1) (limit : UInt64) :
  verdict threads edges limit txs base = (verdictUnchecked edges txs base).filter fun run =>
    fitsAll limit txs run.runs 0 := by
  have hexecute : (executeBlock threads edges limit txs base).toOption =
      (runUnchecked edges txs base).toOption.filter fun run => fitsAll limit txs run.runs 0 := by
    have hrun : executeBlock threads edges limit txs base =
        (runTxs (some limit) txs 0 0 base).map fun run =>
          ⟨run, new.recordAll edges 0 (accesses run.runs)⟩ := by
      simp only [executeBlock, hthreads, true_or, if_true]
      cases runTxs (some limit) txs 0 0 base <;> rfl
    rw [hrun, runUnchecked, toOption_map, toOption_map, runTxs_some]
    cases (runTxs none txs 0 0 base).toOption with
    | none => rfl
    | some run => cases hfits : fitsAll limit txs run.runs 0 <;> simp [Option.filter, hfits]
  rw [verdict, verdictUnchecked, hexecute]
  cases (runUnchecked edges txs base).toOption with
  | none => rfl
  | some run =>
    cases hfits : fitsAll limit txs run.runs 0 <;> cases hpass : passes edges run <;>
      simp [Option.filter, hfits, hpass]

/-- Each sublist stays within its own gas limit. -/
def fitsSublists (limit : UInt64) (parallelCount : Nat) (minSequential : UInt64)
  (runs : List (Ran κ TxOut)) : Bool :=
  let limits := Mining.sublistGasLimits limit parallelCount minSequential
  let (parallel, sequential) := sublistRanges edges txs.length
  parallel.all (fun range => fitsAll limits.1 (part txs range) (part runs range) 0) &&
    fitsAll limits.2 (part txs sequential) (part runs sequential) 0

/-- **The property**: every setting gives the same verdict and accepts only what fits the block and
its sublists. -/
def Independent (limit : UInt64) (parallelCount : Nat) (minSequential : UInt64) : Prop :=
  (∀ m n, 1 ≤ m → 1 ≤ n → (verdict m edges limit txs base).isSome =
      (verdict n edges limit txs base).isSome) ∧
    ∀ n, 1 ≤ n → ∀ run, verdict n edges limit txs base = some run →
      fitsAll limit txs run.runs 0 = true ∧
        fitsSublists edges txs limit parallelCount minSequential run.runs = true

/-- In terms of the run in order without the fit rule. -/
theorem independent_iff (hparallel : 2 ≤ (sublistRanges edges txs.length).1.length)
    (limit : UInt64) (parallelCount : Nat) (minSequential : UInt64) :
    Independent edges txs base limit parallelCount minSequential ↔
      ∀ run, verdictUnchecked edges txs base = some run → fitsAll limit txs run.runs 0 = true ∧
        fitsSublists edges txs limit parallelCount minSequential run.runs = true := by
  constructor
  · rintro ⟨-, haccepted⟩ run hrun
    refine haccepted 2 (by omega) run ?_
    rw [verdict_parallel edges txs base le_rfl hparallel limit, hrun]
  intro hfits
  -- every setting gives the verdict of the other checks
  have hall : ∀ n, 1 ≤ n → verdict n edges limit txs base = verdictUnchecked edges txs base := by
    intro n hn
    rcases Nat.lt_or_ge n 2 with hone | htwo
    · rw [verdict_one edges txs base (by omega) limit]
      cases hrun : verdictUnchecked edges txs base with
      | none => rfl
      | some run => simp [Option.filter, (hfits run hrun).1]
    · exact verdict_parallel edges txs base htwo hparallel limit
  refine ⟨fun m n hm hn => by rw [hall m hm, hall n hn], fun n hn run hrun => ?_⟩
  rw [hall n hn] at hrun
  exact hfits run hrun

/-! ### A condition on the gas limits -/

namespace BlockTx

/-- The gas limit; the REMASC transaction has none and uses no gas. -/
def limitOf : BlockTx κ V ε → Nat
  | ordinary gasLimit _ => gasLimit.toNat
  | remasc _ => 0

/-- It uses no more gas than its limit. -/
def WithinLimit (tx : BlockTx κ V ε) : Prop :=
  ∀ fees s ran s', tx.exec fees s = (.ok ran, s') → ran.result.gasUsed.toNat ≤ tx.limitOf

/-- It uses all of its gas. -/
def UsesAll (tx : BlockTx κ V ε) : Prop :=
  ∀ fees s ran s', tx.exec fees s = (.ok ran, s') → ran.result.gasUsed.toNat = tx.limitOf

end BlockTx

/-- The gas limits of some transactions together. -/
def limitTotal (txs : List (BlockTx κ V ε)) : Nat := (txs.map (·.limitOf)).sum

/-- The gas limits of the block add up to no more than the block has, and those of each sublist to
no more than the sublist has. -/
def LimitsFit (limit : UInt64) (parallelCount : Nat) (minSequential : UInt64) : Prop :=
  let limits := Mining.sublistGasLimits limit parallelCount minSequential
  limitTotal txs ≤ limit.toNat ∧
    (∀ range ∈ (sublistRanges edges txs.length).1,
      limitTotal (part txs range) ≤ limits.1.toNat) ∧
    limitTotal (part txs (sublistRanges edges txs.length).2) ≤ limits.2.toNat

variable {edges txs base}

theorem runTxs_forall₂ {R : BlockTx κ V ε → Ran κ TxOut → Prop} {limit : Option UInt64}
    (hR : ∀ tx ∈ txs, ∀ fees s ran s', tx.exec fees s = (.ok ran, s') → R tx ran)
    {gas : UInt64} {fees : U256} {s : κ → V} {run : SubRun κ V}
    (hrun : runTxs limit txs gas fees s = .ok run) : Forall₂ R txs run.runs := by
  induction txs generalizing gas fees s run with
  | nil =>
    obtain rfl := ok.inj hrun
    exact .nil
  | cons tx rest ih =>
    rw [runTxs] at hrun
    split at hrun
    · cases hrun
    split at hrun
    · cases hrun
    rename_i ran s' hexec
    obtain ⟨r, hr, rfl⟩ := except_map_eq_ok.mp hrun
    exact .cons (hR tx (mem_cons_self ..) _ _ _ _ hexec)
      (ih (fun tx htx => hR tx (mem_cons_of_mem _ htx)) hr)

theorem verdictUnchecked_forall₂ {R : BlockTx κ V ε → Ran κ TxOut → Prop}
    (hR : ∀ tx ∈ txs, ∀ fees s ran s', tx.exec fees s = (.ok ran, s') → R tx ran)
    {run : SubRun κ V} (hrun : verdictUnchecked edges txs base = some run) :
    Forall₂ R txs run.runs := by
  obtain ⟨whole, hwhole, rfl⟩ := Option.map_eq_some_iff.mp hrun
  rw [Option.filter_eq_some_iff, runUnchecked, toOption_map, Option.map_eq_some_iff] at hwhole
  obtain ⟨⟨sub, hsub, rfl⟩, -⟩ := hwhole
  cases hok : runTxs none txs 0 0 base with
  | error e =>
    rw [hok] at hsub
    cases hsub
  | ok sub' =>
    rw [hok] at hsub
    obtain rfl : sub' = sub := Option.some.inj hsub
    exact runTxs_forall₂ hR hok

/-- As long as no more is used than the limits say, limits that add up fit one after the other. -/
theorem fitsAll_of_limitTotal {runs : List (Ran κ TxOut)} {limit gas : UInt64}
    (hruns : Forall₂ (fun tx ran => ran.result.gasUsed.toNat ≤ tx.limitOf) txs runs)
    (htotal : gas.toNat + limitTotal txs ≤ limit.toNat) : fitsAll limit txs runs gas = true := by
  induction hruns generalizing gas with
  | nil => rfl
  | @cons tx ran txs runs hused _ ih =>
    have hlimit := limit.toNat_lt
    have hsum : limitTotal (tx :: txs) = tx.limitOf + limitTotal txs := by simp [limitTotal]
    have hgas : (gas + ran.result.gasUsed).toNat = gas.toNat + ran.result.gasUsed.toNat := by
      rw [UInt64.toNat_add, Nat.mod_eq_of_lt (by omega)]
    have hfits : tx.fitsIn limit gas = true := by
      cases tx with
      | remasc body => rfl
      | ordinary gasLimit body =>
        have hown : (BlockTx.ordinary gasLimit body : BlockTx κ V ε).limitOf = gasLimit.toNat := rfl
        refine decide_eq_true ?_
        omega
    rw [fitsAll, hfits, Bool.true_and]
    exact ih (by omega)

/-- If all gas is used, nothing else fits. The greatest `u64` is no limit at all: sums saturate. -/
theorem limitTotal_of_fitsAll {runs : List (Ran κ TxOut)} {limit gas : UInt64}
    (hmax : limit.toNat + 1 < 2 ^ 64) (hgas : gas.toNat ≤ limit.toNat)
    (hruns : Forall₂ (fun tx ran => ran.result.gasUsed.toNat = tx.limitOf) txs runs)
    (hfits : fitsAll limit txs runs gas = true) : gas.toNat + limitTotal txs ≤ limit.toNat := by
  induction hruns generalizing gas with
  | nil => exact hgas
  | @cons tx ran txs runs hused _ ih =>
    obtain ⟨hown, hrest⟩ := Bool.and_eq_true_iff.mp hfits
    have hsum : limitTotal (tx :: txs) = tx.limitOf + limitTotal txs := by simp [limitTotal]
    have hnext : gas.toNat + tx.limitOf ≤ limit.toNat := by
      cases tx with
      | remasc body => exact hgas
      | ordinary gasLimit body =>
        have hlimit : (BlockTx.ordinary gasLimit body : BlockTx κ V ε).limitOf = gasLimit.toNat :=
          rfl
        have hown := of_decide_eq_true hown
        have hword := ran.result.gasUsed.toNat_lt
        omega
    have hadd : (gas + ran.result.gasUsed).toNat = gas.toNat + tx.limitOf := by
      rw [UInt64.toNat_add, hused, Nat.mod_eq_of_lt (by omega)]
    have := ih (by rw [hadd]; exact hnext) hrest
    omega

theorem forall₂_part {α β : Type} {R : α → β → Prop} {l : List α} {m : List β}
    (h : Forall₂ R l m) (range : Nat × Nat) : Forall₂ R (part l range) (part m range) :=
  forall₂_drop _ (forall₂_take _ h)

/-- **When the verdict does not depend on the threads.** For a block of two parallel sublists or
more whose transactions use no more gas than their limits: it does not, and only what fits is
accepted, if the gas limits of the block and of each sublist add up to no more than their container
has. If the transactions use all their gas and the block passes the other checks, nothing less
will do. -/
theorem verdict_independent_of_limits (edges : List Int16) (txs : List (BlockTx κ V ε))
    (base : κ → V) (hparallel : 2 ≤ (sublistRanges edges txs.length).1.length)
    (hwithin : ∀ tx ∈ txs, tx.WithinLimit) (limit : UInt64) (parallelCount : Nat)
    (minSequential : UInt64) :
    (LimitsFit edges txs limit parallelCount minSequential →
      Independent edges txs base limit parallelCount minSequential) ∧
    ((∀ tx ∈ txs, tx.UsesAll) → (verdictUnchecked edges txs base).isSome →
      limit.toNat + 1 < 2 ^ 64 →
      (Mining.sublistGasLimits limit parallelCount minSequential).1.toNat + 1 < 2 ^ 64 →
      (Mining.sublistGasLimits limit parallelCount minSequential).2.toNat + 1 < 2 ^ 64 →
      Independent edges txs base limit parallelCount minSequential →
        LimitsFit edges txs limit parallelCount minSequential) := by
  have hzero : (0 : UInt64).toNat = 0 := rfl
  rw [independent_iff edges txs base hparallel]
  constructor
  · rintro ⟨hblock, hparts, hlast⟩ run hrun
    have hruns := verdictUnchecked_forall₂ hwithin hrun
    refine ⟨fitsAll_of_limitTotal hruns (by omega), Bool.and_eq_true_iff.mpr ⟨?_, ?_⟩⟩
    · refine all_eq_true.mpr fun range hrange => ?_
      have := hparts range hrange
      exact fitsAll_of_limitTotal (forall₂_part hruns range) (by omega)
    · have hfit : fitsAll (Mining.sublistGasLimits limit parallelCount minSequential).2
          (part txs (sublistRanges edges txs.length).2)
          (part run.runs (sublistRanges edges txs.length).2) 0 = true :=
        fitsAll_of_limitTotal (forall₂_part hruns _) (by omega)
      exact hfit
  intro hall hpasses hmax hmax₁ hmax₂ hfits
  obtain ⟨run, hrun⟩ := Option.isSome_iff_exists.mp hpasses
  have hruns := verdictUnchecked_forall₂ hall hrun
  obtain ⟨hblock, hsublists⟩ := hfits run hrun
  obtain ⟨hparts, hlast⟩ := Bool.and_eq_true_iff.mp hsublists
  refine ⟨?_, fun range hrange => ?_, ?_⟩
  · have := limitTotal_of_fitsAll hmax (Nat.zero_le _) hruns hblock
    omega
  · have := limitTotal_of_fitsAll hmax₁ (Nat.zero_le _) (forall₂_part hruns range)
      (all_eq_true.mp hparts range hrange)
    omega
  · have := limitTotal_of_fitsAll hmax₂ (Nat.zero_le _)
      (forall₂_part hruns (sublistRanges edges txs.length).2) hlast
    omega

end Block

end Model

def writer (gasLimit : U256) (key : Nat) : BlockTx Nat Nat String :=
  .ordinary gasLimit (.write key 1 (.done (.ok ⟨10, 1, false⟩)))

theorem writer_withinLimit {gasLimit : U256} (h : 10 ≤ gasLimit.toNat) (key : Nat) :
    (writer gasLimit key).WithinLimit := by
  intro fees s ran s' hexec
  obtain rfl := ok.inj (Prod.mk.inj hexec).1
  exact h

/-- Limits that fit, twenty in each sublist of thirty-three: every setting decides as two threads
do. -/
theorem verdict_independent_small :
    Independent [1, 2] [writer 20 0, writer 20 1, writer 20 2] (fun _ => 0) 100 2 0 := by
  refine (verdict_independent_of_limits [1, 2] [writer 20 0, writer 20 1, writer 20 2] (fun _ => 0)
    (by decide +kernel) (fun tx htx => ?_) 100 2 0).1 ⟨by decide, by decide, by decide⟩
  simp only [mem_cons, not_mem_nil, or_false] at htx
  rcases htx with rfl | rfl | rfl <;> exact writer_withinLimit (by decide) _

/-- **One thread rejects, two accept**: the first transaction's limit is twice the block's. -/
theorem verdict_depends_on_threads : 2 ≤ (sublistRanges [1, 2] 3).1.length ∧
  (verdict 1 [1, 2] 100 [writer 200 0, writer 20 1, writer 20 2] fun _ => 0).isSome = false ∧
  (verdict 2 [1, 2] 100 [writer 200 0, writer 20 1, writer 20 2] fun _ => 0).isSome = true := by
  refine ⟨by decide +kernel, by decide +kernel, by decide +kernel⟩

end Rustock.Threads
