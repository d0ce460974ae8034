import Rustock.Sync.Import

/-!
# The declared number of uncles

A header declares how many uncles its block has, and the difficulty rule, the fork-detection
data, the uncle allowance and `cumulative_difficulty` read that number. The uncle guard compares
it with the list (`commitment_matches`, networking/src/protocol/rsk.rs); a header that
comes alone is not compared with anything, and neither `body_mismatch` nor `validate_block` nor
`process_block` looks at it again.
-/

namespace Rustock

open Lib List HeaderWithUncles ImportNode

/-- **The property**: what a block's header declared when it was imported is what its stored body
has. -/
def CountsTrue (hist : List (ImportNode × ImportEvent)) : Prop :=
  ∀ m hash state result header body, (m, .importBlock hash state result) ∈ hist →
    m.store.headers hash = some header → m.store.bodies hash = some body →
    header.uncleCount = UInt64.ofNat body.2.length

/-- **The condition on a step**: a block is imported only while the guard holds its header and
its uncle list. -/
def GuardedImport (n : ImportNode) : ImportEvent → Prop
  | .importBlock hash _ _ => ∃ header body, n.guard.headers hash = some header ∧
      n.store.headers hash = some header.stored ∧ n.store.bodies hash = some body ∧
      n.guard.byBlock hash = some body.2
  | _ => True

namespace UncleGuard

def Counted (g : UncleGuard) : Prop :=
  ∀ hash header list, g.headers hash = some header → g.byBlock hash = some list →
    header.uncleCount = UInt64.ofNat list.length

variable {g : UncleGuard} {current : ActivationHeights} {e : HeaderWithUncles}

lemma Counted.record (h : g.Counted) (hmatch : e.commitmentMatches = true) :
  (g.record current e.header e.uncles).Counted := by
  simp only [commitmentMatches, Bool.and_eq_true, decide_eq_true_eq] at hmatch
  intro hash header list hheader hlist
  unfold UncleGuard.record at hheader hlist
  dsimp only at hheader hlist
  split at hheader
  · simp at hheader
  rename_i hkept
  rw [if_neg hkept] at hlist
  by_cases heq : hash = e.header.hash current
  · subst heq
    rw [Function.update_self] at hheader hlist
    obtain rfl := Option.some.inj hheader
    obtain rfl := Option.some.inj hlist
    exact hmatch.1.symm
  rw [Function.update_of_ne heq] at hheader hlist
  exact h hash header list hheader hlist

lemma commitmentMatches_of_proven {g' : UncleGuard} {s : BlockStore} {verifier : HeaderVerifier}
  (h : g.unclesAreProven current s verifier e = some g') : e.commitmentMatches = true := by
  unfold unclesAreProven at h
  split at h
  · assumption
  · simp at h

end UncleGuard

open UncleGuard

section Runs

variable {p : Processor} {config : ChainConfig} {n n' : ImportNode} {e : ImportEvent}
  {hist : List (ImportNode × ImportEvent)}

lemma counted_step (h : n.guard.Counted) (hstep : ImportStep p config n e n') :
  n'.guard.Counted := by
  cases hstep with
  | proven hproven =>
    have hmatch := commitmentMatches_of_proven hproven
    obtain ⟨rfl, -⟩ := unclesAreProven_uncle hproven
    exact h.record hmatch
  | notProven | forget | ingest | body | localBody | importBlock => exact h

lemma countsTrue_step (hcounted : n.guard.Counted) (h : CountsTrue hist)
  (hguarded : GuardedImport n e) : CountsTrue ((n, e) :: hist) := by
  intro m hash state result header body hmem hheader hbody
  rcases mem_cons.mp hmem with heq | hmem
  · obtain ⟨rfl, rfl⟩ := Prod.mk.inj heq
    obtain ⟨held, list, hheld, hstored, hlist, hguard⟩ := hguarded
    obtain rfl := Option.some.inj (hstored.symm.trans hheader)
    obtain rfl := Option.some.inj (hlist.symm.trans hbody)
    exact hcounted hash held list.2 hheld hguard
  · exact h m hash state result header body hmem hheader hbody

end Runs

/-- **In every run that imports only blocks the guard holds, the declared number of uncles is
the true one.** -/
theorem counts_true_of_run (p : Processor) (config : ChainConfig) (root : B256)
  (genesis : Header) (hist : List (ImportNode × ImportEvent)) (n : ImportNode)
  (hrun : Run (ImportStep p config) (.genesis root genesis) hist n)
  (hguarded : ∀ q ∈ hist, GuardedImport q.1 q.2) : CountsTrue hist := by
  have hboth : n.guard.Counted ∧ CountsTrue hist := by
    refine @Run.invariant _ _ _ _ _ _ _ (fun hist n => n.guard.Counted ∧ CountsTrue hist)
      ⟨?_, ?_⟩ ?_ hrun hguarded
    · intro hash header list hheader
      simp [ImportNode.genesis, new] at hheader
    · intro m hash state result header body hmem
      simp at hmem
    rintro hist n e n' ⟨hcounted, hcounts⟩ hgood hstep
    exact ⟨counted_step hcounted hstep, countsTrue_step hcounted hcounts hgood⟩
  exact hboth.2

namespace RegtestChain

/-- The theorem at a run that imports a block with one uncle, whose header and list the guard
holds: the header declares one. -/
theorem counts_true_after_second : ∃ hist n state r,
    (n, .importBlock secondHash state r) ∈ hist ∧
    n.store.bodies secondHash = some ([remascTx], [first]) ∧ CountsTrue hist := by
  obtain ⟨hist, n, state, r, hrun, hmem, hbody, -, hguarded⟩ := second_imported
  refine ⟨hist, n, state, r, hmem, hbody, counts_true_of_run _ _ _ _ _ _ hrun ?_⟩
  rintro ⟨m, e⟩ hq
  cases e with
  | importBlock hash state result => exact hguarded _ hq hash state result rfl
  | entry | forget | ingest | body | localBody => trivial

def overcounted : Header :=
  { Header.unmined root 1 with ommersHash := noOmmers, uncleCount := 3 }.mined

def overcountedHash : B256 :=
  ⟨[192, 169, 159, 233, 30, 15, 20, 30, 157, 49, 5, 160, 192, 226, 92, 232, 99, 223, 31,
     183, 159, 60, 157, 197, 85, 251, 91, 249, 106, 224, 199, 174], rfl⟩

lemma overcounted_hash : overcounted.hash .regtest = overcountedHash := by decide +kernel

lemma overcounted_verified (now : UInt64) :
  (HeaderVerifier.defaultRsk .regtest (some now)).verify overcounted (some genesis.stored) =
    .ok () :=
  mined_verified rfl rfl rfl rfl rfl rfl rfl rfl rfl rfl rfl (by decide +kernel)

lemma batch_overcounted : (batch [overcounted]).batch .regtest .regtest start =
  [(overcounted, 2)] := by
  have hascending : IngestEnv.ascending [overcounted] = [overcounted] := by
    simp [IngestEnv.ascending]
  have hown : env.contribution start overcounted = 1 := by
    have huncles : overcounted.uncleCount = 3 := rfl
    simp [IngestEnv.contribution, env, batch, HeaderEvent.env,
      BlockStore.cumulativeDifficulty, huncles, start, genesisStore]
    rfl
  rw [batch_eq, hascending, foldl_cons, foldl_nil,
    IngestEnv.ingestStep_of_verified env overcounted_hash (by simp [IngestEnv.initialLoop])
      (resolveParent_genesis rfl) (overcounted_verified 0), hown]
  rfl

lemma overcounted_ingested : ∃ s, ImportStep .regtest .regtest idle
    (.ingest (some 0) [overcounted]) { idle with store := s } ∧
  s.headers root = some genesis.stored ∧ s.headers overcountedHash = some overcounted.stored := by
  obtain ⟨hheaders, -, -⟩ := HeaderEvent.step_spec (@step_iff [overcounted] _ |>.mpr rfl)
  have hdiffer : root ≠ overcountedHash := by decide
  rw [batch_overcounted, found_start] at hheaders
  have hstep := @ImportStep.ingest .regtest .regtest idle (some 0) [overcounted]
  have henv : idle.ingestEnv .regtest .regtest (some 0) = env := rfl
  have hstore : idle.store = start := rfl
  rw [henv, hstore] at hstep
  refine ⟨_, hstep, ?_, ?_⟩
  · refine (congrFun hheaders root).trans ?_
    simp [BlockStore.putHeader, overcounted_hash, hdiffer, start_headers]
  refine (congrFun hheaders overcountedHash).trans ?_
  simp [BlockStore.putHeader, overcounted_hash]

/-- **A block that declares three uncles and has none is imported.** -/
theorem overcounted_is_imported : ∃ hist n m r,
  Run (ImportStep .regtest .regtest) (.genesis root genesis) hist n ∧
    (m, .importBlock overcountedHash emptyWorld r) ∈ hist ∧
    m.store.headers overcountedHash = some overcounted.stored ∧
    m.store.bodies overcountedHash = some ([remascTx], []) ∧
    overcounted.stored.uncleCount = 3 ∧ ¬ CountsTrue hist := by
  obtain ⟨s, hingest, hroot, hheader⟩ := overcounted_ingested
  have hbody := @ImportStep.body .regtest .regtest { idle with store := s } overcountedHash
    overcounted.stored ([remascTx], []) hheader
    (mismatch_none ⟨rfl, rfl, rfl, rfl, rfl, rfl⟩ noOmmers_eq.symm)
  set held := putBody { idle with store := s } overcountedHash ([remascTx], [])
    with hheldDef
  have hheld : held.store.bodies overcountedHash = some ([remascTx], []) := by
    simp [hheldDef, putBody]
  obtain ⟨r, hr⟩ : ∃ r, Processor.regtest.Accepts held.store
      ⟨overcounted.stored, [remascTx], []⟩ emptyWorld r :=
    accepted_of_uncles hroot rfl rfl rfl ⟨rfl, rfl, rfl, rfl, rfl, rfl⟩ noOmmers_eq.symm
      (by decide) rfl
  have himport := @ImportStep.importBlock .regtest .regtest held overcountedHash
    overcounted.stored ([remascTx], []) emptyWorld r hheader hheld hr
  refine ⟨_, _, held, r, ((Run.init.step hingest).step hbody).step himport,
    mem_cons_self .., hheader, hheld, rfl, ?_⟩
  intro hcounts
  have hcount := hcounts held overcountedHash emptyWorld r overcounted.stored ([remascTx], [])
    (mem_cons_self ..) hheader hheld
  exact absurd hcount (by decide)

end RegtestChain

end Rustock
