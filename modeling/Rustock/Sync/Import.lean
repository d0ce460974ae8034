import Rustock.Execution.RemascBlock
import Rustock.Sync.HeaderChain
import Rustock.Sync.UncleGuard

/-!
# Importing blocks, and the uncles they credit

The ways an uncle list reaches a total difficulty, as steps of one node: headers that come
with their uncles and pass the guard, headers ingested with whatever is proved or held by
then, bodies that arrive from a peer or a local source, and blocks that are imported.
-/

namespace Rustock

open Lib List Function BlockStore IngestEnv UncleGuard AncestorSource UnclesValidationRule
open HeaderVerifier (defaultRsk)
open Processor (regtest)

structure ImportNode where
  store : BlockStore
  guard : UncleGuard
  /-- Cumulative difficulties by header hash. -/
  proven : B256 → Option U256

inductive ImportEvent where
  /-- One header that came with its uncles. -/
  | entry (clock : Option UInt64) (e : HeaderWithUncles)
  /-- `proven` reached its limit and was cleared. -/
  | forget
  /-- A batch of headers is ingested. -/
  | ingest (clock : Option UInt64) (headers : List Header)
  /-- A peer's body, checked against the header. -/
  | body (hash : B256) (body : Body)
  /-- A body from the local block source, which is not checked. -/
  | localBody (hash : B256) (body : Body)
  /-- A block is validated and executed. -/
  | importBlock (hash : B256) (state : World) (result : ProcessedBlock)

namespace ImportNode

def lookUp (n : ImportNode) (hash : B256) : Option Header := n.guard.lookUp n.store hash

def putBody (n : ImportNode) (hash : B256) (body : Body) : ImportNode :=
  { n with store := { n.store with bodies := update n.store.bodies hash (some body) } }

end ImportNode

def bodyMismatch (p : Processor) (header : Header) (body : Body) : Option String :=
  if p.orderedTxTrieRoot true body.1 ≠ header.transactionsRoot ∧
      p.orderedTxTrieRoot false body.1 ≠ header.transactionsRoot then some "transactions"
  else if computeOmmersHash body.2 ≠ header.ommersHash then some "uncles"
  else none

section Runs

variable (p : Processor) (config : ChainConfig)

def ImportNode.ingestEnv (n : ImportNode) (clock : Option UInt64) : IngestEnv :=
  ⟨p.current, config, clock, n.proven⟩

inductive ImportStep : ImportNode → ImportEvent → ImportNode → Prop where
  | proven {n : ImportNode} {clock : Option UInt64} {e : HeaderWithUncles} {g : UncleGuard} :
      n.guard.unclesAreProven p.current n.store (.defaultRsk config clock) e = some g →
      ImportStep n (.entry clock e)
        { n with
          guard := g
          proven := update n.proven (e.header.hash p.current)
            (some e.cumulativeDifficulty) }
  | notProven {n : ImportNode} {clock : Option UInt64} {e : HeaderWithUncles} :
      n.guard.unclesAreProven p.current n.store (.defaultRsk config clock) e = none →
      ImportStep n (.entry clock e) n
  | forget {n : ImportNode} : ImportStep n .forget { n with proven := fun _ => none }
  | ingest {n : ImportNode} {clock : Option UInt64} {headers : List Header} :
      ImportStep n (.ingest clock headers)
        { n with store := ((n.ingestEnv p config clock).ingestHeaders n.store headers).1 }
  | body {n : ImportNode} {hash : B256} {header : Header} {body : Body} :
      n.store.headers hash = some header → bodyMismatch p header body = none →
      ImportStep n (.body hash body) (n.putBody hash body)
  | localBody {n : ImportNode} {hash : B256} {body : Body} :
      ImportStep n (.localBody hash body) (n.putBody hash body)
  | importBlock {n : ImportNode} {hash : B256} {header : Header} {body : Body} {state : World}
      {result : ProcessedBlock} :
      n.store.headers hash = some header → n.store.bodies hash = some body →
      p.Accepts n.store ⟨header, body.1, body.2⟩ state result →
      ImportStep n (.importBlock hash state result) n

def ImportNode.genesis (root : B256) (genesis : Header) : ImportNode where
  store := genesisStore root genesis
  guard := .new
  proven := fun _ => none

/-- **The condition on a step**: an uncle list enters the store only if the guard has
admitted it for that block and still holds it. -/
def AdmittedBody (n : ImportNode) : ImportEvent → Prop
  | .body hash body | .localBody hash body =>
    body.2 = [] ∨ n.guard.byBlock hash = some body.2
  | _ => True

/-- At some step of the history the uncle passed every static rule, and every parent rule
against the header the node held under its parent hash. -/
def UncleChecked (hist : List (ImportNode × ImportEvent)) (uncle : Header) : Prop :=
  ∃ n e clock parent, (n, e) ∈ hist ∧ n.lookUp uncle.parentHash = some parent ∧
    (∀ r ∈ (defaultRsk config clock).staticRules, r uncle = .ok ()) ∧
    ∀ r ∈ (defaultRsk config clock).parentRules, r uncle parent = .ok ()

/-- An amount is covered for the block of hash `hash`: at most the difficulty of a header of
that hash and of checked uncles. -/
def WorkCovered (hist : List (ImportNode × ImportEvent)) (hash : B256) (amount : U256) : Prop :=
  ∃ (own : Header) (uncles : List Header), own.hash p.current = hash ∧
    (∀ u ∈ uncles, UncleChecked config hist u) ∧
    amount.toNat ≤ own.difficulty.toNat + (uncles.map fun u => u.difficulty.toNat).sum

structure CreditInvariant (hist : List (ImportNode × ImportEvent)) (n : ImportNode) : Prop where
  window : ∀ h list, n.guard.byBlock h = some list → ∀ u ∈ list, UncleChecked config hist u
  bodies : ∀ h body, n.store.bodies h = some body → ∀ u ∈ body.2, UncleChecked config hist u
  proven : ∀ h amount, n.proven h = some amount → WorkCovered p config hist h amount
  imported : ∀ m hash state result body, (m, .importBlock hash state result) ∈ hist →
    m.store.bodies hash = some body → ∀ u ∈ body.2, UncleChecked config hist u
  ingested : ∀ m clock headers, (m, .ingest clock headers) ∈ hist →
    ∀ e ∈ ((m.ingestEnv p config clock).ingestLoop m.store headers).validated,
      ((m.store.headers (e.1.hash p.current)).isSome ∨
        ∃ parent, (m.ingestEnv p config clock).verify e.1 (some parent) = .ok ()) ∧
      WorkCovered p config hist (e.1.hash p.current)
        ((m.ingestEnv p config clock).contribution m.store e.1)

variable {p config} {n n' : ImportNode} {hist : List (ImportNode × ImportEvent)}
  {e : ImportEvent}

lemma UncleChecked.cons {u : Header} (h : UncleChecked config hist u)
  (step : ImportNode × ImportEvent) : UncleChecked config (step :: hist) u := by
  obtain ⟨m, e, clock, parent, hmem, hrest⟩ := h
  exact ⟨m, e, clock, parent, mem_cons_of_mem _ hmem, hrest⟩

lemma WorkCovered.cons {hash : B256} {amount : U256}
  (h : WorkCovered p config hist hash amount) (step : ImportNode × ImportEvent) :
  WorkCovered p config (step :: hist) hash amount := by
  obtain ⟨own, uncles, hown, huncles, hle⟩ := h
  exact ⟨own, uncles, hown, fun u hu => (huncles u hu).cons step, hle⟩

lemma foldl_saturatingAdd_le (uncles : List Header) (start : U256) :
  (uncles.foldl (fun total uncle => U256.saturatingAdd total uncle.difficulty) start).toNat ≤
    start.toNat + (uncles.map fun u => u.difficulty.toNat).sum := by
  induction uncles generalizing start with
  | nil => simp
  | cons u uncles ih =>
    have hstep := ih (U256.saturatingAdd start u.difficulty)
    rw [U256.toNat_saturatingAdd] at hstep
    rw [foldl_cons, map_cons, sum_cons]
    omega

lemma CreditInvariant.cumulative (hi : CreditInvariant p config hist n) {header : Header}
  {amount : U256} (h : n.store.cumulativeDifficulty (header.hash p.current) header = some amount) :
  WorkCovered p config hist (header.hash p.current) amount := by
  unfold cumulativeDifficulty at h
  split at h
  · obtain rfl := Option.some.inj h
    exact ⟨header, [], rfl, by simp, by simp⟩
  obtain ⟨body, hbody, rfl⟩ := Option.map_eq_some_iff.mp h
  exact ⟨header, body.2, rfl, hi.bodies _ _ hbody, foldl_saturatingAdd_le _ _⟩

lemma CreditInvariant.contribution (hi : CreditInvariant p config hist n)
  (clock : Option UInt64) (header : Header) : WorkCovered p config hist (header.hash p.current)
    ((n.ingestEnv p config clock).contribution n.store header) := by
  have hcurrent : (n.ingestEnv p config clock).current = p.current := rfl
  have hproven : (n.ingestEnv p config clock).proven = n.proven := rfl
  unfold IngestEnv.contribution
  rw [hcurrent, hproven]
  cases hp : n.proven (header.hash p.current) with
  | some amount => exact hi.proven _ _ hp
  | none =>
    cases hc : n.store.cumulativeDifficulty (header.hash p.current) header with
    | some amount => simpa [hc] using hi.cumulative hc
    | none => simpa [hc] using ⟨header, [], rfl, by simp, by simp⟩

lemma ingestHeaders_bodies (env : IngestEnv) (s : BlockStore) (headers : List Header) :
  (env.ingestHeaders s headers).1.bodies = s.bodies := by
  unfold ingestHeaders
  split
  · rfl
  obtain ⟨-, -, hbodies, -⟩ := @BlockStore.storeHeadersBatch_spec env.current s
    (env.ingestLoop s headers).validated ((s.head.bind s.totalDifficulty).getD 0)
  exact hbodies

lemma CreditInvariant.carry (hi : CreditInvariant p config hist n) (e : ImportEvent) :
  CreditInvariant p config ((n, e) :: hist) n where
  window h list hl u hu := (hi.window h list hl u hu).cons _
  bodies h body hb u hu := (hi.bodies h body hb u hu).cons _
  proven h amount ha := (hi.proven h amount ha).cons _
  imported m hash state result body hmem hb u hu := by
    rcases mem_cons.mp hmem with heq | hmem
    · obtain ⟨rfl, -⟩ := Prod.mk.inj heq
      exact (hi.bodies hash body hb u hu).cons _
    · exact (hi.imported m hash state result body hmem hb u hu).cons _
  ingested m clock headers hmem x hx := by
    rcases mem_cons.mp hmem with heq | hmem
    · obtain ⟨rfl, -⟩ := Prod.mk.inj heq
      obtain ⟨-, hverified⟩ := validated_spec hx
      exact ⟨hverified, (hi.contribution clock x.1).cons _⟩
    obtain ⟨hverified, hcovered⟩ := hi.ingested m clock headers hmem x hx
    exact ⟨hverified, hcovered.cons _⟩

variable {hash : B256} {body : Body}

lemma CreditInvariant.putBody (hi : CreditInvariant p config hist n)
  (hbody : ∀ u ∈ body.2, UncleChecked config hist u) :
  CreditInvariant p config hist (n.putBody hash body) where
  window := hi.window
  bodies h b hb := by
    by_cases heq : h = hash
    · subst heq
      have hb' : some body = some b := by simpa [ImportNode.putBody] using hb
      obtain rfl := Option.some.inj hb'
      exact hbody
    refine hi.bodies h b ?_
    simpa [ImportNode.putBody, update_of_ne heq] using hb
  proven := hi.proven
  imported := hi.imported
  ingested := hi.ingested

lemma uncleChecked_of_proven {clock : Option UInt64} {x : HeaderWithUncles} {g : UncleGuard}
  (h : n.guard.unclesAreProven p.current n.store (.defaultRsk config clock) x = some g) :
  ∀ u ∈ x.uncles, UncleChecked config ((n, .entry clock x) :: hist) u := by
  intro u hu
  obtain ⟨hstatic, parent, hparent, hrules⟩ := (unclesAreProven_uncle h).2 u hu
  exact ⟨n, _, clock, parent, mem_cons_self .., hparent, hstatic, hrules⟩

lemma CreditInvariant.admitted (hi : CreditInvariant p config hist n)
  (h : body.2 = [] ∨ n.guard.byBlock hash = some body.2) :
  ∀ u ∈ body.2, UncleChecked config hist u := by
  rcases h with hnil | hheld
  · simp [hnil]
  · exact hi.window hash body.2 hheld

/-- **One step that meets the condition keeps the invariant.** -/
theorem CreditInvariant.step (hi : CreditInvariant p config hist n)
  (hadmitted : AdmittedBody n e) (hstep : ImportStep p config n e n') :
  CreditInvariant p config ((n, e) :: hist) n' := by
  have hcarry := hi.carry e
  cases hstep with
  | @proven clock x g hproven =>
    have hchecked := @uncleChecked_of_proven p config n hist clock x g hproven
    obtain ⟨rfl, -⟩ := unclesAreProven_uncle hproven
    refine { hcarry with window := ?_, proven := ?_ }
    · intro h list hl
      rcases byBlock_record hl with rfl | hold
      · exact hchecked
      · exact hcarry.window h list hold
    intro h amount ha
    dsimp only at ha
    by_cases heq : h = x.header.hash p.current
    · subst heq
      rw [update_self] at ha
      obtain rfl := Option.some.inj ha
      exact ⟨x.header, x.uncles, rfl, hchecked, foldl_saturatingAdd_le _ _⟩
    rw [update_of_ne heq] at ha
    exact hcarry.proven h amount ha
  | notProven _ => exact hcarry
  | forget => exact { hcarry with proven := by intro h amount ha; simp at ha }
  | ingest =>
    refine { hcarry with bodies := ?_ }
    intro h body hb
    rw [ingestHeaders_bodies] at hb
    exact hcarry.bodies h body hb
  | body | localBody => exact hcarry.putBody (hcarry.admitted hadmitted)
  | importBlock _ _ _ => exact hcarry

lemma CreditInvariant.init (root : B256) (genesis : Header) :
  CreditInvariant p config [] (.genesis root genesis) where
  window h list hl := by simp [ImportNode.genesis, new] at hl
  bodies h body hb := by simp [ImportNode.genesis, genesisStore] at hb
  proven h amount ha := by simp [ImportNode.genesis] at ha
  imported m hash state result body hmem := by simp at hmem
  ingested m clock headers hmem := by simp at hmem

end Runs

namespace RegtestChain

section Nephew

variable {ommers hash : B256} (hhash : (nephewOf ommers).hash .regtest = hash)
  (hnew : root ≠ hash ∧ childHash ≠ hash)
  (hverified : (defaultRsk .regtest (some 0)).verify (nephewOf ommers) (some child) = .ok ())

include hhash hnew hverified

theorem batch_nephew : (batch [child, nephewOf ommers]).batch .regtest .regtest start =
    [(child, 2), (nephewOf ommers, 3)] := by
  have hascending : ascending [child, nephewOf ommers] = [child, nephewOf ommers] := by
    have hchild : child.number = 1 := rfl
    have hnephew : (nephewOf ommers).number = 2 := rfl
    simp [ascending, hchild, hnephew]
  have hchild : env.ingestStep start initialLoop child =
      ⟨some (child, 2), [(child, 2)], [childHash], 0, 0⟩ := by
    rw [ingestStep_of_verified env child_hash (by simp [initialLoop])
      (resolveParent_genesis rfl) (child_verified 0), contribution_start rfl]
    rfl
  have hnephew : env.ingestStep start ⟨some (child, 2), [(child, 2)], [childHash], 0, 0⟩
      (nephewOf ommers) = ⟨some (nephewOf ommers, 3), [(child, 2), (nephewOf ommers, 3)],
        [hash, childHash], 0, 0⟩ := by
    have hparent : env.resolveParent start (some (child, 2)) (nephewOf ommers) =
        some (some child, 2) := by
      have hlink : child.hash env.current = (nephewOf ommers).parentHash := child_hash
      rw [resolveParent, if_pos hlink]
    have hown : env.contribution start (nephewOf ommers) = 1 := by
      have huncles : (nephewOf ommers).uncleCount = 1 := rfl
      simp [IngestEnv.contribution, env, batch, HeaderEvent.env,
        cumulativeDifficulty, huncles, start, genesisStore]
      rfl
    have hfresh : hash ∉ [childHash] := by simpa using hnew.2.symm
    refine Eq.trans (ingestStep_of_verified env hhash hfresh hparent hverified) ?_
    rw [hown]
    rfl
  rw [batch_eq, hascending, foldl_cons, foldl_cons, foldl_nil, hchild, hnephew]

/-- Both blocks arrive in one batch of headers. -/
theorem nephew_ingested : ∃ s, ImportStep .regtest .regtest (.genesis root genesis)
      (.ingest (some 0) [child, nephewOf ommers]) { ImportNode.genesis root genesis with store := s } ∧
    s.headers root = some genesis.stored ∧ s.headers childHash = some child.stored ∧
    s.headers hash = some (nephewOf ommers).stored ∧ s.bodies = fun _ => none := by
  obtain ⟨hheaders, -, -⟩ :=
    HeaderEvent.step_spec (@step_iff [child, nephewOf ommers] _ |>.mpr rfl)
  have hbodies : (env.ingestHeaders start [child, nephewOf ommers]).1.bodies = fun _ => none :=
    ingestHeaders_bodies ..
  have hdiffer : root ≠ childHash := by decide
  rw [batch_nephew hhash hnew hverified, found_start, foldl_cons, foldl_cons, foldl_nil, putHeader,
    putHeader, hhash, child_hash] at hheaders
  have hput : (env.ingestHeaders start [child, nephewOf ommers]).1.headers =
      update (update start.headers childHash (some child.stored)) hash
        (some (nephewOf ommers).stored) :=
    hheaders
  have hstep := @ImportStep.ingest .regtest .regtest (.genesis root genesis) (some 0)
    [child, nephewOf ommers]
  have henv : (ImportNode.genesis root genesis).ingestEnv .regtest .regtest (some 0) = env := rfl
  have hstore : (ImportNode.genesis root genesis).store = start := rfl
  rw [henv, hstore] at hstep
  refine ⟨_, hstep, ?_, ?_, ?_, hbodies⟩
  · rw [hput, update_of_ne hnew.1, update_of_ne hdiffer, start_headers, if_pos rfl]
  · rw [hput, update_of_ne hnew.2, update_self]
  rw [hput, update_self]

end Nephew

abbrev idle : ImportNode := .genesis root genesis

variable {s : BlockStore} {header : Header} {ommers : List Header}

lemma accepted_of_uncles {parent : Header} {state : World}
  (hparent : s.headers header.parentHash = some parent)
  (hparentPrice : parent.minimumGasPrice = 0) (hextra : header.extraData = [])
  (hprice : header.minimumGasPrice = 0) (hstates : Processor.StatesNothing header)
  (hcommitted : header.ommersHash = computeOmmersHash ommers)
  (hyoung : candidateNumber .regtest header.number = none)
  (huncles : (regtest.unclesRule s).validate ⟨header, [remascTx], ommers⟩ = .ok ()) :
  ∃ r, regtest.Accepts s ⟨header, [remascTx], ommers⟩ state r := by
  have hall : ∀ tx ∈ [remascTx], isRemascTx tx = true := by decide
  obtain ⟨r, hr⟩ := @Processor.processBlock_remascOnly s ⟨header, [remascTx], ommers⟩ state
    none hstates hcommitted (RemascEnv.onlyAccrues_young hyoung) hall
  refine ⟨r, Processor.validateBlock_remascOnly hall (by simp) hextra hprice ?_ huncles, hr⟩
  intro p hp
  obtain rfl := Option.some.inj (hparent.symm.trans hp)
  exact hparentPrice

lemma child_accepted {s : BlockStore} (hroot : s.headers root = some genesis.stored)
  (state : World) : ∃ r, regtest.Accepts s ⟨child.stored, [remascTx], []⟩ state r :=
  accepted_of_uncles hroot rfl rfl rfl ⟨rfl, rfl, rfl, rfl, rfl, rfl⟩ noOmmers_eq.symm
    (by decide) rfl

/-- An uncle of height 1 passes the uncle rule under a block on `child`, if it passes the rules
of the caller. -/
theorem passes_unclesRule {rule : UnclesValidationRule} {uncleHash : B256}
    {header uncle held : Header} {txs : List Transaction}
    (hnumber : header.number = 2) (hon : header.parentHash = childHash)
    (hlimits : rule.current = .regtest ∧ rule.uncleListLimit = uncleListLimit ∧
      rule.uncleGenerationLimit = uncleGenerationLimit)
    (hchild : rule.store.header childHash = some held)
    (hheld : held.parentHash = root ∧ held.number = 1)
    (hroot : rule.store.header root = some genesis.stored)
    (hused : rule.store.unclesOf childHash = [] ∧ rule.store.unclesOf root = [])
    (huncle : uncle.parentHash = root ∧ uncle.number = 1)
    (hhash : uncle.hash .regtest = uncleHash) (hother : uncleHash ∉ [childHash, root])
    (hstatic : ∀ r ∈ rule.headerRules, r uncle = .ok ())
    (hparent : ∀ r ∈ rule.parentRules, r uncle genesis.stored = .ok ()) :
    rule.validate ⟨header, txs, [uncle]⟩ = .ok () := by
  have hzero : genesis.number = 0 := rfl
  have hwalk : rule.store.walk 0 3 childHash = [(childHash, held), (root, genesis.stored)] := by
    simp [walk, hchild, hroot, hheld, hzero]
  have hfloor : saturatingSub64 2 uncleGenerationLimit = 0 := by decide
  have hfuel : (2 : UInt64).toNat + 1 = 3 := by decide
  have hancestors : rule.store.ancestors 2 childHash uncleGenerationLimit = [childHash, root] := by
    rw [ancestors, hfloor, hfuel, hwalk]
    rfl
  have husedList : rule.store.usedUncles .regtest 2 childHash uncleGenerationLimit = [] := by
    rw [usedUncles, hfloor, hfuel, hwalk]
    simp [hused]
  have hone : rule.validateUncle 2 [childHash, root] [] [] uncle = .ok () := by
    have hfound : (rule.store.header uncle.parentHash).filter
        (fun _ => uncle.parentHash ∈ [childHash, root]) = some genesis.stored := by
      rw [huncle.1, hroot, Option.filter_some, if_pos (by simp)]
    simp only [validateUncle, verdict_bind_eq_ok, rejectIf_eq_ok, runAll_eq_ok_iff, hlimits.1,
      hlimits.2.2, huncle.2, hhash, hfound]
    exact ⟨hstatic, by decide, by decide, by simp, hother, by simp, hparent⟩
  unfold validate
  rw [if_neg (by simp)]
  dsimp only
  rw [hlimits.1, hlimits.2.1, hlimits.2.2, hnumber, hon, hancestors, husedList, verdict_bind_eq_ok]
  refine ⟨rfl, ?_⟩
  rw [validateList, hone]
  rfl

/-- The import path hands the uncle rule no rules of its own. -/
theorem nephew_accepted {ommers uncleHash : B256} {uncle : Header}
    (hroot : s.headers root = some genesis.stored)
    (hchild : s.headers childHash = some child.stored)
    (hbody : ∀ body, s.bodies childHash = some body → body.2 = [])
    (hgenesisBody : s.bodies root = none)
    (huncle : uncle.parentHash = root ∧ uncle.number = 1)
    (hhash : uncle.hash .regtest = uncleHash) (hother : uncleHash ∉ [childHash, root])
    (hcommitted : computeOmmersHash [uncle] = ommers) (state : World) :
    ∃ r, regtest.Accepts s ⟨(nephewOf ommers).stored, [remascTx], [uncle]⟩ state r := by
  have hchildUncles : (storeAncestry s).unclesOf childHash = [] := by
    cases h : s.bodies childHash with
    | none => simp [storeAncestry, h]
    | some body => simpa [storeAncestry, h] using hbody body h
  have hrootUncles : (storeAncestry s).unclesOf root = [] := by simp [storeAncestry, hgenesisBody]
  have hyoung : candidateNumber .regtest 2 = none := by decide
  refine accepted_of_uncles hchild rfl rfl rfl ⟨rfl, rfl, rfl, rfl, rfl, rfl⟩ hcommitted.symm
    hyoung ?_
  exact @passes_unclesRule (regtest.unclesRule s) _ _ _ _ _ rfl rfl ⟨rfl, rfl, rfl⟩ hchild ⟨rfl, rfl⟩ hroot
    ⟨hchildUncles, hrootUncles⟩ huncle hhash hother (by simp [Processor.unclesRule])
    (by simp [Processor.unclesRule])

lemma mismatch_none (hstates : Processor.StatesNothing header)
  (hcommitted : header.ommersHash = computeOmmersHash ommers) :
  bodyMismatch .regtest header ([remascTx], ommers) = none := by
  have hroot : regtest.orderedTxTrieRoot true [remascTx] = header.transactionsRoot :=
    hstates.transactionsRoot.symm
  simp [bodyMismatch, hroot, hcommitted]

section Imported

variable {n : ImportNode} {hist : List (ImportNode × ImportEvent)} {ommers hash uncleHash : B256}
  {uncle : Header}

/-- The node once the body of `child` has come. -/
def withChild (n : ImportNode) : ImportNode := n.putBody childHash ([remascTx], [])

/-- The node once the body of the nephew has come too. -/
def withNephew (n : ImportNode) (hash : B256) (uncle : Header) : ImportNode :=
  (withChild n).putBody hash ([remascTx], [uncle])

/-- From a node that holds the headers, both bodies come and both blocks are imported. -/
theorem nephew_imported {start : ImportNode}
    (hrun : Run (ImportStep .regtest .regtest) start hist n)
    (hroot : n.store.headers root = some genesis.stored)
    (hchild : n.store.headers childHash = some child.stored)
    (hnephew : n.store.headers hash = some (nephewOf ommers).stored)
    (hbodies : n.store.bodies = fun _ => none) (hnew : root ≠ hash ∧ childHash ≠ hash)
    (huncle : uncle.parentHash = root ∧ uncle.number = 1)
    (hhash : uncle.hash .regtest = uncleHash) (hother : uncleHash ∉ [childHash, root])
    (hcommitted : computeOmmersHash [uncle] = ommers) :
    ∃ r r', Run (ImportStep .regtest .regtest) start
      ((withNephew n hash uncle, .importBlock hash r.newState r') ::
        (withChild n, .body hash ([remascTx], [uncle])) ::
        (withChild n, .importBlock childHash emptyWorld r) ::
        (n, .body childHash ([remascTx], [])) :: hist) (withNephew n hash uncle) := by
  have hdiffer : root ≠ childHash := by decide
  have hchildBody : ImportStep .regtest .regtest n (.body childHash ([remascTx], []))
      (withChild n) :=
    .body hchild (mismatch_none ⟨rfl, rfl, rfl, rfl, rfl, rfl⟩ noOmmers_eq.symm)
  obtain ⟨r, hr⟩ := @child_accepted (withChild n).store hroot emptyWorld
  have hheld : (withChild n).store.bodies childHash = some ([remascTx], []) := by
    simp [withChild, ImportNode.putBody]
  have hchildImport : ImportStep .regtest .regtest (withChild n)
      (.importBlock childHash emptyWorld r) (withChild n) :=
    .importBlock hchild hheld hr
  have hbody : ImportStep .regtest .regtest (withChild n) (.body hash ([remascTx], [uncle]))
      (withNephew n hash uncle) :=
    .body hnephew (mismatch_none ⟨rfl, rfl, rfl, rfl, rfl, rfl⟩ hcommitted.symm)
  obtain ⟨r', hr'⟩ := @nephew_accepted (withNephew n hash uncle).store ommers uncleHash uncle
    hroot hchild (by simp [withNephew, withChild, ImportNode.putBody, hnew.2])
    (by simp [withNephew, withChild, ImportNode.putBody, hbodies, hnew.1, hdiffer]) huncle hhash
    hother hcommitted r.newState
  have hheld' : (withNephew n hash uncle).store.bodies hash = some ([remascTx], [uncle]) := by
    simp [withNephew, ImportNode.putBody]
  have himport : ImportStep .regtest .regtest (withNephew n hash uncle)
      (.importBlock hash r.newState r') (withNephew n hash uncle) :=
    .importBlock hnephew hheld' hr'
  exact ⟨r, r', (((hrun.step hchildBody).step hchildImport).step hbody).step himport⟩

end Imported

/-! ### A run whose uncle the guard has admitted -/

/-- The guard after the two headers have come with their uncles. -/
def admitting : UncleGuard :=
  (UncleGuard.new.record .regtest child []).record .regtest second [first]

theorem child_proven (s : BlockStore) (clock : Option UInt64) :
    new.unclesAreProven .regtest s (.defaultRsk .regtest clock) ⟨child, []⟩ =
      some (new.record .regtest child []) := by
  have hmatch : HeaderWithUncles.commitmentMatches ⟨child, []⟩ = true := by
    have hommers : child.ommersHash = noOmmers := rfl
    have hcount : child.uncleCount = 0 := rfl
    simp [HeaderWithUncles.commitmentMatches, noOmmers_eq, hommers, hcount]
  simp [unclesAreProven, hmatch, unclesAreAdmissible]

theorem child_recorded : (new.record .regtest child []).headers = update (fun _ => none) childHash
      (some child) ∧
    (new.record .regtest child []).byBlock = update (fun _ => none) childHash (some []) := by
  have hfloor : saturatingSub64 child.number slack = 0 := by decide
  simp [record, new, child_hash, hfloor]

/-- The mined uncle `first` is admitted for `second`: its list is the one committed to, the
window holds the ancestry, and `first` passes every rule of the verifier. -/
theorem second_proven (hroot : s.headers root = some genesis.stored) :
    (new.record .regtest child []).unclesAreProven .regtest s (.defaultRsk .regtest (some 0))
      ⟨second, [first]⟩ = some admitting := by
  rw [admitting]
  obtain ⟨hheaders, hlists⟩ := child_recorded
  generalize new.record .regtest child [] = g at hheaders hlists ⊢
  have hmatch : HeaderWithUncles.commitmentMatches ⟨second, [first]⟩ = true := by
    have hommers : second.ommersHash = firstOmmers := rfl
    have hcount : second.uncleCount = 1 := rfl
    simp [HeaderWithUncles.commitmentMatches, second_hashes.1, hommers, hcount]
  have hdiffer : root ≠ childHash := by decide
  have hchild : g.lookUp s childHash = some child := by simp [lookUp, hheaders]
  have hrootHeld : g.lookUp s root = some genesis.stored := by
    simp [lookUp, hheaders, hdiffer, hroot]
  have hwindow : g.byBlock childHash = some [] ∧ g.byBlock root = none := by
    simp [hlists, hdiffer]
  have hused : (g.guardedAncestors s).unclesOf childHash = [] ∧
      (g.guardedAncestors s).unclesOf root = [] := by
    simp [guardedAncestors, hwindow]
  have hcomplete : g.ancestryIsComplete s (saturatingSub64 2 uncleGenerationLimit) 3 childHash =
      true := by
    have hone : child.number = 1 := rfl
    have hzero : genesis.number = 0 := rfl
    have hon : child.parentHash = root := rfl
    have hfloor : saturatingSub64 2 uncleGenerationLimit = 0 := by decide
    simp [ancestryIsComplete, hchild, hrootHeld, hwindow, hone, hzero, hon, hfloor]
  obtain ⟨hstatic, hparent⟩ := HeaderVerifier.verify_some_eq_ok_iff.mp (first_verified 0)
  have hrule : UnclesValidationRule.validate ⟨.regtest, g.guardedAncestors s, uncleListLimit,
      uncleGenerationLimit, (defaultRsk .regtest (some 0)).staticRules,
      (defaultRsk .regtest (some 0)).parentRules⟩ ⟨second, [], [first]⟩ = .ok () :=
    @passes_unclesRule ⟨.regtest, g.guardedAncestors s, _, _, _, _⟩ firstHash second first child []
      rfl rfl ⟨rfl, rfl, rfl⟩ hchild ⟨rfl, rfl⟩ hrootHeld hused ⟨rfl, rfl⟩ first_hash (by decide)
      hstatic hparent
  have hnumber : second.number = 2 := rfl
  have hon : second.parentHash = childHash := rfl
  have hcount : UInt64.ofNat [first].length = second.uncleCount := rfl
  have hfuel : (2 : UInt64).toNat + 1 = 3 := by decide
  rw [unclesAreProven, if_pos hmatch]
  simp only [unclesAreAdmissible, hnumber, hon, hfuel, hcomplete, hrule, hcount]
  rfl

/-- The guard holds both blocks with their lists. -/
theorem admitting_holds : admitting.headers childHash = some child ∧
    admitting.byBlock childHash = some [] ∧ admitting.headers secondHash = some second ∧
    admitting.byBlock secondHash = some [first] := by
  have hdiffer : childHash ≠ secondHash := by decide
  have hheights : (new.record .regtest child []).byHeight = [(1, childHash)] := by
    have hfloor : saturatingSub64 child.number slack = 0 := by decide
    simp [record, new, child_hash, hfloor]
    rfl
  have hfloor : saturatingSub64 second.number slack = 0 := by decide
  rw [admitting, record, second_hashes.2, hfloor, hheights, child_recorded.1, child_recorded.2]
  simp [hdiffer]

/-- Both headers come in a batch and once more with their uncles, then both bodies, and both
blocks are imported: every body and every import is of a block the guard holds. -/
theorem second_imported : ∃ hist n state r,
    Run (ImportStep .regtest .regtest) (.genesis root genesis) hist n ∧
    (n, .importBlock secondHash state r) ∈ hist ∧
    n.store.bodies secondHash = some ([remascTx], [first]) ∧
    (∀ q ∈ hist, AdmittedBody q.1 q.2) ∧
    ∀ q ∈ hist, ∀ hash state result, q.2 = .importBlock hash state result →
      ∃ header body, q.1.guard.headers hash = some header ∧
        q.1.store.headers hash = some header.stored ∧ q.1.store.bodies hash = some body ∧
        q.1.guard.byBlock hash = some body.2 := by
  have hdiffer : root ≠ secondHash ∧ childHash ≠ secondHash := by decide
  obtain ⟨s, hingest, hroot, hchild, hsecond, hbodies⟩ :=
    @nephew_ingested firstOmmers secondHash second_hashes.2 hdiffer (second_verified 0)
  have hfirst := @ImportStep.proven .regtest .regtest { idle with store := s } (some 0)
    ⟨child, []⟩ _ (child_proven s (some 0))
  set entered : ImportNode :=
    { store := s
      guard := new.record .regtest child []
      proven := update idle.proven (child.hash .regtest)
        (some (HeaderWithUncles.cumulativeDifficulty ⟨child, []⟩)) }
  have hadmitted := @ImportStep.proven .regtest .regtest entered (some 0) ⟨second, [first]⟩ _
    (second_proven hroot)
  set ready : ImportNode :=
    { store := s
      guard := admitting
      proven := update entered.proven (second.hash .regtest)
        (some (HeaderWithUncles.cumulativeDifficulty ⟨second, [first]⟩)) }
  obtain ⟨r, r', hrun⟩ := @nephew_imported ready _ firstOmmers secondHash firstHash first _
    (((Run.init.step hingest).step hfirst).step hadmitted) hroot hchild hsecond hbodies hdiffer
    ⟨rfl, rfl⟩ first_hash (by decide) second_hashes.1
  obtain ⟨hheldChild, hlistChild, hheldSecond, hlistSecond⟩ := admitting_holds
  refine ⟨_, _, r.newState, r', hrun, mem_cons_self .., by simp [withNephew, ImportNode.putBody],
    ?_, ?_⟩
  · simp only [forall_mem_cons, not_mem_nil, false_implies, implies_true, and_true]
    exact ⟨trivial, .inr hlistSecond, trivial, .inl rfl, trivial, trivial, trivial⟩
  · intro q hq hash state result heq
    simp only [mem_cons, not_mem_nil, or_false] at hq
    rcases hq with rfl | rfl | rfl | rfl | rfl | rfl | rfl <;> cases heq
    · exact ⟨second, ([remascTx], [first]), hheldSecond, hsecond,
        by simp [withNephew, ImportNode.putBody], hlistSecond⟩
    · exact ⟨child, ([remascTx], []), hheldChild, hchild, by simp [withChild, ImportNode.putBody],
        hlistChild⟩

end RegtestChain

end Rustock
