import Rustock.Core.Mined
import Rustock.Sync.Ingest
import Rustock.Lib.Run

/-!
# Every stored header was verified against a stored parent

Runs of header batches of arbitrary content from a store that holds only genesis, and
what they leave in the store.

The condition excludes exactly two branches of the loop. A rejected header stays behind
as the chunk's previous header, so its child is verified against, and built on, a header
the store never got; and a header whose hash is stored already is written without
verification, although from orchid on the hash does not cover the merkle proof and
coinbase (`Header.hash_eq_of_mining_fields`).
-/

namespace Rustock

open Lib List Option Function IngestEnv HeaderVerifier

namespace IngestEnv

variable (env : IngestEnv)

/-- A parent of hash `k` the loop can build on: stored, or earlier in the same batch. -/
inductive ParentAt (s : BlockStore) (earlier : List (Header × U256)) (k : B256) :
  Header → U256 → Prop where
  | store {p : Header} : s.headers k = some p →
      ParentAt s earlier k p ((s.totalDifficulty k).getD 0)
  | batch {p : Header} {td : U256} : (p, td) ∈ earlier → p.hash env.current = k →
      ParentAt s earlier k p td

/-- What an entry of the batch write satisfies. The second case is a stored header whose
parent is not stored: genesis, sent again. -/
inductive EntryOk (s : BlockStore) (earlier : List (Header × U256)) :
  Header × U256 → Prop where
  | linked {x p : Header} {td : U256} : env.ParentAt s earlier x.parentHash p td →
      ((s.headers (x.hash env.current)).isSome ∨ env.verify x (some p) = .ok ()) →
      EntryOk s earlier (x, td + env.contribution s x)
  | held {x y : Header} {td : U256} : s.headers x.parentHash = none →
      s.headers (x.hash env.current) = some y → EntryOk s earlier (x, td)

inductive BatchOk (s : BlockStore) : List (Header × U256) → Prop where
  | nil : BatchOk s []
  | snoc {l : List (Header × U256)} {e : Header × U256} : BatchOk s l →
      env.EntryOk s l e → (∀ e' ∈ l, e'.1.hash env.current ≠ e.1.hash env.current) →
      BatchOk s (l ++ [e])

def PrevRecorded (st : IngestLoop) (x : Header) : Prop :=
  ∀ p td, st.prevInChunk = some (p, td) → p.hash env.current = x.parentHash →
    (p, td) ∈ st.validated

def SameAsStored (s : BlockStore) (x : Header) : Prop :=
  ∀ y, s.headers (x.hash env.current) = some y → x.stored = y

/-- **The condition on a batch.** No header is built on a rejected one, and no header of a
stored hash differs from what is stored. -/
def BatchCondition (s : BlockStore) (headers : List Header) : Prop :=
  (∀ pre x post, ascending headers = pre ++ x :: post →
    env.PrevRecorded (pre.foldl (env.ingestStep s) initialLoop) x) ∧
  ∀ x ∈ headers, env.SameAsStored s x

variable {env} {s : BlockStore}

/-- Hashes of recorded entries are in `seen`. -/
def SeenRecorded (env : IngestEnv) (st : IngestLoop) : Prop :=
  ∀ e ∈ st.validated, e.1.hash env.current ∈ st.seen

lemma ingestStep_seen (env : IngestEnv) (s : BlockStore) (st : IngestLoop) (x : Header) :
  (∀ h ∈ st.seen, h ∈ (env.ingestStep s st x).seen) ∧
    x.hash env.current ∈ (env.ingestStep s st x).seen := by
  unfold ingestStep
  by_cases hseen : x.hash env.current ∈ st.seen
  · simp [hseen]
  rw [if_neg hseen]
  have hcons : (∀ h ∈ st.seen, h ∈ x.hash env.current :: st.seen) ∧
      x.hash env.current ∈ x.hash env.current :: st.seen :=
    ⟨fun h hh => mem_cons_of_mem _ hh, mem_cons_self ..⟩
  dsimp only
  split
  · exact hcons
  · split <;> exact hcons

lemma ingestStep_batchOk {st : IngestLoop} {x : Header} (hseen : SeenRecorded env st)
  (hok : env.BatchOk s st.validated) (hprev : env.PrevRecorded st x) :
  SeenRecorded env (env.ingestStep s st x) ∧ env.BatchOk s (env.ingestStep s st x).validated := by
  obtain ⟨hmono, hself⟩ := ingestStep_seen env s st x
  have hkeep : (env.ingestStep s st x).validated = st.validated →
      SeenRecorded env (env.ingestStep s st x) ∧
        env.BatchOk s (env.ingestStep s st x).validated := by
    intro h
    refine ⟨fun e he => hmono _ (hseen e (h ▸ he)), h ▸ hok⟩
  cases ingestStep_cases env s st x with
  | duplicate h => exact hkeep (by rw [h])
  | unlinked _ h => exact hkeep h
  | rejected _ _ _ _ h => exact hkeep h
  | @accepted parent td hnew hsource hverified _ h =>
    refine ⟨?_, ?_⟩
    · intro e he
      rw [h, mem_append, mem_singleton] at he
      rcases he with he | rfl
      · exact hmono _ (hseen e he)
      · exact hself
    rw [h]
    refine .snoc hok ?_ fun e' he' heq => hnew (heq ▸ hseen e' he')
    cases hsource with
    | chunk hp hhash =>
      refine .linked (.batch (hprev _ _ hp hhash) hhash) ?_
      simpa using hverified
    | store hp =>
      refine .linked (.store hp) ?_
      simpa using hverified
    | held hnone hheld => exact .held hnone hheld

variable {headers : List Header}

lemma ingestLoop_batchOk (hcond : env.BatchCondition s headers) :
  env.BatchOk s (env.ingestLoop s headers).validated := by
  have hinitial : ∀ pre, pre <+: ascending headers →
      SeenRecorded env (pre.foldl (env.ingestStep s) initialLoop) ∧
        env.BatchOk s (pre.foldl (env.ingestStep s) initialLoop).validated := by
    intro pre
    -- Induction on the part of the batch walked so far.
    induction pre using reverseRecOn with
    | nil => exact fun _ => ⟨fun e he => by simp [initialLoop] at he, .nil⟩
    | append_singleton pre x ih =>
      rintro ⟨post, hpost⟩
      obtain ⟨hseen, hok⟩ := ih ⟨x :: post, by simpa using hpost⟩
      have hprev := hcond.1 pre x post (by simpa using hpost.symm)
      simpa using ingestStep_batchOk hseen hok hprev
  exact (hinitial _ prefix_rfl).2

lemma validated_spec {e : Header × U256} (h : e ∈ (env.ingestLoop s headers).validated) :
  e.1 ∈ headers ∧ ((s.headers (e.1.hash env.current)).isSome ∨
    ∃ p, env.verify e.1 (some p) = .ok ()) := by
  have hinitial : ∀ pre : List Header, ∀ e ∈ (pre.foldl (env.ingestStep s) initialLoop).validated,
      e.1 ∈ pre ∧ ((s.headers (e.1.hash env.current)).isSome ∨
        ∃ p, env.verify e.1 (some p) = .ok ()) := by
    intro pre
    induction pre using reverseRecOn with
    | nil => intro e he; simp [initialLoop] at he
    | append_singleton pre x ih =>
      intro e he
      rw [foldl_append, foldl_cons, foldl_nil] at he
      have hold : e ∈ (pre.foldl (env.ingestStep s) initialLoop).validated →
          e.1 ∈ pre ++ [x] ∧ ((s.headers (e.1.hash env.current)).isSome ∨
            ∃ p, env.verify e.1 (some p) = .ok ()) :=
        fun h => ⟨mem_append_left _ (ih e h).1, (ih e h).2⟩
      cases ingestStep_cases env s (pre.foldl (env.ingestStep s) initialLoop) x with
      | duplicate h => exact hold (h ▸ he)
      | unlinked _ h => exact hold (h ▸ he)
      | rejected _ _ _ _ h => exact hold (h ▸ he)
      | accepted _ _ hverified _ h =>
        rw [h, mem_append, mem_singleton] at he
        rcases he with he | rfl
        · exact hold he
        refine ⟨by simp, hverified.imp_right ?_⟩
        rintro ⟨p, -, hp⟩
        exact ⟨p, hp⟩
  obtain ⟨hmem, hverified⟩ := hinitial _ e h
  refine ⟨?_, hverified⟩
  unfold ascending at hmem
  split at hmem
  · split at hmem
    · simpa using hmem
    · exact hmem
  · exact hmem

variable {l : List (Header × U256)}

lemma BatchOk.entry (h : env.BatchOk s l) :
  ∀ e ∈ l, ∃ earlier, (∀ e' ∈ earlier, e' ∈ l) ∧ env.EntryOk s earlier e := by
  induction h with
  | nil => intro e he; simp at he
  | @snoc l e _ hentry _ ih =>
    intro e' he'
    rcases mem_append.mp he' with hmem | hmem
    · obtain ⟨earlier, hsub, hok⟩ := ih e' hmem
      exact ⟨earlier, fun x hx => mem_append_left _ (hsub x hx), hok⟩
    obtain rfl := mem_singleton.mp hmem
    exact ⟨l, fun x hx => mem_append_left _ hx, hentry⟩

lemma putHeader_foldl_other {k : B256} (h : ∀ e ∈ l, e.1.hash env.current ≠ k) (s : BlockStore) :
  (l.foldl (BlockStore.putHeader env.current) s).headers k = s.headers k ∧
    (l.foldl (BlockStore.putHeader env.current) s).totalDifficulty k = s.totalDifficulty k := by
  induction l generalizing s with
  | nil => exact ⟨rfl, rfl⟩
  | cons e l ih =>
    have hne : k ≠ e.1.hash env.current := fun heq => h e (mem_cons_self ..) heq.symm
    obtain ⟨hh, htd⟩ := ih (fun e' he' => h e' (mem_cons_of_mem _ he'))
      (BlockStore.putHeader env.current s e)
    rw [foldl_cons]
    exact ⟨hh.trans (update_of_ne hne ..), htd.trans (update_of_ne hne ..)⟩

lemma BatchOk.written (h : env.BatchOk s l) (t : BlockStore) : ∀ e ∈ l,
    (l.foldl (BlockStore.putHeader env.current) t).headers (e.1.hash env.current) =
        some e.1.stored ∧ (l.foldl (BlockStore.putHeader env.current) t).totalDifficulty
        (e.1.hash env.current) = some e.2 := by
  induction h with
  | nil => intro e he; simp at he
  | @snoc l e _ _ hdistinct ih =>
    intro e' he'
    rw [foldl_append, foldl_cons, foldl_nil]
    rcases mem_append.mp he' with hmem | hmem
    · obtain ⟨hh, htd⟩ := ih e' hmem
      have hne := hdistinct e' hmem
      simp only [BlockStore.putHeader, update_of_ne hne, hh, htd, and_self]
    obtain rfl := mem_singleton.mp hmem
    simp [BlockStore.putHeader]

end IngestEnv

namespace BlockStore

variable {current : ActivationHeights}

lemma bestOf_mem (start : Option B256 × U256) (entries : List (Header × U256)) :
  (bestOf current start entries).1 = start.1 ∨
    ∃ e ∈ entries, (bestOf current start entries).1 = some (e.1.hash current) := by
  induction entries using reverseRecOn with
  | nil => exact .inl rfl
  | append_singleton entries e ih =>
    unfold bestOf at ih ⊢
    rw [foldl_append, foldl_cons, foldl_nil]
    split
    · exact .inr ⟨e, by simp, rfl⟩
    rcases ih with h | ⟨e', he', h⟩
    · exact .inl h
    · exact .inr ⟨e', mem_append_left _ he', h⟩

lemma storeHeadersBatch_spec (s : BlockStore) (entries : List (Header × U256)) (td : U256) :
  (s.storeHeadersBatch current entries s.head td).1.headers =
      (entries.foldl (putHeader current) s).headers ∧
    (s.storeHeadersBatch current entries s.head td).1.totalDifficulty =
      (entries.foldl (putHeader current) s).totalDifficulty ∧
    (s.storeHeadersBatch current entries s.head td).1.bodies = s.bodies ∧
    ((s.storeHeadersBatch current entries s.head td).1.head = s.head ∨
      ∃ e ∈ entries, (s.storeHeadersBatch current entries s.head td).1.head =
        some (e.1.hash current)) := by
  have hkept : ∀ l : List (Header × U256), (l.foldl (putHeader current) s).head = s.head ∧
      (l.foldl (putHeader current) s).bodies = s.bodies := by
    intro l
    induction l using reverseRecOn with
    | nil => exact ⟨rfl, rfl⟩
    | append_singleton l e ih =>
      rw [foldl_append, foldl_cons, foldl_nil]
      exact ih
  obtain ⟨hhead, hbodies⟩ := hkept entries
  unfold storeHeadersBatch
  by_cases hempty : entries.isEmpty
  · obtain rfl := isEmpty_iff.mp hempty
    exact ⟨rfl, rfl, rfl, .inl rfl⟩
  rw [if_neg hempty]
  rcases hbest : (bestOf current (s.head, td) entries).1 with _ | newHead
  · exact ⟨rfl, rfl, hbodies, .inl hhead⟩
  simp only
  split
  · exact ⟨rfl, rfl, hbodies, .inl hhead⟩
  rename_i hne
  have hmove := moveHeadTo_headMove (entries.foldl (putHeader current) s) newHead
  refine ⟨hmove.headers, hmove.totalDifficulty, hmove.bodies.trans hbodies, ?_⟩
  rcases hmove.head with h | h
  · exact .inl (h.trans hhead)
  rcases bestOf_mem (s.head, td) entries with hb | ⟨e, he, hb⟩
  · exact absurd (hbest.symm.trans hb) hne
  · exact .inr ⟨e, he, by rw [h, ← hb, hbest]⟩

end BlockStore

/-- One `HeadersResponse`, with what the node holds besides the header store when it comes:
its clock, the difficulties proved for headers that came with their uncles, and the bodies
stored so far. -/
structure HeaderEvent where
  headers : List Header
  clock : Option UInt64
  proven : B256 → Option U256
  bodies : B256 → Option Body

namespace HeaderEvent

variable (current : ActivationHeights) (config : ChainConfig) (e : HeaderEvent)

def env : IngestEnv := ⟨current, config, e.clock, e.proven⟩

variable (s : BlockStore)

def found : BlockStore := { s with bodies := e.bodies }

def batch : List (Header × U256) :=
  ((e.env current config).ingestLoop (e.found s) e.headers).validated

/-- `handle_headers_response`: one batch through `ingest_headers`. -/
def Step (e : HeaderEvent) (s' : BlockStore) : Prop :=
  s' = ((e.env current config).ingestHeaders (e.found s) e.headers).1

def Meets (e : HeaderEvent) : Prop :=
  (e.env current config).BatchCondition (e.found s) e.headers

end HeaderEvent

open HeaderEvent

/-- The store `setup_genesis` leaves: genesis under `root`, canonical, and the head. -/
def genesisStore (root : B256) (genesis : Header) : BlockStore where
  headers := update (fun _ => none) root (some genesis.stored)
  totalDifficulty := update (fun _ => none) root (some genesis.difficulty)
  numbers := update (fun _ => none) 0 (some root)
  bodies := fun _ => none
  head := some root
  execHead := none
  pruneFloor := none

section Reached

variable (current : ActivationHeights) (config : ChainConfig) (root : B256)

/-- The header `x` stored under `h` was received as a header of that hash, and verified
against `p`. -/
def VerifiedAgainst (h : B256) (x p : Header) : Prop :=
  ∃ received clock, received.stored = x ∧ received.hash current = h ∧
    (defaultRsk config clock).verify received (some p) = .ok ()

/-- The whole ancestry of `h`, down to genesis, is stored, and each header of it was
verified against the stored header of its parent hash. -/
inductive Anchored (s : BlockStore) : B256 → Prop where
  | genesis : Anchored s root
  | child {h : B256} {x p : Header} : s.headers h = some x →
      s.headers x.parentHash = some p → VerifiedAgainst current config h x p →
      Anchored s x.parentHash → Anchored s h

/-- `td` is what an event of the history computed for `h`: the total difficulty of the
parent, as the store or the batch itself held it at that moment, plus the contribution. -/
def TotalDifficultyBuilt (hist : List (BlockStore × HeaderEvent)) (h : B256) (td : U256) : Prop :=
  ∃ p ∈ hist, ∃ received parentTd,
    (received, td) ∈ p.2.batch current config p.1 ∧ received.hash current = h ∧
    td = parentTd + (p.2.env current config).contribution (p.2.found p.1) received ∧
    (p.1.totalDifficulty received.parentHash = some parentTd ∨
      ∃ parent, (parent, parentTd) ∈ p.2.batch current config p.1 ∧
        parent.hash current = received.parentHash)

/-- **Every stored header was verified against a stored parent.** -/
structure HeadersVerified (hist : List (BlockStore × HeaderEvent)) (s : BlockStore) : Prop where
  parent_verified : ∀ h x, h ≠ root → s.headers h = some x →
    ∃ p, s.headers x.parentHash = some p ∧ VerifiedAgainst current config h x p
  total_difficulty : ∀ h x, h ≠ root → s.headers h = some x →
    ∃ td, s.totalDifficulty h = some td ∧ TotalDifficultyBuilt current config hist h td
  head_anchored : ∀ h, s.head = some h → Anchored current config root s h

/-- What the induction over runs carries: `HeadersVerified`, with genesis kept and every
stored header, not only the head, anchored. -/
structure ChainInvariant (hist : List (BlockStore × HeaderEvent)) (s : BlockStore) : Prop where
  genesis : ∃ g, s.headers root = some g
  difficulty : ∀ h x, s.headers h = some x → ∃ td, s.totalDifficulty h = some td
  anchored : ∀ h x, s.headers h = some x → Anchored current config root s h
  built : ∀ h x td, h ≠ root → s.headers h = some x → s.totalDifficulty h = some td →
    TotalDifficultyBuilt current config hist h td
  head : ∀ h, s.head = some h → ∃ x, s.headers h = some x

variable {current config root} {s s' : BlockStore} {hist : List (BlockStore × HeaderEvent)}
  {h : B256}

lemma Anchored.parent {x : Header} (ha : Anchored current config root s h) (hne : h ≠ root)
  (hx : s.headers h = some x) :
  ∃ p, s.headers x.parentHash = some p ∧ VerifiedAgainst current config h x p := by
  cases ha with
  | genesis => exact absurd rfl hne
  | @child _ x' p hx' hp hv _ =>
    obtain rfl : x' = x := some.inj (hx'.symm.trans hx)
    exact ⟨p, hp, hv⟩

lemma Anchored.mono (ha : Anchored current config root s h)
  (hmono : ∀ k y, s.headers k = some y → s'.headers k = some y) :
  Anchored current config root s' h := by
  induction ha with
  | genesis => exact .genesis
  | child hx hp hv _ ih => exact .child (hmono _ _ hx) (hmono _ _ hp) hv ih

lemma TotalDifficultyBuilt.cons {td : U256} (p : BlockStore × HeaderEvent)
  (hb : TotalDifficultyBuilt current config hist h td) :
  TotalDifficultyBuilt current config (p :: hist) h td := by
  obtain ⟨q, hq, rest⟩ := hb
  exact ⟨q, mem_cons_of_mem _ hq, rest⟩

lemma ChainInvariant.headersVerified (hi : ChainInvariant current config root hist s) :
  HeadersVerified current config root hist s where
  parent_verified h x hne hx := (hi.anchored h x hx).parent hne hx
  total_difficulty h x hne hx := by
    obtain ⟨td, htd⟩ := hi.difficulty h x hx
    exact ⟨td, htd, hi.built h x td hne hx htd⟩
  head_anchored h hh := by
    obtain ⟨x, hx⟩ := hi.head h hh
    exact hi.anchored h x hx

variable {e : HeaderEvent}

lemma HeaderEvent.step_spec (h : e.Step current config s s') :
  s'.headers = ((e.batch current config s).foldl (BlockStore.putHeader current)
      (e.found s)).headers ∧
    s'.totalDifficulty = ((e.batch current config s).foldl (BlockStore.putHeader current)
      (e.found s)).totalDifficulty ∧ (s'.head = s.head ∨ ∃ x ∈ e.batch current config s,
      s'.head = some (x.1.hash current)) := by
  rw [HeaderEvent.Step] at h
  subst h
  unfold IngestEnv.ingestHeaders HeaderEvent.batch
  by_cases hempty : e.headers.isEmpty
  · rw [if_pos hempty, isEmpty_iff.mp hempty]
    exact ⟨rfl, rfl, .inl rfl⟩
  rw [if_neg hempty]
  obtain ⟨hheaders, htds, -, hhead⟩ := @BlockStore.storeHeadersBatch_spec current (e.found s)
    ((e.env current config).ingestLoop (e.found s) e.headers).validated
    (((e.found s).head.bind (e.found s).totalDifficulty).getD 0)
  exact ⟨hheaders, htds, hhead⟩

lemma HeaderEvent.step_headers_mono (hmeets : e.Meets current config s)
  (h : e.Step current config s s') {k : B256} {y : Header} (hy : s.headers k = some y) :
  s'.headers k = some y := by
  obtain ⟨hheaders, _, _⟩ := e.step_spec h
  have hok := ingestLoop_batchOk hmeets
  rw [hheaders]
  by_cases hin : ∃ x ∈ e.batch current config s, x.1.hash current = k
  · obtain ⟨x, hx, rfl⟩ := hin
    obtain ⟨hwritten, _⟩ := hok.written (e.found s) x hx
    have hsame := hmeets.2 x.1 (validated_spec hx).1 y hy
    exact hwritten.trans (congrArg some hsame)
  push Not at hin
  exact (@IngestEnv.putHeader_foldl_other (e.env current config) _ _ hin _).1.trans hy

section

variable (hi : ChainInvariant current config root hist s)

include hi

lemma HeaderEvent.batch_anchored
  (hmeets : e.Meets current config s) (h : e.Step current config s s') :
  ∀ x ∈ e.batch current config s, Anchored current config root s' (x.1.hash current) := by
  obtain ⟨hheaders, _, _⟩ := e.step_spec h
  have hok := ingestLoop_batchOk hmeets
  have hmono : ∀ k y, s.headers k = some y → s'.headers k = some y :=
    fun k y hy => step_headers_mono hmeets h hy
  have hwritten : ∀ x ∈ e.batch current config s,
      s'.headers (x.1.hash current) = some x.1.stored := by
    intro x hx
    rw [hheaders]
    exact (hok.written (e.found s) x hx).1
  have hheld : ∀ k y, s.headers k = some y → Anchored current config root s' k :=
    fun k y hy => (hi.anchored k y hy).mono hmono
  -- Induction along the batch: each entry stands on the store or on the entries before it.
  have hsub : ∀ l, (e.env current config).BatchOk (e.found s) l →
      (∀ x ∈ l, x ∈ e.batch current config s) →
      ∀ x ∈ l, Anchored current config root s' (x.1.hash current) := by
    intro l hl
    induction hl with
    | nil => intro _ x hx; simp at hx
    | @snoc l x _ hentry _ ih =>
      intro hmem x' hx'
      have hinitial := ih fun y hy => hmem y (mem_append_left _ hy)
      rcases mem_append.mp hx' with hx' | hx'
      · exact hinitial x' hx'
      obtain rfl := mem_singleton.mp hx'
      have hself := hwritten x' (hmem x' (mem_append_right _ hx'))
      cases hentry with
      | @held x y td _ hy => exact hheld _ _ hy
      | @linked x p td hparent hverified =>
        rcases hverified with hstored | hverified
        · obtain ⟨y, hy⟩ := isSome_iff_exists.mp hstored
          exact hheld _ _ hy
        cases hparent with
        | store hp =>
          exact .child hself (hmono _ _ hp) ⟨x, e.clock, rfl, rfl, hverified⟩ (hheld _ _ hp)
        | batch hin hhash =>
          have hparentStored := hwritten _ (hmem _ (mem_append_left _ hin))
          have hparentAnchored := hinitial _ hin
          dsimp only at hparentStored hparentAnchored
          rw [show p.hash current = x.parentHash from hhash] at hparentStored hparentAnchored
          exact .child hself hparentStored ⟨x, e.clock, rfl, rfl, hverified⟩ hparentAnchored
  exact hsub _ hok fun x hx => hx

lemma HeaderEvent.batch_built
  (hmeets : e.Meets current config s) {x : Header × U256} (hx : x ∈ e.batch current config s)
  (hne : x.1.hash current ≠ root) :
  TotalDifficultyBuilt current config ((s, e) :: hist) (x.1.hash current) x.2 := by
  obtain ⟨earlier, hsub, hentry⟩ := (ingestLoop_batchOk hmeets).entry x hx
  cases hentry with
  | @linked x p td hparent _ =>
    refine ⟨(s, e), mem_cons_self .., x, td, hx, rfl, rfl, ?_⟩
    cases hparent with
    | store hp =>
      obtain ⟨parentTd, htd⟩ := hi.difficulty _ _ hp
      have hfound : (e.found s).totalDifficulty x.parentHash = some parentTd := htd
      exact .inl (by rw [hfound]; exact htd)
    | batch hin hhash => exact .inr ⟨p, hsub _ hin, hhash⟩
  | @held x y td hnone hy =>
    -- Only genesis is stored without its parent.
    obtain rfl := hmeets.2 x (validated_spec hx).1 y hy
    obtain ⟨p, hp, _⟩ := (hi.anchored _ _ hy).parent hne hy
    exact absurd (hnone.symm.trans hp) (by simp)

/-- **One batch that meets the condition keeps the invariant.** -/
theorem ChainInvariant.step (hmeets : e.Meets current config s) (h : e.Step current config s s') :
  ChainInvariant current config root ((s, e) :: hist) s' := by
  obtain ⟨hheaders, htds, hhead⟩ := e.step_spec h
  have hok := ingestLoop_batchOk hmeets
  have hmono : ∀ k y, s.headers k = some y → s'.headers k = some y :=
    fun k y hy => step_headers_mono hmeets h hy
  have hanchored := batch_anchored hi hmeets h
  -- A hash is an entry's, with the entry written under it, or it is untouched.
  have hcases : ∀ k, (∃ x ∈ e.batch current config s, x.1.hash current = k ∧
        s'.headers k = some x.1.stored ∧ s'.totalDifficulty k = some x.2) ∨
      (s'.headers k = s.headers k ∧ s'.totalDifficulty k = s.totalDifficulty k) := by
    intro k
    rw [hheaders, htds]
    by_cases hin : ∃ x ∈ e.batch current config s, x.1.hash current = k
    · obtain ⟨x, hx, rfl⟩ := hin
      exact .inl ⟨x, hx, rfl, hok.written (e.found s) x hx⟩
    push Not at hin
    exact .inr (@IngestEnv.putHeader_foldl_other (e.env current config) _ _ hin (e.found s))
  constructor
  case genesis =>
    obtain ⟨g, hg⟩ := hi.genesis
    exact ⟨g, hmono _ _ hg⟩
  case difficulty =>
    intro k x hx
    rcases hcases k with ⟨y, _, _, _, htd⟩ | ⟨hsame, htd⟩
    · exact ⟨y.2, htd⟩
    obtain ⟨td, hold⟩ := hi.difficulty k x (hsame ▸ hx)
    exact ⟨td, htd.trans hold⟩
  case anchored =>
    intro k x hx
    rcases hcases k with ⟨y, hy, rfl, _, _⟩ | ⟨hsame, _⟩
    · exact hanchored y hy
    · exact (hi.anchored k x (hsame ▸ hx)).mono hmono
  case built =>
    intro k x td hne hx htd
    rcases hcases k with ⟨y, hy, rfl, _, hwritten⟩ | ⟨hsame, hsameTd⟩
    · obtain rfl := some.inj (hwritten.symm.trans htd)
      exact batch_built hi hmeets hy hne
    · exact (hi.built k x td hne (hsame ▸ hx) (hsameTd ▸ htd)).cons (s, e)
  case head =>
    intro k hk
    rcases hhead with hsame | ⟨x, hx, hmoved⟩
    · obtain ⟨y, hy⟩ := hi.head k (hsame ▸ hk)
      exact ⟨y, hmono _ _ hy⟩
    obtain rfl := some.inj (hmoved.symm.trans hk)
    rw [hheaders]
    exact ⟨_, (hok.written (e.found s) x hx).1⟩

end

lemma genesisStore_headers {genesis : Header} {x : Header}
  (hx : (genesisStore root genesis).headers h = some x) : h = root := by
  by_contra hne
  simp [genesisStore, update_of_ne hne] at hx

lemma ChainInvariant.init (genesis : Header) :
  ChainInvariant current config root [] (genesisStore root genesis) where
  genesis := ⟨genesis.stored, by simp [genesisStore]⟩
  difficulty h x hx := ⟨genesis.difficulty, by simp [genesisStore, genesisStore_headers hx]⟩
  anchored h x hx := genesisStore_headers hx ▸ .genesis
  built h x td hne hx _ := absurd (genesisStore_headers hx) hne
  head h hh := by
    obtain rfl : root = h := some.inj hh
    exact ⟨genesis.stored, by simp [genesisStore]⟩

end Reached

/-- **Headers are verified in every run whose batches meet the condition.** From a store
that holds only genesis, over any sequence of batches with any clocks, proved
difficulties and bodies. -/
theorem headers_verified_of_run (current : ActivationHeights) (config : ChainConfig)
  (root : B256) (genesis : Header) (hist : List (BlockStore × HeaderEvent)) (s : BlockStore)
  (hrun : Run (HeaderEvent.Step current config) (genesisStore root genesis) hist s)
  (hmeets : ∀ p ∈ hist, HeaderEvent.Meets current config p.1 p.2) :
  HeadersVerified current config root hist s :=
  (hrun.invariant (ChainInvariant.init genesis)
    (fun _ _ _ _ hi hm hs => ChainInvariant.step hi hm hs) hmeets).headersVerified

/-! ## A run, and a batch that breaks the property

A regtest chain that starts at `Header.unmined 0`. The hashes are evaluated once. -/

namespace RegtestChain

def orphan : Header := (Header.unmined unsealedHash 2).mined

def orphanHash : B256 :=
  ⟨[234, 21, 51, 165, 230, 36, 249, 23, 249, 129, 131, 224, 197, 198, 199, 109, 224, 211,
     72, 235, 201, 46, 24, 101, 84, 55, 17, 112, 242, 103, 22, 234], rfl⟩

lemma orphan_parentHash : orphan.parentHash = unsealedHash := rfl

lemma orphan_hash : orphan.hash .regtest = orphanHash := by decide +kernel

lemma orphan_verified (now : UInt64) : (defaultRsk .regtest (some now)).verify
  orphan (some unsealed) = .ok () :=
  mined_verified rfl rfl rfl rfl rfl rfl rfl rfl rfl rfl rfl (by decide +kernel)

lemma unsealed_rejected (now : UInt64) :
  (defaultRsk .regtest (some now)).verify unsealed (some genesis.stored) =
    .error .bitcoinHeaderDecodeError := rfl

def batch (headers : List Header) : HeaderEvent where
  headers
  clock := some 0
  proven := fun _ => none
  bodies := fun _ => none

def start : BlockStore := genesisStore root genesis

lemma start_headers (h : B256) :
  start.headers h = if h = root then some genesis.stored else none := by
  by_cases hroot : h = root <;> simp [start, genesisStore, hroot]

lemma found_start (headers : List Header) : (batch headers).found start = start := rfl

abbrev env : IngestEnv := (batch []).env .regtest .regtest

lemma step_iff {headers : List Header} {s' : BlockStore} :
  (batch headers).Step .regtest .regtest start s' ↔ s' = (env.ingestHeaders start headers).1 := by
  rw [HeaderEvent.Step, found_start]
  exact Iff.rfl

lemma batch_eq (headers : List Header) : (batch headers).batch .regtest .regtest start =
  (foldl (env.ingestStep start) IngestEnv.initialLoop
    (IngestEnv.ascending headers)).validated := by
  rw [HeaderEvent.batch, found_start]
  exact Eq.refl _

lemma contribution_start {x : Header} (h : x.uncleCount = 0) :
  env.contribution start x = x.difficulty := by
  simp [IngestEnv.contribution, env, batch, HeaderEvent.env, BlockStore.cumulativeDifficulty, h]

lemma resolveParent_genesis {x : Header} (h : x.parentHash = root) :
  env.resolveParent start none x = some (some genesis.stored, 1) := by
  have htd : start.totalDifficulty root = some 1 := by simp [start, genesisStore]; rfl
  simp [IngestEnv.resolveParent, IngestEnv.parentFromStore, h, start_headers, htd]

lemma ingestStep_unsealed : env.ingestStep start IngestEnv.initialLoop unsealed =
  ⟨some (unsealed, 2), [], [unsealedHash], 1, 0⟩ := by
  have hverify : env.verify unsealed (some genesis.stored) ≠ .ok () := by
    intro h
    exact absurd ((unsealed_rejected 0).symm.trans h) (by simp)
  have hnew : start.headers unsealedHash = none := by rw [start_headers, if_neg (by decide)]
  rw [ingestStep_of_rejected env unsealed_hash (by simp [IngestEnv.initialLoop])
    (resolveParent_genesis rfl) hnew hverify, contribution_start rfl]
  rfl

lemma ingestStep_orphan :
  env.ingestStep start ⟨some (unsealed, 2), [], [unsealedHash], 1, 0⟩ orphan =
    ⟨some (orphan, 3), [(orphan, 3)], [orphanHash, unsealedHash], 1, 0⟩ := by
  have hparent : env.resolveParent start (some (unsealed, 2)) orphan = some (some unsealed, 2) := by
    have hlink : unsealed.hash env.current = orphan.parentHash :=
      unsealed_hash.trans orphan_parentHash.symm
    rw [IngestEnv.resolveParent, if_pos hlink]
  refine Eq.trans (ingestStep_of_verified env orphan_hash (by decide) hparent
    (orphan_verified 0)) ?_
  rw [contribution_start rfl]
  rfl

lemma batch_orphan : (batch [unsealed, orphan]).batch .regtest .regtest start = [(orphan, 3)] := by
  have hascending : IngestEnv.ascending [unsealed, orphan] = [unsealed, orphan] := by
    have hnumbers : ¬ unsealed.number > orphan.number := by decide
    simp [IngestEnv.ascending, hnumbers]
  rw [batch_eq, hascending, foldl_cons, foldl_cons, foldl_nil, ingestStep_unsealed,
    ingestStep_orphan]

lemma headers_after_orphan :
  (env.ingestHeaders start [unsealed, orphan]).1.headers orphanHash = some orphan.stored ∧
    (env.ingestHeaders start [unsealed, orphan]).1.headers unsealedHash = none := by
  obtain ⟨hheaders, -, -⟩ := step_spec (@step_iff [unsealed, orphan] _ |>.mpr rfl)
  have hunsealed : unsealedHash ≠ orphanHash := by decide
  rw [hheaders, batch_orphan, found_start]
  simp [BlockStore.putHeader, orphan_hash, hunsealed, start_headers]
  decide

/-- **A child of a rejected header is stored**, and its parent is not. -/
theorem child_of_rejected_header_is_stored :
  ∃ s hist, Run (HeaderEvent.Step .regtest .regtest) (genesisStore root genesis) hist s ∧
    genesis.hash .regtest = root ∧
    (∃ x, s.headers orphanHash = some x ∧ x.parentHash = unsealedHash) ∧
    s.headers unsealedHash = none ∧ ¬ HeadersVerified .regtest .regtest root hist s := by
  obtain ⟨hstored, hmissing⟩ := headers_after_orphan
  refine ⟨_, [(start, batch [unsealed, orphan])], .step .init (step_iff.mpr rfl),
    genesis_hash, ⟨_, hstored, orphan_parentHash⟩, hmissing, ?_⟩
  intro hv
  obtain ⟨p, hp, -⟩ := hv.parent_verified orphanHash _ (by decide) hstored
  rw [Header.stored_parentHash, orphan_parentHash, hmissing] at hp
  simp at hp

lemma first_meets : (batch [first]).Meets .regtest .regtest start := by
  refine ⟨?_, ?_⟩
  · intro pre x post hsplit p td hprev
    have hascending : IngestEnv.ascending [first] = [first] := by simp [IngestEnv.ascending]
    rw [show (batch [first]).headers = [first] from rfl, hascending] at hsplit
    obtain rfl : pre = [] := by
      cases pre with
      | nil => rfl
      | cons y pre => simp at hsplit
    simp [IngestEnv.initialLoop] at hprev
  intro x hx y hy
  obtain rfl := mem_singleton.mp hx
  have hhash : first.hash ((batch [first]).env .regtest .regtest).current = firstHash := first_hash
  rw [hhash, found_start, start_headers, if_neg (by decide)] at hy
  simp at hy

lemma batch_first : (batch [first]).batch .regtest .regtest start = [(first, 2)] := by
  have hascending : IngestEnv.ascending [first] = [first] := by simp [IngestEnv.ascending]
  rw [batch_eq, hascending, foldl_cons, foldl_nil,
    ingestStep_of_verified env first_hash (by simp [IngestEnv.initialLoop])
      (resolveParent_genesis rfl) (first_verified 0), contribution_start rfl]
  rfl

/-- The mined child of genesis is stored, and the store is as it should be. -/
theorem headers_verified_after_first :
  (env.ingestHeaders start [first]).1.headers firstHash = some first.stored ∧
  HeadersVerified .regtest .regtest root [(start, batch [first])]
    (env.ingestHeaders start [first]).1 := by
  have hstep : (batch [first]).Step .regtest .regtest start
      (env.ingestHeaders start [first]).1 := step_iff.mpr rfl
  refine ⟨?_, headers_verified_of_run .regtest .regtest root genesis _ _ (.step .init hstep) ?_⟩
  · obtain ⟨hheaders, -, -⟩ := step_spec hstep
    rw [hheaders, batch_first, found_start]
    simp [BlockStore.putHeader, first_hash]
  intro p hp
  obtain rfl := mem_singleton.mp hp
  exact first_meets

end RegtestChain

end Rustock
