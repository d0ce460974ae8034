import Rustock.Core.Mined
import Rustock.Execution.Processor

/-!
# Uncles on a node without bodies

`UncleGuard` (crates/sync/src/uncle_guard.rs): headers that come with their uncles may be
credited with the uncles' difficulty once the list is the one the header commits to and
passes the whole uncle rule, with the verifier's own static and parent rules for every
uncle. The guard keeps the lists it admitted, and the headers that came with them, for as
long as the rule can refer to them.

`unclesAreProven_uncle` is what admission says of each uncle.
-/

namespace Rustock

open Lib Function

structure HeaderWithUncles where
  header : Header
  uncles : List Header

namespace HeaderWithUncles

/-- The list is encoded as in `computeOmmersHash`. -/
def commitmentMatches (e : HeaderWithUncles) : Bool :=
  decide (UInt64.ofNat e.uncles.length = e.header.uncleCount) &&
    decide (computeOmmersHash e.uncles = e.header.ommersHash)

def cumulativeDifficulty (e : HeaderWithUncles) : U256 :=
  e.uncles.foldl (fun total uncle => U256.saturatingAdd total uncle.difficulty)
    e.header.difficulty

end HeaderWithUncles

structure UncleGuard where
  byBlock : B256 → Option (List Header)
  headers : B256 → Option Header
  byHeight : List (UInt64 × B256)

/-- Why the guard credits nothing. -/
inductive GuardRefusal where
  | countMismatch (uncleCount : UInt64) (got : Nat)
  | ancestryIncomplete
  | rule (error : ValidationError)

namespace UncleGuard

def new : UncleGuard := ⟨fun _ => none, fun _ => none, []⟩

/-- `2 * UNCLE_GENERATION_LIMIT`. -/
def slack : UInt64 := 14

/-- Remember a block's list, forget heights out of reach. -/
def record (current : ActivationHeights) (g : UncleGuard) (header : Header)
  (uncles : List Header) : UncleGuard :=
  let hash := header.hash current
  let byBlock := update g.byBlock hash (some uncles)
  let headers := update g.headers hash (some header)
  let byHeight := g.byHeight ++ [(header.number, hash)]
  let floor := saturatingSub64 header.number slack
  let dropped := (byHeight.filter fun e => e.1 < floor).map Prod.snd
  { byBlock := fun h => if h ∈ dropped then none else byBlock h
    headers := fun h => if h ∈ dropped then none else headers h
    byHeight := byHeight.filter fun e => ¬ e.1 < floor }

/-- The window first, then the store. -/
def lookUp (g : UncleGuard) (s : BlockStore) (hash : B256) : Option Header :=
  (g.headers hash).orElse fun _ => s.headers hash

/-- Whether the window holds every ancestor the rule will walk. -/
def ancestryIsComplete (g : UncleGuard) (s : BlockStore) (floor : UInt64) : Nat → B256 → Bool
  | 0, _ => false
  | fuel + 1, cursor =>
    match g.lookUp s cursor with
    | none => false
    | some header =>
      if header.number < floor ∨ header.number = 0 then true
      else if (g.byBlock cursor).isNone then false
      else ancestryIsComplete g s floor fuel header.parentHash

def guardedAncestors (g : UncleGuard) (s : BlockStore) : AncestorSource where
  header := g.lookUp s
  unclesOf hash := (g.byBlock hash).getD []

def unclesAreAdmissible (current : ActivationHeights) (g : UncleGuard) (s : BlockStore)
  (verifier : HeaderVerifier) (header : Header) (uncles : List Header) : Except GuardRefusal Unit :=
  if uncles.isEmpty then .ok ()
  else if UInt64.ofNat uncles.length ≠ header.uncleCount then
    .error (.countMismatch header.uncleCount uncles.length)
  else if ¬ g.ancestryIsComplete s (saturatingSub64 header.number uncleGenerationLimit)
      (header.number.toNat + 1) header.parentHash then
    .error .ancestryIncomplete
  else
    ({ current, store := g.guardedAncestors s, uncleListLimit, uncleGenerationLimit
       headerRules := verifier.staticRules
       parentRules := verifier.parentRules : UnclesValidationRule }.validate
      ⟨header, [], uncles⟩).mapError .rule

/-- The commitment, the rule, then the list is remembered. -/
def unclesAreProven (current : ActivationHeights) (g : UncleGuard) (s : BlockStore)
  (verifier : HeaderVerifier) (e : HeaderWithUncles) : Option UncleGuard :=
  if e.commitmentMatches then
    match g.unclesAreAdmissible current s verifier e.header e.uncles with
    | .ok () => some (g.record current e.header e.uncles)
    | .error _ => none
  else none

variable {current : ActivationHeights} {g g' : UncleGuard} {s : BlockStore}
  {verifier : HeaderVerifier} {e : HeaderWithUncles} {header : Header} {uncles : List Header}

lemma unclesAreAdmissible_uncle
  (h : g.unclesAreAdmissible current s verifier header uncles = .ok ()) :
  ∀ uncle ∈ uncles, (∀ r ∈ verifier.staticRules, r uncle = .ok ()) ∧
    ∃ parent, g.lookUp s uncle.parentHash = some parent ∧
      ∀ r ∈ verifier.parentRules, r uncle parent = .ok () := by
  intro uncle hmem
  unfold unclesAreAdmissible at h
  rw [if_neg (by simpa using List.ne_nil_of_mem hmem)] at h
  split at h
  · simp at h
  split at h
  · simp at h
  set rule : UnclesValidationRule := ⟨current, g.guardedAncestors s, uncleListLimit,
    uncleGenerationLimit, verifier.staticRules, verifier.parentRules⟩
  exact UnclesValidationRule.unclesValidationRule_uncle (except_mapError_eq_ok.mp h) uncle
    hmem

/-- **An admitted list was checked, uncle by uncle**, and is what the window then holds for
its block. -/
theorem unclesAreProven_uncle (h : g.unclesAreProven current s verifier e = some g') :
  g' = g.record current e.header e.uncles ∧
    ∀ uncle ∈ e.uncles, (∀ r ∈ verifier.staticRules, r uncle = .ok ()) ∧
      ∃ parent, g.lookUp s uncle.parentHash = some parent ∧
        ∀ r ∈ verifier.parentRules, r uncle parent = .ok () := by
  unfold unclesAreProven at h
  split at h
  · split at h
    · rename_i hadmissible
      exact ⟨(Option.some.inj h).symm, unclesAreAdmissible_uncle hadmissible⟩
    · simp at h
  · simp at h

lemma byBlock_record {h : B256} {list : List Header}
  (hl : (g.record current header uncles).byBlock h = some list) :
  list = uncles ∨ g.byBlock h = some list := by
  unfold record at hl
  dsimp only at hl
  split at hl
  · simp at hl
  by_cases heq : h = header.hash current
  · subst heq
    rw [update_self] at hl
    exact .inl (Option.some.inj hl).symm
  rw [update_of_ne heq] at hl
  exact .inr hl

end UncleGuard

namespace RegtestChain

/-- `keccak(rlp([first]))`. -/
def firstOmmers : B256 :=
  ⟨[214, 155, 119, 5, 169, 64, 74, 215, 29, 80, 116, 47, 131, 164, 18, 10, 64, 110, 116, 25, 23,
     33, 78, 197, 216, 21, 49, 149, 108, 245, 21, 254], rfl⟩

/-- A mined block on `child` that commits to one uncle. -/
def nephewOf (ommers : B256) : Header :=
  { Header.unmined childHash 2 with ommersHash := ommers, uncleCount := 1 }.mined

/-- A mined block on `child` whose uncle is the mined block `first`. -/
def second : Header := nephewOf firstOmmers

def secondHash : B256 :=
  ⟨[241, 249, 81, 76, 93, 170, 39, 91, 179, 49, 78, 124, 8, 68, 65, 9, 236, 155, 113, 112, 187,
     225, 50, 41, 143, 58, 181, 237, 246, 81, 153, 51], rfl⟩

theorem second_hashes :
    computeOmmersHash [first] = firstOmmers ∧ second.hash .regtest = secondHash := by
  decide +kernel

theorem second_verified (now : UInt64) :
    (HeaderVerifier.defaultRsk .regtest (some now)).verify second (some child) = .ok () :=
  mined_verified rfl rfl rfl rfl rfl rfl rfl rfl rfl rfl rfl (by decide +kernel)

end RegtestChain

end Rustock
