import Rustock.Core.Mined
import Rustock.Lib.OrdMap
import Rustock.Lib.Run

/-!
# The backward header walk

`HeaderWalk` (crates/sync/src/snap/headers.rs) walks down from a block a peer offered to
ground this node has accepted. Answers come in any order; a run of headers is verified on its own
terms when it arrives, and `advance` follows the links between runs afterwards.

The difficulty of a run is added when it arrives, before it is known whether it links and without
asking whether its headers were added before. So `established_difficulty` is the sum over every
accepted answer, not over the linked chain.

What chooses what to ask for (`wants`, `release`) and the staging freezer are not modelled: the
functions that take answers read neither.
-/

namespace Rustock

open Lib List HeaderVerifier U256
open OrdMap (insert get? erase)
open RegtestChain (root childHash child_hash)

/-- The reason is the error itself, not its text. -/
inductive WalkError where
  | invalidHeader (number : UInt64) (reason : ValidationError)
  | brokenChunk (point : UInt64)
  | foreignGenesis
deriving DecidableEq

structure WalkRun where
  newest : B256
  oldestNumber : UInt64
  oldestParent : B256

structure Ground where
  canonicalHash : UInt64 → Option B256
  totalDifficulty : B256 → Option U256

structure HeaderWalk where
  ground : Ground
  top : Header
  points : List (UInt64 × B256)
  runs : List (UInt64 × WalkRun)
  needNumber : UInt64
  needHash : B256
  done : Bool
  walkedDifficulty : U256
  unclesOmitted : UInt64
  anchorDifficulty : Option U256

def HeaderVerifier.verifyAgainstParent (v : HeaderVerifier) (header parent : Header) : Verdict :=
  runAll (fun rule => rule header parent) v.parentRules

/-! ## A run on its own terms

The descending and the ascending walk check a run alike and differ in their errors. -/

section CheckRun

variable {ε : Type} (current : ActivationHeights) (verifier : HeaderVerifier) (broken : ε)
  (invalid : UInt64 → ValidationError → ε)

def reported (number : UInt64) : Verdict → Except ε Unit
  | .ok () => .ok ()
  | .error e => .error (invalid number e)

/-- Newest first, and contiguous. -/
def checkPairs : List Header → Except ε Unit
  | child :: parent :: rest =>
    if child.parentHash ≠ parent.hash current then .error broken
    else
      (reported invalid parent.number (verifier.verify parent none)).bind fun _ =>
        (reported invalid child.number (verifier.verifyAgainstParent child parent)).bind fun _ =>
          checkPairs (parent :: rest)
  | _ => .ok ()

def checkNewestFirst (newest : Header) (older : List Header) : Except ε Unit :=
  (checkPairs current verifier broken invalid (newest :: older)).bind fun _ =>
    reported invalid newest.number (verifier.verify newest none)

variable {current verifier broken invalid}

lemma of_bind_eq_ok {check : Except ε Unit} {next : Unit → Except ε Unit}
  (h : check.bind next = .ok ()) : check = .ok () ∧ next () = .ok () := by
  cases check with
  | error e => exact absurd h (by simp [Except.bind])
  | ok u => exact ⟨rfl, h⟩

lemma checkNewestFirst_single {newest : Header} (h : verifier.verify newest none = .ok ()) :
  checkNewestFirst current verifier broken invalid newest [] = .ok () := by
  simp [checkNewestFirst, checkPairs, reported, h, Except.bind]

end CheckRun

lemma verify_alone {config : ChainConfig} {clock clock' : Option UInt64} {header parent : Header}
  (h : (defaultRsk config clock).verify header (some parent) = .ok ()) :
  (defaultRsk config clock').verify header none = .ok () := by
  rw [verify, verdict_bind_eq_ok]
  exact ⟨runAll_eq_ok_iff.mpr (verify_some_eq_ok_iff.mp h).1, rfl⟩

inductive WalkEvent where
  | skeleton (identifiers : List (UInt64 × B256))
  | headers (point : UInt64) (headers : List Header) (proven : List (B256 × U256))
  | advance

namespace HeaderWalk

variable (current : ActivationHeights) (verifier : HeaderVerifier)

def new (top : Header) (ground : Ground) : HeaderWalk where
  ground := ground
  top := top
  points := []
  runs := []
  needNumber := top.number
  needHash := top.hash current
  done := false
  walkedDifficulty := 0
  unclesOmitted := 0
  anchorDifficulty := none

def establishedDifficulty (w : HeaderWalk) : Option U256 :=
  w.anchorDifficulty.map fun anchor => saturatingAdd anchor w.walkedDifficulty

def isOurs (w : HeaderWalk) (number : UInt64) (hash : B256) : Bool :=
  w.ground.canonicalHash number = some hash

/-- One identifier of a skeleton. -/
def notePoint (w : HeaderWalk) (id : UInt64 × B256) : HeaderWalk :=
  if id.1 = 0 ∨ w.top.number < id.1 then w
  else if (get? id.1 w.runs).isSome then w
  else { w with points := insert (· ≤ ·) id.1 id.2 w.points }

def onSkeleton (w : HeaderWalk) (identifiers : List (UInt64 × B256)) : HeaderWalk :=
  identifiers.foldl notePoint w

/-- On a run that is not empty. -/
def checkRun (point : UInt64) (newest : Header) (older : List Header) : Except WalkError Unit :=
  checkNewestFirst current verifier (.brokenChunk point) .invalidHeader newest older

def credit (proven : List (B256 × U256)) (header : Header) : U256 :=
  (get? (header.hash current) proven).getD header.difficulty

/-- One header is counted. -/
def count (proven : List (B256 × U256)) (w : HeaderWalk) (header : Header) : HeaderWalk :=
  { w with
    walkedDifficulty := saturatingAdd w.walkedDifficulty (credit current proven header)
    unclesOmitted :=
      if (get? (header.hash current) proven).isSome then w.unclesOmitted
      else w.unclesOmitted + header.uncleCount }

def onHeaders (w : HeaderWalk) (point : UInt64) (headers : List Header)
  (proven : List (B256 × U256)) : HeaderWalk × Except WalkError Unit :=
  match headers with
  | [] => (w, .ok ())
  | newest :: older =>
    match checkRun current verifier point newest older with
    | .error e => (w, .error e)
    | .ok () =>
      let w := (newest :: older).foldl (count current proven) w
      let oldest := (newest :: older).getLastD newest
      ({ w with
        runs := insert (· ≤ ·) point
          ⟨newest.hash current, oldest.number, oldest.parentHash⟩ w.runs }, .ok ())

/-- A turn that goes on has taken a run out, so there are at most as many turns as runs, and one. -/
def advanceLoop : Nat → HeaderWalk → HeaderWalk × Except WalkError Unit
  | 0, w => (w, .ok ())
  | turns + 1, w =>
    if w.isOurs w.needNumber w.needHash then
      ({ w with
        anchorDifficulty := some ((w.ground.totalDifficulty w.needHash).getD 0), done := true },
        .ok ())
    else if w.needNumber = 0 then (w, .error .foreignGenesis)
    else
      match get? w.needNumber w.runs with
      | none => (w, .ok ())
      | some run =>
        if run.newest ≠ w.needHash then
          -- another chain's run: the range is asked again
          ({ w with
            runs := erase w.needNumber w.runs
            points := erase w.needNumber w.points }, .ok ())
        else
          advanceLoop turns
            { w with
              runs := erase w.needNumber w.runs
              needNumber := saturatingSub64 run.oldestNumber 1
              needHash := run.oldestParent }

/-- Without the number of blocks it returns. -/
def advance (w : HeaderWalk) : HeaderWalk × Except WalkError Unit :=
  advanceLoop (w.runs.length + 1) w

def step (w : HeaderWalk) : WalkEvent → HeaderWalk
  | .skeleton identifiers => w.onSkeleton identifiers
  | .headers point headers proven => (w.onHeaders current verifier point headers proven).1
  | .advance => w.advance.1

def Step (w : HeaderWalk) (e : WalkEvent) (w' : HeaderWalk) : Prop :=
  w' = w.step current verifier e

def LinkedBy : B256 → List Header → B256 → Prop
  | a, [], b => a = b
  | a, header :: chain, b => header.hash current = a ∧ LinkedBy header.parentHash chain b

def accepted : WalkEvent → List (Header × U256)
  | .headers point (newest :: older) proven =>
    match checkRun current verifier point newest older with
    | .ok () => (newest :: older).map fun header => (header, credit current proven header)
    | .error _ => []
  | _ => []

def acceptedIn (hist : List (HeaderWalk × WalkEvent)) : List (Header × U256) :=
  hist.flatMap fun q => accepted current verifier q.2

/-- **The property**: some accepted headers, each once, lead from the top to where the walk
anchored, and the established difficulty is at most the anchor's and theirs. -/
def EstablishedByChain (hist : List (HeaderWalk × WalkEvent)) (w : HeaderWalk) : Prop :=
  ∀ established, w.establishedDifficulty = some established →
    ∃ chain : List (Header × U256), chain ⊆ acceptedIn current verifier hist ∧
      (chain.map Prod.fst).Nodup ∧
      LinkedBy current (w.top.hash current) (chain.map Prod.fst) w.needHash ∧
      established.toNat ≤ ((w.ground.totalDifficulty w.needHash).getD 0).toNat +
        (chain.map fun e => e.2.toNat).sum

variable {current verifier} {a b c : B256} {chain : List Header} {top : Header} {ground : Ground}
  {hist : List (HeaderWalk × WalkEvent)} {w : HeaderWalk}

lemma LinkedBy.append {chain' : List Header} (h : LinkedBy current a chain b)
  (h' : LinkedBy current b chain' c) : LinkedBy current a (chain ++ chain') c := by
  induction chain generalizing a with
  | nil =>
    rw [show a = b from h]
    exact h'
  | cons header chain ih => exact ⟨h.1, ih h.2⟩

lemma linkedBy_of_checkPairs {ε : Type} {broken : ε} {invalid : UInt64 → ValidationError → ε} :
  ∀ {newest : Header} {older : List Header},
  checkPairs current verifier broken invalid (newest :: older) = .ok () →
    LinkedBy current (newest.hash current) (newest :: older)
      ((newest :: older).getLastD newest).parentHash
  | newest, [], _ => ⟨rfl, rfl⟩
  | newest, parent :: rest, h => by
    unfold checkPairs at h
    split at h
    · simp at h
    rename_i hlink
    obtain ⟨-, h⟩ := of_bind_eq_ok h
    obtain ⟨-, hrest⟩ := of_bind_eq_ok h
    refine ⟨rfl, ?_⟩
    rw [not_not.mp hlink]
    have := linkedBy_of_checkPairs hrest
    rw [getLastD_cons] at this
    rwa [getLastD_cons, getLastD_cons]

structure WalkInv (current : ActivationHeights) (verifier : HeaderVerifier) (top : Header)
  (ground : Ground) (hist : List (HeaderWalk × WalkEvent)) (w : HeaderWalk) : Prop where
  settings : w.top = top ∧ w.ground = ground
  walked : w.walkedDifficulty.toNat ≤
    ((acceptedIn current verifier hist).map fun e => e.2.toNat).sum
  linked : ∃ chain ⊆ acceptedIn current verifier hist,
    LinkedBy current (top.hash current) (chain.map Prod.fst) w.needHash
  runs : ∀ point run, (point, run) ∈ w.runs → ∃ chain ⊆ acceptedIn current verifier hist,
    LinkedBy current run.newest (chain.map Prod.fst) run.oldestParent
  anchored : ∀ anchor, w.anchorDifficulty = some anchor →
    anchor = (ground.totalDifficulty w.needHash).getD 0 ∧
      ground.canonicalHash w.needNumber = some w.needHash

lemma acceptedIn_cons (w : HeaderWalk) (e : WalkEvent) (hist : List (HeaderWalk × WalkEvent)) :
  acceptedIn current verifier ((w, e) :: hist) =
    accepted current verifier e ++ acceptedIn current verifier hist :=
  flatMap_cons

@[simp] lemma acceptedIn_nil : acceptedIn current verifier [] = [] := rfl

@[simp] lemma accepted_advance : accepted current verifier .advance = [] := rfl

lemma WalkInv.of_same {e : WalkEvent} {w' : HeaderWalk}
  (h : WalkInv current verifier top ground hist w) (hnone : accepted current verifier e = [])
  (hsettings : w'.top = w.top ∧ w'.ground = w.ground)
  (hwalked : w'.walkedDifficulty = w.walkedDifficulty) (hruns : ∀ q ∈ w'.runs, q ∈ w.runs)
  (hneed : w'.needNumber = w.needNumber ∧ w'.needHash = w.needHash)
  (hanchor : w'.anchorDifficulty = w.anchorDifficulty) :
  WalkInv current verifier top ground ((w, e) :: hist) w' := by
  have hsame : acceptedIn current verifier ((w, e) :: hist) = acceptedIn current verifier hist := by
    rw [acceptedIn_cons, hnone, nil_append]
  constructor
  case settings => rw [hsettings.1, hsettings.2]; exact h.settings
  case walked => rw [hsame, hwalked]; exact h.walked
  case linked => rw [hsame, hneed.2]; exact h.linked
  case runs => rw [hsame]; exact fun point run hmem => h.runs point run (hruns _ hmem)
  case anchored => rw [hanchor, hneed.1, hneed.2]; exact h.anchored

lemma onSkeleton_frame (identifiers : List (UInt64 × B256)) : ∀ w : HeaderWalk,
  ∃ points, w.onSkeleton identifiers = { w with points } := by
  induction identifiers with
  | nil => exact fun w => ⟨w.points, rfl⟩
  | cons id identifiers ih =>
    intro w
    obtain ⟨points, hnote⟩ : ∃ points, w.notePoint id = { w with points } := by
      unfold notePoint
      split
      · exact ⟨w.points, rfl⟩
      · split <;> exact ⟨_, rfl⟩
    obtain ⟨points', hrest⟩ := ih (w.notePoint id)
    refine ⟨points', ?_⟩
    show onSkeleton (w.notePoint id) identifiers = _
    rw [hrest, hnote]

lemma WalkInv.skeleton (h : WalkInv current verifier top ground hist w)
  (identifiers : List (UInt64 × B256)) :
  WalkInv current verifier top ground ((w, .skeleton identifiers) :: hist)
    (w.onSkeleton identifiers) := by
  obtain ⟨points, heq⟩ := onSkeleton_frame identifiers w
  rw [heq]
  exact h.of_same rfl ⟨rfl, rfl⟩ rfl (fun q hq => hq) ⟨rfl, rfl⟩ rfl

lemma foldl_count (proven : List (B256 × U256)) (headers : List Header) : ∀ w : HeaderWalk,
  ∃ walkedDifficulty unclesOmitted, headers.foldl (count current proven) w =
      { w with walkedDifficulty, unclesOmitted } ∧
    walkedDifficulty.toNat ≤ w.walkedDifficulty.toNat +
      (headers.map fun header => (credit current proven header).toNat).sum := by
  induction headers with
  | nil => exact fun w => ⟨w.walkedDifficulty, w.unclesOmitted, rfl, by simp⟩
  | cons header headers ih =>
    intro w
    obtain ⟨walkedDifficulty, unclesOmitted, heq, hle⟩ := ih (count current proven w header)
    refine ⟨walkedDifficulty, unclesOmitted, by rw [foldl_cons, heq]; rfl, ?_⟩
    have hstep : (count current proven w header).walkedDifficulty.toNat ≤
        w.walkedDifficulty.toNat + (credit current proven header).toNat := by
      show (saturatingAdd _ _).toNat ≤ _
      rw [toNat_saturatingAdd]
      omega
    rw [map_cons, sum_cons]
    omega

variable {point : UInt64} {newest : Header} {older : List Header}

lemma accepted_of_checked (proven : List (B256 × U256))
  (h : checkRun current verifier point newest older = .ok ()) :
  accepted current verifier (.headers point (newest :: older) proven) =
    (newest :: older).map fun header => (header, credit current proven header) := by
  simp only [accepted, h]

lemma onHeaders_of_checked (proven : List (B256 × U256))
  (h : checkRun current verifier point newest older = .ok ()) (w : HeaderWalk) :
  (w.onHeaders current verifier point (newest :: older) proven).1 =
    { (newest :: older).foldl (count current proven) w with
      runs := insert (· ≤ ·) point ⟨newest.hash current,
        ((newest :: older).getLastD newest).number, ((newest :: older).getLastD newest).parentHash⟩
        ((newest :: older).foldl (count current proven) w).runs } := by
  simp only [onHeaders, h]

lemma step_of_single {point : UInt64} {header : Header}
  (h : checkRun current verifier point header [] = .ok ()) (w : HeaderWalk) :
  w.step current verifier (.headers point [header] []) = { w with
      walkedDifficulty := saturatingAdd w.walkedDifficulty header.difficulty
      unclesOmitted := w.unclesOmitted + header.uncleCount
      runs := insert (· ≤ ·) point
        ⟨header.hash current, header.number, header.parentHash⟩ w.runs } :=
  onHeaders_of_checked [] h w

lemma WalkInv.headers (h : WalkInv current verifier top ground hist w) (point : UInt64)
  (headers : List Header) (proven : List (B256 × U256)) :
  WalkInv current verifier top ground ((w, .headers point headers proven) :: hist)
    (w.onHeaders current verifier point headers proven).1 := by
  cases headers with
  | nil => exact h.of_same rfl ⟨rfl, rfl⟩ rfl (fun q hq => hq) ⟨rfl, rfl⟩ rfl
  | cons newest older =>
    cases hcheck : checkRun current verifier point newest older with
    | error e =>
      have hnone : accepted current verifier (.headers point (newest :: older) proven) = [] := by
        simp only [accepted, hcheck]
      have hsame : (w.onHeaders current verifier point (newest :: older) proven).1 = w := by
        simp only [onHeaders, hcheck]
      rw [hsame]
      exact h.of_same hnone ⟨rfl, rfl⟩ rfl (fun q hq => hq) ⟨rfl, rfl⟩ rfl
    | ok u =>
      have hnew := accepted_of_checked proven hcheck
      obtain ⟨walkedDifficulty, unclesOmitted, hcount, hle⟩ :=
        @foldl_count current proven (newest :: older) w
      have hafter : (w.onHeaders current verifier point (newest :: older) proven).1 =
          { w with
            walkedDifficulty, unclesOmitted
            runs := insert (· ≤ ·) point ⟨newest.hash current,
              ((newest :: older).getLastD newest).number,
              ((newest :: older).getLastD newest).parentHash⟩ w.runs } := by
        rw [onHeaders_of_checked proven hcheck, hcount]
      obtain ⟨hpairs, -⟩ := of_bind_eq_ok hcheck
      have hkept : acceptedIn current verifier hist ⊆
          acceptedIn current verifier ((w, .headers point (newest :: older) proven) :: hist) := by
        rw [acceptedIn_cons]
        exact subset_append_right _ _
      rw [hafter]
      constructor
      case settings => exact h.settings
      case walked =>
        show walkedDifficulty.toNat ≤ _
        rw [acceptedIn_cons, hnew, map_append, sum_append, List.map_map]
        have hwalked := h.walked
        have hsum : ((newest :: older).map ((fun e : Header × U256 => e.2.toNat) ∘
            fun header => (header, credit current proven header))).sum =
            ((newest :: older).map fun header => (credit current proven header).toNat).sum := rfl
        omega
      case linked =>
        obtain ⟨chain, hsub, hlinked⟩ := h.linked
        exact ⟨chain, fun e he => hkept (hsub he), hlinked⟩
      case runs =>
        intro point' run hmem
        rcases OrdMap.mem_insert.mp hmem with ⟨-, rfl⟩ | ⟨-, hmem⟩
        · -- the run just accepted is linked by its own headers
          refine ⟨accepted current verifier (.headers point (newest :: older) proven), ?_, ?_⟩
          · rw [acceptedIn_cons]
            exact subset_append_left _ _
          rw [hnew, List.map_map]
          have hid : (Prod.fst ∘ fun header : Header => (header, credit current proven header)) =
            id := rfl
          rw [hid, List.map_id]
          exact linkedBy_of_checkPairs hpairs
        obtain ⟨chain, hsub, hlinked⟩ := h.runs point' run hmem
        exact ⟨chain, fun e he => hkept (hsub he), hlinked⟩
      case anchored => exact h.anchored

lemma WalkInv.advanceLoop : ∀ (turns : Nat) {w : HeaderWalk},
  WalkInv current verifier top ground hist w →
    WalkInv current verifier top ground hist (HeaderWalk.advanceLoop turns w).1
  | 0, _, h => h
  | turns + 1, w, h => by
    obtain ⟨htop, hground⟩ := h.settings
    unfold HeaderWalk.advanceLoop
    split
    · rename_i hours
      refine ⟨h.settings, h.walked, h.linked, h.runs, fun anchor hanchor => ?_⟩
      have hours : w.ground.canonicalHash w.needNumber = some w.needHash := by
        simpa [isOurs] using hours
      rw [← hground]
      exact ⟨(Option.some.inj hanchor).symm, hours⟩
    rename_i hnot
    split
    · exact h
    split
    · exact h
    rename_i run hrun
    have hmem := OrdMap.mem_of_get? hrun
    have hfewer : ∀ point run', (point, run') ∈ erase w.needNumber w.runs →
        ∃ chain ⊆ acceptedIn current verifier hist,
          LinkedBy current run'.newest (chain.map Prod.fst) run'.oldestParent :=
      fun point run' hin => h.runs point run' (OrdMap.mem_erase.mp hin).2
    split
    · exact ⟨h.settings, h.walked, h.linked, hfewer, h.anchored⟩
    rename_i hnewest
    -- the run continues the linked chain
    obtain ⟨chain, hsub, hlinked⟩ := h.linked
    obtain ⟨chain', hsub', hlinked'⟩ := h.runs _ run hmem
    rw [not_not.mp hnewest] at hlinked'
    refine WalkInv.advanceLoop turns ⟨h.settings, h.walked, ⟨chain ++ chain', ?_, ?_⟩,
      hfewer, fun anchor hanchor => ?_⟩
    · exact append_subset.mpr ⟨hsub, hsub'⟩
    · rw [map_append]
      exact hlinked.append hlinked'
    have hours := (h.anchored anchor hanchor).2
    rw [← hground] at hours
    exact absurd (by simpa [isOurs] using hours) hnot

lemma WalkInv.advance (h : WalkInv current verifier top ground hist w) :
  WalkInv current verifier top ground ((w, .advance) :: hist) w.advance.1 :=
  WalkInv.advanceLoop _ (h.of_same rfl ⟨rfl, rfl⟩ rfl (fun _ hq => hq) ⟨rfl, rfl⟩ rfl)

/-- **One event.** -/
theorem WalkInv.step (h : WalkInv current verifier top ground hist w) (e : WalkEvent) :
  WalkInv current verifier top ground ((w, e) :: hist) (w.step current verifier e) := by
  cases e with
  | skeleton identifiers => exact h.skeleton identifiers
  | headers point headers proven => exact h.headers point headers proven
  | advance => exact h.advance

lemma walkInv_of_run (hrun : Run (Step current verifier) (.new current top ground) hist w) :
  WalkInv current verifier top ground hist w := by
  refine @Run.invariant _ _ _ _ _ _ (fun _ _ => True) (fun hist w =>
    WalkInv current verifier top ground hist w) ?_ ?_ hrun (fun _ _ => trivial)
  · exact ⟨⟨rfl, rfl⟩, Nat.zero_le _, ⟨[], nil_subset _, rfl⟩,
      fun point run hmem => by simp [new] at hmem, fun anchor hanchor => by simp [new] at hanchor⟩
  intro hist w e w' h _ hstep
  rw [hstep]
  exact h.step e

lemma LinkedBy.eq_of_ground {all part rest : List Header}
  (hground : ∀ header ∈ all, ∀ n, ground.canonicalHash n ≠ some (header.hash current))
  (honce : (all.map (Header.hash current)).Nodup)
  (hpart : LinkedBy current a part b) (hb : ∃ n, ground.canonicalHash n = some b)
  (hrest : LinkedBy current a rest c) (hc : ∃ n, ground.canonicalHash n = some c)
  (hpartIn : part ⊆ all) (hrestIn : rest ⊆ all) : part = rest := by
  induction part generalizing a rest with
  | nil =>
    cases rest with
    | nil => rfl
    | cons header rest =>
      obtain ⟨n, hn⟩ := hb
      rw [← show a = b from hpart, ← hrest.1] at hn
      exact absurd hn (hground header (hrestIn mem_cons_self) n)
  | cons header part ih =>
    have hin := hpartIn mem_cons_self
    cases rest with
    | nil =>
      obtain ⟨n, hn⟩ := hc
      rw [← show a = c from hrest, ← hpart.1] at hn
      exact absurd hn (hground header hin n)
    | cons header' rest =>
      have heq : header = header' := inj_on_of_nodup_map honce hin
        (hrestIn mem_cons_self) (hpart.1.trans hrest.1.symm)
      subst heq
      rw [ih hpart.2 hrest.2 (fun x hx => hpartIn (mem_cons_of_mem _ hx))
        (fun x hx => hrestIn (mem_cons_of_mem _ hx))]

/-- **The established difficulty is the linked chain's**, in every run whose accepted headers lie
on one chain from the top down to ground, above ground, and are accepted once. -/
theorem established_of_run (hrun : Run (Step current verifier) (.new current top ground) hist w)
  (hchain : LinkedBy current (top.hash current) chain a)
  (hground : ∃ n, ground.canonicalHash n = some a)
  (habove : ∀ header ∈ chain, ∀ n, ground.canonicalHash n ≠ some (header.hash current))
  (hdistinct : (chain.map (Header.hash current)).Nodup)
  (hon : ∀ e ∈ acceptedIn current verifier hist, e.1 ∈ chain)
  (honce : ((acceptedIn current verifier hist).map Prod.fst).Nodup) :
  EstablishedByChain current verifier hist w := by
  have hinv := walkInv_of_run hrun
  obtain ⟨htop, hsame⟩ := hinv.settings
  intro established hestablished
  obtain ⟨anchor, hanchor, rfl⟩ := Option.map_eq_some_iff.mp hestablished
  obtain ⟨hvalue, hours⟩ := hinv.anchored anchor hanchor
  obtain ⟨linked, hsub, hlinked⟩ := hinv.linked
  -- what was linked is the whole chain
  have hpartIn : linked.map Prod.fst ⊆ chain := by
    intro header hmem
    obtain ⟨e, he, rfl⟩ := List.mem_map.mp hmem
    exact hon e (hsub he)
  have hall : linked.map Prod.fst = chain :=
    hlinked.eq_of_ground habove hdistinct ⟨_, hours⟩ hchain hground hpartIn (fun x hx => hx)
  -- so everything accepted was linked
  have hcovers : acceptedIn current verifier hist ⊆ linked := by
    intro e he
    have hmem := hon e he
    rw [← hall] at hmem
    obtain ⟨e', he', heq⟩ := List.mem_map.mp hmem
    rw [inj_on_of_nodup_map honce he (hsub he') heq.symm]
    exact he'
  have hsum : ((acceptedIn current verifier hist).map fun e => e.2.toNat).sum ≤
      (linked.map fun e => e.2.toNat).sum := by
    obtain ⟨part, hperm, hsublist⟩ := (honce.of_map _).subperm hcovers
    rw [← (hperm.map fun e => e.2.toNat).sum_eq]
    exact (hsublist.map _).sum_le_sum (fun _ _ => Nat.zero_le _)
  refine ⟨linked, hsub, ?_, ?_, ?_⟩
  · rw [hall]
    exact hdistinct.of_map _
  · rw [htop]
    exact hlinked
  have hwalked := hinv.walked
  rw [hsame, ← hvalue, toNat_saturatingAdd]
  omega

end HeaderWalk

open HeaderWalk

namespace HeaderWalkExample

def rules : HeaderVerifier := .defaultRsk .regtest none

def ground : Ground where
  canonicalHash n := if n = 0 then some root else none
  totalDifficulty hash := if hash = root then some 1 else none

def answer : WalkEvent := .headers 1 [RegtestChain.child] []

def start : HeaderWalk := .new .regtest RegtestChain.child ground

def once : HeaderWalk := start.step .regtest rules answer

def twice : HeaderWalk := once.step .regtest rules answer

def onceDone : HeaderWalk := once.step .regtest rules .advance

def twiceDone : HeaderWalk := twice.step .regtest rules .advance

lemma child_checked : checkRun .regtest rules 1 RegtestChain.child [] = .ok () :=
  checkNewestFirst_single (verify_alone (RegtestChain.child_verified 0))

lemma accepted_answer : accepted .regtest rules answer =
  [(RegtestChain.child, RegtestChain.child.difficulty)] :=
  accepted_of_checked [] child_checked

def answered (walkedDifficulty : U256) : HeaderWalk where
  ground := ground
  top := RegtestChain.child
  points := []
  runs := [(1, ⟨childHash, 1, root⟩)]
  needNumber := 1
  needHash := childHash
  done := false
  walkedDifficulty := walkedDifficulty
  unclesOmitted := 0
  anchorDifficulty := none

lemma step_answer (w : HeaderWalk) : w.step .regtest rules answer = { w with
    walkedDifficulty := saturatingAdd w.walkedDifficulty 1
    unclesOmitted := w.unclesOmitted + 0
    runs := insert (· ≤ ·) 1 ⟨childHash, 1, root⟩ w.runs } := by
  rw [answer, step_of_single child_checked, child_hash]
  rfl

lemma once_eq : once = answered 1 := by
  rw [once, step_answer, start, new, child_hash]
  rfl

lemma twice_eq : twice = answered 2 := by
  rw [twice, step_answer, once_eq]
  rfl

lemma child_not_ground (n : UInt64) :
  ground.canonicalHash n ≠ some (RegtestChain.child.hash .regtest) := by
  rw [child_hash]
  show (if n = 0 then some root else none) ≠ some childHash
  split
  · decide +kernel
  · simp

lemma child_linked : HeaderWalk.LinkedBy .regtest (RegtestChain.child.hash .regtest)
  [RegtestChain.child] root :=
  ⟨rfl, rfl⟩

theorem established_once : onceDone.establishedDifficulty = some 2 ∧
    HeaderWalk.EstablishedByChain .regtest rules [(once, .advance), (start, answer)] onceDone := by
  have haccepted : acceptedIn .regtest rules [(once, .advance), (start, answer)] =
      [(RegtestChain.child, RegtestChain.child.difficulty)] := by
    rw [acceptedIn_cons, acceptedIn_cons, accepted_answer,
      accepted_advance, acceptedIn_nil, nil_append, append_nil]
  refine ⟨by rw [onceDone, once_eq]; decide +kernel,
    established_of_run ((Run.init.step rfl).step rfl) child_linked
    ⟨0, rfl⟩ ?_ (nodup_singleton _) ?_ ?_⟩
  · intro header hmem
    rw [mem_singleton.mp hmem]
    exact child_not_ground
  · intro e he
    rw [haccepted] at he
    rw [mem_singleton.mp he]
    exact mem_singleton.mpr rfl
  rw [haccepted]
  exact nodup_singleton _

/-- The same answer twice: the block is linked once and counted twice. -/
theorem counted_twice : Run (HeaderWalk.Step .regtest rules) start
      [(twice, .advance), (once, answer), (start, answer)] twiceDone ∧
    twiceDone.establishedDifficulty = some 3 ∧ ¬ HeaderWalk.EstablishedByChain .regtest rules
      [(twice, .advance), (once, answer), (start, answer)] twiceDone := by
  have hthree : twiceDone.establishedDifficulty = some 3 := by
    rw [twiceDone, twice_eq]
    decide +kernel
  refine ⟨((Run.init.step rfl).step rfl).step rfl, hthree, fun h => ?_⟩
  obtain ⟨chain, hsub, hnodup, -, hle⟩ := h 3 hthree
  have hanchor : ((twiceDone.ground.totalDifficulty twiceDone.needHash).getD 0).toNat =
      1 := by
    rw [twiceDone, twice_eq]
    decide +kernel
  rw [hanchor] at hle
  -- every accepted header is the one block, so the chain has it at most once
  have haccepted : acceptedIn .regtest rules
      [(twice, .advance), (once, answer), (start, answer)] =
        [(RegtestChain.child, RegtestChain.child.difficulty),
          (RegtestChain.child, RegtestChain.child.difficulty)] := by
    rw [acceptedIn_cons, acceptedIn_cons, acceptedIn_cons,
      accepted_answer, accepted_advance, acceptedIn_nil, nil_append,
      append_nil, cons_append, nil_append]
  have honly : ∀ e ∈ chain, e = (RegtestChain.child, RegtestChain.child.difficulty) := by
    intro e he
    have := hsub he
    rw [haccepted] at this
    rcases mem_cons.mp this with heq | hmem
    · exact heq
    · exact mem_singleton.mp hmem
  have hshort : chain.length ≤ 1 := by
    match chain, hnodup, honly with
    | [], _, _ => simp
    | [_], _, _ => simp
    | e :: e' :: rest, hnodup, honly =>
      have heq : e' = e := (honly e' (by simp)).trans (honly e (by simp)).symm
      rw [heq] at hnodup
      simp at hnodup
  have hunit : RegtestChain.child.difficulty.toNat = 1 := rfl
  have hsum : (chain.map fun e => e.2.toNat).sum ≤ (chain.map fun e => e.2.toNat).length • 1 := by
    refine sum_le_card_nsmul _ 1 fun x hx => ?_
    obtain ⟨e, he, rfl⟩ := List.mem_map.mp hx
    rw [honly e he, hunit]
  rw [length_map, smul_eq_mul, Nat.mul_one] at hsum
  have : (3 : U256).toNat = 3 := rfl
  omega

end HeaderWalkExample

end Rustock
