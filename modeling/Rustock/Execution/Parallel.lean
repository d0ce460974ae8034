import Rustock.Lib.Adaptive
import Rustock.Execution.Collision

/-!
# Parallel sublists against the block in order

A block's transactions as programs over state cells (`Lib.Prog`), run in the two shapes of
crates/execution/src/executor.rs: in order on one state, and sublist by sublist on the
base state with their writes committed in order before the sequential set runs. Both record key
sets; a worker's tracker is folded into the block's (`absorb`).

Nothing is assumed of the edges. The exclusions a recorder has at blocks that activate a
precompile are not modelled.
-/

set_option linter.unusedSectionVars false

namespace Rustock

open Lib List CollisionTracker

variable {κ : Type} [LinearOrder κ]

namespace CollisionTracker

lemma keys_absorb (t other : CollisionTracker κ) (id : Nat) :
  (t.absorb other).keys id = ⟨(t.keys id).read ∪ (other.keys id).read,
    (t.keys id).written ∪ (other.keys id).written⟩ := by
  -- the fold over the entries from index `start` on
  have hloop : ∀ (l : List (SublistKeys κ)) (start : Nat) (t : CollisionTracker κ),
      ((l.zipIdx start).foldl (fun (t : CollisionTracker κ) (p : SublistKeys κ × Nat) =>
        { t.ensure p.2 with sublists := (t.ensure p.2).sublists.modify p.2 fun s =>
            ⟨s.read ∪ p.1.read, s.written ∪ p.1.written⟩ }) t).keys id =
        if start ≤ id then
          ⟨(t.keys id).read ∪ (l[id - start]?.getD ⟨∅, ∅⟩).read,
            (t.keys id).written ∪ (l[id - start]?.getD ⟨∅, ∅⟩).written⟩
        else t.keys id := by
    intro l
    induction l with
    | nil => simp
    | cons entry l ih =>
      intro start t
      rw [zipIdx_cons, foldl_cons, ih, keys_modify]
      rcases Nat.lt_trichotomy id start with hlt | heq | hgt
      · rw [if_neg (by omega), if_neg (by omega), if_neg (by omega)]
      · subst heq
        rw [if_neg (by omega), if_pos rfl, if_pos (le_refl _), Nat.sub_self]
        rfl
      rw [if_pos (by omega), if_neg (by omega), if_pos (by omega),
        show id - start = (id - (start + 1)) + 1 by omega, getElem?_cons_succ]
  have hall := hloop other.sublists 0 t
  rw [if_pos (Nat.zero_le _)] at hall
  exact hall

variable {t t' : CollisionTracker κ}

lemma keys_recordAll_congr {edges : List Int16} {start : Nat} {accesses : List (Access κ)}
  (h : ∀ id, t.keys id = t'.keys id) (id : Nat) :
  (t.recordAll edges start accesses).keys id = (t'.recordAll edges start accesses).keys id := by
  have hread : ((t.recordAll edges start accesses).keys id).read =
      ((t'.recordAll edges start accesses).keys id).read := by
    ext k
    rw [(mem_recordAll t).1, (mem_recordAll t').1, h]
  have hwritten : ((t.recordAll edges start accesses).keys id).written =
      ((t'.recordAll edges start accesses).keys id).written := by
    ext k
    rw [(mem_recordAll t).2, (mem_recordAll t').2, h]
  cases hk : (t.recordAll edges start accesses).keys id
  cases hk' : (t'.recordAll edges start accesses).keys id
  rw [hk, hk'] at hread hwritten
  exact congrArg₂ SublistKeys.mk hread hwritten

lemma keys_absorb_recordAll (t : CollisionTracker κ) (edges : List Int16) (start : Nat)
  (accesses : List (Access κ)) (id : Nat) :
  (t.absorb (new.recordAll edges start accesses)).keys id =
    (t.recordAll edges start accesses).keys id := by
  have hread : ((t.absorb (new.recordAll edges start accesses)).keys id).read =
      ((t.recordAll edges start accesses).keys id).read := by
    ext k
    rw [keys_absorb, Finset.mem_union, (mem_recordAll new).1, (mem_recordAll t).1]
    simp
  have hwritten : ((t.absorb (new.recordAll edges start accesses)).keys id).written =
      ((t.recordAll edges start accesses).keys id).written := by
    ext k
    rw [keys_absorb, Finset.mem_union, (mem_recordAll new).2, (mem_recordAll t).2]
    simp
  cases hk : (t.absorb (new.recordAll edges start accesses)).keys id
  cases hk' : (t.recordAll edges start accesses).keys id
  rw [hk, hk'] at hread hwritten
  exact congrArg₂ SublistKeys.mk hread hwritten

lemma recordAll_append (t : CollisionTracker κ) (edges : List Int16) (start : Nat)
  (xs ys : List (Access κ)) : t.recordAll edges start (xs ++ ys) =
    (t.recordAll edges start xs).recordAll edges (start + xs.length) ys := by
  rw [recordAll, zipIdx_append, foldl_append]
  rfl

def recordGroups (edges : List Int16) (t : CollisionTracker κ)
  (groups : List (Nat × List (Access κ))) : CollisionTracker κ :=
  groups.foldl (fun t g => t.recordAll edges g.1 g.2) t

/-- **Workers' trackers hold together what one tracker would hold.** -/
theorem foldl_absorb (edges : List Int16) (groups : List (Nat × List (Access κ))) :
  ∀ {t t' : CollisionTracker κ}, (∀ id, t.keys id = t'.keys id) → ∀ id,
    (groups.foldl (fun t g => t.absorb (new.recordAll edges g.1 g.2)) t).keys id =
      (t'.recordGroups edges groups).keys id := by
  induction groups with
  | nil => exact fun h => h
  | cons g groups ih =>
    intro t t' h
    refine ih fun id => ?_
    rw [keys_absorb_recordAll]
    exact keys_recordAll_congr h id

lemma mem_recordGroups {edges : List Int16} {groups : List (Nat × List (Access κ))} {id : Nat}
  {k : κ} (t : CollisionTracker κ) :
  (k ∈ ((t.recordGroups edges groups).keys id).read ↔ k ∈ (t.keys id).read ∨
    ∃ g ∈ groups, ∃ i access, g.2[i]? = some access ∧ sublistOf (g.1 + i) edges = some id ∧
      k ∈ access.reads) ∧
  (k ∈ ((t.recordGroups edges groups).keys id).written ↔ k ∈ (t.keys id).written ∨
    ∃ g ∈ groups, ∃ i access, g.2[i]? = some access ∧ sublistOf (g.1 + i) edges = some id ∧
      k ∈ access.writes) := by
  induction groups generalizing t with
  | nil => simp [recordGroups]
  | cons g groups ih =>
    obtain ⟨hread, hwritten⟩ := ih (t.recordAll edges g.1 g.2)
    have hstep : t.recordGroups edges (g :: groups) =
        (t.recordAll edges g.1 g.2).recordGroups edges groups := rfl
    rw [hstep, hread, hwritten, (mem_recordAll t).1, (mem_recordAll t).2, or_assoc, or_assoc]
    simp only [mem_cons, exists_eq_or_imp, and_self]

lemma detectCollision_congr (h : ∀ id, t.keys id = t'.keys id) :
  t.detectCollision = t'.detectCollision := by
  rw [Bool.eq_iff_iff, detectCollision_iff, detectCollision_iff]
  simp only [h]

lemma detectCollision_recordAll_of (edges : List Int16) (start : Nat) (accesses : List (Access κ))
  (h : t.detectCollision = true) : (t.recordAll edges start accesses).detectCollision = true := by
  obtain ⟨a, b, k, hne, hw, hk⟩ := detectCollision_iff.mp h
  refine detectCollision_iff.mpr ⟨a, b, k, hne, (mem_recordAll t).2.mpr (.inl hw), ?_⟩
  exact hk.imp (fun h => (mem_recordAll t).1.mpr (.inl h)) fun h =>
    (mem_recordAll t).2.mpr (.inl h)

end CollisionTracker

variable {edges : List Int16}

lemma sublistOf_lt {edge : Int16} {i j a b : Nat} (hmem : edge ∈ edges)
  (hi : i < edge.toInt.toNat) (hj : edge.toInt.toNat ≤ j) (ha : sublistOf i edges = some a)
  (hb : sublistOf j edges = some b) : a < b := by
  have hcount {index id : Nat} (h : sublistOf index edges = some id) :
      edges.countP (fun e => decide (e.toInt64.toUInt64.toNat ≤ index)) = id := by
    unfold sublistOf at h
    dsimp only at h
    split at h
    · exact Option.some.inj h
    · cases h
  rw [← hcount ha, ← hcount hb]
  have hedge : edge.toInt64.toUInt64.toNat = edge.toInt.toNat := toUInt64_of_nonneg (by omega)
  obtain ⟨before, after, rfl⟩ := append_of_mem hmem
  have hmono (l : List Int16) :
      l.countP (fun e => decide (e.toInt64.toUInt64.toNat ≤ i)) ≤
        l.countP (fun e => decide (e.toInt64.toUInt64.toNat ≤ j)) := by
    refine countP_mono_left fun e _ he => ?_
    simp only [decide_eq_true_eq] at he ⊢
    omega
  have h₁ := hmono before
  have h₂ := hmono after
  rw [countP_append, countP_append, countP_cons, countP_cons, hedge,
    if_neg (by simpa using hi), if_pos (by simpa using hj)]
  omega

lemma sublistOf_ranges {txCount p q i j : Nat} {r r' : Nat × Nat}
  (hr : (sublistRanges edges txCount).1[p]? = some r)
  (hr' : (sublistRanges edges txCount).1[q]? = some r') (hpq : p ≠ q) (hi : r.1 ≤ i ∧ i < r.2)
  (hj : r'.1 ≤ j ∧ j < r'.2) :
  ∃ a b, sublistOf i edges = some a ∧ sublistOf j edges = some b ∧ a ≠ b := by
  obtain ⟨hseg, -, hle, hedges⟩ := sublistRanges_spec edges txCount
  have hrec {r : Nat × Nat} {i : Nat} (hr : r ∈ (sublistRanges edges txCount).1) (hi : i < r.2) :
      ∃ a, sublistOf i edges = some a := by
    obtain ⟨edge, hmem, hend⟩ := hedges r hr
    exact Option.ne_none_iff_exists'.mp (sublistOf_ne_none hmem (by omega))
  have hcut {p q i j a b : Nat} {r r' : Nat × Nat}
      (hr : (sublistRanges edges txCount).1[p]? = some r)
      (hr' : (sublistRanges edges txCount).1[q]? = some r') (hpq : p < q) (hi : i < r.2)
      (hj : r'.1 ≤ j ∧ j < r'.2) (ha : sublistOf i edges = some a)
      (hb : sublistOf j edges = some b) : a < b := by
    obtain ⟨edge, hmem, hend⟩ := hedges r (mem_of_getElem? hr)
    have hbefore := hseg.le_of_lt hr hr' hpq
    have hlast := (hseg.le_of_mem (mem_of_getElem? hr')).2
    exact sublistOf_lt hmem (by omega) (by omega) ha hb
  obtain ⟨a, ha⟩ := hrec (mem_of_getElem? hr) hi.2
  obtain ⟨b, hb⟩ := hrec (mem_of_getElem? hr') hj.2
  refine ⟨a, b, ha, hb, ?_⟩
  rcases Nat.lt_or_gt_of_ne hpq with hlt | hgt
  · exact (hcut hr hr' hlt hi.2 hj ha hb).ne
  · exact (hcut hr' hr hgt hj.2 hi hb ha).ne'

section Shapes

variable {V ρ : Type}

def accesses (runs : List (Ran κ ρ)) : List (CollisionTracker.Access κ) :=
  runs.map fun r => ⟨r.reads, r.writes⟩

structure ShapeRun (κ V ρ : Type) where
  runs : List (Ran κ ρ)
  state : κ → V
  tracker : CollisionTracker κ
  paidFees : U256

def ShapeRun.results (run : ShapeRun κ V ρ) : List ρ := run.runs.map (·.result)

def addFees (feeOf : ρ → U256) (carried : U256) (runs : List (Ran κ ρ)) : U256 :=
  runs.foldl (fun fees r => fees + feeOf r.result) carried

/-- `run_sublist` on the transactions of a range. -/
def runRange (feeOf : ρ → U256) (edges : List Int16) (txs : List (Prog κ V ρ))
  (range : Nat × Nat) (state : κ → V) (t : CollisionTracker κ) (feesCarried : U256) :
  ShapeRun κ V ρ :=
  let ran := runProgs (part txs range) state
  ⟨ran.1, ran.2, t.recordAll edges range.1 (accesses ran.1), addFees feeOf feesCarried ran.1⟩

def executeInOrder (feeOf : ρ → U256) (edges : List Int16) (txs : List (Prog κ V ρ))
  (base : κ → V) : ShapeRun κ V ρ :=
  runRange feeOf edges txs (0, txs.length) base .new 0

/-- Each parallel sublist on the base state with its own tracker, their commits in order, then the
sequential set on what they left. -/
def executeSublists (feeOf : ρ → U256) (edges : List Int16) (txs : List (Prog κ V ρ))
  (base : κ → V) : ShapeRun κ V ρ :=
  let (parallel, sequential) := sublistRanges edges txs.length
  let outcomes := parallel.map fun range => runRange feeOf edges txs range base .new 0
  let tracker := outcomes.foldl (fun t run => t.absorb run.tracker) .new
  let root := outcomes.foldl (fun root run => commit root (run.runs, run.state)) base
  let feesCarried := (outcomes.map (·.paidFees)).foldl (· + ·) 0
  let last := runRange feeOf edges txs sequential root tracker feesCarried
  { last with runs := outcomes.flatMap (·.runs) ++ last.runs }

def rangeGroups (ranges : List (Nat × Nat)) (groups : List (List (Ran κ ρ))) :
  List (Nat × List (CollisionTracker.Access κ)) :=
  ranges.zipWith (fun range runs => (range.1, accesses runs)) groups

variable {edges : List Int16} {groups : List (List (Ran κ ρ))}

lemma recordGroups_eq {ranges : List (Nat × Nat)} {a b : Nat} (hseg : Segments a ranges b)
  (hlen : List.Forall₂ (fun (range : Nat × Nat) (g : List (Ran κ ρ)) =>
    range.1 + g.length = range.2) ranges groups) (t : CollisionTracker κ) :
  t.recordGroups edges (rangeGroups ranges groups) =
    t.recordAll edges a (accesses groups.flatten) := by
  induction hlen generalizing a t with
  | nil => rfl
  | @cons range g ranges groups hg _ ih =>
    obtain ⟨hstart, _, hrest⟩ := hseg
    have hnext : range.1 + (accesses g).length = range.2 := by simpa [accesses] using hg
    rw [flatten_cons, accesses, map_append, recordAll_append]
    subst hstart
    have hih := ih hrest (t.recordAll edges range.1 (accesses g))
    rw [← hnext] at hih
    exact hih

/-- **A conflict between declared sublists is a collision.** -/
theorem detectCollision_of_conflicting {txCount : Nat}
  (hlen : List.Forall₂ (fun (range : Nat × Nat) (g : List (Ran κ ρ)) =>
    range.1 + g.length = range.2) (sublistRanges edges txCount).1 groups) (h : Conflicting groups) :
  (CollisionTracker.new.recordGroups edges
    (rangeGroups (sublistRanges edges txCount).1 groups)).detectCollision = true := by
  obtain ⟨p, q, x, y, k, hx, hy, hpq, hw, hk⟩ := h
  -- a group's transactions stand inside its range
  have hrange {p : Nat} {x : List (Ran κ ρ)} (hx : groups[p]? = some x) :
      ∃ range, (sublistRanges edges txCount).1[p]? = some range ∧ range.1 + x.length = range.2 ∧
        (range.1, accesses x) ∈ rangeGroups (sublistRanges edges txCount).1 groups := by
    obtain ⟨range, hr, hend⟩ := forall₂_getElem? hlen.flip hx
    refine ⟨range, hr, hend, mem_iff_getElem?.mpr ⟨p, ?_⟩⟩
    rw [rangeGroups, getElem?_zipWith, hr, hx]
  have hindex {f : Ran κ ρ → List κ} {x : List (Ran κ ρ)} (hk : k ∈ x.flatMap f) :
      ∃ i r, x[i]? = some r ∧ i < x.length ∧ k ∈ f r := by
    obtain ⟨r, hr, hkr⟩ := mem_flatMap.mp hk
    obtain ⟨i, hi⟩ := mem_iff_getElem?.mp hr
    exact ⟨i, r, hi, (List.getElem?_eq_some_iff.mp hi).1, hkr⟩
  have haccess {x : List (Ran κ ρ)} {i : Nat} {r : Ran κ ρ} (h : x[i]? = some r) :
      (accesses x)[i]? = some ⟨r.reads, r.writes⟩ := by
    rw [accesses, getElem?_map, h]
    rfl
  obtain ⟨range, hr, hend, hg⟩ := hrange hx
  obtain ⟨range', hr', hend', hg'⟩ := hrange hy
  obtain ⟨i, u, hu, hi, hku⟩ := hindex hw
  have hwrites := @CollisionTracker.mem_recordGroups κ _ edges
    (rangeGroups (sublistRanges edges txCount).1 groups)
  rcases hk with hk | hk
  all_goals
    obtain ⟨j, v, hv, hj, hkv⟩ := hindex hk
    obtain ⟨a, b, ha, hb, hab⟩ := sublistOf_ranges hr hr' hpq
      (show range.1 ≤ range.1 + i ∧ range.1 + i < range.2 by omega)
      (show range'.1 ≤ range'.1 + j ∧ range'.1 + j < range'.2 by omega)
    refine detectCollision_iff.mpr ⟨a, b, k, hab,
      (hwrites _).2.mpr (.inr ⟨_, hg, i, _, haccess hu, ha, hku⟩), ?_⟩
  · exact .inl ((hwrites _).1.mpr (.inr ⟨_, hg', j, _, haccess hv, hb, hkv⟩))
  · exact .inr ((hwrites _).2.mpr (.inr ⟨_, hg', j, _, haccess hv, hb, hkv⟩))

lemma flatten_parts {α : Type} (edges : List Int16) (txs : List α) :
  ((sublistRanges edges txs.length).1.map (part txs)).flatten ++
    part txs (sublistRanges edges txs.length).2 = txs := by
  obtain ⟨hseg, hend, hle, -⟩ := sublistRanges_spec edges txs.length
  have hsequential : (sublistRanges edges txs.length).2 =
      ((sublistRanges edges txs.length).2.1, txs.length) := Prod.ext rfl hend
  rw [← flatMap_def, hseg.flatMap_part, hsequential, part_append txs (Nat.zero_le _) hle,
    part_zero_length]

lemma length_parts {α : Type} (edges : List Int16) (txs : List α) :
  List.Forall₂ (fun (range : Nat × Nat) (g : List α) => range.1 + g.length = range.2)
    (sublistRanges edges txs.length).1 ((sublistRanges edges txs.length).1.map (part txs)) := by
  obtain ⟨hseg, -, hle, -⟩ := sublistRanges_spec edges txs.length
  refine forall₂_map_right_iff.mpr (forall₂_same.mpr fun range hrange => ?_)
  have hin := hseg.le_of_mem hrange
  have hlt := hseg.lt_of_mem hrange
  simp only [part, length_drop, length_take]
  omega

lemma addFees_append (feeOf : ρ → U256) (carried : U256) (xs ys : List (Ran κ ρ)) :
  addFees feeOf carried (xs ++ ys) = addFees feeOf (addFees feeOf carried xs) ys :=
  foldl_append

lemma addFees_zero (feeOf : ρ → U256) (carried : U256) (xs : List (Ran κ ρ)) :
  addFees feeOf carried xs = carried + addFees feeOf 0 xs := by
  induction xs generalizing carried with
  | nil => exact (BitVec.add_zero carried).symm
  | cons x xs ih =>
    have hcons (c : U256) : addFees feeOf c (x :: xs) = addFees feeOf (c + feeOf x.result) xs := rfl
    rw [hcons, hcons, ih, ih (0 + _), zero_add, add_assoc]

lemma foldl_addFees (feeOf : ρ → U256) (carried : U256) (groups : List (List (Ran κ ρ))) :
  (groups.map (addFees feeOf 0)).foldl (· + ·) carried = addFees feeOf carried groups.flatten := by
  induction groups generalizing carried with
  | nil => rfl
  | cons g groups ih =>
    rw [map_cons, foldl_cons, ih, flatten_cons, addFees_append, ← addFees_zero feeOf carried g]

section Block

variable (feeOf : ρ → U256) (edges : List Int16) (txs : List (Prog κ V ρ)) (base : κ → V)

def sublistsOf : List (List (Prog κ V ρ)) := (sublistRanges edges txs.length).1.map (part txs)

lemma executeInOrder_eq :
  (executeInOrder feeOf edges txs base).runs = (inOrder (sublistsOf edges txs) base).1.flatten ++
      (runProgs (part txs (sublistRanges edges txs.length).2)
        (inOrder (sublistsOf edges txs) base).2).1 ∧ (executeInOrder feeOf edges txs base).state =
      (runProgs (part txs (sublistRanges edges txs.length).2)
        (inOrder (sublistsOf edges txs) base).2).2 := by
  have hall : runProgs txs base = runProgs ((sublistsOf edges txs).flatten ++
      part txs (sublistRanges edges txs.length).2) base := by
    rw [sublistsOf, flatten_parts]
  rw [runProgs_append, ← inOrder_eq_runProgs] at hall
  simp only [executeInOrder, runRange, part_zero_length, hall]
  exact ⟨trivial, trivial⟩

lemma executeSublists_eq :
  (executeSublists feeOf edges txs base).runs = (separate (sublistsOf edges txs) base).flatten ++
      (runProgs (part txs (sublistRanges edges txs.length).2)
        (((sublistsOf edges txs).map fun g => runProgs g base).foldl commit base)).1 ∧
    (executeSublists feeOf edges txs base).state =
      (runProgs (part txs (sublistRanges edges txs.length).2)
        (((sublistsOf edges txs).map fun g => runProgs g base).foldl commit base)).2 ∧
    (executeSublists feeOf edges txs base).paidFees =
      addFees feeOf 0 (executeSublists feeOf edges txs base).runs := by
  have hruns : (executeSublists feeOf edges txs base).runs =
      (separate (sublistsOf edges txs) base).flatten ++
        (runProgs (part txs (sublistRanges edges txs.length).2)
          (((sublistsOf edges txs).map fun g => runProgs g base).foldl commit base)).1 := by
    simp only [executeSublists, runRange, separate, sublistsOf, flatMap_def, List.map_map,
      foldl_map]
    rfl
  refine ⟨hruns, ?_, ?_⟩
  · simp only [executeSublists, runRange, sublistsOf, List.map_map, foldl_map]
    rfl
  rw [hruns, addFees_append, ← foldl_addFees]
  simp only [executeSublists, runRange, separate, sublistsOf, List.map_map, foldl_map]
  rfl

lemma keys_executeSublists (id : Nat) : (executeSublists feeOf edges txs base).tracker.keys id =
    ((CollisionTracker.new.recordGroups edges (rangeGroups (sublistRanges edges txs.length).1
      (separate (sublistsOf edges txs) base))).recordAll edges (sublistRanges edges txs.length).2.1
        (accesses (runProgs (part txs (sublistRanges edges txs.length).2)
          (((sublistsOf edges txs).map fun g => runProgs g base).foldl commit base)).1)).keys
        id := by
  have hgroups : rangeGroups (sublistRanges edges txs.length).1
      (separate (sublistsOf edges txs) base) =
      (sublistRanges edges txs.length).1.map fun range =>
        (range.1, accesses (runProgs (part txs range) base).1) := by
    simp [rangeGroups, separate, sublistsOf, zipWith_map_right, zipWith_self]
  have htracker : (executeSublists feeOf edges txs base).tracker =
      ((rangeGroups (sublistRanges edges txs.length).1 (separate (sublistsOf edges txs) base)).foldl
          (fun (t : CollisionTracker κ) g => t.absorb (CollisionTracker.new.recordAll edges g.1 g.2))
          .new).recordAll edges
        (sublistRanges edges txs.length).2.1
        (accesses (runProgs (part txs (sublistRanges edges txs.length).2)
          (((sublistsOf edges txs).map fun g => runProgs g base).foldl commit base)).1) := by
    rw [hgroups]
    simp only [executeSublists, runRange, sublistsOf, List.map_map, foldl_map]
    rfl
  rw [htracker]
  exact keys_recordAll_congr
    (foldl_absorb edges _ fun _ => rfl) id

lemma tracker_executeInOrder : (executeInOrder feeOf edges txs base).tracker =
    (CollisionTracker.new.recordGroups edges (rangeGroups (sublistRanges edges txs.length).1
      (inOrder (sublistsOf edges txs) base).1)).recordAll edges (sublistRanges edges txs.length).2.1
        (accesses (runProgs (part txs (sublistRanges edges txs.length).2)
          (inOrder (sublistsOf edges txs) base).2).1) := by
  obtain ⟨hseg, -, -, -⟩ := sublistRanges_spec edges txs.length
  have hlen : List.Forall₂ (fun (range : Nat × Nat) (g : List (Ran κ ρ)) =>
      range.1 + g.length = range.2) _ (inOrder (sublistsOf edges txs) base).1 :=
    forall₂_inOrder (R := fun (range : Nat × Nat) n => range.1 + n = range.2)
      (length_parts edges txs) base
  have htracker : (executeInOrder feeOf edges txs base).tracker =
      CollisionTracker.new.recordAll edges 0
        (accesses (executeInOrder feeOf edges txs base).runs) := rfl
  have hstart : 0 + (accesses (inOrder (sublistsOf edges txs) base).1.flatten).length =
      (sublistRanges edges txs.length).2.1 := by
    rw [← hseg.length_flatten hlen, accesses, length_map]
  rw [htracker, (executeInOrder_eq feeOf edges txs base).1, accesses, map_append,
    recordAll_append, recordGroups_eq hseg hlen]
  exact congrArg (fun start => CollisionTracker.recordAll edges _ start _) hstart

/-- **Parallel sublists compute the sequential result.** Whatever the transactions do, both shapes
report a collision or neither does; without one the state, the results and the fees are those of
the block in order. -/
theorem executeSublists_serializable :
  (executeSublists feeOf edges txs base).tracker.firstCollision.isSome =
    (executeInOrder feeOf edges txs base).tracker.firstCollision.isSome ∧
  ((executeSublists feeOf edges txs base).tracker.firstCollision = none →
    (executeSublists feeOf edges txs base).state = (executeInOrder feeOf edges txs base).state ∧
    (executeSublists feeOf edges txs base).results = (executeInOrder feeOf edges txs base).results ∧
    (executeSublists feeOf edges txs base).paidFees =
      (executeInOrder feeOf edges txs base).paidFees) := by
  have hinOrder := forall₂_inOrder (R := fun (range : Nat × Nat) n => range.1 + n = range.2)
    (length_parts edges txs) base
  have hseparate := forall₂_separate (R := fun (range : Nat × Nat) n => range.1 + n = range.2)
    (length_parts edges txs) base
  by_cases hconflict : Conflicting (separate (sublistsOf edges txs) base)
  · -- the sublists touch each other's writes: a collision in both shapes
    have hsublists : (executeSublists feeOf edges txs base).tracker.detectCollision = true := by
      rw [detectCollision_congr (keys_executeSublists feeOf edges txs base)]
      exact detectCollision_recordAll_of _ _ _
        (detectCollision_of_conflicting hseparate hconflict)
    have hwhole : (executeInOrder feeOf edges txs base).tracker.detectCollision = true := by
      rw [tracker_executeInOrder]
      exact detectCollision_recordAll_of _ _ _
        (detectCollision_of_conflicting hinOrder ((conflicting_iff _ base).mpr hconflict))
    refine ⟨hsublists.trans hwhole.symm, fun hnone => ?_⟩
    rw [CollisionTracker.detectCollision, hnone] at hsublists
    cases hsublists
  -- they do not, so both shapes made the same runs
  obtain ⟨hsame, hstate⟩ := inOrder_eq_separate hconflict
  obtain ⟨hruns, hfinal⟩ := executeInOrder_eq feeOf edges txs base
  obtain ⟨hruns', hfinal', hfees'⟩ := executeSublists_eq feeOf edges txs base
  rw [hsame, hstate] at hruns
  rw [hstate] at hfinal
  have hequal : (executeSublists feeOf edges txs base).runs =
      (executeInOrder feeOf edges txs base).runs := hruns'.trans hruns.symm
  have htracker := tracker_executeInOrder feeOf edges txs base
  rw [hsame, hstate] at htracker
  refine ⟨?_, fun _ => ⟨hfinal'.trans hfinal.symm, ?_, ?_⟩⟩
  · refine detectCollision_congr fun id => ?_
    rw [keys_executeSublists, htracker]
  · rw [ShapeRun.results, ShapeRun.results, hequal]
  rw [hfees', hequal]
  rfl

end Block

/-- Two parallel writes and a read of the first in the sequential set: no collision. -/
theorem executeSublists_serializable_three :
  let txs : List (Prog Nat Nat U256) := [.write 0 5 (.done 21), .read 1 fun v =>
    .write 1 (v + 1) (.done 22), .read 0 fun v => .write 2 v (.done 23)]
  (executeSublists id [1, 2] txs fun _ => 0).tracker.firstCollision = none ∧
    (executeSublists id [1, 2] txs fun _ => 0).state 2 = 5 ∧
    (executeSublists id [1, 2] txs fun _ => 0).state =
      (executeInOrder id [1, 2] txs fun _ => 0).state := by
  intro txs
  have hnone : (executeSublists id [1, 2] txs fun _ => 0).tracker.firstCollision = none :=
    Option.isNone_iff_eq_none.mp (by decide +kernel)
  exact ⟨hnone, by decide +kernel, ((executeSublists_serializable id [1, 2] txs _).2 hnone).1⟩

end Shapes

end Rustock
