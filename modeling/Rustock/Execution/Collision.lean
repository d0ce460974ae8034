import Rustock.Execution.RemascBlock
import Rustock.Lib.Segments

/-!
# Key sets of parallel sublists

RSKIP-144's collision rule (crates/execution/src/collision.rs) and the
rule on the edges a header may declare (crates/core/src/validation/block_rules.rs).
Keys are of any linearly ordered type; the source's are byte strings.
-/

set_option linter.unusedSectionVars false

namespace Rustock

open Lib List

section Sublists

lemma sublistRanges_spec (edges : List Int16) (txCount : Nat) :
  Segments 0 (sublistRanges edges txCount).1 (sublistRanges edges txCount).2.1 ∧
    (sublistRanges edges txCount).2.2 = txCount ∧ (sublistRanges edges txCount).2.1 ≤ txCount ∧
    ∀ range ∈ (sublistRanges edges txCount).1, ∃ edge ∈ edges,
      range.2 = min edge.toInt.toNat txCount := by
  let turn := fun (acc : List (Nat × Nat) × Nat) (edge : Int16) =>
    let stop := min edge.toInt.toNat txCount
    (if stop > acc.2 then acc.1 ++ [(acc.2, stop)] else acc.1, max acc.2 stop)
  have hloop : ∀ (rest : List Int16) (acc : List (Nat × Nat) × Nat), (∀ e ∈ rest, e ∈ edges) →
      Segments 0 acc.1 acc.2 → acc.2 ≤ txCount →
      (∀ range ∈ acc.1, ∃ edge ∈ edges, range.2 = min edge.toInt.toNat txCount) →
      Segments 0 (rest.foldl turn acc).1 (rest.foldl turn acc).2 ∧
        (rest.foldl turn acc).2 ≤ txCount ∧
        ∀ range ∈ (rest.foldl turn acc).1, ∃ edge ∈ edges,
          range.2 = min edge.toInt.toNat txCount := by
    intro rest
    induction rest with
    | nil => intro acc _ hseg hle hedge; exact ⟨hseg, hle, hedge⟩
    | cons edge rest ih =>
      intro acc hmem hseg hle hedge
      have hin : edge ∈ edges := hmem edge (mem_cons_self ..)
      have hrest : ∀ e ∈ rest, e ∈ edges := fun e he => hmem e (mem_cons_of_mem _ he)
      rw [foldl_cons]
      by_cases hstop : min edge.toInt.toNat txCount > acc.2
      · have hturn : turn acc edge = (acc.1 ++ [(acc.2, min edge.toInt.toNat txCount)],
            min edge.toInt.toNat txCount) := by
          simp only [turn, if_pos hstop, Nat.max_eq_right (Nat.le_of_lt hstop)]
        rw [hturn]
        refine ih _ hrest (hseg.snoc hstop) (Nat.min_le_right _ _) ?_
        intro range hrange
        rcases mem_append.mp hrange with hold | hnew
        · exact hedge range hold
        obtain rfl := mem_singleton.mp hnew
        exact ⟨edge, hin, rfl⟩
      have hturn : turn acc edge = acc := by
        simp only [turn, if_neg hstop, Nat.max_eq_left (Nat.not_lt.mp hstop)]
      rw [hturn]
      exact ih acc hrest hseg hle hedge
  obtain ⟨hseg, hle, hedge⟩ := hloop edges ([], 0) (fun _ h => h) rfl (Nat.zero_le _) (by simp)
  exact ⟨hseg, rfl, hle, hedge⟩

variable {edge : Int16}

lemma toUInt64_of_nonneg (h : 0 ≤ edge.toInt) : edge.toInt64.toUInt64.toNat = edge.toInt.toNat := by
  have h64 : edge.toInt64.toInt = edge.toInt := Int16.toInt_toInt64 edge
  have hcond := BitVec.toInt_eq_toNat_cond edge.toInt64.toBitVec
  have hnat : edge.toInt64.toUInt64.toNat = edge.toInt64.toBitVec.toNat := rfl
  have hint : edge.toInt64.toInt = edge.toInt64.toBitVec.toInt := rfl
  split at hcond <;> omega

variable {i : Nat} {edges : List Int16}

lemma sublistOf_ne_none (hmem : edge ∈ edges) (hlt : i < edge.toInt.toNat) :
  sublistOf i edges ≠ none := by
  have hpos : 0 < edge.toInt := by omega
  have hcount : edges.countP (fun e => decide (e.toInt64.toUInt64.toNat ≤ i)) ≠ edges.length := by
    intro hall
    have hedge := countP_eq_length.mp hall edge hmem
    rw [toUInt64_of_nonneg hpos.le, decide_eq_true_iff] at hedge
    omega
  rw [sublistOf, if_pos (Nat.lt_of_le_of_ne countP_le_length hcount)]
  simp

end Sublists

section Tracker

variable {κ : Type} [LinearOrder κ]

structure SublistKeys (κ : Type) where
  read : Finset κ
  written : Finset κ

structure CollisionTracker (κ : Type) where
  sublists : List (SublistKeys κ)
  /-- Reads and writes are attributed to this sublist. -/
  current : Nat

inductive CollisionKind where
  | writeWrite
  | writeRead
deriving DecidableEq

/-- For `writeRead`, `a` is the sublist that wrote. -/
structure Collision (κ : Type) where
  kind : CollisionKind
  a : Nat
  b : Nat
  key : κ

/-- The smallest common key. -/
def intersect (x y : Finset κ) : Option κ :=
  if h : (x ∩ y).Nonempty then some ((x ∩ y).min' h) else none

lemma intersect_isSome {x y : Finset κ} : (intersect x y).isSome ↔ ∃ k, k ∈ x ∧ k ∈ y := by
  unfold intersect
  split
  · rename_i h
    obtain ⟨k, hk⟩ := h
    exact ⟨fun _ => ⟨k, Finset.mem_inter.mp hk⟩, fun _ => rfl⟩
  rename_i h
  constructor
  · intro hsome
    cases hsome
  rintro ⟨k, hx, hy⟩
  exact absurd ⟨k, Finset.mem_inter.mpr ⟨hx, hy⟩⟩ h

namespace CollisionTracker

def new : CollisionTracker κ := ⟨[], 0⟩

variable (t : CollisionTracker κ) (id : Nat)

/-- Room for sublist `id`. -/
def ensure : CollisionTracker κ :=
  { t with sublists := t.sublists ++ List.replicate (id + 1 - t.sublists.length) ⟨∅, ∅⟩ }

def setSublist : CollisionTracker κ :=
  { t.ensure id with current := id }

def noteRead (key : κ) : CollisionTracker κ :=
  let t := t.ensure t.current
  { t with sublists := t.sublists.modify t.current fun s => { s with read := insert key s.read } }

def noteWrite (key : κ) : CollisionTracker κ :=
  let t := t.ensure t.current
  { t with
    sublists := t.sublists.modify t.current fun s => { s with written := insert key s.written } }

def absorb (t other : CollisionTracker κ) : CollisionTracker κ :=
  other.sublists.zipIdx.foldl (fun t (keys, id) =>
    let t := t.ensure id
    { t with sublists := t.sublists.modify id fun s =>
        ⟨s.read ∪ keys.read, s.written ∪ keys.written⟩ }) t

/-- The collision of two sublists, if any. -/
def collisionOf (a : Nat) (ka : SublistKeys κ) (b : Nat) (kb : SublistKeys κ) :
  Option (Collision κ) :=
  ((intersect ka.written kb.written).map (⟨.writeWrite, a, b, ·⟩)).or <|
    ((intersect ka.written kb.read).map (⟨.writeRead, a, b, ·⟩)).or <|
      (intersect ka.read kb.written).map (⟨.writeRead, b, a, ·⟩)

def firstCollision : Option (Collision κ) :=
  t.sublists.zipIdx.findSome? fun (ka, a) =>
    (t.sublists.zipIdx.drop (a + 1)).findSome? fun (kb, b) => collisionOf a ka b kb

def detectCollision : Bool := t.firstCollision.isSome

/-- The keys of sublist `id`, none if it has no entry. -/
def keys : SublistKeys κ := t.sublists[id]?.getD ⟨∅, ∅⟩

@[simp] lemma keys_new : (new : CollisionTracker κ).keys id = ⟨∅, ∅⟩ := rfl

@[simp] lemma keys_ensure (id id' : Nat) : (t.ensure id).keys id' = t.keys id' := by
  unfold keys ensure
  dsimp only
  rcases Nat.lt_or_ge id' t.sublists.length with hlt | hge
  · rw [getElem?_append_left hlt]
  rw [getElem?_append_right hge, List.getElem?_eq_none hge, getElem?_replicate]
  split <;> rfl

@[simp] lemma keys_setSublist (id id' : Nat) :
  (t.setSublist id).keys id' = t.keys id' := keys_ensure t id id'

@[simp] lemma current_ensure : (t.ensure id).current = t.current := rfl

lemma lt_length_ensure : id < (t.ensure id).sublists.length := by
  simp only [ensure, length_append, length_replicate]
  omega

lemma keys_modify (f : SublistKeys κ → SublistKeys κ) (id id' : Nat) :
  ({ t.ensure id with sublists := (t.ensure id).sublists.modify id f } :
    CollisionTracker κ).keys id' = if id' = id then f (t.keys id') else t.keys id' := by
  rw [← keys_ensure t id id']
  unfold keys
  dsimp only
  rw [getElem?_modify]
  by_cases hid : id' = id
  · subst hid
    simp [List.getElem?_eq_getElem (lt_length_ensure t id')]
  · simp [hid, Ne.symm hid]

lemma keys_noteRead (key : κ) (id : Nat) : (t.noteRead key).keys id = if id = t.current then
    { t.keys id with read := insert key (t.keys id).read } else t.keys id :=
  keys_modify t _ t.current id

lemma keys_noteWrite (key : κ) (id : Nat) : (t.noteWrite key).keys id = if id = t.current then
    { t.keys id with written := insert key (t.keys id).written } else t.keys id :=
  keys_modify t _ t.current id

lemma collisionOf_isSome {a b : Nat} {ka kb : SublistKeys κ} : (collisionOf a ka b kb).isSome ↔
    ∃ k, (k ∈ ka.written ∧ (k ∈ kb.read ∨ k ∈ kb.written)) ∨
      k ∈ kb.written ∧ (k ∈ ka.read ∨ k ∈ ka.written) := by
  simp only [collisionOf, Option.isSome_or, Option.isSome_map, Bool.or_eq_true, intersect_isSome]
  constructor
  · rintro (⟨k, h₁, h₂⟩ | ⟨k, h₁, h₂⟩ | ⟨k, h₁, h₂⟩)
    · exact ⟨k, .inl ⟨h₁, .inr h₂⟩⟩
    · exact ⟨k, .inl ⟨h₁, .inl h₂⟩⟩
    · exact ⟨k, .inr ⟨h₂, .inl h₁⟩⟩
  rintro ⟨k, ⟨h₁, h₂ | h₂⟩ | ⟨h₁, h₂ | h₂⟩⟩
  · exact .inr (.inl ⟨k, h₁, h₂⟩)
  · exact .inl ⟨k, h₁, h₂⟩
  · exact .inr (.inr ⟨k, h₂, h₁⟩)
  · exact .inl ⟨k, h₂, h₁⟩

lemma getElem?_of_mem_read {t : CollisionTracker κ} {id : Nat} {k : κ}
  (h : k ∈ (t.keys id).read ∨ k ∈ (t.keys id).written) : t.sublists[id]? = some (t.keys id) := by
  unfold keys at h ⊢
  cases hget : t.sublists[id]? with
  | none => simp [hget] at h
  | some s => rfl

/-- **The collision rule**: some key was written in one sublist and read or written in another. -/
theorem detectCollision_iff {t : CollisionTracker κ} :
  t.detectCollision = true ↔ ∃ a b k, a ≠ b ∧ k ∈ (t.keys a).written ∧
    (k ∈ (t.keys b).read ∨ k ∈ (t.keys b).written) := by
  unfold detectCollision firstCollision
  simp only [findSome?_isSome_iff, Prod.exists, collisionOf_isSome]
  have hkeys {id : Nat} {s : SublistKeys κ} (h : t.sublists[id]? = some s) : t.keys id = s := by
    rw [keys, h, Option.getD_some]
  constructor
  · rintro ⟨ka, a, ha, kb, b, hb, k, hk⟩
    have ha' := hkeys (mem_zipIdx_iff_getElem?.mp ha)
    obtain ⟨i, hi⟩ := mem_iff_getElem?.mp hb
    rw [getElem?_drop, getElem?_zipIdx] at hi
    obtain ⟨s, hs, heq⟩ := Option.map_eq_some_iff.mp hi
    obtain ⟨rfl, rfl⟩ := Prod.mk.inj heq
    have hb' := hkeys hs
    dsimp only at ha'
    rw [← ha', ← hb'] at hk
    rcases hk with ⟨h₁, h₂⟩ | ⟨h₁, h₂⟩
    · exact ⟨a, a + 1 + i, k, by omega, h₁, h₂⟩
    · exact ⟨a + 1 + i, a, k, by omega, h₁, h₂⟩
  rintro ⟨a, b, k, hne, hw, hk⟩
  have ha := getElem?_of_mem_read (.inr hw)
  have hb := getElem?_of_mem_read hk
  have hmem {x y : Nat} (hxy : x < y) (hy : t.sublists[y]? = some (t.keys y)) :
      (t.keys y, y) ∈ t.sublists.zipIdx.drop (x + 1) := by
    refine mem_iff_getElem?.mpr ⟨y - (x + 1), ?_⟩
    rw [getElem?_drop, getElem?_zipIdx, show x + 1 + (y - (x + 1)) = y by omega, hy]
    simp
  rcases Nat.lt_or_gt_of_ne hne with hlt | hgt
  · exact ⟨_, a, mem_zipIdx_iff_getElem?.mpr ha, _, b, hmem hlt hb, k, .inl ⟨hw, hk⟩⟩
  · exact ⟨_, b, mem_zipIdx_iff_getElem?.mpr hb, _, a, hmem hgt ha, k, .inr ⟨hw, hk⟩⟩

structure Access (κ : Type) where
  reads : List κ
  writes : List κ

/-- `begin_transaction` and what the transaction then touches: a transaction of the sequential
set records nothing. -/
def record (edges : List Int16) (t : CollisionTracker κ) (index : Nat) (access : Access κ) :
  CollisionTracker κ :=
  match sublistOf index edges with
  | none => t
  | some id => access.writes.foldl noteWrite (access.reads.foldl noteRead (t.setSublist id))

/-- The transactions of a block, from index `start` on. -/
def recordAll (edges : List Int16) (t : CollisionTracker κ) (start : Nat)
  (accesses : List (Access κ)) : CollisionTracker κ :=
  (accesses.zipIdx start).foldl (fun t (access, index) => t.record edges index access) t

lemma foldl_noteRead (keys : List κ) (t : CollisionTracker κ) :
  (keys.foldl noteRead t).current = t.current ∧ ∀ id k,
    (k ∈ ((keys.foldl noteRead t).keys id).read ↔
      k ∈ (t.keys id).read ∨ id = t.current ∧ k ∈ keys) ∧
    ((keys.foldl noteRead t).keys id).written = (t.keys id).written := by
  induction keys generalizing t with
  | nil => simp
  | cons key keys ih =>
    obtain ⟨hcur, hmem⟩ := ih (t.noteRead key)
    refine ⟨hcur, fun id k => ?_⟩
    obtain ⟨hread, hwritten⟩ := hmem id k
    rw [foldl_cons, hread, hwritten, keys_noteRead]
    have hc : (t.noteRead key).current = t.current := rfl
    rw [hc]
    split
    · rename_i hid
      simp only [Finset.mem_insert, mem_cons, hid, true_and, and_true]
      tauto
    rename_i hid
    simp [hid]

lemma foldl_noteWrite (keys : List κ) (t : CollisionTracker κ) :
  ∀ id k, (k ∈ ((keys.foldl noteWrite t).keys id).written ↔
      k ∈ (t.keys id).written ∨ id = t.current ∧ k ∈ keys) ∧
    ((keys.foldl noteWrite t).keys id).read = (t.keys id).read := by
  induction keys generalizing t with
  | nil => simp
  | cons key keys ih =>
    intro id k
    obtain ⟨hwritten, hread⟩ := ih (t.noteWrite key) id k
    rw [foldl_cons, hwritten, hread, keys_noteWrite]
    have hc : (t.noteWrite key).current = t.current := rfl
    rw [hc]
    split
    · rename_i hid
      simp only [Finset.mem_insert, mem_cons, hid, true_and, and_true]
      tauto
    rename_i hid
    simp [hid]

lemma mem_record {edges : List Int16} {t : CollisionTracker κ} {index : Nat}
  {access : Access κ} {id : Nat} {k : κ} : (k ∈ ((t.record edges index access).keys id).read ↔
    k ∈ (t.keys id).read ∨ sublistOf index edges = some id ∧ k ∈ access.reads) ∧
  (k ∈ ((t.record edges index access).keys id).written ↔
    k ∈ (t.keys id).written ∨ sublistOf index edges = some id ∧ k ∈ access.writes) := by
  unfold record
  cases hid : sublistOf index edges with
  | none => simp
  | some j =>
    dsimp only
    have hreads := foldl_noteRead access.reads (t.setSublist j)
    have hwrites := foldl_noteWrite access.writes (access.reads.foldl noteRead (t.setSublist j))
    obtain ⟨hw, hr⟩ := hwrites id k
    obtain ⟨hread, hwritten⟩ := hreads.2 id k
    have hcur : (t.setSublist j).current = j := rfl
    rw [hr, hread, hw, hwritten, hreads.1, hcur, keys_setSublist]
    have hcomm : id = j ↔ some j = some id := by simp [eq_comm]
    rw [hcomm]
    exact ⟨Iff.rfl, Iff.rfl⟩

/-- **What a block's transactions record.** -/
theorem mem_recordAll {edges : List Int16} {start : Nat} {accesses : List (Access κ)} {id : Nat}
  {k : κ} (t : CollisionTracker κ) :
  (k ∈ ((t.recordAll edges start accesses).keys id).read ↔ k ∈ (t.keys id).read ∨
    ∃ i access, accesses[i]? = some access ∧ sublistOf (start + i) edges = some id ∧
      k ∈ access.reads) ∧
  (k ∈ ((t.recordAll edges start accesses).keys id).written ↔ k ∈ (t.keys id).written ∨
    ∃ i access, accesses[i]? = some access ∧ sublistOf (start + i) edges = some id ∧
      k ∈ access.writes) := by
  induction accesses generalizing t start with
  | nil => simp [recordAll]
  | cons access rest ih =>
    have hstep : t.recordAll edges start (access :: rest) =
        (t.record edges start access).recordAll edges (start + 1) rest := rfl
    -- the first transaction, or one of the others under the shifted index
    have hsplit (P : Access κ → Prop) :
        (∃ i a, (access :: rest)[i]? = some a ∧ sublistOf (start + i) edges = some id ∧ P a) ↔
        (sublistOf start edges = some id ∧ P access) ∨
          ∃ i a, rest[i]? = some a ∧ sublistOf (start + 1 + i) edges = some id ∧ P a := by
      constructor
      · rintro ⟨i, a, ha, hi, hp⟩
        cases i with
        | zero =>
          obtain rfl : access = a := by simpa using ha
          exact .inl ⟨hi, hp⟩
        | succ i =>
          refine .inr ⟨i, a, by simpa using ha, ?_, hp⟩
          rwa [show start + 1 + i = start + (i + 1) by omega]
      rintro (⟨hi, hp⟩ | ⟨i, a, ha, hi, hp⟩)
      · exact ⟨0, access, rfl, hi, hp⟩
      refine ⟨i + 1, a, by simpa using ha, ?_, hp⟩
      rwa [show start + (i + 1) = start + 1 + i by omega]
    obtain ⟨hread, hwritten⟩ := @ih (start + 1) (t.record edges start access)
    obtain ⟨hr, hw⟩ := @mem_record κ _ edges t start access id k
    rw [hstep, hread, hwritten, hr, hw, hsplit (k ∈ ·.reads), hsplit (k ∈ ·.writes), or_assoc,
      or_assoc]
    exact ⟨Iff.rfl, Iff.rfl⟩

lemma detectCollision_recordAll {edges : List Int16} {accesses : List (Access κ)} :
  (new.recordAll edges 0 accesses).detectCollision = true ↔
    ∃ i j x y a b k, accesses[i]? = some x ∧ accesses[j]? = some y ∧
      sublistOf i edges = some a ∧ sublistOf j edges = some b ∧ a ≠ b ∧ k ∈ x.writes ∧
      (k ∈ y.reads ∨ k ∈ y.writes) := by
  rw [detectCollision_iff]
  have hread (id : Nat) (k : κ) := (@mem_recordAll κ _ edges 0 accesses id k new).1
  have hwritten (id : Nat) (k : κ) := (@mem_recordAll κ _ edges 0 accesses id k new).2
  simp only [hread, hwritten, keys_new, Finset.notMem_empty, false_or, Nat.zero_add]
  constructor
  · rintro ⟨a, b, k, hne, ⟨i, x, hx, hi, hw⟩, ⟨j, y, hy, hj, hk⟩ | ⟨j, y, hy, hj, hk⟩⟩
    · exact ⟨i, j, x, y, a, b, k, hx, hy, hi, hj, hne, hw, .inl hk⟩
    · exact ⟨i, j, x, y, a, b, k, hx, hy, hi, hj, hne, hw, .inr hk⟩
  rintro ⟨i, j, x, y, a, b, k, hx, hy, hi, hj, hne, hw, hk | hk⟩
  · exact ⟨a, b, k, hne, ⟨i, x, hx, hi, hw⟩, .inl ⟨j, y, hy, hj, hk⟩⟩
  · exact ⟨a, b, k, hne, ⟨i, x, hx, hi, hw⟩, .inr ⟨j, y, hy, hj, hk⟩⟩

end CollisionTracker

end Tracker

/-- block_rules.rs `TX_EXECUTION_THREADS`. -/
def txExecutionThreads : Nat := 2

/-- `ValidationError::InvalidSublistEdges`, by its reason. -/
inductive SublistEdgesError where
  | tooMany (count : Nat)
  | firstNotPositive (first : Int16)
  | notAscending (before after : Int16)
  | outOfBounds (last : Int16) (maxIndex : Int)
deriving DecidableEq

def validateTxExecutionSublistsEdges (edges : Option (List Int16)) (transactionCount : Nat)
  (active : Bool) : Except SublistEdgesError Unit :=
  if active = false then .ok ()
  else
    match edges with
    | none | some [] => .ok ()
    | some (first :: rest) =>
      let edges := first :: rest
      if txExecutionThreads < edges.length then .error (.tooMany edges.length)
      else if first ≤ 0 then .error (.firstNotPositive first)
      else
        match (edges.zip rest).find? fun pair => pair.2 ≤ pair.1 with
        | some pair => .error (.notAscending pair.1 pair.2)
        | none =>
          let last := edges.getLast (List.cons_ne_nil _ _)
          let maxIndex : Int := transactionCount - 1
          if maxIndex < last.toInt then .error (.outOfBounds last maxIndex) else .ok ()

/-- The indices at which segments of these lengths end, counted from `s`. -/
def boundaries {α : Type} (s : Nat) : List (List α) → List Nat
  | [] => []
  | l :: ls => (s + l.length) :: boundaries (s + l.length) ls

lemma le_of_mem_boundaries {α : Type} {segments : List (List α)} {s e : Nat}
  (h : e ∈ boundaries s segments) : s ≤ e := by
  induction segments generalizing s with
  | nil => exact absurd h not_mem_nil
  | cons l ls ih =>
    rcases mem_cons.mp h with rfl | h
    · omega
    · exact le_trans (by omega) (ih h)

lemma countP_boundaries {α : Type} {segments : List (List α)} {s i j : Nat} {l : List α}
  (hl : segments[i]? = some l) (hj : j < l.length) :
  (boundaries s segments).countP (· ≤ s + ((segments.take i).flatten.length + j)) = i := by
  induction segments generalizing s i with
  | nil => simp at hl
  | cons l₀ ls ih =>
    cases i with
    | zero =>
      obtain rfl : l₀ = l := by simpa using hl
      refine countP_eq_zero.mpr fun e he => ?_
      rcases mem_cons.mp he with rfl | he
      · simp
        omega
      have := le_of_mem_boundaries he
      simp
      omega
    | succ i =>
      have hrest := @ih (s + l₀.length) i (by simpa using hl)
      have hindex : s + (((l₀ :: ls).take (i + 1)).flatten.length + j) =
          s + l₀.length + ((ls.take i).flatten.length + j) := by
        simp only [take_succ_cons, flatten_cons, length_append]
        omega
      rw [boundaries, countP_cons, hindex, hrest, if_pos (by simp)]

lemma countP_boundaries_end {α : Type} {segments : List (List α)} {s j : Nat} :
  (boundaries s segments).countP (· ≤ s + (segments.flatten.length + j)) = segments.length := by
  induction segments generalizing s with
  | nil => rfl
  | cons l ls ih =>
    have hindex : s + ((l :: ls).flatten.length + j) = s + l.length + (ls.flatten.length + j) := by
      simp only [flatten_cons, length_append]
      omega
    rw [boundaries, countP_cons, hindex, ih, if_pos (by simp), length_cons]

@[simp] lemma length_boundaries {α : Type} (s : Nat) (segments : List (List α)) :
  (boundaries s segments).length = segments.length := by
  induction segments generalizing s with
  | nil => rfl
  | cons l ls ih => simp [boundaries, ih]

lemma pairwise_boundaries {α : Type} {segments : List (List α)} (s : Nat)
  (h : ∀ l ∈ segments, l ≠ []) : (boundaries s segments).Pairwise (· < ·) := by
  induction segments generalizing s with
  | nil => exact .nil
  | cons l ls ih =>
    refine pairwise_cons.mpr ⟨fun e he => ?_, ih _ fun l hl => h l (mem_cons_of_mem _ hl)⟩
    -- the next segment is not empty, so its end is strictly above
    cases ls with
    | nil => exact absurd he not_mem_nil
    | cons l' ls =>
      have hpos := length_pos_iff.mpr (h l' (by simp))
      rcases mem_cons.mp he with rfl | he
      · omega
      have := le_of_mem_boundaries he
      omega

lemma sublistOf_eq {edges : List Int16} (h : ∀ e ∈ edges, 0 ≤ e.toInt) (index : Nat) :
  sublistOf index edges = let id := (edges.map (·.toInt.toNat)).countP (· ≤ index)
      if id < edges.length then some id else none := by
  have hcount : edges.countP (fun e => decide (e.toInt64.toUInt64.toNat ≤ index)) =
      (edges.map (·.toInt.toNat)).countP (· ≤ index) := by
    rw [countP_map]
    refine countP_congr fun e he => ?_
    simp [toUInt64_of_nonneg (h e he)]
  simp only [sublistOf, hcount]

/-- **The two cuts of a block agree** on edges the block rule accepts. -/
theorem sublistOf_eq_some_iff {edges : List Int16} {n i k : Nat}
  (h : validateTxExecutionSublistsEdges (some edges) n true = .ok ()) :
  sublistOf i edges = some k ↔
    ∃ r, (sublistRanges edges n).1[k]? = some r ∧ r.1 ≤ i ∧ i < r.2 := by
  simp only [validateTxExecutionSublistsEdges, txExecutionThreads, Int16.le_iff_toInt_le] at h
  rcases edges with _ | ⟨a, _ | ⟨b, _ | _⟩⟩
  · simp [sublistOf, sublistRanges]
  · have ha : 0 < a.toInt ∧ a.toInt < n := by grind
    have hr : (sublistRanges [a] n).1 = [(0, a.toInt.toNat)] := by grind [sublistRanges]
    grind [sublistOf_eq]
  · have ha : 0 < a.toInt ∧ a.toInt < b.toInt ∧ b.toInt < n := by grind
    have hr : (sublistRanges [a, b] n).1 =
      [(0, a.toInt.toNat), (a.toInt.toNat, b.toInt.toNat)] := by grind [sublistRanges]
    grind [sublistOf_eq]
  · simp at h

theorem sublistOf_second : sublistOf 2 [1, 3] = some 1 :=
  (@sublistOf_eq_some_iff _ 5 _ _ rfl).mpr ⟨_, rfl, by decide⟩

end Rustock
