import Mathlib
import Rustock.Lib.Run
import Rustock.Trie.StrictRead

/-!
# The walk over a stored trie

`verify_complete` (crates/trie/src/snapshot.rs): one thread splits the largest subtree again
and again, then workers take the subtrees that are left. Neither remembers where it has been, so a
node is counted once for each path to it (`Unfolds`). A step does one of three things (`Effect`):
subtrees change hands, a node is visited and its children take its place, or something is missing.
-/

namespace Rustock

open Lib List Option

inductive Missing where
  | node (h : B256)
  | value (h : B256)

/-- The arguments of `verify_complete`, and the hash. -/
structure Verification where
  keccak : Bytes → B256
  store : TrieStore
  root : TrieNode
  threads : Nat

/-- Where the loop of a worker stands. -/
inductive Worker where
  | looping
  | claiming
  | walking (stack : List TrieNode) (seen : Nat)
  | returned

/-- What the workers share; the frontier is what `next_subtree` has not passed. -/
structure Pool where
  frontier : List TrieNode
  nodes : Nat
  failure : Option Missing

/-- The heap is kept in the order it is popped in. -/
inductive Walk where
  | splitting (heap : List (UInt64 × TrieNode)) (counted : Nat)
  | walking (pool : Pool) (workers : List Worker)

namespace Verification

variable (v : Verification)

abbrev Reaches (n : TrieNode) : Prop := v.root.Reaches v.keccak v.store n

def resolve (ref : NodeRef) : Option TrieNode := ref.resolve v.keccak v.store

def checkValue (n : TrieNode) : Option Missing :=
  if n.hasLongValue && n.value.isNone then
    n.valueHash.bind fun h => if (v.store h).isNone then some (.value h) else none
  else none

def missingRef : NodeRef → Option Missing
  | .hash h => if (v.resolve (.hash h)).isSome then none else some (.node h)
  | _ => none

/-- What a visit finds missing first. -/
def missing (n : TrieNode) : Option Missing :=
  (v.checkValue n).or ((v.missingRef n.left).or (v.missingRef n.right))

def children (n : TrieNode) : List TrieNode := [n.left, n.right].filterMap v.resolve

def totalSize (n : TrieNode) : UInt64 := n.ref.referenceSize v.keccak v.store

def workers : Nat := max v.threads 1

def bound : UInt64 := max (v.totalSize v.root / UInt64.ofNat (v.workers * 4)) 1

/-- A later piece is popped before an earlier one of its size. -/
def push (heap : List (UInt64 × TrieNode)) (n : TrieNode) : List (UInt64 × TrieNode) :=
  heap.orderedInsert (fun a b => b.1 ≤ a.1) (v.totalSize n, n)

/-- One turn of a worker. -/
def turn (pool : Pool) : Worker → Pool × Worker
  | .looping => (pool, if pool.failure.isSome then .returned else .claiming)
  | .claiming =>
    match pool.frontier with
    | [] => (pool, .returned)
    | n :: rest => ({ pool with frontier := rest }, .walking [n] 0)
  | .walking [] seen => ({ pool with nodes := pool.nodes + seen }, .looping)
  | .walking (n :: stack) seen =>
    match v.missing n with
    | some m => ({ pool with failure := pool.failure.or (some m) }, .returned)
    | none =>
      let stack := (v.children n).reverse ++ stack
      if 4096 ≤ seen + 1 then ({ pool with nodes := pool.nodes + (seen + 1) }, .walking stack 0)
      else (pool, .walking stack (seen + 1))
  | .returned => (pool, .returned)

/-- One step of the main thread or of a worker. -/
inductive Step : Walk → Unit → Walk → Prop
  | split {size n heap counted} (hsize : v.bound < size) (hroom : heap.length + 1 < v.workers * 64)
      (hn : v.missing n = none) : Step (.splitting ((size, n) :: heap) counted) ()
        (.splitting ((v.children n).foldl v.push heap) (counted + 1))
  | refuse {size n heap counted m} (hsize : v.bound < size)
      (hroom : heap.length + 1 < v.workers * 64) (hn : v.missing n = some m) :
      Step (.splitting ((size, n) :: heap) counted) () (.walking ⟨[], counted + 1, some m⟩ [])
  | spawn {heap counted frontier}
      (hstop : ∀ p ∈ heap.head?, p.1 ≤ v.bound ∨ v.workers * 64 ≤ heap.length)
      (hfrontier : frontier ~ heap.map (·.2)) :
      Step (.splitting heap counted) () (.walking ⟨frontier, counted, none⟩
        (replicate (if frontier = [] then 0 else v.workers) .looping))
  | turn {pool before w after} (hw : w ≠ .returned) :
      Step (.walking pool (before ++ w :: after)) ()
        (.walking (v.turn pool w).1 (before ++ (v.turn pool w).2 :: after))

def start : Walk := .splitting [(v.totalSize v.root, v.root)] 0

/-- The children of a node are in the store, and so is the long value it names. -/
def Present (n : TrieNode) : Prop :=
  (∀ bit, n.child bit ≠ .empty → (v.resolve (n.child bit)).isSome) ∧
    ∀ h, n.hasLongValue → n.value = none → n.valueHash = some h → (v.store h).isSome

/-- `visits n` lists the nodes below `n`, one entry for each path. There is such a list as long as
no reference below the root leads back. -/
def Unfolds (visits : TrieNode → List TrieNode) : Prop :=
  ∀ n, v.Reaches n → visits n = n :: (v.children n).flatMap visits

end Verification

open Verification

namespace Worker

@[simp] def total (g : TrieNode → Nat) : Worker → Nat
  | .walking stack _ => (stack.map g).sum
  | _ => 0

@[simp] def seen : Worker → Nat
  | .walking _ seen => seen
  | _ => 0

/-- Turns until the next subtree or node is needed. -/
@[simp] def rank : Worker → Nat
  | .looping => 2
  | .claiming => 1
  | .walking _ _ => 3
  | .returned => 0

end Worker

namespace Walk

@[simp] def failure : Walk → Option Missing
  | .splitting _ _ => none
  | .walking pool _ => pool.failure

def Finished : Walk → Prop
  | .splitting _ _ => False
  | .walking _ workers => ∀ w ∈ workers, w = .returned

@[simp] def counted : Walk → Nat
  | .splitting _ counted => counted
  | .walking pool workers => pool.nodes + (workers.map Worker.seen).sum

def result (s : Walk) : Except Missing Nat :=
  match s with
  | .splitting _ counted => .ok counted
  | .walking pool _ => pool.failure.elim (.ok pool.nodes) .error

/-- The sum of `g` over the nodes that wait to be visited. -/
@[simp] def total (g : TrieNode → Nat) : Walk → Nat
  | .splitting heap _ => ((heap.map (·.2)).map g).sum
  | .walking pool workers => (pool.frontier.map g).sum + (workers.map (Worker.total g)).sum

def Waits (n : TrieNode) (s : Walk) : Prop := 0 < s.total fun c => if c = n then 1 else 0

/-- Bounds the steps that visit nothing. -/
@[simp] def slack (threads : Nat) : Walk → Nat
  | .splitting heap _ => 4 * heap.length + 2 * threads + 1
  | .walking pool workers => 4 * pool.frontier.length + (workers.map Worker.rank).sum

end Walk

open Walk

namespace Verification

variable {v : Verification} {visits : TrieNode → List TrieNode} {s s' : Walk}
  {hist : List (Walk × Unit)}

variable (v) in
inductive Effect (s s' : Walk) : Prop
  | moved (ht : ∀ g, s'.total g = s.total g) (hc : s'.counted = s.counted)
      (hf : s'.failure = s.failure) (hs : s'.slack v.workers < s.slack v.workers)
  | visited (n : TrieNode) (hn : v.missing n = none)
      (ht : ∀ g, g n ≤ s.total g ∧ s'.total g + g n = s.total g + ((v.children n).map g).sum)
      (hc : s'.counted = s.counted + 1) (hf : s'.failure = s.failure)
      (hs : s'.slack v.workers ≤ s.slack v.workers + 4)
  | failed (n : TrieNode) (m : Missing) (hn : v.missing n = some m)
      (ht : ∀ g, s'.total g + g n ≤ s.total g) (hf : s'.failure = s.failure.or (some m))
      (hs : s'.slack v.workers < s.slack v.workers)

lemma foldl_push (l : List TrieNode) (heap : List (UInt64 × TrieNode)) :
  (l.foldl v.push heap).map (·.2) ~ l ++ heap.map (·.2) := by
  induction l generalizing heap with
  | nil => exact .refl _
  | cons n l ih =>
    have hpush := perm_orderedInsert (fun a b : UInt64 × TrieNode => b.1 ≤ a.1)
      (v.totalSize n, n) heap
    exact (ih _).trans (((hpush.map _).append_left l).trans perm_middle)

lemma effect_turn (pool : Pool) (before : List Worker) {w : Worker} (after : List Worker)
  (hw : w ≠ .returned) : v.Effect (.walking pool (before ++ w :: after))
    (.walking (v.turn pool w).1 (before ++ (v.turn pool w).2 :: after)) := by
  rcases w with _ | _ | ⟨_ | ⟨n, stack⟩, seen⟩ | _
  · refine .moved ?_ ?_ rfl ?_ <;> simp only [turn] <;> split_ifs <;> simp
  · rcases pool with ⟨_ | ⟨n, frontier⟩, nodes, failure⟩
    · refine .moved ?_ ?_ rfl ?_ <;> simp [turn]
    · refine .moved (fun g => ?_) ?_ rfl ?_ <;> simp [turn] <;> omega
  · refine .moved ?_ ?_ rfl ?_ <;> simp [turn]
    omega
  · cases hn : v.missing n with
    | none =>
      refine .visited n hn (fun g => ?_) ?_ ?_ ?_ <;> simp only [turn, hn] <;> split_ifs <;>
      simp <;> omega
    | some m =>
      refine .failed n m hn (fun g => ?_) ?_ ?_ <;> simp [turn, hn]
      omega
  · exact absurd rfl hw

lemma Step.effect (h : v.Step s () s') : v.Effect s s' := by
  cases h with
  | @split size n heap counted hsize hroom hn =>
    have hperm := @foldl_push v (v.children n) heap
    have hlen := hperm.length_eq
    have hle : (v.children n).length ≤ 2 := length_filterMap_le _ _
    refine .visited n hn (fun g => ?_) rfl rfl ?_
    · simp only [total, (hperm.map g).sum_eq, map_append, sum_append, map_cons, sum_cons]
      omega
    simp only [length_map, length_append] at hlen
    simp only [slack, hlen, length_cons]
    omega
  | @refuse size n heap counted m hsize hroom hn =>
    exact .failed n m hn (fun g => by simp) rfl (by simp)
  | @spawn heap counted frontier hstop hfrontier =>
    have hlen := hfrontier.length_eq
    refine .moved (fun g => ?_) ?_ rfl ?_
    · simp only [total, (hfrontier.map g).sum_eq, map_replicate, Worker.total, sum_replicate,
        smul_zero, add_zero]
    · simp
    simp only [length_map] at hlen
    simp only [slack, map_replicate, sum_replicate, Worker.rank, smul_eq_mul, hlen]
    split_ifs <;> omega
  | turn hw => exact effect_turn _ _ _ hw

/-- The nodes visited and those that wait are reached from the root, and hold the root and the
children of every node visited. -/
structure Covers (v : Verification) (s : Walk) : Prop where
  reached : ∀ g, (∀ n, v.Reaches n → g n = 0) → s.total g = 0
  blamed : ∀ m, s.failure = some m → ∃ n, v.Reaches n ∧ v.missing n = some m
  covered : s.failure = none → ∃ done : List TrieNode, (v.root ∈ done ∨ s.Waits v.root) ∧
    ∀ n ∈ done, v.missing n = none ∧ ∀ c ∈ v.children n, c ∈ done ∨ s.Waits c

lemma mem_children {n c : TrieNode} :
  c ∈ v.children n ↔ ∃ bit, v.resolve (n.child bit) = some c := by
  simp [children, TrieNode.child, mem_filterMap]

lemma Covers.reaches (ha : Covers v s) {n : TrieNode}
  (hn : ∀ g : TrieNode → Nat, g n ≤ s.total g) : v.Reaches n := by
  by_contra hnot
  have hzero := ha.reached (fun c => if c = n then 1 else 0) fun c hc =>
    if_neg (by rintro rfl; exact hnot hc)
  have hone := hn fun c => if c = n then 1 else 0
  rw [hzero, if_pos rfl] at hone
  omega

lemma Effect.covers (h : v.Effect s s') (ha : Covers v s) : Covers v s' := by
  cases h with
  | moved ht hc hf hs =>
    obtain ⟨hreached, hblamed, hcovered⟩ := ha
    simp only [Waits, ← ht, ← hf] at hreached hblamed hcovered
    exact ⟨hreached, hblamed, hcovered⟩
  | visited n hn ht hc hf hs =>
    have hreach : v.Reaches n := ha.reaches fun g => (ht g).1
    -- a node that waited, or is a child of the one visited, waits now or is that one
    have hwaits : ∀ c, s.Waits c ∨ c ∈ v.children n → c = n ∨ s'.Waits c := by
      intro c hc
      by_cases hcn : n = c
      · exact .inl hcn.symm
      have hsum := (ht fun d => if d = c then 1 else 0).2
      rw [if_neg hcn] at hsum
      refine .inr (Nat.pos_of_ne_zero fun hzero => ?_)
      rcases hc with hc | hc
      · unfold Waits at hc
        omega
      have := single_le_sum (l := (v.children n).map fun d => if d = c then 1 else 0)
        (fun _ _ => Nat.zero_le _) 1 (mem_map.mpr ⟨c, hc, if_pos rfl⟩)
      omega
    refine ⟨fun g hg => ?_, hf ▸ ha.blamed, fun hnone => ?_⟩
    · have hsum := (ht g).2
      rw [ha.reached g hg, sum_eq_zero fun x hx => by
        obtain ⟨c, hc, rfl⟩ := mem_map.mp hx
        obtain ⟨bit, hbit⟩ := mem_children.mp hc
        exact hg c (hreach.child bit hbit)] at hsum
      omega
    obtain ⟨done, hroot, hdone⟩ := ha.covered (hf ▸ hnone)
    have hkeep : ∀ c, c ∈ done ∨ s.Waits c → c ∈ n :: done ∨ s'.Waits c := by
      rintro c (hc | hc)
      · exact .inl (mem_cons_of_mem _ hc)
      · exact (hwaits c (.inl hc)).imp_left fun h => mem_cons.mpr (.inl h)
    refine ⟨n :: done, hkeep _ hroot, forall_mem_cons.mpr ⟨⟨hn, fun c hc => ?_⟩,
      fun d hd => ⟨(hdone d hd).1, fun c hc => hkeep c ((hdone d hd).2 c hc)⟩⟩⟩
    exact (hwaits c (.inr hc)).imp_left fun h => mem_cons.mpr (.inl h)
  | failed n m hn ht hf hs =>
    refine ⟨fun g hg => ?_, fun m' hm' => ?_, fun hnone => ?_⟩
    · have := ht g
      rw [ha.reached g hg] at this
      omega
    · rcases or_eq_some_iff.mp (hf ▸ hm') with hold | ⟨-, hnew⟩
      · exact ha.blamed m' hold
      · exact ⟨n, ha.reaches fun g => le_trans (Nat.le_add_left _ _) (ht g), hn.trans hnew⟩
    rw [hf, or_eq_none_iff] at hnone
    cases hnone.2

lemma run_covers (hrun : Run v.Step v.start hist s) : Covers v s := by
  induction hrun with
  | init =>
    refine ⟨fun g hg => ?_, nofun, fun _ => ⟨[], .inr ?_, nofun⟩⟩ <;> simp [start, Waits]
    exact hg v.root .refl
  | step _ hstep ih => exact hstep.effect.covers ih

/-- Bounds the steps that are left. -/
def potential (v : Verification) (visits : TrieNode → List TrieNode) (s : Walk) : Nat :=
  5 * s.total (fun n => (visits n).length) + s.slack v.workers

/-- **Every run of the walk**: the steps taken and left are bounded, and what is counted and what is
below the waiting nodes make up the whole. -/
theorem run_counts (hv : v.Unfolds visits) (hrun : Run v.Step v.start hist s) :
  hist.length + v.potential visits s ≤ v.potential visits v.start ∧ (s.failure = none →
    s.counted + s.total (fun n => (visits n).length) = (visits v.root).length) := by
  induction hrun with
  | init => exact ⟨by simp, fun _ => by simp [start]⟩
  | @step hist s s' _ hrun hstep ih =>
    obtain ⟨hbound, hcount⟩ := ih
    unfold potential at hbound ⊢
    rw [length_cons]
    cases hstep.effect with
    | moved ht hc hf hs =>
      rw [ht, hc, hf]
      exact ⟨by omega, hcount⟩
    | visited n hn ht hc hf hs =>
      have hsum := (ht fun n => (visits n).length).2
      simp only [hv n ((run_covers hrun).reaches fun g => (ht g).1), length_cons,
        length_flatMap] at hsum
      rw [hc, hf]
      exact ⟨by omega, fun hnone => by have := hcount hnone; omega⟩
    | failed n m hn ht hf hs =>
      have hle := ht fun n => (visits n).length
      refine ⟨by omega, fun hnone => ?_⟩
      rw [hf, or_eq_none_iff] at hnone
      cases hnone.2

/-- A worker returns on a failure or when nothing is left. -/
lemma Step.alive {pool : Pool} {workers : List Worker} (h : v.Step s () (.walking pool workers)) :
  pool.frontier = [] ∨ pool.failure.isSome ∨ ∃ w ∈ workers, w ≠ .returned := by
  cases h with
  | refuse => exact .inl rfl
  | @spawn _ _ frontier => by_cases h : frontier = [] <;> simp [h, workers]
  | @turn pool before w after hw =>
    by_cases hreturned : (v.turn pool w).2 = .returned
    · rcases w with _ | _ | ⟨_ | ⟨n, stack⟩, seen⟩ | _
      · simp only [Verification.turn, ite_eq_left_iff, reduceCtorEq, imp_false, not_not] at hreturned
        exact .inr (.inl hreturned)
      · rcases pool with ⟨_ | _, _, _⟩
        · exact .inl rfl
        · cases hreturned
      · cases hreturned
      · cases hn : v.missing n <;> simp only [Verification.turn, hn] at hreturned ⊢
        · split_ifs at hreturned
        · exact .inr (.inl (by simp))
      · exact absurd rfl hw
    · exact .inr (.inr ⟨_, mem_append_right _ (mem_cons_self ..), hreturned⟩)

lemma progress (h : ¬s.Finished) : ∃ s', v.Step s () s' := by
  cases s with
  | splitting heap counted =>
    by_cases hstop : ∀ p ∈ heap.head?, p.1 ≤ v.bound ∨ v.workers * 64 ≤ heap.length
    · exact ⟨_, .spawn hstop (.refl _)⟩
    rcases heap with _ | ⟨⟨size, n⟩, heap⟩
    · simp at hstop
    simp only [head?_cons, mem_some_iff, forall_eq', not_or, not_le, length_cons] at hstop
    cases hn : v.missing n with
    | none => exact ⟨_, .split (UInt64.not_le.mp hstop.1) hstop.2 hn⟩
    | some m => exact ⟨_, .refuse (UInt64.not_le.mp hstop.1) hstop.2 hn⟩
  | walking pool workers =>
    simp only [Finished, not_forall] at h
    obtain ⟨w, hmem, hw⟩ := h
    obtain ⟨before, after, rfl⟩ := append_of_mem hmem
    exact ⟨_, .turn hw⟩

lemma missing_eq_none_iff (n : TrieNode) : v.missing n = none ↔ v.Present n := by
  have href : ∀ ref, v.missingRef ref = none ↔ (ref ≠ .empty → (v.resolve ref).isSome) := by
    intro ref
    cases ref with
    | hash h => by_cases hsome : (v.resolve (.hash h)).isSome <;> simp [missingRef, hsome]
    | _ => simp [missingRef, resolve, NodeRef.resolve]
  have hcheck : v.checkValue n = none ↔ ∀ h, n.hasLongValue → n.value = none →
      n.valueHash = some h → (v.store h).isSome := by
    unfold checkValue
    cases n.valueHash <;> cases n.value <;> simp [isSome_iff_ne_none]
  rw [missing, or_eq_none_iff, or_eq_none_iff, href, href, hcheck, Present, Bool.forall_bool]
  exact and_comm

/-- A walk that ends without a failure leaves nothing waiting. -/
lemma finished_total (hrun : Run v.Step v.start hist s) (hfinished : s.Finished)
  (hnone : s.failure = none) : s.result = .ok s.counted ∧ ∀ g, s.total g = 0 := by
  cases hrun with
  | init => cases hfinished
  | @step _ _ s _ _ hstep =>
    rcases s with _ | ⟨⟨frontier, nodes, failure⟩, workers⟩
    · cases hfinished
    obtain rfl : failure = none := hnone
    have hempty : frontier = [] := by
      rcases hstep.alive with h | h | ⟨w, hw, h⟩
      · exact h
      · cases h
      · exact absurd (hfinished w hw) h
    rw [eq_replicate_of_mem hfinished, hempty]
    simp [result]

lemma finished_ok_iff (hrun : Run v.Step v.start hist s) (hfinished : s.Finished) :
  (∃ k, s.result = .ok k) ↔ ∀ n, v.Reaches n → v.Present n := by
  obtain ⟨-, hblamed, hcovered⟩ := run_covers hrun
  simp only [← missing_eq_none_iff]
  cases hf : s.failure with
  | none =>
    obtain ⟨hok, hzero⟩ := finished_total hrun hfinished hf
    obtain ⟨done, hroot, hdone⟩ := hcovered hf
    simp only [Waits, hzero, Nat.lt_irrefl, or_false] at hroot hdone
    refine iff_of_true ⟨_, hok⟩ fun n hn => (hdone n ?_).1
    induction hn with
    | refl => exact hroot
    | @child n c _ bit hc ih => exact (hdone n ih).2 c (mem_children.mpr ⟨bit, hc⟩)
  | some m =>
    obtain ⟨n, hn, hm⟩ := hblamed m hf
    refine iff_of_false ?_ fun h => ?_
    · rintro ⟨k, hk⟩
      cases s <;> simp_all [result]
    rw [h n hn] at hm
    cases hm

lemma exists_finished (hv : v.Unfolds visits) (hrun : Run v.Step v.start hist s) :
  ∃ hist s, Run v.Step v.start hist s ∧ s.Finished := by
  induction hk : v.potential visits v.start - hist.length using Nat.strong_induction_on
    generalizing hist s with
  | _ k ih =>
    subst hk
    by_cases hfinished : s.Finished
    · exact ⟨hist, s, hrun, hfinished⟩
    obtain ⟨s', hstep⟩ := @progress v s hfinished
    have hbound := (run_counts hv (hrun.step hstep)).1
    rw [length_cons] at hbound
    exact ih _ (by rw [length_cons]; omega) (hrun.step hstep) rfl

lemma finished_count (hv : v.Unfolds visits) (hrun : Run v.Step v.start hist s)
  (hfinished : s.Finished) {k : Nat} (hk : s.result = .ok k) : k = (visits v.root).length := by
  have hnone : s.failure = none := by
    rcases s with _ | ⟨⟨_, _, _ | m⟩, _⟩
    · rfl
    · rfl
    · cases hk
  obtain ⟨hok, hzero⟩ := finished_total hrun hfinished hnone
  have hcount := (run_counts hv hrun).2 hnone
  rw [hk, Except.ok.injEq] at hok
  rw [hzero] at hcount
  omega

/-- **The verdict of every schedule.** The walk is never stuck, and when it ends it has returned
`Ok` exactly if everything below the root is there. As long as no reference leads back it ends,
within a bound no schedule changes, and the number returned has one node for each path. -/
theorem verify_complete_verdict (hrun : Run v.Step v.start hist s) :
  (¬s.Finished → ∃ s', v.Step s () s') ∧
    (s.Finished → ((∃ k, s.result = .ok k) ↔ ∀ n, v.Reaches n → v.Present n)) ∧
    ∀ visits, v.Unfolds visits →
      hist.length ≤ 5 * (visits v.root).length + 2 * max v.threads 1 + 5 ∧
      (s.Finished → ∀ k, s.result = .ok k → k = (visits v.root).length) := by
  refine ⟨progress, finished_ok_iff hrun, fun visits hv => ⟨?_, fun hfinished k hk =>
    finished_count hv hrun hfinished hk⟩⟩
  have hbound := (run_counts hv hrun).1
  simp [potential, start, workers] at hbound
  omega

end Verification

namespace VerifyExample

def leaf : TrieNode := ⟨[], some [7], some (keccak256 [7]), none, .empty, .empty, 0⟩

def shared : B256 := keccak256 [0x40, 7]

def v : Verification where
  keccak := keccak256
  store h := if h = shared then some [0x40, 7] else none
  root := ⟨[], none, none, none, .hash shared, .hash shared, 4⟩
  threads := 4

def visits (n : TrieNode) : List TrieNode := if n = v.root then [v.root, leaf, leaf] else [n]

lemma children_root : v.children v.root = [leaf, leaf] := by decide +kernel

lemma reaches_iff (n : TrieNode) : v.Reaches n ↔ n = v.root ∨ n = leaf := by
  constructor
  · intro hn
    induction hn with
    | refl => exact .inl rfl
    | child _ bit hc ih =>
      have hmem := mem_children.mpr ⟨bit, hc⟩
      rcases ih with rfl | rfl
      · rw [children_root] at hmem
        simp_all
      · cases hmem
  rintro (rfl | rfl)
  · exact .refl
  · exact .child .refl false (by decide +kernel)

lemma unfolds : v.Unfolds visits := by
  intro n hn
  rcases (reaches_iff n).mp hn with rfl | rfl
  · rw [children_root]
    decide +kernel
  · decide +kernel

lemma present (n : TrieNode) (hn : v.Reaches n) : v.Present n := by
  rw [← missing_eq_none_iff, ← Option.not_isSome_iff_eq_none]
  rcases (reaches_iff n).mp hn with rfl | rfl <;> decide +kernel

/-! ### A long value of one byte -/

def short : B256 := keccak256 [7]

/-- The message has the flag of a long value and gives its length as 1. -/
def shortMessage : Bytes := 0x60 :: (short.bytes ++ [0, 0, 1])

/-- The trie of one node whose value is not in the store. -/
def w : Verification where
  keccak := keccak256
  store _ := none
  root := ⟨[], none, some short, some 1, .empty, .empty, 0⟩
  threads := 4

theorem short_reaches (n : TrieNode) (hn : w.Reaches n) : n = w.root := by
  induction hn with
  | refl => rfl
  | child _ bit hc ih =>
    rw [ih] at hc
    cases bit <;> cases hc

theorem short_unfolds : w.Unfolds fun n => [n] := by
  intro n hn
  rw [short_reaches n hn]
  rfl

theorem short_present (n : TrieNode) (hn : w.Reaches n) : w.Present n := by
  rw [short_reaches n hn]
  refine ⟨fun bit hne => absurd ?_ hne, fun h hlong => absurd hlong (by decide)⟩
  cases bit <;> rfl

end VerifyExample

open VerifyExample

theorem verify_complete_shared :
  ∃ hist s, Run v.Step v.start hist s ∧ s.Finished ∧ ∃ k, s.result = .ok k := by
  obtain ⟨hist, s, hrun, hfinished⟩ := exists_finished unfolds .init
  have hiff := (verify_complete_verdict hrun).2.1 hfinished
  exact ⟨hist, s, hrun, hfinished, hiff.mpr present⟩

/-- **What verification counts and what it passes over.** The two references of the root lead to one
stored node, which is counted twice. A value that is stored outside its node but declared with a
length up to 32 is missing, and the trie is verified all the same: `has_long_value` goes by the
length, not by the flag. -/
theorem shared_node_twice_short_value_missed :
    (∃ hist s, Run v.Step v.start hist s ∧ s.Finished ∧ s.result = .ok 3 ∧
      {n | v.Reaches n}.ncard = 2) ∧
    TrieNode.tryFromMessage w.keccak w.store shortMessage = some w.root ∧
    w.root.longValueLen = some 1 ∧ w.root.valueHash = some short ∧ w.store short = none ∧
    ∃ hist s, Run w.Step w.start hist s ∧ s.Finished ∧ s.result = .ok 1 := by
  obtain ⟨hist, s, hrun, hfinished⟩ := exists_finished unfolds .init
  obtain ⟨k, hk⟩ := (finished_ok_iff hrun hfinished).mpr present
  rw [finished_count unfolds hrun hfinished hk, visits, if_pos rfl] at hk
  refine ⟨⟨hist, s, hrun, hfinished, hk, ?_⟩, by decide +kernel, rfl, rfl, rfl, ?_⟩
  · simp only [reaches_iff]
    exact Set.ncard_pair (by decide +kernel)
  obtain ⟨hist, s, hrun, hfinished⟩ := exists_finished short_unfolds .init
  obtain ⟨k, hk⟩ := (finished_ok_iff hrun hfinished).mpr short_present
  rw [finished_count short_unfolds hrun hfinished hk] at hk
  exact ⟨hist, s, hrun, hfinished, hk⟩

end Rustock
