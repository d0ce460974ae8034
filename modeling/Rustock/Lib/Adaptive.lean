import Mathlib

/-!
# Adaptive programs over cells

A program reads one cell at a time and may choose what it does next by what it read, writes
cells, and returns a result. `Prog.run` records its footprint.

Groups of programs can be run one after the other on one state (`inOrder`) or each on the base
state (`separate`). If a group touches a cell an earlier one wrote, the two runs of that group may
part, but they do so at a cell they both touched (`runProgs_diverge`). So:

- `conflicting_iff`: both ways find a conflict or neither does;
- `inOrder_eq_separate`: without one, the groups ran alike, and the state is the base with each
  group's writes committed in order.
-/

namespace Lib

open List Function

variable {κ V ρ : Type}

inductive Prog (κ V ρ : Type) where
  | done (result : ρ)
  | read (key : κ) (next : V → Prog κ V ρ)
  | write (key : κ) (value : V) (next : Prog κ V ρ)

structure Ran (κ ρ : Type) where
  result : ρ
  reads : List κ
  writes : List κ

variable [DecidableEq κ]

namespace Prog

def run : Prog κ V ρ → (κ → V) → Ran κ ρ × (κ → V)
  | done result, s => (⟨result, [], []⟩, s)
  | read key next, s =>
    let (r, s') := (next (s key)).run s
    ({ r with reads := key :: r.reads }, s')
  | write key value next, s =>
    let (r, s') := next.run (update s key value)
    ({ r with writes := key :: r.writes }, s')

lemma run_frame (p : Prog κ V ρ) : ∀ {s : κ → V} {k : κ}, k ∉ (p.run s).1.writes →
  (p.run s).2 k = s k := by
  induction p with
  | done result => exact fun _ => rfl
  | read key next ih => exact fun hk => ih _ hk
  | write key value next ih =>
    intro s k hk
    have hne : k ≠ key := fun heq => hk (by simp [run, heq])
    have hrest : k ∉ (next.run (update s key value)).1.writes :=
      fun hmem => hk (mem_cons_of_mem _ hmem)
    exact (ih hrest).trans (update_of_ne hne _ _)

end Prog

def Ran.Touches (r : Ran κ ρ) (dirty : Set κ) : Prop := ∃ k ∈ dirty, k ∈ r.reads ∨ k ∈ r.writes

/-- **First divergence.** On states that agree outside the dirty cells a program touches one of
them in both runs, or runs alike and leaves states that agree outside them. -/
theorem Prog.run_diverge (p : Prog κ V ρ) (dirty : Set κ) : ∀ {s s' : κ → V},
  (∀ k, k ∉ dirty → s k = s' k) → ((p.run s).1.Touches dirty ∧ (p.run s').1.Touches dirty) ∨
    ((p.run s).1 = (p.run s').1 ∧ ¬(p.run s).1.Touches dirty ∧
      ∀ k, k ∉ dirty → (p.run s).2 k = (p.run s').2 k) := by
  induction p with
  | done result =>
    intro s s' hagree
    refine .inr ⟨rfl, ?_, hagree⟩
    rintro ⟨k, _, hk | hk⟩ <;> exact not_mem_nil hk
  | read key next ih =>
    intro s s' hagree
    by_cases hkey : key ∈ dirty
    · exact .inl ⟨⟨key, hkey, .inl mem_cons_self⟩, ⟨key, hkey, .inl mem_cons_self⟩⟩
    have hsame : s' key = s key := (hagree key hkey).symm
    rcases ih (s key) hagree with ⟨⟨k, hk, ht⟩, ⟨k', hk', ht'⟩⟩ | ⟨heq, hnot, hstate⟩
    · refine .inl ⟨⟨k, hk, ht.imp_left (mem_cons_of_mem _)⟩, ⟨k', hk', ?_⟩⟩
      simp only [run, hsame]
      exact ht'.imp_left (mem_cons_of_mem _)
    simp only [run, hsame]
    refine .inr ⟨by rw [heq], ?_, hstate⟩
    rintro ⟨k, hk, hr | hw⟩
    · rcases mem_cons.mp hr with rfl | hr
      · exact hkey hk
      · exact hnot ⟨k, hk, .inl hr⟩
    · exact hnot ⟨k, hk, .inr hw⟩
  | write key value next ih =>
    intro s s' hagree
    by_cases hkey : key ∈ dirty
    · exact .inl ⟨⟨key, hkey, .inr mem_cons_self⟩, ⟨key, hkey, .inr mem_cons_self⟩⟩
    have hagree' : ∀ k, k ∉ dirty →
        update s key value k = update s' key value k := by
      intro k hk
      by_cases heq : k = key
      · subst heq
        rw [update_self, update_self]
      · rw [update_of_ne heq, update_of_ne heq, hagree k hk]
    rcases ih hagree' with ⟨⟨k, hk, ht⟩, ⟨k', hk', ht'⟩⟩ | ⟨heq, hnot, hstate⟩
    · exact .inl ⟨⟨k, hk, ht.imp_right (mem_cons_of_mem _)⟩,
        ⟨k', hk', ht'.imp_right (mem_cons_of_mem _)⟩⟩
    simp only [run]
    refine .inr ⟨by rw [heq], ?_, hstate⟩
    rintro ⟨k, hk, hr | hw⟩
    · exact hnot ⟨k, hk, .inl hr⟩
    rcases mem_cons.mp hw with rfl | hw
    · exact hkey hk
    · exact hnot ⟨k, hk, .inr hw⟩

def runProgs : List (Prog κ V ρ) → (κ → V) → List (Ran κ ρ) × (κ → V)
  | [], s => ([], s)
  | p :: ps, s =>
    let (r, s) := p.run s
    let (rs, s) := runProgs ps s
    (r :: rs, s)

lemma runProgs_append (ps qs : List (Prog κ V ρ)) (s : κ → V) : runProgs (ps ++ qs) s =
    ((runProgs ps s).1 ++ (runProgs qs (runProgs ps s).2).1, (runProgs qs (runProgs ps s).2).2) := by
  induction ps generalizing s with
  | nil => rfl
  | cons p ps ih => simp only [cons_append, runProgs, ih]

variable (ps : List (Prog κ V ρ))

@[simp] lemma length_runProgs (s : κ → V) : (runProgs ps s).1.length = ps.length := by
  induction ps generalizing s with
  | nil => rfl
  | cons p ps ih => simp [runProgs, ih]

variable (rs : List (Ran κ ρ))

def readKeys : List κ := rs.flatMap (·.reads)

def writtenKeys : List κ := rs.flatMap (·.writes)

lemma runProgs_frame : ∀ {s : κ → V} {k : κ},
  k ∉ writtenKeys (runProgs ps s).1 → (runProgs ps s).2 k = s k := by
  induction ps with
  | nil => exact fun _ => rfl
  | cons p ps ih =>
    intro s k hk
    simp only [runProgs, writtenKeys, flatMap_cons, mem_append, not_or] at hk
    exact (ih hk.2).trans (p.run_frame hk.1)

def TouchesAny (dirty : Set κ) : Prop :=
  ∃ k ∈ dirty, k ∈ readKeys rs ∨ k ∈ writtenKeys rs

omit [DecidableEq κ] in
lemma touchesAny_cons {r : Ran κ ρ} {rs : List (Ran κ ρ)} {dirty : Set κ} :
  TouchesAny (r :: rs) dirty ↔ r.Touches dirty ∨ TouchesAny rs dirty := by
  simp only [TouchesAny, readKeys, writtenKeys, flatMap_cons, mem_append, Ran.Touches]
  constructor
  · rintro ⟨k, hk, (hr | hr) | (hw | hw)⟩
    · exact .inl ⟨k, hk, .inl hr⟩
    · exact .inr ⟨k, hk, .inl hr⟩
    · exact .inl ⟨k, hk, .inr hw⟩
    · exact .inr ⟨k, hk, .inr hw⟩
  rintro (⟨k, hk, hr | hw⟩ | ⟨k, hk, hr | hw⟩)
  · exact ⟨k, hk, .inl (.inl hr)⟩
  · exact ⟨k, hk, .inr (.inl hw)⟩
  · exact ⟨k, hk, .inl (.inr hr)⟩
  · exact ⟨k, hk, .inr (.inr hw)⟩

lemma runProgs_diverge (dirty : Set κ) : ∀ {s s' : κ → V}, (∀ k, k ∉ dirty → s k = s' k) →
  (TouchesAny (runProgs ps s).1 dirty ∧ TouchesAny (runProgs ps s').1 dirty) ∨
    ((runProgs ps s).1 = (runProgs ps s').1 ∧ ¬TouchesAny (runProgs ps s).1 dirty ∧
      ∀ k, k ∉ dirty → (runProgs ps s).2 k = (runProgs ps s').2 k) := by
  induction ps with
  | nil =>
    intro s s' hagree
    refine .inr ⟨rfl, ?_, hagree⟩
    rintro ⟨k, _, hk | hk⟩ <;> exact not_mem_nil hk
  | cons p ps ih =>
    intro s s' hagree
    simp only [runProgs, touchesAny_cons]
    rcases p.run_diverge dirty hagree with ⟨ht, ht'⟩ | ⟨heq, hnot, hstate⟩
    · exact .inl ⟨.inl ht, .inl ht'⟩
    rcases ih hstate with ⟨ht, ht'⟩ | ⟨hrest, hnot', hstate'⟩
    · exact .inl ⟨.inr ht, .inr ht'⟩
    · exact .inr ⟨by rw [heq, hrest], not_or.mpr ⟨hnot, hnot'⟩, hstate'⟩

def inOrder : List (List (Prog κ V ρ)) → (κ → V) → List (List (Ran κ ρ)) × (κ → V)
  | [], s => ([], s)
  | g :: gs, s =>
    let (r, s) := runProgs g s
    let (rs, s) := inOrder gs s
    (r :: rs, s)

lemma inOrder_eq_runProgs (gs : List (List (Prog κ V ρ))) (s : κ → V) :
  ((inOrder gs s).1.flatten, (inOrder gs s).2) = runProgs gs.flatten s := by
  induction gs generalizing s with
  | nil => rfl
  | cons g gs ih =>
    rw [flatten_cons, runProgs_append, ← ih]
    rfl

variable {gs : List (List (Prog κ V ρ))}

lemma forall₂_inOrder {α : Type} {R : α → Nat → Prop} {l : List α}
  (h : List.Forall₂ (fun a g => R a g.length) l gs) (s : κ → V) :
  List.Forall₂ (fun a rs => R a rs.length) l (inOrder gs s).1 := by
  induction h generalizing s with
  | nil => exact .nil
  | cons hhead _ ih => exact .cons (by simpa using hhead) (ih _)

def separate (gs : List (List (Prog κ V ρ))) (base : κ → V) : List (List (Ran κ ρ)) :=
  gs.map fun g => (runProgs g base).1

lemma forall₂_separate {α : Type} {R : α → Nat → Prop} {l : List α}
  (h : List.Forall₂ (fun a g => R a g.length) l gs) (base : κ → V) :
  List.Forall₂ (fun a rs => R a rs.length) l (separate gs base) := by
  induction h with
  | nil => exact .nil
  | cons hhead _ ih => exact .cons (by simpa using hhead) ih

def commit (root : κ → V) (ran : List (Ran κ ρ) × (κ → V)) : κ → V :=
  fun k => if k ∈ writtenKeys ran.1 then ran.2 k else root k

def Conflicting (groups : List (List (Ran κ ρ))) : Prop :=
  ∃ (i j : Nat) (x y : List (Ran κ ρ)) (k : κ), groups[i]? = some x ∧
    groups[j]? = some y ∧ i ≠ j ∧ k ∈ writtenKeys x ∧ (k ∈ readKeys y ∨ k ∈ writtenKeys y)

def dirtyOf (groups : List (List (Ran κ ρ))) : Set κ := { k | ∃ x ∈ groups, k ∈ writtenKeys x }

omit [DecidableEq κ] in
lemma conflicting_of_touches {before : List (List (Ran κ ρ))} {x : List (Ran κ ρ)}
  {after : List (List (Ran κ ρ))} (h : TouchesAny x (dirtyOf before)) :
  Conflicting (before ++ x :: after) := by
  obtain ⟨k, ⟨y, hy, hw⟩, hk⟩ := h
  obtain ⟨i, hi⟩ := mem_iff_getElem?.mp hy
  have hlt := (List.getElem?_eq_some_iff.mp hi).1
  refine ⟨i, before.length, y, x, k, ?_, ?_, Nat.ne_of_lt hlt, hw, hk⟩
  · rw [getElem?_append_left hlt, hi]
  rw [getElem?_append_right le_rfl, Nat.sub_self]
  rfl

omit [DecidableEq κ] in
lemma dirtyOf_append (before : List (List (Ran κ ρ))) (x : List (Ran κ ρ)) :
  dirtyOf (before ++ [x]) = dirtyOf before ∪ { k | k ∈ writtenKeys x } := by
  ext k
  simp [dirtyOf, or_and_right, exists_or]

variable {base : κ → V}

lemma agree_append {before : List (List (Ran κ ρ))} {s : κ → V} {g : List (Prog κ V ρ)}
  (hagree : ∀ k, k ∉ dirtyOf before → s k = base k) :
  ∀ k, k ∉ dirtyOf (before ++ [(runProgs g s).1]) → (runProgs g s).2 k = base k := by
  intro k hk
  rw [dirtyOf_append] at hk
  exact (runProgs_frame g fun hw => hk (.inr hw)).trans (hagree k fun hd => hk (.inl hd))

/-- **Both ways find a conflict or neither does.** -/
theorem conflicting_iff (gs : List (List (Prog κ V ρ))) (base : κ → V) :
  Conflicting (inOrder gs base).1 ↔ Conflicting (separate gs base) := by
  -- `before` are the groups already run, alike in both ways, and `s` the state they left
  have hgeneral : ∀ (gs : List (List (Prog κ V ρ))) (before : List (List (Ran κ ρ))) (s : κ → V),
      (∀ k, k ∉ dirtyOf before → s k = base k) →
      (Conflicting (before ++ (inOrder gs s).1) ↔ Conflicting (before ++ separate gs base)) := by
    intro gs
    induction gs with
    | nil => exact fun _ _ _ => Iff.rfl
    | cons g gs ih =>
      intro before s hagree
      simp only [inOrder, separate, map_cons]
      rcases runProgs_diverge g (dirtyOf before) hagree with ⟨ht, ht'⟩ | ⟨heq, _, _⟩
      · exact ⟨fun _ => conflicting_of_touches ht', fun _ => conflicting_of_touches ht⟩
      have hrest := ih (before ++ [(runProgs g s).1]) (runProgs g s).2 (agree_append hagree)
      rw [append_assoc, append_assoc] at hrest
      rw [← heq]
      exact hrest
  exact hgeneral gs [] base fun _ _ => rfl

/-- **Without a conflict** the groups run alike, and the state is the base with each group's
writes committed in order. -/
theorem inOrder_eq_separate (h : ¬Conflicting (separate gs base)) :
  (inOrder gs base).1 = separate gs base ∧
    (inOrder gs base).2 = (gs.map fun g => runProgs g base).foldl commit base := by
  have hgeneral : ∀ (gs : List (List (Prog κ V ρ))) (before : List (List (Ran κ ρ))) (s : κ → V),
      (∀ k, k ∉ dirtyOf before → s k = base k) → ¬Conflicting (before ++ separate gs base) →
      (inOrder gs s).1 = separate gs base ∧
        (inOrder gs s).2 = (gs.map fun g => runProgs g base).foldl commit s := by
    intro gs
    induction gs with
    | nil => exact fun _ _ _ _ => ⟨rfl, rfl⟩
    | cons g gs ih =>
      intro before s hagree hfree
      simp only [separate, map_cons] at hfree
      rcases runProgs_diverge g (dirtyOf before) hagree with ⟨_, ht'⟩ | ⟨heq, hnot, hstate⟩
      · exact absurd (conflicting_of_touches ht') hfree
      have hcommit : (runProgs g s).2 = commit s (runProgs g base) := by
        funext k
        unfold commit
        split
        · rename_i hw
          -- a written cell is not dirty, so both runs left the same value
          exact hstate k fun hd => hnot ⟨k, hd, .inr (heq ▸ hw)⟩
        rename_i hw
        exact runProgs_frame g (heq ▸ hw)
      obtain ⟨hruns, hfinal⟩ := ih (before ++ [(runProgs g s).1]) (runProgs g s).2
        (agree_append hagree) (by
          rw [append_assoc, heq]
          exact hfree)
      simp only [inOrder, separate, map_cons, foldl_cons]
      exact ⟨by rw [heq, hruns]; rfl, by rw [hfinal, hcommit]⟩
  exact hgeneral gs [] base (fun _ _ => rfl) h

end Lib
