import Mathlib

/-!
# Path-compressed binary trees

A radix tree over bit strings: every node carries the bits its keys share, a value if one of
them ends there, and a subtree for each next bit. Keys may be prefixes of each other.
-/

namespace Lib

open List Option Function
open Function (update)

inductive PathCompare where
  /-- The path is an initial part of the key. -/
  | within (rest : List Bool)
  /-- The key ends inside the path, before the bit `bit`. -/
  | ends (common : List Bool) (bit : Bool) (pathRest : List Bool)
  /-- The path goes on with `bit` where the key has the other bit. -/
  | parts (common : List Bool) (bit : Bool) (pathRest keyRest : List Bool)
deriving DecidableEq

namespace PathCompare

def cons (bit : Bool) : PathCompare → PathCompare
  | within rest => within rest
  | ends common b pathRest => ends (bit :: common) b pathRest
  | parts common b pathRest keyRest => parts (bit :: common) b pathRest keyRest

end PathCompare

def comparePath : List Bool → List Bool → PathCompare
  | key, [] => .within key
  | [], b :: path => .ends [] b path
  | a :: key, b :: path => if a = b then (comparePath key path).cons a else .parts [] b path key

def PathCompare.Holds (key path : List Bool) : PathCompare → Prop
  | .within rest => key = path ++ rest
  | .ends common b pathRest => path = common ++ b :: pathRest ∧ key = common
  | .parts common b pathRest keyRest =>
    path = common ++ b :: pathRest ∧ key = common ++ (!b) :: keyRest

lemma comparePath_holds : ∀ key path, (comparePath key path).Holds key path
  | key, [] => by simp [comparePath, PathCompare.Holds]
  | [], b :: path => by simp [comparePath, PathCompare.Holds]
  | a :: key, b :: path => by
    have ih := comparePath_holds key path
    by_cases hab : a = b
    · subst hab
      rw [comparePath, if_pos rfl]
      cases h : comparePath key path with
      | within | ends | parts =>
        rw [h] at ih
        simpa [PathCompare.cons, PathCompare.Holds] using ih
    rw [comparePath, if_neg hab]
    cases a <;> cases b <;> simp_all [PathCompare.Holds]

lemma comparePath_append (path rest : List Bool) :
  comparePath (path ++ rest) path = .within rest := by
  induction path with
  | nil => simp [comparePath]
  | cons b path ih => simp [comparePath, ih, PathCompare.cons]

lemma comparePath_ne_append {key path : List Bool}
  (h : ∀ rest, comparePath key path ≠ .within rest) : ∀ rest, key ≠ path ++ rest := by
  rintro rest rfl
  exact h rest (comparePath_append path rest)

inductive Radix (V : Type*) where
  | nil
  | node (path : List Bool) (value : Option V) (left right : Radix V)
deriving DecidableEq

namespace Radix

variable {V : Type*}

/-- A node whose subtree at `b` is `child`, with `other` beside it. -/
def fork (path : List Bool) (value : Option V) (b : Bool) (child other : Radix V) : Radix V :=
  if b then node path value other child else node path value child other

def lookup : Radix V → List Bool → Option V
  | nil, _ => none
  | node path value left right, key =>
    match comparePath key path with
    | .within [] => value
    | .within (b :: rest) => if b then lookup right rest else lookup left rest
    | _ => none

def insert : Radix V → List Bool → V → Radix V
  | nil, key, x => node key (some x) nil nil
  | node path value left right, key, x =>
    match comparePath key path with
    | .within [] => node path (some x) left right
    | .within (b :: rest) =>
      if b then node path value left (insert right rest x)
      else node path value (insert left rest x) right
    | .ends common b pathRest => fork common (some x) b (node pathRest value left right) nil
    | .parts common b pathRest keyRest =>
      fork common none b (node pathRest value left right) (node keyRest (some x) nil nil)

def coalesce (path : List Bool) : Option V → Radix V → Radix V → Radix V
  | some x, left, right => node path (some x) left right
  | none, nil, nil => nil
  | none, nil, node p v l r => node (path ++ true :: p) v l r
  | none, node p v l r, nil => node (path ++ false :: p) v l r
  | none, node p v l r, node p' v' l' r' => node path none (node p v l r) (node p' v' l' r')

def delete : Radix V → List Bool → Radix V
  | nil, _ => nil
  | node path value left right, key =>
    match comparePath key path with
    | .within [] => coalesce path none left right
    | .within (b :: rest) =>
      if b then coalesce path value left (delete right rest)
      else coalesce path value (delete left rest) right
    | _ => node path value left right

def deleteBelow : Radix V → List Bool → Radix V
  | nil, _ => nil
  | node path value left right, key =>
    match comparePath key path with
    | .within [] => if value.isSome then nil else node path value left right
    | .within (b :: rest) =>
      if b then coalesce path value left (deleteBelow right rest)
      else coalesce path value (deleteBelow left rest) right
    | _ => node path value left right

/-- What deletions share: they act at the node their key ends at, leave a tree without that node
alone, and coalesce the nodes above. -/
structure Removal (f : Radix V → List Bool → Radix V) : Prop where
  onNil : ∀ key, f nil key = nil
  down : ∀ path value left right b rest, f (node path value left right) (path ++ b :: rest) =
    if b then coalesce path value left (f right rest) else coalesce path value (f left rest) right
  off : ∀ path value left right key, (∀ rest, key ≠ path ++ rest) →
    f (node path value left right) key = node path value left right

lemma removal_delete : Removal (delete (V := V)) where
  onNil _ := rfl
  down path value left right b rest := by simp [delete, comparePath_append]
  off path value left right key h := by
    have hcompare := comparePath_holds key path
    rw [delete]
    cases hc : comparePath key path with
    | within rest =>
      rw [hc] at hcompare
      exact absurd hcompare (h rest)
    | ends | parts => rfl

lemma removal_deleteBelow : Removal (deleteBelow (V := V)) where
  onNil _ := rfl
  down path value left right b rest := by simp [deleteBelow, comparePath_append]
  off path value left right key h := by
    have hcompare := comparePath_holds key path
    rw [deleteBelow]
    cases hc : comparePath key path with
    | within rest =>
      rw [hc] at hcompare
      exact absurd hcompare (h rest)
    | ends | parts => rfl

lemma delete_self (path : List Bool) (value : Option V) (left right : Radix V) :
  (node path value left right).delete path = coalesce path none left right := by
  have hcompare := comparePath_append path []
  rw [append_nil] at hcompare
  simp [delete, hcompare]

lemma deleteBelow_self (path : List Bool) (value : Option V) (left right : Radix V) :
  (node path value left right).deleteBelow path =
    if value.isSome then nil else node path value left right := by
  have hcompare := comparePath_append path []
  rw [append_nil] at hcompare
  simp [deleteBelow, hcompare]

/-- A map moved below the bits `c`. -/
def under (c : List Bool) (f : List Bool → Option V) (key : List Bool) : Option V :=
  match comparePath key c with
  | .within rest => f rest
  | _ => none

@[simp] lemma under_append (c rest : List Bool) (f : List Bool → Option V) :
  under c f (c ++ rest) = f rest := by
  simp [under, comparePath_append]

variable {key : List Bool} {c : List Bool}

lemma under_eq_none (f : List Bool → Option V) (h : ∀ rest, key ≠ c ++ rest) :
  under c f key = none := by
  have hcompare := comparePath_holds key c
  unfold under
  cases hc : comparePath key c with
  | within rest =>
    rw [hc] at hcompare
    exact absurd hcompare (h rest)
  | ends | parts => rfl

lemma eq_under_iff {f g : List Bool → Option V} : g = under c f ↔ (∀ rest, g (c ++ rest) = f rest) ∧
    ∀ key, (∀ rest, key ≠ c ++ rest) → g key = none := by
  constructor
  · rintro rfl
    exact ⟨fun rest => under_append c rest f, fun key h => under_eq_none f h⟩
  rintro ⟨hin, hout⟩
  funext key
  by_cases hkey : ∃ rest, key = c ++ rest
  · obtain ⟨rest, rfl⟩ := hkey
    rw [hin, under_append]
  have hnot : ∀ rest, key ≠ c ++ rest := fun rest h => hkey ⟨rest, h⟩
  rw [hout key hnot, under_eq_none f hnot]

lemma under_under (c d : List Bool) (f : List Bool → Option V) :
  under c (under d f) = under (c ++ d) f := by
  refine eq_under_iff.mpr ⟨fun rest => by simp, fun key h => ?_⟩
  by_cases hkey : ∃ rest, key = c ++ rest
  · obtain ⟨rest, rfl⟩ := hkey
    rw [under_append]
    refine under_eq_none f fun rest' hrest => h rest' ?_
    rw [hrest, append_assoc]
  · exact under_eq_none _ fun rest hrest => hkey ⟨rest, hrest⟩

lemma under_update (c rest : List Bool) (f : List Bool → Option V) (x : Option V) :
  under c (update f rest x) = update (under c f) (c ++ rest) x := by
  refine (eq_under_iff.mpr ⟨fun rest' => ?_, fun key h => ?_⟩).symm
  · by_cases hrest : rest' = rest
    · simp [hrest]
    rw [update_of_ne (by simpa using hrest), under_append,
      update_of_ne hrest]
  · rw [update_of_ne (h rest), under_eq_none f h]

@[simp] lemma under_none (c : List Bool) : under c (fun _ => (none : Option V)) = fun _ => none :=
  (eq_under_iff.mpr ⟨fun _ => rfl, fun _ _ => rfl⟩).symm

def route (value : Option V) (left right : List Bool → Option V) : List Bool → Option V
  | [] => value
  | b :: rest => if b then right rest else left rest

lemma lookup_node (path : List Bool) (value : Option V) (left right : Radix V) :
  (node path value left right).lookup = under path (route value left.lookup right.lookup) := by
  funext key
  rw [lookup, under]
  cases comparePath key path with
  | within rest => cases rest <;> rfl
  | ends | parts => rfl

@[simp] lemma lookup_nil : (nil : Radix V).lookup = fun _ => none := rfl

lemma route_update_nil (value x : Option V) (left right : List Bool → Option V) :
  route x left right = update (route value left right) [] x := by
  funext key
  cases key with
  | nil | cons => simp [route]

lemma route_update_left (value x : Option V) (left right : List Bool → Option V)
  (rest : List Bool) : route value (update left rest x) right =
    update (route value left right) (false :: rest) x := by
  funext key
  rcases key with _ | ⟨b, key⟩
  · simp [route]
  · cases b <;> by_cases h : key = rest <;> simp [route, h]

lemma route_update_right (value x : Option V) (left right : List Bool → Option V)
  (rest : List Bool) : route value left (update right rest x) =
    update (route value left right) (true :: rest) x := by
  funext key
  rcases key with _ | ⟨b, key⟩
  · simp [route]
  · cases b <;> by_cases h : key = rest <;> simp [route, h]

variable (f : List Bool → Option V)

lemma route_left : route none f (fun _ => none) = under [false] f := by
  refine eq_under_iff.mpr ⟨fun rest => rfl, fun key h => ?_⟩
  rcases key with _ | ⟨b, key⟩
  · rfl
  cases b
  · exact absurd rfl (h key)
  · rfl

lemma route_right : route none (fun _ => none) f = under [true] f := by
  refine eq_under_iff.mpr ⟨fun rest => rfl, fun key h => ?_⟩
  rcases key with _ | ⟨b, key⟩
  · rfl
  cases b
  · rfl
  · exact absurd rfl (h key)

@[simp] lemma route_none :
  route (none : Option V) (fun _ => none) (fun _ => none) = fun _ => none := by
  funext key
  rcases key with _ | ⟨b, key⟩
  · rfl
  · cases b <;> rfl

lemma lookup_leaf (key : List Bool) (x : V) :
  (node key (some x) nil nil).lookup = update (fun _ => none) key (some x) := by
  rw [lookup_node, lookup_nil, route_update_nil none, route_none, under_update, under_none,
    append_nil]

lemma under_route_single (common : List Bool) (b : Bool) (rest : List Bool) (value : Option V)
  (left right : Radix V) :
  under common (route none (if b then fun _ => none else (node rest value left right).lookup)
      (if b then (node rest value left right).lookup else fun _ => none)) =
    (node (common ++ b :: rest) value left right).lookup := by
  have hsplit : common ++ b :: rest = common ++ [b] ++ rest := by simp
  rw [lookup_node (common ++ b :: rest), hsplit, ← under_under, ← under_under, ← lookup_node]
  cases b
  · simp only [Bool.false_eq_true, if_false, route_left]
  · simp only [if_true, route_right]

lemma lookup_fork (path : List Bool) (value : Option V) (b : Bool) (child other : Radix V) :
  (fork path value b child other).lookup =
    under path (route value (if b then other.lookup else child.lookup)
      (if b then child.lookup else other.lookup)) := by
  cases b <;> simp [fork, lookup_node]

/-- **Insertion updates the map at its key.** -/
theorem lookup_insert (t : Radix V) (key : List Bool) (x : V) :
  (t.insert key x).lookup = update t.lookup key (some x) := by
  induction t generalizing key with
  | nil => exact lookup_leaf key x
  | node path value left right ihl ihr =>
    have hcompare := comparePath_holds key path
    rw [insert]
    cases hc : comparePath key path with
    | within rest =>
      rw [hc] at hcompare
      obtain rfl : key = path ++ rest := hcompare
      rcases rest with _ | ⟨b, rest⟩
      · rw [lookup_node, lookup_node, route_update_nil value, under_update]
      cases b
      · simp only [Bool.false_eq_true, if_false]
        rw [lookup_node, lookup_node, ihl, route_update_left, under_update]
      simp only [if_true]
      rw [lookup_node, lookup_node, ihr, route_update_right, under_update]
    | ends common b pathRest =>
      rw [hc] at hcompare
      obtain ⟨rfl, rfl⟩ := hcompare
      dsimp only
      rw [lookup_fork, lookup_nil, route_update_nil none, under_update, append_nil,
        under_route_single]
    | parts common b pathRest keyRest =>
      rw [hc] at hcompare
      obtain ⟨rfl, rfl⟩ := hcompare
      dsimp only
      rw [lookup_fork, lookup_leaf, ← under_route_single]
      cases b
      · simp only [Bool.false_eq_true, if_false, Bool.not_false]
        rw [route_update_right, under_update]
      simp only [if_true, Bool.not_true]
      rw [route_update_left, under_update]

lemma lookup_coalesce (path : List Bool) (value : Option V) (left right : Radix V) :
  (coalesce path value left right).lookup = under path (route value left.lookup right.lookup) := by
  rcases value with _ | x
  · rcases left with _ | ⟨p, v, l, r⟩
    · rcases right with _ | ⟨p, v, l, r⟩
      · simp [coalesce]
      rw [coalesce, lookup_nil]
      exact (under_route_single path true p v l r).symm
    rcases right with _ | ⟨p', v', l', r'⟩
    · rw [coalesce, lookup_nil]
      exact (under_route_single path false p v l r).symm
    · rw [coalesce, lookup_node path]
  · rw [coalesce, lookup_node]

variable {path : List Bool}

lemma lookup_eq_none (value : Option V) (left right : Radix V) (h : ∀ rest, key ≠ path ++ rest) :
  (node path value left right).lookup key = none := by
  rw [lookup_node, under_eq_none _ h]

/-- **Deletion clears the map at its key.** -/
theorem lookup_delete (t : Radix V) (key : List Bool) :
  (t.delete key).lookup = update t.lookup key none := by
  induction t generalizing key with
  | nil => simp [delete]
  | node path value left right ihl ihr =>
    have hcompare := comparePath_holds key path
    rw [delete]
    cases hc : comparePath key path with
    | within rest =>
      rw [hc] at hcompare
      obtain rfl : key = path ++ rest := hcompare
      rcases rest with _ | ⟨b, rest⟩
      · rw [lookup_coalesce, lookup_node, route_update_nil value, under_update]
      cases b
      · simp only [Bool.false_eq_true, if_false]
        rw [lookup_coalesce, lookup_node, ihl, route_update_left, under_update]
      simp only [if_true]
      rw [lookup_coalesce, lookup_node, ihr, route_update_right, under_update]
    | ends | parts =>
      have hout := @comparePath_ne_append key path fun rest => by simp [hc]
      have hnone := lookup_eq_none value left right hout
      rw [← hnone, update_eq_self]

def Canon : Radix V → Prop
  | nil => True
  | node _ value left right =>
    (value.isSome ∨ (left ≠ nil ∧ right ≠ nil)) ∧ Canon left ∧ Canon right

lemma canon_leaf (key : List Bool) (x : V) : (node key (some x) nil nil).Canon :=
  ⟨Or.inl rfl, trivial, trivial⟩

variable {value : Option V}

lemma canon_fork {b : Bool} {child other : Radix V}
  (h : value.isSome ∨ (child ≠ nil ∧ other ≠ nil)) (hchild : child.Canon) (hother : other.Canon) :
  (fork path value b child other).Canon := by
  cases b
  · exact ⟨h, hchild, hother⟩
  · exact ⟨h.imp id And.symm, hother, hchild⟩

lemma insert_ne_nil (t : Radix V) (key : List Bool) (x : V) : t.insert key x ≠ nil := by
  cases t with
  | nil => simp [insert]
  | node path value left right =>
    rw [insert]
    split
    · simp
    · split <;> simp
    · simp only [fork]
      split <;> simp
    simp only [fork]
    split <;> simp

variable {t : Radix V}

lemma canon_insert (h : t.Canon) (key : List Bool) (x : V) : (t.insert key x).Canon := by
  induction t generalizing key with
  | nil => exact canon_leaf key x
  | node path value left right ihl ihr =>
    obtain ⟨hnode, hl, hr⟩ := h
    rw [insert]
    split
    · exact ⟨Or.inl rfl, hl, hr⟩
    · rename_i b rest hc
      cases b
      · exact ⟨hnode.imp id fun h => ⟨insert_ne_nil _ _ _, h.2⟩, ihl hl rest, hr⟩
      · exact ⟨hnode.imp id fun h => ⟨h.1, insert_ne_nil _ _ _⟩, hl, ihr hr rest⟩
    · exact canon_fork (Or.inl rfl) ⟨hnode, hl, hr⟩ trivial
    · exact canon_fork (Or.inr ⟨by simp, by simp⟩) ⟨hnode, hl, hr⟩ (canon_leaf _ _)

variable {left right : Radix V}

lemma canon_coalesce (path : List Bool) (value : Option V) (hl : left.Canon) (hr : right.Canon) :
  (coalesce path value left right).Canon := by
  rcases value with _ | x
  · rcases left with _ | ⟨p, v, l, r⟩
    · rcases right with _ | ⟨p, v, l, r⟩
      · trivial
      · exact hr
    rcases right with _ | ⟨p', v', l', r'⟩
    · exact hl
    · exact ⟨Or.inr ⟨by simp, by simp⟩, hl, hr⟩
  · exact ⟨Or.inl rfl, hl, hr⟩

lemma coalesce_eq_nil_iff :
  coalesce path value left right = nil ↔ value = none ∧ left = nil ∧ right = nil := by
  cases value <;> cases left <;> cases right <;> simp [coalesce]

lemma coalesce_of_canon (h : (node path value left right).Canon) :
  coalesce path value left right = node path value left right := by
  rcases value with _ | x
  · obtain ⟨hl, hr⟩ := h.1.resolve_left (by simp)
    cases left with
    | nil => exact absurd rfl hl
    | node p v l r =>
      cases right with
      | nil => exact absurd rfl hr
      | node p' v' l' r' => rfl
  · rfl

lemma canon_delete (h : t.Canon) (key : List Bool) : (t.delete key).Canon := by
  induction t generalizing key with
  | nil => trivial
  | node path value left right ihl ihr =>
    obtain ⟨hnode, hl, hr⟩ := h
    rw [delete]
    split
    · exact canon_coalesce _ _ hl hr
    · rename_i b rest hc
      cases b
      · exact canon_coalesce _ _ (ihl hl rest) hr
      · exact canon_coalesce _ _ hl (ihr hr rest)
    · exact ⟨hnode, hl, hr⟩

lemma canon_deleteBelow (h : t.Canon) (key : List Bool) : (t.deleteBelow key).Canon := by
  induction t generalizing key with
  | nil => trivial
  | node path value left right ihl ihr =>
    obtain ⟨hnode, hl, hr⟩ := h
    rw [deleteBelow]
    split
    · split
      · trivial
      · exact ⟨hnode, hl, hr⟩
    · rename_i b rest hc
      cases b
      · exact canon_coalesce _ _ (ihl hl rest) hr
      · exact canon_coalesce _ _ hl (ihr hr rest)
    · exact ⟨hnode, hl, hr⟩

lemma deleteBelow_of_lookup_none (ht : t.Canon) (h : t.lookup key = none) :
  t.deleteBelow key = t := by
  induction t generalizing key with
  | nil => rfl
  | node path value left right ihl ihr =>
    by_cases hkey : ∃ rest, key = path ++ rest
    · obtain ⟨rest, rfl⟩ := hkey
      rw [lookup_node, under_append] at h
      rcases rest with _ | ⟨b, rest⟩
      · obtain rfl : value = none := h
        rw [append_nil, deleteBelow_self]
        rfl
      rw [removal_deleteBelow.down]
      cases b
      · simp only [Bool.false_eq_true, if_false, ihl ht.2.1 h, coalesce_of_canon ht]
      · simp only [if_true, ihr ht.2.2 h, coalesce_of_canon ht]
    · exact removal_deleteBelow.off _ _ _ _ _ fun rest hrest => hkey ⟨rest, hrest⟩

/-- **A key with a value goes with every key below it, and no other key goes.** -/
theorem lookup_deleteBelow {x : V} (h : t.lookup key = some x) (k : List Bool) :
  (t.deleteBelow key).lookup k = if key <+: k then none else t.lookup k := by
  induction t generalizing key k with
  | nil => cases h
  | node path value left right ihl ihr =>
    by_cases hkey : ∃ rest, key = path ++ rest
    · obtain ⟨rest, rfl⟩ := hkey
      rw [lookup_node, under_append] at h
      by_cases hk : ∃ k', k = path ++ k'
      · obtain ⟨k', rfl⟩ := hk
        simp only [prefix_append_right_inj]
        rcases rest with _ | ⟨b, rest⟩
        · obtain rfl : value = some x := h
          rw [append_nil, deleteBelow_self]
          simp
        rw [removal_deleteBelow.down, lookup_node, under_append]
        -- the bit after the path decides whether the key can lie above this one
        cases b
        · simp only [Bool.false_eq_true, if_false, lookup_coalesce, under_append]
          rcases k' with _ | ⟨c, k'⟩
          · simp [route]
          cases c
          · simpa [route] using ihl h k'
          · simp [route]
        simp only [if_true, lookup_coalesce, under_append]
        rcases k' with _ | ⟨c, k'⟩
        · simp [route]
        cases c
        · simp [route]
        · simpa [route] using ihr h k'
      have hout : ∀ k', k ≠ path ++ k' := fun k' hk' => hk ⟨k', hk'⟩
      rw [lookup_eq_none value left right hout, ite_self]
      rcases rest with _ | ⟨b, rest⟩
      · obtain rfl : value = some x := h
        rw [append_nil, deleteBelow_self]
        rfl
      rw [removal_deleteBelow.down]
      cases b
      · simp only [Bool.false_eq_true, if_false, lookup_coalesce, under_eq_none _ hout]
      · simp only [if_true, lookup_coalesce, under_eq_none _ hout]
    rw [lookup_eq_none value left right fun rest hrest => hkey ⟨rest, hrest⟩] at h
    cases h

lemma exists_key (h : t.Canon) (hne : t ≠ nil) : ∃ key x, t.lookup key = some x := by
  induction t with
  | nil => exact absurd rfl hne
  | node path value left right ihl ihr =>
    obtain ⟨hnode, hl, hr⟩ := h
    rcases value with _ | x
    · obtain ⟨hleft, -⟩ := hnode.resolve_left (by simp)
      obtain ⟨key, x, hkey⟩ := ihl hl hleft
      exact ⟨path ++ false :: key, x, by rw [lookup_node, under_append]; exact hkey⟩
    · exact ⟨path ++ [], x, by rw [lookup_node, under_append]; rfl⟩

lemma initial_of_lookup {x : V} (h : (node path value left right).lookup key = some x) :
  path <+: key := by
  by_contra hnot
  have hout : ∀ rest, key ≠ path ++ rest := fun rest heq => hnot ⟨rest, heq.symm⟩
  rw [lookup_eq_none value left right hout] at h
  cases h

lemma initial_path {common : List Bool} (h : (node path value left right).Canon)
  (hcommon : ∀ key x, (node path value left right).lookup key = some x → common <+: key) :
  common <+: path := by
  obtain ⟨hnode, hl, hr⟩ := h
  rcases value with _ | x
  · obtain ⟨hleft, hright⟩ := hnode.resolve_left (by simp)
    obtain ⟨lkey, x, hlkey⟩ := exists_key hl hleft
    obtain ⟨rkey, y, hrkey⟩ := exists_key hr hright
    have hlc := hcommon (path ++ false :: lkey) x (by rw [lookup_node, under_append]; exact hlkey)
    have hrc := hcommon (path ++ true :: rkey) y (by rw [lookup_node, under_append]; exact hrkey)
    -- were it longer than the path, it would have to go on with both bits
    rcases prefix_or_prefix_of_prefix hlc (prefix_append path _) with hc | ⟨tail, rfl⟩
    · exact hc
    rw [prefix_append_right_inj] at hlc hrc
    rcases tail with _ | ⟨b, tail⟩
    · simp
    obtain ⟨hf, -⟩ := cons_prefix_cons.mp hlc
    obtain ⟨ht, -⟩ := cons_prefix_cons.mp hrc
    simp [hf] at ht
  have := hcommon (path ++ []) x (by rw [lookup_node, under_append]; rfl)
  simpa using this

/-- **A canonical tree is determined by its map.** -/
theorem canon_ext {u : Radix V} (ht : t.Canon) (hu : u.Canon) (h : t.lookup = u.lookup) :
  t = u := by
  induction t generalizing u with
  | nil =>
    by_contra hne
    obtain ⟨key, x, hkey⟩ := exists_key hu (Ne.symm hne)
    simp [← h, lookup] at hkey
  | node path value left right ihl ihr =>
    rcases u with _ | ⟨path', value', left', right'⟩
    · obtain ⟨key, x, hkey⟩ := exists_key ht (by simp)
      rw [h] at hkey
      cases hkey
    have hle : path' <+: path :=
      initial_path ht fun key x hkey => initial_of_lookup (h ▸ hkey)
    have hge : path <+: path' :=
      initial_path hu fun key x hkey => initial_of_lookup (h ▸ hkey)
    obtain rfl : path = path' := hge.eq_of_length_le hle.length_le
    have hroute : ∀ rest, route value left.lookup right.lookup rest =
        route value' left'.lookup right'.lookup rest := fun rest => by
      have := congrFun h (path ++ rest)
      rwa [lookup_node, lookup_node, under_append, under_append] at this
    obtain rfl : value = value' := hroute []
    obtain rfl := ihl ht.2.1 hu.2.1 (funext fun rest => hroute (false :: rest))
    obtain rfl := ihr ht.2.2 hu.2.2 (funext fun rest => hroute (true :: rest))
    rfl

lemma delete_eq_nil_iff (ht : t.Canon) (hne : t ≠ nil) (key : List Bool) :
  t.delete key = nil ↔ ∃ x, t = node key (some x) nil nil := by
  constructor
  · intro hnil
    have hlookup : update t.lookup key none = fun _ => none := by
      rw [← lookup_delete, hnil, lookup_nil]
    obtain ⟨k, x, hk⟩ := exists_key ht hne
    have hother : ∀ k', k' ≠ key → t.lookup k' = none := fun k' hk' => by
      have := congrFun hlookup k'
      rwa [update_of_ne hk'] at this
    obtain rfl : k = key := by
      by_contra hk'
      rw [hother k hk'] at hk
      cases hk
    refine ⟨x, canon_ext ht (canon_leaf k x) ?_⟩
    rw [lookup_leaf]
    funext k'
    by_cases hk' : k' = k
    · rw [hk', hk, update_self]
    · rw [hother k' hk', update_of_ne hk']
  rintro ⟨x, rfl⟩
  rw [delete_self]
  rfl

def count : Radix V → Nat
  | nil => 0
  | node _ value left right => (if value.isSome then 1 else 0) + count left + count right

lemma count_fork (path : List Bool) (value : Option V) (b : Bool) (child other : Radix V) :
  (fork path value b child other).count =
    (if value.isSome then 1 else 0) + child.count + other.count := by
  cases b
  · rfl
  rw [fork, if_pos rfl, count]
  omega

lemma count_insert (h : t.lookup key = none) (x : V) : (t.insert key x).count = t.count + 1 := by
  induction t generalizing key with
  | nil => rfl
  | node path value left right ihl ihr =>
    rw [lookup] at h
    rw [insert]
    split
    · rename_i hc
      simp only [hc] at h
      simp only [count, h, isSome_some, isSome_none, if_true, Bool.false_eq_true, if_false]
      omega
    · rename_i b rest hc
      simp only [hc] at h
      cases b
      · simp only [Bool.false_eq_true, if_false] at h ⊢
        rw [count, ihl h, count]
        omega
      simp only [if_true] at h ⊢
      rw [count, ihr h, count]
      omega
    · simp only [count_fork, count, isSome_some, if_true]
      omega
    simp only [count_fork, count, isSome_some, isSome_none, if_true, Bool.false_eq_true, if_false]
    omega

lemma count_le_two_pow (ht : t.Canon) {m : Nat}
  (h : ∀ key x, t.lookup key = some x → key.length = m) : t.count ≤ 2 ^ m := by
  induction t generalizing m with
  | nil => exact Nat.zero_le _
  | node path value left right ihl ihr =>
    have hl : ∀ key x, left.lookup key = some x → path.length + 1 + key.length = m := by
      intro key x hkey
      have := h (path ++ false :: key) x (by rw [lookup_node, under_append]; exact hkey)
      simp at this
      omega
    have hr : ∀ key x, right.lookup key = some x → path.length + 1 + key.length = m := by
      intro key x hkey
      have := h (path ++ true :: key) x (by rw [lookup_node, under_append]; exact hkey)
      simp at this
      omega
    rcases value with _ | x
    · obtain ⟨hne, -⟩ := ht.1.resolve_left (by simp)
      obtain ⟨key, x, hkey⟩ := exists_key ht.2.1 hne
      have hm := hl key x hkey
      have hleft := ihl ht.2.1 (m := m - (path.length + 1)) fun k y hk => by
        have := hl k y hk
        omega
      have hright := ihr ht.2.2 (m := m - (path.length + 1)) fun k y hk => by
        have := hr k y hk
        omega
      have hpow : 2 ^ (m - (path.length + 1)) + 2 ^ (m - (path.length + 1)) ≤ 2 ^ m := by
        rw [← Nat.two_mul, ← Nat.pow_succ']
        exact Nat.pow_le_pow_right (by decide) (by omega)
      simp only [count, isSome_none, Bool.false_eq_true, if_false]
      omega
    have hpath := h (path ++ []) x (by rw [lookup_node, under_append]; rfl)
    rw [append_nil] at hpath
    have hleft : left = nil := by
      by_contra hne
      obtain ⟨key, y, hkey⟩ := exists_key ht.2.1 hne
      have := hl key y hkey
      omega
    have hright : right = nil := by
      by_contra hne
      obtain ⟨key, y, hkey⟩ := exists_key ht.2.2 hne
      have := hr key y hkey
      omega
    subst hleft hright
    exact Nat.one_le_two_pow

end Radix

end Lib
