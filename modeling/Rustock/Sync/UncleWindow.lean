import Mathlib
import Rustock.Core.MergedMiningBinding
import Rustock.Sync.UncleGuard

/-!
# What the uncle window holds

`UncleGuard::record` forgets heights more than `slack` below the block it is given and none
above. When no held block is more than `slack` above it, all that is held was recorded near
it (`window_bounded`); a walk that records downwards keeps every block it met.
-/

namespace Rustock

open Lib List UInt64
open List (mem_map range mem_toFinset)

namespace UncleGuard

variable (current : ActivationHeights)

/-- The guard after these records. -/
def recordAll (records : List (Header × List Header)) : UncleGuard :=
  records.foldl (fun g r => g.record current r.1 r.2) .new

/-- The height and hash a record is kept under. -/
def nameOf (r : Header × List Header) : UInt64 × B256 := (r.1.number, r.1.hash current)

/-- The records the guard holds. -/
def held (g : UncleGuard) : Finset (UInt64 × B256) := g.byHeight.toFinset

/-- The distinct blocks recorded within `slack` of a height. -/
def recordedNear (records : List (Header × List Header)) (number : UInt64) :
  Finset (UInt64 × B256) :=
  ((records.map (nameOf current)).filter fun e => number.toNat ≤ e.1.toNat + slack.toNat ∧
    e.1.toNat ≤ number.toNat + slack.toNat).toFinset

/-- The three indexes hold the same blocks. -/
def Agree (g : UncleGuard) : Prop :=
  ∀ h, (g.byBlock h ≠ none ↔ h ∈ g.byHeight.map Prod.snd) ∧
    (g.headers h ≠ none ↔ h ∈ g.byHeight.map Prod.snd)

/-- No held block is more than `slack` above the one recorded, and none at another height has
its hash. -/
def Near (g : UncleGuard) (r : Header × List Header) : Prop :=
  ∀ e ∈ g.byHeight, e.1.toNat ≤ r.1.number.toNat + slack.toNat ∧
    (e.2 = r.1.hash current → e.1 = r.1.number)

/-- A hash stands at one height. -/
def Functional (l : List (UInt64 × B256)) : Prop :=
  ∀ e ∈ l, ∀ e' ∈ l, e.2 = e'.2 → e.1 = e'.1

section Step

variable {current} {g : UncleGuard} {r : Header × List Header} {e : UInt64 × B256}
  {records : List (Header × List Header)} {l : List (UInt64 × B256)}

lemma not_lt_floor {height number : UInt64} :
  ¬ height < saturatingSub64 number slack ↔ number.toNat ≤ height.toNat + slack.toNat := by
  rw [UInt64.not_lt, le_iff_toNat_le]
  unfold saturatingSub64
  split
  · rename_i h
    rw [UInt64.toNat_sub_of_le _ _ h]
    omega
  rename_i h
  rw [le_iff_toNat_le] at h
  exact iff_of_true (Nat.zero_le _) (by omega)

lemma byHeight_record : (g.record current r.1 r.2).byHeight =
  (g.byHeight ++ [nameOf current r]).filter fun e => ¬ e.1 < saturatingSub64 r.1.number slack := rfl

lemma mem_byHeight_record : e ∈ (g.record current r.1 r.2).byHeight ↔
  e ∈ g.byHeight ++ [nameOf current r] ∧ r.1.number.toNat ≤ e.1.toNat + slack.toNat := by
  rw [← not_lt_floor, byHeight_record, mem_filter, decide_eq_true_eq]

lemma Near.functional (hr : Near current g r) (hf : Functional g.byHeight) :
  Functional (g.byHeight ++ [nameOf current r]) := by
  intro e he e' he' heq
  rcases mem_append.mp he with he | he <;> rcases mem_append.mp he' with he' | he'
  · exact hf e he e' he' heq
  · obtain rfl := mem_singleton.mp he'
    exact (hr e he).2 heq
  · obtain rfl := mem_singleton.mp he
    exact ((hr e' he').2 heq.symm).symm
  · rw [mem_singleton.mp he, mem_singleton.mp he']

/-- What stays are the hashes of the list that are not dropped. -/
lemma Functional.mem_kept (hf : Functional l) {floor : UInt64} {h : B256} :
  h ∈ (l.filter fun e => ¬ e.1 < floor).map Prod.snd ↔
    h ∈ l.map Prod.snd ∧ h ∉ (l.filter fun e => e.1 < floor).map Prod.snd := by
  constructor
  · intro hkept
    obtain ⟨e, he, rfl⟩ := mem_map.mp hkept
    obtain ⟨hmem, hhigh⟩ := mem_filter.mp he
    refine ⟨mem_map_of_mem hmem, fun hdropped => ?_⟩
    obtain ⟨e', he', heq⟩ := mem_map.mp hdropped
    obtain ⟨hmem', hlow⟩ := mem_filter.mp he'
    rw [hf e' hmem' e hmem heq] at hlow
    exact of_decide_eq_true hhigh (of_decide_eq_true hlow)
  rintro ⟨hmem, hnot⟩
  obtain ⟨e, he, rfl⟩ := mem_map.mp hmem
  refine mem_map_of_mem (mem_filter.mpr ⟨he, decide_eq_true fun hlow => ?_⟩)
  exact hnot (mem_map_of_mem (mem_filter.mpr ⟨he, decide_eq_true hlow⟩))

lemma named_record {β : Type} {index : B256 → Option β} {x : β} {h : B256}
  (hf : Functional (g.byHeight ++ [nameOf current r]))
  (hindex : index h ≠ none ↔ h ∈ g.byHeight.map Prod.snd) :
  (if h ∈ ((g.byHeight ++ [nameOf current r]).filter
      fun e => e.1 < saturatingSub64 r.1.number slack).map Prod.snd then none
    else Function.update index (r.1.hash current) (some x) h) ≠ none ↔
    h ∈ (g.record current r.1 r.2).byHeight.map Prod.snd := by
  have hall : Function.update index (r.1.hash current) (some x) h ≠ none ↔
      h ∈ (g.byHeight ++ [nameOf current r]).map Prod.snd := by
    by_cases heq : h = r.1.hash current
    · subst heq
      simp [nameOf]
    rw [Function.update_of_ne heq, hindex]
    simp [nameOf, heq]
  rw [byHeight_record, hf.mem_kept]
  split
  · rename_i hdropped
    exact iff_of_false (not_not_intro rfl) fun h => h.2 hdropped
  rename_i hkept
  rw [hall]
  exact (and_iff_left hkept).symm

lemma recordAll_append : recordAll current (records ++ [r]) =
  (recordAll current records).record current r.1 r.2 := by
  simp [recordAll]

/-- What every record that is near keeps. -/
structure Window (current : ActivationHeights) (records : List (Header × List Header))
  (g : UncleGuard) : Prop where
  agree : g.Agree
  functional : Functional g.byHeight
  recorded : ∀ e ∈ g.byHeight, e ∈ records.map (nameOf current)

lemma Window.record (hw : Window current records g) (hr : Near current g r) :
  Window current (records ++ [r]) (g.record current r.1 r.2) where
  agree h := ⟨named_record (hr.functional hw.functional) (hw.agree h).1,
      named_record (hr.functional hw.functional) (hw.agree h).2⟩
  functional e he e' he' := hr.functional hw.functional e (mem_byHeight_record.mp he).1 e'
    (mem_byHeight_record.mp he').1
  recorded e he := by
    rw [map_append, mem_append]
    exact (mem_append.mp (mem_byHeight_record.mp he).1).imp_left (hw.recorded e)

end Step

/-- **The window of a run of near records.** Whatever is held was recorded within `slack` of
the last record, and the indexes agree. -/
theorem window_bounded {records : List (Header × List Header)}
  (hnear : ∀ before r, before ++ [r] <+: records → Near current (recordAll current before) r) :
  (recordAll current records).Agree ∧ ∀ last ∈ records.getLast?,
    (recordAll current records).held.card ≤ (recordedNear current records last.1.number).card := by
  have hwindow : Window current records (recordAll current records) := by
    induction records using reverseRecOn with
    | nil => exact ⟨by simp [Agree, recordAll, new], by simp [Functional, recordAll, new],
        by simp [recordAll, new]⟩
    | append_singleton records r ih =>
      rw [recordAll_append]
      exact (ih fun before r' h => hnear before r' (h.trans (prefix_append ..))).record
        (hnear records r prefix_rfl)
  refine ⟨hwindow.agree, fun last hlast => Finset.card_le_card fun e he => ?_⟩
  obtain ⟨before, rfl⟩ := getLast?_eq_some_iff.mp hlast
  have he := mem_toFinset.mp he
  have hrecorded := hwindow.recorded e he
  rw [recordAll_append, mem_byHeight_record] at he
  have hhigh : e.1.toNat ≤ last.1.number.toNat + slack.toNat := by
    rcases mem_append.mp he.1 with hold | hnew
    · exact (hnear before last prefix_rfl e hold).1
    rw [mem_singleton.mp hnew]
    exact Nat.le_add_right ..
  exact mem_toFinset.mpr (mem_filter.mpr ⟨hrecorded, decide_eq_true ⟨he.2, hhigh⟩⟩)

/-- A header of which only the height is set. -/
def blankAt (i : Nat) : Header × List Header := ({ Header.blank with number := .ofNat i }, [])

/-- Heights that go up past `slack` and a little down again. -/
def spaced : List (Header × List Header) := [blankAt 3, blankAt 20, blankAt 10]

theorem spaced_near (before : List (Header × List Header)) (r : Header × List Header)
    (h : before ++ [r] <+: spaced) : Near .mainnet (recordAll .mainnet before) r := by
  have hdiffer : (blankAt 3).1.hash .mainnet ≠ (blankAt 20).1.hash .mainnet ∧
      (blankAt 20).1.hash .mainnet ≠ (blankAt 10).1.hash .mainnet := by
    decide +kernel
  have hfirst : (recordAll .mainnet [blankAt 3]).byHeight = [nameOf .mainnet (blankAt 3)] := rfl
  have hsecond : (recordAll .mainnet [blankAt 3, blankAt 20]).byHeight =
      [nameOf .mainnet (blankAt 20)] := rfl
  -- the record is one of the three, on what those before it left
  rcases before with _ | ⟨a, _ | ⟨b, _ | ⟨c, rest⟩⟩⟩ <;>
    simp only [spaced, nil_append, cons_append, cons_prefix_cons, prefix_nil, nil_prefix, and_true,
      append_eq_nil_iff, reduceCtorEq, and_false] at h
  · intro e he
    cases he
  · obtain ⟨rfl, rfl⟩ := h
    intro e he
    rw [hfirst, mem_singleton] at he
    subst he
    exact ⟨by decide, fun heq => absurd heq hdiffer.1⟩
  · obtain ⟨rfl, rfl, rfl⟩ := h
    intro e he
    rw [hsecond, mem_singleton] at he
    subst he
    exact ⟨by decide, fun heq => absurd heq hdiffer.2⟩

/-- The first block is dropped when the second, more than `slack` above it, is recorded; the third,
below the second, is held with it. -/
theorem window_bounded_spaced :
    (recordAll .mainnet spaced).byHeight.map Prod.fst = [20, 10] ∧
      (recordAll .mainnet spaced).Agree ∧ (recordAll .mainnet spaced).held.card ≤
        (recordedNear .mainnet spaced (blankAt 10).1.number).card := by
  obtain ⟨hagree, hbound⟩ := window_bounded .mainnet spaced_near
  exact ⟨rfl, hagree, hbound (blankAt 10) rfl⟩

/-- Records that never go up are all kept. -/
lemma byHeight_of_descending {records : List (Header × List Header)}
  (h : records.Pairwise fun a b => b.1.number ≤ a.1.number) :
  (recordAll current records).byHeight = records.map (nameOf current) := by
  induction records using reverseRecOn with
  | nil => rfl
  | append_singleton records r ih =>
    rw [pairwise_append] at h
    rw [recordAll_append, byHeight_record, ih h.1, map_append, filter_eq_self.mpr]
    · rfl
    intro e he
    refine decide_eq_true (not_lt_floor.mpr ?_)
    rcases mem_append.mp he with he | he
    · obtain ⟨a, ha, rfl⟩ := mem_map.mp he
      exact (le_iff_toNat_le.mp (h.2.2 a ha r (by simp))).trans (Nat.le_add_right ..)
    rw [mem_singleton.mp he]
    exact Nat.le_add_right ..

/-- No factor up to `2 ^ 59` bounds what a descending walk leaves behind. -/
theorem descending_records_stay : ∃ records : Nat → List (Header × List Header),
  ∀ c < 2 ^ 59, ∃ last ∈ (records c).getLast?,
    c * slack.toNat + (recordedNear .mainnet (records c) last.1.number).card <
      (recordAll .mainnet (records c)).held.card := by
  refine ⟨fun c => ((range (14 * c + 16)).map blankAt).reverse, fun c hc => ?_⟩
  have hnum : ∀ i < 14 * c + 16, (blankAt i).1.number.toNat = i := fun i hi =>
    toNat_ofNat_of_lt' (hi.trans (by norm_num; omega))
  refine ⟨blankAt 0, by simp [range_succ_eq_map], ?_⟩
  dsimp only
  have hheld : (recordAll .mainnet ((range (14 * c + 16)).map blankAt).reverse).held.card =
      14 * c + 16 := by
    rw [held, byHeight_of_descending, toFinset_card_of_nodup]
    · simp
    · rw [map_reverse, List.nodup_reverse, List.map_map]
      refine List.Nodup.map_on (fun i hi j hj hij => ?_) nodup_range
      rw [← hnum i (mem_range.mp hi), ← hnum j (mem_range.mp hj)]
      exact congrArg (UInt64.toNat ∘ Prod.fst) hij
    rw [pairwise_reverse, pairwise_map]
    refine pairwise_lt_range.imp_of_mem fun {i j} hi hj hij => ?_
    rw [le_iff_toNat_le, hnum i (mem_range.mp hi), hnum j (mem_range.mp hj)]
    exact hij.le
  have hnear : (recordedNear .mainnet ((range (14 * c + 16)).map blankAt).reverse
      (blankAt 0).1.number).card ≤ 15 := by
    refine (Finset.card_le_card (t := ((range 15).map
      (nameOf .mainnet ∘ blankAt)).toFinset) fun e he => ?_).trans
      ((toFinset_card_le _).trans (by simp))
    obtain ⟨hmem, hlow⟩ := mem_filter.mp (mem_toFinset.mp he)
    obtain ⟨r, hr, rfl⟩ := mem_map.mp hmem
    obtain ⟨i, hi, rfl⟩ := mem_map.mp (mem_reverse.mp hr)
    have hle := (of_decide_eq_true hlow).2
    rw [nameOf, hnum i (mem_range.mp hi)] at hle
    refine mem_toFinset.mpr (mem_map.mpr ⟨i, mem_range.mpr ?_, rfl⟩)
    exact Nat.lt_succ_of_le hle
  rw [hheld, show slack.toNat = 14 from rfl]
  omega

end UncleGuard

end Rustock
