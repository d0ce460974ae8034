import Rustock.FlatDb.Index

/-!
# What the writes of FlatDB do

`put` takes over slots that point at no record; `putMany` does not, and its claims give up
after a lap without saying so.
-/

namespace Rustock

open List Lib Lib.Probe

namespace FlatDb

structure Heap.Sized (h : Heap) : Prop where
  pos : 0 < h.segmentSize
  le : h.segmentSize ≤ 2 ^ 30

namespace Store

variable {keys : Keys} {s s' : Store} {key : B256} {data : Bytes}

lemma keyOf_rowOf (hkey : keys.computeKey data = key) :
    keyOf keys (rowOf key data).record = key := by
  unfold keyOf Row.record rowOf
  split
  · rfl
  · exact hkey

variable (attempts : Nat)

/-- A batch of `rows` grows the table or finds `slack` more than `rows` slots empty. -/
def Room (s : Store) (rows slack : Nat) : Prop :=
  rows + slack ≤ s.empties ∨ s.table.capacity / 2 < s.size + rows

variable {rows fuel : Nat}

def HalfFull (s : Store) : Prop :=
  2 * s.size ≤ s.table.capacity ∧ 2 ≤ s.table.capacity ∧
    s.table.capacity ≤ s.empties + s.size

lemma halfFull_grow (h : s.grow keys = .ok s') : HalfFull s' := by
  obtain ⟨hbits, -, hsize, hroom⟩ := grow_kept h
  have hcapacity : s'.table.capacity = 2 * s.table.capacity := by
    rw [Table.capacity, hbits, Nat.pow_succ, Nat.mul_comm, Table.capacity]
  have := s.table.capacity_pos
  exact ⟨by omega, by omega, hroom⟩

lemma growFor_room {result : Except FlatError Unit} (h : growFor keys rows fuel s = (s', result)) :
  (s' = s ∨ HalfFull s') ∧ (result = .ok () → s'.size + rows ≤ s'.table.capacity / 2) := by
  induction fuel generalizing s with
  | zero =>
    obtain ⟨rfl, rfl⟩ := Prod.mk.inj h
    exact ⟨.inl rfl, by simp⟩
  | succ fuel ih =>
    unfold growFor at h
    split at h
    · rcases hgrow : s.grow keys with e | grown
      · rw [hgrow] at h
        obtain ⟨rfl, rfl⟩ := Prod.mk.inj h
        exact ⟨.inl rfl, by simp⟩
      rw [hgrow] at h
      obtain ⟨hsame | hhalf, hroom⟩ := ih h
      · exact ⟨.inr (hsame ▸ halfFull_grow hgrow), hroom⟩
      · exact ⟨.inr hhalf, hroom⟩
    rename_i hroom
    obtain ⟨rfl, rfl⟩ := Prod.mk.inj h
    exact ⟨.inl rfl, fun _ => by omega⟩

lemma empties_of_room {slack : Nat} (hroom : Room s rows slack) (hslack : slack ≤ 1)
  (h : growFor keys rows fuel s = (s', .ok ())) : rows + slack ≤ s'.empties := by
  obtain ⟨hsame | ⟨-, htwo, hcounted⟩, hfits⟩ := growFor_room h
  · subst hsame
    have := hfits rfl
    rcases hroom with hroom | hroom
    · exact hroom
    · omega
  have := hfits rfl
  omega

lemma length_freshRows_le (s : Store) (rows : List (B256 × Bytes)) :
  (s.freshRows keys rows).length ≤ rows.length := by
  unfold freshRows
  rw [length_map]
  exact length_filter_le ..

lemma found_of_probeFinds (hs : Honest keys s) (h : s.probeFinds keys key = true) :
  Found keys s key := by
  unfold probeFinds at h
  split at h
  · rename_i hheld
    exact vacancy_eq_held hs hheld
  · cases h

lemma held_of_appended {fresh : List Row} {heap : Heap} {offsets : List Nat} {frontier : Nat}
  (hreads : List.Forall₂ (fun row offset => frontier ≤ offset ∧
    heap.withRecord offset = some row.record) fresh offsets)
  (hkeys : ∀ row ∈ fresh, keyOf keys row.record = row.key ∧ keys.computeKey row.data = row.key) :
  ∀ claim ∈ (fresh.map Row.key).zip offsets, Holds keys { s with heap } claim.1 (claim.2 + 1) := by
  induction hreads with
  | nil => simp
  | @cons row offset rest offsets hread _ ih =>
    intro claim hclaim
    rcases mem_cons.mp hclaim with rfl | hmem
    · exact ⟨row.record, by simpa [resolve] using hread.2, hkeys row (mem_cons_self ..)⟩
    · exact ih (fun row' hrow' => hkeys row' (mem_cons_of_mem _ hrow')) claim hmem

structure Fills (s s' : Store) : Prop where
  slots : (s'.table.bits = s.table.bits ∧ ∀ i, s.table.slot i ≠ 0 → s'.table.slot i ≠ 0) ∨
    s.table.bits < s'.table.bits
  clean : s'.dirty = false → s.dirty = false ∧ s'.table.bits = s.table.bits

lemma Fills.refl (s : Store) : Fills s s := ⟨.inl ⟨rfl, fun _ h => h⟩, fun h => ⟨h, rfl⟩⟩

lemma Fills.bits_le (h : Fills s s') : s.table.bits ≤ s'.table.bits := by
  rcases h.slots with ⟨hbits, -⟩ | hbits <;> omega

lemma Fills.trans {s₁ s₂ s₃ : Store} (h₁ : Fills s₁ s₂) (h₂ : Fills s₂ s₃) : Fills s₁ s₃ where
  slots := by
    have hle₂ := h₂.bits_le
    rcases h₁.slots with ⟨hbits₁, hslots₁⟩ | hbits₁
    · rcases h₂.slots with ⟨hbits₂, hslots₂⟩ | hbits₂
      · exact .inl ⟨hbits₂.trans hbits₁, fun i hi => hslots₂ i (hslots₁ i hi)⟩
      · exact .inr (by omega)
    · exact .inr (by omega)
  clean h := by
    obtain ⟨hdirty, hbits⟩ := h₂.clean h
    exact ⟨(h₁.clean hdirty).1, hbits.trans (h₁.clean hdirty).2⟩

lemma fills_of_marked (hdirty : s'.dirty = true)
  (hslots : (s'.table.bits = s.table.bits ∧ ∀ i, s.table.slot i ≠ 0 → s'.table.slot i ≠ 0) ∨
    s.table.bits < s'.table.bits) : Fills s s' :=
  ⟨hslots, fun h => by rw [hdirty] at h; cases h⟩

lemma fills_grow (h : s.grow keys = .ok s') : Fills s s' := by
  obtain ⟨hbits, hdirty, -⟩ := grow_kept h
  exact fills_of_marked hdirty (.inr (by omega))

lemma fills_heap (s : Store) (heap : Heap) : Fills s { s with heap } :=
  ⟨.inl ⟨rfl, fun _ h => h⟩, fun h => ⟨h, rfl⟩⟩

lemma tryPutGrown_fills (s : Store) (key : B256) (data : Bytes) :
  Fills s (s.tryPutGrown keys key data).1 := by
  unfold tryPutGrown
  split
  · exact Fills.refl s
  · exact Fills.refl s
  · exact Fills.refl s
  split
  · exact fills_heap ..
  exact fills_of_marked rfl
    (.inl ⟨rfl, fun i hi => Table.slot_set_ne_zero (Nat.succ_ne_zero _) hi⟩)

lemma tryPut_fills (s : Store) (key : B256) (data : Bytes) :
  Fills s (s.tryPut keys key data).1 := by
  unfold tryPut
  split
  · rcases hgrow : s.grow keys with e | grown
    · exact Fills.refl s
    · exact (fills_grow hgrow).trans (tryPutGrown_fills ..)
  · exact tryPutGrown_fills ..

lemma putLoop_fills (s : Store) : Fills s (putLoop keys key data attempts s).1 := by
  induction attempts generalizing s with
  | zero => exact Fills.refl s
  | succ attempts ih =>
    have htry := @tryPut_fills keys s key data
    unfold putLoop
    generalize s.tryPut keys key data = outcome at htry ⊢
    rcases outcome with ⟨tried, e | _ | _⟩
    · exact htry
    · simp only
      rcases hgrow : tried.grow keys with e | grown
      · exact htry
      · exact (htry.trans (fills_grow hgrow)).trans (ih grown)
    · exact htry

lemma growFor_fills (rows fuel : Nat) (s : Store) : Fills s (growFor keys rows fuel s).1 := by
  induction fuel generalizing s with
  | zero => exact Fills.refl s
  | succ fuel ih =>
    unfold growFor
    split
    · rcases hgrow : s.grow keys with e | grown
      · exact Fills.refl s
      · exact (fills_grow hgrow).trans (ih grown)
    · exact Fills.refl s

lemma putManyGrown_fills (s : Store) (rows : List (B256 × Bytes)) :
  Fills s (s.putManyGrown keys rows).1 := by
  unfold putManyGrown
  simp only
  split
  · exact Fills.refl s
  split
  · exact fills_heap ..
  rename_i heap offsets _
  have hclaims := @claims_extends keys { s with heap }
    (((s.freshRows keys rows).map Row.key).zip offsets)
  exact fills_of_marked rfl (.inl ⟨hclaims.bits, hclaims.occupied⟩)

lemma putMany_fills (s : Store) (rows : List (B256 × Bytes)) : Fills s (s.putMany keys rows).1 := by
  have hgrowFor := @growFor_fills keys rows.length 32 s
  unfold putMany
  split
  · exact Fills.refl s
  generalize s.growFor keys rows.length 32 = outcome at hgrowFor ⊢
  rcases outcome with ⟨grown, e | ⟨⟩⟩
  · exact hgrowFor
  · exact hgrowFor.trans (putManyGrown_fills ..)

lemma empties_claims (s : Store) (claims : List (B256 × Nat)) :
  s.empties ≤ (claims.foldl (claimSlot keys) s).empties + claims.length := by
  induction claims generalizing s with
  | nil => exact le_rfl
  | cons claim rest ih =>
    have hone := @empties_claimSlot keys s claim
    have hrest := ih (s.claimSlot keys claim)
    rw [foldl_cons, length_cons]
    omega

lemma putManyGrown_empties (s : Store) (rows : List (B256 × Bytes)) :
  s.empties ≤ (s.putManyGrown keys rows).1.empties + rows.length := by
  have hlength := @length_freshRows_le keys s rows
  unfold putManyGrown
  generalize s.freshRows keys rows = fresh at *
  simp only
  split
  · exact Nat.le_add_right ..
  split
  · exact Nat.le_add_right ..
  rename_i heap offsets _
  have hclaims := @empties_claims keys { s with heap } ((fresh.map Row.key).zip offsets)
  rw [length_zip, length_map] at hclaims
  unfold empties at hclaims ⊢
  simp only at hclaims ⊢
  omega

lemma HalfFull.empties_pos (h : HalfFull s) : 0 < s.empties := by
  obtain ⟨hsize, htwo, hcounted⟩ := h
  omega

lemma putMany_empties {rows : List (B256 × Bytes)} (hs : 0 < s.empties)
  (hroom : Room s rows.length 1) : 0 < (s.putMany keys rows).1.empties := by
  unfold putMany
  split
  · exact hs
  rcases hgrowFor : s.growFor keys rows.length 32 with ⟨grown, e | ⟨⟩⟩
  · obtain ⟨rfl | hhalf, -⟩ := growFor_room hgrowFor
    · exact hs
    · exact hhalf.empties_pos
  have hleft := @putManyGrown_empties keys grown rows
  have hgrown := empties_of_room hroom le_rfl hgrowFor
  simp only
  omega

lemma tryPutGrown_empties (s : Store) (key : B256) (data : Bytes) :
  s.empties ≤ (s.tryPutGrown keys key data).1.empties + 1 := by
  unfold tryPutGrown
  split
  · exact Nat.le_succ _
  · exact Nat.le_succ _
  · exact Nat.le_succ _
  split
  · exact Nat.le_succ _
  · exact count_le_count_set ..

lemma tryPut_empties (hbits : 1 ≤ s.table.bits) (hs : 0 < s.empties) (hroom : Room s 1 1) :
  0 < (s.tryPut keys key data).1.empties := by
  unfold tryPut
  split
  · rcases hgrow : s.grow keys with e | grown
    · exact hs
    obtain ⟨hgrownBits, -, hsize, hcounted⟩ := grow_kept hgrow
    have hleft := @tryPutGrown_empties keys grown key data
    have hcapacity : grown.table.capacity = 2 * s.table.capacity := by
      rw [Table.capacity, hgrownBits, Nat.pow_succ, Nat.mul_comm, Table.capacity]
    have htwo : 2 ^ 1 ≤ s.table.capacity := Nat.pow_le_pow_right Nat.two_pos hbits
    simp only
    omega
  have hleft := @tryPutGrown_empties keys s key data
  rcases hroom with hroom | hroom <;> omega

lemma putLoop_empties (hbits : 1 ≤ s.table.bits) (hs : 0 < s.empties) (hroom : Room s 1 1) :
  0 < (putLoop keys key data attempts s).1.empties := by
  induction attempts generalizing s with
  | zero => exact hs
  | succ attempts ih =>
    have htry := @tryPut_empties keys s key data hbits hs hroom
    have htryBits := (@tryPut_fills keys s key data).bits_le
    unfold putLoop
    generalize s.tryPut keys key data = outcome at htry htryBits ⊢
    rcases outcome with ⟨tried, e | _ | _⟩
    · exact htry
    · simp only
      rcases hgrow : tried.grow keys with e | grown
      · exact htry
      obtain ⟨hgrownBits, -, -, -⟩ := grow_kept hgrow
      have hhalf := halfFull_grow hgrow
      have hfour : 2 ^ 2 ≤ grown.table.capacity :=
        Nat.pow_le_pow_right Nat.two_pos (by simp only at htryBits; omega)
      refine ih (by omega) hhalf.empties_pos (.inl ?_)
      obtain ⟨hsize, -, hcounted⟩ := hhalf
      omega
    · exact htry

lemma put_empties (hbits : 1 ≤ s.table.bits) (hs : 0 < s.empties) (hroom : Room s 1 1) :
  0 < (s.put keys key data).1.empties :=
  putLoop_empties 2 hbits hs hroom

lemma put_fills (s : Store) (key : B256) (data : Bytes) : Fills s (s.put keys key data).1 :=
  putLoop_fills 2 s

end Store

end FlatDb

end Rustock
