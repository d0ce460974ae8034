import Mathlib.Tactic.IntervalCases
import Rustock.Lib.Bytes

/-!
# Bit strings packed into bytes

Bits are packed most significant first: bit `k` is bit `7 - k % 8` of byte `k / 8`, and the last
byte is filled up with zeros.
-/

namespace Lib

open List Option

/-- Bytes that `n` bits take. -/
def packedLength (n : Nat) : Nat := (n + 7) / 8

/-- The byte whose bits, from the most significant, are `bit 0, …, bit 7`. -/
def packByte (bit : Nat → Bool) : UInt8 :=
  (List.range 8).foldl (fun byte i => if bit i then byte ||| (0x80 >>> UInt8.ofNat i) else byte) 0

def packBits (bits : List Bool) : Bytes :=
  (List.range (packedLength bits.length)).map fun j => packByte fun i => bits.getD (8 * j + i) false

/-- Whether bit `k` of the packed bytes is set. -/
def bitAt (encoded : Bytes) (k : Nat) : Bool :=
  (encoded.getD (k / 8) 0 >>> UInt8.ofNat (7 - k % 8)) &&& 1 != 0

def unpackBits (encoded : Bytes) (n : Nat) : List Bool := (List.range n).map (bitAt encoded)

@[simp] lemma length_packBits (bits : List Bool) :
  (packBits bits).length = packedLength bits.length := by
  simp [packBits]

@[simp] lemma length_unpackBits (encoded : Bytes) (n : Nat) :
  (unpackBits encoded n).length = n := by
  simp [unpackBits]

lemma packByte_bits : ∀ b₀ b₁ b₂ b₃ b₄ b₅ b₆ b₇ : Bool, ∀ i : Fin 8,
  ((packByte fun k => [b₀, b₁, b₂, b₃, b₄, b₅, b₆, b₇].getD k false) >>> UInt8.ofNat (7 - i) &&& 1
    != 0) = [b₀, b₁, b₂, b₃, b₄, b₅, b₆, b₇].getD i false := by
  decide +kernel

lemma packByte_congr {f g : Nat → Bool} (h : ∀ i < 8, f i = g i) : packByte f = packByte g := by
  have : ∀ (is : List Nat) (byte : UInt8), (∀ i ∈ is, i < 8) →
      is.foldl (fun byte i => if f i then byte ||| (0x80 >>> UInt8.ofNat i) else byte) byte =
      is.foldl (fun byte i => if g i then byte ||| (0x80 >>> UInt8.ofNat i) else byte) byte := by
    intro is
    induction is with
    | nil => intros; rfl
    | cons i is ih =>
      intro byte his
      rw [foldl_cons, foldl_cons, h i (his i (by simp))]
      exact ih _ fun j hj => his j (by simp [hj])
  exact this _ _ fun i hi => mem_range.mp hi

lemma packByte_bit (f : Nat → Bool) {i : Nat} (hi : i < 8) :
  (packByte f >>> UInt8.ofNat (7 - i) &&& 1 != 0) = f i := by
  have hcongr : packByte f =
      packByte fun k => [f 0, f 1, f 2, f 3, f 4, f 5, f 6, f 7].getD k false := by
    refine packByte_congr fun k hk => ?_
    interval_cases k <;> rfl
  rw [hcongr, packByte_bits _ _ _ _ _ _ _ _ ⟨i, hi⟩]
  interval_cases i <;> rfl

lemma bitAt_packBits {bits : List Bool} {k : Nat} (hk : k < bits.length) :
  bitAt (packBits bits) k = bits.getD k false := by
  have hbyte : k / 8 < packedLength bits.length := by
    unfold packedLength
    omega
  rw [bitAt, packBits, getD_eq_getElem?_getD, getElem?_map,
    getElem?_range hbyte, map_some, getD_some, packByte_bit _ (by omega),
    Nat.div_add_mod]

/-- **Packing keeps the bits.** -/
theorem unpackBits_packBits (bits : List Bool) : unpackBits (packBits bits) bits.length = bits := by
  refine ext_getElem (by simp) fun k h₁ h₂ => ?_
  simp only [unpackBits, getElem_map, getElem_range]
  rw [bitAt_packBits h₂, getD_eq_getElem?_getD, List.getElem?_eq_getElem h₂, getD_some]

end Lib
