import Mathlib.Data.List.Basic
import Mathlib.Tactic.Ring

/-!
# Byte strings

The vocabulary of the other modules:

- `Bytes` and the fixed-width `FixedBytes n`, whose length is a field of the value;
- big- and little-endian integers (`beBytes`/`beNat`, `leBytes`/`leNat`);
- `chunksExact`, which like the slice method of that name *drops* a trailing partial chunk;
- `rposition`, the search from the right, and `window`, the slice it compares.
-/

namespace Lib

open List

abbrev Bytes := List UInt8

/-- A byte string of exactly `n` bytes. -/
@[ext] structure FixedBytes (n : Nat) where
  bytes : Bytes
  length_eq : bytes.length = n
deriving DecidableEq

abbrev B256 := FixedBytes 32

instance : LawfulBEq B256 := inferInstance

namespace FixedBytes

variable {n : Nat}

/-- The value whose bytes are all `b`. -/
def repeatByte (n : Nat) (b : UInt8) : FixedBytes n := ⟨List.replicate n b, by simp⟩

abbrev zero (n : Nat) : FixedBytes n := repeatByte n 0

/-- The first `n` bytes of `b`, zero-extended on the right. -/
def ofBytes (n : Nat) (b : Bytes) : FixedBytes n :=
  ⟨(b ++ List.replicate n 0).take n, by simp⟩

variable (x : FixedBytes n)

def reverse : FixedBytes n := ⟨x.bytes.reverse, by simp [x.length_eq]⟩

instance : Inhabited (FixedBytes n) := ⟨zero n⟩

@[simp] lemma length_bytes : x.bytes.length = n := x.length_eq

@[simp] lemma reverse_reverse : x.reverse.reverse = x := by ext1; simp [reverse]

lemma reverse_injective : Function.Injective (reverse (n := n)) :=
  Function.LeftInverse.injective reverse_reverse

lemma ofBytes_bytes_of_length {b : Bytes} (h : b.length = n) : (ofBytes n b).bytes = b := by
  simp [ofBytes, ← h]

@[simp] lemma ofBytes_bytes : ofBytes n x.bytes = x :=
  FixedBytes.ext (ofBytes_bytes_of_length x.length_eq)

end FixedBytes

/-- The low `k` bytes of `n`, most significant first. -/
def beBytes : Nat → Nat → Bytes
  | 0, _ => []
  | k + 1, n => beBytes k (n / 256) ++ [UInt8.ofNat n]

/-- The low `k` bytes of `n`, least significant first. -/
def leBytes : Nat → Nat → Bytes
  | 0, _ => []
  | k + 1, n => UInt8.ofNat n :: leBytes k (n / 256)

def beNat (b : Bytes) : Nat := b.foldl (fun acc x => acc * 256 + x.toNat) 0

def leNat : Bytes → Nat
  | [] => 0
  | b :: bs => b.toNat + 256 * leNat bs

@[simp] lemma length_beBytes : ∀ k n, (beBytes k n).length = k
  | 0, _ => rfl
  | k + 1, n => by simp [beBytes, length_beBytes k]

@[simp] lemma length_leBytes : ∀ k n, (leBytes k n).length = k
  | 0, _ => rfl
  | k + 1, n => by simp [leBytes, length_leBytes k]

@[simp] lemma beNat_append_singleton (b : Bytes) (x : UInt8) :
  beNat (b ++ [x]) = beNat b * 256 + x.toNat := by
  simp [beNat]

lemma beNat_beBytes : ∀ k n, beNat (beBytes k n) = n % 256 ^ k
  | 0, n => by simp [beBytes, beNat, Nat.mod_one]
  | k + 1, n => by
    rw [beBytes, beNat_append_singleton, beNat_beBytes k, Nat.pow_succ',
      Nat.mod_mul, UInt8.toNat_ofNat']
    omega

lemma beBytes_inj {k m n : Nat} (hm : m < 256 ^ k) (hn : n < 256 ^ k)
  (h : beBytes k m = beBytes k n) : m = n := by
  have := congrArg beNat h
  rwa [beNat_beBytes, beNat_beBytes, Nat.mod_eq_of_lt hm, Nat.mod_eq_of_lt hn] at this

lemma flatMap_inj_of_length {α β : Type*} {g : α → List β} {len : Nat}
  (hlen : ∀ a, (g a).length = len) (hinj : ∀ a b, g a = g b → a = b) :
  ∀ {xs ys : List α}, xs.length = ys.length → xs.flatMap g = ys.flatMap g → xs = ys
  | [], [], _, _ => rfl
  | x :: xs, y :: ys, hl, h => by
    simp only [flatMap_cons] at h
    obtain ⟨hhead, htail⟩ := append_inj h (by rw [hlen, hlen])
    rw [hinj x y hhead, flatMap_inj_of_length hlen hinj (by simpa using hl) htail]

section Chunks

variable {α : Type*}

/-- The first `k` chunks of `n` elements each. -/
def blocks (n : Nat) : Nat → List α → List (List α)
  | 0, _ => []
  | k + 1, xs => xs.take n :: blocks n k (xs.drop n)

/-- Consecutive chunks of exactly `n` elements. What is left over at the end,
fewer than `n` elements, is in no chunk. -/
def chunksExact (n : Nat) (xs : List α) : List (List α) := blocks n (xs.length / n) xs

@[simp] lemma length_blocks (n : Nat) : ∀ k (xs : List α), (blocks n k xs).length = k
  | 0, _ => rfl
  | k + 1, xs => by simp [blocks, length_blocks n k]

lemma flatten_blocks (n : Nat) : ∀ k (xs : List α), (blocks n k xs).flatten = xs.take (n * k)
  | 0, _ => by simp [blocks]
  | k + 1, xs => by
    rw [blocks, flatten_cons, flatten_blocks n k, Nat.mul_succ, Nat.add_comm, take_add]

lemma flatten_chunksExact (n : Nat) (xs : List α) :
  (chunksExact n xs).flatten = xs.take (n * (xs.length / n)) :=
  flatten_blocks n _ xs

@[simp] lemma length_chunksExact (n : Nat) (xs : List α) :
  (chunksExact n xs).length = xs.length / n :=
  length_blocks n _ xs

lemma blocks_congr {n : Nat} : ∀ {k : Nat} {xs ys : List α},
  xs.take (n * k) = ys.take (n * k) → blocks n k xs = blocks n k ys
  | 0, _, _, _ => rfl
  | k + 1, xs, ys, h => by
    rw [Nat.mul_succ, Nat.add_comm] at h
    have hhead : xs.take n = ys.take n := by
      have := congrArg (List.take n) h
      simpa [take_take] using this
    have htail : (xs.drop n).take (n * k) = (ys.drop n).take (n * k) := by
      have := congrArg (List.drop n) h
      simpa [drop_take] using this
    simp [blocks, hhead, blocks_congr htail]

end Chunks

/-- The `len` elements of `xs` from position `i` on. -/
def window {α : Type*} (xs : List α) (i len : Nat) : List α := (xs.drop i).take len

/-- The greatest position below `n` that satisfies `p`. -/
def rposition (p : Nat → Bool) : Nat → Option Nat
  | 0 => none
  | n + 1 => if p n then some n else rposition p n

lemma rposition_eq_some_iff {p : Nat → Bool} {i : Nat} : ∀ {n : Nat},
  rposition p n = some i ↔ i < n ∧ p i ∧ ∀ j, i < j → j < n → ¬ p j
  | 0 => by simp [rposition]
  | n + 1 => by
    by_cases hn : p n
    · simp only [rposition, hn, if_true, Option.some.injEq]
      constructor
      · rintro rfl
        exact ⟨by omega, hn, fun j hj hj' => by omega⟩
      rintro ⟨hi, -, hlast⟩
      by_contra hne
      exact hlast n (by omega) (by omega) hn
    simp only [rposition, hn, Bool.false_eq_true, if_false]
    rw [rposition_eq_some_iff (n := n)]
    constructor
    · rintro ⟨hi, hp, hlast⟩
      refine ⟨by omega, hp, fun j hj hj' => ?_⟩
      rcases Nat.lt_succ_iff_lt_or_eq.mp hj' with h | rfl
      · exact hlast j hj h
      · simpa using hn
    rintro ⟨hi, hp, hlast⟩
    have : i ≠ n := by rintro rfl; exact hn hp
    exact ⟨by omega, hp, fun j hj hj' => hlast j hj (by omega)⟩

section Window

variable {α : Type*} {xs ys : List α} {i j n k : Nat}

lemma window_take (h : i + n ≤ k) : window (xs.take k) i n = window xs i n := by
  rw [window, window, drop_take, take_take, Nat.min_eq_left (by omega)]

lemma window_append_left (h : i + n ≤ xs.length) : window (xs ++ ys) i n = window xs i n := by
  rw [window, window, drop_append_of_le_length (by omega),
    take_append_of_le_length (by simp; omega)]

lemma window_append_right : window (xs ++ ys) (xs.length + i) n = window ys i n := by simp [window]

lemma window_middle {zs : List α} (hi : xs.length = i) (hn : ys.length = n) :
  window (xs ++ (ys ++ zs)) i n = ys := by
  simp [window, ← hi, ← hn]

lemma getElem?_window (h : k < n) : (window xs i n)[k]? = xs[i + k]? := by simp [window, h]

lemma add_le_length_of_window_eq (h : window xs i n = ys) (hn : ys.length = n)
  (hpos : 0 < n) : i + n ≤ xs.length := by
  have := congrArg List.length h
  simp [window] at this
  omega

end Window

lemma leNat_lt : ∀ b : Bytes, leNat b < 256 ^ b.length
  | [] => by simp [leNat]
  | x :: xs => by
    have hx := x.toNat_lt
    have hxs := leNat_lt xs
    rw [leNat, length_cons, Nat.pow_succ]
    omega

end Lib
