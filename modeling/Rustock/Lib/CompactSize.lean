import Rustock.Lib.Bytes

/-!
# Variable-length integers

The Bitcoin "CompactSize" format: one byte below 253, else a marker and two, four or eight
little-endian bytes.

- `CompactSize.decode_encode`: **a number below `2 ^ 64` reads back**, whatever follows it.
-/

namespace Lib

/-- The first `n` items and what follows them, if there are that many. -/
def takeExact {α : Type*} (n : Nat) (xs : List α) : Option (List α × List α) :=
  if n ≤ xs.length then some (xs.take n, xs.drop n) else none

lemma takeExact_append {α : Type*} {n : Nat} {xs : List α} (h : xs.length = n) (rest : List α) :
  takeExact n (xs ++ rest) = some (xs, rest) := by
  simp [takeExact, ← h]

lemma leNat_leBytes : ∀ k n, leNat (leBytes k n) = n % 256 ^ k
  | 0, n => by simp [leNat, leBytes, Nat.mod_one]
  | k + 1, n => by
    rw [leBytes, leNat, leNat_leBytes k, Nat.pow_succ', Nat.mod_mul]
    simp

namespace CompactSize

def encode (n : Nat) : Bytes :=
  if n < 253 then [UInt8.ofNat n]
  else if n ≤ 0xFFFF then 0xFD :: leBytes 2 n
  else if n ≤ 0xFFFFFFFF then 0xFE :: leBytes 4 n
  else 0xFF :: leBytes 8 n

def size (n : Nat) : Nat :=
  if n < 253 then 1 else if n ≤ 0xFFFF then 3 else if n ≤ 0xFFFFFFFF then 5 else 9

def width (first : UInt8) : Nat :=
  if first.toNat ≤ 252 then 1
  else if first.toNat = 253 then 3
  else if first.toNat = 254 then 5
  else 9

def decode (data : Bytes) : Option (Nat × Bytes) := do
  let first ← data.head?
  let (bytes, rest) ← takeExact (width first) data
  some (if width first = 1 then first.toNat else leNat bytes.tail, rest)

@[simp] lemma length_encode (n : Nat) : (encode n).length = size n := by
  unfold encode size
  split_ifs <;> simp

lemma decode_marker {marker : UInt8} {k n : Nat} (hwidth : width marker = k + 1) (hk : k ≠ 0)
  (hn : n < 256 ^ k) (rest : Bytes) : decode (marker :: leBytes k n ++ rest) = some (n, rest) := by
  have hlength : (marker :: leBytes k n).length = width marker := by simp [hwidth]
  have hnot : width marker ≠ 1 := by omega
  have htake := takeExact_append hlength rest
  rw [List.cons_append] at htake
  simp [decode, htake, hnot, leNat_leBytes, Nat.mod_eq_of_lt hn]

/-- **A number below `2 ^ 64` reads back.** -/
theorem decode_encode {n : Nat} (hn : n < 2 ^ 64) (rest : Bytes) :
  decode (encode n ++ rest) = some (n, rest) := by
  unfold encode
  split_ifs with h1 h2 h3
  · have hfirst : (UInt8.ofNat n).toNat = n := by
      rw [UInt8.toNat_ofNat']
      omega
    have hwidth : width (UInt8.ofNat n) = 1 := by rw [width, hfirst, if_pos (by omega)]
    simp [decode, hwidth, takeExact, hfirst]
  · exact decode_marker rfl (by decide) (by omega) rest
  · exact decode_marker rfl (by decide) (by omega) rest
  · exact decode_marker rfl (by decide) (by omega) rest

end CompactSize

end Lib
