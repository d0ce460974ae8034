import Rustock.Lib.Bytes

/-!
# Keccak-256

The hash the node names every block, trie node and account key by: Keccak with a
1088-bit rate and the original `0x01` domain padding. A lane is a natural number
below `2 ^ 64`; the 25 lanes are five rows of five, so that every step of the
permutation is a closed expression over rows and the whole function evaluates in
the kernel.
-/

namespace Lib

namespace Keccak

/-- Five lanes of one row `y`, indexed by `x`. -/
structure Row where
  (a b c d e : Nat)

structure State where
  (r0 r1 r2 r3 r4 : Row)

def Row.zero : Row := ⟨0, 0, 0, 0, 0⟩

def Row.xor (x y : Row) : Row :=
  ⟨x.a ^^^ y.a, x.b ^^^ y.b, x.c ^^^ y.c, x.d ^^^ y.d, x.e ^^^ y.e⟩

def laneMask : Nat := 0xFFFFFFFFFFFFFFFF

def rotateLeft (x n : Nat) : Nat := ((x <<< n) &&& laneMask) ||| (x >>> (64 - n))

def roundConstants : List Nat :=
  [0x0000000000000001, 0x0000000000008082, 0x800000000000808A, 0x8000000080008000,
   0x000000000000808B, 0x0000000080000001, 0x8000000080008081, 0x8000000000008009,
   0x000000000000008A, 0x0000000000000088, 0x0000000080008009, 0x000000008000000A,
   0x000000008000808B, 0x800000000000008B, 0x8000000000008089, 0x8000000000008003,
   0x8000000000008002, 0x8000000000000080, 0x000000000000800A, 0x800000008000000A,
   0x8000000080008081, 0x8000000000008080, 0x0000000080000001, 0x8000000080008008]

def theta (s : State) : State :=
  let c := (((s.r0.xor s.r1).xor s.r2).xor s.r3).xor s.r4
  let d : Row :=
    ⟨c.e ^^^ rotateLeft c.b 1, c.a ^^^ rotateLeft c.c 1, c.b ^^^ rotateLeft c.d 1,
     c.c ^^^ rotateLeft c.e 1, c.d ^^^ rotateLeft c.a 1⟩
  ⟨s.r0.xor d, s.r1.xor d, s.r2.xor d, s.r3.xor d, s.r4.xor d⟩

/-- `ρ` and `π` together: each lane is rotated by its offset and moved. -/
def rhoPi (s : State) : State :=
  ⟨⟨s.r0.a, rotateLeft s.r1.b 44, rotateLeft s.r2.c 43, rotateLeft s.r3.d 21, rotateLeft s.r4.e 14⟩,
   ⟨rotateLeft s.r0.d 28, rotateLeft s.r1.e 20, rotateLeft s.r2.a 3,
      rotateLeft s.r3.b 45, rotateLeft s.r4.c 61⟩,
   ⟨rotateLeft s.r0.b 1, rotateLeft s.r1.c 6, rotateLeft s.r2.d 25,
      rotateLeft s.r3.e 8, rotateLeft s.r4.a 18⟩,
   ⟨rotateLeft s.r0.e 27, rotateLeft s.r1.a 36, rotateLeft s.r2.b 10,
      rotateLeft s.r3.c 15, rotateLeft s.r4.d 56⟩,
   ⟨rotateLeft s.r0.c 62, rotateLeft s.r1.d 55, rotateLeft s.r2.e 39,
      rotateLeft s.r3.a 41, rotateLeft s.r4.b 2⟩⟩

/-- `x ⊕ (¬y ∧ z)` on lanes. -/
def chiLane (x y z : Nat) : Nat := x ^^^ ((y ^^^ laneMask) &&& z)

def chiRow (r : Row) : Row :=
  ⟨chiLane r.a r.b r.c, chiLane r.b r.c r.d, chiLane r.c r.d r.e, chiLane r.d r.e r.a,
   chiLane r.e r.a r.b⟩

def chi (s : State) : State :=
  ⟨chiRow s.r0, chiRow s.r1, chiRow s.r2, chiRow s.r3, chiRow s.r4⟩

def iota (rc : Nat) (s : State) : State :=
  { s with r0 := { s.r0 with a := s.r0.a ^^^ rc } }

def round (s : State) (rc : Nat) : State := iota rc (chi (rhoPi (theta s)))

def permutation (s : State) : State := roundConstants.foldl round s

def rate : Nat := 136

def lane (block : Bytes) (i : Nat) : Nat := leNat (window block (8 * i) 8)

def absorb (s : State) (b : Bytes) : State :=
  permutation
    ⟨s.r0.xor ⟨lane b 0, lane b 1, lane b 2, lane b 3, lane b 4⟩,
     s.r1.xor ⟨lane b 5, lane b 6, lane b 7, lane b 8, lane b 9⟩,
     s.r2.xor ⟨lane b 10, lane b 11, lane b 12, lane b 13, lane b 14⟩,
     s.r3.xor ⟨lane b 15, lane b 16, 0, 0, 0⟩, s.r4⟩

/-- Multi-rate padding: a `1` bit, zeros, and a final `1` bit. -/
def pad (message : Bytes) : Bytes :=
  let q := rate - message.length % rate
  if q = 1 then message ++ [0x81]
  else message ++ 0x01 :: (List.replicate (q - 2) 0 ++ [0x80])

def initial : State := ⟨Row.zero, Row.zero, Row.zero, Row.zero, Row.zero⟩

end Keccak

def keccak256 (message : Bytes) : B256 :=
  let s := (chunksExact Keccak.rate (Keccak.pad message)).foldl Keccak.absorb
    Keccak.initial
  ⟨leBytes 8 s.r0.a ++ leBytes 8 s.r0.b ++ leBytes 8 s.r0.c ++ leBytes 8 s.r0.d, by simp⟩

/-- The hash of the empty string, `c5d2…a470`. -/
example : beNat (keccak256 []).bytes =
    0xc5d2460186f7233c927e7db2dcc703c0e500b653ca82273b7bfad8045d85a470 := by
  decide +kernel

end Lib
