import Rustock.Lib.Bytes
import Rustock.Lib.HashChain

/-!
# SHA-256 from a midstate

The node's own SHA-256 (crates/core/src/validation/merged_mining.rs), which resumes from a
*midstate*, a chaining state and the number of bytes it has absorbed. `sha256FromMidstate` pads so
that **byte count plus length** is a multiple of 64, then walks the *tail* with `chunks_exact(64)`:
its last `byteCount % 64` bytes do not fill a block and are dropped (`sha256Hashed`).
-/

namespace Rustock

open Lib

/-- The chaining state `H1 … H8`. -/
@[ext] structure Sha256State where
  (a b c d e f g h : UInt32)
deriving DecidableEq

namespace Sha256State

def initial : Sha256State :=
  ⟨0x6a09e667, 0xbb67ae85, 0x3c6ef372, 0xa54ff53a, 0x510e527f, 0x9b05688c, 0x1f83d9ab, 0x5be0cd19⟩

def words (s : Sha256State) : List UInt32 := [s.a, s.b, s.c, s.d, s.e, s.f, s.g, s.h]

def toBytes (s : Sha256State) : B256 :=
  ⟨s.words.flatMap fun w => beBytes 4 w.toNat, by simp [words]⟩

def ofBytes (b : Bytes) : Sha256State :=
  let word i := UInt32.ofNat (beNat (window b (4 * i) 4))
  ⟨word 0, word 1, word 2, word 3, word 4, word 5, word 6, word 7⟩

end Sha256State

def K256 : List UInt32 := [0x428a2f98, 0x71374491, 0xb5c0fbcf, 0xe9b5dba5,
    0x3956c25b, 0x59f111f1, 0x923f82a4, 0xab1c5ed5, 0xd807aa98, 0x12835b01, 0x243185be, 0x550c7dc3,
    0x72be5d74, 0x80deb1fe, 0x9bdc06a7, 0xc19bf174, 0xe49b69c1, 0xefbe4786, 0x0fc19dc6, 0x240ca1cc,
    0x2de92c6f, 0x4a7484aa, 0x5cb0a9dc, 0x76f988da, 0x983e5152, 0xa831c66d, 0xb00327c8, 0xbf597fc7,
    0xc6e00bf3, 0xd5a79147, 0x06ca6351, 0x14292967, 0x27b70a85, 0x2e1b2138, 0x4d2c6dfc, 0x53380d13,
    0x650a7354, 0x766a0abb, 0x81c2c92e, 0x92722c85, 0xa2bfe8a1, 0xa81a664b, 0xc24b8b70, 0xc76c51a3,
    0xd192e819, 0xd6990624, 0xf40e3585, 0x106aa070, 0x19a4c116, 0x1e376c08, 0x2748774c, 0x34b0bcb5,
    0x391c0cb3, 0x4ed8aa4a, 0x5b9cca4f, 0x682e6ff3, 0x748f82ee, 0x78a5636f, 0x84c87814, 0x8cc70208,
    0x90befffa, 0xa4506ceb, 0xbef9a3f7, 0xc67178f2]

def rotateRight (x n : UInt32) : UInt32 := (x >>> n) ||| (x <<< (32 - n))

def extendSchedule (w : List UInt32) : List UInt32 :=
  let w15 := w.getD 14 0
  let w2 := w.getD 1 0
  let s0 := rotateRight w15 7 ^^^ rotateRight w15 18 ^^^ (w15 >>> 3)
  let s1 := rotateRight w2 17 ^^^ rotateRight w2 19 ^^^ (w2 >>> 10)
  (w.getD 15 0 + s0 + w.getD 6 0 + s1) :: w

/-- The 64 schedule words of a block. -/
def schedule (block : Bytes) : List UInt32 :=
  let input := (blocks 4 16 block).map fun b => UInt32.ofNat (beNat b)
  (Nat.repeat extendSchedule 48 input.reverse).reverse

/-- One round on the working variables. -/
def sha256Round (s : Sha256State) (kw : UInt32 × UInt32) : Sha256State :=
  let s1 := rotateRight s.e 6 ^^^ rotateRight s.e 11 ^^^ rotateRight s.e 25
  let ch := (s.e &&& s.f) ^^^ ((~~~ s.e) &&& s.g)
  let temp1 := s.h + s1 + ch + kw.1 + kw.2
  let s0 := rotateRight s.a 2 ^^^ rotateRight s.a 13 ^^^ rotateRight s.a 22
  let maj := (s.a &&& s.b) ^^^ (s.a &&& s.c) ^^^ (s.b &&& s.c)
  let temp2 := s0 + maj
  ⟨temp1 + temp2, s.a, s.b, s.c, s.d + temp1, s.e, s.f, s.g⟩

def sha256Compress (s : Sha256State) (block : Bytes) : Sha256State :=
  let t := (K256.zip (schedule block)).foldl sha256Round s
  ⟨s.a + t.a, s.b + t.b, s.c + t.c, s.d + t.d, s.e + t.e, s.f + t.f, s.g + t.g, s.h + t.h⟩

/-- The `while` loop of merged_mining.rs:398–400; 64 iterations always reach the
exit (`pushZeros_eq`). `usize` addition wraps in a release build. -/
def pushZeros (byteCount : UInt64) : Nat → Bytes → Bytes
  | 0, padded => padded
  | fuel + 1, padded =>
    if (byteCount + UInt64.ofNat padded.length).toNat % 64 ≠ 56 then
      pushZeros byteCount fuel (padded ++ [0])
    else padded

/-- The tail with its padding: `0x80`, zeros and the bit length, all `u64` arithmetic wrapping. -/
def sha256Padded (byteCount : UInt64) (tail : Bytes) : Bytes :=
  let totalLen := byteCount + UInt64.ofNat tail.length
  let totalBits := totalLen * 8
  pushZeros byteCount 64 (tail ++ [0x80]) ++ beBytes 8 totalBits.toNat

def sha256FromMidstate (state : Sha256State) (byteCount : UInt64) (tail : Bytes) : B256 :=
  ((chunksExact 64 (sha256Padded byteCount tail)).foldl sha256Compress state).toBytes

/-- `Sha256::digest`: no midstate, nothing absorbed yet. -/
def sha256Digest (message : Bytes) : B256 := sha256FromMidstate .initial 0 message

def paddingZeros (byteCount tailLen : Nat) : Nat := (119 - (byteCount + tailLen) % 64) % 64

def paddedLen (byteCount tailLen : Nat) : Nat := tailLen + 1 + paddingZeros byteCount tailLen + 8

def hashedLen (byteCount tailLen : Nat) : Nat := 64 * (paddedLen byteCount tailLen / 64)

lemma paddingZeros_lt (c t : Nat) : paddingZeros c t < 64 := Nat.mod_lt _ (by decide)

lemma pushZeros_eq (c : UInt64) : ∀ (fuel z : Nat) (p : Bytes),
  (c.toNat + p.length + z) % 64 = 56 → z < 64 → z ≤ fuel →
  pushZeros c fuel p = p ++ List.replicate z 0
  | 0, z, p, _, _, hz => by
    obtain rfl : z = 0 := by omega
    simp [pushZeros]
  | fuel + 1, z, p, hmod, hlt, hz => by
    have hwrap : (c + UInt64.ofNat p.length).toNat % 64 = (c.toNat + p.length) % 64 := by
      rw [UInt64.toNat_add, UInt64.toNat_ofNat']
      omega
    cases z with
    | zero =>
      have hexit : (c + UInt64.ofNat p.length).toNat % 64 = 56 := by omega
      rw [pushZeros, if_neg (not_not_intro hexit)]
      simp
    | succ z =>
      have hstay : (c + UInt64.ofNat p.length).toNat % 64 ≠ 56 := by omega
      have hlen : (p ++ [0]).length = p.length + 1 := by simp
      rw [pushZeros, if_pos hstay,
        pushZeros_eq c fuel z (p ++ [0]) (by rw [hlen]; omega) (by omega) (by omega)]
      simp [List.replicate_succ]

lemma sha256Padded_eq (c : UInt64) (tail : Bytes) : sha256Padded c tail =
    tail ++ 0x80 :: List.replicate (paddingZeros c.toNat tail.length) 0 ++
      beBytes 8 ((c + UInt64.ofNat tail.length) * 8).toNat := by
  have hlen : (tail ++ [0x80] : Bytes).length = tail.length + 1 := by simp
  have hz := pushZeros_eq c 64 (paddingZeros c.toNat tail.length) (tail ++ [0x80])
    (by rw [hlen]; unfold paddingZeros; omega) (paddingZeros_lt _ _)
    (Nat.le_of_lt (paddingZeros_lt _ _))
  simp [sha256Padded, hz]

@[simp] lemma length_sha256Padded (c : UInt64) (tail : Bytes) :
  (sha256Padded c tail).length = paddedLen c.toNat tail.length := by
  simp [sha256Padded_eq, paddedLen]
  omega

def sha256Hashed (c : UInt64) (tail : Bytes) : Bytes :=
  (sha256Padded c tail).take (hashedLen c.toNat tail.length)

@[simp] lemma length_sha256Hashed (c : UInt64) (tail : Bytes) :
  (sha256Hashed c tail).length = hashedLen c.toNat tail.length := by
  rw [sha256Hashed, List.length_take, length_sha256Padded, hashedLen]
  omega

lemma flatten_sha256Blocks (c : UInt64) (tail : Bytes) :
  (chunksExact 64 (sha256Padded c tail)).flatten = sha256Hashed c tail := by
  rw [flatten_chunksExact, length_sha256Padded]
  rfl

lemma hashedLen_of_aligned {c t : Nat} (h : c % 64 = 0) : hashedLen c t = paddedLen c t := by
  unfold hashedLen paddedLen paddingZeros
  omega

lemma word_inj {x y : UInt32} (h : beBytes 4 x.toNat = beBytes 4 y.toNat) : x = y :=
  UInt32.toNat_inj.mp (beBytes_inj x.toNat_lt y.toNat_lt h)

lemma Sha256State.toBytes_injective : Function.Injective Sha256State.toBytes := by
  intro s t h
  have hwords : s.words = t.words :=
    flatMap_inj_of_length (fun _ => length_beBytes 4 _) (fun _ _ => word_inj) rfl
      (congrArg FixedBytes.bytes h)
  simp only [words, List.cons.injEq, and_true] at hwords
  obtain ⟨h1, h2, h3, h4, h5, h6, h7, h8⟩ := hwords
  ext1 <;> assumption

/-- The digest of the empty message, `e3b0…b855`. -/
example : beNat (sha256Digest []).bytes =
    0xe3b0c44298fc1c149afbf4c8996fb92427ae41e4649b934ca495991b7852b855 := by
  decide +kernel

end Rustock
