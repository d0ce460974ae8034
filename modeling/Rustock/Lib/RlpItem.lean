import Rustock.Lib.Except
import Rustock.Lib.Rlp

/-!
# RLP decoding

The prefix of an item, read strictly: one longer than it need be is refused
(`Rlp.decodeHeader`); and integers without leading zeros read back.
-/

namespace Lib

open List

lemma beNat_cons (x : UInt8) : ∀ b : Bytes,
  beNat (x :: b) = x.toNat * 256 ^ b.length + beNat b := by
  intro b
  induction b using List.reverseRecOn with
  | nil => simp [beNat]
  | append_singleton b y ih =>
    rw [← cons_append, beNat_append_singleton, beNat_append_singleton, ih,
      length_append, length_singleton, Nat.pow_succ]
    ring

lemma beNat_lt : ∀ b : Bytes, beNat b < 256 ^ b.length
  | [] => Nat.one_pos
  | x :: b => by
    have hb := beNat_lt b
    have hx := Nat.mul_le_mul_right (256 ^ b.length) (Nat.succ_le_of_lt x.toNat_lt)
    rw [Nat.succ_mul] at hx
    rw [beNat_cons, length_cons, Nat.pow_succ]
    omega

lemma beNat_dropWhile_zero : ∀ b : Bytes, beNat (b.dropWhile (· == 0)) = beNat b
  | [] => rfl
  | x :: b => by
    rw [dropWhile_cons]
    split
    · rename_i hx
      rw [beNat_dropWhile_zero b, beNat_cons, eq_of_beq hx]
      simp
    · rfl

namespace Rlp

lemma length_trimmed_le (k n : Nat) : (trimmed k n).length ≤ k :=
  (dropWhile_sublist _).length_le.trans_eq (length_beBytes k n)

lemma beNat_trimmed {k n : Nat} (h : n < 256 ^ k) : beNat (trimmed k n) = n := by
  rw [trimmed, beNat_dropWhile_zero, beNat_beBytes, Nat.mod_eq_of_lt h]

inductive Error where
  | inputTooShort
  | nonCanonicalSingleByte
  | nonCanonicalSize
  | leadingZero
  | overflow
  | unexpectedString
  | unexpectedList
  | unexpectedLength
deriving DecidableEq

def announced (list : Bool) (payloadLength : Nat) (rest : Bytes) :
  Except Error (Bool × Nat × Bytes) :=
  if rest.length < payloadLength then .error .inputTooShort else .ok (list, payloadLength, rest)

/-- A prefix whose length takes `lenOfLen` bytes of its own. -/
def longHeader (list : Bool) (lenOfLen : Nat) (rest : Bytes) : Except Error (Bool × Nat × Bytes) :=
  if rest.length < lenOfLen then .error .inputTooShort
  else
    let len := rest.take lenOfLen
    if len.head? = some 0 then .error .leadingZero
    else if beNat len < 56 then .error .nonCanonicalSize
    else announced list (beNat len) (rest.drop lenOfLen)

/-- Whether an item is a list, the length of its payload, and the input from the payload on.
A byte below `0x80` is its own payload. -/
def decodeHeader : Bytes → Except Error (Bool × Nat × Bytes)
  | [] => .error .inputTooShort
  | b :: rest =>
    if b < 0x80 then .ok (false, 1, b :: rest)
    else if b < 0xB8 then
      if b = 0x81 then
        match rest with
        | [] => .error .inputTooShort
        | c :: _ =>
          if c < 0x80 then .error .nonCanonicalSingleByte else announced false 1 rest
      else announced false (b.toNat - 0x80) rest
    else if b < 0xC0 then longHeader false (b.toNat - 0xB7) rest
    else if b < 0xF8 then announced true (b.toNat - 0xC0) rest
    else longHeader true (b.toNat - 0xF7) rest

end Rlp

end Lib
