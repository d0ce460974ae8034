import Rustock.Lib.Bytes

/-!
# RLP encoding

Recursive length prefix, the encoding side: byte strings, integers without leading
zeros, and lists of items that are already encoded.
-/

namespace Lib

namespace Rlp

/-- Big-endian bytes of `n`, in at most `k` bytes, without leading zeros. -/
def trimmed (k n : Nat) : Bytes := (beBytes k n).dropWhile (· == 0)

/-- The prefix of a string (`list = false`) or list of `payloadLength` bytes. -/
def header (list : Bool) (payloadLength : Nat) : Bytes :=
  let short := if list then 0xC0 else 0x80
  let long := if list then 0xF7 else 0xB7
  if payloadLength < 56 then [UInt8.ofNat (short + payloadLength)]
  else
    let len := trimmed 8 payloadLength
    UInt8.ofNat (long + len.length) :: len

/-- A byte string; a single byte below `0x80` stands for itself. -/
def bytes : Bytes → Bytes
  | [b] => if b < 0x80 then [b] else header false 1 ++ [b]
  | bs => header false bs.length ++ bs

/-- A value that fits `k` bytes, zero being the empty string. -/
def nat (k n : Nat) : Bytes := bytes (trimmed k n)

def wrap (payload : Bytes) : Bytes := header true payload.length ++ payload

def list (items : List Bytes) : Bytes := wrap items.flatten

end Rlp

end Lib
