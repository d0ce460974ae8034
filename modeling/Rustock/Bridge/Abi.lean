import Rustock.Bridge.BtcCache
import Rustock.Lib.Except

/-!
# Call data of the Bridge

Every Bridge call is checked by `abiArgsDecodeOk` (crates/execution/src/bridge/mod.rs)
and then read again by its handler, and for some methods by the gas-cost function. The check
takes the low 32 bits of an offset or length word; the handlers take the whole word, most of
them with a conversion that panics.
-/

namespace Rustock

open Lib List Option Except

inductive AbiArgType where
  | word
  | fixedBytes
  | bytes
  | array (elem : AbiArgType)

namespace AbiArgType

def isDynamic : AbiArgType → Bool
  | .bytes | .array _ => true
  | .word | .fixedBytes => false

end AbiArgType

def wordAt (args : Bytes) (off : Nat) : Nat := beNat (window args off 32)

/-- The low 32 bits as a signed number, zero for an empty payload. -/
def abiDecodeInt (args : Bytes) (off : Nat) : Option Int :=
  if args = [] then some 0
  else if args.length < off + 32 then none
  else
    let low : Nat := wordAt args off % 2 ^ 32
    some (if low < 2 ^ 31 then (low : Int) else (low : Int) - 2 ^ 32)

def abiIndex (value : Int) : Option Nat := if value < 0 then none else some value.toNat

def abiIndexAt (args : Bytes) (off : Nat) : Option Nat := (abiDecodeInt args off).bind abiIndex

def abiDecodeValueOk (args : Bytes) : AbiArgType → Nat → Bool
  | .word, off => (abiDecodeInt args off).isSome
  | .fixedBytes, off => off + 32 ≤ args.length
  | .bytes, off => (abiIndexAt args off).any fun len => off + 32 + len ≤ args.length
  | .array elem, off =>
    args = [] || (abiIndexAt args off).any fun len =>
      decide (off + 32 + len ≤ args.length) &&
        (List.range len).all fun i =>
          if elem.isDynamic then
            (abiIndexAt args (off + 32 + 32 * i)).any fun dynOff =>
              abiDecodeValueOk args elem (off + 32 + dynOff)
          else abiDecodeValueOk args elem (off + 32 + 32 * i)

/-- One argument whose head word is at `off`. -/
def abiArgOk (args : Bytes) (ty : AbiArgType) (off : Nat) : Bool :=
  if ty.isDynamic then (abiIndexAt args off).any (abiDecodeValueOk args ty)
  else abiDecodeValueOk args ty off

/-- mod.rs:193–214, the types parsed. -/
def abiArgsDecodeOk (args : Bytes) : List AbiArgType → Nat → Bool
  | [], _ => true
  | ty :: types, off => abiArgOk args ty off && abiArgsDecodeOk args types (off + 32)

inductive Fault where
  | conversion | overflow | capacity
deriving DecidableEq

inductive Stop where
  | rejected
  | fault (f : Fault)
deriving DecidableEq

abbrev Reader := Except Stop

/-- `U256::to::<uN>`. -/
def toWidth (bits w : Nat) : Reader Nat :=
  if w < 2 ^ bits then .ok w else .error (.fault .conversion)

/-- `usize::try_from`. -/
def tryUsize (w : Nat) : Reader Nat := if w < 2 ^ 64 then .ok w else .error .rejected

def addUsize (a b : Nat) : Reader Nat :=
  if a + b < 2 ^ 64 then .ok (a + b) else .error (.fault .overflow)

def within (data : Bytes) (stop : Nat) : Reader Unit :=
  if stop ≤ data.length then .ok () else .error .rejected

/-- `Vec::with_capacity` of elements of `size` bytes. -/
def withCapacity (count size : Nat) : Reader Unit :=
  if count * size < 2 ^ 63 then .ok () else .error (.fault .capacity)

/-- A length and its data at `offset`; the readers differ in how they convert the length. -/
def readDynamic (convert : Nat → Reader Nat) (data : Bytes) (offset : Nat) : Reader Bytes := do
  let start ← addUsize offset 32
  within data start
  let len ← convert (wordAt data offset)
  let stop ← addUsize start len
  within data stop
  return window data start len

def readAbiDynamicBytes : Bytes → Nat → Reader Bytes := readDynamic (toWidth 64)

def readDynamicBytes : Bytes → Nat → Reader Bytes := readDynamic tryUsize

def decodeAbiBytes (data : Bytes) : Reader Bytes := do
  within data 64
  let offset ← toWidth 64 (wordAt data 0)
  readAbiDynamicBytes data offset

/-- One turn of the loop over a `bytes[]`. -/
def decodeElement (data : Bytes) (base i : Nat) : Reader Bytes := do
  let pos ← addUsize base (32 * i)
  let stop ← addUsize pos 32
  within data stop
  let elemOffset ← toWidth 64 (wordAt data pos)
  let abs ← addUsize base elemOffset
  readAbiDynamicBytes data abs

def decodeAbiBytesArray (data : Bytes) : Reader (List Bytes) := do
  within data 64
  let arrayOffset ← toWidth 64 (wordAt data 0)
  let base ← addUsize arrayOffset 32
  within data base
  let count ← toWidth 64 (wordAt data arrayOffset)
  withCapacity count 24
  (List.range count).mapM (decodeElement data base)

/-- The part of pmt.rs:301–361 that reads the call data: every word as its low 32 bits. -/
def branchArgs (args : Bytes) : Reader (Bytes × Bytes × Nat × List Bytes) := do
  within args 128
  let arrayOffset := wordAt args 96 % 2 ^ 32
  within args (arrayOffset + 32)
  let count := wordAt args arrayOffset % 2 ^ 32
  let hashes ← (List.range count).mapM fun i => do
    within args (arrayOffset + 32 + 32 * i + 32)
    return window args (arrayOffset + 32 + 32 * i) 32
  return (window args 0 32, window args 32 32, wordAt args 64 % 2 ^ 32, hashes)

/-- `(path >> i) & 1 == 1`, a shift of 32 bits. -/
def pathBit (path i : Nat) : Reader Bool :=
  if i < 32 then .ok (path.testBit i) else .error (.fault .overflow)

def abiArrayLen (args : Bytes) (slot : Nat) : Reader Nat := do
  within args (slot + 32)
  let offset ← tryUsize (wordAt args slot)
  let stop ← addUsize offset 32
  within args stop
  toWidth 64 (wordAt args offset)

inductive BridgeMethod where
  | receiveHeader | receiveHeaders | registerBtcTransaction | registerBtcCoinbaseTransaction
  | getBtcTransactionConfirmations | getBtcBlockchainBlockHeaderByHeight
deriving DecidableEq

inductive AbiValue where
  | word (n : Nat)
  | fixedBytes (b : Bytes)
  | bytes (b : Bytes)
  | bytesList (bs : List Bytes)
  | hashes (bs : List Bytes)
deriving DecidableEq

namespace BridgeMethod

/-- The signatures of mod.rs:445–463. -/
def argTypes : BridgeMethod → List AbiArgType
  | receiveHeader => [.bytes]
  | receiveHeaders => [.array .bytes]
  | registerBtcTransaction => [.bytes, .word, .bytes]
  | registerBtcCoinbaseTransaction => [.bytes, .fixedBytes, .bytes, .fixedBytes, .fixedBytes]
  | getBtcTransactionConfirmations => [.fixedBytes, .fixedBytes, .word, .array .fixedBytes]
  | getBtcBlockchainBlockHeaderByHeight => [.word]

def decode : BridgeMethod → Bytes → Reader (List AbiValue)
  | receiveHeader, args => do return [.bytes (← decodeAbiBytes args)]
  | receiveHeaders, args => do return [.bytesList (← decodeAbiBytesArray args)]
  | registerBtcTransaction, args => do
    -- peg.rs:106–126
    within args 96
    let btcTxOffset ← toWidth 64 (wordAt args 0)
    let btcBlockHeight ← toWidth 64 (wordAt args 32)
    let pmtOffset ← toWidth 64 (wordAt args 64)
    let btcTxData ← readDynamicBytes args btcTxOffset
    let pmtData ← readDynamicBytes args pmtOffset
    return [.bytes btcTxData, .word btcBlockHeight, .bytes pmtData]
  | registerBtcCoinbaseTransaction, args => do
    -- tx.rs:178–199
    within args 160
    let btcTxOffset ← toWidth 64 (wordAt args 0)
    let pmtOffset ← toWidth 64 (wordAt args 64)
    let btcTxData ← readAbiDynamicBytes args btcTxOffset
    let pmtData ← readAbiDynamicBytes args pmtOffset
    return [.bytes btcTxData, .fixedBytes (window args 32 32), .bytes pmtData,
      .fixedBytes (window args 96 32), .fixedBytes (window args 128 32)]
  | getBtcTransactionConfirmations, args => do
    let (txHash, blockHash, path, hashes) ← branchArgs args
    return [.fixedBytes txHash, .fixedBytes blockHash, .word path, .hashes hashes]
  | getBtcBlockchainBlockHeaderByHeight, args => do
    -- btc_chain.rs:756–761
    within args 32
    return [.word (← toWidth 32 (wordAt args 0))]

/-- The sides on which `reduce_from` (pmt.rs:364–379) puts the hashes of a branch. -/
def branchSides : BridgeMethod → Bytes → Reader (List Bool)
  | getBtcTransactionConfirmations, args => do
    let (_, _, path, hashes) ← branchArgs args
    (List.range hashes.length).mapM (pathBit path)
  | _, _ => .ok []

def countedSlot : BridgeMethod → Option Nat
  | receiveHeaders => some 0
  | getBtcTransactionConfirmations => some 96
  | _ => none

end BridgeMethod

open BridgeMethod

structure CostParams where
  rskip124 : Bool
  rskip132 : Bool
  /-- The depth of a stored block below the head, if it is known and not too deep. -/
  depthOf : Bytes → Option UInt32

variable (p : CostParams)

def receiveHeadersCost (args : Bytes) : Reader Nat :=
  if p.rskip124 = false then .ok 22000
  else
    let base := if p.rskip132 then 25000 else 66000
    let perAdditionalHeader := if p.rskip132 then 3500 else 1650
    match abiArrayLen args 0 with
    | .ok n => .ok (if 0 < n then min (base + (n - 1) * perAdditionalHeader) (2 ^ 64 - 1) else base)
    | .error .rejected => .ok base
    | .error (.fault f) => .error (.fault f)

def btcTxConfirmationsCost (args : Bytes) : Reader Nat :=
  match abiArrayLen args 96 with
  | .error (.fault f) => .error (.fault f)
  | .error .rejected => .ok 27000
  | .ok branchHashes =>
    match p.depthOf (window args 32 32) with
    | none => .ok 27000
    | some depth =>
      if 27000 + depth.toNat * 315 + branchHashes * 144 < 2 ^ 64 then
        .ok (27000 + depth.toNat * 315 + branchHashes * 144)
      else .error (.fault .overflow)

/-- mod.rs:803–833, the method's own part. -/
def BridgeMethod.gasCost (args : Bytes) : BridgeMethod → Reader Nat
  | receiveHeader => .ok 10600
  | receiveHeaders => receiveHeadersCost p args
  | registerBtcTransaction => .ok 22000
  | registerBtcCoinbaseTransaction => .ok 10000
  | getBtcTransactionConfirmations => btcTxConfirmationsCost p args
  | getBtcBlockchainBlockHeaderByHeight => .ok 5000

def lowWord (args : Bytes) (off : Nat) : Nat := wordAt args off % 2 ^ 32

def bytesAt (args : Bytes) (off : Nat) : Bytes := window args (off + 32) (lowWord args off)

/-- The elements of an array whose length is at `off`. -/
def elementsAt (args : Bytes) (dynamic : Bool) (off : Nat) : List Bytes :=
  (List.range (lowWord args off)).map fun i =>
    if dynamic then bytesAt args (off + 32 + lowWord args (off + 32 + 32 * i))
    else window args (off + 32 + 32 * i) 32

def acceptedValues (args : Bytes) : BridgeMethod → List AbiValue
  | .receiveHeader => [.bytes (bytesAt args (lowWord args 0))]
  | .receiveHeaders => [.bytesList (elementsAt args true (lowWord args 0))]
  | .registerBtcTransaction =>
    [.bytes (bytesAt args (lowWord args 0)), .word (wordAt args 32),
      .bytes (bytesAt args (lowWord args 64))]
  | .registerBtcCoinbaseTransaction =>
    [.bytes (bytesAt args (lowWord args 0)), .fixedBytes (window args 32 32),
      .bytes (bytesAt args (lowWord args 64)), .fixedBytes (window args 96 32),
      .fixedBytes (window args 128 32)]
  | .getBtcTransactionConfirmations =>
    [.fixedBytes (window args 0 32), .fixedBytes (window args 32 32), .word (wordAt args 64),
      .hashes (elementsAt args false (lowWord args 96))]
  | .getBtcBlockchainBlockHeaderByHeight => [.word (wordAt args 0)]

/-- The memory the decoded values take: the bytes themselves, and a vector header for each
element of a `bytes[]`. -/
def AbiValue.memory : AbiValue → Nat
  | .word _ | .fixedBytes _ => 0
  | .bytes b => b.length
  | .bytesList bs => (bs.map fun b => 24 + b.length).sum
  | .hashes bs => 32 * bs.length

structure DecodesAccepted (m : BridgeMethod) (args : Bytes) : Prop where
  decoded : m.decode args = .ok (acceptedValues args m)
  counted : ∀ slot, m.countedSlot = some slot →
    abiArrayLen args slot = .ok (lowWord args (lowWord args slot))
  costed : ∀ p : CostParams, ∃ cost, m.gasCost p args = .ok cost
  reduced : ∃ sides, m.branchSides args = .ok sides
  memory : ((acceptedValues args m).map AbiValue.memory).sum ≤ 25 * args.length

def SmallWord (args : Bytes) (off : Nat) : Prop := wordAt args off < 2 ^ 32

/-- A `bytes` argument with its head word at `off`. -/
def PlainBytes (args : Bytes) (off : Nat) : Prop :=
  SmallWord args off ∧ SmallWord args (lowWord args off)

/-- The words of call data on which the readers agree: at least as long as the decoder asks, offset
and length words below `2 ^ 32`, integers within the width the handler converts them to, and a
Merkle branch no longer than its path has bits. -/
def PlainWords (args : Bytes) : BridgeMethod → Prop
  | .receiveHeader => 64 ≤ args.length ∧ PlainBytes args 0
  | .receiveHeaders =>
    64 ≤ args.length ∧ PlainBytes args 0 ∧
      ∀ i < lowWord args (lowWord args 0), SmallWord args (lowWord args 0 + 32 + 32 * i) ∧
        SmallWord args (lowWord args 0 + 32 + lowWord args (lowWord args 0 + 32 + 32 * i))
  | .registerBtcTransaction => PlainBytes args 0 ∧ wordAt args 32 < 2 ^ 64 ∧ PlainBytes args 64
  | .registerBtcCoinbaseTransaction => PlainBytes args 0 ∧ PlainBytes args 64
  | .getBtcTransactionConfirmations =>
    SmallWord args 64 ∧ PlainBytes args 96 ∧ lowWord args (lowWord args 96) ≤ 32
  | .getBtcBlockchainBlockHeaderByHeight => args ≠ [] ∧ SmallWord args 0

variable {args : Bytes} {off : Nat}

lemma lowWord_of_small (h : SmallWord args off) :
  lowWord args off = wordAt args off := Nat.mod_eq_of_lt h

variable {n : Nat}

lemma toWidth_eq_ok {bits w : Nat} : toWidth bits w = .ok n ↔ w < 2 ^ bits ∧ n = w := guard_eq_ok

lemma tryUsize_eq_ok {w : Nat} : tryUsize w = .ok n ↔ w < 2 ^ 64 ∧ n = w := guard_eq_ok

lemma addUsize_eq_ok {a b : Nat} : addUsize a b = .ok n ↔ a + b < 2 ^ 64 ∧ n = a + b := guard_eq_ok

variable {data : Bytes}

lemma within_eq_ok {stop : Nat} {u : Unit} : within data stop = .ok u ↔ stop ≤ data.length :=
  guard_eq_ok.trans (and_iff_left rfl)

variable {b : Bytes} {offset : Nat}

lemma readDynamic_eq_ok {convert : Nat → Reader Nat}
  (hconvert : ∀ w n, convert w = .ok n ↔ w < 2 ^ 64 ∧ n = w) :
  readDynamic convert data offset = .ok b ↔
    offset + 32 + wordAt data offset < 2 ^ 64 ∧ offset + 32 + wordAt data offset ≤ data.length ∧
      b = window data (offset + 32) (wordAt data offset) := by
  unfold readDynamic
  simp only [except_do_eq_ok, addUsize_eq_ok, within_eq_ok, hconvert]
  constructor
  · rintro ⟨start, ⟨_, rfl⟩, _, _, len, ⟨_, rfl⟩, stop, ⟨hstop, rfl⟩, _, hin, hb⟩
    exact ⟨hstop, hin, (ok.inj hb).symm⟩
  rintro ⟨hstop, hin, rfl⟩
  exact ⟨_, ⟨by omega, rfl⟩, (), by omega, _, ⟨by omega, rfl⟩, _, ⟨hstop, rfl⟩, (), hin, rfl⟩

lemma readAbiDynamicBytes_eq_ok : readAbiDynamicBytes data offset = .ok b ↔
    offset + 32 + wordAt data offset < 2 ^ 64 ∧ offset + 32 + wordAt data offset ≤ data.length ∧
      b = window data (offset + 32) (wordAt data offset) :=
  readDynamic_eq_ok fun _ _ => toWidth_eq_ok

lemma readDynamicBytes_eq_ok : readDynamicBytes data offset = .ok b ↔
    offset + 32 + wordAt data offset < 2 ^ 64 ∧ offset + 32 + wordAt data offset ≤ data.length ∧
      b = window data (offset + 32) (wordAt data offset) :=
  readDynamic_eq_ok fun _ _ => tryUsize_eq_ok

lemma abiArrayLen_eq_ok {slot : Nat} : abiArrayLen args slot = .ok n ↔
  slot + 32 ≤ args.length ∧ wordAt args slot + 32 < 2 ^ 64 ∧
    wordAt args slot + 32 ≤ args.length ∧ wordAt args (wordAt args slot) < 2 ^ 64 ∧
    n = wordAt args (wordAt args slot) := by
  unfold abiArrayLen
  simp only [except_do_eq_ok, addUsize_eq_ok, within_eq_ok, tryUsize_eq_ok, toWidth_eq_ok]
  constructor
  · rintro ⟨_, hslot, offset, ⟨_, rfl⟩, stop, ⟨hstop, rfl⟩, _, hin, hlen⟩
    exact ⟨hslot, hstop, hin, hlen⟩
  rintro ⟨hslot, hstop, hin, hlen⟩
  exact ⟨(), hslot, _, ⟨by omega, rfl⟩, _, ⟨hstop, rfl⟩, (), hin, hlen⟩

lemma abiIndexAt_eq_some (hne : args ≠ []) (h : abiIndexAt args off = some n) :
  off + 32 ≤ args.length ∧ n = lowWord args off ∧ lowWord args off < 2 ^ 31 := by
  have hlow : wordAt args off % 2 ^ 32 = lowWord args off := rfl
  unfold abiIndexAt abiDecodeInt at h
  rw [if_neg hne] at h
  by_cases hin : args.length < off + 32
  · rw [if_pos hin] at h
    cases h
  rw [if_neg hin, bind_some, hlow] at h
  unfold abiIndex at h
  by_cases hsmall : lowWord args off < 2 ^ 31
  · rw [if_pos hsmall, if_neg (by omega)] at h
    have hn := some.inj h
    exact ⟨by omega, by omega, hsmall⟩
  rw [if_neg hsmall, if_pos (by omega)] at h
  cases h

lemma abiIndexAt_of_low (hin : off + 32 ≤ args.length) (hlow : lowWord args off < 2 ^ 31) :
  abiIndexAt args off = some (lowWord args off) := by
  have hne : args ≠ [] := by
    rintro rfl
    simp at hin
  have hword : wordAt args off % 2 ^ 32 = lowWord args off := rfl
  unfold abiIndexAt abiDecodeInt
  rw [if_neg hne, if_neg (by omega), bind_some, hword, if_pos hlow]
  unfold abiIndex
  rw [if_neg (by omega), Int.toNat_natCast]

lemma abiArgOk_bytes (h : abiArgOk args .bytes off = true) : off + 32 ≤ args.length ∧
    lowWord args off + 32 + lowWord args (lowWord args off) ≤ args.length := by
  have hdynamic : AbiArgType.bytes.isDynamic = true := rfl
  rw [abiArgOk, if_pos hdynamic, Option.any_eq_true] at h
  obtain ⟨o, ho, hvalue⟩ := h
  rw [abiDecodeValueOk, Option.any_eq_true] at hvalue
  obtain ⟨len, hlen, hin⟩ := hvalue
  have hin : o + 32 + len ≤ args.length := by simpa using hin
  have hne : args ≠ [] := by
    rintro rfl
    simp at hin
  obtain ⟨hoff, rfl, _⟩ := abiIndexAt_eq_some hne ho
  obtain ⟨_, rfl, _⟩ := abiIndexAt_eq_some hne hlen
  exact ⟨hoff, hin⟩

lemma ne_nil_of_length (h : n + 32 ≤ args.length) : args ≠ [] := by
  rintro rfl
  simp at h

lemma PlainBytes.reads (h : PlainBytes args off)
  (hin : lowWord args off + 32 + lowWord args (lowWord args off) ≤ args.length) :
  wordAt args off < 2 ^ 64 ∧
    readAbiDynamicBytes args (wordAt args off) = .ok (bytesAt args (lowWord args off)) ∧
    readDynamicBytes args (wordAt args off) = .ok (bytesAt args (lowWord args off)) := by
  obtain ⟨hoff, hlen⟩ := h
  have hoff' := lowWord_of_small hoff
  have hlen' := lowWord_of_small hlen
  unfold SmallWord at hoff hlen
  unfold bytesAt
  rw [hlen', ← hoff']
  rw [hlen'] at hin
  refine ⟨by rw [hoff']; omega, readAbiDynamicBytes_eq_ok.mpr ?_, readDynamicBytes_eq_ok.mpr ?_⟩
  · exact ⟨by omega, hin, rfl⟩
  · exact ⟨by omega, hin, rfl⟩

lemma PlainBytes.of_le (hlength : args.length < 2 ^ 32)
  (hin : wordAt args off + 32 + wordAt args (wordAt args off) ≤ args.length) :
  PlainBytes args off := by
  have hoff : SmallWord args off := by
    unfold SmallWord
    omega
  refine ⟨hoff, ?_⟩
  rw [lowWord_of_small hoff]
  unfold SmallWord
  omega

lemma length_bytesAt_le (args : Bytes) (off : Nat) : (bytesAt args off).length ≤ args.length := by
  unfold bytesAt window
  rw [length_take, length_drop]
  omega

lemma PlainBytes.counts (h : PlainBytes args off) (hslot : off + 32 ≤ args.length)
  (hin : lowWord args off + 32 ≤ args.length) :
  abiArrayLen args off = .ok (lowWord args (lowWord args off)) := by
  obtain ⟨hoff, hlen⟩ := h
  have hoff' := lowWord_of_small hoff
  have hlen' := lowWord_of_small hlen
  unfold SmallWord at hoff hlen
  rw [abiArrayLen_eq_ok, hlen', ← hoff']
  exact ⟨hslot, by omega, hin, by omega, rfl⟩

section Methods

variable {args : Bytes}

lemma registerBtcTransaction_agrees
  (h : abiArgsDecodeOk args BridgeMethod.registerBtcTransaction.argTypes 0 = true) :
  (PlainWords args .registerBtcTransaction → DecodesAccepted .registerBtcTransaction args) ∧
    (args.length < 2 ^ 32 → DecodesAccepted .registerBtcTransaction args →
      PlainWords args .registerBtcTransaction) := by
  simp only [argTypes, abiArgsDecodeOk, Bool.and_true, Bool.and_eq_true] at h
  obtain ⟨htx, _, hpmt⟩ := h
  obtain ⟨_, htxin⟩ := abiArgOk_bytes htx
  obtain ⟨hlen, hpmtin⟩ := abiArgOk_bytes hpmt
  constructor
  · rintro ⟨hplain, hheight, hplain'⟩
    obtain ⟨hword, _, hread⟩ := hplain.reads htxin
    obtain ⟨hword', _, hread'⟩ := hplain'.reads hpmtin
    refine ⟨?_, nofun, fun _ => ⟨_, rfl⟩, ⟨_, rfl⟩, ?_⟩
    · simp only [decode, except_do_eq_ok, within_eq_ok, toWidth_eq_ok]
      exact ⟨(), hlen, _, ⟨hword, rfl⟩, _, ⟨hheight, rfl⟩, _, ⟨hword', rfl⟩, _, hread, _, hread',
        rfl⟩
    have := length_bytesAt_le args (lowWord args 0)
    have := length_bytesAt_le args (lowWord args 64)
    simp only [acceptedValues, map_cons, map_nil, sum_cons, sum_nil, AbiValue.memory]
    omega
  intro hlength hagree
  have hdecoded := hagree.decoded
  simp only [decode, except_do_eq_ok, within_eq_ok, toWidth_eq_ok] at hdecoded
  obtain ⟨_, _, _, ⟨_, rfl⟩, _, ⟨hheight, rfl⟩, _, ⟨_, rfl⟩, _, hread, _, hread', _⟩ := hdecoded
  exact ⟨.of_le hlength (readDynamicBytes_eq_ok.mp hread).2.1, hheight,
    .of_le hlength (readDynamicBytes_eq_ok.mp hread').2.1⟩

section

variable (h : abiArgsDecodeOk args BridgeMethod.getBtcTransactionConfirmations.argTypes 0 = true)

include h

end

end Methods

end Rustock
