import Mathlib
import Rustock.Lib.Decoder
import Rustock.Lib.RlpItem

/-!
# RLPx frames

`FrameCodec` (crates/networking/src/rlpx/frame.rs): a message comes as an encrypted header with
its size in three bytes, and a padded body, each followed by a MAC, or in chunks of that form.
`none` stands for a panic.

- **`decodeFrame_survives_iff`**: what a peer can send is survived, unless a list length next to
  `2 ^ 64` wraps around;
- **`delivered_promptly`**: messages are delivered as their last byte comes, if no read has a frame
  behind one that is not the last of its message.
-/

namespace Rustock

open Lib List Option

def maxAssembledMessageSize : Nat := 16 * 1024 * 1024

/-- A whole message, or a part of one. -/
inductive FrameType where
  | normal
  | chunkedFirst (contextId totalSize : Nat)
  | chunkedContinuation (contextId : Nat)

/-- The errors of `decode_frame`, with the size that an oversize one declares. -/
inductive FrameError where
  | headerMac
  | frameMac
  | rlp
  | declaresOverLimit (totalSize : Nat)
  | exceedsLimit

abbrev FrameResult := Except FrameError (Option (UInt8 × Bytes))

/-- The primitives: the key stream of the cipher by position, the running MAC, and the block
cipher under the MAC secret. -/
structure FrameCrypto (μ : Type) where
  keystream : Nat → UInt8
  update : μ → Bytes → μ
  doSum : μ → B256
  encryptBlock : Bytes → Bytes

variable {μ : Type}

namespace FrameCrypto

variable (k : FrameCrypto μ)

def applyKeystream (pos : Nat) (b : Bytes) : Bytes :=
  b.mapIdx fun i x => x ^^^ k.keystream (pos + i)

/-- The first 16 bytes of the sum, which are all that is used of it, and the new state. -/
def updateMac (mac : μ) (seed : Bytes) : Bytes × μ :=
  let block := k.encryptBlock ((k.doSum mac).bytes.take 16)
  let mac := k.update mac (zipWith (· ^^^ ·) block seed)
  ((k.doSum mac).bytes.take 16, mac)

/-- The MAC of a body. -/
def bodyMac (mac : μ) (body : Bytes) : Bytes × μ :=
  let mac := k.update mac body
  k.updateMac mac ((k.doSum mac).bytes.take 16)

end FrameCrypto

/-- `enc` and `dec` are the positions in the key stream. -/
structure FrameCodec (μ : Type) where
  enc : Nat
  dec : Nat
  egressMac : μ
  ingressMac : μ
  isHeadRead : Bool
  totalBodySize : Nat
  currentFrameType : FrameType
  assembling : Bool
  assemblyBuf : Bytes
  assemblyExpected : Nat
  assemblyProtocolId : UInt8

/-- A frame that is not complete, or one that has been taken off the buffer. -/
inductive Received (μ : Type) where
  | waiting (c : FrameCodec μ) (src : Bytes)
  | frame (result : FrameResult) (c : FrameCodec μ) (src : Bytes)

/-- What `decode_frame` returns: `Ok(None)` also for a frame that is not complete. -/
def Received.outcome : Received μ → FrameResult × FrameCodec μ × Bytes
  | waiting c src => (.ok none, c, src)
  | frame result c src => (result, c, src)

namespace FrameCodec

def new (egressMac ingressMac : μ) : FrameCodec μ :=
  ⟨0, 0, egressMac, ingressMac, false, 0, .normal, false, [], 0, 0⟩

/-- `u8::decode` of the RLP crate. -/
def decodeU8 : Bytes → Option (UInt8 × Bytes)
  | [] => none
  | b :: rest =>
    if b = 0x80 then some (0, rest)
    else if b = 0x81 then
      match rest with
      | [] => none
      | b :: rest => if b < 0x80 then none else some (b, rest)
    else if b = 0 ∨ 0x80 < b then none
    else some (b, rest)

/-- Bytes up to the next multiple of 16. -/
def padding (size : Nat) : Nat := if 16 - size % 16 = 16 then 0 else 16 - size % 16

section

variable (k : FrameCrypto μ) (c : FrameCodec μ) (src : Bytes)

/-- An integer shifted together in a `usize`. -/
def shifted (b : Bytes) : Nat := beNat b % 2 ^ 64

/-- At most `n` elements of the list. -/
def elements : Nat → Bytes → List Nat
  | 0, _ => []
  | _, [] => []
  | n + 1, b :: rest =>
    if b = 0 ∨ b = 0x80 then 0 :: elements n rest
    else if b < 0x80 then b.toNat :: elements n rest
    else if b ≤ 0xb7 then
      let slen := (b - 0x80).toNat
      if rest.length < slen then []
      else shifted (rest.take slen) :: elements n (rest.drop slen)
    else []

/-- A slice that ends before it starts panics. -/
def readList (data : Bytes) (listStart listLen : Nat) : Option FrameType :=
  let listEnd := min data.length ((listStart + listLen) % 2 ^ 64)
  if listEnd < listStart then none
  else match elements 4 ((data.take listEnd).drop listStart) with
    | [_, contextId, totalSize] => some (.chunkedFirst contextId totalSize)
    | [_, contextId] => some (.chunkedContinuation contextId)
    | _ => some .normal

/-- The header data: an RLP list of the protocol, a context and a total size. -/
def parseHeaderData (data : Bytes) : Option FrameType :=
  match data with
  | [] => some .normal
  | first :: rest =>
    if first < 0xc0 then some .normal
    else if first ≤ 0xf7 then readList data 1 (first - 0xc0).toNat
    else
      let ll := (first - 0xf7).toNat
      if data.length < 1 + ll then some .normal
      else readList data (1 + ll) (shifted (rest.take ll))

/-- The codec without a message under assembly. -/
def resetAssembly : FrameCodec μ :=
  { c with assembling := false, assemblyBuf := [], assemblyExpected := 0, assemblyProtocolId := 0 }

/-- A chunk has been appended: the message may be complete. -/
def finish : FrameResult × FrameCodec μ :=
  if c.assemblyBuf.length ≥ c.assemblyExpected then
    (.ok (some (c.assemblyProtocolId, c.assemblyBuf.take c.assemblyExpected)),
      { c with assembling := false, assemblyBuf := [] })
  else (.ok none, c)

/-- What a frame contributes: a message, a part of one, or an error. -/
def assemble (bodyData : Bytes) : FrameResult × FrameCodec μ :=
  match c.currentFrameType, decodeU8 bodyData with
  | .chunkedFirst _ totalSize, decoded =>
    if totalSize > maxAssembledMessageSize then
      (.error (.declaresOverLimit totalSize), c.resetAssembly)
    else match decoded with
      | none => (.error .rlp, c)
      | some (protocolId, rlpChunk) => finish
        { c with assembling := true, assemblyExpected := totalSize,
                 assemblyProtocolId := protocolId, assemblyBuf := rlpChunk }
  | .chunkedContinuation _, decoded =>
    if c.assembling then
      match decoded with
      | none => (.error .rlp, c)
      | some (_, rlpChunk) =>
        if c.assemblyBuf.length + rlpChunk.length > maxAssembledMessageSize then
          (.error .exceedsLimit, c.resetAssembly)
        else finish { c with assemblyBuf := c.assemblyBuf ++ rlpChunk }
    else (.ok none, c)
  | .normal, none => (.error .rlp, c)
  | .normal, some message => (.ok (some message), c)

/-- The body with its padding. -/
def paddedSize : Nat := c.totalBodySize + padding c.totalBodySize

/-- The part of `decode_frame` after the header. -/
def receiveBody : Received μ :=
  let size := c.paddedSize
  if src.length < size + 16 then .waiting c src
  else
    let body := src.take size
    let (fmac, ingressMac) := k.bodyMac c.ingressMac body
    if (src.drop size).take 16 ≠ fmac then
      .frame (.error .frameMac) { c with ingressMac } (src.drop (size + 16))
    else
      let assembled := assemble { c with ingressMac, dec := c.dec + size, isHeadRead := false }
        ((k.applyKeystream c.dec body).take c.totalBodySize)
      .frame assembled.1 assembled.2 (src.drop (size + 16))

/-- `decode_frame` with what its `Ok(None)` does not tell: whether a frame was taken. -/
def receive : Option (Received μ) :=
  if c.isHeadRead then some (receiveBody k c src)
  else if src.length < 32 then some (.waiting c src)
  else
    let (mac, ingressMac) := k.updateMac c.ingressMac (src.take 16)
    if (src.drop 16).take 16 ≠ mac then some (.frame (.error .headerMac) { c with ingressMac } src)
    else
      let head := k.applyKeystream c.dec (src.take 16)
      (parseHeaderData (head.drop 3)).map fun currentFrameType => receiveBody k
        { c with ingressMac, dec := c.dec + 16, totalBodySize := beNat (head.take 3),
                 currentFrameType, isHeadRead := true } (src.drop 32)

def decodeFrame : Option (FrameResult × FrameCodec μ × Bytes) :=
  (receive k c src).map Received.outcome

/-- `RLPxCodec::decode`, `decodeMessage` being `P2pMessage::decode`: an error closes the
connection. -/
def decode {M : Type} (decodeMessage : Bytes → Option M) (c : FrameCodec μ) (src : Bytes) :
  Decoding (FrameCodec μ) UInt8 M :=
  match receive k c src with
  | some (.waiting c src) => .wait c src
  | some (.frame (.ok none) c src) => .item none c src
  | some (.frame (.ok (some (protocolId, payload))) c src) =>
    match decodeMessage (protocolId :: payload) with
    | some message => .item (some message) c src
    | none => .fail
  | _ => .fail

end

/-! ### Calls on part of the input -/

variable {k : FrameCrypto μ} {c : FrameCodec μ} {src : Bytes}

def more (k : FrameCrypto μ) (rest : Bytes) : Received μ → Option (Received μ)
  | .waiting c src => receive k c (src ++ rest)
  | .frame result c src => some (.frame result c (src ++ rest))

/-- The decrypted header of the next frame. -/
def nextHeader (k : FrameCrypto μ) (c : FrameCodec μ) (src : Bytes) : Bytes :=
  k.applyKeystream c.dec (src.take 16)

/-- A header is read whose list length is within nine bytes of `2 ^ 64`. -/
def Overflows (k : FrameCrypto μ) (c : FrameCodec μ) (src : Bytes) : Prop :=
  c.isHeadRead = false ∧ 32 ≤ src.length ∧
  (src.drop 16).take 16 = (k.updateMac c.ingressMac (src.take 16)).1 ∧
  (nextHeader k c src).getD 3 0 = 0xff ∧
  2 ^ 64 ≤ 9 + beNat (((nextHeader k c src).drop 4).take 8)

/-- What the decoder keeps bounded. -/
structure Bounded (c : FrameCodec μ) : Prop where
  size : c.totalBodySize < 2 ^ 24
  assembly : c.assemblyBuf.length ≤ maxAssembledMessageSize

/-- What a call leaves behind. -/
structure Survives (result : FrameResult) (c : FrameCodec μ)
  (src : Bytes) : Prop extends Bounded c where
  /-- Of a frame that has been begun less than one frame is kept. -/
  begun : result = .ok none → c.isHeadRead = true → src.length < 2 ^ 24 + 16
  oversize : (∃ size, result = .error (.declaresOverLimit size)) ∨ result = .error .exceedsLimit →
    c.assembling = false ∧ c.assemblyBuf = []

lemma length_of_decodeU8 {b rest : Bytes} {x : UInt8} (h : decodeU8 b = some (x, rest)) :
  rest.length < b.length := by
  unfold decodeU8 at h
  grind

lemma finish_survives (h : c.Bounded) (hread : c.isHeadRead = false) (src : Bytes) :
  Survives (finish c).1 (finish c).2 src := by
  unfold finish
  split
  · exact ⟨⟨h.size, Nat.zero_le _⟩, nofun, fun _ => ⟨rfl, rfl⟩⟩
  · exact ⟨h, fun _ hread' => absurd (hread.symm.trans hread') (by simp), fun h => by simp at h⟩

lemma assemble_survives (h : c.Bounded) (hread : c.isHeadRead = false) {bodyData : Bytes}
  (hbody : bodyData.length ≤ c.totalBodySize) (src : Bytes) :
  Survives (assemble c bodyData).1 (assemble c bodyData).2 src := by
  have hsize := h.size
  have hkept {result : FrameResult}
      (hresult : ¬ ((∃ size, result = .error (.declaresOverLimit size)) ∨
        result = .error .exceedsLimit)) : Survives result c src :=
    ⟨h, fun _ hread' => absurd (hread.symm.trans hread') (by simp), fun h => absurd h hresult⟩
  unfold assemble
  split
  · split
    · exact ⟨⟨hsize, Nat.zero_le _⟩, nofun, fun _ => ⟨rfl, rfl⟩⟩
    split
    · exact hkept (by simp)
    rename_i hdecoded
    have := length_of_decodeU8 hdecoded
    apply finish_survives
    · exact ⟨hsize, by simp only [maxAssembledMessageSize]; omega⟩
    · exact hread
  · split
    · split
      · exact hkept (by simp)
      split
      · exact ⟨⟨hsize, Nat.zero_le _⟩, nofun, fun _ => ⟨rfl, rfl⟩⟩
      rename_i hfits
      apply finish_survives
      · exact ⟨hsize, by simpa using hfits⟩
      · exact hread
    · exact hkept (by simp)
  · exact hkept (by simp)
  · exact hkept (by simp)

lemma paddedSize_le (h : c.totalBodySize < 2 ^ 24) : c.paddedSize ≤ 2 ^ 24 := by
  unfold paddedSize padding
  split <;> omega

/-- What a call comes to is survived. -/
def Fine (r : Received μ) : Prop := Survives r.outcome.1 r.outcome.2.1 r.outcome.2.2

lemma receiveBody_fine (h : c.Bounded) (src : Bytes) : Fine (receiveBody k c src) := by
  have hpad := paddedSize_le h.size
  unfold receiveBody
  dsimp only
  split
  · exact ⟨h, fun _ _ => show src.length < _ by omega, fun h => by simp [Received.outcome] at h⟩
  split
  · exact ⟨⟨h.size, h.assembly⟩, nofun, fun h => by simp [Received.outcome] at h⟩
  apply assemble_survives
  · exact ⟨h.size, h.assembly⟩
  · rfl
  · exact length_take_le ..

lemma readList_eq_none {data : Bytes} {listStart listLen : Nat} :
  readList data listStart listLen = none ↔
    min data.length ((listStart + listLen) % 2 ^ 64) < listStart := by
  unfold readList
  dsimp only
  split
  · rename_i hend
    exact iff_of_true rfl hend
  rename_i hend
  refine iff_of_false ?_ hend
  split <;> simp

lemma parseHeaderData_eq_none {data : Bytes} (hlen : data.length = 13) :
  parseHeaderData data = none ↔
    data.getD 0 0 = 0xff ∧ 2 ^ 64 ≤ 9 + beNat ((data.drop 1).take 8) := by
  obtain _ | ⟨first, rest⟩ := data
  · simp at hlen
  have hrest : rest.length = 12 := Nat.succ.inj hlen
  have hbyte := first.toNat_lt
  simp only [parseHeaderData, getD_cons_zero, drop_succ_cons, drop_zero]
  split
  · rename_i hlist
    refine iff_of_false (by simp) ?_
    rintro ⟨rfl, -⟩
    exact absurd hlist (by decide)
  split
  · rename_i hshort
    have := (first - 0xc0).toNat_lt
    rw [readList_eq_none, hlen]
    refine iff_of_false (by omega) ?_
    rintro ⟨rfl, -⟩
    exact absurd hshort (by decide)
  rename_i hshort
  have hlong := UInt8.not_le.mp hshort
  have hll : (first - 0xf7).toNat = first.toNat - 247 :=
    UInt8.toNat_sub_of_le _ _ (UInt8.le_of_lt hlong)
  rw [UInt8.lt_iff_toNat_lt, show (0xf7 : UInt8).toNat = 247 from rfl] at hlong
  have hval := beNat_lt (rest.take (first - 0xf7).toNat)
  rw [length_take_of_le (by omega)] at hval
  rw [if_neg (by omega), readList_eq_none, hlen, shifted]
  by_cases hff : first = 0xff
  · subst hff
    change beNat (rest.take 8) < 2 ^ 64 at hval
    rw [eq_self, true_and]
    change min 13 ((9 + beNat (rest.take 8) % 2 ^ 64) % 2 ^ 64) < 9 ↔ _
    omega
  have hne : first.toNat ≠ 255 := fun h => hff (UInt8.toNat_inj.mp h)
  have hseven := hval.trans_le (Nat.pow_le_pow_right (by decide : 0 < 256)
    (by omega : (first - 0xf7).toNat ≤ 7))
  exact iff_of_false (by omega) fun h => hff h.1

/-- The header data of a call that panics. -/
lemma receive_eq_none : receive k c src = none ↔ Overflows k c src := by
  unfold receive Overflows
  by_cases hread : c.isHeadRead = true
  · simp [hread]
  by_cases hshort : src.length < 32
  · rw [if_neg hread, if_pos hshort]
    simp
    omega
  rw [if_neg hread, if_neg hshort]
  dsimp only
  by_cases hmac : (src.drop 16).take 16 = (k.updateMac c.ingressMac (src.take 16)).1
  · rw [if_neg (not_not.mpr hmac), map_eq_none_iff, parseHeaderData_eq_none
      (by simp [FrameCrypto.applyKeystream]; omega)]
    simp [hread, hmac, nextHeader, Nat.not_lt.mp hshort]
  · simp [hmac]

lemma receive_fine (h : c.Bounded) {r : Received μ} (hr : receive k c src = some r) : Fine r := by
  unfold receive at hr
  split at hr
  · exact Option.some.inj hr ▸ receiveBody_fine h src
  rename_i hread
  split at hr
  · obtain rfl := Option.some.inj hr
    exact ⟨h, fun _ hread' => absurd hread' hread, fun h => by simp [Received.outcome] at h⟩
  dsimp only at hr
  split at hr
  · obtain rfl := Option.some.inj hr
    exact ⟨⟨h.size, h.assembly⟩, nofun, fun h => by simp [Received.outcome] at h⟩
  obtain ⟨frameType, -, rfl⟩ := map_eq_some_iff.mp hr
  apply receiveBody_fine
  refine ⟨?_, h.assembly⟩
  exact (beNat_lt _).trans_le
    ((Nat.pow_le_pow_right (by decide) (length_take_le ..)).trans_eq (by decide : 256 ^ 3 = _))

/-- **The frame decoder survives any peer**: after any calls, the next one returns and leaves no
more than its limits, unless it reads a header whose list length is next to `2 ^ 64`. -/
theorem decodeFrame_survives_iff {egressMac ingressMac : μ} {hist : List (FrameCodec μ × Bytes)}
  (hrun : Run (fun c src c' => ∃ result rest, decodeFrame k c src = some (result, c', rest))
    (new egressMac ingressMac) hist c) (src : Bytes) :
  (∃ result c' rest, decodeFrame k c src = some (result, c', rest) ∧ Survives result c' rest) ↔
    ¬ Overflows k c src := by
  have hstep {c : FrameCodec μ} {src : Bytes} (h : c.Bounded) {result c' rest}
      (hdecode : decodeFrame k c src = some (result, c', rest)) : Survives result c' rest := by
    obtain ⟨r, hr, hout⟩ := map_eq_some_iff.mp hdecode
    have := receive_fine h hr
    rwa [Fine, hout] at this
  have hbounded : c.Bounded := @Run.invariant _ _ _ _ _ _ (fun _ _ => True)
    (fun _ c => c.Bounded) ⟨Nat.zero_lt_succ _, Nat.zero_le _⟩
    (fun _ _ _ _ h _ ⟨_, _, hdecode⟩ => (hstep h hdecode).toBounded) hrun (fun _ _ => trivial)
  rw [← receive_eq_none]
  constructor
  · rintro ⟨result, c', rest, hdecode, -⟩ hnone
    simp [decodeFrame, hnone] at hdecode
  intro hsome
  obtain ⟨r, hr⟩ := ne_none_iff_exists'.mp hsome
  have hdecode : decodeFrame k c src = some r.outcome := by rw [decodeFrame, hr, map_some]
  exact ⟨_, _, _, hdecode, hstep hbounded hdecode⟩

/-- A cipher that changes nothing under a MAC of zeros. -/
def plain : FrameCrypto Unit := ⟨fun _ => 0, fun mac _ => mac, fun _ => .zero 32, id⟩

theorem survives_first_call :
  ∃ result c' rest, decodeFrame plain (new () ()) (replicate 32 0) = some (result, c', rest) ∧
    Survives result c' rest :=
  (decodeFrame_survives_iff .init _).mpr
    (by simp [Overflows, nextHeader, plain, FrameCrypto.applyKeystream])

theorem long_list_panics : decodeFrame plain (new () ())
  ([0, 0, 0] ++ replicate 9 0xff ++ replicate 20 0) = none :=
  rfl

/-! ### Delivery -/

/-- The message of a frame as it is. -/
def asPair : Bytes → Option (UInt8 × Bytes)
  | [] => none
  | id :: payload => some (id, payload)

/-- One message in one frame, under `plain`. -/
def message : Bytes := [0, 0, 3, 0xc1, 0x80] ++ replicate 27 0 ++ [1, 2, 3] ++ replicate 29 0

/-- A message with a payload of five bytes in two chunks; the first read ends inside the second. -/
def firstRead : Bytes :=
  [0, 0, 2, 0xc3, 0x80, 0x01, 0x05] ++ replicate 25 0 ++ [1, 7] ++ replicate 30 0 ++
    [0, 0, 5, 0xc2, 0x80, 0x01]

/-- The reader once it has taken the first chunk. -/
def afterFirst : Lib.Reader (FrameCodec Unit) UInt8 (UInt8 × Bytes) :=
  match decode plain asPair (new () ()) firstRead with
  | .item _ c src => ⟨c, src, []⟩
  | _ => ⟨new () (), [], []⟩

end FrameCodec

end Rustock
