import Rustock.Lib.CompactSize
import Mathlib

/-!
# Script chunks

The chunks of a Bitcoin script and what the bridge reads from a redeem script
(crates/execution/src/bridge/release_tx.rs).
-/

namespace Rustock

open Lib List Option UInt8

inductive Chunk where
  | opZero
  | data (bytes : Bytes)
  | op (code : UInt8)
deriving DecidableEq

/-- Every chunk takes a byte, so the length bounds the steps. -/
def parseChunksFrom : Nat → Bytes → Option (List Chunk)
  | _, [] => some []
  | 0, _ :: _ => none
  | fuel + 1, opcode :: rest =>
    let push (n : Nat) (rest : Bytes) : Option (List Chunk) := do
      let (bytes, rest) ← takeExact n rest
      let chunks ← parseChunksFrom fuel rest
      return .data bytes :: chunks
    if opcode = 0 then (parseChunksFrom fuel rest).map (.opZero :: ·)
    else if opcode ≤ 0x4b then push opcode.toNat rest
    else if opcode = 0x4c then do
      let (length, rest) ← takeExact 1 rest
      push (leNat length) rest
    else if opcode = 0x4d then do
      let (length, rest) ← takeExact 2 rest
      push (leNat length) rest
    else if opcode = 0x4e then do
      let (length, rest) ← takeExact 4 rest
      push (leNat length) rest
    else (parseChunksFrom fuel rest).map (.op opcode :: ·)

def parseChunks (script : Bytes) : Option (List Chunk) := parseChunksFrom script.length script

def pushData (bytes : Bytes) : Bytes :=
  if bytes.length = 0 then [0]
  else if bytes.length ≤ 0x4b then ofNat bytes.length :: bytes
  else if bytes.length ≤ 0xff then 0x4c :: ofNat bytes.length :: bytes
  else 0x4d :: (leBytes 2 bytes.length ++ bytes)

def Chunk.toBytes : Chunk → Bytes
  | .opZero => [0]
  | .data bytes => pushData bytes
  | .op code => [code]

def chunksToScript (chunks : List Chunk) : Bytes := chunks.flatMap Chunk.toBytes

def Chunk.Plain : Chunk → Prop
  | .opZero => True
  | .data bytes => 0 < bytes.length ∧ bytes.length ≤ 0xffff
  | .op code => 0x4e < code

lemma toBytes_ne_nil (c : Chunk) : 0 < c.toBytes.length := by
  cases c with
  | opZero | op => simp [Chunk.toBytes]
  | data bytes =>
    simp only [Chunk.toBytes, pushData]
    split_ifs <;> simp

variable {chunks : List Chunk}

lemma parseChunksFrom_push {fuel : Nat} {bytes rest : Bytes} (hplain : (Chunk.data bytes).Plain)
  (hrest : parseChunksFrom fuel rest = some chunks) :
  parseChunksFrom (fuel + 1) (pushData bytes ++ rest) = some (.data bytes :: chunks) := by
  obtain ⟨hpos, hmax⟩ := hplain
  have htake : takeExact bytes.length (bytes ++ rest) = some (bytes, rest) :=
    takeExact_append rfl rest
  unfold pushData
  split_ifs with h0 h1 h2
  · omega
  · have hn : (ofNat bytes.length).toNat = bytes.length := by
      rw [toNat_ofNat']
      omega
    have hzero : ofNat bytes.length ≠ 0 := by
      intro h
      rw [h] at hn
      have : (0 : UInt8).toNat = 0 := rfl
      omega
    have hle : ofNat bytes.length ≤ 0x4b := by
      rw [le_iff_toNat_le, hn]
      exact h1
    simp only [cons_append, parseChunksFrom, if_neg hzero, if_pos hle, hn, htake,
      bind_eq_bind, bind_some, hrest]
    rfl
  · have hn : leNat [ofNat bytes.length] = bytes.length := by
      simp only [leNat, toNat_ofNat']
      omega
    have hone (r : Bytes) : takeExact 1 (ofNat bytes.length :: r) =
        some ([ofNat bytes.length], r) := by simp [takeExact]
    have hcode : ¬(0x4c : UInt8) = 0 ∧ ¬(0x4c : UInt8) ≤ 0x4b := by decide
    simp only [cons_append, parseChunksFrom, if_neg hcode.1, if_neg hcode.2, if_true, hone,
      bind_eq_bind, bind_some, hn, htake, hrest]
    rfl
  have hn : leNat (leBytes 2 bytes.length) = bytes.length := by
    rw [leNat_leBytes, Nat.mod_eq_of_lt (by omega)]
  have htwo (r : Bytes) : takeExact 2 (leBytes 2 bytes.length ++ r) =
      some (leBytes 2 bytes.length, r) := takeExact_append (by simp) r
  have hcode : ¬(0x4d : UInt8) = 0 ∧ ¬(0x4d : UInt8) ≤ 0x4b ∧ ¬(0x4d : UInt8) = 0x4c := by decide
  simp only [cons_append, append_assoc, parseChunksFrom, if_neg hcode.1,
    if_neg hcode.2.1, if_neg hcode.2.2, if_true, htwo, bind_eq_bind, bind_some, hn, htake, hrest]
  rfl

lemma parseChunksFrom_chunksToScript : ∀ (chunks : List Chunk) (fuel : Nat),
  (∀ c ∈ chunks, c.Plain) → (chunksToScript chunks).length ≤ fuel →
  parseChunksFrom fuel (chunksToScript chunks) = some chunks := by
  intro chunks
  induction chunks with
  | nil => exact fun fuel _ _ => by simp [chunksToScript, parseChunksFrom]
  | cons c chunks ih =>
    intro fuel hplain hlen
    have hpos := toBytes_ne_nil c
    have hsplit : chunksToScript (c :: chunks) = c.toBytes ++ chunksToScript chunks := rfl
    rw [hsplit, length_append] at hlen
    obtain ⟨fuel, rfl⟩ : ∃ n, fuel = n + 1 := ⟨fuel - 1, by omega⟩
    have hrest := ih fuel (fun c hc => hplain c (mem_cons_of_mem _ hc)) (by omega)
    have hc := hplain c mem_cons_self
    rw [hsplit]
    cases c with
    | opZero => simp [Chunk.toBytes, parseChunksFrom, hrest]
    | data bytes => exact parseChunksFrom_push hc hrest
    | op code =>
      have hlt : (0x4e : UInt8).toNat < code.toNat := lt_iff_toNat_lt.mp hc
      have hne (x : UInt8) (hx : x.toNat ≤ 0x4e) : ¬code = x := by
        rintro rfl
        have : (0x4e : UInt8).toNat = 0x4e := rfl
        omega
      have hgt : ¬code ≤ 0x4b := by
        intro hle
        have := le_iff_toNat_le.mp hle
        have h1 : (0x4e : UInt8).toNat = 0x4e := rfl
        have h2 : (0x4b : UInt8).toNat = 0x4b := rfl
        omega
      simp only [Chunk.toBytes, cons_append, nil_append, parseChunksFrom,
        if_neg (hne 0 (by decide)), if_neg hgt, if_neg (hne 0x4c (by decide)),
        if_neg (hne 0x4d (by decide)), if_neg (hne 0x4e (by decide)), hrest, map_some]

/-- **Scripts of plain chunks read back.** -/
theorem parseChunks_chunksToScript (h : ∀ c ∈ chunks, c.Plain) :
  parseChunks (chunksToScript chunks) = some chunks :=
  parseChunksFrom_chunksToScript chunks _ h le_rfl

variable (redeem : Bytes)

def isErpRedeem : Bool :=
  match parseChunks redeem with
  | none => false
  | some chunks =>
    let inner := match chunks with
      | .data bytes :: .op 0x75 :: rest => if bytes.length = 32 then rest else chunks
      | _ => chunks
    inner.head? = some (.op 0x64)

/-- The keys before `OP_ELSE`. -/
def spendingRedeemKeys : List Bytes :=
  match parseChunks redeem with
  | none => []
  | some chunks => (chunks.takeWhile (· ≠ .op 0x67)).filterMap fun
    | .data bytes => if bytes.length = 33 then some bytes else none
    | _ => none

def inputRedeemIsErp (chunks : List Chunk) : Bool :=
  (chunks.reverse.findSome? fun
    | .data bytes => some (isErpRedeem bytes)
    | _ => none).getD false

/-- The first `OP_1` to `OP_16`. -/
def redeemScriptThreshold : Nat :=
  (((parseChunks redeem).getD []).findSome? fun
    | .op code => if 0x51 ≤ code ∧ code ≤ 0x60 then some (code - 0x50).toNat else none
    | _ => none).getD 0

def extractRedeemScript (scriptSig : Bytes) : Option Bytes :=
  match (parseChunks scriptSig).bind (·.getLast?) with
  | some (.data bytes) => some bytes
  | _ => none

end Rustock
