import Rustock.Bridge.Federation

/-!
# Votes on the federation and on the fee

The elections of Bridge governance (crates/execution/src/bridge/vote.rs,
governance.rs). An election is a list of calls with their voters, searched for
any winner after each vote.

The cell of an election is modelled by the entries it decodes to, in the order in which they are
stored. What a federation change does is a parameter; `FedParams.executeFederationChange` is one.
-/

set_option linter.unusedSectionVars false

namespace Rustock

open Lib List Option Function
open Function (update)

structure Election (α : Type) where
  entries : List (α × List Address)

namespace Election

variable {α : Type} [DecidableEq α]

def empty : Election α := ⟨[]⟩

/-- vote.rs:136–151 on the entries: `none` if the voter already voted for this call. -/
def castIn (spec : α) (voter : Address) : List (α × List Address) → Option (List (α × List Address))
  | [] => some [(spec, [voter])]
  | (s, voters) :: rest =>
    if s = spec then
      if voter ∈ voters then none else some ((s, voters ++ [voter]) :: rest)
    else (castIn spec voter rest).map ((s, voters) :: ·)

def vote (e : Election α) (spec : α) (voter : Address) : Option (Election α) :=
  (castIn spec voter e.entries).map (⟨·⟩)

def winner (e : Election α) (required : Nat) : Option Nat :=
  e.entries.findIdx? fun entry => required ≤ entry.2.length

def remove (e : Election α) (index : Nat) : Election α := ⟨e.entries.eraseIdx index⟩

def voters (e : Election α) (spec : α) : List Address :=
  ((e.entries.find? fun entry => entry.1 = spec).map (·.2)).getD []

/-- Bytes as signed numbers, lexicographically. -/
def signedBytesLe : Bytes → Bytes → Bool
  | [], _ => true
  | _ :: _, [] => false
  | a :: as, b :: bs =>
    if a.toInt8 < b.toInt8 then true
    else if b.toInt8 < a.toInt8 then false else signedBytesLe as bs

def addressLe (a b : Address) : Bool := beNat a.bytes ≤ beNat b.bytes

/-- What `load` returns after `store`: calls by their encoding, voters by address. -/
def stored (encoded : α → Bytes) (e : Election α) : Election α :=
  ⟨(e.entries.insertionSort fun x y => signedBytesLe (encoded x.1) (encoded y.1) = true).map
    fun entry => (entry.1, entry.2.insertionSort fun a b => addressLe a b = true)⟩

structure Counts (e : Election α) (ballots : α → Finset Address) : Prop where
  nodup : (e.entries.map (·.1)).Nodup
  entry : ∀ x ∈ e.entries, x.2.Nodup ∧ x.2.toFinset = ballots x.1
  absent : ∀ spec, spec ∉ e.entries.map (·.1) → ballots spec = ∅

variable {e e' : Election α} {ballots : α → Finset Address} {spec : α} {voter : Address}

lemma counts_empty : Counts (empty : Election α) fun _ => ∅ :=
  ⟨nodup_nil, fun _ hx => absurd hx not_mem_nil, fun _ _ => rfl⟩

lemma Counts.voters (h : Counts e ballots) (spec : α) :
  (e.voters spec).toFinset = ballots spec := by
  unfold Election.voters
  cases hfind : e.entries.find? fun entry => entry.1 = spec with
  | none =>
    refine (h.absent spec fun hmem => ?_).symm
    obtain ⟨x, hx, rfl⟩ := List.mem_map.mp hmem
    simpa using find?_eq_none.mp hfind x hx
  | some x =>
    obtain rfl : x.1 = spec := by simpa using find?_some hfind
    exact (h.entry x (mem_of_find?_eq_some hfind)).2

variable {x : α × List Address}

lemma Counts.length (h : Counts e ballots) (hx : x ∈ e.entries) :
  x.2.length = (ballots x.1).card := by
  rw [← (h.entry x hx).2, toFinset_card_of_nodup (h.entry x hx).1]

lemma Counts.length_voters (h : Counts e ballots) (spec : α) :
  (e.voters spec).length = (ballots spec).card := by
  have hnodup : (e.voters spec).Nodup := by
    unfold Election.voters
    cases hfind : e.entries.find? fun entry => entry.1 = spec with
    | none => exact nodup_nil
    | some x => exact (h.entry x (mem_of_find?_eq_some hfind)).1
  rw [← h.voters spec, toFinset_card_of_nodup hnodup]

lemma castIn_spec {entries : List (α × List Address)} : match castIn spec voter entries with
  | none => ∃ x ∈ entries, x.1 = spec ∧ voter ∈ x.2
  | some entries' =>
    (∃ before x after, entries = before ++ x :: after ∧ x.1 = spec ∧ voter ∉ x.2 ∧
      (∀ y ∈ before, y.1 ≠ spec) ∧ entries' = before ++ (spec, x.2 ++ [voter]) :: after) ∨
    (spec ∉ entries.map (·.1) ∧ entries' = entries ++ [(spec, [voter])]) := by
  induction entries with
  | nil => exact .inr ⟨not_mem_nil, rfl⟩
  | cons entry rest ih =>
    obtain ⟨s, vs⟩ := entry
    simp only [castIn]
    by_cases hs : s = spec
    · rw [if_pos hs]
      by_cases hv : voter ∈ vs
      · rw [if_pos hv]
        exact ⟨(s, vs), mem_cons_self, hs, hv⟩
      rw [if_neg hv]
      refine .inl ⟨[], (s, vs), rest, rfl, hs, hv, fun _ hy => absurd hy not_mem_nil, ?_⟩
      rw [hs]
      rfl
    rw [if_neg hs]
    cases hrest : castIn spec voter rest with
    | none =>
      rw [hrest] at ih
      obtain ⟨x, hx, hspec⟩ := ih
      exact ⟨x, mem_cons_of_mem _ hx, hspec⟩
    | some entries' =>
      rw [hrest] at ih
      rcases ih with ⟨before, x, after, rfl, hx, hv, hbefore, rfl⟩ | ⟨habsent, rfl⟩
      · refine .inl ⟨(s, vs) :: before, x, after, rfl, hx, hv, fun y hy => ?_, rfl⟩
        rcases mem_cons.mp hy with rfl | hy
        · exact hs
        · exact hbefore y hy
      refine .inr ⟨fun hmem => ?_, rfl⟩
      rcases mem_cons.mp hmem with heq | hmem
      · exact hs heq.symm
      · exact habsent hmem

section

variable (h : Counts e ballots)

include h

lemma Counts.vote_eq_none : e.vote spec voter = none ↔ voter ∈ ballots spec := by
  have hspec := @castIn_spec α _ spec voter e.entries
  unfold vote
  cases hcast : castIn spec voter e.entries with
  | none =>
    rw [hcast] at hspec
    obtain ⟨x, hx, rfl, hv⟩ := hspec
    have hmem : voter ∈ ballots x.1 := (h.entry x hx).2 ▸ List.mem_toFinset.mpr hv
    exact ⟨fun _ => hmem, fun _ => rfl⟩
  | some entries' =>
    rw [hcast] at hspec
    have hsome : Option.map (fun entries => (⟨entries⟩ : Election α)) (some entries') ≠ none := by
      simp
    refine ⟨fun hnone => absurd hnone hsome, fun hmem => ?_⟩
    rcases hspec with ⟨before, x, after, heq, rfl, hv, -⟩ | ⟨habsent, -⟩
    · have hx : x ∈ e.entries := by simp [heq]
      rw [← (h.entry x hx).2, List.mem_toFinset] at hmem
      exact absurd hmem hv
    rw [h.absent spec habsent] at hmem
    exact absurd hmem (Finset.notMem_empty _)

/-- **An accepted vote** adds the voter to the ballots of its call. -/
theorem Counts.vote (hvote : e.vote spec voter = some e') :
  Counts e' (update ballots spec (insert voter (ballots spec))) := by
  have hspec := @castIn_spec α _ spec voter e.entries
  obtain ⟨entries', hcast, rfl⟩ := map_eq_some_iff.mp hvote
  rw [hcast] at hspec
  rcases hspec with ⟨before, x, after, heq, rfl, hv, hbefore, rfl⟩ | ⟨habsent, rfl⟩
  · have hx : x ∈ e.entries := by simp [heq]
    have hnodup := h.nodup
    rw [heq, map_append, map_cons] at hnodup
    have hafter : ∀ y ∈ after, y.1 ≠ x.1 := by
      intro y hy hyx
      have := (nodup_cons.mp (nodup_append.mp hnodup).2.1).1
      exact this (hyx ▸ List.mem_map_of_mem hy)
    refine ⟨by simpa using hnodup, fun y hy => ?_, fun s hs => ?_⟩
    · have hcases : (y ∈ e.entries ∧ y.1 ≠ x.1) ∨ y = (x.1, x.2 ++ [voter]) := by
        rcases mem_append.mp hy with hy | hy
        · exact .inl ⟨by simp [heq, hy], hbefore y hy⟩
        rcases mem_cons.mp hy with rfl | hy
        · exact .inr rfl
        · exact .inl ⟨by simp [heq, hy], hafter y hy⟩
      rcases hcases with ⟨hy, hne⟩ | rfl
      · rw [update_of_ne hne]
        exact h.entry y hy
      obtain ⟨hnd, hset⟩ := h.entry x hx
      refine ⟨nodup_append.mpr ⟨hnd, nodup_singleton _, ?_⟩, ?_⟩
      · rintro a ha b hb rfl
        exact hv (mem_singleton.mp hb ▸ ha)
      simp only [update_self, ← hset]
      ext a
      simp
    have hmap : (before ++ (x.1, x.2 ++ [voter]) :: after).map (·.1) = e.entries.map (·.1) := by
      simp [heq]
    have hne : s ≠ x.1 := by
      rintro rfl
      exact hs (by simp)
    rw [update_of_ne hne]
    exact h.absent s (hmap ▸ hs)
  refine ⟨?_, fun y hy => ?_, fun s hs => ?_⟩
  · rw [map_append]
    refine nodup_append.mpr ⟨h.nodup, nodup_singleton _, ?_⟩
    rintro a ha b hb rfl
    obtain rfl : a = spec := mem_singleton.mp hb
    exact habsent ha
  · rcases mem_append.mp hy with hy | hy
    · have hne : y.1 ≠ spec := fun heq => habsent (heq ▸ List.mem_map_of_mem hy)
      rw [update_of_ne hne]
      exact h.entry y hy
    obtain rfl := mem_singleton.mp hy
    simp [h.absent spec habsent]
  have hne : s ≠ spec := by
    rintro rfl
    exact hs (by simp)
  rw [update_of_ne hne]
  refine h.absent s fun hmem => hs ?_
  rw [map_append]
  exact mem_append_left _ hmem

lemma Counts.remove {i : Nat} (hi : e.entries[i]? = some x) :
  Counts (e.remove i) (update ballots x.1 ∅) := by
  obtain ⟨hlt, hget⟩ := List.getElem?_eq_some_iff.mp hi
  have hsplit : e.entries = e.entries.take i ++ x :: e.entries.drop (i + 1) := by
    rw [← hget, cons_getElem_drop_succ, take_append_drop]
  have herase : (e.remove i).entries = e.entries.take i ++ e.entries.drop (i + 1) :=
    eraseIdx_eq_take_drop_succ ..
  have hnodup := h.nodup
  rw [hsplit, map_append, map_cons] at hnodup
  have hnotin : x.1 ∉ (e.remove i).entries.map (·.1) := by
    rw [herase, map_append]
    exact (nodup_middle.mp hnodup |> nodup_cons.mp).1
  have hsub : ∀ y ∈ (e.remove i).entries, y ∈ e.entries := fun y hy =>
    (eraseIdx_sublist ..).subset hy
  refine ⟨?_, fun y hy => ?_, fun s hs => ?_⟩
  · rw [herase, map_append]
    exact (nodup_middle.mp hnodup |> nodup_cons.mp).2
  · have hne : y.1 ≠ x.1 := fun heq => hnotin (heq ▸ List.mem_map_of_mem hy)
    rw [update_of_ne hne]
    exact h.entry y (hsub y hy)
  by_cases hsx : s = x.1
  · rw [hsx, update_self]
  rw [update_of_ne hsx]
  refine h.absent s fun hmem => hs ?_
  rw [hsplit] at hmem
  rw [herase]
  simpa [hsx] using hmem

lemma Counts.stored (encoded : α → Bytes) : Counts (e.stored encoded) ballots := by
  have hperm := perm_insertionSort
    (fun x y : α × List Address => signedBytesLe (encoded x.1) (encoded y.1) = true) e.entries
  have hmap : ((e.stored encoded).entries.map (·.1)).Perm (e.entries.map (·.1)) := by
    rw [Election.stored, List.map_map]
    exact hperm.map _
  refine ⟨hmap.nodup_iff.mpr h.nodup, fun y hy => ?_, fun s hs => ?_⟩
  · obtain ⟨x, hx, rfl⟩ := List.mem_map.mp hy
    obtain ⟨hnd, hset⟩ := h.entry x (hperm.subset hx)
    have hvoters := perm_insertionSort (fun a b : Address => addressLe a b = true) x.2
    exact ⟨hvoters.nodup_iff.mpr hnd, (toFinset_eq_of_perm _ _ hvoters).trans hset⟩
  · exact h.absent s fun hmem => hs (hmap.mem_iff.mpr hmem)

/-- **The winner is the call just voted**: every other call is short of a majority. -/
theorem Counts.winner {required : Nat}
  (hbelow : ∀ s, s ≠ spec → (ballots s).card < required) (hrequired : 0 < required) :
  match e.winner required with
  | none => (ballots spec).card < required
  | some i => required ≤ (ballots spec).card ∧ ∃ x, e.entries[i]? = some x ∧ x.1 = spec := by
  unfold Election.winner
  cases hfind : e.entries.findIdx? fun entry => decide (required ≤ entry.2.length) with
  | none =>
    by_cases hmem : spec ∈ e.entries.map (·.1)
    · obtain ⟨x, hx, rfl⟩ := List.mem_map.mp hmem
      have hx' := findIdx?_eq_none_iff.mp hfind x hx
      rw [← h.length hx]
      simpa using hx'
    · simp [h.absent spec hmem, hrequired]
  | some i =>
    obtain ⟨hlt, hwins, -⟩ := findIdx?_eq_some_iff_getElem.mp hfind
    have hmem : e.entries[i] ∈ e.entries := getElem_mem hlt
    have hwins' : required ≤ (ballots e.entries[i].1).card := by
      rw [← h.length hmem]
      simpa using hwins
    have hspec : e.entries[i].1 = spec := by
      by_contra hne
      exact absurd (hbelow _ hne) (Nat.not_lt.mpr hwins')
    exact ⟨hspec ▸ hwins', e.entries[i], List.getElem?_eq_getElem hlt, hspec⟩

end

end Election

inductive VotedFunction where
  | create
  | add
  | addMulti
  | commit
  | rollback
deriving DecidableEq

namespace VotedFunction

def name : VotedFunction → String
  | create => "create"
  | add => "add"
  | addMulti => "add-multi"
  | commit => "commit"
  | rollback => "rollback"

def endsElection : VotedFunction → Bool
  | create | commit | rollback => true
  | add | addMulti => false

end VotedFunction

structure AbiCallSpec where
  function : VotedFunction
  args : List Bytes
deriving DecidableEq

def ascii (text : String) : Bytes := text.toList.map fun c => UInt8.ofNat c.toNat

def AbiCallSpec.encoded (spec : AbiCallSpec) : Bytes :=
  ascii spec.function.name ++ spec.args.flatten

/-- serialization.rs `rlp_encode_u64`. -/
def encodeCoin (satoshis : Nat) : Bytes := Rlp.nat 8 satoshis

def encodedFee (coin : Bytes) : Bytes := ascii "setFeePerKb" ++ coin

/-- The rest of the Bridge is any type; `β` is what a call sees of its block. -/
structure GovState (σ : Type) where
  rest : σ
  election : Election AbiCallSpec
  feeElection : Election Bytes
  feePerKb : Option Nat

structure GovParams (σ β : Type) where
  federationAuthorizers : List Address
  feeAuthorizers : List Address
  maxFeePerKb : Nat
  /-- `execute_federation_change`: the code, and the state after a call that is not a dry run. A
  dry run makes the same checks and returns the same code. -/
  execute : β → σ → AbiCallSpec → Int × σ

structure VoteOutcome (σ code action : Type) where
  result : code
  state : GovState σ
  executed : Option action

namespace GovParams

variable {σ β : Type} (p : GovParams σ β)

def federationRequired : Nat := p.federationAuthorizers.length / 2 + 1

def feeRequired : Nat := p.feeAuthorizers.length / 2 + 1

def voteFederationChange (s : GovState σ) (block : β) (spec : AbiCallSpec) (sender : Address) :
  VoteOutcome σ Int AbiCallSpec :=
  if sender ∉ p.federationAuthorizers then ⟨-10, s, none⟩
  else
    let dry := (p.execute block s.rest spec).1
    if dry ≠ 1 then ⟨dry, s, none⟩
    else
      match s.election.vote spec sender with
      | none => ⟨-10, s, none⟩
      | some election =>
        match election.winner p.federationRequired with
        | none => ⟨1, { s with election := election.stored AbiCallSpec.encoded }, none⟩
        | some winner =>
          let (code, rest) := p.execute block s.rest spec
          let election :=
            if spec.function.endsElection = true ∧ code = 1 then .empty
            else election.remove winner
          ⟨code, { s with rest := rest, election := election.stored AbiCallSpec.encoded },
            some spec⟩

/-- The fee, or the code of the rule it breaks. -/
def checkFee (args : Bytes) : Except Int Nat :=
  if args.headD 0 &&& 0x80 ≠ 0 then .error (-1)
  else
    let fee := beNat (args.take 32)
    if fee = 0 then .error (-1) else if p.maxFeePerKb < fee then .error (-2) else .ok fee

def voteFeePerKbChange (s : GovState σ) (args : Bytes) (sender : Address) :
  VoteOutcome σ (Except String Int) Nat :=
  if args.length < 32 then ⟨.error "voteFeePerKbChange: args too short", s, none⟩
  else if sender ∉ p.feeAuthorizers then ⟨.ok (-10), s, none⟩
  else
    match p.checkFee args with
    | .error code => ⟨.ok code, s, none⟩
    | .ok fee =>
      match s.feeElection.vote (encodeCoin fee) sender with
      | none => ⟨.ok (-1), s, none⟩
      | some election =>
        if p.feeRequired ≤ (election.voters (encodeCoin fee)).length then
          ⟨.ok 1, { s with feePerKb := some fee, feeElection := .empty }, some fee⟩
        else ⟨.ok 1, { s with feeElection := election.stored encodedFee }, none⟩

def MayVote (s : GovState σ) (block : β) (spec : AbiCallSpec) (sender : Address) : Prop :=
  sender ∈ p.federationAuthorizers ∧ (p.execute block s.rest spec).1 = 1

instance (s : GovState σ) (block : β) (spec : AbiCallSpec) (sender : Address) :
  Decidable (p.MayVote s block spec sender) := by
  unfold MayVote
  infer_instance

def MayVoteFee (args : Bytes) (sender : Address) (fee : Nat) : Prop :=
  32 ≤ args.length ∧ sender ∈ p.feeAuthorizers ∧ p.checkFee args = .ok fee

end GovParams

open GovParams

inductive GovEvent (σ β : Type) where
  | federation (block : β) (spec : AbiCallSpec) (sender : Address)
  | fee (args : Bytes) (sender : Address)
  | elsewhere (rest : σ)

namespace GovState

variable {σ β : Type} (p : GovParams σ β)

def next (s : GovState σ) : GovEvent σ β → GovState σ
  | .federation block spec sender => (p.voteFederationChange s block spec sender).state
  | .fee args sender => (p.voteFeePerKbChange s args sender).state
  | .elsewhere rest => { s with rest := rest }

def Step (s : GovState σ) (e : GovEvent σ β) (s' : GovState σ) : Prop := s' = s.next p e

def votersOf : List (GovState σ × GovEvent σ β) → AbiCallSpec → Finset Address
  | [] => fun _ => ∅
  | (s, .federation block spec sender) :: hist =>
    let before := votersOf hist
    let votes :=
      if p.MayVote s block spec sender then
        update before spec (insert sender (before spec))
      else before
    match (p.voteFederationChange s block spec sender).executed with
    | none => votes
    | some done => if done.function.endsElection then fun _ => ∅ else update votes done ∅
  | (_, .fee _ _) :: hist => votersOf hist
  | (_, .elsewhere _) :: hist => votersOf hist

def feeVotersOf : List (GovState σ × GovEvent σ β) → Bytes → Finset Address
  | [] => fun _ => ∅
  | (s, .fee args sender) :: hist =>
    let before := feeVotersOf hist
    match (p.voteFeePerKbChange s args sender).executed with
    | some _ => fun _ => ∅
    | none =>
      match p.checkFee args with
      | .error _ => before
      | .ok fee =>
        if 32 ≤ args.length ∧ sender ∈ p.feeAuthorizers then
          update before (encodeCoin fee) (insert sender (before (encodeCoin fee)))
        else before
  | (_, .federation _ _ _) :: hist => feeVotersOf hist
  | (_, .elsewhere _) :: hist => feeVotersOf hist

section Call

variable {p} {s : GovState σ}

lemma voteFederationChange_spec {ballots : AbiCallSpec → Finset Address}
  (hcounts : s.election.Counts ballots)
  (hbelow : ∀ spec, (ballots spec).card < p.federationRequired) (block : β)
  (spec : AbiCallSpec) (sender : Address) : let o := p.voteFederationChange s block spec sender
    let votes := update ballots spec (insert sender (ballots spec))
    if p.MayVote s block spec sender ∧ sender ∉ ballots spec then
      if p.federationRequired ≤ (votes spec).card then
        o.executed = some spec ∧ o.state.rest = (p.execute block s.rest spec).2 ∧
          (spec.function.endsElection = true → o.state.election = .empty) ∧
          o.state.election.Counts
            (if spec.function.endsElection then fun _ => ∅ else update votes spec ∅)
      else o.executed = none ∧ o.state.rest = s.rest ∧ o.state.election.Counts votes
    else o.executed = none ∧ o.state = s := by
  intro o votes
  by_cases hauth : sender ∈ p.federationAuthorizers
  case neg =>
    rw [if_neg fun h => hauth h.1.1]
    simp only [o, voteFederationChange, if_pos hauth, and_self]
  by_cases hdry : (p.execute block s.rest spec).1 = 1
  case neg =>
    rw [if_neg fun h => hdry h.1.2]
    simp only [o, voteFederationChange, hauth, not_true_eq_false, if_false, ne_eq, hdry,
      not_false_eq_true, if_true, and_self]
  cases hvote : s.election.vote spec sender with
  | none =>
    rw [if_neg fun h => h.2 (hcounts.vote_eq_none.mp hvote)]
    simp only [o, voteFederationChange, hauth, not_true_eq_false, if_false, ne_eq, hdry,
      hvote, and_self]
  | some election =>
    have hnew : sender ∉ ballots spec := by
      intro hmem
      rw [hcounts.vote_eq_none.mpr hmem] at hvote
      cases hvote
    have hcast : election.Counts votes := hcounts.vote hvote
    have hothers : ∀ other, other ≠ spec → (votes other).card < p.federationRequired := by
      intro other hne
      simp only [votes, update_of_ne hne]
      exact hbelow other
    have hwinner := hcast.winner hothers (Nat.succ_pos _)
    rw [if_pos ⟨⟨hauth, hdry⟩, hnew⟩]
    cases hwin : election.winner p.federationRequired with
    | none =>
      rw [hwin] at hwinner
      rw [if_neg (Nat.not_le.mpr hwinner)]
      simp only [o, voteFederationChange, hauth, not_true_eq_false, if_false, ne_eq,
        hdry, hvote, hwin, true_and]
      exact hcast.stored _
    | some winner =>
      rw [hwin] at hwinner
      obtain ⟨henough, x, hx, rfl⟩ := hwinner
      rw [if_pos henough]
      simp only [o, voteFederationChange, hauth, not_true_eq_false, if_false, ne_eq,
        hdry, hvote, hwin, true_and, and_true]
      cases hends : x.1.function.endsElection with
      | true => exact ⟨fun _ => rfl, Election.counts_empty⟩
      | false =>
        refine ⟨fun h => absurd h Bool.false_ne_true, ?_⟩
        exact (hcast.remove hx).stored _

lemma voteFederationChange_fee (block : β) (spec : AbiCallSpec) (sender : Address) :
  (p.voteFederationChange s block spec sender).state.feeElection = s.feeElection ∧
    (p.voteFederationChange s block spec sender).state.feePerKb = s.feePerKb := by
  unfold voteFederationChange
  split
  · exact ⟨rfl, rfl⟩
  dsimp only
  split
  · exact ⟨rfl, rfl⟩
  cases s.election.vote spec sender with
  | none => exact ⟨rfl, rfl⟩
  | some election =>
    dsimp only
    cases election.winner p.federationRequired <;> exact ⟨rfl, rfl⟩

lemma voteFeePerKbChange_spec {ballots : Bytes → Finset Address}
  (hcounts : s.feeElection.Counts ballots) (args : Bytes) (sender : Address) :
  let o := p.voteFeePerKbChange s args sender
  (∃ fee, p.MayVoteFee args sender fee ∧ sender ∉ ballots (encodeCoin fee) ∧
    let votes := update ballots (encodeCoin fee)
      (insert sender (ballots (encodeCoin fee)))
    if p.feeRequired ≤ (votes (encodeCoin fee)).card then
      o.executed = some fee ∧ o.state = { s with feePerKb := some fee, feeElection := .empty }
    else o.executed = none ∧ o.state.feePerKb = s.feePerKb ∧ o.state.rest = s.rest ∧
      o.state.election = s.election ∧ o.state.feeElection.Counts votes) ∨
  ((∀ fee, p.MayVoteFee args sender fee → sender ∈ ballots (encodeCoin fee)) ∧
    o.executed = none ∧ o.state = s) := by
  intro o
  by_cases hlen : args.length < 32
  case pos =>
    refine .inr ⟨fun fee hfee => absurd hfee.1 (Nat.not_le.mpr hlen), ?_⟩
    simp only [o, voteFeePerKbChange, if_pos hlen, and_self]
  by_cases hauth : sender ∈ p.feeAuthorizers
  case neg =>
    refine .inr ⟨fun fee hfee => absurd hfee.2.1 hauth, ?_⟩
    simp only [o, voteFeePerKbChange, if_neg hlen, if_pos hauth, and_self]
  cases hfee : p.checkFee args with
  | error code =>
    refine .inr ⟨fun fee hmay => ?_, ?_⟩
    · rw [hmay.2.2] at hfee
      cases hfee
    simp only [o, voteFeePerKbChange, if_neg hlen, hauth, not_true_eq_false, if_false,
      hfee, and_self]
  | ok fee =>
    have hsame {fee' : Nat} (hmay : p.MayVoteFee args sender fee') : fee = fee' := by
      have heq := hmay.2.2
      rw [hfee] at heq
      exact Except.ok.inj heq
    cases hvote : s.feeElection.vote (encodeCoin fee) sender with
    | none =>
      refine .inr ⟨fun fee' hmay => ?_, ?_⟩
      · rw [← hsame hmay]
        exact hcounts.vote_eq_none.mp hvote
      simp only [o, voteFeePerKbChange, if_neg hlen, hauth, not_true_eq_false,
        if_false, hfee, hvote, and_self]
    | some election =>
      have hnew : sender ∉ ballots (encodeCoin fee) := by
        intro hmem
        rw [hcounts.vote_eq_none.mpr hmem] at hvote
        cases hvote
      have hcast := hcounts.vote hvote
      refine .inl ⟨fee, ⟨Nat.not_lt.mp hlen, hauth, hfee⟩, hnew, ?_⟩
      simp only [o, voteFeePerKbChange, if_neg hlen, hauth, not_true_eq_false, if_false,
        hfee, hvote, hcast.length_voters (encodeCoin fee)]
      split
      · exact ⟨rfl, rfl⟩
      · exact ⟨rfl, rfl, rfl, rfl, hcast.stored _⟩

end Call

structure Standing (hist : List (GovState σ × GovEvent σ β)) (s : GovState σ) : Prop where
  counts : s.election.Counts (votersOf p hist)
  below : ∀ spec, (votersOf p hist spec).card < p.federationRequired
  feeCounts : s.feeElection.Counts (feeVotersOf p hist)
  feeBelow : ∀ coin, (feeVotersOf p hist coin).card < p.feeRequired

variable {p} {hist : List (GovState σ × GovEvent σ β)} {s s₀ : GovState σ}

lemma Standing.init (hfed : s₀.election = .empty) (hfee : s₀.feeElection = .empty) :
  Standing p [] s₀ where
  counts := hfed ▸ Election.counts_empty
  below := fun _ => Nat.succ_pos _
  feeCounts := hfee ▸ Election.counts_empty
  feeBelow := fun _ => Nat.succ_pos _

lemma card_update_lt {α : Type} [DecidableEq α] {ballots : α → Finset Address} {required : Nat}
  (h : ∀ spec, (ballots spec).card < required) {spec : α} {voters : Finset Address}
  (hv : voters.card < required) (other : α) :
  (update ballots spec voters other).card < required := by
  by_cases heq : other = spec
  · subst heq
    rwa [update_self]
  rw [update_of_ne heq]
  exact h other

/-- **Step lemma**, votes on the federation. -/
theorem Standing.federation (h : Standing p hist s) (block : β) (spec : AbiCallSpec)
  (sender : Address) : Standing p ((s, .federation block spec sender) :: hist)
    (s.next p (.federation block spec sender)) := by
  have hspec := voteFederationChange_spec h.counts h.below block spec sender
  obtain ⟨hfee, -⟩ := @voteFederationChange_fee _ _ p s block spec sender
  have hkeep : (s.next p (.federation block spec sender)).feeElection.Counts
      (feeVotersOf p ((s, .federation block spec sender) :: hist)) := by
    rw [next, hfee]
    exact h.feeCounts
  by_cases hmay : p.MayVote s block spec sender
  · by_cases hnew : sender ∈ votersOf p hist spec
    · -- a repeated vote: the set already has the sender
      rw [if_neg fun hc => hc.2 hnew] at hspec
      have hsame : votersOf p ((s, .federation block spec sender) :: hist) = votersOf p hist := by
        simp only [votersOf, if_pos hmay, hspec.1, Finset.insert_eq_of_mem hnew, update_eq_self]
      exact ⟨by rw [hsame, next, hspec.2]; exact h.counts, fun a => hsame ▸ h.below a, hkeep,
        h.feeBelow⟩
    rw [if_pos ⟨hmay, hnew⟩] at hspec
    split at hspec
    · obtain ⟨hexec, -, -, hcounts⟩ := hspec
      have hvotes : votersOf p ((s, .federation block spec sender) :: hist) =
          if spec.function.endsElection then fun _ => ∅ else
            update (update (votersOf p hist) spec
              (insert sender (votersOf p hist spec))) spec ∅ := by
        simp only [votersOf, if_pos hmay, hexec]
      refine ⟨by rw [hvotes]; exact hcounts, fun a => ?_, hkeep, h.feeBelow⟩
      rw [hvotes]
      split
      · exact Nat.succ_pos _
      have hempty : (∅ : Finset Address).card < p.federationRequired := Nat.succ_pos _
      rw [update_idem]
      exact card_update_lt h.below hempty a
    rename_i hshort
    obtain ⟨hexec, -, hcounts⟩ := hspec
    have hvotes : votersOf p ((s, .federation block spec sender) :: hist) =
        update (votersOf p hist) spec
          (insert sender (votersOf p hist spec)) := by
      simp only [votersOf, if_pos hmay, hexec]
    rw [update_self] at hshort
    refine ⟨by rw [hvotes]; exact hcounts, fun a => ?_, hkeep, h.feeBelow⟩
    rw [hvotes]
    exact card_update_lt h.below (Nat.not_le.mp hshort) a
  rw [if_neg fun hc => hmay hc.1] at hspec
  have hsame : votersOf p ((s, .federation block spec sender) :: hist) = votersOf p hist := by
    simp only [votersOf, if_neg hmay, hspec.1]
  exact ⟨by rw [hsame, next, hspec.2]; exact h.counts, fun a => hsame ▸ h.below a, hkeep,
    h.feeBelow⟩

/-- **Step lemma**, votes on the fee. -/
theorem Standing.fee (h : Standing p hist s) (args : Bytes) (sender : Address) :
  Standing p ((s, .fee args sender) :: hist) (s.next p (.fee args sender)) := by
  rcases voteFeePerKbChange_spec (p := p) h.feeCounts args sender with
    ⟨fee, hmay, hnew, hrest⟩ | ⟨hnone, hexec, hstate⟩
  · dsimp only at hrest
    split at hrest
    · obtain ⟨hexec, hstate⟩ := hrest
      have hvotes : feeVotersOf p ((s, .fee args sender) :: hist) = fun _ => ∅ := by
        simp only [feeVotersOf, hexec]
      refine ⟨?_, h.below, ?_, fun _ => hvotes ▸ Nat.succ_pos _⟩
      · rw [next, hstate]
        exact h.counts
      rw [hvotes, next, hstate]
      exact Election.counts_empty
    rename_i hshort
    obtain ⟨hexec, -, -, helection, hcounts⟩ := hrest
    have hvotes : feeVotersOf p ((s, .fee args sender) :: hist) =
        update (feeVotersOf p hist) (encodeCoin fee)
          (insert sender (feeVotersOf p hist (encodeCoin fee))) := by
      simp only [feeVotersOf, hexec, hmay.2.2, if_pos (And.intro hmay.1 hmay.2.1)]
    rw [update_self] at hshort
    refine ⟨?_, h.below, by rw [hvotes]; exact hcounts, fun coin => ?_⟩
    · rw [next, helection]
      exact h.counts
    rw [hvotes]
    exact card_update_lt h.feeBelow (Nat.not_le.mp hshort) coin
  -- refused, or a repeated vote: the set already has the sender
  have hsame : feeVotersOf p ((s, .fee args sender) :: hist) = feeVotersOf p hist := by
    cases hfee : p.checkFee args with
    | error code => simp only [feeVotersOf, hexec, hfee]
    | ok fee =>
      simp only [feeVotersOf, hexec, hfee]
      split
      · rename_i hauth
        rw [Finset.insert_eq_of_mem (hnone fee ⟨hauth.1, hauth.2, hfee⟩), update_eq_self]
      · rfl
  refine ⟨?_, h.below, ?_, fun coin => hsame ▸ h.feeBelow coin⟩
  · rw [next, hstate]
    exact h.counts
  rw [hsame, next, hstate]
  exact h.feeCounts

/-- **Run lemma.** -/
theorem Standing.of_run (hfed : s₀.election = .empty) (hfee : s₀.feeElection = .empty)
  (hrun : Run (Step p) s₀ hist s) : Standing p hist s := by
  induction hrun with
  | init => exact .init hfed hfee
  | @step hist s s' e _ hstep ih =>
    obtain rfl : s' = s.next p e := hstep
    cases e with
    | federation block spec sender => exact ih.federation block spec sender
    | fee args sender => exact ih.fee args sender
    | elsewhere rest => exact ⟨ih.counts, ih.below, ih.feeCounts, ih.feeBelow⟩

lemma votersOf_subset (hist : List (GovState σ × GovEvent σ β)) (spec : AbiCallSpec) :
  votersOf p hist spec ⊆ p.federationAuthorizers.toFinset := by
  induction hist generalizing spec with
  | nil => exact Finset.empty_subset _
  | cons entry hist ih =>
    obtain ⟨s, e⟩ := entry
    cases e with
    | fee | elsewhere => exact ih spec
    | federation block voted sender =>
      have hvotes : ∀ a, (if p.MayVote s block voted sender then
          update (votersOf p hist) voted (insert sender (votersOf p hist voted))
          else votersOf p hist) a ⊆ p.federationAuthorizers.toFinset := by
        intro a
        split
        · rename_i hmay
          by_cases ha : a = voted
          · subst ha
            rw [update_self]
            exact Finset.insert_subset (List.mem_toFinset.mpr hmay.1) (ih a)
          rw [update_of_ne ha]
          exact ih a
        · exact ih a
      cases hexec : (p.voteFederationChange s block voted sender).executed with
      | none =>
        simp only [votersOf, hexec]
        exact hvotes spec
      | some done =>
        simp only [votersOf, hexec]
        by_cases hends : done.function.endsElection = true
        · rw [if_pos hends]
          exact Finset.empty_subset _
        rw [if_neg hends]
        by_cases hd : spec = done
        · rw [hd, update_self]
          exact Finset.empty_subset _
        rw [update_of_ne hd]
        exact hvotes spec

/-- **Governance acts exactly on a majority.** After any history of calls that began with no
votes, whatever else happened to the Bridge between them:
a vote on the federation executes the call it names, exactly if the sender may vote for it, has
not done so since that call was last cleared, and is the one that brings its voters to a majority;
otherwise nothing is executed. Creating, committing and rolling back leave no vote; adding a
member leaves no vote for that member and every other vote. A vote on the fee acts alike and
leaves none. -/
theorem acts_on_majority (hfed : s₀.election = .empty) (hfee : s₀.feeElection = .empty)
  (hrun : Run (Step p) s₀ hist s) : (∀ block spec sender,
    let o := p.voteFederationChange s block spec sender
    (∀ done, o.executed = some done ↔ done = spec ∧ p.MayVote s block spec sender ∧
      sender ∉ votersOf p hist spec ∧
      p.federationAuthorizers.length / 2 + 1 ≤ (insert sender (votersOf p hist spec)).card) ∧
    (o.executed = none → o.state.rest = s.rest) ∧
    (o.executed = some spec → o.state.rest = (p.execute block s.rest spec).2 ∧
      (spec.function.endsElection = true → o.state.election = .empty) ∧
      (spec.function.endsElection = false → o.state.election.voters spec = [] ∧
        ∀ other, other ≠ spec →
          (o.state.election.voters other).toFinset = votersOf p hist other))) ∧ (∀ args sender,
    let o := p.voteFeePerKbChange s args sender
    (∀ fee, o.executed = some fee ↔ p.MayVoteFee args sender fee ∧
      sender ∉ feeVotersOf p hist (encodeCoin fee) ∧ p.feeAuthorizers.length / 2 + 1 ≤
        (insert sender (feeVotersOf p hist (encodeCoin fee))).card) ∧
    (o.executed = none → o.state.feePerKb = s.feePerKb) ∧
    (∀ fee, o.executed = some fee → o.state.feePerKb = some fee ∧ o.state.feeElection = .empty)) ∧
  (∀ spec, (s.election.voters spec).toFinset = votersOf p hist spec ∧
    votersOf p hist spec ⊆ p.federationAuthorizers.toFinset) ∧
  ∀ coin, (s.feeElection.voters coin).toFinset = feeVotersOf p hist coin := by
  have h := Standing.of_run hfed hfee hrun
  refine ⟨fun block spec sender => ?_, fun args sender => ?_,
    fun spec => ⟨h.counts.voters spec, votersOf_subset hist spec⟩, h.feeCounts.voters⟩
  · have hspec := voteFederationChange_spec h.counts h.below block spec sender
    dsimp only at hspec ⊢
    rw [update_self] at hspec
    by_cases hmay : p.MayVote s block spec sender ∧ sender ∉ votersOf p hist spec
    · rw [if_pos hmay] at hspec
      by_cases henough : p.federationRequired ≤ (insert sender (votersOf p hist spec)).card
      · rw [if_pos henough] at hspec
        obtain ⟨hexec, hrest, hends, hcounts⟩ := hspec
        rw [hexec]
        refine ⟨fun done => ⟨fun heq => ?_, fun hdone => by rw [hdone.1]⟩,
          nofun, fun _ => ?_⟩
        · exact ⟨(some.inj heq).symm, hmay.1, hmay.2, henough⟩
        refine ⟨hrest, hends, fun hkeep => ?_⟩
        rw [hkeep, update_idem] at hcounts
        have hnone := hcounts.voters spec
        refine ⟨?_, fun other hne => (hcounts.voters other).trans ?_⟩
        · simpa using hnone
        · simp [update_of_ne hne]
      rw [if_neg henough] at hspec
      obtain ⟨hexec, hrest, -⟩ := hspec
      rw [hexec]
      exact ⟨fun done => ⟨nofun, fun hdone => absurd hdone.2.2.2 henough⟩,
        fun _ => hrest, nofun⟩
    rw [if_neg hmay] at hspec
    rw [hspec.1, hspec.2]
    exact ⟨fun done => ⟨nofun, fun hdone =>
      absurd ⟨hdone.2.1, hdone.2.2.1⟩ hmay⟩, fun _ => rfl, nofun⟩
  dsimp only
  rcases voteFeePerKbChange_spec (p := p) h.feeCounts args sender with
    ⟨fee, hmay, hnew, hrest⟩ | ⟨hnone, hexec, hstate⟩
  · have hsame {fee' : Nat} (hmay' : p.MayVoteFee args sender fee') : fee = fee' :=
      Except.ok.inj (hmay.2.2.symm.trans hmay'.2.2)
    dsimp only at hrest
    rw [update_self] at hrest
    by_cases henough : p.feeRequired ≤
        (insert sender (feeVotersOf p hist (encodeCoin fee))).card
    · rw [if_pos henough] at hrest
      rw [hrest.1, hrest.2]
      refine ⟨fun fee' => ⟨fun heq => ?_, fun hfee' => by rw [hsame hfee'.1]⟩,
        nofun,
        fun fee' heq => ⟨heq, rfl⟩⟩
      obtain rfl := some.inj heq
      exact ⟨hmay, hnew, henough⟩
    rw [if_neg henough] at hrest
    rw [hrest.1, hrest.2.1]
    refine ⟨fun fee' => ⟨nofun, fun hfee' => ?_⟩, fun _ => rfl,
      nofun⟩
    obtain rfl := hsame hfee'.1
    exact absurd hfee'.2.2 henough
  rw [hexec, hstate]
  refine ⟨fun fee => ⟨nofun, fun hfee' => ?_⟩, fun _ => rfl,
    nofun⟩
  exact absurd (hnone fee hfee'.1) hfee'.2.1

end GovState

namespace GovExample

def authorizer (n : UInt8) : Address := FixedBytes.repeatByte 20 n

def functionOf (spec : AbiCallSpec) : FederationFunction :=
  match spec.function, spec.args with
  | .create, _ => .create
  | .add, _ => .add
  | .addMulti, [btc, rsk, mst] => .addMulti btc rsk mst
  | .commit, [hash] => .commit hash
  | .rollback, _ => .rollback
  | _, _ => .unknown

def params : GovParams FedState Nat where
  federationAuthorizers := [authorizer 1, authorizer 2, authorizer 3]
  feeAuthorizers := [authorizer 1, authorizer 2, authorizer 3]
  maxFeePerKb := 5000000
  execute := fun block s spec =>
    FedExample.params.executeFederationChange block s (functionOf spec)

def start : GovState FedState := ⟨FedExample.start.state, .empty, .empty, none⟩

def create : AbiCallSpec := ⟨.create, []⟩

def addMember (n : UInt8) : AbiCallSpec := ⟨.addMulti, [[n], [n], [n]]⟩

def vote (spec : AbiCallSpec) (n : UInt8) : GovEvent FedState Nat :=
  .federation 10 spec (authorizer n)

def votes : List (GovEvent FedState Nat) :=
  [vote create 1, vote create 2, vote (addMember 7) 1, vote (addMember 8) 1]

def history (s : GovState FedState) :
  List (GovEvent FedState Nat) → List (GovState FedState × GovEvent FedState Nat)
  | [] => []
  | e :: rest => history (s.next params e) rest ++ [(s, e)]

def final (events : List (GovEvent FedState Nat)) : GovState FedState :=
  events.foldl (GovState.next params) start

lemma run (events : List (GovEvent FedState Nat)) :
  Run (GovState.Step params) start (history start events) (final events) := by
  have hloop : ∀ (events : List (GovEvent FedState Nat)) (s : GovState FedState)
      (hist : List (GovState FedState × GovEvent FedState Nat)),
      Run (GovState.Step params) start hist s →
      Run (GovState.Step params) start (history s events ++ hist)
        (events.foldl (GovState.next params) s) := by
    intro events
    induction events with
    | nil => exact fun _ _ h => h
    | cons e rest ih =>
      intro s hist h
      have hstep := ih (s.next params e) ((s, e) :: hist) (h.step rfl)
      rwa [history, append_assoc]
  have h := hloop events start [] .init
  rwa [append_nil] at h

/-- The second vote of three executes, and only the call it names. -/
theorem second_vote_executes :
  (params.voteFederationChange (final votes) 10 (addMember 7) (authorizer 2)).executed =
      some (addMember 7) ∧
    authorizer 2 ∉ GovState.votersOf params (history start votes) (addMember 7) := by
  have hexec : (params.voteFederationChange (final votes) 10 (addMember 7)
      (authorizer 2)).executed = some (addMember 7) := by decide +kernel
  exact ⟨hexec, (((GovState.acts_on_majority rfl rfl (run votes)).1 10 (addMember 7)
    (authorizer 2)).1 _ |>.mp hexec).2.2.1⟩

/-- **A vote that survives.** One member is added; a vote for another stays. -/
theorem vote_survives : Run (GovState.Step params) start (history start votes) (final votes) ∧
  start.election = .empty ∧
  (params.voteFederationChange (final votes) 10 (addMember 7) (authorizer 2)).executed =
    some (addMember 7) ∧
  (params.voteFederationChange (final votes) 10 (addMember 7) (authorizer 2)).state.election =
    ⟨[(addMember 8, [authorizer 1])]⟩ := by
  refine ⟨run votes, rfl, by decide +kernel, ?_⟩
  have hentries : (params.voteFederationChange (final votes) 10 (addMember 7)
      (authorizer 2)).state.election.entries = [(addMember 8, [authorizer 1])] := by
    decide +kernel
  exact congrArg Election.mk hentries

end GovExample

end Rustock
