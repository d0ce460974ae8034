import Rustock.Bridge.Retarget

/-!
# The Bridge's best Bitcoin chain

What the chain of Bitcoin headers looks like after any number of calls (btc_chain.rs):
the chain head has the most work, and the main-chain index leads to the head's ancestors, through
reorganisations of any depth.
-/

namespace Rustock

open Lib List Option Function StoredBlock

/-- A block and its ancestors, newest first, ending in the seed: each is stored under its hash
and has its parent's height plus one and its parent's work plus its own. -/
inductive Branch (sha256d : Bytes → B256) (lookup : B256 → Option StoredBlock)
  (seed : StoredBlock) : List StoredBlock → Prop where
  | seed : lookup (sha256d seed.header.raw.bytes) = some seed → Branch sha256d lookup seed [seed]
  | grow {b parent : StoredBlock} {rest : List StoredBlock} :
      Branch sha256d lookup seed (parent :: rest) →
      lookup (sha256d b.header.raw.bytes) = some b →
      b.header.prevBlockhash = sha256d parent.header.raw.bytes →
      b.height.toNat = parent.height.toNat + 1 →
      b.chainWork.toNat = parent.chainWork.toNat + (computeWork b.header.bits).toNat →
      Branch sha256d lookup seed (b :: parent :: rest)

namespace Branch

variable {sha256d : Bytes → B256} {lookup : B256 → Option StoredBlock} {seed : StoredBlock}
  {b : StoredBlock} {rest : List StoredBlock}

lemma stored (h : Branch sha256d lookup seed (b :: rest)) :
  lookup (sha256d b.header.raw.bytes) = some b := by
  cases h with
  | seed hstored => exact hstored
  | grow _ hstored _ _ _ => exact hstored

lemma height_eq : ∀ {rest : List StoredBlock} {b : StoredBlock},
  Branch sha256d lookup seed (b :: rest) → b.height.toNat = seed.height.toNat + rest.length
  | [], _, .seed _ => rfl
  | _ :: _, _, .grow hparent _ _ hheight _ => by
    rw [hheight, hparent.height_eq, length_cons]
    omega

lemma eq_seed (h : Branch sha256d lookup seed [b]) : b = seed := by
  cases h
  rfl

lemma parent {p : StoredBlock} (h : Branch sha256d lookup seed (b :: p :: rest)) :
  Branch sha256d lookup seed (p :: rest) ∧ lookup b.header.prevBlockhash = some p ∧
    b.header.prevBlockhash = sha256d p.header.raw.bytes := by
  cases h with
  | grow hparent _ hprev _ _ => exact ⟨hparent, by rw [hprev]; exact hparent.stored, hprev⟩

lemma unique : ∀ {rest rest' : List StoredBlock} {b b' : StoredBlock},
  Branch sha256d lookup seed (b :: rest) → Branch sha256d lookup seed (b' :: rest') →
  sha256d b.header.raw.bytes = sha256d b'.header.raw.bytes → b = b' ∧ rest = rest' := by
  intro rest
  induction rest with
  | nil =>
    intro rest' b b' h h' hhash
    have hb : b = b' := some.inj (h.stored.symm.trans (hhash ▸ h'.stored))
    have hlen := h'.height_eq
    rw [← hb, h.height_eq, length_nil] at hlen
    exact ⟨hb, (eq_nil_of_length_eq_zero (by omega)).symm⟩
  | cons p rest ih =>
    intro rest' b b' h h' hhash
    have hb : b = b' := some.inj (h.stored.symm.trans (hhash ▸ h'.stored))
    subst hb
    cases rest' with
    | nil =>
      have hlen := h'.height_eq
      rw [h.height_eq] at hlen
      simp at hlen
    | cons p' rest' =>
      obtain ⟨hp, _, hprev⟩ := h.parent
      obtain ⟨hp', _, hprev'⟩ := h'.parent
      obtain ⟨rfl, rfl⟩ := ih hp hp' (hprev.symm.trans hprev')
      exact ⟨rfl, rfl⟩

lemma suffix : ∀ {front : List StoredBlock} {b : StoredBlock} {rest : List StoredBlock},
  Branch sha256d lookup seed (front ++ b :: rest) → Branch sha256d lookup seed (b :: rest)
  | [], _, _, h => h
  | [_], _, _, h => h.parent.1
  | _ :: y :: front, b, rest, h =>
    @suffix (y :: front) b rest
      (h.parent.1 : Branch sha256d lookup seed (y :: (front ++ b :: rest)))

variable {c : StoredBlock}

lemma height_lt {front : List StoredBlock}
  (h : Branch sha256d lookup seed (c :: (front ++ b :: rest))) :
  b.height.toNat < c.height.toNat := by
  have hb : Branch sha256d lookup seed (b :: rest) := @suffix _ _ _ (c :: front) b rest h
  rw [hb.height_eq, h.height_eq, length_append, length_cons]
  omega

lemma eq_of_height {a : StoredBlock} (h : Branch sha256d lookup seed (c :: rest))
  (ha : a ∈ c :: rest) (hb : b ∈ c :: rest) (heq : a.height = b.height) : a = b := by
  induction rest generalizing c with
  | nil =>
    rw [mem_singleton] at ha hb
    rw [ha, hb]
  | cons p rest ih =>
    have hbelow {x : StoredBlock} (hx : x ∈ p :: rest) : x.height.toNat < c.height.toNat := by
      obtain ⟨front, back, hsplit⟩ := append_of_mem hx
      rw [hsplit] at h
      exact h.height_lt
    rcases mem_cons.mp ha with hac | hat <;> rcases mem_cons.mp hb with hbc | hbt
    · rw [hac, hbc]
    · have hlt := hbelow hbt
      rw [← heq, hac] at hlt
      omega
    · have hlt := hbelow hat
      rw [heq, hbc] at hlt
      omega
    · exact ih h.parent.1 hat hbt

lemma update {chain : List StoredBlock} (h : Branch sha256d lookup seed chain) {key : B256}
  (hfresh : lookup key = none) :
  Branch sha256d (Function.update lookup key (some b)) seed chain := by
  have hkept {hash : B256} {x : StoredBlock} (hx : lookup hash = some x) :
      Function.update lookup key (some b) hash = some x := by
    have hne : hash ≠ key := by
      rintro rfl
      rw [hfresh] at hx
      cases hx
    rw [update_of_ne hne, hx]
  induction h with
  | seed hstored => exact .seed (hkept hstored)
  | grow _ hstored hprev hheight hwork ih => exact .grow ih (hkept hstored) hprev hheight hwork

end Branch

namespace BtcEnv

variable (env : BtcEnv) {ctx : BtcCtx} {seed : StoredBlock}

/-- **The split is the youngest common ancestor**: what follows it in both branches is the
same. -/
theorem findSplit_branch (hcache : ctx.cache = none) : ∀ (fuel : Nat) {c n : StoredBlock}
  {cs ns : List StoredBlock}, Branch env.sha256d ctx.lookup seed (c :: cs) →
  Branch env.sha256d ctx.lookup seed (n :: ns) → cs.length + ns.length < fuel →
  ∃ s ss us vs, env.findSplit fuel c n ctx = (some s, ctx) ∧ c :: cs = us ++ s :: ss ∧
    n :: ns = vs ++ s :: ss := by
  intro fuel
  induction fuel with
  | zero => intro c n cs ns _ _ hfuel; omega
  | succ fuel ih =>
    intro c n cs ns hc hn hfuel
    unfold findSplit
    by_cases hhash : env.hashOf c = env.hashOf n
    · obtain ⟨rfl, rfl⟩ := hc.unique hn hhash
      rw [if_pos hhash]
      exact ⟨c, cs, [], [], rfl, rfl, rfl⟩
    rw [if_neg hhash]
    have hcheight := hc.height_eq
    have hnheight := hn.height_eq
    by_cases hlt : n.height < c.height
    · have hltNat := UInt32.lt_iff_toNat_lt.mp hlt
      rw [if_pos hlt, btcM_bind, getStoredBlock_of_cacheless hcache]
      cases cs with
      | nil => simp at hcheight; omega
      | cons p cs =>
        obtain ⟨hp, hlookup, _⟩ := hc.parent
        rw [length_cons] at hfuel
        obtain ⟨s, ss, us, vs, hfind, hus, hvs⟩ := ih hp hn (by omega)
        refine ⟨s, ss, c :: us, vs, ?_, by rw [hus]; rfl, hvs⟩
        rw [hlookup]
        exact hfind
    have hleNat := UInt32.le_iff_toNat_le.mp (UInt32.not_lt.mp hlt)
    rw [if_neg hlt, btcM_bind, getStoredBlock_of_cacheless hcache]
    cases ns with
    | nil =>
      have hcs : cs = [] := eq_nil_of_length_eq_zero (by simp at hnheight; omega)
      subst hcs
      exact absurd (by rw [hc.eq_seed, hn.eq_seed]) hhash
    | cons p ns =>
      obtain ⟨hp, hlookup, _⟩ := hn.parent
      rw [length_cons] at hfuel
      obtain ⟨s, ss, us, vs, hfind, hus, hvs⟩ := ih hc hp (by omega)
      refine ⟨s, ss, us, n :: vs, ?_, hus, by rw [hvs]; rfl⟩
      rw [hlookup]
      exact hfind

lemma getPartialChain_branch (hcache : ctx.cache = none) {s : StoredBlock}
  {ss : List StoredBlock} : ∀ (fuel : Nat) {x : StoredBlock} {vs results : List StoredBlock},
  Branch env.sha256d ctx.lookup seed (x :: (vs ++ s :: ss)) → vs.length < fuel →
  env.getPartialChain s fuel x results ctx = (some (results ++ x :: vs), ctx) := by
  intro fuel
  induction fuel with
  | zero => intro x vs results _ hfuel; omega
  | succ fuel ih =>
    intro x vs results h hfuel
    unfold getPartialChain
    rw [btcM_bind, getStoredBlock_of_cacheless hcache]
    cases vs with
    | nil =>
      obtain ⟨_, hlookup, _⟩ := h.parent
      rw [hlookup]
      dsimp only
      rw [if_pos rfl]
      rfl
    | cons y vs =>
      obtain ⟨hy, hlookup, _⟩ := h.parent
      rw [hlookup]
      dsimp only
      have hne : env.hashOf y ≠ env.hashOf s := by
        intro hhash
        have hs : Branch env.sha256d ctx.lookup seed (s :: ss) :=
          @Branch.suffix _ _ _ (y :: vs) s ss hy
        have hlt := hy.height_lt
        rw [(hy.unique hs hhash).1] at hlt
        omega
      rw [length_cons] at hfuel
      rw [if_neg hne, ih hy (by omega), append_assoc]
      rfl

lemma indexBranch_index : ∀ (branch : List StoredBlock) (ctx : BtcCtx),
  (∀ height, (∀ b ∈ branch, b.height ≠ height) →
    (env.indexBranch branch ctx).2.heightIndex height = ctx.heightIndex height) ∧
  ((branch.map (·.height)).Nodup → ∀ b ∈ branch,
    (env.indexBranch branch ctx).2.heightIndex b.height = some (env.hashOf b)) := by
  intro branch
  induction branch with
  | nil => exact fun ctx => ⟨fun _ _ => rfl, nofun⟩
  | cons x branch ih =>
    intro ctx
    obtain ⟨hother, hown⟩ := ih (storeBtcBlockHashByHeight x.height (env.hashOf x) ctx).2
    have hstep : (env.indexBranch (x :: branch) ctx).2 =
        (env.indexBranch branch (storeBtcBlockHashByHeight x.height (env.hashOf x) ctx).2).2 := rfl
    rw [hstep]
    constructor
    · intro height hne
      rw [hother height fun b hb => hne b (mem_cons_of_mem _ hb)]
      exact update_of_ne (hne x (mem_cons_self ..)).symm ..
    intro hnodup b hb
    rw [map_cons, nodup_cons] at hnodup
    rcases mem_cons.mp hb with rfl | hb
    · have hfree : ∀ c ∈ branch, c.height ≠ b.height := fun c hc heq =>
        hnodup.1 (heq ▸ List.mem_map_of_mem hc)
      rw [hother _ hfree]
      exact update_self ..
    · exact hown hnodup.2 b hb

end BtcEnv

open BtcEnv

variable {sha256d : Bytes → B256}
  {lookup : B256 → Option StoredBlock} {c : StoredBlock} {rest : List StoredBlock}

lemma Branch.nodup_heights {seed : StoredBlock} (h : Branch sha256d lookup seed (c :: rest)) :
  ((c :: rest).map (·.height)).Nodup := by
  induction rest generalizing c with
  | nil => simp
  | cons p rest ih =>
    rw [map_cons, nodup_cons]
    refine ⟨fun hmem => ?_, ih h.parent.1⟩
    obtain ⟨x, hx, hheight⟩ := List.mem_map.mp hmem
    obtain ⟨front, back, hsplit⟩ := append_of_mem hx
    rw [hsplit] at h
    have hlt := h.height_lt
    rw [hheight] at hlt
    omega

lemma Branch.height_le {seed b : StoredBlock} (h : Branch sha256d lookup seed (c :: rest))
    (hb : b ∈ c :: rest) : b.height.toNat ≤ c.height.toNat := by
  obtain ⟨front, back, hsplit⟩ := append_of_mem hb
  cases front with
  | nil => rw [(List.cons.inj hsplit).1]
  | cons x front =>
    obtain ⟨rfl, rfl⟩ := List.cons.inj hsplit
    exact h.height_lt.le

/-- The chain head with its ancestors: it has the most work of all blocks that descend from the
seed, and the index leads to its ancestors. Every stored block is under its hash, and descends
from the seed or is below it. -/
structure BestChain (sha256d : Bytes → B256) (seed : StoredBlock) (ctx : BtcCtx)
  (head : StoredBlock) (ancestors : List StoredBlock) : Prop where
  loaded : deserializeCompact ctx.chainHead = some head
  branch : Branch sha256d ctx.lookup seed (head :: ancestors)
  index : ∀ b ∈ head :: ancestors,
    ctx.heightIndex b.height = some (sha256d b.header.raw.bytes)
  best : ∀ b rest, Branch sha256d ctx.lookup seed (b :: rest) →
    b.chainWork.toNat ≤ head.chainWork.toNat
  keyed : ∀ hash b, ctx.lookup hash = some b → sha256d b.header.raw.bytes = hash
  covered : ∀ hash b, ctx.lookup hash = some b →
    (∃ rest, Branch sha256d ctx.lookup seed (b :: rest)) ∨ b.height.toNat < seed.height.toNat

/-- What a header must meet for its block to be stored as it is: the parent descends from the
seed, height and work fit, and the work is not zero. -/
structure BtcEnv.Fits (env : BtcEnv) (seed : StoredBlock) (ctx : BtcCtx) (header : BtcHeader)
  (parent : StoredBlock) : Prop where
  descends : ∃ rest, Branch env.sha256d ctx.lookup seed (parent :: rest)
  height : parent.height.toNat + 1 < 2 ^ 32
  work : parent.chainWork.toNat + (computeWork header.bits).toNat <
    (if env.useV2 then 2 ^ 256 else 2 ^ 96)
  positive : 0 < (computeWork header.bits).toNat

namespace BtcEnv.Fits

variable {env : BtcEnv} {seed parent : StoredBlock} {ctx : BtcCtx} {header : BtcHeader}

section

variable (h : env.Fits seed ctx header parent)

include h

lemma height_childOf : (childOf parent header).height.toNat = parent.height.toNat + 1 := by
  have hadd : (parent.height + 1).toNat = (parent.height.toNat + 1) % 2 ^ 32 := UInt32.toNat_add ..
  exact hadd.trans (Nat.mod_eq_of_lt h.height)

lemma work_childOf : (childOf parent header).chainWork.toNat =
    parent.chainWork.toNat + (computeWork header.bits).toNat := by
  have hlt : parent.chainWork.toNat + (computeWork header.bits).toNat < 2 ^ 256 := by
    have := h.work
    split at this
    · exact this
    · exact this.trans (by decide)
  exact (BitVec.toNat_add ..).trans (Nat.mod_eq_of_lt hlt)

lemma kept_childOf : (childOf parent header).kept env.useV2 = childOf parent header := by
  have hwork := h.work
  rw [← h.work_childOf] at hwork
  unfold StoredBlock.kept
  split
  · rfl
  rename_i hv2
  rw [if_neg hv2] at hwork
  rw [Nat.mod_eq_of_lt hwork, BitVec.ofNat_toNat, BitVec.setWidth_eq]

end

end BtcEnv.Fits

structure StoredOver (sha256d : Bytes → B256) (seed : StoredBlock) (ctx' : BtcCtx)
  (head n : StoredBlock) : Prop where
  keyed : ∀ hash b, ctx'.lookup hash = some b → sha256d b.header.raw.bytes = hash
  covered : ∀ hash b, ctx'.lookup hash = some b →
    (∃ rest, Branch sha256d ctx'.lookup seed (b :: rest)) ∨ b.height.toNat < seed.height.toNat
  best : ∀ b rest, Branch sha256d ctx'.lookup seed (b :: rest) →
    b = n ∨ b.chainWork.toNat ≤ head.chainWork.toNat

variable {head : StoredBlock} {ctx' : BtcCtx} {n : StoredBlock}

lemma StoredOver.congr {seed : StoredBlock} {ctx'' : BtcCtx}
  (h : StoredOver sha256d seed ctx' head n) (heq : ctx''.lookup = ctx'.lookup) :
  StoredOver sha256d seed ctx'' head n := by
  constructor
  · rw [heq]
    exact h.keyed
  · rw [heq]
    exact h.covered
  rw [heq]
  exact h.best

variable {ctx : BtcCtx} {ancestors : List StoredBlock}

lemma BestChain.store {seed : StoredBlock} (h : BestChain sha256d seed ctx head ancestors)
  (hfresh : ctx.lookup (sha256d n.header.raw.bytes) = none)
  (hlookup : ctx'.lookup = Function.update ctx.lookup (sha256d n.header.raw.bytes) (some n))
  (hbranch : Branch sha256d ctx'.lookup seed (n :: rest)) :
  StoredOver sha256d seed ctx' head n := by
  have hlifts {chain : List StoredBlock} (hchain : Branch sha256d ctx.lookup seed chain) :
      Branch sha256d ctx'.lookup seed chain := by
    rw [hlookup]
    exact hchain.update hfresh
  have hcases {hash : B256} {b : StoredBlock} (hb : ctx'.lookup hash = some b) :
      (hash = sha256d n.header.raw.bytes ∧ b = n) ∨ ctx.lookup hash = some b := by
    rw [hlookup] at hb
    by_cases hash_eq : hash = sha256d n.header.raw.bytes
    · rw [hash_eq, update_self] at hb
      exact .inl ⟨hash_eq, (some.inj hb).symm⟩
    rw [update_of_ne hash_eq] at hb
    exact .inr hb
  refine ⟨fun hash b hb => ?_, fun hash b hb => ?_, fun b chain hb => ?_⟩
  · rcases hcases hb with ⟨rfl, rfl⟩ | hold
    · rfl
    · exact h.keyed hash b hold
  · rcases hcases hb with ⟨_, rfl⟩ | hold
    · exact .inl ⟨rest, hbranch⟩
    rcases h.covered hash b hold with ⟨chain, hchain⟩ | hbelow
    · exact .inl ⟨chain, hlifts hchain⟩
    · exact .inr hbelow
  rcases hcases hb.stored with ⟨_, heq⟩ | hold
  · exact .inl heq
  rcases h.covered _ b hold with ⟨chain', hchain⟩ | hbelow
  · exact .inr (h.best b chain' hchain)
  have := hb.height_eq
  omega

namespace BtcEnv

variable (env : BtcEnv) {ctx : BtcCtx} {seed : StoredBlock} {head : StoredBlock}
  {n : StoredBlock} {rest : List StoredBlock}

lemma setChainHead_best (hstored : StoredOver env.sha256d seed ctx head n)
  (h199 : env.rskip199 = true) (hkept : n.kept env.useV2 = n)
  (hbranch : Branch env.sha256d ctx.lookup seed (n :: rest))
  (hindex : ∀ b ∈ rest, ctx.heightIndex b.height = some (env.hashOf b))
  (hmore : head.chainWork.toNat ≤ n.chainWork.toNat) :
  BestChain env.sha256d seed (env.setChainHead n ctx).2 n rest where
  loaded := by
    have hround := deserialize_serialize env.useV2 n
    rwa [hkept] at hround
  branch := hbranch
  index := by
    intro b hb
    have hset : (env.setChainHead n ctx).2.heightIndex =
        Function.update ctx.heightIndex n.height (some (env.hashOf n)) := if_pos h199
    rw [hset]
    by_cases hheight : b.height = n.height
    · rw [hbranch.eq_of_height hb (mem_cons_self ..) hheight, update_self]
      rfl
    rw [update_of_ne hheight]
    rcases mem_cons.mp hb with rfl | hb
    · exact absurd rfl hheight
    · exact hindex b hb
  best := by
    intro b chain hb
    rcases hstored.best b chain hb with rfl | hle
    · exact le_rfl
    · exact hle.trans hmore
  keyed := hstored.keyed
  covered := hstored.covered

lemma setChainHead_index_above {height : UInt32} (habove : n.height < height) :
    (env.setChainHead n ctx).2.heightIndex height = ctx.heightIndex height := by
  unfold setChainHead
  dsimp only
  split
  · exact update_of_ne (UInt32.ne_of_lt habove).symm ..
  · rfl

variable {ancestors : List StoredBlock}

/-- **A reorganisation**: the branch of the new head is written over the index, and nothing above
that head. -/
theorem handleNewBestChain_best (hready : ctx.Ready)
  (hstored : StoredOver env.sha256d seed ctx head n) (h199 : env.rskip199 = true)
  (hkept : n.kept env.useV2 = n) (hbranch : Branch env.sha256d ctx.lookup seed (n :: rest))
  (hhead : Branch env.sha256d ctx.lookup seed (head :: ancestors)) (hnew : n ∉ head :: ancestors)
  (hindex : ∀ b ∈ head :: ancestors, ctx.heightIndex b.height = some (env.hashOf b))
  (hmore : head.chainWork.toNat < n.chainWork.toNat) :
  (env.handleNewBestChain n head ctx).1 = some () ∧
    BestChain env.sha256d seed (env.handleNewBestChain n head ctx).2 n rest ∧
    ∀ height, n.height < height →
      (env.handleNewBestChain n head ctx).2.heightIndex height = ctx.heightIndex height := by
  have hfuel : ancestors.length + rest.length < walkFuel n head := by
    have := hbranch.height_eq
    have := hhead.height_eq
    unfold walkFuel
    omega
  obtain ⟨s, ss, us, vs, hfind, hus, hvs⟩ := 
    env.findSplit_branch hready.cacheless _ hhead hbranch hfuel
  -- the new block is above the split
  obtain ⟨vs, rfl⟩ : ∃ front, vs = n :: front := by
    cases vs with
    | nil =>
      have hsplit : n = s := (List.cons.inj hvs).1
      exact absurd (by rw [hus, hsplit]; simp) hnew
    | cons v front => exact ⟨front, by rw [(List.cons.inj hvs).1]⟩
  have hrest : rest = vs ++ s :: ss := (List.cons.inj hvs).2
  subst hrest
  have hpartial := @getPartialChain_branch env ctx seed hready.cacheless s ss (walkFuel n head) n vs
    [] hbranch (by rw [length_append] at hfuel; omega)
  obtain ⟨hother, hown⟩ := env.indexBranch_index (n :: vs) ctx
  obtain ⟨hlookup, _⟩ := env.reads_indexBranch (n :: vs) ctx hready
  -- the heights of the new branch are above those the index keeps
  have hheights : (((n :: vs) ++ s :: ss).map (·.height)).Nodup := hbranch.nodup_heights
  rw [map_append, nodup_append] at hheights
  obtain ⟨hupper, _, hdisjoint⟩ := hheights
  have hindex' : ∀ b ∈ vs ++ s :: ss,
      (env.indexBranch (n :: vs) ctx).2.heightIndex b.height = some (env.hashOf b) := by
    intro b hb
    rcases mem_append.mp hb with hb | hb
    · exact hown hupper b (mem_cons_of_mem _ hb)
    have hfree : ∀ c ∈ n :: vs, c.height ≠ b.height := fun c hc =>
      hdisjoint _ (List.mem_map_of_mem hc) _ (List.mem_map_of_mem hb)
    rw [hother _ hfree]
    exact hindex b (by rw [hus]; exact mem_append_right _ hb)
  have hset := env.setChainHead_best (hstored.congr hlookup) h199 hkept
    (by rw [hlookup]; exact hbranch) hindex' hmore.le
  have habove : ∀ height, n.height < height →
      (env.setChainHead n (env.indexBranch (n :: vs) ctx).2).2.heightIndex height =
        ctx.heightIndex height := fun height hlt => by
    refine (env.setChainHead_index_above hlt).trans (hother height fun b hb heq => ?_)
    have hle := hbranch.height_le (mem_append_left (s :: ss) hb)
    rw [heq] at hle
    exact absurd (UInt32.lt_iff_toNat_lt.mp hlt) (by omega)
  unfold handleNewBestChain
  rw [if_pos h199, btcM_bind, hfind]
  dsimp only
  rw [btcM_bind, hpartial]
  exact ⟨rfl, hset, habove⟩

/-- **Connecting a block keeps the best chain**, moves the head only to more work, and writes
nothing into the index above the new head. -/
theorem connectBlock_best {parent : StoredBlock} {header : BtcHeader} (hready : ctx.Ready)
  (h : BestChain env.sha256d seed ctx head ancestors) (h199 : env.rskip199 = true)
  (hfresh : ctx.lookup (env.blockHash header) = none)
  (hparent : ctx.lookup header.prevBlockhash = some parent)
  (hfits : env.Fits seed ctx header parent) :
  (env.connectBlock (childOf parent header) parent ctx).1 = some () ∧
    ∃ head' ancestors', BestChain env.sha256d seed
        (env.connectBlock (childOf parent header) parent ctx).2 head' ancestors' ∧
      (head' = head ∨ head' = childOf parent header ∧
        head.chainWork.toNat < head'.chainWork.toNat) ∧
      ∀ height, head'.height < height →
        (env.connectBlock (childOf parent header) parent ctx).2.heightIndex height =
          ctx.heightIndex height := by
  obtain ⟨rest, hrest⟩ := hfits.descends
  have hkept := hfits.kept_childOf
  have hlookup := env.lookup_putStoredBlock (childOf parent header) ctx
  rw [hkept] at hlookup
  have hready' : (env.putStoredBlock (childOf parent header) ctx).2.Ready :=
    ⟨hready.cacheless, hready.seeded⟩
  have hloaded : loadChainHead (env.putStoredBlock (childOf parent header) ctx).2 =
      (some head, (env.putStoredBlock (childOf parent header) ctx).2) := Prod.ext h.loaded rfl
  have hsameIndex : (env.putStoredBlock (childOf parent header) ctx).2.heightIndex =
      ctx.heightIndex := rfl
  unfold connectBlock
  rw [btcM_bind]
  generalize (env.putStoredBlock (childOf parent header) ctx).2 = put at *
  -- the new block's branch
  have hupdated : ∀ {chain}, Branch env.sha256d ctx.lookup seed chain →
      Branch env.sha256d put.lookup seed chain := fun hchain => by
    rw [hlookup]
    exact hchain.update hfresh
  have hbranch : Branch env.sha256d put.lookup seed (childOf parent header :: parent :: rest) := by
    refine .grow (hupdated hrest) ?_ (h.keyed _ _ hparent).symm hfits.height_childOf
      hfits.work_childOf
    rw [hlookup]
    exact update_self ..
  have hnone : ctx.lookup (env.sha256d (childOf parent header).header.raw.bytes) = none := hfresh
  have hstored := h.store hnone hlookup hbranch
  have hindex : ∀ b ∈ head :: ancestors, put.heightIndex b.height = some (env.hashOf b) := by
    rw [hsameIndex]
    exact h.index
  rw [btcM_bind, hloaded]
  dsimp only
  by_cases hdirect : env.hashOf parent = env.hashOf head
  · -- the parent is the head
    obtain ⟨rfl, rfl⟩ := hrest.unique h.branch hdirect
    have hmore : parent.chainWork.toNat < (childOf parent header).chainWork.toNat := by
      rw [hfits.work_childOf]
      have := hfits.positive
      omega
    rw [if_pos hdirect]
    refine ⟨rfl, _, _, env.setChainHead_best hstored h199 hkept hbranch hindex hmore.le,
      .inr ⟨rfl, hmore⟩, fun height habove => ?_⟩
    exact (env.setChainHead_index_above habove).trans (congrFun hsameIndex height)
  rw [if_neg hdirect]
  by_cases hmore : head.chainWork < (childOf parent header).chainWork
  · have hmoreNat := BitVec.lt_def.mp hmore
    have hnew : childOf parent header ∉ head :: ancestors := by
      intro hmem
      obtain ⟨front, back, hsplit⟩ := append_of_mem hmem
      have hold := h.branch
      rw [hsplit] at hold
      exact absurd (hnone.symm.trans hold.suffix.stored) (by simp)
    obtain ⟨hdone, hbest, habove⟩ := env.handleNewBestChain_best hready' hstored h199 hkept hbranch
      (hupdated h.branch) hnew hindex hmoreNat
    rw [if_pos hmore]
    exact ⟨hdone, _, _, hbest, .inr ⟨rfl, hmoreNat⟩, fun height hlt =>
      (habove height hlt).trans (congrFun hsameIndex height)⟩
  have hle : (childOf parent header).chainWork.toNat ≤ head.chainWork.toNat :=
    not_lt.mp (mt BitVec.lt_def.mpr hmore)
  rw [if_neg hmore]
  refine ⟨rfl, head, ancestors, ⟨congrArg Prod.fst hloaded, hupdated h.branch, hindex, ?_,
    hstored.keyed, hstored.covered⟩, .inl rfl, fun height _ => congrFun hsameIndex height⟩
  intro b chain hb
  rcases hstored.best b chain hb with rfl | hb
  · exact hle
  · exact hb

def FitsIfConnected (seed : StoredBlock) (ctx : BtcCtx) (header : BtcHeader) : Prop :=
  ∀ parent, ctx.lookup (env.blockHash header) = none → env.checkProofOfWork header = true →
    ctx.lookup header.prevBlockhash = some parent → env.Fits seed ctx header parent

end BtcEnv

/-- The head is `head`, or has more work. -/
def AtOrAbove (head head' : StoredBlock) : Prop :=
  head' = head ∨ head.chainWork.toNat < head'.chainWork.toNat

lemma AtOrAbove.trans {a b : StoredBlock} (h₁ : AtOrAbove a b) (h₂ : AtOrAbove b c) :
  AtOrAbove a c := by
  rcases h₁ with rfl | h₁ <;> rcases h₂ with rfl | h₂
  · exact .inl rfl
  · exact .inr h₂
  · exact .inr h₁
  · exact .inr (h₁.trans h₂)

def HasBest (sha256d : Bytes → B256) (seed earlier : StoredBlock) (ctx : BtcCtx) : Prop :=
  ∃ head ancestors, BestChain sha256d seed ctx head ancestors ∧ AtOrAbove earlier head

lemma BestChain.congr {seed : StoredBlock} (h : BestChain sha256d seed ctx head ancestors)
  (hlookup : ctx'.lookup = ctx.lookup) (hhead : ctx'.chainHead = ctx.chainHead)
  (hindex : ctx'.heightIndex = ctx.heightIndex) : BestChain sha256d seed ctx' head ancestors := by
  constructor
  · rw [hhead]
    exact h.loaded
  · rw [hlookup]
    exact h.branch
  · rw [hindex]
    exact h.index
  · rw [hlookup]
    exact h.best
  · rw [hlookup]
    exact h.keyed
  rw [hlookup]
  exact h.covered

lemma BtcEnv.Attempt.hasBest {env : BtcEnv} {seed earlier : StoredBlock} {header : BtcHeader}
  (h199 : env.rskip199 = true) (hready : ctx.Ready) (h : HasBest env.sha256d seed earlier ctx)
  (hfits : env.FitsIfConnected seed ctx header) (hattempt : env.Attempt header ctx ctx') :
  HasBest env.sha256d seed earlier ctx' := by
  obtain ⟨head, ancestors, hbest, habove⟩ := h
  cases hattempt with
  | refused => exact ⟨head, ancestors, hbest, habove⟩
  | connected parent timestamp fresh work stored =>
    obtain ⟨_, head', ancestors', hbest', hmore, _⟩ := env.connectBlock_best hready hbest h199
      fresh stored (hfits parent fresh work stored)
    exact ⟨head', ancestors', hbest'.congr rfl rfl rfl, habove.trans (hmore.imp_right And.right)⟩

lemma BtcEnv.call_hasBest {env : BtcEnv} {seed earlier : StoredBlock} {ctx : BtcCtx}
  (h199 : env.rskip199 = true) (hready : ctx.Ready)
  (h : HasBest env.sha256d seed earlier ctx) (c : BtcCall)
  (hfits : env.CallMeets (env.FitsIfConnected seed) c ctx) :
  (env.call c ctx).Ready ∧ HasBest env.sha256d seed earlier (env.call c ctx) :=
  env.call_invariant (fun hready h hq hattempt => hattempt.hasBest h199 hready h hq)
    (fun ⟨head, ancestors, hbest, habove⟩ =>
      ⟨head, ancestors, hbest.congr (env.lookup_nextBlock _) rfl rfl, habove⟩)
    hready h c hfits

lemma Branch.exists_at_height {seed : StoredBlock} {height : UInt32}
  (hseed : seed.height ≤ height) :
  ∀ {rest : List StoredBlock} {c : StoredBlock}, Branch sha256d lookup seed (c :: rest) →
    height ≤ c.height →
    ∃ b ∈ c :: rest, b.height = height ∧ lookup (sha256d b.header.raw.bytes) = some b
  | [], c, h, hle => by
    have hc := h.eq_seed
    subst hc
    exact ⟨c, mem_cons_self .., UInt32.le_antisymm hseed hle, h.stored⟩
  | p :: rest, c, h, hle => by
    by_cases heq : height = c.height
    · exact ⟨c, mem_cons_self .., heq.symm, h.stored⟩
    have hlt : height.toNat ≤ p.height.toNat := by
      have hle := UInt32.le_iff_toNat_le.mp hle
      have hne : height.toNat ≠ c.height.toNat := fun h => heq (UInt32.toNat_inj.mp h)
      have hc := h.height_eq
      have hp := h.parent.1.height_eq
      rw [length_cons] at hc
      omega
    obtain ⟨b, hb, hheight, hstored⟩ :=
      h.parent.1.exists_at_height hseed (UInt32.le_iff_toNat_le.mpr hlt)
    exact ⟨b, mem_cons_of_mem _ hb, hheight, hstored⟩

lemma BestChain.lookup_height {env : BtcEnv} {seed head : StoredBlock} {ctx : BtcCtx}
  {ancestors : List StoredBlock} (h : BestChain env.sha256d seed ctx head ancestors)
  (hcache : ctx.cache = none) (h199 : env.rskip199 = true) (height : UInt32) :
  (head.height < height → (env.mainChainBlockAtHeight height false ctx).1 = .storeError) ∧
    (seed.height ≤ height → height ≤ head.height → ∃ b ∈ head :: ancestors, b.height = height ∧
      (env.mainChainBlockAtHeight height false ctx).1 = .found b) := by
  have hload : loadChainHead ctx = (some head, ctx) := Prod.ext h.loaded rfl
  unfold mainChainBlockAtHeight
  rw [btcM_bind, hload]
  dsimp only
  constructor
  · intro habove
    rw [if_pos habove]
    rfl
  intro hseed hle
  obtain ⟨b, hb, hheight, hstored⟩ := h.branch.exists_at_height hseed hle
  refine ⟨b, hb, hheight, ?_⟩
  have hindexed : env.indexedBlock height ctx = (some b, ctx) := by
    have hentry : loadBtcBlockHashByHeight height ctx = (some (env.hashOf b), ctx) := by
      have := h.index b hb
      rw [hheight] at this
      exact Prod.ext this rfl
    unfold indexedBlock
    rw [if_pos h199, btcM_bind, hentry]
    dsimp only
    rw [getStoredBlock_of_cacheless hcache]
    exact Prod.ext hstored rfl
  rw [if_neg (UInt32.not_lt.mpr hle), if_neg (by simp), btcM_bind, hindexed]
  rfl

namespace BtcParams

variable (params : BtcParams)

def seed : StoredBlock :=
  params.checkpoint.getD ⟨params.genesis, 0, computeWork params.genesis.bits⟩

structure SeedFits (rules : BtcRules) : Prop where
  kept : params.seed.kept rules.useV2 = params.seed
  above : ∀ c, params.checkpoint = some c → 0 < c.height

lemma putStoredBlock_cases {env : BtcEnv} {b x : StoredBlock} {ctx : BtcCtx} {hash : B256}
  (h : (env.putStoredBlock b ctx).2.lookup hash = some x) :
  (hash = env.hashOf b ∧ x = b.kept env.useV2) ∨ ctx.lookup hash = some x := by
  rw [lookup_putStoredBlock] at h
  by_cases hhash : hash = env.hashOf b
  · rw [hhash, update_self] at h
    exact .inl ⟨hhash, (some.inj h).symm⟩
  rw [update_of_ne hhash] at h
  exact .inr h

lemma seeded_blocks {rules : BtcRules} (hfits : params.SeedFits rules)
  (h199 : rules.rskip199 = true) :
  deserializeCompact (params.seeded rules).chainHead = some params.seed ∧
    (params.seeded rules).heightIndex params.seed.height =
      some (params.sha256d params.seed.header.raw.bytes) ∧
    (params.seeded rules).lookup (params.sha256d params.seed.header.raw.bytes) = some params.seed ∧
    ∀ hash b, (params.seeded rules).lookup hash = some b →
      params.sha256d b.header.raw.bytes = hash ∧
        (b = params.seed ∨ b.height.toNat < params.seed.height.toNat) := by
  have hnone : loadChainHead BtcCtx.empty = (none, BtcCtx.empty) := rfl
  have hround := deserialize_serialize rules.useV2 params.seed
  rw [hfits.kept] at hround
  -- the seed is stored last, and becomes the head
  obtain ⟨before, hbefore, hseeded⟩ : ∃ before : BtcCtx,
      (∀ hash b, before.lookup hash = some b → params.sha256d b.header.raw.bytes = hash ∧
        b.height.toNat < params.seed.height.toNat) ∧
      params.seeded rules = (setChainHead ⟨params, rules⟩ params.seed
        (putStoredBlock ⟨params, rules⟩ params.seed before).2).2 := by
    unfold seeded ensureBtcChainSeeded
    rw [btcM_bind, hnone]
    cases hcheckpoint : params.checkpoint with
    | none =>
      have hseed : params.seed = ⟨params.genesis, 0, computeWork params.genesis.bits⟩ := by
        rw [seed, hcheckpoint]
        rfl
      rw [hseed]
      exact ⟨BtcCtx.empty, nofun, rfl⟩
    | some checkpoint =>
      have hseed : params.seed = checkpoint := by
        rw [seed, hcheckpoint]
        rfl
      rw [hseed]
      refine ⟨_, fun hash b hb => ?_, rfl⟩
      rcases putStoredBlock_cases hb with ⟨rfl, rfl⟩ | hold
      · refine ⟨by rw [kept_header]; rfl, ?_⟩
        rw [kept_height]
        exact UInt32.lt_iff_toNat_lt.mp (hfits.above checkpoint hcheckpoint)
      · cases hold
  rw [hseeded]
  refine ⟨hround, (congrFun (if_pos h199) _).trans (update_self ..), ?_,
    fun hash b hb => ?_⟩
  · have hput := lookup_putStoredBlock ⟨params, rules⟩ params.seed before
    rw [show params.seed.kept (BtcEnv.mk params rules).useV2 = params.seed from hfits.kept] at hput
    exact (congrFun hput _).trans (update_self ..)
  rcases putStoredBlock_cases hb with ⟨hhash, hseed⟩ | hold
  · rw [hseed, show params.seed.kept (BtcEnv.mk params rules).useV2 = params.seed from hfits.kept]
    exact ⟨hhash.symm, .inl rfl⟩
  obtain ⟨hhash, hbelow⟩ := hbefore hash b hold
  exact ⟨hhash, .inr hbelow⟩

lemma seeded_best {rules : BtcRules} (hfits : params.SeedFits rules)
  (h199 : rules.rskip199 = true) :
  BestChain params.sha256d params.seed (params.seeded rules) params.seed [] := by
  obtain ⟨hhead, hindex, hseed, hblocks⟩ := params.seeded_blocks hfits h199
  refine ⟨hhead, .seed hseed, ?_, ?_, ?_, ?_⟩
  · intro b hb
    rw [mem_singleton.mp hb]
    exact hindex
  · intro b rest hb
    rcases (hblocks _ b hb.stored).2 with rfl | hbelow
    · exact le_rfl
    have := hb.height_eq
    omega
  · intro hash b hb
    exact (hblocks hash b hb).1
  intro hash b hb
  rcases (hblocks hash b hb).2 with rfl | hbelow
  · exact .inl ⟨[], .seed hseed⟩
  · exact .inr hbelow

def FittingStep (ctx : BtcCtx) (e : BtcRules × BtcCall) : Prop :=
  e.1.rskip199 = true ∧
    BtcEnv.CallMeets ⟨params, e.1⟩ (BtcEnv.FitsIfConnected ⟨params, e.1⟩ params.seed) e.2 ctx

/-- **The best chain.** In every run of fitting steps from seeded storage: every stored block
descends from the seed by its parent's height plus one and its parent's work plus its own, or is
below the seed; the head has the most work, and no block of that work was stored before it; a
lookup by height gives the head's ancestor from the seed on, and nothing above the head. -/
theorem best_chain {rules : BtcRules} (hseed : params.SeedFits rules)
  (h199 : rules.rskip199 = true) {hist : List (BtcCtx × (BtcRules × BtcCall))} {ctx : BtcCtx}
  (hrun : Run params.Step (params.seeded rules) hist ctx)
  (hfits : ∀ p ∈ hist, params.FittingStep p.1 p.2) :
  ∃ head ancestors, BestChain params.sha256d params.seed ctx head ancestors ∧
    (∀ p ∈ hist, ∀ b rest, Branch params.sha256d p.1.lookup params.seed (b :: rest) →
      head.chainWork.toNat ≤ b.chainWork.toNat →
      deserializeCompact p.1.chainHead = some head) ∧
    ∀ (now : BtcRules) (height : UInt32), now.rskip199 = true → (head.height < height →
        (mainChainBlockAtHeight ⟨params, now⟩ height false ctx).1 = .storeError) ∧
      (params.seed.height ≤ height → height ≤ head.height →
        ∃ b ∈ head :: ancestors, b.height = height ∧
          (mainChainBlockAtHeight ⟨params, now⟩ height false ctx).1 = .found b) := by
  have hinv : ctx.Ready ∧
      (∃ head ancestors, BestChain params.sha256d params.seed ctx head ancestors) ∧
      ∀ p ∈ hist, ∃ head ancestors, BestChain params.sha256d params.seed p.1 head ancestors ∧
        HasBest params.sha256d params.seed head ctx := by
    refine @Run.invariant _ _ _ _ _ _ params.FittingStep
      (fun hist ctx => ctx.Ready ∧
        (∃ head ancestors, BestChain params.sha256d params.seed ctx head ancestors) ∧
        ∀ p ∈ hist, ∃ head ancestors, BestChain params.sha256d params.seed p.1 head ancestors ∧
          HasBest params.sha256d params.seed head ctx)
      ⟨params.ready_seeded rules, ⟨_, _, params.seeded_best hseed h199⟩,
        nofun⟩ ?_ hrun hfits
    intro hist s e s' hs hgood hstep
    obtain ⟨hready, ⟨head, ancestors, hbest⟩, hearlier⟩ := hs
    have hcall {earlier : StoredBlock} (h : HasBest params.sha256d params.seed earlier s) :
        s'.Ready ∧ HasBest params.sha256d params.seed earlier s' := by
      rw [hstep]
      exact @BtcEnv.call_hasBest ⟨params, e.1⟩ params.seed earlier s hgood.1 hready h e.2 hgood.2
    have hnow : HasBest params.sha256d params.seed head s := ⟨head, ancestors, hbest, .inl rfl⟩
    obtain ⟨hready', head', ancestors', hbest', _⟩ := hcall hnow
    refine ⟨hready', ⟨head', ancestors', hbest'⟩, fun p hp => ?_⟩
    rcases mem_cons.mp hp with rfl | hp
    · exact ⟨head, ancestors, hbest, (hcall hnow).2⟩
    obtain ⟨early, anc, hearly, habove⟩ := hearlier p hp
    exact ⟨early, anc, hearly, (hcall habove).2⟩
  obtain ⟨hready, ⟨head, ancestors, hbest⟩, hearlier⟩ := hinv
  refine ⟨head, ancestors, hbest, fun p hp b rest hb hwork => ?_, fun now height hnow =>
    @BestChain.lookup_height ⟨params, now⟩ _ _ _ _ hbest hready.cacheless hnow height⟩
  obtain ⟨early, anc, hearly, head', anc', hbest', habove⟩ := hearlier p hp
  -- the head is determined by the cell, and no earlier block reaches its work
  have hsame : head' = head := some.inj (hbest'.loaded.symm.trans hbest.loaded)
  subst hsame
  rcases habove with rfl | hmore
  · exact hearly.loaded
  have := hearly.best b rest hb
  omega

end BtcParams

namespace BtcLegacy

def params : BtcParams :=
  { BtcRegtest.params with sha256d := fun b => .ofBytes 32 (window b 76 4) }

def rules : BtcRules := { BtcRegtest.rules with useV2 := false }

/-- A child of the first block with the target `2 ^ 96`. -/
def heavyChild : Bytes :=
  leBytes 4 0x20000000 ++ (params.sha256d params.genesis.raw.bytes).bytes ++
    List.replicate 36 0 ++ leBytes 4 0x0d010000 ++ leBytes 4 1

def afterHeavy : BtcCtx :=
  call ⟨params, rules⟩ (.receiveHeader heavyChild) (params.seeded rules)

/-- **The legacy form loses work**: a block of more than `2 ^ 96` work, within `2 ^ 256`, is
stored with less work than its parent's plus its own. -/
theorem truncated_work : Run params.Step (params.seeded rules)
      [(params.seeded rules, rules, .receiveHeader heavyChild)] afterHeavy ∧
    ∃ b parent, afterHeavy.lookup (params.sha256d heavyChild) = some b ∧
      afterHeavy.lookup b.header.prevBlockhash = some parent ∧ parent = params.seed ∧
      parent.chainWork.toNat + (computeWork b.header.bits).toNat < 2 ^ 256 ∧
      b.chainWork.toNat < parent.chainWork.toNat + (computeWork b.header.bits).toNat := by
  refine ⟨.step .init rfl, (BtcEnv.childOf params.seed (headerOf heavyChild)).kept false,
    params.seed, ?_⟩
  decide +kernel

end BtcLegacy

namespace BtcReorg

open BtcLegacy (params)

def rules : BtcRules := BtcRegtest.rules

/-- A regtest header with no transactions, under the hash that is its nonce. -/
def headerOn (parent : Bytes) (nonce : Nat) : Bytes :=
  leBytes 4 0x20000000 ++ (params.sha256d parent).bytes ++ List.replicate 36 0 ++
    leBytes 4 0x207fffff ++ leBytes 4 nonce

def first : Bytes := headerOn params.genesis.raw.bytes 3
def other : Bytes := headerOn params.genesis.raw.bytes 4
def longer : Bytes := headerOn other 5

def afterFirst : BtcCtx := call ⟨params, rules⟩ (.receiveHeader first) (params.seeded rules)

def afterOther : BtcCtx := (receiveOne ⟨params, rules⟩ other afterFirst).2

/-- The head moves from one child of the seed to a child of the other. -/
def reorganised : BtcCtx := call ⟨params, rules⟩ (.receiveHeaders [other, longer]) afterFirst

def firstBlock : StoredBlock := childOf params.seed (headerOf first)
def otherBlock : StoredBlock := childOf params.seed (headerOf other)

lemma first_parent : (params.seeded rules).lookup (headerOf first).prevBlockhash =
    some params.seed := by decide +kernel

lemma other_parent : afterFirst.lookup (headerOf other).prevBlockhash = some params.seed := by
  decide +kernel

lemma longer_parent : afterOther.lookup (headerOf longer).prevBlockhash = some otherBlock := by
  decide +kernel

lemma fitting_first : params.FittingStep (params.seeded rules) (rules, .receiveHeader first) := by
  refine ⟨rfl, fun parent _ _ hparent => ?_⟩
  rw [first_parent] at hparent
  rw [← some.inj hparent]
  exact ⟨⟨[], .seed (by decide +kernel)⟩, by decide +kernel, by decide +kernel,
    by decide +kernel⟩

lemma fitting_branch : params.FittingStep afterFirst (rules, .receiveHeaders [other, longer]) := by
  refine ⟨rfl, fun parent _ _ hparent => ?_, fun parent _ _ hparent => ?_, trivial⟩
  · rw [other_parent] at hparent
    rw [← some.inj hparent]
    exact ⟨⟨[], .seed (by decide +kernel)⟩, by decide +kernel, by decide +kernel,
      by decide +kernel⟩
  have hsame : afterOther.lookup (headerOf longer).prevBlockhash = some parent := hparent
  rw [longer_parent] at hsame
  rw [← some.inj hsame]
  have hseed : afterOther.lookup (params.sha256d params.seed.header.raw.bytes) =
      some params.seed := by decide +kernel
  refine ⟨⟨[params.seed], .grow (.seed hseed) ?_ ?_ ?_ ?_⟩, by decide +kernel, by decide +kernel,
    by decide +kernel⟩ <;> decide +kernel

lemma run_reorganised : Run params.Step (params.seeded rules)
    [(afterFirst, rules, .receiveHeaders [other, longer]),
      (params.seeded rules, rules, .receiveHeader first)] reorganised :=
  .step (.step .init rfl) rfl

lemma fitting_reorganised : ∀ p ∈ [(afterFirst, rules, BtcCall.receiveHeaders [other, longer]),
    (params.seeded rules, rules, .receiveHeader first)], params.FittingStep p.1 p.2 := by
  rw [forall_mem_cons, forall_mem_singleton]
  dsimp only
  refine ⟨?_, ?_⟩
  · exact fitting_branch
  · exact fitting_first

/-- A reorganisation: two headers on the seed, then one on the second. -/
theorem best_chain_reorganised : (loadChainHead afterFirst).1 = some firstBlock ∧
    (loadChainHead reorganised).1 = some (childOf otherBlock (headerOf longer)) ∧
    ∃ head ancestors, BestChain params.sha256d params.seed reorganised head ancestors := by
  have hseed : params.SeedFits rules := ⟨rfl, nofun⟩
  refine ⟨by decide +kernel, by decide +kernel, ?_⟩
  obtain ⟨head, ancestors, hbest, _⟩ :=
    params.best_chain hseed rfl run_reorganised fitting_reorganised
  exact ⟨head, ancestors, hbest⟩

end BtcReorg

end Rustock
