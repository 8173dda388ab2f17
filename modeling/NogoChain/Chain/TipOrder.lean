import NogoChain.Chain.Weight
import NogoChain.Lib.Selection

/-!
# The order of the map does not choose the tip

`findBestChainTipLocked` ranges over a map and keeps the best tip so far, and every comparison
may enter work in the cache that a later one reads. Neither makes the result depend on the order.
What the cache says is what the walk would say without it, as long as that is so at the start
(`Chain.CacheConsistent`): the walk with the cache is a part of the walk without it. And the
comparison – work, height, hash – ranks the tips, as long as hashes are of one length and
different blocks have different ones.
-/

namespace NogoChain

open Prog

variable {env : Env} {c : Chain}

/-! ## The comparison ranks the tips -/

namespace Chain

/-- Hashes of one length are compared as lists. -/
theorem lowerHash_iff {a b : Bytes} (hlength : a.length = b.length) :
    (lowerHash a b = some true ↔ a < b) ∧ (lowerHash a b = some false ↔ b < a) := by
  induction a generalizing b with
  | nil =>
    obtain rfl := List.length_eq_zero_iff.mp hlength.symm
    exact ⟨⟨nofun, fun h => absurd h (List.lt_irrefl _)⟩,
      ⟨nofun, fun h => absurd h (List.lt_irrefl _)⟩⟩
  | cons x xs ih =>
    cases b with
    | nil => cases hlength
    | cons y ys =>
      unfold lowerHash
      rw [List.cons_lt_cons_iff, List.cons_lt_cons_iff]
      by_cases hxy : x < y
      · have hyx := UInt8.lt_asymm hxy
        have hne : y ≠ x := fun heq => hyx (heq ▸ hxy)
        simp [hxy, hyx, hne]
      · by_cases hyx : y < x
        · have hne : x ≠ y := fun heq => hxy (heq ▸ hyx)
          simp [hxy, hyx, hne]
        · obtain rfl : x = y := UInt8.le_antisymm (UInt8.not_lt.mp hyx) (UInt8.not_lt.mp hxy)
          simpa [hxy] using ih (Nat.succ.inj hlength)

theorem shouldSwitch_iff {a b : Block} (hlength : a.hash.length = b.hash.length) :
    shouldSwitchBasedOnTieBreakerLocked a b = true ↔ a.hash < b.hash
      ∨ (Level (fun a b : Block => a.hash < b.hash) a b
        ∧ calculateTotalFeesLocked b < calculateTotalFeesLocked a) := by
  obtain ⟨htrue, hfalse⟩ := lowerHash_iff hlength
  unfold shouldSwitchBasedOnTieBreakerLocked Level
  cases hlower : lowerHash a.hash b.hash with
  | none =>
    have hlt : ¬ a.hash < b.hash := fun h => nomatch hlower.symm.trans (htrue.mpr h)
    have hgt : ¬ b.hash < a.hash := fun h => nomatch hlower.symm.trans (hfalse.mpr h)
    simp [hlt, hgt]
  | some lower =>
    cases lower with
    | true =>
      have hlt := htrue.mp hlower
      simp [hlt]
    | false =>
      have hgt := hfalse.mp hlower
      simp [hgt, List.lt_asymm hgt]

end Chain

/-- A hash of 32 bytes. -/
def Candidate.FullHash (k : Candidate) : Prop := k.tip.hash.length = 32

theorem level_work {a b : Candidate} :
    Level (fun a b : Candidate => b.work < a.work) a b ↔ a.work = b.work := by
  unfold Level
  omega

theorem level_height {a b : Candidate} :
    Level (fun a b : Candidate => b.height.toNat < a.height.toNat) a b
      ↔ a.height = b.height := by
  unfold Level
  rw [← UInt64.toNat_inj]
  omega

/-- **The comparison of tips is a ranking**: by work, by height, by hash and by fees. -/
theorem ranksOn_isBetter : RanksOn Candidate.FullHash fun a b => a.isBetter b = true := by
  have hhash : RanksOn Candidate.FullHash fun a b => a.tip.hash < b.tip.hash :=
    { asymm := fun _ _ => List.lt_asymm
      cotrans := fun {a b d} _ _ _ had => by
        by_cases hab : a.tip.hash < b.tip.hash
        · exact .inl hab
        · exact .inr (List.lt_of_le_of_lt (List.not_lt.mp hab) had) }
  have hwork := ranksOn_key (P := Candidate.FullHash) fun k => k.work
  have hheight := ranksOn_key (P := Candidate.FullHash) fun k => k.height.toNat
  have hfees := ranksOn_key (P := Candidate.FullHash)
    fun k => (Chain.calculateTotalFeesLocked k.tip).toNat
  refine (hwork.lex (hheight.lex (hhash.lex hfees))).congr fun {a b} ha hb => ?_
  unfold Candidate.isBetter
  rw [decide_eq_true_iff, Chain.shouldSwitch_iff (ha.trans hb.symm), level_work, level_height]
  rfl

/-- Candidates that are level have one hash. -/
theorem eq_hash_of_level {a b : Candidate} (ha : a.FullHash) (hb : b.FullHash)
    (h : Level (fun a b : Candidate => a.isBetter b = true) a b) : a.tip.hash = b.tip.hash := by
  obtain ⟨hab, hba⟩ := h
  unfold Candidate.isBetter at hab hba
  dsimp only at hab hba
  rw [decide_eq_true_iff, Chain.shouldSwitch_iff (ha.trans hb.symm), not_or] at hab
  rw [decide_eq_true_iff, Chain.shouldSwitch_iff (hb.trans ha.symm), not_or] at hba
  have hwork : a.work = b.work := Nat.le_antisymm (not_lt.mp hab.1) (not_lt.mp hba.1)
  obtain ⟨hhigher, hhash⟩ := not_or.mp fun h => hab.2 ⟨hwork, h⟩
  obtain ⟨hhigher', hhash'⟩ := not_or.mp fun h => hba.2 ⟨hwork.symm, h⟩
  have hheight : a.height = b.height :=
    UInt64.le_antisymm (UInt64.not_lt.mp hhigher) (UInt64.not_lt.mp hhigher')
  have hle := fun h => hhash ⟨hheight, .inl h⟩
  have hle' := fun h => hhash' ⟨hheight.symm, .inl h⟩
  exact List.le_antisymm (List.not_lt.mp hle') (List.not_lt.mp hle)

/-! ## Work without the cache -/

/-- The chain with an empty work cache. -/
def Chain.uncached (c : Chain) : Chain := { c with workCache := ∅ }

/-- **The work of a block without the cache**: that of all blocks on the walk from it; none, if
the walk does not end. -/
def Chain.freshWork (c : Chain) (b : Block) : Option Nat :=
  (walk c.uncached.workStep c.walkBound b).map fun r => (r.1.map blockWork).sum

/-- **The work cache is consistent**: what it has for a stored block is the work of that block
without the cache. -/
def Chain.CacheConsistent (c : Chain) (cache : GoMap Bytes Nat) : Prop :=
  ∀ b ∈ c.storedBlocks, ∀ n ∈ cache.lookup b.hash, c.freshWork b = some n

/-- **Stored blocks have distinct hashes of 32 bytes.** -/
structure Chain.DistinctHashes (c : Chain) : Prop where
  inj : ∀ a ∈ c.storedBlocks, ∀ b ∈ c.storedBlocks, a.hash = b.hash → a = b
  length : ∀ b ∈ c.storedBlocks, b.hash.length = 32

namespace Chain

variable {b : Block} {n : Nat}

/-- Where the cache has nothing, it makes no difference. -/
theorem workStep_uncached (h : c.workCache.lookup b.hash = none) :
    c.uncached.workStep b = c.workStep b := by
  unfold workStep
  rw [h]
  rfl

theorem uncached_done {r : Option Nat} (h : c.uncached.workStep b = .done r) : r = none := by
  by_cases hstop : b.header.prevHash = [] ∨ b.height = 0
  · unfold workStep at h
    rw [if_pos hstop] at h
    exact (WalkStep.done.inj h).symm
  · rw [workStep_eq (AList.lookup_empty _) hstop] at h
    split at h
    · cases h
    · exact (WalkStep.done.inj h).symm

theorem workStep_mem {b p : Block} (h : c.workStep b = .next p) : p ∈ c.walkBlocks := by
  rcases workStep_next h with hp | hp | ⟨-, hp⟩
  · exact mem_walkBlocks (.inl hp)
  · exact mem_walkBlocks (.inr hp)
  · exact List.mem_append_right _ (List.mem_of_getElem? hp)

/-- Any bound within which the walk ends will do. -/
theorem freshWork_eq_some_iff :
    c.freshWork b = some n
      ↔ ∃ m l r, walk c.uncached.workStep m b = some (l, r) ∧ (l.map blockWork).sum = n := by
  unfold freshWork
  rw [Option.map_eq_some_iff]
  constructor
  · rintro ⟨⟨l, r⟩, hwalk, hsum⟩
    exact ⟨_, l, r, hwalk, hsum⟩
  · rintro ⟨m, l, r, hwalk, hsum⟩
    have hwithin := walk_within c.walkBlocks (fun _ _ h => workStep_mem (c := c.uncached) h) hwalk
    rw [c.length_walkBlocks] at hwithin
    exact ⟨(l, r), hwithin, hsum⟩

theorem freshWork_of_done {r : Option Nat} (h : c.uncached.workStep b = .done r) :
    c.freshWork b = some (blockWork b) :=
  freshWork_eq_some_iff.mpr ⟨1, [b], r, walk_succ_eq_some.mpr (.inl ⟨h, rfl⟩), rfl⟩

theorem freshWork_of_next {p : Block} (h : c.uncached.workStep b = .next p)
    (hp : c.freshWork p = some n) : c.freshWork b = some (n + blockWork b) := by
  obtain ⟨m, l, r, hwalk, rfl⟩ := freshWork_eq_some_iff.mp hp
  refine freshWork_eq_some_iff.mpr ⟨m + 1, b :: l, r, walk_succ_eq_some.mpr (.inr ?_), ?_⟩
  · exact ⟨p, l, h, hwalk, rfl⟩
  · rw [List.map_cons, List.sum_cons, Nat.add_comm]

theorem CacheConsistent.insert {cache : GoMap Bytes Nat} (h : c.CacheConsistent cache)
    (hc : c.DistinctHashes) {b : Block} (hb : b ∈ c.storedBlocks) {n : Nat}
    (hn : c.freshWork b = some n) : c.CacheConsistent (cache.insert b.hash n) := by
  intro x hx m hm
  rw [GoMap.lookup_insert] at hm
  split at hm
  · next hhash =>
    obtain rfl := hc.inj x hx b hb hhash
    rw [hn]
    exact hm
  · exact h x hx m hm

/-- **The walk with the cache gives the work without it**, and what is entered in the cache is
consistent. -/
theorem CacheConsistent.accumulateWork (hc : c.DistinctHashes)
    (hcache : c.CacheConsistent c.workCache) {n : Nat} {b : Block} {visited : List Block}
    {r : Option Nat} (hb : b ∈ c.storedBlocks)
    (hwalk : walk c.workStep n b = some (visited, r)) {cache : GoMap Bytes Nat}
    (h : c.CacheConsistent cache) :
    let path := if r.isSome then visited.dropLast else visited
    c.freshWork b = some (Chain.accumulateWork path (r.getD 0) cache).1
      ∧ c.CacheConsistent (Chain.accumulateWork path (r.getD 0) cache).2 := by
  induction n generalizing b visited with
  | zero => cases hwalk
  | succ n ih =>
    rcases walk_succ_eq_some.mp hwalk with ⟨hstep, rfl⟩ | ⟨p, l, hstep, hrest, rfl⟩
    · cases hlookup : c.workCache.lookup b.hash with
      | some cached =>
        rw [workStep, hlookup] at hstep
        cases hstep
        exact ⟨hcache b hb cached hlookup, h⟩
      | none =>
        rw [← workStep_uncached hlookup] at hstep
        obtain rfl := uncached_done hstep
        have hfresh := freshWork_of_done hstep
        rw [← Nat.zero_add (blockWork b)] at hfresh
        exact ⟨hfresh, h.insert hc hb hfresh⟩
    · have hlookup := uncached_of_next hstep
      have hp : p ∈ c.storedBlocks := List.mem_append_left _ (workStep_mem hstep)
      obtain ⟨hwork, hentered⟩ := ih hp hrest
      have hfresh := freshWork_of_next ((workStep_uncached hlookup).trans hstep) hwork
      rw [workPath_cons r b (walk_ne_nil hrest)]
      exact ⟨hfresh, hentered.insert hc hb hfresh⟩

/-- The walk with the cache ends where the walk without it does, or before. -/
theorem walk_isSome_of_uncached
    (h : (walk c.uncached.workStep n b).isSome) : (walk c.workStep n b).isSome := by
  induction n generalizing b with
  | zero => exact h
  | succ n ih =>
    obtain ⟨⟨l, r⟩, hwalk⟩ := Option.isSome_iff_exists.mp h
    cases hlookup : c.workCache.lookup b.hash with
    | some cached =>
      have hstep : c.workStep b = .done (some cached) := by
        rw [workStep, hlookup]
      rw [walk_succ_eq_some.mpr (.inl ⟨hstep, rfl⟩)]
      rfl
    | none =>
      have hsame := workStep_uncached hlookup
      rcases walk_succ_eq_some.mp hwalk with ⟨hstep, -⟩ | ⟨p, l', hstep, hwalk', -⟩
      · rw [walk_succ_eq_some.mpr (.inl ⟨hsame.symm.trans hstep, rfl⟩)]
        rfl
      · obtain ⟨⟨l'', r'⟩, hrest⟩ := Option.isSome_iff_exists.mp (ih (b := p) (by rw [hwalk']; rfl))
        rw [walk_succ_eq_some.mpr (.inr ⟨p, l'', hsame.symm.trans hstep, hrest, rfl⟩)]
        rfl

end Chain

/-! ## The programs -/

/-- **A chain on which work does not depend on the cache.** -/
structure Chain.Weighs (c : Chain) : Prop where
  hashes : c.DistinctHashes
  cache : c.CacheConsistent c.workCache

/-- **The programs keep it.** -/
structure SameForks (w w' : World) : Prop where
  cacheOnly : CacheOnly w w'
  weighs : w.chain.Weighs → w'.chain.Weighs

instance : IsPreorder World SameForks where
  refl _ := ⟨refl _, id⟩
  trans _ _ _ h h' :=
    ⟨trans_of CacheOnly h.cacheOnly h'.cacheOnly, fun hw => h'.weighs (h.weighs hw)⟩

theorem SameForks.freshWork {w w' : World} (h : SameForks w w') (b : Block) :
    w'.chain.freshWork b = w.chain.freshWork b := by
  obtain ⟨⟨m, n, rfl⟩, -⟩ := h
  rfl

theorem SameForks.storedBlocks {w w' : World} (h : SameForks w w') :
    w'.chain.storedBlocks = w.chain.storedBlocks := by
  obtain ⟨⟨m, n, rfl⟩, -⟩ := h
  rfl

theorem sameForks_ask {α : Type} (answer : Nat → α) (w : World) : Steps SameForks (ask answer) w :=
  steps_of_ret (t := { w with chain := w.chain.ticked }) rfl
    ⟨⟨_, _, rfl⟩, fun h => ⟨⟨h.hashes.inj, h.hashes.length⟩, h.cache⟩⟩

/-- Eviction leaves a consistent cache. -/
theorem sameForks_enforceWorkCacheSize (w : World) :
    Steps SameForks (enforceWorkCacheSize env) w := by
  refine steps_chain_bind ?_
  split
  · exact steps_pure () w
  · refine steps_bind_all (sameForks_ask _ w) fun keys t => ?_
    refine steps_update ⟨⟨_, _, rfl⟩, fun h => ⟨⟨h.hashes.inj, h.hashes.length⟩, ?_⟩⟩
    intro b hb n hn
    exact h.cache b hb n (GoMap.lookup_of_foldl_erase (fun k : Bytes => k) hn)

variable {b : Block}

/-- **`calculateCumulativeWorkLocked`** returns the work without the cache, or does not return
where there is none. -/
theorem calculateCumulativeWorkLocked_fresh (env : Env) {w : World} (hw : w.chain.Weighs)
    (hb : b ∈ w.chain.storedBlocks) :
    (∃ n t, w.chain.freshWork b = some n ∧ calculateCumulativeWorkLocked env b w = .ret n t
        ∧ SameForks w t)
      ∨ (w.chain.freshWork b = none ∧ calculateCumulativeWorkLocked env b w = .fault .hang) := by
  unfold calculateCumulativeWorkLocked
  rw [chain_bind_apply]
  cases hlookup : w.chain.workCache.lookup b.hash with
  | some cached => exact .inl ⟨cached, w, hw.cache b hb cached hlookup, rfl, refl _⟩
  | none =>
    dsimp only
    rw [bind_apply]
    unfold unboundedWalk
    cases hwalk : walk w.chain.workStep w.chain.walkBound b with
    | none =>
      refine .inr ⟨?_, rfl⟩
      unfold Chain.freshWork
      cases hfresh : walk w.chain.uncached.workStep w.chain.walkBound b with
      | none => rfl
      | some r =>
        have hends := Chain.walk_isSome_of_uncached (c := w.chain) (by rw [hfresh]; rfl)
        rw [hwalk] at hends
        cases hends
    | some r =>
      obtain ⟨visited, r⟩ := r
      obtain ⟨hfresh, hentered⟩ := hw.cache.accumulateWork hw.hashes hb hwalk hw.cache
      have hupdated : SameForks w { w with chain := { w.chain with workCache :=
          (Chain.accumulateWork (if r.isSome then visited.dropLast else visited) (r.getD 0)
            w.chain.workCache).2 } } :=
        ⟨⟨_, _, rfl⟩, fun h => ⟨⟨h.hashes.inj, h.hashes.length⟩, hentered⟩⟩
      obtain ⟨t, ht⟩ : ∃ t, enforceWorkCacheSize env { w with chain := { w.chain with workCache :=
          (Chain.accumulateWork (if r.isSome then visited.dropLast else visited) (r.getD 0)
            w.chain.workCache).2 } } = .ret () t := exists_enforceWorkCacheSize _
      refine .inl ⟨_, t, hfresh, ?_, ?_⟩
      · exact bind_eq_ret.mpr ⟨(), _, rfl, bind_eq_ret.mpr ⟨(), t, ht, rfl⟩⟩
      · exact trans_of SameForks hupdated ((sameForks_enforceWorkCacheSize _).of_ret ht)

/-! ## The loop over the fork blocks -/

/-- The completeness check does not panic on hashes of 32 bytes. -/
theorem Chain.DistinctHashes.isForkChainCompleteLoop (hc : c.DistinctHashes) (n : Nat)
    (visited : List Bytes) {b : Block} (hb : b ∈ c.storedBlocks) :
    (c.isForkChainCompleteLoop n visited b).isSome := by
  induction n generalizing visited b with
  | zero => rfl
  | succ n ih =>
    unfold Chain.isForkChainCompleteLoop
    split
    · rw [if_neg (by rw [hc.length b hb]; decide)]
      rfl
    · split
      · rfl
      · split
        · rfl
        · split
          · next p hp => exact ih _ (List.mem_append_left _ (Chain.mem_walkBlocks (.inl hp)))
          · rfl

/-- **A fork block that is compared**: not too deep, the parent of no other one, and complete. -/
def Chain.Compared (c : Chain) (height : UInt64) (parents : List Bytes) (b : Block) : Prop :=
  ¬ (height > maxReorgDepth ∧ b.height < height - maxReorgDepth) ∧ b.hash ∉ parents
    ∧ c.isForkChainCompleteLocked b = some true

instance (height : UInt64) (parents : List Bytes) : DecidablePred (c.Compared height parents) :=
  fun _ => inferInstanceAs (Decidable (¬ _ ∧ _ ∧ _))

/-- What a fork block is compared as. -/
def Chain.candidate (c : Chain) (b : Block) : Candidate := ⟨b, b.height, (c.freshWork b).getD 0⟩

/-- One fork block. -/
theorem considerForkBlock_eq (env : Env) {w : World} (hw : w.chain.Weighs)
    (hb : b ∈ w.chain.storedBlocks) (height : UInt64) (parents : List Bytes) (best : Candidate) :
    (¬ w.chain.Compared height parents b
        ∧ considerForkBlock env height parents best b w = .ret best w)
      ∨ (w.chain.Compared height parents b ∧ (w.chain.freshWork b).isSome ∧ ∃ t, SameForks w t
        ∧ considerForkBlock env height parents best b w
          = .ret (keepBetter (fun a b => a.isBetter b = true) best (w.chain.candidate b)) t)
      ∨ (w.chain.Compared height parents b ∧ (w.chain.freshWork b).isNone
        ∧ considerForkBlock env height parents best b w = .fault .hang) := by
  unfold considerForkBlock Chain.Compared
  split
  · next hdeep =>
    exact .inl ⟨fun h => h.1 hdeep, rfl⟩
  · next hdeep =>
    rw [Prog.ite_apply]
    split
    · next hparent =>
      exact .inl ⟨fun h => h.2.1 hparent, rfl⟩
    · next hparent =>
      obtain ⟨complete, hcomplete⟩ :=
        Option.isSome_iff_exists.mp (hw.hashes.isForkChainCompleteLoop 10000 [] hb)
      have hcomplete : w.chain.isForkChainCompleteLocked b = some complete := hcomplete
      have hret : forkChainComplete b w = .ret complete w := by
        unfold forkChainComplete
        rw [chain_bind_apply, hcomplete]
        rfl
      rw [bind_apply, hret]
      cases complete with
      | false =>
        refine .inl ⟨fun h => ?_, rfl⟩
        exact nomatch h.2.2.symm.trans hcomplete
      | true =>
        have hcompared := And.intro hdeep (And.intro hparent hcomplete)
        dsimp only
        rw [if_neg (by decide)]
        rcases calculateCumulativeWorkLocked_fresh env hw hb with
          ⟨n, t, hfresh, hwork, hsame⟩ | ⟨hfresh, hwork⟩
        · refine .inr (.inl ⟨hcompared, by rw [hfresh]; rfl, t, hsame, ?_⟩)
          rw [bind_apply, hwork]
          unfold Chain.candidate
          rw [hfresh]
          rfl
        · refine .inr (.inr ⟨hcompared, by rw [hfresh]; rfl, ?_⟩)
          rw [bind_apply, hwork]

theorem SameForks.compared {w w' : World} (h : SameForks w w') (height : UInt64)
    (parents : List Bytes) (b : Block) :
    w'.chain.Compared height parents b ↔ w.chain.Compared height parents b := by
  unfold Chain.Compared
  rw [h.cacheOnly.isForkChainComplete]

theorem SameForks.candidate {w w' : World} (h : SameForks w w') :
    w'.chain.candidate = w.chain.candidate := by
  funext b
  unfold Chain.candidate
  rw [h.freshWork]

/-- The candidates among the blocks. -/
def Chain.candidates (c : Chain) (height : UInt64) (parents : List Bytes) (bs : List Block) :
    List Candidate :=
  (bs.filter fun b => c.Compared height parents b).map c.candidate

theorem SameForks.candidates {w w' : World} (h : SameForks w w') (height : UInt64)
    (parents : List Bytes) (bs : List Block) :
    w'.chain.candidates height parents bs = w.chain.candidates height parents bs := by
  unfold Chain.candidates
  simp only [h.compared, h.candidate]

/-- **The loop keeps the best candidate**, and returns if every walk for one ends. -/
theorem considerForkBlocks_value (env : Env) {w : World} (hw : w.chain.Weighs) {bs : List Block}
    (hbs : ∀ b ∈ bs, b ∈ w.chain.storedBlocks) (height : UInt64) (parents : List Bytes)
    (best : Candidate) :
    (considerForkBlocks env height parents best bs w).value?
      = if ∀ b ∈ bs, w.chain.Compared height parents b → (w.chain.freshWork b).isSome then
          some ((w.chain.candidates height parents bs).foldl
            (keepBetter fun a b => a.isBetter b = true) best)
        else none := by
  induction bs generalizing w best with
  | nil =>
    rfl
  | cons b bs ih =>
    have hb := hbs b List.mem_cons_self
    have hrest : ∀ x ∈ bs, x ∈ w.chain.storedBlocks := fun x hx => hbs x (List.mem_cons_of_mem b hx)
    unfold considerForkBlocks Chain.candidates
    rw [bind_apply]
    rcases considerForkBlock_eq env hw hb height parents best with
      ⟨hnot, hret⟩ | ⟨hcompared, hsome, t, hsame, hret⟩ | ⟨hcompared, hnone, hfault⟩
    · rw [hret, List.filter_cons_of_neg (by simpa using hnot)]
      rw [ih hw hrest]
      refine if_congr ?_ rfl rfl
      rw [List.forall_mem_cons]
      exact (and_iff_right fun h => absurd h hnot).symm
    · rw [hret, List.filter_cons_of_pos (by simpa using hcompared)]
      rw [ih (hsame.weighs hw) (by rwa [hsame.storedBlocks]), hsame.candidates]
      refine if_congr ?_ rfl rfl
      rw [List.forall_mem_cons, and_iff_right fun _ => hsome]
      refine forall₂_congr fun x _ => ?_
      rw [hsame.compared, hsame.freshWork]
    · rw [hfault, if_neg]
      · rfl
      · intro hall
        have hsome := hall b List.mem_cons_self hcompared
        rw [Option.isNone_iff_eq_none.mp hnone] at hsome
        cases hsome

/-! ## The best tip -/

/-- Every walk for a fork block that is compared ends. -/
def Chain.WalksEnd (c : Chain) : Prop :=
  ∀ b ∈ c.forkBlocks.entries.flatMap (·.2), c.isForkChainCompleteLocked b = some true →
    (c.freshWork b).isSome

/-- The parents of the fork blocks. -/
def Chain.forkParents (c : Chain) : List Bytes :=
  (c.forkBlocks.entries.flatMap (·.2)).map (·.header.prevHash)

/-- The fork blocks in the order in which they are ranged over. -/
def Chain.rangedForks (c : Chain) (env : Env) : List Block :=
  (env.order c.tick c.forkBlocks.entries).flatMap (·.2)

theorem Chain.rangedForks_perm (c : Chain) (env : Env) :
    (c.rangedForks env).Perm (c.forkBlocks.entries.flatMap (·.2)) :=
  (env.order_perm _ _).flatMap_right _

/-- The blocks of the canonical chain and the fork blocks are stored. -/
theorem Chain.mem_storedBlocks_of_forks
    (hb : b ∈ c.forkBlocks.entries.flatMap (·.2)) : b ∈ c.storedBlocks :=
  List.mem_append_right _ hb

theorem Chain.mem_storedBlocks_of_tip (hb : c.tip? = some b) : b ∈ c.storedBlocks :=
  List.mem_append_left _ (List.mem_append_right _ (List.mem_of_getLast? hb))

section Tip

variable (env : Env) {w : World} (hw : w.chain.Weighs)
include hw

/-- **`findBestChainTipLocked` is a selection** among the canonical tip and the candidates. -/
theorem findBestChainTipLocked_value {tip : Block} (htip : w.chain.tip? = some tip) :
    let height := UInt64.ofNat (w.chain.blocks.length - 1)
    let forks := w.chain.rangedForks env
    (findBestChainTipLocked env w).value?
      = if ∀ b ∈ forks, w.chain.Compared height w.chain.forkParents b →
            (w.chain.freshWork b).isSome then
          some (some ((w.chain.candidates height w.chain.forkParents forks).foldl
            (keepBetter fun a b => a.isBetter b = true) ⟨tip, height, w.chain.canonicalWork⟩).tip)
        else none := by
  intro height forks
  have hsame : SameForks w { w with chain := w.chain.ticked } :=
    sameForks_ask (fun n => env.order n w.chain.forkBlocks.entries) w _ rfl
  have hforks : ∀ b ∈ forks, b ∈ ({ w with chain := w.chain.ticked } : World).chain.storedBlocks :=
    fun b hb => Chain.mem_storedBlocks_of_forks ((w.chain.rangedForks_perm env).mem_iff.mp hb)
  have hloop := considerForkBlocks_value env (hsame.weighs hw) hforks height w.chain.forkParents
    ⟨tip, height, w.chain.canonicalWork⟩
  rw [hsame.candidates] at hloop
  have hiff : (∀ b ∈ forks, ({ w with chain := w.chain.ticked } : World).chain.Compared height
        w.chain.forkParents b →
          (({ w with chain := w.chain.ticked } : World).chain.freshWork b).isSome)
      ↔ ∀ b ∈ forks, w.chain.Compared height w.chain.forkParents b →
          (w.chain.freshWork b).isSome := by
    refine forall₂_congr fun b _ => ?_
    rw [hsame.compared, hsame.freshWork]
  unfold findBestChainTipLocked
  rw [chain_bind_apply, htip]
  refine (value?_bind_pure _ (fun best : Candidate => some best.tip) _).trans ?_
  refine (congrArg (Option.map fun best : Candidate => some best.tip)
    (hloop.trans (if_congr hiff rfl rfl))).trans ?_
  split <;> rfl

omit env in
/-- **Two orders of the fork blocks** select one tip. -/
theorem eq_tip_of_perm {tip : Block} (htip : w.chain.tip? = some tip) {bs bs' : List Block}
    (hbs : ∀ b ∈ bs, b ∈ w.chain.storedBlocks) (hperm : bs.Perm bs') (height : UInt64)
    (parents : List Bytes) :
    ((w.chain.candidates height parents bs).foldl
        (keepBetter fun a b => a.isBetter b = true) ⟨tip, height, w.chain.canonicalWork⟩).tip
      = ((w.chain.candidates height parents bs').foldl
        (keepBetter fun a b => a.isBetter b = true) ⟨tip, height, w.chain.canonicalWork⟩).tip := by
  have hcandidates : (w.chain.candidates height parents bs).Perm
      (w.chain.candidates height parents bs') := (hperm.filter _).map _
  -- what is selected from is stored
  have hstored : ∀ k ∈ (⟨tip, height, w.chain.canonicalWork⟩ : Candidate)
      :: w.chain.candidates height parents bs, k.tip ∈ w.chain.storedBlocks := by
    intro k hk
    rcases List.mem_cons.mp hk with rfl | hk
    · exact Chain.mem_storedBlocks_of_tip htip
    · obtain ⟨b, hb, rfl⟩ := List.mem_map.mp hk
      exact hbs b (List.mem_of_mem_filter hb)
  have hfull : ∀ k ∈ (⟨tip, height, w.chain.canonicalWork⟩ : Candidate)
      :: w.chain.candidates height parents bs, k.FullHash :=
    fun k hk => hw.hashes.length k.tip (hstored k hk)
  have hlevel := ranksOn_isBetter.foldl_perm hcandidates (hfull _ List.mem_cons_self)
    fun k hk => hfull k (List.mem_cons_of_mem _ hk)
  have hmem := foldl_keepBetter_mem (fun a b : Candidate => a.isBetter b = true)
    (w.chain.candidates height parents bs) ⟨tip, height, w.chain.canonicalWork⟩
  have hmem' := (hcandidates.cons _).mem_iff.mpr (foldl_keepBetter_mem
    (fun a b : Candidate => a.isBetter b = true) (w.chain.candidates height parents bs')
    ⟨tip, height, w.chain.canonicalWork⟩)
  exact hw.hashes.inj _ (hstored _ hmem) _ (hstored _ hmem')
    (eq_hash_of_level (hfull _ hmem) (hfull _ hmem') hlevel)

/-- **The order of the map does not choose the tip.** On a chain whose stored blocks have distinct
hashes of 32 bytes and whose work cache is consistent, the call returns one block in every order
in which the map of the fork blocks – and the work cache, when it is cut – can be ranged over. It
returns in all of them or in none, and in all of them if the walks for the complete fork chains
end. -/
theorem findBestChainTipLocked_same_for_all_orders (env' : Env) :
    (findBestChainTipLocked env w).value? = (findBestChainTipLocked env' w).value?
      ∧ (w.chain.WalksEnd → ∃ tip?, (findBestChainTipLocked env w).value? = some tip?) := by
  cases htip : w.chain.tip? with
  | none =>
    have hnil : ∀ env, (findBestChainTipLocked env w).value? = some none := fun env => by
      unfold findBestChainTipLocked
      rw [chain_bind_apply, htip]
      rfl
    exact ⟨(hnil env).trans (hnil env').symm, fun _ => ⟨none, hnil env⟩⟩
  | some tip =>
    have hvalue := fun env => findBestChainTipLocked_value env hw htip
    have hperm : (w.chain.rangedForks env).Perm (w.chain.rangedForks env') :=
      (w.chain.rangedForks_perm env).trans (w.chain.rangedForks_perm env').symm
    refine ⟨?_, fun hends => ?_⟩
    · rw [hvalue env, hvalue env']
      refine if_congr ?_ (congrArg (fun b => some (some b)) ?_) rfl
      · exact forall_congr' fun b => imp_congr_left hperm.mem_iff
      · exact eq_tip_of_perm hw htip (fun b hb =>
          Chain.mem_storedBlocks_of_forks ((w.chain.rangedForks_perm env).mem_iff.mp hb)) hperm _ _
    · refine ⟨_, (hvalue env).trans (if_pos fun b hb hcompared => ?_)⟩
      exact hends b ((w.chain.rangedForks_perm env).mem_iff.mp hb) hcompared.2.2

end Tip

instance (c : Chain) : Decidable c.Weighs :=
  decidable_of_iff ((∀ a ∈ c.storedBlocks, ∀ b ∈ c.storedBlocks, a.hash = b.hash → a = b)
      ∧ (∀ b ∈ c.storedBlocks, b.hash.length = 32)
      ∧ ∀ b ∈ c.storedBlocks, ∀ n ∈ c.workCache.lookup b.hash, c.freshWork b = some n)
    ⟨fun ⟨hinj, hlength, hcache⟩ => ⟨⟨hinj, hlength⟩, hcache⟩,
      fun h => ⟨h.hashes.inj, h.hashes.length, h.cache⟩⟩

instance (c : Chain) : Decidable c.WalksEnd :=
  inferInstanceAs (Decidable (∀ b ∈ c.forkBlocks.entries.flatMap (·.2),
    c.isForkChainCompleteLocked b = some true → (c.freshWork b).isSome))

/-- The environment of the samples with every map ranged over backwards. -/
def backwardEnv : Env := { sampleEnv with
  order := fun _ l => l.reverse
  order_perm := fun _ l => l.reverse_perm }

/-- Three light rivals at two heights: both orders select the canonical tip. -/
theorem findBestChainTipLocked_backward :
    ∃ w tip?, runFromStart sampleEnv ([numberedBlock 1 0 1 90, numberedBlock 2 0 1 40,
        numberedBlock 3 2 2 50, numberedBlock 4 0 1 90].map .addBlock) = some w
      ∧ w.chain.forkBlocks.entries.length = 2
      ∧ (findBestChainTipLocked sampleEnv w).value? = some tip?
      ∧ (findBestChainTipLocked backwardEnv w).value? = some tip? := by
  simp only [exists_and_left]
  refine exists_and_of (fun w => w.chain.forkBlocks.entries.length = 2 ∧ w.chain.Weighs
    ∧ w.chain.WalksEnd) (by decide +kernel) fun w _ h => ?_
  obtain ⟨hforks, hweighs, hends⟩ := h
  obtain ⟨hsame, hreturns⟩ :=
    findBestChainTipLocked_same_for_all_orders sampleEnv hweighs backwardEnv
  obtain ⟨tip?, htip⟩ := hreturns hends
  exact ⟨hforks, tip?, htip, hsame.symm.trans htip⟩

end NogoChain
