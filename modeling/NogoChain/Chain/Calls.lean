import NogoChain.Chain.Descent
import NogoChain.Chain.Errors

/-!
# Every call is a sequence of moves

The tip that a reorganisation inside `AddBlock` goes to is a fork block whose chain is
complete, and the ancestor is the common ancestor found for it (`Chain.Target`). Only
`ReorganizeToKnownFork` takes both from its caller. Apart from that, a call is a sequence of
moves by blocks that the chain object holds or is given.
-/

namespace NogoChain

open Chain Prog

variable {env : Env} {P : Block → Prop} {T : Chain → Block → Block → Prop}

/-! ## The tip a reorganisation goes to -/

namespace Chain

/-- What `findCommonAncestorLocked` has found. -/
def CommonAncestor (c : Chain) (newTip ancestor : Block) : Prop :=
  ∃ visited divergence, walk c.ancestorStep c.walkBound newTip = some (visited, .ok divergence)
    ∧ c.blocks.reverse.find? (fun b =>
        b.hash ∈ visited.map (·.hash) ++ c.guessedAncestor divergence)
      = some ancestor

/-- A fork block whose chain is complete. -/
def CompleteFork (c : Chain) (b : Block) : Prop :=
  b ∈ c.forkBlocks.entries.flatMap (·.2) ∧ c.isForkChainCompleteLocked b = some true

/-- **The ancestor and the new tip of a reorganisation inside `AddBlock`.** -/
def Target (c : Chain) (ancestor newTip : Block) : Prop :=
  c.CompleteFork newTip ∧ c.CommonAncestor newTip ancestor

theorem isForkChainCompleteLoop_congr {c c' : Chain} (hb : c'.blocks = c.blocks)
    (hk : c'.blocksByHash = c.blocksByHash) (hf : c'.forkBlocksByHash = c.forkBlocksByHash) :
    ∀ (n : Nat) (visited : List Bytes) (b : Block),
      c'.isForkChainCompleteLoop n visited b = c.isForkChainCompleteLoop n visited b
  | 0, _, _ => rfl
  | n + 1, visited, b => by
    have hactive : c'.isParentOnActiveChainLocked b.header.prevHash
        = c.isParentOnActiveChainLocked b.header.prevHash := by
      unfold isParentOnActiveChainLocked
      rw [hk, hb]
    unfold isForkChainCompleteLoop
    simp only [hactive, hf, isForkChainCompleteLoop_congr hb hk hf n]

end Chain

variable {w w' t : World} {b : Block}

theorem CacheOnly.isForkChainComplete (h : CacheOnly w w') (b : Block) :
    w'.chain.isForkChainCompleteLocked b = w.chain.isForkChainCompleteLocked b := by
  have hsame : w'.chain.blocks = w.chain.blocks ∧ w'.chain.blocksByHash = w.chain.blocksByHash
      ∧ w'.chain.forkBlocksByHash = w.chain.forkBlocksByHash := by
    obtain ⟨m, n, rfl⟩ := h
    exact ⟨rfl, rfl, rfl⟩
  exact isForkChainCompleteLoop_congr hsame.1 hsame.2.1 hsame.2.2 _ _ b

theorem CacheOnly.completeFork (h : CacheOnly w w')
    (hb : w.chain.CompleteFork b) : w'.chain.CompleteFork b := by
  refine ⟨?_, (h.isForkChainComplete b).trans hb.2⟩
  obtain ⟨m, n, rfl⟩ := h
  exact hb.1

theorem findCommonAncestorLocked_ret {ancestor : Block}
    (h : findCommonAncestorLocked b w = .ret ancestor t) :
    t = w ∧ w.chain.CommonAncestor b ancestor := by
  obtain ⟨found, w1, hfound, h⟩ := bind_eq_ret.mp h
  unfold findCommonAncestor? at hfound
  rw [chain_bind_apply] at hfound
  obtain ⟨r, w2, hwalk, hfound⟩ := bind_eq_ret.mp hfound
  obtain ⟨visited, divergence⟩ := r
  obtain ⟨rfl, hwalk⟩ := unboundedWalk_eq_ret hwalk
  cases divergence with
  | error fault => cases hfound
  | ok divergence =>
    obtain ⟨rfl, rfl⟩ := Outcome.ret.inj (hfound : Outcome.ret _ w2 = .ret found w1)
    cases hfind : w2.chain.blocks.reverse.find?
        (fun b => b.hash ∈ visited.map (·.hash) ++ w2.chain.guessedAncestor divergence)
    all_goals
      rw [hfind] at h
      cases h
    exact ⟨rfl, visited, divergence, hwalk, hfind⟩

variable {best : Block} {R : World → World → Prop}

theorem forkChainComplete_ret {complete : Bool} (h : forkChainComplete b w = .ret complete t) :
    t = w ∧ w.chain.isForkChainCompleteLocked b = some complete := by
  unfold forkChainComplete at h
  rw [chain_bind_apply] at h
  cases hc : w.chain.isForkChainCompleteLocked b
  all_goals
    rw [hc] at h
    cases h
  exact ⟨rfl, rfl⟩

/-- The candidate after one fork block is the one before, or that block with a complete
chain and its work, if that is better. -/
theorem considerForkBlock_ret {height : UInt64} {parents : List Bytes} {best best' : Candidate}
    (h : considerForkBlock env height parents best b w = .ret best' t) :
    best' = best ∨ (w.chain.isForkChainCompleteLocked b = some true ∧ best'.isBetter best = true
      ∧ ∃ work, best' = ⟨b, b.height, work⟩
        ∧ calculateCumulativeWorkLocked env b w = .ret work t) := by
  unfold considerForkBlock at h
  split at h
  · exact .inl (Outcome.ret.inj h).1.symm
  · split at h
    · exact .inl (Outcome.ret.inj h).1.symm
    · obtain ⟨complete, w1, hc, h⟩ := bind_eq_ret.mp h
      obtain ⟨rfl, hc⟩ := forkChainComplete_ret hc
      cases complete with
      | false => exact .inl (Outcome.ret.inj h).1.symm
      | true =>
        obtain ⟨work, w2, hwork, h⟩ := bind_eq_ret.mp h
        obtain ⟨hbest, rfl⟩ := Outcome.ret.inj h
        split at hbest
        · next hbetter => exact .inr ⟨hc, hbest ▸ hbetter, work, hbest.symm, hwork⟩
        · exact .inl hbest.symm

theorem considerForkBlocks_ret {height : UInt64} {parents : List Bytes} :
    ∀ {bs : List Block} {best best' : Candidate} {w t : World},
      considerForkBlocks env height parents best bs w = .ret best' t →
      best' = best ∨ (best'.tip ∈ bs ∧ w.chain.isForkChainCompleteLocked best'.tip = some true)
  | [], _, _, _, _, h => .inl (Outcome.ret.inj h).1.symm
  | b :: bs, best, best', w, t, h => by
    obtain ⟨best1, w1, h1, h⟩ := bind_eq_ret.mp h
    have hcache := (errless_considerForkBlock height parents best b w).steps.of_ret h1
    rcases considerForkBlocks_ret h with rfl | ⟨hmem, hc⟩
    · rcases considerForkBlock_ret h1 with rfl | ⟨hc, -, _, rfl, -⟩
      · exact .inl rfl
      · exact .inr ⟨List.mem_cons_self, hc⟩
    · exact .inr ⟨List.mem_cons_of_mem b hmem, (hcache.isForkChainComplete _).symm.trans hc⟩

theorem any_hash_iff {tip? : Option Block} {hash : Bytes} :
    tip?.any (·.hash == hash) = true ↔ ∃ tip, tip? = some tip ∧ tip.hash = hash := by
  cases tip? <;> simp

/-- The entries of a map are ranged over in some order. -/
theorem ranged_perm {α : Type} {entries l : List α}
    (h : ranged env entries w = .ret l t) : l.Perm entries := by
  cases h
  exact env.order_perm _ _

/-- How the best tip is found: among the fork blocks, starting from the canonical tip. -/
theorem exists_considered (h : findBestChainTipLocked env w = .ret (some best) t) :
    ∃ tip entries found w1 height parents, w.chain.tip? = some tip
      ∧ ranged env w.chain.forkBlocks.entries w = .ret entries w1
      ∧ considerForkBlocks env height parents ⟨tip, height, w.chain.canonicalWork⟩
        (entries.flatMap (·.2)) w1 = .ret found t
      ∧ found.tip = best := by
  unfold findBestChainTipLocked at h
  rw [chain_bind_apply] at h
  cases htip : w.chain.tip? with
  | none =>
    rw [htip] at h
    cases h
  | some tip =>
    rw [htip] at h
    obtain ⟨entries, w1, hentries, h⟩ := bind_eq_ret.mp h
    obtain ⟨found, w2, hfound, h⟩ := bind_eq_ret.mp h
    obtain ⟨hbest, rfl⟩ := Outcome.ret.inj h
    exact ⟨tip, entries, found, w1, _, _, rfl, hentries, hfound, Option.some.inj hbest⟩

/-- The best tip is the canonical tip or a fork block with a complete chain. -/
theorem findBestChainTipLocked_ret (h : findBestChainTipLocked env w = .ret (some best) t) :
    w.chain.tip? = some best ∨ w.chain.CompleteFork best := by
  obtain ⟨tip, entries, found, w1, _, _, htip, hentries, hfound, rfl⟩ := exists_considered h
  have hcache := Steps.of_ret (R := CacheOnly) (errless_ask ⟨_, _, rfl⟩ _).steps hentries
  rcases considerForkBlocks_ret hfound with rfl | ⟨hmem, hc⟩
  · exact .inl htip
  · refine .inr ⟨((ranged_perm hentries).flatMap_right _).mem_iff.mp hmem, ?_⟩
    rw [← hcache.isForkChainComplete]
    exact hc

/-- The better tip is the best one, and not the canonical one. -/
theorem betterTip_ne (h : betterTip env w = .ret (some best) t) :
    (∃ w1, findBestChainTipLocked env w = .ret (some best) w1)
      ∧ ∀ tip, w.chain.tip? = some tip → tip.hash ≠ best.hash := by
  obtain ⟨found, w1, hfound, h⟩ := bind_eq_ret.mp h
  cases found with
  | none => cases h
  | some found =>
    have hbest : (if w1.chain.tip?.any (·.hash == found.hash) then none else some found)
        = some best := (Outcome.ret.inj h).1
    split at hbest
    · cases hbest
    · next hne =>
      cases hbest
      have htip : w1.chain.tip? = w.chain.tip? := by
        obtain ⟨m, n, rfl⟩ := (errless_findBestChainTipLocked w).steps.of_ret hfound
        rfl
      rw [htip] at hne
      exact ⟨⟨w1, hfound⟩, fun tip ht hhash => hne (any_hash_iff.mpr ⟨tip, ht, hhash⟩)⟩

/-- **The better tip is a fork block with a complete chain.** -/
theorem betterTip_ret (h : betterTip env w = .ret (some best) t) : t.chain.CompleteFork best := by
  refine ((errless_betterTip w).steps.of_ret h).completeFork ?_
  obtain ⟨⟨w1, hfound⟩, hne⟩ := betterTip_ne h
  exact (findBestChainTipLocked_ret hfound).resolve_left fun hcanonical => hne best hcanonical rfl

/-! ## Extending the tip -/

theorem Chain.Holds.putOn {c : Chain} (h : c.Holds P) (env : Env) (hb : P b) :
    (c.putOn env b).Holds P :=
  { h with
    blocks := fun x hx => by
      rcases List.mem_append.mp hx with hx | hx
      · exact h.blocks x hx
      · exact List.mem_singleton.mp hx ▸ hb }

/-- **A block that is put on the tip** goes through `Extension`. -/
theorem extension_of_appendToTip (h : (appendToTip env b w).state? = some w') :
    Extension env w w' b ∧ w.chain.Narrows w'.chain
      ∧ (w.chain.Holds P → P b → w'.chain.Holds P) := by
  have hdrop : ((w.chain.putOn env b).blocks).dropLast = w.chain.blocks := by
    simp [putOn]
  rw [appendToTip_apply] at h
  split at h
  · next happended =>
    cases h
    refine ⟨⟨rfl, ?_⟩, ?_, fun hP hb => ?_⟩
    · rw [happended]
      simp only [core, takeOff, ticked, hdrop]
    · exact ⟨fun _ _ h => h, fun _ _ h => h, fun _ _ h => h⟩
    · have hon : (w.chain.putOn env b).ticked.Holds P :=
        (hP.putOn env hb).of_shrinks (.of_eq rfl rfl rfl rfl rfl (.inl rfl))
      exact hon.of_shrinks (shrinks_takeOff _ b)
  · next store happended =>
    split at h
    · next happlied =>
      cases h
      refine ⟨⟨rfl, ?_⟩, ?_, fun hP hb => ?_⟩
      · rw [happended, happlied]
        rfl
      · exact ⟨fun _ _ h => h, fun _ _ h => h, fun _ _ h => h⟩
      · exact (hP.putOn env hb).of_shrinks (.of_eq rfl rfl rfl rfl rfl (.inl rfl))
    · next s happlied =>
      cases h
      refine ⟨⟨rfl, ?_⟩, ?_, fun hP hb => ?_⟩
      · rw [happended, happlied]
        simp only [core, takeOff, World.withState, withStore, hdrop]
      · exact ⟨fun _ _ h => h, fun _ _ h => h, fun _ _ h => h⟩
      · have hon :
            (World.withState ⟨(w.chain.putOn env b).withStore store, w.steps⟩ s).chain.Holds P :=
          (hP.putOn env hb).of_shrinks (.of_eq rfl rfl rfl rfl rfl (.inl rfl))
        exact hon.of_shrinks (shrinks_takeOff _ b)

/-- Where a block may be put on the tip: it attaches, or a refused reorganisation is on
record. -/
def Attaches (env : Env) (w : World) (b : Block) : Prop :=
  Attach w.chain b ∨ ∃ step ∈ w.steps, CoreStep.Refused env step

theorem evolves_appendToTip (hP : P b) (hattach : Attaches env w b) :
    Steps (Evolves env P T) (appendToTip env b) w := by
  intro w' h
  obtain ⟨hext, -, hholds⟩ := extension_of_appendToTip (P := P) h
  exact Evolves.of_move (fun hw => ⟨hholds hw hP, .extend b hP hattach hext⟩)

/-! ## Reorganisations to the heaviest chain -/

/-- What is known of the blocks held may be used. -/
theorem evolves_of_holds {α : Type} {m : ChainM α}
    (h : w.chain.Holds P → Steps (Evolves env P T) m w) : Steps (Evolves env P T) m w :=
  fun w' hw' hP => h hP w' hw' hP

section Reorganisations

/-- **What a relation has to say about reorganisations to the best tip**: `I` may be assumed of
the state in which the tips are compared, and `Best` is then known of the tip that is found,
until the chain is switched to it. -/
structure Reorgs (env : Env) (R : World → World → Prop) (I : World → Prop)
    (Best : World → Block → Prop) : Prop where
  /-- the invariant may be used -/
  assume : ∀ {α : Type} {m : ChainM α} {w : World}, (I w → Steps R m w) → Steps R m w
  /-- the tips are compared -/
  better : ∀ w, Steps R (betterTip env) w
  /-- what is known of the better tip -/
  best : ∀ {w t : World} {b : Block}, I w → betterTip env w = .ret (some b) t → Best t b
  /-- its work is computed -/
  weigh : ∀ {w : World} {b : Block}, Best w b →
    Steps R (calculateCumulativeWorkLocked env b) w
  /-- what is known stays known -/
  keep : ∀ {w t : World} {b : Block} {n : Nat}, Best w b →
    calculateCumulativeWorkLocked env b w = .ret n t → Best t b
  /-- the chain is switched -/
  reorganize : ∀ {w : World} {ancestor b : Block}, Best w b → w.chain.CommonAncestor b ancestor →
    Steps R (reorganizeChainLocked env ancestor b) w

variable [IsPreorder World R] {I : World → Prop} {Best : World → Block → Prop}
  (hR : Reorgs env R I Best)
include hR

theorem Reorgs.reorganizeToHeaviestLocked (w : World) :
    Steps R (reorganizeToHeaviestLocked env) w := by
  refine hR.assume fun hI => steps_chain_bind ?_
  split
  · exact steps_pure () w
  · refine steps_bind (hR.better w) fun best t hbest => ?_
    cases best with
    | none => exact steps_pure () t
    | some best =>
      have hc := hR.best hI hbest
      refine steps_bind (hR.weigh hc) fun _ t1 h1 => ?_
      refine steps_bind (steps_wrapping (steps_findCommonAncestorLocked best t1))
        fun ancestor t2 h2 => ?_
      obtain ⟨rfl, ha⟩ := findCommonAncestorLocked_ret (wrapping_eq_ret.mp h2)
      exact hR.reorganize (hR.keep hc h1) ha

theorem Reorgs.autoReorgIfNeededLocked (w : World) : Steps R (autoReorgIfNeededLocked env) w := by
  refine hR.assume fun hI => steps_bind (hR.better w) fun best t hbest => ?_
  cases best with
  | none => exact steps_pure () t
  | some best =>
    have hc := hR.best hI hbest
    refine steps_hexPrefix16_bind (steps_bind (hR.weigh hc) fun _ t2 h2 => ?_)
    refine steps_chain_bind (steps_hexPrefix16_bind ?_)
    refine steps_bind (steps_attempt (steps_findCommonAncestorLocked best t2))
      fun r t4 h4 => ?_
    cases r with
    | error e => exact steps_pure () t4
    | ok ancestor =>
      obtain ⟨rfl, ha⟩ := findCommonAncestorLocked_ret (attempt_eq_ok.mp h4)
      exact steps_bind_all (steps_attempt (hR.reorganize (hR.keep hc h2) ha)) fun _ t =>
        steps_pure () t

end Reorganisations

/-! ## Relations that a call goes through

`AddBlock` is made of a few kinds of changes. A relation that each of them goes through is
gone through by the whole call. -/

/-- What the relations below share: `P` holds of the blocks in the pool, and the relation goes
through the steps that leave the pool as it is. -/
structure Conveys (env : Env) (P : Block → Prop) (R : World → World → Prop) : Prop where
  /-- what is known of a block in the pool may be used -/
  orphan : ∀ {α : Type} {m : ChainM α} {w : World} {k : Bytes} {b : Block},
    w.chain.orphan? k = some b → (P b → b.hash = k → Steps R m w) → Steps R m w
  /-- a block is entered in `blocksByHash` -/
  learn : ∀ {b : Block} (w : World), P b → R w ⟨w.chain.learn [b], w.steps⟩
  /-- a block is put on the tip -/
  append : ∀ {b : Block} {w : World}, P b → Attaches env w b → Steps R (appendToTip env b) w
  /-- the best tip is compared with the canonical one -/
  compare : ∀ w, Steps R (shouldReorgToHeaviestLocked env) w
  /-- the chain is switched to the best tip -/
  heaviest : ∀ w, Steps R (reorganizeToHeaviestLocked env) w
  /-- the same, with errors logged -/
  auto : ∀ w, Steps R (autoReorgIfNeededLocked env) w

/-- **A relation that the reconnection of orphans goes through**, if the blocks in the pool
satisfy `P`. An orphan that is refused leaves the pool and comes back to it, which is one
step. -/
structure Threads (env : Env) (P : Block → Prop) (R : World → World → Prop) : Prop
    extends Conveys env P R where
  /-- requests, times and events -/
  clerical : ∀ {w w' : World}, Clerical w w' → R w w'
  /-- an orphan leaves the pool -/
  remove : ∀ (w : World) (k : Bytes), R w ⟨w.chain.removeOrphanLocked k, w.steps⟩
  /-- an orphan that has left the pool comes back -/
  putBack : ∀ {w t : World} {k : Bytes} {b : Block} (now : Int), w.chain.orphan? k = some b → P b →
    b.hash = k → R ⟨w.chain.removeOrphanLocked k, w.steps⟩ t →
    R w ⟨t.chain.putOrphan env k b now, t.steps⟩
  /-- a block is entered among the fork blocks, where it is not yet -/
  enterFork : ∀ {b : Block} (w : World), P b → (∀ x ∈ w.chain.forksAt b.height, x.hash ≠ b.hash) →
    R w ⟨((w.chain.insertFork b).limitForksAt b.height).limitForksTotal, w.steps⟩

/-- The part of `addOrphanBlockLocked` that makes room for an orphan and puts it in the
pool. -/
def storeOrphan (env : Env) (block : Block) : ChainM Unit := do
  update (·.makeOrphanPool)
  cleanupExpiredOrphansLocked env
  evictOldestOrphan env
  let now ← timeNow env
  update (·.putOrphan env block.hash block now)

theorem steps_storeOrphan [IsPreorder World R] (h : Discards R)
    (hmake : ∀ w : World, R w { w with chain := w.chain.makeOrphanPool })
    (hput : ∀ (w : World) now, R w { w with chain := w.chain.putOrphan env b.hash b now }) :
    Steps R (storeOrphan env b) w := by
  refine steps_bind_all (steps_update (hmake w)) fun _ t => ?_
  refine steps_bind_all (errless_cleanupExpiredOrphansLocked h t).steps fun _ t => ?_
  refine steps_bind_all (errless_evictOldestOrphan h t).steps fun _ t => ?_
  refine steps_bind_all (errless_ask (h.ticks t) _).steps fun now t => ?_
  exact steps_update (hput t now)

/-- **A relation `R'` that `AddBlock` goes through**: reconnection goes through `R`, which is
part of it, and a new orphan is stored. -/
structure Admits (env : Env) (P : Block → Prop) (R R' : World → World → Prop) : Prop
    extends Threads env P R where
  /-- reconnection is part of `AddBlock` -/
  weaken : ∀ {w w' : World}, R w w' → R' w w'
  /-- an orphan is stored that is not in the pool -/
  store : ∀ {b : Block} {w : World}, P b → w.chain.orphan? b.hash = none →
    Steps R' (storeOrphan env b) w

/-- **A relation that `AddBlock` goes through**, if the blocks it is given satisfy `P`, and
that does not look at the pool. -/
structure Carries (env : Env) (P : Block → Prop) (R : World → World → Prop) : Prop
    extends Conveys env P R where
  /-- changes on the side -/
  aside : ∀ {w w' : World}, Aside w w' → R w w'
  /-- a block is entered among the fork blocks -/
  enterFork : ∀ {b : Block} (w : World), P b →
    R w ⟨((w.chain.insertFork b).limitForksAt b.height).limitForksTotal, w.steps⟩
  /-- a block is put in the pool -/
  putOrphan : ∀ {b : Block} (w : World) (now : Int), P b →
    R w ⟨w.chain.putOrphan env b.hash b now, w.steps⟩

theorem reorgs_evolves
    (hT : ∀ c ancestor newTip, Target c ancestor newTip → T c ancestor newTip) :
    Reorgs env (Evolves env P T) (fun _ => True) (fun w b => w.chain.CompleteFork b) where
  assume h := h trivial
  better w := evolves_of_cacheOnly (errless_betterTip w)
  best _ h := betterTip_ret h
  weigh _ := evolves_of_cacheOnly (errless_calculateCumulativeWorkLocked _ _)
  keep hc h := ((errless_calculateCumulativeWorkLocked _ _).steps.of_ret h).completeFork hc
  reorganize hc ha := evolves_of_holds fun hw =>
    evolves_reorganizeChainLocked (hw.mem_entries hc.1) (hT _ _ _ ⟨hc, ha⟩)

/-- A sequence of moves is such a relation. -/
theorem carries_evolves
    (hT : ∀ c ancestor newTip, Target c ancestor newTip → T c ancestor newTip) :
    Carries env P (Evolves env P T) where
  orphan ho h := evolves_of_holds fun hw => h (hw.orphans _ _ ho).1 (hw.orphans _ _ ho).2
  aside := Aside.evolves
  learn _ hb := .of_move fun h =>
    ⟨h.learn fun _ hx => List.mem_singleton.mp hx ▸ hb, .still rfl rfl⟩
  enterFork _ hb := .of_move fun h =>
    ⟨(h.insertFork hb).of_shrinks
      ((shrinks_limitForksAt _ _).trans (shrinks_limitForksTotal _)),
      .still rfl (core_enterFork _ _)⟩
  putOrphan _ now hb := .of_move fun h => ⟨h.putOrphan hb now, .still rfl (core_putOrphan _ _ _ _)⟩
  append hb hattach := evolves_appendToTip hb hattach
  compare w := evolves_of_cacheOnly (errless_shouldReorgToHeaviestLocked w)
  heaviest := (reorgs_evolves hT).reorganizeToHeaviestLocked
  auto := (reorgs_evolves hT).autoReorgIfNeededLocked

section Reconnection

variable [IsPreorder World R] (hR : Threads env P R)
include hR

omit [IsPreorder World R] in
theorem Threads.of_requests {α : Type} {m : ChainM α}
    (h : Errless RequestsOnly m w) : Steps R m w :=
  steps_mono h.steps fun _ h => hR.clerical h.clerical

omit [IsPreorder World R] in
theorem Threads.discards : Discards R where
  ticks _ := hR.clerical ⟨_, _, _, _, rfl⟩
  remove := hR.remove

theorem threads_debouncedAutoReorgLocked (w : World) :
    Steps R (debouncedAutoReorgLocked env) w := by
  refine steps_chain_bind (steps_bind_all (hR.of_requests (requests_ask _ w)) fun now t => ?_)
  split
  · exact steps_pure () t
  · refine steps_bind_all (hR.of_requests (requests_ask _ t)) fun now t => ?_
    exact steps_bind_all (steps_update (hR.clerical ⟨_, _, _, _, rfl⟩)) fun _ t => hR.auto t

/-! ## Insertions -/

theorem threads_canonicalHead (hP : P b) (hattach : Attaches env w b) :
    Steps R (canonicalHead env b) w := by
  refine steps_bind_all (hR.append hP hattach) fun _ t => ?_
  refine steps_hexPrefix16_bind ?_
  exact steps_bind_all (steps_update (hR.clerical ⟨_, _, _, _, rfl⟩)) fun _ t =>
    steps_pure _ t

theorem threads_duplicateForkHead (b : Block) (w : World) :
    Steps R (duplicateForkHead env b) w := by
  refine steps_hexPrefix16_bind (steps_chain_bind ?_)
  refine steps_bind_all (steps_when fun _ =>
    hR.of_requests (requests_requestForkParent b w)) fun _ t => ?_
  refine steps_bind_all (errless_forkChainComplete b t).steps fun complete t => ?_
  refine steps_bind_all (steps_andAlso fun _ => hR.compare t) fun heavier t => ?_
  refine steps_bind_all (steps_when fun _ => ?_) fun _ t => steps_pure _ t
  exact steps_bind_all (steps_attempt (hR.heaviest t)) fun _ t => steps_pure _ t

theorem threads_newForkHead (hP : P b) (hnew : ∀ x ∈ w.chain.forksAt b.height, x.hash ≠ b.hash) :
    Steps R (newForkHead env b) w := by
  refine steps_bind_all (steps_update (hR.enterFork w hP hnew)) fun _ t => ?_
  refine steps_bind_all (steps_logCanonicalAt _ t) fun _ t => ?_
  refine steps_hexPrefix16_bind (steps_chain_bind ?_)
  refine steps_bind_all (steps_when fun _ =>
    hR.of_requests (requests_requestForkParent b t)) fun _ t => ?_
  refine steps_bind_all (steps_andAlso fun _ => (errless_forkChainComplete b t).steps)
    fun complete t => ?_
  refine steps_bind_all (steps_andAlso fun _ => hR.compare t) fun heavier t => ?_
  split
  · exact steps_bind_all (steps_wrapping (hR.heaviest t)) fun _ t => steps_pure _ t
  · exact steps_pure _ t

theorem threads_forkHead (hP : P b) (w : World) : Steps R (forkHead env b) w := by
  refine steps_bind_all (steps_checkForkSeal b w) fun _ t => ?_
  refine steps_chain_bind ?_
  split
  · exact threads_duplicateForkHead hR b t
  · next hany =>
    refine threads_newForkHead hR hP fun x hx heq => hany ?_
    exact List.any_eq_true.mpr ⟨x, hx, beq_iff_eq.mpr heq⟩

theorem threads_reconnectHead (hP : P b) (w : World) : Steps R (reconnectHead env b) w := by
  refine steps_chain_bind ?_
  refine steps_bind (steps_update ?_) fun _ t ht => ?_
  · split
    · exact refl w
    · exact hR.learn w hP
  · have hblocks : t.chain.blocks = w.chain.blocks := by
      cases ht
      dsimp only
      split <;> rfl
    have hlength : w.chain.length64 = t.chain.length64 := by
      unfold length64
      rw [hblocks]
    rw [hlength]
    refine steps_chain_bind ?_
    have hfork := threads_forkHead hR hP t
    split
    · next hheight =>
      split
      · next hany =>
        refine threads_canonicalHead hR hP (.inl (.inl ?_))
        obtain ⟨tip, htip, hhash⟩ := any_hash_iff.mp hany
        exact ⟨tip, htip, hhash.symm, .inl hheight⟩
      · exact hfork
    · split
      · exact hfork
      · split
        · next h => exact threads_canonicalHead hR hP (.inl (.inr (.inl h.1)))
        · exact hfork

section Descend

variable {descend : Bytes → ChainM Unit}
  (hdescend : ∀ h t, Steps R (descend h) t)
include hdescend

theorem threads_descendFrom (b : Block) (standing : Standing) (w : World) :
    Steps R (descendFrom env descend b standing) w := by
  cases standing with
  | returned accepted => exact steps_pure _ w
  | onTip =>
    refine steps_bind_all (hdescend _ w) fun _ t => ?_
    exact steps_bind_all (hR.auto t) fun _ t => steps_pure _ t
  | onFork =>
    refine steps_bind_all (hdescend _ w) fun _ t => ?_
    exact steps_bind_all (threads_debouncedAutoReorgLocked hR t) fun _ t => steps_pure _ t

theorem threads_addCanonicalBlockLocked (hP : P b) (hattach : Attaches env w b) :
    Steps R (addCanonicalBlockLocked env descend b) w := by
  rw [addCanonicalBlockLocked_eq]
  exact steps_bind_all (threads_canonicalHead hR hP hattach) (threads_descendFrom hR hdescend b)

theorem threads_addForkBlockLocked (hP : P b) (w : World) :
    Steps R (addForkBlockLocked env descend b) w := by
  rw [addForkBlockLocked_eq]
  exact steps_bind_all (threads_forkHead hR hP w) (threads_descendFrom hR hdescend b)

theorem threads_addBlockReconnectLocked (hP : P b) (w : World) :
    Steps R (addBlockReconnectLocked env descend b) w := by
  rw [addBlockReconnectLocked_eq]
  exact steps_bind_all (threads_reconnectHead hR hP w) (threads_descendFrom hR hdescend b)

end Descend

/-! ## Cascades -/

omit hR in
theorem threads_processOrphanDescendantsWith {cascade : Slice → Nat → ChainM (Nat × Nat)}
    (hcascade : ∀ orphans total t, Steps R (cascade orphans total) t)
    (parentHash : Bytes) (w : World) :
    Steps R (processOrphanDescendantsWith cascade parentHash) w := by
  refine steps_chain_bind ?_
  split
  · exact steps_pure () w
  · split
    · exact steps_pure () w
    · exact steps_bind_all (hcascade _ _ w) fun _ t =>
        steps_when fun _ => steps_hexPrefix16 _ _ t

theorem threads_cascadeLoop {cascade : Slice → Nat → ChainM (Nat × Nat)}
    (hcascade : ∀ orphans total t, Steps R (cascade orphans total) t)
    (orphanHashes : Slice) :
    ∀ (left i connected total : Nat) (w : World),
      Steps R (cascadeLoop env cascade orphanHashes left i connected total) w := by
  intro left
  induction left with
  | zero => exact fun i connected total w => steps_pure _ w
  | succ left ih =>
    intro i connected total w
    unfold cascadeLoop
    split
    · exact steps_pure _ w
    · refine steps_chain_bind ?_
      dsimp only
      split
      · exact ih _ _ _ w
      · next orphan horphan =>
        refine hR.orphan horphan fun hP hhash => ?_
        -- the steps are counted from `w`, since an orphan that goes back is one step with its
        -- removal
        refine steps_bind_goal (Q := R w) (errs_modify _ w) fun _ t ht => ?_
        cases ht
        refine steps_bind_goal (errs_attempt _ _) fun added t ht => ?_
        have hadd := (steps_attempt (threads_addBlockReconnectLocked hR
          (threads_processOrphanDescendantsWith hcascade) hP _)).of_ret ht
        have hwt : R w t := trans_of R (hR.remove w _) hadd
        split
        · exact (steps_hexPrefix16_bind (ih _ _ _ t)).goal hwt
        · refine Steps.goal (steps_chain_bind ?_) hwt
          split
          · exact ih _ _ _ t
          · split
            · exact ih _ _ _ t
            · exact steps_bind_all (hcascade _ _ t) fun r t => ih _ _ _ t
        · -- a block that is stored as a fork block goes back to the pool
          refine steps_bind_goal ((noErr_hexPrefix16 _ _ t).mono fun _ => False.elim)
            fun _ t1 h1 => ?_
          obtain rfl := hexPrefix16_ret h1
          refine steps_bind_goal (fun _ _ h => by cases h) fun now t2 h2 => ?_
          have hnow := (hR.of_requests (requests_ask env.now t)).of_ret h2
          refine steps_bind_goal (errs_modify _ t2) fun _ t3 h3 => ?_
          cases h3
          exact (ih _ _ _ _).goal (hR.putBack now horphan hP hhash (trans_of R hadd hnow))

theorem threads_cascade : ∀ (depth : Nat) (orphans : Slice) (total : Nat) (w : World),
    Steps R (cascade env depth orphans total) w
  | 0, _, _, w => steps_crash _ w
  | depth + 1, orphans, _, w => threads_cascadeLoop hR (threads_cascade depth) orphans _ _ _ _ w

theorem threads_processOrphanDescendantsLocked (parentHash : Bytes) (w : World) :
    Steps R (processOrphanDescendantsLocked env parentHash) w :=
  steps_chain_bind (threads_processOrphanDescendantsWith (threads_cascade hR _) parentHash w)

/-! ## The orphan pool -/

/-- The tip that `tryProcessOrphansLocked` has read is the tip, or a refused reorganisation
is on record. -/
def TipKept (env : Env) (tip : Block) (w : World) : Prop :=
  w.chain.tip? = some tip ∨ ∃ step ∈ w.steps, CoreStep.Refused env step

omit hR in
theorem TipKept.of_sticks {tip : Block} (h : TipKept env tip w)
    (hs : Sticks env w w') : TipKept env tip w' := by
  obtain ⟨l, hl⟩ := hs.steps
  rcases hs.blocks with hb | hr
  · rcases h with htip | ⟨step, hstep, hr⟩
    · left
      unfold tip? at htip ⊢
      rwa [hb]
    · exact .inr ⟨step, by rw [hl]; exact List.mem_append_right l hstep, hr⟩
  · exact .inr hr

theorem threads_tryOrphans {tip : Block} :
    ∀ (es : List ((_ : Bytes) × Block)) (found : Bool) (w : World), TipKept env tip w →
      Steps R (tryOrphans env tip.hash (tip.height + 1) es found) w := by
  intro es
  induction es with
  | nil => exact fun _ w _ => steps_pure _ w
  | cons e es ih =>
    intro found w htip
    have hdescend : ∀ h t, Steps R (processOrphanDescendantsLocked env h) t :=
      threads_processOrphanDescendantsLocked hR
    -- an attempt that fails leaves the tip in place
    have hattempt : ∀ {add : ChainM Bool} {rest : Except _ Bool → ChainM (Bool × Bool)} {t : World},
        (∀ e, rest (.error e) = tryOrphans env tip.hash (tip.height + 1) es true) →
        (∀ accepted, rest (.ok accepted) = pure (true, accepted)) → TipKept env tip t →
        Steps R add t → Errs (Sticks env) add t →
        Steps R (Prog.attempt add >>= rest) t := by
      intro add rest t herror hok ht hadd herr
      refine steps_bind (steps_attempt hadd) fun r t' hr => ?_
      cases r with
      | ok accepted =>
        rw [hok]
        exact steps_pure _ t'
      | error e =>
        rw [herror]
        refine ih true t' (ht.of_sticks ?_)
        exact herr e t' (attempt_eq_error.mp hr)
    refine steps_chain_bind ?_
    split
    · exact ih found w htip
    · next orphan horphan =>
      refine hR.orphan horphan fun hP _ => ?_
      have hremove : Steps R (update (·.removeOrphanLocked e.1)) w :=
        steps_update (hR.remove w e.1)
      have hkept : ∀ {t : World}, update (·.removeOrphanLocked e.1) w = .ret () t →
          TipKept env tip t := fun ht =>
        (Outcome.ret.inj ht).2 ▸ htip.of_sticks (discards_aside.remove w e.1).sticks
      split
      · next hparent =>
        split
        · exact ih found w htip
        · next hheight =>
          refine steps_bind hremove fun _ t ht => ?_
          refine hattempt (fun _ => rfl) (fun _ => rfl) (hkept ht)
            (threads_addCanonicalBlockLocked hR hdescend hP ?_)
            (errs_addCanonicalBlockLocked noErr_processOrphanDescendantsLocked _ t)
          rcases hkept ht with htip' | hr
          · exact .inl (.inl ⟨tip, htip', hparent, .inr (not_not.mp hheight)⟩)
          · exact .inr hr
      · split
        · refine steps_bind hremove fun _ t ht => ?_
          exact hattempt (fun _ => rfl) (fun _ => rfl) (hkept ht)
            (threads_addForkBlockLocked hR hdescend hP t)
            (errs_addForkBlockLocked noErr_processOrphanDescendantsLocked _ t)
        · exact ih found w htip

theorem threads_tryProcessOrphansLoop : ∀ (iterations : Nat) (processed : Bool) (w : World),
    Steps R (tryProcessOrphansLoop env iterations processed) w
  | 0, _, w => steps_pure _ w
  | iterations + 1, processed, w => by
    refine steps_chain_bind ?_
    split
    · next tip o htip ho =>
      refine steps_bind (hR.of_requests (requests_ask _ w)) fun entries t ht => ?_
      have htip' : t.chain.tip? = some tip := by
        obtain ⟨m, n, rfl⟩ := Steps.of_ret (R := CacheOnly) (errless_ask ⟨_, _, rfl⟩ _).steps ht
        exact htip
      refine steps_bind_all (threads_tryOrphans hR entries false t (.inl htip')) fun r t => ?_
      obtain ⟨found, accepted⟩ := r
      dsimp only
      split
      · exact threads_tryProcessOrphansLoop iterations _ t
      · exact steps_pure _ t
    · exact steps_pure _ w

end Reconnection

section AddBlock

variable {R' : World → World → Prop} [IsPreorder World R] [IsPreorder World R']
  (hR : Admits env P R R')
include hR

omit [IsPreorder World R] [IsPreorder World R'] in
theorem Admits.of_steps {α : Type} {m : ChainM α} (h : Steps R m w) : Steps R' m w :=
  steps_mono h fun _ h => hR.weaken h

omit hR [IsPreorder World R] [IsPreorder World R'] in
theorem addOrphanBlockLocked_eq (block : Block) : addOrphanBlockLocked env block = (do
    let c ← chain
    if (c.orphan? block.hash).isSome then do
      hexPrefix16 block.hash "hashHex[:16]"
      pure false
    else do
      storeOrphan env block
      hexPrefix16 block.hash "hashHex[:16]"
      hexPrefix16 block.header.prevHash "parentHashHex[:16]"
      requestOrphanParent env block.header.prevHash
      tryProcessOrphansLocked env) := by
  simp only [addOrphanBlockLocked, storeOrphan, Prog.bind_assoc]

theorem admits_addOrphanBlockLocked (hP : P b) (w : World) :
    Steps R' (addOrphanBlockLocked env b) w := by
  rw [addOrphanBlockLocked_eq]
  refine steps_chain_bind ?_
  split
  · exact steps_hexPrefix16_bind (steps_pure _ w)
  · next hnone =>
    refine steps_bind_all (hR.store hP (Option.not_isSome_iff_eq_none.mp hnone)) fun _ t => ?_
    refine steps_hexPrefix16_bind (steps_hexPrefix16_bind ?_)
    refine steps_bind_all (hR.of_steps (hR.of_requests (requests_requestOrphanParent _ t)))
      fun _ t => ?_
    refine steps_chain_bind ?_
    split
    · exact steps_pure _ t
    · exact hR.of_steps (threads_tryProcessOrphansLoop hR.toThreads _ _ t)

/-! ## AddBlock -/

omit hR in
theorem steps_logWrongPrevHash (tip b : Block)
    (w : World) : Steps R (logWrongPrevHash env tip b) w :=
  steps_bind_all (steps_bytePrefix8 _ _ _ w) fun _ t => steps_bytePrefix8 _ _ _ t

omit [IsPreorder World R'] in
theorem admits_addForkBlockLocked (hP : P b) (w : World) :
    Steps R' (addForkBlockLocked env (processOrphanDescendantsLocked env) b) w :=
  hR.of_steps (threads_addForkBlockLocked hR.toThreads
    (threads_processOrphanDescendantsLocked hR.toThreads) hP w)

omit [IsPreorder World R'] in
theorem admits_addCanonicalBlockLocked (hP : P b) (h : Attaches env w b) :
    Steps R' (addCanonicalBlockLocked env (processOrphanDescendantsLocked env) b) w :=
  hR.of_steps (threads_addCanonicalBlockLocked hR.toThreads
    (threads_processOrphanDescendantsLocked hR.toThreads) hP h)

theorem admits_addKnownBlock (hP : P b) (w : World) : Steps R' (addKnownBlock env b) w := by
  refine steps_chain_bind ?_
  dsimp only
  split
  · refine steps_bind_all (steps_blockAt _ w) fun canonical t => ?_
    split
    · exact steps_pure _ t
    · refine steps_hexPrefix16_bind ?_
      refine steps_bind_all (steps_when fun _ => steps_hexPrefix16 _ _ t) fun _ t => ?_
      exact admits_addForkBlockLocked hR hP t
  · split
    · next hheight =>
      split
      · next tip htip =>
        split
        · exact steps_bind_all (steps_logWrongPrevHash tip b w) fun _ t =>
            admits_addForkBlockLocked hR hP t
        · next hparent =>
          refine steps_hexPrefix16_bind ?_
          exact admits_addCanonicalBlockLocked hR hP
            (.inl (.inl ⟨tip, htip, not_not.mp hparent, .inl hheight⟩))
      · next htip =>
        refine steps_hexPrefix16_bind ?_
        exact admits_addCanonicalBlockLocked hR hP (.inl (.inr (.inr ⟨htip, hheight⟩)))
    · refine steps_hexPrefix16_bind ?_
      split
      · exact steps_hexPrefix16_bind (admits_addForkBlockLocked hR hP w)
      · exact admits_addOrphanBlockLocked hR hP w

theorem admits_addNewBlock (hP : P b) (w : World) : Steps R' (addNewBlock env b) w := by
  refine steps_chain_bind ?_
  dsimp only
  split
  · next hheight =>
    split
    · next tip htip =>
      split
      · exact steps_bind_all (steps_logWrongPrevHash tip b w) fun _ t =>
          admits_addForkBlockLocked hR hP t
      · next hparent =>
        exact admits_addCanonicalBlockLocked hR hP
          (.inl (.inl ⟨tip, htip, not_not.mp hparent, .inl hheight⟩))
    · next htip =>
      exact admits_addCanonicalBlockLocked hR hP (.inl (.inr (.inr ⟨htip, hheight⟩)))
  · split
    · exact steps_bind_all (steps_when fun _ => steps_hexPrefix16 _ _ w) fun _ t =>
        admits_addForkBlockLocked hR hP t
    · split
      · next hheight =>
        split
        · exact admits_addForkBlockLocked hR hP w
        · split
          · exact admits_addCanonicalBlockLocked hR hP (.inl (.inr (.inl hheight)))
          · exact steps_hexPrefix16_bind (admits_addOrphanBlockLocked hR hP w)
      · split
        · exact steps_hexPrefix16_bind (admits_addForkBlockLocked hR hP w)
        · exact admits_addOrphanBlockLocked hR hP w

/-- **`AddBlock` goes through `R'`**; `P` is asked of a block that passes the consensus check. -/
theorem admits_addBlock (hP : validateBlockConsensusLocked env b = .ok () → P b)
    (w : World) : Steps R' (addBlock env b) w := by
  refine steps_bind_all (hR.of_steps (errless_cleanupExpiredOrphansLocked hR.discards w).steps)
    fun _ t => ?_
  split
  · exact steps_throw _ t
  · next hvalid =>
    refine steps_chain_bind ?_
    split
    · exact admits_addKnownBlock hR (hP hvalid) t
    · exact steps_bind_all (hR.of_steps (steps_update (hR.learn t (hP hvalid)))) fun _ t =>
        admits_addNewBlock hR (hP hvalid) t

end AddBlock

/-- What does not look at the pool. -/
theorem Carries.admits [IsPreorder World R] (hR : Carries env P R) : Admits env P R R where
  toConveys := hR.toConveys
  clerical h := hR.aside h.aside
  remove w k := hR.aside (discards_aside.remove w k)
  putBack {w t k b} now _ hb hk h := by
    subst hk
    exact trans_of R (hR.aside (discards_aside.remove w b.hash))
      (trans_of R h (hR.putOrphan t now hb))
  enterFork w hb _ := hR.enterFork w hb
  weaken h := h
  store {b w} hb _ := by
    refine steps_storeOrphan ⟨fun w => hR.aside (discards_aside.ticks w), fun w k =>
      hR.aside (discards_aside.remove w k)⟩ (fun w => hR.aside ?_) fun w now =>
        hR.putOrphan w now hb
    exact .of_chain (core_makeOrphanPool _) (shrinks_makeOrphanPool _)

theorem carries_addBlock [IsPreorder World R] (hR : Carries env P R)
    (hP : validateBlockConsensusLocked env b = .ok () → P b) (w : World) :
    Steps R (addBlock env b) w :=
  admits_addBlock hR.admits hP w

/-- **`AddBlock` is a sequence of moves.** -/
theorem evolves_addBlock
    (hT : ∀ c ancestor newTip, Target c ancestor newTip → T c ancestor newTip)
    (hP : validateBlockConsensusLocked env b = .ok () → P b) (w : World) :
    Steps (Evolves env P T) (addBlock env b) w :=
  carries_addBlock (carries_evolves hT) hP w

end NogoChain
