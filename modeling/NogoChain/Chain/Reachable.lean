import NogoChain.Chain.Calls

/-!
# Reachable states

A rollback is one move as well. With the state after a start on an empty store this gives
the induction that every invariant of the canonical chain is proved by: it holds of the
fresh chain and is kept by every move.
-/

namespace NogoChain

open Chain Prog

variable {env : Env} {P : Block → Prop} {T : Chain → Block → Block → Prop}

/-! ## Rollback -/

/-- No step, the core stays, and so does what is known of the blocks held. -/
structure Quiet (P : Block → Prop) (w w' : World) : Prop where
  steps : w'.steps = w.steps
  core : w'.chain.core = w.chain.core
  holds : w.chain.Holds P → w'.chain.Holds P

instance : IsPreorder World (Quiet P) where
  refl _ := ⟨rfl, rfl, id⟩
  trans _ _ _ h h' := ⟨h'.steps.trans h.steps, h'.core.trans h.core, h'.holds ∘ h.holds⟩

variable {w w' t : World} {b : Block}

theorem Aside.quiet (h : Aside w w') : Quiet P w w' :=
  ⟨h.steps, h.core, fun hP => hP.of_shrinks h.shrinks⟩

theorem Chain.shrinks_evict (c : Chain) (es : List ((_ : Bytes) × Block)) :
    c.Shrinks (c.evict es) :=
  { Shrinks.refl c with
    known := fun _ _ h => GoMap.lookup_of_foldl_erase (fun e : (_ : Bytes) × Block => e.1) h }

theorem Chain.core_evict (c : Chain) (es : List ((_ : Bytes) × Block)) :
    (c.evict es).core = c.core := rfl

theorem steps_enforceBlocksByHashSize (w : World) :
    Steps Aside (enforceBlocksByHashSize env) w := by
  refine steps_chain_bind ?_
  split
  · exact steps_pure () w
  · refine steps_bind_all (errless_ask (discards_aside.ticks w) _).steps fun entries t => ?_
    exact steps_update (.of_chain (core_evict _ _) (shrinks_evict _ _))

theorem quiet_addToIndexLocked (hP : P b) (w : World) :
    Steps (Quiet P) (addToIndexLocked env b) w := by
  unfold addToIndexLocked
  split
  · exact steps_pure () w
  · refine steps_bind_all (steps_update ⟨rfl, rfl, fun h => h.learn fun x hx => ?_⟩) fun _ t => ?_
    · exact List.mem_singleton.mp hx ▸ hP
    · exact steps_mono (steps_enforceBlocksByHashSize t) fun _ h => h.quiet

theorem noErr_addToIndexLocked (b : Block) (w : World) : NoErr (addToIndexLocked env b) w := by
  unfold addToIndexLocked
  split
  · exact errs_pure () w
  · refine errs_bind_all (noErr_update _ w) fun _ t => ?_
    refine errs_chain_bind ?_
    split
    · exact errs_pure () t
    · exact errs_bind_all (noErr_ask _ t) fun _ t => noErr_update _ t

theorem noErr_initCanonicalIndexesLocked (w : World) : NoErr (initCanonicalIndexesLocked env) w :=
  errs_chain_bind (errs_bind_all (errs_forEach noErr_addToIndexLocked w) fun _ t =>
    noErr_update _ t)

/-- What `initCanonicalIndexesLocked` does: of the core, the work is computed and the indexes
are built anew. -/
theorem initCanonicalIndexesLocked_ret {w t : World}
    (h : initCanonicalIndexesLocked env w = .ret () t) :
    t.steps = w.steps ∧ (w.chain.Holds P → t.chain.Holds P) ∧ t.chain.core = { w.chain.core with
            canonicalWork := calculateChainWorkLocked w.chain.blocks
            indexes := Indexes.reindexAll env w.chain.blocks } := by
  obtain ⟨t1, hloop, h⟩ := bind_unit_eq_ret.mp h
  cases h
  have hquiet : Quiet (fun _ => True) w t1 :=
    (steps_forEach (fun b _ t => quiet_addToIndexLocked trivial t) w).of_ret hloop
  refine ⟨hquiet.steps, fun hP => ?_, ?_⟩
  · have hindex : Quiet P w t1 :=
      (steps_forEach (fun b hb t => quiet_addToIndexLocked (hP.blocks b hb) t) w).of_ret hloop
    exact (hindex.holds hP).of_shrinks (.of_eq rfl rfl rfl rfl rfl (.inl rfl))
  · have hblocks : t1.chain.blocks = w.chain.blocks := congrArg Core.blocks hquiet.core
    have hfields := hquiet.core
    simp only [core, Core.mk.injEq] at hfields ⊢
    exact ⟨hfields.1, hfields.2.1, by rw [hblocks], hfields.2.2.2.1, hfields.2.2.2.2.1,
      by rw [hblocks]⟩

/-- **A chain that is cut** goes through `Cut`, and brings in no blocks. -/
theorem cut_of_cutChain {w w' : World} {height : UInt64}
    (hlt : height.toNat + 1 < w.chain.blocks.length)
    (h : (cutChain env height w).state? = some w') :
    Cut env w w' height ∧ (w.chain.Holds P → w'.chain.Holds P) := by
  obtain ⟨_, t0, h0, h⟩ := state?_bind_of_errs (m := record _) nofun h
  cases h0
  obtain ⟨_, t0, h0, h⟩ := state?_bind_of_errs (noErr_update _ _) h
  cases h0
  obtain ⟨_, t1, h1, h⟩ := state?_bind_of_errs (noErr_initCanonicalIndexesLocked _) h
  obtain ⟨hsteps1, hholds1, hcore1⟩ := initCanonicalIndexesLocked_ret (P := P) h1
  obtain ⟨_, t2, h2, h⟩ := state?_bind_of_errs (noErr_update _ _) h
  cases h2
  obtain ⟨_, t3, h3, h⟩ := state?_bind_of_errs (aside_cleanOrphanPoolAboveHeight _ _).noErr h
  have haside := (aside_cleanOrphanPoolAboveHeight _ _).steps.of_ret h3
  obtain ⟨_, t4, h4, h⟩ := state?_bind_of_errs (noErr_update _ _) h
  cases h4
  have hsteps3 : t3.steps = .rollback w.chain height :: w.steps := haside.steps.trans hsteps1
  have hcore3 : t3.chain.core = { w.chain.core with
      blocks := w.chain.blocks.take (height.toNat + 1)
      canonicalWork := calculateChainWorkLocked (w.chain.blocks.take (height.toNat + 1))
      indexes := Indexes.reindexAll env (w.chain.blocks.take (height.toNat + 1)) } :=
    haside.core.trans hcore1
  have hblocks3 : t3.chain.blocks = w.chain.blocks.take (height.toNat + 1) :=
    congrArg Core.blocks hcore3
  have htexts3 : t3.chain.totalWork = w.chain.totalWork := congrArg Core.totalWork hcore3
  have hindexes3 : t3.chain.indexes
      = Indexes.reindexAll env (w.chain.blocks.take (height.toNat + 1)) :=
    congrArg Core.indexes hcore3
  have hreplayed := replayed_of_stores h
    (calculateChainWorkLocked t3.chain.blocks, t3.chain.totalWork) t3.chain.indexes
  obtain ⟨hsteps, hshrinks, hcore⟩ := hreplayed fun s t ht =>
    ⟨_, stores_bind (steps_attempt (stores_rewriteCanonical _))
      (fun _ t => steps_pure () t) t ht, rfl, .refl _, rfl⟩
  refine ⟨⟨hlt, hsteps.trans hsteps3, ?_⟩, fun hP => ?_⟩
  · change Replayed env
      { t3.chain.core with canonicalWork := calculateChainWorkLocked t3.chain.blocks }
      _ _ _ at hcore
    rw [hblocks3, htexts3, hindexes3, hcore3] at hcore
    exact hcore
  · have hcut := (hP.of_shrinks (shrinks_unlinkAbove env w.chain height.toNat))
    have h1 := hholds1 (hcut.of_shrinks (.of_eq rfl rfl rfl rfl rfl (.inr rfl)))
    have h3 : t3.chain.Holds P :=
      (h1.of_shrinks (shrinks_dropForkHeightsAbove _ height)).of_shrinks haside.shrinks
    refine Holds.of_shrinks ?_ hshrinks
    exact h3.of_shrinks (.of_eq rfl rfl rfl rfl rfl (.inl rfl))

/-- **A rollback is a move**, unless it is refused or there is nothing above the height. -/
theorem evolves_rollbackToHeight (height : UInt64) (w : World) :
    Steps (Evolves env P T) (rollbackToHeight env height) w := by
  refine steps_chain_bind ?_
  split
  · exact steps_throw _ w
  · split
    · exact steps_pure () w
    · next hlt hne =>
      intro w' h
      obtain ⟨hcut, hholds⟩ := cut_of_cutChain (P := P) (by omega) h
      exact Evolves.of_move fun hw => ⟨hholds hw, .cut height hcut⟩

/-! ## The fresh chain -/

/-- **The chain after a start on an empty store**: the genesis block alone, applied and
stored. -/
structure Fresh (env : Env) (w : World) : Prop where
  steps : w.steps = []
  hash : (createGenesisBlock env).hash ≠ []
  /-- it is the canonical chain -/
  blocks : w.chain.blocks = [createGenesisBlock env]
  /-- it is the only known block -/
  known : w.chain.blocksByHash
    = (∅ : GoMap Bytes Block).insert (createGenesisBlock env).hash (createGenesisBlock env)
  forkBlocks : w.chain.forkBlocks = ∅
  forkBlocksByHash : w.chain.forkBlocksByHash = ∅
  orphans : w.chain.orphans = none
  workCache : w.chain.workCache = ∅
  /-- the indexes are those of the genesis block -/
  indexes : w.chain.indexes = Indexes.reindexAll env [createGenesisBlock env]
  /-- the state is that of the genesis block, before its `TotalWork` was written -/
  state : replayBlocks env [createGenesisBlock env] ∅ = .ret () w.chain.state
  canonicalWork : w.chain.canonicalWork = calculateChainWorkLocked [createGenesisBlock env]
  totalWork : w.chain.totalWork = (totalWorkOf [createGenesisBlock env] ∅).2
  stored : w.chain.store.blocks
    = (∅ : GoMap Bytes Block).insert (createGenesisBlock env).hash (createGenesisBlock env).stored
  canon : w.chain.store.canon = (∅ : GoMap UInt64 Bytes).insert 0 (createGenesisBlock env).hash
  rulesHash : w.chain.store.rulesHash = some env.rulesHash
  /-- snapshots are at height 0, where they are not found -/
  snapshots : ∀ h l, w.chain.store.snapshots.lookup h = some l → h = 0

theorem storeWrite_ret {write : BoltStore → Except GoError BoltStore}
    (h : storeWrite env write w = .ret () t) :
    ∃ store, write w.chain.store = .ok store ∧ t = ⟨w.chain.withStore store, w.steps⟩ := by
  rw [storeWrite_apply] at h
  split at h
  · cases h
  · next store hw =>
    cases h
    exact ⟨store, (written_eq_ok.mp hw).2, rfl⟩

theorem initializeGenesisLocked_ret (hstore : w.chain.store.blocks = ∅)
    (h : initializeGenesisLocked env w = .ret () t) :
    (createGenesisBlock env).hash ≠ [] ∧ t = ⟨{ w.chain with
          tick := w.chain.tick + 1 + 1
          blocks := w.chain.blocks ++ [createGenesisBlock env]
          store := { w.chain.store with
            blocks := (∅ : GoMap Bytes Block).insert (createGenesisBlock env).hash
              (createGenesisBlock env).stored
            canon := w.chain.store.canon.insert 0 (createGenesisBlock env).hash } }, w.steps⟩ := by
  obtain ⟨t1, h1, h⟩ := bind_unit_eq_ret.mp h
  obtain ⟨t2, h2, h⟩ := bind_unit_eq_ret.mp h
  cases h
  obtain ⟨s1, hs1, rfl⟩ := storeWrite_ret (wrapping_eq_ret.mp h1)
  obtain ⟨s2, hs2, rfl⟩ := storeWrite_ret (wrapping_eq_ret.mp h2)
  have hhash : (createGenesisBlock env).hash ≠ [] := by
    intro hempty
    rw [BoltStore.appendCanonical, if_pos hempty] at hs1
    cases hs1
  have hput : w.chain.store.putIfAbsent (createGenesisBlock env) = { w.chain.store with
      blocks := (∅ : GoMap Bytes Block).insert (createGenesisBlock env).hash
        (createGenesisBlock env).stored } := by
    unfold BoltStore.putIfAbsent
    rw [hstore, AList.lookup_empty]
  have hheight : ¬ (createGenesisBlock env).height > 0 := by
    change ¬ (0 : UInt64) > 0
    decide
  have hs1' : { w.chain.store with
      blocks := (∅ : GoMap Bytes Block).insert (createGenesisBlock env).hash
        (createGenesisBlock env).stored
      canon := w.chain.store.canon.insert 0 (createGenesisBlock env).hash } = s1 := by
    rw [BoltStore.appendCanonical, if_neg hhash] at hs1
    simp only [if_neg hheight, hput] at hs1
    exact Except.ok.inj hs1
  have hs2' : s1 = s2 := by
    rw [BoltStore.putBlock, if_neg hhash] at hs2
    have hthere : s1.blocks.lookup (createGenesisBlock env).hash
        = some (createGenesisBlock env).stored := by
      rw [← hs1']
      exact AList.lookup_insert _
    unfold BoltStore.putIfAbsent at hs2
    simp only [withStore, hthere] at hs2
    exact Except.ok.inj hs2
  refine ⟨hhash, ?_⟩
  rw [hs1', hs2']
  rfl

/-- A saved snapshot changes nothing but the snapshots of the store. -/
theorem saveSnapshot_ret (h : saveSnapshot env w = .ret () t) :
    ∃ snapshots, t = ⟨{ w.chain with
        tick := w.chain.tick + 1
        store := { w.chain.store with snapshots := snapshots } }, w.steps⟩
      ∧ (snapshots = w.chain.store.snapshots ∨ ∃ l, snapshots
        = w.chain.store.snapshots.insert w.chain.currentHeight l) := by
  have happly : saveSnapshot env w = match storeWrite env
      (fun s => s.snapshot w.chain.currentHeight w.chain.state) w with
      | .ret _ t => .ret () t
      | .err _ t => .ret () t
      | .fault x => .fault x := by
    unfold saveSnapshot
    rw [chain_bind_apply, bind_apply, Prog.attempt]
    cases storeWrite env (fun s => s.snapshot w.chain.currentHeight w.chain.state) w <;> rfl
  rw [happly, storeWrite_apply] at h
  cases hw : w.chain.written env (fun s => s.snapshot w.chain.currentHeight w.chain.state) with
  | error e =>
    rw [hw] at h
    cases h
    exact ⟨_, rfl, .inl rfl⟩
  | ok store =>
    rw [hw] at h
    cases h
    have hsaved := (written_eq_ok.mp hw).2
    unfold BoltStore.snapshot at hsaved
    split at hsaved
    · cases hsaved
    · cases hsaved
      exact ⟨_, rfl, .inr ⟨_, rfl⟩⟩

theorem enforceBlocksByHashSize_apply
    (h : w.chain.blocksByHash.entries.length ≤ maxBlocksByHashSize) :
    enforceBlocksByHashSize env w = .ret () w := by
  unfold enforceBlocksByHashSize
  rw [chain_bind_apply, if_pos h]
  rfl

theorem processLoadedOrphansLocked_apply
    (h : w.chain.blocksByHash.entries.length ≤ w.chain.blocks.length) :
    processLoadedOrphansLocked env w = .ret () w := by
  unfold processLoadedOrphansLocked
  rw [chain_bind_apply, if_pos h]
  rfl

theorem recomputeStateLocked_ret {w t : World} (h : recomputeStateLocked env w = .ret () t) :
    ∃ s, w.chain.replay env = .ret () s ∧ t = w.withState s := by
  have hreplay := recomputeStateLocked_apply env w
  cases hout : w.chain.replay env with
  | fault x => exact x.elim
  | err e s =>
    rw [hout] at hreplay
    obtain ⟨e', he'⟩ := hreplay
    rw [he'] at h
    cases h
  | ret a s =>
    rw [hout] at hreplay
    exact ⟨s, rfl, (Outcome.ret.inj (h.symm.trans hreplay)).2⟩

/-- A single block is entered in an empty index. -/
theorem forEach_addToIndexLocked_singleton {w : World} {b : Block} (hb : b.hash ≠ [])
    (hknown : w.chain.blocksByHash = ∅) :
    Prog.forEach [b] (addToIndexLocked env) w = .ret () ⟨w.chain.learn [b], w.steps⟩ := by
  have hsize : (w.chain.learn [b]).blocksByHash.entries.length ≤ maxBlocksByHashSize := by
    have hone : (w.chain.learn [b]).blocksByHash.entries.length = 1 := by
      simp only [learn, hknown]
      rfl
    rw [hone]
    decide
  have hadd : addToIndexLocked env b w = .ret () ⟨w.chain.learn [b], w.steps⟩ := by
    unfold addToIndexLocked
    rw [if_neg hb]
    exact enforceBlocksByHashSize_apply hsize
  rw [Prog.forEach, bind_apply, hadd]
  rfl

/-- **A start on an empty store** gives the fresh chain. -/
theorem fresh_of_start {w : World} (h : start env BoltStore.empty 0 = .ret () w) : Fresh env w := by
  obtain ⟨t1, h1, h⟩ := bind_unit_eq_ret.mp h
  cases h1
  -- the rules
  obtain ⟨t2, h2, h⟩ := bind_unit_eq_ret.mp h
  obtain ⟨s2, hs2, rfl⟩ := storeWrite_ret (wrapping_eq_ret.mp h2)
  obtain rfl : _ = s2 := Except.ok.inj hs2
  -- the genesis block
  obtain ⟨t3, h3, h⟩ := bind_unit_eq_ret.mp h
  obtain ⟨hhash, rfl⟩ := initializeGenesisLocked_ret rfl (wrapping_eq_ret.mp h3)
  -- the state
  obtain ⟨t4, h4, h⟩ := bind_unit_eq_ret.mp h
  obtain ⟨t5, h5, h4⟩ := bind_unit_eq_ret.mp h4
  obtain ⟨s, hs, rfl⟩ := recomputeStateLocked_ret (wrapping_eq_ret.mp h5)
  obtain ⟨snapshots, rfl, hsnapshots⟩ := saveSnapshot_ret h4
  have hzero : ∀ h l, snapshots.lookup h = some l → h = 0 := by
    have hcases : snapshots = ∅ ∨ ∃ l, snapshots = (∅ : GoMap UInt64 Ledger).insert 0 l :=
      hsnapshots
    intro height l hl
    rcases hcases with rfl | ⟨l', rfl⟩
    · cases hl
    · by_contra hne
      rw [GoMap.lookup_insert, if_neg hne] at hl
      cases hl
  -- the indexes
  obtain ⟨t6, h6, h⟩ := bind_unit_eq_ret.mp h
  obtain ⟨t7, h7, h6⟩ := bind_unit_eq_ret.mp h6
  cases h6
  obtain ⟨-, rfl⟩ := Outcome.ret.inj ((forEach_addToIndexLocked_singleton hhash rfl).symm.trans h7)
  -- the work, and no orphans
  obtain ⟨t8, h8, h⟩ := bind_unit_eq_ret.mp h
  cases h8
  obtain ⟨-, rfl⟩ := Outcome.ret.inj ((processLoadedOrphansLocked_apply (le_refl 1)).symm.trans h)
  refine ⟨rfl, hhash, rfl, rfl, rfl, rfl, rfl, rfl, rfl, hs, totalWorkOf_fst _ ∅, rfl, rfl, rfl,
    rfl, ?_⟩
  exact fun height l hl => hzero height l hl

/-- A run without calls ends in the fresh chain. -/
theorem fresh_of_run_nil (h : runFromStart env [] = some w) : Fresh env w := by
  unfold runFromStart at h
  split at h
  · next w0 hw0 => exact Option.some.inj h ▸ fresh_of_start hw0
  · cases h

theorem Fresh.holds {w : World} (h : Fresh env w) (hP : P (createGenesisBlock env)) :
    w.chain.Holds P where
  blocks b hb := by
    rw [h.blocks, List.mem_singleton] at hb
    exact hb ▸ hP
  known k b hb := by
    rw [h.known, GoMap.lookup_insert] at hb
    split at hb
    · next hk => exact Option.some.inj hb ▸ ⟨hP, hk.symm⟩
    · cases hb
  forks k l b hl := by
    rw [h.forkBlocks] at hl
    cases hl
  forkHashes k b hb := by
    rw [h.forkBlocksByHash] at hb
    cases hb
  orphans k b hb := by
    rw [orphan?, h.orphans] at hb
    cases hb
  stamps o k t ho := by
    rw [h.orphans] at ho
    cases ho

/-! ## Invariants of runs -/

/-- What a call brings in: blocks with `P` that pass the consensus check, and for an explicit
reorganisation a target in `T`. -/
def Call.Allowed (env : Env) (P : Block → Prop) (T : Chain → Block → Block → Prop) : Call → Prop
  | .addBlock b => validateBlockConsensusLocked env b = .ok () → P b
  | .rollbackToHeight _ => True
  | .reorganizeToKnownFork ancestor newTip => P newTip ∧ ∀ c, T c ancestor newTip

/-- **A call is a sequence of moves.** -/
theorem evolves_call (hT : ∀ c ancestor newTip, Target c ancestor newTip → T c ancestor newTip)
    {call : Call} (h : call.Allowed env P T) (w : World) :
    Steps (Evolves env P T) (call.exec env) w := by
  cases call with
  | addBlock b =>
    exact steps_bind_all (evolves_addBlock hT h w) fun _ t => steps_pure () t
  | rollbackToHeight height => exact evolves_rollbackToHeight height w
  | reorganizeToKnownFork ancestor newTip =>
    exact evolves_reorganizeChainLocked h.1 (h.2 w.chain)

/-- Steps are only added. -/
theorem Move.steps_suffix {w w' : World} (h : Move env P T w w') :
    ∃ l, w'.steps = l ++ w.steps := by
  cases h with
  | still hsteps _ => exact ⟨[], hsteps⟩
  | extend b _ _ h | switch ancestor newTip visited _ _ _ h | cut height h => exact ⟨[_], h.steps⟩

/-- **Invariant rule for runs.** An invariant that the fresh chain has, and that every move
keeps as long as all steps on record are clean, holds at the end of every run whose steps
are all clean. -/
theorem run_invariant {I : World → Prop} {Clean : CoreStep → Prop}
    (hT : ∀ c ancestor newTip, Target c ancestor newTip → T c ancestor newTip)
    (hgenesis : P (createGenesisBlock env)) (hfresh : ∀ w, Fresh env w → I w)
    (hmove : ∀ w w', w.chain.Holds P → (∀ step ∈ w'.steps, Clean step) → I w →
      Move env P T w w' → I w')
    {calls : List Call} {w : World} (hcalls : ∀ call ∈ calls, call.Allowed env P T)
    (h : runFromStart env calls = some w) :
    w.chain.Holds P ∧ ((∀ step ∈ w.steps, Clean step) → I w) := by
  refine runFromStart_induction env (I := fun w => w.chain.Holds P
    ∧ ((∀ step ∈ w.steps, Clean step) → I w)) ?_ ?_ hcalls h
  · intro w0 hw0
    exact ⟨(fresh_of_start hw0).holds hgenesis, fun _ => hfresh w0 (fresh_of_start hw0)⟩
  · rintro call w0 w1 hok ⟨hP, hI⟩ hexec
    obtain ⟨hP1, hmoves⟩ := evolves_call hT hok w0 w1 hexec hP
    refine ⟨hP1, ?_⟩
    clear hexec hP1
    induction hmoves with
    | refl => exact hI
    | tail _ hstep ih =>
      intro hclean
      obtain ⟨l, hl⟩ := hstep.2.steps_suffix
      refine hmove _ _ hstep.1 hclean (ih fun step hs => hclean step ?_) hstep.2
      rw [hl]
      exact List.mem_append_right l hs

/-- The rule for an invariant that does not depend on what the blocks are. -/
theorem run_invariant_any {I : World → Prop} {Clean : CoreStep → Prop}
    (hfresh : ∀ w, Fresh env w → I w)
    (hmove : ∀ w w', w.chain.Holds (fun _ => True) → (∀ step ∈ w'.steps, Clean step) → I w →
      Move env (fun _ => True) (fun _ _ _ => True) w w' → I w')
    {calls : List Call} (h : runFromStart env calls = some w)
    (hclean : ∀ step ∈ w.steps, Clean step) : I w := by
  refine (run_invariant (fun _ _ _ _ => trivial) trivial hfresh hmove (fun call _ => ?_) h).2 hclean
  cases call <;> simp [Call.Allowed]

/-! ## Relations between a canonical block and the next -/

theorem Replayed.blocks_eq {old new : Core} {r : Nat × GoMap Nat Bytes} {x : Indexes}
    (h : Replayed env old r x new) : new.blocks = old.blocks := by
  unfold Replayed at h
  split at h
  · rw [h]
  · obtain ⟨store, rfl⟩ := h
    rfl

/-- The blocks after an extension: those before it, or one more, which was then stored and
applied. -/
theorem Extension.blocks_eq (h : Extension env w w' b) :
    w'.chain.blocks = w.chain.blocks
      ∨ ((∃ store, w.chain.appended env b = .ok store) ∧ (∃ s, w.chain.applied env b = .ret () s)
        ∧ w'.chain.blocks = w.chain.blocks ++ [b]) := by
  have hcore := h.core
  split at hcore
  · exact .inl (congrArg Core.blocks hcore)
  · next store happended =>
    split at hcore
    · next s happlied =>
      exact .inr ⟨⟨store, happended⟩, ⟨s, happlied⟩, congrArg Core.blocks hcore⟩
    · exact .inl (congrArg Core.blocks hcore)

theorem Switch.blocks_eq {ancestor : Block} {newBlocks : List Block}
    (h : Switch env w w' ancestor newBlocks) :
    w'.chain.blocks = w.chain.spliced ancestor newBlocks := by
  obtain ⟨_, _, -, hreplayed⟩ := h.core
  exact hreplayed.blocks_eq

theorem Cut.blocks_eq {height : UInt64} (h : Cut env w w' height) :
    w'.chain.blocks = w.chain.blocks.take (height.toNat + 1) :=
  h.core.blocks_eq

/-- **A block that is accepted at the tip**: the store takes it, and so does the state. -/
def CoreStep.Accepts (env : Env) : CoreStep → Prop
  | .extend before b => (before.appended env b).isOk ∧ (before.applied env b).value? = some ()
  | _ => False

theorem CoreStep.accepts_extend {before : Chain} :
    CoreStep.Accepts env (.extend before b)
      ↔ (∃ store, before.appended env b = .ok store) ∧ ∃ s, before.applied env b = .ret () s := by
  constructor
  · rintro ⟨happended, happlied⟩
    refine ⟨?_, Outcome.value?_eq_some happlied⟩
    cases hstore : before.appended env b with
    | ok store => exact ⟨store, rfl⟩
    | error e =>
      rw [hstore] at happended
      cases happended
  · rintro ⟨⟨store, hstore⟩, s, hs⟩
    show (before.appended env b).isOk ∧ (before.applied env b).value? = some ()
    rw [hstore, hs]
    exact ⟨rfl, rfl⟩

instance (step : CoreStep) : Decidable (step.Accepts env) :=
  match step with
  | .extend _ _ => inferInstanceAs (Decidable (_ ∧ _))
  | .reorganize _ _ _ => inferInstanceAs (Decidable False)
  | .rollback _ _ => inferInstanceAs (Decidable False)

/-- The canonical blocks that a reorganisation keeps. -/
def Chain.kept (c : Chain) (ancestor : Block) : List Block :=
  c.blocks.take (goInt ancestor.height + 1).toNat

theorem Chain.spliced_eq (c : Chain) (ancestor : Block) (newBlocks : List Block) :
    c.spliced ancestor newBlocks = c.kept ancestor ++ newBlocks := rfl

/-- **A relation between each canonical block and the next is kept by a move**, if it holds
between the tip and a block that is put on it, along the blocks of a branch that is switched
to, and between the block it is put on and its first. -/
theorem Move.isChain {R : Block → Block → Prop} (h : Move env P T w w')
    (hw : w.chain.blocks.IsChain R)
    (hextend : ∀ b, P b → Attaches env w b → (∃ store, w.chain.appended env b = .ok store) →
      (∃ s, w.chain.applied env b = .ret () s) → w'.steps = .extend w.chain b :: w.steps →
      ∀ tip ∈ w.chain.tip?, R tip b)
    (hswitch : ∀ ancestor newTip visited, P newTip → T w.chain ancestor newTip →
      Branch env w.chain ancestor newTip visited →
      w'.steps = .reorganize w.chain ancestor visited.dropLast.reverse :: w.steps →
      visited.dropLast.reverse.IsChain R
        ∧ ∀ p ∈ (w.chain.kept ancestor).getLast?, ∀ b ∈ visited.dropLast.reverse.head?, R p b) :
    w'.chain.blocks.IsChain R := by
  cases h with
  | still hsteps hcore =>
    have hblocks : w'.chain.blocks = w.chain.blocks := congrArg Core.blocks hcore
    rwa [hblocks]
  | extend b hP hattach h =>
    rcases h.blocks_eq with hblocks | ⟨happended, happlied, hblocks⟩
    · rwa [hblocks]
    · rw [hblocks, List.isChain_append]
      refine ⟨hw, .singleton b, fun tip htip x hx => ?_⟩
      obtain rfl : b = x := by simpa using hx
      exact hextend b hP hattach happended happlied h.steps tip htip
  | switch ancestor newTip visited hP hT hbranch h =>
    obtain ⟨hnew, hjoin⟩ := hswitch ancestor newTip visited hP hT hbranch h.steps
    rw [h.blocks_eq, Chain.spliced_eq, List.isChain_append]
    exact ⟨hw.take _, hnew, hjoin⟩
  | cut height h =>
    rw [h.blocks_eq]
    exact hw.take _

end NogoChain
