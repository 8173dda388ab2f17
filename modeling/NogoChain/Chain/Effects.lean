import NogoChain.Chain.Contents

/-!
# What a call can do to the canonical chain

The canonical chain with its state, its work and the store – the *core* of the chain – is
changed in three places only: where the tip is extended, where a reorganisation switches to
another branch, and where a rollback cuts the chain. This file says of each what it can do,
error paths included, and that every other part of a call leaves the core alone. A call is
then a sequence of such moves, and an invariant of the core is proved once for each kind of
move.
-/

namespace NogoChain

open Chain Prog

variable {env : Env} {P : Block → Prop}

/-- What the consensus check has looked at. -/
theorem of_validateBlockConsensusLocked {b : Block}
    (h : validateBlockConsensusLocked env b = .ok ()) :
    (∃ cb rest, b.transactions = cb :: rest ∧ cb.type = .coinbase) ∧ b.hash ≠ []
      ∧ b.header.difficultyBits ≠ 0 := by
  unfold validateBlockConsensusLocked at h
  split at h
  · cases h
  · next cb rest htxs =>
    split at h
    · cases h
    · next hcb =>
      split at h
      · cases h
      · next hhash =>
        split at h
        · cases h
        · next hbits => exact ⟨⟨cb, rest, htxs, not_not.mp hcb⟩, hhash, hbits⟩

/-! ## The core -/

/-- The part of the chain that moves are about. -/
structure Core where
  blocks : List Block
  state : Ledger
  canonicalWork : Nat
  /-- texts written to `TotalWork` -/
  totalWork : GoMap Nat Bytes
  store : BoltStore
  indexes : Indexes

/-- The core of a chain. -/
def Chain.core (c : Chain) : Core :=
  ⟨c.blocks, c.state, c.canonicalWork, c.totalWork, c.store, c.indexes⟩

/-- `applyBlockToState` in an environment. -/
def applyIn (env : Env) (b : Block) : LedgerM Unit :=
  applyBlockToState env.cr env.consensus env.monetaryPolicy b env.genesisAddress

/-- The fold of `applyBlockToState` over a list of blocks. -/
def replayBlocks (env : Env) (bs : List Block) : LedgerM Unit :=
  Prog.forEach bs (applyIn env)

/-- **The replay of a chain**: `applyBlockToState` folded over its canonical blocks, as their
`TotalWork` is now, from the empty map. -/
def Chain.replay (env : Env) (c : Chain) : Outcome Ledger GoError Empty Unit :=
  replayBlocks env (c.blocks.map c.view) ∅

/-- The world with another account map. -/
def World.withState (w : World) (s : Ledger) : World :=
  { w with chain := { w.chain with state := s } }

/-! ## Replaying the state -/

theorem applyBlock_apply (b : Block) (w : World) :
    applyBlock env b w = match applyIn env (w.chain.view b) w.chain.state with
      | .ret () s => .ret () (w.withState s)
      | .err e s => .err e (w.withState s) := by
  have h : applyBlock env b w = Prog.zoom (fun w : World => w.chain.state)
      (fun state w => w.withState state) (applyIn env (w.chain.view b)) w := rfl
  rw [h]
  unfold Prog.zoom
  cases applyIn env (w.chain.view b) w.chain.state with
  | ret a s => rfl
  | err e s => rfl
  | fault x => exact x.elim

/-- The loop of `recomputeStateLocked` does to the state of the chain what the replay does
to the map. -/
theorem forEach_applyBlock (bs : List Block) (w : World) :
    let body := fun block => do
      match ← Prog.attempt (applyBlock env block) with
      | .ok () => pure ()
      | .error e => Prog.throw (.wrap "apply block %d: %w" [.num block.height.toNat] e)
    match replayBlocks env (bs.map w.chain.view) w.chain.state with
    | .ret () s => Prog.forEach bs body w = .ret () (w.withState s)
    | .err _ s => ∃ e, Prog.forEach bs body w = .err e (w.withState s) := by
  intro body
  induction bs generalizing w with
  | nil => rfl
  | cons b bs ih =>
    simp only [replayBlocks, List.map_cons, Prog.forEach, bind_apply, body, Prog.attempt,
      applyBlock_apply] at ih ⊢
    cases applyIn env (w.chain.view b) w.chain.state with
    | ret a s => exact ih (w.withState s)
    | err e s => exact ⟨_, rfl⟩
    | fault x => exact x.elim

/-- **What `recomputeStateLocked` does**: the state becomes that of the replay, up to the
block that fails if one does. -/
theorem recomputeStateLocked_apply (env : Env) (w : World) :
    match w.chain.replay env with
    | .ret () s => recomputeStateLocked env w = .ret () (w.withState s)
    | .err _ s => ∃ e, recomputeStateLocked env w = .err e (w.withState s) :=
  forEach_applyBlock w.chain.blocks (w.withState ∅)

/-! ## Extending the tip -/

/-- The result of a store write, the refusal by the database included. -/
def Chain.written (env : Env) (c : Chain) (write : BoltStore → Except GoError BoltStore) :
    Except GoError BoltStore :=
  if env.storeOk c.tick then write c.store else .error (.new "database write failed")

/-- The run time was asked once more. -/
def Chain.ticked (c : Chain) : Chain := { c with tick := c.tick + 1 }

/-- The store after a write that was carried out. -/
def Chain.withStore (c : Chain) (store : BoltStore) : Chain :=
  { c with tick := c.tick + 1, store := store }

theorem storeWrite_apply (write : BoltStore → Except GoError BoltStore) (w : World) :
    storeWrite env write w = match w.chain.written env write with
      | .error e => .err e { w with chain := w.chain.ticked }
      | .ok store => .ret () { w with chain := w.chain.withStore store } := by
  have h : storeWrite env write w = (if env.storeOk w.chain.tick then
          match write w.chain.store with
          | .error e => Prog.throw e
          | .ok store => update fun c => { c with store := store }
        else Prog.throw (.new "database write failed") : ChainM Unit)
          { w with chain := w.chain.ticked } := rfl
  rw [h]
  unfold written
  split
  · cases write w.chain.store <;> rfl
  · rfl

theorem rewriteCanonical_apply (w : World) : rewriteCanonical env w
    = storeWrite env (·.rewriteCanonical (w.chain.blocks.map w.chain.view)) w := rfl

theorem Chain.written_eq_ok {c : Chain} {write : BoltStore → Except GoError BoltStore}
    {store : BoltStore} :
    c.written env write = .ok store ↔ env.storeOk c.tick = true ∧ write c.store = .ok store := by
  unfold written
  split <;> simp [*]

theorem Chain.exists_written_error_iff {c : Chain} {write : BoltStore → Except GoError BoltStore} :
    (∃ e, c.written env write = .error e)
      ↔ ¬ (env.storeOk c.tick = true ∧ (write c.store).isOk = true) := by
  unfold written
  split
  · cases write c.store <;> simp [*, Except.isOk, Except.toBool]
  · simp [*]

/-- The two causes of a refused write. -/
theorem refused_of_not_written {n : Nat} {result : Except GoError BoltStore}
    (h : ¬ (env.storeOk n = true ∧ result.isOk = true)) :
    (∃ e, result = .error e) ∨ env.storeOk n = false := by
  by_cases hok : env.storeOk n = true
  · cases result with
    | error e => exact .inl ⟨e, rfl⟩
    | ok store => exact absurd ⟨hok, rfl⟩ h
  · exact .inr (by simpa using hok)

/-- The store write that goes with the extension of the tip. -/
def Chain.appended (env : Env) (c : Chain) (b : Block) : Except GoError BoltStore :=
  c.written env fun store => store.appendCanonical ((c.putOn env b).view b)

/-- The outcome of applying a block at the tip. -/
def Chain.applied (env : Env) (c : Chain) (b : Block) : Outcome Ledger GoError Empty Unit :=
  applyIn env ((c.putOn env b).view b) c.state

/-- A block with the work of the chain up to it. -/
def Chain.withWork (c : Chain) (b : Block) : Block :=
  { b with totalWork :=
      Json.decimal (c.canonicalWork + workForDifficultyBits b.header.difficultyBits) }

theorem view_putOn (c : Chain) (b : Block) : (c.putOn env b).view b = c.withWork b := by
  have hlookup : (c.putOn env b).totalWork.lookup b.ptr
      = some (Json.decimal (c.canonicalWork + workForDifficultyBits b.header.difficultyBits)) :=
    AList.lookup_insert _
  rw [view, hlookup]
  rfl

/-- **What `appendToTip` does**: the block is refused by the store, or stored and refused by
the state, or stored and applied. -/
theorem appendToTip_apply (b : Block) (w : World) :
    appendToTip env b w =
      let steps := CoreStep.extend w.chain b :: w.steps
      let on := w.chain.putOn env b
      match w.chain.appended env b with
      | .error e => .err (.wrap "persist block: %w" [] e) ⟨on.ticked.takeOff b, steps⟩
      | .ok store =>
        match w.chain.applied env b with
        | .ret () s => .ret () (World.withState ⟨on.withStore store, steps⟩ s)
        | .err e s => .err (.wrap "apply block to state: %w" [] e)
            ⟨(World.withState ⟨on.withStore store, steps⟩ s).chain.takeOff b, steps⟩ := by
  have hwrite : (w.chain.putOn env b).written env
      (fun store => store.appendCanonical ((w.chain.putOn env b).view b))
      = w.chain.appended env b := rfl
  simp only [appendToTip, record, update, chain, bind_apply, modify_apply,
    get_apply, pure_apply, Prog.attempt, storeWrite_apply, hwrite]
  cases w.chain.appended env b with
  | error e => rfl
  | ok store =>
    have hview : ((w.chain.putOn env b).withStore store).view b
        = (w.chain.putOn env b).view b := rfl
    have hstate : applyIn env ((w.chain.putOn env b).view b)
        ((w.chain.putOn env b).withStore store).state = w.chain.applied env b := rfl
    simp only [bind_apply, Prog.attempt, applyBlock_apply, hview, hstate]
    cases w.chain.applied env b with
    | ret a s => rfl
    | err e s => rfl
    | fault x => exact x.elim

/-! ## Parts of a call that leave the core alone -/

variable {α : Type} {w w' : World}

theorem chain_bind_apply (f : Chain → ChainM α) (w : World) : (chain >>= f) w = f w.chain w := (rfl)

/-- A program that returns no error. -/
abbrev NoErr {α : Type} (m : ChainM α) (w : World) : Prop := Errs (fun _ _ => False) m w

theorem noErr_update (f : Chain → Chain) (w : World) : NoErr (update f) w := nofun

theorem noErr_ask (answer : Nat → α) (w : World) : NoErr (ask answer) w := nofun

/-- The prefix of a hash is for the log, and is taken or panics. -/
theorem hexPrefix16_ret {hash : Bytes} {expr : String}
    (h : hexPrefix16 hash expr w = .ret () w') : w = w' := by
  unfold hexPrefix16 at h
  split at h
  · cases h
  · exact (Outcome.ret.inj h).2

theorem noErr_hexPrefix16 (hash : Bytes) (expr : String) (w : World) :
    NoErr (hexPrefix16 hash expr) w := by
  unfold hexPrefix16
  split
  · exact errs_crash _ w
  · exact errs_pure () w

variable {R : World → World → Prop}

section Preorder

theorem steps_chain_bind {f : Chain → ChainM α}
    (h : Steps R (f w.chain) w) : Steps R (chain >>= f) w := h

theorem steps_update {f : Chain → Chain} (h : R w { w with chain := f w.chain }) :
    Steps R (update f) w :=
  steps_modify h

theorem errless_chain_bind {f : Chain → ChainM α} (h : Errless R (f w.chain) w) :
    Errless R (chain >>= f) w :=
  ⟨h.steps, h.noErr⟩

theorem errless_update {f : Chain → Chain} (h : R w { w with chain := f w.chain }) :
    Errless R (update f) w :=
  ⟨steps_update h, noErr_update f w⟩

theorem errless_ask (h : R w { w with chain := w.chain.ticked }) (answer : Nat → α) :
    Errless R (ask answer) w :=
  ⟨steps_of_ret rfl h, noErr_ask answer w⟩

variable [IsPreorder World R]

theorem steps_hexPrefix16 (hash : Bytes) (expr : String) (w : World) :
    Steps R (hexPrefix16 hash expr) w := by
  unfold hexPrefix16
  split
  · exact steps_crash _ w
  · exact steps_pure () w

theorem steps_hexPrefix16_bind {hash : Bytes} {expr : String} {f : Unit → ChainM α}
    (h : Steps R (f ()) w) : Steps R (hexPrefix16 hash expr >>= f) w :=
  steps_bind (steps_hexPrefix16 hash expr w) fun _ _ ht => hexPrefix16_ret ht ▸ h

theorem errless_hexPrefix16 (hash : Bytes) (expr : String) (w : World) :
    Errless R (hexPrefix16 hash expr) w :=
  ⟨steps_hexPrefix16 hash expr w, noErr_hexPrefix16 hash expr w⟩

theorem steps_bytePrefix8 (s : Bytes) (cap : Nat) (expr : String) (w : World) :
    Steps R (bytePrefix8 s cap expr) w := by
  unfold bytePrefix8
  split
  · exact steps_crash _ w
  · exact steps_pure () w

theorem steps_blockAt (i : Int) (w : World) : Steps R (blockAt i) w := by
  refine steps_chain_bind ?_
  split
  · split
    · exact steps_pure _ w
    · exact steps_crash _ w
  · exact steps_crash _ w

theorem errless_unboundedWalk {β : Type} (step : Block → WalkStep Block β) (bound : Nat)
    (start : Block) (w : World) : Errless R (unboundedWalk step bound start) w := by
  unfold unboundedWalk
  split
  · exact errless_pure _ w
  · exact errless_crash _ w

theorem steps_wrapping {format : String} {args : List FmtArg} {m : ChainM α}
    (h : Steps R m w) : Steps R (wrapping format args m) w := by
  refine steps_bind_all (steps_attempt h) fun r t => ?_
  cases r with
  | ok a => exact steps_pure a t
  | error e => exact steps_throw _ t

end Preorder

/-- **The core stays**, no step is recorded, and the maps hold what they held or less. -/
structure Aside (w w' : World) : Prop where
  steps : w'.steps = w.steps
  core : w'.chain.core = w.chain.core
  shrinks : w.chain.Shrinks w'.chain

instance : IsPreorder World Aside where
  refl _ := ⟨rfl, rfl, .refl _⟩
  trans _ _ _ h h' := ⟨h'.steps.trans h.steps, h'.core.trans h.core, h.shrinks.trans h'.shrinks⟩

/-- Nothing but the work cache and the counter changes. -/
def CacheOnly (w w' : World) : Prop :=
  ∃ m n, w' = { w with chain := { w.chain with workCache := m, tick := n } }

instance : IsPreorder World CacheOnly where
  refl _ := ⟨_, _, rfl⟩
  trans := by
    rintro w _ _ ⟨m, n, rfl⟩ ⟨m', n', rfl⟩
    exact ⟨m', n', rfl⟩

theorem CacheOnly.holds (h : CacheOnly w w') (hw : w.chain.Holds P) : w'.chain.Holds P := by
  obtain ⟨m, n, rfl⟩ := h
  exact ⟨hw.blocks, hw.known, hw.forks, hw.forkHashes, hw.orphans, hw.stamps⟩

theorem errless_enforceWorkCacheSize (w : World) :
    Errless CacheOnly (enforceWorkCacheSize env) w := by
  refine errless_chain_bind ?_
  split
  · exact errless_pure () w
  · exact errless_bind (errless_ask ⟨_, _, rfl⟩ _) fun keys t => errless_update ⟨_, _, rfl⟩

theorem errless_calculateCumulativeWorkLocked (b : Block) (w : World) :
    Errless CacheOnly (calculateCumulativeWorkLocked env b) w := by
  refine errless_chain_bind ?_
  split
  · exact errless_pure _ w
  · refine errless_bind (errless_unboundedWalk _ _ _ _) fun r t => ?_
    refine errless_bind (errless_update ⟨_, _, rfl⟩) fun _ t => ?_
    refine errless_bind (errless_enforceWorkCacheSize t) fun _ t => ?_
    exact errless_pure _ t

theorem errless_forkChainComplete [IsPreorder World R] (b : Block)
    (w : World) : Errless R (forkChainComplete b) w := by
  refine errless_chain_bind ?_
  split
  · exact errless_pure _ w
  · exact errless_crash _ w

theorem errless_considerForkBlock (h : UInt64) (parents : List Bytes) (best : Candidate) (b : Block)
    (w : World) : Errless CacheOnly (considerForkBlock env h parents best b) w := by
  unfold considerForkBlock
  split
  · exact errless_pure _ w
  · split
    · exact errless_pure _ w
    · refine errless_bind (errless_forkChainComplete b w) fun complete t => ?_
      split
      · exact errless_pure _ t
      · exact errless_bind (errless_calculateCumulativeWorkLocked b t) fun _ t =>
          errless_pure _ t

theorem errless_considerForkBlocks (h : UInt64) (parents : List Bytes) (bs : List Block) :
    ∀ (best : Candidate) (w : World),
      Errless CacheOnly (considerForkBlocks env h parents best bs) w := by
  induction bs with
  | nil => exact fun best w => errless_pure best w
  | cons b bs ih =>
    intro best w
    exact errless_bind (errless_considerForkBlock h parents best b w) fun best t => ih best t

theorem errless_findBestChainTipLocked (w : World) :
    Errless CacheOnly (findBestChainTipLocked env) w := by
  refine errless_chain_bind ?_
  split
  · exact errless_pure _ w
  · refine errless_bind (errless_ask ⟨_, _, rfl⟩ _) fun entries t => ?_
    exact errless_bind (errless_considerForkBlocks _ _ _ _ _) fun best t => errless_pure _ t

theorem errless_betterTip (w : World) : Errless CacheOnly (betterTip env) w := by
  refine errless_bind (errless_findBestChainTipLocked w) fun best t => ?_
  cases best with
  | none => exact errless_pure _ t
  | some best => exact errless_chain_bind (errless_pure _ t)

theorem errless_shouldReorgToHeaviestLocked (w : World) :
    Errless CacheOnly (shouldReorgToHeaviestLocked env) w := by
  refine errless_chain_bind ?_
  split
  · exact errless_pure _ w
  · exact errless_bind (errless_betterTip w) fun _ t => errless_pure _ t

theorem steps_findCommonAncestorLocked [IsPreorder World R] (b : Block)
    (w : World) : Steps R (findCommonAncestorLocked b) w := by
  refine steps_bind_all ?_ fun r t => ?_
  · refine steps_chain_bind (steps_bind_all (errless_unboundedWalk _ _ _ _).steps fun r t => ?_)
    obtain ⟨visited, divergence⟩ := r
    cases divergence with
    | error fault => exact steps_crash _ t
    | ok divergence => exact steps_pure _ t
  · cases r with
    | none => exact steps_throw _ t
    | some a => exact steps_pure a t

/-! ### The orphan pool -/

theorem core_dropDisconnected (height : UInt64) :
    ∀ (es : List ((_ : Bytes) × Block)) (c : Chain), (dropDisconnected height es c).core = c.core
  | [], _ => rfl
  | e :: es, c => by
    unfold dropDisconnected
    rw [core_dropDisconnected height es]
    split <;> rfl

theorem core_rebuildOrphanByParentIndexLocked (c : Chain) (es : List ((_ : Bytes) × Block)) :
    (c.rebuildOrphanByParentIndexLocked env es).core = c.core := by
  unfold rebuildOrphanByParentIndexLocked
  split <;> rfl

theorem core_putOrphan (c : Chain) (h : Bytes) (b : Block) (t : Int) :
    (c.putOrphan env h b t).core = c.core := by
  unfold putOrphan
  split <;> rfl

theorem core_makeOrphanPool (c : Chain) : c.makeOrphanPool.core = c.core := by
  unfold makeOrphanPool
  split <;> rfl

/-- **A relation that the clean-up of the pool goes through.** -/
structure Discards (R : World → World → Prop) : Prop where
  /-- the run time is asked -/
  ticks : ∀ w : World, R w { w with chain := w.chain.ticked }
  /-- an orphan leaves the pool -/
  remove : ∀ (w : World) (k : Bytes), R w { w with chain := w.chain.removeOrphanLocked k }

section Discards

variable [IsPreorder World R]

theorem errless_cleanupExpiredOrphansLocked (h : Discards R) (w : World) :
    Errless R (cleanupExpiredOrphansLocked env) w := by
  refine errless_chain_bind ?_
  split
  · exact errless_pure () w
  · split
    · exact errless_pure () w
    · refine errless_bind (errless_ask (h.ticks w) _) fun now t => ?_
      refine errless_bind (errless_ask (h.ticks t) _) fun entries t => ?_
      refine errless_forEach (fun e t => ?_) t
      split
      · exact errless_update (h.remove t e.1)
      · exact errless_pure () t

theorem errless_evictOldestOrphan (h : Discards R) (w : World) :
    Errless R (evictOldestOrphan env) w := by
  refine errless_chain_bind ?_
  split
  · exact errless_pure () w
  · split
    · exact errless_pure () w
    · refine errless_bind (errless_ask (h.ticks w) _) fun entries t => ?_
      split
      · exact errless_pure () t
      · split
        · exact errless_pure () t
        · exact errless_bind (errless_update (h.remove t _)) fun _ t => errless_hexPrefix16 _ _ t

theorem errless_cleanOrphanPoolAboveHeight {height : UInt64}
    (hticks : ∀ w : World, R w { w with chain := w.chain.ticked })
    (hdrop : ∀ es (w : World), R w { w with chain := dropDisconnected height es w.chain })
    (hrebuild : ∀ es (w : World),
      R w { w with chain := w.chain.rebuildOrphanByParentIndexLocked env es }) (w : World) :
    Errless R (cleanOrphanPoolAboveHeight env height) w := by
  refine errless_chain_bind ?_
  split
  · exact errless_pure () w
  · split
    · exact errless_pure () w
    · refine errless_bind (errless_ask (hticks w) _) fun entries t => ?_
      refine errless_bind (errless_update (hdrop _ t)) fun _ t => ?_
      refine errless_chain_bind ?_
      split
      · exact errless_pure () t
      · split
        · exact errless_pure () t
        · exact errless_bind (errless_ask (hticks t) _) fun entries t =>
            errless_update (hrebuild _ t)

end Discards

/-! ### The clean-up returns -/

/-- The counter after `cleanupExpiredOrphansLocked`, which reads the clock and ranges over the
pool if there is one. -/
def Chain.expiryTick (c : Chain) : Nat :=
  match c.orphans with
  | none => c.tick
  | some o => if o.timestamps.entries = [] then c.tick else c.tick + 2

/-- The chain with another pool. -/
def Chain.withPool (c : Chain) (orphans : Option Orphans) (arrays : Slice.Heap Bytes) : Chain :=
  { c with orphans := orphans, arrays := arrays }

/-- The chain with another pool, after the clean-up. -/
def Chain.expired (c : Chain) (orphans : Option Orphans) (arrays : Slice.Heap Bytes) : Chain :=
  { c.withPool orphans arrays with tick := c.expiryTick }

theorem exists_removeOrphanIndexLocked (c : Chain) (h p : Bytes) :
    ∃ o a, c.removeOrphanIndexLocked h p = c.withPool o a := by
  unfold Chain.removeOrphanIndexLocked
  repeat' split
  all_goals exact ⟨_, _, rfl⟩

theorem exists_removeOrphanLocked (c : Chain) (h : Bytes) :
    ∃ o a, c.removeOrphanLocked h = c.withPool o a := by
  unfold Chain.removeOrphanLocked
  split
  · exact ⟨_, _, rfl⟩
  · split
    · exact ⟨_, _, rfl⟩
    · exact exists_removeOrphanIndexLocked _ _ _

theorem exists_removeExpired (now : Int) (es : List ((_ : Bytes) × Int)) (w : World) :
    ∃ o a, Prog.forEach es (fun e : (_ : Bytes) × Int =>
        if now - e.2 > maxOrphanPoolAge then update (·.removeOrphanLocked e.1) else pure ()) w
      = .ret () ⟨w.chain.withPool o a, w.steps⟩ := by
  induction es generalizing w with
  | nil => exact ⟨_, _, rfl⟩
  | cons e es ih =>
    rw [Prog.forEach, bind_apply]
    by_cases hold : now - e.2 > maxOrphanPoolAge
    · obtain ⟨o, a, hremoved⟩ := exists_removeOrphanLocked w.chain e.1
      obtain ⟨o', a', hrest⟩ := ih ⟨w.chain.withPool o a, w.steps⟩
      have hupdate : update (·.removeOrphanLocked e.1) w
          = .ret () ⟨w.chain.withPool o a, w.steps⟩ := by
        rw [← hremoved]
        rfl
      rw [if_pos hold, hupdate]
      exact ⟨o', a', hrest⟩
    · rw [if_neg hold]
      exact ih w

/-- The clean-up changes the pool only. -/
theorem exists_cleanupExpiredOrphansLocked (w : World) :
    ∃ o a, cleanupExpiredOrphansLocked env w = .ret () ⟨w.chain.expired o a, w.steps⟩ := by
  unfold cleanupExpiredOrphansLocked Chain.expired Chain.expiryTick
  rw [chain_bind_apply]
  cases ho : w.chain.orphans with
  | none => exact ⟨w.chain.orphans, w.chain.arrays, rfl⟩
  | some o =>
    dsimp only
    split
    · exact ⟨w.chain.orphans, w.chain.arrays, rfl⟩
    · obtain ⟨o', a', h⟩ := exists_removeExpired (env.now w.chain.tick)
        (env.order (w.chain.tick + 1) o.timestamps.entries) ⟨w.chain.ticked.ticked, w.steps⟩
      exact ⟨o', a', h⟩

theorem Aside.of_chain {c : Chain} (hcore : c.core = w.chain.core) (hs : w.chain.Shrinks c) :
    Aside w { w with chain := c } :=
  ⟨rfl, hcore, hs⟩

theorem discards_aside : Discards Aside where
  ticks _ := .of_chain rfl (.of_eq rfl rfl rfl rfl rfl (.inl rfl))
  remove w k := by
    obtain ⟨o, a, h⟩ := exists_removeOrphanLocked w.chain k
    exact .of_chain (by rw [h]; rfl) (shrinks_removeOrphanLocked _ _)

theorem aside_cleanOrphanPoolAboveHeight (height : UInt64) (w : World) :
    Errless Aside (cleanOrphanPoolAboveHeight env height) w :=
  errless_cleanOrphanPoolAboveHeight discards_aside.ticks
    (fun _ _ => .of_chain (core_dropDisconnected _ _ _) (shrinks_dropDisconnected _ _ _))
    (fun _ _ => .of_chain (core_rebuildOrphanByParentIndexLocked _ _)
      (shrinks_rebuildOrphanByParentIndexLocked _ _)) w

/-- Nothing but the requests for parents and the counter changes. -/
def RequestsOnly (w w' : World) : Prop :=
  ∃ m n, w' = { w with chain := { w.chain with pendingAncestorRequests := m, tick := n } }

instance : IsPreorder World RequestsOnly where
  refl _ := ⟨_, _, rfl⟩
  trans := by
    rintro w _ _ ⟨m, n, rfl⟩ ⟨m', n', rfl⟩
    exact ⟨m', n', rfl⟩

theorem RequestsOnly.aside (h : RequestsOnly w w') : Aside w w' := by
  obtain ⟨m, n, rfl⟩ := h
  exact ⟨rfl, rfl, .of_eq rfl rfl rfl rfl rfl (.inl rfl)⟩

/-- Nothing but requests for parents, times, events and the counter changes. -/
def Clerical (w w' : World) : Prop :=
  ∃ m l es n, w' = { w with chain := { w.chain with
    pendingAncestorRequests := m, lastAutoReorgTime := l, published := es, tick := n } }

theorem RequestsOnly.clerical (h : RequestsOnly w w') : Clerical w w' := by
  obtain ⟨m, n, rfl⟩ := h
  exact ⟨m, _, _, n, rfl⟩

theorem Clerical.aside (h : Clerical w w') : Aside w w' := by
  obtain ⟨m, l, es, n, rfl⟩ := h
  exact ⟨rfl, rfl, .of_eq rfl rfl rfl rfl rfl (.inl rfl)⟩

theorem requests_ask (answer : Nat → α) (w : World) : Errless RequestsOnly (ask answer) w :=
  errless_ask ⟨_, _, rfl⟩ answer

theorem requests_requestParent (h : Bytes) (w : World) :
    Errless RequestsOnly (requestParent env h) w := by
  have hrecent : Errless RequestsOnly (recentlyRequested env h) w := by
    refine errless_chain_bind ?_
    split
    · exact errless_pure _ w
    · exact errless_bind (requests_ask _ w) fun now t => errless_pure _ t
  refine errless_bind hrecent fun pending t => ?_
  split
  · exact errless_pure _ t
  · refine errless_bind (requests_ask _ t) fun now t => ?_
    exact errless_bind (errless_update ⟨_, _, rfl⟩) fun _ t => errless_pure _ t

theorem requests_requestForkParent (b : Block) (w : World) :
    Errless RequestsOnly (requestForkParent env b) w :=
  errless_bind (requests_requestParent _ w) fun _ t => errless_when (errless_hexPrefix16 _ _ t)

theorem requests_requestOrphanParent (h : Bytes) (w : World) :
    Errless RequestsOnly (requestOrphanParent env h) w := by
  refine errless_chain_bind ?_
  split
  · exact errless_hexPrefix16 _ _ w
  · exact errless_bind (requests_requestParent _ w) fun _ t =>
      errless_when (errless_hexPrefix16 _ _ t)

theorem requests_missingParent (b : Block) (w : World) :
    Steps RequestsOnly (missingParent env b) w := by
  refine steps_chain_bind ?_
  split
  · refine steps_bind_all (requests_requestParent _ w).steps fun _ t => ?_
    exact steps_hexPrefix16_bind (steps_throw _ t)
  · exact steps_throw _ w

theorem steps_requestForkParent (b : Block) (w : World) : Steps Aside (requestForkParent env b) w :=
  steps_mono (requests_requestForkParent b w).steps fun _ h => h.aside

theorem steps_logCanonicalAt [IsPreorder World R] (h : UInt64) (w : World) :
    Steps R (logCanonicalAt h) w := by
  refine steps_chain_bind ?_
  split
  · exact steps_crash _ w
  · exact steps_pure _ w

theorem steps_checkForkSeal [IsPreorder World R] (b : Block) (w : World) :
    Steps R (checkForkSeal env b) w := by
  unfold checkForkSeal
  split
  · refine steps_chain_bind ?_
    split
    · exact steps_hexPrefix16 _ _ w
    · refine steps_bind_all (steps_attempt ?_) fun verdict t => ?_
      · unfold checkSeal
        split
        · exact steps_crash _ w
        · exact steps_ofExcept _ w
      · refine steps_hexPrefix16_bind ?_
        cases verdict with
        | ok _ => exact steps_pure _ t
        | error e => exact steps_throw _ t
  · exact steps_pure _ w

end NogoChain
